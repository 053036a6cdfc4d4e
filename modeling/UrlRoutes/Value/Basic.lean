import UrlRoutes.Value.Dict
import UrlRoutes.Number.Binary64
/-!
# Values

What a route produces when it reads a URL and consumes when it writes one:
nothing, a text, a number, or a record of named values. Two values met in
sequence are merged: records are united, a unit gives way to the other side,
and a record is kept over a bare value.

Equality is that of the contents, with doubles compared as numbers: an
integer never equals a double, and a NaN equals nothing.

Results:
* `merge_unit_left`, `merge_unit_right`: unit is neutral.
* `merge_assoc`: merging is associative.
-/
namespace UrlRoutes

/-- A value with optional names inside. -/
inductive Value where
  | unit
  | text (s : String)
  | int (n : Int)
  | float (x : Float)
  | record (fields : Dict Value)

instance : Inhabited Value := ⟨.unit⟩

namespace Value

def field (key : String) (value : Value) : Value := .record (.single key value)

def kind : Value → String
  | unit => "unit"
  | text _ => "text"
  | int _ => "int"
  | float _ => "float"
  | record _ => "record"

def isUnit : Value → Bool
  | unit => true
  | _ => false

def text? : Value → Option String
  | text s => some s
  | _ => none

def int? : Value → Option Int
  | int n => some n
  | _ => none

/-- Integers widen to doubles. -/
def float? : Value → Option Float
  | float x => some x
  | int n => some (Float.ofInt n)
  | _ => none

def record? : Value → Option (Dict Value)
  | record fields => some fields
  | _ => none

def get? (value : Value) (key : String) : Option Value :=
  value.record?.bind (·.get? key)

/-- Joins the values of two parts read in sequence. -/
def merge : Value → Value → Value
  | unit, right => right
  | left, unit => left
  | record l, record r => record (l.union r)
  | record l, _ => record l
  | _, right => right

/-! ## Equality -/

mutual

/-- Equality of contents, doubles compared as numbers. -/
def same : Value → Value → Bool
  | unit, unit => true
  | text s, text t => s == t
  | int m, int n => m == n
  | float x, float y => x == y
  | record l, record r => sameFields l r
  | _, _ => false

def sameFields : Dict Value → Dict Value → Bool
  | ⟨l⟩, ⟨r⟩ => sameEntries l r

def sameEntries : List (String × Value) → List (String × Value) → Bool
  | [], [] => true
  | (k, v) :: l, (k', v') :: r => k == k' && same v v' && sameEntries l r
  | _, _ => false

end

instance : BEq Value := ⟨same⟩

/-! ## Text -/

mutual

/-- Text of a value; a record lists its fields in key order. -/
def render : Value → String
  | unit => "()"
  | text s => s
  | int n => Number.intText n
  | float x => Binary64.text x
  | record fields => "\x7b" ++ ", ".intercalate (renderFields fields) ++ "\x7d"

def renderFields : Dict Value → List String
  | ⟨entries⟩ => renderEntries entries

def renderEntries : List (String × Value) → List String
  | [] => []
  | (k, v) :: rest => (k ++ ": " ++ render v) :: renderEntries rest

end

/-! ## Merging -/

@[simp] theorem merge_unit_left (v : Value) : merge unit v = v := by cases v <;> rfl

@[simp] theorem merge_unit_right (v : Value) : merge v unit = v := by cases v <;> rfl

theorem merge_assoc (a b c : Value) : (a.merge b).merge c = a.merge (b.merge c) := by
  cases a <;> cases b <;> cases c <;> simp [merge, Dict.union_assoc]

end Value
end UrlRoutes
