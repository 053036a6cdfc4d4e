import UrlRoutes.Route.Tree
import UrlRoutes.Route.Draft
/-!
# Writing with a route

A route writes a value in front of a draft, its right side before its left.
Text that would be cut short by its delimiter when read back is refused, and
so are numbers that have no literal: a route number has no sign and is at
most `maxInt`.

Results:
* `write_both_assoc`, `write_last_assoc`: sequences regroup freely.
-/
namespace UrlRoutes
open Number

/-- The literal of a natural number in a style. -/
def NumberStyle.literal (style : NumberStyle) (n : Nat) : String :=
  match style with
  | decimal => Number.text 10 n
  | float => Number.text 10 n
  | hex => "0x" ++ Number.text 16 n
  | octal => "0o" ++ Number.text 8 n
  | binary => "0b" ++ Number.text 2 n

/-- The literal of a value. Only the float style has literals for doubles. -/
def NumberStyle.render (style : NumberStyle) (value : Value) : Except FormatError String :=
  match style, value with
  | style, .int n =>
    if 0 ≤ n ∧ n ≤ maxInt then .ok (style.literal n.toNat) else .error (.outOfRange (intText n))
  | float, .float x =>
    if x.isFinite ∧ x.toBits.toNat < 1 <<< 63 then .ok (Binary64.text x)
    else .error (.outOfRange (Binary64.text x))
  | float, value => .error (.typeMismatch "number" value.kind)
  | _, value => .error (.typeMismatch "int" value.kind)

namespace Route

def textOf : Value → Except FormatError String
  | .text s => .ok s
  | value => .error (.typeMismatch "text" value.kind)

def fieldOf (value : Value) (key : String) : Except FormatError Value :=
  match value with
  | .record fields =>
    match fields.get? key with
    | some field => .ok field
    | none => .error (.missingKey key)
  | value => .error (.expectedRecord key value.kind)

/-- Text in front of a delimiter, which it must not hold. -/
def writeUpTo (delimiter text : String) (d : Draft) : Except FormatError Draft :=
  if text = "" then .error .emptyCapture
  else if Text.hasLiteral delimiter.toList text.toList then
    .error (.containsDelimiter text delimiter)
  else .ok (d.prepend text)

/-- Text in front of a boundary, which must first occur where the text ends. -/
def writeBefore (boundary : Boundary) (text : String) (d : Draft) : Except FormatError Draft :=
  if text = "" then .error .emptyCapture
  else if boundary.cut? (text ++ d.path).toList = some (text.toList, d.path.toList) then
    .ok (d.prepend text)
  else .error (.containsDelimiter text boundary.describe)

def writeRest (allowEmpty : Bool) (text : String) (d : Draft) : Except FormatError Draft :=
  if text = "" ∧ allowEmpty = false then .error .emptyCapture else .ok (d.prepend text)

def writeChoice (options : List String) (text : String) (d : Draft) : Except FormatError Draft :=
  if text ∈ options then .ok (d.prepend text) else .error (.unknownVariant text options)

def write : Route → Value → Draft → Except FormatError Draft
  | start, _, d => .ok d
  | finish _, _, d => .ok d
  | literal text, _, d => .ok (d.prepend text)
  | upTo delimiter, value, d => do writeUpTo delimiter (← textOf value) d
  | before boundary, value, d => do writeBefore boundary (← textOf value) d
  | rest allowEmpty, value, d => do writeRest allowEmpty (← textOf value) d
  | capture key inner, value, d => do inner.write (← fieldOf value key) d
  | number _ style, value, d => do return d.prepend (← style.render value)
  | method expected, _, d => .ok (d.withMethod expected)
  | both left right, value, d => do left.write value (← right.write value d)
  | last left right, value, d => do left.write .unit (← right.write value d)
  | choice options, value, d => do writeChoice options (← textOf value) d
  | query key inner, value, d => do
    let written ← inner.write (← fieldOf value key) {}
    return d.prependParam key written.path

theorem write_both_assoc (a b c : Route) (v : Value) (d : Draft) :
    (both (both a b) c).write v d = (both a (both b c)).write v d := by
  simp only [write]
  cases c.write v d <;> rfl

theorem write_last_assoc (a b c : Route) (v : Value) (d : Draft) :
    (last (last a b) c).write v d = (last a (last b c)).write v d := by
  simp only [write]
  cases c.write v d <;> rfl

end Route
end UrlRoutes
