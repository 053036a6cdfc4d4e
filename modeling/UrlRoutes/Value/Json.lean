import UrlRoutes.Value.Basic
import UrlRoutes.Json
/-!
# Values as JSON

A value is written without blanks, its fields in key order; unit is `null`,
and so is a double that is not finite. Reading accepts the same documents:
a boolean or an array has no value.
-/
namespace UrlRoutes.Value
open Json

/-! ## Writing -/

/-- A character inside a JSON string. -/
def escapeJson (c : Char) : List Char :=
  if c = '"' then ['\\', '"']
  else if c = '\\' then ['\\', '\\']
  else if c = '\x08' then ['\\', 'b']
  else if c = '\x0c' then ['\\', 'f']
  else if c = '\n' then ['\\', 'n']
  else if c = '\r' then ['\\', 'r']
  else if c = '\t' then ['\\', 't']
  else if c.toNat < 0x20 then
    '\\' :: 'u' :: '0' :: '0' :: Nat.digitChar (c.toNat / 16) :: [Nat.digitChar (c.toNat % 16)]
  else [c]

def quotedJson (s : String) : String := "\"" ++ String.ofList (s.toList.flatMap escapeJson) ++ "\""

/-- A double keeps a point, so that it does not read back as an integer. -/
def floatJson (x : Float) : String :=
  if x.isFinite then
    let text := Binary64.text x
    if text.toList.contains '.' then text else text ++ ".0"
  else "null"

mutual

/-- The value as a JSON text. -/
def toJson : Value → String
  | unit => "null"
  | text s => quotedJson s
  | int n => Number.intText n
  | float x => floatJson x
  | record fields => "\x7b" ++ ",".intercalate (fieldsJson fields) ++ "\x7d"

def fieldsJson : Dict Value → List String
  | ⟨entries⟩ => entriesJson entries

/-- One member for each entry. -/
def entriesJson : List (String × Value) → List String
  | [] => []
  | (k, v) :: rest => (quotedJson k ++ ":" ++ toJson v) :: entriesJson rest

end

/-! ## Reading -/

mutual

/-- The value of a document; none for one with a boolean or an array. -/
def ofJson? : Json → Option Value
  | .null => some unit
  | .bool _ => none
  | .int n => some (int n)
  | .float x => some (float x)
  | .string s => some (text s)
  | .array _ => none
  | .object members => (ofMembers? members).map fun entries => record (.ofList entries)

/-- The fields of an object; the last of a repeated key wins. -/
def ofMembers? : List (String × Json) → Option (List (String × Value))
  | [] => some []
  | (key, json) :: rest =>
    match ofJson? json, ofMembers? rest with
    | some value, some entries => some ((key, value) :: entries)
    | _, _ => none

end

/-- Why a text is not the JSON of a value. -/
inductive JsonError where
  /-- It is not one JSON document. -/
  | malformed
  /-- It holds a boolean or an array. -/
  | unsupported
  deriving DecidableEq, Repr

/-- Reads a value. What a document holds is judged before what follows it. -/
def readJson (s : String) : Except JsonError Value :=
  match readFirst s.toList with
  | none => .error .malformed
  | some (json, rest) =>
    match ofJson? json with
    | none => .error .unsupported
    | some value => if skipBlank rest = [] then .ok value else .error .malformed

end UrlRoutes.Value
