import UrlRoutes.Url.Codec
import UrlRoutes.Value.Dict
/-!
# Query strings

A query is a list of `key=value` fields joined by `&`. Reading drops one
leading question mark and empty fields, takes a plus sign for a space and
decodes keys and values; a field without `=` has an empty value, and the last
field of a key wins. Writing encodes keys and values and leaves out the `=` of
an empty value. All of it is for any codec, and for percent coding in use.

Results:
* `splitOn_of_not_mem`, `splitOn_append`: splitting takes off one part at a
  time.
-/
namespace UrlRoutes
namespace Query

def spaced (cs : List Char) : List Char := cs.map fun c => if c = '+' then ' ' else c

/-- The parts between the occurrences of `c`. -/
def splitOn (c : Char) : List Char → List (List Char)
  | [] => [[]]
  | d :: cs =>
    if d = c then [] :: splitOn c cs
    else
      match splitOn c cs with
      | [] => [[d]]
      | part :: parts => (d :: part) :: parts

/-- A query without its question mark. -/
def strip (cs : List Char) : List Char :=
  match cs with
  | '?' :: rest => rest
  | _ => cs

/-! ## Parts -/

theorem splitOn_of_not_mem {c : Char} {cs : List Char} (h : c ∉ cs) : splitOn c cs = [cs] := by
  induction cs with
  | nil => rfl
  | cons d cs ih =>
    rw [List.mem_cons, not_or] at h
    rw [splitOn, if_neg (Ne.symm h.1), ih h.2]

theorem splitOn_append {c : Char} {as : List Char} (h : c ∉ as) (bs : List Char) :
    splitOn c (as ++ c :: bs) = as :: splitOn c bs := by
  induction as with
  | nil => rw [List.nil_append, splitOn, if_pos rfl]
  | cons d as ih =>
    rw [List.mem_cons, not_or] at h
    rw [List.cons_append, splitOn, if_neg (Ne.symm h.1), ih h.2]

end Query

/-! ## Over a codec -/

namespace Codec
open Query
variable (codec : Codec)

/-- A key or value as it is meant; coding that gives no text is left alone. -/
def decode (cs : List Char) : String :=
  let text := String.ofList (spaced cs)
  (codec.decode? text).getD text

def readField (field : List Char) : String × String :=
  (codec.decode (field.takeWhile (· ≠ '=')), codec.decode ((field.dropWhile (· ≠ '=')).drop 1))

def pairs (query : String) : List (String × String) :=
  ((splitOn '&' (strip query.toList)).filter (· ≠ [])).map codec.readField

/-- Reads a query, with or without its question mark. -/
def read (query : String) : Dict String := .ofList (codec.pairs query)

def writeField (key value : String) : String :=
  if value = "" then codec.encode key else codec.encode key ++ "=" ++ codec.encode value

/-- Writes fields behind the text `out`; the first field with any text needs no separator. -/
def writeAfter (out : String) : List (String × String) → String
  | [] => out
  | (key, value) :: rest =>
    writeAfter ((if out = "" then out else out ++ "&") ++ codec.writeField key value) rest

/-- Writes a query without a question mark. -/
def write (pairs : List (String × String)) : String := codec.writeAfter "" pairs

/-- Writes a query with its question mark, or nothing. -/
def writeSearch (pairs : List (String × String)) : String :=
  let query := codec.write pairs
  if query = "" then "" else "?" ++ query

end Codec

namespace Query

/-! ## In percent coding -/

def read (query : String) : Dict String := Codec.percent.read query

def write (pairs : List (String × String)) : String := Codec.percent.write pairs

def writeSearch (pairs : List (String × String)) : String := Codec.percent.writeSearch pairs

end Query
end UrlRoutes
