import UrlRoutes.Number.Literal
/-!
# JSON documents

Reading one JSON value from the front of a text. A number without fraction
and exponent that fits 64 signed bits is an integer, every other number is
the nearest double, and one too large for a double is refused. A surrogate
escape counts only in a pair. Objects and arrays nest at most `maxDepth`
deep.
-/
namespace UrlRoutes

/-- A JSON document. Members keep their order and their repetitions. -/
inductive Json where
  | null
  | bool (b : Bool)
  | int (n : Int)
  | float (x : Float)
  | string (s : String)
  | array (items : List Json)
  | object (members : List (String × Json))

namespace Json
open Number

/-- How deep objects and arrays may nest. -/
def maxDepth : Nat := 127

def isBlank (c : Char) : Bool := c == ' ' || c == '\t' || c == '\n' || c == '\r'

def skipBlank (cs : List Char) : List Char := cs.dropWhile isBlank

/-! ## Strings -/

/-- A piece of a string: a character, or the code unit of a numeric escape. -/
inductive Piece where
  | char (c : Char)
  | unit (n : Nat)
  deriving DecidableEq, Repr

/-- The character an escape letter stands for. -/
def escaped? : Char → Option Char
  | '"' => some '"'
  | '\\' => some '\\'
  | '/' => some '/'
  | 'b' => some '\x08'
  | 'f' => some '\x0c'
  | 'n' => some '\n'
  | 'r' => some '\r'
  | 't' => some '\t'
  | _ => none

/-- The pieces of a string up to its closing quote. -/
def readPieces : List Char → Option (List Piece × List Char)
  | [] => none
  | '"' :: rest => some ([], rest)
  | '\\' :: 'u' :: a :: b :: c :: d :: rest =>
    if [a, b, c, d].all (isDigitIn 16) then
      (readPieces rest).map fun (ps, left) => (.unit (ofDigits 16 [a, b, c, d]) :: ps, left)
    else none
  | '\\' :: c :: rest =>
    match escaped? c with
    | some c => (readPieces rest).map fun (ps, left) => (.char c :: ps, left)
    | none => none
  | c :: rest =>
    if c.toNat < 0x20 || c == '\\' then none
    else (readPieces rest).map fun (ps, left) => (.char c :: ps, left)

def isHighSurrogate (n : Nat) : Bool := 0xd800 ≤ n && n < 0xdc00

def isLowSurrogate (n : Nat) : Bool := 0xdc00 ≤ n && n < 0xe000

/-- The characters of a string. -/
def joinPieces : List Piece → Option (List Char)
  | [] => some []
  | .char c :: rest => (joinPieces rest).map (c :: ·)
  | .unit h :: .unit l :: rest =>
    if isHighSurrogate h && isLowSurrogate l then
      (joinPieces rest).map (Char.ofNat (0x10000 + (h - 0xd800) * 0x400 + (l - 0xdc00)) :: ·)
    else if isHighSurrogate h || isLowSurrogate h then none
    else (joinPieces (.unit l :: rest)).map (Char.ofNat h :: ·)
  | .unit n :: rest =>
    if isHighSurrogate n || isLowSurrogate n then none
    else (joinPieces rest).map (Char.ofNat n :: ·)

/-- A string after its opening quote. -/
def readString (cs : List Char) : Option (String × List Char) := do
  let (pieces, rest) ← readPieces cs
  let chars ← joinPieces pieces
  return (String.ofList chars, rest)

/-! ## Numbers -/

/-- A number after its sign. -/
def readNumber (negative : Bool) (cs : List Char) : Option (Json × List Char) :=
  let whole := run 10 cs
  let fraction := fraction? (afterRun 10 cs)
  let fractionLength := (fraction.map Fraction.length).getD 0
  if whole = [] ∨ (whole.head? = some '0' ∧ 1 < whole.length) ∨ fractionLength = 1 then none
  else
    match exponent? ((afterRun 10 cs).drop fractionLength) with
    | .error _ => none
    | .ok exponent =>
      let exponentLength := (exponent.map Exponent.length).getD 0
      let rest := (afterRun 10 cs).drop (fractionLength + exponentLength)
      let n := ofDigits 10 whole
      if fractionLength + exponentLength = 0 ∧ negative = false ∧ n ≤ maxInt then
        some (.int n, rest)
      else if fractionLength + exponentLength = 0 ∧ negative ∧ 0 < n ∧ n ≤ maxInt + 1 then
        some (.int (-n), rest)
      else
        let digits := (fraction.map Fraction.digits).getD []
        match readDouble? whole digits ((exponent.map Exponent.value).getD 0) with
        | some x => some (.float (if negative then -x else x), rest)
        | none => none

/-! ## Documents -/

mutual

def readValue : Nat → Nat → List Char → Option (Json × List Char)
  | 0, _, _ => none
  | fuel + 1, depth, cs =>
    match skipBlank cs with
    | 'n' :: 'u' :: 'l' :: 'l' :: rest => some (null, rest)
    | 't' :: 'r' :: 'u' :: 'e' :: rest => some (bool true, rest)
    | 'f' :: 'a' :: 'l' :: 's' :: 'e' :: rest => some (bool false, rest)
    | '"' :: rest => (readString rest).map fun (s, rest) => (string s, rest)
    | '-' :: rest => readNumber true rest
    | '[' :: rest =>
      match depth, skipBlank rest with
      | 0, _ => none
      | _ + 1, ']' :: rest => some (array [], rest)
      | depth + 1, rest => (readItems fuel depth rest).map fun (items, rest) => (array items, rest)
    | '\x7b' :: rest =>
      match depth, skipBlank rest with
      | 0, _ => none
      | _ + 1, '\x7d' :: rest => some (object [], rest)
      | depth + 1, rest =>
        (readMembers fuel depth rest).map fun (members, rest) => (object members, rest)
    | rest => readNumber false rest

/-- The items of an array up to its closing bracket. -/
def readItems : Nat → Nat → List Char → Option (List Json × List Char)
  | 0, _, _ => none
  | fuel + 1, depth, cs => do
    let (item, rest) ← readValue fuel depth cs
    match skipBlank rest with
    | ']' :: rest => some ([item], rest)
    | ',' :: rest =>
      let (items, rest) ← readItems fuel depth rest
      some (item :: items, rest)
    | _ => none

/-- The members of an object up to its closing brace. -/
def readMembers : Nat → Nat → List Char → Option (List (String × Json) × List Char)
  | 0, _, _ => none
  | fuel + 1, depth, cs =>
    match skipBlank cs with
    | '"' :: rest => do
      let (key, rest) ← readString rest
      match skipBlank rest with
      | ':' :: rest =>
        let (value, rest) ← readValue fuel depth rest
        match skipBlank rest with
        | '\x7d' :: rest => some ([(key, value)], rest)
        | ',' :: rest =>
          let (members, rest) ← readMembers fuel depth rest
          some ((key, value) :: members, rest)
        | _ => none
      | _ => none
    | _ => none

end

/-- The value in front of a text and what follows it. Each step of the readers
takes a character or descends once, so the fuel never runs out first. -/
def readFirst (cs : List Char) : Option (Json × List Char) :=
  readValue (2 * cs.length + 2) maxDepth cs

end Json
end UrlRoutes
