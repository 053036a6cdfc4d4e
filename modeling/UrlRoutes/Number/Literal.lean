import UrlRoutes.Number.Binary64
/-!
# Number literals

`scan` finds out what literal stands in front of a text, before anyone is
asked whether it is wanted. `0x`, `0o` and `0b` lead a run of digits in their
base; anything else is a decimal run with an optional fraction and exponent,
and a leading zero is a run of its own. A decimal run above `maxInt` is read
as a double. Literals are ASCII, so their length counts characters, bytes and
columns alike.

Results:
* `run_append`: a run and what it leaves make up the text.
* `scan_nil`: where nothing is left, there is no literal.
-/
namespace UrlRoutes.Number

/-- A literal with its form. -/
inductive Literal where
  | int (n : Nat)
  | hex (n : Nat)
  | octal (n : Nat)
  | binary (n : Nat)
  | float (x : Float)
  deriving DecidableEq, Repr

/-- What stands in front of a text. -/
inductive Scan where
  /-- Nothing that belongs to a number. -/
  | absent
  /-- A number breaks off; the fault lies `skipped` characters in. -/
  | malformed (skipped : Nat)
  /-- A literal of `length` characters. -/
  | found (literal : Literal) (length : Nat)
  deriving DecidableEq, Repr

/-- The leading digits of `base`. -/
def run (base : Nat) (cs : List Char) : List Char := cs.takeWhile (isDigitIn base)

def afterRun (base : Nat) (cs : List Char) : List Char := cs.dropWhile (isDigitIn base)

/-- A literal with a two-character lead, `cs` being what follows the lead. -/
def scanBased (base : Nat) (form : Nat → Literal) (cs : List Char) : Scan :=
  let digits := run base cs
  let n := ofDigits base digits
  if digits = [] ∨ maxInt < n then .malformed 0 else .found (form n) (digits.length + 2)

/-- A fraction: its digits and its length with the point. -/
structure Fraction where
  digits : List Char
  length : Nat
  deriving DecidableEq, Repr

def fraction? : List Char → Option Fraction
  | '.' :: cs => some ⟨run 10 cs, (run 10 cs).length + 1⟩
  | _ => none

/-- An exponent: its value and its length with the letter and the sign. -/
structure Exponent where
  value : Int
  length : Nat
  deriving DecidableEq, Repr

/-- The digits of an exponent after `lead` characters; the error is the place
where they are missing. -/
def exponentDigits (lead : Nat) (sign : Int) (cs : List Char) : Except Nat (Option Exponent) :=
  let digits := run 10 cs
  if digits = [] then .error lead
  else .ok (some ⟨sign * ofDigits 10 digits, lead + digits.length⟩)

def signedExponent : List Char → Except Nat (Option Exponent)
  | '+' :: cs => exponentDigits 2 1 cs
  | '-' :: cs => exponentDigits 2 (-1) cs
  | cs => exponentDigits 1 1 cs

def exponent? : List Char → Except Nat (Option Exponent)
  | 'e' :: cs | 'E' :: cs => signedExponent cs
  | _ => .ok none

/-- The double a decimal literal denotes. It needs a digit before its
exponent, and has to be finite. -/
def readDouble? (whole fraction : List Char) (exponent : Int) : Option Float :=
  let digits := whole ++ fraction
  if digits = [] then none
  else
    let x := Binary64.ofDecimal (ofDigits 10 digits) (exponent - fraction.length)
    if x.isFinite then some x else none

/-- A decimal literal with the whole part `whole`, `cs` being what follows it. -/
def scanDecimal (whole cs : List Char) : Scan :=
  let fraction := fraction? cs
  let fractionLength := (fraction.map Fraction.length).getD 0
  let body := whole.length + fractionLength
  match exponent? (cs.drop fractionLength) with
  | .error skipped => .malformed (body + skipped)
  | .ok exponent =>
    let length := body + (exponent.map Exponent.length).getD 0
    if length = 0 then .absent
    else if length = whole.length ∧ ofDigits 10 whole ≤ maxInt then
      .found (.int (ofDigits 10 whole)) length
    else
      let digits := (fraction.map Fraction.digits).getD []
      match readDouble? whole digits ((exponent.map Exponent.value).getD 0) with
      | some x => .found (.float x) length
      | none => .malformed 0

def scan : List Char → Scan
  | '0' :: 'x' :: cs => scanBased 16 .hex cs
  | '0' :: 'o' :: cs => scanBased 8 .octal cs
  | '0' :: 'b' :: cs => scanBased 2 .binary cs
  | '0' :: cs => scanDecimal ['0'] cs
  | cs => scanDecimal (run 10 cs) (afterRun 10 cs)

/-! ## Runs -/

theorem run_append (base : Nat) (cs : List Char) : run base cs ++ afterRun base cs = cs :=
  List.takeWhile_append_dropWhile

theorem scan_nil : scan [] = .absent := by decide

/-- A leading zero is a run of its own. -/
example : scan ['0', '7'] = .found (.int 0) 1 := by decide

end UrlRoutes.Number
