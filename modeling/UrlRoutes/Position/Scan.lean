import UrlRoutes.Position
/-!
# Matching and searching at a position

`matchLiteral` compares a literal with what stands at a position,
`findLiteral` looks for its next occurrence, `matchChar` tests one character.
All of them keep offset, line and column together, and none of them moves a
position that is not on a character boundary of the source.

Results:
* `matchChars_self`: a literal in front of any tail is matched and stepped over.
* `matchChars_eq_ok_iff`: nothing else is matched.
-/
namespace UrlRoutes.Position
open Text

/-- Matches `literal` against `cs`; the error is the place of the first difference. -/
def matchChars : List Char → List Char → Position → Except Position Position
  | [], _, p => .ok p
  | _ :: _, [], p => .error p
  | l :: ls, c :: cs, p => if l = c then matchChars ls cs (p.step c) else .error p

/-- Matches `literal` at `p`. The error is the position after the characters
that did match. -/
def matchLiteral (literal source : String) (p : Position) : Except Position Position :=
  match p.rest? source with
  | none => .error p
  | some rest => matchChars literal.toList rest p

/-- The start of the next occurrence of `literal` at or after `p`. When there
is none the error is the end of the source. -/
def findLiteral (literal source : String) (p : Position) : Except Position Position :=
  match cutAt literal.toList (charsFrom p.offset source.toList) with
  | some (skipped, _) => .ok (p.moveTo (p.offset + byteLength skipped) source)
  | none => .error (p.moveToEnd source)

inductive CharMatch where
  /-- The character fails the test, or there is none. -/
  | miss
  /-- A line feed passes the test; what follows it starts at byte `next`. -/
  | newline (next : Nat)
  /-- Another character passes the test; what follows it starts at byte `next`. -/
  | advance (next : Nat)
  deriving DecidableEq, Repr

/-- Tests the character that starts at byte `offset`. -/
def matchChar (test : Char → Bool) (offset : Nat) (source : String) : CharMatch :=
  match dropBytes? offset source.toList with
  | some (c :: _) =>
    if test c then
      if c = '\n' then .newline (offset + c.utf8Size) else .advance (offset + c.utf8Size)
    else .miss
  | _ => .miss

/-! ## Matching -/

theorem matchChars_self (literal tail : List Char) (p : Position) :
    matchChars literal (literal ++ tail) p = .ok (p.past literal) := by
  induction literal generalizing p with
  | nil => rfl
  | cons l ls ih => simp [matchChars, ih]

theorem matchChars_eq_ok_iff {literal cs : List Char} {p q : Position} :
    matchChars literal cs p = .ok q ↔ literal <+: cs ∧ q = p.past literal := by
  constructor
  · intro h
    fun_induction matchChars literal cs p with
    | case1 => cases h; simp
    | case2 => cases h
    | case3 p ls c cs ih =>
      obtain ⟨hp, rfl⟩ := ih h
      exact ⟨by simpa using hp, rfl⟩
    | case4 => cases h
  · rintro ⟨⟨tail, rfl⟩, rfl⟩
    exact matchChars_self literal tail p

end UrlRoutes.Position
