import UrlRoutes.Number.Literal
/-!
# Number policies

A policy says what becomes of each form of number literal: a value, or a
problem that refuses it. It also names the problem for a missing number and
the one for a broken number. Policies start from one that refuses every form.

Results:
* `accept_map`: post-processing acts on accepted literals only.
* `accept_literals`: a policy that has no objection.
-/
namespace UrlRoutes

/-- What becomes of each form of literal. -/
structure NumberPolicy (χ α : Type) where
  int : Nat → Except χ α
  hex : Nat → Except χ α
  octal : Nat → Except χ α
  binary : Nat → Except χ α
  float : Float → Except χ α
  /-- There is no number. -/
  expecting : χ
  /-- There is a number, but it is broken. -/
  invalid : χ

namespace NumberPolicy
open Number
variable {χ α β : Type}

def rejecting (expecting invalid : χ) : NumberPolicy χ α where
  int _ := .error invalid
  hex _ := .error invalid
  octal _ := .error invalid
  binary _ := .error invalid
  float _ := .error invalid
  expecting := expecting
  invalid := invalid

def ints (expecting invalid : χ) : NumberPolicy χ Int :=
  { rejecting expecting invalid with int := fun n => .ok n }

/-- Decimal literals, integers widened to doubles. -/
def floats (expecting invalid : χ) : NumberPolicy χ Float :=
  { rejecting expecting invalid with int := fun n => .ok (Float.ofNat n), float := .ok }

def literals (expecting invalid : χ) : NumberPolicy χ Literal where
  int n := .ok (.int n)
  hex n := .ok (.hex n)
  octal n := .ok (.octal n)
  binary n := .ok (.binary n)
  float x := .ok (.float x)
  expecting := expecting
  invalid := invalid

def map (f : α → β) (policy : NumberPolicy χ α) : NumberPolicy χ β where
  int n := (policy.int n).map f
  hex n := (policy.hex n).map f
  octal n := (policy.octal n).map f
  binary n := (policy.binary n).map f
  float x := (policy.float x).map f
  expecting := policy.expecting
  invalid := policy.invalid

def accept (policy : NumberPolicy χ α) : Literal → Except χ α
  | .int n => policy.int n
  | .hex n => policy.hex n
  | .octal n => policy.octal n
  | .binary n => policy.binary n
  | .float x => policy.float x

@[simp] theorem accept_map (f : α → β) (policy : NumberPolicy χ α) (literal : Literal) :
    (policy.map f).accept literal = (policy.accept literal).map f := by
  cases literal <;> rfl

@[simp] theorem accept_literals (expecting invalid : χ) (literal : Literal) :
    (literals expecting invalid).accept literal = .ok literal := by
  cases literal <;> rfl

end NumberPolicy
end UrlRoutes
