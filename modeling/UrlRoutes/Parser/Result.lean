import UrlRoutes.Parser.State
/-!
# Parse results

A result is good, with a value and the state that follows, or bad, with the
dead ends that were met. Both say whether the cursor moved. A dead end keeps
the place, the problem and a snapshot of the trail.
-/
namespace UrlRoutes

/-- One failure: where, why and inside what. -/
structure DeadEnd (κ χ : Type) where
  line : Nat
  column : Nat
  problem : χ
  trail : Trail κ
  deriving DecidableEq, Repr

inductive Result (κ χ α : Type) where
  | good (progress : Bool) (value : α) (next : State κ)
  | bad (progress : Bool) (problems : List (DeadEnd κ χ))

/-- A failure at the cursor. -/
def State.fail {κ χ : Type} (s : State κ) (problem : χ) : List (DeadEnd κ χ) :=
  [⟨s.position.line, s.position.column, problem, s.trail⟩]

def State.failAt {κ χ : Type} (s : State κ) (line column : Nat) (problem : χ) :
    List (DeadEnd κ χ) :=
  [⟨line, column, problem, s.trail⟩]

namespace Result
variable {κ χ α β : Type}

def progress : Result κ χ α → Bool
  | good progress _ _ => progress
  | bad progress _ => progress

def isGood : Result κ χ α → Bool
  | good .. => true
  | bad .. => false

def map (f : α → β) : Result κ χ α → Result κ χ β
  | good progress value next => good progress (f value) next
  | bad progress problems => bad progress problems

def toExcept : Result κ χ α → Except (List (DeadEnd κ χ)) (α × State κ)
  | good _ value next => .ok (value, next)
  | bad _ problems => .error problems

/-- Adds `earlier` progress to a result. -/
def after (earlier : Bool) : Result κ χ α → Result κ χ α
  | good progress value next => good (earlier || progress) value next
  | bad progress problems => bad (earlier || progress) problems

end Result
end UrlRoutes
