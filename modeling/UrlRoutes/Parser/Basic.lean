import UrlRoutes.Parser.Result
/-!
# Parsers in sequence and in choice

A parser is a function from states to results. Sequences stop at the first
failure and report progress when any part made some. A choice starts every
alternative from the same state, whatever the one before it read, and takes
the first success; when all fail it lists all their dead ends and reports no
progress.

Results:
* `join_assoc`: sequences with an associative join regroup freely.
-/
namespace UrlRoutes

abbrev Parser (κ χ α : Type) := State κ → Result κ χ α

namespace Parser
variable {κ χ α β γ : Type}

/-- Runs a parser on a source from its first character. What it leaves unread is no error. -/
def run (p : Parser κ χ α) (source : String) : Except (List (DeadEnd κ χ)) α :=
  (p { source := source }).toExcept.map Prod.fst

def succeed (value : α) : Parser κ χ α := fun s => .good false value s

def fail (problem : χ) : Parser κ χ α := fun s => .bad false (s.fail problem)

def map (f : α → β) (p : Parser κ χ α) : Parser κ χ β := fun s => (p s).map f

/-- Runs the parser that `f` makes of the value read first. -/
def andThen (p : Parser κ χ α) (f : α → Parser κ χ β) : Parser κ χ β := fun s =>
  match p s with
  | .bad progress problems => .bad progress problems
  | .good progress value next => (f value next).after progress

def join (f : α → β → γ) (left : Parser κ χ α) (right : Parser κ χ β) : Parser κ χ γ := fun s =>
  match left s with
  | .bad progress problems => .bad progress problems
  | .good progress a next => ((right next).map (f a)).after progress

def keepRight (left : Parser κ χ α) (right : Parser κ χ β) : Parser κ χ β :=
  join (fun _ b => b) left right

def keepLeft (left : Parser κ χ α) (right : Parser κ χ β) : Parser κ χ α :=
  join (fun a _ => a) left right

/-- The first success, or every dead end in order. -/
def oneOf : List (Parser κ χ α) → Parser κ χ α
  | [] => fun _ => .bad false []
  | p :: ps => fun s =>
    match p s with
    | .good progress value next => .good progress value next
    | .bad _ problems =>
      match oneOf ps s with
      | .good progress value next => .good progress value next
      | .bad _ more => .bad false (problems ++ more)

def either (left right : Parser κ χ α) : Parser κ χ α := oneOf [left, right]

/-- Runs a parser inside a construct. A success leaves the construct, a
failure keeps it in its dead ends. -/
def within (label : κ) (p : Parser κ χ α) : Parser κ χ α := fun s =>
  match p (s.enter label) with
  | .good progress value next => .good progress value (next.withTrail s.trail)
  | .bad progress problems => .bad progress problems

/-! ## Regrouping -/

theorem join_assoc {f : α → α → α} (hf : ∀ a b c, f (f a b) c = f a (f b c))
    (p q r : Parser κ χ α) : join f (join f p q) r = join f p (join f q r) := by
  funext s
  unfold join
  cases p s with
  | bad => rfl
  | good g1 a s1 =>
    simp only
    cases q s1 with
    | bad => rfl
    | good g2 b s2 =>
      simp only [Result.map, Result.after]
      cases r s2 with
      | bad => simp [Bool.or_assoc]
      | good => simp [hf, Bool.or_assoc]

end Parser
end UrlRoutes
