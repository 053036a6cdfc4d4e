import UrlRoutes.Parser.Number
/-!
# Parsers built from the combinators

`Built` says that a parser is made of the combinators of this library, from
leaves that are given. What every combinator keeps holds of every built
parser, by induction, whatever the parsers made on the way depend on.

Results:
* `built_keepRight`, `built_either`: derived combinators build, too.
-/
namespace UrlRoutes.Parser
variable {κ χ : Type}

/-- Made of combinators from parsers with `leaf`. -/
inductive Built (leaf : (α : Type) → Parser κ χ α → Prop) :
    {α : Type} → Parser κ χ α → Prop where
  | leaf {α : Type} {p : Parser κ χ α} (h : leaf α p) : Built leaf p
  | succeed {α : Type} (value : α) : Built leaf (succeed value)
  | fail {α : Type} (problem : χ) : Built leaf (fail problem : Parser κ χ α)
  | map {α β : Type} (f : α → β) {p : Parser κ χ α} (h : Built leaf p) : Built leaf (map f p)
  | andThen {α β : Type} {p : Parser κ χ α} {f : α → Parser κ χ β} (h : Built leaf p)
      (hf : ∀ a, Built leaf (f a)) : Built leaf (andThen p f)
  | join {α β γ : Type} (f : α → β → γ) {left : Parser κ χ α} {right : Parser κ χ β}
      (hl : Built leaf left) (hr : Built leaf right) : Built leaf (join f left right)
  | oneOf {α : Type} {ps : List (Parser κ χ α)} (h : ∀ p ∈ ps, Built leaf p) :
      Built leaf (oneOf ps)
  | within {α : Type} (label : κ) {p : Parser κ χ α} (h : Built leaf p) :
      Built leaf (within label p)
  | token (literal : String) (expecting : χ) : Built leaf (token literal expecting)
  | finishIf {α : Type} (allowSlash : Bool) (value : α) (expecting : χ) :
      Built leaf (finishIf allowSlash value expecting)
  | skipWhile (test : Char → Bool) : Built leaf (skipWhile test)
  | skipUntil (literal : String) (expecting : χ) : Built leaf (skipUntil literal expecting)
  | skipUntilOrEnd (literal : String) : Built leaf (skipUntilOrEnd literal)
  | mapConsumed {α β : Type} (f : String → α → β) {p : Parser κ χ α} (h : Built leaf p) :
      Built leaf (mapConsumed f p)
  | number {α : Type} (policy : NumberPolicy χ α) : Built leaf (number policy)

variable {leaf : (α : Type) → Parser κ χ α → Prop} {α β : Type}

theorem built_keepRight {left : Parser κ χ α} {right : Parser κ χ β}
    (hl : Built leaf left) (hr : Built leaf right) : Built leaf (keepRight left right) :=
  .join _ hl hr

theorem built_either {left right : Parser κ χ α} (hl : Built leaf left)
    (hr : Built leaf right) : Built leaf (either left right) := by
  refine .oneOf fun p hp => ?_
  simp only [List.mem_cons, List.not_mem_nil, or_false] at hp
  rcases hp with rfl | rfl
  · exact hl
  · exact hr

end UrlRoutes.Parser
