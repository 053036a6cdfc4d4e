import UrlRoutes.Parser.Text
import UrlRoutes.Number.Policy
/-!
# Parsers of numbers

A number is scanned first and judged by a policy afterwards. Only the
characters of the literal are read, so `1.2.3` stops before the second point.
The fault of a broken literal is reported in its own column.

Results:
* `number_map`: mapping a policy maps the parser.
* `number_eq_good_iff`: success is a literal that was found and accepted.
-/
namespace UrlRoutes.Parser
open Number
variable {κ χ α β : Type}

/-- The position `length` ASCII characters on, none of them a line feed. -/
def pastLiteral (p : Position) (length : Nat) : Position :=
  ⟨p.offset + length, p.line, p.column + length⟩

/-- The literal at the cursor, judged by `policy`. -/
def number (policy : NumberPolicy χ α) : Parser κ χ α := fun s =>
  match scan s.rest with
  | .absent => .bad false (s.fail policy.expecting)
  | .malformed skipped =>
    .bad true (s.failAt s.position.line (s.position.column + skipped) policy.invalid)
  | .found literal length =>
    match policy.accept literal with
    | .ok value => .good true value (s.advance (pastLiteral s.position length))
    | .error problem => .bad true (s.fail problem)

def int (expecting invalid : χ) : Parser κ χ Int := number (.ints expecting invalid)

def float (expecting invalid : χ) : Parser κ χ Float := number (.floats expecting invalid)

theorem number_map (f : α → β) (policy : NumberPolicy χ α) :
    (number (policy.map f) : Parser κ χ β) = map f (number policy) := by
  funext s
  unfold map number
  cases scan s.rest with
  | absent => rfl
  | malformed => rfl
  | found literal length =>
    simp only [NumberPolicy.accept_map]
    cases policy.accept literal <;> rfl

theorem number_eq_good_iff {policy : NumberPolicy χ α} {s s' : State κ} {g : Bool} {value : α} :
    number policy s = .good g value s' ↔ g = true ∧ ∃ literal length, scan s.rest = .found literal length ∧
      policy.accept literal = .ok value ∧ s' = s.advance (pastLiteral s.position length) := by
  refine ⟨fun h => ?_, fun h => ?_⟩
  · unfold number at h
    split at h
    · cases h
    · cases h
    · next literal length hscan =>
      split at h
      · next v haccept =>
        cases h
        exact ⟨rfl, literal, length, hscan, haccept, rfl⟩
      · cases h
  · obtain ⟨rfl, literal, length, hscan, haccept, rfl⟩ := h
    simp only [number, hscan, haccept]

end UrlRoutes.Parser
