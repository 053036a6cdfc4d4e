import UrlRoutes.Parser.Built
import UrlRoutes.Proofs.Cuts
import UrlRoutes.Proofs.Numerals
import UrlRoutes.Route.Read
/-!
# Parsing is stepping over characters

Whatever a parser is made of, a success leaves the state it started from,
with the cursor moved over the characters that came next, and its progress
flag says whether there were any. Nothing else of the state changes, and a
cursor off every boundary stays where it is.

Results:
* `Steps.rest_eq`, `Steps.trans`: what was read stands in front of what is
  left, and steps follow one another.
* `Steps.sliceTo_eq`: the cut between two states is what was stepped over.
* `walks_built`, `walks_route`: every built parser and every route only
  steps over characters.
* `progress_iff_offset_lt`: progress is what the offsets before and after say.
-/
namespace UrlRoutes
open Text

namespace State
variable {κ : Type}

def past (s : State κ) (cs : List Char) : State κ := s.advance (s.position.past cs)

/-- The cursor is on a character boundary, and `cs` is left. -/
def At (s : State κ) (cs : List Char) : Prop := s.position.rest? s.source = some cs

/-- `s'` is `s` with the cursor moved over `cs`, which came next. -/
def Steps (s : State κ) (cs : List Char) (s' : State κ) : Prop := cs <+: s.rest ∧ s' = s.past cs

theorem past_append (s : State κ) (as bs : List Char) : s.past (as ++ bs) = (s.past as).past bs := by
  simp only [past, advance, Position.past_append]

theorem past_offset (s : State κ) (cs : List Char) : (s.past cs).offset = s.offset + byteLength cs :=
  Position.past_offset s.position cs

theorem At.rest_eq {s : State κ} {cs : List Char} (h : s.At cs) : s.rest = cs := by
  unfold At at h
  rw [rest, h, Option.getD_some]

theorem At.past {s : State κ} {as bs : List Char} (h : s.At (as ++ bs)) : (s.past as).At bs :=
  Position.rest?_past h

/-- Off every boundary nothing is left. -/
theorem at_rest_or_stuck (s : State κ) :
    s.At s.rest ∨ (s.rest = [] ∧ s.position.rest? s.source = none) := by
  unfold At rest
  cases s.position.rest? s.source with
  | none => exact .inr ⟨rfl, rfl⟩
  | some cs => exact .inl rfl

/-! ## Steps -/

theorem steps_nil (s : State κ) : s.Steps [] s := ⟨List.nil_prefix, rfl⟩

theorem At.steps {s : State κ} {as bs : List Char} (h : s.At (as ++ bs)) : s.Steps as (s.past as) :=
  ⟨⟨bs, h.rest_eq.symm⟩, rfl⟩

theorem Steps.rest_eq {s s' : State κ} {cs : List Char} (h : s.Steps cs s') : s.rest = cs ++ s'.rest := by
  obtain ⟨⟨after, hcs⟩, rfl⟩ := h
  have hafter : (s.past cs).rest = after := Position.getD_rest?_past hcs.symm
  rw [hafter, hcs]

theorem Steps.trans {s m s' : State κ} {as bs : List Char} (h : s.Steps as m) (h' : m.Steps bs s') :
    s.Steps (as ++ bs) s' := by
  have hrest := h.rest_eq
  obtain ⟨-, rfl⟩ := h
  obtain ⟨⟨after, hbs⟩, rfl⟩ := h'
  refine ⟨⟨after, ?_⟩, (past_append s as bs).symm⟩
  rw [hrest, ← hbs, List.append_assoc]

theorem Steps.offset_eq {s s' : State κ} {cs : List Char} (h : s.Steps cs s') :
    s'.offset = s.offset + byteLength cs := by
  rw [h.2, past_offset]

/-- The cut is what was stepped over; off every boundary that is nothing. -/
theorem Steps.sliceTo_eq {s s' : State κ} {cs : List Char} (h : s.Steps cs s') :
    s.sliceTo s' = String.ofList cs := by
  obtain ⟨⟨after, hcs⟩, rfl⟩ := h
  have hcut : (slice? s.offset (s.past cs).offset s.source.toList).getD [] = cs := by
    rcases s.at_rest_or_stuck with hat | ⟨hnil, hnone⟩
    · have hleft : dropBytes? s.offset s.source.toList = some (cs ++ after) := hat.trans (by rw [hcs])
      rw [past_offset, slice?_append hleft, Option.getD_some]
    · have hleft : dropBytes? s.offset s.source.toList = none := hnone
      rw [hnil] at hcs
      rw [slice?, hleft, Option.bind_none, Option.getD_none, (List.append_eq_nil_iff.mp hcs).1]
  exact congrArg String.ofList hcut

/-- Characters were read exactly when the offset went up. -/
theorem Steps.offset_lt_iff {s s' : State κ} {cs : List Char} (h : s.Steps cs s') :
    s.offset < s'.offset ↔ cs ≠ [] := by
  rw [h.2]
  exact Position.offset_lt_past_iff

theorem steps_moveTo (s : State κ) (target : Nat) :
    ∃ cs, s.Steps cs (s.advance (s.position.moveTo target s.source)) := by
  obtain ⟨as, has, hp⟩ := Position.moveTo_past s.source s.position target
  exact ⟨as, has, by rw [hp]; rfl⟩

theorem steps_moveToEnd (s : State κ) : ∃ cs, s.Steps cs s.moveToEnd := steps_moveTo s _

theorem steps_matchLiteral {s : State κ} {literal : String} {p : Position}
    (h : s.position.matchLiteral literal s.source = .ok p) : s.Steps literal.toList (s.advance p) := by
  unfold Position.matchLiteral at h
  rcases at_rest_or_stuck s with hat | ⟨-, hnone⟩
  · rw [hat] at h
    obtain ⟨hpre, rfl⟩ := Position.matchChars_eq_ok_iff.mp h
    exact ⟨hpre, rfl⟩
  · rw [hnone] at h
    cases h

theorem steps_findLiteral {s : State κ} {literal : String} {p : Position}
    (h : s.position.findLiteral literal s.source = .ok p ∨
      s.position.findLiteral literal s.source = .error p) : ∃ cs, s.Steps cs (s.advance p) := by
  unfold Position.findLiteral at h
  split at h
  · rcases h with h | h
    · cases h
      exact steps_moveTo s _
    · cases h
  · rcases h with h | h
    · cases h
    · cases h
      exact steps_moveToEnd s

end State

/-! ## Combinators -/

namespace Parser
variable {κ χ α β γ : Type}

/-- Every success steps over the characters that came next, and reports
progress exactly when there were any. -/
def Walks (p : Parser κ χ α) : Prop :=
  ∀ s g v s', p s = .good g v s' → ∃ cs, s.Steps cs s' ∧ (g = true ↔ cs ≠ [])

theorem walks_succeed (value : α) : Walks (succeed value : Parser κ χ α) := by
  intro s g v s' h
  cases h
  exact ⟨[], s.steps_nil, by simp⟩

theorem walks_fail (problem : χ) : Walks (fail problem : Parser κ χ α) := by
  intro s g v s' h
  cases h

theorem walks_map {p : Parser κ χ α} (hp : Walks p) (f : α → β) : Walks (map f p) := by
  intro s g v s' h
  unfold map at h
  cases hr : p s with
  | bad => rw [hr] at h; cases h
  | good g1 a m =>
    rw [hr] at h
    cases h
    exact hp s _ _ _ hr

theorem walks_andThen {p : Parser κ χ α} {f : α → Parser κ χ β} (hp : Walks p)
    (hf : ∀ a, Walks (f a)) : Walks (andThen p f) := by
  intro s g v s' h
  unfold andThen at h
  cases hr : p s with
  | bad => rw [hr] at h; cases h
  | good g1 a m =>
    rw [hr] at h
    simp only at h
    cases hq : f a m with
    | bad => rw [hq] at h; cases h
    | good g2 b m' =>
      rw [hq] at h
      cases h
      obtain ⟨as, has, hg1⟩ := hp s _ _ _ hr
      obtain ⟨bs, hbs, hg2⟩ := hf a m _ _ _ hq
      refine ⟨as ++ bs, has.trans hbs, ?_⟩
      rw [Bool.or_eq_true, hg1, hg2, ne_eq, ne_eq, ne_eq, List.append_eq_nil_iff]
      exact Classical.not_and_iff_not_or_not.symm

/-- A sequence with joined values is one that runs the second parser whatever
the first value is. -/
theorem join_eq_andThen (f : α → β → γ) (p : Parser κ χ α) (q : Parser κ χ β) :
    join f p q = andThen p fun a => map (f a) q := by
  funext s
  unfold join andThen map
  cases p s <;> rfl

theorem walks_join {p : Parser κ χ α} {q : Parser κ χ β} (hp : Walks p) (hq : Walks q)
    (f : α → β → γ) : Walks (join f p q) := by
  rw [join_eq_andThen]
  exact walks_andThen hp fun a => walks_map hq (f a)

theorem walks_oneOf {ps : List (Parser κ χ α)} (hps : ∀ p ∈ ps, Walks p) : Walks (oneOf ps) := by
  induction ps with
  | nil =>
    intro s g v s' h
    cases h
  | cons p ps ih =>
    intro s g v s' h
    unfold oneOf at h
    cases hr : p s with
    | good g1 a m =>
      rw [hr] at h
      cases h
      exact hps p List.mem_cons_self s _ _ _ hr
    | bad g1 xs =>
      rw [hr] at h
      simp only at h
      cases hq : oneOf ps s with
      | bad g2 ys => rw [hq] at h; cases h
      | good g2 b m =>
        rw [hq] at h
        cases h
        exact ih (fun q hq => hps q (List.mem_cons_of_mem p hq)) s _ _ _ hq

theorem walks_within {p : Parser κ χ α} (hp : Walks p) (label : κ) : Walks (within label p) := by
  intro s g v s' h
  unfold within at h
  cases hr : p (s.enter label) with
  | bad => rw [hr] at h; cases h
  | good g1 a m =>
    rw [hr] at h
    cases h
    obtain ⟨cs, ⟨hpre, rfl⟩, hg⟩ := hp _ _ _ _ hr
    exact ⟨cs, ⟨hpre, rfl⟩, hg⟩

theorem walks_mapConsumed {p : Parser κ χ α} (hp : Walks p) (f : String → α → β) :
    Walks (mapConsumed f p) := by
  intro s g v s' h
  unfold mapConsumed at h
  cases hr : p s with
  | bad => rw [hr] at h; cases h
  | good g1 a m =>
    rw [hr] at h
    cases h
    exact hp s _ _ _ hr

/-- Arriving at a place that steps lead to. -/
theorem walks_arrive {s : State κ} {p : Position} (hp : ∃ cs, s.Steps cs (s.advance p)) {value v : α}
    {g : Bool} {s' : State κ} (h : (arrive s value p : Result κ χ α) = .good g v s') :
    ∃ cs, s.Steps cs s' ∧ (g = true ↔ cs ≠ []) := by
  obtain ⟨cs, hcs⟩ := hp
  cases h
  exact ⟨cs, hcs, decide_eq_true_iff.trans hcs.offset_lt_iff⟩

theorem walks_token (literal : String) (expecting : χ) :
    Walks (token literal expecting : Parser κ χ Unit) := by
  intro s g v s' h
  unfold token at h
  split at h
  · next hm => exact walks_arrive ⟨_, State.steps_matchLiteral hm⟩ h
  · cases h

theorem walks_finishIf (allowSlash : Bool) (value : α) (expecting : χ) :
    Walks (finishIf allowSlash value expecting : Parser κ χ α) := by
  intro s g v s' h
  unfold finishIf at h
  split at h
  · exact walks_arrive s.steps_moveToEnd h
  · cases h

theorem walks_skipWhile (test : Char → Bool) : Walks (skipWhile test : Parser κ χ Unit) := by
  intro s g v s' h
  exact walks_arrive ⟨_, List.takeWhile_prefix test, rfl⟩ h

theorem walks_skipUntil (literal : String) (expecting : χ) :
    Walks (skipUntil literal expecting : Parser κ χ Unit) := by
  intro s g v s' h
  unfold skipUntil at h
  split at h
  · next hm => exact walks_arrive (State.steps_findLiteral (.inl hm)) h
  · cases h

theorem walks_skipUntilOrEnd (literal : String) :
    Walks (skipUntilOrEnd literal : Parser κ χ Unit) := by
  intro s g v s' h
  unfold skipUntilOrEnd at h
  split at h
  · next hm => exact walks_arrive (State.steps_findLiteral (.inl hm)) h
  · next hm => exact walks_arrive (State.steps_findLiteral (.inr hm)) h

theorem walks_number (policy : NumberPolicy χ α) : Walks (number policy : Parser κ χ α) := by
  intro s g v s' h
  obtain ⟨rfl, literal, length, hscan, -, rfl⟩ := number_eq_good_iff.mp h
  obtain ⟨hpos, as, bs, hrest, rfl, -⟩ := Number.scan_found hscan
  have hne : as ≠ [] := List.ne_nil_of_length_pos hpos
  rw [hrest] at hscan
  refine ⟨as, ⟨⟨bs, hrest.symm⟩, ?_⟩, by simp [hne]⟩
  rw [State.past, Number.past_of_scan hscan]

/-- What the leaves do, every parser built from them does. -/
theorem walks_built {leaf : (α : Type) → Parser κ χ α → Prop}
    (hleaf : ∀ α p, leaf α p → Walks p) {p : Parser κ χ α} (h : Built leaf p) : Walks p := by
  induction h with
  | leaf h => exact hleaf _ _ h
  | succeed value => exact walks_succeed value
  | fail problem => exact walks_fail problem
  | map f _ ih => exact walks_map ih f
  | andThen _ _ ih ihf => exact walks_andThen ih ihf
  | join f _ _ ihl ihr => exact walks_join ihl ihr f
  | oneOf _ ih => exact walks_oneOf ih
  | within label _ ih => exact walks_within ih label
  | token literal expecting => exact walks_token literal expecting
  | finishIf allowSlash value expecting => exact walks_finishIf allowSlash value expecting
  | skipWhile test => exact walks_skipWhile test
  | skipUntil literal expecting => exact walks_skipUntil literal expecting
  | skipUntilOrEnd literal => exact walks_skipUntilOrEnd literal
  | mapConsumed f _ ih => exact walks_mapConsumed ih f
  | number policy => exact walks_number policy

end Parser

/-! ## Routes -/

namespace Route
open UrlRoutes.Parser

theorem walks_readStart : Walks readStart := by
  intro s g v s' h
  unfold readStart at h
  split at h
  · exact walks_succeed Value.unit s g v s' h
  · cases h

theorem walks_readMethod (expected : String) : Walks (readMethod expected) := by
  intro s g v s' h
  unfold readMethod at h
  split at h
  · exact walks_succeed Value.unit s g v s' h
  · cases h

theorem walks_readUpTo (delimiter : String) : Walks (readUpTo delimiter) := by
  intro s g v s' h
  unfold readUpTo at h
  split at h
  · cases h
  · next hr =>
    split at h
    · cases h
    · cases h
      exact walks_skipUntil delimiter _ s _ _ _ hr

theorem walks_readBefore (boundary : Boundary) : Walks (readBefore boundary) := by
  intro s g v s' h
  unfold readBefore at h
  split at h
  · cases h
  · cases h
  · next text after hne hcut =>
    cases h
    have hrest := Boundary.cut?_append hcut
    have htext : text ≠ [] := fun hnil => hne (by rw [hnil])
    refine ⟨text, ⟨⟨after, hrest.symm⟩, ?_⟩, by simp [htext]⟩
    rw [State.offset, Position.moveTo_append hrest]
    rfl

theorem walks_readRest (allowEmpty : Bool) : Walks (readRest allowEmpty) := by
  intro s g v s' h
  unfold readRest at h
  split at h
  · cases h
  · exact walks_arrive s.steps_moveToEnd h

theorem firstOption_eq_some {source : String} {p q : Position} {options : List String} {option : String}
    (h : firstOption source p options = some (option, q)) : p.matchLiteral option source = .ok q := by
  induction options with
  | nil => cases h
  | cons o options ih =>
    unfold firstOption at h
    split at h
    · next hm =>
      cases h
      exact hm
    · exact ih h

theorem walks_readChoice (options : List String) : Walks (readChoice options) := by
  intro s g v s' h
  unfold readChoice at h
  split at h
  · next hm => exact walks_arrive ⟨_, State.steps_matchLiteral (firstOption_eq_some hm)⟩ h
  · cases h

/-- A query parameter is read from its own source; the path is not touched. -/
theorem walks_readQuery (key : String) (inner : Reader) : Walks (readQuery key inner) := by
  intro s g v s' h
  unfold readQuery at h
  split at h
  · cases h
  · split at h
    · cases h
    · split at h
      · cases h
        exact ⟨[], s.steps_nil, by simp⟩
      · cases h

theorem walks_route (route : Route) : Walks route.parser := by
  induction route with
  | start => exact walks_readStart
  | finish allowSlash => exact walks_finishIf allowSlash _ _
  | literal text => exact walks_map (walks_token text _) _
  | upTo delimiter => exact walks_readUpTo delimiter
  | before boundary => exact walks_readBefore boundary
  | rest allowEmpty => exact walks_readRest allowEmpty
  | capture key inner ih => exact walks_map (walks_within ih _) _
  | number policy style => exact walks_number policy
  | method expected => exact walks_readMethod expected
  | both left right ihl ihr => exact walks_join ihl ihr _
  | last left right ihl ihr => exact walks_join ihl ihr _
  | choice options => exact walks_readChoice options
  | query key inner _ => exact walks_readQuery key inner.parser

end Route

/-- The parsers of route trees. -/
inductive IsRoute : {κ χ : Type} → (α : Type) → Parser κ χ α → Prop where
  | parser (route : Route) : IsRoute Value route.parser

theorem walks_isRoute {κ χ α : Type} {p : Parser κ χ α} (h : IsRoute α p) : p.Walks := by
  cases h with
  | parser route => exact Route.walks_route route

/-- Combinators and routes together only step over characters. -/
theorem walks_builtWithRoutes {κ χ α : Type} {p : Parser κ χ α} (h : Parser.Built IsRoute p) :
    p.Walks :=
  Parser.walks_built (fun _ _ hr => walks_isRoute hr) h

/-! ## Progress -/

/-- From whatever state, on a boundary or off, a success reports progress
exactly when the offset went up, and it never goes down. -/
theorem progress_iff_offset_lt {κ χ α : Type} {p : Parser κ χ α} (hp : Parser.Built IsRoute p)
    {s s' : State κ} {g : Bool} {v : α} (h : p s = .good g v s') :
    (g = true ↔ s.offset < s'.offset) ∧ s.offset ≤ s'.offset := by
  obtain ⟨cs, hsteps, hg⟩ := walks_builtWithRoutes hp s g v s' h
  have hoffset := hsteps.offset_eq
  exact ⟨hg.trans hsteps.offset_lt_iff.symm, by omega⟩

/-- A search and a capture of the rest, from the start and from inside the umlaut. -/
theorem progress_iff_offset_lt_inside_character :
    let p := Parser.keepRight (Parser.skipUntilOrEnd "/") (Route.rest true).parser
    let s : State Label := { source := "ä/" }
    let stuck : State Label := { source := "ä/", position := ⟨1, 1, 1⟩ }
    Parser.Built IsRoute p ∧
      (p s = .good true (.text "/") (s.advance ⟨3, 1, 3⟩) ∧ (true = true ↔ 0 < 3) ∧ 0 ≤ 3) ∧
      p stuck = .good false (.text "") stuck ∧ (false = true ↔ 1 < 1) ∧ 1 ≤ 1 := by
  have hp : Parser.Built IsRoute
      (Parser.keepRight (Parser.skipUntilOrEnd "/") (Route.rest true).parser) :=
    Parser.built_keepRight (.skipUntilOrEnd _) (.leaf (.parser _))
  have hmoved : Parser.keepRight (Parser.skipUntilOrEnd "/") (Route.rest true).parser
      { source := "ä/" } = .good true (.text "/") { source := "ä/", position := ⟨3, 1, 3⟩ } := by rfl
  have hstuck : Parser.keepRight (Parser.skipUntilOrEnd "/") (Route.rest true).parser
      { source := "ä/", position := ⟨1, 1, 1⟩ } =
        .good false (.text "") { source := "ä/", position := ⟨1, 1, 1⟩ } := by rfl
  exact ⟨hp, ⟨hmoved, progress_iff_offset_lt hp hmoved⟩, hstuck, progress_iff_offset_lt hp hstuck⟩

end UrlRoutes
