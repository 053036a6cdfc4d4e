import UrlRoutes.Proofs.Failures
/-!
# What a parse leaves alone

A success moves the cursor and nothing else: source, request and trail are
those of the start, whatever captures were entered on the way and whatever
query parameters were read from sources of their own. A failure keeps the
trail it started with at the outer end of every dead end, and a route adds
the captures and query parameters around one of its nodes.

Results:
* `failsUnder_built`: no built parser loses a frame in a failure.
* `failsUnder_route`: the frames a route adds are those around a node.
* `parse_frame`: both, with the frame of a success.
-/
namespace UrlRoutes

/-- `route.Around labels node`: `node` is a node of `route`, and `labels` are
the captures and query parameters around it, the innermost first. -/
inductive Route.Around : Route → List Label → Route → Prop where
  | here (route : Route) : Around route [] route
  | capture {inner node : Route} {labels : List Label} (key : String)
      (h : Around inner labels node) : Around (.capture key inner) (labels ++ [.capture key]) node
  | query {inner node : Route} {labels : List Label} (key : String)
      (h : Around inner labels node) : Around (.query key inner) (labels ++ [.query key]) node
  | bothLeft {left node : Route} {labels : List Label} (right : Route)
      (h : Around left labels node) : Around (.both left right) labels node
  | bothRight {right node : Route} {labels : List Label} (left : Route)
      (h : Around right labels node) : Around (.both left right) labels node
  | lastLeft {left node : Route} {labels : List Label} (right : Route)
      (h : Around left labels node) : Around (.last left right) labels node
  | lastRight {right node : Route} {labels : List Label} (left : Route)
      (h : Around right labels node) : Around (.last left right) labels node

namespace Parser
variable {κ χ α β γ : Type} {L : List κ → Prop}

/-- Every dead end of a failure has the trail of the start behind new frames,
and the labels of the new frames satisfy `L`. -/
def FailsUnder (p : Parser κ χ α) (L : List κ → Prop) : Prop :=
  ∀ s g ds, p s = .bad g ds →
    ∀ d ∈ ds, ∃ new : List (Frame κ), d.trail = new ++ s.trail ∧ L (new.map Frame.label)

theorem FailsUnder.mono {p : Parser κ χ α} {M : List κ → Prop} (h : FailsUnder p L)
    (hLM : ∀ labels, L labels → M labels) : FailsUnder p M := by
  intro s g ds hr d hd
  obtain ⟨new, htrail, hL⟩ := h s g ds hr d hd
  exact ⟨new, htrail, hLM _ hL⟩

/-- A failure at the cursor, or elsewhere in the source, adds no frame. -/
theorem trail_of_mem_failAt {s : State κ} {line column : Nat} {problem : χ} (h0 : L []) :
    ∀ d ∈ s.failAt line column problem,
      ∃ new : List (Frame κ), d.trail = new ++ s.trail ∧ L (new.map Frame.label) := by
  intro d hd
  rw [State.failAt, List.mem_singleton] at hd
  exact ⟨[], by rw [hd]; rfl, h0⟩

/-- A leaf fails with the trail it started with. -/
theorem failsUnder_of_failsAhead {p : Parser κ χ α} (h0 : L []) (h : FailsAhead p) : FailsUnder p L := by
  intro s g ds hr
  obtain ⟨q, problem, cs, rfl, -⟩ := h s g ds hr
  exact trail_of_mem_failAt h0

theorem failsUnder_succeed (value : α) : FailsUnder (succeed value : Parser κ χ α) L := by
  intro s g ds h
  cases h

theorem failsUnder_map {p : Parser κ χ α} (hp : FailsUnder p L) (f : α → β) :
    FailsUnder (map f p) L := by
  intro s g ds h
  unfold map at h
  cases hr : p s with
  | good => rw [hr] at h; cases h
  | bad g1 xs =>
    rw [hr] at h
    cases h
    exact hp s _ _ hr

theorem failsUnder_andThen {p : Parser κ χ α} {f : α → Parser κ χ β} (hw : Walks p)
    (hp : FailsUnder p L) (hf : ∀ a, FailsUnder (f a) L) : FailsUnder (andThen p f) L := by
  intro s g ds h
  unfold andThen at h
  cases hr : p s with
  | bad g1 xs =>
    rw [hr] at h
    cases h
    exact hp s _ _ hr
  | good g1 a m =>
    rw [hr] at h
    simp only at h
    cases hq : f a m with
    | good => rw [hq] at h; cases h
    | bad g2 ys =>
      rw [hq] at h
      cases h
      -- the second part starts with the trail of the first
      obtain ⟨cs, ⟨-, rfl⟩, -⟩ := hw s _ _ _ hr
      exact hf a (s.past cs) _ _ hq

theorem failsUnder_join {p : Parser κ χ α} {q : Parser κ χ β} (hw : Walks p)
    (hp : FailsUnder p L) (hq : FailsUnder q L) (f : α → β → γ) : FailsUnder (join f p q) L := by
  rw [join_eq_andThen]
  exact failsUnder_andThen hw hp fun a => failsUnder_map hq (f a)

theorem failsUnder_oneOf {ps : List (Parser κ χ α)} (hps : ∀ p ∈ ps, FailsUnder p L) :
    FailsUnder (oneOf ps) L := by
  induction ps with
  | nil =>
    intro s g ds h d hd
    cases h
    cases hd
  | cons p ps ih =>
    intro s g ds h d hd
    unfold oneOf at h
    cases hr : p s with
    | good => rw [hr] at h; cases h
    | bad g1 xs =>
      rw [hr] at h
      simp only at h
      cases hq : oneOf ps s with
      | good => rw [hq] at h; cases h
      | bad g2 ys =>
        rw [hq] at h
        cases h
        rcases List.mem_append.mp hd with hd | hd
        · exact hps p List.mem_cons_self s _ _ hr d hd
        · exact ih (fun q hq => hps q (List.mem_cons_of_mem p hq)) s _ _ hq d hd

/-- A dead end met inside a construct has the frame of the construct below its own. -/
theorem trail_of_enter {s : State κ} {label : κ} {d : DeadEnd κ χ}
    (h : ∃ new : List (Frame κ), d.trail = new ++ (s.enter label).trail ∧
      L (new.map Frame.label ++ [label])) :
    ∃ new : List (Frame κ), d.trail = new ++ s.trail ∧ L (new.map Frame.label) := by
  obtain ⟨new, htrail, hL⟩ := h
  refine ⟨new ++ [⟨s.position.line, s.position.column, label⟩], ?_, ?_⟩
  · rw [htrail, List.append_assoc]
    rfl
  · rw [List.map_append]
    exact hL

theorem failsUnder_within {p : Parser κ χ α} {label : κ}
    (hp : FailsUnder p fun labels => L (labels ++ [label])) : FailsUnder (within label p) L := by
  intro s g ds h d hd
  unfold within at h
  cases hr : p (s.enter label) with
  | good => rw [hr] at h; cases h
  | bad g1 xs =>
    rw [hr] at h
    cases h
    exact trail_of_enter (hp _ _ _ hr d hd)

theorem failsUnder_mapConsumed {p : Parser κ χ α} (hp : FailsUnder p L) (f : String → α → β) :
    FailsUnder (mapConsumed f p) L := by
  intro s g ds h
  unfold mapConsumed at h
  cases hr : p s with
  | good => rw [hr] at h; cases h
  | bad g1 xs =>
    rw [hr] at h
    cases h
    exact hp s _ _ hr

theorem failsUnder_skipWhile (test : Char → Bool) : FailsUnder (skipWhile test : Parser κ χ Unit) L := by
  intro s g ds h
  cases h

theorem failsUnder_skipUntilOrEnd (literal : String) :
    FailsUnder (skipUntilOrEnd literal : Parser κ χ Unit) L := by
  intro s g ds h
  unfold skipUntilOrEnd at h
  split at h <;> cases h

/-- Parsers built from leaves that keep the trail keep the trail. -/
theorem failsUnder_built {leaf : (α : Type) → Parser κ χ α → Prop}
    (hwalks : ∀ α p, leaf α p → Walks p)
    (hleaf : ∀ α p, leaf α p → FailsUnder p fun _ => True) {p : Parser κ χ α} (h : Built leaf p) :
    FailsUnder p fun _ => True := by
  induction h with
  | leaf h => exact hleaf _ _ h
  | succeed value => exact failsUnder_succeed value
  | fail problem => exact failsUnder_of_failsAhead trivial (failsAhead_fail problem)
  | map f _ ih => exact failsUnder_map ih f
  | andThen hp _ ih ihf => exact failsUnder_andThen (walks_built hwalks hp) ih ihf
  | join f hl _ ihl ihr => exact failsUnder_join (walks_built hwalks hl) ihl ihr f
  | oneOf _ ih => exact failsUnder_oneOf ih
  | within label _ ih => exact failsUnder_within ih
  | token literal expecting => exact failsUnder_of_failsAhead trivial (failsAhead_token literal expecting)
  | finishIf allowSlash value expecting =>
    exact failsUnder_of_failsAhead trivial (failsAhead_finishIf allowSlash value expecting)
  | skipWhile test => exact failsUnder_skipWhile test
  | skipUntil literal expecting =>
    exact failsUnder_of_failsAhead trivial (failsAhead_skipUntil literal expecting)
  | skipUntilOrEnd literal => exact failsUnder_skipUntilOrEnd literal
  | mapConsumed f _ ih => exact failsUnder_mapConsumed ih f
  | number policy => exact failsUnder_of_failsAhead trivial (failsAhead_number policy)

end Parser

/-! ## Routes -/

namespace Route
open UrlRoutes.Parser
variable {L : List Label → Prop}

theorem failsUnder_readQuery {key : String} {inner : Reader} (hw : Walks inner)
    (hi : FailsUnder inner fun labels => L (labels ++ [.query key])) (h0 : L [])
    (h1 : L [.query key]) : FailsUnder (readQuery key inner) L := by
  intro s g ds h
  unfold readQuery at h
  split at h
  · cases h
    exact trail_of_mem_failAt h0
  · next raw _ =>
    intro d hd
    split at h
    · next hr =>
      cases h
      exact trail_of_enter (hi _ _ _ hr d hd)
    · next hr =>
      split at h
      · cases h
      · cases h
        -- the value was read, but not to its end: the parameter is still open
        obtain ⟨cs, ⟨-, rfl⟩, -⟩ := hw _ _ _ _ hr
        rw [List.mem_singleton.mp hd]
        exact ⟨[⟨s.position.line, s.position.column, .query key⟩], rfl, h1⟩

/-- The frames a failing route adds are the captures and parameters around one of its nodes. -/
theorem failsUnder_route (route : Route) :
    FailsUnder route.parser fun labels => ∃ node, route.Around labels node := by
  induction route with
  | start => exact failsUnder_of_failsAhead ⟨_, .here _⟩ failsAhead_readStart
  | finish allowSlash => exact failsUnder_of_failsAhead ⟨_, .here _⟩ (failsAhead_finishIf allowSlash _ _)
  | literal text =>
    exact failsUnder_of_failsAhead ⟨_, .here _⟩ (failsAhead_map (failsAhead_token text _) _)
  | upTo delimiter => exact failsUnder_of_failsAhead ⟨_, .here _⟩ (failsAhead_readUpTo delimiter)
  | before boundary => exact failsUnder_of_failsAhead ⟨_, .here _⟩ (failsAhead_readBefore boundary)
  | rest allowEmpty => exact failsUnder_of_failsAhead ⟨_, .here _⟩ (failsAhead_readRest allowEmpty)
  | capture key inner ih =>
    refine failsUnder_map (failsUnder_within (ih.mono ?_)) _
    intro labels ⟨node, h⟩
    exact ⟨node, h.capture key⟩
  | number policy style => exact failsUnder_of_failsAhead ⟨_, .here _⟩ (failsAhead_number policy)
  | method expected => exact failsUnder_of_failsAhead ⟨_, .here _⟩ (failsAhead_readMethod expected)
  | both left right ihl ihr =>
    refine failsUnder_join (walks_route left) (ihl.mono ?_) (ihr.mono ?_) _
    · intro labels ⟨node, h⟩
      exact ⟨node, h.bothLeft right⟩
    · intro labels ⟨node, h⟩
      exact ⟨node, h.bothRight left⟩
  | last left right ihl ihr =>
    refine failsUnder_join (walks_route left) (ihl.mono ?_) (ihr.mono ?_) _
    · intro labels ⟨node, h⟩
      exact ⟨node, h.lastLeft right⟩
    · intro labels ⟨node, h⟩
      exact ⟨node, h.lastRight left⟩
  | choice options => exact failsUnder_of_failsAhead ⟨_, .here _⟩ (failsAhead_readChoice options)
  | query key inner ih =>
    refine failsUnder_readQuery (walks_route inner) (ih.mono ?_) ⟨_, .here _⟩ ?_
    · intro labels ⟨node, h⟩
      exact ⟨node, h.query key⟩
    · exact ⟨inner, (Around.here inner).query key⟩

end Route

theorem failsUnder_builtWithRoutes {κ χ α : Type} {p : Parser κ χ α} (h : Parser.Built IsRoute p) :
    p.FailsUnder fun _ => True := by
  refine Parser.failsUnder_built (fun _ _ hr => walks_isRoute hr) ?_ h
  intro β q hq
  cases hq with
  | parser route => exact (Route.failsUnder_route route).mono fun _ _ => trivial

/-- A success changes the cursor alone. A failure keeps the trail of the
start in every dead end, and the labels a route adds are the captures and
query parameters around one of its nodes. -/
theorem parse_frame :
    (∀ {κ χ α : Type} {p : Parser κ χ α}, Parser.Built IsRoute p → ∀ s : State κ,
      (∀ g v s', p s = .good g v s' → s' = { s with position := s'.position }) ∧
      (∀ g ds, p s = .bad g ds → ∀ d ∈ ds, ∃ new, d.trail = new ++ s.trail)) ∧
    (∀ (route : Route) (s : State Label) g ds, route.parser s = .bad g ds →
      ∀ d ∈ ds, ∃ new node, d.trail = new ++ s.trail ∧ route.Around (new.map Frame.label) node) := by
  refine ⟨?_, ?_⟩
  · intro κ χ α p hp s
    refine ⟨?_, ?_⟩
    · intro g v s' h
      obtain ⟨cs, ⟨-, rfl⟩, -⟩ := walks_builtWithRoutes hp s g v s' h
      rfl
    · intro g ds h d hd
      obtain ⟨new, htrail, -⟩ := failsUnder_builtWithRoutes hp s g ds h d hd
      exact ⟨new, htrail⟩
  · intro route s g ds h d hd
    obtain ⟨new, htrail, node, hnode⟩ := route.failsUnder_route s g ds h d hd
    exact ⟨new, node, htrail, hnode⟩

/-- A parameter that is not read to its end, inside a capture, inside an outer construct. -/
theorem parse_frame_unread_parameter :
    let route := Route.both (.literal "/") (.capture "c" (.query "page" Route.int))
    let s : State Label :=
      { source := "/", params := .ofList [("page", "7x")], trail := [⟨1, 1, .capture "outer"⟩] }
    let d : DeadEnd Label Problem :=
      ⟨1, 2, .expectingEnd, [⟨1, 2, .query "page"⟩, ⟨1, 2, .capture "c"⟩, ⟨1, 1, .capture "outer"⟩]⟩
    Parser.Built IsRoute route.parser ∧ route.parser s = .bad true [d] ∧
      (∃ new, d.trail = new ++ s.trail) ∧
      ∃ new node, d.trail = new ++ s.trail ∧ route.Around (new.map Frame.label) node := by
  have hbuilt := Parser.Built.leaf (IsRoute.parser
    (.both (.literal "/") (.capture "c" (.query "page" Route.int))))
  have hrun : (Route.both (.literal "/") (.capture "c" (.query "page" Route.int))).parser
      { source := "/", params := .ofList [("page", "7x")], trail := [⟨1, 1, .capture "outer"⟩] } =
        .bad true [⟨1, 2, .expectingEnd,
          [⟨1, 2, .query "page"⟩, ⟨1, 2, .capture "c"⟩, ⟨1, 1, .capture "outer"⟩]⟩] := by rfl
  exact ⟨hbuilt, hrun, (parse_frame.1 hbuilt _).2 _ _ hrun _ (List.mem_singleton_self _),
    parse_frame.2 _ _ _ _ hrun _ (List.mem_singleton_self _)⟩

end UrlRoutes
