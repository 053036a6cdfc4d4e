import UrlRoutes.Proofs.Coherence
/-!
# Failures have a place

A parser that does not try alternatives fails in one dead end, and reports it
where it stands or further on in its source: at the end of a search that
found nothing, or where a number breaks off. A route tries no alternatives,
so all of it fails in one dead end. Its place is one of the text that was
being read, which is the source unless the dead end is inside a query
parameter, and then the value of the innermost one.

Results:
* `failsAhead_token` and its like: where each leaf fails.
* `failsOnce_route`: a failing route has one dead end, at a place of its text.
* `reports_of_bad`: the places of the dead ends of a route.
-/
namespace UrlRoutes
open Text

namespace Parser
variable {κ χ α β : Type}

/-! ## Leaves -/

/-- A failure is one dead end inside the constructs of the start, at a place
that steps over what is left lead to. -/
def FailsAhead (p : Parser κ χ α) : Prop :=
  ∀ s g ds, p s = .bad g ds → ∃ (q : Position) (problem : χ) (cs : List Char),
    ds = s.failAt q.line q.column problem ∧ s.Steps cs (s.advance q)

/-- The dead end of a failure at the cursor. -/
theorem ahead_of_fail (s : State κ) (problem : χ) :
    ∃ (q : Position) (problem' : χ) (cs : List Char),
      s.fail problem = s.failAt q.line q.column problem' ∧ s.Steps cs (s.advance q) :=
  ⟨s.position, problem, [], rfl, s.steps_nil⟩

theorem failsAhead_fail (problem : χ) : FailsAhead (fail problem : Parser κ χ α) := by
  intro s g ds h
  cases h
  exact ahead_of_fail s problem

theorem failsAhead_token (literal : String) (expecting : χ) :
    FailsAhead (token literal expecting : Parser κ χ Unit) := by
  intro s g ds h
  unfold token at h
  split at h
  · cases h
  · cases h
    exact ahead_of_fail s expecting

theorem failsAhead_finishIf (allowSlash : Bool) (value : α) (expecting : χ) :
    FailsAhead (finishIf allowSlash value expecting : Parser κ χ α) := by
  intro s g ds h
  unfold finishIf at h
  split at h
  · cases h
  · cases h
    exact ahead_of_fail s expecting

theorem failsAhead_skipUntil (literal : String) (expecting : χ) :
    FailsAhead (skipUntil literal expecting : Parser κ χ Unit) := by
  intro s g ds h
  unfold skipUntil at h
  split at h
  · cases h
  · next q hq =>
    cases h
    obtain ⟨cs, hcs⟩ := State.steps_findLiteral (.inr hq)
    exact ⟨q, expecting, cs, rfl, hcs⟩

theorem failsAhead_number (policy : NumberPolicy χ α) :
    FailsAhead (number policy : Parser κ χ α) := by
  intro s g ds h
  unfold number at h
  split at h
  · cases h
    exact ahead_of_fail s policy.expecting
  · next skipped hscan =>
    cases h
    -- a number breaks off behind plain characters, one column each
    obtain ⟨as, bs, hrest, hlen, hplain⟩ := Number.scan_malformed hscan
    refine ⟨pastLiteral s.position skipped, policy.invalid, as, rfl, ⟨bs, hrest.symm⟩, ?_⟩
    rw [State.past, Number.past_plain hplain, hlen]
  · split at h
    · cases h
    · next problem _ =>
      cases h
      exact ahead_of_fail s problem

theorem failsAhead_map {p : Parser κ χ α} (hp : FailsAhead p) (f : α → β) : FailsAhead (map f p) := by
  intro s g ds h
  unfold map at h
  cases hr : p s with
  | good => rw [hr] at h; cases h
  | bad g1 xs =>
    rw [hr] at h
    cases h
    exact hp s _ _ hr

end Parser

/-! ## Places -/

/-- The offset of a place is at most the length of the text. -/
theorem Position.Coherent.offset_le {text : String} {p : Position} (h : p.Coherent text) :
    p.offset ≤ byteLength text.toList := by
  obtain ⟨before, after, htext, hoffset, -⟩ := h
  rw [htext, byteLength_append, hoffset]
  exact Nat.le_add_right _ _

/-- The dead end lies at a place of `text`, at byte `start` or behind it. -/
def DeadEnd.LiesIn {κ χ : Type} (d : DeadEnd κ χ) (text : String) (start : Nat) : Prop :=
  ∃ p : Position, p.Coherent text ∧ start ≤ p.offset ∧ p.offset ≤ byteLength text.toList ∧
    d.line = p.line ∧ d.column = p.column

theorem DeadEnd.LiesIn.mono {κ χ : Type} {d : DeadEnd κ χ} {text : String} {m n : Nat}
    (h : d.LiesIn text n) (hmn : m ≤ n) : d.LiesIn text m := by
  obtain ⟨p, hp, hn, hrest⟩ := h
  exact ⟨p, hp, Nat.le_trans hmn hn, hrest⟩

/-- A place that steps lead to is a place of the source. -/
theorem State.Steps.liesIn {κ χ : Type} {s : State κ} {q : Position} {cs : List Char}
    (h : s.Steps cs (s.advance q)) (hs : s.position.Coherent s.source) (problem : χ) (trail : Trail κ) :
    DeadEnd.LiesIn ⟨q.line, q.column, problem, trail⟩ s.source s.offset := by
  have hq : q.Coherent s.source := h.coherent hs
  have hoffset : q.offset = s.offset + byteLength cs := h.offset_eq
  exact ⟨q, hq, by omega, hq.offset_le, rfl, rfl⟩

namespace Route
open UrlRoutes.Parser

/-- The innermost query parameter among some labels. -/
def innermostQuery? : List Label → Option String
  | [] => none
  | .query key :: _ => some key
  | .capture _ :: labels => innermostQuery? labels

theorem innermostQuery?_append (as bs : List Label) :
    innermostQuery? (as ++ bs) = (innermostQuery? as).or (innermostQuery? bs) := by
  induction as with
  | nil => rfl
  | cons label as ih =>
    cases label with
    | capture key => exact ih
    | query key => rfl

/-- The dead end `d`, inside the constructs `labels` entered from `s`, lies in
the value of the innermost query parameter among them, or else in the source
at the cursor or behind it. -/
def LiesAround (s : State Label) (labels : List Label) (d : DeadEnd Label Problem) : Prop :=
  match innermostQuery? labels with
  | none => d.LiesIn s.source s.offset
  | some key => ∃ raw, s.param? key = some raw ∧ d.LiesIn raw 0

theorem LiesAround.of_past {s : State Label} {cs : List Char} {labels : List Label}
    {d : DeadEnd Label Problem} (h : LiesAround (s.past cs) labels d) : LiesAround s labels d := by
  unfold LiesAround at h ⊢
  split at h
  · refine DeadEnd.LiesIn.mono h ?_
    rw [State.past_offset]
    exact Nat.le_add_right _ _
  · exact h

/-- A capture does not change the text that is read. -/
theorem LiesAround.of_enter {s : State Label} {key : String} {labels : List Label}
    {d : DeadEnd Label Problem} (h : LiesAround (s.enter (.capture key)) labels d) :
    LiesAround s (labels ++ [.capture key]) d := by
  have hcapture : innermostQuery? [.capture key] = none := rfl
  rw [LiesAround, innermostQuery?_append, hcapture, Option.or_none]
  exact h

/-- Inside a query parameter the source is its value. -/
theorem LiesAround.of_query {s : State Label} {key raw : String} (hraw : s.param? key = some raw)
    {labels : List Label} {d : DeadEnd Label Problem}
    (h : LiesAround ((s.enter (.query key)).withSource raw) labels d) :
    LiesAround s (labels ++ [.query key]) d := by
  rw [LiesAround, innermostQuery?_append]
  unfold LiesAround at h
  split at h
  · next hnone =>
    rw [hnone]
    exact ⟨raw, hraw, h⟩
  · next inner hinner =>
    rw [hinner]
    exact h

/-- A failure from `s` may report `d`: below the constructs of `s`, at a
place of the text it was reading. -/
def Reports (s : State Label) (d : DeadEnd Label Problem) : Prop :=
  ∃ new, d.trail = new ++ s.trail ∧ LiesAround s (new.map Frame.label) d

theorem reports_failAt {s : State Label} {q : Position} {cs : List Char}
    (h : s.Steps cs (s.advance q)) (hs : s.position.Coherent s.source) (problem : Problem) :
    Reports s ⟨q.line, q.column, problem, s.trail⟩ :=
  ⟨[], rfl, h.liesIn hs problem s.trail⟩

theorem Reports.of_past {s : State Label} {cs : List Char} {d : DeadEnd Label Problem}
    (h : Reports (s.past cs) d) : Reports s d := by
  obtain ⟨new, htrail, hplace⟩ := h
  exact ⟨new, htrail, hplace.of_past⟩

/-- What is reported inside a construct is reported around it. -/
theorem reports_of_enter {s m : State Label} {label : Label} {d : DeadEnd Label Problem}
    (h : Reports m d) (hm : m.trail = (s.enter label).trail)
    (hplace : ∀ labels, LiesAround m labels d → LiesAround s (labels ++ [label]) d) :
    Reports s d := by
  obtain ⟨new, htrail, hnew⟩ := h
  refine ⟨new ++ [⟨s.position.line, s.position.column, label⟩], ?_, ?_⟩
  · rw [htrail, hm, List.append_assoc]
    rfl
  · rw [List.map_append]
    exact hplace _ hnew

/-! ## Routes -/

/-- A failure has one dead end, and from a place of the source it is one that
the state may report. -/
def FailsOnce (p : Reader) : Prop :=
  ∀ s g ds, p s = .bad g ds → ∃ d, ds = [d] ∧ (s.position.Coherent s.source → Reports s d)

theorem failsOnce_of_failsAhead {p : Reader} (h : FailsAhead p) : FailsOnce p := by
  intro s g ds hr
  obtain ⟨q, problem, cs, rfl, hsteps⟩ := h s g ds hr
  exact ⟨_, rfl, fun hs => reports_failAt hsteps hs problem⟩

theorem failsAhead_readStart : FailsAhead readStart := by
  intro s g ds h
  unfold readStart at h
  split at h
  · cases h
  · cases h
    exact ahead_of_fail s _

theorem failsAhead_readMethod (expected : String) : FailsAhead (readMethod expected) := by
  intro s g ds h
  unfold readMethod at h
  split at h
  · cases h
  · cases h
    exact ahead_of_fail s _

theorem failsAhead_readUpTo (delimiter : String) : FailsAhead (readUpTo delimiter) := by
  intro s g ds h
  unfold readUpTo at h
  split at h
  · next hr =>
    cases h
    exact failsAhead_skipUntil delimiter _ s _ _ hr
  · split at h
    · cases h
      exact ahead_of_fail s _
    · cases h

theorem failsAhead_readBefore (boundary : Boundary) : FailsAhead (readBefore boundary) := by
  intro s g ds h
  unfold readBefore at h
  split at h
  · cases h
    obtain ⟨cs, hcs⟩ := s.steps_moveToEnd
    exact ⟨s.moveToEnd.position, boundary.problem, cs, rfl, hcs⟩
  · cases h
    exact ahead_of_fail s _
  · cases h

theorem failsAhead_readRest (allowEmpty : Bool) : FailsAhead (readRest allowEmpty) := by
  intro s g ds h
  unfold readRest at h
  split at h
  · cases h
    exact ahead_of_fail s _
  · cases h

theorem failsAhead_readChoice (options : List String) : FailsAhead (readChoice options) := by
  intro s g ds h
  unfold readChoice at h
  split at h
  · cases h
  · cases h
    exact ahead_of_fail s _

theorem failsOnce_capture {p : Reader} (hp : FailsOnce p) (key : String) :
    FailsOnce (map (Value.field key) (within (.capture key) p)) := by
  intro s g ds h
  unfold map within at h
  cases hr : p (s.enter (.capture key)) with
  | good => rw [hr] at h; cases h
  | bad g1 xs =>
    rw [hr] at h
    cases h
    obtain ⟨d, rfl, hd⟩ := hp _ _ _ hr
    exact ⟨d, rfl, fun hs => reports_of_enter (hd hs) rfl fun _ => .of_enter⟩

theorem failsOnce_join {p q : Reader} (hw : Walks p) (hp : FailsOnce p) (hq : FailsOnce q)
    (f : Value → Value → Value) : FailsOnce (join f p q) := by
  intro s g ds h
  unfold join at h
  cases hr : p s with
  | bad g1 xs =>
    rw [hr] at h
    cases h
    exact hp s _ _ hr
  | good g1 a m =>
    rw [hr] at h
    simp only at h
    cases hm : q m with
    | good => rw [hm] at h; cases h
    | bad g2 ys =>
      rw [hm] at h
      cases h
      obtain ⟨d, rfl, hd⟩ := hq m _ _ hm
      -- the second part fails from a place the first one stepped to
      obtain ⟨cs, hsteps, -⟩ := hw s _ _ _ hr
      refine ⟨d, rfl, fun hs => ?_⟩
      have hd := hd (hsteps.coherent hs)
      obtain ⟨-, rfl⟩ := hsteps
      exact hd.of_past

theorem failsOnce_readQuery {key : String} {inner : Reader} (hw : Walks inner) (hi : FailsOnce inner) :
    FailsOnce (readQuery key inner) := by
  intro s g ds h
  unfold readQuery at h
  split at h
  · cases h
    exact ⟨_, rfl, fun hs => reports_failAt s.steps_nil hs _⟩
  · next raw hraw =>
    have hstart : ((s.enter (.query key)).withSource raw).position.Coherent raw :=
      ⟨[], raw.toList, rfl, rfl, rfl, rfl⟩
    split at h
    · next hr =>
      cases h
      obtain ⟨d, rfl, hd⟩ := hi _ _ _ hr
      exact ⟨d, rfl, fun _ => reports_of_enter (hd hstart) rfl fun _ => .of_query hraw⟩
    · next hr =>
      split at h
      · cases h
      · cases h
        -- what is left of the value is reported where the value was read to
        obtain ⟨cs, ⟨hpre, rfl⟩, -⟩ := hw _ _ _ _ hr
        have hsteps : State.Steps ((s.enter (.query key)).withSource raw) cs
          (((s.enter (.query key)).withSource raw).past cs) := ⟨hpre, rfl⟩
        exact ⟨_, rfl, fun _ =>
          reports_of_enter (reports_failAt hsteps hstart _) rfl fun _ => .of_query hraw⟩

theorem failsOnce_route (route : Route) : FailsOnce route.parser := by
  induction route with
  | start => exact failsOnce_of_failsAhead failsAhead_readStart
  | finish allowSlash => exact failsOnce_of_failsAhead (failsAhead_finishIf allowSlash _ _)
  | literal text => exact failsOnce_of_failsAhead (failsAhead_map (failsAhead_token text _) _)
  | upTo delimiter => exact failsOnce_of_failsAhead (failsAhead_readUpTo delimiter)
  | before boundary => exact failsOnce_of_failsAhead (failsAhead_readBefore boundary)
  | rest allowEmpty => exact failsOnce_of_failsAhead (failsAhead_readRest allowEmpty)
  | capture key inner ih => exact failsOnce_capture ih key
  | number policy style => exact failsOnce_of_failsAhead (failsAhead_number policy)
  | method expected => exact failsOnce_of_failsAhead (failsAhead_readMethod expected)
  | both left right ihl ihr => exact failsOnce_join (walks_route left) ihl ihr _
  | last left right ihl ihr => exact failsOnce_join (walks_route left) ihl ihr _
  | choice options => exact failsOnce_of_failsAhead (failsAhead_readChoice options)
  | query key inner ih => exact failsOnce_readQuery (walks_route inner) ih

/-- From a place of the source, every dead end of a failing route lies at a
place of the text that was being read. -/
theorem reports_of_bad {route : Route} {s : State Label} (hs : s.position.Coherent s.source) {g : Bool}
    {ds : List (DeadEnd Label Problem)} (h : route.parser s = .bad g ds) :
    ∀ d ∈ ds, ∃ new, d.trail = new ++ s.trail ∧
      match innermostQuery? (new.map Frame.label) with
      | none => d.LiesIn s.source s.offset
      | some key => ∃ raw, s.param? key = some raw ∧ d.LiesIn raw 0 := by
  obtain ⟨d, rfl, hd⟩ := failsOnce_route route s g ds h
  intro d' hd'
  rw [List.mem_singleton.mp hd']
  exact hd hs

/-- An exponent breaks off in a parameter, while the path stands in its second line. -/
theorem reports_of_bad_exponent :
    let route := both (.literal "/ä\n") (.query "q" (both (.literal "ü=") Route.float))
    let s : State Label := { source := "/ä\n", params := .ofList [("q", "ü=1.5e")] }
    let d : DeadEnd Label Problem := ⟨1, 7, .invalid, [⟨2, 1, .query "q"⟩]⟩
    s.position.Coherent s.source ∧ route.parser s = .bad true [d] ∧
      ∃ new, d.trail = new ++ s.trail ∧
        match innermostQuery? (new.map Frame.label) with
        | none => d.LiesIn s.source s.offset
        | some key => ∃ raw, s.param? key = some raw ∧ d.LiesIn raw 0 := by
  have hs : Position.start.Coherent "/ä\n" := ⟨[], "/ä\n".toList, rfl, rfl, rfl, rfl⟩
  have hrun : (both (.literal "/ä\n") (.query "q" (both (.literal "ü=") Route.float))).parser
      { source := "/ä\n", params := .ofList [("q", "ü=1.5e")] } =
        .bad true [⟨1, 7, .invalid, [⟨2, 1, .query "q"⟩]⟩] := by rfl
  exact ⟨hs, hrun, reports_of_bad hs hrun _ (List.mem_singleton_self _)⟩

end Route
end UrlRoutes
