import UrlRoutes.Proofs.Steps
import UrlRoutes.Route.Request
/-!
# What routes read

Reading with a route, said without cursors. `Takes` tells by recursion on the
route which leading part `t` of a text `t ++ r` is read, and as what. Beside
the text it looks at the request alone and at whether the text is whole, so
the trail and the coordinates play no part.

Results:
* `reads_route`: on a boundary a route's parser succeeds exactly as `Takes`
  says, and leaves the rest of the text.
* `runOn_eq_ok_iff`: what a route makes of a source, from its start.
-/
namespace UrlRoutes
open Text

/-! ## Leading parts of strings -/

theorem toList_eq_append_iff {x : String} {as bs : List Char} :
    x.toList = as ++ bs ↔ ∃ t r : String, x = t ++ r ∧ t.toList = as ∧ r.toList = bs := by
  constructor
  · intro h
    refine ⟨String.ofList as, String.ofList bs, ?_, String.toList_ofList, String.toList_ofList⟩
    rw [← String.ofList_append, ← h, String.ofList_toList]
  · intro hsplit
    obtain ⟨t, r, rfl, rfl, rfl⟩ := hsplit
    exact String.toList_append

theorem State.at_start {κ : Type} {s : State κ} (h : s.position = .start) : s.At s.source.toList := by
  rw [State.At, h, Position.rest?]
  simp [Position.start, dropBytes?]

/-! ## Successes -/

namespace Parser
variable {κ χ α β γ : Type}

/-- A success with value `v` that ends in `s'`, with or without progress. -/
def Yields (p : Parser κ χ α) (s : State κ) (v : α) (s' : State κ) : Prop := ∃ g, p s = .good g v s'

theorem yields_map_iff {f : α → β} {p : Parser κ χ α} {s s' : State κ} {b : β} :
    (map f p).Yields s b s' ↔ ∃ a, p.Yields s a s' ∧ b = f a := by
  unfold Yields map
  cases p s with
  | bad => simp [Result.map]
  | good g a m => simp [Result.map, and_comm, eq_comm]

theorem yields_join_iff {f : α → β → γ} {p : Parser κ χ α} {q : Parser κ χ β} {s s' : State κ} {c : γ} :
    (join f p q).Yields s c s' ↔ ∃ a m b, p.Yields s a m ∧ q.Yields m b s' ∧ c = f a b := by
  unfold Yields join
  cases p s with
  | bad => simp
  | good g a m =>
    constructor
    · intro hyields
      obtain ⟨g', h⟩ := hyields
      simp only at h
      cases hq : q m with
      | bad => rw [hq] at h; cases h
      | good g2 b m' =>
        rw [hq] at h
        cases h
        exact ⟨a, m, b, ⟨g, rfl⟩, ⟨g2, hq⟩, rfl⟩
    · intro hboth
      obtain ⟨a', m', b, ⟨g1, h1⟩, ⟨g2, h2⟩, rfl⟩ := hboth
      cases h1
      refine ⟨g || g2, ?_⟩
      simp only [h2]
      rfl

theorem yields_within_iff {label : κ} {p : Parser κ χ α} {s s' : State κ} {a : α} :
    (within label p).Yields s a s' ↔
      ∃ m, p.Yields (s.enter label) a m ∧ s' = m.withTrail s.trail := by
  unfold Yields within
  cases p (s.enter label) with
  | bad => simp
  | good g b m =>
    constructor
    · intro hyields
      obtain ⟨g', h⟩ := hyields
      cases h
      exact ⟨m, ⟨g, rfl⟩, rfl⟩
    · intro hinner
      obtain ⟨m', ⟨g', h⟩, rfl⟩ := hinner
      cases h
      exact ⟨g, rfl⟩

end Parser

/-! ## The relation -/

/-- What reading depends on beside the text. -/
structure Setting where
  /-- Nothing of the source was read before. -/
  fresh : Bool
  method : Option String
  params : Dict String

def Setting.past (c : Setting) (t : String) : Setting := { c with fresh := c.fresh && decide (t = "") }

def State.setting {κ : Type} (s : State κ) : Setting := ⟨decide (s.offset = 0), s.method, s.params⟩

namespace Route
open UrlRoutes.Parser

/-- In the setting `c`, `route` reads the part `t` of the text `t ++ r` as `v`. -/
def Takes : Route → Setting → String → String → Value → Prop
  | start, c, t, _, v => t = "" ∧ c.fresh = true ∧ v = .unit
  | finish allowSlash, _, t, r, v => r = "" ∧ (t = "" ∨ allowSlash = true ∧ t = "/") ∧ v = .unit
  | literal text, _, t, _, v => t = text ∧ v = .unit
  | upTo delimiter, _, t, r, v =>
    t ≠ "" ∧ cutAt delimiter.toList (t ++ r).toList = some (t.toList, r.toList) ∧ v = .text t
  | before boundary, _, t, r, v =>
    t ≠ "" ∧ boundary.cut? (t ++ r).toList = some (t.toList, r.toList) ∧ v = .text t
  | rest allowEmpty, _, t, r, v => r = "" ∧ (t ≠ "" ∨ allowEmpty = true) ∧ v = .text t
  | capture key inner, c, t, r, v => ∃ a, inner.Takes c t r a ∧ v = .field key a
  | number policy _, _, t, r, v =>
    ∃ l, Number.scan (t ++ r).toList = .found l t.toList.length ∧ policy.accept l = .ok v
  | method expected, c, t, _, v =>
    t = "" ∧ c.method.any (Text.sameIgnoringCase · expected) = true ∧ v = .unit
  | both left right, c, t, r, v => ∃ t1 t2 a b, t = t1 ++ t2 ∧ left.Takes c t1 (t2 ++ r) a ∧
      right.Takes (c.past t1) t2 r b ∧ v = a.merge b
  | last left right, c, t, r, v => ∃ t1 t2 a, t = t1 ++ t2 ∧ left.Takes c t1 (t2 ++ r) a ∧
      right.Takes (c.past t1) t2 r v
  | choice options, _, t, r, v =>
    options.find? (fun option => option.toList.isPrefixOf (t ++ r).toList) = some t ∧ v = .text t
  | query key inner, c, t, _, v => t = "" ∧ ∃ raw a, c.params.get? key = some raw ∧
      inner.Takes { c with fresh := true } raw "" a ∧ v = .field key a

/-- `p` reads on every boundary what `takes` says, and leaves the rest. -/
def Reads (p : Reader) (takes : Setting → String → String → Value → Prop) : Prop :=
  ∀ (s : State Label) (x : String), s.At x.toList → ∀ v s', p.Yields s v s' ↔
    ∃ t r, x = t ++ r ∧ takes s.setting t r v ∧ s' = s.past t.toList

/-! ## Leaves -/

theorem setting_past (s : State Label) (t : String) : (s.past t.toList).setting = s.setting.past t := by
  have hd : decide (s.offset + byteLength t.toList = 0) = (decide (s.offset = 0) && decide (t = "")) := by
    rw [← Bool.decide_and, decide_eq_decide, Nat.add_eq_zero_iff, byteLength_eq_zero_iff, String.toList_eq_nil_iff]
  rw [State.setting, State.past_offset, hd]
  rfl

/-- A parser that reads nothing when it succeeds. -/
theorem reads_of_still {p : Reader} {R : Setting → Value → Prop}
    (h : ∀ s v s', p.Yields s v s' ↔ R s.setting v ∧ s' = s) :
    Reads p fun c t _ v => t = "" ∧ R c v := by
  intro s x hs v s'
  rw [h]
  constructor
  · intro hyields
    obtain ⟨hv, rfl⟩ := hyields
    exact ⟨"", x, String.empty_append.symm, ⟨rfl, hv⟩, rfl⟩
  · intro htakes
    obtain ⟨t, r, -, ⟨rfl, hv⟩, rfl⟩ := htakes
    exact ⟨hv, rfl⟩

theorem reads_start : Reads readStart start.Takes := by
  refine reads_of_still (R := fun c v => c.fresh = true ∧ v = .unit) ?_
  intro s v s'
  unfold Yields readStart State.setting
  split
  · next h => simp [h, eq_comm]
  · next h => simp [h]

theorem reads_method (expected : String) : Reads (readMethod expected) (method expected).Takes := by
  refine reads_of_still
    (R := fun c v => c.method.any (Text.sameIgnoringCase · expected) = true ∧ v = .unit) ?_
  intro s v s'
  unfold Yields readMethod State.setting
  split
  · next h => simp [h, eq_comm]
  · next h => simp [h]

theorem yields_arrive_iff {κ χ α : Type} {s s' : State κ} {a v : α} {p : Position} :
    (∃ g, (arrive s a p : Result κ χ α) = .good g v s') ↔ v = a ∧ s' = s.advance p := by
  constructor
  · intro hgood
    obtain ⟨g, h⟩ := hgood
    cases h
    exact ⟨rfl, rfl⟩
  · intro hplace
    obtain ⟨rfl, rfl⟩ := hplace
    exact ⟨_, rfl⟩

theorem reads_finish (allowSlash : Bool) :
    Reads (finishIf allowSlash .unit .expectingEnd) (finish allowSlash).Takes := by
  intro s x hs v s'
  have hend : s.moveToEnd.position = s.position.past x.toList := Position.moveToEnd_past hs
  have hfin : s.isFinished allowSlash = true ↔ x = "" ∨ allowSlash = true ∧ x = "/" := by
    have hslash : ['/'] = "/".toList := rfl
    rw [State.isFinished, hs.rest_eq, Bool.or_eq_true, Bool.and_eq_true, beq_iff_eq, beq_iff_eq,
      String.toList_eq_nil_iff, hslash, String.toList_inj]
  unfold Yields finishIf
  split
  · next h =>
    rw [yields_arrive_iff, hend]
    constructor
    · intro hyields
      obtain ⟨rfl, rfl⟩ := hyields
      exact ⟨x, "", String.append_empty.symm, ⟨rfl, hfin.mp h, rfl⟩, rfl⟩
    · intro htakes
      obtain ⟨t, r, rfl, ⟨rfl, -, rfl⟩, rfl⟩ := htakes
      rw [String.append_empty]
      exact ⟨rfl, rfl⟩
  · next h =>
    constructor
    · intro hyields
      obtain ⟨g, h⟩ := hyields
      cases h
    · intro htakes
      obtain ⟨t, r, rfl, ⟨rfl, ht, -⟩, -⟩ := htakes
      rw [String.append_empty] at hfin
      exact absurd (hfin.mpr ht) h

theorem reads_literal (text : String) :
    Reads (map (fun _ => .unit) (token text (.expectingLiteral text))) (literal text).Takes := by
  intro s x hs v s'
  have hm : s.position.matchLiteral text s.source =
      Position.matchChars text.toList x.toList s.position := by
    rw [Position.matchLiteral, hs]
  rw [yields_map_iff]
  unfold Yields token
  constructor
  · intro hyields
    obtain ⟨u, ⟨g, h⟩, rfl⟩ := hyields
    split at h
    · next q hq =>
      rw [hm, Position.matchChars_eq_ok_iff] at hq
      obtain ⟨⟨tail, htail⟩, rfl⟩ := hq
      obtain ⟨t, r, rfl, ht, -⟩ := toList_eq_append_iff.mp htail.symm
      cases h
      rw [String.toList_inj] at ht
      exact ⟨t, r, rfl, ⟨ht, rfl⟩, by rw [ht]; rfl⟩
    · cases h
  · intro htakes
    obtain ⟨t, r, rfl, ⟨rfl, rfl⟩, rfl⟩ := htakes
    rw [hm, String.toList_append, Position.matchChars_self]
    exact ⟨(), ⟨_, rfl⟩, rfl⟩

theorem findLiteral_of_at {s : State Label} {cs : List Char} (h : s.At cs) (literal : String) :
    s.position.findLiteral literal s.source =
      match cutAt literal.toList cs with
      | some (skipped, _) => .ok (s.position.past skipped)
      | none => .error (s.position.past cs) := by
  rw [Position.findLiteral, charsFrom_of_dropBytes? h]
  cases hcut : cutAt literal.toList cs with
  | none =>
    show Except.error (s.position.moveToEnd s.source) = Except.error (s.position.past cs)
    rw [Position.moveToEnd_past h]
  | some cut =>
    obtain ⟨skipped, after⟩ := cut
    rw [cutWhere_append hcut] at h
    show Except.ok (s.position.moveTo (s.offset + byteLength skipped) s.source) = _
    rw [State.offset, Position.moveTo_append h.rest_eq]

theorem readUpTo_of_at {s : State Label} {cs : List Char} (h : s.At cs) (delimiter : String) {v : Value}
    {s' : State Label} : (readUpTo delimiter).Yields s v s' ↔
      ∃ before after, cutAt delimiter.toList cs = some (before, after) ∧ before ≠ [] ∧
        v = .text (String.ofList before) ∧ s' = s.past before := by
  unfold Yields readUpTo skipUntil
  rw [findLiteral_of_at h]
  cases hcut : cutAt delimiter.toList cs with
  | none => simp
  | some cut =>
    obtain ⟨before, after⟩ := cut
    have hcs := cutWhere_append hcut
    rw [hcs] at h
    have hsteps : s.Steps before (s.advance (s.position.past before)) := h.steps
    have hstay : (s.advance (s.position.past before)).offset = s.offset ↔ before = [] := by
      rw [hsteps.offset_eq, Nat.add_eq_left, byteLength_eq_zero_iff]
    have hslice : s.sliceTo (s.advance (s.position.past before)) = String.ofList before := hsteps.sliceTo_eq
    simp only [arrive, hstay, hslice]
    constructor
    · intro hyields
      obtain ⟨g, hgood⟩ := hyields
      split at hgood
      · cases hgood
      · next hne =>
        cases hgood
        exact ⟨before, after, rfl, hne, rfl, rfl⟩
    · intro htakes
      obtain ⟨b, a, hb, hne, rfl, rfl⟩ := htakes
      cases hb
      rw [if_neg hne]
      exact ⟨_, rfl⟩

theorem readBefore_of_at {s : State Label} {cs : List Char} (h : s.At cs) (boundary : Boundary)
    {v : Value} {s' : State Label} : (readBefore boundary).Yields s v s' ↔
      ∃ before after, boundary.cut? cs = some (before, after) ∧ before ≠ [] ∧
        v = .text (String.ofList before) ∧ s' = s.past before := by
  unfold Yields readBefore
  rw [h.rest_eq]
  cases hcut : boundary.cut? cs with
  | none => simp
  | some cut =>
    obtain ⟨before, after⟩ := cut
    rw [Boundary.cut?_append hcut] at h
    cases before with
    | nil => simp
    | cons c before =>
      have hmove : s.position.moveTo (s.offset + byteLength (c :: before)) s.source =
          s.position.past (c :: before) := Position.moveTo_append h.rest_eq
      simp only [hmove]
      constructor
      · intro hyields
        obtain ⟨g, hgood⟩ := hyields
        cases hgood
        exact ⟨_, _, rfl, List.cons_ne_nil c before, rfl, rfl⟩
      · intro htakes
        obtain ⟨b, a, hb, -, rfl, rfl⟩ := htakes
        cases hb
        exact ⟨true, rfl⟩

/-- From characters to strings, for captures that end at a cut. -/
theorem reads_of_cut {p : Reader} {cut : List Char → Option (List Char × List Char)}
    (hcut : ∀ {cs before after}, cut cs = some (before, after) → cs = before ++ after)
    (h : ∀ {s : State Label} {cs : List Char}, s.At cs → ∀ {v s'}, p.Yields s v s' ↔
      ∃ before after, cut cs = some (before, after) ∧ before ≠ [] ∧
        v = .text (String.ofList before) ∧ s' = s.past before) :
    Reads p fun _ t r v => t ≠ "" ∧ cut (t ++ r).toList = some (t.toList, r.toList) ∧ v = .text t := by
  intro s x hs v s'
  rw [h hs]
  constructor
  · intro hyields
    obtain ⟨before, after, hb, hne, rfl, rfl⟩ := hyields
    obtain ⟨t, r, rfl, rfl, rfl⟩ := toList_eq_append_iff.mp (hcut hb)
    rw [ne_eq, String.toList_eq_nil_iff] at hne
    exact ⟨t, r, rfl, ⟨hne, hb, by rw [String.ofList_toList]⟩, rfl⟩
  · intro htakes
    obtain ⟨t, r, rfl, ⟨hne, hb, rfl⟩, rfl⟩ := htakes
    rw [ne_eq, ← String.toList_eq_nil_iff] at hne
    exact ⟨t.toList, r.toList, hb, hne, by rw [String.ofList_toList], rfl⟩

theorem reads_upTo (delimiter : String) : Reads (readUpTo delimiter) (upTo delimiter).Takes :=
  reads_of_cut cutWhere_append fun hs => readUpTo_of_at hs delimiter

theorem reads_before (boundary : Boundary) : Reads (readBefore boundary) (before boundary).Takes :=
  reads_of_cut Boundary.cut?_append fun hs => readBefore_of_at hs boundary

theorem reads_rest (allowEmpty : Bool) : Reads (readRest allowEmpty) (rest allowEmpty).Takes := by
  intro s x hs v s'
  have hend : s.moveToEnd.position = s.position.past x.toList := Position.moveToEnd_past hs
  have htext : s.remaining = x := by rw [State.remaining, hs.rest_eq, String.ofList_toList]
  unfold Yields readRest
  simp only [hs.rest_eq, String.toList_eq_nil_iff]
  split
  · next h =>
    constructor
    · intro hyields
      obtain ⟨g, hgood⟩ := hyields
      cases hgood
    · intro htakes
      -- an empty text is read only where it is allowed
      obtain ⟨t, r, hx, ⟨rfl, ht, -⟩, -⟩ := htakes
      rw [String.append_empty] at hx
      rw [← hx, h.1, h.2] at ht
      simp at ht
  · next h =>
    rw [yields_arrive_iff, hend, htext]
    constructor
    · intro hyields
      obtain ⟨rfl, rfl⟩ := hyields
      refine ⟨x, "", String.append_empty.symm, ⟨rfl, ?_, rfl⟩, rfl⟩
      by_cases hx : x = ""
      · exact .inr (Bool.not_eq_false _ ▸ fun he => h ⟨hx, he⟩)
      · exact .inl hx
    · intro htakes
      obtain ⟨t, r, rfl, ⟨rfl, -, rfl⟩, rfl⟩ := htakes
      rw [String.append_empty]
      exact ⟨rfl, rfl⟩

theorem reads_number (policy : NumberPolicy Problem Value) (style : NumberStyle) :
    Reads (Parser.number policy) (number policy style).Takes := by
  intro s x hs v s'
  simp only [Yields, number_eq_good_iff, hs.rest_eq]
  constructor
  · intro hyields
    obtain ⟨g, -, l, length, hscan, hacc, rfl⟩ := hyields
    obtain ⟨-, as, bs, hx, rfl, -⟩ := Number.scan_found hscan
    obtain ⟨t, r, rfl, rfl, rfl⟩ := toList_eq_append_iff.mp hx
    refine ⟨t, r, rfl, ⟨l, hscan, hacc⟩, ?_⟩
    rw [String.toList_append] at hscan
    rw [State.past, Number.past_of_scan hscan]
  · intro htakes
    obtain ⟨t, r, rfl, ⟨l, hscan, hacc⟩, rfl⟩ := htakes
    refine ⟨true, rfl, l, t.toList.length, hscan, hacc, ?_⟩
    rw [String.toList_append] at hscan
    rw [State.past, Number.past_of_scan hscan]

theorem firstOption_of_at {s : State Label} {cs : List Char} (h : s.At cs) (options : List String) :
    firstOption s.source s.position options =
      (options.find? fun option => option.toList.isPrefixOf cs).map
        fun option => (option, s.position.past option.toList) := by
  induction options with
  | nil => rfl
  | cons option options ih =>
    have hm : s.position.matchLiteral option s.source =
        Position.matchChars option.toList cs s.position := by
      rw [Position.matchLiteral, h]
    rw [firstOption, hm, List.find?_cons]
    cases hpre : option.toList.isPrefixOf cs with
    | true =>
      rw [List.isPrefixOf_iff_prefix] at hpre
      rw [Position.matchChars_eq_ok_iff.mpr ⟨hpre, rfl⟩]
      rfl
    | false =>
      cases hq : Position.matchChars option.toList cs s.position with
      | ok q =>
        have htrue := List.isPrefixOf_iff_prefix.mpr (Position.matchChars_eq_ok_iff.mp hq).1
        rw [hpre] at htrue
        cases htrue
      | error e => exact ih

theorem reads_choice (options : List String) : Reads (readChoice options) (choice options).Takes := by
  intro s x hs v s'
  unfold Yields readChoice
  rw [firstOption_of_at hs]
  cases hfind : options.find? fun option => option.toList.isPrefixOf x.toList with
  | none =>
    constructor
    · intro hyields
      obtain ⟨g, hgood⟩ := hyields
      cases hgood
    · intro htakes
      obtain ⟨t, r, rfl, ⟨ht, -⟩, -⟩ := htakes
      rw [hfind] at ht
      cases ht
  | some option =>
    have hpre := List.find?_some hfind
    rw [List.isPrefixOf_iff_prefix] at hpre
    obtain ⟨tail, htail⟩ := hpre
    obtain ⟨t, r, rfl, ht, -⟩ := toList_eq_append_iff.mp htail.symm
    obtain rfl := String.toList_inj.mp ht
    rw [Option.map_some, yields_arrive_iff]
    constructor
    · intro hyields
      obtain ⟨rfl, rfl⟩ := hyields
      exact ⟨t, r, rfl, ⟨hfind, rfl⟩, rfl⟩
    · intro htakes
      obtain ⟨t', r', hx, ⟨ht', rfl⟩, rfl⟩ := htakes
      rw [← hx, hfind, Option.some.injEq] at ht'
      rw [ht']
      exact ⟨rfl, rfl⟩

/-! ## Nodes -/

theorem reads_capture {p : Reader} {takes : Setting → String → String → Value → Prop} (hp : Reads p takes)
    (key : String) : Reads (map (Value.field key) (within (.capture key) p)) fun c t r v =>
      ∃ a, takes c t r a ∧ v = .field key a := by
  intro s x hs v s'
  have hin : (s.enter (.capture key)).At x.toList := hs
  rw [yields_map_iff]
  constructor
  · intro hyields
    obtain ⟨a, ha, rfl⟩ := hyields
    obtain ⟨m, hm, rfl⟩ := yields_within_iff.mp ha
    obtain ⟨t, r, rfl, ht, rfl⟩ := (hp _ _ hin a m).mp hm
    exact ⟨t, r, rfl, ⟨a, ht, rfl⟩, rfl⟩
  · intro htakes
    obtain ⟨t, r, rfl, ⟨a, ht, rfl⟩, rfl⟩ := htakes
    have hm := (hp _ _ hin a _).mpr ⟨t, r, rfl, ht, rfl⟩
    exact ⟨a, yields_within_iff.mpr ⟨_, hm, rfl⟩, rfl⟩

theorem reads_join {p q : Reader} {ptakes qtakes : Setting → String → String → Value → Prop}
    (hp : Reads p ptakes) (hq : Reads q qtakes) (f : Value → Value → Value) :
    Reads (join f p q) fun c t r v => ∃ t1 t2 a b, t = t1 ++ t2 ∧ ptakes c t1 (t2 ++ r) a ∧
      qtakes (c.past t1) t2 r b ∧ v = f a b := by
  intro s x hs v s'
  rw [yields_join_iff]
  constructor
  · intro hyields
    obtain ⟨a, m, b, hpa, hqb, rfl⟩ := hyields
    obtain ⟨t1, y, rfl, h1, rfl⟩ := (hp s x hs a m).mp hpa
    -- the right part reads on where the left one stopped
    rw [String.toList_append] at hs
    obtain ⟨t2, r, rfl, h2, rfl⟩ := (hq _ y hs.past b s').mp hqb
    rw [setting_past] at h2
    refine ⟨t1 ++ t2, r, String.append_assoc.symm, ⟨t1, t2, a, b, rfl, h1, h2, rfl⟩, ?_⟩
    rw [String.toList_append, State.past_append]
  · intro htakes
    obtain ⟨t, r, rfl, ⟨t1, t2, a, b, rfl, h1, h2, rfl⟩, rfl⟩ := htakes
    rw [String.append_assoc] at hs
    rw [← setting_past] at h2
    have hs2 := hs
    rw [String.toList_append] at hs2
    refine ⟨a, s.past t1.toList, b, (hp s _ hs a _).mpr ⟨t1, t2 ++ r, rfl, h1, rfl⟩,
      (hq _ _ hs2.past b _).mpr ⟨t2, r, rfl, h2, ?_⟩, rfl⟩
    rw [String.toList_append, State.past_append]

theorem reads_query {p : Reader} {takes : Setting → String → String → Value → Prop} (hp : Reads p takes)
    (key : String) : Reads (readQuery key p) fun c t _ v => t = "" ∧ ∃ raw a,
      c.params.get? key = some raw ∧ takes { c with fresh := true } raw "" a ∧ v = .field key a := by
  refine reads_of_still (R := fun c v => ∃ raw a, c.params.get? key = some raw ∧
    takes { c with fresh := true } raw "" a ∧ v = .field key a) ?_
  intro s v s'
  unfold Yields readQuery
  have hparam : s.param? key = s.setting.params.get? key := rfl
  rw [hparam]
  cases s.setting.params.get? key with
  | none => simp
  | some raw =>
    have hin : ((s.enter (.query key)).withSource raw).At raw.toList := State.at_start rfl
    have hread := hp _ raw hin
    constructor
    · intro hyields
      obtain ⟨g, hgood⟩ := hyields
      simp only at hgood
      split at hgood
      · cases hgood
      · next g' a after hinner =>
        split at hgood
        · next hend =>
          cases hgood
          obtain ⟨t, r, rfl, ht, rfl⟩ := (hread a after).mp ⟨g', hinner⟩
          -- at its end the value leaves no text, which is what the relation asks
          have hr : byteLength r.toList = 0 := by
            rw [State.isAtEnd, decide_eq_true_eq, State.past_offset] at hend
            have hraw : byteLength (t ++ r).toList ≤ 0 + byteLength t.toList := hend
            rw [String.toList_append, byteLength_append] at hraw
            omega
          rw [byteLength_eq_zero_iff, String.toList_eq_nil_iff] at hr
          subst hr
          rw [String.append_empty]
          exact ⟨⟨t, a, rfl, ht, rfl⟩, rfl⟩
        · cases hgood
    · intro htakes
      obtain ⟨⟨raw', a, hraw, ht, rfl⟩, rfl⟩ := htakes
      cases hraw
      obtain ⟨g, hinner⟩ := (hread a _).mpr ⟨raw, "", String.append_empty.symm, ht, rfl⟩
      have hend : (((s'.enter (.query key)).withSource raw).past raw.toList).isAtEnd = true := by
        rw [State.isAtEnd, decide_eq_true_eq, State.past_offset]
        exact Nat.le_add_left _ _
      simp only [hinner, hend, if_true]
      exact ⟨false, rfl⟩

theorem reads_route (route : Route) : Reads route.parser route.Takes := by
  induction route with
  | start => exact reads_start
  | finish allowSlash => exact reads_finish allowSlash
  | literal text => exact reads_literal text
  | upTo delimiter => exact reads_upTo delimiter
  | before boundary => exact reads_before boundary
  | rest allowEmpty => exact reads_rest allowEmpty
  | capture key inner ih => exact reads_capture ih key
  | number policy style => exact reads_number policy style
  | method expected => exact reads_method expected
  | both left right ihl ihr => exact reads_join ihl ihr Value.merge
  | last left right ihl ihr =>
    intro s x hs v s'
    refine (reads_join ihl ihr (fun _ b => b) s x hs v s').trans ?_
    simp [Takes]
  | choice options => exact reads_choice options
  | query key inner ih => exact reads_query ih key

theorem runOn_of_good {route : Route} {s s' : State Label} {g : Bool} {v : Value}
    (h : route.parser s = .good g v s') : route.runOn s = .ok v := by
  rw [runOn, h]

/-- A route tried at the start of a source. -/
theorem runOn_eq_ok_iff {route : Route} {s : State Label} (hs : s.position = .start) {v : Value} :
    route.runOn s = .ok v ↔
      ∃ t r, s.source = t ++ r ∧ route.Takes ⟨true, s.method, s.params⟩ t r v := by
  have hset : s.setting = ⟨true, s.method, s.params⟩ := by
    rw [State.setting, State.offset, hs]
    rfl
  have hread := reads_route route s s.source (State.at_start hs) v
  rw [← hset]
  unfold runOn
  constructor
  · intro h
    split at h
    · next g a s' hgood =>
      cases h
      obtain ⟨t, r, hx, ht, -⟩ := (hread s').mp ⟨g, hgood⟩
      exact ⟨t, r, hx, ht⟩
    · cases h
  · intro htakes
    obtain ⟨t, r, hx, ht⟩ := htakes
    obtain ⟨g, hgood⟩ := (hread _).mpr ⟨t, r, hx, ht, rfl⟩
    rw [hgood]

end Route
end UrlRoutes
