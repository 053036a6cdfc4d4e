import UrlRoutes.Proofs.Compiled
import UrlRoutes.Proofs.Fields
import UrlRoutes.Proofs.Reading
/-!
# Compiled routes, piece by piece

A compiled route is a sequence of guards, path pieces and query parameters.
What it reads and what it writes is spelled piece by piece along the outline
of its definition, each capture in front of the pieces that follow it.
Reading and writing differ in what they ask of a single capture and in
nothing else, so both are one relation with that question left open.

Results:
* `takes_assemble_iff`: what a compiled route reads.
* `runOn_assemble_iff`: what it reads from the start of a source.
* `puts_assemble_iff`: what a compiled route writes.
-/
namespace UrlRoutes

/-! ## Captures -/

namespace Route

/-- Looks at the text alone. -/
def IsLeaf : Route → Prop
  | upTo _ | before _ | rest _ | number _ _ | choice _ => True
  | _ => False

/-- Reads `t` in front of `r` as `v`, whatever was read before. -/
def Consumes (route : Route) (t r : String) (v : Value) : Prop := ∀ c, route.Takes c t r v

/-- Writes `v` as `t` in front of `r`, and no parameter. -/
def Produces (route : Route) (t r : String) (v : Value) : Prop := route.Puts t r v []

theorem IsLeaf.takes_iff {route : Route} (h : route.IsLeaf) (c : Setting) {t r : String} {v : Value} :
    route.Takes c t r v ↔ route.Consumes t r v := by
  have hc : ∀ c', route.Takes c t r v ↔ route.Takes c' t r v := by
    intro c'
    cases route with
    | upTo | before | rest | number | choice => exact Iff.rfl
    | _ => cases h
  exact ⟨fun ht c' => (hc c').mp ht, fun ht => ht c⟩

theorem IsLeaf.puts_iff {route : Route} (h : route.IsLeaf) {t r : String} {v : Value}
    {ps : List (String × String)} : route.Puts t r v ps ↔ route.Produces t r v ∧ ps = [] := by
  cases route with
  | upTo | before | rest | choice => simp [Produces, Puts, and_assoc]
  | number => simp [Produces, Puts]
  | _ => cases h

theorem IsLeaf.guardMethod? {route : Route} (h : route.IsLeaf) : route.guardMethod? = none := by
  cases route with
  | upTo | before | rest | number | choice => rfl
  | _ => cases h

end Route

namespace Definition

theorem captureRoute_nil (m : Matcher) : captureRoute m [] = m.route := by
  cases m <;> rfl

theorem isLeaf_captureRoute (m : Matcher) (rest : List Segment) : (captureRoute m rest).IsLeaf := by
  have hroute : m.route.IsLeaf := by cases m <;> trivial
  unfold captureRoute
  split
  · trivial
  · split <;> trivial
  · exact hroute

/-- A path spells the text `x` in front of `tail`, where `cap` judges each
capture; `fields` are the captured values. -/
def Spells (cap : Route → String → String → Value → Prop) (tail : String) :
    List Segment → String → List (String × Value) → Prop
  | [], x, fields => x = "" ∧ fields = []
  | .literal text :: rest, x, fields => ∃ y, x = text ++ y ∧ Spells cap tail rest y fields
  | .param p :: rest, x, fields => ∃ t y a fs, x = t ++ y ∧ fields = (p.key, a) :: fs ∧
      cap (captureRoute p.matcher rest) t (y ++ tail) a ∧ Spells cap tail rest y fs

/-- Query parameters are spelled by the raw values `raws`. -/
def QuerySpells (cap : Route → String → String → Value → Prop) :
    List Param → List (String × String) → List (String × Value) → Prop
  | [], raws, fields => raws = [] ∧ fields = []
  | p :: query, raws, fields => ∃ raw a rs fs, raws = (p.key, raw) :: rs ∧ fields = (p.key, a) :: fs ∧
      cap (captureRoute p.matcher []) raw "" a ∧ QuerySpells cap query rs fs

variable {cap : Route → String → String → Value → Prop}

theorem Spells.keys {tail x : String} {path : List Segment} {fields : List (String × Value)}
    (h : Spells cap tail path x fields) : fields.map Prod.fst = (params path).map Param.key := by
  induction path generalizing x fields with
  | nil => rw [h.2]; rfl
  | cons segment rest ih =>
    cases segment with
    | literal text =>
      obtain ⟨y, -, hy⟩ := h
      exact ih hy
    | param p =>
      obtain ⟨t, y, a, fs, -, rfl, -, hy⟩ := h
      rw [List.map_cons, ih hy]
      rfl

theorem QuerySpells.keys {query : List Param} {raws : List (String × String)}
    {fields : List (String × Value)} (h : QuerySpells cap query raws fields) :
    fields.map Prod.fst = query.map Param.key ∧ raws.map Prod.fst = query.map Param.key := by
  induction query generalizing raws fields with
  | nil => rw [h.1, h.2]; exact ⟨rfl, rfl⟩
  | cons p query ih =>
    obtain ⟨raw, a, rs, fs, rfl, rfl, -, hq⟩ := h
    obtain ⟨hf, hr⟩ := ih hq
    rw [List.map_cons, List.map_cons, List.map_cons, hf, hr]
    exact ⟨rfl, rfl⟩

theorem keys_of_spells {tail x : String} {path : List Segment} {query : List Param}
    {raws : List (String × String)} {pfields qfields : List (String × Value)}
    (hpath : Spells cap tail path x pfields) (hquery : QuerySpells cap query raws qfields) :
    (pfields ++ qfields).map Prod.fst = (params path ++ query).map Param.key := by
  rw [List.map_append, List.map_append, hpath.keys, hquery.keys.1]

/-- Where each key stands once, the record holds every field it is made of. -/
theorem holds_of_spells {tail x : String} {path : List Segment} {query : List Param}
    {raws : List (String × String)} {pfields qfields : List (String × Value)}
    (hn : ((params path ++ query).map Param.key).Nodup) (hpath : Spells cap tail path x pfields)
    (hquery : QuerySpells cap query raws qfields) :
    (Value.ofFields (pfields ++ qfields)).Holds (pfields ++ qfields) := by
  apply Value.holds_ofFields
  rw [keys_of_spells hpath hquery]
  exact hn

/-! ## Reading -/

theorem past_empty (c : Setting) : c.past "" = c := by
  simp [Setting.past]

theorem past_past (c : Setting) (a b : String) : (c.past a).past b = c.past (a ++ b) := by
  simp [Setting.past, Bool.and_assoc]

/-- A literal in front of a sequence. -/
theorem takes_literal_both_iff {text : String} {k : Route} {c : Setting} {t r : String} {v : Value} :
    (Route.both (.literal text) k).Takes c t r v ↔ ∃ y, t = text ++ y ∧ k.Takes (c.past text) y r v := by
  constructor
  · intro htree
    obtain ⟨t1, y, a, b, rfl, ⟨rfl, rfl⟩, hk, rfl⟩ := htree
    exact ⟨y, rfl, hk⟩
  · intro hrest
    obtain ⟨y, rfl, hk⟩ := hrest
    exact ⟨text, y, .unit, v, rfl, ⟨rfl, rfl⟩, hk, (Value.merge_unit_left v).symm⟩

/-- A capture in front of a sequence. -/
theorem takes_capture_both_iff {key : String} {route k : Route} (hleaf : route.IsLeaf) {c : Setting}
    {t r : String} {v : Value} :
    (Route.both (.capture key route) k).Takes c t r v ↔ ∃ x y a b, t = x ++ y ∧
      route.Consumes x (y ++ r) a ∧ k.Takes (c.past x) y r b ∧ v = (Value.field key a).merge b := by
  constructor
  · intro htree
    obtain ⟨x, y, _, b, rfl, ⟨a, ha, rfl⟩, hk, rfl⟩ := htree
    exact ⟨x, y, a, b, rfl, (hleaf.takes_iff _).mp ha, hk, rfl⟩
  · intro hparts
    obtain ⟨x, y, a, b, rfl, ha, hk, rfl⟩ := hparts
    exact ⟨x, y, .field key a, b, rfl, ⟨a, (hleaf.takes_iff _).mpr ha, rfl⟩, hk, rfl⟩

theorem takes_path_iff {path : List Segment} {k : Route} {c : Setting} {t r : String} {v : Value} :
    (inSequence (pathRoutes path) k).Takes c t r v ↔ ∃ x y fields b, t = x ++ y ∧
      Spells Route.Consumes (y ++ r) path x fields ∧ k.Takes (c.past x) y r b ∧
        v = (Value.ofFields fields).merge b := by
  induction path generalizing c t v with
  | nil =>
    constructor
    · intro h
      refine ⟨"", t, [], v, String.empty_append.symm, ⟨rfl, rfl⟩, ?_, (Value.merge_unit_left v).symm⟩
      rw [past_empty]
      exact h
    · intro hspelled
      obtain ⟨x, y, fields, b, rfl, ⟨rfl, rfl⟩, hk, rfl⟩ := hspelled
      rw [past_empty] at hk
      rw [String.empty_append]
      exact hk
  | cons segment rest ih =>
    cases segment with
    | literal text =>
      refine takes_literal_both_iff.trans ⟨fun htree => ?_, fun hspelled => ?_⟩
      · obtain ⟨_, rfl, hrest⟩ := htree
        obtain ⟨x, y, fields, b, rfl, hx, hk, rfl⟩ := ih.mp hrest
        rw [past_past] at hk
        exact ⟨text ++ x, y, fields, b, String.append_assoc.symm, ⟨x, rfl, hx⟩, hk, rfl⟩
      · obtain ⟨_, y, fields, b, rfl, ⟨x, rfl, hx⟩, hk, rfl⟩ := hspelled
        rw [← past_past] at hk
        exact ⟨x ++ y, String.append_assoc, ih.mpr ⟨x, y, fields, b, rfl, hx, hk, rfl⟩⟩
    | param p =>
      refine (takes_capture_both_iff (isLeaf_captureRoute p.matcher rest)).trans
        ⟨fun htree => ?_, fun hspelled => ?_⟩
      · obtain ⟨t1, _, a, _, rfl, ha, hrest, rfl⟩ := htree
        obtain ⟨x, y, fields, b, rfl, hx, hk, rfl⟩ := ih.mp hrest
        rw [past_past] at hk
        rw [String.append_assoc] at ha
        rw [← Value.merge_assoc, ← Value.ofFields_cons]
        exact ⟨t1 ++ x, y, (p.key, a) :: fields, b, String.append_assoc.symm,
          ⟨t1, x, a, fields, rfl, rfl, ha, hx⟩, hk, rfl⟩
      · obtain ⟨_, y, _, b, rfl, ⟨t1, x, a, fields, rfl, rfl, ha, hx⟩, hk, rfl⟩ := hspelled
        rw [← past_past] at hk
        rw [← String.append_assoc] at ha
        rw [Value.ofFields_cons, Value.merge_assoc]
        exact ⟨t1, x ++ y, a, _, String.append_assoc, ha, ih.mpr ⟨x, y, fields, b, rfl, hx, hk, rfl⟩, rfl⟩

theorem takes_query_iff {query : List Param} {k : Route} {c : Setting} {t r : String} {v : Value} :
    (inSequence (queryRoutes query) k).Takes c t r v ↔ ∃ raws fields b,
      QuerySpells Route.Consumes query raws fields ∧ (∀ e ∈ raws, c.params.get? e.1 = some e.2) ∧
        k.Takes c t r b ∧ v = (Value.ofFields fields).merge b := by
  induction query generalizing t v with
  | nil =>
    constructor
    · intro h
      exact ⟨[], [], v, ⟨rfl, rfl⟩, by simp, h, (Value.merge_unit_left v).symm⟩
    · intro hspelled
      obtain ⟨raws, fields, b, ⟨rfl, rfl⟩, -, hk, rfl⟩ := hspelled
      exact hk
  | cons p query ih =>
    have hleaf := isLeaf_captureRoute p.matcher []
    rw [captureRoute_nil] at hleaf
    constructor
    · intro htree
      -- a parameter reads nothing of the path, so the setting stays as it is
      obtain ⟨t1, t2, _, b, rfl, ⟨rfl, raw, a, hraw, h1, rfl⟩, h2, rfl⟩ := htree
      rw [past_empty] at h2
      obtain ⟨raws, fields, b', hq, hparams, hk, rfl⟩ := ih.mp h2
      rw [hleaf.takes_iff, ← captureRoute_nil] at h1
      refine ⟨(p.key, raw) :: raws, (p.key, a) :: fields, b', ⟨raw, a, raws, fields, rfl, rfl, h1, hq⟩,
        List.forall_mem_cons.mpr ⟨hraw, hparams⟩, ?_, ?_⟩
      · rw [String.empty_append]
        exact hk
      · rw [Value.ofFields_cons, Value.merge_assoc]
    · intro hspelled
      obtain ⟨_, _, b, ⟨raw, a, raws, fields, rfl, rfl, h1, hq⟩, hparams, hk, rfl⟩ := hspelled
      obtain ⟨hraw, hparams⟩ := List.forall_mem_cons.mp hparams
      rw [captureRoute_nil] at h1
      refine ⟨"", t, .field p.key a, (Value.ofFields fields).merge b, String.empty_append.symm,
        ⟨rfl, raw, a, hraw, h1 _, rfl⟩, ?_, ?_⟩
      · rw [past_empty]
        exact ih.mpr ⟨raws, fields, b, hq, hparams, hk, rfl⟩
      · rw [Value.ofFields_cons, Value.merge_assoc]

/-- In front of a sequence, a part that reads nothing only adds its test. -/
theorem takes_both_still_iff {route k : Route} {c : Setting} {test : Prop}
    (h : ∀ {t r v}, route.Takes c t r v ↔ t = "" ∧ test ∧ v = .unit) {t r : String} {v : Value} :
    (Route.both route k).Takes c t r v ↔ test ∧ k.Takes c t r v := by
  constructor
  · intro htree
    obtain ⟨t1, t2, a, b, rfl, h1, h2, rfl⟩ := htree
    obtain ⟨rfl, htest, rfl⟩ := h.mp h1
    rw [past_empty] at h2
    rw [String.empty_append, Value.merge_unit_left]
    exact ⟨htest, h2⟩
  · intro hrest
    obtain ⟨htest, hk⟩ := hrest
    refine ⟨"", t, .unit, v, String.empty_append.symm, h.mpr ⟨rfl, htest, rfl⟩, ?_,
      (Value.merge_unit_left v).symm⟩
    rw [past_empty]
    exact hk

/-- What stands in front of the path of a compiled route. -/
theorem takes_head_iff {m : Option String} {anchored : Bool} {k : Route} {c : Setting} (hc : c.fresh = true)
    {t r : String} {v : Value} :
    (inSequence ((m.map Route.guard).toList ++ if anchored then [.start] else []) k).Takes c t r v ↔
      (∀ name ∈ m, c.method.any (Text.sameIgnoringCase · (Text.raised name)) = true) ∧ k.Takes c t r v := by
  have hstart : (inSequence (if anchored then [.start] else []) k).Takes c t r v ↔ k.Takes c t r v := by
    cases anchored with
    | false => exact Iff.rfl
    | true => exact (takes_both_still_iff Iff.rfl).trans (and_iff_right hc)
  cases m with
  | none => exact hstart.trans (by simp)
  | some name => exact (takes_both_still_iff Iff.rfl).trans (and_congr (by simp) hstart)

theorem inSequence_append (as bs : List Route) (k : Route) :
    inSequence (as ++ bs) k = inSequence as (inSequence bs k) := List.foldr_append

/-- A compiled route reads, from the start of a text, what its path spells up
to the end or a slash, while its query parameters spell raw values. -/
theorem takes_assemble_iff {m : Option String} {path : List Segment} {query : List Param}
    {options : Options} {c : Setting} (hc : c.fresh = true) {t r : String} {v : Value} :
    (assemble m path query options).Takes c t r v ↔
      (∀ name ∈ m, c.method.any (Text.sameIgnoringCase · (Text.raised name)) = true) ∧
      ∃ x tail pfields raws qfields, t = x ++ tail ∧ r = "" ∧
        (tail = "" ∨ options.trailingSlash = true ∧ tail = "/") ∧
        Spells Route.Consumes tail path x pfields ∧ QuerySpells Route.Consumes query raws qfields ∧
        (∀ e ∈ raws, c.params.get? e.1 = some e.2) ∧ v = .ofFields (pfields ++ qfields) := by
  rw [assemble, inSequence_append, inSequence_append, takes_head_iff hc]
  refine and_congr_right fun _ => ?_
  rw [takes_path_iff]
  constructor
  · intro htree
    obtain ⟨x, y, pfields, b, rfl, hpath, hrest, rfl⟩ := htree
    obtain ⟨raws, qfields, b', hquery, hparams, ⟨rfl, htail, rfl⟩, rfl⟩ := takes_query_iff.mp hrest
    rw [String.append_empty] at hpath
    refine ⟨x, y, pfields, raws, qfields, rfl, rfl, htail, hpath, hquery, hparams, ?_⟩
    rw [Value.merge_unit_right, Value.merge_ofFields]
  · intro hspelled
    obtain ⟨x, tail, pfields, raws, qfields, rfl, rfl, htail, hpath, hquery, hparams, rfl⟩ := hspelled
    refine ⟨x, tail, pfields, .ofFields qfields, rfl, ?_, takes_query_iff.mpr ⟨raws, qfields, .unit, hquery,
      hparams, ⟨rfl, htail, rfl⟩, (Value.merge_unit_right _).symm⟩, (Value.merge_ofFields _ _).symm⟩
    rw [String.append_empty]
    exact hpath

/-- At the start of a source, nothing is left of the text. -/
theorem runOn_assemble_iff {m : Option String} {path : List Segment} {query : List Param}
    {options : Options} {s : State Label} (hs : s.position = .start) {v : Value} :
    (assemble m path query options).runOn s = .ok v ↔
      (∀ name ∈ m, s.method.any (Text.sameIgnoringCase · (Text.raised name)) = true) ∧
      ∃ x tail pfields raws qfields, s.source = x ++ tail ∧
        (tail = "" ∨ options.trailingSlash = true ∧ tail = "/") ∧
        Spells Route.Consumes tail path x pfields ∧ QuerySpells Route.Consumes query raws qfields ∧
        (∀ e ∈ raws, s.params.get? e.1 = some e.2) ∧ v = .ofFields (pfields ++ qfields) := by
  rw [Route.runOn_eq_ok_iff hs]
  constructor
  · intro htakes
    obtain ⟨t, r, hx, ht⟩ := htakes
    obtain ⟨hm, x, tail, pfields, raws, qfields, rfl, rfl, hrest⟩ := (takes_assemble_iff rfl).mp ht
    rw [String.append_empty] at hx
    exact ⟨hm, x, tail, pfields, raws, qfields, hx, hrest⟩
  · intro hspelled
    obtain ⟨hm, x, tail, pfields, raws, qfields, hx, hrest⟩ := hspelled
    exact ⟨x ++ tail, "", by rw [String.append_empty]; exact hx,
      (takes_assemble_iff rfl).mpr ⟨hm, x, tail, pfields, raws, qfields, rfl, rfl, hrest⟩⟩

/-! ## Writing -/

theorem puts_literal_both_iff {text : String} {k : Route} {t r : String} {v : Value}
    {ps : List (String × String)} :
    (Route.both (.literal text) k).Puts t r v ps ↔ ∃ y, t = text ++ y ∧ k.Puts y r v ps := by
  constructor
  · intro htree
    obtain ⟨t1, y, ps1, ps2, rfl, rfl, ⟨rfl, rfl⟩, hk⟩ := htree
    exact ⟨y, rfl, hk⟩
  · intro hrest
    obtain ⟨y, rfl, hk⟩ := hrest
    exact ⟨text, y, [], ps, rfl, rfl, ⟨rfl, rfl⟩, hk⟩

theorem puts_capture_both_iff {key : String} {route k : Route} (hleaf : route.IsLeaf) {t r : String} {v : Value}
    {ps : List (String × String)} :
    (Route.both (.capture key route) k).Puts t r v ps ↔ ∃ x y a, t = x ++ y ∧ Route.fieldOf v key = .ok a ∧
      route.Produces x (y ++ r) a ∧ k.Puts y r v ps := by
  constructor
  · intro htree
    obtain ⟨x, y, ps1, ps2, rfl, rfl, ⟨a, hfield, ha⟩, hk⟩ := htree
    obtain ⟨ha, rfl⟩ := hleaf.puts_iff.mp ha
    exact ⟨x, y, a, rfl, hfield, ha, hk⟩
  · intro hparts
    obtain ⟨x, y, a, rfl, hfield, ha, hk⟩ := hparts
    exact ⟨x, y, [], ps, rfl, rfl, ⟨a, hfield, hleaf.puts_iff.mpr ⟨ha, rfl⟩⟩, hk⟩

theorem puts_path_iff {path : List Segment} {k : Route} {t r : String} {v : Value}
    {ps : List (String × String)} :
    (inSequence (pathRoutes path) k).Puts t r v ps ↔ ∃ x y fields, t = x ++ y ∧
      Spells Route.Produces (y ++ r) path x fields ∧ v.Holds fields ∧ k.Puts y r v ps := by
  induction path generalizing t ps with
  | nil =>
    constructor
    · intro h
      exact ⟨"", t, [], String.empty_append.symm, ⟨rfl, rfl⟩, by simp [Value.Holds], h⟩
    · intro hspelled
      obtain ⟨x, y, fields, rfl, ⟨rfl, rfl⟩, -, hk⟩ := hspelled
      rw [String.empty_append]
      exact hk
  | cons segment rest ih =>
    cases segment with
    | literal text =>
      refine puts_literal_both_iff.trans ⟨fun htree => ?_, fun hspelled => ?_⟩
      · obtain ⟨_, rfl, hrest⟩ := htree
        obtain ⟨x, y, fields, rfl, hx, hv, hk⟩ := ih.mp hrest
        exact ⟨text ++ x, y, fields, String.append_assoc.symm, ⟨x, rfl, hx⟩, hv, hk⟩
      · obtain ⟨_, y, fields, rfl, ⟨x, rfl, hx⟩, hv, hk⟩ := hspelled
        exact ⟨x ++ y, String.append_assoc, ih.mpr ⟨x, y, fields, rfl, hx, hv, hk⟩⟩
    | param p =>
      refine (puts_capture_both_iff (isLeaf_captureRoute p.matcher rest)).trans
        ⟨fun htree => ?_, fun hspelled => ?_⟩
      · obtain ⟨t1, _, a, rfl, hfield, ha, hrest⟩ := htree
        obtain ⟨x, y, fields, rfl, hx, hv, hk⟩ := ih.mp hrest
        rw [String.append_assoc] at ha
        exact ⟨t1 ++ x, y, (p.key, a) :: fields, String.append_assoc.symm,
          ⟨t1, x, a, fields, rfl, rfl, ha, hx⟩, Value.holds_cons.mpr ⟨hfield, hv⟩, hk⟩
      · obtain ⟨_, y, _, rfl, ⟨t1, x, a, fields, rfl, rfl, ha, hx⟩, hv, hk⟩ := hspelled
        obtain ⟨hfield, hv⟩ := Value.holds_cons.mp hv
        rw [← String.append_assoc] at ha
        exact ⟨t1, x ++ y, a, String.append_assoc, hfield, ha, ih.mpr ⟨x, y, fields, rfl, hx, hv, hk⟩⟩

theorem puts_query_iff {query : List Param} {k : Route} {t r : String} {v : Value}
    {ps : List (String × String)} :
    (inSequence (queryRoutes query) k).Puts t r v ps ↔ ∃ raws fields ps',
      QuerySpells Route.Produces query raws fields ∧ v.Holds fields ∧ k.Puts t r v ps' ∧
        ps = raws ++ ps' := by
  induction query generalizing t ps with
  | nil =>
    constructor
    · intro h
      exact ⟨[], [], ps, ⟨rfl, rfl⟩, by simp [Value.Holds], h, rfl⟩
    · intro hspelled
      obtain ⟨raws, fields, ps', ⟨rfl, rfl⟩, -, hk, rfl⟩ := hspelled
      exact hk
  | cons p query ih =>
    have hleaf := isLeaf_captureRoute p.matcher []
    rw [captureRoute_nil] at hleaf
    constructor
    · intro htree
      obtain ⟨t1, t2, ps1, ps2, rfl, rfl, ⟨rfl, a, raw, ps', ha, h1, rfl⟩, h2⟩ := htree
      obtain ⟨raws, fields, ps'', hq, hv, hk, rfl⟩ := ih.mp h2
      rw [hleaf.puts_iff, ← captureRoute_nil] at h1
      refine ⟨(p.key, raw) :: raws, (p.key, a) :: fields, ps'',
        ⟨raw, a, raws, fields, rfl, rfl, h1.1, hq⟩, Value.holds_cons.mpr ⟨ha, hv⟩, ?_, rfl⟩
      rw [String.empty_append]
      exact hk
    · intro hspelled
      obtain ⟨_, _, ps'', ⟨raw, a, raws, fields, rfl, rfl, h1, hq⟩, hv, hk, rfl⟩ := hspelled
      obtain ⟨ha, hv⟩ := Value.holds_cons.mp hv
      rw [captureRoute_nil] at h1
      exact ⟨"", t, [(p.key, raw)], raws ++ ps'', String.empty_append.symm, rfl,
        ⟨rfl, a, raw, [], ha, h1, rfl⟩, ih.mpr ⟨raws, fields, ps'', hq, hv, hk, rfl⟩⟩

/-- In front of a sequence, a part that writes nothing does not count. -/
theorem puts_both_still_iff {route k : Route} {v : Value}
    (h : ∀ {t r ps}, route.Puts t r v ps ↔ t = "" ∧ ps = []) {t r : String} {ps : List (String × String)} :
    (Route.both route k).Puts t r v ps ↔ k.Puts t r v ps := by
  constructor
  · intro htree
    obtain ⟨t1, t2, ps1, ps2, rfl, rfl, h1, h2⟩ := htree
    obtain ⟨rfl, rfl⟩ := h.mp h1
    rw [String.empty_append]
    exact h2
  · intro hk
    exact ⟨"", t, [], ps, String.empty_append.symm, rfl, h.mpr ⟨rfl, rfl⟩, hk⟩

/-- Guards and the start write nothing. -/
theorem puts_head_iff {m : Option String} {anchored : Bool} {k : Route} {t r : String} {v : Value}
    {ps : List (String × String)} :
    (inSequence ((m.map Route.guard).toList ++ if anchored then [.start] else []) k).Puts t r v ps ↔
      k.Puts t r v ps := by
  have hstart : (inSequence (if anchored then [.start] else []) k).Puts t r v ps ↔ k.Puts t r v ps := by
    cases anchored with
    | false => exact Iff.rfl
    | true => exact puts_both_still_iff Iff.rfl
  cases m with
  | none => exact hstart
  | some name => exact (puts_both_still_iff Iff.rfl).trans hstart

/-- A compiled route writes what its path spells, and a parameter for each
query parameter. -/
theorem puts_assemble_iff {m : Option String} {path : List Segment} {query : List Param}
    {options : Options} {t : String} {v : Value} {ps : List (String × String)} :
    (assemble m path query options).Puts t "" v ps ↔ ∃ pfields qfields,
      Spells Route.Produces "" path t pfields ∧ QuerySpells Route.Produces query ps qfields ∧
        v.Holds (pfields ++ qfields) := by
  rw [assemble, inSequence_append, inSequence_append, puts_head_iff, puts_path_iff]
  constructor
  · intro htree
    obtain ⟨x, y, pfields, rfl, hpath, hp, hrest⟩ := htree
    obtain ⟨raws, qfields, ps', hquery, hq, ⟨rfl, rfl⟩, rfl⟩ := puts_query_iff.mp hrest
    rw [String.append_empty] at hpath ⊢
    rw [List.append_nil]
    exact ⟨pfields, qfields, hpath, hquery, Value.holds_append.mpr ⟨hp, hq⟩⟩
  · intro hspelled
    obtain ⟨pfields, qfields, hpath, hquery, hv⟩ := hspelled
    obtain ⟨hp, hq⟩ := Value.holds_append.mp hv
    refine ⟨t, "", pfields, String.append_empty.symm, ?_, hp, puts_query_iff.mpr ⟨ps, qfields, [], hquery,
      hq, ⟨rfl, rfl⟩, (List.append_nil ps).symm⟩⟩
    rw [String.append_empty]
    exact hpath

theorem guardMethod?_inSequence {routes : List Route} (h : ∀ route ∈ routes, route.guardMethod? = none)
    (k : Route) : (inSequence routes k).guardMethod? = k.guardMethod? := by
  induction routes with
  | nil => rfl
  | cons route routes ih =>
    show route.guardMethod?.or (inSequence routes k).guardMethod? = k.guardMethod?
    rw [h route List.mem_cons_self, ih fun q hq => h q (List.mem_cons_of_mem _ hq), Option.none_or]

/-- A path is of literals and captures of leaves. -/
theorem eq_of_mem_pathRoutes {path : List Segment} {route : Route} (h : route ∈ pathRoutes path) :
    (∃ text, route = .literal text) ∨ ∃ key inner, inner.IsLeaf ∧ route = .capture key inner := by
  induction path with
  | nil => cases h
  | cons segment rest ih =>
    cases segment with
    | literal text =>
      rcases List.mem_cons.mp h with rfl | h
      · exact .inl ⟨text, rfl⟩
      · exact ih h
    | param p =>
      rcases List.mem_cons.mp h with rfl | h
      · exact .inr ⟨p.key, _, isLeaf_captureRoute p.matcher rest, rfl⟩
      · exact ih h

theorem guardMethod?_pathRoutes {path : List Segment} {route : Route} (h : route ∈ pathRoutes path) :
    route.guardMethod? = none := by
  rcases eq_of_mem_pathRoutes h with ⟨text, rfl⟩ | ⟨key, inner, hleaf, rfl⟩
  · rfl
  · exact hleaf.guardMethod?

theorem guardMethod?_assemble (m : Option String) (path : List Segment) (query : List Param)
    (options : Options) : (assemble m path query options).guardMethod? = m.map Text.raised := by
  have hquery : ∀ route ∈ queryRoutes query, route.guardMethod? = none := by
    intro route h
    obtain ⟨p, -, rfl⟩ := List.mem_map.mp h
    rfl
  have hstart : ∀ route ∈ (if options.anchored then [Route.start] else []), route.guardMethod? = none := by
    intro route h
    split at h
    · rw [List.mem_singleton.mp h]
      rfl
    · cases h
  have hrest : (inSequence (if options.anchored then [.start] else []) (inSequence (pathRoutes path)
      (inSequence (queryRoutes query) (.finish options.trailingSlash)))).guardMethod? = none := by
    rw [guardMethod?_inSequence hstart, guardMethod?_inSequence fun _ h => guardMethod?_pathRoutes h,
      guardMethod?_inSequence hquery]
    rfl
  rw [assemble, inSequence_append, inSequence_append, inSequence_append]
  cases m with
  | none => exact hrest
  | some name => rfl

end Definition
end UrlRoutes
