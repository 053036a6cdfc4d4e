import UrlRoutes.Proofs.Acceptance
/-!
# Records that were read

A compiled route reads nothing, if its definition has no parameters, and
otherwise a record. The record has a field for each parameter of the path and
of the query, and no other field. What a field holds is of the kind of its
parameter, and a text in front of a literal stops before the first occurrence
of it.

Results:
* `admits_of_consumes`: a capture reads a value of the kind of its matcher.
* `Spells.mem_of_param`, `QuerySpells.mem_of_param`: no parameter is left out.
* `complete_of_good`: what a compiled route reads is complete.
-/
namespace UrlRoutes

/-- The values of the kind of a matcher. -/
inductive Matcher.Admits : Matcher → Value → Prop where
  | text {t : String} (h : t ≠ "") : Admits .text (.text t)
  | rest {allowEmpty : Bool} {t : String} (h : t ≠ "" ∨ allowEmpty = true) :
      Admits (.rest allowEmpty) (.text t)
  | int {n : Int} (h : 0 ≤ n) (h' : n ≤ Number.maxInt) : Admits .int (.int n)
  | float (x : Float) : Admits .float (.float x)
  | choice {options : List String} {t : String} (h : t ∈ options) : Admits (.choice options) (.text t)

namespace Definition

/-- What a value has to be to answer a definition in full. -/
structure Complete (d : Definition) (v : Value) : Prop where
  unit : params d.segments = [] → v = .unit
  record : params d.segments ≠ [] →
    ∃ fields, v = .record fields ∧ ∀ key, key ∈ fields.keys ↔ key ∈ d.keys
  admits : ∀ p ∈ params d.segments, ∃ a, v.get? p.key = some a ∧ p.matcher.Admits a
  /-- A text does not go past the literal behind it. -/
  stops : ∀ before p delimiter after, d.path = before ++ .param p :: .literal delimiter :: after →
    p.matcher = .text → ∃ t, v.get? p.key = some (.text t) ∧ ¬ delimiter.toList <:+: t.toList

/-! ## Captures -/

theorem text_of_consumes {rest : List Segment} {t r : String} {a : Value}
    (h : (captureRoute .text rest).Consumes t r a) : t ≠ "" ∧ a = .text t := by
  have hrest : (Route.rest false).Consumes t r a → t ≠ "" ∧ a = .text t := by
    intro hc
    obtain ⟨-, hne, ha⟩ := hc ⟨true, none, .empty⟩
    exact ⟨hne.resolve_right Bool.false_ne_true, ha⟩
  cases rest with
  | nil => exact hrest h
  | cons next tail =>
    cases next with
    | literal delimiter =>
      obtain ⟨hne, -, ha⟩ := h ⟨true, none, .empty⟩
      exact ⟨hne, ha⟩
    | param q =>
      unfold captureRoute at h
      cases hb : q.matcher.boundary? with
      | none =>
        simp only [hb] at h
        exact hrest h
      | some b =>
        simp only [hb] at h
        obtain ⟨hne, -, ha⟩ := h ⟨true, none, .empty⟩
        exact ⟨hne, ha⟩

/-- A capture reads a value of the kind of its matcher, whatever follows. -/
theorem admits_of_consumes {m : Matcher} {rest : List Segment} {t r : String} {a : Value}
    (h : (captureRoute m rest).Consumes t r a) : m.Admits a := by
  cases m with
  | text =>
    obtain ⟨hne, rfl⟩ := text_of_consumes h
    exact .text hne
  | rest allowEmpty =>
    obtain ⟨-, hok, rfl⟩ := h ⟨true, none, .empty⟩
    exact .rest hok
  | int =>
    obtain ⟨n, rfl, -, hmax, -⟩ := Route.consumes_int_iff.mp h
    exact .int (by omega) (by omega)
  | float =>
    obtain ⟨l, -, hacc⟩ := h ⟨true, none, .empty⟩
    rw [NumberPolicy.accept_map] at hacc
    cases hx : (NumberPolicy.floats Problem.expectingFloat Problem.invalid).accept l with
    | error e =>
      rw [hx] at hacc
      cases hacc
    | ok x =>
      rw [hx] at hacc
      cases hacc
      exact .float x
  | choice options =>
    obtain ⟨hfind, rfl⟩ := h ⟨true, none, .empty⟩
    exact .choice (List.mem_of_find?_eq_some hfind)

/-- A text in front of a literal does not contain it. -/
theorem not_infix_of_consumes {delimiter : String} {tail : List Segment} {t r : String} {a : Value}
    (h : (captureRoute .text (.literal delimiter :: tail)).Consumes t r a) :
    a = .text t ∧ ¬ delimiter.toList <:+: t.toList := by
  obtain ⟨hne, hcut, ha⟩ := h ⟨true, none, .empty⟩
  rw [String.toList_append] at hcut
  have hno := hasLiteral_of_cutAt (mt String.toList_eq_nil_iff.mp hne) hcut
  rw [← Text.hasLiteral_eq_true_iff, hno]
  exact ⟨ha, Bool.false_ne_true⟩

/-! ## Parameters -/

variable {cap : Route → String → String → Value → Prop}

/-- Every parameter of a path has a field, which its capture answers for. -/
theorem Spells.mem_of_param {tail x : String} {before after : List Segment} {p : Param}
    {fields : List (String × Value)} (h : Spells cap tail (before ++ .param p :: after) x fields) :
    ∃ t r a, (p.key, a) ∈ fields ∧ cap (captureRoute p.matcher after) t r a := by
  induction before generalizing x fields with
  | nil =>
    obtain ⟨t, y, a, fs, -, rfl, ht, -⟩ := h
    exact ⟨t, y ++ tail, a, List.mem_cons_self, ht⟩
  | cons segment before ih =>
    cases segment with
    | literal text =>
      obtain ⟨y, -, hy⟩ := h
      exact ih hy
    | param q =>
      obtain ⟨t, y, b, fs, -, rfl, -, hy⟩ := h
      obtain ⟨t', r', a, hmem, ha⟩ := ih hy
      exact ⟨t', r', a, List.mem_cons_of_mem _ hmem, ha⟩

theorem QuerySpells.mem_of_param {query : List Param} {raws : List (String × String)}
    {fields : List (String × Value)} (h : QuerySpells cap query raws fields) {p : Param} (hp : p ∈ query) :
    ∃ raw a, (p.key, a) ∈ fields ∧ cap (captureRoute p.matcher []) raw "" a := by
  induction query generalizing raws fields with
  | nil => cases hp
  | cons q query ih =>
    obtain ⟨raw, a, rs, fs, rfl, rfl, hraw, hq⟩ := h
    rcases List.mem_cons.mp hp with rfl | hp
    · exact ⟨raw, a, List.mem_cons_self, hraw⟩
    · obtain ⟨raw', b, hmem, hb⟩ := ih hq hp
      exact ⟨raw', b, List.mem_cons_of_mem _ hmem, hb⟩

/-- What a compiled route reads from the start of a source has exactly the
fields of its definition, each of the kind of its parameter. -/
theorem complete_of_good {d : Definition} {route : Route} (hc : d.compile = .ok route)
    {s s' : State Label} (hs : s.position = .start) {g : Bool} {v : Value}
    (hp : route.parser s = .good g v s') : d.Complete v := by
  obtain ⟨-, m, -, hkeys, -, rfl⟩ := compile_eq_ok_iff.mp hc
  obtain ⟨-, x, tail, pfields, raws, qfields, -, -, hpath, hquery, -, rfl⟩ :=
    (runOn_assemble_iff hs).mp (Route.runOn_of_good hp)
  have hfields := keys_of_spells hpath hquery
  have hempty : pfields ++ qfields = [] ↔ params d.segments = [] := by
    rw [← List.map_eq_nil_iff (f := Prod.fst), hfields, List.map_eq_nil_iff,
      List.eq_nil_iff_forall_not_mem, List.eq_nil_iff_forall_not_mem]
    simp only [mem_outline_iff]
  have hholds := holds_of_spells (checkKeys_eq_ok_iff.mp hkeys).2 hpath hquery
  refine ⟨fun hnone => ?_, fun hsome => ?_, fun p hmem => ?_, fun before p delimiter after hd hm => ?_⟩
  · rw [hempty.mpr hnone]
    rfl
  · refine ⟨_, if_neg (mt hempty.mp hsome), fun key => ?_⟩
    rw [Dict.mem_keys_ofList_iff, hfields, mem_keys_iff]
  · rcases List.mem_append.mp (mem_outline_iff.mpr hmem) with hin | hin
    · obtain ⟨before, after, hsplit⟩ := List.append_of_mem (mem_params_iff.mp hin)
      rw [hsplit] at hpath
      obtain ⟨t, r, a, hfield, ha⟩ := hpath.mem_of_param
      exact ⟨a, hholds.get? (List.mem_append_left _ hfield), admits_of_consumes ha⟩
    · obtain ⟨raw, a, hfield, ha⟩ := hquery.mem_of_param hin
      exact ⟨a, hholds.get? (List.mem_append_right _ hfield), admits_of_consumes ha⟩
  · rw [outline_eq, hd] at hpath
    obtain ⟨t, r, a, hfield, ha⟩ := hpath.mem_of_param
    rw [hm] at ha
    obtain ⟨rfl, hno⟩ := not_infix_of_consumes ha
    exact ⟨t, hholds.get? (List.mem_append_left _ hfield), hno⟩

/-- A capture of each kind, a text that begins like the literal behind it, and nothing left for the rest. -/
theorem complete_of_good_each_kind :
    let d : Definition :=
      { segments := [.literal "/", .param ⟨"name", .text, false⟩, .literal "-at-",
          .param ⟨"kind", .choice ["ab", "a"], false⟩, .literal "/", .param ⟨"size", .float, false⟩,
          .param ⟨"q", .text, true⟩, .literal "/", .param ⟨"id", .int, false⟩, .literal "/",
          .param ⟨"tail", .rest true, false⟩] }
    let s : State Label := { source := "/a-a-at-a/1.5/7/", params := ⟨[("q", "x y")]⟩ }
    ∃ route g v s', d.compile = .ok route ∧ s.position = .start ∧ route.parser s = .good g v s' ∧
      d.Complete v := by
  intro d s
  let path : List Segment := [.literal "/", .param ⟨"name", .text, false⟩, .literal "-at-",
    .param ⟨"kind", .choice ["ab", "a"], false⟩, .literal "/", .param ⟨"size", .float, false⟩,
    .literal "/", .param ⟨"id", .int, false⟩, .literal "/", .param ⟨"tail", .rest true, false⟩]
  have hc : d.compile = .ok (assemble none path [⟨"q", .text, true⟩] {}) := rfl
  have hread : ((assemble none path [⟨"q", .text, true⟩] {}).runOn s).isOk = true := by decide +kernel
  cases hrun : (assemble none path [⟨"q", .text, true⟩] {}).parser s with
  | bad g problems =>
    rw [Route.runOn, hrun] at hread
    cases hread
  | good g v s' => exact ⟨_, g, v, s', hc, rfl, hrun, complete_of_good hc rfl hrun⟩

end Definition
end UrlRoutes
