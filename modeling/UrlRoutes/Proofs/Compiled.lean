import UrlRoutes.Proofs.Writing
import UrlRoutes.Route.Compile
/-!
# Accepted definitions

A definition that compiles has passed every check: its keys are different and
not empty, no enumeration is without options, what takes the rest stands last
and no two unbounded captures stand together. Its outline has the parameters
of its segments, and no others.

Results:
* `compile_eq_ok_iff`: which definitions compile, and to what.
* `checkKeys_eq_ok_iff`, `checkEnds_param_iff`: what the checks say.
* `ne_empty_of_mem_outline`: no literal of an outline is empty.
* `mem_outline_iff`: an outline keeps every parameter.
-/
namespace UrlRoutes.Definition

/-- The keys a definition captures under. -/
def keys (d : Definition) : List String := (params d.segments).map Param.key

def queryKeys (d : Definition) : List String := (queryOf d.segments).map Param.key

/-- No capture is a double. -/
def FloatFree (d : Definition) : Prop := ∀ p ∈ params d.segments, p.matcher ≠ .float

/-! ## Accepted definitions -/

theorem compile_eq_ok_iff {d : Definition} {route : Route} :
    d.compile = .ok route ↔ d.options.check = .ok () ∧
      ∃ m, agreedMethod (outline d.segments).declared d.options = .ok m ∧
        checkKeys [] (params (outline d.segments).path ++ (outline d.segments).query) = .ok () ∧
        checkEnds (outline d.segments).path = .ok () ∧
        route = assemble m (outline d.segments).path (outline d.segments).query d.options := by
  unfold compile
  cases d.options.check with
  | error e => simp
  | ok u =>
    simp only [compileOutline, Route.bind_eq_ok_iff, true_and]
    constructor
    · intro hrun
      obtain ⟨m, hm, u1, hk, u2, he, h⟩ := hrun
      cases h
      exact ⟨m, hm, hk, he, rfl⟩
    · intro hchecks
      obtain ⟨m, hm, hk, he, rfl⟩ := hchecks
      exact ⟨m, hm, (), hk, (), he, rfl⟩

theorem checkKeys_eq_ok_iff {seen : List String} {ps : List Param} :
    checkKeys seen ps = .ok () ↔
      (∀ p ∈ ps, p.key ≠ "" ∧ p.key ∉ seen ∧ p.matcher ≠ .choice []) ∧ (ps.map Param.key).Nodup := by
  induction ps generalizing seen with
  | nil => simp [checkKeys]
  | cons p ps ih =>
    rw [checkKeys, Route.refuse_eq_ok_iff, Route.refuse_eq_ok_iff, Route.refuse_eq_ok_iff, ih,
      List.map_cons, List.nodup_cons, List.forall_mem_cons]
    constructor
    · intro h
      obtain ⟨hkey, hseen, hchoice, hrest, hn⟩ := h
      refine ⟨⟨⟨hkey, hseen, hchoice⟩, fun q hq => ?_⟩, ?_, hn⟩
      · obtain ⟨h1, h2, h3⟩ := hrest q hq
        exact ⟨h1, fun hm => h2 (List.mem_cons_of_mem _ hm), h3⟩
      · intro hm
        obtain ⟨q, hq, he⟩ := List.mem_map.mp hm
        exact (hrest q hq).2.1 (he ▸ List.mem_cons_self)
    · intro h
      obtain ⟨⟨⟨hkey, hseen, hchoice⟩, hrest⟩, hnot, hn⟩ := h
      refine ⟨hkey, hseen, hchoice, fun q hq => ?_, hn⟩
      obtain ⟨h1, h2, h3⟩ := hrest q hq
      refine ⟨h1, fun hm => ?_, h3⟩
      rcases List.mem_cons.mp hm with he | hm
      · exact hnot (List.mem_map.mpr ⟨q, hq, he⟩)
      · exact h2 hm

theorem raised_of_splitMethod? {text m rest : String} (h : splitMethod? text = some (m, rest)) :
    Text.raised m = m := by
  simp only [splitMethod?, Option.ite_none_right_eq_some, Option.some.injEq, Prod.mk.injEq] at h
  rw [← h.2.1, Text.raised_raised]

theorem raised_of_splitDeclared (path : List Segment) :
    (splitDeclared path).1.map Text.raised = (splitDeclared path).1 := by
  cases path with
  | nil => rfl
  | cons segment rest =>
    cases segment with
    | param p => rfl
    | literal text =>
      rw [splitDeclared]
      cases hsplit : splitMethod? text with
      | none => rfl
      | some declared => exact congrArg some (raised_of_splitMethod? hsplit)

/-- The method of a definition is in capitals. -/
theorem raised_of_agreedMethod {segments : List Segment} {options : Options} {m : Option String}
    (h : agreedMethod (outline segments).declared options = .ok m) : m.map Text.raised = m := by
  have hdeclared : (outline segments).declared.map Text.raised = (outline segments).declared :=
    raised_of_splitDeclared (pathOf segments)
  unfold agreedMethod at h
  split at h
  · next hd ho =>
    rw [hd] at hdeclared
    split at h
    · cases h
      exact hdeclared
    · cases h
  · next hd ho =>
    rw [hd] at hdeclared
    cases h
    exact hdeclared
  · cases h
    rw [Option.map_map]
    exact congrArg (options.method.map ·) (funext Text.raised_raised)

/-- What the check of the ends asks of the first capture. -/
theorem checkEnds_param_iff {p : Param} {rest : List Segment} :
    checkEnds (.param p :: rest) = .ok () ↔ (takesRest p.matcher = true → rest = []) ∧
      (∀ q tail, rest = .param q :: tail → p.matcher.isBounded = true ∨ q.matcher.isBounded = true) ∧
        checkEnds rest = .ok () := by
  have hrest : ¬(takesRest p.matcher = true ∧ rest ≠ []) ↔ (takesRest p.matcher = true → rest = []) := by
    rw [Classical.not_and_iff_not_or_not, Classical.not_not, Classical.or_iff_not_imp_left,
      Classical.not_not]
  cases rest with
  | nil => simp [checkEnds]
  | cons next tail =>
    cases next with
    | literal text =>
      simp only [checkEnds, Route.refuse_eq_ok_iff, hrest]
      simp
    | param q =>
      rw [checkEnds, Route.refuse_eq_ok_iff, hrest, Route.refuse_eq_ok_iff,
        Classical.not_and_iff_not_or_not, Bool.not_eq_false, Bool.not_eq_false]
      refine and_congr_right fun _ => and_congr_left fun _ => ?_
      constructor
      · rintro h q' tail' he
        cases he
        exact h
      · intro h
        exact h q tail rfl

theorem checkEnds_singleton (p : Param) : checkEnds [.param p] = .ok () := by
  simp [checkEnds]

/-! ## Literals of an outline -/

theorem ne_empty_of_mem_consLiteral {text t : String} {path : List Segment}
    (hpath : ∀ u, .literal u ∈ path → u ≠ "") (h : .literal t ∈ consLiteral text path) : t ≠ "" := by
  unfold consLiteral at h
  split at h
  · exact hpath t h
  · next htext =>
    split at h
    · next next rest =>
      rcases List.mem_cons.mp h with he | hm
      · cases he
        simp [htext]
      · exact hpath t (List.mem_cons_of_mem _ hm)
    · rcases List.mem_cons.mp h with he | hm
      · cases he
        exact htext
      · exact hpath t hm

theorem ne_empty_of_mem_pathOf {segments : List Segment} {t : String}
    (h : .literal t ∈ pathOf segments) : t ≠ "" := by
  induction segments generalizing t with
  | nil => cases h
  | cons segment segments ih =>
    cases segment with
    | literal text => exact ne_empty_of_mem_consLiteral (fun _ => ih) h
    | param p =>
      rw [pathOf] at h
      split at h
      · exact ih h
      · rcases List.mem_cons.mp h with he | hm
        · cases he
        · exact ih hm

theorem ne_empty_of_mem_splitDeclared {path : List Segment} {t : String}
    (hpath : ∀ u, .literal u ∈ path → u ≠ "") (h : .literal t ∈ (splitDeclared path).2) : t ≠ "" := by
  unfold splitDeclared at h
  split at h
  · next text rest =>
    split at h
    · exact ne_empty_of_mem_consLiteral (fun u hu => hpath u (List.mem_cons_of_mem _ hu)) h
    · exact hpath t h
  · exact hpath t h

/-- No literal of an outline is empty. -/
theorem ne_empty_of_mem_outline {segments : List Segment} {t : String}
    (h : .literal t ∈ (outline segments).path) : t ≠ "" :=
  ne_empty_of_mem_splitDeclared (fun _ => ne_empty_of_mem_pathOf) h

/-! ## Parameters of an outline -/

theorem mem_params_iff {p : Param} {path : List Segment} : p ∈ params path ↔ .param p ∈ path := by
  rw [params, List.mem_filterMap]
  constructor
  · intro hparam
    obtain ⟨segment, hm, h⟩ := hparam
    cases segment with
    | literal text => cases h
    | param q =>
      cases h
      exact hm
  · intro hm
    exact ⟨_, hm, rfl⟩

theorem param_mem_consLiteral_iff {p : Param} {text : String} {path : List Segment} :
    .param p ∈ consLiteral text path ↔ .param p ∈ path := by
  unfold consLiteral
  split
  · rfl
  · split <;> simp

theorem param_mem_pathOf_iff {p : Param} {segments : List Segment} :
    .param p ∈ pathOf segments ↔ .param p ∈ segments ∧ p.inQuery = false := by
  induction segments with
  | nil => simp [pathOf]
  | cons segment segments ih =>
    cases segment with
    | literal text => rw [pathOf, param_mem_consLiteral_iff, ih]; simp
    | param q =>
      rw [pathOf]
      split
      · next hq =>
        rw [ih, List.mem_cons]
        refine and_congr_left fun hp => ⟨.inr, ?_⟩
        rintro (he | hm)
        · cases he
          rw [hq] at hp
          cases hp
        · exact hm
      · next hq =>
        rw [List.mem_cons, List.mem_cons, ih, or_and_right]
        refine or_congr_left ⟨fun he => ⟨he, ?_⟩, And.left⟩
        cases he
        exact Bool.not_eq_true _ ▸ hq

theorem mem_queryOf_iff {p : Param} {segments : List Segment} :
    p ∈ queryOf segments ↔ .param p ∈ segments ∧ p.inQuery = true := by
  induction segments with
  | nil => simp [queryOf]
  | cons segment segments ih =>
    cases segment with
    | literal text => rw [queryOf, ih]; simp
    | param q =>
      rw [queryOf]
      split
      · next hq =>
        rw [List.mem_cons, List.mem_cons, ih, or_and_right, Segment.param.injEq]
        refine or_congr_left ⟨fun he => ⟨he, ?_⟩, And.left⟩
        rw [he, hq]
      · next hq =>
        rw [ih, List.mem_cons]
        refine and_congr_left fun hp => ⟨.inr, ?_⟩
        rintro (he | hm)
        · cases he
          exact absurd hp hq
        · exact hm

theorem param_mem_splitDeclared_iff {p : Param} {path : List Segment} :
    .param p ∈ (splitDeclared path).2 ↔ .param p ∈ path := by
  unfold splitDeclared
  split
  · split
    · simp [param_mem_consLiteral_iff]
    · rfl
  · rfl

/-- An outline keeps every parameter. -/
theorem mem_outline_iff {p : Param} {segments : List Segment} :
    p ∈ params (outline segments).path ++ (outline segments).query ↔ p ∈ params segments := by
  have hpath : p ∈ params (outline segments).path ↔ .param p ∈ segments ∧ p.inQuery = false := by
    rw [mem_params_iff, ← param_mem_pathOf_iff]
    exact param_mem_splitDeclared_iff
  have hquery : p ∈ (outline segments).query ↔ .param p ∈ segments ∧ p.inQuery = true := mem_queryOf_iff
  rw [List.mem_append, hpath, hquery, ← and_or_left, mem_params_iff]
  cases p.inQuery <;> simp

theorem mem_keys_iff {d : Definition} {key : String} :
    key ∈ d.keys ↔ key ∈ (params (outline d.segments).path ++ (outline d.segments).query).map Param.key := by
  rw [keys, List.mem_map, List.mem_map]
  simp only [mem_outline_iff]

/-- What an accepted definition without doubles is known to satisfy, by its
path and its query parameters. -/
structure Proper (path : List Segment) (query : List Param) : Prop where
  ends : checkEnds path = .ok ()
  nodup : ((params path ++ query).map Param.key).Nodup
  named : ∀ p ∈ query, p.key ≠ ""
  pathFloat : ∀ p ∈ params path, p.matcher ≠ .float
  queryFloat : ∀ p ∈ query, p.matcher ≠ .float

theorem proper_of_compile {d : Definition} {route : Route} (hc : d.compile = .ok route)
    (hf : d.FloatFree) : Proper (outline d.segments).path (outline d.segments).query ∧
      ∃ m, agreedMethod (outline d.segments).declared d.options = .ok m ∧
        route = assemble m (outline d.segments).path (outline d.segments).query d.options := by
  obtain ⟨-, m, hm, hkeys, hends, hroute⟩ := compile_eq_ok_iff.mp hc
  obtain ⟨hkey, hnodup⟩ := checkKeys_eq_ok_iff.mp hkeys
  have hfloat : ∀ p ∈ params (outline d.segments).path ++ (outline d.segments).query, p.matcher ≠ .float :=
    fun p hp => hf p (mem_outline_iff.mp hp)
  obtain ⟨hpath, hquery⟩ := List.forall_mem_append.mp hfloat
  have hnamed : ∀ p ∈ (outline d.segments).query, p.key ≠ "" :=
    fun p hp => (hkey p (List.mem_append_right _ hp)).1
  exact ⟨⟨hends, hnodup, hnamed, hpath, hquery⟩, m, hm, hroute⟩

end UrlRoutes.Definition
