import Mathlib.Data.List.Induction
import Mathlib.Logic.Relation
import UrlRoutes.Proofs.Compiled
/-!
# Rewriting definitions

The segments of a definition can be written down in many ways. A literal may
be cut in two, an empty literal put in anywhere, and a query parameter moved
past its neighbour on the path. None of this changes what the definition comes
down to when its segments are put in their places one after the other, and two
lists of segments that come down to the same can be rewritten into each other.
Compiling looks at nothing else, so it gives one route or one error for all of
them.

Results:
* `partition_eq`: putting the segments in their places from the front gives
  the path and the query parameters of the definition.
* `rewritten_normal`: every list can be rewritten to its path with the query
  parameters behind it.
* `rewritten_iff_partition_eq`: which lists can be rewritten into each other.
* `compile_of_rewritten`: rewriting does not change what a definition compiles to.
-/
namespace UrlRoutes

def Segment.inQuery : Segment → Bool
  | .literal _ => false
  | .param p => p.inQuery

namespace Definition

/-! ## Putting segments in their places -/

/-- Puts a literal at the end of a path, where it becomes part of a literal
that is last so far. -/
def appendLiteral (path : List Segment) (text : String) : List Segment :=
  match path.getLast? with
  | some (.literal previous) => path.dropLast ++ [.literal (previous ++ text)]
  | _ => path ++ [.literal text]

/-- Puts the next segment behind the path or behind the query parameters. -/
def place (parts : List Segment × List Param) : Segment → List Segment × List Param
  | .literal text => if text = "" then parts else (appendLiteral parts.1 text, parts.2)
  | .param p => if p.inQuery then (parts.1, parts.2 ++ [p]) else (parts.1 ++ [.param p], parts.2)

/-- The path and the query parameters that segments come down to. -/
def partition (segments : List Segment) : List Segment × List Param := segments.foldl place ([], [])

theorem appendLiteral_cons {segment : Segment} {path : List Segment} (h : path ≠ []) (text : String) :
    appendLiteral (segment :: path) text = segment :: appendLiteral path text := by
  obtain ⟨next, rest, rfl⟩ := List.exists_cons_of_ne_nil h
  unfold appendLiteral
  rw [List.getLast?_cons_cons]
  split <;> rfl

theorem appendLiteral_param (p : Param) (path : List Segment) (text : String) :
    appendLiteral (.param p :: path) text = .param p :: appendLiteral path text := by
  by_cases h : path = []
  · subst h
    rfl
  · exact appendLiteral_cons h text

/-- A literal in front of a path and one behind it can be put there in either order. -/
theorem appendLiteral_consLiteral (a b : String) (path : List Segment) :
    appendLiteral (consLiteral a path) b = consLiteral a (appendLiteral path b) := by
  by_cases ha : a = ""
  · simp [consLiteral, ha]
  · cases path with
    | nil => simp [appendLiteral, consLiteral, ha]
    | cons segment rest =>
      cases segment with
      | param p => simp [consLiteral, ha, appendLiteral_param, appendLiteral_cons]
      | literal text =>
        by_cases hrest : rest = []
        · subst hrest
          simp [appendLiteral, consLiteral, ha, String.append_assoc]
        · simp [consLiteral, ha, appendLiteral_cons hrest]

theorem consLiteral_append_param (text : String) (path : List Segment) (p : Param) :
    consLiteral text (path ++ [.param p]) = consLiteral text path ++ [.param p] := by
  by_cases ht : text = ""
  · simp [consLiteral, ht]
  · cases path with
    | nil => simp [consLiteral, ht]
    | cons segment rest => cases segment <;> simp [consLiteral, ht]

theorem pathOf_concat (segments : List Segment) (segment : Segment) (query : List Param) :
    pathOf (segments ++ [segment]) = (place (pathOf segments, query) segment).1 := by
  induction segments with
  | nil =>
    cases segment with
    | literal text =>
      simp only [List.nil_append, pathOf, place, consLiteral]
      split <;> rfl
    | param p =>
      simp only [List.nil_append, pathOf, place]
      split <;> rfl
  | cons first segments ih =>
    cases first with
    | literal text =>
      rw [List.cons_append, pathOf, ih, pathOf]
      cases segment with
      | literal next =>
        simp only [place]
        split
        · rfl
        · exact (appendLiteral_consLiteral text next _).symm
      | param p =>
        simp only [place]
        split
        · rfl
        · exact consLiteral_append_param text _ p
    | param q =>
      rw [List.cons_append, pathOf, ih, pathOf]
      by_cases hq : q.inQuery = true
      · rw [if_pos hq, if_pos hq]
      · rw [if_neg hq, if_neg hq]
        cases segment with
        | literal next =>
          simp only [place]
          split
          · rfl
          · exact (appendLiteral_param q _ next).symm
        | param p =>
          simp only [place]
          split <;> rfl

theorem queryOf_append (before after : List Segment) :
    queryOf (before ++ after) = queryOf before ++ queryOf after := by
  induction before with
  | nil => rfl
  | cons segment before ih =>
    cases segment with
    | literal text => exact ih
    | param p =>
      rw [List.cons_append, queryOf, ih, queryOf]
      split <;> rfl

theorem queryOf_concat (segments : List Segment) (segment : Segment) (path : List Segment) :
    queryOf (segments ++ [segment]) = (place (path, queryOf segments) segment).2 := by
  rw [queryOf_append]
  cases segment with
  | literal text =>
    simp only [queryOf, place, List.append_nil]
    split <;> rfl
  | param p =>
    simp only [queryOf, place]
    split <;> simp

/-- Nothing is lost when the segments are put in their places from the front. -/
theorem partition_eq (segments : List Segment) : partition segments = (pathOf segments, queryOf segments) := by
  induction segments using List.reverseRecOn with
  | nil => rfl
  | append_singleton segments segment ih =>
    rw [partition, List.foldl_append, ← partition, ih, pathOf_concat segments segment (queryOf segments),
      queryOf_concat segments segment (pathOf segments)]
    rfl

/-! ## Rewriting -/

/-- One way to write down other segments that come down to the same. -/
inductive Rewrite : List Segment → List Segment → Prop where
  /-- A literal is cut in two. -/
  | cut (before after : List Segment) (a b : String) :
      Rewrite (before ++ .literal (a ++ b) :: after) (before ++ .literal a :: .literal b :: after)
  /-- An empty literal is put in. -/
  | insert (before after : List Segment) : Rewrite (before ++ after) (before ++ .literal "" :: after)
  /-- A query parameter changes places with its neighbour on the path. -/
  | swap (before after : List Segment) {p : Param} {segment : Segment} (hp : p.inQuery = true)
      (hs : segment.inQuery = false) :
      Rewrite (before ++ .param p :: segment :: after) (before ++ segment :: .param p :: after)

/-- Rewritten any number of times, forwards and backwards. -/
def Rewritten : List Segment → List Segment → Prop := Relation.EqvGen Rewrite

theorem Rewrite.rewritten {a b : List Segment} (h : Rewrite a b) : Rewritten a b := .rel a b h

theorem Rewritten.symm {a b : List Segment} (h : Rewritten a b) : Rewritten b a := Relation.EqvGen.symm a b h

theorem Rewritten.trans {a b c : List Segment} (h : Rewritten a b) (h' : Rewritten b c) : Rewritten a c :=
  Relation.EqvGen.trans a b c h h'

/-! ## What rewriting keeps -/

theorem pathOf_append_congr {a b : List Segment} (h : pathOf a = pathOf b) (before : List Segment) :
    pathOf (before ++ a) = pathOf (before ++ b) := by
  induction before with
  | nil => exact h
  | cons segment before ih =>
    cases segment with
    | literal text => rw [List.cons_append, List.cons_append, pathOf, pathOf, ih]
    | param p => rw [List.cons_append, List.cons_append, pathOf, pathOf, ih]

theorem pathOf_eq_of_rewrite {a b : List Segment} (h : Rewrite a b) : pathOf a = pathOf b := by
  cases h with
  | cut before after a b =>
    apply pathOf_append_congr
    exact (consLiteral_append a b (pathOf after)).symm
  | insert before after =>
    apply pathOf_append_congr
    exact (pathOf_empty after).symm
  | @swap before after p segment hp hs =>
    apply pathOf_append_congr
    cases segment with
    | literal text => simp only [pathOf, hp, if_true]
    | param q => simp only [pathOf, hp, if_true]

theorem queryOf_eq_of_rewrite {a b : List Segment} (h : Rewrite a b) : queryOf a = queryOf b := by
  cases h with
  | cut before after a b => rw [queryOf_append, queryOf_append]; rfl
  | insert before after => rw [queryOf_append, queryOf_append]; rfl
  | @swap before after p segment hp hs =>
    rw [queryOf_append, queryOf_append]
    cases segment with
    | literal text => rfl
    | param q =>
      have hq : ¬ q.inQuery = true := Bool.eq_false_iff.mp hs
      simp only [queryOf, if_neg hq]

theorem partition_eq_of_rewritten {a b : List Segment} (h : Rewritten a b) : partition a = partition b := by
  induction h with
  | rel a b h => rw [partition_eq, partition_eq, pathOf_eq_of_rewrite h, queryOf_eq_of_rewrite h]
  | refl a => rfl
  | symm a b _ ih => exact ih.symm
  | trans a b c _ _ ih ih' => exact ih.trans ih'

/-! ## What can be reached by rewriting -/

/-- The path, and the query parameters behind it. -/
def normal (segments : List Segment) : List Segment := pathOf segments ++ (queryOf segments).map .param

theorem rewritten_cons (segment : Segment) {a b : List Segment} (h : Rewritten a b) :
    Rewritten (segment :: a) (segment :: b) := by
  induction h with
  | rel a b h =>
    apply Rewrite.rewritten
    cases h with
    | cut before after a b => exact .cut (segment :: before) after a b
    | insert before after => exact .insert (segment :: before) after
    | swap before after hp hs => exact .swap (segment :: before) after hp hs
  | refl a => exact .refl _
  | symm a b _ ih => exact ih.symm
  | trans a b c _ _ ih ih' => exact ih.trans ih'

theorem rewritten_consLiteral (text : String) (path after : List Segment) :
    Rewritten (.literal text :: (path ++ after)) (consLiteral text path ++ after) := by
  unfold consLiteral
  split
  · next h =>
    rw [h]
    exact (Rewrite.insert [] (path ++ after)).rewritten.symm
  · split
    · next next rest => exact (Rewrite.cut [] (rest ++ after) text next).rewritten.symm
    · exact .refl _

/-- A query parameter can be moved behind any path. -/
theorem rewritten_param {p : Param} (hp : p.inQuery = true) {path : List Segment}
    (hpath : ∀ segment ∈ path, segment.inQuery = false) (after : List Segment) :
    Rewritten (.param p :: (path ++ after)) (path ++ .param p :: after) := by
  induction path with
  | nil => exact .refl _
  | cons segment path ih =>
    obtain ⟨hs, hrest⟩ := List.forall_mem_cons.mp hpath
    have hswap := (Rewrite.swap [] (path ++ after) hp hs).rewritten
    exact hswap.trans (rewritten_cons segment (ih hrest))

theorem inQuery_of_mem_pathOf {segments : List Segment} {segment : Segment} (h : segment ∈ pathOf segments) :
    segment.inQuery = false := by
  cases segment with
  | literal text => rfl
  | param p => exact (param_mem_pathOf_iff.mp h).2

theorem rewritten_normal (segments : List Segment) : Rewritten segments (normal segments) := by
  induction segments with
  | nil => exact .refl _
  | cons segment segments ih =>
    have hcons := rewritten_cons segment ih
    cases segment with
    | literal text => exact hcons.trans (rewritten_consLiteral text _ _)
    | param p =>
      by_cases hp : p.inQuery = true
      · have hpath : ∀ s ∈ pathOf segments, s.inQuery = false := fun s => inQuery_of_mem_pathOf
        have hmoved := rewritten_param hp hpath ((queryOf segments).map .param)
        have hnormal : normal (.param p :: segments) =
            pathOf segments ++ .param p :: (queryOf segments).map .param := by
          simp [normal, pathOf, queryOf, hp]
        rw [hnormal]
        exact hcons.trans hmoved
      · have hnormal : normal (.param p :: segments) = .param p :: normal segments := by
          simp [normal, pathOf, queryOf, hp]
        rw [hnormal]
        exact hcons

/-- Two lists can be rewritten into each other exactly when they come down to the same. -/
theorem rewritten_iff_partition_eq {a b : List Segment} : Rewritten a b ↔ partition a = partition b := by
  refine ⟨partition_eq_of_rewritten, fun h => ?_⟩
  rw [partition_eq, partition_eq, Prod.mk.injEq] at h
  have hnormal : normal a = normal b := by rw [normal, h.1, h.2, normal]
  have hb := (rewritten_normal b).symm
  rw [← hnormal] at hb
  exact (rewritten_normal a).trans hb

/-! ## Compiling -/

/-- A definition compiles to the same route, or is refused for the same
reason, however its segments are rewritten. -/
theorem compile_of_rewritten {a b : List Segment} (h : Rewritten a b) (options : Options) :
    compile ⟨a, options⟩ = compile ⟨b, options⟩ := by
  have hparts := partition_eq_of_rewritten h
  rw [partition_eq, partition_eq, Prod.mk.injEq] at hparts
  apply compile_congr
  rw [outline, outline, hparts.1, hparts.2]

/-- A method and a delimiter are cut in two, and a query parameter stands between the pieces. -/
theorem compile_of_rewritten_cut_method :
    let a : List Segment := [.literal "POST /x/", .param ⟨"t", .text, false⟩, .literal "--", .param ⟨"q", .int, true⟩]
    let b : List Segment := [.literal "PO", .param ⟨"q", .int, true⟩, .literal "", .literal "ST /x/",
      .param ⟨"t", .text, false⟩, .literal "-", .literal "-"]
    Rewritten a b ∧ compile ⟨a, {}⟩ = compile ⟨b, {}⟩ ∧
      ∃ route, compile ⟨a, {}⟩ = .ok route ∧ compile ⟨b, {}⟩ = .ok route ∧ route.guardMethod? = some "POST" := by
  intro a b
  have h : Rewritten a b := rewritten_iff_partition_eq.mpr (by decide)
  have ha : compile ⟨a, {}⟩ = .ok (assemble (some "POST") [.literal "/x/", .param ⟨"t", .text, false⟩, .literal "--"]
      [⟨"q", .int, true⟩] {}) := by rfl
  have hab := compile_of_rewritten h {}
  exact ⟨h, hab, _, ha, hab.symm.trans ha, by rfl⟩

end Definition
end UrlRoutes
