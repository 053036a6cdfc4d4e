import UrlRoutes.Route.Compile
import UrlRoutes.Route.Read
import UrlRoutes.Route.Write
/-!
# Regrouping sequences

One sequence of routes can be nested in many ways: a definition is compiled to
a sequence nested to the right, while a route that grows piece by piece is
nested to the left. The nesting makes no difference, wherever in a route it
occurs. Both routes make the same of every state, dead ends and progress
included, and of every value and every draft, refusals included.

Results:
* `alike_of_regroups`: routes that differ in their nesting alone are alike.
* `regroups_chain`: a sequence grown piece by piece is nested to the right.
* `sequences_regroup`: both kinds of sequence are associative, and chains of
  any length may be nested to the left or to the right.
-/
namespace UrlRoutes.Route

/-- Both make the same of every state, of every value and of every draft. -/
structure Alike (a b : Route) : Prop where
  reads : ∀ s, a.parser s = b.parser s
  writes : ∀ v d, a.write v d = b.write v d

/-- The routes differ in the nesting of their sequences alone, at any depth. -/
inductive Regroups : Route → Route → Prop where
  | refl (a : Route) : Regroups a a
  | symm {a b : Route} (h : Regroups a b) : Regroups b a
  | trans {a b c : Route} (h : Regroups a b) (h' : Regroups b c) : Regroups a c
  | bothAssoc (a b c : Route) : Regroups (both (both a b) c) (both a (both b c))
  | lastAssoc (a b c : Route) : Regroups (last (last a b) c) (last a (last b c))
  | capture (key : String) {a b : Route} (h : Regroups a b) : Regroups (capture key a) (capture key b)
  | query (key : String) {a b : Route} (h : Regroups a b) : Regroups (query key a) (query key b)
  | both {a a' b b' : Route} (h : Regroups a a') (h' : Regroups b b') : Regroups (both a b) (both a' b')
  | last {a a' b b' : Route} (h : Regroups a a') (h' : Regroups b b') : Regroups (last a b) (last a' b')

theorem Alike.parser_eq {a b : Route} (h : Alike a b) : a.parser = b.parser := funext h.reads

theorem Alike.write_eq {a b : Route} (h : Alike a b) : a.write = b.write :=
  funext fun v => funext (h.writes v)

theorem alike_of_eq {a b : Route} (hr : a.parser = b.parser) (hw : a.write = b.write) : Alike a b :=
  ⟨fun s => congrFun hr s, fun v d => congrFun (congrFun hw v) d⟩

/-! ## Nesting at any depth -/

theorem alike_capture (key : String) {a b : Route} (h : Alike a b) : Alike (capture key a) (capture key b) := by
  apply alike_of_eq
  · simp only [parser, h.parser_eq]
  · funext v d
    simp only [write, h.write_eq]

theorem alike_query (key : String) {a b : Route} (h : Alike a b) : Alike (query key a) (query key b) := by
  apply alike_of_eq
  · simp only [parser, h.parser_eq]
  · funext v d
    simp only [write, h.write_eq]

theorem alike_both {a a' b b' : Route} (h : Alike a a') (h' : Alike b b') : Alike (both a b) (both a' b') := by
  apply alike_of_eq
  · simp only [parser, h.parser_eq, h'.parser_eq]
  · funext v d
    simp only [write, h.write_eq, h'.write_eq]

theorem alike_last {a a' b b' : Route} (h : Alike a a') (h' : Alike b b') : Alike (last a b) (last a' b') := by
  apply alike_of_eq
  · simp only [parser, h.parser_eq, h'.parser_eq]
  · funext v d
    simp only [write, h.write_eq, h'.write_eq]

/-- Nesting makes no difference. -/
theorem alike_of_regroups {a b : Route} (h : Regroups a b) : Alike a b := by
  induction h with
  | refl a => exact alike_of_eq rfl rfl
  | symm _ ih => exact alike_of_eq ih.parser_eq.symm ih.write_eq.symm
  | trans _ _ ih ih' =>
    exact alike_of_eq (ih.parser_eq.trans ih'.parser_eq) (ih.write_eq.trans ih'.write_eq)
  | bothAssoc a b c => exact ⟨congrFun (parser_both_assoc a b c), write_both_assoc a b c⟩
  | lastAssoc a b c => exact ⟨congrFun (parser_last_assoc a b c), write_last_assoc a b c⟩
  | capture key _ ih => exact alike_capture key ih
  | query key _ ih => exact alike_query key ih
  | both _ _ ih ih' => exact alike_both ih ih'
  | last _ _ ih ih' => exact alike_last ih ih'

/-! ## Chains -/

/-- A sequence that grew piece by piece is one nested to the right. -/
theorem regroups_chain {seq : Route → Route → Route}
    (hassoc : ∀ a b c, Regroups (seq (seq a b) c) (seq a (seq b c))) (first final : Route) (routes : List Route) :
    Regroups (seq (routes.foldl seq first) final) (seq first (routes.foldr seq final)) := by
  induction routes generalizing first with
  | nil => exact .refl _
  | cons route routes ih =>
    have hgrown := ih (seq first route)
    exact hgrown.trans (hassoc first route (routes.foldr seq final))

/-- Sequences regroup freely, those that merge values and those that keep the
last one: three routes in a row, and any number of them. -/
theorem sequences_regroup (a b c : Route) :
    Alike (both (both a b) c) (both a (both b c)) ∧ Alike (last (last a b) c) (last a (last b c)) ∧
      ∀ routes : List Route,
        Alike (both (routes.foldl both a) c) (both a (Definition.inSequence routes c)) ∧
        Alike (last (routes.foldl last a) c) (last a (routes.foldr last c)) := by
  refine ⟨alike_of_regroups (.bothAssoc a b c), alike_of_regroups (.lastAssoc a b c), fun routes => ⟨?_, ?_⟩⟩
  · exact alike_of_regroups (regroups_chain .bothAssoc a c routes)
  · exact alike_of_regroups (regroups_chain .lastAssoc a c routes)

end UrlRoutes.Route
