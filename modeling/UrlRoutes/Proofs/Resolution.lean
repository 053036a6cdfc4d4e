import UrlRoutes.Proofs.Failures
import UrlRoutes.Table
/-!
# The first match

A table answers with the first of its routes that matches. When none does, its
mismatch has one dead end for each route, in the order of the table, since a
route that fails has only one. The table's own loop and the choice among the
parsers of the routes come to the same.

Results:
* `runOn_eq_error`: a route that does not match has one dead end.
* `resolveFrom_eq_ok_iff`, `resolveFrom_eq_error`, `resolveFrom_eq_oneOf`:
  the loop over the entries.
* `resolve_first_match`: the same about requests.
-/
namespace UrlRoutes

namespace Route

theorem runOn_eq_error {route : Route} {s : State Label} {m : Mismatch} (h : route.runOn s = .error m) :
    ∃ d, m = ⟨[d]⟩ := by
  unfold runOn at h
  split at h
  · cases h
  · next g ds hbad =>
    cases h
    obtain ⟨d, rfl, -⟩ := failsOnce_route route s g ds hbad
    exact ⟨d, rfl⟩

/-- The outcome of a route is that of its parser, less the state it ends in. -/
theorem runOn_eq_toExcept (route : Route) (s : State Label) :
    route.runOn s = ((route.parser s).toExcept.map Prod.fst).mapError Mismatch.mk := by
  unfold runOn
  cases route.parser s <;> rfl

end Route

namespace Table
open UrlRoutes.Parser
variable {η : Type}

/-- The loop returns an entry exactly when its route is the first that matches. -/
theorem resolveFrom_eq_ok_iff {problems : List (DeadEnd Label Problem)} {s : State Label}
    {entries : List (Route × η)} {handler : η} {value : Value} :
    resolveFrom problems s entries = .ok (handler, value) ↔
      ∃ before route after, entries = before ++ (route, handler) :: after ∧
        route.runOn s = .ok value ∧ ∀ e ∈ before, ∃ m, e.1.runOn s = .error m := by
  induction entries generalizing problems with
  | nil => simp [resolveFrom]
  | cons entry rest ih =>
    obtain ⟨first, h1⟩ := entry
    rw [resolveFrom]
    cases hrun : first.runOn s with
    | ok v1 =>
      simp only [Except.ok.injEq, Prod.mk.injEq]
      constructor
      · rintro ⟨rfl, rfl⟩
        exact ⟨[], first, rest, rfl, hrun, by simp⟩
      · rintro ⟨before, route, after, he, hroute, hbefore⟩
        -- an entry in front of the match would have failed
        cases before with
        | nil =>
          cases he
          rw [hrun] at hroute
          cases hroute
          exact ⟨rfl, rfl⟩
        | cons e before =>
          cases he
          obtain ⟨m, hm⟩ := hbefore _ List.mem_cons_self
          rw [hrun] at hm
          cases hm
    | error mismatch =>
      simp only
      rw [ih]
      constructor
      · rintro ⟨before, route, after, rfl, hroute, hbefore⟩
        exact ⟨(first, h1) :: before, route, after, rfl, hroute,
          List.forall_mem_cons.mpr ⟨⟨mismatch, hrun⟩, hbefore⟩⟩
      · rintro ⟨before, route, after, he, hroute, hbefore⟩
        cases before with
        | nil =>
          cases he
          rw [hrun] at hroute
          cases hroute
        | cons e before =>
          cases he
          exact ⟨before, route, after, rfl, hroute, (List.forall_mem_cons.mp hbefore).2⟩

/-- The loop fails with one dead end for each entry, behind those met before. -/
theorem resolveFrom_eq_error {problems : List (DeadEnd Label Problem)} {s : State Label}
    {entries : List (Route × η)} {m : Mismatch} (h : resolveFrom problems s entries = .error m) :
    ∃ ds, m = ⟨problems ++ ds⟩ ∧
      entries.map (fun e => e.1.runOn s) = ds.map fun d => .error ⟨[d]⟩ := by
  induction entries generalizing problems with
  | nil =>
    cases h
    exact ⟨[], by rw [List.append_nil], rfl⟩
  | cons entry rest ih =>
    obtain ⟨first, h1⟩ := entry
    rw [resolveFrom] at h
    cases hrun : first.runOn s with
    | ok v1 => rw [hrun] at h; cases h
    | error mismatch =>
      rw [hrun] at h
      obtain ⟨d, rfl⟩ := Route.runOn_eq_error hrun
      obtain ⟨ds, rfl, hrest⟩ := ih h
      refine ⟨d :: ds, by rw [List.append_assoc]; rfl, ?_⟩
      rw [List.map_cons, List.map_cons, hrest, hrun]

/-- The loop over the entries is the choice among their parsers, with the
dead ends met before in front. -/
theorem resolveFrom_eq_oneOf (problems : List (DeadEnd Label Problem)) (s : State Label)
    (entries : List (Route × η)) :
    (resolveFrom problems s entries).map Prod.snd =
      ((oneOf (entries.map fun e => e.1.parser) s).toExcept.map Prod.fst).mapError
        fun ds => ⟨problems ++ ds⟩ := by
  induction entries generalizing problems with
  | nil => simp [resolveFrom, oneOf, Result.toExcept, Except.map, Except.mapError]
  | cons entry rest ih =>
    obtain ⟨first, h1⟩ := entry
    rw [resolveFrom, Route.runOn_eq_toExcept, List.map_cons]
    unfold oneOf
    cases first.parser s with
    | good g value next => rfl
    | bad g ds =>
      refine (ih (problems ++ ds)).trans ?_
      simp only
      cases oneOf (rest.map fun e => e.1.parser) s with
      | good g' value next => rfl
      | bad g' more => simp [Result.toExcept, Except.map, Except.mapError]

/-- The first route that matches wins; when none does, every route has its one
dead end, in order; and either way the answer is that of the choice among the
parsers of the routes. -/
theorem resolve_first_match (t : Table η) (request : Request) :
    (∀ handler value, t.resolve request = .ok (handler, value) ↔
      ∃ before route after, t.entries = before ++ (route, handler) :: after ∧
        route.parse request = .ok value ∧ ∀ e ∈ before, ∃ m, e.1.parse request = .error m) ∧
    ((∀ e ∈ t.entries, ∀ value, e.1.parse request ≠ .ok value) ↔
      ∃ ds, t.resolve request = .error ⟨ds⟩ ∧
        t.entries.map (fun e => e.1.parse request) = ds.map fun d => .error ⟨[d]⟩) ∧
    (t.resolve request).map Prod.snd =
      ((oneOf (t.entries.map fun e => e.1.parser) request.state).toExcept.map Prod.fst).mapError
        Mismatch.mk := by
  refine ⟨fun handler value => resolveFrom_eq_ok_iff, ⟨fun hnone => ?_, fun herror => ?_⟩,
    resolveFrom_eq_oneOf [] request.state t.entries⟩
  · cases hr : t.resolve request with
    | ok found =>
      obtain ⟨before, route, after, he, hroute, -⟩ := resolveFrom_eq_ok_iff.mp hr
      exact absurd hroute (hnone (route, found.1) (by rw [he]; simp) found.2)
    | error m =>
      obtain ⟨ds, rfl, hds⟩ := resolveFrom_eq_error hr
      exact ⟨ds, rfl, hds⟩
  · obtain ⟨ds, -, hds⟩ := herror
    intro e he value hvalue
    have hmem : e.1.parse request ∈ t.entries.map fun e => e.1.parse request :=
      List.mem_map_of_mem he
    rw [hds, List.mem_map] at hmem
    obtain ⟨d, -, hd⟩ := hmem
    rw [hvalue] at hd
    cases hd

end Table
end UrlRoutes
