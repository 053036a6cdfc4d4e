import UrlRoutes.Proofs.Reading
/-!
# The text a parser has read

The text is cut out of the source between two offsets when the parser is
done, and a cut that is no slice gives the empty text. Since a success only
steps over the characters that came next, the cut is those characters, also
when alternatives were tried in between or a query parameter was read from
its own source. What two parsers in sequence have read is what the first and
then the second has read, and what is left follows it.

Results:
* `yields_consumed_iff`: what was read is the text in front of what is left.
* `yields_consumed_join_iff`: a sequence reads what its parts read.
* `consumed_join`: so it is for any two parsers of combinators and routes.
-/
namespace UrlRoutes

namespace State
variable {κ : Type}

theorem Steps.remaining_eq {s s' : State κ} {cs : List Char} (h : s.Steps cs s') :
    s.remaining = String.ofList cs ++ s'.remaining := by
  rw [remaining, remaining, h.rest_eq, String.ofList_append]

end State

namespace Parser
variable {κ χ α β γ : Type}

theorem yields_consumed {p : Parser κ χ α} {s s' : State κ} {t : String} :
    (consumed p).Yields s t s' ↔ (∃ a, p.Yields s a s') ∧ t = s.sliceTo s' := by
  unfold Yields consumed mapConsumed
  cases p s with
  | bad => simp
  | good g a m =>
    constructor
    · rintro ⟨g', h⟩
      cases h
      exact ⟨⟨a, g, rfl⟩, rfl⟩
    · rintro ⟨⟨a', g', h⟩, rfl⟩
      cases h
      exact ⟨g, rfl⟩

theorem remaining_eq_sliceTo {p : Parser κ χ α} (hp : Walks p) {s s' : State κ} {a : α} (h : p.Yields s a s') :
    s.remaining = s.sliceTo s' ++ s'.remaining := by
  obtain ⟨g, h⟩ := h
  obtain ⟨cs, hsteps, -⟩ := hp s g a s' h
  rw [hsteps.sliceTo_eq, hsteps.remaining_eq]

/-- What was read is the text in front of what is left. -/
theorem yields_consumed_iff {p : Parser κ χ α} (hp : Walks p) {s s' : State κ} {t : String} :
    (consumed p).Yields s t s' ↔ (∃ a, p.Yields s a s') ∧ s.remaining = t ++ s'.remaining := by
  rw [yields_consumed]
  refine and_congr_right fun ⟨a, ha⟩ => ?_
  rw [remaining_eq_sliceTo hp ha, String.append_left_inj, eq_comm]

/-- A sequence reads what its parts read, one after the other. -/
theorem yields_consumed_join_iff {p : Parser κ χ α} {q : Parser κ χ β} (hp : Walks p) (hq : Walks q)
    (f : α → β → γ) {s s' : State κ} {t : String} :
    (consumed (join f p q)).Yields s t s' ↔
      ∃ m tp tq, (consumed p).Yields s tp m ∧ (consumed q).Yields m tq s' ∧ t = tp ++ tq := by
  rw [yields_consumed_iff (walks_join hp hq f)]
  constructor
  · rintro ⟨⟨c, hc⟩, ht⟩
    obtain ⟨a, m, b, ha, hb, -⟩ := yields_join_iff.mp hc
    refine ⟨m, s.sliceTo m, m.sliceTo s', yields_consumed.mpr ⟨⟨a, ha⟩, rfl⟩,
      yields_consumed.mpr ⟨⟨b, hb⟩, rfl⟩, ?_⟩
    rw [remaining_eq_sliceTo hp ha, remaining_eq_sliceTo hq hb, ← String.append_assoc,
      String.append_left_inj] at ht
    exact ht.symm
  · rintro ⟨m, tp, tq, htp, htq, rfl⟩
    obtain ⟨⟨a, ha⟩, hs⟩ := (yields_consumed_iff hp).mp htp
    obtain ⟨⟨b, hb⟩, hm⟩ := (yields_consumed_iff hq).mp htq
    exact ⟨⟨_, yields_join_iff.mpr ⟨a, m, b, ha, hb, rfl⟩⟩, by rw [hs, hm, String.append_assoc]⟩

/-- From whatever state, a sequence has a text when the first parser succeeds
and the second does where the first stopped. It is the text of the first and
then that of the second, and what is left stands behind it. -/
theorem consumed_join {p : Parser κ χ α} {q : Parser κ χ β} (hp : Built IsRoute p) (hq : Built IsRoute q)
    (f : α → β → γ) (s : State κ) :
    ((∃ t s', (consumed (join f p q)).Yields s t s') ↔ ∃ a m b s', p.Yields s a m ∧ q.Yields m b s') ∧
    ∀ t s', (consumed (join f p q)).Yields s t s' ↔
      ∃ m tp tq, (consumed p).Yields s tp m ∧ (consumed q).Yields m tq s' ∧ t = tp ++ tq ∧
        s.remaining = t ++ s'.remaining := by
  have hwp := walks_builtWithRoutes hp
  have hwq := walks_builtWithRoutes hq
  constructor
  · constructor
    · rintro ⟨t, s', h⟩
      obtain ⟨⟨c, hc⟩, -⟩ := yields_consumed.mp h
      obtain ⟨a, m, b, ha, hb, -⟩ := yields_join_iff.mp hc
      exact ⟨a, m, b, s', ha, hb⟩
    · rintro ⟨a, m, b, s', ha, hb⟩
      exact ⟨_, s', yields_consumed.mpr ⟨⟨_, yields_join_iff.mpr ⟨a, m, b, ha, hb, rfl⟩⟩, rfl⟩⟩
  · intro t s'
    constructor
    · intro h
      obtain ⟨m, tp, tq, htp, htq, ht⟩ := (yields_consumed_join_iff hwp hwq f).mp h
      exact ⟨m, tp, tq, htp, htq, ht, ((yields_consumed_iff (walks_join hwp hwq f)).mp h).2⟩
    · rintro ⟨m, tp, tq, htp, htq, ht, -⟩
      exact (yields_consumed_join_iff hwp hwq f).mpr ⟨m, tp, tq, htp, htq, ht⟩

/-- An alternative gives up behind the first letter, and a query parameter is
read between two parts of the path. -/
theorem consumed_join_around_query :
    let p : Parser Label Problem Unit :=
      either (keepRight (token "a" .expectingEnd) (token "x" .expectingEnd)) (skipUntil "/" .expectingEnd)
    let q : Parser Label Problem Unit := keepRight (Route.query "k" .int).parser (token "/" .expectingEnd)
    let s : State Label := { source := "aé/7", params := .ofList [("k", "42")] }
    Built IsRoute p ∧ Built IsRoute q ∧
      (consumed p).Yields s "aé" (s.advance ⟨3, 1, 3⟩) ∧
      (consumed q).Yields (s.advance ⟨3, 1, 3⟩) "/" (s.advance ⟨4, 1, 4⟩) ∧
      (consumed (join (fun _ _ => ()) p q)).Yields s "aé/" (s.advance ⟨4, 1, 4⟩) ∧
      s.remaining = "aé/" ++ "7" := by
  have hp : Built IsRoute (either (keepRight (token "a" Problem.expectingEnd) (token "x" .expectingEnd))
      (skipUntil "/" .expectingEnd) : Parser Label Problem Unit) :=
    built_either (built_keepRight (.token _ _) (.token _ _)) (.skipUntil _ _)
  have hq : Built IsRoute (keepRight (Route.query "k" .int).parser (token "/" .expectingEnd)) :=
    built_keepRight (.leaf (.parser _)) (.token _ _)
  have hfirst : (consumed (either (keepRight (token "a" Problem.expectingEnd) (token "x" .expectingEnd))
      (skipUntil "/" .expectingEnd))).Yields
        ({ source := "aé/7", params := .ofList [("k", "42")] } : State Label) "aé"
        { source := "aé/7", params := .ofList [("k", "42")], position := ⟨3, 1, 3⟩ } := ⟨true, by rfl⟩
  have hsecond : (consumed (keepRight (Route.query "k" .int).parser (token "/" .expectingEnd))).Yields
      { source := "aé/7", params := .ofList [("k", "42")], position := ⟨3, 1, 3⟩ } "/"
      { source := "aé/7", params := .ofList [("k", "42")], position := ⟨4, 1, 4⟩ } := ⟨true, by rfl⟩
  refine ⟨hp, hq, hfirst, hsecond, ?_, by rfl⟩
  exact ((consumed_join hp hq (fun _ _ => ()) _).2 _ _).mpr ⟨_, _, _, hfirst, hsecond, by rfl, by rfl⟩

end Parser
end UrlRoutes
