import UrlRoutes.Proofs.Captures
/-!
# A slash at the end

A definition may let one slash be left at the end of the path. The slash is
then behind everything the path reads, and nothing in the path looks as far:
a search that stopped in front of the slash stops at the same place when the
text ends there, an option that was read is still the first one, and no
number goes on with a slash.

Results:
* `Spells.drop_slash`: a path spells the same without the slash behind it.
* `runOn_withSlash`: allowing the slash lets in the texts of the strict route,
  and those texts with a slash behind them, with the values they had.
-/
namespace UrlRoutes.Definition
open Number

/-- The same definition, with a slash at the end allowed or not. -/
def withSlash (d : Definition) (allowed : Bool) : Definition :=
  { d with options := { d.options with trailingSlash := allowed } }

/-! ## Captures in front of the slash -/

theorem toList_in_front_of_slash (t r : String) :
    (t ++ (r ++ "/")).toList = t.toList ++ (r.toList ++ ['/']) := by
  simp [String.toList_append]

theorem consumes_number_of_slash {policy : NumberPolicy Problem Value} {style : NumberStyle} {t r : String}
    {a : Value} (h : (Route.number policy style).Consumes t (r ++ "/") a) :
    (Route.number policy style).Consumes t r a := by
  intro c
  obtain ⟨l, hscan, hacc⟩ := h c
  rw [toList_in_front_of_slash, ← List.append_assoc, ← String.toList_append,
    scan_append_foreign isForeign_slash] at hscan
  exact ⟨l, hscan, hacc⟩

/-- An option that was read comes first without the slash, too. -/
theorem consumes_choice_of_slash {options : List String} {t r : String} {a : Value}
    (h : (Route.choice options).Consumes t (r ++ "/") a) : (Route.choice options).Consumes t r a := by
  intro c
  obtain ⟨hfind, hv⟩ := h c
  refine ⟨?_, hv⟩
  obtain ⟨-, before, after, hoptions, hearlier⟩ := List.find?_eq_some_iff_append.mp hfind
  refine List.find?_eq_some_iff_append.mpr ⟨?_, before, after, hoptions, fun option ho => ?_⟩
  · rw [List.isPrefixOf_iff_prefix, String.toList_append]
    exact List.prefix_append _ _
  · have hno := hearlier option ho
    rw [Bool.not_eq_true', ← Bool.not_eq_true] at hno ⊢
    intro hpre
    refine hno ?_
    rw [← String.append_assoc, String.toList_append]
    exact isPrefixOf_append hpre _

theorem consumes_upTo_of_slash {delimiter t r : String} {a : Value}
    (h : (Route.upTo delimiter).Consumes t (r ++ "/") a) (hr : delimiter.toList <+: r.toList) :
    (Route.upTo delimiter).Consumes t r a := by
  intro c
  obtain ⟨hne, hcut, hv⟩ := h c
  rw [toList_in_front_of_slash, String.toList_append] at hcut
  refine ⟨hne, ?_, hv⟩
  rw [String.toList_append]
  refine Text.cutWhere_of_append (fun _ hpre => isPrefixOf_append hpre _) ?_ hcut
  exact List.isPrefixOf_iff_prefix.mpr hr

theorem consumes_before_of_slash {b : Boundary} {t r : String} {a : Value}
    (h : (Route.before b).Consumes t (r ++ "/") a)
    (hr : b.startsAt (r ++ "/").toList = true → b.startsAt r.toList = true) :
    (Route.before b).Consumes t r a := by
  intro c
  obtain ⟨hne, hcut, hv⟩ := h c
  have hstart := hr (Boundary.cut?_startsAt hcut)
  rw [toList_in_front_of_slash, String.toList_append] at hcut
  refine ⟨hne, ?_, hv⟩
  rw [String.toList_append]
  exact cut?_of_append hstart hcut

theorem eq_choice_of_boundary? {m : Matcher} {options : List String}
    (h : m.boundary? = some (.anyOf options)) : m = .choice options := by
  cases m with
  | choice => cases h; rfl
  | text | rest | int | float => cases h

/-- Where a capture starts in front of the slash, it starts without it. -/
theorem startsAt_of_slash {m : Matcher} {b : Boundary} (hb : m.boundary? = some b) {rest : List Segment}
    {t r : String} {a : Value} (ht : (captureRoute m rest).Consumes t (r ++ "/") a)
    (hstart : b.startsAt (t ++ r ++ "/").toList = true) : b.startsAt (t ++ r).toList = true := by
  rw [String.toList_append] at hstart
  cases b with
  | digit =>
    cases hcs : (t ++ r).toList with
    | nil => rw [hcs] at hstart; exact absurd hstart (by decide)
    | cons c cs => rw [hcs] at hstart; exact hstart
  | anyOf options =>
    rw [eq_choice_of_boundary? hb] at ht
    have hmem := List.mem_of_find?_eq_some (ht ⟨true, none, .empty⟩).1
    refine List.any_eq_true.mpr ⟨t, hmem, ?_⟩
    rw [List.isPrefixOf_iff_prefix, String.toList_append]
    exact List.prefix_append _ _

/-- A capture in front of the slash does not need it, if what follows the
capture stands there without it. -/
theorem consumes_of_slash {m : Matcher} {rest : List Segment} {t r : String} {a : Value}
    (h : (captureRoute m rest).Consumes t (r ++ "/") a)
    (hliteral : ∀ delimiter tail, rest = .literal delimiter :: tail → delimiter.toList <+: r.toList)
    (hparam : ∀ q tail b, rest = .param q :: tail → q.matcher.boundary? = some b →
      b.startsAt (r ++ "/").toList = true → b.startsAt r.toList = true) :
    (captureRoute m rest).Consumes t r a := by
  -- what takes the rest would have taken the slash
  have hrest : ∀ allowEmpty, ¬(Route.rest allowEmpty).Consumes t (r ++ "/") a := fun _ hc =>
    absurd (hc ⟨true, none, .empty⟩).1 (by simp)
  unfold captureRoute at h ⊢
  split at h
  · next delimiter tail => exact consumes_upTo_of_slash h (hliteral delimiter tail rfl)
  · next q tail =>
    split at h
    · next b hb => exact consumes_before_of_slash h (hparam q tail b rfl hb)
    · exact absurd h (hrest false)
  · cases m with
    | text => exact absurd h (hrest false)
    | rest allowEmpty => exact absurd h (hrest allowEmpty)
    | int => exact consumes_number_of_slash h
    | float => exact consumes_number_of_slash h
    | choice options => exact consumes_choice_of_slash h

/-! ## Paths in front of the slash -/

/-- Nothing in a path looks as far as the slash behind it. -/
theorem Spells.drop_slash {path : List Segment} {x : String} {fields : List (String × Value)}
    (h : Spells Route.Consumes "/" path x fields) : Spells Route.Consumes "" path x fields := by
  induction path generalizing x fields with
  | nil => exact h
  | cons segment rest ih =>
    cases segment with
    | literal text =>
      obtain ⟨y, rfl, hy⟩ := h
      exact ⟨y, rfl, ih hy⟩
    | param p =>
      obtain ⟨t, y, a, fs, rfl, rfl, ht, hy⟩ := h
      refine ⟨t, y, a, fs, rfl, rfl, ?_, ih hy⟩
      rw [String.append_empty]
      refine consumes_of_slash ht ?_ ?_
      · intro delimiter tail hnext
        subst hnext
        obtain ⟨z, rfl, -⟩ := hy
        rw [String.toList_append]
        exact List.prefix_append _ _
      · intro q tail b hnext hb hstart
        subst hnext
        obtain ⟨t', y', a', fs', rfl, -, ht', -⟩ := hy
        exact startsAt_of_slash hb ht' hstart

/-- Allowing a slash at the end of a definition only adds it: what the strict
route reads is read as before, and what is read beside that is read by the
strict route, as the same value, once the slash is taken away. -/
theorem runOn_withSlash {d : Definition} {route : Route} (hc : d.compile = .ok route) :
    ∃ lenient strict, (d.withSlash true).compile = .ok lenient ∧ (d.withSlash false).compile = .ok strict ∧
      ∀ pathname method params v,
        (strict.runOn { source := pathname, method := method, params := params } = .ok v →
          lenient.runOn { source := pathname, method := method, params := params } = .ok v) ∧
        (lenient.runOn { source := pathname, method := method, params := params } = .ok v →
          strict.runOn { source := pathname, method := method, params := params } = .ok v ∨
          ∃ shorter, pathname = shorter ++ "/" ∧
            strict.runOn { source := shorter, method := method, params := params } = .ok v) := by
  obtain ⟨hcheck, m, hm, hkeys, hends, -⟩ := compile_eq_ok_iff.mp hc
  have hcompile : ∀ allowed, (d.withSlash allowed).compile = .ok (assemble m (outline d.segments).path
      (outline d.segments).query (d.withSlash allowed).options) :=
    fun _ => compile_eq_ok_iff.mpr ⟨hcheck, m, hm, hkeys, hends, rfl⟩
  refine ⟨_, _, hcompile true, hcompile false, fun pathname method params v => ⟨?_, ?_⟩⟩
  · intro hstrict
    obtain ⟨hguard, x, tail, pfields, raws, qfields, hx, htail, hrest⟩ := (runOn_assemble_iff rfl).mp hstrict
    have hnone : tail = "" := htail.resolve_right fun h => Bool.false_ne_true h.1
    exact (runOn_assemble_iff rfl).mpr ⟨hguard, x, tail, pfields, raws, qfields, hx, .inl hnone, hrest⟩
  · intro hlenient
    obtain ⟨hguard, x, tail, pfields, raws, qfields, rfl, htail, hpath, hrest⟩ :=
      (runOn_assemble_iff rfl).mp hlenient
    rcases htail with rfl | ⟨-, rfl⟩
    · left
      exact (runOn_assemble_iff rfl).mpr ⟨hguard, x, "", pfields, raws, qfields, rfl, .inl rfl, hpath, hrest⟩
    · right
      exact ⟨x, rfl, (runOn_assemble_iff rfl).mpr
        ⟨hguard, x, "", pfields, raws, qfields, String.append_empty.symm, .inl rfl, hpath.drop_slash, hrest⟩⟩

/-- Behind an integer, with a text that stops at the second of two options. -/
theorem runOn_withSlash_behind_integer :
    let d : Definition :=
      { segments := [.literal "/", .param ⟨"name", .text, false⟩,
          .param ⟨"kind", .choice ["-ab", "-a"], false⟩, .literal "/", .param ⟨"id", .int, false⟩] }
    let read : Value := .ofFields [("name", .text "x"), ("kind", .text "-a"), ("id", .int 7)]
    ∃ route lenient strict, d.compile = .ok route ∧ (d.withSlash true).compile = .ok lenient ∧
      (d.withSlash false).compile = .ok strict ∧ lenient.runOn { source := "/x-a/7/" } = .ok read ∧
      strict.runOn { source := "/x-a/7/" } ≠ .ok read ∧ strict.runOn { source := "/x-a/7" } = .ok read := by
  intro d read
  let path : List Segment := [.literal "/", .param ⟨"name", .text, false⟩,
    .param ⟨"kind", .choice ["-ab", "-a"], false⟩, .literal "/", .param ⟨"id", .int, false⟩]
  have hc : d.compile = .ok (assemble none path [] {}) := rfl
  have hnone : (d.withSlash false).compile = .ok (assemble none path [] { trailingSlash := false }) := rfl
  obtain ⟨lenient, strict, hlenient, hstrict, hreads⟩ := runOn_withSlash hc
  have heq : lenient = assemble none path [] {} := Except.ok.inj (hlenient.symm.trans hc)
  have heq' : strict = assemble none path [] { trailingSlash := false } :=
    Except.ok.inj (hstrict.symm.trans hnone)
  have hspelled : Spells Route.Consumes "/" path "/x-a/7"
      [("name", .text "x"), ("kind", .text "-a"), ("id", .int 7)] :=
    ⟨"x-a/7", rfl, "x", "-a/7", .text "x", _, rfl, rfl, fun _ => ⟨by decide, rfl, rfl⟩,
      "-a", "/7", .text "-a", _, rfl, rfl, fun _ => ⟨rfl, rfl⟩,
      "7", rfl, "7", "", .int 7, [], rfl, rfl, fun _ => ⟨.int 7, rfl, rfl⟩, rfl, rfl⟩
  have hread : lenient.runOn { source := "/x-a/7/" } = .ok read := by
    rw [heq]
    exact (runOn_assemble_iff rfl).mpr ⟨by simp, "/x-a/7", "/", _, [], [], rfl, .inr ⟨rfl, rfl⟩, hspelled,
      ⟨rfl, rfl⟩, by simp, rfl⟩
  have hrefused : strict.runOn { source := "/x-a/7/" } ≠ .ok read := by
    have hnothing : ((assemble none path [] { trailingSlash := false }).runOn
        { source := "/x-a/7/" }).toOption = none := by decide +kernel
    rw [heq']
    intro h
    rw [h] at hnothing
    cases hnothing
  obtain ⟨shorter, hs, hshorter⟩ := ((hreads "/x-a/7/" none .empty read).2 hread).resolve_left hrefused
  have hbefore : "/x-a/7" ++ "/" = shorter ++ "/" := hs
  rw [String.append_left_inj] at hbefore
  rw [← hbefore] at hshorter
  exact ⟨_, lenient, strict, hc, hlenient, hstrict, hread, hrefused, hshorter⟩

end UrlRoutes.Definition
