import UrlRoutes.Proofs.Captures
import UrlRoutes.Proofs.QueryCodec
/-!
# From a request to a value and back

What a compiled route has read, it writes: every capture could have written
what it has read, in front of what the captures behind it have written. Only
a slash at the end, which a definition may allow, does not come back.

Results:
* `spells_produces`: what a path has read, it writes.
* `format_of_parse`: a value that was read is written as the request it was
  read from.
-/
namespace UrlRoutes.Definition

/-- The slash behind a path that was read is not needed to write it. -/
theorem spells_produces {tail : String} {path : List Segment} (hends : checkEnds path = .ok ())
    (hfloat : ∀ p ∈ params path, p.matcher ≠ .float) {x : String} {fields : List (String × Value)}
    (h : Spells Route.Consumes tail path x fields) : Spells Route.Produces "" path x fields := by
  induction path generalizing x fields with
  | nil => exact h
  | cons segment rest ih =>
    cases segment with
    | literal text =>
      obtain ⟨y, rfl, hy⟩ := h
      exact ⟨y, rfl, ih hends hfloat hy⟩
    | param p =>
      obtain ⟨t, y, a, fs, rfl, rfl, ht, hy⟩ := h
      obtain ⟨hp, hrest⟩ := List.forall_mem_cons.mp hfloat
      obtain ⟨-, -, hendsRest⟩ := checkEnds_param_iff.mp hends
      refine ⟨t, y, a, fs, rfl, rfl, ?_, ih hendsRest hrest hy⟩
      rw [String.append_empty]
      refine (captures_of_checkEnds hends hp).produces_of_consumes ht ?_
      -- a text before a bounded capture ends where that capture has read on
      rintro q rest' b rfl hb
      obtain ⟨t', y', a', fs', rfl, -, ht', -⟩ := hy
      rw [String.toList_append]
      exact (captures_of_checkEnds hendsRest (hrest q List.mem_cons_self)).startsAt_of_consumes hb ht' _

theorem querySpells_produces {query : List Param} (hfloat : ∀ p ∈ query, p.matcher ≠ .float)
    {raws : List (String × String)} {fields : List (String × Value)}
    (h : QuerySpells Route.Consumes query raws fields) : QuerySpells Route.Produces query raws fields := by
  induction query generalizing raws fields with
  | nil => exact h
  | cons p query ih =>
    obtain ⟨raw, a, rs, fs, rfl, rfl, hraw, hq⟩ := h
    obtain ⟨hp, hrest⟩ := List.forall_mem_cons.mp hfloat
    refine ⟨raw, a, rs, fs, rfl, rfl, ?_, ih hrest hq⟩
    rw [← String.append_empty (s := "")] at hraw
    refine (captures_nil hp).produces_of_consumes hraw ?_
    intro q rest' b he
    cases he

theorem holds_read {path : List Segment} {query : List Param} (h : Proper path query) {tail x : String}
    {raws : List (String × String)} {pfields qfields : List (String × Value)}
    {cap : Route → String → String → Value → Prop} (hpath : Spells cap tail path x pfields)
    (hquery : QuerySpells cap query raws qfields) :
    (Value.ofFields (pfields ++ qfields)).Holds (pfields ++ qfields) :=
  holds_of_spells h.nodup hpath hquery

/-- Raw values that were written are read as they are. -/
theorem read_raws {codec : Codec} (hcodec : codec.Lawful) {path : List Segment} {query : List Param}
    (h : Proper path query) {raws : List (String × String)} (hraws : raws.map Prod.fst = query.map Param.key) :
    codec.read (codec.writeSearch raws) = .ofList raws := by
  refine Codec.read_writeSearch hcodec fun e he => ?_
  have hm : e.1 ∈ query.map Param.key := hraws ▸ List.mem_map.mpr ⟨e, he, rfl⟩
  obtain ⟨p, hp, hpe⟩ := List.mem_map.mp hm
  rw [← hpe]
  exact h.named p hp

/-- Writing what was read gives the request back: its path, but for a slash
the options allow at the end, the method of the guard, and the raw values of
the query parameters the route looks at. -/
theorem format_of_parse {codec : Codec} (hcodec : codec.Lawful) {d : Definition} {route : Route}
    (hc : d.compile = .ok route) (hf : d.FloatFree) {s s' : State Label} (hs : s.position = .start) {g : Bool}
    {v : Value} (hp : route.parser s = .good g v s') :
    ∃ u, route.formatWith codec v = .ok u ∧
      (s.source = u.pathname ∨ d.options.trailingSlash = true ∧ s.source = u.pathname ++ "/") ∧
      u.method = route.guardMethod? ∧
      agreedMethod (outline d.segments).declared d.options = .ok u.method ∧
      (∀ key ∈ d.queryKeys, (s.params.get? key).isSome = true) ∧
      codec.read u.search = s.params.restrict d.queryKeys := by
  obtain ⟨hproper, m, hm, rfl⟩ := proper_of_compile hc hf
  have hfresh : s.setting.fresh = true := by
    rw [State.setting, State.offset, hs]
    rfl
  obtain ⟨t, r, hsource, ht, -⟩ := (Route.reads_route _ s s.source (State.at_start hs) v s').mp ⟨g, hp⟩
  obtain ⟨-, x, tail, pfields, raws, qfields, rfl, rfl, htail, hpath, hquery, hparams, rfl⟩ :=
    (takes_assemble_iff hfresh).mp ht
  have hkeys : raws.map Prod.fst = d.queryKeys := hquery.keys.2
  refine ⟨⟨x, codec.writeSearch raws, "", _⟩, Route.formatWith_eq_ok_iff.mpr ⟨raws, ?_, rfl, rfl, rfl⟩,
    ?_, rfl, ?_, ?_, ?_⟩
  -- each key stands once, so the record holds every field it was made of
  · exact puts_assemble_iff.mpr ⟨pfields, qfields, spells_produces hproper.ends hproper.pathFloat hpath,
      querySpells_produces hproper.queryFloat hquery, holds_read hproper hpath hquery⟩
  · rw [hsource, String.append_empty]
    rcases htail with rfl | ⟨hslash, rfl⟩
    · exact .inl String.append_empty
    · exact .inr ⟨hslash, rfl⟩
  · rw [guardMethod?_assemble, raised_of_agreedMethod hm]
    exact hm
  · intro key hk
    rw [← hkeys] at hk
    obtain ⟨e, he, rfl⟩ := List.mem_map.mp hk
    have hget : s.params.get? e.1 = some e.2 := hparams e he
    rw [hget]
    rfl
  · rw [read_raws hcodec hproper hquery.keys.2, ← hkeys]
    exact (Dict.restrict_eq_ofList hparams).symm

/-- A text that ends at the first of two options, a slash behind an integer, and a coded parameter. -/
theorem format_of_parse_trailing_slash :
    let d : Definition :=
      { segments := [.literal "get /", .param ⟨"name", .text, false⟩,
          .param ⟨"kind", .choice ["-ab", "-a"], false⟩, .literal "/", .param ⟨"id", .int, false⟩,
          .param ⟨"q", .text, true⟩] }
    let s : State Label :=
      { source := "/x-ab/42/", method := some "Get", params := ⟨[("q", "a b&c"), ("z", "1")]⟩ }
    ∃ route g v s', d.compile = .ok route ∧ d.FloatFree ∧ s.position = .start ∧
      route.parser s = .good g v s' ∧ ∃ u, route.format v = .ok u ∧
        (s.source = u.pathname ∨ d.options.trailingSlash = true ∧ s.source = u.pathname ++ "/") ∧
        u.method = route.guardMethod? ∧
        agreedMethod (outline d.segments).declared d.options = .ok u.method ∧
        (∀ key ∈ d.queryKeys, (s.params.get? key).isSome = true) ∧
        Query.read u.search = s.params.restrict d.queryKeys := by
  have hc : Definition.compile
      { segments := [.literal "get /", .param ⟨"name", .text, false⟩,
          .param ⟨"kind", .choice ["-ab", "-a"], false⟩, .literal "/", .param ⟨"id", .int, false⟩,
          .param ⟨"q", .text, true⟩] } =
      .ok (assemble (some "GET") [.literal "/", .param ⟨"name", .text, false⟩,
        .param ⟨"kind", .choice ["-ab", "-a"], false⟩, .literal "/", .param ⟨"id", .int, false⟩]
        [⟨"q", .text, true⟩] {}) := by rfl
  have hpath : Spells Route.Consumes "/" [.literal "/", .param ⟨"name", .text, false⟩,
      .param ⟨"kind", .choice ["-ab", "-a"], false⟩, .literal "/", .param ⟨"id", .int, false⟩]
      "/x-ab/42" [("name", .text "x"), ("kind", .text "-ab"), ("id", .int 42)] :=
    ⟨"x-ab/42", rfl, "x", "-ab/42", .text "x", _, rfl, rfl, fun _ => ⟨by decide, rfl, rfl⟩,
      "-ab", "/42", .text "-ab", _, rfl, rfl, fun _ => ⟨rfl, rfl⟩,
      "42", rfl, "42", "", .int 42, [], rfl, rfl, fun _ => ⟨.int 42, rfl, rfl⟩, rfl, rfl⟩
  have hquery : QuerySpells Route.Consumes [⟨"q", .text, true⟩] [("q", "a b&c")] [("q", .text "a b&c")] :=
    ⟨"a b&c", .text "a b&c", [], [], rfl, rfl, fun _ => ⟨rfl, .inl (by decide), rfl⟩, rfl, rfl⟩
  have ht : (assemble (some "GET") [.literal "/", .param ⟨"name", .text, false⟩,
      .param ⟨"kind", .choice ["-ab", "-a"], false⟩, .literal "/", .param ⟨"id", .int, false⟩]
      [⟨"q", .text, true⟩] {}).Takes ⟨true, some "Get", ⟨[("q", "a b&c"), ("z", "1")]⟩⟩ "/x-ab/42/" "" _ :=
    (takes_assemble_iff rfl).mpr ⟨by simp; rfl, "/x-ab/42", "/", _, _, _, rfl, rfl, .inr ⟨rfl, rfl⟩, hpath,
      hquery, by simp; rfl, rfl⟩
  obtain ⟨g, hp⟩ := (Route.reads_route _
    { source := "/x-ab/42/", method := some "Get", params := ⟨[("q", "a b&c"), ("z", "1")]⟩ } _
    (State.at_start rfl) _ _).mpr ⟨_, _, rfl, ht, rfl⟩
  have hf : Definition.FloatFree
      { segments := [.literal "get /", .param ⟨"name", .text, false⟩,
          .param ⟨"kind", .choice ["-ab", "-a"], false⟩, .literal "/", .param ⟨"id", .int, false⟩,
          .param ⟨"q", .text, true⟩] } := by
    unfold FloatFree
    decide
  exact ⟨_, _, _, _, hc, hf, rfl, hp, format_of_parse Codec.percent_lawful hc hf rfl hp⟩

end UrlRoutes.Definition
