import UrlRoutes.Proofs.RoundTrip
/-!
# From a value to a request and back

What a compiled route has written is read back as it was meant exactly when
every capture on its own is: the text written for it, in front of the text
written behind it, ends where it should. A text in front of a bounded capture
and a capture of the rest are written so that they always are.

Results:
* `spells_consumes_iff`: when a written path is read back.
* `parse_of_format_iff`: when a written request is read back.
-/
namespace UrlRoutes.Definition

/-- The text written for a path. -/
def pathText (v : Value) : List Segment → String
  | [] => ""
  | .literal text :: rest => text ++ pathText v rest
  | .param p :: rest => (v.fieldAt p.key).render ++ pathText v rest

/-- The raw values written for query parameters. -/
def queryText (v : Value) (query : List Param) : List (String × String) :=
  query.map fun p => (p.key, (v.fieldAt p.key).render)

/-- Every capture of a path is read back in front of what is written behind it. -/
def PathReadsBack (v : Value) : List Segment → Prop
  | [] => True
  | .literal _ :: rest => PathReadsBack v rest
  | .param p :: rest =>
    ReadsBack p.matcher rest (v.fieldAt p.key) (pathText v rest) ∧ PathReadsBack v rest

/-- Every query parameter is read back, with nothing behind it. -/
def QueryReadsBack (v : Value) (query : List Param) : Prop :=
  ∀ p ∈ query, ReadsBack p.matcher [] (v.fieldAt p.key) ""

/-! ## The text of captured values -/

/-- Each capture stands for the text of its value. -/
def Faithful (cap : Route → String → String → Value → Prop) : Prop :=
  ∀ {m rest route t r a}, Captures m rest route → cap route t r a → t = a.render

theorem faithful_consumes : Faithful Route.Consumes := fun h ht => h.render_of_consumes ht

theorem faithful_produces : Faithful Route.Produces := fun h ht => h.render_of_produces ht

variable {cap : Route → String → String → Value → Prop}

theorem Spells.eq_pathText (hcap : Faithful cap) {tail : String} {path : List Segment}
    (hends : checkEnds path = .ok ()) (hfloat : ∀ p ∈ params path, p.matcher ≠ .float) {x : String}
    {fields : List (String × Value)} (h : Spells cap tail path x fields) {v : Value}
    (hv : v.Holds fields) : x = pathText v path := by
  induction path generalizing x fields with
  | nil => exact h.1
  | cons segment rest ih =>
    cases segment with
    | literal text =>
      obtain ⟨y, rfl, hy⟩ := h
      rw [ih hends hfloat hy hv]
      rfl
    | param p =>
      obtain ⟨t, y, a, fs, rfl, rfl, ht, hy⟩ := h
      obtain ⟨hp, hrest⟩ := List.forall_mem_cons.mp hfloat
      obtain ⟨ha, hfs⟩ := Value.holds_cons.mp hv
      rw [hcap (captures_of_checkEnds hends hp) ht, ih (checkEnds_param_iff.mp hends).2.2 hrest hy hfs,
        ← Value.fieldAt_of_fieldOf ha]
      rfl

theorem QuerySpells.eq_queryText (hcap : Faithful cap) {query : List Param}
    (hfloat : ∀ p ∈ query, p.matcher ≠ .float) {raws : List (String × String)}
    {fields : List (String × Value)} (h : QuerySpells cap query raws fields) {v : Value}
    (hv : v.Holds fields) : raws = queryText v query := by
  induction query generalizing raws fields with
  | nil => exact h.1
  | cons p query ih =>
    obtain ⟨raw, a, rs, fs, rfl, rfl, hraw, hq⟩ := h
    obtain ⟨hp, hrest⟩ := List.forall_mem_cons.mp hfloat
    obtain ⟨ha, hfs⟩ := Value.holds_cons.mp hv
    rw [hcap (captures_nil hp) hraw, ih hrest hq hfs, ← Value.fieldAt_of_fieldOf ha]
    rfl

/-! ## Reading back -/

theorem spells_consumes_iff {path : List Segment} (hends : checkEnds path = .ok ())
    (hfloat : ∀ p ∈ params path, p.matcher ≠ .float) {x : String} {fields : List (String × Value)}
    (h : Spells Route.Produces "" path x fields) {v : Value} (hv : v.Holds fields) :
    Spells Route.Consumes "" path x fields ↔ PathReadsBack v path := by
  induction path generalizing x fields with
  | nil => exact iff_of_true h trivial
  | cons segment rest ih =>
    cases segment with
    | literal text =>
      obtain ⟨y, rfl, hy⟩ := h
      refine Iff.trans ?_ (ih hends hfloat hy hv)
      constructor
      · intro hconsumes
        obtain ⟨y', he, hy'⟩ := hconsumes
        rw [String.append_right_inj] at he
        rw [he]
        exact hy'
      · intro hy'
        exact ⟨y, rfl, hy'⟩
    | param p =>
      obtain ⟨t, y, a, fs, rfl, rfl, ht, hy⟩ := h
      obtain ⟨hp, hrest⟩ := List.forall_mem_cons.mp hfloat
      obtain ⟨ha, hfs⟩ := Value.holds_cons.mp hv
      have hendsRest := (checkEnds_param_iff.mp hends).2.2
      have hcapture := captures_of_checkEnds hends hp
      -- only a last capture has nothing behind it
      have hy0 : rest = [] → y = "" := by
        rintro rfl
        exact hy.1
      rw [String.append_empty] at ht
      have hback := hcapture.consumes_iff_readsBack ht hy0
      have htext : y = pathText v rest := hy.eq_pathText faithful_produces hendsRest hrest hfs
      rw [PathReadsBack, Value.fieldAt_of_fieldOf ha, ← htext, ← hback, ← ih hendsRest hrest hy hfs]
      constructor
      · intro hconsumes
        obtain ⟨t', y', a', fs', he, hf, ht', hy'⟩ := hconsumes
        cases hf
        -- the value fixes the text, so the two spellings split at the same place
        have htt : t = t' := by
          rw [hcapture.render_of_produces ht, hcapture.render_of_consumes ht']
        rw [← htt, String.append_right_inj] at he
        rw [← htt, ← he, String.append_empty] at ht'
        rw [← he] at hy'
        exact ⟨ht', hy'⟩
      · intro hreads
        obtain ⟨ht', hy'⟩ := hreads
        refine ⟨t, y, a, fs, rfl, rfl, ?_, hy'⟩
        rw [String.append_empty]
        exact ht'

theorem querySpells_consumes_iff {query : List Param} (hfloat : ∀ p ∈ query, p.matcher ≠ .float)
    {raws : List (String × String)} {fields : List (String × Value)}
    (h : QuerySpells Route.Produces query raws fields) {v : Value} (hv : v.Holds fields) :
    QuerySpells Route.Consumes query raws fields ↔ QueryReadsBack v query := by
  induction query generalizing raws fields with
  | nil => exact iff_of_true h (List.forall_mem_nil _)
  | cons p query ih =>
    obtain ⟨raw, a, rs, fs, rfl, rfl, hraw, hq⟩ := h
    obtain ⟨hp, hrest⟩ := List.forall_mem_cons.mp hfloat
    obtain ⟨ha, hfs⟩ := Value.holds_cons.mp hv
    have hback := (captures_nil hp).consumes_iff_readsBack hraw fun _ => rfl
    rw [QueryReadsBack, List.forall_mem_cons, Value.fieldAt_of_fieldOf ha, ← hback]
    refine Iff.trans ?_ (and_congr_right fun _ => ih hrest hq hfs)
    constructor
    · intro hconsumes
      obtain ⟨raw', a', rs', fs', hr, hf, hraw', hq'⟩ := hconsumes
      cases hr
      cases hf
      exact ⟨hraw', hq'⟩
    · intro hreads
      obtain ⟨hraw', hq'⟩ := hreads
      exact ⟨raw, a, rs, fs, rfl, rfl, hraw', hq'⟩

/-- Two spellings of one value have the same fields. -/
theorem fields_eq_of_ofFields_eq {path : List Segment} {query : List Param} (h : Proper path query)
    {cap cap' : Route → String → String → Value → Prop} {tail tail' x x' : String}
    {raws raws' : List (String × String)} {pfields qfields pfields' qfields' : List (String × Value)}
    (hpath : Spells cap tail path x pfields) (hquery : QuerySpells cap query raws qfields)
    (hpath' : Spells cap' tail' path x' pfields') (hquery' : QuerySpells cap' query raws' qfields')
    (he : Value.ofFields (pfields ++ qfields) = .ofFields (pfields' ++ qfields')) :
    pfields = pfields' ∧ qfields = qfields' := by
  have hkeys : pfields.map Prod.fst = pfields'.map Prod.fst := hpath.keys.trans hpath'.keys.symm
  have hqkeys : qfields.map Prod.fst = qfields'.map Prod.fst := hquery.keys.1.trans hquery'.keys.1.symm
  have hv := holds_read h hpath hquery
  have hv' := holds_read h hpath' hquery'
  rw [he] at hv
  have hall : pfields ++ qfields = pfields' ++ qfields' :=
    hv.unique hv' (by rw [List.map_append, List.map_append, hkeys, hqkeys])
  refine List.append_inj hall ?_
  have hlen := congrArg List.length hkeys
  rwa [List.length_map, List.length_map] at hlen

/-- Reading what was written gives the captured part of the value exactly when
every capture reads back on its own, in front of the text written behind it. -/
theorem parse_of_format_iff {codec : Codec} (hcodec : codec.Lawful) {d : Definition} {route : Route}
    (hc : d.compile = .ok route) (hf : d.FloatFree) {v : Value} {u : FormattedUrl}
    (hu : route.formatWith codec v = .ok u) :
    u.pathname = pathText v (outline d.segments).path ∧
      u.search = codec.writeSearch (queryText v (outline d.segments).query) ∧
      (route.runOn { source := u.pathname, method := u.method, params := codec.read u.search } =
          .ok (v.restrict d.keys) ↔
        PathReadsBack v (outline d.segments).path ∧ QueryReadsBack v (outline d.segments).query) := by
  obtain ⟨hproper, m, hm, rfl⟩ := proper_of_compile hc hf
  obtain ⟨ps, hputs, hsearch, -, hmethod⟩ := Route.formatWith_eq_ok_iff.mp hu
  obtain ⟨pfields, qfields, hpath, hquery, hv⟩ := puts_assemble_iff.mp hputs
  obtain ⟨hpv, hqv⟩ := Value.holds_append.mp hv
  have hps : ps = queryText v (outline d.segments).query :=
    hquery.eq_queryText faithful_produces hproper.queryFloat hqv
  have hrestrict : v.restrict d.keys = .ofFields (pfields ++ qfields) := by
    rw [← Value.restrict_eq_ofFields hv]
    refine Value.restrict_congr (fun key => ?_) v
    rw [mem_keys_iff, keys_of_spells hpath hquery]
  refine ⟨hpath.eq_pathText faithful_produces hproper.ends hproper.pathFloat hpv, by rw [hsearch, hps], ?_⟩
  rw [Route.runOn_eq_ok_iff rfl, hrestrict, ← spells_consumes_iff hproper.ends hproper.pathFloat hpath hpv,
    ← querySpells_consumes_iff hproper.queryFloat hquery hqv]
  constructor
  · intro hconsumes
    obtain ⟨t, r, hsource, ht⟩ := hconsumes
    obtain ⟨-, x, tail, pfields', raws', qfields', rfl, rfl, -, hpath', hquery', -, he⟩ :=
      (takes_assemble_iff rfl).mp ht
    obtain ⟨rfl, rfl⟩ := fields_eq_of_ofFields_eq hproper hpath hquery hpath' hquery' he
    have hx : x = u.pathname :=
      (hpath'.eq_pathText faithful_consumes hproper.ends hproper.pathFloat hpv).trans
        (hpath.eq_pathText faithful_produces hproper.ends hproper.pathFloat hpv).symm
    have hraws : raws' = ps := (hquery'.eq_queryText faithful_consumes hproper.queryFloat hqv).trans hps.symm
    -- what was written has no slash to spare
    have htail : tail = "" := by
      have hs : u.pathname = x ++ tail ++ "" := hsource
      rw [String.append_empty, hx] at hs
      exact String.append_right_inj u.pathname |>.mp (hs.symm.trans String.append_empty.symm)
    rw [hx, htail] at hpath'
    rw [hraws] at hquery'
    exact ⟨hpath', hquery'⟩
  · intro hreads
    obtain ⟨hpath', hquery'⟩ := hreads
    refine ⟨u.pathname, "", String.append_empty.symm, (takes_assemble_iff rfl).mpr ⟨?_, u.pathname, "",
      pfields, ps, qfields, String.append_empty.symm, rfl, .inl rfl, hpath', hquery', ?_, rfl⟩⟩
    · intro name hname
      rw [hmethod, guardMethod?_assemble]
      cases hname
      exact Text.sameIgnoringCase_iff.mpr rfl
    · intro e he
      have hnodup : (ps.map Prod.fst).Nodup := by
        have hn := hproper.nodup
        rw [List.map_append, List.nodup_append] at hn
        rw [hquery.keys.2]
        exact hn.2.1
      rw [hsearch, read_raws hcodec hproper hquery.keys.2]
      exact Dict.get?_ofList_of_mem hnodup he

/-- The text `a-` holds no `--`, but in front of one it is read as `a`. -/
theorem parse_of_format_iff_overlap :
    let d : Definition :=
      { segments := [.literal "/", .param ⟨"name", .text, false⟩, .literal "--",
          .param ⟨"id", .int, false⟩] }
    let v : Value := .record ⟨[("id", .int 7), ("name", .text "a-")]⟩
    let u : FormattedUrl := ⟨"/a---7", "", "", none⟩
    ∃ route, d.compile = .ok route ∧ d.FloatFree ∧ route.format v = .ok u ∧
      u.pathname = pathText v (outline d.segments).path ∧
      route.runOn { source := u.pathname, method := u.method, params := Query.read u.search } ≠
        .ok (v.restrict d.keys) := by
  have hc : Definition.compile
      { segments := [.literal "/", .param ⟨"name", .text, false⟩, .literal "--",
          .param ⟨"id", .int, false⟩] } =
      .ok (assemble none [.literal "/", .param ⟨"name", .text, false⟩, .literal "--",
        .param ⟨"id", .int, false⟩] [] {}) := by rfl
  have hf : Definition.FloatFree
      { segments := [.literal "/", .param ⟨"name", .text, false⟩, .literal "--",
          .param ⟨"id", .int, false⟩] } := by
    unfold FloatFree
    decide
  have hu : (assemble none [.literal "/", .param ⟨"name", .text, false⟩, .literal "--",
      .param ⟨"id", .int, false⟩] [] {}).format (.record ⟨[("id", .int 7), ("name", .text "a-")]⟩) =
        .ok ⟨"/a---7", "", "", none⟩ := by rfl
  obtain ⟨hpath, -, hiff⟩ := parse_of_format_iff Codec.percent_lawful hc hf hu
  refine ⟨_, hc, hf, hu, hpath, fun hread => ?_⟩
  have hcut : Text.cutAt ['-', '-'] ['a', '-', '-', '-', '7'] = some (['a', '-'], ['-', '-', '7']) :=
    (hiff.mp hread).1.1
  exact absurd hcut (by decide)

end UrlRoutes.Definition
