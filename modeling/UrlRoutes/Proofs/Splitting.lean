import UrlRoutes.Proofs.UrlParts
import UrlRoutes.Proofs.QueryCodec
import UrlRoutes.Proofs.Spelling
/-!
# Formatted URLs split again

The query of a formatted URL is coded, so no slash and no hash sign of it can
be taken for another part. The path is written as it is. The whole splits
into the parts it was made of exactly when no literal and no captured text of
the path holds a question mark or a hash sign, and the path does not look
like an absolute URL.

Results:
* `hasOrigin_append_iff`: a coded query cannot complete an origin.
* `split_append_iff`: which paths survive in front of a coded query.
* `pathOnly_iff_of_spells`: where a written path has its characters from.
* `split_format`: which formatted URLs split into their parts.
-/
namespace UrlRoutes

namespace Url
open Text

/-- A coded query, or nothing. -/
structure IsSearch (search : List Char) : Prop where
  starts : search = [] ∨ search.head? = some '?'
  hash : '#' ∉ search
  slash : '/' ∉ search

/-! ## Paths in front of a search -/

/-- What has no slash cannot complete an origin. -/
theorem hasOrigin_append_iff {path search : List Char} (h : '/' ∉ search) :
    HasOrigin (path ++ search) ↔ HasOrigin path := by
  constructor
  · rintro ⟨scheme, rest, he, hscheme⟩
    have hcut : path ++ search = (scheme ++ [':', '/', '/']) ++ rest := by
      rw [he, List.append_assoc]
      rfl
    rcases List.append_eq_append_iff.mp hcut with ⟨missing, hpath, hsearch⟩ | ⟨more, hpath, -⟩
    · -- a part of the origin in the search would end in its last slash
      rcases List.eq_nil_or_concat missing with rfl | ⟨front, last, rfl⟩
      · rw [List.append_nil] at hpath
        exact ⟨scheme, [], hpath.symm, hscheme⟩
      · have hlast := congrArg List.getLast? hpath
        simp at hlast
        subst hlast
        refine absurd ?_ h
        rw [hsearch]
        simp
    · refine ⟨scheme, more, ?_, hscheme⟩
      rw [hpath, List.append_assoc]
      rfl
  · rintro ⟨scheme, rest, rfl, hscheme⟩
    exact ⟨scheme, rest ++ search, by simp, hscheme⟩

theorem pathOnly_append_iff {a b : String} : PathOnly (a ++ b) ↔ PathOnly a ∧ PathOnly b := by
  unfold PathOnly
  rw [String.toList_append, List.mem_append, List.mem_append, not_or, not_or]
  constructor
  · rintro ⟨⟨ha, hb⟩, ha', hb'⟩
    exact ⟨⟨ha, ha'⟩, hb, hb'⟩
  · rintro ⟨⟨ha, ha'⟩, hb, hb'⟩
    exact ⟨⟨ha, hb⟩, ha', hb'⟩

theorem splitPath_append_iff {path search : String} (hs : IsSearch search.toList) :
    splitPath [] (path.toList ++ search.toList) = ⟨path, search, ""⟩ ↔ PathOnly path := by
  rw [splitPath_nil_eq_iff]
  constructor
  · exact fun h => h.1.pathname
  · intro h
    have hopens : search = "" ∨ search.toList.head? = some '?' := by
      rw [← String.toList_eq_nil_iff]
      exact hs.starts
    exact ⟨⟨h, hopens, hs.hash, .inl rfl⟩, by simp [Parts.text]⟩

/-- A path in front of a search comes back when it is only a path and no absolute URL. -/
theorem split_append_iff {path search : String} (hs : IsSearch search.toList) :
    split (path ++ search) = ⟨path, search, ""⟩ ↔ PathOnly path ∧ ¬HasOrigin path.toList := by
  have horigin : HasOrigin (path ++ search).toList ↔ HasOrigin path.toList := by
    rw [String.toList_append, hasOrigin_append_iff hs.slash]
  by_cases h : HasOrigin path.toList
  · refine iff_of_false (fun he => ?_) fun hx => hx.2 h
    have hhead := head?_pathname_of_hasOrigin (horigin.mpr h)
    rw [he] at hhead
    obtain ⟨scheme, rest, hpath, hscheme⟩ := h
    obtain ⟨c, cs, rfl, hc⟩ := isAlpha_of_isScheme hscheme
    rw [hpath] at hhead
    cases hhead
    exact absurd hc (by decide)
  · have hnone : afterOrigin? (path ++ search).toList = none :=
      afterOrigin?_eq_none_iff.mpr fun hx => h (horigin.mp hx)
    rw [split_of_none hnone, and_iff_left h, String.toList_append]
    exact splitPath_append_iff hs

/-- A written query is a search. -/
theorem isSearch_writeSearch {codec : Codec} (h : codec.Lawful) (ps : List (String × String)) :
    IsSearch (codec.writeSearch ps).toList := by
  unfold Codec.writeSearch
  simp only
  split
  · exact ⟨.inl rfl, List.not_mem_nil, List.not_mem_nil⟩
  · have hmark : ("?" ++ codec.write ps).toList = '?' :: (codec.write ps).toList := by
      rw [String.toList_append]
      rfl
    have hnot : ∀ c, Codec.isWritten c = false → c ∉ (codec.write ps).toList := by
      intro c hc hm
      rw [Codec.isWritten_of_mem_write h hm] at hc
      cases hc
    rw [hmark]
    refine ⟨.inr rfl, ?_, ?_⟩
    · exact List.not_mem_cons_of_ne_of_not_mem (by decide) (hnot '#' (by decide))
    · exact List.not_mem_cons_of_ne_of_not_mem (by decide) (hnot '/' (by decide))

end Url

/-! ## Characters of a written path -/

namespace Url
open Number

theorem pathOnly_of_digits (base : Nat) {text : String}
    (h : ∀ c ∈ text.toList, isDigitIn base c = true ∨ c = '.') : PathOnly text := by
  have hdigit : isDigitIn base '?' = false ∧ isDigitIn base '#' = false := ⟨rfl, rfl⟩
  constructor
  · intro hm
    have hc := h _ hm
    rw [hdigit.1] at hc
    exact absurd hc (by decide)
  · intro hm
    have hc := h _ hm
    rw [hdigit.2] at hc
    exact absurd hc (by decide)

theorem pathOnly_text {base : Nat} (h1 : 1 < base) (h2 : base ≤ 16) (n : Nat) : PathOnly (text base n) := by
  refine pathOnly_of_digits base fun c hc => .inl ?_
  rw [text, String.toList_ofList] at hc
  exact toDigits_all h1 h2 n c hc

theorem pathOnly_literal (style : NumberStyle) (n : Nat) : PathOnly (style.literal n) := by
  cases style with
  | decimal => exact pathOnly_text (by decide) (by decide) n
  | float => exact pathOnly_text (by decide) (by decide) n
  | hex => exact pathOnly_append_iff.mpr ⟨by decide, pathOnly_text (by decide) (by decide) n⟩
  | octal => exact pathOnly_append_iff.mpr ⟨by decide, pathOnly_text (by decide) (by decide) n⟩
  | binary => exact pathOnly_append_iff.mpr ⟨by decide, pathOnly_text (by decide) (by decide) n⟩

theorem pathOnly_decimal (d : Binary64.Decimal) : PathOnly d.text := by
  have hdigits : ∀ c ∈ Nat.toDigits 10 d.digits, isDigitIn 10 c = true ∨ c = '.' :=
    fun c hc => .inl (toDigits_all (by decide) (by decide) d.digits c hc)
  have hzeros : ∀ n, ∀ c ∈ List.replicate n '0', isDigitIn 10 c = true ∨ c = '.' :=
    fun n c hc => .inl (by rw [List.eq_of_mem_replicate hc]; rfl)
  refine pathOnly_of_digits 10 fun c hc => ?_
  rw [Binary64.Decimal.text, String.toList_ofList] at hc
  split at hc
  · exact (List.mem_append.mp hc).elim (hdigits c) (hzeros _ c)
  · split at hc
    · rcases List.mem_append.mp hc with hc | hc
      · exact hdigits c (List.mem_of_mem_take hc)
      · rcases List.mem_cons.mp hc with hc | hc
        · exact .inr hc
        · exact hdigits c (List.mem_of_mem_drop hc)
    · rcases List.mem_cons.mp hc with rfl | hc
      · exact .inl rfl
      · rcases List.mem_cons.mp hc with hc | hc
        · exact .inr hc
        · exact (List.mem_append.mp hc).elim (hzeros _ c) (hdigits c)

theorem pathOnly_double (x : Float) : PathOnly (Binary64.text x) := by
  have hmagnitude : ∀ bits, PathOnly (Binary64.magnitudeText bits) := by
    intro bits
    unfold Binary64.magnitudeText
    simp only
    split
    · decide
    · exact pathOnly_decimal _
  unfold Binary64.text
  simp only
  split
  · decide
  · refine pathOnly_append_iff.mpr ⟨?_, ?_⟩
    · split <;> decide
    · split
      · decide
      · exact hmagnitude _

/-- Numbers are written without marks. -/
theorem pathOnly_render {style : NumberStyle} {a : Value} {t : String} (h : style.render a = .ok t) :
    PathOnly t ∧ ∀ text, a ≠ .text text := by
  unfold NumberStyle.render at h
  split at h
  · split at h
    · cases h
      exact ⟨pathOnly_literal _ _, fun text => by simp⟩
    · cases h
  · split at h
    · cases h
      exact ⟨pathOnly_double _, fun text => by simp⟩
    · cases h
  · cases h
  · cases h

end Url

namespace Route

/-- A captured text is written as it is. -/
theorem IsLeaf.pathOnly_iff {route : Route} {t r : String} {a : Value} (hl : route.IsLeaf)
    (h : route.Produces t r a) : Url.PathOnly t ↔ ∀ text, a = .text text → Url.PathOnly text := by
  have htext : a = .text t → (Url.PathOnly t ↔ ∀ text, a = .text text → Url.PathOnly text) := by
    rintro rfl
    exact ⟨fun ht text he => (Value.text.inj he) ▸ ht, fun ht => ht t rfl⟩
  cases route with
  | upTo | before | rest | choice => exact htext h.1
  | number policy style =>
    obtain ⟨ht, hne⟩ := Url.pathOnly_render h.1
    exact iff_of_true ht fun text he => absurd he (hne text)
  | _ => cases hl

end Route

namespace Definition

/-- A written path has its characters from its literals and its captured texts. -/
theorem pathOnly_iff_of_spells {path : List Segment} {x tail : String} {fields : List (String × Value)}
    (h : Spells Route.Produces tail path x fields) :
    Url.PathOnly x ↔ (∀ text, .literal text ∈ path → Url.PathOnly text) ∧
      ∀ e ∈ fields, ∀ text, e.2 = .text text → Url.PathOnly text := by
  induction path generalizing x fields with
  | nil =>
    obtain ⟨rfl, rfl⟩ := h
    simp
    decide
  | cons segment rest ih =>
    cases segment with
    | literal text =>
      obtain ⟨y, rfl, hy⟩ := h
      rw [Url.pathOnly_append_iff, ih hy, ← and_assoc]
      refine and_congr_left fun _ => ?_
      simp
    | param p =>
      obtain ⟨t, y, a, fs, rfl, rfl, hcap, hy⟩ := h
      rw [Url.pathOnly_append_iff, ih hy, (isLeaf_captureRoute p.matcher rest).pathOnly_iff hcap,
        List.forall_mem_cons, and_left_comm]
      refine and_congr_left fun _ => ?_
      simp

/-- The captured values of a path are the fields of its parameters. -/
theorem forall_text_iff_of_spells {v : Value} {path : List Segment} {x tail : String}
    {fields : List (String × Value)} (h : Spells Route.Produces tail path x fields) (hv : v.Holds fields) :
    (∀ e ∈ fields, ∀ text, e.2 = .text text → Url.PathOnly text) ↔
      ∀ p ∈ params path, ∀ text, Route.fieldOf v p.key = .ok (.text text) → Url.PathOnly text := by
  constructor
  · intro hfields p hp text ht
    have hkey : p.key ∈ fields.map Prod.fst := by
      rw [h.keys]
      exact List.mem_map_of_mem hp
    obtain ⟨e, he, hek⟩ := List.mem_map.mp hkey
    have hfield := hv e he
    rw [hek, ht, Except.ok.injEq] at hfield
    exact hfields e he text hfield.symm
  · intro hparams e he text ht
    have hkey : e.1 ∈ (params path).map Param.key := by
      rw [← h.keys]
      exact List.mem_map_of_mem he
    obtain ⟨p, hp, hpk⟩ := List.mem_map.mp hkey
    refine hparams p hp text ?_
    rw [hpk, hv e he, ht]

theorem head?_of_spells {first : String} {path : List Segment} {x tail : String} {fields : List (String × Value)}
    (h : Spells Route.Produces tail (.literal first :: path) x fields) {c : Char}
    (hc : first.toList.head? = some c) : x.toList.head? = some c := by
  obtain ⟨y, rfl, -⟩ := h
  rw [String.toList_append, List.head?_append, hc]
  rfl

/-- A formatted URL splits into its parts exactly when nothing of its path is
taken for a query or a fragment and the path not for an absolute URL, which a
leading slash rules out. -/
theorem split_format {codec : Codec} (hcodec : codec.Lawful) {d : Definition} {route : Route} {v : Value}
    {u : FormattedUrl} (hc : d.compile = .ok route) (hu : route.formatWith codec v = .ok u) :
    (Url.split u.text = ⟨u.pathname, u.search, ""⟩ ↔
      ((∀ text, .literal text ∈ (outline d.segments).path → Url.PathOnly text) ∧
        ∀ p ∈ params (outline d.segments).path, ∀ text,
          Route.fieldOf v p.key = .ok (.text text) → Url.PathOnly text) ∧
      ¬Url.HasOrigin u.pathname.toList) ∧
    ∀ first rest, (outline d.segments).path = .literal first :: rest →
      first.toList.head? = some '/' → ¬Url.HasOrigin u.pathname.toList := by
  obtain ⟨-, m, -, -, -, rfl⟩ := compile_eq_ok_iff.mp hc
  obtain ⟨ps, hputs, hsearch, hhash, -⟩ := Route.formatWith_eq_ok_iff.mp hu
  obtain ⟨pfields, qfields, hpath, -, hv⟩ := puts_assemble_iff.mp hputs
  obtain ⟨hp, -⟩ := Value.holds_append.mp hv
  have htext : u.text = u.pathname ++ u.search := by
    rw [FormattedUrl.text, hhash, String.append_empty]
  refine ⟨?_, ?_⟩
  · rw [htext, hsearch, Url.split_append_iff (Url.isSearch_writeSearch hcodec ps), pathOnly_iff_of_spells hpath,
      forall_text_iff_of_spells hpath hp]
  · rintro first rest he hslash ⟨scheme, left, hscheme, hs⟩
    rw [he] at hpath
    have hhead := head?_of_spells hpath hslash
    obtain ⟨c, cs, rfl, hc⟩ := Url.isAlpha_of_isScheme hs
    rw [hscheme] at hhead
    cases hhead
    exact absurd hc (by decide)

/-- Marks in a parameter are coded. -/
theorem split_format_coded_parameter :
    let d : Definition :=
      { segments := [.literal "/", .param ⟨"name", .text, false⟩, .literal ":", .param ⟨"n", .int, false⟩,
          .param ⟨"q", .text, true⟩] }
    let v : Value := .record (.ofList [("name", .text "a b"), ("n", .int 7), ("q", .text "x?#/y")])
    let u : FormattedUrl := ⟨"/a b:7", "?q=x%3F%23%2Fy", "", none⟩
    ∃ route, d.compile = .ok route ∧ route.format v = .ok u ∧
      Url.split u.text = ⟨u.pathname, u.search, ""⟩ ∧ ¬Url.HasOrigin u.pathname.toList := by
  have hc : Definition.compile { segments := [.literal "/", .param ⟨"name", .text, false⟩, .literal ":",
      .param ⟨"n", .int, false⟩, .param ⟨"q", .text, true⟩] } =
      .ok (assemble none [.literal "/", .param ⟨"name", .text, false⟩, .literal ":",
        .param ⟨"n", .int, false⟩] [⟨"q", .text, true⟩] {}) := by rfl
  have hu : (assemble none [.literal "/", .param ⟨"name", .text, false⟩, .literal ":",
      .param ⟨"n", .int, false⟩] [⟨"q", .text, true⟩] {}).format
      (.record (.ofList [("name", .text "a b"), ("n", .int 7), ("q", .text "x?#/y")])) =
      .ok ⟨"/a b:7", "?q=x%3F%23%2Fy", "", none⟩ := by rfl
  obtain ⟨hiff, hlead⟩ := split_format Codec.percent_lawful hc hu
  have hno := hlead "/" _ rfl rfl
  refine ⟨_, hc, hu, hiff.mpr ⟨⟨?_, ?_⟩, hno⟩, hno⟩
  · intro text ht
    have hm : Segment.literal text ∈ [.literal "/", .param ⟨"name", .text, false⟩, .literal ":",
        .param ⟨"n", .int, false⟩] := ht
    simp only [List.mem_cons, Segment.literal.injEq, List.not_mem_nil, reduceCtorEq, or_false,
      false_or] at hm
    rcases hm with rfl | rfl <;> decide
  · intro p hp text ht
    have hm : p ∈ [Param.mk "name" .text false, ⟨"n", .int, false⟩] := hp
    rcases List.mem_cons.mp hm with rfl | hm
    · have hname : Except.ok (.text "a b") = (Except.ok (.text text) : Except FormatError Value) := ht
      cases hname
      decide
    · rw [List.mem_singleton.mp hm] at ht
      have hn : Except.ok (.int 7) = (Except.ok (.text text) : Except FormatError Value) := ht
      cases hn

/-- A question mark in the path is written as it is, and starts a query. -/
theorem split_format_question_mark :
    let d : Definition := { segments := [.literal "/", .param ⟨"name", .text, false⟩] }
    let u : FormattedUrl := ⟨"/a?b", "", "", none⟩
    (outline d.segments).path.head? = some (.literal "/") ∧
      (∃ route, d.compile = .ok route ∧ route.format (.record (.ofList [("name", .text "a?b")])) = .ok u) ∧
      Url.split u.text = ⟨"/a", "?b", ""⟩ ∧ Url.split u.text ≠ ⟨u.pathname, u.search, ""⟩ := by
  refine ⟨rfl, ⟨assemble none [.literal "/", .param ⟨"name", .text, false⟩] [] {}, by rfl, by rfl⟩, ?_, ?_⟩
  · decide
  · decide

/-- A captured text can also be a scheme. -/
example : (assemble none [.param ⟨"a", .text, false⟩, .literal "//x"] [] {}).format
      (.record (.ofList [("a", .text "http:")])) = .ok ⟨"http://x", "", "", none⟩ ∧
    Url.split "http://x" = ⟨"/", "", ""⟩ := by
  constructor
  · rfl
  · decide

end Definition
end UrlRoutes
