import UrlRoutes.Proofs.Integers
import UrlRoutes.Proofs.Spelling
/-!
# Captures read and written

For each kind of capture, what it reads against what it writes. A capture
that reads its text could have written it. The other way it depends on what
follows: a text may be cut short by an earlier delimiter, an option hidden by
one before it, and a number may go on.

Results:
* `Captures.produces_of_consumes`: what was read is written the same.
* `Captures.consumes_iff_readsBack`: when what is written reads back.
-/
namespace UrlRoutes
namespace Route
open Number

theorem consumes_int_iff {t r : String} {a : Value} :
    Route.int.Consumes t r a ↔
      ∃ n : Nat, a = .int n ∧ t = text 10 n ∧ n ≤ maxInt ∧ Stops n r.toList := by
  constructor
  · intro h
    obtain ⟨l, hscan, hacc⟩ := h ⟨true, none, .empty⟩
    rw [NumberPolicy.accept_map] at hacc
    cases l with
    | int n =>
      cases hacc
      rw [String.toList_append, scan_append_eq_found_iff fun x => Literal.noConfusion, isInteger_int_iff] at hscan
      obtain ⟨ht, hmax, hstop⟩ := hscan
      refine ⟨n, rfl, ?_, hmax, hstop⟩
      rw [text, ← ht, String.ofList_toList]
    | hex | octal | binary | float => cases hacc
  · intro hread c
    obtain ⟨n, rfl, rfl, hmax, hstop⟩ := hread
    refine ⟨.int n, ?_, rfl⟩
    rw [String.toList_append, text, String.toList_ofList]
    exact scan_of_isInteger (isInteger_int_iff.mpr ⟨rfl, hmax, hstop⟩)

theorem produces_int_iff {t r : String} {a : Value} :
    Route.int.Produces t r a ↔ ∃ n : Nat, a = .int n ∧ t = text 10 n ∧ n ≤ maxInt := by
  constructor
  · intro h
    obtain ⟨hrender, -⟩ := h
    cases a with
    | int n =>
      rw [NumberStyle.render] at hrender
      split at hrender
      · next hn =>
        cases hrender
        obtain ⟨k, rfl⟩ := Int.eq_ofNat_of_zero_le hn.1
        exact ⟨k, rfl, rfl, Int.ofNat_le.mp hn.2⟩
      · cases hrender
    | unit | text | float | record => cases hrender
  · intro h
    obtain ⟨n, rfl, rfl, hmax⟩ := h
    refine ⟨?_, rfl⟩
    rw [NumberStyle.render, if_pos ⟨Int.natCast_nonneg n, Int.ofNat_le.mpr hmax⟩]
    rfl

end Route

namespace Definition

/-- The route of each kind of capture, by what follows it. -/
inductive Captures : Matcher → List Segment → Route → Prop where
  | upTo (delimiter : String) (rest : List Segment) :
      Captures .text (.literal delimiter :: rest) (.upTo delimiter)
  | before {q : Param} {boundary : Boundary} (rest : List Segment) (h : q.matcher.boundary? = some boundary) :
      Captures .text (.param q :: rest) (.before boundary)
  | text : Captures .text [] (.rest false)
  | rest (allowEmpty : Bool) : Captures (.rest allowEmpty) [] (.rest allowEmpty)
  | int (rest : List Segment) : Captures .int rest .int
  | choice (options : List String) (rest : List Segment) : Captures (.choice options) rest (.choice options)

theorem exists_boundary {m : Matcher} (h : m.isBounded = true) : ∃ boundary, m.boundary? = some boundary := by
  cases m with
  | int | float | choice => exact ⟨_, rfl⟩
  | text | rest => cases h

/-- A text in front of a bounded capture stops at its boundary. -/
theorem captureRoute_text_param {q : Param} (h : q.matcher.isBounded = true) (tail : List Segment) :
    ∃ boundary, q.matcher.boundary? = some boundary ∧
      captureRoute .text (.param q :: tail) = .before boundary := by
  obtain ⟨boundary, hb⟩ := exists_boundary h
  refine ⟨boundary, hb, ?_⟩
  simp only [captureRoute, hb]

theorem captures_of_checkEnds {p : Param} {rest : List Segment} (h : checkEnds (.param p :: rest) = .ok ())
    (hfloat : p.matcher ≠ .float) : Captures p.matcher rest (captureRoute p.matcher rest) := by
  obtain ⟨hlast, hbounded, -⟩ := checkEnds_param_iff.mp h
  generalize p.matcher = m at hlast hbounded hfloat
  cases m with
  | text =>
    cases rest with
    | nil => exact .text
    | cons next tail =>
      cases next with
      | literal delimiter => exact .upTo delimiter tail
      | param q =>
        have hq : q.matcher.isBounded = true := (hbounded q tail rfl).resolve_left Bool.false_ne_true
        obtain ⟨boundary, hb, hroute⟩ := captureRoute_text_param hq tail
        rw [hroute]
        exact .before tail hb
  | rest allowEmpty =>
    rw [hlast rfl]
    exact .rest allowEmpty
  | int => exact .int rest
  | float => exact absurd rfl hfloat
  | choice options => exact .choice options rest

theorem captures_nil {p : Param} (hfloat : p.matcher ≠ .float) :
    Captures p.matcher [] (captureRoute p.matcher []) :=
  captures_of_checkEnds (checkEnds_singleton p) hfloat

/-! ## The text of a value -/

theorem Captures.render_of_consumes {m : Matcher} {rest : List Segment} {route : Route}
    (h : Captures m rest route) {t r : String} {a : Value} (ht : route.Consumes t r a) : t = a.render := by
  have hc := ht ⟨true, none, .empty⟩
  cases h with
  | upTo delimiter rest => rw [hc.2.2]; rfl
  | before rest hb => rw [hc.2.2]; rfl
  | text => rw [hc.2.2]; rfl
  | rest allowEmpty => rw [hc.2.2]; rfl
  | int rest =>
    obtain ⟨n, rfl, rfl, -⟩ := Route.consumes_int_iff.mp ht
    rfl
  | choice options rest => rw [hc.2]; rfl

theorem Captures.render_of_produces {m : Matcher} {rest : List Segment} {route : Route}
    (h : Captures m rest route) {t r : String} {a : Value} (ht : route.Produces t r a) : t = a.render := by
  cases h with
  | upTo delimiter rest => rw [ht.1]; rfl
  | before rest hb => rw [ht.1]; rfl
  | text => rw [ht.1]; rfl
  | rest allowEmpty => rw [ht.1]; rfl
  | int rest =>
    obtain ⟨n, rfl, rfl, -⟩ := Route.produces_int_iff.mp ht
    rfl
  | choice options rest => rw [ht.1]; rfl

/-! ## From reading to writing -/

theorem isPrefixOf_append {d cs : List Char} (h : d.isPrefixOf cs = true) (tail : List Char) :
    d.isPrefixOf (cs ++ tail) = true := by
  rw [List.isPrefixOf_iff_prefix] at h ⊢
  exact h.trans (List.prefix_append cs tail)

theorem startsAt_append {b : Boundary} {cs : List Char} (h : b.startsAt cs = true) (tail : List Char) :
    b.startsAt (cs ++ tail) = true := by
  cases b with
  | anyOf options =>
    obtain ⟨option, hm, hpre⟩ := List.any_eq_true.mp h
    exact List.any_eq_true.mpr ⟨option, hm, isPrefixOf_append hpre tail⟩
  | digit =>
    cases cs with
    | nil => cases h
    | cons c cs => exact h

/-- A delimiter does not occur in what is read up to it. -/
theorem hasLiteral_of_cutAt {d t r : List Char} (ht : t ≠ [])
    (h : Text.cutAt d (t ++ r) = some (t, r)) : Text.hasLiteral d t = false := by
  obtain ⟨-, -, hfirst⟩ := Text.cutWhere_eq_some_iff.mp h
  cases hcut : Text.cutAt d t with
  | none => rw [Text.hasLiteral, hcut]; rfl
  | some cut =>
    obtain ⟨x, y⟩ := cut
    obtain ⟨hxy, hpre, -⟩ := Text.cutWhere_eq_some_iff.mp hcut
    by_cases hy : y = []
    · -- only the empty delimiter ends a text, and it would have cut at the start
      rw [hy, List.isPrefixOf_iff_prefix, List.prefix_nil] at hpre
      have hstart := hfirst [] t rfl ht
      rw [hpre] at hstart
      cases hstart
    · have hearly := hfirst x y hxy hy
      rw [isPrefixOf_append hpre r] at hearly
      cases hearly

/-- A boundary found in front of more text is found without it. -/
theorem cut?_of_append {b : Boundary} {t x tail : List Char} (hx : b.startsAt x = true)
    (h : b.cut? (t ++ (x ++ tail)) = some (t, x ++ tail)) : b.cut? (t ++ x) = some (t, x) :=
  Text.cutWhere_of_append (fun _ hstart => startsAt_append hstart tail) hx h

/-- What a bounded capture reads starts at its boundary. -/
theorem Captures.startsAt_of_consumes {m : Matcher} {rest : List Segment} {route : Route}
    (h : Captures m rest route) {b : Boundary} (hb : m.boundary? = some b) {t r : String} {a : Value}
    (ht : route.Consumes t r a) (x : List Char) : b.startsAt (t.toList ++ x) = true := by
  cases h with
  | upTo | before | text | rest => cases hb
  | int rest =>
    cases hb
    obtain ⟨n, -, rfl, -⟩ := Route.consumes_int_iff.mp ht
    rw [Number.text, String.toList_ofList]
    have hdigits : ∀ c ∈ Nat.toDigits 10 n, c.isDigit = true := fun c hc =>
      Nat.isDigit_of_mem_toDigits (by decide) (by decide) hc
    cases hd : Nat.toDigits 10 n with
    | nil => exact absurd hd (Number.toDigits_ne_nil 10 n)
    | cons c cs =>
      rw [hd] at hdigits
      exact hdigits c List.mem_cons_self
  | choice options rest =>
    cases hb
    have hmem := List.mem_of_find?_eq_some (ht ⟨true, none, .empty⟩).1
    refine List.any_eq_true.mpr ⟨t, hmem, ?_⟩
    rw [List.isPrefixOf_iff_prefix]
    exact List.prefix_append t.toList x

/-- What was read is written the same, without the text that followed the path. -/
theorem Captures.produces_of_consumes {m : Matcher} {rest : List Segment} {route : Route}
    (h : Captures m rest route) {t x tail : String} {a : Value} (ht : route.Consumes t (x ++ tail) a)
    (hnext : ∀ q rest' b, rest = .param q :: rest' → q.matcher.boundary? = some b →
      b.startsAt x.toList = true) : route.Produces t x a := by
  have hc := ht ⟨true, none, .empty⟩
  cases h with
  | upTo delimiter rest =>
    obtain ⟨hne, hcut, rfl⟩ := hc
    rw [String.toList_append] at hcut
    exact ⟨rfl, ⟨hne, hasLiteral_of_cutAt (mt String.toList_eq_nil_iff.mp hne) hcut⟩, rfl⟩
  | before rest hb =>
    obtain ⟨hne, hcut, rfl⟩ := hc
    refine ⟨rfl, ⟨hne, ?_⟩, rfl⟩
    rw [String.toList_append, String.toList_append] at hcut
    rw [String.toList_append]
    exact cut?_of_append (hnext _ rest _ rfl hb) hcut
  | text => exact ⟨hc.2.2, hc.2.1, rfl⟩
  | rest allowEmpty => exact ⟨hc.2.2, hc.2.1, rfl⟩
  | int rest =>
    obtain ⟨n, rfl, rfl, hmax, -⟩ := Route.consumes_int_iff.mp ht
    exact Route.produces_int_iff.mpr ⟨n, rfl, rfl, hmax⟩
  | choice options rest => exact ⟨hc.2, List.mem_of_find?_eq_some hc.1, rfl⟩

/-! ## From writing to reading -/

/-- What is written for a capture, in front of the text `r`, is read back as it is. -/
def ReadsBack (m : Matcher) (rest : List Segment) (a : Value) (r : String) : Prop :=
  match m, rest with
  | .text, .literal delimiter :: _ =>
    Text.cutAt delimiter.toList (a.render ++ r).toList = some (a.render.toList, r.toList)
  | .choice options, _ =>
    options.find? (fun option => option.toList.isPrefixOf (a.render ++ r).toList) = some a.render
  | .int, _ => ∀ n : Nat, a = .int n → Number.Stops n r.toList
  | _, _ => True

/-- What was written is read back exactly when nothing before its end, and
nothing that follows, is taken for something else. -/
theorem Captures.consumes_iff_readsBack {m : Matcher} {rest : List Segment} {route : Route}
    (h : Captures m rest route) {t r : String} {a : Value} (ht : route.Produces t r a)
    (hr : rest = [] → r = "") : route.Consumes t r a ↔ ReadsBack m rest a r := by
  cases h with
  | upTo delimiter rest =>
    obtain ⟨rfl, ⟨hne, -⟩, -⟩ := ht
    exact ⟨fun hc => (hc ⟨true, none, .empty⟩).2.1, fun hcut c => ⟨hne, hcut, rfl⟩⟩
  | before rest hb =>
    obtain ⟨rfl, ⟨hne, hcut⟩, -⟩ := ht
    exact ⟨fun _ => trivial, fun _ c => ⟨hne, hcut, rfl⟩⟩
  | text =>
    obtain ⟨rfl, hok, -⟩ := ht
    exact ⟨fun _ => trivial, fun _ c => ⟨hr rfl, hok, rfl⟩⟩
  | rest allowEmpty =>
    obtain ⟨rfl, hok, -⟩ := ht
    exact ⟨fun _ => trivial, fun _ c => ⟨hr rfl, hok, rfl⟩⟩
  | int rest =>
    obtain ⟨n, rfl, rfl, hmax⟩ := Route.produces_int_iff.mp ht
    rw [Route.consumes_int_iff]
    constructor
    · rintro ⟨k, hk, -, -, hstop⟩ n' hn'
      cases hk
      cases hn'
      exact hstop
    · intro hstop
      exact ⟨n, rfl, rfl, hmax, hstop n rfl⟩
  | choice options rest =>
    obtain ⟨rfl, -, -⟩ := ht
    exact ⟨fun hc => (hc ⟨true, none, .empty⟩).1, fun hfind c => ⟨hfind, rfl⟩⟩

end Definition
end UrlRoutes
