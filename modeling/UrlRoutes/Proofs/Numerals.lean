import Mathlib.Data.List.Basic
import Mathlib.Data.List.TakeWhile
import Mathlib.Tactic.Push
import UrlRoutes.Parser.Number
import UrlRoutes.Proofs.Cuts
/-!
# Numerals

What a scan has read, said about the characters themselves. A scan goes one
of three ways: behind the lead of a base, over a zero that stands for itself,
or over decimal digits. On each of them a literal is a stretch of plain
characters, one byte and one column each, so counting its characters moves a
cursor correctly.

Results:
* `scan_cases`: the ways a scan goes, and what stands in front of the text.
* `isRun_run`, `IsRun.run_eq`: a run is all the digits up to the next other character.
* `mark_cases`: an exponent has a mark in front of its digits.
* `scanDecimal_way`: the ways a decimal goes.
* `past_plain`: stepping over plain characters is stepping over their number.
* `scan_found`: a literal is a non-empty leading part of plain characters.
* `past_of_scan`: a cursor moves over a literal as over its characters.
* `scan_malformed`: and so is what a broken literal skips, unless it skips nothing.
* `scan_append_foreign`: a scan stops in front of a foreign character as at the end.
-/
namespace UrlRoutes.Number

/-- One byte, one column, same line. -/
def IsPlain (c : Char) : Prop := c.utf8Size = 1 ∧ c ≠ '\n'

/-! ## The ways a scan goes -/

/-- A lead that chooses a base: a zero, and a letter behind it. -/
structure Radix where
  letter : Char
  base : Nat
  form : Nat → Literal

def radixes : List Radix := [⟨'x', 16, .hex⟩, ⟨'o', 8, .octal⟩, ⟨'b', 2, .binary⟩]

theorem base_of_mem_radixes {x : Radix} (hx : x ∈ radixes) : 1 < x.base ∧ x.base ≤ 16 := by
  simp only [radixes, List.mem_cons, List.not_mem_nil, or_false] at hx
  rcases hx with rfl | rfl | rfl <;> decide

theorem scan_radix {x : Radix} (hx : x ∈ radixes) (cs : List Char) :
    scan ('0' :: x.letter :: cs) = scanBased x.base x.form cs := by
  simp only [radixes, List.mem_cons, List.not_mem_nil, or_false] at hx
  rcases hx with rfl | rfl | rfl <;> rfl

theorem scan_zero {cs : List Char} (h : ∀ c ∈ cs.head?, ∀ x ∈ radixes, c ≠ x.letter) :
    scan ('0' :: cs) = scanDecimal ['0'] cs := by
  cases cs with
  | nil => rfl
  | cons c cs =>
    have hc : c ≠ 'x' ∧ c ≠ 'o' ∧ c ≠ 'b' := by simpa [radixes] using h
    simp [scan, hc]

theorem scan_of_head_ne {cs : List Char} (h : cs.head? ≠ some '0') :
    scan cs = scanDecimal (run 10 cs) (afterRun 10 cs) := by
  unfold scan
  split
  all_goals first | exact absurd rfl h | rfl

/-- Behind a lead there are the digits of its base, a zero without one is a
run of its own, and everything else is a decimal. -/
theorem scan_cases (cs : List Char) :
    (∃ x ∈ radixes, ∃ r, cs = '0' :: x.letter :: r ∧ scan cs = scanBased x.base x.form r) ∨
    (∃ r, cs = '0' :: r ∧ (∀ c ∈ r.head?, ∀ x ∈ radixes, c ≠ x.letter) ∧ scan cs = scanDecimal ['0'] r) ∨
    (cs.head? ≠ some '0' ∧ scan cs = scanDecimal (run 10 cs) (afterRun 10 cs)) := by
  by_cases hz : cs.head? = some '0'
  · obtain ⟨r, rfl⟩ := List.head?_eq_some_iff.mp hz
    by_cases hr : ∀ c ∈ r.head?, ∀ x ∈ radixes, c ≠ x.letter
    · exact .inr (.inl ⟨r, rfl, hr, scan_zero hr⟩)
    · push Not at hr
      obtain ⟨c, hc, x, hx, rfl⟩ := hr
      obtain ⟨r, rfl⟩ := List.head?_eq_some_iff.mp hc
      exact .inl ⟨x, hx, r, rfl, scan_radix hx r⟩
  · exact .inr (.inr ⟨hz, scan_of_head_ne hz⟩)

/-! ## Runs -/

/-- `ds` is the whole run of digits of `base` in front of `ds ++ cs`. -/
structure IsRun (base : Nat) (ds cs : List Char) : Prop where
  digits : ∀ c ∈ ds, isDigitIn base c = true
  stops : ∀ c ∈ cs.head?, isDigitIn base c = false

theorem isRun_run (base : Nat) (cs : List Char) : IsRun base (run base cs) (afterRun base cs) := by
  obtain ⟨-, hdigits, hstops⟩ := Text.cut_while_iff.mp ⟨rfl, rfl⟩
  exact ⟨hdigits, hstops⟩

theorem run_eq_nil_iff {base : Nat} {cs : List Char} :
    run base cs = [] ↔ ∀ c ∈ cs.head?, isDigitIn base c = false := by
  cases cs <;> simp [run, List.takeWhile_cons]

theorem IsRun.run_eq {base : Nat} {ds cs : List Char} (h : IsRun base ds cs) :
    run base (ds ++ cs) = ds ∧ afterRun base (ds ++ cs) = cs :=
  Text.cut_while_iff.mpr ⟨rfl, h.digits, h.stops⟩

/-! ## Plain characters -/

theorem isPlain_of_between {a b c : Char} (ha : 32 ≤ a.toNat) (hb : b.toNat < 128)
    (h : a ≤ c ∧ c ≤ b) : IsPlain c := by
  have h1 : a.toNat ≤ c.toNat := UInt32.le_iff_toNat_le.mp h.1
  have h2 : c.toNat ≤ b.toNat := UInt32.le_iff_toNat_le.mp h.2
  constructor
  · rw [Char.utf8Size_eq_one_iff, UInt32.le_iff_toNat_le]
    show c.toNat ≤ 127
    omega
  · intro hc
    rw [hc, show ('\n').toNat = 10 from rfl] at h1
    omega

theorem isPlain_of_isDigitIn {base : Nat} {c : Char} (h : isDigitIn base c = true) : IsPlain c := by
  have hd : (digitValue? c).isSome := by
    rw [isDigitIn, Option.any_eq_true] at h
    obtain ⟨d, hd, -⟩ := h
    rw [hd]
    rfl
  unfold digitValue? at hd
  split at hd
  · next hc => exact isPlain_of_between (by decide) (by decide) hc
  · split at hd
    · next hc => exact isPlain_of_between (by decide) (by decide) hc
    · split at hd
      · next hc => exact isPlain_of_between (by decide) (by decide) hc
      · cases hd

theorem isPlain_of_mem_run {base : Nat} {cs : List Char} {c : Char} (h : c ∈ run base cs) :
    IsPlain c :=
  isPlain_of_isDigitIn (List.mem_takeWhile_imp h)

theorem past_plain {cs : List Char} (h : ∀ c ∈ cs, IsPlain c) (p : Position) :
    p.past cs = Parser.pastLiteral p cs.length := by
  induction cs generalizing p with
  | nil => rfl
  | cons c cs ih =>
    obtain ⟨hsize, hline⟩ := h c List.mem_cons_self
    rw [Position.past_cons, ih fun d hd => h d (List.mem_cons_of_mem c hd), Position.step, if_neg hline,
      hsize]
    simp only [Parser.pastLiteral, List.length_cons, Position.mk.injEq, true_and]
    omega

/-! ## Fractions and exponents -/

theorem fraction?_of_head_ne {cs : List Char} (h : cs.head? ≠ some '.') : fraction? cs = none := by
  unfold fraction?
  split
  · exact absurd rfl h
  · rfl

/-- `mark`, with `r` behind it, is what stands in front of the digits of an exponent. -/
inductive IsMark : List Char → List Char → Prop where
  | letter {c : Char} {r : List Char} (hc : c = 'e' ∨ c = 'E') (hsign : ∀ d ∈ r.head?, d ≠ '+' ∧ d ≠ '-') :
      IsMark [c] r
  | signed {c d : Char} {r : List Char} (hc : c = 'e' ∨ c = 'E') (hd : d = '+' ∨ d = '-') : IsMark [c, d] r

theorem IsMark.length_pos {mark r : List Char} (h : IsMark mark r) : 0 < mark.length := by
  cases h <;> simp

theorem IsMark.isPlain {mark r : List Char} (h : IsMark mark r) : ∀ c ∈ mark, IsPlain c := by
  have hletter : ∀ {c : Char}, c = 'e' ∨ c = 'E' → IsPlain c := by
    rintro c (rfl | rfl) <;> constructor <;> decide
  cases h with
  | letter hc => simpa using hletter hc
  | signed hc hd =>
    simp only [List.mem_cons, List.not_mem_nil, or_false, forall_eq_or_imp, forall_eq]
    refine ⟨hletter hc, ?_⟩
    rcases hd with rfl | rfl <;> constructor <;> decide

/-- The sign an exponent has behind its mark. -/
def signOf (mark : List Char) : Int := if '-' ∈ mark then -1 else 1

theorem exponent?_of_isMark {mark r : List Char} (h : IsMark mark r) :
    exponent? (mark ++ r) = exponentDigits mark.length (signOf mark) r := by
  cases h with
  | letter hc hsign =>
    have hbare : signedExponent r = exponentDigits 1 1 r := by
      unfold signedExponent
      split
      · exact absurd rfl (hsign '+' rfl).1
      · exact absurd rfl (hsign '-' rfl).2
      · rfl
    rcases hc with rfl | rfl <;> exact hbare
  | signed hc hd => rcases hc with rfl | rfl <;> rcases hd with rfl | rfl <;> rfl

theorem exponent?_of_head_ne {cs : List Char} (h : ∀ c ∈ cs.head?, c ≠ 'e' ∧ c ≠ 'E') :
    exponent? cs = .ok none := by
  unfold exponent?
  split
  · exact absurd rfl (h 'e' rfl).1
  · exact absurd rfl (h 'E' rfl).2
  · rfl

/-- An exponent has a mark, and what has no letter in front has no exponent. -/
theorem mark_cases (cs : List Char) :
    (∀ c ∈ cs.head?, c ≠ 'e' ∧ c ≠ 'E') ∨ ∃ mark r, cs = mark ++ r ∧ IsMark mark r := by
  by_cases hletter : ∀ c ∈ cs.head?, c ≠ 'e' ∧ c ≠ 'E'
  · exact .inl hletter
  · push Not at hletter
    obtain ⟨c, hc, hletter⟩ := hletter
    have hc' : c = 'e' ∨ c = 'E' := by
      by_cases he : c = 'e'
      · exact .inl he
      · exact .inr (hletter he)
    obtain ⟨r, rfl⟩ := List.head?_eq_some_iff.mp hc
    right
    by_cases hsign : ∀ d ∈ r.head?, d ≠ '+' ∧ d ≠ '-'
    · exact ⟨[c], r, rfl, .letter hc' hsign⟩
    · push Not at hsign
      obtain ⟨d, hd, hsign⟩ := hsign
      obtain ⟨r, rfl⟩ := List.head?_eq_some_iff.mp hd
      refine ⟨[c, d], r, rfl, .signed hc' ?_⟩
      by_cases hplus : d = '+'
      · exact .inl hplus
      · exact .inr (hsign hplus)

/-! ## The ways a decimal goes -/

def fractionSpan (cs : List Char) : Nat := ((fraction? cs).map Fraction.length).getD 0

/-- How far an exponent is read, up to its end or to its fault. -/
def exponentSpan : Except Nat (Option Exponent) → Nat
  | .ok e => (e.map Exponent.length).getD 0
  | .error skipped => skipped

def decimalSpan (cs : List Char) : Nat := fractionSpan cs + exponentSpan (exponent? (cs.drop (fractionSpan cs)))

/-- The double of a whole part, the fraction in front of `cs` and an exponent. -/
def doubleWith? (whole cs : List Char) (e : Option Exponent) : Option Float :=
  readDouble? whole (((fraction? cs).map Fraction.digits).getD []) ((e.map Exponent.value).getD 0)

/-- What becomes of the whole part `whole` in front of `cs`. -/
inductive DecimalWay (whole cs : List Char) : Scan → Prop where
  /-- The exponent has no digits. -/
  | dangling {fault : Nat} (he : exponent? (cs.drop (fractionSpan cs)) = .error fault) :
      DecimalWay whole cs (.malformed (whole.length + decimalSpan cs))
  | nothing {e : Option Exponent} (he : exponent? (cs.drop (fractionSpan cs)) = .ok e) (hwhole : whole = [])
      (hspan : decimalSpan cs = 0) : DecimalWay whole cs .absent
  | int {e : Option Exponent} (he : exponent? (cs.drop (fractionSpan cs)) = .ok e) (hwhole : whole ≠ [])
      (hspan : decimalSpan cs = 0) (hmax : ofDigits 10 whole ≤ maxInt) :
      DecimalWay whole cs (.found (.int (ofDigits 10 whole)) whole.length)
  /-- There is more than an integer. -/
  | double {e : Option Exponent} {x : Float} (he : exponent? (cs.drop (fractionSpan cs)) = .ok e)
      (hlength : 0 < whole.length + decimalSpan cs) (hno : decimalSpan cs = 0 → maxInt < ofDigits 10 whole)
      (hx : doubleWith? whole cs e = some x) :
      DecimalWay whole cs (.found (.float x) (whole.length + decimalSpan cs))
  /-- There is more than an integer, but no digit, or the double is too large. -/
  | broken {e : Option Exponent} (he : exponent? (cs.drop (fractionSpan cs)) = .ok e)
      (hlength : 0 < whole.length + decimalSpan cs) (hno : decimalSpan cs = 0 → maxInt < ofDigits 10 whole)
      (hx : doubleWith? whole cs e = none) :
      DecimalWay whole cs (.malformed 0)

theorem scanDecimal_way (whole cs : List Char) : DecimalWay whole cs (scanDecimal whole cs) := by
  have hspan : ∀ e, exponent? (cs.drop (fractionSpan cs)) = e →
      whole.length + ((fraction? cs).map Fraction.length).getD 0 + exponentSpan e =
        whole.length + decimalSpan cs := by
    rintro e rfl
    exact Nat.add_assoc _ _ _
  unfold scanDecimal
  simp only
  split
  · next fault he =>
    have hlength := hspan _ he
    rw [exponentSpan] at hlength
    rw [hlength]
    exact .dangling he
  · next e he =>
    have hlength := hspan _ he
    rw [exponentSpan] at hlength
    rw [hlength]
    split
    · next hzero =>
      obtain ⟨hwhole, hspan⟩ := Nat.add_eq_zero_iff.mp hzero
      exact .nothing he (List.length_eq_zero_iff.mp hwhole) hspan
    · next hne =>
      split
      · next hint =>
        obtain ⟨hlen, hmax⟩ := hint
        have hwhole : whole ≠ [] := by
          rintro rfl
          exact hne hlen
        rw [hlen]
        exact .int he hwhole (Nat.add_eq_left.mp hlen) hmax
      · next hint =>
        have hpos := Nat.pos_of_ne_zero hne
        have hno : decimalSpan cs = 0 → maxInt < ofDigits 10 whole := fun hzero =>
          Nat.lt_of_not_le fun hmax => hint ⟨by rw [hzero, Nat.add_zero], hmax⟩
        split
        · next x hx => exact .double he hpos hno hx
        · next hx => exact .broken he hpos hno hx

/-! ## Literals as leading parts -/

/-- `n` plain characters stand in front of `cs`. -/
def Leads (n : Nat) (cs : List Char) : Prop :=
  ∃ as bs, cs = as ++ bs ∧ as.length = n ∧ ∀ c ∈ as, IsPlain c

theorem leads_zero (cs : List Char) : Leads 0 cs := ⟨[], cs, rfl, rfl, by simp⟩

theorem Leads.length_le {n : Nat} {cs : List Char} (h : Leads n cs) : n ≤ cs.length := by
  obtain ⟨as, bs, rfl, rfl, -⟩ := h
  rw [List.length_append]
  exact Nat.le_add_right _ _

theorem leads_run (base : Nat) (cs : List Char) : Leads (run base cs).length cs :=
  ⟨run base cs, afterRun base cs, (run_append base cs).symm, rfl, fun _ h => isPlain_of_mem_run h⟩

theorem Leads.cons {n : Nat} {c : Char} {cs : List Char} (hc : IsPlain c) (h : Leads n cs) :
    Leads (n + 1) (c :: cs) := by
  obtain ⟨as, bs, rfl, rfl, hp⟩ := h
  refine ⟨c :: as, bs, rfl, rfl, ?_⟩
  intro d hd
  rcases List.mem_cons.mp hd with rfl | hd
  · exact hc
  · exact hp d hd

theorem Leads.append {as : List Char} {n : Nat} {cs : List Char} (ha : ∀ c ∈ as, IsPlain c)
    (h : Leads n cs) : Leads (as.length + n) (as ++ cs) := by
  obtain ⟨bs, ds, rfl, rfl, hb⟩ := h
  refine ⟨as ++ bs, ds, (List.append_assoc as bs ds).symm, List.length_append, ?_⟩
  intro c hc
  rcases List.mem_append.mp hc with hc | hc
  · exact ha c hc
  · exact hb c hc

theorem Leads.trans {m n : Nat} {cs : List Char} (h : Leads m cs) (hn : Leads n (cs.drop m)) :
    Leads (m + n) cs := by
  obtain ⟨as, bs, rfl, rfl, ha⟩ := h
  rw [List.drop_left] at hn
  exact hn.append ha

theorem leads_fraction (cs : List Char) : Leads (fractionSpan cs) cs := by
  unfold fractionSpan fraction?
  split
  · next cs => exact (leads_run 10 cs).cons (by constructor <;> decide)
  · next => exact leads_zero cs

theorem leads_exponentDigits (lead : List Char) (sign : Int) (cs : List Char)
    (hp : ∀ c ∈ lead, IsPlain c) :
    Leads (exponentSpan (exponentDigits lead.length sign cs)) (lead ++ cs) := by
  unfold exponentDigits
  simp only
  split
  · exact (leads_zero cs).append hp
  · exact (leads_run 10 cs).append hp

theorem leads_exponent (cs : List Char) : Leads (exponentSpan (exponent? cs)) cs := by
  rcases mark_cases cs with hletter | ⟨mark, r, rfl, hmark⟩
  · rw [exponent?_of_head_ne hletter]
    exact leads_zero _
  · rw [exponent?_of_isMark hmark]
    exact leads_exponentDigits mark _ r hmark.isPlain

/-- A decimal literal, as far as it is read. -/
theorem leads_decimal {whole : List Char} (hw : ∀ c ∈ whole, IsPlain c) (cs : List Char) :
    Leads (whole.length + decimalSpan cs) (whole ++ cs) :=
  ((leads_fraction cs).trans (leads_exponent _)).append hw

theorem scanDecimal_found {whole cs : List Char} {literal : Literal} {length : Nat}
    (hw : ∀ c ∈ whole, IsPlain c) (h : scanDecimal whole cs = .found literal length) :
    0 < length ∧ Leads length (whole ++ cs) := by
  have hlead := leads_decimal hw cs
  have hway := scanDecimal_way whole cs
  rw [h] at hway
  cases hway with
  | int he hwhole hspan =>
    rw [hspan] at hlead
    exact ⟨List.length_pos_of_ne_nil hwhole, hlead⟩
  | double he hlength => exact ⟨hlength, hlead⟩

/-- A decimal literal breaks off at its start or behind its exponent letter and sign. -/
theorem scanDecimal_malformed {whole cs : List Char} {skipped : Nat} (hw : ∀ c ∈ whole, IsPlain c)
    (h : scanDecimal whole cs = .malformed skipped) : Leads skipped (whole ++ cs) := by
  have hway := scanDecimal_way whole cs
  rw [h] at hway
  cases hway with
  | dangling => exact leads_decimal hw cs
  | broken => exact leads_zero _

theorem scanBased_malformed {base : Nat} {form : Nat → Literal} {cs : List Char} {skipped : Nat}
    (h : scanBased base form cs = .malformed skipped) : skipped = 0 := by
  unfold scanBased at h
  simp only at h
  split at h
  · cases h
    rfl
  · cases h

theorem scanBased_found {base : Nat} {form : Nat → Literal} {c d : Char} {cs : List Char}
    {literal : Literal} {length : Nat} (hc : IsPlain c) (hd : IsPlain d)
    (h : scanBased base form cs = .found literal length) : 0 < length ∧ Leads length (c :: d :: cs) := by
  unfold scanBased at h
  simp only at h
  split at h
  · cases h
  · cases h
    exact ⟨Nat.succ_pos _, ((leads_run base cs).cons hd).cons hc⟩

theorem isPlain_zero : IsPlain '0' := by constructor <;> decide

theorem isPlain_letter {x : Radix} (hx : x ∈ radixes) : IsPlain x.letter := by
  simp only [radixes, List.mem_cons, List.not_mem_nil, or_false] at hx
  rcases hx with rfl | rfl | rfl <;> constructor <;> decide

/-- A literal is a non-empty leading part of plain characters. -/
theorem scan_found {cs : List Char} {literal : Literal} {length : Nat}
    (h : scan cs = .found literal length) : 0 < length ∧ Leads length cs := by
  rcases scan_cases cs with ⟨x, hx, r, rfl, hscan⟩ | ⟨r, rfl, -, hscan⟩ | ⟨-, hscan⟩
  · exact scanBased_found isPlain_zero (isPlain_letter hx) (hscan.symm.trans h)
  · exact scanDecimal_found (List.forall_mem_singleton.mpr isPlain_zero) (hscan.symm.trans h)
  · have hd := scanDecimal_found (fun c hc => isPlain_of_mem_run hc) (hscan.symm.trans h)
    rwa [run_append] at hd

/-- A cursor moves over a literal as over its characters. -/
theorem past_of_scan {t r : List Char} {literal : Literal} (h : scan (t ++ r) = .found literal t.length)
    (p : Position) : p.past t = Parser.pastLiteral p t.length := by
  obtain ⟨-, as, bs, htr, hlen, hplain⟩ := scan_found h
  obtain ⟨rfl, -⟩ := List.append_inj htr hlen.symm
  exact past_plain hplain p

/-- What a broken literal skips is plain characters, too. -/
theorem scan_malformed {cs : List Char} {skipped : Nat} (h : scan cs = .malformed skipped) :
    Leads skipped cs := by
  rcases scan_cases cs with ⟨x, hx, r, rfl, hscan⟩ | ⟨r, rfl, -, hscan⟩ | ⟨-, hscan⟩
  · rw [scanBased_malformed (hscan.symm.trans h)]
    exact leads_zero _
  · exact scanDecimal_malformed (List.forall_mem_singleton.mpr isPlain_zero) (hscan.symm.trans h)
  · have hd := scanDecimal_malformed (fun c hc => isPlain_of_mem_run hc) (hscan.symm.trans h)
    rwa [run_append] at hd

/-! ## Characters no number goes on with -/

/-- No literal goes on with `c`, whatever stands before it. -/
def IsForeign (c : Char) : Prop := isDigitIn 16 c = false ∧ c ∉ ['.', '+', '-', 'x', 'o']

theorem isForeign_slash : IsForeign '/' := by constructor <;> decide

theorem ne_letter_of_isForeign {c : Char} (hc : IsForeign c) {x : Radix} (hx : x ∈ radixes) : c ≠ x.letter := by
  simp only [radixes, List.mem_cons, List.not_mem_nil, or_false] at hx
  obtain ⟨hdigit, hother⟩ := hc
  rintro rfl
  rcases hx with rfl | rfl | rfl
  · simp at hother
  · simp at hother
  · exact absurd hdigit (by decide)

theorem isDigitIn_of_isForeign {c : Char} (hc : IsForeign c) {base : Nat} (hb : base ≤ 16) :
    isDigitIn base c = false := by
  have h := hc.1
  unfold isDigitIn at h ⊢
  cases hd : digitValue? c with
  | none => rfl
  | some d => simp [hd] at h ⊢; omega

theorem run_append_foreign {c : Char} (hc : IsForeign c) {base : Nat} (hb : base ≤ 16) (cs ds : List Char) :
    run base (cs ++ c :: ds) = run base cs ∧ afterRun base (cs ++ c :: ds) = afterRun base cs ++ c :: ds := by
  have h := isDigitIn_of_isForeign hc hb
  unfold run afterRun
  induction cs with
  | nil => simp [h]
  | cons d cs ih => by_cases hd : isDigitIn base d = true <;> simp [hd, ih]

theorem fraction?_append_foreign {c : Char} (hc : IsForeign c) (cs ds : List Char) :
    fraction? (cs ++ c :: ds) = fraction? cs := by
  have hpoint : c ≠ '.' := by rintro rfl; exact absurd hc.2 (by simp)
  cases cs with
  | nil => simp [fraction?, hpoint]
  | cons d cs =>
    by_cases hd : d = '.'
    · simp [hd, fraction?, run_append_foreign hc]
    · simp [fraction?, hd]

theorem exponentDigits_append_foreign {c : Char} (hc : IsForeign c) (lead : Nat) (sign : Int) (cs ds : List Char) :
    exponentDigits lead sign (cs ++ c :: ds) = exponentDigits lead sign cs := by
  simp only [exponentDigits, run_append_foreign hc (by decide : 10 ≤ 16)]

theorem exponent?_append_foreign {c : Char} (hc : IsForeign c) (cs ds : List Char) :
    exponent? (cs ++ c :: ds) = exponent? cs := by
  have hsign : c ≠ '+' ∧ c ≠ '-' := by
    constructor <;> (rintro rfl; exact absurd hc.2 (by simp))
  have hletter : c ≠ 'e' ∧ c ≠ 'E' := by
    constructor <;> (rintro rfl; exact absurd hc.1 (by decide))
  rcases mark_cases cs with hhead | ⟨mark, r, rfl, hmark⟩
  · have hhead' : ∀ d ∈ (cs ++ c :: ds).head?, d ≠ 'e' ∧ d ≠ 'E' := by
      cases cs with
      | nil => simpa using hletter
      | cons d cs => simpa using hhead
    rw [exponent?_of_head_ne hhead, exponent?_of_head_ne hhead']
  · have hmark' : IsMark mark (r ++ c :: ds) := by
      cases hmark with
      | letter he hno =>
        refine .letter he ?_
        cases r with
        | nil => simpa using hsign
        | cons d r => simpa using hno
      | signed he hd => exact .signed he hd
    rw [List.append_assoc, exponent?_of_isMark hmark', exponent?_of_isMark hmark,
      exponentDigits_append_foreign hc]

theorem scanDecimal_append_foreign {c : Char} (hc : IsForeign c) (whole cs ds : List Char) :
    scanDecimal whole (cs ++ c :: ds) = scanDecimal whole cs := by
  obtain ⟨as, bs, hcs, hlen, -⟩ := leads_fraction cs
  -- behind the fraction, too, the text only goes on with `c`
  have hdrop : ∀ tail, (cs ++ tail).drop ((fraction? cs).map Fraction.length |>.getD 0) = bs ++ tail := by
    intro tail
    rw [← fractionSpan, ← hlen, hcs, List.append_assoc, List.drop_left]
  have hall := hdrop []
  simp only [List.append_nil] at hall
  unfold scanDecimal
  simp only [fraction?_append_foreign hc, hdrop, hall, exponent?_append_foreign hc]

theorem scanBased_append_foreign {c : Char} (hc : IsForeign c) {base : Nat} (hb : base ≤ 16)
    (form : Nat → Literal) (cs ds : List Char) :
    scanBased base form (cs ++ c :: ds) = scanBased base form cs := by
  unfold scanBased
  simp only [run_append_foreign hc hb]

/-- A scan stops in front of a foreign character as it stops at the end. -/
theorem scan_append_foreign {c : Char} (hc : IsForeign c) (cs ds : List Char) :
    scan (cs ++ c :: ds) = scan cs := by
  have hdigit : c ≠ '0' := by
    rintro rfl
    exact absurd hc.1 (by decide)
  rcases scan_cases cs with ⟨x, hx, r, rfl, hscan⟩ | ⟨r, rfl, hr, hscan⟩ | ⟨hz, hscan⟩
  · rw [hscan, List.cons_append, List.cons_append, scan_radix hx]
    exact scanBased_append_foreign hc (base_of_mem_radixes hx).2 x.form r ds
  · have hletter : ∀ d ∈ (r ++ c :: ds).head?, ∀ x ∈ radixes, d ≠ x.letter := by
      cases r with
      | nil => simpa using fun x hx => ne_letter_of_isForeign hc hx
      | cons d r => simpa using hr
    rw [hscan, List.cons_append, scan_zero hletter]
    exact scanDecimal_append_foreign hc ['0'] r ds
  · have hz' : (cs ++ c :: ds).head? ≠ some '0' := by
      cases cs with
      | nil => simpa using hdigit
      | cons d cs => simpa using hz
    obtain ⟨hrun, hafter⟩ := run_append_foreign hc (by decide : 10 ≤ 16) cs ds
    rw [hscan, scan_of_head_ne hz', hrun, hafter, scanDecimal_append_foreign hc]

end UrlRoutes.Number
