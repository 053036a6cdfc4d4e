import Mathlib.Data.List.Induction
import UrlRoutes.Proofs.Numerals
/-!
# Integer literals

Which integers are written where. A decimal integer has no zero in front and
ends where neither a digit nor a fraction nor an exponent goes on; a zero is
an integer of its own. Behind the lead of a base zeros may stand in front, and
digits may be large or small. A scan finds an integer exactly where one of
these stands, so what it finds in front of a text depends on the first
character behind the integer and on nothing after that.

Results:
* `toDigits_ofDigits`: digits without a zero in front are, in small letters,
  the digits of the number they denote.
* `ofDigits_eq_iff`: all the digits that denote a number.
* `scanBased_eq_found_iff`, `scanDecimal_eq_int_iff`: what is found on each way.
* `scan_eq_integer_iff`: a scan finds the integers that stand in front of a text.
* `isInteger_int_iff`, `isInteger_form_iff`: the literals of an integer `n`.
* `exists_stops`, `scan_zero_exponent`: what number a given text can follow.
-/
namespace UrlRoutes.Number

/-! ## Digits of a number -/

theorem toDigits_ne_nil (base n : Nat) : Nat.toDigits base n ≠ [] :=
  List.ne_nil_of_length_pos Nat.length_toDigits_pos

theorem head?_toDigits {n : Nat} (h : 0 < n) : (Nat.toDigits 10 n).head? ≠ some '0' := by
  induction n using Nat.strongRecOn with
  | ind n ih =>
    by_cases hn : n < 10
    · rw [Nat.toDigits_of_lt_base hn]
      exact (by decide : ∀ m : Fin 10, 0 < m.val → [Nat.digitChar m.val].head? ≠ some '0') ⟨n, hn⟩ h
    · rw [Nat.toDigits_of_base_le (by decide) (by omega), List.head?_append_of_ne_nil _ (toDigits_ne_nil 10 _)]
      exact ih (n / 10) (by omega) (by omega)

theorem digitChar_of_ascii : ∀ n, n < 128 → ∀ d ∈ digitValue? (Char.ofNat n),
    Nat.digitChar d = (Char.ofNat n).toLower ∧ (d < 10 → Nat.digitChar d = Char.ofNat n) := by
  decide +kernel

/-- A digit is written small, and a decimal one as it is. -/
theorem digitChar_of_isDigitIn {base : Nat} {c : Char} (h : isDigitIn base c = true) :
    ∃ d, d < base ∧ digitValue? c = some d ∧ Nat.digitChar d = c.toLower ∧
      (d < 10 → Nat.digitChar d = c) := by
  have hascii : c.toNat < 128 := by
    have hsize := (isPlain_of_isDigitIn h).1
    rw [Char.utf8Size_eq_one_iff, UInt32.le_iff_toNat_le] at hsize
    exact Nat.lt_succ_of_le hsize
  rw [isDigitIn, Option.any_eq_true] at h
  obtain ⟨d, hd, hlt⟩ := h
  have htable := digitChar_of_ascii c.toNat hascii d
  rw [Char.ofNat_toNat] at htable
  exact ⟨d, of_decide_eq_true hlt, hd, htable hd⟩

theorem map_toLower_of_decimal {ds : List Char} (hd : ∀ c ∈ ds, isDigitIn 10 c = true) :
    ds.map Char.toLower = ds := by
  refine (List.map_congr_left fun c hc => ?_).trans ds.map_id
  obtain ⟨d, hlt, -, hsmall, hsame⟩ := digitChar_of_isDigitIn (hd c hc)
  exact hsmall.symm.trans (hsame hlt)

theorem ofDigits_pos {base : Nat} (hbase : 0 < base) {ds : List Char}
    (hd : ∀ c ∈ ds, isDigitIn base c = true) (hne : ds ≠ []) (hz : ds.head? ≠ some '0') :
    0 < ofDigits base ds := by
  induction ds using List.reverseRecOn with
  | nil => exact absurd rfl hne
  | append_singleton ds c ih =>
    rw [ofDigits_concat]
    by_cases hnil : ds = []
    · obtain ⟨d, -, hv, -, hsame⟩ := digitChar_of_isDigitIn (hd c (by simp))
      have hone : ofDigits base [c] = d := by simp [ofDigits, hv]
      have hpos : d ≠ 0 := by
        rintro rfl
        rw [hnil, ← hsame (by decide)] at hz
        exact hz rfl
      omega
    · rw [List.head?_append_of_ne_nil _ hnil] at hz
      have hfront := ih (fun x hx => hd x (List.mem_append_left _ hx)) hnil hz
      exact Nat.add_pos_left (Nat.mul_pos hfront hbase) _

/-- Digits without a zero in front are, in small letters, the digits of the
number they denote. -/
theorem toDigits_ofDigits {base : Nat} (h1 : 1 < base) {ds : List Char}
    (hd : ∀ c ∈ ds, isDigitIn base c = true) (hne : ds ≠ []) (hz : ds.head? ≠ some '0') :
    Nat.toDigits base (ofDigits base ds) = ds.map Char.toLower := by
  induction ds using List.reverseRecOn with
  | nil => exact absurd rfl hne
  | append_singleton ds c ih =>
    obtain ⟨d, hlt, hv, hc, -⟩ := digitChar_of_isDigitIn (hd c (by simp))
    have hone : ofDigits base [c] = d := by simp [ofDigits, hv]
    rw [ofDigits_concat, hone, List.map_append, List.map_singleton, ← hc]
    by_cases hnil : ds = []
    · rw [hnil, ofDigits_nil, Nat.zero_mul, Nat.zero_add, Nat.toDigits_of_lt_base hlt]
      rfl
    · rw [List.head?_append_of_ne_nil _ hnil] at hz
      have hds : ∀ x ∈ ds, isDigitIn base x = true := fun x hx => hd x (List.mem_append_left _ hx)
      have hpos := ofDigits_pos (by omega) hds hnil hz
      have hdiv : (ofDigits base ds * base + d) / base = ofDigits base ds := by
        rw [Nat.mul_comm, Nat.mul_add_div (by omega), Nat.div_eq_of_lt hlt, Nat.add_zero]
      have hmod : (ofDigits base ds * base + d) % base = d := by
        rw [Nat.mul_comm, Nat.mul_add_mod, Nat.mod_eq_of_lt hlt]
      have hle : base ≤ ofDigits base ds * base + d :=
        (Nat.le_mul_of_pos_left base hpos).trans (Nat.le_add_right _ _)
      rw [Nat.toDigits_of_base_le h1 hle, hdiv, hmod, ih hds hnil hz]

theorem digitValue?_toLower (c : Char) : digitValue? c.toLower = digitValue? c := by
  by_cases hc : c.toNat < 128
  · have htable : ∀ n, n < 128 → digitValue? (Char.ofNat n).toLower = digitValue? (Char.ofNat n) := by
      decide +kernel
    have hrow := htable c.toNat hc
    rwa [Char.ofNat_toNat] at hrow
  · have hsame : c.toLower = c := by
      refine dif_neg fun hupper => hc ?_
      have hle : c.toNat ≤ 90 := UInt32.le_iff_toNat_le.mp hupper.2
      omega
    rw [hsame]

theorem isDigitIn_toLower (base : Nat) (c : Char) : isDigitIn base c.toLower = isDigitIn base c := by
  rw [isDigitIn, isDigitIn, digitValue?_toLower]

theorem ofDigits_map_toLower (base : Nat) (ds : List Char) :
    ofDigits base (ds.map Char.toLower) = ofDigits base ds := by
  simp only [ofDigits, List.foldl_map, digitValue?_toLower]

theorem ofDigits_zero_cons (base : Nat) (ds : List Char) : ofDigits base ('0' :: ds) = ofDigits base ds := by
  have hzero : (digitValue? '0').getD 0 = 0 := by decide
  simp [ofDigits, hzero]

theorem ofDigits_zeros_append (base k : Nat) (ds : List Char) :
    ofDigits base (List.replicate k '0' ++ ds) = ofDigits base ds := by
  induction k with
  | zero => rfl
  | succ k ih => rw [List.replicate_succ, List.cons_append, ofDigits_zero_cons, ih]

/-- The digit strings of a number are its digits in either case, with zeros in front. -/
theorem ofDigits_eq_iff {base : Nat} (h1 : 1 < base) (h2 : base ≤ 16) {ds : List Char} {n : Nat} :
    (∀ c ∈ ds, isDigitIn base c = true) ∧ ds ≠ [] ∧ ofDigits base ds = n ↔
      ∃ k es, ds = List.replicate k '0' ++ es ∧ es.map Char.toLower = Nat.toDigits base n := by
  refine ⟨fun h => ?_, fun h => ?_⟩
  · obtain ⟨hd, hne, rfl⟩ := h
    induction ds with
    | nil => exact absurd rfl hne
    | cons c ds ih =>
      by_cases hc : c = '0'
      · subst hc
        rw [ofDigits_zero_cons]
        by_cases hnil : ds = []
        · refine ⟨0, ['0'], by rw [hnil]; rfl, ?_⟩
          rw [hnil, ofDigits_nil, Nat.toDigits_zero]
          rfl
        · obtain ⟨k, es, hds, hes⟩ := ih (fun d hmem => hd d (List.mem_cons_of_mem _ hmem)) hnil
          refine ⟨k + 1, es, ?_, hes⟩
          rw [List.replicate_succ, List.cons_append, ← hds]
      · have hhead : (c :: ds).head? ≠ some '0' := by simpa using hc
        exact ⟨0, c :: ds, rfl, (toDigits_ofDigits h1 hd hne hhead).symm⟩
  · obtain ⟨k, es, rfl, hes⟩ := h
    have hzero : isDigitIn base '0' = true := by
      have hv : digitValue? '0' = some 0 := by decide
      simp [isDigitIn, hv, Nat.lt_of_succ_lt h1]
    refine ⟨?_, ?_, ?_⟩
    · intro c hc
      rcases List.mem_append.mp hc with hc | hc
      · rwa [List.eq_of_mem_replicate hc]
      · rw [← isDigitIn_toLower]
        exact toDigits_all h1 h2 n _ (hes ▸ List.mem_map_of_mem hc)
    · intro hnil
      rw [(List.append_eq_nil_iff.mp hnil).2] at hes
      exact toDigits_ne_nil base n hes.symm
    · rw [ofDigits_zeros_append, ← ofDigits_map_toLower, hes, ofDigits_toDigits h1 h2]

theorem map_toLower_toDigits {base : Nat} (h1 : 1 < base) (h2 : base ≤ 16) (n : Nat) :
    (Nat.toDigits base n).map Char.toLower = Nat.toDigits base n := by
  obtain ⟨k, es, hds, hes⟩ := (ofDigits_eq_iff h1 h2).mp
    ⟨toDigits_all h1 h2 n, toDigits_ne_nil base n, ofDigits_toDigits h1 h2 n⟩
  have hlen := congrArg List.length hds
  rw [← hes, List.length_map, List.length_append, List.length_replicate] at hlen
  obtain rfl : k = 0 := by omega
  rw [List.replicate_zero, List.nil_append] at hds
  rwa [← hds] at hes

/-! ## Where a whole number ends -/

/-- Neither a fraction nor an exponent starts here. -/
def EndsWhole : List Char → Prop
  | [] => True
  | c :: _ => c ≠ '.' ∧ c ≠ 'e' ∧ c ≠ 'E'

instance : DecidablePred EndsWhole
  | [] => isTrue trivial
  | c :: _ => inferInstanceAs (Decidable (c ≠ '.' ∧ c ≠ 'e' ∧ c ≠ 'E'))

theorem EndsWhole.of_prefix {as cs : List Char} (h : EndsWhole cs) (hp : as <+: cs) : EndsWhole as := by
  obtain ⟨bs, rfl⟩ := hp
  cases as with
  | nil => trivial
  | cons c as => exact h

theorem EndsWhole.append {as : List Char} (h : EndsWhole as) (hne : as ≠ []) (bs : List Char) :
    EndsWhole (as ++ bs) := by
  cases as with
  | nil => exact absurd rfl hne
  | cons c as => exact h

theorem endsWhole_of_isDigit {c : Char} {cs : List Char} (h : c.isDigit = true) : EndsWhole (c :: cs) := by
  refine ⟨?_, ?_, ?_⟩
  all_goals
    rintro rfl
    revert h
    decide

theorem fraction?_of_endsWhole {cs : List Char} (h : EndsWhole cs) : fraction? cs = none := by
  apply fraction?_of_head_ne
  intro hp
  obtain ⟨r, rfl⟩ := List.head?_eq_some_iff.mp hp
  exact h.1 rfl

theorem exponent?_of_endsWhole {cs : List Char} (h : EndsWhole cs) : exponent? cs = .ok none := by
  apply exponent?_of_head_ne
  intro c hc
  obtain ⟨r, rfl⟩ := List.head?_eq_some_iff.mp hc
  exact h.2

theorem exponentSpan_pos {mark r : List Char} (h : IsMark mark r) : 0 < exponentSpan (exponent? (mark ++ r)) := by
  have hpos := h.length_pos
  rw [exponent?_of_isMark h, exponentDigits]
  by_cases hrun : run 10 r = []
  · simpa [hrun, exponentSpan] using hpos
  · simpa [hrun, exponentSpan] using Nat.add_pos_left hpos _

/-- Nothing is read behind a whole part exactly if nothing goes on with it. -/
theorem decimalSpan_eq_zero_iff {cs : List Char} : decimalSpan cs = 0 ↔ EndsWhole cs := by
  refine ⟨fun hspan => ?_, fun hend => ?_⟩
  · obtain ⟨hfraction, hexponent⟩ := Nat.add_eq_zero_iff.mp hspan
    rw [hfraction, List.drop_zero] at hexponent
    rcases mark_cases cs with hletter | ⟨mark, r, rfl, hmark⟩
    · cases cs with
      | nil => trivial
      | cons c cs =>
        refine ⟨?_, hletter c rfl⟩
        rintro rfl
        exact absurd hfraction (Nat.succ_ne_zero _)
    · exact absurd hexponent (Nat.ne_of_gt (exponentSpan_pos hmark))
  · rw [decimalSpan, fractionSpan, fraction?_of_endsWhole hend, Option.map_none, Option.getD_none, List.drop_zero,
      exponent?_of_endsWhole hend]
    rfl

/-- `cs` does not go on with the decimal numeral of `n`. -/
def Stops (n : Nat) : List Char → Prop
  | [] => True
  | c :: _ => c ≠ '.' ∧ c ≠ 'e' ∧ c ≠ 'E' ∧
      if n = 0 then c ≠ 'x' ∧ c ≠ 'o' ∧ c ≠ 'b' else isDigitIn 10 c = false

theorem endsWhole_of_stops {n : Nat} {cs : List Char} (h : Stops n cs) : EndsWhole cs := by
  cases cs with
  | nil => trivial
  | cons c cs => exact ⟨h.1, h.2.1, h.2.2.1⟩

theorem stops_zero_iff {cs : List Char} :
    Stops 0 cs ↔ EndsWhole cs ∧ ∀ c ∈ cs.head?, ∀ x ∈ radixes, c ≠ x.letter := by
  cases cs with
  | nil => simp [Stops, EndsWhole]
  | cons c cs => simp [Stops, EndsWhole, radixes, and_assoc]

theorem stops_pos_iff {n : Nat} (hn : 0 < n) {cs : List Char} :
    Stops n cs ↔ EndsWhole cs ∧ ∀ c ∈ cs.head?, isDigitIn 10 c = false := by
  cases cs with
  | nil => simp [Stops, EndsWhole]
  | cons c cs => simp [Stops, EndsWhole, and_assoc, Nat.ne_of_gt hn]

/-! ## What a scan finds -/

theorem scanBased_eq_found_iff {base : Nat} {form : Nat → Literal} {cs : List Char} {literal : Literal}
    {length : Nat} : scanBased base form cs = .found literal length ↔
      ∃ ds r, cs = ds ++ r ∧ IsRun base ds r ∧ ds ≠ [] ∧ ofDigits base ds ≤ maxInt ∧
        literal = form (ofDigits base ds) ∧ length = ds.length + 2 := by
  refine ⟨fun hfound => ?_, fun hrun => ?_⟩
  · unfold scanBased at hfound
    simp only at hfound
    split at hfound
    · cases hfound
    · next hno =>
      push Not at hno
      cases hfound
      exact ⟨run base cs, afterRun base cs, (run_append base cs).symm, isRun_run base cs, hno.1, hno.2, rfl, rfl⟩
  · obtain ⟨ds, r, rfl, hrun, hne, hmax, rfl, rfl⟩ := hrun
    simp [scanBased, hrun.run_eq.1, hne, Nat.not_lt.mpr hmax]

/-- Behind a lead, no digit and too many digits are the same fault. -/
theorem scanBased_of_fault {base : Nat} {form : Nat → Literal} {ds r : List Char} (hrun : IsRun base ds r)
    (hfault : ds = [] ∨ maxInt < ofDigits base ds) : scanBased base form (ds ++ r) = .malformed 0 := by
  simp [scanBased, hrun.run_eq.1, hfault]

theorem scanDecimal_eq_int_iff {whole cs : List Char} {n length : Nat} :
    scanDecimal whole cs = .found (.int n) length ↔
      whole ≠ [] ∧ length = whole.length ∧ n = ofDigits 10 whole ∧ n ≤ maxInt ∧ EndsWhole cs := by
  refine ⟨fun h => ?_, fun h => ?_⟩
  · have hway := scanDecimal_way whole cs
    rw [h] at hway
    cases hway with
    | int he hwhole hspan hmax => exact ⟨hwhole, rfl, rfl, hmax, decimalSpan_eq_zero_iff.mp hspan⟩
  · obtain ⟨hw, rfl, rfl, hmax, hend⟩ := h
    simp [scanDecimal, fraction?_of_endsWhole hend, exponent?_of_endsWhole hend, hw, hmax]

theorem scanDecimal_form {whole cs : List Char} {literal : Literal} {length : Nat}
    (h : scanDecimal whole cs = .found literal length) :
    (∃ n, literal = .int n) ∨ ∃ x, literal = .float x := by
  have hway := scanDecimal_way whole cs
  rw [h] at hway
  cases hway with
  | int => exact .inl ⟨_, rfl⟩
  | double => exact .inr ⟨_, rfl⟩

/-! ## Integers in front of a text -/

/-- `t`, with `r` behind it, is the integer `literal`. -/
inductive IsInteger : Literal → List Char → List Char → Prop where
  /-- A zero that does not lead the digits of another base. -/
  | zero {r : List Char} (hletter : ∀ c ∈ r.head?, ∀ x ∈ radixes, c ≠ x.letter) (hend : EndsWhole r) :
      IsInteger (.int 0) ['0'] r
  /-- All the decimal digits there are, without a zero in front. -/
  | decimal {n : Nat} {ds r : List Char} (hrun : IsRun 10 ds r) (hne : ds ≠ []) (hzero : ds.head? ≠ some '0')
      (hvalue : ofDigits 10 ds = n) (hmax : n ≤ maxInt) (hend : EndsWhole r) : IsInteger (.int n) ds r
  /-- All the digits of a base there are behind its lead. -/
  | based {literal : Literal} {x : Radix} {n : Nat} {ds r : List Char} (hx : x ∈ radixes)
      (hform : literal = x.form n) (hrun : IsRun x.base ds r) (hne : ds ≠ [])
      (hvalue : ofDigits x.base ds = n) (hmax : n ≤ maxInt) : IsInteger literal ('0' :: x.letter :: ds) r

theorem scan_of_isInteger {literal : Literal} {t r : List Char} (h : IsInteger literal t r) :
    scan (t ++ r) = .found literal t.length := by
  cases h with
  | zero hletter hend =>
    rw [List.singleton_append, scan_zero hletter, scanDecimal_eq_int_iff]
    exact ⟨List.cons_ne_nil _ _, rfl, rfl, Nat.zero_le _, hend⟩
  | decimal hrun hne hzero hvalue hmax hend =>
    have hhead : (t ++ r).head? ≠ some '0' := by rwa [List.head?_append_of_ne_nil _ hne]
    obtain ⟨hwhole, hafter⟩ := hrun.run_eq
    rw [scan_of_head_ne hhead, hwhole, hafter, scanDecimal_eq_int_iff]
    exact ⟨hne, rfl, hvalue.symm, hmax, hend⟩
  | based hx hform hrun hne hvalue hmax =>
    rw [List.cons_append, List.cons_append, scan_radix hx, scanBased_eq_found_iff]
    subst hvalue
    exact ⟨_, r, rfl, hrun, hne, hmax, hform, rfl⟩

/-- A scan finds the integers that stand in front of a text. -/
theorem scan_eq_integer_iff {cs : List Char} {literal : Literal} {length : Nat} (hl : ∀ x, literal ≠ .float x) :
    scan cs = .found literal length ↔
      ∃ t r, cs = t ++ r ∧ length = t.length ∧ IsInteger literal t r := by
  refine ⟨fun hfound => ?_, fun hx => ?_⟩
  · rcases scan_cases cs with ⟨x, hx, r, rfl, hscan⟩ | ⟨r, rfl, hletter, hscan⟩ | ⟨hz, hscan⟩
    · rw [hscan, scanBased_eq_found_iff] at hfound
      obtain ⟨ds, r, rfl, hrun, hne, hmax, hform, rfl⟩ := hfound
      exact ⟨'0' :: x.letter :: ds, r, rfl, rfl, .based hx hform hrun hne rfl hmax⟩
    · rw [hscan] at hfound
      obtain ⟨n, rfl⟩ := (scanDecimal_form hfound).resolve_right fun ⟨x, hx⟩ => hl x hx
      obtain ⟨-, rfl, rfl, -, hend⟩ := scanDecimal_eq_int_iff.mp hfound
      exact ⟨['0'], r, rfl, rfl, .zero hletter hend⟩
    · rw [hscan] at hfound
      obtain ⟨n, rfl⟩ := (scanDecimal_form hfound).resolve_right fun ⟨x, hx⟩ => hl x hx
      obtain ⟨hne, rfl, rfl, hmax, hend⟩ := scanDecimal_eq_int_iff.mp hfound
      have hzero : (run 10 cs).head? ≠ some '0' := by
        rw [run, List.head?_takeWhile]
        intro h0
        exact hz (Option.filter_eq_some_iff.mp h0).1
      exact ⟨run 10 cs, afterRun 10 cs, (run_append 10 cs).symm, rfl,
        .decimal (isRun_run 10 cs) hne hzero rfl hmax hend⟩
  · obtain ⟨t, r, rfl, rfl, hinteger⟩ := hx
    exact scan_of_isInteger hinteger

/-- Given where a literal ends, it is found exactly if it stands there. -/
theorem scan_append_eq_found_iff {literal : Literal} {t r : List Char} (hl : ∀ x, literal ≠ .float x) :
    scan (t ++ r) = .found literal t.length ↔ IsInteger literal t r := by
  refine ⟨fun h => ?_, scan_of_isInteger⟩
  obtain ⟨t', r', htr, hlen, hinteger⟩ := (scan_eq_integer_iff hl).mp h
  obtain ⟨rfl, rfl⟩ := List.append_inj htr hlen
  exact hinteger

/-- A decimal integer is written with the digits of its number. -/
theorem isInteger_int_iff {n : Nat} {t r : List Char} :
    IsInteger (.int n) t r ↔ t = Nat.toDigits 10 n ∧ n ≤ maxInt ∧ Stops n r := by
  refine ⟨fun h => ?_, fun h => ?_⟩
  · cases h with
    | zero hletter hend => exact ⟨rfl, Nat.zero_le _, stops_zero_iff.mpr ⟨hend, hletter⟩⟩
    | decimal hrun hne hzero hvalue hmax hend =>
      have hpos := ofDigits_pos (by decide) hrun.digits hne hzero
      have hdigits := toDigits_ofDigits (by decide) hrun.digits hne hzero
      rw [map_toLower_of_decimal hrun.digits] at hdigits
      rw [hvalue] at hpos hdigits
      exact ⟨hdigits.symm, hmax, (stops_pos_iff hpos).mpr ⟨hend, hrun.stops⟩⟩
    | based hx hform =>
      simp only [radixes, List.mem_cons, List.not_mem_nil, or_false] at hx
      rcases hx with rfl | rfl | rfl <;> cases hform
  · obtain ⟨rfl, hmax, hstop⟩ := h
    by_cases hn : n = 0
    · subst hn
      obtain ⟨hend, hletter⟩ := stops_zero_iff.mp hstop
      exact .zero hletter hend
    · have hpos := Nat.pos_of_ne_zero hn
      obtain ⟨hend, hdigit⟩ := (stops_pos_iff hpos).mp hstop
      exact .decimal ⟨toDigits_all (by decide) (by decide) n, hdigit⟩ (toDigits_ne_nil 10 n) (head?_toDigits hpos)
        (ofDigits_toDigits (by decide) (by decide) n) hmax hend

theorem form_inj {x y : Radix} (hx : x ∈ radixes) (hy : y ∈ radixes) {m n : Nat} (h : x.form m = y.form n) :
    x = y ∧ m = n := by
  simp only [radixes, List.mem_cons, List.not_mem_nil, or_false] at hx hy
  rcases hx with rfl | rfl | rfl <;> rcases hy with rfl | rfl | rfl <;> cases h <;> exact ⟨rfl, rfl⟩

/-- An integer of another base is written with its digits in either case and zeros in front. -/
theorem isInteger_form_iff {x : Radix} (hx : x ∈ radixes) {n : Nat} {t r : List Char} :
    IsInteger (x.form n) t r ↔
      (∃ k ds, t = '0' :: x.letter :: (List.replicate k '0' ++ ds) ∧ ds.map Char.toLower = Nat.toDigits x.base n) ∧
        n ≤ maxInt ∧ ∀ c ∈ r.head?, isDigitIn x.base c = false := by
  obtain ⟨h1, h2⟩ := base_of_mem_radixes hx
  refine ⟨fun h => ?_, fun h => ?_⟩
  · generalize hl : x.form n = literal at h
    cases h with
    | zero | decimal =>
      simp only [radixes, List.mem_cons, List.not_mem_nil, or_false] at hx
      rcases hx with rfl | rfl | rfl <;> cases hl
    | based hy hform hrun hne hvalue hmax =>
      obtain ⟨rfl, rfl⟩ := form_inj hx hy (hl.trans hform)
      obtain ⟨k, es, rfl, hes⟩ := (ofDigits_eq_iff h1 h2).mp ⟨hrun.digits, hne, hvalue⟩
      exact ⟨⟨k, es, rfl, hes⟩, hmax, hrun.stops⟩
  · obtain ⟨⟨k, es, rfl, hes⟩, hmax, hstop⟩ := h
    obtain ⟨hdigits, hne, hvalue⟩ := (ofDigits_eq_iff h1 h2).mpr ⟨k, es, rfl, hes⟩
    exact .based hx rfl ⟨hdigits, hstop⟩ hne hvalue hmax

/-! ## Numbers in front of a text -/

/-- Behind a zero, a digit does not go on with the number. -/
theorem stops_zero_of_digit {c : Char} {cs : List Char} (h : isDigitIn 10 c = true) : Stops 0 (c :: cs) := by
  refine ⟨?_, ?_, ?_, ?_, ?_, ?_⟩
  all_goals
    rintro rfl
    revert h
    decide

/-- Some integer ends in front of anything but a fraction or an exponent. -/
theorem exists_stops {cs : List Char} (h : EndsWhole cs) : ∃ n, n ≤ maxInt ∧ Stops n cs := by
  cases cs with
  | nil => exact ⟨0, by decide, trivial⟩
  | cons c cs =>
    by_cases hd : isDigitIn 10 c = true
    · exact ⟨0, by decide, stops_zero_of_digit hd⟩
    · exact ⟨1, by decide, h.1, h.2.1, h.2.2, Bool.eq_false_iff.mpr hd⟩

/-- A double with an exponent ends in front of anything but a digit. -/
theorem scan_zero_exponent {cs : List Char} (h : ∀ c ∈ cs.head?, isDigitIn 10 c = false) :
    scan ('0' :: 'e' :: '0' :: cs) = .found (.float (Binary64.ofDecimal 0 0)) 3 := by
  have hrun : run 10 ('0' :: cs) = ['0'] := (IsRun.run_eq ⟨by simp; decide, h⟩ : run 10 (['0'] ++ cs) = _ ∧ _).1
  have hfraction : fraction? ('e' :: '0' :: cs) = none := rfl
  have hexponent : exponent? ('e' :: '0' :: cs) = .ok (some ⟨0, 2⟩) := by
    show exponentDigits 1 1 ('0' :: cs) = _
    rw [exponentDigits, hrun]
    rfl
  have hdouble : readDouble? ['0'] [] 0 = some (Binary64.ofDecimal 0 0) := rfl
  show scanDecimal ['0'] ('e' :: '0' :: cs) = _
  simp [scanDecimal, hfraction, hexponent, hdouble]

end UrlRoutes.Number
