import UrlRoutes.Proofs.Integers
import UrlRoutes.Proofs.Steps
/-!
# What the number parser recognizes

An integer is recognized exactly where its literal stands, whatever base it
is written in, and the cursor then stands behind it. Too many digits are a
fault behind the lead of a base and a double without one.

Where neither a digit nor a point and a digit stand, there is no number. The
parser says so unless the next character is a point or an exponent letter.
These are read before it is known that no digit was: they count as a broken
number, at the place of the missing exponent digit if an exponent breaks off
there.

Results:
* `number_recognizes_integers`: which integers are recognized, and the faults.
* `number_of_lacksDigits`: what is reported where there is no number.
* `number_faults_word`: a word that begins like an exponent is no missing number.
-/
namespace UrlRoutes

namespace Number

/-! ## No number -/

/-- Neither a digit nor a point and a digit stand in front. -/
def LacksDigits (cs : List Char) : Prop :=
  (∀ c ∈ cs.head?, isDigitIn 10 c = false) ∧
    ∀ r, cs = '.' :: r → ∀ c ∈ r.head?, isDigitIn 10 c = false

/-- The digits of an exponent are missing between `mark` and `r`. -/
def Dangles (mark r : List Char) : Prop := IsMark mark r ∧ ∀ c ∈ r.head?, isDigitIn 10 c = false

theorem exponentDigits_eq_error_iff {lead : Nat} {sign : Int} {cs : List Char} {skipped : Nat} :
    exponentDigits lead sign cs = .error skipped ↔
      (∀ c ∈ cs.head?, isDigitIn 10 c = false) ∧ skipped = lead := by
  rw [← run_eq_nil_iff]
  unfold exponentDigits
  simp only
  split
  · next hnil => simp [hnil, eq_comm]
  · next hne => simp [hne]

theorem exponent?_eq_error_iff {cs : List Char} {skipped : Nat} :
    exponent? cs = .error skipped ↔
      ∃ mark r, cs = mark ++ r ∧ Dangles mark r ∧ skipped = mark.length := by
  refine ⟨fun h => ?_, fun h => ?_⟩
  · rcases mark_cases cs with hletter | ⟨mark, r, rfl, hmark⟩
    · rw [exponent?_of_head_ne hletter] at h
      cases h
    · rw [exponent?_of_isMark hmark] at h
      obtain ⟨hno, rfl⟩ := exponentDigits_eq_error_iff.mp h
      exact ⟨mark, r, rfl, ⟨hmark, hno⟩, rfl⟩
  · obtain ⟨mark, r, rfl, ⟨hmark, hno⟩, rfl⟩ := h
    rw [exponent?_of_isMark hmark]
    exact exponentDigits_eq_error_iff.mpr ⟨hno, rfl⟩

/-- A number without a digit breaks off between `lead` and `r`. -/
def BreaksOff (lead r : List Char) : Prop := Dangles lead r ∨ ∃ mark, lead = '.' :: mark ∧ Dangles mark r

theorem scan_eq_scanDecimal_of_lacksDigits {cs : List Char} (h : LacksDigits cs) :
    scan cs = scanDecimal [] cs := by
  have hhead : cs.head? ≠ some '0' := by
    intro hz
    exact absurd (h.1 '0' hz) (by decide)
  have hrun : run 10 cs = [] := run_eq_nil_iff.mpr h.1
  have hafter : afterRun 10 cs = cs := by
    have happend := run_append 10 cs
    rwa [hrun, List.nil_append] at happend
  rw [scan_of_head_ne hhead, hrun, hafter]

/-- A point is read although no digit follows it. -/
theorem fraction?_of_lacksDigits {r : List Char} (h : LacksDigits ('.' :: r)) :
    fraction? ('.' :: r) = some ⟨[], 1⟩ := by
  have hrun : run 10 r = [] := run_eq_nil_iff.mpr (h.2 r rfl)
  simp [fraction?, hrun]

theorem scan_of_endsWhole {cs : List Char} (h : LacksDigits cs) (hend : EndsWhole cs) : scan cs = .absent := by
  rw [scan_eq_scanDecimal_of_lacksDigits h]
  simp [scanDecimal, fraction?_of_endsWhole hend, exponent?_of_endsWhole hend]

theorem scan_of_breaksOff {lead r : List Char} (h : LacksDigits (lead ++ r)) (hbreak : BreaksOff lead r) :
    scan (lead ++ r) = .malformed lead.length := by
  rw [scan_eq_scanDecimal_of_lacksDigits h]
  rcases hbreak with hdangles | ⟨mark, rfl, hdangles⟩
  · have hhead : (lead ++ r).head? ≠ some '.' := by
      cases hdangles.1 with
      | letter hc | signed hc => rcases hc with rfl | rfl <;> simp
    have hexponent : exponent? (lead ++ r) = .error lead.length :=
      exponent?_eq_error_iff.mpr ⟨lead, r, rfl, hdangles, rfl⟩
    simp [scanDecimal, fraction?_of_head_ne hhead, hexponent]
  · have hexponent : exponent? (mark ++ r) = .error mark.length :=
      exponent?_eq_error_iff.mpr ⟨mark, r, rfl, hdangles, rfl⟩
    rw [List.cons_append] at h ⊢
    simp [scanDecimal, fraction?_of_lacksDigits h, hexponent, Nat.add_comm]

theorem fractionDigits_of_lacksDigits {cs : List Char} (h : LacksDigits cs) :
    ((fraction? cs).map Fraction.digits).getD [] = [] := by
  by_cases hpoint : cs.head? = some '.'
  · obtain ⟨r, rfl⟩ := List.head?_eq_some_iff.mp hpoint
    rw [fraction?_of_lacksDigits h]
    rfl
  · rw [fraction?_of_head_ne hpoint]
    rfl

/-- A point or an exponent that does not break off has no digit to be read with. -/
theorem scan_of_not_breaksOff {cs : List Char} (h : LacksDigits cs) (hend : ¬ EndsWhole cs)
    (hwhole : ∀ lead r, cs = lead ++ r → ¬ BreaksOff lead r) : scan cs = .malformed 0 := by
  rw [scan_eq_scanDecimal_of_lacksDigits h]
  have hway := scanDecimal_way [] cs
  generalize scanDecimal [] cs = scan at hway
  cases hway with
  | dangling he =>
    obtain ⟨mark, r, hdrop, hdangles, -⟩ := exponent?_eq_error_iff.mp he
    by_cases hpoint : cs.head? = some '.'
    · obtain ⟨tail, rfl⟩ := List.head?_eq_some_iff.mp hpoint
      have htail : tail = mark ++ r := by simpa [fractionSpan, fraction?_of_lacksDigits h] using hdrop
      exact absurd (.inr ⟨mark, rfl, hdangles⟩) (hwhole ('.' :: mark) r (congrArg _ htail))
    · have hcs : cs = mark ++ r := by simpa [fractionSpan, fraction?_of_head_ne hpoint] using hdrop
      exact absurd (.inl hdangles) (hwhole mark r hcs)
  | nothing he _ hspan => exact absurd (decimalSpan_eq_zero_iff.mp hspan) hend
  | int he hne => exact absurd rfl hne
  | double he _ _ hx =>
    rw [doubleWith?, fractionDigits_of_lacksDigits h] at hx
    cases hx
  | broken => rfl

end Number

namespace Parser
open Number
variable {κ χ α : Type}

/-! ## Integers -/

theorem number_literals_eq_good_iff {expecting invalid : χ} {s s' : State κ} {g : Bool} {literal : Literal} :
    number (.literals expecting invalid) s = .good g literal s' ↔
      g = true ∧ ∃ length, scan s.rest = .found literal length ∧
        s' = s.advance (pastLiteral s.position length) := by
  rw [number_eq_good_iff]
  refine and_congr_right fun _ => ⟨fun h => ?_, fun h => ?_⟩
  · obtain ⟨l, length, hscan, hl, rfl⟩ := h
    rw [NumberPolicy.accept_literals] at hl
    cases hl
    exact ⟨length, hscan, rfl⟩
  · obtain ⟨length, hscan, rfl⟩ := h
    exact ⟨literal, length, hscan, NumberPolicy.accept_literals _ _ _, rfl⟩

/-- An integer is recognized exactly where it stands, and its literal is what
is read. Behind the lead of a base, no digit and too many digits are a fault
at the cursor; too many decimal digits are never an integer. -/
theorem number_recognizes_integers (expecting invalid : χ) {s : State κ} {cs : List Char} (hs : s.At cs) :
    (∀ literal g s', (∀ x, literal ≠ .float x) →
      (number (.literals expecting invalid) s = .good g literal s' ↔
        g = true ∧ ∃ t r, cs = t ++ r ∧ IsInteger literal t r ∧ s' = s.past t)) ∧
    (∀ x ∈ radixes, ∀ ds r, cs = '0' :: x.letter :: (ds ++ r) → IsRun x.base ds r →
      ds = [] ∨ maxInt < ofDigits x.base ds →
      number (.literals expecting invalid) s = .bad true (s.fail invalid)) ∧
    (∀ ds r, cs = ds ++ r → IsRun 10 ds r → ds.head? ≠ some '0' → maxInt < ofDigits 10 ds →
      ∀ g literal s', number (.literals expecting invalid) s = .good g literal s' → ∃ x, literal = .float x) := by
  refine ⟨fun literal g s' hl => ?_, fun x hx ds r hcs hrun hfault => ?_,
    fun ds r hcs hrun hz hmax g literal s' h => ?_⟩
  · rw [number_literals_eq_good_iff, hs.rest_eq]
    refine and_congr_right fun _ => ⟨fun h => ?_, fun h => ?_⟩
    · obtain ⟨length, hscan, rfl⟩ := h
      obtain ⟨t, r, rfl, rfl, hinteger⟩ := (scan_eq_integer_iff hl).mp hscan
      exact ⟨t, r, rfl, hinteger, by rw [State.past, past_of_scan hscan]⟩
    · obtain ⟨t, r, rfl, hinteger, rfl⟩ := h
      have hscan := scan_of_isInteger hinteger
      exact ⟨t.length, hscan, by rw [State.past, past_of_scan hscan]⟩
  · have hscan : scan s.rest = .malformed 0 := by
      rw [hs.rest_eq, hcs, scan_radix hx, scanBased_of_fault hrun hfault]
    simp only [number, hscan]
    rfl
  · obtain ⟨-, length, hscan, -⟩ := number_literals_eq_good_iff.mp h
    have hne : ds ≠ [] := by
      rintro rfl
      exact absurd hmax (Nat.not_lt_zero _)
    have hhead : (ds ++ r).head? ≠ some '0' := by rwa [List.head?_append_of_ne_nil _ hne]
    obtain ⟨hwhole, hafter⟩ := hrun.run_eq
    rw [hs.rest_eq, hcs, scan_of_head_ne hhead, hwhole, hafter] at hscan
    refine (scanDecimal_form hscan).resolve_left fun hint => ?_
    obtain ⟨n, rfl⟩ := hint
    obtain ⟨-, -, rfl, hle, -⟩ := scanDecimal_eq_int_iff.mp hscan
    exact absurd hle (Nat.not_le.mpr hmax)

/-- Behind zeros, the largest integer there is; what is no digit stays unread. -/
theorem number_recognizes_largest_hex :
    State.At ({ source := "é0x007fffffffffffffffg", position := ⟨2, 1, 2⟩ } : State Label)
      "0x007fffffffffffffffg".toList ∧
    number (.literals Problem.expectingInt .invalid)
        ({ source := "é0x007fffffffffffffffg", position := ⟨2, 1, 2⟩ } : State Label) =
      .good true (.hex maxInt) { source := "é0x007fffffffffffffffg", position := ⟨22, 1, 22⟩ } := by
  have hs : State.At ({ source := "é0x007fffffffffffffffg", position := ⟨2, 1, 2⟩ } : State Label)
      "0x007fffffffffffffffg".toList := by
    unfold State.At
    decide +kernel
  have hrun : IsRun 16 "007fffffffffffffff".toList ['g'] := by
    refine ⟨List.all_eq_true.mp (by decide), fun c hc => ?_⟩
    cases hc
    decide
  have hinteger : IsInteger (.hex maxInt) "0x007fffffffffffffff".toList ['g'] :=
    .based (x := ⟨'x', 16, .hex⟩) (by simp [radixes]) rfl hrun (by decide) (by decide) (Nat.le_refl _)
  exact ⟨hs, ((number_recognizes_integers _ _ hs).1 (.hex maxInt) true _ fun x => Literal.noConfusion).mpr
    ⟨rfl, _, _, rfl, hinteger, rfl⟩⟩

/-! ## No number -/

/-- Where there is no number the parser says so, unless the next character is
a point or an exponent letter. If an exponent breaks off there, the fault is
where its digit is missing, and else at the cursor. -/
theorem number_of_lacksDigits (policy : NumberPolicy χ α) {s : State κ} {cs : List Char} (hs : s.At cs)
    (h : LacksDigits cs) :
    (number policy s = .bad false (s.fail policy.expecting) ↔ ∀ c ∈ cs.head?, c ∉ ['.', 'e', 'E']) ∧
    (∀ lead r, cs = lead ++ r → BreaksOff lead r → number policy s =
      .bad true (s.failAt s.position.line (s.position.column + lead.length) policy.invalid)) ∧
    ((∃ c ∈ cs.head?, c ∈ ['.', 'e', 'E']) → (∀ lead r, cs = lead ++ r → ¬ BreaksOff lead r) →
      number policy s = .bad true (s.fail policy.invalid)) := by
  have hends : EndsWhole cs ↔ ∀ c ∈ cs.head?, c ∉ ['.', 'e', 'E'] := by
    cases cs <;> simp [EndsWhole]
  have hfault : ∀ {skipped}, scan cs = .malformed skipped → number policy s =
      .bad true (s.failAt s.position.line (s.position.column + skipped) policy.invalid) := by
    intro skipped hscan
    simp only [number, hs.rest_eq, hscan]
  have hbreaks : ∀ lead r, cs = lead ++ r → BreaksOff lead r → scan cs = .malformed lead.length := by
    rintro lead r rfl hbreak
    exact scan_of_breaksOff h hbreak
  refine ⟨⟨fun habsent => ?_, fun hhead => ?_⟩, fun lead r hcs hbreak => hfault (hbreaks lead r hcs hbreak),
    fun hhead hwhole => ?_⟩
  · -- any other first character makes a fault, which is progress
    rw [← hends]
    by_contra hend
    by_cases hwhole : ∀ lead r, cs = lead ++ r → ¬ BreaksOff lead r
    · rw [hfault (scan_of_not_breaksOff h hend hwhole)] at habsent
      cases habsent
    · push Not at hwhole
      obtain ⟨lead, r, hcs, hbreak⟩ := hwhole
      rw [hfault (hbreaks lead r hcs hbreak)] at habsent
      cases habsent
  · simp only [number, hs.rest_eq, scan_of_endsWhole h (hends.mpr hhead)]
  · have hend : ¬ EndsWhole cs := by
      rw [hends]
      push Not
      exact hhead
    exact hfault (scan_of_not_breaksOff h hend hwhole)

/-- A point, an exponent letter and a sign, and no digit anywhere. -/
theorem number_of_lacksDigits_lone_exponent :
    State.At ({ source := "é.e+x", position := ⟨2, 1, 2⟩ } : State Label) ".e+x".toList ∧
    LacksDigits ".e+x".toList ∧ BreaksOff ".e+".toList ['x'] ∧
    number (.ints Problem.expectingInt .invalid)
      ({ source := "é.e+x", position := ⟨2, 1, 2⟩ } : State Label) = .bad true [⟨1, 5, .invalid, []⟩] := by
  have hs : State.At ({ source := "é.e+x", position := ⟨2, 1, 2⟩ } : State Label) ".e+x".toList := rfl
  have hlacks : LacksDigits ".e+x".toList := by
    refine ⟨fun c hc => ?_, fun r hr c hc => ?_⟩
    · cases hc
      decide
    · cases hr
      cases hc
      decide
  have hstop : ∀ c ∈ ['x'].head?, isDigitIn 10 c = false := by
    intro c hc
    cases hc
    decide
  have hbreaks : BreaksOff ".e+".toList ['x'] :=
    .inr ⟨['e', '+'], rfl, .signed (.inl rfl) (.inl rfl), hstop⟩
  exact ⟨hs, hlacks, hbreaks, (number_of_lacksDigits _ hs hlacks).2.1 _ _ rfl hbreaks⟩

/-- A word that begins like an exponent is taken for a broken number, one column behind the cursor. -/
theorem number_faults_word :
    State.At ({ source := "event" } : State Label) "event".toList ∧ LacksDigits "event".toList ∧
      number (.ints Problem.expectingInt .invalid) ({ source := "event" } : State Label) =
        .bad true [⟨1, 2, .invalid, []⟩] ∧
      number (.ints Problem.expectingInt .invalid) ({ source := "event" } : State Label) ≠
        .bad false (State.fail ({ source := "event" } : State Label) .expectingInt) := by
  have hfault : number (.ints Problem.expectingInt .invalid) ({ source := "event" } : State Label) =
      .bad true [⟨1, 2, .invalid, []⟩] := rfl
  have hlacks : LacksDigits "event".toList := by
    refine ⟨fun c hc => ?_, fun r hr => ?_⟩
    · cases hc
      decide
    · cases hr
  refine ⟨rfl, hlacks, hfault, fun h => ?_⟩
  rw [hfault] at h
  cases h

end Parser
end UrlRoutes
