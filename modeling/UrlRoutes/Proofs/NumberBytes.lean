import UrlRoutes.Proofs.ByteSearch
import UrlRoutes.Proofs.Integers
import UrlRoutes.Proofs.Steps
/-!
# Numbers read byte by byte

The number parser once more, over the bytes of the source. It goes from byte
to byte and asks the policy on the spot: digits are added up in an integer
that may not grow above its bound, a double is cut out of the source when its
last byte is known, and a cursor moves by the difference of two offsets. A cut
outside of the source or through a character, and a difference below zero, are
no results at all.

There always is a result, and it is that of the parser which scans first and
judges afterwards. So what a policy accepts or refuses has no part in what is
read.

Results:
* `ascii?_of_left`, `ascii?_of_stuck`: the bytes at a cursor.
* `digitsFrom_of_left`: digits added up under a bound.
* `doubleOf?_slice`: the double cut out is the one that was scanned.
* `numberInBytes_eq`: reading by bytes is scanning and judging.
* `number_eq_judged`: a policy only judges what every policy reads.
-/
namespace UrlRoutes

namespace Number
open Text

/-! ## Reading bytes -/

/-- The ASCII character that a byte is. -/
def asciiChar? (b : UInt8) : Option Char := if b.toNat < 128 then some (Char.ofNat b.toNat) else none

def ascii? (bs : List UInt8) (i : Nat) : Option Char := bs[i]?.bind asciiChar?

def checked? (n : Nat) : Option Nat := if n ≤ maxInt then some n else none

/-- One more digit behind a number, multiplied first and added afterwards. -/
def addDigit? (base : Nat) (total : Option Nat) (d : Nat) : Option Nat :=
  (total.bind fun n => checked? (n * base)).bind fun n => checked? (n + d)

def digitAt? (base : Nat) (bs : List UInt8) (i : Nat) : Option Nat :=
  ((ascii? bs i).bind digitValue?).filter (· < base)

theorem lt_length_of_digitAt? {base d i : Nat} {bs : List UInt8} (h : digitAt? base bs i = some d) :
    i < bs.length := by
  by_contra hi
  rw [digitAt?, ascii?, List.getElem?_eq_none (Nat.le_of_not_lt hi)] at h
  cases h

/-- Adds up the digits of `base` from byte `i` on: where they end, and their
number together with what was there before. -/
def digitsFrom (base : Nat) (bs : List UInt8) (total : Option Nat) (i : Nat) : Nat × Option Nat :=
  match h : digitAt? base bs i with
  | some d => digitsFrom base bs (addDigit? base total d) (i + 1)
  | none => (i, total)
termination_by bs.length - i
decreasing_by
  have := lt_length_of_digitAt? h
  omega

theorem digitsFrom_of_some {base d i : Nat} {bs : List UInt8} {total : Option Nat} (h : digitAt? base bs i = some d) :
    digitsFrom base bs total i = digitsFrom base bs (addDigit? base total d) (i + 1) := by
  rw [digitsFrom]
  split
  · next e he => rw [Option.some.inj (he.symm.trans h)]
  · next he => cases he.symm.trans h

theorem digitsFrom_of_none {base i : Nat} {bs : List UInt8} {total : Option Nat} (h : digitAt? base bs i = none) :
    digitsFrom base bs total i = (i, total) := by
  rw [digitsFrom]
  split
  · next e he => cases he.symm.trans h
  · rfl

def digitsEnd (bs : List UInt8) (i : Nat) : Nat := (digitsFrom 10 bs none i).1

/-- Where an exponent at byte `i` ends; the error is the place of its missing digit. -/
def exponentEnd (bs : List UInt8) (i : Nat) : Except Nat Nat :=
  if ascii? bs i = some 'e' ∨ ascii? bs i = some 'E' then
    let first := if ascii? bs (i + 1) = some '+' ∨ ascii? bs (i + 1) = some '-' then i + 2 else i + 1
    if digitsEnd bs first = first then .error first else .ok (digitsEnd bs first)
  else .ok i

def decimalEnd (bs : List UInt8) (i : Nat) : Except Nat Nat :=
  exponentEnd bs (if ascii? bs i = some '.' then digitsEnd bs (i + 1) else i)

def doubleOf? (cs : List Char) : Option Float :=
  let tail := afterRun 10 cs
  match exponent? (tail.drop (fractionSpan tail)) with
  | .error _ => none
  | .ok e => if decimalSpan tail = tail.length then doubleWith? (run 10 cs) tail e else none

/-! ## Bytes at a cursor -/

theorem digitValue?_of_high {c : Char} (h : ¬ c.toNat < 128) : digitValue? c = none := by
  by_contra hd
  obtain ⟨d, hd⟩ := Option.ne_none_iff_exists'.mp hd
  have hplain : isDigitIn (d + 1) c = true := by simp [isDigitIn, hd]
  have hsize := (isPlain_of_isDigitIn hplain).1
  rw [Char.utf8Size_eq_one_iff, UInt32.le_iff_toNat_le] at hsize
  exact h (Nat.lt_succ_of_le hsize)

theorem utf8EncodeChar_of_ascii {c : Char} (h : c.toNat < 128) :
    String.utf8EncodeChar c = [UInt8.ofNat c.toNat] := by
  have hbyte : (UInt8.ofNat c.toNat).toNat = c.toNat := by
    rw [UInt8.toNat_ofNat', Nat.mod_eq_of_lt (by omega)]
  have hchar := Percent.utf8EncodeChar_ascii (b := UInt8.ofNat c.toNat) (by omega)
  rwa [hbyte, Char.ofNat_toNat] at hchar

theorem asciiChar?_of_high {c : Char} (hc : ¬ c.toNat < 128) {b : UInt8} (hb : b ∈ String.utf8EncodeChar c) :
    asciiChar? b = none := by
  have hhigh : 127 < c.val.toNat := Nat.lt_of_succ_le (Nat.le_of_not_lt hc)
  obtain ⟨n, rfl, hlow, hlt⟩ := exists_high_of_mem_utf8EncodeChar hhigh hb
  rw [asciiChar?, UInt8.toNat_ofNat', Nat.mod_eq_of_lt (by omega), if_neg (by omega)]

/-- On a character boundary there is the next character, if it is one byte. -/
theorem ascii?_of_left {cs rest : List Char} {i : Nat} (h : dropBytes? i cs = some rest) :
    ascii? (bytes cs) i = rest.head?.filter (·.toNat < 128) := by
  obtain ⟨before, rfl, rfl⟩ := dropBytes?_eq_some_iff.mp h
  have hbytes : bytes (before ++ rest) = bytes before ++ bytes rest := List.flatMap_append
  rw [ascii?, hbytes, ← length_bytes, List.getElem?_append_right (Nat.le_refl _), Nat.sub_self]
  cases rest with
  | nil => rfl
  | cons c rest =>
    rw [bytes_cons]
    by_cases hc : c.toNat < 128
    · rw [utf8EncodeChar_of_ascii hc]
      simp [asciiChar?, Option.filter_some, hc, Nat.mod_eq_of_lt (show c.toNat < 256 by omega), Char.ofNat_toNat]
    · obtain ⟨b, bs, hbs, -⟩ := exists_firstByte c
      have hb := asciiChar?_of_high hc (b := b) (by simp [hbs])
      simp [hbs, hb, hc, Option.filter_some]

/-- Off every boundary there is a byte of a longer character, or none. -/
theorem ascii?_of_stuck {cs : List Char} {i : Nat} (h : dropBytes? i cs = none) : ascii? (bytes cs) i = none := by
  fun_induction dropBytes? i cs with
  | case1 => cases h
  | case2 n => rfl
  | case3 n c cs hle ih =>
    have hlen : (String.utf8EncodeChar c).length ≤ n + 1 := by rwa [String.length_utf8EncodeChar]
    rw [ascii?, bytes_cons, List.getElem?_append_right hlen, String.length_utf8EncodeChar]
    exact ih h
  | case4 n c cs hlt =>
    have hlen : n + 1 < (String.utf8EncodeChar c).length := by
      rw [String.length_utf8EncodeChar]
      omega
    have hc : ¬ c.toNat < 128 := by
      intro hc
      rw [utf8EncodeChar_of_ascii hc] at hlen
      simp at hlen
    rw [ascii?, bytes_cons, List.getElem?_append_left hlen, List.getElem?_eq_getElem hlen, Option.bind_some]
    exact asciiChar?_of_high hc (List.getElem_mem hlen)

theorem byteLength_plain {cs : List Char} (h : ∀ c ∈ cs, IsPlain c) : byteLength cs = cs.length := by
  have hoffset := Position.past_offset .start cs
  rw [past_plain h] at hoffset
  simpa [Parser.pastLiteral, Position.start] using hoffset.symm

/-- Plain characters are bytes to go over one by one. -/
theorem dropBytes?_plain {cs as bs : List Char} {i : Nat} (h : dropBytes? i cs = some (as ++ bs))
    (hp : ∀ c ∈ as, IsPlain c) : dropBytes? (i + as.length) cs = some bs := by
  obtain ⟨before, rfl, rfl⟩ := dropBytes?_eq_some_iff.mp h
  rw [dropBytes?_eq_some_iff]
  exact ⟨before ++ as, (List.append_assoc before as bs).symm, by rw [byteLength_append, byteLength_plain hp]⟩

theorem dropBytes?_succ {c : Char} {cs rest : List Char} {i : Nat} (h : dropBytes? i cs = some (c :: rest))
    (hc : IsPlain c) : dropBytes? (i + 1) cs = some rest := by
  rw [← List.singleton_append] at h
  exact dropBytes?_plain h (List.forall_mem_singleton.mpr hc)

/-! ## Digits -/

theorem checked?_add_digit {base : Nat} (hbase : 0 < base) (n d : Nat) :
    addDigit? base (checked? n) d = checked? (n * base + d) := by
  have hle : n ≤ n * base := Nat.le_mul_of_pos_right n hbase
  by_cases hn : n ≤ maxInt
  · by_cases hm : n * base ≤ maxInt
    · simp [addDigit?, checked?, hn, hm]
    · simp [addDigit?, checked?, hn, hm, Nat.not_le.mpr (Nat.lt_add_right d (Nat.lt_of_not_le hm))]
  · have hsum : ¬ n * base + d ≤ maxInt := by omega
    simp [addDigit?, checked?, hn, hsum]

/-- A number that once was too large is too large in the end. -/
theorem foldl_addDigit? {base : Nat} (hbase : 0 < base) (ds : List Char) (n : Nat) :
    ds.foldl (fun total c => addDigit? base total ((digitValue? c).getD 0)) (checked? n) =
      checked? (ds.foldl (fun n c => n * base + (digitValue? c).getD 0) n) := by
  induction ds generalizing n with
  | nil => rfl
  | cons c ds ih => rw [List.foldl_cons, checked?_add_digit hbase, ih, List.foldl_cons]

theorem digitAt?_of_left {cs rest : List Char} {i base : Nat} (h : dropBytes? i cs = some rest) :
    digitAt? base (bytes cs) i = (rest.head?.bind digitValue?).filter (· < base) := by
  rw [digitAt?, ascii?_of_left h]
  cases rest with
  | nil => rfl
  | cons c rest =>
    by_cases hc : c.toNat < 128
    · simp [hc, Option.filter_some]
    · simp [hc, Option.filter_some, digitValue?_of_high hc]

theorem digitAt?_of_stuck {cs : List Char} {i : Nat} (h : dropBytes? i cs = none) (base : Nat) :
    digitAt? base (bytes cs) i = none := by
  rw [digitAt?, ascii?_of_stuck h]
  rfl

theorem digitsFrom_of_left {cs rest : List Char} {i base : Nat} (h : dropBytes? i cs = some rest)
    (total : Option Nat) : digitsFrom base (bytes cs) total i = (i + (run base rest).length,
      (run base rest).foldl (fun total c => addDigit? base total ((digitValue? c).getD 0)) total) := by
  induction rest generalizing i total with
  | nil =>
    rw [digitsFrom, digitAt?_of_left h]
    rfl
  | cons c rest ih =>
    by_cases hc : isDigitIn base c = true
    · have hnext := dropBytes?_succ h (isPlain_of_isDigitIn hc)
      have hrun : run base (c :: rest) = c :: run base rest := List.takeWhile_cons_of_pos hc
      rw [isDigitIn, Option.any_eq_true] at hc
      obtain ⟨d, hd, hlt⟩ := hc
      have hdigit : digitAt? base (bytes cs) i = some d := by
        rw [digitAt?_of_left h, List.head?_cons, Option.bind_some, hd, Option.filter_some, if_pos hlt]
      rw [digitsFrom_of_some hdigit, ih hnext, hrun, List.foldl_cons, hd, Option.getD_some, List.length_cons,
        Nat.add_assoc, Nat.add_comm 1]
    · have hrun : run base (c :: rest) = [] := List.takeWhile_cons_of_neg hc
      have hdigit : digitAt? base (bytes cs) i = none := by
        rw [digitAt?_of_left h, List.head?_cons, Option.bind_some, Option.filter_eq_none_iff]
        intro d hd hlt
        exact hc (by simp [isDigitIn, hd, of_decide_eq_true hlt])
      rw [digitsFrom_of_none hdigit, hrun]
      rfl

/-- The digits of a base from a cursor on, added up under the bound. -/
theorem digitsFrom_eq_checked? {cs rest : List Char} {i base : Nat} (hbase : 0 < base)
    (h : dropBytes? i cs = some rest) : digitsFrom base (bytes cs) (some 0) i =
      (i + (run base rest).length, checked? (ofDigits base (run base rest))) := by
  have hzero : some 0 = checked? 0 := rfl
  rw [digitsFrom_of_left h, hzero, foldl_addDigit? hbase]
  rfl

theorem digitsEnd_of_left {cs rest : List Char} {i : Nat} (h : dropBytes? i cs = some rest) :
    digitsEnd (bytes cs) i = i + (run 10 rest).length := by
  rw [digitsEnd, digitsFrom_of_left h]

theorem dropBytes?_run {cs rest : List Char} {i : Nat} (base : Nat) (h : dropBytes? i cs = some rest) :
    dropBytes? (i + (run base rest).length) cs = some (afterRun base rest) := by
  apply dropBytes?_plain
  · rwa [run_append]
  · exact fun c hc => isPlain_of_mem_run hc

/-! ## Decimals -/

theorem ascii?_eq_some_iff {cs rest : List Char} {i : Nat} (h : dropBytes? i cs = some rest) {c : Char}
    (hc : c.toNat < 128) : ascii? (bytes cs) i = some c ↔ rest.head? = some c := by
  rw [ascii?_of_left h, Option.filter_eq_some_iff]
  simp [hc]

/-- Where an exponent at byte `i` ends or breaks off. -/
def placeFrom (i : Nat) : Except Nat (Option Exponent) → Except Nat Nat
  | .error fault => .error (i + exponentSpan (.error fault))
  | .ok e => .ok (i + exponentSpan (.ok e))

theorem placeFrom_exponentDigits {cs rest : List Char} {i lead : Nat} (h : dropBytes? (i + lead) cs = some rest)
    (sign : Int) : placeFrom i (exponentDigits lead sign rest) =
      if digitsEnd (bytes cs) (i + lead) = i + lead then .error (i + lead)
      else .ok (digitsEnd (bytes cs) (i + lead)) := by
  rw [digitsEnd_of_left h, exponentDigits]
  by_cases hrun : run 10 rest = []
  · simp [hrun, placeFrom, exponentSpan]
  · simp [hrun, placeFrom, exponentSpan, Nat.add_assoc]

theorem exponentEnd_of_left {cs rest : List Char} {i : Nat} (h : dropBytes? i cs = some rest) :
    exponentEnd (bytes cs) i = placeFrom i (exponent? rest) := by
  have hletter : (ascii? (bytes cs) i = some 'e' ∨ ascii? (bytes cs) i = some 'E') ↔
      rest.head? = some 'e' ∨ rest.head? = some 'E' := by
    rw [ascii?_eq_some_iff h (by decide), ascii?_eq_some_iff h (by decide)]
  unfold exponentEnd
  rcases mark_cases rest with hno | ⟨mark, r, rfl, hmark⟩
  · have hno' : ¬ (rest.head? = some 'e' ∨ rest.head? = some 'E') := by
      rintro (he | he)
      · exact (hno _ he).1 rfl
      · exact (hno _ he).2 rfl
    rw [if_neg (mt hletter.mp hno'), exponent?_of_head_ne hno]
    rfl
  · rw [exponent?_of_isMark hmark]
    have hdigits := placeFrom_exponentDigits (dropBytes?_plain h hmark.isPlain) (signOf mark)
    cases hmark with
    | @letter c _ hc hsign =>
      have hnext := dropBytes?_succ h ((IsMark.letter hc hsign).isPlain c List.mem_cons_self)
      have hsign' : ¬ (ascii? (bytes cs) (i + 1) = some '+' ∨ ascii? (bytes cs) (i + 1) = some '-') := by
        rw [ascii?_eq_some_iff hnext (by decide), ascii?_eq_some_iff hnext (by decide)]
        rintro (hs | hs)
        · exact (hsign _ hs).1 rfl
        · exact (hsign _ hs).2 rfl
      rw [if_pos (hletter.mpr (by simpa using hc)), if_neg hsign']
      exact hdigits.symm
    | @signed c d _ hc hd =>
      have hnext := dropBytes?_succ h ((IsMark.signed (r := r) hc hd).isPlain c List.mem_cons_self)
      have hsign' : ascii? (bytes cs) (i + 1) = some '+' ∨ ascii? (bytes cs) (i + 1) = some '-' := by
        rw [ascii?_eq_some_iff hnext (by decide), ascii?_eq_some_iff hnext (by decide)]
        simpa using hd
      rw [if_pos (hletter.mpr (by simpa using hc)), if_pos hsign']
      exact hdigits.symm

theorem decimalEnd_of_left {cs rest : List Char} {i : Nat} (h : dropBytes? i cs = some rest) :
    decimalEnd (bytes cs) i =
      placeFrom (i + fractionSpan rest) (exponent? (rest.drop (fractionSpan rest))) := by
  have hpoint : ascii? (bytes cs) i = some '.' ↔ rest.head? = some '.' := ascii?_eq_some_iff h (by decide)
  rw [decimalEnd]
  by_cases hp : rest.head? = some '.'
  · obtain ⟨r, rfl⟩ := List.head?_eq_some_iff.mp hp
    have hnext := dropBytes?_succ h (by constructor <;> decide)
    have hafter := dropBytes?_run 10 hnext
    have hdrop : r.drop (run 10 r).length = afterRun 10 r := by
      have hleft : (run 10 r ++ afterRun 10 r).drop (run 10 r).length = afterRun 10 r := List.drop_left
      rwa [run_append] at hleft
    rw [if_pos (hpoint.mpr hp), digitsEnd_of_left hnext, exponentEnd_of_left hafter]
    simp [fractionSpan, fraction?, hdrop, Nat.add_assoc, Nat.add_comm 1]
  · rw [if_neg (mt hpoint.mp hp), exponentEnd_of_left h, fractionSpan, fraction?_of_head_ne hp]
    rfl

theorem decimalEnd_of_error {cs rest : List Char} {i fault : Nat} (h : dropBytes? i cs = some rest)
    (he : exponent? (rest.drop (fractionSpan rest)) = .error fault) :
    decimalEnd (bytes cs) i = .error (i + decimalSpan rest) := by
  rw [decimalEnd_of_left h, he, placeFrom, decimalSpan, he, Nat.add_assoc]

theorem decimalEnd_of_ok {cs rest : List Char} {i : Nat} {e : Option Exponent} (h : dropBytes? i cs = some rest)
    (he : exponent? (rest.drop (fractionSpan rest)) = .ok e) :
    decimalEnd (bytes cs) i = .ok (i + decimalSpan rest) := by
  rw [decimalEnd_of_left h, he, placeFrom, decimalSpan, he, Nat.add_assoc]

/-! ## The double cut out -/

theorem run_take {base n : Nat} {cs : List Char} (h : (run base cs).length ≤ n) :
    run base (cs.take n) = run base cs := by
  induction cs generalizing n with
  | nil => simp
  | cons c cs ih =>
    by_cases hc : isDigitIn base c = true
    · have hrun : run base (c :: cs) = c :: run base cs := List.takeWhile_cons_of_pos hc
      rw [hrun] at h ⊢
      obtain ⟨n, rfl⟩ : ∃ m, n = m + 1 := ⟨n - 1, by simp at h; omega⟩
      rw [List.take_succ_cons]
      exact (List.takeWhile_cons_of_pos hc).trans (congrArg (c :: ·) (ih (by simpa using h)))
    · cases n with
      | zero => simp [run, hc]
      | succ n => simp [run, hc]

theorem head?_take_eq_some {c : Char} {n : Nat} {cs : List Char} (h : (cs.take n).head? = some c) :
    cs.head? = some c := by
  cases cs with
  | nil => simp at h
  | cons d cs =>
    cases n with
    | zero => simp at h
    | succ n => simpa using h

theorem fraction?_take {n : Nat} {cs : List Char} (h : fractionSpan cs ≤ n) :
    fraction? (cs.take n) = fraction? cs := by
  by_cases hp : cs.head? = some '.'
  · obtain ⟨r, rfl⟩ := List.head?_eq_some_iff.mp hp
    obtain ⟨n, rfl⟩ : ∃ m, n = m + 1 := ⟨n - 1, by simp [fractionSpan, fraction?] at h; omega⟩
    have hrun : run 10 (r.take n) = run 10 r := run_take (by simpa [fractionSpan, fraction?] using h)
    simp [fraction?, hrun]
  · rw [fraction?_of_head_ne hp, fraction?_of_head_ne (mt head?_take_eq_some hp)]

theorem exponent?_take {n : Nat} {cs : List Char} {e : Option Exponent} (he : exponent? cs = .ok e)
    (h : exponentSpan (.ok e) ≤ n) : exponent? (cs.take n) = .ok e := by
  rcases mark_cases cs with hno | ⟨mark, r, rfl, hmark⟩
  · rw [exponent?_of_head_ne fun c hc => hno c (head?_take_eq_some hc), ← he, exponent?_of_head_ne hno]
  · rw [exponent?_of_isMark hmark] at he
    have hlen : mark.length + (run 10 r).length ≤ n := by
      rw [exponentDigits] at he
      split at he
      · cases he
      · cases he
        exact h
    have hmark' : IsMark mark (r.take (n - mark.length)) := by
      cases hmark with
      | letter hc hsign => exact .letter hc fun d hd => hsign d (head?_take_eq_some hd)
      | signed hc hd => exact .signed hc hd
    have hrun : run 10 (r.take (n - mark.length)) = run 10 r := run_take (by omega)
    have htake : (mark ++ r).take n = mark ++ r.take (n - mark.length) := by
      rw [List.take_append, List.take_of_length_le (by omega)]
    rw [htake, exponent?_of_isMark hmark', ← he]
    simp only [exponentDigits, hrun]

/-- A fraction or an exponent ends the digits in front of it. -/
theorem isRun_take {ds : List Char} (hd : ∀ c ∈ ds, isDigitIn 10 c = true) (r : List Char) :
    IsRun 10 ds (r.take (decimalSpan r)) := by
  refine ⟨hd, fun c hc => ?_⟩
  have hend : ¬ EndsWhole r := by
    intro hend
    rw [decimalSpan_eq_zero_iff.mpr hend] at hc
    cases hc
  obtain ⟨r, rfl⟩ := List.head?_eq_some_iff.mp (head?_take_eq_some hc)
  rw [EndsWhole, ← not_or, ← not_or, not_not] at hend
  rcases hend with rfl | rfl | rfl <;> decide

/-- The double that is cut out is the one that was scanned. -/
theorem doubleOf?_slice {ds r : List Char} {e : Option Exponent} (hd : ∀ c ∈ ds, isDigitIn 10 c = true)
    (he : exponent? (r.drop (fractionSpan r)) = .ok e) :
    doubleOf? (ds ++ r.take (decimalSpan r)) = doubleWith? ds r e := by
  obtain ⟨hrun, hafter⟩ := (isRun_take hd r).run_eq
  have hspan : decimalSpan r = fractionSpan r + exponentSpan (.ok e) := by rw [decimalSpan, he]
  have hfraction : fraction? (r.take (decimalSpan r)) = fraction? r := fraction?_take (by omega)
  have hlead : fractionSpan (r.take (decimalSpan r)) = fractionSpan r := by rw [fractionSpan, hfraction, fractionSpan]
  have hexponent : exponent? ((r.take (decimalSpan r)).drop (fractionSpan r)) = .ok e := by
    rw [List.drop_take]
    exact exponent?_take he (by omega)
  have hall : decimalSpan (r.take (decimalSpan r)) = (r.take (decimalSpan r)).length := by
    have hle := (leads_decimal (List.forall_mem_nil IsPlain) r).length_le
    rw [List.length_nil, Nat.zero_add, List.nil_append] at hle
    rw [decimalSpan, hlead, hexponent, ← hspan, List.length_take, Nat.min_eq_left hle]
  rw [doubleOf?]
  simp only [hrun, hafter, hlead, hexponent, hall, doubleWith?, hfraction, if_true]

end Number

namespace Parser
open Number Text
variable {κ χ α : Type}

/-! ## Scanning, then judging -/

/-- A decision on a literal of `length` characters. -/
def decided (s : State κ) (length : Nat) : Except χ α → Result κ χ α
  | .ok value => .good true value (s.advance (pastLiteral s.position length))
  | .error problem => .bad true (s.fail problem)

/-- What a policy makes of a scan. -/
def settled (policy : NumberPolicy χ α) (s : State κ) : Scan → Result κ χ α
  | .absent => .bad false (s.fail policy.expecting)
  | .malformed skipped => .bad true (s.failAt s.position.line (s.position.column + skipped) policy.invalid)
  | .found literal length => decided s length (policy.accept literal)

theorem number_eq_settled (policy : NumberPolicy χ α) (s : State κ) :
    number policy s = settled policy s (scan s.rest) := by
  unfold number settled
  cases scan s.rest with
  | absent => rfl
  | malformed skipped => rfl
  | found literal length =>
    simp only
    cases policy.accept literal <;> rfl

/-- What a policy makes of the literal another one read at `s`. -/
def judged (policy : NumberPolicy χ α) (s : State κ) : Result κ χ Literal → Result κ χ α
  | .good _ literal next =>
    match policy.accept literal with
    | .ok value => .good true value next
    | .error problem => .bad true (s.fail problem)
  | .bad progress problems => .bad progress problems

/-! ## Judging on the spot -/

def gap? (s : State κ) (i : Nat) : Option Nat := if s.offset ≤ i then some (i - s.offset) else none

/-- The state with the cursor at byte `i` of the same line. -/
def landed? (s : State κ) (i : Nat) : Option (State κ) :=
  (gap? s i).map fun n => s.advance ⟨i, s.position.line, s.position.column + n⟩

def cutOut? (s : State κ) (i : Nat) : Option (List Char) :=
  (gap? s i).bind fun n => (dropBytes? s.offset s.source.toList).bind (takeBytes? n)

/-- A decision on the literal that ends at byte `stop`. -/
def decidedAt? (s : State κ) (stop : Nat) : Except χ α → Option (Result κ χ α)
  | .ok value => (landed? s stop).map fun next => .good true value next
  | .error problem => some (.bad true (s.fail problem))

/-- Judges an integer by its digits, which start at byte `first`. -/
def judgeInt (invalid : χ) (handler : Nat → Except χ α) (s : State κ) (first : Nat) (digits : Nat × Option Nat) :
    Option (Result κ χ α) :=
  if first = digits.1 then some (.bad (s.offset < first) (s.fail invalid))
  else
    match digits.2 with
    | none => some (.bad true (s.fail invalid))
    | some n => decidedAt? s digits.1 (handler n)

/-- Judges a decimal whose whole part has these digits. -/
def judgeDecimal (policy : NumberPolicy χ α) (s : State κ) (digits : Nat × Option Nat) : Option (Result κ χ α) :=
  match decimalEnd (bytes s.source.toList) digits.1 with
  | .error fault =>
    (gap? s fault).map fun n => .bad true (s.failAt s.position.line (s.position.column + n) policy.invalid)
  | .ok stop =>
    if stop = s.offset then some (.bad false (s.fail policy.expecting))
    else if stop = digits.1 ∧ digits.2.isSome then judgeInt policy.invalid policy.int s s.offset digits
    else
      (cutOut? s stop).bind fun text =>
        match doubleOf? text with
        | none => some (.bad true (s.fail policy.invalid))
        | some x => decidedAt? s stop (policy.float x)

/-- The number at the cursor, read by bytes and judged on the spot. -/
def numberInBytes (policy : NumberPolicy χ α) (s : State κ) : Option (Result κ χ α) :=
  let bs := bytes s.source.toList
  if ascii? bs s.offset = some '0' then
    let first := s.offset + 2
    match ascii? bs (s.offset + 1) with
    | some 'x' => judgeInt policy.invalid policy.hex s first (digitsFrom 16 bs (some 0) first)
    | some 'o' => judgeInt policy.invalid policy.octal s first (digitsFrom 8 bs (some 0) first)
    | some 'b' => judgeInt policy.invalid policy.binary s first (digitsFrom 2 bs (some 0) first)
    | _ => judgeDecimal policy s (s.offset + 1, some 0)
  else judgeDecimal policy s (digitsFrom 10 bs (some 0) s.offset)

theorem dropBytes?_of_at {s : State κ} {cs : List Char} (hs : s.At cs) :
    dropBytes? s.offset s.source.toList = some cs := hs

theorem dropBytes?_digits {s : State κ} {ds r : List Char} (hs : s.At (ds ++ r))
    (hd : ∀ c ∈ ds, isDigitIn 10 c = true) : dropBytes? (s.offset + ds.length) s.source.toList = some r :=
  dropBytes?_plain hs fun c hc => isPlain_of_isDigitIn (hd c hc)

theorem gap?_add (s : State κ) (n : Nat) : gap? s (s.offset + n) = some n := by
  rw [gap?, if_pos (Nat.le_add_right _ _), Nat.add_sub_cancel_left]

theorem decidedAt?_add (s : State κ) (length : Nat) (decision : Except χ α) :
    decidedAt? s (s.offset + length) decision = some (decided s length decision) := by
  cases decision with
  | ok value =>
    rw [decidedAt?, landed?, gap?_add]
    rfl
  | error problem => rfl

theorem cutOut?_leads {s : State κ} {cs : List Char} {n : Nat} (hs : s.At cs) (h : Leads n cs) :
    cutOut? s (s.offset + n) = some (cs.take n) := by
  obtain ⟨as, bs, rfl, rfl, hp⟩ := h
  have hslice := slice?_append hs
  rw [slice?, Nat.add_sub_cancel_left, byteLength_plain hp] at hslice
  rw [cutOut?, gap?_add, List.take_left]
  exact hslice

/-- Digits that were added up under the bound. -/
theorem judgeInt_checked {s : State κ} {first length : Nat} (hne : first ≠ s.offset + length) (invalid : χ)
    (handler : Nat → Except χ α) (n : Nat) :
    judgeInt invalid handler s first (s.offset + length, checked? n) =
      some (if n ≤ maxInt then decided s length (handler n) else .bad true (s.fail invalid)) := by
  rw [judgeInt, if_neg hne, checked?]
  by_cases hmax : n ≤ maxInt
  · rw [if_pos hmax, if_pos hmax]
    exact decidedAt?_add s length (handler n)
  · rw [if_neg hmax, if_neg hmax]

theorem judgeInt_based {s : State κ} {x : Radix} {r : List Char} (hx : x ∈ radixes)
    (hs : s.At ('0' :: x.letter :: r)) (policy : NumberPolicy χ α) :
    judgeInt policy.invalid (fun n => policy.accept (x.form n)) s (s.offset + 2)
        (digitsFrom x.base (bytes s.source.toList) (some 0) (s.offset + 2)) =
      some (settled policy s (scanBased x.base x.form r)) := by
  have hdigits : dropBytes? (s.offset + 2) s.source.toList = some r :=
    dropBytes?_succ (dropBytes?_succ hs isPlain_zero) (isPlain_letter hx)
  have hbase := (base_of_mem_radixes hx).1
  rw [digitsFrom_eq_checked? (by omega) hdigits, scanBased]
  by_cases hnil : Number.run x.base r = []
  · simp [judgeInt, hnil, settled, State.fail, State.failAt]
  · have hne : s.offset + 2 ≠ s.offset + ((Number.run x.base r).length + 2) := by
      have hpos := List.length_pos_of_ne_nil hnil
      omega
    rw [Nat.add_assoc, Nat.add_comm 2 (Number.run x.base r).length, judgeInt_checked hne]
    by_cases hmax : ofDigits x.base (Number.run x.base r) ≤ maxInt
    · simp only [hmax, hnil, Nat.not_lt.mpr hmax, or_self, if_true, if_false, settled]
    · simp only [hmax, Nat.lt_of_not_le hmax, or_true, if_true, if_false, settled]
      rfl

/-- More than an integer is cut out and read as a double. -/
theorem judgeDecimal_of_double {s : State κ} {ds r : List Char} {e : Option Exponent} (hs : s.At (ds ++ r))
    (hd : ∀ c ∈ ds, isDigitIn 10 c = true) (he : exponent? (r.drop (fractionSpan r)) = .ok e)
    (hlength : 0 < ds.length + decimalSpan r) (hno : decimalSpan r = 0 → maxInt < ofDigits 10 ds)
    (policy : NumberPolicy χ α) :
    judgeDecimal policy s (s.offset + ds.length, checked? (ofDigits 10 ds)) =
      match doubleWith? ds r e with
      | none => some (.bad true (s.fail policy.invalid))
      | some x => some (decided s (ds.length + decimalSpan r) (policy.float x)) := by
  have hcut := cutOut?_leads hs (leads_decimal (fun c hc => isPlain_of_isDigitIn (hd c hc)) r)
  rw [List.take_length_add_append] at hcut
  have hstop : s.offset + (ds.length + decimalSpan r) ≠ s.offset := by omega
  have hint : ¬ (s.offset + (ds.length + decimalSpan r) = s.offset + ds.length ∧
      (checked? (ofDigits 10 ds)).isSome = true) := by
    intro h
    obtain ⟨hlen, hsome⟩ := h
    have hmax := hno (by omega)
    rw [checked?, if_neg (Nat.not_le.mpr hmax)] at hsome
    cases hsome
  rw [judgeDecimal, decimalEnd_of_ok (dropBytes?_digits hs hd) he, Nat.add_assoc]
  simp only [hstop, hint, hcut, doubleOf?_slice hd he, Option.bind_some, decidedAt?_add, if_false]

theorem judgeDecimal_of_left {s : State κ} {ds r : List Char} (hs : s.At (ds ++ r))
    (hd : ∀ c ∈ ds, isDigitIn 10 c = true) (policy : NumberPolicy χ α) :
    judgeDecimal policy s (s.offset + ds.length, checked? (ofDigits 10 ds)) =
      some (settled policy s (scanDecimal ds r)) := by
  have hleft := dropBytes?_digits hs hd
  have hway := scanDecimal_way ds r
  generalize scanDecimal ds r = scan at hway
  cases hway with
  | dangling he =>
    simp only [judgeDecimal, decimalEnd_of_error hleft he, Nat.add_assoc, gap?_add, Option.map_some, settled]
  | nothing he hwhole hspan =>
    rw [judgeDecimal, decimalEnd_of_ok hleft he, hwhole, hspan]
    simp [settled]
  | int he hwhole hspan hmax =>
    have hpos := List.length_pos_of_ne_nil hwhole
    have hstop : s.offset + ds.length ≠ s.offset := by omega
    have hsome : (checked? (ofDigits 10 ds)).isSome = true := by simp [checked?, hmax]
    rw [judgeDecimal, decimalEnd_of_ok hleft he, hspan]
    simp only [Nat.add_zero, hstop, hsome, and_self, if_true, if_false, judgeInt_checked hstop.symm, hmax]
    rfl
  | double he hlength hno hx =>
    rw [judgeDecimal_of_double hs hd he hlength hno, hx]
    rfl
  | broken he hlength hno hx =>
    rw [judgeDecimal_of_double hs hd he hlength hno, hx]
    rfl

theorem ascii?_zero {s : State κ} {r : List Char} (hs : s.At ('0' :: r)) :
    ascii? (bytes s.source.toList) s.offset = some '0' := (ascii?_eq_some_iff hs (by decide)).mpr rfl

theorem ascii?_letter {s : State κ} {x : Radix} {r : List Char} (hx : x ∈ radixes)
    (hs : s.At ('0' :: x.letter :: r)) : ascii? (bytes s.source.toList) (s.offset + 1) = some x.letter := by
  refine (ascii?_eq_some_iff (dropBytes?_succ hs isPlain_zero) ?_).mpr rfl
  simp only [radixes, List.mem_cons, List.not_mem_nil, or_false] at hx
  rcases hx with rfl | rfl | rfl <;> decide

theorem ascii?_ne_letter {s : State κ} {r : List Char} (hletter : ∀ c ∈ r.head?, ∀ x ∈ radixes, c ≠ x.letter)
    (hs : s.At ('0' :: r)) : ∀ x ∈ radixes, ascii? (bytes s.source.toList) (s.offset + 1) ≠ some x.letter := by
  intro x hx hsome
  rw [ascii?_of_left (dropBytes?_succ (dropBytes?_of_at hs) isPlain_zero), Option.filter_eq_some_iff] at hsome
  exact hletter x.letter hsome.1 x hx rfl

theorem numberInBytes_radix {s : State κ} {x : Radix} {r : List Char} (hx : x ∈ radixes)
    (hs : s.At ('0' :: x.letter :: r)) (policy : NumberPolicy χ α) :
    numberInBytes policy s = judgeInt policy.invalid (fun n => policy.accept (x.form n)) s (s.offset + 2)
      (digitsFrom x.base (bytes s.source.toList) (some 0) (s.offset + 2)) := by
  unfold numberInBytes
  simp only [ascii?_zero hs, ascii?_letter hx hs, if_true]
  simp only [radixes, List.mem_cons, List.not_mem_nil, or_false] at hx
  rcases hx with rfl | rfl | rfl <;> rfl

theorem numberInBytes_zero {s : State κ} {r : List Char} (hletter : ∀ c ∈ r.head?, ∀ x ∈ radixes, c ≠ x.letter)
    (hs : s.At ('0' :: r)) (policy : NumberPolicy χ α) :
    numberInBytes policy s = judgeDecimal policy s (s.offset + 1, some 0) := by
  have hnext := ascii?_ne_letter hletter hs
  simp only [radixes, List.forall_mem_cons, List.not_mem_nil, false_imp_iff, implies_true, and_true] at hnext
  unfold numberInBytes
  simp only [ascii?_zero hs, if_true]
  split
  · next h => exact absurd h hnext.1
  · next h => exact absurd h hnext.2.1
  · next h => exact absurd h hnext.2.2
  · rfl

/-- Reading by bytes always has a result, and it is that of scanning first and
judging afterwards. -/
theorem numberInBytes_eq (policy : NumberPolicy χ α) (s : State κ) :
    numberInBytes policy s = some (number policy s) := by
  rw [number_eq_settled]
  rcases s.at_rest_or_stuck with hs | ⟨hrest, hstuck⟩
  · rcases scan_cases s.rest with ⟨x, hx, r, hrest, hscan⟩ | ⟨r, hrest, hletter, hscan⟩ | ⟨hz, hscan⟩
    · rw [hrest] at hs
      rw [numberInBytes_radix hx hs, judgeInt_based hx hs, hscan]
    · rw [hrest] at hs
      rw [numberInBytes_zero hletter hs, hscan]
      rw [← List.singleton_append] at hs
      exact judgeDecimal_of_left hs (List.forall_mem_singleton.mpr (by decide)) policy
    · have hzero : ascii? (bytes s.source.toList) s.offset ≠ some '0' :=
        mt (ascii?_eq_some_iff hs (by decide)).mp hz
      rw [numberInBytes, if_neg hzero, digitsFrom_eq_checked? (by decide) (dropBytes?_of_at hs), hscan]
      rw [← run_append 10 s.rest] at hs
      exact judgeDecimal_of_left hs (isRun_run 10 s.rest).digits policy
  · have hbyte : ascii? (bytes s.source.toList) s.offset = none := ascii?_of_stuck hstuck
    have hdigit : digitAt? 10 (bytes s.source.toList) s.offset = none := digitAt?_of_stuck hstuck 10
    rw [hrest, scan_nil, numberInBytes, if_neg (by simp [hbyte]), digitsFrom_of_none hdigit]
    simp [judgeDecimal, decimalEnd, exponentEnd, hbyte, settled]

/-! ## What policies have no part in -/

theorem number_eq_judged_literals (policy : NumberPolicy χ α) (s : State κ) :
    number policy s = judged policy s (number (.literals policy.expecting policy.invalid) s) := by
  rw [number_eq_settled, number_eq_settled]
  cases scan s.rest with
  | absent => rfl
  | malformed skipped => rfl
  | found literal length =>
    rw [settled, settled, NumberPolicy.accept_literals]
    simp only [decided, judged]

/-- A policy only judges. Whatever it does with each form of literal, reading
byte by byte and asking it on the spot gives what it makes of the literal that
the policy without a judgement reads, and a fault remains as it is. -/
theorem number_eq_judged (policy : NumberPolicy χ α) (s : State κ) :
    numberInBytes policy s = some (number policy s) ∧
    number policy s = judged policy s (number (.literals policy.expecting policy.invalid) s) ∧
    (∀ {β : Type} (f : α → β), number (policy.map f) s = (number policy s).map f) ∧
    (∀ {χ' β : Type} (other : NumberPolicy χ' β) {g g' : Bool} {v : α} {w : β} {next next' : State κ},
      number policy s = .good g v next → number other s = .good g' w next' → next = next') := by
  refine ⟨numberInBytes_eq policy s, number_eq_judged_literals policy s, fun f => ?_, ?_⟩
  · rw [number_map]
    rfl
  · intro χ' β other g g' v w next next' h h'
    obtain ⟨-, literal, length, hscan, -, rfl⟩ := number_eq_good_iff.mp h
    obtain ⟨-, literal', length', hscan', -, rfl⟩ := number_eq_good_iff.mp h'
    rw [hscan] at hscan'
    cases hscan'
    rfl

theorem number_eq_judged_before_slash :
    number (.ints Problem.expectingInt .invalid) ({ source := "42/" } : State Label) =
        .good true 42 { source := "42/", position := ⟨2, 1, 3⟩ } ∧
      ∃ next, number (.literals () ()) ({ source := "42/" } : State Label) = .good true (.int 42) next ∧
        next = { source := "42/", position := ⟨2, 1, 3⟩ } := by
  have hint : number (.ints Problem.expectingInt .invalid) ({ source := "42/" } : State Label) =
      .good true 42 { source := "42/", position := ⟨2, 1, 3⟩ } := rfl
  have hliteral : number (.literals () ()) ({ source := "42/" } : State Label) =
      .good true (.int 42) { source := "42/", position := ⟨2, 1, 3⟩ } := rfl
  exact ⟨hint, _, hliteral, ((number_eq_judged _ _).2.2.2 _ hint hliteral).symm⟩

end Parser
end UrlRoutes
