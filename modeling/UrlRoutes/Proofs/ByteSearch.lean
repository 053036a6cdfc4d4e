import UrlRoutes.Proofs.Cuts
import UrlRoutes.Route.Boundary
import UrlRoutes.Url.Percent
/-!
# Searching the bytes of a text

The bytes of a literal are looked for in the bytes of a text. UTF-8 tells the
first byte of a character from its other bytes, so the literal is never found
inside a character, and its first place in the bytes is where the text is cut
in front of it. Of many literals the one found earliest counts.

Results:
* `bytes_prefix_iff`: bytes lead where the characters do.
* `findBytes_bytes`: the first place of a literal.
* `Boundary.find?_utf8`: the earliest place of a boundary.
-/
namespace UrlRoutes
namespace Text

def bytes (cs : List Char) : List UInt8 := cs.flatMap String.utf8EncodeChar

def findBytes (needle : List UInt8) : List UInt8 → Option Nat
  | [] => if needle = [] then some 0 else none
  | b :: bs => if needle.isPrefixOf (b :: bs) then some 0 else (findBytes needle bs).map (· + 1)

@[simp] theorem bytes_nil : bytes [] = [] := rfl

@[simp] theorem bytes_cons (c : Char) (cs : List Char) :
    bytes (c :: cs) = String.utf8EncodeChar c ++ bytes cs := List.flatMap_cons

theorem length_bytes (cs : List Char) : (bytes cs).length = byteLength cs := by
  induction cs with
  | nil => rfl
  | cons c cs ih => simp [ih, String.length_utf8EncodeChar]

theorem bytes_toList (s : String) : bytes s.toList = Percent.utf8 s := by
  rw [Percent.utf8, String.toUTF8, ← String.utf8Encode_toList, List.utf8Encode, List.data_toByteArray]
  rfl

/-! ## Bytes of a character -/

/-- Bytes that begin with a character begin with no other one. -/
theorem eq_of_utf8EncodeChar_append {c e : Char} {xs ys : List UInt8}
    (h : String.utf8EncodeChar c ++ xs = String.utf8EncodeChar e ++ ys) : c = e := by
  have hdecode := congrArg (fun bs => bs.toByteArray.utf8DecodeChar? 0) h
  simpa [List.toByteArray_append, ByteArray.utf8DecodeChar?_utf8EncodeChar_append] using hdecode

theorem exists_firstByte (c : Char) :
    ∃ b bs, String.utf8EncodeChar c = b :: bs ∧ b.IsUTF8FirstByte := by
  have hpos := c.utf8Size_pos
  cases hc : String.utf8EncodeChar c with
  | nil =>
    have hlen := String.length_utf8EncodeChar c
    rw [hc] at hlen
    simp at hlen
    omega
  | cons b bs =>
    have hi : 0 < (String.utf8EncodeChar c).length := by simp [hc]
    have hat : (String.utf8EncodeChar c)[0] = b := by simp [hc]
    exact ⟨b, bs, rfl, hat ▸ UInt8.isUTF8FirstByte_getElem_utf8EncodeChar.mpr rfl⟩

/-- Behind its first byte a character has no first byte. -/
theorem not_firstByte_inside {c : Char} {xs ys : List UInt8} {b : UInt8}
    (h : String.utf8EncodeChar c = xs ++ b :: ys) (hxs : xs ≠ []) : ¬ b.IsUTF8FirstByte := by
  intro hb
  have hi : xs.length < (String.utf8EncodeChar c).length := by rw [h]; simp
  have hat : (String.utf8EncodeChar c)[xs.length] = b := by simp [h]
  have hzero := UInt8.isUTF8FirstByte_getElem_utf8EncodeChar.mp (hat ▸ hb)
  exact hxs (List.eq_nil_of_length_eq_zero hzero)

/-- Above ASCII every byte of a character has its high bit set. -/
theorem exists_high_of_mem_utf8EncodeChar {c : Char} (hc : 127 < c.val.toNat) {b : UInt8}
    (hb : b ∈ String.utf8EncodeChar c) : ∃ n, b = UInt8.ofNat n ∧ 128 ≤ n ∧ n < 256 := by
  rw [String.utf8EncodeChar, if_neg (by omega)] at hb
  split at hb
  · simp only [List.mem_cons, List.not_mem_nil, or_false] at hb
    rcases hb with rfl | rfl <;> exact ⟨_, rfl, by omega, by omega⟩
  · split at hb <;> simp only [List.mem_cons, List.not_mem_nil, or_false] at hb
    · rcases hb with rfl | rfl | rfl <;> exact ⟨_, rfl, by omega, by omega⟩
    · rcases hb with rfl | rfl | rfl | rfl <;> exact ⟨_, rfl, by omega, by omega⟩

/-! ## Bytes of a literal -/

/-- Bytes lead where the characters do. -/
theorem bytes_prefix_iff {d cs : List Char} : bytes d <+: bytes cs ↔ d <+: cs := by
  induction d generalizing cs with
  | nil => simp
  | cons e d ih =>
    cases cs with
    | nil =>
      obtain ⟨b, bs, he, -⟩ := exists_firstByte e
      simp [he]
    | cons c cs =>
      rw [List.cons_prefix_cons, bytes_cons, bytes_cons]
      refine ⟨fun h => ?_, fun h => ?_⟩
      · obtain ⟨tail, htail⟩ := h
        rw [List.append_assoc] at htail
        obtain rfl := eq_of_utf8EncodeChar_append htail
        rw [List.append_cancel_left_eq] at htail
        exact ⟨rfl, ih.mp ⟨tail, htail⟩⟩
      · obtain ⟨rfl, hd⟩ := h
        exact List.prefix_append_right_inj _ |>.mpr (ih.mpr hd)

theorem isPrefixOf_bytes (d cs : List Char) : (bytes d).isPrefixOf (bytes cs) = d.isPrefixOf cs := by
  rw [Bool.eq_iff_iff, List.isPrefixOf_iff_prefix, List.isPrefixOf_iff_prefix, bytes_prefix_iff]

/-- A literal does not stand inside a character. -/
theorem isPrefixOf_inside {d : List Char} (hd : d ≠ []) {c : Char} {xs ys : List UInt8}
    (h : String.utf8EncodeChar c = xs ++ ys) (hxs : xs ≠ []) (hys : ys ≠ []) (bs : List UInt8) :
    (bytes d).isPrefixOf (ys ++ bs) = false := by
  cases d with
  | nil => exact absurd rfl hd
  | cons e d =>
    cases ys with
    | nil => exact absurd rfl hys
    | cons b ys =>
      obtain ⟨first, others, he, hfirst⟩ := exists_firstByte e
      have hne : first ≠ b := by
        rintro rfl
        exact not_firstByte_inside h hxs hfirst
      simp [he, List.isPrefixOf, hne]

/-! ## Searches -/

theorem findBytes_of_isPrefixOf {needle bs : List UInt8} (h : needle.isPrefixOf bs = true) :
    findBytes needle bs = some 0 := by
  cases bs with
  | nil => simpa [findBytes] using h
  | cons b bs => rw [findBytes, if_pos h]

/-- A search goes past bytes at none of which it ends. -/
theorem findBytes_append {needle xs ys : List UInt8}
    (h : ∀ x y, xs = x ++ y → y ≠ [] → needle.isPrefixOf (y ++ ys) = false) :
    findBytes needle (xs ++ ys) = (findBytes needle ys).map (· + xs.length) := by
  induction xs with
  | nil => simp
  | cons x xs ih =>
    have hx := h [] (x :: xs) rfl (by simp)
    have hxs := ih fun a b hab hb => h (x :: a) b (by simp [hab]) hb
    rw [List.cons_append] at hx ⊢
    rw [findBytes, if_neg (by simp [hx]), hxs, Option.map_map]
    rfl

/-- The first place of a literal in a text is where the text is cut in front of it. -/
theorem findBytes_bytes (d cs : List Char) :
    findBytes (bytes d) (bytes cs) = (cutAt d cs).map fun cut => byteLength cut.1 := by
  induction cs with
  | nil =>
    have hd := isPrefixOf_bytes d []
    by_cases h : d.isPrefixOf [] = true
    · rw [findBytes_of_isPrefixOf (hd.trans h), cutAt, cutWhere, if_pos h]
      rfl
    · have hne : bytes d ≠ [] := by
        intro he
        rw [he] at hd
        exact h hd.symm
      rw [bytes_nil, findBytes, if_neg hne, cutAt, cutWhere, if_neg h]
      rfl
  | cons c cs ih =>
    by_cases h : d.isPrefixOf (c :: cs) = true
    · rw [findBytes_of_isPrefixOf ((isPrefixOf_bytes d (c :: cs)).trans h), cutAt, cutWhere, if_pos h]
      rfl
    · have hd : d ≠ [] := by
        rintro rfl
        exact h rfl
      have hskip : ∀ xs ys, String.utf8EncodeChar c = xs ++ ys → ys ≠ [] →
          (bytes d).isPrefixOf (ys ++ bytes cs) = false := by
        intro xs ys hc hys
        by_cases hxs : xs = []
        · rw [hxs, List.nil_append] at hc
          rw [← hc, ← bytes_cons, isPrefixOf_bytes, Bool.eq_false_iff]
          exact h
        · exact isPrefixOf_inside hd hc hxs hys _
      have hcut : cutAt d (c :: cs) = (cutAt d cs).map fun cut => (c :: cut.1, cut.2) := by
        rw [cutAt, cutWhere, if_neg h]
      rw [bytes_cons, findBytes_append hskip, ih, hcut]
      cases cutAt d cs with
      | none => rfl
      | some cut => simp [String.length_utf8EncodeChar, Nat.add_comm]

end Text

namespace Boundary
open Text

def isDigitByte (b : UInt8) : Bool := 48 ≤ b && b ≤ 57

/-- The earliest place of the boundary among some bytes. -/
def find? : Boundary → List UInt8 → Option Nat
  | anyOf options, bs => (options.filterMap fun option => findBytes (Percent.utf8 option) bs).min?
  | digit, bs => bs.findIdx? isDigitByte

/-! ## The earliest of many -/

/-- The text is cut in front of the option that stands first. -/
theorem min?_findBytes (options : List String) (cs : List Char) :
    (options.filterMap fun option => findBytes (Percent.utf8 option) (bytes cs)).min? =
      ((anyOf options).cut? cs).map fun cut => byteLength cut.1 := by
  simp only [← bytes_toList, findBytes_bytes]
  cases hcut : (anyOf options).cut? cs with
  | none =>
    have hno := cutWhere_eq_none_iff.mp hcut
    have hnone : ∀ option ∈ options, cutAt option.toList cs = none := by
      intro option ho
      refine cutWhere_eq_none_iff.mpr fun x y hxy => ?_
      have hy := hno x y hxy
      rw [startsAt, List.any_eq_false] at hy
      exact Bool.eq_false_iff.mpr (hy option ho)
    have hempty : options.filterMap (fun option =>
        (cutAt option.toList cs).map fun cut => byteLength cut.1) = [] := by
      rw [List.filterMap_eq_nil_iff]
      intro option ho
      simp [hnone option ho]
    rw [hempty]
    rfl
  | some cut =>
    obtain ⟨before, after⟩ := cut
    obtain ⟨hcs, hstart, hfirst⟩ := cutWhere_eq_some_iff.mp hcut
    obtain ⟨option, ho, hpre⟩ := List.any_eq_true.mp hstart
    have hearlier : ∀ other ∈ options, ∀ x y, before = x ++ y → y ≠ [] →
        other.toList.isPrefixOf (y ++ after) = false := by
      intro other hother x y hxy hy
      have hno := hfirst x y hxy hy
      rw [startsAt, List.any_eq_false] at hno
      exact Bool.eq_false_iff.mpr (hno other hother)
    have hhere : cutAt option.toList cs = some (before, after) :=
      cutWhere_eq_some_iff.mpr ⟨hcs, hpre, hearlier option ho⟩
    refine List.min?_eq_some_iff.mpr ⟨List.mem_filterMap.mpr ⟨option, ho, by simp [hhere]⟩, ?_⟩
    intro n hn
    obtain ⟨other, hother, hn⟩ := List.mem_filterMap.mp hn
    obtain ⟨⟨x, y⟩, hxy, rfl⟩ := Option.map_eq_some_iff.mp hn
    obtain ⟨hcs', hpre', -⟩ := cutWhere_eq_some_iff.mp hxy
    rcases List.append_eq_append_iff.mp (hcs.symm.trans hcs') with ⟨z, rfl, -⟩ | ⟨z, rfl, rfl⟩
    · simp
    · -- an option that stood earlier would have cut there
      by_cases hz : z = []
      · simp [hz]
      · rw [hearlier other hother x z rfl hz] at hpre'
        cases hpre'

/-! ## The first digit -/

theorem isDigitByte_ofNat {n : Nat} (h : n < 256) :
    isDigitByte (UInt8.ofNat n) = decide (48 ≤ n ∧ n ≤ 57) := by
  simp [isDigitByte, UInt8.le_iff_toNat_le, Nat.mod_eq_of_lt h]

theorem isDigit_eq_decide (c : Char) : c.isDigit = decide (48 ≤ c.val.toNat ∧ c.val.toNat ≤ 57) := by
  simp [Char.isDigit, UInt32.le_iff_toNat_le]

/-- A digit is one byte, and no byte of another character is a digit. -/
theorem findIdx?_utf8EncodeChar (c : Char) :
    (String.utf8EncodeChar c).findIdx? isDigitByte = if c.isDigit then some 0 else none := by
  have hdigit := isDigit_eq_decide c
  by_cases hone : c.val.toNat ≤ 127
  · rw [String.utf8EncodeChar, if_pos hone, List.findIdx?_cons, isDigitByte_ofNat (by omega), hdigit]
    rfl
  · have hno : c.isDigit = false := by
      rw [hdigit, decide_eq_false_iff_not]
      omega
    have hbytes : ∀ b ∈ String.utf8EncodeChar c, isDigitByte b = false := by
      intro b hb
      obtain ⟨n, rfl, hlow, hlt⟩ := exists_high_of_mem_utf8EncodeChar (by omega) hb
      rw [isDigitByte_ofNat hlt, decide_eq_false_iff_not]
      omega
    rw [hno, List.findIdx?_eq_none_iff.mpr hbytes]
    rfl

theorem findIdx?_isDigitByte (cs : List Char) :
    (bytes cs).findIdx? isDigitByte = (digit.cut? cs).map fun cut => byteLength cut.1 := by
  induction cs with
  | nil => rfl
  | cons c cs ih =>
    have hcut : digit.cut? (c :: cs) = if c.isDigit then some ([], c :: cs)
        else (digit.cut? cs).map fun cut => (c :: cut.1, cut.2) := by
      rw [cut?, cutWhere, startsAt]
    rw [bytes_cons, List.findIdx?_append, findIdx?_utf8EncodeChar, ih, hcut]
    split
    · rfl
    · cases digit.cut? cs with
      | none => rfl
      | some cut => simp [String.length_utf8EncodeChar, Nat.add_comm]

/-- The earliest place of a boundary in a text is where the text is cut at it. -/
theorem find?_utf8 (b : Boundary) (s : String) :
    b.find? (Percent.utf8 s) = (b.cut? s.toList).map fun cut => byteLength cut.1 := by
  rw [← bytes_toList]
  cases b with
  | anyOf options => exact min?_findBytes options s.toList
  | digit => exact findIdx?_isDigitByte s.toList

/-- The option that stands first counts, not the one that is listed first. -/
example : (anyOf ["b", "é"]).find? (Percent.utf8 "üéb") = some 2 := by decide

end Boundary
end UrlRoutes
