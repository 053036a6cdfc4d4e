import UrlRoutes.Position.Cursor
import UrlRoutes.Proofs.NumberBytes
/-!
# Bounds of what a number parser touches

A number is looked for from the cursor on, and the cursor may be anywhere:
behind the last byte, or inside of a character. Reading stops at some byte, in
front of which there are only ASCII characters of the source, if it moved at
all. So the text of a double is cut out on character boundaries within the
source, and no distance from the cursor is below zero.

Results:
* `cutOut?_eq_some_iff`: a cut is refused unless both its ends are boundaries
  in order.
* `isSlice_of_leads`: ASCII characters read at a cursor are a cut.
* `reaches_literalEnd`: where reading stops, by what is scanned.
* `outcome_settled`: what a policy is left to decide, by where reading stops.
* `number_in_bounds`: reading a number stays within the source.
* `number_column_lt`: a column it moves to fits a word of 64 bits.
-/
namespace UrlRoutes

namespace Text

theorem takeBytes?_eq_some_iff {n : Nat} {cs part : List Char} :
    takeBytes? n cs = some part ↔ ∃ after, cs = part ++ after ∧ byteLength part = n := by
  constructor
  · intro h
    induction cs generalizing n part with
    | nil =>
      cases n with
      | zero =>
        cases h
        exact ⟨[], rfl, rfl⟩
      | succ n => cases h
    | cons c cs ih =>
      cases n with
      | zero =>
        cases h
        exact ⟨c :: cs, rfl, rfl⟩
      | succ n =>
        rw [takeBytes?, Option.ite_none_right_eq_some, Option.map_eq_some_iff] at h
        obtain ⟨hle, tail, htail, rfl⟩ := h
        obtain ⟨after, rfl, hlen⟩ := ih htail
        exact ⟨after, rfl, by rw [byteLength, hlen]; omega⟩
  · rintro ⟨after, rfl, rfl⟩
    exact takeBytes?_byteLength_append part after

/-- `part` is what `cs` has between the bytes `start` and `stop`, which both
are boundaries of characters. -/
def IsSlice (cs : List Char) (start stop : Nat) (part : List Char) : Prop :=
  ∃ before after, cs = before ++ (part ++ after) ∧ byteLength before = start ∧ stop = start + byteLength part

theorem IsSlice.le_byteLength {cs part : List Char} {start stop : Nat} (h : IsSlice cs start stop part) :
    start ≤ stop ∧ stop ≤ byteLength cs := by
  obtain ⟨before, after, rfl, rfl, rfl⟩ := h
  rw [byteLength_append, byteLength_append]
  omega

end Text

namespace Parser
open Number Text
variable {κ χ α : Type}

/-- A cut is refused unless both its ends are boundaries in order. -/
theorem cutOut?_eq_some_iff {s : State κ} {i : Nat} {part : List Char} :
    cutOut? s i = some part ↔ IsSlice s.source.toList s.offset i part := by
  rw [cutOut?, gap?, Option.bind_eq_some_iff]
  simp only [Option.ite_none_right_eq_some, Option.bind_eq_some_iff, Option.some.injEq, dropBytes?_eq_some_iff,
    takeBytes?_eq_some_iff]
  constructor
  · rintro ⟨n, ⟨hle, rfl⟩, _, ⟨before, hcs, hbefore⟩, after, rfl, hpart⟩
    exact ⟨before, after, hcs, hbefore, by omega⟩
  · rintro ⟨before, after, hcs, hbefore, rfl⟩
    exact ⟨_, ⟨Nat.le_add_right _ _, rfl⟩, _, ⟨before, hcs, hbefore⟩, after, rfl, by omega⟩

/-- ASCII characters read at a cursor are a cut. -/
theorem isSlice_of_leads {s : State κ} {n : Nat} (h : Leads n s.rest) (hn : n ≠ 0) :
    IsSlice s.source.toList s.offset (s.offset + n) (s.rest.take n) := by
  rcases s.at_rest_or_stuck with hs | ⟨hrest, -⟩
  · exact cutOut?_eq_some_iff.mp (cutOut?_leads hs h)
  · have hle := h.length_le
    rw [hrest, List.length_nil] at hle
    exact absurd (Nat.le_zero.mp hle) hn

theorem isPlain_of_mem_take {n : Nat} {cs : List Char} {c : Char} (h : Leads n cs) (hc : c ∈ cs.take n) :
    IsPlain c := by
  obtain ⟨as, bs, rfl, rfl, hp⟩ := h
  rw [List.take_left] at hc
  exact hp c hc

/-! ## Where reading stops -/

/-- The byte at which the literal at the cursor ends; the error is the byte at
which it breaks off. -/
def literalEnd (s : State κ) : Except Nat Nat :=
  let bs := bytes s.source.toList
  if ascii? bs s.offset = some '0' then
    match ascii? bs (s.offset + 1) with
    | some 'x' => .ok (digitsFrom 16 bs (some 0) (s.offset + 2)).1
    | some 'o' => .ok (digitsFrom 8 bs (some 0) (s.offset + 2)).1
    | some 'b' => .ok (digitsFrom 2 bs (some 0) (s.offset + 2)).1
    | _ => decimalEnd bs (s.offset + 1)
  else decimalEnd bs (digitsFrom 10 bs (some 0) s.offset).1

/-- What is scanned when reading starts at byte `first` and goes on for `n` bytes. -/
inductive Reaches (first n : Nat) : Scan → Except Nat Nat → Prop where
  | absent (hn : n = 0) : Reaches first n .absent (.ok (first + n))
  | found (literal : Literal) (hn : n ≠ 0) : Reaches first n (.found literal n) (.ok (first + n))
  /-- There is a literal, but it has no digits, or its number is too large. -/
  | refused (hn : n ≠ 0) : Reaches first n (.malformed 0) (.ok (first + n))
  | dangling : Reaches first n (.malformed n) (.error (first + n))

theorem Reaches.byte_eq {first n i : Nat} {scan : Scan} {stop : Except Nat Nat}
    (h : Reaches first n scan stop) (hi : stop = .ok i ∨ stop = .error i) : i = first + n := by
  cases h <;> simp_all

theorem reaches_scanBased {cs r : List Char} {i base : Nat} (form : Nat → Literal) (hbase : 0 < base)
    (h : dropBytes? (i + 2) cs = some r) :
    Reaches i ((Number.run base r).length + 2) (scanBased base form r)
      (.ok (digitsFrom base (bytes cs) (some 0) (i + 2)).1) := by
  rw [digitsFrom_eq_checked? hbase h, Nat.add_assoc, Nat.add_comm 2, scanBased]
  split
  · exact .refused (Nat.succ_ne_zero _)
  · exact .found _ (Nat.succ_ne_zero _)

theorem reaches_scanDecimal {cs ds r : List Char} {i : Nat} (h : dropBytes? (i + ds.length) cs = some r) :
    Reaches i (ds.length + decimalSpan r) (scanDecimal ds r) (decimalEnd (bytes cs) (i + ds.length)) := by
  have hway := scanDecimal_way ds r
  generalize scanDecimal ds r = scan at hway
  cases hway with
  | dangling he =>
    rw [decimalEnd_of_error h he, Nat.add_assoc]
    exact .dangling
  | nothing he hwhole hspan =>
    rw [decimalEnd_of_ok h he, Nat.add_assoc]
    exact .absent (by rw [hwhole, hspan]; rfl)
  | int he hwhole hspan =>
    rw [decimalEnd_of_ok h he, hspan, Nat.add_assoc]
    exact .found _ (List.length_pos_of_ne_nil hwhole).ne'
  | double he hlength =>
    rw [decimalEnd_of_ok h he, Nat.add_assoc]
    exact .found _ hlength.ne'
  | broken he hlength =>
    rw [decimalEnd_of_ok h he, Nat.add_assoc]
    exact .refused hlength.ne'

theorem literalEnd_radix {s : State κ} {x : Radix} {r : List Char} (hx : x ∈ radixes)
    (hs : s.At ('0' :: x.letter :: r)) :
    literalEnd s = .ok (digitsFrom x.base (bytes s.source.toList) (some 0) (s.offset + 2)).1 := by
  unfold literalEnd
  simp only [ascii?_zero hs, ascii?_letter hx hs, if_true]
  simp only [radixes, List.mem_cons, List.not_mem_nil, or_false] at hx
  rcases hx with rfl | rfl | rfl <;> rfl

theorem literalEnd_zero {s : State κ} {r : List Char} (hletter : ∀ c ∈ r.head?, ∀ x ∈ radixes, c ≠ x.letter)
    (hs : s.At ('0' :: r)) : literalEnd s = decimalEnd (bytes s.source.toList) (s.offset + 1) := by
  have hnext := ascii?_ne_letter hletter hs
  simp only [radixes, List.forall_mem_cons, List.not_mem_nil, false_imp_iff, implies_true, and_true] at hnext
  unfold literalEnd
  simp only [ascii?_zero hs, if_true]
  split
  · next h => exact absurd h hnext.1
  · next h => exact absurd h hnext.2.1
  · next h => exact absurd h hnext.2.2
  · rfl

/-- Off every boundary, and at the end, nothing is touched. -/
theorem literalEnd_of_stuck {s : State κ} (h : dropBytes? s.offset s.source.toList = none) :
    literalEnd s = .ok s.offset := by
  have hbyte : ascii? (bytes s.source.toList) s.offset = none := ascii?_of_stuck h
  rw [literalEnd, if_neg (by simp [hbyte]), digitsFrom_of_none (digitAt?_of_stuck h 10)]
  simp [decimalEnd, exponentEnd, hbyte]

/-- Reading stops where the ASCII characters end that were scanned. -/
theorem reaches_literalEnd (s : State κ) :
    ∃ n, Leads n s.rest ∧ Reaches s.offset n (scan s.rest) (literalEnd s) := by
  rcases s.at_rest_or_stuck with hs | ⟨hrest, hstuck⟩
  · rcases scan_cases s.rest with ⟨x, hx, r, hrest, hscan⟩ | ⟨r, hrest, hletter, hscan⟩ | ⟨hz, hscan⟩
    · have hdigits : dropBytes? (s.offset + 2) s.source.toList = some r :=
        dropBytes?_succ (dropBytes?_succ (hrest ▸ hs) isPlain_zero) (isPlain_letter hx)
      refine ⟨(Number.run x.base r).length + 2, ?_, ?_⟩
      · rw [hrest]
        exact ((leads_run x.base r).cons (isPlain_letter hx)).cons isPlain_zero
      · rw [hscan, literalEnd_radix hx (hrest ▸ hs)]
        exact reaches_scanBased x.form (Nat.lt_of_lt_of_le Nat.zero_lt_two (base_of_mem_radixes hx).1) hdigits
    · refine ⟨['0'].length + decimalSpan r, ?_, ?_⟩
      · rw [hrest]
        exact leads_decimal (List.forall_mem_singleton.mpr isPlain_zero) r
      · rw [hscan, literalEnd_zero hletter (hrest ▸ hs)]
        exact reaches_scanDecimal (dropBytes?_succ (hrest ▸ hs) isPlain_zero)
    · have hzero : ascii? (bytes s.source.toList) s.offset ≠ some '0' :=
        mt (ascii?_eq_some_iff hs (by decide)).mp hz
      refine ⟨(Number.run 10 s.rest).length + decimalSpan (afterRun 10 s.rest), ?_, ?_⟩
      · have hplain : ∀ c ∈ Number.run 10 s.rest, IsPlain c := fun c hc => isPlain_of_mem_run hc
        have hleads := leads_decimal hplain (afterRun 10 s.rest)
        rwa [run_append] at hleads
      · rw [hscan, literalEnd, if_neg hzero, digitsFrom_of_left (dropBytes?_of_at hs)]
        exact reaches_scanDecimal (dropBytes?_run 10 (dropBytes?_of_at hs))
  · refine ⟨0, leads_zero _, ?_⟩
    rw [hrest, scan_nil, literalEnd_of_stuck hstuck]
    exact .absent rfl

/-! ## What a policy decides -/

/-- What is left to a policy when a literal ends or breaks off at a byte. The
cursor, and the column of a fault, move by the bytes in between. -/
inductive Outcome (policy : NumberPolicy χ α) (s : State κ) : Except Nat Nat → Result κ χ α → Prop where
  | nothing : Outcome policy s (.ok s.offset) (.bad false (s.fail policy.expecting))
  | accepted {i : Nat} (hi : s.offset < i) (value : α) : Outcome policy s (.ok i)
      (.good true value (s.advance ⟨i, s.position.line, s.position.column + (i - s.offset)⟩))
  | refused {i : Nat} (hi : s.offset < i) (problem : χ) : Outcome policy s (.ok i) (.bad true (s.fail problem))
  | dangling (i : Nat) : Outcome policy s (.error i)
      (.bad true (s.failAt s.position.line (s.position.column + (i - s.offset)) policy.invalid))

theorem outcome_settled (policy : NumberPolicy χ α) {s : State κ} {n : Nat} {scan : Scan}
    {stop : Except Nat Nat} (h : Reaches s.offset n scan stop) : Outcome policy s stop (settled policy s scan) := by
  have hgap : s.offset + n - s.offset = n := Nat.add_sub_cancel_left s.offset n
  cases h with
  | absent hn =>
    subst hn
    exact .nothing
  | found literal hn =>
    have hi : s.offset < s.offset + n := Nat.lt_add_of_pos_right (Nat.pos_of_ne_zero hn)
    rw [settled]
    cases policy.accept literal with
    | ok value =>
      have hposition : pastLiteral s.position n =
          ⟨s.offset + n, s.position.line, s.position.column + (s.offset + n - s.offset)⟩ := by
        rw [hgap]
        rfl
      rw [decided, hposition]
      exact .accepted hi value
    | error problem => exact .refused hi problem
  | refused hn => exact .refused (Nat.lt_add_of_pos_right (Nat.pos_of_ne_zero hn)) policy.invalid
  | dangling =>
    have hcolumn : s.position.column + n = s.position.column + (s.offset + n - s.offset) := by rw [hgap]
    rw [settled, hcolumn]
    exact .dangling (s.offset + n)

/-- Wherever the cursor is, reading a number by bytes has a result: what it cuts
out lies on boundaries within the source, and what it moves by is not below zero.
From the cursor on it goes over ASCII characters of the source, or nowhere, so
that the column, too, grows by no more than there are bytes. -/
theorem number_in_bounds (policy : NumberPolicy χ α) (s : State κ) :
    numberInBytes policy s = some (number policy s) ∧
    Outcome policy s (literalEnd s) (number policy s) ∧
    ∀ i, literalEnd s = .ok i ∨ literalEnd s = .error i →
      s.offset ≤ i ∧ i - s.offset ≤ byteLength s.source.toList ∧
        (i ≠ s.offset → ∃ part, IsSlice s.source.toList s.offset i part ∧ ∀ c ∈ part, IsPlain c) := by
  obtain ⟨n, hleads, hreaches⟩ := reaches_literalEnd s
  refine ⟨numberInBytes_eq policy s, ?_, fun i hi => ?_⟩
  · rw [number_eq_settled]
    exact outcome_settled policy hreaches
  · obtain rfl := hreaches.byte_eq hi
    by_cases hn : n = 0
    · subst hn
      exact ⟨Nat.le_refl _, by omega, fun hne => absurd rfl hne⟩
    · have hslice := isSlice_of_leads hleads hn
      have hle := hslice.le_byteLength
      exact ⟨hle.1, by omega, fun _ => ⟨_, hslice, fun c hc => isPlain_of_mem_take hleads hc⟩⟩

/-- The column of the end of a number, or of its fault, fits a word where the line does. -/
theorem number_column_lt {s : State κ} {i : Nat} (hfits : s.position.Fits s.rest)
    (hi : literalEnd s = .ok i ∨ literalEnd s = .error i) : s.position.column + (i - s.offset) < UInt64.size := by
  obtain ⟨n, ⟨as, bs, hrest, rfl, hplain⟩, hreaches⟩ := reaches_literalEnd s
  have hline : ∀ c ∈ as, decide (c ≠ '\n') = true := fun c hc => decide_eq_true (hplain c hc).2
  have hcolumn := hfits.column
  rw [hrest, List.takeWhile_append_of_pos hline, List.length_append] at hcolumn
  rw [hreaches.byte_eq hi]
  omega

/-- Inside of a character there is nothing to read, and nothing is cut out. -/
example : numberInBytes (.ints "expecting" "invalid") ({ source := "é1", position := ⟨1, 1, 2⟩ } : State Unit) =
    some (.bad false [⟨1, 2, "expecting", []⟩]) := by
  rw [numberInBytes_eq]
  rfl

end Parser
end UrlRoutes
