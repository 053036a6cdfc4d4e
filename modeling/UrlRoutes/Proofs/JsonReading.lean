import UrlRoutes.Value.Json
import UrlRoutes.Proofs.Integers
/-!
# Reading JSON back

The JSON text of a value is a document that stands for the value, provided
its integers fit 64 signed bits, its records are sorted and nest no deeper
than a document may, and it holds no double. A string is read character by
character: each is written as itself, behind a backslash, or as its code unit,
which is never a surrogate.

The readers take fuel, and it is not part of what they do: each step takes a
character or descends once, so twice the length of the text is enough.

Results:
* `joinPieces_surrogates`: characters are read from pairs of surrogates.
* `readString_escapeJson`, `readNumber_toDigits`: a written string or integer
  reads back, and what follows it is left.
* `readJson_toJson`: a value that is carried reads back.
* `readValue_eq_readFirst`: with enough fuel the reader gives one answer.
-/
namespace UrlRoutes
open Number

namespace Json
open Value (escapeJson quotedJson)

/-! ## Strings -/

/-- The three ways of writing a character. -/
theorem escapeJson_cases (c : Char) :
    (∃ l, escaped? l = some c ∧ escapeJson c = ['\\', l]) ∨
    (c.toNat < 0x20 ∧ escapeJson c =
      ['\\', 'u', '0', '0', Nat.digitChar (c.toNat / 16), Nat.digitChar (c.toNat % 16)]) ∨
    (c ≠ '"' ∧ c ≠ '\\' ∧ 0x20 ≤ c.toNat ∧ escapeJson c = [c]) := by
  unfold escapeJson
  iterate 7
    split
    · next h => subst h; exact .inl ⟨_, rfl, rfl⟩
  split
  · next h => exact .inr (.inl ⟨h, rfl⟩)
  · next h => exact .inr (.inr ⟨‹_›, ‹_›, Nat.le_of_not_lt h, rfl⟩)

theorem readPieces_escape {l c : Char} (h : escaped? l = some c) (rest : List Char) :
    readPieces ('\\' :: l :: rest) = (readPieces rest).map fun (ps, left) => (.char c :: ps, left) := by
  have hu : l ≠ 'u' := by rintro rfl; cases h
  simp [readPieces, h, hu]

theorem readPieces_unit {n : Nat} (h : n < 0x20) (rest : List Char) :
    readPieces ('\\' :: 'u' :: '0' :: '0' :: Nat.digitChar (n / 16) :: Nat.digitChar (n % 16) :: rest) =
      (readPieces rest).map fun (ps, left) => (.unit n :: ps, left) := by
  have hdigits : ∀ n, n < 0x20 →
      ['0', '0', Nat.digitChar (n / 16), Nat.digitChar (n % 16)].all (isDigitIn 16) = true ∧
      ofDigits 16 ['0', '0', Nat.digitChar (n / 16), Nat.digitChar (n % 16)] = n := by decide
  obtain ⟨hall, hvalue⟩ := hdigits n h
  rw [readPieces, if_pos hall, hvalue]

theorem readPieces_char {c : Char} (hquote : c ≠ '"') (hslash : c ≠ '\\') (hc : 0x20 ≤ c.toNat)
    (rest : List Char) :
    readPieces (c :: rest) = (readPieces rest).map fun (ps, left) => (.char c :: ps, left) := by
  have hcontrol : ¬ c.toNat < 0x20 := Nat.not_lt.mpr hc
  simp [readPieces, hslash, hcontrol]

/-- A code unit below the blank is no surrogate. -/
theorem joinPieces_unit {n : Nat} (h : n < 0x20) (ps : List Piece) :
    joinPieces (.unit n :: ps) = (joinPieces ps).map (Char.ofNat n :: ·) := by
  have hhigh : isHighSurrogate n = false := by simp [isHighSurrogate]; omega
  have hlow : isLowSurrogate n = false := by simp [isLowSurrogate]; omega
  cases ps with
  | nil => simp [joinPieces, hhigh, hlow]
  | cons p ps => cases p <;> simp [joinPieces, hhigh, hlow]

/-- A character outside the first plane is read from its two surrogates. -/
theorem joinPieces_surrogates {c : Char} (h : 0x10000 ≤ c.toNat) (ps : List Piece) :
    joinPieces (.unit (0xd800 + (c.toNat - 0x10000) / 0x400) ::
        .unit (0xdc00 + (c.toNat - 0x10000) % 0x400) :: ps) = (joinPieces ps).map (c :: ·) := by
  have hmax : c.toNat < 0x110000 := by
    rcases c.valid with hlow | ⟨-, hhigh⟩
    · exact Nat.lt_trans hlow (by decide)
    · exact hhigh
  have hhigh : isHighSurrogate (0xd800 + (c.toNat - 0x10000) / 0x400) = true := by
    simp [isHighSurrogate]; omega
  have hlow : isLowSurrogate (0xdc00 + (c.toNat - 0x10000) % 0x400) = true := by
    simp [isLowSurrogate]; omega
  have hvalue : 0x10000 + (0xd800 + (c.toNat - 0x10000) / 0x400 - 0xd800) * 0x400 +
      (0xdc00 + (c.toNat - 0x10000) % 0x400 - 0xdc00) = c.toNat := by omega
  rw [joinPieces, hhigh, hlow, hvalue, Char.ofNat_toNat]
  rfl

theorem exists_piece (c : Char) : ∃ p,
    (∀ rest, readPieces (escapeJson c ++ rest) = (readPieces rest).map fun (ps, left) => (p :: ps, left)) ∧
    ∀ ps, joinPieces (p :: ps) = (joinPieces ps).map (c :: ·) := by
  rcases escapeJson_cases c with ⟨l, hl, htext⟩ | ⟨hc, htext⟩ | ⟨hquote, hslash, hc, htext⟩
  · exact ⟨.char c, fun rest => by rw [htext]; exact readPieces_escape hl rest, fun ps => rfl⟩
  · refine ⟨.unit c.toNat, fun rest => by rw [htext]; exact readPieces_unit hc rest, fun ps => ?_⟩
    rw [joinPieces_unit hc, Char.ofNat_toNat]
  · exact ⟨.char c, fun rest => by rw [htext]; exact readPieces_char hquote hslash hc rest, fun ps => rfl⟩

theorem exists_pieces (cs rest : List Char) : ∃ ps,
    readPieces (cs.flatMap escapeJson ++ '"' :: rest) = some (ps, rest) ∧ joinPieces ps = some cs := by
  induction cs with
  | nil => exact ⟨[], by simp [readPieces], rfl⟩
  | cons c cs ih =>
    obtain ⟨ps, hread, hjoin⟩ := ih
    obtain ⟨p, hp, hc⟩ := exists_piece c
    refine ⟨p :: ps, ?_, by rw [hc, hjoin]; rfl⟩
    rw [List.flatMap_cons, List.append_assoc, hp, hread]
    rfl

theorem readString_escapeJson (s : String) (rest : List Char) :
    readString (s.toList.flatMap escapeJson ++ '"' :: rest) = some (s, rest) := by
  obtain ⟨ps, hread, hjoin⟩ := exists_pieces s.toList rest
  simp [readString, hread, hjoin]

theorem toList_quotedJson (s : String) :
    (quotedJson s).toList = '"' :: s.toList.flatMap escapeJson ++ ['"'] := by
  simp [quotedJson]

/-! ## Integers -/

/-- What may follow a member: nothing, the next member, or the end of the object. -/
def EndsMember (cs : List Char) : Prop := ∀ c ∈ cs.head?, c = ',' ∨ c = '\x7d'

theorem readNumber_toDigits (negative : Bool) {n : Nat} {rest : List Char} (hrest : EndsMember rest)
    (hn : if negative then 0 < n ∧ n ≤ maxInt + 1 else n ≤ maxInt) :
    readNumber negative (Nat.toDigits 10 n ++ rest) = some (.int (if negative then -n else n), rest) := by
  have hstop : ∀ c ∈ rest.head?, isDigitIn 10 c = false ∧ c ≠ '.' ∧ c ≠ 'e' ∧ c ≠ 'E' := by
    intro c hc
    rcases hrest c hc with rfl | rfl <;> decide
  have hrun : IsRun 10 (Nat.toDigits 10 n) rest :=
    ⟨toDigits_all (by decide) (by decide) n, fun c hc => (hstop c hc).1⟩
  obtain ⟨hwhole, hafter⟩ := hrun.run_eq
  have hfraction : fraction? rest = none := fraction?_of_head_ne fun h => (hstop '.' h).2.1 rfl
  have hexponent : exponent? rest = .ok none := exponent?_of_head_ne fun c hc => (hstop c hc).2.2
  have hlead : ¬ ((Nat.toDigits 10 n).head? = some '0' ∧ 1 < (Nat.toDigits 10 n).length) := by
    rintro ⟨hzero, hlong⟩
    obtain rfl : n = 0 := Nat.eq_zero_of_not_pos fun h => head?_toDigits h hzero
    exact absurd hlong (by decide)
  have hvalue := ofDigits_toDigits (by decide : 1 < 10) (by decide) n
  unfold readNumber
  cases negative <;> simp_all

theorem readValue_digit {c : Char} (hc : isDigitIn 10 c = true) (fuel depth : Nat) (cs : List Char) :
    readValue (fuel + 1) depth (c :: cs) = readNumber false (c :: cs) := by
  have hne : ∀ b, isDigitIn 10 b = false → c ≠ b := by rintro b hb rfl; cases hb.symm.trans hc
  have hblank : isBlank c = false := by
    simp [isBlank, hne ' ' (by decide), hne '\t' (by decide), hne '\n' (by decide), hne '\r' (by decide)]
  simp [readValue, skipBlank, hblank, hne 'n' (by decide), hne 't' (by decide), hne 'f' (by decide),
    hne '"' (by decide), hne '-' (by decide), hne '[' (by decide), hne '\x7b' (by decide)]

/-! ## Members -/

variable {fuel depth : Nat} {json : Json} {k : String} {cs rest left : List Char}

theorem readMembers_last (h : readValue fuel depth cs = some (json, '\x7d' :: rest)) :
    readMembers (fuel + 1) depth ((quotedJson k).toList ++ ':' :: cs) = some ([(k, json)], rest) := by
  simp [toList_quotedJson, readMembers, skipBlank, isBlank, readString_escapeJson, h]

theorem readMembers_cons {members : List (String × Json)}
    (h : readValue fuel depth cs = some (json, ',' :: rest))
    (hrest : readMembers fuel depth rest = some (members, left)) :
    readMembers (fuel + 1) depth ((quotedJson k).toList ++ ':' :: cs) = some ((k, json) :: members, left) := by
  simp [toList_quotedJson, readMembers, skipBlank, isBlank, readString_escapeJson, h, hrest]

/-! ## Fuel -/

theorem length_skipBlank_le (cs : List Char) : (skipBlank cs).length ≤ cs.length :=
  (List.dropWhile_sublist isBlank).length_le

theorem length_lt_of_skipBlank {c : Char} {cs rest : List Char} (h : skipBlank cs = c :: rest) :
    rest.length < cs.length := by
  have hle := length_skipBlank_le cs
  rwa [h, List.length_cons] at hle

theorem exists_of_map_cons {p : Piece} {read : Option (List Piece × List Char)} {ps : List Piece}
    {rest : List Char} (h : (read.map fun (qs, left) => (p :: qs, left)) = some (ps, rest)) :
    ∃ qs, read = some (qs, rest) := by
  obtain ⟨⟨qs, left⟩, hread, heq⟩ := Option.map_eq_some_iff.mp h
  cases heq
  exact ⟨qs, hread⟩

theorem length_lt_of_readPieces {cs : List Char} {ps : List Piece} {rest : List Char}
    (h : readPieces cs = some (ps, rest)) : rest.length < cs.length := by
  fun_induction readPieces cs generalizing ps rest with
  | case1 => cases h
  | case2 left => cases h; simp
  | case3 a b c d left hdigits ih =>
    obtain ⟨qs, hread⟩ := exists_of_map_cons h
    have hlt := ih hread
    simp only [List.length_cons]
    omega
  | case4 => cases h
  | case5 left c hu d hd ih =>
    obtain ⟨qs, hread⟩ := exists_of_map_cons h
    have hlt := ih hread
    simp only [List.length_cons]
    omega
  | case6 => cases h
  | case7 => cases h
  | case8 c left hquote hslash hplain hc ih =>
    obtain ⟨qs, hread⟩ := exists_of_map_cons h
    exact Nat.lt_succ_of_lt (ih hread)

theorem length_lt_of_readString {cs : List Char} {s : String} {rest : List Char}
    (h : readString cs = some (s, rest)) : rest.length < cs.length := by
  simp only [readString, Option.bind_eq_bind, Option.bind_eq_some_iff, Option.pure_def, Option.some.injEq,
    Prod.mk.injEq] at h
  obtain ⟨⟨ps, left⟩, hread, -, -, -, rfl⟩ := h
  exact length_lt_of_readPieces hread

theorem length_lt_of_readNumber {negative : Bool} {cs : List Char} {json : Json} {rest : List Char}
    (h : readNumber negative cs = some (json, rest)) : rest.length < cs.length := by
  have hcs := congrArg List.length (run_append 10 cs)
  rw [List.length_append] at hcs
  have hdrop (k : Nat) (hrest : (afterRun 10 cs).drop k = rest) (hne : run 10 cs ≠ []) : rest.length < cs.length := by
    have := List.length_pos_iff.mpr hne
    rw [← hrest, List.length_drop]
    omega
  unfold readNumber at h
  grind

/-- What a reader leaves is shorter than what it was given. -/
theorem length_lt_of_readValue {fuel : Nat} :
    (∀ {depth cs json rest}, readValue fuel depth cs = some (json, rest) → rest.length < cs.length) ∧
    (∀ {depth cs items rest}, readItems fuel depth cs = some (items, rest) → rest.length < cs.length) ∧
    (∀ {depth cs members rest}, readMembers fuel depth cs = some (members, rest) →
      rest.length < cs.length) := by
  induction fuel with
  | zero => simp [readValue, readItems, readMembers]
  | succ fuel ih =>
    obtain ⟨ihValue, ihItems, ihMembers⟩ := ih
    refine ⟨fun {depth cs json rest} h => ?_, fun {depth cs items rest} h => ?_,
      fun {depth cs members rest} h => ?_⟩
    · have hcs := length_skipBlank_le cs
      unfold readValue at h
      split at h
      all_goals grind [length_skipBlank_le, → length_lt_of_readString, → length_lt_of_readNumber,
        Option.map_eq_some_iff]
    · unfold readItems at h
      obtain ⟨⟨item, left⟩, hitem, h⟩ := Option.bind_eq_some_iff.mp h
      have hleft := ihValue hitem
      grind [length_skipBlank_le, Option.bind_eq_some_iff]
    · unfold readMembers at h
      split at h
      · next r hquote =>
        obtain ⟨⟨key, left⟩, hkey, h⟩ := Option.bind_eq_some_iff.mp h
        have hleft := length_lt_of_readString hkey
        dsimp only at h
        split at h
        · next r' hcolon =>
          obtain ⟨⟨value, left'⟩, hvalue, h⟩ := Option.bind_eq_some_iff.mp h
          have hleft' := ihValue hvalue
          grind [length_skipBlank_le, Option.bind_eq_some_iff]
        · cases h
      · cases h

/-- The last unit of fuel is not needed. What stands in front of a value or a
member takes a character, so each reader hands on less text than it was given;
only the first item of an array starts where the array's reader does. -/
theorem readValue_succ {fuel : Nat} :
    (∀ {depth cs}, 2 * cs.length + 1 ≤ fuel → readValue (fuel + 1) depth cs = readValue fuel depth cs) ∧
    (∀ {depth cs}, 2 * cs.length + 2 ≤ fuel → readItems (fuel + 1) depth cs = readItems fuel depth cs) ∧
    (∀ {depth cs}, 2 * cs.length + 2 ≤ fuel → readMembers (fuel + 1) depth cs = readMembers fuel depth cs) := by
  induction fuel with
  | zero => simp
  | succ fuel ih =>
    obtain ⟨ihValue, ihItems, ihMembers⟩ := ih
    refine ⟨fun {depth cs} h => ?_, fun {depth cs} h => ?_, fun {depth cs} h => ?_⟩
    · rw [readValue, readValue]
      split <;> try rfl
      · next r hbracket =>
        have hr := length_lt_of_skipBlank hbracket
        have hblank := length_skipBlank_le r
        split <;> try rfl
        rw [ihItems (by omega)]
      · next r hbrace =>
        have hr := length_lt_of_skipBlank hbrace
        have hblank := length_skipBlank_le r
        split <;> try rfl
        rw [ihMembers (by omega)]
    · rw [readItems, readItems, ihValue (by omega)]
      refine Option.bind_congr fun ⟨item, left⟩ hitem => ?_
      have hleft := length_lt_of_readValue.1 hitem
      dsimp only
      split <;> try rfl
      next r hcomma =>
      have hr := length_lt_of_skipBlank hcomma
      rw [ihItems (by omega)]
    · rw [readMembers, readMembers]
      split <;> try rfl
      next r hquote =>
      have hr := length_lt_of_skipBlank hquote
      refine Option.bind_congr fun ⟨key, left⟩ hkey => ?_
      have hleft := length_lt_of_readString hkey
      dsimp only
      split <;> try rfl
      next r' hcolon =>
      have hr' := length_lt_of_skipBlank hcolon
      rw [ihValue (by omega)]
      refine Option.bind_congr fun ⟨value, left'⟩ hvalue => ?_
      have hleft' := length_lt_of_readValue.1 hvalue
      dsimp only
      split <;> try rfl
      next r'' hcomma =>
      have hr'' := length_lt_of_skipBlank hcomma
      rw [ihMembers (by omega)]

theorem readValue_eq_readFirst {fuel : Nat} {cs : List Char} (h : 2 * cs.length + 2 ≤ fuel) :
    readValue fuel maxDepth cs = readFirst cs := by
  induction fuel, h using Nat.le_induction with
  | base => rfl
  | succ fuel h ih => rw [readValue_succ.1 (by omega), ih]

end Json

/-! ## Values -/

namespace Value
open Json

/-- A JSON document that nests at most `depth` deep can carry the value: its
integers have 64 bits, its records are sorted, and it holds no double. -/
inductive Carried : Nat → Value → Prop where
  | unit {depth : Nat} : Carried depth .unit
  | text {depth : Nat} (s : String) : Carried depth (.text s)
  | int {depth : Nat} {n : Int} (h : -(maxInt + 1) ≤ n) (h' : n ≤ maxInt) : Carried depth (.int n)
  | record {depth : Nat} {fields : Dict Value} (hsorted : fields.Sorted)
      (h : ∀ e ∈ fields.entries, Carried depth e.2) : Carried (depth + 1) (.record fields)

/-- The text of `v` is read as a document that stands for `v`, and what follows it is left. -/
def ReadsBack (depth : Nat) (v : Value) : Prop :=
  ∀ fuel rest, (toJson v).toList.length ≤ fuel → EndsMember rest →
    ∃ json, readValue fuel depth ((toJson v).toList ++ rest) = some (json, rest) ∧ ofJson? json = some v

theorem readsBack_unit (depth : Nat) : ReadsBack depth .unit := by
  intro fuel rest hfuel hrest
  cases fuel with
  | zero => simp [toJson] at hfuel
  | succ fuel => exact ⟨.null, by simp [toJson, readValue, skipBlank, isBlank], rfl⟩

theorem readsBack_text (depth : Nat) (s : String) : ReadsBack depth (.text s) := by
  intro fuel rest hfuel hrest
  cases fuel with
  | zero => simp [toJson, quotedJson] at hfuel
  | succ fuel =>
    refine ⟨.string s, ?_, rfl⟩
    simp [toJson, toList_quotedJson, readValue, skipBlank, isBlank, readString_escapeJson]

theorem readsBack_int (depth : Nat) {n : Int} (h : -(maxInt + 1) ≤ n) (h' : n ≤ maxInt) :
    ReadsBack depth (.int n) := by
  intro fuel rest hfuel hrest
  refine ⟨.int n, ?_, rfl⟩
  cases fuel with
  | zero => cases n <;> simp [toJson, intText, Number.text] at hfuel
  | succ fuel =>
    cases n with
    | ofNat n =>
      have hread := readNumber_toDigits false (n := n) hrest (by simpa using h')
      rw [toJson, intText, Number.text, String.toList_ofList]
      cases hds : Nat.toDigits 10 n with
      | nil => exact absurd hds (toDigits_ne_nil 10 n)
      | cons d ds =>
        have hd : isDigitIn 10 d = true := toDigits_all (by decide) (by decide) n d (by simp [hds])
        rw [hds] at hread
        rw [List.cons_append, readValue_digit hd]
        exact hread
    | negSucc n =>
      have hread := readNumber_toDigits true (n := n + 1) hrest (by simp; omega)
      simp [toJson, intText, Number.text, readValue, skipBlank, isBlank, hread]
      omega

/-- The members of a record, as they stand between its braces. -/
def membersJson (es : List (String × Value)) : List Char := (",".intercalate (entriesJson es)).toList

theorem membersJson_singleton (k : String) (v : Value) :
    membersJson [(k, v)] = (quotedJson k).toList ++ ':' :: (toJson v).toList := by
  simp [membersJson, entriesJson]

theorem membersJson_cons (k : String) (v : Value) (e : String × Value) (es : List (String × Value)) :
    membersJson ((k, v) :: e :: es) =
      (quotedJson k).toList ++ ':' :: ((toJson v).toList ++ ',' :: membersJson (e :: es)) := by
  rw [membersJson, membersJson, entriesJson, entriesJson, String.intercalate_cons_cons]
  simp

theorem readMembers_membersJson {depth : Nat} {e : String × Value} {es : List (String × Value)}
    (h : ∀ x ∈ e :: es, ReadsBack depth x.2) {fuel : Nat} (rest : List Char)
    (hfuel : (membersJson (e :: es)).length ≤ fuel) :
    ∃ members, readMembers fuel depth (membersJson (e :: es) ++ '\x7d' :: rest) = some (members, rest) ∧
      ofMembers? members = some (e :: es) := by
  induction es generalizing e fuel with
  | nil =>
    obtain ⟨k, v⟩ := e
    have hv : ReadsBack depth v := h (k, v) List.mem_cons_self
    rw [membersJson_singleton, List.length_append, List.length_cons] at hfuel
    obtain ⟨fuel, rfl⟩ : ∃ m, fuel = m + 1 := ⟨fuel - 1, by omega⟩
    obtain ⟨json, hread, hjson⟩ := hv fuel ('\x7d' :: rest) (by omega) (by simp [EndsMember])
    refine ⟨[(k, json)], ?_, by simp [ofMembers?, hjson]⟩
    rw [membersJson_singleton, List.append_assoc, List.cons_append]
    exact readMembers_last hread
  | cons e' es ih =>
    obtain ⟨k, v⟩ := e
    have hv : ReadsBack depth v := h (k, v) List.mem_cons_self
    simp only [membersJson_cons, List.length_append, List.length_cons] at hfuel
    obtain ⟨fuel, rfl⟩ : ∃ m, fuel = m + 1 := ⟨fuel - 1, by omega⟩
    obtain ⟨members, hmembers, hentries⟩ :=
      ih (fun x hx => h x (List.mem_cons_of_mem _ hx)) (by omega : (membersJson (e' :: es)).length ≤ fuel)
    obtain ⟨json, hread, hjson⟩ :=
      hv fuel (',' :: (membersJson (e' :: es) ++ '\x7d' :: rest)) (by omega) (by simp [EndsMember])
    refine ⟨(k, json) :: members, ?_, by simp [ofMembers?, hjson, hentries]⟩
    rw [membersJson_cons]
    simpa using readMembers_cons hread hmembers

theorem toList_toJson_record (es : List (String × Value)) :
    (toJson (.record ⟨es⟩)).toList = '\x7b' :: membersJson es ++ ['\x7d'] := by
  simp [toJson, fieldsJson, membersJson]

theorem readsBack_record {depth : Nat} {fields : Dict Value} (hsorted : fields.Sorted)
    (h : ∀ e ∈ fields.entries, ReadsBack depth e.2) : ReadsBack (depth + 1) (.record fields) := by
  intro fuel rest hfuel hrest
  obtain ⟨es⟩ := fields
  rw [toList_toJson_record] at hfuel ⊢
  obtain ⟨fuel, rfl⟩ : ∃ m, fuel = m + 1 := Nat.exists_eq_add_of_le' (Nat.le_trans (by simp) hfuel)
  cases es with
  | nil => exact ⟨.object [], by simp [membersJson, entriesJson, readValue, skipBlank, isBlank], rfl⟩
  | cons e es =>
    simp only [List.length_append, List.length_cons] at hfuel
    obtain ⟨members, hmembers, hentries⟩ :=
      readMembers_membersJson h rest (by omega : (membersJson (e :: es)).length ≤ fuel)
    have hquote : ∃ cs, membersJson (e :: es) = '"' :: cs := by
      obtain ⟨k, v⟩ := e
      cases es <;> simp [membersJson_singleton, membersJson_cons, toList_quotedJson]
    obtain ⟨cs, hcs⟩ := hquote
    refine ⟨.object members, ?_, ?_⟩
    · rw [hcs, List.cons_append] at hmembers
      rw [hcs]
      simp [readValue, skipBlank, isBlank, hmembers]
    · have hfields : Dict.ofList (e :: es) = ⟨e :: es⟩ := Dict.ofList_entries hsorted
      rw [ofJson?, hentries, Option.map_some, hfields]

theorem readsBack_of_carried {depth : Nat} {v : Value} (h : Carried depth v) : ReadsBack depth v := by
  induction h with
  | unit => exact readsBack_unit _
  | text s => exact readsBack_text _ s
  | int h h' => exact readsBack_int _ h h'
  | record hsorted h ih => exact readsBack_record hsorted ih

/-- A value that a document can carry reads back from its text. -/
theorem readJson_toJson {v : Value} (h : Carried maxDepth v) : readJson (toJson v) = .ok v := by
  obtain ⟨json, hread, hjson⟩ :=
    readsBack_of_carried h (2 * (toJson v).toList.length + 2) [] (by omega) (by simp [EndsMember])
  rw [List.append_nil] at hread
  simp [readJson, readFirst, hread, hjson, skipBlank]

end Value
end UrlRoutes
