import UrlRoutes.Proofs.ByteSearch
/-!
# Searches and matches of a literal

A search runs over the bytes of the source and then moves the cursor to the
place it found; a match compares character by character. UTF-8 keeps the two
together: what a search finds is the first character boundary at which the
literal matches. A cursor that is on no boundary stays, whatever is found.

Results:
* `FindsFirst.eq_findBytes`: there is one way to find first places.
* `findLiteral_eq_findInBytes`: a search by bytes, from any cursor.
* `matchChars_eq`: a match gets as far as both texts agree.
* `matchesFrom_iff`: the boundaries behind a cursor at which a literal matches.
* `findLiteral_finds_first`: a search finds the first of them, and a match
  fails behind what agrees.
-/
namespace UrlRoutes

namespace Text

/-- Byte `n` of the text is a character boundary. -/
def IsBoundary (cs : List Char) (n : Nat) : Prop := ∃ before after, cs = before ++ after ∧ byteLength before = n

/-- The longest text that both `as` and `bs` begin with. -/
structure IsLongestStart (common as bs : List Char) : Prop where
  left : common <+: as
  right : common <+: bs
  longest : ∀ other, other <+: as → other <+: bs → other <+: common

/-! ## First places among bytes -/

/-- `needle` leads `bs` from byte `n` on, and from no byte before. -/
def IsFirstPlace (needle bs : List UInt8) (n : Nat) : Prop :=
  needle <+: bs.drop n ∧ ∀ m, m < n → ¬ needle <+: bs.drop m

/-- `find` gives the first place of some bytes among others, if they have one. -/
def FindsFirst (find : List UInt8 → List UInt8 → Option Nat) : Prop :=
  ∀ needle bs n, find needle bs = some n ↔ IsFirstPlace needle bs n

theorem isFirstPlace_here {needle bs : List UInt8} (h : needle <+: bs) {n : Nat} :
    IsFirstPlace needle bs n ↔ 0 = n := by
  constructor
  · rintro ⟨-, hno⟩
    rcases Nat.eq_zero_or_pos n with hn | hn
    · exact hn.symm
    · exact absurd h (hno 0 hn)
  · rintro rfl
    exact ⟨h, fun m hm => absurd hm (Nat.not_lt_zero m)⟩

theorem isFirstPlace_cons {needle bs : List UInt8} {b : UInt8} (h : ¬ needle <+: b :: bs) {n : Nat} :
    IsFirstPlace needle (b :: bs) n ↔ ∃ k, IsFirstPlace needle bs k ∧ k + 1 = n := by
  constructor
  · rintro ⟨hpre, hno⟩
    cases n with
    | zero => exact absurd hpre h
    | succ n => exact ⟨n, ⟨hpre, fun m hm => hno (m + 1) (Nat.succ_lt_succ hm)⟩, rfl⟩
  · rintro ⟨k, ⟨hpre, hno⟩, rfl⟩
    refine ⟨hpre, fun m hm => ?_⟩
    cases m with
    | zero => exact h
    | succ m => exact hno m (Nat.lt_of_succ_lt_succ hm)

theorem findsFirst_findBytes : FindsFirst findBytes := by
  intro needle bs n
  induction bs generalizing n with
  | nil =>
    by_cases h : needle = []
    · rw [isFirstPlace_here (List.prefix_nil.mpr h), findBytes, if_pos h, Option.some.injEq]
    · rw [findBytes, if_neg h, IsFirstPlace, List.drop_nil, List.prefix_nil]
      exact iff_of_false (fun he => by cases he) fun hx => h hx.1
  | cons b bs ih =>
    by_cases h : needle.isPrefixOf (b :: bs) = true
    · rw [isFirstPlace_here (List.isPrefixOf_iff_prefix.mp h), findBytes, if_pos h, Option.some.injEq]
    · rw [isFirstPlace_cons (mt List.isPrefixOf_iff_prefix.mpr h), findBytes, if_neg h, Option.map_eq_some_iff]
      exact exists_congr fun k => and_congr_left fun _ => ih k

/-- There is one way to find first places. -/
theorem FindsFirst.eq_findBytes {find : List UInt8 → List UInt8 → Option Nat} (h : FindsFirst find) :
    find = findBytes := by
  funext needle bs
  ext n
  rw [h needle bs n, findsFirst_findBytes needle bs n]

/-! ## Bytes from a place on -/

theorem bytes_append (as bs : List Char) : bytes (as ++ bs) = bytes as ++ bytes bs := List.flatMap_append

theorem drop_bytes {n : Nat} {cs after : List Char} (h : dropBytes? n cs = some after) :
    (bytes cs).drop n = bytes after := by
  obtain ⟨before, rfl, rfl⟩ := dropBytes?_eq_some_iff.mp h
  rw [bytes_append, ← length_bytes, List.drop_left]

/-- From inside of a character on there are its last bytes, then whole characters. -/
theorem exists_drop_bytes (n : Nat) (cs : List Char) :
    ∃ ys, (bytes cs).drop n = ys ++ bytes (charsFrom n cs) ∧
      (ys = [] ∨ ∃ c xs, String.utf8EncodeChar c = xs ++ ys ∧ xs ≠ []) := by
  fun_induction charsFrom n cs with
  | case1 cs => exact ⟨[], rfl, .inl rfl⟩
  | case2 n => exact ⟨[], rfl, .inl rfl⟩
  | case3 n c cs ih =>
    have hlen := String.length_utf8EncodeChar c
    by_cases hc : c.utf8Size ≤ n + 1
    · obtain ⟨ys, hys, hinside⟩ := ih
      refine ⟨ys, ?_, hinside⟩
      rw [bytes_cons, List.drop_append, List.drop_eq_nil_of_le (by omega), List.nil_append, hlen, hys]
    · have hzero : n + 1 - c.utf8Size = 0 := by omega
      refine ⟨(String.utf8EncodeChar c).drop (n + 1), ?_,
        .inr ⟨c, (String.utf8EncodeChar c).take (n + 1), (List.take_append_drop _ _).symm, ?_⟩⟩
      · rw [bytes_cons, List.drop_append, hlen, hzero, List.drop_zero]
        cases cs <;> rfl
      · intro hnil
        have := congrArg List.length hnil
        rw [List.length_take, hlen, List.length_nil] at this
        omega

/-- Bytes of a character that come before a text do not matter to a search for a literal. -/
theorem isSome_findBytes_drop (d cs : List Char) (n : Nat) :
    (findBytes (bytes d) ((bytes cs).drop n)).isSome = (cutAt d (charsFrom n cs)).isSome := by
  obtain ⟨ys, hys, hinside⟩ := exists_drop_bytes n cs
  rw [hys]
  by_cases hd : d = []
  · subst hd
    have hhere : cutAt [] (charsFrom n cs) = some ([], charsFrom n cs) := cutWhere_here List.isPrefixOf_nil_left
    rw [bytes_nil, findBytes_of_isPrefixOf rfl, hhere]
    rfl
  · have hskip : ∀ x y, ys = x ++ y → y ≠ [] → (bytes d).isPrefixOf (y ++ bytes (charsFrom n cs)) = false := by
      intro x y hxy hy
      rcases hinside with rfl | ⟨c, xs, hc, hxs⟩
      · exact absurd (List.append_eq_nil_iff.mp hxy.symm).2 hy
      · have hsplit : String.utf8EncodeChar c = (xs ++ x) ++ y := by rw [hc, hxy, List.append_assoc]
        exact isPrefixOf_inside hd hsplit (by simp [hxs]) hy _
    rw [findBytes_append hskip, findBytes_bytes, Option.isSome_map, Option.isSome_map]

/-! ## What two texts begin with -/

theorem isLongestStart_of_head_ne {as bs : List Char} (h : ∀ a, as.head? = some a → bs.head? ≠ some a) :
    IsLongestStart [] as bs := by
  refine ⟨List.nil_prefix, List.nil_prefix, ?_⟩
  rintro other ⟨x, rfl⟩ ⟨y, rfl⟩
  cases other with
  | nil => exact List.prefix_rfl
  | cons c other => exact absurd rfl (h c rfl)

theorem IsLongestStart.cons {common as bs : List Char} (h : IsLongestStart common as bs) (c : Char) :
    IsLongestStart (c :: common) (c :: as) (c :: bs) := by
  refine ⟨(List.prefix_cons_inj c).mpr h.left, (List.prefix_cons_inj c).mpr h.right, ?_⟩
  intro other has hbs
  cases other with
  | nil => exact List.nil_prefix
  | cons d other =>
    obtain ⟨rfl, hleft⟩ := List.cons_prefix_cons.mp has
    exact (List.prefix_cons_inj d).mpr (h.longest other hleft (List.cons_prefix_cons.mp hbs).2)

theorem IsLongestStart.unique {common common' as bs : List Char} (h : IsLongestStart common as bs)
    (h' : IsLongestStart common' as bs) : common = common' :=
  (h'.longest common h.left h.right).eq_of_length_le (h.longest common' h'.left h'.right).length_le

/-- All of `as` is common exactly when `bs` begins with it. -/
theorem IsLongestStart.eq_left_iff {common as bs : List Char} (h : IsLongestStart common as bs) :
    common = as ↔ as <+: bs := by
  constructor
  · rintro rfl
    exact h.right
  · intro has
    exact h.left.eq_of_length_le (h.longest as List.prefix_rfl has).length_le

end Text

namespace Position
open Text

/-! ## Matches -/

/-- A match gets as far as both texts agree. -/
theorem matchChars_eq (literal cs : List Char) (p : Position) :
    ∃ common, IsLongestStart common literal cs ∧
      matchChars literal cs p = if common = literal then .ok (p.past common) else .error (p.past common) := by
  fun_induction matchChars literal cs p with
  | case1 => exact ⟨[], isLongestStart_of_head_ne (fun a ha => by cases ha), rfl⟩
  | case2 => exact ⟨[], isLongestStart_of_head_ne (fun a _ ha => by cases ha), rfl⟩
  | case3 ls c cs p ih =>
    obtain ⟨common, hcommon, heq⟩ := ih
    refine ⟨c :: common, hcommon.cons c, ?_⟩
    simp only [heq, List.cons.injEq, true_and, past_cons]
  | case4 l ls c cs p hne =>
    refine ⟨[], isLongestStart_of_head_ne ?_, rfl⟩
    intro a ha hc
    exact hne ((Option.some.inj ha).trans (Option.some.inj hc).symm)

theorem moveTo_leading {p : Position} {source : String} {as rest : List Char}
    (h : p.rest? source = some rest) (has : as <+: rest) :
    p.moveTo (p.offset + byteLength as) source = p.past as := by
  obtain ⟨after, rfl⟩ := has
  exact moveTo_append (by rw [h, Option.getD_some])

theorem matchLiteral_eq_ok_iff {literal source : String} {p q : Position} {rest : List Char}
    (h : p.rest? source = some rest) :
    matchLiteral literal source p = .ok q ↔
      literal.toList <+: rest ∧ q = p.moveTo (p.offset + byteLength literal.toList) source := by
  rw [matchLiteral, h]
  refine matchChars_eq_ok_iff.trans (and_congr_right fun hpre => ?_)
  rw [moveTo_leading h hpre]

theorem matchLiteral_eq_error_iff {literal source : String} {p q : Position} {rest : List Char}
    (h : p.rest? source = some rest) :
    matchLiteral literal source p = .error q ↔
      ¬ literal.toList <+: rest ∧ ∃ common, IsLongestStart common literal.toList rest ∧
        q = p.moveTo (p.offset + byteLength common) source := by
  obtain ⟨common, hcommon, heq⟩ := matchChars_eq literal.toList rest p
  have hplace : p.moveTo (p.offset + byteLength common) source = p.past common :=
    moveTo_leading h hcommon.right
  rw [matchLiteral, h]
  simp only [heq, hcommon.eq_left_iff]
  constructor
  · intro he
    split at he
    · cases he
    · next hno =>
      cases he
      exact ⟨hno, common, hcommon, hplace.symm⟩
  · rintro ⟨hno, common', hcommon', rfl⟩
    rw [if_neg hno, hcommon'.unique hcommon, hplace]

/-- The literal matches at byte `o`, a character boundary, whatever line and
column belong to it. -/
def MatchesAt (literal source : String) (o : Nat) : Prop :=
  IsBoundary source.toList o ∧ ∀ line column, ∃ q, matchLiteral literal source ⟨o, line, column⟩ = .ok q

theorem matchesAt_append_iff {literal source : String} {before after : List Char}
    (h : source.toList = before ++ after) :
    MatchesAt literal source (byteLength before) ↔ literal.toList <+: after := by
  have hrest : ∀ line column, rest? ⟨byteLength before, line, column⟩ source = some after := by
    intro line column
    rw [rest?, h, dropBytes?_byteLength_append]
  constructor
  · rintro ⟨-, hmatch⟩
    obtain ⟨q, hq⟩ := hmatch 1 1
    exact ((matchLiteral_eq_ok_iff (hrest 1 1)).mp hq).1
  · intro hpre
    exact ⟨⟨before, after, h, rfl⟩, fun line column =>
      ⟨_, (matchLiteral_eq_ok_iff (hrest line column)).mpr ⟨hpre, rfl⟩⟩⟩

/-- The boundaries behind a cursor are the ends of leading parts of what is left. -/
theorem matchesFrom_iff {literal source : String} {p : Position} {rest : List Char}
    (h : p.rest? source = some rest) {o : Nat} :
    p.offset ≤ o ∧ MatchesAt literal source o ↔
      ∃ skipped after, rest = skipped ++ after ∧ o = p.offset + byteLength skipped ∧ literal.toList <+: after := by
  obtain ⟨front, hs, hfront⟩ := dropBytes?_eq_some_iff.mp h
  constructor
  · rintro ⟨hle, hmatch⟩
    obtain ⟨before, after, hsplit, rfl⟩ := hmatch.1
    have hpre := (matchesAt_append_iff hsplit).mp hmatch
    rcases List.append_eq_append_iff.mp (hsplit.symm.trans hs) with ⟨x, rfl, rfl⟩ | ⟨skipped, rfl, rfl⟩
    · rw [byteLength_append] at hfront
      obtain rfl : x = [] := byteLength_eq_zero_iff.mp (by omega)
      exact ⟨[], rest, rfl, by simpa using hfront, hpre⟩
    · exact ⟨skipped, after, rfl, by rw [byteLength_append, hfront], hpre⟩
  · rintro ⟨skipped, after, rfl, rfl, hpre⟩
    rw [← List.append_assoc] at hs
    rw [← hfront, ← byteLength_append]
    exact ⟨by rw [byteLength_append]; omega, (matchesAt_append_iff hs).mpr hpre⟩

/-! ## Searches -/

/-- A search for the bytes of `literal` from the cursor on, by a function that
finds bytes among others. -/
def findInBytes (find : List UInt8 → List UInt8 → Option Nat) (literal source : String) (p : Position) :
    Except Position Position :=
  match find (Percent.utf8 literal) ((Percent.utf8 source).drop p.offset) with
  | some n => .ok (p.moveTo (p.offset + n) source)
  | none => .error (p.moveToEnd source)

/-- From any cursor, also one behind the end or inside of a character, a search
comes to what a search of the bytes comes to. -/
theorem findLiteral_eq_findInBytes {find : List UInt8 → List UInt8 → Option Nat} (hfind : FindsFirst find)
    (literal source : String) (p : Position) : findLiteral literal source p = findInBytes find literal source p := by
  rw [hfind.eq_findBytes, findLiteral, findInBytes, ← bytes_toList, ← bytes_toList]
  cases h : p.rest? source with
  | some rest =>
    rw [charsFrom_of_dropBytes? h, drop_bytes h, findBytes_bytes]
    cases cutAt literal.toList rest <;> rfl
  | none =>
    -- whether something is found shows, but not where
    have hfound := isSome_findBytes_drop literal.toList source.toList p.offset
    cases hcut : cutAt literal.toList (charsFrom p.offset source.toList) with
    | some cut =>
      rw [hcut] at hfound
      obtain ⟨n, hn⟩ := Option.isSome_iff_exists.mp hfound
      simp only [hn, moveTo_of_none h]
    | none =>
      rw [hcut] at hfound
      rw [Option.isNone_iff_eq_none.mp (Option.isSome_eq_false_iff.mp hfound)]

/-- The first boundary from byte `start` on at which the literal matches. -/
structure IsFirstMatch (literal source : String) (start o : Nat) : Prop where
  behind : start ≤ o
  matchesAt : MatchesAt literal source o
  first : ∀ o', start ≤ o' → MatchesAt literal source o' → o ≤ o'

theorem IsFirstMatch.unique {literal source : String} {start o o' : Nat} (h : IsFirstMatch literal source start o)
    (h' : IsFirstMatch literal source start o') : o = o' :=
  Nat.le_antisymm (h.first o' h'.behind h'.matchesAt) (h'.first o h.behind h.matchesAt)

theorem isFirstMatch_of_cutAt {literal source : String} {p : Position} {rest skipped after : List Char}
    (h : p.rest? source = some rest) (hcut : cutAt literal.toList rest = some (skipped, after)) :
    IsFirstMatch literal source p.offset (p.offset + byteLength skipped) := by
  obtain ⟨hrest, hstop, hfirst⟩ := cutWhere_eq_some_iff.mp hcut
  have hpre := List.isPrefixOf_iff_prefix.mp hstop
  obtain ⟨hbehind, hmatch⟩ := (matchesFrom_iff h).mpr ⟨skipped, after, hrest, rfl, hpre⟩
  refine ⟨hbehind, hmatch, fun o' hle ho' => ?_⟩
  obtain ⟨skipped', after', hrest', rfl, hpre'⟩ := (matchesFrom_iff h).mp ⟨hle, ho'⟩
  rcases List.append_eq_append_iff.mp (hrest.symm.trans hrest') with ⟨x, rfl, -⟩ | ⟨x, rfl, rfl⟩
  · rw [byteLength_append]
    omega
  · -- a match further ahead would have been cut at
    by_cases hx : x = []
    · simp [hx]
    · have hno := hfirst skipped' x rfl hx
      rw [List.isPrefixOf_iff_prefix.mpr hpre'] at hno
      cases hno

theorem not_matchesAt_of_cutAt {literal source : String} {p : Position} {rest : List Char}
    (h : p.rest? source = some rest) (hcut : cutAt literal.toList rest = none) {o : Nat} (hle : p.offset ≤ o) :
    ¬ MatchesAt literal source o := by
  intro ho
  obtain ⟨skipped, after, hrest, -, hpre⟩ := (matchesFrom_iff h).mp ⟨hle, ho⟩
  have hno := cutWhere_eq_none_iff.mp hcut skipped after hrest
  rw [List.isPrefixOf_iff_prefix.mpr hpre] at hno
  cases hno

/-- A search ends in one of two ways, both said by the boundaries behind the cursor. -/
theorem findLiteral_cases {source : String} {p : Position} {rest : List Char} (literal : String)
    (h : p.rest? source = some rest) :
    (∃ o, IsFirstMatch literal source p.offset o ∧ (p.moveTo o source).offset = o ∧
      findLiteral literal source p = .ok (p.moveTo o source)) ∨
    ((∀ o, p.offset ≤ o → ¬ MatchesAt literal source o) ∧
      findLiteral literal source p = .error (p.moveToEnd source)) := by
  rw [findLiteral, charsFrom_of_dropBytes? h]
  cases hcut : cutAt literal.toList rest with
  | some cut =>
    obtain ⟨skipped, after⟩ := cut
    have hmove := moveTo_leading h ⟨after, (cutWhere_append hcut).symm⟩
    refine .inl ⟨p.offset + byteLength skipped, isFirstMatch_of_cutAt h hcut, ?_, rfl⟩
    rw [hmove, past_offset]
  | none => exact .inr ⟨fun o hle => not_matchesAt_of_cutAt h hcut hle, rfl⟩

theorem findLiteral_eq_ok_iff {literal source : String} {p q : Position} {rest : List Char}
    (h : p.rest? source = some rest) :
    findLiteral literal source p = .ok q ↔
      IsFirstMatch literal source p.offset q.offset ∧ q = p.moveTo q.offset source := by
  rcases findLiteral_cases literal h with ⟨o, hfirst, ho, heq⟩ | ⟨hno, heq⟩
  · rw [heq, Except.ok.injEq]
    constructor
    · rintro rfl
      rw [ho]
      exact ⟨hfirst, rfl⟩
    · rintro ⟨hq, hmove⟩
      rw [hmove, hq.unique hfirst]
  · rw [heq]
    exact iff_of_false (fun hq => by cases hq) fun ⟨hq, _⟩ => hno _ hq.behind hq.matchesAt

theorem findLiteral_eq_error_iff {literal source : String} {p q : Position} {rest : List Char}
    (h : p.rest? source = some rest) :
    findLiteral literal source p = .error q ↔
      (∀ o, p.offset ≤ o → ¬ MatchesAt literal source o) ∧ q = p.moveTo (byteLength source.toList) source := by
  rcases findLiteral_cases literal h with ⟨o, hfirst, -, heq⟩ | ⟨hno, heq⟩
  · rw [heq]
    exact iff_of_false (fun hq => by cases hq) fun ⟨hno, _⟩ => hno o hfirst.behind hfirst.matchesAt
  · rw [heq, moveToEnd, Except.error.injEq, eq_comm]
    exact (and_iff_right hno).symm

theorem exists_findLiteral_iff {literal source : String} {p : Position} {rest : List Char}
    (h : p.rest? source = some rest) :
    (∃ q, findLiteral literal source p = .ok q) ↔ ∃ o, p.offset ≤ o ∧ MatchesAt literal source o := by
  rcases findLiteral_cases literal h with ⟨o, hfirst, -, heq⟩ | ⟨hno, heq⟩
  · exact iff_of_true ⟨_, heq⟩ ⟨o, hfirst.behind, hfirst.matchesAt⟩
  · rw [heq]
    exact iff_of_false (fun ⟨q, hq⟩ => by cases hq) fun ⟨o, hle, ho⟩ => hno o hle ho

/-- Searching and matching from a cursor on a character boundary: a search
finds the first boundary at which the literal matches, or else it is at the
end, and a match fails behind what literal and text agree in. -/
theorem findLiteral_finds_first {literal source : String} {p : Position} {rest : List Char}
    (h : p.rest? source = some rest) :
    (∀ find, FindsFirst find → findLiteral literal source p = findInBytes find literal source p) ∧
    ((∃ q, findLiteral literal source p = .ok q) ↔ ∃ o, p.offset ≤ o ∧ MatchesAt literal source o) ∧
    (∀ q, findLiteral literal source p = .ok q ↔
      IsFirstMatch literal source p.offset q.offset ∧ q = p.moveTo q.offset source) ∧
    (∀ q, findLiteral literal source p = .error q ↔
      (∀ o, p.offset ≤ o → ¬ MatchesAt literal source o) ∧ q = p.moveTo (byteLength source.toList) source) ∧
    (∀ q, matchLiteral literal source p = .ok q ↔
      literal.toList <+: rest ∧ q = p.moveTo (p.offset + byteLength literal.toList) source) ∧
    (∀ q, matchLiteral literal source p = .error q ↔
      ¬ literal.toList <+: rest ∧ ∃ common, IsLongestStart common literal.toList rest ∧
        q = p.moveTo (p.offset + byteLength common) source) :=
  ⟨fun _ hfind => findLiteral_eq_findInBytes hfind literal source p, exists_findLiteral_iff h,
    fun _ => findLiteral_eq_ok_iff h, fun _ => findLiteral_eq_error_iff h,
    fun _ => matchLiteral_eq_ok_iff h, fun _ => matchLiteral_eq_error_iff h⟩

/-- A literal that nearly matches at the cursor and is found on the next line. -/
theorem findLiteral_finds_first_on_next_line :
    let source := "é日\n日a"
    let p : Position := ⟨2, 1, 2⟩
    p.rest? source = some ['日', '\n', '日', 'a'] ∧ FindsFirst findBytes ∧
      findInBytes findBytes "日a" source p = .ok ⟨6, 2, 1⟩ ∧
      findLiteral "日a" source p = .ok ⟨6, 2, 1⟩ ∧ IsFirstMatch "日a" source 2 6 ∧
      matchLiteral "日a" source p = .error ⟨5, 1, 3⟩ ∧
      ∃ common, IsLongestStart common ['日', 'a'] ['日', '\n', '日', 'a'] ∧
        (⟨5, 1, 3⟩ : Position) = p.moveTo (2 + byteLength common) source := by
  have hrest : (Position.mk 2 1 2).rest? "é日\n日a" = some ['日', '\n', '日', 'a'] := by decide
  have hfound : findLiteral "日a" "é日\n日a" ⟨2, 1, 2⟩ = .ok ⟨6, 2, 1⟩ := by rfl
  have hfailed : matchLiteral "日a" "é日\n日a" ⟨2, 1, 2⟩ = .error ⟨5, 1, 3⟩ := by rfl
  obtain ⟨hbytes, -, hok, -, -, herror⟩ := @findLiteral_finds_first "日a" _ _ _ hrest
  refine ⟨hrest, findsFirst_findBytes, ?_, hfound, ((hok _).mp hfound).1, hfailed, ((herror _).mp hfailed).2⟩
  rw [← hbytes findBytes findsFirst_findBytes, hfound]

end Position
end UrlRoutes
