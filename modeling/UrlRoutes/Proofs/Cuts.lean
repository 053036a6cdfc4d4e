import UrlRoutes.Position.Scan
import Mathlib.Data.List.TakeWhile
/-!
# First cuts and cursor moves

A cut is the first one: nothing shorter would stop there. A cursor on a
character boundary moves by stepping over a leading part of what is left, and
one off every boundary does not move at all. Here both are stated about
characters, so that later proofs need no byte offsets.

Results:
* `cutWhere_eq_some_iff`: a cut is the shortest leading part after which the
  test holds.
* `cutWhere_eq_none_iff`, `hasLiteral_eq_true_iff`: where there is nothing to cut at.
* `cut_while_iff`: a cut where a test of single characters first fails.
* `cutWhere_of_append`: a cut does not depend on text far behind it.
* `rest?_past`: what is left after stepping over a leading part.
* `landsAt_iff`: a move ends at the first place that is far enough.
* `moveTo_past`, `moveToEnd_past`: moves are steps over leading parts.
-/
namespace UrlRoutes
namespace Text

/-- The leading part is the shortest one after which `stop` holds. -/
theorem cutWhere_eq_some_iff {stop : List Char → Bool} {cs before after : List Char} :
    cutWhere stop cs = some (before, after) ↔
      cs = before ++ after ∧ stop after = true ∧
        ∀ x y, before = x ++ y → y ≠ [] → stop (y ++ after) = false := by
  constructor
  · exact cutWhere_first
  · intro hx
    obtain ⟨rfl, hstop, hfirst⟩ := hx
    induction before with
    | nil => exact cutWhere_here hstop
    | cons c before ih =>
      have hc := hfirst [] (c :: before) rfl (List.cons_ne_nil c before)
      have hrest := ih fun x y hxy hy => hfirst (c :: x) y (by rw [hxy]; rfl) hy
      rw [List.cons_append] at hc ⊢
      rw [cutWhere, hc, hrest]
      rfl

/-- Without a cut the test holds of nothing that is left. -/
theorem cutWhere_eq_none_iff {stop : List Char → Bool} {cs : List Char} :
    cutWhere stop cs = none ↔ ∀ x y, cs = x ++ y → stop y = false := by
  induction cs with
  | nil =>
    rw [cutWhere]
    constructor
    · intro h x y hxy
      have hy : y = [] := (List.append_eq_nil_iff.mp hxy.symm).2
      split at h
      · cases h
      · next hstop =>
        rw [hy]
        exact Bool.eq_false_iff.mpr hstop
    · intro hno
      rw [hno [] [] rfl]
      rfl
  | cons c cs ih =>
    rw [cutWhere]
    constructor
    · intro h x y hxy
      split at h
      · cases h
      · next hstop =>
        cases x with
        | nil =>
          rw [List.nil_append] at hxy
          rw [← hxy]
          exact Bool.eq_false_iff.mpr hstop
        | cons d x =>
          rw [List.cons_append, List.cons.injEq] at hxy
          exact ih.mp (Option.map_eq_none_iff.mp h) x y hxy.2
    · intro hno
      rw [hno [] (c :: cs) rfl, ih.mpr fun x y hxy => hno (c :: x) y (by rw [hxy]; rfl)]
      rfl

/-- A text is cut in two where a test first fails. -/
theorem cut_while_iff {p : Char → Bool} {cs as bs : List Char} :
    (cs.takeWhile p = as ∧ cs.dropWhile p = bs) ↔
      cs = as ++ bs ∧ (∀ c ∈ as, p c = true) ∧ ∀ c ∈ bs.head?, p c = false := by
  constructor
  · rintro ⟨rfl, rfl⟩
    refine ⟨List.takeWhile_append_dropWhile.symm, fun c hc => List.mem_takeWhile_imp hc, ?_⟩
    intro c hc
    have h := List.head?_dropWhile_not p cs
    rw [Option.mem_def.mp hc] at h
    exact h
  · rintro ⟨rfl, has, hbs⟩
    rw [List.takeWhile_append_of_pos has, List.dropWhile_append_of_pos has]
    cases bs with
    | nil => exact ⟨List.append_nil as, rfl⟩
    | cons c bs =>
      have hc : ¬p c = true := Bool.eq_false_iff.mp (hbs c rfl)
      rw [List.takeWhile_cons_of_neg hc, List.dropWhile_cons_of_neg hc, List.append_nil]
      exact ⟨rfl, rfl⟩

/-- A literal occurs where it stands between two parts of the text. -/
theorem hasLiteral_eq_true_iff {literal cs : List Char} : hasLiteral literal cs = true ↔ literal <:+: cs := by
  rw [hasLiteral, List.infix_iff_prefix_suffix]
  cases hcut : cutAt literal cs with
  | none =>
    have hno := cutWhere_eq_none_iff.mp hcut
    constructor
    · intro h
      cases h
    · intro hoccurs
      obtain ⟨y, hpre, x, hxy⟩ := hoccurs
      exact absurd (List.isPrefixOf_iff_prefix.mpr hpre) (Bool.eq_false_iff.mp (hno x y hxy.symm))
  | some cut =>
    obtain ⟨x, y⟩ := cut
    have hpre := List.isPrefixOf_iff_prefix.mp (cutWhere_stops hcut)
    exact ⟨fun _ => ⟨y, hpre, x, (cutWhere_append hcut).symm⟩, fun _ => rfl⟩

/-- A cut in front of more text is made without it, if the test still holds there. -/
theorem cutWhere_of_append {stop : List Char → Bool} {before after tail : List Char}
    (hlater : ∀ cs, stop cs = true → stop (cs ++ tail) = true) (hafter : stop after = true)
    (h : cutWhere stop (before ++ (after ++ tail)) = some (before, after ++ tail)) :
    cutWhere stop (before ++ after) = some (before, after) := by
  obtain ⟨-, -, hfirst⟩ := cutWhere_eq_some_iff.mp h
  refine cutWhere_eq_some_iff.mpr ⟨rfl, hafter, fun x y hxy hy => ?_⟩
  rw [Bool.eq_false_iff]
  intro hstop
  have hearly := hfirst x y hxy hy
  rw [← List.append_assoc, hlater _ hstop] at hearly
  cases hearly

/-- A cut after one character. -/
theorem cutWhere_of_next {stop : List Char → Bool} {c : Char} {cs : List Char} (hc : stop (c :: cs) = false)
    (hcs : stop cs = true) : cutWhere stop (c :: cs) = some ([c], cs) := by
  rw [cutWhere, hc, cutWhere_here hcs]
  rfl

theorem charsFrom_of_dropBytes? {n : Nat} {cs after : List Char} (h : dropBytes? n cs = some after) :
    charsFrom n cs = after := by
  fun_induction dropBytes? n cs with
  | case1 cs => simpa [charsFrom] using h
  | case2 => cases h
  | case3 n c cs hle ih => rw [charsFrom]; exact ih h
  | case4 => cases h

theorem takeBytes?_byteLength_append (as bs : List Char) :
    takeBytes? (byteLength as) (as ++ bs) = some as := by
  induction as with
  | nil => simp [takeBytes?]
  | cons c cs ih =>
    have hc := c.utf8Size_pos
    obtain ⟨n, hn⟩ : ∃ n, byteLength (c :: cs) = n + 1 := ⟨byteLength (c :: cs) - 1, by simp; omega⟩
    have hl : n + 1 - c.utf8Size = byteLength cs := by simp at hn; omega
    rw [hn, List.cons_append, takeBytes?, if_pos (by simp at hn; omega), hl, ih]
    rfl

/-- Between two boundaries lies exactly one slice. -/
theorem slice?_append {n : Nat} {cs as bs : List Char} (h : dropBytes? n cs = some (as ++ bs)) :
    slice? n (n + byteLength as) cs = some as := by
  rw [slice?, h, Option.bind_some, Nat.add_sub_cancel_left, takeBytes?_byteLength_append]

end Text

namespace Position
open Text

theorem rest?_past {p : Position} {source : String} {as bs : List Char}
    (h : p.rest? source = some (as ++ bs)) : (p.past as).rest? source = some bs := by
  unfold rest? at h ⊢
  obtain ⟨before, hs, hb⟩ := dropBytes?_eq_some_iff.mp h
  rw [dropBytes?_eq_some_iff]
  refine ⟨before ++ as, by rw [hs, List.append_assoc], ?_⟩
  rw [past_offset, byteLength_append, hb]

/-- The same for any cursor: off every boundary nothing is left. -/
theorem getD_rest?_past {p : Position} {source : String} {as bs : List Char}
    (h : (p.rest? source).getD [] = as ++ bs) : ((p.past as).rest? source).getD [] = bs := by
  cases hrest : p.rest? source with
  | none =>
    rw [hrest, Option.getD_none] at h
    obtain ⟨rfl, rfl⟩ := List.append_eq_nil_iff.mp h.symm
    simp [hrest]
  | some rest =>
    rw [hrest, Option.getD_some] at h
    simp [rest?_past (h ▸ hrest)]

theorem offset_le_past (p : Position) (cs : List Char) : p.offset ≤ (p.past cs).offset := by
  rw [past_offset]
  omega

theorem offset_lt_past_iff {p : Position} {cs : List Char} : p.offset < (p.past cs).offset ↔ cs ≠ [] := by
  rw [past_offset, Nat.lt_add_right_iff_pos, Nat.pos_iff_ne_zero, ne_eq, byteLength_eq_zero_iff]

/-- Behind `p` stands what is missing to the length of the source. -/
theorem offset_add_of_rest? {p : Position} {source : String} {cs : List Char} (h : p.rest? source = some cs) :
    p.offset + byteLength cs = byteLength source.toList := by
  obtain ⟨before, hs, hb⟩ := dropBytes?_eq_some_iff.mp h
  rw [hs, byteLength_append, hb]

/-! ## Where a move ends -/

/-- With `as` and then `bs` behind `p`, a move to byte `target` is over after
`as`, because it is far enough or there is no more, and not earlier. -/
structure StopsAfter (p : Position) (target : Nat) (as bs : List Char) : Prop where
  arrives : bs = [] ∨ target ≤ (p.past as).offset
  first : ∀ x y, as = x ++ y → y ≠ [] → (p.past x).offset < target

/-- On the way over what is left behind `p`, `q` is where a move to byte
`target` is over. Off every boundary nothing is left. -/
def LandsAt (source : String) (p : Position) (target : Nat) (q : Position) : Prop :=
  ∃ as bs, (p.rest? source).getD [] = as ++ bs ∧ StopsAfter p target as bs ∧ q = p.past as

theorem stopsAfter_nil {p : Position} {target : Nat} {bs : List Char} (h : bs = [] ∨ target ≤ p.offset) :
    StopsAfter p target [] bs :=
  ⟨h, by simp⟩

/-- Only the offset of the cursor counts. -/
theorem StopsAfter.congr {p q : Position} {target : Nat} {as bs : List Char} (h : StopsAfter p target as bs)
    (hoffset : q.offset = p.offset) : StopsAfter q target as bs := by
  constructor
  · simpa only [past_offset, hoffset] using h.arrives
  · simpa only [past_offset, hoffset] using h.first

theorem StopsAfter.cons {p : Position} {target : Nat} {c : Char} {as bs : List Char}
    (h : StopsAfter (p.step c) target as bs) (hp : p.offset < target) : StopsAfter p target (c :: as) bs := by
  refine ⟨h.arrives, fun x y hxy hy => ?_⟩
  cases x with
  | nil => exact hp
  | cons d x =>
    obtain ⟨rfl, has⟩ := List.cons.inj hxy
    exact h.first x y has hy

/-- To go on by the length of what comes next is to go on over it. -/
theorem stopsAfter_append (p : Position) (as bs : List Char) :
    StopsAfter p (p.offset + byteLength as) as bs := by
  refine ⟨.inr (past_offset p as).ge, ?_⟩
  rintro x y rfl hy
  have hpos : byteLength y ≠ 0 := mt byteLength_eq_zero_iff.mp hy
  rw [past_offset, byteLength_append]
  omega

/-- The end of the source stops a move that goes too far. -/
theorem stopsAfter_min_iff {p : Position} {source : String} {target : Nat} {as bs : List Char}
    (h : p.rest? source = some (as ++ bs)) :
    StopsAfter p (min target (byteLength source.toList)) as bs ↔ StopsAfter p target as bs := by
  have hlength := offset_add_of_rest? h
  rw [byteLength_append] at hlength
  have hend : bs = [] ↔ byteLength bs = 0 := byteLength_eq_zero_iff.symm
  constructor
  · intro hstop
    have harrives := hstop.arrives
    rw [hend, past_offset] at harrives
    refine ⟨?_, fun x y hxy hy => Nat.lt_of_lt_of_le (hstop.first x y hxy hy) (Nat.min_le_left _ _)⟩
    rw [hend, past_offset]
    omega
  · intro hstop
    refine ⟨hstop.arrives.imp_right (Nat.le_trans (Nat.min_le_left _ _)), fun x y hxy hy => ?_⟩
    have hlt := hstop.first x y hxy hy
    have hpos : byteLength y ≠ 0 := mt byteLength_eq_zero_iff.mp hy
    rw [hxy, byteLength_append] at hlength
    rw [past_offset] at hlt ⊢
    omega

theorem StopsAfter.tail {p : Position} {target : Nat} {c : Char} {as bs : List Char}
    (h : StopsAfter p target (c :: as) bs) : StopsAfter (p.step c) target as bs :=
  ⟨h.arrives, fun x y hxy hy => h.first (c :: x) y (by rw [hxy]; rfl) hy⟩

theorem walkTo_stopsAfter (target : Nat) (cs : List Char) (p : Position) :
    ∃ as bs, cs = as ++ bs ∧ StopsAfter p target as bs ∧ walkTo target cs p = p.past as := by
  induction cs generalizing p with
  | nil => exact ⟨[], [], rfl, stopsAfter_nil (.inl rfl), rfl⟩
  | cons c cs ih =>
    rw [walkTo]
    split
    · next hle => exact ⟨[], c :: cs, rfl, stopsAfter_nil (.inr hle), rfl⟩
    · next hlt =>
      obtain ⟨as, bs, hcs, hstop, hp⟩ := ih (p.step c)
      exact ⟨c :: as, bs, by rw [hcs]; rfl, hstop.cons (by omega), hp⟩

/-- Off every boundary a move leads nowhere. -/
theorem moveTo_of_none {p : Position} {source : String} (h : p.rest? source = none) (target : Nat) :
    p.moveTo target source = p := by
  rw [moveTo, h]

theorem moveTo_lands (source : String) (p : Position) (target : Nat) :
    LandsAt source p target (p.moveTo target source) := by
  cases h : p.rest? source with
  | none => exact ⟨[], [], by simp [h], stopsAfter_nil (.inl rfl), by simp [moveTo_of_none h]⟩
  | some rest =>
    obtain ⟨as, bs, rfl, hstop, hq⟩ := walkTo_stopsAfter (min target (byteLength source.toList)) rest p
    exact ⟨as, bs, by simp [h], (stopsAfter_min_iff h).mp hstop, by rw [moveTo, h, ← hq]⟩

/-- What stops a move after `as` stops it there, whatever comes behind. -/
theorem StopsAfter.eq_nil {p : Position} {target : Nat} {as x bs bs' : List Char}
    (h : StopsAfter p target as (x ++ bs)) (h' : StopsAfter p target (as ++ x) bs') : x = [] := by
  by_contra hx
  have hlt := h'.first as x rfl hx
  rcases h.arrives with hnil | hle
  · exact hx (List.append_eq_nil_iff.mp hnil).1
  · omega

theorem LandsAt.unique {source : String} {p q q' : Position} {target : Nat} (h : LandsAt source p target q)
    (h' : LandsAt source p target q') : q = q' := by
  obtain ⟨as, bs, hrest, hstop, rfl⟩ := h
  obtain ⟨as', bs', hrest', hstop', rfl⟩ := h'
  rcases List.append_eq_append_iff.mp (hrest.symm.trans hrest') with ⟨x, rfl, rfl⟩ | ⟨x, rfl, rfl⟩
  · rw [hstop.eq_nil hstop', List.append_nil]
  · rw [hstop'.eq_nil hstop, List.append_nil]

/-- A move ends where it lands, also past the end and off every boundary. -/
theorem landsAt_iff {source : String} {p q : Position} {target : Nat} :
    LandsAt source p target q ↔ q = p.moveTo target source := by
  constructor
  · intro h
    exact h.unique (moveTo_lands source p target)
  · rintro rfl
    exact moveTo_lands source p target

theorem moveTo_past (source : String) (p : Position) (target : Nat) :
    ∃ as, as <+: (p.rest? source).getD [] ∧ p.moveTo target source = p.past as := by
  obtain ⟨as, bs, hrest, -, hq⟩ := moveTo_lands source p target
  exact ⟨as, ⟨bs, hrest.symm⟩, hq⟩

/-- To go on by the length of what comes next is to step over it. -/
theorem moveTo_append {p : Position} {source : String} {as bs : List Char}
    (h : (p.rest? source).getD [] = as ++ bs) : p.moveTo (p.offset + byteLength as) source = p.past as :=
  (landsAt_iff.mp ⟨as, bs, h, stopsAfter_append p as bs, rfl⟩).symm

theorem moveToEnd_past {p : Position} {source : String} {cs : List Char}
    (h : p.rest? source = some cs) : p.moveToEnd source = p.past cs := by
  have hall : (p.rest? source).getD [] = cs ++ [] := by rw [h, Option.getD_some, List.append_nil]
  rw [moveToEnd, ← offset_add_of_rest? h]
  exact moveTo_append hall

end Position
end UrlRoutes
