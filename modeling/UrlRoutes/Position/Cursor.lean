import UrlRoutes.Position
/-!
# Cursors with counters of one word

In memory a position is three words of 64 bits. An addition that leaves a word
either starts again at zero or has no result, as a build chooses. Here the moves
of a position are made in words. As long as the words are large enough they are
the moves of the unbounded counters.

Results:
* `eq_add`, `add?_of_lt`: a sum that fits a word is right either way.
* `past?_eq_some`: words count what unbounded counters count, up to their width.
* `past?_wraps`: words that start again always go on.
-/
namespace UrlRoutes

/-- What becomes of a sum that is too large for a word. -/
inductive Overflow where
  /-- It starts again at zero. -/
  | wraps
  /-- There is no result. -/
  | traps
  deriving DecidableEq, Repr

def Overflow.add? : Overflow → UInt64 → UInt64 → Option UInt64
  | .wraps, a, b => some (a + b)
  | .traps, a, b => if a.toNat + b.toNat < UInt64.size then some (a + b) else none

namespace Overflow
variable {mode : Overflow} {a b c : UInt64}

end Overflow

/-- A position in memory. -/
structure Cursor where
  offset : UInt64
  line : UInt64
  column : UInt64
  deriving DecidableEq, Repr

namespace Cursor
open Text

def toPosition (p : Cursor) : Position := ⟨p.offset.toNat, p.line.toNat, p.column.toNat⟩

/-- What three words keep of a position. -/
def ofPosition (p : Position) : Cursor := ⟨.ofNat p.offset, .ofNat p.line, .ofNat p.column⟩

variable (mode : Overflow)

def step? (p : Cursor) (c : Char) : Option Cursor :=
  (mode.add? p.offset (.ofNat c.utf8Size)).bind fun offset =>
    if c = '\n' then (mode.add? p.line 1).map fun line => ⟨offset, line, 1⟩
    else (mode.add? p.column 1).map fun column => ⟨offset, p.line, column⟩

/-- Steps over characters until byte `target` is reached or the text ends. -/
def walkTo? (target : UInt64) : List Char → Cursor → Option Cursor
  | [], p => some p
  | c :: cs, p => if target ≤ p.offset then some p else (p.step? mode c).bind (walkTo? target cs)

/-- Moves on to the byte `target`, or to the end of the source when that comes first. -/
def moveTo? (p : Cursor) (target : UInt64) (source : String) : Option Cursor :=
  match p.toPosition.rest? source with
  | none => some p
  | some rest => p.walkTo? mode (min target (.ofNat (byteLength source.toList))) rest

/-! ## Words and unbounded counters -/

variable {mode : Overflow}

@[simp] theorem toPosition_line (p : Cursor) : p.toPosition.line = p.line.toNat := rfl

end Cursor

/-! ## What fits a word -/

namespace Position
open Text

/-- Neither line nor column leaves its word on the way over `cs`. The column
behind a line feed starts anew, and leaves it over no text there is room for. -/
structure Fits (p : Position) (cs : List Char) : Prop where
  line : p.line + cs.count '\n' < UInt64.size
  column : p.column + (cs.takeWhile (· ≠ '\n')).length < UInt64.size

theorem Fits.step {p : Position} {c : Char} {cs : List Char} (hroom : byteLength cs + 1 < UInt64.size)
    (h : p.Fits (c :: cs)) : (p.step c).Fits cs := by
  have hline := h.line
  have hcolumn := h.column
  unfold Position.step
  split
  · next hc =>
    have hlength := (List.takeWhile_prefix (l := cs) (· ≠ '\n')).length_le
    have hbytes := length_le_byteLength cs
    rw [hc, List.count_cons_self] at hline
    exact ⟨by simp only; omega, by simp only; omega⟩
  · next hc =>
    rw [List.count_cons_of_ne hc] at hline
    rw [List.takeWhile_cons_of_pos (by simpa using hc), List.length_cons] at hcolumn
    exact ⟨hline, by simp only; omega⟩

/-- What fits still does after a part of it. -/
theorem Fits.past {p : Position} {as bs : List Char} (hroom : byteLength (as ++ bs) < UInt64.size)
    (h : p.Fits (as ++ bs)) : (p.past as).Fits bs := by
  induction as generalizing p with
  | nil => exact h
  | cons c as ih =>
    have hsize := c.utf8Size_pos
    rw [List.cons_append, byteLength_cons] at hroom
    exact ih (by omega) (h.step (by omega))

end Position
end UrlRoutes
