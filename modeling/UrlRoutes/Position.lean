import UrlRoutes.Text.Cut
/-!
# Positions in a text

A position is a byte offset together with the line and column an editor
shows for it: both count from one, the column goes up once per character and
a line feed starts the next line. A position is plain data and may be past
the end of a text or inside a character; it is then left where it is. The
counters have no upper bound; a `Cursor` counts the same in words.

Results:
* `past_append`: stepping over two parts is stepping over their concatenation.
* `past_offset`: the offset goes up by the byte length stepped over.
* `past_line`, `past_column_start`: the line counts line feeds and the column
  the characters after the last of them.
* `coherent_iff`: a position is coherent with a text exactly when stepping
  over some leading part of it from the start arrives there.
-/
namespace UrlRoutes

/-- A cursor into a text. -/
structure Position where
  /-- In UTF-8 bytes. -/
  offset : Nat
  line : Nat
  column : Nat
  deriving DecidableEq, Repr

namespace Position
open Text

def start : Position := ⟨0, 1, 1⟩

def step (p : Position) (c : Char) : Position :=
  if c = '\n' then ⟨p.offset + c.utf8Size, p.line + 1, 1⟩
  else ⟨p.offset + c.utf8Size, p.line, p.column + 1⟩

def past (p : Position) (cs : List Char) : Position := cs.foldl step p

/-- What follows `p` in `source`; `none` when `p` is not on a character boundary. -/
def rest? (p : Position) (source : String) : Option (List Char) :=
  dropBytes? p.offset source.toList

/-- Steps over characters until `target` bytes are reached or the text ends. -/
def walkTo (target : Nat) : List Char → Position → Position
  | [], p => p
  | c :: cs, p => if target ≤ p.offset then p else walkTo target cs (p.step c)

/-- Moves on to the byte `target`, or to the end of the source when that comes
first. A target inside a character gives the end of that character, and one
behind the cursor leaves it alone. -/
def moveTo (p : Position) (target : Nat) (source : String) : Position :=
  match p.rest? source with
  | none => p
  | some rest => walkTo (min target (byteLength source.toList)) rest p

def moveToEnd (p : Position) (source : String) : Position :=
  p.moveTo (byteLength source.toList) source

/-- The position is a place of `source`: its offset is a character boundary,
its line is one more than the line feeds before it, and its column one more
than the characters since the last of them. -/
def Coherent (source : String) (p : Position) : Prop :=
  ∃ before after, source.toList = before ++ after ∧ p.offset = byteLength before ∧
    p.line = 1 + before.count '\n' ∧
    p.column = 1 + (before.reverse.takeWhile (· ≠ '\n')).length

/-! ## Stepping -/

@[simp] theorem past_nil (p : Position) : p.past [] = p := rfl

@[simp] theorem past_cons (p : Position) (c : Char) (cs : List Char) :
    p.past (c :: cs) = (p.step c).past cs := rfl

theorem past_append (p : Position) (as bs : List Char) : p.past (as ++ bs) = (p.past as).past bs := by
  simp [past]

@[simp] theorem step_offset (p : Position) (c : Char) : (p.step c).offset = p.offset + c.utf8Size := by
  unfold step; split <;> rfl

theorem past_offset (p : Position) (cs : List Char) :
    (p.past cs).offset = p.offset + byteLength cs := by
  induction cs generalizing p with
  | nil => simp
  | cons c cs ih => rw [past_cons, ih, step_offset, byteLength_cons]; omega

theorem past_line (p : Position) (cs : List Char) : (p.past cs).line = p.line + cs.count '\n' := by
  induction cs generalizing p with
  | nil => simp
  | cons c cs ih =>
    rw [past_cons, ih]
    unfold step
    split
    · next h => subst h; simp; omega
    · next h => rw [List.count_cons_of_ne h]

theorem past_column_start (cs : List Char) :
    (start.past cs).column = 1 + (cs.reverse.takeWhile (· ≠ '\n')).length := by
  suffices h : ∀ rs : List Char,
      (start.past rs.reverse).column = 1 + (rs.takeWhile (· ≠ '\n')).length by
    simpa using h cs.reverse
  intro rs
  induction rs with
  | nil => rfl
  | cons c rs ih =>
    rw [List.reverse_cons, past_append, past_cons, past_nil]
    unfold step
    split
    · next h => subst h; simp
    · next h => simp only [ih]; rw [List.takeWhile_cons_of_pos (by simpa using h), List.length_cons]; omega

/-- A position is coherent exactly when the start leads to it over a leading part. -/
theorem coherent_iff {source : String} {p : Position} :
    p.Coherent source ↔ ∃ before after, source.toList = before ++ after ∧ p = start.past before := by
  constructor
  · rintro ⟨before, after, hs, ho, hl, hc⟩
    refine ⟨before, after, hs, ?_⟩
    have h1 := past_offset start before
    have h2 := past_line start before
    have h3 := past_column_start before
    cases p
    generalize hq : start.past before = q at *
    cases q
    simp_all [start]
  · rintro ⟨before, after, hs, rfl⟩
    refine ⟨before, after, hs, ?_, past_line _ _, past_column_start _⟩
    rw [past_offset]; simp [start]

end Position
end UrlRoutes
