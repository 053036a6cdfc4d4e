import UrlRoutes.Proofs.LiteralSearch
import UrlRoutes.Parser.Text
import Mathlib.Data.List.TakeWhile
/-!
# Two ways to the end of the input

A search computes the place it stops at and moves the cursor there in one go.
A loop tests one character after the other and counts on its own. Where a
literal is missing the search goes to the end, and so does a loop that no
character stops. Both arrive at the same place with the same line and column,
and both stay where they are when the cursor is on no character boundary.

Results:
* `loopsTo_iff`: where a loop over characters ends.
* `moveToEnd_eq_past`: the end is behind all that is left.
* `skipUntilOrEnd_eq_oneOf`: a search that goes to the end otherwise is a
  search with the loop to fall back on.
-/
namespace UrlRoutes

namespace Position
open Text

/-- The cursor after one matched character, by the count of the loop. -/
def CharMatch.next? (p : Position) : CharMatch → Option Position
  | .miss => none
  | .newline next => some ⟨next, p.line + 1, 1⟩
  | .advance next => some ⟨next, p.line, p.column + 1⟩

/-- From `p` the loop that reads characters with `test` comes to `q`. -/
inductive LoopsTo (test : Char → Bool) (source : String) : Position → Position → Prop where
  | stop {p : Position} (h : (matchChar test p.offset source).next? p = none) : LoopsTo test source p p
  | turn {p m q : Position} (h : (matchChar test p.offset source).next? p = some m)
      (hq : LoopsTo test source m q) : LoopsTo test source p q

theorem next?_of_nil {test : Char → Bool} {source : String} {p : Position} (h : (p.rest? source).getD [] = []) :
    (matchChar test p.offset source).next? p = none := by
  rw [matchChar, ← rest?]
  cases hrest : p.rest? source with
  | none => rfl
  | some rest =>
    rw [hrest, Option.getD_some] at h
    rw [h]
    rfl

theorem next?_of_cons {test : Char → Bool} {source : String} {p : Position} {c : Char} {cs : List Char}
    (h : p.rest? source = some (c :: cs)) :
    (matchChar test p.offset source).next? p = if test c then some (p.step c) else none := by
  rw [matchChar, ← rest?, h]
  simp only [step]
  split
  · split <;> rfl
  · rfl

/-- The loop goes over the characters that pass the test, by induction on what is left. -/
theorem loopsTo_past {test : Char → Bool} {source : String} {p : Position} {rest : List Char}
    (h : p.rest? source = some rest) : LoopsTo test source p (p.past (rest.takeWhile test)) := by
  induction rest generalizing p with
  | nil => exact .stop (next?_of_nil (by rw [h, Option.getD_some]))
  | cons c cs ih =>
    have hnext : (matchChar test p.offset source).next? p = if test c then some (p.step c) else none :=
      next?_of_cons h
    by_cases htest : test c = true
    · rw [List.takeWhile_cons_of_pos htest]
      rw [if_pos htest] at hnext
      have hrest : (p.past [c]).rest? source = some cs := rest?_past h
      exact .turn hnext (ih hrest)
    · rw [List.takeWhile_cons_of_neg htest]
      rw [if_neg htest] at hnext
      exact .stop hnext

theorem LoopsTo.unique {test : Char → Bool} {source : String} {p q q' : Position} (h : LoopsTo test source p q)
    (h' : LoopsTo test source p q') : q = q' := by
  induction h with
  | stop hnone =>
    cases h' with
    | stop => rfl
    | turn hsome => rw [hnone] at hsome; cases hsome
  | turn hsome _ ih =>
    cases h' with
    | stop hnone => rw [hnone] at hsome; cases hsome
    | turn hsome' hq' =>
      rw [hsome, Option.some.injEq] at hsome'
      exact ih (hsome' ▸ hq')

/-- The loop ends behind the characters that pass the test. -/
theorem loopsTo_iff {test : Char → Bool} {source : String} {p q : Position} :
    LoopsTo test source p q ↔ q = p.past (((p.rest? source).getD []).takeWhile test) := by
  have hends : LoopsTo test source p (p.past (((p.rest? source).getD []).takeWhile test)) := by
    cases h : p.rest? source with
    | none => exact .stop (next?_of_nil (by rw [h, Option.getD_none]))
    | some rest => exact loopsTo_past h
  constructor
  · intro h
    exact h.unique hends
  · rintro rfl
    exact hends

/-- The end is behind all that is left, which is nothing off every boundary. -/
theorem moveToEnd_eq_past (p : Position) (source : String) :
    p.moveToEnd source = p.past ((p.rest? source).getD []) := by
  cases h : p.rest? source with
  | none => exact moveTo_of_none h _
  | some rest => exact moveToEnd_past h

theorem loopsTo_moveToEnd (p : Position) (source : String) :
    LoopsTo (fun _ => true) source p (p.moveToEnd source) := by
  rw [loopsTo_iff, moveToEnd_eq_past, List.takeWhile_eq_self_iff.mpr fun _ _ => rfl]

theorem findLiteral_eq_moveToEnd {literal source : String} {p q : Position}
    (h : findLiteral literal source p = .error q) : q = p.moveToEnd source := by
  unfold findLiteral at h
  split at h
  · cases h
  · cases h
    rfl

end Position

namespace Parser
open Position Text
variable {κ χ : Type}

theorem skipWhile_of_loopsTo {test : Char → Bool} {s : State κ} {p : Position}
    (h : LoopsTo test s.source s.position p) : (skipWhile test s : Result κ χ Unit) = arrive s () p := by
  rw [loopsTo_iff.mp h]
  rfl

theorem oneOf_good {α : Type} {p : Parser κ χ α} {s s' : State κ} {g : Bool} {v : α} (h : p s = .good g v s')
    (ps : List (Parser κ χ α)) : oneOf (p :: ps) s = .good g v s' := by
  simp only [oneOf, h]

theorem oneOf_next {α : Type} {p q : Parser κ χ α} {s s' : State κ} {g g' : Bool} {v : α}
    {problems : List (DeadEnd κ χ)} (hp : p s = .bad g problems) (hq : q s = .good g' v s')
    (ps : List (Parser κ χ α)) : oneOf (p :: q :: ps) s = .good g' v s' := by
  simp only [oneOf, hp, hq]

/-- Whatever the cursor, a search that goes to the end when the literal is
missing and a search that leaves this to a loop over all characters arrive at
one place: where the bytes of the literal are found, or where the loop ends. -/
theorem skipUntilOrEnd_eq_oneOf (literal : String) (expecting : χ) (s : State κ) :
    ∃ p : Position,
      (skipUntilOrEnd literal s : Result κ χ Unit) = .good (s.offset < p.offset) () (s.advance p) ∧
      oneOf [skipUntil literal expecting, skipWhile fun _ => true] s =
        .good (s.offset < p.offset) () (s.advance p) ∧
      ∀ find, FindsFirst find →
        findInBytes find literal s.source s.position = .ok p ∨
          (findInBytes find literal s.source s.position = .error p ∧
            LoopsTo (fun _ => true) s.source s.position p) := by
  cases hfound : s.position.findLiteral literal s.source with
  | ok p =>
    have hskip : (skipUntil literal expecting s : Result κ χ Unit) = arrive s () p := by
      rw [skipUntil, hfound]
    refine ⟨p, ?_, oneOf_good hskip _, fun find hfind => .inl ?_⟩
    · rw [skipUntilOrEnd, hfound]
      rfl
    · rw [← findLiteral_eq_findInBytes hfind, hfound]
  | error p =>
    obtain rfl := findLiteral_eq_moveToEnd hfound
    have hloop := loopsTo_moveToEnd s.position s.source
    have hskip : ∃ problems, (skipUntil literal expecting s : Result κ χ Unit) = .bad false problems := by
      rw [skipUntil, hfound]
      exact ⟨_, rfl⟩
    obtain ⟨problems, hskip⟩ := hskip
    refine ⟨_, ?_, oneOf_next hskip (skipWhile_of_loopsTo hloop) [], fun find hfind => .inr ⟨?_, hloop⟩⟩
    · rw [skipUntilOrEnd, hfound]
      rfl
    · rw [← findLiteral_eq_findInBytes hfind, hfound]

/-- A missing literal, with a line feed and characters of several bytes on the
way to the end, and a cursor inside of a character. -/
theorem skipUntilOrEnd_eq_oneOf_without_literal :
    let far : State Unit := { source := "é日\n日", position := ⟨2, 1, 2⟩ }
    let stuck : State Unit := { source := "é日\n日", position := ⟨1, 1, 1⟩ }
    let fallBack : Parser Unit String Unit := oneOf [skipUntil "/" "no slash", skipWhile fun _ => true]
    FindsFirst findBytes ∧
      skipUntilOrEnd "/" far = (.good true () (far.advance ⟨9, 2, 2⟩) : Result Unit String Unit) ∧
      fallBack far = .good true () (far.advance ⟨9, 2, 2⟩) ∧
      LoopsTo (fun _ => true) far.source far.position ⟨9, 2, 2⟩ ∧
      skipUntilOrEnd "/" stuck = (.good false () stuck : Result Unit String Unit) ∧
      fallBack stuck = .good false () stuck := by
  have hfar : (skipUntilOrEnd "/" { source := "é日\n日", position := ⟨2, 1, 2⟩ } : Result Unit String Unit) =
      .good true () { source := "é日\n日", position := ⟨9, 2, 2⟩ } := by rfl
  have hstuck : (skipUntilOrEnd "/" { source := "é日\n日", position := ⟨1, 1, 1⟩ } : Result Unit String Unit) =
      .good false () { source := "é日\n日", position := ⟨1, 1, 1⟩ } := by rfl
  have hmissing : findInBytes findBytes "/" "é日\n日" ⟨2, 1, 2⟩ = .error ⟨9, 2, 2⟩ := by rfl
  obtain ⟨p, hp, hfall, hplace⟩ := skipUntilOrEnd_eq_oneOf "/" "no slash"
    ({ source := "é日\n日", position := ⟨2, 1, 2⟩ } : State Unit)
  obtain ⟨q, hq, hfall', -⟩ := skipUntilOrEnd_eq_oneOf "/" "no slash"
    ({ source := "é日\n日", position := ⟨1, 1, 1⟩ } : State Unit)
  refine ⟨findsFirst_findBytes, hfar, hfall.trans (hp.symm.trans hfar), ?_, hstuck, hfall'.trans (hq.symm.trans hstuck)⟩
  rcases hplace findBytes findsFirst_findBytes with hfound | ⟨hend, hloop⟩
  · cases hmissing.symm.trans hfound
  · rw [hmissing, Except.error.injEq] at hend
    rwa [← hend] at hloop

end Parser
end UrlRoutes
