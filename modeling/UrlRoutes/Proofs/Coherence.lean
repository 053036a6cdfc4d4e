import UrlRoutes.Position.Cursor
import UrlRoutes.Proofs.Steps
/-!
# Coordinates stay true

Offset, line and column of a cursor are kept up by different parts: literals
step character by character, searches recompute the coordinates of a byte
offset, numbers add their length. All of them come to stepping over the
characters that were read, and a step from a place of the source leads to a
place of the source.

Results:
* `coherent_past`: stepping over what is left keeps a position coherent.
* `coherent_of_good`: a parse that starts at a place of its source ends at a
  place of the same source, not before the start.
* `Coherent.fits`, `fits_of_good`: a place fits words of 64 bits, and where
  counters fit, a parse does not make them too large.
-/
namespace UrlRoutes
open Text

namespace Position

theorem Coherent.rest? {source : String} {p : Position} (h : p.Coherent source) :
    ∃ before after, source.toList = before ++ after ∧ p = start.past before ∧
      p.rest? source = some after := by
  obtain ⟨before, after, hs, hp⟩ := coherent_iff.mp h
  refine ⟨before, after, hs, hp, ?_⟩
  have ho : p.offset = byteLength before := by
    rw [hp, past_offset]
    simp [start]
  rw [Position.rest?, hs, ho, dropBytes?_byteLength_append]

theorem coherent_past {source : String} {p : Position} (h : p.Coherent source) {as bs : List Char}
    (hr : p.rest? source = some (as ++ bs)) : (p.past as).Coherent source := by
  obtain ⟨before, after, hs, hp, hafter⟩ := h.rest?
  have he : after = as ++ bs := Option.some.inj (hafter.symm.trans hr)
  refine coherent_iff.mpr ⟨before ++ as, bs, ?_, ?_⟩
  · rw [hs, he, List.append_assoc]
  · rw [past_append, ← hp]

end Position

theorem State.Steps.coherent {κ : Type} {s s' : State κ} {cs : List Char} (h : s.Steps cs s')
    (hs : s.position.Coherent s.source) : s'.position.Coherent s'.source := by
  obtain ⟨before, after, -, -, hafter⟩ := hs.rest?
  have hat : s.At after := hafter
  have hrest : after = cs ++ s'.rest := by rw [← hat.rest_eq, h.rest_eq]
  obtain ⟨-, rfl⟩ := h
  rw [hrest] at hafter
  exact Position.coherent_past hs hafter

/-- Whatever is built from combinators and routes keeps a cursor at a place of
its source and never moves it back. -/
theorem coherent_of_good {κ χ α : Type} {p : Parser κ χ α} (hp : Parser.Built IsRoute p)
    {s s' : State κ} {g : Bool} {v : α} (hs : s.position.Coherent s.source)
    (h : p s = .good g v s') :
    s'.source = s.source ∧ s'.position.Coherent s'.source ∧ s.offset ≤ s'.offset := by
  obtain ⟨cs, hsteps, -⟩ := walks_builtWithRoutes hp s g v s' h
  have hoffset := hsteps.offset_eq
  refine ⟨?_, hsteps.coherent hs, by omega⟩
  rw [hsteps.2]
  rfl

/-- Past an umlaut, over a literal with a line feed and a number of two digits. -/
theorem coherent_of_good_line_feed :
    let s : State Label := { source := "ä日\n42/", position := ⟨2, 1, 2⟩ }
    let p := Parser.keepRight (Parser.token "日\n" Problem.expectingEnd) Route.int.parser
    s.position.Coherent s.source ∧
      ∃ v, p s = .good true v (s.advance ⟨8, 2, 3⟩) ∧
        (Position.mk 8 2 3).Coherent s.source := by
  have hp : Parser.Built IsRoute
      (Parser.keepRight (Parser.token "日\n" Problem.expectingEnd) Route.int.parser) :=
    Parser.built_keepRight (.token _ _) (.leaf (.parser Route.int))
  have hs : (Position.mk 2 1 2).Coherent "ä日\n42/" := ⟨['ä'], "日\n42/".toList, by decide⟩
  have hrun : Parser.keepRight (Parser.token "日\n" Problem.expectingEnd) Route.int.parser
      { source := "ä日\n42/", position := ⟨2, 1, 2⟩ } =
        .good true (.int 42) { source := "ä日\n42/", position := ⟨8, 2, 3⟩ } := by rfl
  exact ⟨hs, .int 42, hrun, (coherent_of_good hp hs hrun).2.1⟩

/-- A place of the source fits words up to its end. -/
theorem Position.Coherent.fits {source : String} {p : Position} (h : p.Coherent source)
    (hsource : byteLength source.toList + 1 < UInt64.size) : p.Fits ((p.rest? source).getD []) := by
  obtain ⟨before, after, hs, rfl, hafter⟩ := h.rest?
  rw [hs, byteLength_append] at hsource
  have hfits : start.Fits (before ++ after) := by
    have hcount := List.count_le_length (a := '\n') (l := before ++ after)
    have hcolumn := (List.takeWhile_prefix (l := before ++ after) (· ≠ '\n')).length_le
    have hlength := length_le_byteLength (before ++ after)
    rw [byteLength_append] at hlength
    exact ⟨by simp only [start]; omega, by simp only [start]; omega⟩
  rw [hafter, Option.getD_some]
  exact hfits.past (by rw [byteLength_append]; omega)

/-- No counter leaves its word during a parse, unless it does on the way to the end of the source. -/
theorem fits_of_good {κ χ α : Type} {p : Parser κ χ α} (hp : Parser.Built IsRoute p) {s s' : State κ} {g : Bool}
    {v : α} (hsource : byteLength s.source.toList < UInt64.size) (hs : s.position.Fits s.rest)
    (h : p s = .good g v s') : s'.position.Fits s'.rest := by
  obtain ⟨cs, hsteps, -⟩ := walks_builtWithRoutes hp s g v s' h
  have hroom : byteLength s.rest < UInt64.size := by
    rcases s.at_rest_or_stuck with hat | ⟨hnil, -⟩
    · have hlength := Position.offset_add_of_rest? hat
      omega
    · rw [hnil]
      decide
  rw [hsteps.rest_eq] at hs hroom
  rw [hsteps.2] at hs hroom ⊢
  exact hs.past hroom

end UrlRoutes
