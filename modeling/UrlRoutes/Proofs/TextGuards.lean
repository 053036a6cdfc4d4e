import UrlRoutes.Proofs.ByteSearch
import UrlRoutes.Proofs.Reading
import UrlRoutes.Proofs.Writing
/-!
# Guards on written texts

A text capture that is read ends at the first place of what follows it. So
not every text can be written: one that would end earlier is refused. A
capture up to a boundary looks for its end in the text together with what was
written behind it, and refuses exactly the texts that would not be read back.
A capture up to a delimiter looks at the text alone. It misses an occurrence
that begins in the text and ends in the delimiter behind it, which there is
only if the delimiter overlaps itself.

Results:
* `parser_leaves_iff`: what a route reads in front of a given text.
* `before_writes_iff_reads`: the guard of a boundary is exact.
* `upTo_reads_iff`: which texts are read back in front of their delimiter.
* `upTo_guard_suffices_iff`: the delimiters whose guard refuses all others.
-/
namespace UrlRoutes
open Text

namespace Text

/-- An end of the text, neither empty nor the whole, is also its beginning. -/
def Overlaps (cs : List Char) : Prop := ∃ y z, cs = y ++ z ∧ y ≠ [] ∧ z ≠ [] ∧ z <+: cs

/-- What overlaps itself can begin in a text that does not contain it and end
in its own copy behind that text. -/
theorem overlaps_iff {cs : List Char} :
    Overlaps cs ↔ ∃ y, y ≠ [] ∧ ¬ cs <:+: y ∧ cs <+: y ++ cs := by
  refine ⟨fun hoverlap => ?_, fun hfront => ?_⟩
  · obtain ⟨y, z, hyz, hy, hz, hpre⟩ := hoverlap
    refine ⟨y, hy, fun hin => ?_, ?_⟩
    · have hlen := hin.length_le
      have hpos := List.length_pos_of_ne_nil hz
      rw [hyz, List.length_append] at hlen
      omega
    · rw [hyz, List.prefix_append_right_inj, ← hyz]
      exact hpre
  · obtain ⟨y, hy, hout, hpre⟩ := hfront
    have hnot : ¬ cs <+: y := fun hin => hout hin.isInfix
    obtain ⟨z, hz⟩ := (List.prefix_or_prefix_of_prefix hpre (List.prefix_append y _)).resolve_left hnot
    refine ⟨y, z, hz.symm, hy, ?_, ?_⟩
    · rintro rfl
      rw [List.append_nil] at hz
      exact hnot (hz ▸ List.prefix_rfl)
    · rw [← hz, List.prefix_append_right_inj, hz] at hpre
      exact hpre

theorem append_inj_of_byteLength {as bs cs ds : List Char} (h : as ++ bs = cs ++ ds)
    (hl : byteLength as = byteLength cs) : as = cs ∧ bs = ds := by
  have hdrop := dropBytes?_byteLength_append as bs
  rw [h, hl, dropBytes?_byteLength_append, Option.some.injEq] at hdrop
  obtain rfl := hdrop
  exact ⟨List.append_cancel_right h, rfl⟩

end Text

namespace Route

variable {route : Route} {delimiter t r : String} {b : Boundary}

/-! ## Texts read and written -/

/-- Reading `t` and leaving `r` unread. -/
theorem parser_leaves_iff (s : State Label) {v : Value} :
    (∃ g s', route.parser (s.withSource (t ++ r)) = .good g v s' ∧ s'.At r.toList) ↔
      route.Takes (s.withSource (t ++ r)).setting t r v := by
  have hstart : (s.withSource (t ++ r)).At (t ++ r).toList := State.at_start rfl
  have hreads := reads_route route _ _ hstart v
  refine ⟨fun hgood => ?_, fun ht => ?_⟩
  · obtain ⟨g, s', hgood, hleft⟩ := hgood
    obtain ⟨t', r', htr, ht, rfl⟩ := (hreads s').mp ⟨g, hgood⟩
    have hpast : ((s.withSource (t ++ r)).past t'.toList).At r'.toList := by
      apply State.At.past
      rw [← String.toList_append, ← htr]
      exact hstart
    have hr : r' = r := String.toList_inj.mp (Option.some.inj (hpast.symm.trans hleft))
    subst hr
    rw [String.append_left_inj] at htr
    subst htr
    exact ht
  · obtain ⟨g, hgood⟩ := (hreads _).mpr ⟨t, r, rfl, ht, rfl⟩
    rw [String.toList_append] at hstart
    exact ⟨g, _, hgood, hstart.past⟩

theorem write_succeeds_iff {v : Value} {d : Draft} :
    (∃ d', route.write v d = .ok d') ↔ ∃ t ps, route.Puts t d.path v ps := by
  refine ⟨fun hw => ?_, fun hputs => ?_⟩
  · obtain ⟨d', hw⟩ := hw
    obtain ⟨t, ps, hputs, -⟩ := (writes_route route v d d').mp hw
    exact ⟨t, ps, hputs⟩
  · obtain ⟨t, ps, hputs⟩ := hputs
    exact ⟨_, (writes_route route v d _).mpr ⟨t, ps, hputs, rfl⟩⟩

/-! ## Boundaries -/

theorem write_before_iff {d : Draft} : (∃ d', (before b).write (.text t) d = .ok d') ↔
    t ≠ "" ∧ b.cut? (t ++ d.path).toList = some (t.toList, d.path.toList) := by
  rw [write_succeeds_iff]
  refine ⟨fun hputs => ?_, fun hcut => ⟨t, [], rfl, hcut, rfl⟩⟩
  obtain ⟨t', ps, ht, hcut, -⟩ := hputs
  cases ht
  exact hcut

/-- A boundary found at the end of `t` is found there among characters and among bytes. -/
theorem cut?_eq_some_iff_find? : b.cut? (t ++ r).toList = some (t.toList, r.toList) ↔
    b.find? (Percent.utf8 (t ++ r)) = some (Percent.utf8 t).length := by
  rw [Boundary.find?_utf8, ← bytes_toList t, length_bytes, Option.map_eq_some_iff]
  refine ⟨fun hcut => ⟨_, hcut, rfl⟩, fun hfound => ?_⟩
  obtain ⟨⟨x, y⟩, hcut, hlen⟩ := hfound
  have hxy := Boundary.cut?_append hcut
  rw [String.toList_append] at hxy
  obtain ⟨rfl, rfl⟩ := append_inj_of_byteLength hxy.symm hlen
  exact hcut

/-- What a capture up to a boundary writes is what it reads back, and that is
every text at whose end the boundary is found first among the bytes. -/
theorem before_writes_iff_reads (b : Boundary) (t : String) (d : Draft) (s : State Label) :
    ((∃ d', (before b).write (.text t) d = .ok d') ↔
      ∃ g s', (before b).parser (s.withSource (t ++ d.path)) = .good g (.text t) s' ∧
        s'.At d.path.toList) ∧
    ((∃ d', (before b).write (.text t) d = .ok d') ↔
      t ≠ "" ∧ b.find? (Percent.utf8 (t ++ d.path)) = some (Percent.utf8 t).length) := by
  rw [parser_leaves_iff, write_before_iff, ← cut?_eq_some_iff_find?]
  refine ⟨⟨fun hw => ?_, fun hread => ?_⟩, Iff.rfl⟩
  · exact ⟨hw.1, hw.2, rfl⟩
  · exact ⟨hread.1, hread.2.1⟩

/-! ## Delimiters -/

theorem write_upTo_iff {d : Draft} : (∃ d', (upTo delimiter).write (.text t) d = .ok d') ↔
    t ≠ "" ∧ ¬ delimiter.toList <:+: t.toList := by
  rw [write_succeeds_iff, ← hasLiteral_eq_true_iff, Bool.not_eq_true]
  refine ⟨fun hputs => ?_, fun hno => ⟨t, [], rfl, hno, rfl⟩⟩
  obtain ⟨t', ps, ht, hno, -⟩ := hputs
  cases ht
  exact hno

/-- A text in front of a delimiter is read back if no occurrence of the
delimiter begins in it. Such an occurrence ends no later than the delimiter
itself, so what is behind the delimiter does not count. -/
theorem upTo_reads_iff (s : State Label) :
    (∃ g s', (upTo delimiter).parser (s.withSource (t ++ (delimiter ++ r))) = .good g (.text t) s' ∧
      s'.At (delimiter ++ r).toList) ↔
    t ≠ "" ∧ ∀ x y, t.toList = x ++ y → y ≠ [] → ¬ delimiter.toList <+: y ++ delimiter.toList := by
  have hbehind : ∀ y, (delimiter.toList.isPrefixOf (y ++ (delimiter ++ r).toList) = false) ↔
      ¬ delimiter.toList <+: y ++ delimiter.toList := by
    intro y
    rw [← Bool.not_eq_true, List.isPrefixOf_iff_prefix, String.toList_append, ← List.append_assoc, not_iff_not]
    refine ⟨fun hpre => ?_, fun hpre => hpre.trans (List.prefix_append _ _)⟩
    exact List.prefix_of_prefix_length_le hpre (List.prefix_append _ _) (by simp)
  rw [parser_leaves_iff, Takes, String.toList_append, cutAt, cutWhere_eq_some_iff]
  simp only [hbehind, and_true, true_and]
  refine and_congr_right fun _ => ⟨fun hcut => hcut.2, fun hno => ⟨?_, hno⟩⟩
  rw [List.isPrefixOf_iff_prefix, String.toList_append]
  exact List.prefix_append _ _

/-- It is enough to look for the delimiter in the written text alone exactly
if the delimiter does not overlap itself. -/
theorem upTo_guard_suffices_iff (delimiter : String) :
    (∀ (t r : String) (d d' : Draft) (s : State Label), d.path = delimiter ++ r →
      (upTo delimiter).write (.text t) d = .ok d' →
      ∃ g s', (upTo delimiter).parser (s.withSource (t ++ (delimiter ++ r))) = .good g (.text t) s' ∧
        s'.At (delimiter ++ r).toList) ↔
    ¬ Overlaps delimiter.toList := by
  rw [overlaps_iff]
  refine ⟨fun hreads hfront => ?_, fun hno t r d d' s hpath hw => ?_⟩
  · -- what stands in front of the delimiter is a text that is written and not read back
    obtain ⟨y, hy, hout, hpre⟩ := hfront
    obtain ⟨t, rfl⟩ : ∃ t : String, t.toList = y := ⟨String.ofList y, String.toList_ofList⟩
    have hne : t ≠ "" := mt String.toList_eq_nil_iff.mpr hy
    have hwrites : ∃ d', (upTo delimiter).write (.text t) { path := delimiter ++ "" } = .ok d' :=
      write_upTo_iff.mpr ⟨hne, hout⟩
    obtain ⟨d', hw⟩ := hwrites
    have hread := (upTo_reads_iff _).mp (hreads t "" _ d' { source := "" } rfl hw)
    exact hread.2 [] t.toList rfl hy hpre
  · obtain ⟨hne, hout⟩ := write_upTo_iff.mp ⟨d', hw⟩
    refine (upTo_reads_iff s).mpr ⟨hne, fun x y hxy hy hpre => hno ⟨y, hy, fun hin => hout ?_, hpre⟩⟩
    rw [hxy]
    exact hin.trans (List.suffix_append x y).isInfix

/-- A hyphen in front of two hyphens is written, and read as a part of the delimiter. -/
theorem upTo_guard_misses_overlap :
    (upTo "--").write (.text "a-") { path := "--" ++ "7" } = .ok { path := "a-" ++ ("--" ++ "7") } ∧
      (upTo "--").parsePath ("a-" ++ ("--" ++ "7")) = .ok (.text "a") :=
  ⟨rfl, rfl⟩

end Route
end UrlRoutes
