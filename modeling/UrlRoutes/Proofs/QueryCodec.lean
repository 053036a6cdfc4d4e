import Mathlib.Data.List.TakeWhile
import UrlRoutes.Url.Query
/-!
# Queries read back

A coded key or value holds none of the characters that structure a query: no
`&` between fields, no `=` after a key, no `+` for a space and no leading
`?`. So fields split where they were joined, keys end where they ended, and
decoding undoes coding. Only the pair of two empty texts leaves no trace.

Results:
* `readField_writeField`: a written field reads back.
* `pairs_writeSearch`: a written query reads back as its pairs, without the
  empty ones.
* `read_writeSearch`: with proper keys nothing is lost.
* `isWritten_of_mem_write`: the characters of a written query.
* `read_written`: what any list of pairs is read back as.
-/
namespace UrlRoutes
namespace Percent

/-- The characters that structure a query. -/
def isMark (c : Char) : Bool := c == '&' || c == '=' || c == '+' || c == '?'

theorem isMark_of_isCoded {c : Char} (h : isCoded c = true) : isMark c = false := by
  rw [Bool.eq_false_iff]
  intro hm
  simp only [isMark, Bool.or_eq_true, beq_iff_eq] at hm
  rcases hm with ((rfl | rfl) | rfl) | rfl <;> exact absurd h (by decide)

end Percent

namespace Codec
open Query Percent
variable {codec : Codec}

theorem ne_of_mem_encode (h : codec.Lawful) {s : String} {c d : Char} (hc : c ∈ (codec.encode s).toList)
    (hd : isMark d = true) : c ≠ d := by
  intro he
  rw [← he, isMark_of_isCoded (h.isCoded_of_mem s c hc)] at hd
  cases hd

theorem encode_eq_empty_iff (h : codec.Lawful) {s : String} : codec.encode s = "" ↔ s = "" := by
  constructor
  · intro hs
    have hd := h.decode?_encode s
    rw [hs, ← h.encode_empty, h.decode?_encode] at hd
    exact (Option.some.inj hd).symm
  · intro hs
    rw [hs, h.encode_empty]

/-! ## Fields -/

theorem decode_encode (h : codec.Lawful) (s : String) : codec.decode (codec.encode s).toList = s := by
  have hspaced : spaced (codec.encode s).toList = (codec.encode s).toList := by
    rw [spaced]
    conv => rhs; rw [← List.map_id (codec.encode s).toList]
    refine List.map_congr_left fun c hc => ?_
    rw [if_neg (ne_of_mem_encode h hc rfl)]
    rfl
  rw [decode, hspaced, String.ofList_toList, h.decode?_encode, Option.getD_some]

theorem decode_nil (h : codec.Lawful) : codec.decode [] = "" := by
  simpa [h.encode_empty] using decode_encode h ""

theorem readField_writeField (h : codec.Lawful) (key value : String) :
    codec.readField (codec.writeField key value).toList = (key, value) := by
  have hkey : ∀ c ∈ (codec.encode key).toList, decide (c ≠ '=') = true := by
    intro c hc
    exact decide_eq_true (ne_of_mem_encode h hc rfl)
  unfold readField writeField
  split
  · next hv =>
    rw [List.takeWhile_eq_self_iff.mpr hkey, List.dropWhile_eq_nil_iff.mpr hkey, decode_encode h,
      List.drop_nil, decode_nil h, hv]
  · have htail : ("=" : String).toList = ['='] := rfl
    rw [String.toList_append, String.toList_append, htail, List.append_assoc,
      List.takeWhile_append_of_pos hkey, List.dropWhile_append_of_pos hkey, List.singleton_append,
      List.takeWhile_cons_of_neg (by simp), List.dropWhile_cons_of_neg (by simp), List.append_nil,
      List.drop_one, List.tail_cons, decode_encode h, decode_encode h]

theorem mem_writeField (h : codec.Lawful) {key value : String} {c : Char}
    (hc : c ∈ (codec.writeField key value).toList) : isCoded c = true ∨ c = '=' := by
  unfold writeField at hc
  split at hc
  · exact .inl (h.isCoded_of_mem key c hc)
  · rw [String.toList_append, String.toList_append] at hc
    rcases List.mem_append.mp hc with hc | hc
    · rcases List.mem_append.mp hc with hc | hc
      · exact .inl (h.isCoded_of_mem key c hc)
      · exact .inr (List.mem_singleton.mp hc)
    · exact .inl (h.isCoded_of_mem value c hc)

theorem separator_notMem_writeField (h : codec.Lawful) (key value : String) :
    '&' ∉ (codec.writeField key value).toList := by
  intro hm
  rcases mem_writeField h hm with hc | hc <;> exact absurd hc (by decide)

theorem writeField_eq_empty_iff (h : codec.Lawful) {key value : String} :
    codec.writeField key value = "" ↔ key = "" ∧ value = "" := by
  unfold writeField
  split
  · next hv => rw [encode_eq_empty_iff h, hv, and_iff_left rfl]
  · next hv =>
    constructor
    · intro he
      have hl := congrArg String.toList he
      simp at hl
    · intro he
      exact absurd he.2 hv

/-! ## Queries -/

/-- Fields that hold no separator split where they were joined. -/
theorem splitOn_fields {c : Char} {first : List Char} {rest : List (List Char)}
    (hf : c ∉ first) (hr : ∀ field ∈ rest, c ∉ field) :
    splitOn c (first ++ rest.flatMap fun field => c :: field) = first :: rest := by
  induction rest generalizing first with
  | nil => rw [List.flatMap_nil, List.append_nil, splitOn_of_not_mem hf]
  | cons field rest ih =>
    have hfield := hr field List.mem_cons_self
    rw [List.flatMap_cons, List.cons_append, splitOn_append hf,
      ih hfield fun f hm => hr f (List.mem_cons_of_mem field hm)]

theorem toList_writeAfter {out : String} (h : out ≠ "") (ps : List (String × String)) :
    (codec.writeAfter out ps).toList =
      out.toList ++ (ps.map fun p => (codec.writeField p.1 p.2).toList).flatMap fun field => '&' :: field := by
  induction ps generalizing out with
  | nil => simp [writeAfter]
  | cons p ps ih =>
    have hne : out ++ "&" ++ codec.writeField p.1 p.2 ≠ "" := by
      intro he
      have hl := congrArg String.toList he
      simp at hl
    obtain ⟨key, value⟩ := p
    rw [writeAfter, if_neg h, ih hne]
    simp

/-- The fields of a written query that are not empty. -/
theorem fields_write (h : codec.Lawful) (ps : List (String × String)) :
    (splitOn '&' (codec.write ps).toList).filter (· ≠ []) =
      (ps.map fun p => (codec.writeField p.1 p.2).toList).filter (· ≠ []) := by
  induction ps with
  | nil => rfl
  | cons p ps ih =>
    obtain ⟨key, value⟩ := p
    have hw : codec.write ((key, value) :: ps) = codec.writeAfter (codec.writeField key value) ps := by
      rw [write, writeAfter, if_pos rfl, String.empty_append]
    rw [hw]
    by_cases hf : codec.writeField key value = ""
    · rw [hf, ← write, ih, List.map_cons, hf]
      rfl
    · rw [toList_writeAfter hf, splitOn_fields]
      · rfl
      · exact separator_notMem_writeField h key value
      · intro field hm
        obtain ⟨p, -, rfl⟩ := List.mem_map.mp hm
        exact separator_notMem_writeField h p.1 p.2

def isWritten (c : Char) : Bool := isCoded c || c == '=' || c == '&'

theorem isWritten_of_mem_writeAfter (h : codec.Lawful) {out : String} {ps : List (String × String)}
    (hout : ∀ c ∈ out.toList, isWritten c = true) :
    ∀ c ∈ (codec.writeAfter out ps).toList, isWritten c = true := by
  induction ps generalizing out with
  | nil => exact hout
  | cons p ps ih =>
    obtain ⟨key, value⟩ := p
    rw [writeAfter]
    refine ih fun c hc => ?_
    rw [String.toList_append] at hc
    rcases List.mem_append.mp hc with hc | hc
    · split at hc
      · exact hout c hc
      · rw [String.toList_append] at hc
        rcases List.mem_append.mp hc with hc | hc
        · exact hout c hc
        · rw [List.mem_singleton.mp hc]
          rfl
    · rcases mem_writeField h hc with hc | hc <;> simp [isWritten, hc]

theorem isWritten_of_mem_write (h : codec.Lawful) {ps : List (String × String)} {c : Char}
    (hc : c ∈ (codec.write ps).toList) : isWritten c = true :=
  isWritten_of_mem_writeAfter h (by simp) c hc

theorem strip_write (h : codec.Lawful) (ps : List (String × String)) :
    strip (codec.write ps).toList = (codec.write ps).toList := by
  unfold strip
  split
  · next rest hq =>
    have hmem : '?' ∈ (codec.write ps).toList := by
      rw [hq]
      exact List.mem_cons_self
    exact absurd (isWritten_of_mem_write h hmem) (by decide)
  · rfl

/-- Only a pair of two empty texts is lost. -/
theorem pairs_write (h : codec.Lawful) (ps : List (String × String)) :
    codec.pairs (codec.write ps) = ps.filter (· ≠ ("", "")) := by
  rw [pairs, strip_write h, fields_write h]
  induction ps with
  | nil => rfl
  | cons p ps ih =>
    obtain ⟨key, value⟩ := p
    have hempty : (codec.writeField key value).toList = [] ↔ (key, value) = ("", "") := by
      rw [String.toList_eq_nil_iff, writeField_eq_empty_iff h, Prod.mk.injEq]
    rw [List.map_cons, List.filter_cons, List.filter_cons]
    by_cases he : (key, value) = ("", "")
    · rw [if_neg (by simpa using hempty.mpr he), if_neg (by simp [he]), ih]
    · rw [if_pos (decide_eq_true (mt hempty.mp he)), if_pos (decide_eq_true he), List.map_cons, ih,
        readField_writeField h]

theorem pairs_writeSearch (h : codec.Lawful) (ps : List (String × String)) :
    codec.pairs (codec.writeSearch ps) = ps.filter (· ≠ ("", "")) := by
  rw [← pairs_write h, writeSearch]
  split
  · next he => rw [he]
  · have hsearch : strip ("?" ++ codec.write ps).toList = strip (codec.write ps).toList := by
      rw [strip_write h, String.toList_append]
      rfl
    rw [pairs, pairs, hsearch]

theorem read_writeSearch (h : codec.Lawful) {ps : List (String × String)} (hps : ∀ e ∈ ps, e.1 ≠ "") :
    codec.read (codec.writeSearch ps) = .ofList ps := by
  have hall : ps.filter (· ≠ ("", "")) = ps := by
    rw [List.filter_eq_self]
    intro e he
    exact decide_eq_true fun hempty => hps e he (by rw [hempty])
  rw [read, pairs_writeSearch h, hall]

/-- Written pairs are read as a dictionary: a pair of two empty texts leaves no
trace, and the last of the pairs with one key wins. -/
theorem read_written (h : codec.Lawful) (ps : List (String × String)) :
    codec.read (codec.write ps) = .ofList (ps.filter (· ≠ ("", ""))) ∧
      codec.read (codec.writeSearch ps) = codec.read (codec.write ps) ∧
      ∀ key, (codec.read (codec.write ps)).get? key =
        (ps.filter fun p => p ≠ ("", "") ∧ p.1 = key).getLast?.map Prod.snd := by
  have hread : codec.read (codec.write ps) = .ofList (ps.filter (· ≠ ("", ""))) := by
    rw [read, pairs_write h]
  refine ⟨hread, ?_, ?_⟩
  · rw [read, pairs_writeSearch h, hread]
  · intro key
    rw [hread, Dict.get?_ofList_eq_getLast?, List.filter_filter]
    simp only [Bool.and_comm, Bool.decide_and]

/-- In percent coding, with an empty pair, a repeated key, and marks in keys and values. -/
theorem read_written_percent :
    let ps := [("a b", "x&y"), ("", ""), ("k", "1"), ("é", "=+%"), ("k", "")]
    Query.write ps = "a%20b=x%26y&&k=1&%C3%A9=%3D%2B%25&k" ∧
      Query.read (Query.write ps) = ⟨[("a b", "x&y"), ("k", ""), ("é", "=+%")]⟩ ∧
      Query.read (Query.writeSearch ps) = Query.read (Query.write ps) := by
  obtain ⟨hread, hsearch, -⟩ := read_written percent_lawful
    [("a b", "x&y"), ("", ""), ("k", "1"), ("é", "=+%"), ("k", "")]
  exact ⟨by rfl, hread.trans (by rfl), hsearch⟩

end Codec
end UrlRoutes
