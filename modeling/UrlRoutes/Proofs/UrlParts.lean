import UrlRoutes.Proofs.Cuts
import UrlRoutes.Url.Parts
/-!
# The parts of a URL

A URL is cut at first marks: behind its scheme and authority, at the first
hash sign and at the first question mark in front of that. No part has a mark
that would have ended it. So the parts put together again are the URL, and no
other parts like these are.

Results:
* `cutAtChar_eq_iff`: a cut at a mark, by what both sides are.
* `splitPath_nil_eq_iff`: path, query and fragment, by their marks.
* `afterOrigin?_eq_some_iff`: what follows scheme and authority.
* `split_lossless_unique`: a URL has exactly one split.
-/
namespace UrlRoutes.Url
open Text

/-- Starts with a scheme and two slashes. -/
def HasOrigin (url : List Char) : Prop :=
  ∃ scheme rest, url = scheme ++ ':' :: '/' :: '/' :: rest ∧ isScheme scheme = true

/-- Neither a query nor a fragment starts in the text. -/
def PathOnly (text : String) : Prop := '?' ∉ text.toList ∧ '#' ∉ text.toList

instance (text : String) : Decidable (PathOnly text) := inferInstanceAs (Decidable (_ ∧ _))

/-- Each part ends where a mark starts the next one. -/
structure Parts.Marked (parts : Parts) : Prop where
  pathname : PathOnly parts.pathname
  search : parts.search = "" ∨ parts.search.toList.head? = some '?'
  search_hash : '#' ∉ parts.search.toList
  hash : parts.hash = "" ∨ parts.hash.toList.head? = some '#'

def Parts.text (parts : Parts) : String := parts.pathname ++ parts.search ++ parts.hash

/-- The parts of an absolute URL, where no path is the path `/`. -/
def Parts.rooted (parts : Parts) : Parts :=
  { parts with pathname := if parts.pathname = "" then "/" else parts.pathname }

/-- A letter, then letters, digits, `+`, `-` and `.`. -/
def IsScheme (scheme : String) : Prop :=
  (∃ c, scheme.toList.head? = some c ∧ c.isAlpha = true) ∧
    ∀ c ∈ scheme.toList, c.isAlphanum = true ∨ c = '+' ∨ c = '-' ∨ c = '.'

/-- Free of the characters that a path, a query and a fragment start with. -/
def IsAuthority (authority : String) : Prop :=
  '/' ∉ authority.toList ∧ '?' ∉ authority.toList ∧ '#' ∉ authority.toList

/-- The parts, put behind a scheme and an authority, are the URL, where the
path may have been missing. A URL without a scheme is the parts alone. -/
structure SplitsInto (url : String) (parts : Parts) : Prop where
  marked : parts.Marked
  whole :
    (∃ scheme authority path, IsScheme scheme ∧ IsAuthority authority ∧
      (path = "" ∨ path.toList.head? = some '/') ∧
      parts.pathname = (if path = "" then "/" else path) ∧
      url = scheme ++ "://" ++ authority ++ path ++ parts.search ++ parts.hash) ∨
    ((¬ ∃ scheme rest, IsScheme scheme ∧ url = scheme ++ "://" ++ rest) ∧
      url = parts.pathname ++ parts.search ++ parts.hash)

/-! ## Cuts at a mark -/

theorem ne_of_notMem {mark : Char} {cs : List Char} (h : mark ∉ cs) : ∀ c ∈ cs, decide (c ≠ mark) = true := by
  intro c hc
  refine decide_eq_true ?_
  rintro rfl
  exact h hc

theorem cutAtChar_eq_iff {mark : Char} {cs front back : List Char} :
    cutAtChar mark cs = (front, back) ↔
      cs = front ++ back ∧ mark ∉ front ∧ (back = [] ∨ back.head? = some mark) := by
  rw [cutAtChar, Prod.mk.injEq, cut_while_iff]
  refine and_congr_right fun _ => and_congr ⟨fun h hm => ?_, ne_of_notMem⟩ ?_
  · exact absurd (h mark hm) (by simp)
  · cases back <;> simp

theorem splitPath_nil (cs : List Char) : splitPath [] cs =
    ⟨String.ofList ((cs.takeWhile (· ≠ '#')).takeWhile (· ≠ '?')),
      String.ofList ((cs.takeWhile (· ≠ '#')).dropWhile (· ≠ '?')),
      String.ofList (cs.dropWhile (· ≠ '#'))⟩ := by
  have hempty : ∀ front : List Char, (if front = [] then [] else front) = front := by
    intro front
    split
    · next h => exact h.symm
    · rfl
  exact congrArg (fun front => Parts.mk (String.ofList front) _ _) (hempty _)

/-- Cutting at the hash sign and then at the question mark gives parts that are
marked, and the only ones that make up the text. -/
theorem splitPath_nil_eq_iff {cs : List Char} {parts : Parts} :
    splitPath [] cs = parts ↔ parts.Marked ∧ cs = parts.text.toList := by
  have hcuts : splitPath [] cs = parts ↔
      cutAtChar '#' cs = (parts.pathname.toList ++ parts.search.toList, parts.hash.toList) ∧
        cutAtChar '?' (parts.pathname.toList ++ parts.search.toList) =
          (parts.pathname.toList, parts.search.toList) := by
    rw [splitPath_nil]
    constructor
    · rintro rfl
      simp only [String.toList_ofList, List.takeWhile_append_dropWhile]
      exact ⟨rfl, rfl⟩
    · rintro ⟨hhash, hmark⟩
      rw [cutAtChar, Prod.mk.injEq] at hhash hmark
      rw [hhash.1, hhash.2, hmark.1, hmark.2, String.ofList_toList, String.ofList_toList, String.ofList_toList]
  rw [hcuts, cutAtChar_eq_iff, cutAtChar_eq_iff, Parts.text, String.toList_append, String.toList_append,
    List.mem_append, not_or, String.toList_eq_nil_iff, String.toList_eq_nil_iff]
  constructor
  · rintro ⟨⟨hwhole, ⟨hpath, hsearch⟩, hhash⟩, -, hmark, hopens⟩
    exact ⟨⟨⟨hmark, hpath⟩, hopens, hsearch, hhash⟩, hwhole⟩
  · rintro ⟨h, hwhole⟩
    exact ⟨⟨hwhole, ⟨h.pathname.2, h.search_hash⟩, h.hash⟩, rfl, h.pathname.1, h.search⟩

theorem splitPath_slash (cs : List Char) : splitPath ['/'] cs = (splitPath [] cs).rooted := by
  rw [splitPath_nil, Parts.rooted]
  refine congrArg (fun front => Parts.mk front _ _) ?_
  simp only [String.ofList_eq_empty_iff]
  split <;> rfl

/-! ## Origins -/

theorem isAlpha_of_isScheme {scheme : List Char} (h : isScheme scheme = true) :
    ∃ c cs, scheme = c :: cs ∧ c.isAlpha = true := by
  cases scheme with
  | nil => cases h
  | cons c cs => exact ⟨c, cs, rfl, (Bool.and_eq_true_iff.mp h).1⟩

theorem colon_notMem_of_isScheme {scheme : List Char} (h : isScheme scheme = true) : ':' ∉ scheme := by
  cases scheme with
  | nil => exact List.not_mem_nil
  | cons c cs =>
    obtain ⟨hc, hcs⟩ := Bool.and_eq_true_iff.mp h
    intro hm
    rcases List.mem_cons.mp hm with rfl | hm
    · exact absurd hc (by decide)
    · exact absurd (List.all_eq_true.mp hcs _ hm) (by decide)

/-- The first `://` is the one behind a scheme, since a scheme has no colon. -/
theorem cutAt_origin {scheme : List Char} (h : isScheme scheme = true) (rest : List Char) :
    cutAt [':', '/', '/'] (scheme ++ ':' :: '/' :: '/' :: rest) =
      some (scheme, ':' :: '/' :: '/' :: rest) := by
  refine cutWhere_eq_some_iff.mpr ⟨rfl, by simp, ?_⟩
  intro x y hxy hy
  cases y with
  | nil => exact absurd rfl hy
  | cons c y =>
    have hc : c ≠ ':' := by
      rintro rfl
      refine colon_notMem_of_isScheme h ?_
      rw [hxy]
      exact List.mem_append_right _ List.mem_cons_self
    simp [List.isPrefixOf, hc.symm]

theorem afterOrigin?_origin {scheme : List Char} (h : isScheme scheme = true) (rest : List Char) :
    afterOrigin? (scheme ++ ':' :: '/' :: '/' :: rest) = some (rest.dropWhile fun c => !endsAuthority c) := by
  rw [afterOrigin?, cutAt_origin h]
  exact if_pos h

theorem exists_afterOrigin?_iff {url : List Char} : (∃ rest, afterOrigin? url = some rest) ↔ HasOrigin url := by
  constructor
  · rintro ⟨left, h⟩
    unfold afterOrigin? at h
    split at h
    · next scheme rest hcut =>
      split at h
      · next hscheme =>
        obtain ⟨rfl, hstop, -⟩ := cutWhere_eq_some_iff.mp hcut
        obtain ⟨tail, rfl⟩ := List.isPrefixOf_iff_prefix.mp hstop
        exact ⟨scheme, tail, rfl, hscheme⟩
      · cases h
    · cases h
  · rintro ⟨scheme, rest, rfl, hscheme⟩
    exact ⟨_, afterOrigin?_origin hscheme rest⟩

theorem afterOrigin?_eq_none_iff {url : List Char} : afterOrigin? url = none ↔ ¬HasOrigin url := by
  rw [← exists_afterOrigin?_iff, Option.eq_none_iff_forall_ne_some, not_exists]

/-- In front of what is left stand a scheme and an authority, which ends
where a path, a query or a fragment starts. -/
theorem afterOrigin?_eq_some_iff {url rest : List Char} :
    afterOrigin? url = some rest ↔
      ∃ scheme authority, isScheme scheme = true ∧ (∀ c ∈ authority, endsAuthority c = false) ∧
        (∀ c ∈ rest.head?, endsAuthority c = true) ∧
        url = scheme ++ ':' :: '/' :: '/' :: (authority ++ rest) := by
  constructor
  · intro h
    obtain ⟨scheme, tail, rfl, hscheme⟩ := exists_afterOrigin?_iff.mp ⟨rest, h⟩
    rw [afterOrigin?_origin hscheme, Option.some.injEq] at h
    obtain ⟨htail, hauthority, hrest⟩ := cut_while_iff.mp ⟨rfl, h⟩
    refine ⟨scheme, tail.takeWhile fun c => !endsAuthority c, hscheme, ?_, ?_, by rw [← htail]⟩
    · exact fun c hc => by simpa using hauthority c hc
    · exact fun c hc => by simpa using hrest c hc
  · rintro ⟨scheme, authority, hscheme, hauthority, hrest, rfl⟩
    have hcut : _ ∧ (authority ++ rest).dropWhile (fun c => !endsAuthority c) = rest :=
      cut_while_iff.mpr ⟨rfl, fun c hc => by simp [hauthority c hc], fun c hc => by simp [hrest c hc]⟩
    rw [afterOrigin?_origin hscheme, hcut.2]

theorem isScheme_iff {scheme : String} : isScheme scheme.toList = true ↔ IsScheme scheme := by
  unfold IsScheme
  cases scheme.toList with
  | nil => simp [isScheme]
  | cons c cs =>
    simp only [isScheme, List.head?_cons, Option.some.injEq, exists_eq_left', List.forall_mem_cons,
      Bool.and_eq_true, List.all_eq_true, Bool.or_eq_true, beq_iff_eq, or_assoc]
    refine and_congr_right fun hc => ?_
    have halpha : c.isAlphanum = true := by rw [Char.isAlphanum, hc, Bool.true_or]
    rw [and_iff_right (Or.inl halpha)]

theorem isAuthority_iff {authority : String} :
    IsAuthority authority ↔ ∀ c ∈ authority.toList, endsAuthority c = false := by
  simp only [IsAuthority, endsAuthority, Bool.or_eq_false_iff, beq_eq_false_iff_ne]
  constructor
  · rintro ⟨hslash, hmark, hhash⟩ c hc
    exact ⟨⟨ne_of_mem_of_not_mem hc hslash, ne_of_mem_of_not_mem hc hmark⟩, ne_of_mem_of_not_mem hc hhash⟩
  · intro h
    exact ⟨fun hm => (h _ hm).1.1 rfl, fun hm => (h _ hm).1.2 rfl, fun hm => (h _ hm).2 rfl⟩

theorem hasOrigin_iff {url : String} :
    HasOrigin url.toList ↔ ∃ scheme rest, IsScheme scheme ∧ url = scheme ++ "://" ++ rest := by
  constructor
  · rintro ⟨scheme, rest, hurl, hscheme⟩
    refine ⟨String.ofList scheme, String.ofList rest, ?_, String.toList_injective ?_⟩
    · rw [← isScheme_iff, String.toList_ofList]
      exact hscheme
    · simp [hurl]
  · rintro ⟨scheme, rest, hscheme, rfl⟩
    exact ⟨scheme.toList, rest.toList, by simp, isScheme_iff.mpr hscheme⟩

/-- An authority ends in front of the parts exactly when their path is missing or
starts with a slash. -/
theorem Parts.Marked.head?_text_iff {parts : Parts} (h : parts.Marked) :
    (∀ c ∈ parts.text.toList.head?, endsAuthority c = true) ↔
      (parts.pathname = "" ∨ parts.pathname.toList.head? = some '/') := by
  rw [Parts.text, String.toList_append, String.toList_append, List.append_assoc, ← String.toList_eq_nil_iff]
  obtain ⟨hmark, hhash⟩ := h.pathname
  cases hpath : parts.pathname.toList with
  | cons c cs =>
    rw [hpath] at hmark hhash
    have hc : endsAuthority c = true ↔ c = '/' := by
      simp [endsAuthority, (List.ne_of_not_mem_cons hmark).symm, (List.ne_of_not_mem_cons hhash).symm]
    simp [hc]
  | nil =>
    have hopens : ∀ c ∈ (parts.search.toList ++ parts.hash.toList).head?, c = '?' ∨ c = '#' := by
      rcases h.search with hsearch | hsearch
      · rcases h.hash with hfragment | hfragment
        · simp [hsearch, hfragment]
        · simp [hsearch, hfragment]
      · simp [hsearch]
    refine iff_of_true (fun c hc => ?_) (.inl rfl)
    rcases hopens c hc with rfl | rfl
    · rfl
    · rfl

theorem Parts.marked_rooted {parts : Parts} : parts.rooted.Marked ↔ parts.Marked := by
  have hpath : PathOnly parts.rooted.pathname ↔ PathOnly parts.pathname := by
    by_cases h : parts.pathname = ""
    · have hslash : parts.rooted.pathname = "/" := if_pos h
      rw [h, hslash]
      decide
    · have hsame : parts.rooted.pathname = parts.pathname := if_neg h
      rw [hsame]
  constructor
  · intro h
    exact ⟨hpath.mp h.pathname, h.search, h.search_hash, h.hash⟩
  · intro h
    exact ⟨hpath.mpr h.pathname, h.search, h.search_hash, h.hash⟩

/-! ## Splits -/

theorem split_of_some {url : String} {rest : List Char} (h : afterOrigin? url.toList = some rest) :
    split url = (splitPath [] rest).rooted := by
  rw [split, h, ← splitPath_slash]

theorem split_of_none {url : String} (h : afterOrigin? url.toList = none) :
    split url = splitPath [] url.toList := by
  rw [split, h]

theorem splitsInto_split (url : String) : SplitsInto url (split url) := by
  cases h : afterOrigin? url.toList with
  | none =>
    obtain ⟨hmarked, hurl⟩ := splitPath_nil_eq_iff.mp (split_of_none h).symm
    refine ⟨hmarked, .inr ⟨?_, String.toList_injective hurl⟩⟩
    rw [← hasOrigin_iff]
    exact afterOrigin?_eq_none_iff.mp h
  | some rest =>
    obtain ⟨scheme, authority, hscheme, hauthority, hhead, hurl⟩ := afterOrigin?_eq_some_iff.mp h
    obtain ⟨bare, hbare⟩ : ∃ bare, splitPath [] rest = bare := ⟨_, rfl⟩
    obtain ⟨hmarked, rfl⟩ := splitPath_nil_eq_iff.mp hbare
    rw [split_of_some h, hbare]
    refine ⟨Parts.marked_rooted.mpr hmarked, .inl ⟨String.ofList scheme, String.ofList authority, bare.pathname,
      isScheme_iff.mp ?_, isAuthority_iff.mpr ?_, hmarked.head?_text_iff.mp hhead, rfl, ?_⟩⟩
    · rw [String.toList_ofList]
      exact hscheme
    · rw [String.toList_ofList]
      exact hauthority
    · refine String.toList_injective ?_
      simp [hurl, Parts.text, Parts.rooted]

theorem SplitsInto.split_eq {url : String} {parts : Parts} (h : SplitsInto url parts) : split url = parts := by
  rcases h.whole with ⟨scheme, authority, path, hscheme, hauthority, hpath, hrooted, hurl⟩ | ⟨hno, hurl⟩
  · obtain ⟨bare, hbare⟩ : ∃ bare, bare = { parts with pathname := path } := ⟨_, rfl⟩
    have hparts : parts = bare.rooted := by
      rw [hbare, Parts.rooted, ← hrooted]
    have hmarked : bare.Marked := Parts.marked_rooted.mp (hparts ▸ h.marked)
    have hrest : afterOrigin? url.toList = some bare.text.toList := by
      refine afterOrigin?_eq_some_iff.mpr ⟨scheme.toList, authority.toList, isScheme_iff.mpr hscheme,
        isAuthority_iff.mp hauthority, hmarked.head?_text_iff.mpr ?_, ?_⟩
      · rw [hbare]
        exact hpath
      · simp [hurl, hbare, Parts.text]
    rw [split_of_some hrest, splitPath_nil_eq_iff.mpr ⟨hmarked, rfl⟩, hparts]
  · have hnone : afterOrigin? url.toList = none :=
      afterOrigin?_eq_none_iff.mpr fun ho => hno (hasOrigin_iff.mp ho)
    rw [split_of_none hnone]
    exact splitPath_nil_eq_iff.mpr ⟨h.marked, by rw [hurl, Parts.text]⟩

/-- An absolute URL has a path that starts with a slash. -/
theorem head?_pathname_of_hasOrigin {url : String} (h : HasOrigin url.toList) :
    (split url).pathname.toList.head? = some '/' := by
  rcases (splitsInto_split url).whole with ⟨_, _, path, -, -, hpath, hrooted, -⟩ | ⟨hno, -⟩
  · rw [hrooted]
    split
    · rfl
    · next hne => exact hpath.resolve_left hne
  · exact absurd (hasOrigin_iff.mp h) hno

/-- The split of a URL has marked parts that make up the URL, and no other parts do. -/
theorem split_lossless_unique (url : String) (parts : Parts) : SplitsInto url parts ↔ parts = split url := by
  constructor
  · intro h
    exact h.split_eq.symm
  · rintro rfl
    exact splitsInto_split url

/-- Only the first marks count, and only behind a scheme. -/
example : split "a:b://x/y?z#?" = ⟨"a:b://x/y", "?z", "#?"⟩ ∧ split "http://x?y://z" = ⟨"/", "?y://z", ""⟩ := by
  decide

end UrlRoutes.Url
