import Mathlib.Data.List.Perm.Subperm
import UrlRoutes.Proofs.Captures
/-!
# Routes that match something

The checks of a definition leave two ways to never match. An integer goes on
with a point or an exponent letter, so nothing is read in front of a literal
that starts with one. And a text ends where the enumeration after it can
start, which is at once when that has an empty option. Whether either happens
can be told from the path; if not, a text the path reads is put together from
its end to its start.

An enumeration can also have an option for every character, which leaves
none for a text in front of it. It takes a million options to leave no room.

Results:
* `live_of_spells`: a path that reads some text is live.
* `exists_spells`: a live path with room reads some text.
* `matchesSome_iff_live`: a compiled route with room matches some request
  exactly when its path is live.
* `compiled_never_matching`: routes that match no request.
-/
namespace UrlRoutes

/-- Some path, method and query are matched from the start. -/
def Route.MatchesSome (route : Route) : Prop :=
  ∃ pathname method params g v s',
    route.parser { source := pathname, method := method, params := params } = .good g v s'

namespace Definition
open Number

/-! ## Live paths -/

/-- The options a path starts with. -/
def firstOptions : List Segment → List String
  | .param p :: _ =>
    match p.matcher with
    | .choice options => options
    | _ => []
  | _ => []

/-- Whether an integer can end in front of the path. Of an enumeration, an
option that does not go on with the integer decides, the first one. -/
def followsInt : List Segment → Bool
  | [] => true
  | .literal text :: _ => EndsWhole text.toList
  | .param p :: rest =>
    match p.matcher with
    | .choice options =>
      match options.find? fun option => EndsWhole option.toList with
      | some option => option ≠ "" || followsInt rest
      | none => false
    | _ => true

/-- Whether a capture can end in front of the path. -/
def endsBefore (m : Matcher) (rest : List Segment) : Bool :=
  match m with
  | .text => "" ∉ firstOptions rest
  | .int => followsInt rest
  | _ => true

/-- Whether every capture of the path can end in front of what follows it. -/
def live : List Segment → Bool
  | [] => true
  | .literal _ :: rest => live rest
  | .param p :: rest => endsBefore p.matcher rest && live rest

/-- Some character starts none of the options, and does not go on with a number. -/
def HasRoom (options : List String) : Prop :=
  ∃ c, EndsWhole [c] ∧ ∀ option ∈ options, option.toList.head? ≠ some c

/-- Every text of the path has room in front of the options that follow it. -/
def Roomy : List Segment → Prop
  | [] => True
  | .literal _ :: rest => Roomy rest
  | .param p :: rest => (p.matcher = .text → HasRoom (firstOptions rest)) ∧ Roomy rest

/-! ## Room -/

/-- The characters behind the first plane are numbered without a gap. -/
theorem toNat_astral {i : Nat} (h : i < 0x100000) : (Char.ofNat (0x10000 + i)).toNat = 0x10000 + i := by
  have hvalid : (0x10000 + i).isValidChar := .inr ⟨by omega, by omega⟩
  rw [Char.ofNat, dif_pos hvalid]
  rfl

theorem endsWhole_of_le {c : Char} (h : 128 ≤ c.toNat) : EndsWhole [c] := by
  refine ⟨?_, ?_, ?_⟩
  all_goals
    rintro rfl
    revert h
    decide

/-- There are more characters than options. -/
theorem hasRoom_of_length_lt {options : List String} (h : options.length < 0x100000) : HasRoom options := by
  let heads := options.filterMap fun option => option.toList.head?
  let candidates := (List.range 0x100000).map fun i => Char.ofNat (0x10000 + i)
  have hnodup : candidates.Nodup := by
    refine List.Nodup.map_on (fun i hi j hj hij => ?_) List.nodup_range
    have hcode := congrArg Char.toNat hij
    rw [toNat_astral (List.mem_range.mp hi), toNat_astral (List.mem_range.mp hj)] at hcode
    omega
  have hnot : ¬candidates ⊆ heads := by
    intro hsub
    have hle : candidates.length ≤ heads.length := (hnodup.subperm hsub).length_le
    have hheads : heads.length ≤ options.length := List.length_filterMap_le _ _
    rw [List.length_map, List.length_range] at hle
    omega
  simp only [List.subset_def, not_forall] at hnot
  obtain ⟨c, hc, hfree⟩ := hnot
  obtain ⟨i, hi, rfl⟩ := List.mem_map.mp hc
  have hcode := toNat_astral (List.mem_range.mp hi)
  refine ⟨Char.ofNat (0x10000 + i), endsWhole_of_le (by omega), fun option ho hhead => hfree ?_⟩
  exact List.mem_filterMap.mpr ⟨option, ho, hhead⟩

/-- Only an enumeration of a million options can leave no room. -/
theorem roomy_of_length_lt {path : List Segment}
    (h : ∀ p ∈ params path, ∀ options, p.matcher = .choice options → options.length < 0x100000) : Roomy path := by
  induction path with
  | nil => trivial
  | cons segment rest ih =>
    cases segment with
    | literal text => exact ih h
    | param p =>
      have hrest := ih fun q hq => h q (List.mem_cons_of_mem _ hq)
      refine ⟨fun _ => hasRoom_of_length_lt ?_, hrest⟩
      unfold firstOptions
      split
      · next q tail =>
        split
        · next options hm => exact h q (List.mem_cons_of_mem _ List.mem_cons_self) options hm
        · decide
      · decide

/-! ## What is read shows a live path -/

/-- Two searches that find what the other one looks for find the same. -/
theorem find?_agree {α : Type} {p q : α → Bool} {as : List α} {a b : α} (ha : as.find? p = some a)
    (hb : as.find? q = some b) (hqa : q a = true) (hpb : p b = true) : a = b := by
  induction as with
  | nil => cases ha
  | cons c as ih =>
    rw [List.find?_cons] at ha hb
    split at ha
    · cases ha
      rw [hqa] at hb
      cases hb
      rfl
    · next hp =>
      split at hb
      · cases hb
        rw [hpb] at hp
        cases hp
      · exact ih ha hb

theorem followsInt_of_spells {tail : String} {path : List Segment} {x : String}
    {fields : List (String × Value)} (h : Spells Route.Consumes tail path x fields)
    (hx : EndsWhole (x ++ tail).toList) : followsInt path = true := by
  induction path generalizing x fields with
  | nil => rfl
  | cons segment rest ih =>
    cases segment with
    | literal text =>
      obtain ⟨y, rfl, -⟩ := h
      rw [String.append_assoc, String.toList_append] at hx
      exact decide_eq_true (hx.of_prefix (List.prefix_append _ _))
    | param p =>
      obtain ⟨t, y, a, fs, rfl, -, hcap, hy⟩ := h
      rw [String.append_assoc, String.toList_append] at hx
      rw [followsInt]
      split
      · next options hm =>
        rw [hm] at hcap
        have hread := (hcap ⟨true, none, .empty⟩).1
        have ht : EndsWhole t.toList := hx.of_prefix (List.prefix_append _ _)
        split
        · next option hfirst =>
          by_cases hempty : option = ""
          · -- the empty option was read itself, so the question is handed on
            rw [hempty] at hfirst
            have hte : t = "" := find?_agree hread hfirst (decide_eq_true ht) rfl
            rw [hte, String.toList_empty, List.nil_append] at hx
            rw [ih hy hx, Bool.or_true]
          · simp [hempty]
        · next hnone =>
          have hno := List.find?_eq_none.mp hnone t (List.mem_of_find?_eq_some hread)
          exact absurd (decide_eq_true ht) hno
      · rfl

/-- No option stands where a text starts that is read up to one of them. -/
theorem not_prefix_of_cut? {options : List String} {t r : List Char} (ht : t ≠ [])
    (h : (Boundary.anyOf options).cut? (t ++ r) = some (t, r)) {option : String} (hm : option ∈ options) :
    ¬option.toList <+: t ++ r := by
  intro hpre
  obtain ⟨-, -, hfirst⟩ := Text.cutWhere_eq_some_iff.mp h
  have hstart : (Boundary.anyOf options).startsAt (t ++ r) = true :=
    List.any_eq_true.mpr ⟨option, hm, List.isPrefixOf_iff_prefix.mpr hpre⟩
  have hnot : (Boundary.anyOf options).startsAt (t ++ r) = false := hfirst [] t rfl ht
  rw [hnot] at hstart
  cases hstart

theorem captureRoute_text_choice {q : Param} {options : List String} (hm : q.matcher = .choice options)
    (rest : List Segment) : captureRoute .text (.param q :: rest) = .before (.anyOf options) := by
  simp only [captureRoute, hm, Matcher.boundary?]

/-- What a text in front of an enumeration has to avoid. -/
theorem not_prefix_of_consumes {q : Param} {options : List String} (hm : q.matcher = .choice options)
    {rest : List Segment} {t r : String} {a : Value}
    (ht : (captureRoute .text (.param q :: rest)).Consumes t r a) {option : String} (ho : option ∈ options) :
    t ≠ "" ∧ ¬option.toList <+: t.toList ++ r.toList := by
  rw [captureRoute_text_choice hm] at ht
  obtain ⟨hne, hcut, -⟩ := ht ⟨true, none, .empty⟩
  rw [String.toList_append] at hcut
  exact ⟨hne, not_prefix_of_cut? (mt String.toList_eq_nil_iff.mp hne) hcut ho⟩

theorem endsBefore_of_consumes {m : Matcher} {rest : List Segment} {t r : String} {a : Value}
    (ht : (captureRoute m rest).Consumes t r a)
    (hrest : EndsWhole r.toList → followsInt rest = true) : endsBefore m rest = true := by
  unfold endsBefore
  split
  · refine decide_eq_true fun hempty => ?_
    unfold firstOptions at hempty
    split at hempty
    · split at hempty
      · next hm => exact (not_prefix_of_consumes hm ht hempty).2 List.nil_prefix
      · cases hempty
    · cases hempty
  · obtain ⟨n, -, -, -, hstop⟩ := Route.consumes_int_iff.mp ht
    exact hrest (endsWhole_of_stops hstop)
  · rfl

/-- A path that reads some text is live. -/
theorem live_of_spells {tail : String} {path : List Segment} {x : String}
    {fields : List (String × Value)} (h : Spells Route.Consumes tail path x fields) : live path = true := by
  induction path generalizing x fields with
  | nil => rfl
  | cons segment rest ih =>
    cases segment with
    | literal text =>
      obtain ⟨y, -, hy⟩ := h
      exact ih hy
    | param p =>
      obtain ⟨t, y, a, fs, -, -, hcap, hy⟩ := h
      rw [live, ih hy, Bool.and_true]
      exact endsBefore_of_consumes hcap fun hx => followsInt_of_spells hy hx

/-! ## Captures in front of a text -/

/-- What a capture in front of the path can rely on in the text the path reads. -/
structure Opens (path : List Segment) (x : String) : Prop where
  first : match path with
    | [] => x = ""
    | .literal text :: _ => ∃ y, x = text ++ y
    | .param q :: _ => ∀ b, q.matcher.boundary? = some b → b.startsAt x.toList = true
  /-- An integer ends in front of the text if it can end in front of the path. -/
  whole : followsInt path = true → EndsWhole x.toList

theorem opens_param_iff {p : Param} {rest : List Segment} {x : String} :
    Opens (.param p :: rest) x ↔
      (∀ b, p.matcher.boundary? = some b → b.startsAt x.toList = true) ∧
        (followsInt (.param p :: rest) = true → EndsWhole x.toList) :=
  ⟨fun h => ⟨h.first, h.whole⟩, fun h => ⟨h.1, h.2⟩⟩

theorem isPrefixOf_of_head_ne {d cs : List Char} {c : Char} (hd : d ≠ []) (hc : d.head? ≠ some c) :
    d.isPrefixOf (c :: cs) = false := by
  cases d with
  | nil => exact absurd rfl hd
  | cons b d =>
    rw [List.isPrefixOf_cons_cons, Bool.and_eq_false_iff, beq_eq_false_iff_ne]
    exact .inl fun he => hc (congrArg some he)

theorem startsAt_of_head_ne {options : List String} {c : Char} {cs : List Char} (hempty : "" ∉ options)
    (hc : ∀ option ∈ options, option.toList.head? ≠ some c) :
    (Boundary.anyOf options).startsAt (c :: cs) = false := by
  refine List.any_eq_false.mpr fun option hm => ?_
  have hne : option.toList ≠ [] := by
    intro h
    rw [String.toList_eq_nil_iff.mp h] at hm
    exact hempty hm
  rw [isPrefixOf_of_head_ne hne (hc option hm)]
  exact Bool.false_ne_true

theorem consumes_upTo {delimiter y : String} {c : Char} (hd : delimiter ≠ "")
    (hc : delimiter.toList.head? ≠ some c) :
    (Route.upTo delimiter).Consumes (String.singleton c) (delimiter ++ y) (.text (String.singleton c)) := by
  intro _
  refine ⟨by simp, ?_, rfl⟩
  rw [String.toList_append, String.toList_singleton]
  refine Text.cutWhere_of_next (isPrefixOf_of_head_ne (mt String.toList_eq_nil_iff.mp hd) hc) ?_
  rw [String.toList_append]
  exact List.isPrefixOf_iff_prefix.mpr (List.prefix_append _ _)

theorem consumes_before {b : Boundary} {y : String} {c : Char} (hc : b.startsAt (c :: y.toList) = false)
    (hy : b.startsAt y.toList = true) :
    (Route.before b).Consumes (String.singleton c) y (.text (String.singleton c)) := by
  intro _
  refine ⟨by simp, ?_, rfl⟩
  rw [String.toList_append, String.toList_singleton]
  exact Text.cutWhere_of_next hc hy

/-- One character is enough for a text. -/
theorem exists_text {rest : List Segment} {y : String}
    (hends : ∀ q tail, rest = .param q :: tail → q.matcher.isBounded = true)
    (hnamed : ∀ text, .literal text ∈ rest → text ≠ "") (hempty : "" ∉ firstOptions rest)
    (hroom : HasRoom (firstOptions rest)) (hy : Opens rest y) :
    ∃ c, EndsWhole [c] ∧
      (captureRoute .text rest).Consumes (String.singleton c) y (.text (String.singleton c)) := by
  cases rest with
  | nil => exact ⟨'-', by decide, fun _ => ⟨hy.first, .inl (by decide), rfl⟩⟩
  | cons next tail =>
    cases next with
    | literal delimiter =>
      obtain ⟨y, rfl⟩ := hy.first
      have hne := hnamed delimiter List.mem_cons_self
      by_cases hhead : delimiter.toList.head? = some '-'
      · refine ⟨'_', by decide, consumes_upTo hne ?_⟩
        rw [hhead]
        decide
      · exact ⟨'-', by decide, consumes_upTo hne hhead⟩
    | param q =>
      have hq := hends q tail rfl
      have hstart := hy.first
      simp only at hstart
      simp only [firstOptions] at hempty hroom
      simp only [captureRoute]
      cases hm : q.matcher with
      | int | float =>
        rw [hm] at hstart
        exact ⟨'-', by decide, consumes_before rfl (hstart .digit rfl)⟩
      | choice options =>
        rw [hm] at hstart hempty hroom
        obtain ⟨c, hwhole, hc⟩ := hroom
        exact ⟨c, hwhole, consumes_before (startsAt_of_head_ne hempty hc) (hstart _ rfl)⟩
      | text | rest =>
        rw [hm] at hq
        cases hq

theorem endsWhole_of_digit {cs : List Char} (h : Boundary.digit.startsAt cs = true) : EndsWhole cs := by
  cases cs with
  | nil => trivial
  | cons c cs => exact endsWhole_of_isDigit h

theorem exists_int {y : String} (hy : EndsWhole y.toList) :
    ∃ t a, Route.int.Consumes t y a ∧ Boundary.digit.startsAt (t.toList ++ y.toList) = true := by
  obtain ⟨n, hmax, hstop⟩ := exists_stops hy
  have ht : Route.int.Consumes (text 10 n) y (.int n) :=
    Route.consumes_int_iff.mpr ⟨n, rfl, rfl, hmax, hstop⟩
  exact ⟨_, _, ht, (Captures.int []).startsAt_of_consumes rfl ht _⟩

/-- A double ends in front of any text. -/
theorem exists_float (y : String) :
    ∃ t a, Route.float.Consumes t y a ∧ Boundary.digit.startsAt (t.toList ++ y.toList) = true := by
  by_cases hstop : Stops 0 y.toList
  · refine ⟨"0", .float (.ofNat 0), fun _ => ⟨.int 0, ?_, rfl⟩, rfl⟩
    rw [String.toList_append]
    exact scan_of_isInteger (isInteger_int_iff.mpr ⟨rfl, Nat.zero_le _, hstop⟩)
  · -- what goes on with a zero does not go on with the digits of an exponent
    have hdigit : ∀ c ∈ y.toList.head?, isDigitIn 10 c = false := by
      intro c hc
      obtain ⟨cs, hy⟩ := List.head?_eq_some_iff.mp hc
      rw [hy] at hstop
      exact Bool.eq_false_iff.mpr fun hd => hstop (stops_zero_of_digit hd)
    refine ⟨"0e0", .float (Binary64.ofDecimal 0 0), fun _ => ⟨.float (Binary64.ofDecimal 0 0), ?_, rfl⟩, rfl⟩
    rw [String.toList_append]
    exact scan_zero_exponent hdigit

theorem find?_prefix_of_endsWhole {options : List String} {option : String} {y : List Char}
    (hfirst : options.find? (fun o => EndsWhole o.toList) = some option)
    (hy : EndsWhole (option.toList ++ y)) :
    options.find? (fun o => o.toList.isPrefixOf (option.toList ++ y)) = some option := by
  obtain ⟨-, as, bs, rfl, has⟩ := List.find?_eq_some_iff_append.mp hfirst
  refine List.find?_eq_some_iff_append.mpr ⟨?_, as, bs, rfl, fun o ho => ?_⟩
  · exact List.isPrefixOf_iff_prefix.mpr (List.prefix_append _ _)
  · -- an option tried before starts like a fraction or an exponent
    rw [Bool.not_eq_true', Bool.eq_false_iff, ne_eq, List.isPrefixOf_iff_prefix]
    intro hpre
    have hno := has o ho
    rw [decide_eq_true (hy.of_prefix hpre)] at hno
    cases hno

/-- Some option is read, and behind an integer one that does not go on with it. -/
theorem exists_choice {p : Param} {options : List String} (hm : p.matcher = .choice options)
    (hne : options ≠ []) {rest : List Segment} {y : String}
    (hy : followsInt rest = true → EndsWhole y.toList) :
    ∃ t, (Route.choice options).Consumes t y (.text t) ∧
      (followsInt (.param p :: rest) = true → EndsWhole (t.toList ++ y.toList)) := by
  by_cases hfollows : followsInt (.param p :: rest) = true
  · have hf := hfollows
    simp only [followsInt, hm] at hf
    split at hf
    · next option hfirst =>
      have hread : EndsWhole (option.toList ++ y.toList) := by
        by_cases hempty : option = ""
        · simp only [hempty, ne_eq, not_true_eq_false, decide_false, Bool.false_or] at hf
          rw [hempty]
          exact hy hf
        · have hfound := List.find?_some hfirst
          exact EndsWhole.append (of_decide_eq_true hfound) (mt String.toList_eq_nil_iff.mp hempty) _
      refine ⟨option, fun _ => ⟨?_, rfl⟩, fun _ => hread⟩
      rw [String.toList_append]
      exact find?_prefix_of_endsWhole hfirst hread
    · cases hf
  · cases options with
    | nil => exact absurd rfl hne
    | cons option options =>
      refine ⟨option, fun _ => ⟨?_, rfl⟩, fun h => absurd h hfollows⟩
      rw [String.toList_append]
      exact List.find?_cons_of_pos (List.isPrefixOf_iff_prefix.mpr (List.prefix_append _ _))

/-- A capture that can end in front of a path reads something in front of
what the path reads. -/
theorem exists_capture {p : Param} {rest : List Segment} {y : String}
    (hends : checkEnds (.param p :: rest) = .ok ()) (hchoice : p.matcher ≠ .choice [])
    (hnamed : ∀ text, .literal text ∈ rest → text ≠ "") (hroom : Roomy (.param p :: rest))
    (hlive : endsBefore p.matcher rest = true) (hy : Opens rest y) :
    ∃ t a, (captureRoute p.matcher rest).Consumes t y a ∧ Opens (.param p :: rest) (t ++ y) := by
  obtain ⟨hlast, hbounded, -⟩ := checkEnds_param_iff.mp hends
  simp only [opens_param_iff, String.toList_append]
  cases hm : p.matcher with
  | text =>
    rw [hm] at hlive hbounded
    have hnext : ∀ q tail, rest = .param q :: tail → q.matcher.isBounded = true :=
      fun q tail h => (hbounded q tail h).resolve_left Bool.false_ne_true
    obtain ⟨c, hc, ht⟩ := exists_text hnext hnamed (of_decide_eq_true hlive) (hroom.1 hm) hy
    refine ⟨_, _, ht, nofun, fun _ => ?_⟩
    rw [String.toList_singleton]
    exact hc
  | rest allowEmpty =>
    rw [hlast (by rw [hm]; rfl)] at hy ⊢
    refine ⟨"-", .text "-", fun _ => ⟨hy.first, .inl (by decide), rfl⟩, nofun, fun _ => ?_⟩
    simp [EndsWhole]
  | int =>
    rw [hm] at hlive
    obtain ⟨t, a, ht, hdigit⟩ := exists_int (hy.whole hlive)
    refine ⟨t, a, ht, ?_, fun _ => endsWhole_of_digit hdigit⟩
    rintro b ⟨⟩
    exact hdigit
  | float =>
    obtain ⟨t, a, ht, hdigit⟩ := exists_float y
    refine ⟨t, a, ht, ?_, fun _ => endsWhole_of_digit hdigit⟩
    rintro b ⟨⟩
    exact hdigit
  | choice options =>
    obtain ⟨t, ht, hend⟩ := exists_choice hm (fun h => hchoice (h ▸ hm)) hy.whole
    refine ⟨t, _, ht, fun b hb => ?_, hend⟩
    exact (Captures.choice options rest).startsAt_of_consumes hb ht _

/-! ## A live path reads some text -/

/-- A live path with room reads some text. -/
theorem exists_spells {path : List Segment} (hends : checkEnds path = .ok ())
    (hchoice : ∀ p ∈ params path, p.matcher ≠ .choice []) (hnamed : ∀ text, .literal text ∈ path → text ≠ "")
    (hroom : Roomy path) (hlive : live path = true) :
    ∃ x fields, Spells Route.Consumes "" path x fields ∧ Opens path x := by
  induction path with
  | nil => exact ⟨"", [], ⟨rfl, rfl⟩, rfl, fun _ => trivial⟩
  | cons segment rest ih =>
    have hrest : ∀ text, .literal text ∈ rest → text ≠ "" :=
      fun text hm => hnamed text (List.mem_cons_of_mem _ hm)
    cases segment with
    | literal text =>
      obtain ⟨y, fields, hy, -⟩ := ih hends hchoice hrest hroom hlive
      refine ⟨text ++ y, fields, ⟨y, rfl, hy⟩, ⟨y, rfl⟩, fun h => ?_⟩
      have hne : text.toList ≠ [] := mt String.toList_eq_nil_iff.mp (hnamed text List.mem_cons_self)
      rw [String.toList_append]
      exact EndsWhole.append (of_decide_eq_true h) hne _
    | param p =>
      obtain ⟨hp, hparams⟩ := List.forall_mem_cons.mp hchoice
      rw [live, Bool.and_eq_true] at hlive
      obtain ⟨y, fields, hy, hopens⟩ :=
        ih (checkEnds_param_iff.mp hends).2.2 hparams hrest hroom.2 hlive.2
      obtain ⟨t, a, ht, hstart⟩ := exists_capture hends hp hrest hroom hlive.1 hopens
      refine ⟨t ++ y, (p.key, a) :: fields, ⟨t, y, a, fields, rfl, rfl, ?_, hy⟩, hstart⟩
      rw [String.append_empty]
      exact ht

/-- Nothing follows a query parameter, so each one reads some value. -/
theorem exists_querySpells {query : List Param} (hchoice : ∀ p ∈ query, p.matcher ≠ .choice []) :
    ∃ raws fields, QuerySpells Route.Consumes query raws fields := by
  induction query with
  | nil => exact ⟨[], [], rfl, rfl⟩
  | cons p query ih =>
    obtain ⟨hp, hquery⟩ := List.forall_mem_cons.mp hchoice
    obtain ⟨raws, fields, hq⟩ := ih hquery
    have hroom : Roomy [.param p] := ⟨fun _ => ⟨'-', by decide, nofun⟩, trivial⟩
    have hlive : endsBefore p.matcher [] = true := by cases p.matcher <;> rfl
    obtain ⟨t, a, ht, -⟩ :=
      exists_capture (checkEnds_singleton p) hp nofun hroom hlive ⟨rfl, fun _ => trivial⟩
    exact ⟨(p.key, t) :: raws, (p.key, a) :: fields, t, a, raws, fields, rfl, rfl, ht, hq⟩

/-! ## Compiled routes -/

theorem spells_of_matchesSome {d : Definition} {route : Route} (hc : d.compile = .ok route)
    (h : route.MatchesSome) :
    ∃ tail x fields, Spells Route.Consumes tail (outline d.segments).path x fields := by
  obtain ⟨-, m, -, -, -, rfl⟩ := compile_eq_ok_iff.mp hc
  obtain ⟨pathname, method, params, g, v, s', hp⟩ := h
  obtain ⟨t, r, -, ht, -⟩ := (Route.reads_route _ _ pathname (State.at_start rfl) v s').mp ⟨g, hp⟩
  obtain ⟨-, x, tail, fields, -, -, -, -, -, hpath, -⟩ := (takes_assemble_iff rfl).mp ht
  exact ⟨tail, x, fields, hpath⟩

theorem live_of_matchesSome {d : Definition} {route : Route} (hc : d.compile = .ok route)
    (h : route.MatchesSome) : live (outline d.segments).path = true := by
  obtain ⟨tail, x, fields, hpath⟩ := spells_of_matchesSome hc h
  exact live_of_spells hpath

theorem matchesSome_of_live {d : Definition} {route : Route} (hc : d.compile = .ok route)
    (hroom : Roomy (outline d.segments).path) (hlive : live (outline d.segments).path = true) :
    route.MatchesSome := by
  obtain ⟨-, m, -, hkeys, hends, rfl⟩ := compile_eq_ok_iff.mp hc
  obtain ⟨hkey, hnodup⟩ := checkKeys_eq_ok_iff.mp hkeys
  obtain ⟨hpathKey, hqueryKey⟩ := List.forall_mem_append.mp hkey
  obtain ⟨x, pfields, hpath, -⟩ := exists_spells hends (fun p hp => (hpathKey p hp).2.2)
    (fun _ => ne_empty_of_mem_outline) hroom hlive
  obtain ⟨raws, qfields, hquery⟩ := exists_querySpells fun p hp => (hqueryKey p hp).2.2
  -- each key stands once, so every parameter finds its own value
  have hraws : (raws.map Prod.fst).Nodup := by
    rw [List.map_append] at hnodup
    rw [hquery.keys.2]
    exact hnodup.of_append_right
  have htakes : (assemble m (outline d.segments).path (outline d.segments).query d.options).Takes
      ⟨true, m.map Text.raised, .ofList raws⟩ x "" (.ofFields (pfields ++ qfields)) := by
    refine (takes_assemble_iff rfl).mpr ⟨?_, x, "", pfields, raws, qfields, String.append_empty.symm, rfl,
      .inl rfl, hpath, hquery, fun e he => Dict.get?_ofList_of_mem hraws he, rfl⟩
    rintro name ⟨⟩
    exact Text.sameIgnoringCase_iff.mpr rfl
  obtain ⟨g, hp⟩ := (Route.reads_route _
    { source := x, method := m.map Text.raised, params := .ofList raws } x (State.at_start rfl) _ _).mpr
    ⟨x, "", String.append_empty.symm, htakes, rfl⟩
  exact ⟨x, _, _, g, _, _, hp⟩

/-- A compiled route with room matches some request exactly when its path is live. -/
theorem matchesSome_iff_live {d : Definition} {route : Route} (hc : d.compile = .ok route)
    (hroom : Roomy (outline d.segments).path) :
    route.MatchesSome ↔ live (outline d.segments).path = true :=
  ⟨live_of_matchesSome hc, matchesSome_of_live hc hroom⟩

/-- An integer in front of options that go on with it, a double in front of a
point, and a text in front of options. -/
theorem matchesSome_iff_live_format_suffix :
    let d : Definition :=
      { segments := [.literal "get /", .param ⟨"id", .int, false⟩, .param ⟨"ext", .choice [".x", ""], false⟩,
          .literal "-", .param ⟨"name", .text, false⟩, .param ⟨"kind", .choice ["a", "bc"], false⟩,
          .literal "/", .param ⟨"x", .float, false⟩, .literal ".5", .param ⟨"n", .int, true⟩] }
    ∃ route, d.compile = .ok route ∧ Roomy (outline d.segments).path ∧
      (route.MatchesSome ↔ live (outline d.segments).path = true) ∧ route.MatchesSome := by
  have hc : Definition.compile
      { segments := [.literal "get /", .param ⟨"id", .int, false⟩, .param ⟨"ext", .choice [".x", ""], false⟩,
          .literal "-", .param ⟨"name", .text, false⟩, .param ⟨"kind", .choice ["a", "bc"], false⟩,
          .literal "/", .param ⟨"x", .float, false⟩, .literal ".5", .param ⟨"n", .int, true⟩] } =
      .ok (assemble (some "GET") [.literal "/", .param ⟨"id", .int, false⟩,
        .param ⟨"ext", .choice [".x", ""], false⟩, .literal "-", .param ⟨"name", .text, false⟩,
        .param ⟨"kind", .choice ["a", "bc"], false⟩, .literal "/", .param ⟨"x", .float, false⟩,
        .literal ".5"] [⟨"n", .int, true⟩] {}) := by rfl
  have hroom : Roomy [.literal "/", .param ⟨"id", .int, false⟩, .param ⟨"ext", .choice [".x", ""], false⟩,
      .literal "-", .param ⟨"name", .text, false⟩, .param ⟨"kind", .choice ["a", "bc"], false⟩,
      .literal "/", .param ⟨"x", .float, false⟩, .literal ".5"] := by
    refine roomy_of_length_lt ?_
    simp [params]
  have hiff := matchesSome_iff_live hc hroom
  exact ⟨_, hc, hroom, hiff, hiff.mpr (by decide)⟩

/-! ## Accepted and never matching -/

/-- A text in front of an enumeration. -/
def textBefore (options : List String) : Definition :=
  { segments := [.literal "/", .param ⟨"name", .text, false⟩, .param ⟨"kind", .choice options, false⟩] }

/-- An option for every character. -/
def everyCharacter : List String := (List.range 0x110000).map fun code => String.singleton (Char.ofNat code)

theorem mem_everyCharacter (c : Char) : String.singleton c ∈ everyCharacter := by
  refine List.mem_map.mpr ⟨c.toNat, List.mem_range.mpr ?_, by rw [Char.ofNat_toNat]⟩
  rcases c.valid with h | h
  · exact Nat.lt_trans h (by decide)
  · exact h.2

theorem compile_textBefore {options : List String} (hne : options ≠ []) :
    (textBefore options).compile = .ok (assemble none (textBefore options).segments [] {}) := by
  refine compile_eq_ok_iff.mpr ⟨rfl, none, rfl, checkKeys_eq_ok_iff.mpr ⟨?_, ?_⟩, rfl, rfl⟩
  · show ∀ p ∈ [(⟨"name", .text, false⟩ : Param), ⟨"kind", .choice options, false⟩], _
    simp [hne]
  · show ["name", "kind"].Nodup
    decide

/-- No text is read in front of an option for every character. -/
theorem not_consumes_of_every_character {q : Param} {options : List String} (hm : q.matcher = .choice options)
    (h : ∀ c, String.singleton c ∈ options) {rest : List Segment} {t r : String} {a : Value} :
    ¬(captureRoute .text (.param q :: rest)).Consumes t r a := by
  intro ht
  have hno : ∀ c, ¬(String.singleton c).toList <+: t.toList ++ r.toList :=
    fun c => (not_prefix_of_consumes hm ht (h c)).2
  have hne : t ≠ "" := (not_prefix_of_consumes hm ht (h '-')).1
  cases hcs : t.toList with
  | nil => exact hne (String.toList_eq_nil_iff.mp hcs)
  | cons c cs =>
    have hc := hno c
    rw [hcs, String.toList_singleton, List.cons_append] at hc
    exact hc ((List.prefix_cons_inj c).mpr List.nil_prefix)

/-- Accepted, and never matching: an integer that goes on with the literal
behind it, and texts that the options behind them leave no place for. -/
theorem compiled_never_matching :
    (∃ route, Definition.compile
        { segments := [.literal "/", .param ⟨"id", .int, false⟩, .literal ".json"] } = .ok route ∧
      ¬route.MatchesSome) ∧
    (∃ route, (textBefore ["-a", ""]).compile = .ok route ∧ ¬route.MatchesSome) ∧
    (∃ route, (textBefore everyCharacter).compile = .ok route ∧ ¬route.MatchesSome) := by
  have hint : Definition.compile
      { segments := [.literal "/", .param ⟨"id", .int, false⟩, .literal ".json"] } =
      .ok (assemble none [.literal "/", .param ⟨"id", .int, false⟩, .literal ".json"] [] {}) := by rfl
  have hempty := compile_textBefore (List.cons_ne_nil "-a" [""])
  have hevery := compile_textBefore (List.ne_nil_of_mem (mem_everyCharacter '-'))
  refine ⟨⟨_, hint, fun h => ?_⟩, ⟨_, hempty, fun h => ?_⟩, _, hevery, fun h => ?_⟩
  · have hlive := live_of_matchesSome hint h
    revert hlive
    decide
  · have hlive := live_of_matchesSome hempty h
    revert hlive
    decide
  · obtain ⟨tail, x, fields, -, -, t, y, a, fs, -, -, hcap, -⟩ := spells_of_matchesSome hevery h
    exact not_consumes_of_every_character rfl mem_everyCharacter hcap

end Definition
end UrlRoutes
