import UrlRoutes.Proofs.Captures
import UrlRoutes.Proofs.Trails
/-!
# Well-formed definitions

What makes a definition well formed, said without its compiler: rules on the
lists its segments come down to when empty literals are dropped, query
parameters set apart, neighbouring literals joined and a method taken off the
first literal. Exactly these definitions compile. The route of one has a part
for every segment, in order, and every capture whose end depends on what
follows it is followed by just that.

Results:
* `outline_eq`: an outline is what these passes leave.
* `splitMethod?_eq_some_iff`, `takesMethod_takeMethod`: what declares a method,
  and what is left without it.
* `checkEnds_eq_ok_iff`: what the check of the ends asks of a path.
* `fitting_path`: each capture of a compiled path is in front of what it stops at.
* `compile_iff_wellFormed`: which definitions compile, and to what.
-/
namespace UrlRoutes

namespace Definition

/-! ## From segments to lists -/

/-- Neither an empty literal nor a query parameter. -/
def inPath : Segment → Bool
  | .literal text => text ≠ ""
  | .param p => !p.inQuery

/-- Literals that stand together made one. -/
def joinLiterals : List Segment → List Segment
  | [] => []
  | .param p :: rest => .param p :: joinLiterals rest
  | .literal text :: rest =>
    match joinLiterals rest with
    | .literal next :: rest => .literal (text ++ next) :: rest
    | rest => .literal text :: rest

/-- Takes a method off the first literal, which goes when nothing is left of it. -/
def takeMethod : List Segment → Option String × List Segment
  | .literal text :: rest =>
    match splitMethod? text with
    | some (method, left) => (some method, if left = "" then rest else .literal left :: rest)
    | none => (none, .literal text :: rest)
  | path => (none, path)

/-- The method declared in front of the path. -/
def declared (d : Definition) : Option String := (takeMethod (joinLiterals (d.segments.filter inPath))).1

/-- What is left of the segments for the path. -/
def path (d : Definition) : List Segment := (takeMethod (joinLiterals (d.segments.filter inPath))).2

def query (d : Definition) : List Param := (params d.segments).filter Param.inQuery

theorem pathOf_eq (segments : List Segment) : pathOf segments = joinLiterals (segments.filter inPath) := by
  induction segments with
  | nil => rfl
  | cons segment rest ih =>
    cases segment with
    | literal text =>
      by_cases ht : text = ""
      · subst ht
        exact ih
      · have hin : inPath (.literal text) = true := decide_eq_true ht
        rw [List.filter_cons_of_pos hin, pathOf, ih, joinLiterals]
        cases joinLiterals (rest.filter inPath) with
        | nil => exact if_neg ht
        | cons next tail => cases next <;> exact if_neg ht
    | param p =>
      rw [pathOf, ih, List.filter_cons, inPath]
      cases p.inQuery <;> rfl

theorem queryOf_eq (segments : List Segment) : queryOf segments = (params segments).filter Param.inQuery := by
  induction segments with
  | nil => rfl
  | cons segment rest ih =>
    cases segment with
    | literal text => exact ih
    | param p =>
      have hparams : params (.param p :: rest) = p :: params rest := rfl
      rw [queryOf, hparams, List.filter_cons, ih]

/-- Joined literals are kept apart by parameters. -/
theorem pathOf_ne_literals (segments : List Segment) (a b : String) (rest : List Segment) :
    pathOf segments ≠ .literal a :: .literal b :: rest := by
  induction segments generalizing a with
  | nil =>
    intro h
    cases h
  | cons segment segments ih =>
    cases segment with
    | literal text =>
      intro h
      rw [pathOf] at h
      unfold consLiteral at h
      split at h
      · exact ih a h
      · split at h
        · next next tail hpath =>
          cases h
          exact ih next hpath
        · next hno => exact hno b rest (List.cons.inj h).2
    | param p =>
      rw [pathOf]
      split
      · exact ih a
      · exact fun h => by cases h

theorem consLiteral_of_apart {text : String} {path : List Segment}
    (h : ∀ b rest, path ≠ .literal b :: rest) :
    consLiteral text path = if text = "" then path else .literal text :: path := by
  unfold consLiteral
  split
  · rfl
  · split
    · next next rest => exact absurd rfl (h next rest)
    · rfl

theorem splitDeclared_pathOf (segments : List Segment) :
    splitDeclared (pathOf segments) = takeMethod (pathOf segments) := by
  cases hpath : pathOf segments with
  | nil => rfl
  | cons segment rest =>
    cases segment with
    | param p => rfl
    | literal text =>
      have hrest : ∀ b tail, rest ≠ .literal b :: tail := by
        intro b tail he
        exact pathOf_ne_literals segments text b tail (by rw [hpath, he])
      rw [splitDeclared, takeMethod]
      cases splitMethod? text with
      | none => rfl
      | some found => exact congrArg (some found.1, ·) (consLiteral_of_apart hrest)

/-- An outline is what the passes leave. -/
theorem outline_eq (d : Definition) : outline d.segments = ⟨d.declared, d.path, d.query⟩ := by
  unfold outline declared path query
  rw [splitDeclared_pathOf, pathOf_eq, queryOf_eq]

/-! ## Declared methods -/

theorem isAlpha_of_whitespace {c : Char} (h : CharClass.whitespace.holds c = true) : c.isAlpha = false := by
  simp only [CharClass.holds, Bool.or_eq_true, beq_iff_eq] at h
  rcases h with (((rfl | rfl) | rfl) | rfl) | rfl <;> rfl

/-- A text declares a method by a word of letters with blanks behind it. -/
def Declares (text method left : String) : Prop :=
  ∃ word blanks : List Char, text.toList = word ++ (blanks ++ left.toList) ∧
    word ≠ [] ∧ (∀ c ∈ word, c.isAlpha = true) ∧
    blanks ≠ [] ∧ (∀ c ∈ blanks, CharClass.whitespace.holds c = true) ∧
    (∀ c ∈ left.toList.head?, CharClass.whitespace.holds c = false) ∧
    method = Text.raised (String.ofList word)

theorem splitMethod?_eq_some_iff {text method left : String} :
    splitMethod? text = some (method, left) ↔ Declares text method left := by
  unfold Declares
  simp only [splitMethod?, Option.ite_none_right_eq_some, Option.some.injEq, Prod.mk.injEq]
  constructor
  · rintro ⟨⟨hrest, hword, hall⟩, rfl, rfl⟩
    generalize hw : text.toList.takeWhile (fun c => !CharClass.whitespace.holds c) = word at *
    generalize hr : text.toList.dropWhile (fun c => !CharClass.whitespace.holds c) = rest at *
    generalize hl : rest.dropWhile CharClass.whitespace.holds = left
    obtain ⟨htext, -, hfirst⟩ := Text.cut_while_iff.mp ⟨hw, hr⟩
    obtain ⟨hbehind, hwhite, hleft⟩ := Text.cut_while_iff.mp ⟨rfl, hl⟩
    refine ⟨word, _, ?_, hword, List.all_eq_true.mp hall, ?_, hwhite, ?_, rfl⟩
    · rw [htext, String.toList_ofList, ← hbehind]
    · cases rest with
      | nil => exact absurd rfl hrest
      | cons c rest =>
        have hc : CharClass.whitespace.holds c = true := by simpa using hfirst c rfl
        rw [List.takeWhile_cons_of_pos hc]
        exact List.cons_ne_nil _ _
    · rw [String.toList_ofList]
      exact hleft
  · rintro ⟨word, blanks, htext, hword, hletters, hblanks, hwhite, hleft, rfl⟩
    have hfirst : ∀ c ∈ (blanks ++ left.toList).head?, (!CharClass.whitespace.holds c) = false := by
      cases blanks with
      | nil => exact absurd rfl hblanks
      | cons b blanks =>
        intro c hc
        cases hc
        rw [hwhite _ List.mem_cons_self]
        rfl
    have hplain : ∀ c ∈ word, (!CharClass.whitespace.holds c) = true := by
      intro c hc
      rw [Bool.not_eq_true', ← Bool.not_eq_true]
      intro hw
      have hletter := hletters c hc
      rw [isAlpha_of_whitespace hw] at hletter
      cases hletter
    obtain ⟨hw, hr⟩ := Text.cut_while_iff.mpr ⟨htext, hplain, hfirst⟩
    obtain ⟨-, hl⟩ := Text.cut_while_iff.mpr ⟨rfl, hwhite, hleft⟩
    rw [hw, hr, hl, String.ofList_toList]
    refine ⟨⟨?_, hword, List.all_eq_true.mpr hletters⟩, rfl, rfl⟩
    simp [hblanks]

/-- The first literal is left without the method it declares, and not left
at all when there is no more of it. -/
inductive TakesMethod : List Segment → Option String → List Segment → Prop where
  | taken {text method left : String} (rest : List Segment) (h : Declares text method left) (hleft : left ≠ "") :
      TakesMethod (.literal text :: rest) (some method) (.literal left :: rest)
  | alone {text method : String} (rest : List Segment) (h : Declares text method "") :
      TakesMethod (.literal text :: rest) (some method) rest
  | absent {path : List Segment}
      (h : ∀ text rest, path = .literal text :: rest → ∀ method left, ¬Declares text method left) :
      TakesMethod path none path

theorem takesMethod_takeMethod (path : List Segment) :
    TakesMethod path (takeMethod path).1 (takeMethod path).2 := by
  cases path with
  | nil => exact .absent fun text rest he => by cases he
  | cons segment rest =>
    cases segment with
    | param p => exact .absent fun text rest he => by cases he
    | literal text =>
      rw [takeMethod]
      cases hsplit : splitMethod? text with
      | none =>
        refine .absent fun text rest he method left h => ?_
        cases he
        rw [splitMethod?_eq_some_iff.mpr h] at hsplit
        cases hsplit
      | some found =>
        obtain ⟨method, left⟩ := found
        have h := splitMethod?_eq_some_iff.mp hsplit
        by_cases hleft : left = ""
        · subst hleft
          exact .alone rest h
        · simp only [if_neg hleft]
          exact .taken rest h hleft

/-! ## Rules -/

/-- The rules a definition has to keep. -/
structure WellFormed (d : Definition) : Prop where
  /-- A configured method is a word. -/
  word : ∀ method ∈ d.options.method, method ≠ "" ∧ ∀ c ∈ method.toList, c.isAlpha = true
  /-- A declared method is the configured one. -/
  agree : ∀ method ∈ d.declared, ∀ configured ∈ d.options.method,
    Text.sameIgnoringCase method configured = true
  named : ∀ p ∈ params d.path ++ d.query, p.key ≠ ""
  distinct : ((params d.path ++ d.query).map Param.key).Nodup
  /-- An enumeration has an option. -/
  inhabited : ∀ p ∈ params d.path ++ d.query, p.matcher ≠ .choice []
  /-- What takes the rest of the path is last in it. -/
  restLast : ∀ before p after allowEmpty, d.path = before ++ .param p :: after →
    p.matcher = .rest allowEmpty → after = []
  /-- Of two captures in a row one is bounded. -/
  bounded : ∀ before p q after, d.path = before ++ .param p :: .param q :: after →
    p.matcher.isBounded = true ∨ q.matcher.isBounded = true

theorem check_eq_ok_iff (options : Options) : options.check = .ok () ↔
    ∀ method ∈ options.method, method ≠ "" ∧ ∀ c ∈ method.toList, c.isAlpha = true := by
  unfold Options.check
  cases options.method with
  | none => simp
  | some method => simp [Options.checkMethod_ok_iff]

theorem agreedMethod_eq_ok_iff {declared : Option String} {options : Options} {m : Option String} :
    agreedMethod declared options = .ok m ↔
      (∀ method ∈ declared, ∀ configured ∈ options.method,
        Text.sameIgnoringCase method configured = true) ∧
      m = declared.or (options.method.map Text.raised) := by
  unfold agreedMethod
  cases declared with
  | none => simp [eq_comm (a := m)]
  | some method =>
    cases options.method with
    | none => simp [eq_comm (a := m)]
    | some configured =>
      simp only
      split
      · next h => simp [h, eq_comm (a := m)]
      · next h => simp [h]

/-- Something holds of every parameter of a path and what follows it if it
holds of the first one and of those behind. -/
theorem forall_split_param_iff {P : Param → List Segment → Prop} {p : Param} {rest : List Segment} :
    (∀ before q after, .param p :: rest = before ++ .param q :: after → P q after) ↔
      P p rest ∧ ∀ before q after, rest = before ++ .param q :: after → P q after := by
  constructor
  · intro h
    exact ⟨h [] p rest rfl, fun before q after he => h (.param p :: before) q after (by rw [he]; rfl)⟩
  · rintro ⟨hp, hrest⟩ before q after he
    cases before with
    | nil =>
      cases he
      exact hp
    | cons s before =>
      cases he
      exact hrest before q after rfl

theorem forall_split_literal_iff {P : Param → List Segment → Prop} {text : String} {rest : List Segment} :
    (∀ before q after, .literal text :: rest = before ++ .param q :: after → P q after) ↔
      ∀ before q after, rest = before ++ .param q :: after → P q after := by
  constructor
  · intro h before q after he
    exact h (.literal text :: before) q after (by rw [he]; rfl)
  · intro h before q after he
    cases before with
    | nil => cases he
    | cons s before =>
      cases he
      exact h before q after rfl

/-- What the check of the ends asks of every capture of a path. -/
theorem checkEnds_eq_ok_iff {path : List Segment} : checkEnds path = .ok () ↔
    ∀ before p after, path = before ++ .param p :: after →
      (takesRest p.matcher = true → after = []) ∧
      ∀ q tail, after = .param q :: tail → p.matcher.isBounded = true ∨ q.matcher.isBounded = true := by
  induction path with
  | nil => simp [checkEnds]
  | cons segment rest ih =>
    cases segment with
    | literal text => rw [checkEnds, forall_split_literal_iff, ih]
    | param p => rw [checkEnds_param_iff, forall_split_param_iff, ih, and_assoc]

theorem takesRest_iff {m : Matcher} : takesRest m = true ↔ ∃ allowEmpty, m = .rest allowEmpty := by
  cases m <;> simp [takesRest]

theorem exists_compile_iff (d : Definition) : (∃ route, d.compile = .ok route) ↔ d.WellFormed := by
  have hkeys : checkKeys [] (params d.path ++ d.query) = .ok () ↔ _ := checkKeys_eq_ok_iff
  simp only [compile_eq_ok_iff, outline_eq, agreedMethod_eq_ok_iff, check_eq_ok_iff, hkeys,
    checkEnds_eq_ok_iff]
  constructor
  · rintro ⟨route, hword, m, ⟨hagree, -⟩, ⟨hparams, hdistinct⟩, hends, -⟩
    refine ⟨hword, hagree, fun p hp => (hparams p hp).1, hdistinct, fun p hp => (hparams p hp).2.2, ?_, ?_⟩
    · intro before p after allowEmpty he hm
      exact (hends before p after he).1 (takesRest_iff.mpr ⟨allowEmpty, hm⟩)
    · intro before p q after he
      exact (hends before p (.param q :: after) he).2 q after rfl
  · intro h
    refine ⟨_, h.word, _, ⟨h.agree, rfl⟩, ⟨fun p hp => ⟨h.named p hp, List.not_mem_nil, h.inhabited p hp⟩,
      h.distinct⟩, ?_, rfl⟩
    intro before p after he
    refine ⟨fun hm => ?_, ?_⟩
    · obtain ⟨allowEmpty, hm⟩ := takesRest_iff.mp hm
      exact h.restLast before p after allowEmpty he hm
    · rintro q tail rfl
      exact h.bounded before p q tail he

end Definition

/-! ## Parts of a route -/

namespace Route

def parts : Route → List Route
  | both left right => left.parts ++ right.parts
  | route => [route]

def IsQuery (part : Route) : Prop := ∃ key inner, part = .query key inner

/-- What a part asks of the parts behind it. -/
structure Fits (part : Route) (behind : List Route) : Prop where
  /-- A text up to a delimiter is in front of that delimiter. -/
  upTo : ∀ labels delimiter, part.Around labels (.upTo delimiter) →
    delimiter ≠ "" ∧ ∃ tail, behind = .literal delimiter :: tail
  /-- A text up to a boundary is in front of a capture with that boundary. -/
  before : ∀ labels boundary, part.Around labels (.before boundary) →
    ∃ key m tail, behind = .capture key (Matcher.route m) :: tail ∧ m.boundary? = some boundary
  /-- All that is left of the path is left to its last part. -/
  rest : ∀ labels allowEmpty, part.Around labels (.rest allowEmpty) → part.IsQuery ∨
    ∃ queries slash, behind = queries ++ [.finish slash] ∧ ∀ query ∈ queries, query.IsQuery

def Fitting : List Route → Prop
  | [] => True
  | part :: behind => part.Fits behind ∧ Fitting behind

/-- Parts that stop nowhere by themselves. -/
def IsPlain : Route → Prop
  | start | finish _ | literal _ | method _ => True
  | _ => False

theorem parts_inSequence {routes : List Route} {final : Route} (h : ∀ route ∈ routes, route.parts = [route]) :
    (Definition.inSequence routes final).parts = routes ++ final.parts := by
  induction routes with
  | nil => rfl
  | cons route routes ih =>
    obtain ⟨hroute, hroutes⟩ := List.forall_mem_cons.mp h
    show route.parts ++ (Definition.inSequence routes final).parts = _
    rw [hroute, ih hroutes]
    rfl

theorem fits_of_isPlain {part : Route} (h : part.IsPlain) (behind : List Route) : part.Fits behind := by
  have hnode : ∀ {labels node}, part.Around labels node → node = part := by
    intro labels node ha
    cases ha with
    | here => rfl
    | _ => cases h
  refine ⟨?_, ?_, ?_⟩
  · intro labels delimiter ha
    rw [← hnode ha] at h
    cases h
  · intro labels boundary ha
    rw [← hnode ha] at h
    cases h
  · intro labels allowEmpty ha
    rw [← hnode ha] at h
    cases h

theorem IsLeaf.around {route node : Route} {labels : List Label} (h : route.IsLeaf)
    (ha : route.Around labels node) : node = route := by
  cases ha with
  | here => rfl
  | _ => cases h

theorem fits_capture {key : String} {inner : Route} {behind : List Route} (hleaf : inner.IsLeaf)
    (hupTo : ∀ delimiter, inner = .upTo delimiter →
      delimiter ≠ "" ∧ ∃ tail, behind = .literal delimiter :: tail)
    (hbefore : ∀ boundary, inner = .before boundary →
      ∃ key m tail, behind = .capture key (Matcher.route m) :: tail ∧ m.boundary? = some boundary)
    (hrest : ∀ allowEmpty, inner = .rest allowEmpty →
      ∃ queries slash, behind = queries ++ [.finish slash] ∧ ∀ query ∈ queries, query.IsQuery) :
    (capture key inner).Fits behind := by
  refine ⟨?_, ?_, ?_⟩
  · rintro _ delimiter (_ | ⟨_, ha⟩)
    exact hupTo delimiter (hleaf.around ha).symm
  · rintro _ boundary (_ | ⟨_, ha⟩)
    exact hbefore boundary (hleaf.around ha).symm
  · rintro _ allowEmpty (_ | ⟨_, ha⟩)
    exact .inr (hrest allowEmpty (hleaf.around ha).symm)

end Route

namespace Definition
open UrlRoutes.Route

theorem isLeaf_route (m : Matcher) : m.route.IsLeaf :=
  captureRoute_nil m ▸ isLeaf_captureRoute m []

/-- A query parameter has a value of its own to read to the end. -/
theorem fits_query (key : String) (m : Matcher) (behind : List Route) :
    (Route.query key m.route).Fits behind := by
  refine ⟨?_, ?_, fun _ _ _ => .inl ⟨key, m.route, rfl⟩⟩
  · rintro _ delimiter (_ | _ | ⟨_, ha⟩)
    cases m <;> cases (isLeaf_route _).around ha
  · rintro _ boundary (_ | _ | ⟨_, ha⟩)
    cases m <;> cases (isLeaf_route _).around ha

/-! ## Captures and what follows them -/

theorem captureRoute_eq_upTo {m : Matcher} {path : List Segment} {delimiter : String}
    (h : captureRoute m path = .upTo delimiter) : ∃ tail, path = .literal delimiter :: tail := by
  unfold captureRoute at h
  split at h
  · next next tail =>
    cases h
    exact ⟨tail, rfl⟩
  · split at h <;> cases h
  · cases m <;> cases h

theorem captureRoute_eq_before {m : Matcher} {path : List Segment} {boundary : Boundary}
    (h : captureRoute m path = .before boundary) :
    ∃ q tail, path = .param q :: tail ∧ q.matcher.boundary? = some boundary := by
  unfold captureRoute at h
  split at h
  · cases h
  · next q tail =>
    split at h
    · next found hfound =>
      cases h
      exact ⟨q, tail, rfl, hfound⟩
    · cases h
  · cases m <;> cases h

/-- Nothing follows what takes the rest: an unbounded capture behind a text
is refused, so a text takes the rest only at the end. -/
theorem eq_nil_of_captureRoute_eq_rest {p : Param} {path : List Segment} {allowEmpty : Bool}
    (hends : checkEnds (.param p :: path) = .ok ()) (h : captureRoute p.matcher path = .rest allowEmpty) :
    path = [] := by
  obtain ⟨hlast, hbounded, -⟩ := checkEnds_param_iff.mp hends
  generalize p.matcher = m at hlast hbounded h
  cases m with
  | text =>
    cases path with
    | nil => rfl
    | cons next tail =>
      cases next with
      | literal text => cases h
      | param q =>
        have hq : q.matcher.isBounded = true := (hbounded q tail rfl).resolve_left Bool.false_ne_true
        obtain ⟨boundary, -, hroute⟩ := captureRoute_text_param hq tail
        rw [hroute] at h
        cases h
  | rest allowEmpty => exact hlast rfl
  | int | float | choice => cases h

/-- A capture with a boundary does not look at what follows it. -/
theorem captureRoute_of_boundary {m : Matcher} {boundary : Boundary} (h : m.boundary? = some boundary)
    (path : List Segment) : captureRoute m path = m.route := by
  cases m with
  | text => cases h
  | rest | int | float | choice => rfl

/-- What is behind the path of a compiled route. -/
def tailRoutes (query : List Param) (slash : Bool) : List Route := queryRoutes query ++ [.finish slash]

theorem isQuery_of_mem_queryRoutes {query : List Param} {part : Route} (h : part ∈ queryRoutes query) :
    part.IsQuery := by
  obtain ⟨p, -, rfl⟩ := List.mem_map.mp h
  exact ⟨p.key, p.matcher.route, rfl⟩

theorem fitting_tailRoutes (query : List Param) (slash : Bool) : Fitting (tailRoutes query slash) := by
  induction query with
  | nil => exact ⟨fits_of_isPlain (show IsPlain (.finish slash) from trivial) _, trivial⟩
  | cons p query ih => exact ⟨fits_query _ _ _, ih⟩

/-- Each capture of a checked path is in front of what it stops at. -/
theorem fitting_path {path : List Segment} (hends : checkEnds path = .ok ())
    (hliterals : ∀ text, .literal text ∈ path → text ≠ "") (query : List Param) (slash : Bool) :
    Fitting (pathRoutes path ++ tailRoutes query slash) := by
  induction path with
  | nil => exact fitting_tailRoutes query slash
  | cons segment path ih =>
    have hrest : ∀ text, .literal text ∈ path → text ≠ "" :=
      fun text ht => hliterals text (List.mem_cons_of_mem _ ht)
    cases segment with
    | literal text => exact ⟨fits_of_isPlain (show IsPlain (.literal text) from trivial) _, ih hends hrest⟩
    | param p =>
      refine ⟨fits_capture (isLeaf_captureRoute _ _) ?_ ?_ ?_, ih (checkEnds_param_iff.mp hends).2.2 hrest⟩
      · intro delimiter he
        obtain ⟨tail, rfl⟩ := captureRoute_eq_upTo he
        exact ⟨hrest delimiter List.mem_cons_self, _, rfl⟩
      · intro boundary he
        obtain ⟨q, tail, rfl, hb⟩ := captureRoute_eq_before he
        have hq : captureRoute q.matcher tail = q.matcher.route := captureRoute_of_boundary hb tail
        refine ⟨q.key, q.matcher, pathRoutes tail ++ tailRoutes query slash, ?_, hb⟩
        rw [pathRoutes, hq]
        rfl
      · intro allowEmpty he
        rw [eq_nil_of_captureRoute_eq_rest hends he]
        exact ⟨queryRoutes query, slash, rfl, fun _ => isQuery_of_mem_queryRoutes⟩

/-! ## Compiled definitions -/

/-- A part of a route and the segment it stands for. -/
inductive PartOf : Segment → Route → Prop where
  | literal (text : String) : PartOf (.literal text) (.literal text)
  | own (p : Param) : PartOf (.param p) (.capture p.key p.matcher.route)
  /-- A text that something follows stops there. -/
  | upTo {p : Param} (h : p.matcher = .text) (delimiter : String) :
      PartOf (.param p) (.capture p.key (.upTo delimiter))
  | before {p : Param} (h : p.matcher = .text) (boundary : Boundary) :
      PartOf (.param p) (.capture p.key (.before boundary))

/-- What the route of a definition has to be. -/
structure Intended (d : Definition) (route : Route) : Prop where
  /-- A guard, the start, a part for each segment of the path and for each
  query parameter, and the end, in sequence. -/
  inOrder : ∃ path, List.Forall₂ PartOf d.path path ∧
    route = inSequence (((d.declared.or d.options.method).map guard).toList ++
      (if d.options.anchored then [.start] else []) ++ path ++
      d.query.map fun p => .query p.key p.matcher.route) (.finish d.options.trailingSlash)
  fitting : Fitting route.parts

theorem fitting_head {routes behind : List Route} (h : ∀ route ∈ routes, route.IsPlain)
    (hb : Fitting behind) : Fitting (routes ++ behind) := by
  induction routes with
  | nil => exact hb
  | cons route routes ih =>
    obtain ⟨hroute, hroutes⟩ := List.forall_mem_cons.mp h
    exact ⟨fits_of_isPlain hroute _, ih hroutes⟩

theorem partOf_captureRoute (p : Param) (path : List Segment) :
    PartOf (.param p) (.capture p.key (captureRoute p.matcher path)) := by
  unfold captureRoute
  split
  · next delimiter tail hm => exact .upTo hm delimiter
  · next q tail hm =>
    split
    · next boundary _ => exact .before hm boundary
    · have h : p.matcher.route = .rest false := by rw [hm]; rfl
      exact h ▸ .own p
  · exact .own p

theorem partOf_pathRoutes (path : List Segment) : List.Forall₂ PartOf path (pathRoutes path) := by
  induction path with
  | nil => exact .nil
  | cons segment path ih =>
    cases segment with
    | literal text => exact .cons (.literal text) ih
    | param p => exact .cons (partOf_captureRoute p path) ih

/-- What is in front of the path of a compiled route. -/
def headRoutes (method : Option String) (anchored : Bool) : List Route :=
  (method.map guard).toList ++ if anchored then [.start] else []

theorem isPlain_of_mem_headRoutes {method : Option String} {anchored : Bool} {part : Route}
    (h : part ∈ headRoutes method anchored) : part.IsPlain := by
  rcases List.mem_append.mp h with h | h
  · obtain ⟨name, -, rfl⟩ := Option.map_eq_some_iff.mp (Option.mem_toList.mp h)
    trivial
  · split at h
    · rw [List.mem_singleton.mp h]
      trivial
    · cases h

theorem parts_of_isPlain {part : Route} (h : part.IsPlain) : part.parts = [part] := by
  cases part with
  | start | finish | literal | method => rfl
  | _ => cases h

theorem parts_of_mem_pathRoutes {path : List Segment} {part : Route} (h : part ∈ pathRoutes path) :
    part.parts = [part] := by
  rcases eq_of_mem_pathRoutes h with ⟨text, rfl⟩ | ⟨key, inner, -, rfl⟩
  · rfl
  · rfl

theorem parts_assemble (m : Option String) (path : List Segment) (query : List Param) (options : Options) :
    (assemble m path query options).parts =
      headRoutes m options.anchored ++ (pathRoutes path ++ tailRoutes query options.trailingSlash) := by
  have hparts : ∀ part ∈ headRoutes m options.anchored ++ pathRoutes path ++ queryRoutes query,
      part.parts = [part] := by
    intro part h
    rcases List.mem_append.mp h with h | h
    · rcases List.mem_append.mp h with h | h
      · exact parts_of_isPlain (isPlain_of_mem_headRoutes h)
      · exact parts_of_mem_pathRoutes h
    · obtain ⟨key, inner, rfl⟩ := isQuery_of_mem_queryRoutes h
      rfl
  rw [assemble, ← headRoutes, parts_inSequence hparts, tailRoutes, List.append_assoc, List.append_assoc]
  rfl

theorem intended_of_compile {d : Definition} {route : Route} (h : d.compile = .ok route) :
    d.Intended route := by
  have hliterals : ∀ text, .literal text ∈ d.path → text ≠ "" := by
    intro text ht
    have hpath : d.path = (outline d.segments).path := by rw [outline_eq]
    rw [hpath] at ht
    exact ne_empty_of_mem_outline ht
  obtain ⟨-, m, hm, -, hends, hroute⟩ := compile_eq_ok_iff.mp h
  rw [outline_eq] at hm hends hroute
  have hguard : m.map guard = (d.declared.or d.options.method).map guard := by
    rw [(agreedMethod_eq_ok_iff.mp hm).2]
    cases d.declared with
    | some method => rfl
    | none =>
      rw [Option.none_or, Option.none_or, Option.map_map]
      exact congrArg (d.options.method.map ·) (funext guard_raised)
  refine ⟨⟨pathRoutes d.path, partOf_pathRoutes d.path, ?_⟩, ?_⟩
  · rw [← hguard]
    exact hroute
  · rw [hroute, parts_assemble]
    exact fitting_head (fun _ => isPlain_of_mem_headRoutes) (fitting_path hends hliterals d.query _)

/-- Exactly the well-formed definitions compile, each to the route intended for it. -/
theorem compile_iff_wellFormed (d : Definition) :
    TakesMethod (joinLiterals (d.segments.filter inPath)) d.declared d.path ∧
      ((∃ route, d.compile = .ok route) ↔ d.WellFormed) ∧
      ∀ route, d.compile = .ok route → d.Intended route :=
  ⟨takesMethod_takeMethod _, exists_compile_iff d, fun _ h => intended_of_compile h⟩

/-- A method split off two literals, texts in front of a literal and of a
digit, a parameter set apart, and a capture of all that is left. -/
theorem compile_iff_wellFormed_mixed :
    let d : Definition :=
      { segments := [.literal "post", .literal " /", .param ⟨"name", .text, false⟩, .literal "-",
          .param ⟨"tag", .text, false⟩, .param ⟨"n", .int, false⟩, .param ⟨"q", .text, true⟩,
          .param ⟨"more", .rest true, false⟩]
        options := { method := some "Post" } }
    TakesMethod (joinLiterals (d.segments.filter inPath)) d.declared d.path ∧
      d.WellFormed ∧ ∃ route, d.compile = .ok route ∧ d.Intended route := by
  have hc : ∃ route, Definition.compile
      { segments := [.literal "post", .literal " /", .param ⟨"name", .text, false⟩, .literal "-",
          .param ⟨"tag", .text, false⟩, .param ⟨"n", .int, false⟩, .param ⟨"q", .text, true⟩,
          .param ⟨"more", .rest true, false⟩]
        options := { method := some "Post" } } = .ok route :=
    ⟨assemble (some "POST") [.literal "/", .param ⟨"name", .text, false⟩, .literal "-",
      .param ⟨"tag", .text, false⟩, .param ⟨"n", .int, false⟩, .param ⟨"more", .rest true, false⟩]
      [⟨"q", .text, true⟩] { method := some "Post" }, by rfl⟩
  obtain ⟨htake, hiff, hintended⟩ := compile_iff_wellFormed _
  have hw := hiff.mp hc
  obtain ⟨route, hroute⟩ := hc
  exact ⟨htake, hw, route, hroute, hintended route hroute⟩

end Definition
end UrlRoutes
