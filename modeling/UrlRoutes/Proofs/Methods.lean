import UrlRoutes.Proofs.Acceptance
/-!
# Two ways to ask for a method

A definition asks for a request method either in front of its first literal or
among its options. Both ways lead to one route, or to one refusal, and asking
in both ways at once changes nothing as long as the two words differ in case
alone. The route is the one without a method behind a guard, and the guard has
no part in what is read.

Results:
* `splitMethod?_word`: a word and a blank in front of a text declare a method.
* `outline_declared`, `outline_bare`: the two ways have one path and one query.
* `routeOf_some`: a method puts a guard in front of the route without it.
* `parser_guard`, `parser_guard_eq_good_iff`: what a guard makes of a state.
* `compile_declared_or_configured`: the two ways agree.
-/
namespace UrlRoutes

namespace Definition
open Text

/-- A word of letters, a blank and a text that begins without one. -/
theorem splitMethod?_word {m l : String} (hm : m ≠ "") (hword : ∀ c ∈ m.toList, c.isAlpha = true)
    (hl : ∀ c ∈ l.toList.head?, CharClass.whitespace.holds c = false) :
    splitMethod? (m ++ " " ++ l) = some (raised m, l) := by
  apply splitMethod?_eq_some_iff.mpr
  refine ⟨m.toList, [' '], ?_, mt String.toList_eq_nil_iff.mp hm, hword, List.cons_ne_nil _ _, ?_, hl, ?_⟩
  · simp
  · exact List.forall_mem_singleton.mpr rfl
  · rw [String.ofList_toList]

/-! ## Outlines -/

/-- Nothing is joined to a literal in front of such a path. -/
theorem pathOf_ne_literal {segments : List Segment}
    (h : ∀ text, (segments.filter inPath).head? ≠ some (.literal text)) (text : String) (rest : List Segment) :
    pathOf segments ≠ .literal text :: rest := by
  rw [pathOf_eq]
  cases hin : segments.filter inPath with
  | nil => exact fun he => by cases he
  | cons segment tail =>
    cases segment with
    | literal first => exact absurd (congrArg List.head? hin) (h first)
    | param p => exact fun he => by cases he

/-- The method is taken off, and the path is the one of the text behind it. -/
theorem outline_declared {m l : String} {s : List Segment} (hm : m ≠ "")
    (hword : ∀ c ∈ m.toList, c.isAlpha = true)
    (hl : ∀ c ∈ l.toList.head?, CharClass.whitespace.holds c = false)
    (hs : ∀ text, (s.filter inPath).head? ≠ some (.literal text)) :
    outline (.literal (m ++ " " ++ l) :: s) = ⟨some (raised m), consLiteral l (pathOf s), queryOf s⟩ := by
  have hne : m ++ " " ++ l ≠ "" := by simp [hm]
  have hpath : pathOf (.literal (m ++ " " ++ l) :: s) = .literal (m ++ " " ++ l) :: pathOf s := by
    rw [pathOf, consLiteral_of_apart (pathOf_ne_literal hs), if_neg hne]
  rw [outline, hpath, splitDeclared, splitMethod?_word hm hword hl]
  rfl

theorem outline_bare {l : String} {s : List Segment} (hno : splitMethod? l = none)
    (hs : ∀ text, (s.filter inPath).head? ≠ some (.literal text)) :
    outline (.literal l :: s) = ⟨none, consLiteral l (pathOf s), queryOf s⟩ := by
  have hapart := pathOf_ne_literal hs
  have hsplit : splitDeclared (consLiteral l (pathOf s)) = (none, consLiteral l (pathOf s)) := by
    rw [consLiteral_of_apart hapart]
    by_cases hl : l = ""
    · rw [if_pos hl]
      cases hpath : pathOf s with
      | nil => rfl
      | cons segment rest =>
        cases segment with
        | literal text => exact absurd hpath (hapart text rest)
        | param p => rfl
    · rw [if_neg hl, splitDeclared, hno]
  rw [outline, pathOf, hsplit]
  rfl

/-! ## Compiling with and without a method -/

/-- The route of a path and its query parameters, if they pass their checks. -/
def routeOf (m : Option String) (path : List Segment) (query : List Param) (options : Options) :
    Except DefinitionError Route := do
  checkKeys [] (params path ++ query)
  checkEnds path
  return assemble m path query options

theorem compile_eq_routeOf {segments path : List Segment} {query : List Param}
    {declared configured m : Option String} {options : Options}
    (houtline : outline segments = ⟨declared, path, query⟩)
    (hcheck : Options.check { options with method := configured } = .ok ())
    (hagreed : agreedMethod declared { options with method := configured } = .ok m) :
    compile ⟨segments, { options with method := configured }⟩ = routeOf m path query options := by
  simp only [compile, hcheck, compileOutline, houtline, hagreed]
  rfl

/-- A method puts a guard in front of the route without it, and refuses nothing. -/
theorem routeOf_some (m : String) (path : List Segment) (query : List Param) (options : Options) :
    routeOf (some (raised m)) path query options =
      (routeOf none path query options).map (.both (.guard m)) := by
  have hroute : assemble (some (raised m)) path query options =
      .both (.guard m) (assemble none path query options) := by
    rw [← Route.guard_raised m]
    rfl
  unfold routeOf
  rw [hroute]
  cases checkKeys [] (params path ++ query) with
  | error e => rfl
  | ok _ =>
    cases checkEnds path with
    | error e => rfl
    | ok _ => rfl

/-- A word of letters is one in any case. -/
theorem isAlpha_of_sameIgnoringCase {m variant : String} (h : sameIgnoringCase variant m = true) (hm : m ≠ "")
    (hword : ∀ c ∈ m.toList, c.isAlpha = true) :
    variant ≠ "" ∧ ∀ c ∈ variant.toList, c.isAlpha = true := by
  have hmap : variant.toList.map Char.toLower = m.toList.map Char.toLower := by
    rw [← toList_lowered, ← toList_lowered, sameIgnoringCase_iff.mp h]
  refine ⟨?_, fun c hc => ?_⟩
  · rintro rfl
    exact hm (String.toList_eq_nil_iff.mp (List.map_eq_nil_iff.mp hmap.symm))
  · have hlower := List.mem_map_of_mem (f := Char.toLower) hc
    rw [hmap, List.mem_map] at hlower
    obtain ⟨d, hd, hcd⟩ := hlower
    rw [← isAlpha_toLower, ← hcd, isAlpha_toLower]
    exact hword d hd

end Definition

namespace Route
open Text

/-- A guard lets the states of its method through as they are. -/
theorem parser_guard (m : String) (route : Route) (s : State Label) :
    (both (guard m) route).parser s =
      if s.method.any (sameIgnoringCase · m) then route.parser s
      else .bad false (s.fail (.expectingMethod (raised m))) := by
  have hany : s.method.any (fun x => sameIgnoringCase x (raised m)) =
      s.method.any (fun x => sameIgnoringCase x m) := by
    simp only [sameIgnoringCase_raised]
  have hbehind : ((route.parser s).map (Value.merge .unit)).after false = route.parser s := by
    cases route.parser s with
    | good g v s' => rw [Result.map, Value.merge_unit_left, Result.after, Bool.false_or]
    | bad g problems => rfl
  rw [guard, parser, Parser.join, parser, readMethod, hany]
  by_cases h : s.method.any (fun x => sameIgnoringCase x m) = true
  · rw [if_pos h, if_pos h]
    exact hbehind
  · rw [if_neg h, if_neg h]

/-- A guarded route reads the states of the method that the route behind the guard reads. -/
theorem parser_guard_eq_good_iff {m : String} {route : Route} {s s' : State Label} {g : Bool} {v : Value} :
    (both (guard m) route).parser s = .good g v s' ↔
      (∃ method, s.method = some method ∧ sameIgnoringCase method m = true) ∧ route.parser s = .good g v s' := by
  rw [parser_guard, ← Option.any_eq_true]
  by_cases h : s.method.any (fun x => sameIgnoringCase x m) = true
  · rw [if_pos h]
    exact (and_iff_right h).symm
  · rw [if_neg h]
    exact ⟨fun he => (by cases he), fun he => absurd he.1 h⟩

end Route

namespace Definition
open Text

/-- A method in front of the first literal, a method among the options, and
both at once in any spelling of the same word compile to one route, or are
refused for one reason. The route reads a state exactly when the request has
the method, whatever its case, and the route without a method reads it, and
then it reads the same. What is further in the path must not join the literal:
behind empty literals and query parameters, which are no part of the path, it
begins with a capture or ends. -/
theorem compile_declared_or_configured {m l variant : String} {s : List Segment} (hm : m ≠ "")
    (hword : ∀ c ∈ m.toList, c.isAlpha = true)
    (hl : ∀ c ∈ l.toList.head?, CharClass.whitespace.holds c = false) (hno : splitMethod? l = none)
    (hs : ∀ text, (s.filter inPath).head? ≠ some (.literal text))
    (hvariant : sameIgnoringCase variant m = true) (options : Options) :
    compile ⟨.literal (m ++ " " ++ l) :: s, { options with method := none }⟩ =
        compile ⟨.literal l :: s, { options with method := some m }⟩ ∧
      compile ⟨.literal (m ++ " " ++ l) :: s, { options with method := some variant }⟩ =
        compile ⟨.literal l :: s, { options with method := some m }⟩ ∧
      ∀ route, compile ⟨.literal l :: s, { options with method := some m }⟩ = .ok route →
        ∃ free, compile ⟨.literal l :: s, { options with method := none }⟩ = .ok free ∧
          ∀ st g v st', route.parser st = .good g v st' ↔
            (∃ method, st.method = some method ∧ sameIgnoringCase method m = true) ∧
              free.parser st = .good g v st' := by
  have hdeclared := outline_declared hm hword hl hs
  have hbare := outline_bare hno hs
  have hconfigured : Options.check { options with method := some m } = .ok () :=
    Options.checkMethod_ok_iff.mpr ⟨hm, hword⟩
  have hrepeated : Options.check { options with method := some variant } = .ok () :=
    Options.checkMethod_ok_iff.mpr (isAlpha_of_sameIgnoringCase hvariant hm hword)
  have hagree : sameIgnoringCase (raised m) variant = true := by
    rw [sameIgnoringCase_comm, sameIgnoringCase_raised]
    exact hvariant
  have hagreed : agreedMethod (some (raised m)) { options with method := some variant } =
      .ok (some (raised m)) := by
    apply agreedMethod_eq_ok_iff.mpr
    refine ⟨?_, rfl⟩
    rintro _ ⟨⟩ _ ⟨⟩
    exact hagree
  have hroute : compile ⟨.literal l :: s, { options with method := some m }⟩ =
      routeOf (some (raised m)) (consLiteral l (pathOf s)) (queryOf s) options :=
    compile_eq_routeOf hbare hconfigured rfl
  refine ⟨?_, ?_, ?_⟩
  · rw [hroute]
    exact compile_eq_routeOf hdeclared rfl rfl
  · rw [hroute]
    exact compile_eq_routeOf hdeclared hrepeated hagreed
  · intro route h
    rw [hroute, routeOf_some] at h
    cases hfree : routeOf none (consLiteral l (pathOf s)) (queryOf s) options with
    | error e =>
      rw [hfree] at h
      cases h
    | ok free =>
      rw [hfree] at h
      cases h
      exact ⟨free, (compile_eq_routeOf hbare rfl rfl).trans hfree, fun _ _ _ _ => Route.parser_guard_eq_good_iff⟩

/-- A parameter of the query and an empty literal are no segments of the path. -/
theorem compile_declared_or_configured_mixed :
    let m := "Get"
    let l := "/é x"
    let s : List Segment := [.literal "", .param ⟨"q", .int, true⟩, .param ⟨"name", .text, false⟩, .literal "/"]
    let options : Options := { trailingSlash := false }
    m ≠ "" ∧ (∀ c ∈ m.toList, c.isAlpha = true) ∧
      (∀ c ∈ l.toList.head?, CharClass.whitespace.holds c = false) ∧ splitMethod? l = none ∧
      (∀ text, (s.filter inPath).head? ≠ some (.literal text)) ∧ sameIgnoringCase "gET" m = true ∧
      compile ⟨.literal (m ++ " " ++ l) :: s, { options with method := none }⟩ =
        compile ⟨.literal l :: s, { options with method := some m }⟩ ∧
      compile ⟨.literal (m ++ " " ++ l) :: s, { options with method := some "gET" }⟩ =
        compile ⟨.literal l :: s, { options with method := some m }⟩ ∧
      ∃ route free, compile ⟨.literal l :: s, { options with method := some m }⟩ = .ok route ∧
        compile ⟨.literal l :: s, { options with method := none }⟩ = .ok free ∧
          ∀ st g v st', route.parser st = .good g v st' ↔
            (∃ method, st.method = some method ∧ sameIgnoringCase method m = true) ∧
              free.parser st = .good g v st' := by
  have hroute : ∃ route, compile
      ⟨[.literal "/é x", .literal "", .param ⟨"q", .int, true⟩, .param ⟨"name", .text, false⟩, .literal "/"],
        { method := some "Get", trailingSlash := false }⟩ = .ok route :=
    ⟨assemble (some "GET") [.literal "/é x", .param ⟨"name", .text, false⟩, .literal "/"] [⟨"q", .int, true⟩]
      { trailingSlash := false }, by rfl⟩
  intro m l s options
  have hm : m ≠ "" := by decide
  have hword : ∀ c ∈ m.toList, c.isAlpha = true := List.all_eq_true.mp (by decide)
  have hl : ∀ c ∈ l.toList.head?, CharClass.whitespace.holds c = false := by
    have hhead : l.toList.head? = some '/' := by decide
    intro c hc
    cases hhead.symm.trans hc
    rfl
  have hno : splitMethod? l = none := by decide
  have hs : ∀ text, (s.filter inPath).head? ≠ some (.literal text) := fun _ he => by cases he
  have hvariant : sameIgnoringCase "gET" m = true := by decide
  obtain ⟨hdeclared, hboth, hguard⟩ := compile_declared_or_configured hm hword hl hno hs hvariant options
  obtain ⟨route, hroute⟩ := hroute
  obtain ⟨free, hfree, hiff⟩ := hguard route hroute
  exact ⟨hm, hword, hl, hno, hs, hvariant, hdeclared, hboth, route, free, hroute, hfree, hiff⟩

end Definition
end UrlRoutes
