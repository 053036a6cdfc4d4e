import UrlRoutes.Proofs.Writing
/-!
# Writing in front

A route writes in front of what is there, and never looks back at it but for
one purpose: a text that ends at a boundary is refused if the path behind it
moves the boundary. What is put in front is settled by the value alone, and so
is a refusal wherever there is no boundary. A boundary in a query parameter
does not count, since the parameter is written into a draft of its own.

Results:
* `prepends_sequence`: the left side is judged by what the right side wrote.
* `prepends_route`: every route puts the same in front of all drafts it takes.
* `write_only_prepends`: what is done to a draft, and what of it can matter.
-/
namespace UrlRoutes.Route

/-- On the path, outside of every query parameter, some text ends at a boundary. -/
def looksAhead : Route → Bool
  | before _ => true
  | capture _ inner => inner.looksAhead
  | both left right => left.looksAhead || right.looksAhead
  | last left right => left.looksAhead || right.looksAhead
  | _ => false

/-- Whether `v` is written in front of `d`, or why it is not. -/
def verdict (route : Route) (v : Value) (d : Draft) : Except FormatError Unit :=
  (route.write v d).map fun _ => ()

/-- `p` puts `t` and `ps` in front of every draft that `judge` lets pass by its path. -/
def PutsAhead (p : Draft → Except FormatError Draft) (guard : Option String) (t : String)
    (ps : List (String × String)) (judge : String → Except FormatError Unit) : Prop :=
  ∀ d, p d = (judge d.path).map fun _ => extend d t ps guard

/-- `p` puts the same in front of every draft. If it does not look ahead all
paths are judged alike. -/
def Prepends (p : Draft → Except FormatError Draft) (guard : Option String) (ahead : Bool) : Prop :=
  ∃ t ps judge, PutsAhead p guard t ps judge ∧ (ahead = false → ∀ r r', judge r = judge r')

variable {p left right : Draft → Except FormatError Draft} {guard : Option String} {ahead : Bool}

/-! ## Leaves -/

theorem prepends_of_refused {e : FormatError} (h : ∀ d, p d = .error e) : Prepends p guard ahead :=
  ⟨"", [], fun _ => .error e, h, fun _ _ _ => rfl⟩

theorem prepends_of_taken (t : String) (ps : List (String × String)) (h : ∀ d, p d = .ok (extend d t ps guard)) :
    Prepends p guard ahead :=
  ⟨t, ps, fun _ => .ok (), h, fun _ _ _ => rfl⟩

theorem prepends_text (text : String) : Prepends (fun d => .ok (d.prepend text)) none false :=
  prepends_of_taken text [] fun _ => rfl

/-- What is found out before the draft is looked at. -/
theorem prepends_bind {α : Type} {x : Except FormatError α} {f : α → Draft → Except FormatError Draft}
    (h : ∀ a, Prepends (f a) guard ahead) : Prepends (fun d => x >>= fun a => f a d) guard ahead := by
  cases x with
  | error e => exact prepends_of_refused fun _ => rfl
  | ok a => exact h a

theorem prepends_refuse {c : Prop} [Decidable c] {e : FormatError} (h : Prepends p guard ahead) :
    Prepends (fun d => if c then .error e else p d) guard ahead := by
  by_cases hc : c
  · exact prepends_of_refused fun _ => if_pos hc
  · simpa only [if_neg hc] using h

theorem prepends_upTo (delimiter : String) (v : Value) : Prepends ((upTo delimiter).write v) none false :=
  prepends_bind fun text => prepends_refuse (prepends_refuse (prepends_text text))

theorem prepends_before (boundary : Boundary) (v : Value) : Prepends ((before boundary).write v) none true := by
  refine prepends_bind fun text => prepends_refuse ⟨text, [], fun r =>
    if boundary.cut? (text ++ r).toList = some (text.toList, r.toList) then .ok ()
    else .error (.containsDelimiter text boundary.describe), fun d => ?_, fun h => by cases h⟩
  by_cases hcut : boundary.cut? (text ++ d.path).toList = some (text.toList, d.path.toList)
  · simp only [if_pos hcut]
    rfl
  · simp only [if_neg hcut]
    rfl

theorem prepends_rest (allowEmpty : Bool) (v : Value) : Prepends ((rest allowEmpty).write v) none false :=
  prepends_bind fun text => prepends_refuse (prepends_text text)

theorem prepends_choice (options : List String) (v : Value) : Prepends ((choice options).write v) none false := by
  refine prepends_bind fun text => ?_
  by_cases h : text ∈ options
  · exact prepends_of_taken text [] fun _ => if_pos h
  · exact prepends_of_refused fun _ => if_neg h

theorem prepends_number (policy : NumberPolicy Problem Value) (style : NumberStyle) (v : Value) :
    Prepends ((number policy style).write v) none false :=
  prepends_bind fun text => prepends_text text

/-! ## Nodes -/

/-- The right side writes first, and the left side is judged by the path it made. -/
theorem PutsAhead.sequence {g1 g2 : Option String} {t1 t2 : String} {ps1 ps2 : List (String × String)}
    {judge1 judge2 : String → Except FormatError Unit} (hl : PutsAhead left g1 t1 ps1 judge1)
    (hr : PutsAhead right g2 t2 ps2 judge2) :
    PutsAhead (fun d => right d >>= left) (g1.or g2) (t1 ++ t2) (ps1 ++ ps2)
      fun r => judge2 r >>= fun _ => judge1 (t2 ++ r) := by
  intro d
  have hd := hr d
  cases hjudge : judge2 d.path with
  | error e => simp only [hd, hjudge]; rfl
  | ok =>
    rw [hjudge] at hd
    calc (right d >>= left)
        = left (extend d t2 ps2 g2) := by rw [hd]; rfl
      _ = (judge1 (t2 ++ d.path)).map fun _ => extend (extend d t2 ps2 g2) t1 ps1 g1 := hl _
      _ = (judge1 (t2 ++ d.path)).map fun _ => extend d (t1 ++ t2) (ps1 ++ ps2) (g1.or g2) := by
        rw [extend_extend]
      _ = _ := by simp only [hjudge]; rfl

theorem prepends_sequence {g1 g2 : Option String} {ahead1 ahead2 : Bool} (hl : Prepends left g1 ahead1)
    (hr : Prepends right g2 ahead2) :
    Prepends (fun d => right d >>= left) (g1.or g2) (ahead1 || ahead2) := by
  obtain ⟨t1, ps1, judge1, h1, hsame1⟩ := hl
  obtain ⟨t2, ps2, judge2, h2, hsame2⟩ := hr
  refine ⟨t1 ++ t2, ps1 ++ ps2, _, h1.sequence h2, fun h r r' => ?_⟩
  obtain ⟨hahead1, hahead2⟩ := Bool.or_eq_false_iff.mp h
  simp only [hsame2 hahead2 r r', hsame1 hahead1 (t2 ++ r) (t2 ++ r')]

/-- A query parameter is written into a draft of its own. -/
theorem prepends_query (key : String) (inner : Route) (v : Value) :
    Prepends ((query key inner).write v) none false :=
  prepends_bind fun a => prepends_bind fun written =>
    prepends_of_taken "" [(key, written.path)] fun d => by
      simp [extend, Draft.prependParam, pure, Except.pure]

/-- Every route puts the same in front of all drafts it takes. -/
theorem prepends_route (route : Route) (v : Value) :
    Prepends (route.write v) route.guardMethod? route.looksAhead := by
  induction route generalizing v with
  | start => exact prepends_of_taken "" [] fun d => by simp [write, extend, guardMethod?]
  | finish allowSlash => exact prepends_of_taken "" [] fun d => by simp [write, extend, guardMethod?]
  | method expected => exact prepends_of_taken "" [] fun d => by simp [write, extend, guardMethod?]; rfl
  | literal text => exact prepends_text text
  | upTo delimiter => exact prepends_upTo delimiter v
  | before boundary => exact prepends_before boundary v
  | rest allowEmpty => exact prepends_rest allowEmpty v
  | capture key inner ih => exact prepends_bind ih
  | number policy style => exact prepends_number policy style v
  | both left right ihl ihr => exact prepends_sequence (ihl v) (ihr v)
  | last left right ihl ihr => exact prepends_sequence (ihl .unit) (ihr v)
  | choice options => exact prepends_choice options v
  | query key inner _ => exact prepends_query key inner v

/-! ## Drafts -/

theorem verdict_eq {route : Route} {v : Value} {t : String} {ps : List (String × String)}
    {judge : String → Except FormatError Unit} (h : PutsAhead (route.write v) guard t ps judge) (d : Draft) :
    route.verdict v d = judge d.path := by
  rw [verdict, h d]
  cases judge d.path <;> rfl

theorem eq_extend_iff {d d' : Draft} {t : String} {ps : List (String × String)} :
    d' = extend d t ps guard ↔ d'.path = t ++ d.path ∧ d'.params = ps ++ d.params ∧
      d'.method = guard.or d.method ∧ d'.headers = d.headers := by
  cases d'
  simp only [extend, Draft.mk.injEq]

theorem extend_inj {d : Draft} {t t' : String} {ps ps' : List (String × String)}
    (h : extend d t ps guard = extend d t' ps' guard) : t = t' ∧ ps = ps' := by
  simpa [extend] using h

/-- The text and the parameters that `Puts` tells are the same for every draft. -/
theorem PutsAhead.write_eq_ok_iff {route : Route} {v : Value} {t : String} {ps : List (String × String)}
    {judge : String → Except FormatError Unit} (h : PutsAhead (route.write v) route.guardMethod? t ps judge)
    {d d' : Draft} :
    route.write v d = .ok d' ↔ route.Puts t d.path v ps ∧ d' = extend d t ps route.guardMethod? := by
  rw [writes_route]
  constructor
  · rintro ⟨t', ps', hputs, rfl⟩
    have hwrite : route.write v d = .ok (extend d t' ps' route.guardMethod?) :=
      (writes_route route v d _).mpr ⟨t', ps', hputs, rfl⟩
    rw [h d] at hwrite
    cases hjudge : judge d.path with
    | error e => rw [hjudge] at hwrite; cases hwrite
    | ok =>
      rw [hjudge] at hwrite
      obtain ⟨rfl, rfl⟩ := extend_inj (Except.ok.inj hwrite)
      exact ⟨hputs, rfl⟩
  · rintro ⟨hputs, rfl⟩
    exact ⟨t, ps, hputs, rfl⟩

/-- One text and one list of parameters go in front of every draft, the headers
stay, and the method is the route's own or else stays. Of the draft the path
alone can be a reason to refuse, and without a boundary on the path it is none. -/
theorem write_only_prepends (route : Route) (v : Value) :
    ∃ t ps,
      (∀ d d', route.write v d = .ok d' ↔ route.Puts t d.path v ps ∧
        d'.path = t ++ d.path ∧ d'.params = ps ++ d.params ∧
        d'.method = route.guardMethod?.or d.method ∧ d'.headers = d.headers) ∧
      (∀ d d', d.path = d'.path → route.verdict v d = route.verdict v d') ∧
      (route.looksAhead = false → ∀ d d', route.verdict v d = route.verdict v d') := by
  obtain ⟨t, ps, judge, h, hsame⟩ := prepends_route route v
  refine ⟨t, ps, fun d d' => ?_, fun d d' hpath => ?_, fun hahead d d' => ?_⟩
  · rw [h.write_eq_ok_iff, eq_extend_iff]
  · rw [verdict_eq h, verdict_eq h, hpath]
  · rw [verdict_eq h, verdict_eq h, hsame hahead d.path d'.path]

/-- The boundary in the parameter looks at nothing but the parameter, so the
draft may be anything. -/
theorem write_only_prepends_boundary_in_parameter :
    let route := both (.method "GET") (.both (.capture "n" .int)
      (.query "q" (.both (.capture "t" (.before (.anyOf ["-"]))) (.literal "-"))))
    let v : Value := .record ⟨[("n", .int 7), ("q", .record ⟨[("t", .text "a")]⟩)]⟩
    let d : Draft := { path := "-/x", params := [("z", "1")], method := some "PUT", headers := ⟨[("accept", "*")]⟩ }
    let d' : Draft :=
      { path := "7-/x", params := [("q", "a-"), ("z", "1")], method := some "GET", headers := ⟨[("accept", "*")]⟩ }
    route.looksAhead = false ∧ route.write v d = .ok d' ∧ route.verdict v d = route.verdict v {} ∧
      ∃ t ps, d'.path = t ++ d.path ∧ d'.params = ps ++ d.params ∧
        d'.method = route.guardMethod?.or d.method ∧ d'.headers = d.headers := by
  intro route v d d'
  have hwrite : route.write v d = .ok d' := by rfl
  obtain ⟨t, ps, hok, hpath, hsame⟩ := write_only_prepends route v
  exact ⟨rfl, hwrite, hsame rfl d {}, t, ps, ((hok d d').mp hwrite).2⟩

/-- On the path the same boundary tells drafts apart. -/
example : (before (.anyOf ["-"])).verdict (.text "ab") { path := "-/x" } = .ok () ∧
    (before (.anyOf ["-"])).verdict (.text "ab") { path := "/x" } = .error (.containsDelimiter "ab" "-") :=
  ⟨rfl, rfl⟩

end UrlRoutes.Route
