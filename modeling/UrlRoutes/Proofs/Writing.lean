import UrlRoutes.Route.Request
/-!
# What routes write

Writing with a route, said without drafts. `Puts` tells by recursion on the
route which text is put in front of the path and which parameters in front of
the query. The method is that of the first guard on the path.

Results:
* `writes_route`: a draft is extended exactly as `Puts` says.
* `formatWith_eq_ok_iff`: the parts of a finished URL.
-/
namespace UrlRoutes.Route

/-- The first guard on the path. -/
def guardMethod? : Route → Option String
  | method expected => some expected
  | capture _ inner => inner.guardMethod?
  | both left right => left.guardMethod?.or right.guardMethod?
  | last left right => left.guardMethod?.or right.guardMethod?
  | _ => none

/-- In front of the path `r`, `route` writes `v` as the text `t` and the parameters `ps`. -/
def Puts : Route → String → String → Value → List (String × String) → Prop
  | start, t, _, _, ps => t = "" ∧ ps = []
  | finish _, t, _, _, ps => t = "" ∧ ps = []
  | literal text, t, _, _, ps => t = text ∧ ps = []
  | upTo delimiter, t, _, v, ps =>
    v = .text t ∧ (t ≠ "" ∧ Text.hasLiteral delimiter.toList t.toList = false) ∧ ps = []
  | before boundary, t, r, v, ps =>
    v = .text t ∧ (t ≠ "" ∧ boundary.cut? (t ++ r).toList = some (t.toList, r.toList)) ∧ ps = []
  | rest allowEmpty, t, _, v, ps => v = .text t ∧ (t ≠ "" ∨ allowEmpty = true) ∧ ps = []
  | capture key inner, t, r, v, ps => ∃ a, fieldOf v key = .ok a ∧ inner.Puts t r a ps
  | number _ style, t, _, v, ps => style.render v = .ok t ∧ ps = []
  | method _, t, _, _, ps => t = "" ∧ ps = []
  | both left right, t, r, v, ps => ∃ t1 t2 ps1 ps2, t = t1 ++ t2 ∧ ps = ps1 ++ ps2 ∧
      left.Puts t1 (t2 ++ r) v ps1 ∧ right.Puts t2 r v ps2
  | last left right, t, r, v, ps => ∃ t1 t2 ps1 ps2, t = t1 ++ t2 ∧ ps = ps1 ++ ps2 ∧
      left.Puts t1 (t2 ++ r) .unit ps1 ∧ right.Puts t2 r v ps2
  | choice options, t, _, v, ps => v = .text t ∧ t ∈ options ∧ ps = []
  | query key inner, t, _, v, ps => t = "" ∧ ∃ a raw ps', fieldOf v key = .ok a ∧
      inner.Puts raw "" a ps' ∧ ps = [(key, raw)]

/-- The draft `d` with everything a route writes in front. -/
def extend (d : Draft) (t : String) (ps : List (String × String)) (guard : Option String) : Draft :=
  { d with path := t ++ d.path, params := ps ++ d.params, method := guard.or d.method }

/-- `p` extends a draft exactly as `puts` says. -/
def Writes (p : Value → Draft → Except FormatError Draft) (guard : Option String)
    (puts : String → String → Value → List (String × String) → Prop) : Prop :=
  ∀ v d d', p v d = .ok d' ↔ ∃ t ps, puts t d.path v ps ∧ d' = extend d t ps guard

/-! ## Leaves -/

theorem bind_eq_ok_iff {ε α β : Type} {x : Except ε α} {f : α → Except ε β} {b : β} :
    (x >>= f) = .ok b ↔ ∃ a, x = .ok a ∧ f a = .ok b := by
  cases x with
  | error e => simp [bind, Except.bind]
  | ok a => simp [bind, Except.bind]

theorem refuse_eq_ok_iff {ε α : Type} {c : Prop} [Decidable c] {e : ε} {x : Except ε α} {a : α} :
    (if c then .error e else x) = .ok a ↔ ¬c ∧ x = .ok a := by
  split
  · next h => simp [h]
  · next h => simp [h]

theorem textOf_eq_ok_iff {v : Value} {t : String} : textOf v = .ok t ↔ v = .text t := by
  cases v <;> simp [textOf]

/-- A writer that leaves the draft as it is, but for the method. -/
theorem writes_of_still {p : Value → Draft → Except FormatError Draft} {guard : Option String}
    (h : ∀ v d, p v d = .ok (extend d "" [] guard)) :
    Writes p guard fun t _ _ ps => t = "" ∧ ps = [] := by
  intro v d d'
  rw [h, Except.ok.injEq]
  constructor
  · rintro rfl
    exact ⟨"", [], ⟨rfl, rfl⟩, rfl⟩
  · intro hputs
    obtain ⟨t, ps, ⟨rfl, rfl⟩, rfl⟩ := hputs
    rfl

/-- A writer that puts a text in front if it passes a test. -/
theorem writes_of_text {p : String → Draft → Except FormatError Draft} (ok : String → String → Prop)
    (h : ∀ t d d', p t d = .ok d' ↔ ok t d.path ∧ d' = d.prepend t) :
    Writes (fun v d => textOf v >>= fun t => p t d) none fun t r v ps =>
      v = .text t ∧ ok t r ∧ ps = [] := by
  intro v d d'
  rw [bind_eq_ok_iff]
  constructor
  · intro hwrites
    obtain ⟨t, ht, hp⟩ := hwrites
    obtain ⟨hok, rfl⟩ := (h t d d').mp hp
    exact ⟨t, [], ⟨textOf_eq_ok_iff.mp ht, hok, rfl⟩, rfl⟩
  · intro hputs
    obtain ⟨t, ps, ⟨rfl, hok, rfl⟩, rfl⟩ := hputs
    exact ⟨t, rfl, (h t d _).mpr ⟨hok, rfl⟩⟩

theorem writes_upTo (delimiter : String) :
    Writes (upTo delimiter).write none (upTo delimiter).Puts := by
  refine writes_of_text
    (fun t _ => t ≠ "" ∧ Text.hasLiteral delimiter.toList t.toList = false) fun t d d' => ?_
  unfold writeUpTo
  rw [refuse_eq_ok_iff, refuse_eq_ok_iff, Bool.not_eq_true, Except.ok.injEq, and_assoc, eq_comm (a := d')]

theorem writes_before (boundary : Boundary) :
    Writes (before boundary).write none (before boundary).Puts := by
  refine writes_of_text
    (fun t r => t ≠ "" ∧ boundary.cut? (t ++ r).toList = some (t.toList, r.toList)) fun t d d' => ?_
  unfold writeBefore
  rw [refuse_eq_ok_iff, and_assoc]
  split
  · next h => rw [and_iff_right h, Except.ok.injEq, eq_comm (a := d')]
  · next h => simp only [h, false_and, reduceCtorEq]

theorem writes_rest (allowEmpty : Bool) : Writes (rest allowEmpty).write none (rest allowEmpty).Puts := by
  refine writes_of_text (fun t _ => t ≠ "" ∨ allowEmpty = true) fun t d d' => ?_
  unfold writeRest
  rw [refuse_eq_ok_iff, Classical.not_and_iff_not_or_not, Bool.not_eq_false, Except.ok.injEq,
    eq_comm (a := d')]

theorem writes_choice (options : List String) : Writes (choice options).write none (choice options).Puts := by
  refine writes_of_text (fun t _ => t ∈ options) fun t d d' => ?_
  unfold writeChoice
  split
  · next h => rw [and_iff_right h, Except.ok.injEq, eq_comm]
  · next h => simp only [h, false_and, reduceCtorEq]

theorem writes_literal (text : String) : Writes (literal text).write none (literal text).Puts := by
  intro v d d'
  rw [write, Except.ok.injEq]
  constructor
  · rintro rfl
    exact ⟨text, [], ⟨rfl, rfl⟩, rfl⟩
  · intro hputs
    obtain ⟨t, ps, ⟨rfl, rfl⟩, rfl⟩ := hputs
    rfl

theorem writes_number (policy : NumberPolicy Problem Value) (style : NumberStyle) :
    Writes (number policy style).write none (number policy style).Puts := by
  intro v d d'
  rw [write, bind_eq_ok_iff]
  constructor
  · intro hwrites
    obtain ⟨t, ht, hd⟩ := hwrites
    cases hd
    exact ⟨t, [], ⟨ht, rfl⟩, rfl⟩
  · intro hputs
    obtain ⟨t, ps, ⟨ht, rfl⟩, rfl⟩ := hputs
    exact ⟨t, ht, rfl⟩

/-! ## Nodes -/

theorem extend_extend (d : Draft) (t1 t2 : String) (ps1 ps2 : List (String × String))
    (g1 g2 : Option String) :
    extend (extend d t2 ps2 g2) t1 ps1 g1 = extend d (t1 ++ t2) (ps1 ++ ps2) (g1.or g2) := by
  simp [extend, String.append_assoc, Option.or_assoc]

/-- The left side writes in front of what the right side has written. -/
theorem writes_sequence {left right : Value → Draft → Except FormatError Draft} {g1 g2 : Option String}
    {lputs rputs : String → String → Value → List (String × String) → Prop}
    (hl : Writes left g1 lputs) (hr : Writes right g2 rputs) (f : Value → Value) :
    Writes (fun v d => right v d >>= fun m => left (f v) m) (g1.or g2) fun t r v ps =>
      ∃ t1 t2 ps1 ps2, t = t1 ++ t2 ∧ ps = ps1 ++ ps2 ∧ lputs t1 (t2 ++ r) (f v) ps1 ∧ rputs t2 r v ps2 := by
  intro v d d'
  rw [bind_eq_ok_iff]
  constructor
  · intro hwrites
    obtain ⟨m, hm, hd⟩ := hwrites
    obtain ⟨t2, ps2, h2, rfl⟩ := (hr v d m).mp hm
    obtain ⟨t1, ps1, h1, rfl⟩ := (hl (f v) _ d').mp hd
    exact ⟨t1 ++ t2, ps1 ++ ps2, ⟨t1, t2, ps1, ps2, rfl, rfl, h1, h2⟩, extend_extend ..⟩
  · intro hputs
    obtain ⟨t, ps, ⟨t1, t2, ps1, ps2, rfl, rfl, h1, h2⟩, rfl⟩ := hputs
    refine ⟨_, (hr v d _).mpr ⟨t2, ps2, h2, rfl⟩, (hl (f v) _ _).mpr ⟨t1, ps1, h1, ?_⟩⟩
    rw [extend_extend]

theorem writes_query {p : Value → Draft → Except FormatError Draft} {guard : Option String}
    {puts : String → String → Value → List (String × String) → Prop} (hp : Writes p guard puts)
    (key : String) :
    Writes (fun v d => do
      let written ← p (← fieldOf v key) {}
      return d.prependParam key written.path) none fun t _ v ps =>
        t = "" ∧ ∃ a raw ps', fieldOf v key = .ok a ∧ puts raw "" a ps' ∧ ps = [(key, raw)] := by
  intro v d d'
  simp only [bind_eq_ok_iff]
  constructor
  · intro hwrites
    obtain ⟨a, ha, m, hm, hd⟩ := hwrites
    obtain ⟨raw, ps', hraw, rfl⟩ := (hp a {} m).mp hm
    cases hd
    refine ⟨"", [(key, raw)], ⟨rfl, a, raw, ps', ha, hraw, rfl⟩, ?_⟩
    simp [extend, Draft.prependParam]
  · intro hputs
    obtain ⟨t, ps, ⟨rfl, a, raw, ps', ha, hraw, rfl⟩, rfl⟩ := hputs
    refine ⟨a, ha, _, (hp a {} _).mpr ⟨raw, ps', hraw, rfl⟩, ?_⟩
    simp [extend, Draft.prependParam, pure, Except.pure]

theorem writes_route (route : Route) : Writes route.write route.guardMethod? route.Puts := by
  induction route with
  | start => exact writes_of_still fun v d => by simp [write, extend, guardMethod?]
  | finish allowSlash => exact writes_of_still fun v d => by simp [write, extend, guardMethod?]
  | method expected => exact writes_of_still fun v d => by simp [write, extend, guardMethod?]; rfl
  | literal text => exact writes_literal text
  | upTo delimiter => exact writes_upTo delimiter
  | before boundary => exact writes_before boundary
  | rest allowEmpty => exact writes_rest allowEmpty
  | capture key inner ih =>
    intro v d d'
    rw [write, bind_eq_ok_iff]
    constructor
    · intro hwrites
      obtain ⟨a, ha, hd⟩ := hwrites
      obtain ⟨t, ps, ht, rfl⟩ := (ih a d d').mp hd
      exact ⟨t, ps, ⟨a, ha, ht⟩, rfl⟩
    · intro hputs
      obtain ⟨t, ps, ⟨a, ha, ht⟩, rfl⟩ := hputs
      exact ⟨a, ha, (ih a d _).mpr ⟨t, ps, ht, rfl⟩⟩
  | number policy style => exact writes_number policy style
  | both left right ihl ihr => exact writes_sequence ihl ihr id
  | last left right ihl ihr => exact writes_sequence ihl ihr fun _ => .unit
  | choice options => exact writes_choice options
  | query key inner ih => exact writes_query ih key

/-- The parts of a finished URL. -/
theorem formatWith_eq_ok_iff {codec : Codec} {route : Route} {v : Value} {u : FormattedUrl} :
    route.formatWith codec v = .ok u ↔ ∃ ps, route.Puts u.pathname "" v ps ∧ u.search = codec.writeSearch ps ∧
      u.hash = "" ∧ u.method = route.guardMethod? := by
  have hmap : route.formatWith codec v = .ok u ↔ ∃ d, route.write v {} = .ok d ∧ d.finishWith codec = u := by
    unfold formatWith
    cases route.write v {} <;> simp [Except.map]
  rw [hmap]
  constructor
  · intro hwrites
    obtain ⟨d, hd, rfl⟩ := hwrites
    obtain ⟨t, ps, ht, rfl⟩ := (writes_route route v {} d).mp hd
    refine ⟨ps, ?_, ?_, rfl, ?_⟩
    · simpa [extend, Draft.finishWith] using ht
    · simp [extend, Draft.finishWith]
    · simp [extend, Draft.finishWith]
  · intro hputs
    obtain ⟨ps, ht, hs, hh, hm⟩ := hputs
    refine ⟨_, (writes_route route v {} _).mpr ⟨u.pathname, ps, ht, rfl⟩, ?_⟩
    obtain ⟨path, search, hash, m⟩ := u
    simp only at hs hh hm
    simp [extend, Draft.finishWith, hs, hh, hm]

end UrlRoutes.Route
