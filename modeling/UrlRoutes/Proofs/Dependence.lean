import UrlRoutes.Proofs.Steps
import UrlRoutes.Route.Request
/-!
# What a route looks at

Two states agree on some keys when they are at the same place of the same
text, inside the same constructs, with methods that differ at most in case
and the same query parameters under these keys. A parser looks at the keys
only when it does the same from any two states that agree on them: the same
value and the same move of the cursor, or the same dead ends. So does every
route with the keys of its own query parameters; headers, other parameters
and the spelling of the method never show, not even in a failure.

Results:
* `Agrees.past`, `Agrees.enter`, `Agrees.withSource`: agreement lasts as a parse goes on.
* `looksAt_route`: a route looks at the keys of its query parameters only.
* `parse_eq_of_agree`: the same about requests.
-/
namespace UrlRoutes

/-- The keys of the query parameters of a route, at any depth. -/
def Route.queryKeys : Route → List String
  | .query key inner => key :: inner.queryKeys
  | .capture _ inner => inner.queryKeys
  | .both left right => left.queryKeys ++ right.queryKeys
  | .last left right => left.queryKeys ++ right.queryKeys
  | _ => []

/-! ## States that agree -/

namespace State
variable {κ : Type} {keys : List String} {s t : State κ}

/-- The same place, the same method up to case, and the same parameters under `keys`. -/
structure Agrees (keys : List String) (s t : State κ) : Prop where
  source : t.source = s.source
  position : t.position = s.position
  trail : t.trail = s.trail
  method : t.method.map Text.lowered = s.method.map Text.lowered
  params : ∀ key ∈ keys, t.param? key = s.param? key

theorem Agrees.mono {keys' : List String} (h : s.Agrees keys t) (hk : keys' ⊆ keys) : s.Agrees keys' t :=
  ⟨h.source, h.position, h.trail, h.method, fun key hkey => h.params key (hk hkey)⟩

theorem Agrees.advance (h : s.Agrees keys t) (p : Position) : (s.advance p).Agrees keys (t.advance p) :=
  ⟨h.source, rfl, h.trail, h.method, h.params⟩

theorem Agrees.past (h : s.Agrees keys t) (cs : List Char) :
    (s.past cs).Agrees keys (t.advance (s.past cs).position) :=
  h.advance _

theorem Agrees.enter (h : s.Agrees keys t) (label : κ) : (s.enter label).Agrees keys (t.enter label) := by
  refine ⟨h.source, h.position, ?_, h.method, h.params⟩
  simp only [State.enter, h.trail, h.position]

theorem Agrees.withSource (h : s.Agrees keys t) (source : String) :
    (s.withSource source).Agrees keys (t.withSource source) :=
  ⟨rfl, rfl, h.trail, h.method, h.params⟩

theorem Agrees.offset_eq (h : s.Agrees keys t) : t.offset = s.offset := by
  simp only [State.offset, h.position]

theorem Agrees.rest_eq (h : s.Agrees keys t) : t.rest = s.rest := by
  simp only [State.rest, h.position, h.source]

theorem Agrees.isAtEnd_eq (h : s.Agrees keys t) : t.isAtEnd = s.isAtEnd := by
  simp only [State.isAtEnd, h.source, h.offset_eq]

theorem Agrees.moveToEnd_eq (h : s.Agrees keys t) : t.moveToEnd.position = s.moveToEnd.position := by
  simp only [State.moveToEnd, State.advance, h.position, h.source]

theorem Agrees.advance_self (h : s.Agrees keys t) : t.advance s.position = t := by
  simp only [State.advance, ← h.position]

theorem Agrees.failAt_eq {χ : Type} (h : s.Agrees keys t) (line column : Nat) (problem : χ) :
    t.failAt line column problem = s.failAt line column problem := by
  simp only [State.failAt, h.trail]

theorem Agrees.fail_eq {χ : Type} (h : s.Agrees keys t) (problem : χ) : t.fail problem = s.fail problem := by
  simp only [State.fail, h.position, h.trail]

end State

/-- A result carried over to the state `t`: a success moves the cursor of `t`. -/
def Result.onto {κ χ α : Type} (t : State κ) : Result κ χ α → Result κ χ α
  | .good progress value next => .good progress value (t.advance next.position)
  | .bad progress problems => .bad progress problems

/-! ## Combinators -/

namespace Parser
variable {κ χ α β γ : Type} {keys : List String}

/-- Does the same from every two states that agree on `keys`. -/
def LooksAt (p : Parser κ χ α) (keys : List String) : Prop :=
  ∀ s t : State κ, s.Agrees keys t → p t = (p s).onto t

theorem LooksAt.mono {p : Parser κ χ α} {keys' : List String} (h : LooksAt p keys) (hk : keys ⊆ keys') :
    LooksAt p keys' :=
  fun s t hst => h s t (hst.mono hk)

theorem looksAt_map {p : Parser κ χ α} (hp : LooksAt p keys) (f : α → β) : LooksAt (map f p) keys := by
  intro s t h
  unfold map
  rw [hp s t h]
  cases p s <;> rfl

theorem looksAt_join {p : Parser κ χ α} {q : Parser κ χ β} (hw : Walks p) (hp : LooksAt p keys)
    (hq : LooksAt q keys) (f : α → β → γ) : LooksAt (join f p q) keys := by
  intro s t h
  unfold join
  rw [hp s t h]
  cases hr : p s with
  | bad g ds => rfl
  | good g a m =>
    -- the second part starts from states that agree again
    obtain ⟨cs, ⟨-, rfl⟩, -⟩ := hw s g a m hr
    simp only [Result.onto]
    rw [hq _ _ (h.past cs)]
    cases q (s.past cs) <;> rfl

theorem looksAt_within {p : Parser κ χ α} (hp : LooksAt p keys) (label : κ) :
    LooksAt (within label p) keys := by
  intro s t h
  unfold within
  rw [hp _ _ (h.enter label)]
  cases p (s.enter label) <;> rfl

/-! ## Leaves -/

theorem onto_arrive {s t : State κ} (h : s.Agrees keys t) (value : α) (p : Position) :
    (arrive s value p : Result κ χ α).onto t = arrive t value p := by
  simp only [arrive, Result.onto, h.offset_eq]
  rfl

theorem looksAt_token (literal : String) (expecting : χ) :
    LooksAt (token literal expecting : Parser κ χ Unit) keys := by
  intro s t h
  unfold token
  rw [h.source, h.position, h.fail_eq]
  split
  · exact (onto_arrive h () _).symm
  · rfl

theorem looksAt_finishIf (allowSlash : Bool) (value : α) (expecting : χ) :
    LooksAt (finishIf allowSlash value expecting : Parser κ χ α) keys := by
  intro s t h
  unfold finishIf State.isFinished
  rw [h.rest_eq, h.moveToEnd_eq, h.fail_eq]
  split
  · exact (onto_arrive h value _).symm
  · rfl

theorem looksAt_skipUntil (literal : String) (expecting : χ) :
    LooksAt (skipUntil literal expecting : Parser κ χ Unit) keys := by
  intro s t h
  unfold skipUntil
  rw [h.source, h.position]
  split
  · exact (onto_arrive h () _).symm
  · rw [h.failAt_eq]
    rfl

theorem looksAt_number (policy : NumberPolicy χ α) : LooksAt (number policy : Parser κ χ α) keys := by
  intro s t h
  unfold number
  rw [h.rest_eq, h.position]
  split
  · rw [h.fail_eq]
    rfl
  · rw [h.failAt_eq]
    rfl
  · split
    · rfl
    · rw [h.fail_eq]
      rfl

end Parser

/-! ## Routes -/

namespace Route
open UrlRoutes.Parser
variable {keys : List String}

theorem looksAt_readStart : LooksAt readStart keys := by
  intro s t h
  unfold readStart
  rw [h.offset_eq, h.fail_eq]
  split
  · simp only [Result.onto, h.advance_self]
  · rfl

/-- The comparison with a guard ignores the case the methods may differ in. -/
theorem looksAt_readMethod (expected : String) : LooksAt (readMethod expected) keys := by
  intro s t h
  have hany : ∀ m : Option String, m.any (Text.sameIgnoringCase · expected) =
      (m.map Text.lowered).any (· == Text.lowered expected) := by
    intro m
    cases m <;> rfl
  unfold readMethod
  rw [hany, h.method, ← hany, h.fail_eq]
  split
  · simp only [Result.onto, h.advance_self]
  · rfl

theorem looksAt_readUpTo (delimiter : String) : LooksAt (readUpTo delimiter) keys := by
  intro s t h
  unfold readUpTo
  rw [looksAt_skipUntil delimiter _ s t h]
  cases hr : skipUntil delimiter (Problem.expectingLiteral delimiter) s with
  | bad g ds => rfl
  | good g u m =>
    obtain ⟨cs, ⟨-, rfl⟩, -⟩ := walks_skipUntil delimiter _ s g u m hr
    have hslice : t.sliceTo (t.advance (s.past cs).position) = s.sliceTo (s.past cs) := by
      simp only [State.sliceTo, State.offset, State.past, State.advance, h.source, h.position]
    have hoffset : (t.advance (s.past cs).position).offset = (s.past cs).offset := rfl
    simp only [Result.onto, hslice, hoffset, h.offset_eq, h.fail_eq]
    split <;> rfl

theorem looksAt_readBefore (boundary : Boundary) : LooksAt (readBefore boundary) keys := by
  intro s t h
  unfold readBefore
  rw [h.rest_eq, h.moveToEnd_eq, h.position, h.source, h.offset_eq, h.fail_eq]
  split
  · simp only [h.failAt_eq, Result.onto]
  · rfl
  · rfl

theorem looksAt_readRest (allowEmpty : Bool) : LooksAt (readRest allowEmpty) keys := by
  intro s t h
  unfold readRest State.remaining
  rw [h.rest_eq, h.moveToEnd_eq, h.fail_eq]
  split
  · rfl
  · exact (onto_arrive h _ _).symm

theorem looksAt_readChoice (options : List String) : LooksAt (readChoice options) keys := by
  intro s t h
  unfold readChoice
  rw [h.source, h.position, h.fail_eq]
  split
  · exact (onto_arrive h _ _).symm
  · rfl

/-- A parameter the states agree on is read from one text in both. -/
theorem looksAt_readQuery {key : String} {inner : Reader} (hw : Walks inner) (hi : LooksAt inner keys)
    (hk : key ∈ keys) : LooksAt (readQuery key inner) keys := by
  intro s t h
  unfold readQuery
  rw [h.params key hk, h.fail_eq]
  cases s.param? key with
  | none => rfl
  | some raw =>
    have hinner := (h.enter (.query key)).withSource raw
    simp only
    rw [hi _ _ hinner]
    cases hr : inner ((s.enter (.query key)).withSource raw) with
    | bad g ds => rfl
    | good g value after =>
      obtain ⟨cs, ⟨-, rfl⟩, -⟩ := hw _ _ _ _ hr
      have hpast := hinner.past cs
      simp only [Result.onto, hpast.isAtEnd_eq, hpast.fail_eq]
      cases (((s.enter (.query key)).withSource raw).past cs).isAtEnd with
      | true => simp only [if_true, h.advance_self]
      | false => rfl

/-- A route does the same from states that agree on the keys of its query parameters. -/
theorem looksAt_route (route : Route) : LooksAt route.parser route.queryKeys := by
  induction route with
  | start => exact looksAt_readStart
  | finish allowSlash => exact looksAt_finishIf allowSlash _ _
  | literal text => exact looksAt_map (looksAt_token text _) _
  | upTo delimiter => exact looksAt_readUpTo delimiter
  | before boundary => exact looksAt_readBefore boundary
  | rest allowEmpty => exact looksAt_readRest allowEmpty
  | capture key inner ih => exact looksAt_map (looksAt_within ih _) _
  | number policy style => exact looksAt_number policy
  | method expected => exact looksAt_readMethod expected
  | both left right ihl ihr =>
    exact looksAt_join (walks_route left) (ihl.mono (List.subset_append_left _ _))
      (ihr.mono (List.subset_append_right _ _)) _
  | last left right ihl ihr =>
    exact looksAt_join (walks_route left) (ihl.mono (List.subset_append_left _ _))
      (ihr.mono (List.subset_append_right _ _)) _
  | choice options => exact looksAt_readChoice options
  | query key inner ih =>
    exact looksAt_readQuery (walks_route inner) (ih.mono (List.subset_cons_self _ _)) List.mem_cons_self

/-- Requests with one pathname, methods equal up to case, and the same
parameters under the keys of a route are the same to it. -/
theorem parse_eq_of_agree {route : Route} {a b : Request} (hpath : a.parts.pathname = b.parts.pathname)
    (hmethod : a.method.map Text.lowered = b.method.map Text.lowered)
    (hquery : ∀ key ∈ route.queryKeys,
      (Query.read a.parts.search).get? key = (Query.read b.parts.search).get? key) :
    route.parse a = route.parse b := by
  have hagree : a.state.Agrees route.queryKeys b.state :=
    ⟨hpath.symm, rfl, rfl, hmethod.symm, fun key hk => (hquery key hk).symm⟩
  unfold parse runOn
  rw [looksAt_route route a.state b.state hagree]
  cases route.parser a.state <;> rfl

/-- An absolute URL with a fragment, a header and one more parameter, against a bare path. -/
theorem parse_eq_of_agree_absolute :
    let route := Route.both (.method "GET") (.both (.literal "/") (.query "a" (.query "b" .int)))
    let a : Request :=
      { url := "http://host?b=7&z=1&a#top", method := some "get", headers := .single "accept" "*" }
    let b : Request := { url := "/?a=&b=%37", method := some "GeT" }
    a.parts.pathname = b.parts.pathname ∧
      a.method.map Text.lowered = b.method.map Text.lowered ∧
      (∀ key ∈ route.queryKeys,
        (Query.read a.parts.search).get? key = (Query.read b.parts.search).get? key) ∧
      route.parse a = route.parse b := by
  have ha : Query.read "?b=7&z=1&a" = ⟨[("a", ""), ("b", "7"), ("z", "1")]⟩ := by rfl
  have hb : Query.read "?a=&b=%37" = ⟨[("a", ""), ("b", "7")]⟩ := by rfl
  have hmethod : (some "get").map Text.lowered = (some "GeT").map Text.lowered := by decide
  have hquery : ∀ key ∈ (Route.both (.method "GET")
        (.both (.literal "/") (.query "a" (.query "b" .int)))).queryKeys,
      (Query.read "?b=7&z=1&a").get? key = (Query.read "?a=&b=%37").get? key := by
    rw [ha, hb]
    decide
  exact ⟨rfl, hmethod, hquery, parse_eq_of_agree rfl hmethod hquery⟩

end Route
end UrlRoutes
