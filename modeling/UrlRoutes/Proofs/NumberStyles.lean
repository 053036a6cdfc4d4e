import UrlRoutes.Proofs.Integers
import UrlRoutes.Proofs.TextGuards
/-!
# Integers read and written

Every style of integers has a route that captures what the style writes. Such
a route reads an integer wherever a literal of it stands and the text behind
does not go on with it. There are more literals than the one that is written:
behind the lead of a base zeros may stand in front, and the digits may be
large or small. A decimal integer is read only as it is written.

Results:
* `isInteger_iff`: the literals of an integer in a style.
* `takes_route_iff`: what the route of a style reads.
* `route_reads_integers`: an integer is read back exactly if the text ends it,
  and what was read is written up to zeros and letter case.
-/
namespace UrlRoutes
open Number Text

namespace NumberStyle

variable {style : NumberStyle} {n : Nat}

/-- The route that captures what is written in a style. -/
def route : NumberStyle → Route
  | decimal => .int
  | float => .float
  | hex => .hex
  | octal => .octal
  | binary => .binary

def radix? : NumberStyle → Option Radix
  | decimal | float => none
  | hex => some ⟨'x', 16, .hex⟩
  | octal => some ⟨'o', 8, .octal⟩
  | binary => some ⟨'b', 2, .binary⟩

def form (style : NumberStyle) : Nat → Literal := (style.radix?.map Radix.form).getD .int

/-- `cs` does not go on with the literal of `n`. -/
def Ends (style : NumberStyle) (n : Nat) (cs : List Char) : Prop :=
  match style.radix? with
  | some x => ∀ c ∈ cs.head?, isDigitIn x.base c = false
  | none => Stops n cs

/-- `t` is the literal `w`, but behind a lead it may have zeros in front and large letters. -/
def Spells (style : NumberStyle) (t w : List Char) : Prop :=
  match style.radix? with
  | some x => ∃ k ds, t = '0' :: x.letter :: (List.replicate k '0' ++ ds) ∧
      w = '0' :: x.letter :: ds.map Char.toLower
  | none => t = w

/-! ## Literals of a style -/

theorem mem_of_radix? {x : Radix} (h : style.radix? = some x) : x ∈ radixes := by
  cases style <;> cases h <;> simp [radixes]

theorem toList_literal_radix {x : Radix} (h : style.radix? = some x) (n : Nat) :
    (style.literal n).toList = '0' :: x.letter :: Nat.toDigits x.base n := by
  cases style <;> cases h <;> simp [literal, text]

theorem toList_literal_decimal (h : style.radix? = none) (n : Nat) :
    (style.literal n).toList = Nat.toDigits 10 n := by
  cases style <;> cases h <;> simp [literal, text]

theorem form_ne_float (style : NumberStyle) (n : Nat) (x : Float) : style.form n ≠ .float x := by
  cases style <;> simp [form, radix?]

theorem spells_literal (style : NumberStyle) (n : Nat) :
    style.Spells (style.literal n).toList (style.literal n).toList := by
  unfold Spells
  cases h : style.radix? with
  | none => rfl
  | some x =>
    obtain ⟨h1, h2⟩ := base_of_mem_radixes (mem_of_radix? h)
    rw [toList_literal_radix h]
    refine ⟨0, Nat.toDigits x.base n, rfl, ?_⟩
    rw [map_toLower_toDigits h1 h2]

/-- The literals of an integer are its digits, behind a lead with zeros in front and in either case. -/
theorem isInteger_iff {t r : List Char} : IsInteger (style.form n) t r ↔
    style.Spells t (style.literal n).toList ∧ n ≤ maxInt ∧ style.Ends n r := by
  unfold form Spells Ends
  cases h : style.radix? with
  | none =>
    rw [toList_literal_decimal h]
    exact isInteger_int_iff
  | some x =>
    rw [toList_literal_radix h]
    simp only [Option.map_some, Option.getD_some, List.cons.injEq, true_and, eq_comm (b := List.map _ _)]
    exact Number.isInteger_form_iff (mem_of_radix? h)

/-! ## Routes of a style -/

/-- The policy of a style's route accepts the integers of that style only. -/
theorem route_eq_number (hstyle : style ≠ .float) : ∃ policy, style.route = .number policy style ∧
    ∀ l v, policy.accept l = .ok v ↔ ∃ n : Nat, l = style.form n ∧ v = .int n := by
  cases style with
  | float => exact absurd rfl hstyle
  | decimal | hex | octal | binary =>
    refine ⟨_, rfl, fun l v => ?_⟩
    cases l <;> simp [NumberPolicy.accept, NumberPolicy.map, NumberPolicy.ints, NumberPolicy.rejecting, form, radix?,
      Except.map, eq_comm]

/-- The route of a style captures the integers of that style. -/
theorem takes_route_iff (hstyle : style ≠ .float) {c : Setting} {t r : String} {v : Value} :
    style.route.Takes c t r v ↔ ∃ n : Nat, v = .int n ∧ IsInteger (style.form n) t.toList r.toList := by
  obtain ⟨policy, hroute, haccept⟩ := route_eq_number hstyle
  rw [hroute, Route.Takes, String.toList_append]
  simp only [haccept]
  refine ⟨fun h => ?_, fun h => ?_⟩
  · obtain ⟨l, hscan, n, rfl, rfl⟩ := h
    exact ⟨n, rfl, (scan_append_eq_found_iff (form_ne_float style n)).mp hscan⟩
  · obtain ⟨n, rfl, hinteger⟩ := h
    exact ⟨style.form n, scan_of_isInteger hinteger, n, rfl, rfl⟩

theorem render_literal (style : NumberStyle) {n : Nat} (hmax : n ≤ maxInt) :
    style.render (.int n) = .ok (style.literal n) := by
  rw [render, if_pos ⟨Int.natCast_nonneg n, Int.ofNat_le.mpr hmax⟩]
  rfl

/-- What a style writes of an integer is read back in front of a text exactly
if the text does not go on with it. What is read as an integer is what is
written of it, up to zeros behind the lead and letter case. -/
theorem route_reads_integers (hstyle : style ≠ .float) (s : State Label) :
    (∀ n : Nat, n ≤ maxInt → ∀ r : String, ∃ t, style.render (.int n) = .ok t ∧
      ((∃ g s', style.route.parser (s.withSource (t ++ r)) = .good g (.int n) s' ∧ s'.At r.toList) ↔
        style.Ends n r.toList)) ∧
    (∀ (n : Int) g s', style.route.parser s = .good g (.int n) s' →
      ∃ t r w, s.rest = t ++ r ∧ s' = s.past t ∧ style.render (.int n) = .ok w ∧ style.Spells t w.toList) := by
  refine ⟨fun n hmax r => ⟨style.literal n, render_literal style hmax, ?_⟩, fun n g s' hgood => ?_⟩
  · rw [Route.parser_leaves_iff, takes_route_iff hstyle]
    refine ⟨fun h => ?_, fun hends => ?_⟩
    · obtain ⟨m, hm, hinteger⟩ := h
      obtain rfl : n = m := Int.ofNat_inj.mp (Value.int.inj hm)
      exact (isInteger_iff.mp hinteger).2.2
    · exact ⟨n, rfl, isInteger_iff.mpr ⟨spells_literal style n, hmax, hends⟩⟩
  · obtain ⟨policy, hroute, haccept⟩ := route_eq_number hstyle
    rw [hroute] at hgood
    obtain ⟨-, l, length, hscan, hvalue, rfl⟩ := Parser.number_eq_good_iff.mp hgood
    obtain ⟨m, rfl, hm⟩ := (haccept l _).mp hvalue
    obtain rfl := Value.int.inj hm
    obtain ⟨t, r, hrest, rfl, hinteger⟩ := (scan_eq_integer_iff (form_ne_float style m)).mp hscan
    obtain ⟨hspells, hmax, -⟩ := isInteger_iff.mp hinteger
    rw [hrest] at hscan
    refine ⟨t, r, style.literal m, hrest, ?_, render_literal style hmax, hspells⟩
    rw [State.past, past_of_scan hscan]

/-- Zeros and a large letter behind the lead, and a slash that ends the digits. -/
theorem route_reads_integers_hex :
    hex.Ends 255 ['/'] ∧
    (∃ t, hex.render (.int 255) = .ok t ∧ ∃ g s',
      hex.route.parser (({ source := "0x00Ff/" } : State Label).withSource (t ++ "/")) = .good g (.int 255) s' ∧
        s'.At ['/']) ∧
    hex.route.parser { source := "0x00Ff/" } =
      .good true (.int 255) { source := "0x00Ff/", position := ⟨6, 1, 7⟩ } ∧
    ∃ t r w, "0x00Ff/".toList = t ++ r ∧ hex.render (.int 255) = .ok w ∧ hex.Spells t w.toList := by
  have hread : hex.route.parser { source := "0x00Ff/" } =
      .good true (.int 255) { source := "0x00Ff/", position := ⟨6, 1, 7⟩ } := rfl
  have hends : hex.Ends 255 ['/'] := by
    intro c hc
    cases hc
    decide
  obtain ⟨hback, hwritten⟩ := @route_reads_integers .hex (by decide) { source := "0x00Ff/" }
  obtain ⟨t, hrender, hiff⟩ := hback 255 (by decide) "/"
  obtain ⟨u, r, w, hrest, -, hrender', hspells⟩ := hwritten 255 _ _ hread
  exact ⟨hends, ⟨t, hrender, hiff.mpr hends⟩, hread, u, r, w, hrest, hrender', hspells⟩

end NumberStyle
end UrlRoutes
