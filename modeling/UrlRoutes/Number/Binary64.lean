import UrlRoutes.Number.Digits
/-!
# Doubles and decimals

Doubles are read from decimals and written as decimals in exact natural
number arithmetic. `nearestBits` rounds a quotient to the nearest double, a
tie to the even one. `shortest` is the other way round: of all decimals that
read back to a double it takes one with the fewest digits, and of those the
nearest, a tie going up. The text of a double never has an exponent.

Results:
* `roundHalfEven_nearest`: a quotient is rounded to the nearest whole number.
-/
namespace UrlRoutes.Binary64

/-! ## Reading -/

def infinityBits : Nat := 2047 <<< 52

/-- The quotient rounded to a whole number, a tie to the even one. -/
def roundHalfEven (num den : Nat) : Nat :=
  let whole := num / den
  let twice := 2 * (num % den)
  if den < twice ∨ (den = twice ∧ whole % 2 = 1) then whole + 1 else whole

/-- No whole number is nearer to the quotient, and of two that are as near it is the even one. -/
theorem roundHalfEven_nearest (num : Nat) {den : Nat} (hden : 0 < den) :
    2 * num ≤ 2 * (den * roundHalfEven num den) + den ∧ 2 * (den * roundHalfEven num den) ≤ 2 * num + den ∧
      (2 * num = 2 * (den * roundHalfEven num den) + den ∨ 2 * (den * roundHalfEven num den) = 2 * num + den →
        roundHalfEven num den % 2 = 0) := by
  have hdiv := Nat.div_add_mod num den
  have hmod := Nat.mod_lt num hden
  unfold roundHalfEven
  simp only
  split
  · rw [Nat.mul_succ]
    omega
  · omega

/-- `num / (den * 2 ^ e)` as a quotient of natural numbers. -/
def scaled (num den : Nat) (e : Int) : Nat × Nat :=
  if 0 ≤ e then (num, den <<< e.toNat) else (num <<< (-e).toNat, den)

def nearestBits (num den : Nat) : Nat :=
  if num = 0 then 0
  else
    let low : Int := max ((num.log2 : Int) - den.log2 - 53) (-1074)
    let (n, d) := scaled num den low
    let e := if 1 <<< 53 ≤ n / d then low + 1 else low
    let (n, d) := scaled num den e
    min (((e + 1074).toNat <<< 52) + roundHalfEven n d) infinityBits

example : nearestBits 1 10 = 0x3fb999999999999a := by decide +kernel

/-- The double nearest to `mantissa * 10 ^ exponent`. Exponents that decide
the answer alone are not raised to. -/
def ofDecimal (mantissa : Nat) (exponent : Int) : Float :=
  let bits :=
    if mantissa = 0 then 0
    else if 310 < exponent then infinityBits
    else if 3 * exponent + mantissa.log2 + 1077 < 0 then 0
    else if 0 ≤ exponent then nearestBits (mantissa * Nat.pow 10 exponent.toNat) 1
    else nearestBits mantissa (Nat.pow 10 (-exponent).toNat)
  Float.ofBits (UInt64.ofNat bits)

/-! ## Writing -/

/-- A positive double as `mantissa * 2 ^ exponent`. -/
structure Parts where
  mantissa : Nat
  exponent : Int
  deriving DecidableEq, Repr

/-- The parts of the double with these bits, its sign left out. -/
def Parts.ofBits (bits : Nat) : Parts :=
  let fraction : Nat := bits % (1 <<< 52)
  let field : Nat := (bits >>> 52) % (1 <<< 11)
  if field = 0 then ⟨fraction, -1074⟩ else ⟨fraction + (1 <<< 52), (field : Int) - 1075⟩

/-- The decimal `digits * 10 ^ place`. -/
structure Decimal where
  digits : Nat
  place : Int
  deriving DecidableEq, Repr

/-- A multiple of `10 ^ place` that reads back to the double, if there is one.
The doubles' neighbours are half a step away, a quarter below a power of two;
the ends read back when the mantissa is even. -/
def Parts.atPlace? (x : Parts) (place : Int) : Option Decimal :=
  let ten := if 0 ≤ place then 1 else Nat.pow 10 (-place).toNat
  let two := if 2 ≤ x.exponent then 1 <<< (x.exponent - 2).toNat else 1
  let unit := (if 0 ≤ place then Nat.pow 10 place.toNat else 1)
    * (if 2 ≤ x.exponent then 1 else 1 <<< (2 - x.exponent).toNat)
  let value := 4 * x.mantissa * ten * two
  let below := (if x.mantissa = 1 <<< 52 then 1 else 2) * ten * two
  let above := 2 * ten * two
  let even := x.mantissa % 2 = 0
  let k := value / unit
  let gap := value % unit
  let rest := unit - gap
  let down := 0 < k ∧ (gap < below ∨ (even ∧ gap = below))
  let up := rest < above ∨ (even ∧ rest = above)
  if down ∧ (¬ up ∨ 2 * gap < unit) then some ⟨k, place⟩
  else if up then some ⟨k + 1, place⟩
  else none

/-- The shortest decimal that reads back to the double. -/
def Parts.shortest (x : Parts) : Decimal :=
  let top := (x.mantissa.log2 + x.exponent + 1) * 30103 / 100000 + 1
  ((List.range 20).findSome? fun (i : Nat) => x.atPlace? (top - i)).getD ⟨0, 0⟩

def Decimal.text (d : Decimal) : String :=
  let digits := Nat.toDigits 10 d.digits
  let point := (-d.place).toNat
  String.ofList <|
    if 0 ≤ d.place then digits ++ List.replicate d.place.toNat '0'
    else if point < digits.length then
      digits.take (digits.length - point) ++ '.' :: digits.drop (digits.length - point)
    else '0' :: '.' :: List.replicate (point - digits.length) '0' ++ digits

/-- Text of the double with these bits, its sign left out. -/
def magnitudeText (bits : Nat) : String :=
  let x := Parts.ofBits bits
  if x.mantissa = 0 then "0" else x.shortest.text

/-- Text of a double: the shortest digits that read back, without an exponent
and without a point when it is whole. -/
def text (x : Float) : String :=
  let bits := x.toBits.toNat
  let magnitude := bits % (1 <<< 63)
  if infinityBits < magnitude then "NaN"
  else
    let sign := if bits = magnitude then "" else "-"
    sign ++ if magnitude = infinityBits then "inf" else magnitudeText magnitude

example : magnitudeText 0x3fb999999999999a = "0.1" := by decide +kernel

end UrlRoutes.Binary64
