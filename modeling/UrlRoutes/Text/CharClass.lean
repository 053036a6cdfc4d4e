/-!
# Character classes

The classes a path is written in. All of them hold ASCII characters only, so
a letter such as `é` belongs to none. Lower-casing, upper-casing and the
comparison that ignores case are ASCII too and leave every other character
as it is.

Results:
* `toList_lowered`, `toList_raised`: both case maps act character by character.
* `raised_raised`: capitals stay capitals.
* `lowered_raised`: a text has the lower-case form of its capitals.
* `sameIgnoringCase_iff`, `sameIgnoringCase_comm`: two texts agree ignoring
  case exactly when they have one lower-case form.
-/
namespace UrlRoutes

inductive CharClass where
  | upper
  | lower
  | alpha
  | digit
  | alphaNum
  /-- A letter, a digit or an underscore. -/
  | identifier
  /-- A base-sixteen digit in either case. -/
  | hexDigit
  /-- Space, tab, line feed, form feed and carriage return. -/
  | whitespace
  deriving DecidableEq, Repr

namespace CharClass

def holds : CharClass → Char → Bool
  | upper, c => c.isUpper
  | lower, c => c.isLower
  | alpha, c => c.isAlpha
  | digit, c => c.isDigit
  | alphaNum, c => c.isAlphanum
  | identifier, c => c.isAlphanum || c == '_'
  | hexDigit, c => c.isDigit || ('a' ≤ c && c ≤ 'f') || ('A' ≤ c && c ≤ 'F')
  | whitespace, c => c == ' ' || c == '\t' || c == '\n' || c == '\x0c' || c == '\r'

end CharClass

namespace Text

/-- The ASCII capitals made small. -/
def lowered (s : String) : String := String.ofList (s.toList.map Char.toLower)

/-- The small ASCII letters made capital. -/
def raised (s : String) : String := String.ofList (s.toList.map Char.toUpper)

/-- Equal up to the case of ASCII letters. -/
def sameIgnoringCase (s t : String) : Bool := lowered s == lowered t

@[simp] theorem toList_lowered (s : String) : (lowered s).toList = s.toList.map Char.toLower := by
  simp [lowered]

@[simp] theorem toList_raised (s : String) : (raised s).toList = s.toList.map Char.toUpper := by
  simp [raised]

theorem toUpper_of_not_lower {c : Char} (h : ¬ ('a'.val ≤ c.val ∧ c.val ≤ 'z'.val)) :
    c.toUpper = c := by
  unfold Char.toUpper; exact dif_neg h

theorem toUpper_toUpper (c : Char) : c.toUpper.toUpper = c.toUpper := by
  by_cases h : 'a'.val ≤ c.val ∧ c.val ≤ 'z'.val
  · have h1 : c.toUpper.val = c.val + ('A'.val - 'a'.val) := by
      unfold Char.toUpper; rw [dif_pos h]
    apply toUpper_of_not_lower
    rw [h1]
    simp only [UInt32.le_iff_toNat_le, UInt32.toNat_add] at h ⊢
    have e1 : 'a'.val.toNat = 97 := rfl
    have e2 : 'z'.val.toNat = 122 := rfl
    have e3 : ('A'.val - 'a'.val).toNat = 2 ^ 32 - 32 := by decide
    omega
  · rw [toUpper_of_not_lower h, toUpper_of_not_lower h]

theorem raised_raised (s : String) : raised (raised s) = raised s := by
  have h : Char.toUpper ∘ Char.toUpper = Char.toUpper := funext toUpper_toUpper
  simp [raised, h]

/-- Case maps touch ASCII letters only. -/
theorem toLower_of_high {c : Char} (h : 128 ≤ c.toNat) : c.toLower = c := by
  unfold Char.toLower
  apply dif_neg
  intro hc
  have hz : c.toNat ≤ 90 := UInt32.le_iff_toNat_le.mp hc.2
  omega

theorem toUpper_of_high {c : Char} (h : 128 ≤ c.toNat) : c.toUpper = c := by
  apply toUpper_of_not_lower
  intro hc
  have hz : c.toNat ≤ 122 := UInt32.le_iff_toNat_le.mp hc.2
  omega

theorem toLower_toUpper (c : Char) : c.toUpper.toLower = c.toLower := by
  by_cases hc : c.toNat < 128
  · have hascii : ∀ n, n < 128 → (Char.ofNat n).toUpper.toLower = (Char.ofNat n).toLower := by decide
    rw [← Char.ofNat_toNat c]
    exact hascii c.toNat hc
  · rw [toUpper_of_high (Nat.le_of_not_lt hc)]

theorem isAlpha_toLower (c : Char) : c.toLower.isAlpha = c.isAlpha := by
  by_cases hc : c.toNat < 128
  · have hascii : ∀ n, n < 128 → (Char.ofNat n).toLower.isAlpha = (Char.ofNat n).isAlpha := by decide
    rw [← Char.ofNat_toNat c]
    exact hascii c.toNat hc
  · rw [toLower_of_high (Nat.le_of_not_lt hc)]

theorem lowered_raised (s : String) : lowered (raised s) = lowered s := by
  have h : Char.toLower ∘ Char.toUpper = Char.toLower := funext toLower_toUpper
  simp [lowered, h]

theorem sameIgnoringCase_iff {s t : String} : sameIgnoringCase s t = true ↔ lowered s = lowered t := by
  simp [sameIgnoringCase]

theorem sameIgnoringCase_comm (s t : String) : sameIgnoringCase s t = sameIgnoringCase t s := by
  simp only [sameIgnoringCase, Bool.beq_comm]

theorem sameIgnoringCase_raised (s t : String) : sameIgnoringCase s (raised t) = sameIgnoringCase s t := by
  rw [sameIgnoringCase, lowered_raised, sameIgnoringCase]

end Text
end UrlRoutes
