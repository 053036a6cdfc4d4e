/-!
# Digits

Reading and writing natural numbers in a base up to sixteen. Digits above
nine are read in either case and written small. The integers of the library
fit in 64 signed bits, so a literal is never above `maxInt`.

Results:
* `digitValue?_digitChar`: a written digit reads back.
* `ofDigits_concat`: reading goes from the most significant digit.
* `ofDigits_toDigits`, `toDigits_all`: a written number reads back, and holds
  digits of its base only.
-/
namespace UrlRoutes.Number

/-- The largest integer a literal may denote. -/
def maxInt : Nat := (1 <<< 63) - 1

def digitValue? (c : Char) : Option Nat :=
  if '0' ≤ c ∧ c ≤ '9' then some (c.toNat - '0'.toNat)
  else if 'a' ≤ c ∧ c ≤ 'f' then some (c.toNat - 'a'.toNat + 10)
  else if 'A' ≤ c ∧ c ≤ 'F' then some (c.toNat - 'A'.toNat + 10)
  else none

def isDigitIn (base : Nat) (c : Char) : Bool := (digitValue? c).any (· < base)

def ofDigits (base : Nat) (cs : List Char) : Nat :=
  cs.foldl (fun n c => n * base + (digitValue? c).getD 0) 0

def text (base n : Nat) : String := String.ofList (Nat.toDigits base n)

def intText : Int → String
  | .ofNat n => text 10 n
  | .negSucc n => "-" ++ text 10 (n + 1)

/-! ## Reading back -/

theorem digitValue?_digitChar : ∀ d, d < 16 → digitValue? (Nat.digitChar d) = some d := by decide

@[simp] theorem ofDigits_nil (base : Nat) : ofDigits base [] = 0 := rfl

theorem ofDigits_concat (base : Nat) (cs : List Char) (c : Char) :
    ofDigits base (cs ++ [c]) = ofDigits base cs * base + ofDigits base [c] := by
  unfold ofDigits
  rw [List.foldl_append, List.foldl_cons, List.foldl_nil, List.foldl_cons, List.foldl_nil, Nat.zero_mul,
    Nat.zero_add]

theorem ofDigits_singleton (base : Nat) {d : Nat} (h : d < 16) :
    ofDigits base [Nat.digitChar d] = d := by
  simp [ofDigits, digitValue?_digitChar d h]

theorem ofDigits_toDigits {base : Nat} (h1 : 1 < base) (h2 : base ≤ 16) (n : Nat) :
    ofDigits base (Nat.toDigits base n) = n := by
  induction n using Nat.strongRecOn with
  | ind n ih =>
    by_cases h : n < base
    · rw [Nat.toDigits_of_lt_base h, ofDigits_singleton base (by omega)]
    · have hd : n / base < n := Nat.div_lt_self (by omega) h1
      have hm : n % base < base := Nat.mod_lt _ (by omega)
      rw [Nat.toDigits_of_base_le h1 (by omega), ofDigits_concat, ih _ hd,
        ofDigits_singleton base (by omega)]
      simp [Nat.div_add_mod']

theorem toDigits_all {base : Nat} (h1 : 1 < base) (h2 : base ≤ 16) (n : Nat) :
    ∀ c ∈ Nat.toDigits base n, isDigitIn base c = true := by
  have one : ∀ d, d < base → isDigitIn base (Nat.digitChar d) = true := by
    intro d hd
    simp [isDigitIn, digitValue?_digitChar d (by omega), hd]
  induction n using Nat.strongRecOn with
  | ind n ih =>
    by_cases h : n < base
    · rw [Nat.toDigits_of_lt_base h]; simpa using one n h
    · rw [Nat.toDigits_of_base_le h1 (by omega)]
      intro c hc
      simp only [List.mem_append, List.mem_singleton] at hc
      rcases hc with hc | rfl
      · exact ih _ (Nat.div_lt_self (by omega) h1) c hc
      · exact one _ (Nat.mod_lt _ (by omega))

end UrlRoutes.Number
