import UrlRoutes.Text.Quoted
/-!
# Options of a route definition

A definition may ask for a request method, for a slash that may be left at
the end, and for a match at the very start of the path. A method is a
non-empty word of ASCII letters.

Results:
* `checkMethod_ok_iff`: which methods pass.
-/
namespace UrlRoutes

structure Options where
  method : Option String := none
  /-- Whether one slash may be left after the last segment. -/
  trailingSlash : Bool := true
  /-- Whether the match starts at the first character of the path. -/
  anchored : Bool := true
  deriving DecidableEq, Repr

inductive OptionsError where
  | emptyMethod
  | invalidMethodCharacter (method : String) (c : Char)
  deriving DecidableEq, Repr

def OptionsError.message : OptionsError → String
  | emptyMethod => "method must not be empty"
  | invalidMethodCharacter method c =>
    "method '" ++ method ++ "' contains invalid character " ++ Text.quotedChar c

namespace Options

/-- Checks a method. The first character that is no letter is at fault. -/
def checkMethod (method : String) : Except OptionsError Unit :=
  if method = "" then .error .emptyMethod
  else
    match method.toList.find? fun c => !c.isAlpha with
    | some c => .error (.invalidMethodCharacter method c)
    | none => .ok ()

def check (options : Options) : Except OptionsError Unit :=
  match options.method with
  | some method => checkMethod method
  | none => .ok ()

def checked (options : Options) : Except OptionsError Options := do
  options.check
  return options

theorem checkMethod_ok_iff {method : String} :
    checkMethod method = .ok () ↔ method ≠ "" ∧ ∀ c ∈ method.toList, c.isAlpha = true := by
  unfold checkMethod
  split
  · next h => simp [h]
  · next h =>
    split
    · next c hc =>
      have h1 := List.find?_some hc
      have h2 := List.mem_of_find?_eq_some hc
      simp only [reduceCtorEq, false_iff, not_and, Classical.not_forall]
      intro _
      exact ⟨c, h2, by simpa using h1⟩
    · next hc =>
      rw [List.find?_eq_none] at hc
      simp only [true_iff]
      exact ⟨h, fun c hm => by simpa using hc c hm⟩

end Options
end UrlRoutes
