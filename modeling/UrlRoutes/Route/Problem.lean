import UrlRoutes.Parser.Basic
import UrlRoutes.Number.Digits
/-!
# Problems of routes

Why a route did not match at a place, what it was in the middle of, and the
text of both. A mismatch collects the dead ends of a route, or of every route
of a table.
-/
namespace UrlRoutes
open Number

/-- Why a route did not match at a place. -/
inductive Problem where
  | expectingLiteral (literal : String)
  | expectingInt
  | expectingFloat
  | expectingHex
  | expectingOctal
  | expectingBinary
  | expectingEnd
  | expectingStart
  | expectingMethod (method : String)
  /-- A text capture had nothing to capture. -/
  | expectingValue
  | expectingVariant (options : List String)
  | expectingQueryParam (key : String)
  /-- A number literal is broken. -/
  | invalid
  deriving DecidableEq, Repr

def optionList (options : List String) : String := "[" ++ ", ".intercalate options ++ "]"

def Problem.message : Problem → String
  | expectingLiteral literal => "expecting '" ++ literal ++ "'"
  | expectingInt => "expecting an integer"
  | expectingFloat => "expecting a number"
  | expectingHex => "expecting a hexadecimal number"
  | expectingOctal => "expecting an octal number"
  | expectingBinary => "expecting a binary number"
  | expectingEnd => "expecting the end of input"
  | expectingStart => "expecting the start of input"
  | expectingMethod method => "expecting method " ++ method
  | expectingValue => "expecting a non-empty value"
  | expectingVariant options => "expecting one of " ++ optionList options
  | expectingQueryParam key => "expecting query parameter '" ++ key ++ "'"
  | invalid => "invalid number"

/-- What a route was in the middle of. -/
inductive Label where
  /-- A named part of the path. -/
  | capture (key : String)
  /-- A named query parameter. -/
  | query (key : String)
  deriving DecidableEq, Repr

def Label.message : Label → String
  | capture key => "capture '" ++ key ++ "'"
  | query key => "query parameter '" ++ key ++ "'"

def placeText (line column : Nat) : String := text 10 line ++ ":" ++ text 10 column

def Frame.message (frame : Frame Label) : String :=
  " in " ++ frame.label.message ++ " at " ++ placeText frame.line frame.column

/-- A dead end as text, its trail from the inside out. -/
def DeadEnd.message (d : DeadEnd Label Problem) : String :=
  placeText d.line d.column ++ ": " ++ d.problem.message ++ String.join (d.trail.map Frame.message)

/-- No route matched. -/
structure Mismatch where
  problems : List (DeadEnd Label Problem)
  deriving DecidableEq, Repr

namespace Mismatch

def problem? (m : Mismatch) : Option Problem := m.problems.head?.map DeadEnd.problem

def message (m : Mismatch) : String :=
  if m.problems = [] then "no route to match against"
  else "; ".intercalate (m.problems.map DeadEnd.message)

end Mismatch
end UrlRoutes
