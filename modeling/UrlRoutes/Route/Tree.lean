import UrlRoutes.Number.Policy
import UrlRoutes.Value.Basic
import UrlRoutes.Route.Boundary
import UrlRoutes.Text.CharClass
/-!
# Route trees

A route is a tree that is read from left to right over a path and written
from right to left into a draft. Leaves stand for one piece of the path, a
guard or a query parameter; inner nodes name a piece or put two in sequence.

Results:
* `guard_raised`: a guard is the same whatever the case of its method.
-/
namespace UrlRoutes

/-- How a number is written. Each style is the one its reader takes. -/
inductive NumberStyle where
  /-- A decimal integer. -/
  | decimal
  /-- A decimal integer or a decimal fraction. -/
  | float
  | hex
  | octal
  | binary
  deriving DecidableEq, Repr

/-- A route that reads and writes. -/
inductive Route where
  /-- The very start of the input. -/
  | start
  /-- The end of the input; one slash may be left if allowed. -/
  | finish (allowSlash : Bool)
  | literal (text : String)
  /-- Text up to the next delimiter. -/
  | upTo (delimiter : String)
  /-- Text up to a boundary. -/
  | before (boundary : Boundary)
  /-- All that is left. -/
  | rest (allowEmpty : Bool)
  /-- The value of `inner` under a name. -/
  | capture (key : String) (inner : Route)
  | number (policy : NumberPolicy Problem Value) (style : NumberStyle)
  /-- A guard on the request method, in capitals. -/
  | method (expected : String)
  /-- Both in sequence, their values merged. -/
  | both (left right : Route)
  /-- Both in sequence, the second value kept. -/
  | last (left right : Route)
  /-- The first option that matches. -/
  | choice (options : List String)
  /-- The value `inner` finds in a query parameter, under the parameter's name. -/
  | query (key : String) (inner : Route)

namespace Route
open NumberPolicy

/-- A guard on the request method, whatever the case. -/
def guard (name : String) : Route := method (Text.raised name)

def int : Route := number ((ints .expectingInt .invalid).map .int) .decimal

/-- A decimal literal, integers widened. -/
def float : Route := number ((floats .expectingFloat .invalid).map .float) .float

/-- A literal that starts with `0x`. -/
def hex : Route :=
  number { rejecting .expectingHex .invalid with hex := fun n => .ok (.int n) } .hex

/-- A literal that starts with `0o`. -/
def octal : Route :=
  number { rejecting .expectingOctal .invalid with octal := fun n => .ok (.int n) } .octal

/-- A literal that starts with `0b`. -/
def binary : Route :=
  number { rejecting .expectingBinary .invalid with binary := fun n => .ok (.int n) } .binary

theorem guard_raised (name : String) : guard (Text.raised name) = guard name := by
  simp [guard, Text.raised_raised]

end Route
end UrlRoutes
