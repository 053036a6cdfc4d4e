import UrlRoutes.Text.Cut
import UrlRoutes.Route.Problem
/-!
# Boundaries

A text capture may end where the part after it can start: at any of some
options, or at a digit. The boundary is the first such place, and an empty
option can start anywhere.

Results:
* `cut?_append`, `cut?_startsAt`: a cut loses nothing and ends at the boundary.
-/
namespace UrlRoutes

/-- Where a text capture in front of a bounded capture ends. -/
inductive Boundary where
  /-- The earliest occurrence of any option. -/
  | anyOf (options : List String)
  /-- The first ASCII digit. -/
  | digit
  deriving DecidableEq, Repr

namespace Boundary
open Text

/-- Whether the part after the capture can start in front of `cs`. -/
def startsAt : Boundary → List Char → Bool
  | anyOf options, cs => options.any fun option => option.toList.isPrefixOf cs
  | digit, c :: _ => c.isDigit
  | digit, [] => false

def cut? (b : Boundary) : List Char → Option (List Char × List Char) := cutWhere b.startsAt

def problem : Boundary → Problem
  | anyOf options => .expectingVariant options
  | digit => .expectingFloat

/-- The boundary as a delimiter in messages. -/
def describe : Boundary → String
  | anyOf options => "|".intercalate options
  | digit => "0-9"

theorem cut?_append {b : Boundary} {cs before after : List Char}
    (h : b.cut? cs = some (before, after)) : cs = before ++ after :=
  cutWhere_append h

theorem cut?_startsAt {b : Boundary} {cs before after : List Char}
    (h : b.cut? cs = some (before, after)) : b.startsAt after = true :=
  cutWhere_stops h

end Boundary
end UrlRoutes
