import UrlRoutes.Parser.Number
import UrlRoutes.Route.Tree
/-!
# Reading with a route

Each node of a route tree is a parser. Captures and query parameters are
constructs of the trail. A query parameter is a source of its own, which has
to be read to its end, while nothing of the path is read.

Results:
* `parser_both_assoc`, `parser_last_assoc`: sequences regroup freely.
-/
namespace UrlRoutes.Route
open UrlRoutes.Parser

/-- A route's parser works on labelled states and reports problems of routes. -/
abbrev Reader := Parser Label Problem Value

/-- Only the first character of the input. -/
def readStart : Reader := fun s =>
  if s.offset = 0 then .good false .unit s else .bad false (s.fail .expectingStart)

/-- Non-empty text up to the next delimiter. -/
def readUpTo (delimiter : String) : Reader := fun s =>
  match skipUntil delimiter (Problem.expectingLiteral delimiter) s with
  | .bad progress problems => .bad progress problems
  | .good progress _ next =>
    if next.offset = s.offset then .bad false (s.fail .expectingValue)
    else .good progress (.text (s.sliceTo next)) next

/-- Non-empty text up to a boundary. -/
def readBefore (boundary : Boundary) : Reader := fun s =>
  match boundary.cut? s.rest with
  | none =>
    let stop := s.moveToEnd.position
    .bad false (s.failAt stop.line stop.column boundary.problem)
  | some ([], _) => .bad false (s.fail .expectingValue)
  | some (text, _) =>
    .good true (.text (String.ofList text))
      (s.advance (s.position.moveTo (s.offset + Text.byteLength text) s.source))

def readRest (allowEmpty : Bool) : Reader := fun s =>
  if s.rest = [] ∧ allowEmpty = false then .bad false (s.fail .expectingValue)
  else arrive s (.text s.remaining) s.moveToEnd.position

/-- A request method equal up to case. -/
def readMethod (expected : String) : Reader := fun s =>
  if s.method.any (Text.sameIgnoringCase · expected) then .good false .unit s
  else .bad false (s.fail (.expectingMethod expected))

/-- The first option that matches, with the position after it. -/
def firstOption (source : String) (p : Position) : List String → Option (String × Position)
  | [] => none
  | option :: options =>
    match p.matchLiteral option source with
    | .ok q => some (option, q)
    | .error _ => firstOption source p options

def readChoice (options : List String) : Reader := fun s =>
  match firstOption s.source s.position options with
  | some (option, p) => arrive s (.text option) p
  | none => .bad false (s.fail (.expectingVariant options))

/-- The value of a query parameter, read from its own source. -/
def readQuery (key : String) (inner : Reader) : Reader := fun s =>
  match s.param? key with
  | none => .bad false (s.fail (.expectingQueryParam key))
  | some raw =>
    match inner ((s.enter (.query key)).withSource raw) with
    | .bad _ problems => .bad false problems
    | .good _ value after =>
      if after.isAtEnd then .good false (.field key value) s
      else .bad false (after.fail .expectingEnd)

def parser : Route → Reader
  | start => readStart
  | finish allowSlash => finishIf allowSlash .unit .expectingEnd
  | literal text => map (fun _ => .unit) (token text (.expectingLiteral text))
  | upTo delimiter => readUpTo delimiter
  | before boundary => readBefore boundary
  | rest allowEmpty => readRest allowEmpty
  | capture key inner => map (Value.field key) (within (.capture key) inner.parser)
  | number policy _ => Parser.number policy
  | method expected => readMethod expected
  | both left right => join Value.merge left.parser right.parser
  | last left right => keepRight left.parser right.parser
  | choice options => readChoice options
  | query key inner => readQuery key inner.parser

theorem parser_both_assoc (a b c : Route) :
    (both (both a b) c).parser = (both a (both b c)).parser :=
  join_assoc Value.merge_assoc a.parser b.parser c.parser

theorem parser_last_assoc (a b c : Route) :
    (last (last a b) c).parser = (last a (last b c)).parser :=
  join_assoc (fun _ _ _ => rfl) a.parser b.parser c.parser

end UrlRoutes.Route
