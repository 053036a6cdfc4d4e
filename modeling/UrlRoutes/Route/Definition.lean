import UrlRoutes.Route.Options
import UrlRoutes.Text.CharClass
import UrlRoutes.Route.Tree
/-!
# Route definitions

A definition is a list of segments with options. Its outline is what counts:
empty literals dropped, neighbouring literals joined, query parameters set
apart from the path, and a method such as `POST ` split off the first
literal. A definition is refused when its methods disagree, when a key is
empty or used twice, when an enumeration has no options, or when a capture
could not tell where to end.

Results:
* `pathOf_empty`: an empty literal does not count.
* `consLiteral_append`: literals are put together from the front.
-/
namespace UrlRoutes

inductive Matcher where
  /-- Text up to what follows, or to the end. -/
  | text
  /-- All that is left. -/
  | rest (allowEmpty : Bool)
  | int
  | float
  /-- One of some options. -/
  | choice (options : List String)
  deriving DecidableEq, Repr

/-- Bounded matchers know themselves where they end. -/
def Matcher.isBounded : Matcher → Bool
  | text => false
  | rest _ => false
  | int => true
  | float => true
  | choice _ => true

/-- Where a text capture in front of the matcher ends. -/
def Matcher.boundary? : Matcher → Option Boundary
  | text => none
  | rest _ => none
  | int => some .digit
  | float => some .digit
  | choice options => some (.anyOf options)

/-- The route of a matcher that nothing follows. -/
def Matcher.route : Matcher → Route
  | text => .rest false
  | rest allowEmpty => .rest allowEmpty
  | int => .int
  | float => .float
  | choice options => .choice options

structure Param where
  key : String
  matcher : Matcher
  /-- Taken from the query instead of the path. -/
  inQuery : Bool := false
  deriving DecidableEq, Repr

inductive Segment where
  | literal (text : String)
  | param (param : Param)
  deriving DecidableEq, Repr

inductive DefinitionError where
  | adjacentCaptures (first second : String)
  | restNotLast (key : String)
  | duplicateKey (key : String)
  | emptyKey
  | emptyVariants (key : String)
  | methodConflict (declared configured : String)
  | options (error : OptionsError)
  deriving DecidableEq, Repr

def DefinitionError.message : DefinitionError → String
  | adjacentCaptures first second =>
    "capture '" ++ second ++ "' directly follows unbounded capture '" ++ first ++ "'"
  | restNotLast key => "rest capture '" ++ key ++ "' must be the last path segment"
  | duplicateKey key => "capture key '" ++ key ++ "' is used more than once"
  | emptyKey => "capture key must not be empty"
  | emptyVariants key => "enumerated capture '" ++ key ++ "' has no options"
  | methodConflict declared configured =>
    "route declares method " ++ declared ++ " but options require " ++ configured
  | options error => error.message

structure Definition where
  segments : List Segment := []
  options : Options := {}
  deriving DecidableEq, Repr

namespace Definition

def add (d : Definition) (segment : Segment) : Definition :=
  { d with segments := d.segments ++ [segment] }

def withMethod (d : Definition) (method : String) : Definition :=
  { d with options := { d.options with method := some method } }

def withOptions (d : Definition) (options : Options) : Definition := { d with options := options }

/-! ## Outline -/

/-- Puts a literal in front of a path. -/
def consLiteral (text : String) (path : List Segment) : List Segment :=
  if text = "" then path
  else
    match path with
    | .literal next :: rest => .literal (text ++ next) :: rest
    | path => .literal text :: path

/-- The path of a definition, its neighbouring literals joined. -/
def pathOf : List Segment → List Segment
  | [] => []
  | .literal text :: rest => consLiteral text (pathOf rest)
  | .param p :: rest => if p.inQuery then pathOf rest else .param p :: pathOf rest

def queryOf : List Segment → List Param
  | [] => []
  | .literal _ :: rest => queryOf rest
  | .param p :: rest => if p.inQuery then p :: queryOf rest else queryOf rest

/-- A method in front of a literal, in capitals, and what follows its blanks. -/
def splitMethod? (text : String) : Option (String × String) :=
  let word := text.toList.takeWhile fun c => !CharClass.whitespace.holds c
  let rest := text.toList.dropWhile fun c => !CharClass.whitespace.holds c
  if rest ≠ [] ∧ word ≠ [] ∧ word.all Char.isAlpha then
    some (Text.raised (String.ofList word),
      String.ofList (rest.dropWhile CharClass.whitespace.holds))
  else none

/-- The method the first literal declares, and the path without it. -/
def splitDeclared (path : List Segment) : Option String × List Segment :=
  match path with
  | .literal text :: rest =>
    match splitMethod? text with
    | some (method, text) => (some method, consLiteral text rest)
    | none => (none, path)
  | _ => (none, path)

/-- What counts of a definition. -/
structure Outline where
  /-- The method the first literal declares, in capitals. -/
  declared : Option String
  path : List Segment
  query : List Param
  deriving DecidableEq, Repr

def outline (segments : List Segment) : Outline :=
  let (declared, path) := splitDeclared (pathOf segments)
  ⟨declared, path, queryOf segments⟩

/-- The method of a definition, declared or configured. -/
def agreedMethod (declared : Option String) (options : Options) :
    Except DefinitionError (Option String) :=
  match declared, options.method with
  | some declared, some configured =>
    if Text.sameIgnoringCase declared configured then .ok (some declared)
    else .error (.methodConflict declared configured)
  | some declared, none => .ok (some declared)
  | none, configured => .ok (configured.map Text.raised)

/-! ## Checks -/

def params (path : List Segment) : List Param :=
  path.filterMap fun
    | .literal _ => none
    | .param p => some p

/-- Checks parameter by parameter, `seen` being the keys used before. -/
def checkKeys (seen : List String) : List Param → Except DefinitionError Unit
  | [] => .ok ()
  | p :: rest =>
    if p.key = "" then .error .emptyKey
    else if p.key ∈ seen then .error (.duplicateKey p.key)
    else if p.matcher = .choice [] then .error (.emptyVariants p.key)
    else checkKeys (p.key :: seen) rest

def takesRest : Matcher → Bool
  | .rest _ => true
  | _ => false

/-- Checks that every capture of a path can tell where to end. -/
def checkEnds : List Segment → Except DefinitionError Unit
  | [] => .ok ()
  | .literal _ :: rest => checkEnds rest
  | .param p :: rest =>
    if takesRest p.matcher ∧ rest ≠ [] then .error (.restNotLast p.key)
    else
      match rest with
      | .param q :: _ =>
        if p.matcher.isBounded = false ∧ q.matcher.isBounded = false then
          .error (.adjacentCaptures p.key q.key)
        else checkEnds rest
      | _ => checkEnds rest

/-! ## Literals -/

theorem pathOf_empty (rest : List Segment) : pathOf (.literal "" :: rest) = pathOf rest := rfl

theorem consLiteral_append (a b : String) (path : List Segment) :
    consLiteral a (consLiteral b path) = consLiteral (a ++ b) path := by
  by_cases ha : a = ""
  · simp [consLiteral, ha]
  by_cases hb : b = ""
  · simp [consLiteral, hb]
  have hab : a ++ b ≠ "" := by simp [ha]
  rcases path with _ | ⟨_ | _, rest⟩ <;> simp [consLiteral, ha, hb, String.append_assoc]

end Definition
end UrlRoutes
