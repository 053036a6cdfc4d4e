import UrlRoutes.Route.Definition
/-!
# Compiling definitions

An accepted definition becomes a route: the method guard, the start of the
path, the path pieces, the query parameters and the end, in sequence. A text
capture in front of a literal ends at that literal, one in front of a bounded
capture ends where that capture can start, and one at the end takes the
non-empty rest.

Results:
* `compile_congr`: beside the options only the outline counts.
-/
namespace UrlRoutes.Definition

/-- The inner route of a capture, given what follows it. -/
def captureRoute (matcher : Matcher) (rest : List Segment) : Route :=
  match matcher, rest with
  | .text, .literal next :: _ => .upTo next
  | .text, .param next :: _ =>
    match next.matcher.boundary? with
    | some boundary => .before boundary
    | none => .rest false
  | matcher, _ => matcher.route

def pathRoutes : List Segment → List Route
  | [] => []
  | .literal text :: rest => .literal text :: pathRoutes rest
  | .param p :: rest => .capture p.key (captureRoute p.matcher rest) :: pathRoutes rest

def queryRoutes (query : List Param) : List Route :=
  query.map fun p => .query p.key p.matcher.route

/-- Routes in sequence, merging their values. -/
def inSequence (routes : List Route) (final : Route) : Route := routes.foldr .both final

def assemble (method : Option String) (path : List Segment) (query : List Param)
    (options : Options) : Route :=
  let head := (method.map Route.guard).toList ++ if options.anchored then [.start] else []
  inSequence (head ++ pathRoutes path ++ queryRoutes query) (.finish options.trailingSlash)

def compileOutline (o : Outline) (options : Options) : Except DefinitionError Route := do
  let method ← agreedMethod o.declared options
  checkKeys [] (params o.path ++ o.query)
  checkEnds o.path
  return assemble method o.path o.query options

def compile (d : Definition) : Except DefinitionError Route :=
  match d.options.check with
  | .error e => .error (.options e)
  | .ok () => compileOutline (outline d.segments) d.options

theorem compile_congr {a b : List Segment} (h : outline a = outline b) (options : Options) :
    compile ⟨a, options⟩ = compile ⟨b, options⟩ := by
  simp [compile, h]

end UrlRoutes.Definition
