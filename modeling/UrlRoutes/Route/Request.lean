import UrlRoutes.Url.Parts
import UrlRoutes.Url.Query
import UrlRoutes.Route.Read
import UrlRoutes.Route.Write
/-!
# Requests and routes

A request is matched by the pathname of its URL, with its decoded query, its
method and its headers at hand. A route can also be tried on a bare path or a
fragment, and writes a value as a URL.
-/
namespace UrlRoutes

structure Request where
  url : String
  method : Option String := none
  /-- By the lower-case name. -/
  headers : Dict String := .empty
  deriving DecidableEq, Repr

namespace Request

def withMethod (r : Request) (method : String) : Request := { r with method := some method }

def withHeader (r : Request) (name value : String) : Request :=
  { r with headers := r.headers.insert (Text.lowered name) value }

def parts (r : Request) : Url.Parts := Url.split r.url

/-- The start of the pathname. -/
def state (r : Request) : State Label :=
  { source := r.parts.pathname, method := r.method, headers := r.headers,
    params := Query.read r.parts.search }

end Request

namespace Route

def runOn (route : Route) (s : State Label) : Except Mismatch Value :=
  match route.parser s with
  | .good _ value _ => .ok value
  | .bad _ problems => .error ⟨problems⟩

def parse (route : Route) (request : Request) : Except Mismatch Value := route.runOn request.state

def parsePath (route : Route) (path : String) : Except Mismatch Value := route.runOn { source := path }

/-- Matches a fragment, with or without its hash sign. -/
def parseHash (route : Route) (hash : String) : Except Mismatch Value :=
  route.runOn { source := Url.fragmentText hash }

/-- Matches a request without diagnostics. -/
def matches? (route : Route) (request : Request) : Option Value :=
  match route.parse request with
  | .ok value => some value
  | .error _ => none

/-- Writes a value as a URL. -/
def formatWith (codec : Codec) (route : Route) (value : Value) : Except FormatError FormattedUrl :=
  (route.write value {}).map (Draft.finishWith codec)

def format (route : Route) (value : Value) : Except FormatError FormattedUrl :=
  route.formatWith .percent value

def formatPath (route : Route) (value : Value) : Except FormatError String :=
  (route.format value).map FormattedUrl.text

/-- Writes a value as a fragment with its hash sign. -/
def formatHash (route : Route) (value : Value) : Except FormatError String :=
  (route.formatPath value).map ("#" ++ ·)

end Route
end UrlRoutes
