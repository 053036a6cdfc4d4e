import UrlRoutes.Text.Cut
/-!
# URL parts

A URL splits at its first `#` and, before that, at its first `?`. An absolute
URL first loses its scheme and authority; if it has no path, its path is `/`.
The query keeps its question mark and the fragment its hash sign.
-/
namespace UrlRoutes.Url
open Text

/-- The parts of a URL that routes look at. -/
structure Parts where
  pathname : String
  /-- Empty, or from the question mark on. -/
  search : String
  /-- Empty, or from the hash sign on. -/
  hash : String
  deriving DecidableEq, Repr

/-- A letter followed by letters, digits, `+`, `-` and `.`. -/
def isScheme : List Char → Bool
  | [] => false
  | c :: cs => c.isAlpha && cs.all fun c => c.isAlphanum || c == '+' || c == '-' || c == '.'

/-- Whether a path, a query or a fragment starts with `c`. -/
def endsAuthority (c : Char) : Bool := c == '/' || c == '?' || c == '#'

/-- What follows the scheme and authority of an absolute URL. -/
def afterOrigin? (url : List Char) : Option (List Char) :=
  match cutAt [':', '/', '/'] url with
  | some (scheme, rest) =>
    if isScheme scheme then some ((rest.drop 3).dropWhile fun c => !endsAuthority c) else none
  | none => none

/-- Cuts in front of the first `c`; all of the text comes before one that is missing. -/
def cutAtChar (c : Char) (cs : List Char) : List Char × List Char :=
  (cs.takeWhile (· ≠ c), cs.dropWhile (· ≠ c))

def splitPath (emptyPath : List Char) (cs : List Char) : Parts :=
  let (rest, hash) := cutAtChar '#' cs
  let (pathname, search) := cutAtChar '?' rest
  { pathname := String.ofList (if pathname = [] then emptyPath else pathname)
    search := String.ofList search
    hash := String.ofList hash }

def split (url : String) : Parts :=
  match afterOrigin? url.toList with
  | some rest => splitPath ['/'] rest
  | none => splitPath [] url.toList

/-- A fragment without its hash sign. -/
def fragmentText (hash : String) : String :=
  match hash.toList with
  | '#' :: rest => String.ofList rest
  | _ => hash

end UrlRoutes.Url
