import UrlRoutes.Url.Query
import UrlRoutes.Text.CharClass
import UrlRoutes.Route.Problem
/-!
# URLs in the making

A URL is written from its end: a draft holds the path, the query parameters,
the method and the headers written so far, and everything new goes in front.
A finished draft is a formatted URL; its query is coded, its path is not.
-/
namespace UrlRoutes

inductive FormatError where
  /-- A record has no field for a capture. -/
  | missingKey (key : String)
  /-- A capture needs a record. -/
  | expectedRecord (key found : String)
  | typeMismatch (expected found : String)
  | unknownVariant (value : String) (options : List String)
  /-- A text would be cut short when it is read back. -/
  | containsDelimiter (value delimiter : String)
  | emptyCapture
  /-- A number that has no literal. -/
  | outOfRange (value : String)
  deriving DecidableEq, Repr

def FormatError.message : FormatError → String
  | missingKey key => "value has no entry for capture '" ++ key ++ "'"
  | expectedRecord key found => "capture '" ++ key ++ "' needs a record but got " ++ found
  | typeMismatch expected found => "expected " ++ expected ++ " value but got " ++ found
  | unknownVariant value options => "'" ++ value ++ "' is not one of " ++ optionList options
  | containsDelimiter value delimiter =>
    "'" ++ value ++ "' contains the delimiter '" ++ delimiter ++ "'"
  | emptyCapture => "capture value must not be empty"
  | outOfRange value => value ++ " cannot be written as a route number"

structure FormattedUrl where
  pathname : String
  search : String
  hash : String
  method : Option String
  deriving DecidableEq, Repr

def FormattedUrl.text (u : FormattedUrl) : String := u.pathname ++ u.hash ++ u.search

/-- What has been written so far. -/
structure Draft where
  path : String := ""
  params : List (String × String) := []
  method : Option String := none
  /-- By the lower-case name. -/
  headers : Dict String := .empty
  deriving DecidableEq, Repr

namespace Draft

def prepend (d : Draft) (text : String) : Draft := { d with path := text ++ d.path }

def prependParam (d : Draft) (key value : String) : Draft :=
  { d with params := (key, value) :: d.params }

def withMethod (d : Draft) (method : String) : Draft := { d with method := some method }

def withHeader (d : Draft) (name value : String) : Draft :=
  { d with headers := d.headers.insert (Text.lowered name) value }

/-- Encodes the query and leaves the fragment empty. -/
def finishWith (codec : Codec) (d : Draft) : FormattedUrl :=
  ⟨d.path, codec.writeSearch d.params, "", d.method⟩

def finish (d : Draft) : FormattedUrl := d.finishWith .percent

end Draft
end UrlRoutes
