import UrlRoutes.Position.Scan
import UrlRoutes.Text.CharClass
import UrlRoutes.Value.Dict
/-!
# Parse states and trails

A state is a cursor into a source, with what is known about the request it
came from and a trail. The trail lists the constructs entered and not yet
left, innermost first, each with the line and column where it began. States
are values: a transition makes a new one and a snapshot of a trail stays as
it was taken.
-/
namespace UrlRoutes

/-- A construct being read, and where it began. -/
structure Frame (κ : Type) where
  line : Nat
  column : Nat
  label : κ
  deriving DecidableEq, Repr

/-- The constructs being read, innermost first. -/
abbrev Trail (κ : Type) := List (Frame κ)

namespace Trail
variable {κ : Type}

def push (trail : Trail κ) (frame : Frame κ) : Trail κ := frame :: trail

/-- An empty trail stays empty. -/
def pop (trail : Trail κ) : Trail κ := List.tail trail

def top? (trail : Trail κ) : Option (Frame κ) := List.head? trail

/-- The trail that enters `frames` one after the other. -/
def ofOutermostFirst (frames : List (Frame κ)) : Trail κ := frames.foldl push []

end Trail

structure State (κ : Type) where
  source : String
  position : Position := .start
  method : Option String := none
  /-- By the lower-case name. -/
  headers : Dict String := .empty
  /-- Decoded query parameters. -/
  params : Dict String := .empty
  trail : Trail κ := []
  deriving DecidableEq, Repr

namespace State
open Text
variable {κ : Type}

def offset (s : State κ) : Nat := s.position.offset

/-- The characters not yet read; none when the cursor is not on a boundary. -/
def rest (s : State κ) : List Char := (s.position.rest? s.source).getD []

def remaining (s : State κ) : String := String.ofList s.rest

def isAtEnd (s : State κ) : Bool := byteLength s.source.toList ≤ s.offset

/-- Whether nothing is left to read but, if allowed, one slash. -/
def isFinished (allowSlash : Bool) (s : State κ) : Bool :=
  s.rest == [] || (allowSlash && s.rest == ['/'])

/-- A header, whatever the case of its name. -/
def header? (s : State κ) (name : String) : Option String := s.headers.get? (lowered name)

def param? (s : State κ) (key : String) : Option String := s.params.get? key

def advance (s : State κ) (p : Position) : State κ := { s with position := p }

/-- The same state inside a new construct that begins here. -/
def enter (s : State κ) (label : κ) : State κ :=
  { s with trail := s.trail.push ⟨s.position.line, s.position.column, label⟩ }

def withTrail (s : State κ) (trail : Trail κ) : State κ := { s with trail := trail }

/-- The start of another source, read for the same request inside the same constructs. -/
def withSource (s : State κ) (source : String) : State κ :=
  { s with source := source, position := .start }

def moveToEnd (s : State κ) : State κ := s.advance (s.position.moveToEnd s.source)

/-- What was read between `s` and a later state; empty if that is no slice of the source. -/
def sliceTo (s : State κ) (next : State κ) : String :=
  String.ofList ((slice? s.offset next.offset next.source.toList).getD [])

end State
end UrlRoutes
