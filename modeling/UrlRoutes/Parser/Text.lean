import UrlRoutes.Parser.Basic
/-!
# Parsers of text

Literals, the end of the input, runs of characters, and searches for a
literal. Progress is read off the offsets before and after. What a parser
has read can be given back as text, cut from the source once it is done.
-/
namespace UrlRoutes.Parser
open Text
variable {κ χ α β : Type}

/-- Success with the cursor moved to `p`. -/
def arrive (s : State κ) (value : α) (p : Position) : Result κ χ α :=
  .good (s.offset < p.offset) value (s.advance p)

/-- A literal, with the problem to report when it is missing. -/
def token (literal : String) (expecting : χ) : Parser κ χ Unit := fun s =>
  match s.position.matchLiteral literal s.source with
  | .ok p => arrive s () p
  | .error _ => .bad false (s.fail expecting)

/-- The end of the input, where one slash may be left if that is allowed. -/
def finishIf (allowSlash : Bool) (value : α) (expecting : χ) : Parser κ χ α := fun s =>
  if s.isFinished allowSlash then arrive s value s.moveToEnd.position
  else .bad false (s.fail expecting)

/-- The end of the input; a single slash still counts as the end and is read. -/
def finish (value : α) (expecting : χ) : Parser κ χ α := finishIf true value expecting

def skipWhile (test : Char → Bool) : Parser κ χ Unit := fun s =>
  arrive s () (s.position.past (s.rest.takeWhile test))

/-- Reads up to the next `literal`; the problem lies at the end when there is none. -/
def skipUntil (literal : String) (expecting : χ) : Parser κ χ Unit := fun s =>
  match s.position.findLiteral literal s.source with
  | .ok p => arrive s () p
  | .error p => .bad false (s.failAt p.line p.column expecting)

/-- Reads up to the next `literal`, or everything when there is none. -/
def skipUntilOrEnd (literal : String) : Parser κ χ Unit := fun s =>
  match s.position.findLiteral literal s.source with
  | .ok p => arrive s () p
  | .error p => arrive s () p

/-- Joins what a parser has read with its value. -/
def mapConsumed (f : String → α → β) (p : Parser κ χ α) : Parser κ χ β := fun s =>
  match p s with
  | .good progress value next => .good progress (f (s.sliceTo next) value) next
  | .bad progress problems => .bad progress problems

def consumed (p : Parser κ χ α) : Parser κ χ String := mapConsumed (fun text _ => text) p

end UrlRoutes.Parser
