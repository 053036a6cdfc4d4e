import UrlRoutes.Route.Request
/-!
# Route tables

A table binds routes to handlers and tries them in order. The first route
that matches wins; when none does, the dead ends of every route are listed in
the order of the table.
-/
namespace UrlRoutes

/-- Routes with their handlers, in order. -/
structure Table (η : Type) where
  entries : List (Route × η) := []

namespace Table
variable {η : Type}

def size (t : Table η) : Nat := t.entries.length

def isEmpty (t : Table η) : Bool := t.entries.isEmpty

def handlers (t : Table η) : List η := t.entries.map Prod.snd

def add (t : Table η) (route : Route) (handler : η) : Table η :=
  ⟨t.entries ++ [(route, handler)]⟩

/-- Tries routes in order, `problems` being the dead ends met before. -/
def resolveFrom (problems : List (DeadEnd Label Problem)) (s : State Label) :
    List (Route × η) → Except Mismatch (η × Value)
  | [] => .error ⟨problems⟩
  | (route, handler) :: rest =>
    match route.runOn s with
    | .ok value => .ok (handler, value)
    | .error mismatch => resolveFrom (problems ++ mismatch.problems) s rest

/-- The handler and value of the first route that matches a request. -/
def resolve (t : Table η) (request : Request) : Except Mismatch (η × Value) :=
  resolveFrom [] request.state t.entries

def resolvePath (t : Table η) (path : String) : Except Mismatch (η × Value) :=
  t.resolve { url := path }

end Table
end UrlRoutes
