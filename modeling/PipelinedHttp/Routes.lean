import PipelinedHttp.Reply
import PipelinedHttp.Request
import PipelinedHttp.Route.Tree

/-!
# Routing

A table leads paths to values, a routing handler leads requests to other handlers: to that of the
route that the path takes, with the parameters of the route put into the request, or else to the
fallback, with the request as it is.  A table without a fallback answers `404 Not Found`.
-/

namespace PipelinedHttp

/-- a handler turns a path and a request into a reply; it has no way to fail -/
abbrev Handler := Bytes → Request → Reply

namespace Route

def InsertError.message : InsertError → String
  | .conflict route =>
    "Insertion failed due to conflict with previously registered route: " ++ Utf8.repair route
  | .crowdedSegment => "Only one parameter is allowed per path segment"
  | .invalidName => "Parameters must be registered with a valid name"
  | .misplacedRest => "Catch-all parameters are only allowed at the end of a route"
  | .tooManyParameters => "Too many route parameters."
  | .unnamedConflict => "Insertion failed due to conflict with a route that cannot be named"

structure Table (α : Type) where
  root : Tree α

namespace Table
variable {α : Type}

def empty : Table α := ⟨.empty⟩

/-- The table with one more route.  A root without text and without children is planted anew. -/
def insert (t : Table α) (route : Bytes) (value : α) : Except InsertError (Table α) := do
  let pattern ← Pattern.ofBytes route
  let leaf := ⟨pattern, value⟩
  match t.root with
  | .node weight [] above .nil .none =>
    return ⟨← graft (graftFuel pattern) (weight + 1) above pattern leaf⟩
  | root => return ⟨← root.insert pattern leaf⟩

/-- the value of the route that a path takes, and the parameters of that route -/
def find? (t : Table α) (path : Bytes) : Option (α × List (Bytes × Bytes)) :=
  (t.root.find path).map fun (leaf, values) => (leaf.value, leaf.pattern.names.zip values)

end Table

end Route

/-- a table with what is done for paths that take no route -/
structure Routes (α : Type) where
  table : Route.Table α
  fallback : Option α

namespace Routes
variable {α : Type}

def empty : Routes α := ⟨.empty, none⟩

def route (r : Routes α) (path : Bytes) (value : α) : Except Route.InsertError (Routes α) :=
  (r.table.insert path value).map fun table => { r with table }

def errorMessage (e : Route.InsertError) : String := "invalid route: " ++ e.message

def withFallback (r : Routes α) (value : α) : Routes α := { r with fallback := some value }

/-- who takes a request, and the request as it is handed on -/
def select (r : Routes α) (path : Bytes) (request : Request) : Option α × Request :=
  match r.table.find? path with
  | some (value, params) => (some value, request.withPathParams params)
  | none => (r.fallback, request)

/-- the built-in answer for paths without a route -/
def notFound : Reply := Reply.ofReason .notFound

/-- a routing table is a handler itself -/
def handler (r : Routes Handler) : Handler := fun path request =>
  match r.select path request with
  | (some h, request) => h path request
  | (none, _) => notFound

end Routes

end PipelinedHttp
