import PipelinedHttp.Headers
import PipelinedHttp.Method
import PipelinedHttp.Query
import PipelinedHttp.Uri
import PipelinedHttp.Version

/-!
# Requests

A request as a handler gets it: complete, with its body in memory.  The query parameters are read
off the target; the path parameters are those of the route that took the request, raw pieces of
the path.
-/

namespace PipelinedHttp

structure Request where
  method : Method
  uri : Uri
  version : Version
  headers : Headers
  body : Option Bytes
  pathParams : List (Bytes × Bytes)
  deriving DecidableEq

namespace Request

/-- a request without headers, body and path parameters -/
def ofTarget (method : Method) (uri : Uri) (version : Version) : Request :=
  ⟨method, uri, version, .empty, none, []⟩

def path (r : Request) : Bytes := r.uri.path

def query (r : Request) : Option Bytes := r.uri.query

/-- the pairs of the query; reading them cannot fail, so there are none only if the query has none -/
def queryParams (r : Request) : List (String × String) :=
  match r.query with
  | none => []
  | some q => Query.decode q

def queryParam? (r : Request) (name : String) : Option String := r.queryParams.lookup name

def pathParam? (r : Request) (name : Bytes) : Option Bytes := r.pathParams.lookup name

def withHeader (r : Request) (name value : Bytes) : Request :=
  { r with headers := r.headers.append name value }

def withBody (r : Request) (body : Bytes) : Request := { r with body := some body }

def withPathParams (r : Request) (params : List (Bytes × Bytes)) : Request :=
  { r with pathParams := params }

end Request

end PipelinedHttp
