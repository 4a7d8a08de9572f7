import PipelinedHttp.Routes

/-!
# Canned handlers

Handlers that are described by data: a status, some headers and a body that is fixed or repeats a
part of the request.  They are what a server is tried out with.
-/

namespace PipelinedHttp

/-- the part of a request that a body repeats -/
inductive Echo where
  | path
  | body
  | target
  | pathParam (name : Bytes)
  | queryParam (name : String)

structure Canned where
  /-- the reply is held back until it is released -/
  waits : Bool
  status : Status
  /-- the reason phrase is the body, unless another one is given -/
  reasonBody : Bool
  contentType : Option MediaType
  headers : List Field
  version : Option Version
  /-- what the body repeats; the last one counts -/
  echoes : List Echo
  body : Option Bytes

namespace Canned

/-- stands in for a parameter that the request does not have -/
def missing : Bytes := Bytes.ofAscii "<none>"

def echo (path : Bytes) (request : Request) : Echo → Bytes
  | .path => path
  | .body => request.body.getD []
  | .target => request.uri.print
  | .pathParam name => (request.pathParam? name).getD missing
  | .queryParam name => ((request.queryParam? name).map Utf8.encode).getD missing

def reply (c : Canned) : Handler := fun path request =>
  let r := if c.reasonBody then Reply.ofReason c.status else Reply.ofStatus c.status
  let r := c.contentType.elim r r.setContentType
  let r := c.headers.foldl (fun r f => r.appendHeader f.name f.value) r
  let r := c.version.elim r fun v => (r.setVersion v).freeze
  let r := c.echoes.foldl (fun r e => r.setBody (echo path request e)) r
  c.body.elim r r.setBody

end Canned

end PipelinedHttp
