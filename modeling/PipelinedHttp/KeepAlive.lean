import PipelinedHttp.Reply

/-!
# Connection lifetime

What the version and the first `Connection` header of a request decide about the connection after
the reply:

| version  | value        | the reply says           | the connection |
|----------|--------------|--------------------------|----------------|
| HTTP/1.0 | `Keep-Alive` | `Connection: Keep-Alive` | stays open     |
| HTTP/1.0 | any other    |                          | is closed      |
| HTTP/1.1 | `Close`      |                          | is closed      |
| HTTP/1.1 | any other    |                          | stays open     |
| other    | any          |                          | is closed      |

Values are compared octet by octet.
-/

namespace PipelinedHttp

structure KeepAlive where
  close : Bool
  announce : Bool
  deriving DecidableEq

namespace KeepAlive

def keepAlive : Bytes := Bytes.ofAscii "Keep-Alive"
def closing : Bytes := Bytes.ofAscii "Close"

def evaluate (version : Version) (headers : Headers) : KeepAlive :=
  let value := headers.get? FieldName.connection
  match version with
  | .http10 => ⟨value != some keepAlive, value == some keepAlive⟩
  | .http11 => ⟨value == some closing, false⟩
  | _ => ⟨true, false⟩

def apply (k : KeepAlive) (r : Reply) : Reply :=
  if k.announce then r.setHeader FieldName.connection keepAlive else r

end KeepAlive

end PipelinedHttp
