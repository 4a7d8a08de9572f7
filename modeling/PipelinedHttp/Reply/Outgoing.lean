import PipelinedHttp.KeepAlive
import PipelinedHttp.Request

/-!
# Replies on their way out

What a connection adds to the reply of a handler: `finish` when the reply is queued, `stamp` when
it is written.
-/

namespace PipelinedHttp.Reply

/-- a reply as it is queued: the connection header is announced where it has to be, and the status
line carries the version of the request -/
def finish (r : Reply) (request : Request) : Reply :=
  (((KeepAlive.evaluate request.version request.headers).apply r).setVersion request.version).freeze

/-- a reply as it is written: the three mandatory headers are set -/
def stamp (r : Reply) (serverName date : Bytes) : Reply :=
  ((r.setHeader FieldName.server serverName).setHeader FieldName.date date).setHeader
    FieldName.contentLength (Bytes.decimal r.body.length)

end PipelinedHttp.Reply
