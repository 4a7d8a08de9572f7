import PipelinedHttp.Headers
import PipelinedHttp.MediaType
import PipelinedHttp.Status
import PipelinedHttp.Version

/-!
# Replies

A reply with its whole body in memory.  Its status line can be frozen once status and version are
final; changing either thaws it, so that the line that is written never lags behind.  A reply is
written as its status line, a line for each header, an empty line, and the body as it is: what the
headers say about the length of the body is up to the writer of the connection.
-/

namespace PipelinedHttp

structure Reply where
  status : Status
  version : Version
  headers : Headers
  body : Bytes
  frozen : Option Bytes
  deriving DecidableEq

/-- `HTTP/x.y code reason\r\n` -/
def renderStatusLine (version : Version) (status : Status) : Bytes :=
  Bytes.ofAscii version.text ++ Bytes.space :: Bytes.decimal status.code
    ++ Bytes.space :: status.reason ++ Bytes.crlf

namespace Reply

/-! ## making a reply -/

def ofStatus (status : Status) : Reply := ⟨status, .http11, .empty, [], none⟩

def ok : Reply := ofStatus .ok

def setStatus (r : Reply) (status : Status) : Reply := { r with status, frozen := none }

def setVersion (r : Reply) (version : Version) : Reply := { r with version, frozen := none }

def setHeader (r : Reply) (name value : Bytes) : Reply :=
  { r with headers := r.headers.set name value }

def appendHeader (r : Reply) (name value : Bytes) : Reply :=
  { r with headers := r.headers.append name value }

def setContentType (r : Reply) (type : MediaType) : Reply :=
  r.setHeader FieldName.contentType type.text

def setBody (r : Reply) (body : Bytes) : Reply := { r with body }

/-- a plain text reply whose body is the reason phrase -/
def ofReason (status : Status) : Reply :=
  ((ofStatus status).setContentType .plainText).setBody status.reason

/-! ## the status line -/

/-- the status line is rendered now and kept -/
def freeze (r : Reply) : Reply := { r with frozen := some (renderStatusLine r.version r.status) }

def isFrozen (r : Reply) : Bool := r.frozen.isSome

def statusLine (r : Reply) : Bytes := r.frozen.getD (renderStatusLine r.version r.status)

/-! ## changes one after the other -/

/-- a change; some of them begin a new reply -/
inductive Edit where
  | ofStatus (status : Status)
  | ofReason (status : Status)
  | status (status : Status)
  | version (version : Version)
  | headers (change : Headers.Edit)
  | contentType (type : MediaType)
  | body (body : Bytes)
  | freeze
  deriving DecidableEq

def edit (r : Reply) : Edit → Reply
  | .ofStatus status => Reply.ofStatus status
  | .ofReason status => Reply.ofReason status
  | .status status => r.setStatus status
  | .version version => r.setVersion version
  | .headers change => { r with headers := r.headers.edit change }
  | .contentType type => r.setContentType type
  | .body body => r.setBody body
  | .freeze => r.freeze

def edits (r : Reply) (changes : List Edit) : Reply := changes.foldl edit r

/-! ## the written form -/

def encodeField (f : Field) : Bytes :=
  f.name ++ Bytes.colon :: Bytes.space :: f.value ++ Bytes.crlf

def encode (r : Reply) : Bytes :=
  r.statusLine ++ r.headers.fields.flatMap encodeField ++ Bytes.crlf ++ r.body

end Reply

end PipelinedHttp
