/-!
# Failures

What can go wrong on the two sides of a connection, and how it is worded.  Nothing of this reaches
a client or a handler: a connection counts its failures and ends.
-/

namespace PipelinedHttp

inductive ReadError where
  /-- the head is longer than allowed, or already so without its end -/
  | headTooLarge (size limit : Nat)
  | tooManyFields (limit : Nat)
  | malformedHead (reason : String)
  /-- the minor version of the request line, if it has one -/
  | unsupportedVersion (minor : Option Nat)
  | invalidMethod
  | invalidTarget
  | invalidContentLength (reason : String)
  /-- a body whose end is not announced by its length -/
  | invalidBody (reason : String)
  | bodyTooLarge (size limit : Nat)
  /-- the transport failed, or ended within a request -/
  | transport (reason : String)
  deriving DecidableEq

namespace ReadError

def message : ReadError → String
  | .headTooLarge size limit =>
    "header section of " ++ toString size ++ " bytes exceeds the limit of " ++ toString limit
  | .tooManyFields limit => "more than " ++ toString limit ++ " headers"
  | .malformedHead reason => "invalid header: " ++ reason
  | .unsupportedVersion none => "unsupported http version: None"
  | .unsupportedVersion (some minor) =>
    "unsupported http version: Some(" ++ toString minor ++ ")"
  | .invalidMethod => "invalid http method"
  | .invalidTarget => "invalid request target"
  | .invalidContentLength reason => "invalid content-length: " ++ reason
  | .invalidBody reason => "invalid body: " ++ reason
  | .bodyTooLarge size limit =>
    "body of " ++ toString size ++ " bytes exceeds the limit of " ++ toString limit
  | .transport reason => "read failed: " ++ reason

/-- whether the transport failed, and not the octets of the request -/
def isTransport : ReadError → Bool
  | .transport _ => true
  | _ => false

end ReadError

structure WriteError where
  reason : String
  deriving DecidableEq

def WriteError.message (e : WriteError) : String := "write failed: " ++ e.reason

inductive ConnectionError where
  | read (e : ReadError)
  | write (e : WriteError)
  /-- the writing side is gone, no reply can be queued -/
  | queueClosed
  deriving DecidableEq

def ConnectionError.message : ConnectionError → String
  | .read e => "read side failed: " ++ e.message
  | .write e => "write side failed: " ++ e.message
  | .queueClosed => "reply queue closed"

end PipelinedHttp
