import PipelinedHttp.Bytes

/-!
# Protocol versions

The five versions that a request or reply can carry.  Requests are read in 1.0 and 1.1 only.
-/

namespace PipelinedHttp

inductive Version where
  | http09
  | http10
  | http11
  | http2
  | http3
  deriving DecidableEq

/-- the spelling at the start of a status line and at the end of a request line -/
def Version.text : Version → String
  | .http09 => "HTTP/0.9"
  | .http10 => "HTTP/1.0"
  | .http11 => "HTTP/1.1"
  | .http2 => "HTTP/2.0"
  | .http3 => "HTTP/3.0"

end PipelinedHttp
