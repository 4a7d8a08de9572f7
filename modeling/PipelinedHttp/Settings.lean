import PipelinedHttp.Wire.Decoder

/-!
# Settings

What can be set before a server is built.  Building needs a handler, room for at least one reply in
the queue of a connection, and a running event loop for the clock; the first of these that is
missing is reported.
-/

namespace PipelinedHttp

structure Settings where
  serverName : Bytes
  /-- how many replies may wait in memory on one connection -/
  queueCapacity : Nat
  readBuffer : Nat
  writeBuffer : Nat
  maxBody : Nat
  /-- milliseconds between two looks at the clock -/
  dateInterval : Nat

def Settings.standard : Settings :=
  { serverName := Bytes.ofAscii "micro-httpd"
    queueCapacity := 10
    readBuffer := 8192
    writeBuffer := 8192
    maxBody := Wire.Decoder.defaultMaxBody
    dateInterval := 800 }

inductive BuildError where
  | missingHandler
  | zeroQueueCapacity
  | missingRuntime
  deriving DecidableEq

def BuildError.message : BuildError → String
  | .missingHandler => "handler must be set"
  | .zeroQueueCapacity => "reply queue capacity must be at least 1"
  | .missingRuntime => "server must be built inside a tokio runtime"

/-- the settings of a server that can be built, with its handler -/
def Settings.build {α : Type} (s : Settings) (handler : Option α) (running : Bool) :
    Except BuildError (Settings × α) :=
  match handler with
  | none => .error .missingHandler
  | some h =>
    if s.queueCapacity = 0 then .error .zeroQueueCapacity
    else if running then .ok (s, h)
    else .error .missingRuntime

end PipelinedHttp
