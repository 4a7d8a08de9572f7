import PipelinedHttp.Canned
import PipelinedHttp.Memory
import PipelinedHttp.Producers
import PipelinedHttp.Proofs.Connection.Failure
import PipelinedHttp.Proofs.Connection.Backpressure
import PipelinedHttp.Proofs.Connection.Progress
import PipelinedHttp.Proofs.Reply.ReadBack
import PipelinedHttp.Proofs.Wire.Message
import PipelinedHttp.Server
import PipelinedHttp.Proofs.Connection.Ledger
import PipelinedHttp.Proofs.Connection.Stop
import PipelinedHttp.Proofs.Server.History
import PipelinedHttp.Proofs.Server.Commands
import PipelinedHttp.Proofs.Server.Stop
import PipelinedHttp.Proofs.Connection.Notes
import PipelinedHttp.Proofs.Wire.Codings
import PipelinedHttp.Proofs.Wire.Framing
import PipelinedHttp.Proofs.Server.Accounting
import PipelinedHttp.Proofs.Producers.Slots
import PipelinedHttp.Proofs.Registry.Waiting
import PipelinedHttp.Proofs.Server.Apart
import PipelinedHttp.Proofs.Producers.Fifo
import PipelinedHttp.Proofs.Wire.Spelling
import PipelinedHttp.Proofs.Wire.Effect
import PipelinedHttp.Proofs.Wire.Limits
import PipelinedHttp.Proofs.Wire.Clean
import PipelinedHttp.Proofs.Headers.Multimap
import PipelinedHttp.Proofs.Reply.Mandatory
import PipelinedHttp.Proofs.Reply.StatusLine
import PipelinedHttp.Proofs.Route.Dispatch
import PipelinedHttp.Proofs.Registry.Stopping
import PipelinedHttp.Proofs.Wire.Shortcut
import PipelinedHttp.Proofs.KeepAlive
import PipelinedHttp.Proofs.Query
import PipelinedHttp.Proofs.Wire.Pending
import PipelinedHttp.Proofs.Connection.Reset
import PipelinedHttp.Proofs.Wire.Kinds
import PipelinedHttp.Proofs.Memory
