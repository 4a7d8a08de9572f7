import PipelinedHttp.Proofs.Connection.Entries
import PipelinedHttp.Proofs.Server.Sound

/-!
# What is done with a server, one thing after the other

A `Deed` is one thing that is done with a server: a connection is opened, something happens on one of
them (`Own`), or someone waits for all of them to go.  Other than the moves of a history, deeds leave
nothing open: the handler returns what the service gives for the request in hand, so a list of deeds
has one outcome if any (`performAll`).  What the handlers are called for is part of it.

Each deed is a move (`perform_move`).  `alone` is what is left of a list of deeds if there is only one
of the connections.
-/

namespace PipelinedHttp.Server
variable {κ : Type} {s m s' : Server κ} {i : Nat}

/-- what a loop of a connection does, or what is around it -/
inductive Turn where
  | arrive (a : Arrival)
  | read
  /-- the handler returns -/
  | respond
  | take
  | accept (n : Nat)
  | refuse
  | flush (ok : Bool)
  | shutDown (ok : Bool)

/-- what can happen on one connection -/
inductive Own where
  | turn (t : Turn)
  /-- its guard is told to stop -/
  | stop
  | abort
  | retire

inductive Deed where
  | connect (peer : Option Peer) (sink : Sink)
  | own (i : Nat) (o : Own)
  | await
  | poll (w : Nat)

/-- the handler returns what the service gives for the request in hand, if there is one -/
def Turn.event? (service : Service κ) (c : Connection) : Turn → Option Event
  | .arrive a => some (.arrive a)
  | .read => some .read
  | .respond =>
    match c.reader with
    | .handling request => some (.reply (service request.path request).reply)
    | _ => none
  | .take => some .take
  | .accept n => some (.accept n)
  | .refuse => some .refuse
  | .flush ok => some (.flush ok)
  | .shutDown ok => some (.shutDown ok)

/-- what handlers are called for, with the number of the connection -/
abbrev Calls := List (Nat × Request)

/-- what the handler of one connection is called for -/
def Calls.of (calls : Calls) (i : Nat) : List Request :=
  (calls.filter fun c => c.1 == i).map Prod.snd

/-! ## deeds -/

/-- what happens on a connection that is there; nothing if it is not possible -/
def own (s : Server κ) (i : Nat) (o : Own) : Option (Server κ × Calls) :=
  match s.links[i]? with
  | none => none
  | some l =>
    match o with
    | .turn t =>
      match t.event? s.service l.connection with
      | none => none
      | some e => (s.step? i e).map fun s => (s, (l.connection.handed e).map (i, ·))
    | .stop => some ({ s.modifyLink i Link.halt with registry := s.registry.stop l.guard }, [])
    | .abort => some (s.modifyLink i fun l => { l with aborted := true }, [])
    | .retire => some (s.retire i, [])

def perform (s : Server κ) : Deed → Option (Server κ × Calls)
  | .connect peer sink => some (s.opened peer sink, [])
  | .own i o => s.own i o
  | .await => some (s.await, [])
  | .poll w => some ({ s with registry := s.registry.poll w }, [])

/-- all deeds one after the other, and all that handlers are called for -/
def performAll (s : Server κ) : List Deed → Option (Server κ × Calls)
  | [] => some (s, [])
  | d :: ds =>
    match s.perform d with
    | none => none
    | some (m, calls) => (m.performAll ds).map fun (s, more) => (s, calls ++ more)

/-- the server after the deeds -/
def after (s : Server κ) (ds : List Deed) : Server κ := ((s.performAll ds).map Prod.fst).getD s

def Deed.own? (i : Nat) : Deed → Option Own
  | .own j o => if j = i then some o else none
  | _ => none

/-- what happens on one connection -/
def owns (i : Nat) (ds : List Deed) : List Own := ds.filterMap (Deed.own? i)

/-- the deeds by which there is a connection with this peer and sink, on which happens what happens on
one of the connections of `ds`, and no other -/
def alone (peer : Option Peer) (sink : Sink) (ds : List Deed) (i : Nat) : List Deed :=
  .connect peer sink :: (owns i ds).map (.own 0)

theorem perform_move {d : Deed} {calls : Calls} (h : s.perform d = some (s', calls)) :
    ∃ t, Move s t s' := by
  cases d with
  | connect peer sink =>
    cases h
    exact ⟨_, .connect peer sink⟩
  | await =>
    cases h
    exact ⟨_, .await⟩
  | poll w =>
    cases h
    exact ⟨_, .poll w⟩
  | own i o =>
    have h : s.own i o = some (s', calls) := h
    unfold own at h
    split at h
    · cases h
    · rename_i l link
      split at h
      · split at h
        · cases h
        · obtain ⟨m, step, e⟩ := Option.map_eq_some_iff.mp h
          cases e
          exact ⟨_, .event step⟩
      · cases h
        exact ⟨_, .stop link⟩
      · cases h
        exact ⟨_, .abort i⟩
      · cases h
        exact ⟨_, .retire i⟩

end PipelinedHttp.Server
