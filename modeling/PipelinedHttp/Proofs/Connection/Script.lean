import PipelinedHttp.Proofs.Connection.Invariant
import PipelinedHttp.Routes

/-!
# What a run is given

The client, the handler and the transport are what a run of a connection depends on.

* `Orderly`, `incoming`   the client sends octets, and then nothing behind the end of its stream;
* `ToCome`                what is still to come fits to the end that the connection knows of;
* `Answered`, `Along`     the handler gives the reply of a fixed `Handler`, in its own time;
* `collect`               what the steps of a run give, in order;
* `replies`               whatever the handler gives;
* `Fails`                 the events in which a write or a flush fails;
* `upToClose`             the requests that are answered;
* `answer`, `written`     the octets of an answer, and of any reply to a request.
-/

namespace PipelinedHttp

/-! ## answers -/

/-- the requests that are answered: none behind the first that closes the connection -/
def upToClose : List Request → List Request
  | [] => []
  | r :: rs => r :: if Connection.closes r then [] else upToClose rs

theorem upToClose_of_closes {r : Request} (h : Connection.closes r = true) (rs : List Request) :
    upToClose (r :: rs) = [r] := by
  rw [upToClose, if_pos h]

theorem upToClose_of_stays {r : Request} (h : Connection.closes r = false) (rs : List Request) :
    upToClose (r :: rs) = r :: upToClose rs := by
  rw [upToClose, h]
  rfl

def answer (serverName date : Bytes) (handler : Handler) (r : Request) : Bytes :=
  (((handler r.path r).finish r).stamp serverName date).encode

/-- the octets of a reply that the handler has given to a request -/
def written (serverName date : Bytes) (answered : Request × Reply) : Bytes :=
  ((answered.2.finish answered.1).stamp serverName date).encode

namespace Connection

/-! ## the client -/

def arrivals (es : List Event) : List Arrival :=
  es.filterMap fun
    | .arrive a => some a
    | _ => none

theorem arrivals_cons (e : Event) (es : List Event) :
    arrivals (e :: es) = arrivals [e] ++ arrivals es := by
  cases e <;> rfl

/-- nothing comes behind the end -/
def Orderly : List Arrival → Prop
  | [] => True
  | .octets _ :: as => Orderly as
  | _ :: as => as = []

/-- the octets that come -/
def incoming : List Arrival → Bytes
  | [] => []
  | .octets s :: as => s ++ incoming as
  | _ :: as => incoming as

def ofEnding : Ending → Arrival
  | .clean => .ended
  | .broken => .failed

theorem orderly_pieces (pieces : List Bytes) (ending : Ending) :
    Orderly (pieces.map .octets ++ [ofEnding ending]) := by
  induction pieces with
  | nil => cases ending <;> rfl
  | cons s pieces ih => exact ih

theorem incoming_pieces (pieces : List Bytes) (ending : Ending) :
    incoming (pieces.map .octets ++ [ofEnding ending]) = pieces.flatten := by
  induction pieces with
  | nil => cases ending <;> rfl
  | cons s pieces ih =>
    rw [List.flatten_cons, ← ih]
    rfl

/-- what can still come from the client -/
structure ToCome (c : Connection) (rest : List Arrival) : Prop where
  orderly : Orderly rest
  ended : c.ending ≠ none → rest = []

theorem ToCome.incoming_eq_nil {c : Connection} {rest : List Arrival} (come : c.ToCome rest)
    (ended : c.ending ≠ none) : incoming rest = [] := by
  rw [come.ended ended]
  rfl

theorem toCome_ofSettings (serverName date : Bytes) (queueCapacity maxBody : Nat) (stopped : Bool)
    (pieces : List Bytes) (ending : Ending) :
    (ofSettings serverName date queueCapacity maxBody stopped).ToCome
      (pieces.map .octets ++ [ofEnding ending]) where
  orderly := orderly_pieces pieces ending
  ended h := absurd rfl h

theorem Reading.arrivals {c c' : Connection} {e : Event} {note : Option Note}
    (h : Reading c e c' note) : arrivals [e] = [] := by
  cases h <;> rfl

theorem Writing.arrivals {c c' : Connection} {e : Event} {note : Option Note}
    (h : Writing c e c' note) : arrivals [e] = [] := by
  cases h <;> rfl

theorem ToCome.step {c c' : Connection} {e : Event} {note : Option Note} {rest : List Arrival}
    (come : c.ToCome (arrivals [e] ++ rest)) (h : Step c e c' note) : c'.ToCome rest := by
  have kept (same : c'.ending = c.ending) (none : arrivals [e] = []) : c'.ToCome rest := by
    rw [none] at come
    exact ⟨come.orderly, fun ended => come.ended (same ▸ ended)⟩
  cases h with
  | stop => exact kept rfl rfl
  | reading h => exact kept h.writing_kept.ending h.arrivals
  | writing h => exact kept h.reading_kept.ending h.arrivals
  | arrive a =>
    cases a with
    | octets s => exact ⟨come.orderly, fun ended => absurd (come.ended ended) nofun⟩
    | ended | failed =>
      have nil : rest = [] := come.orderly
      subst nil
      exact ⟨trivial, fun _ => rfl⟩

theorem arrivals_append (es fs : List Event) : arrivals (es ++ fs) = arrivals es ++ arrivals fs :=
  List.filterMap_append

theorem incoming_append (as bs : List Arrival) : incoming (as ++ bs) = incoming as ++ incoming bs := by
  induction as with
  | nil => rfl
  | cons a as ih =>
    rw [List.cons_append]
    cases a with
    | octets s => rw [incoming, incoming, ih, List.append_assoc]
    | ended | failed => rw [incoming, incoming, ih] <;> nofun

/-! ## the handler -/

def replies (es : List Event) : List Reply :=
  es.filterMap fun
    | .reply r => some r
    | _ => none

theorem replies_append (es fs : List Event) : replies (es ++ fs) = replies es ++ replies fs :=
  List.filterMap_append

/-- something holds before each step of a run -/
def Along (P : Connection → Event → Prop) (c : Connection) : List Event → Prop
  | [] => True
  | e :: es => P c e ∧ ∀ m note, c.step e = some (m, note) → Along P m es

theorem Along.of_forall {P : Connection → Event → Prop} {es : List Event}
    (h : ∀ c, ∀ e ∈ es, P c e) (c : Connection) : Along P c es := by
  induction es generalizing c with
  | nil => trivial
  | cons e es ih =>
    refine ⟨h c e List.mem_cons_self, fun m note _ => ih (fun c f hf => ?_) m⟩
    exact h c f (List.mem_cons_of_mem e hf)

/-- what the steps of a run give, one after the other -/
def collect {α : Type} (f : Connection → Event → List α) (c : Connection) : List Event → List α
  | [] => []
  | e :: es =>
    match c.step e with
    | none => []
    | some (m, _) => f c e ++ collect f m es

theorem collect_cons {α : Type} {c m : Connection} {e : Event} {note : Option Note}
    (h : c.step e = some (m, note)) (f : Connection → Event → List α) (es : List Event) :
    c.collect f (e :: es) = f c e ++ m.collect f es := by
  rw [collect, h]

/-- what the handler returns is its reply to the request in hand -/
def Answered (handler : Handler) (c : Connection) : Event → Prop
  | .reply r => ∀ request, c.reader = .handling request → r = handler request.path request
  | _ => True

theorem answered_constant {reply : Reply} {es : List Event}
    (h : ∀ r, Event.reply r ∈ es → r = reply) (c : Connection) :
    Along (Answered fun _ _ => reply) c es := by
  refine .of_forall (fun c e he => ?_) c
  cases e with
  | reply r => exact fun _ _ => h r he
  | arrive | stop | read | take | accept | refuse | flush | shutDown => trivial

/-! ## the transport -/

/-- a write or a flush fails -/
def Fails : Event → Prop
  | .refuse => True
  | .accept n => n = 0
  | .flush ok => ok = false
  | _ => False

/-- nothing but a stop and a failed write stops a connection -/
theorem Step.stopped {c c' : Connection} {e : Event} {note : Option Note} (h : Step c e c' note)
    (smooth : ¬ Fails e ∧ e ≠ .stop) : c'.stopped = c.stopped := by
  cases h with
  | arrive a => cases a <;> rfl
  | stop => exact absurd rfl smooth.2
  | reading h => exact h.writing_kept.stopped
  | writing h =>
    cases h with
    | @take r ticket queue =>
      rcases handOver_spec { c with
        queue, writer := .sending (r.stamp c.serverName c.date).encode } ticket with e | ⟨n, _, e⟩
        <;> rw [e]
    | stuck | flushFailed => exact absurd rfl smooth.1
    | refuse => exact absurd trivial smooth.1
    | takeLast | accept | acceptAll | flush | shutDown => rfl

end Connection

end PipelinedHttp
