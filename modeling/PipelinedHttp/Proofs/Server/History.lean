import PipelinedHttp.Proofs.Connection.Step
import PipelinedHttp.Proofs.Lists
import PipelinedHttp.Proofs.Registry.Guards

/-!
# What can happen to a server

A `Move` is one thing that can happen to a server: a connection is opened, one of them takes a step,
someone stops one or all of them, waits for them, or takes one that has ended off the registry.  A
`History` is any number of moves in any order, so it has more schedules than the one in which a
server runs its connections; whatever commands do to a server is a history (`reaches_connect`,
`reaches_arrive`, ..., `reaches_stop`).

A history tells apart what has happened to each connection (`Trace`).  A connection knows nothing of
the others: what a history makes of it is a run of its own events (`History.went`,
`History.fresh`).
-/

namespace PipelinedHttp

/-! ## what happens to each connection -/

/-- the events of each connection, by its number -/
abbrev Trace := Nat → List Event

namespace Trace

def nothing : Trace := fun _ => []

/-- something happens to one connection only -/
def only (i : Nat) (es : List Event) : Trace := fun j => if j = i then es else []

def append (t u : Trace) : Trace := fun i => t i ++ u i

theorem only_self (i : Nat) (es : List Event) : only i es i = es := if_pos rfl

theorem only_nil (i j : Nat) : only i [] j = [] := ite_self _

theorem only_of_ne {i j : Nat} (ne : j ≠ i) (es : List Event) : only i es j = [] := if_neg ne

end Trace

namespace Link

/-- what matters to other connections and to the registry -/
def core (l : Link) : Connection × Nat × Bool := (l.connection, l.guard, l.aborted)

/-- a stop reaches the connection, unless it has been aborted -/
def halt (l : Link) : Link :=
  if l.aborted then l else { l with connection := { l.connection with stopped := true } }

def stops (l : Link) : List Event := if l.aborted then [] else [.stop]

/-- what the events have made of a connection -/
structure Went (l l' : Link) (es : List Event) : Prop where
  guard : l'.guard = l.guard
  run : ∃ notes, l.connection.run es = some (l'.connection, notes)
  aborted : l.aborted = true → l'.aborted = true ∧ es = []

theorem Went.of_core {l l' : Link} (h : l'.core = l.core) : Went l l' [] := by
  obtain ⟨connection, rest⟩ := Prod.mk.inj h
  obtain ⟨guard, aborted⟩ := Prod.mk.inj rest
  refine ⟨guard, ⟨[], ?_⟩, fun gone => ⟨aborted.trans gone, rfl⟩⟩
  rw [connection]
  rfl

theorem Went.trans {l m l' : Link} {es fs : List Event} (h : Went l m es) (g : Went m l' fs) :
    Went l l' (es ++ fs) := by
  obtain ⟨notes, run⟩ := h.run
  obtain ⟨rest, later⟩ := g.run
  refine ⟨g.guard.trans h.guard, ⟨_, Connection.run_append run later⟩, fun gone => ?_⟩
  obtain ⟨gone, none⟩ := h.aborted gone
  obtain ⟨gone, none'⟩ := g.aborted gone
  exact ⟨gone, by rw [none, none']; rfl⟩

theorem went_halt (l : Link) : Went l l.halt l.stops := by
  unfold halt stops
  split
  · exact .of_core rfl
  · rename_i go
    exact ⟨rfl, ⟨[], rfl⟩, fun gone => absurd gone go⟩

theorem went_aborted (l : Link) : Went l { l with aborted := true } [] :=
  ⟨rfl, ⟨[], rfl⟩, fun _ => ⟨rfl, rfl⟩⟩

end Link

namespace Server
variable {κ : Type} {s m s' : Server κ} {t u : Trace}

/-! ## moves -/

/-- a connection is opened, and nothing has happened on it -/
def opened (s : Server κ) (peer : Option Peer) (sink : Sink) : Server κ :=
  let connection := Connection.ofSettings s.settings.serverName s.date s.settings.queueCapacity
    s.settings.maxBody s.registry.shutdown
  { s with
    registry := s.registry.register peer
    links := s.links ++ [⟨connection, sink, s.registry.guards.length, .none, false⟩] }

/-- everyone is told to stop -/
def halt (s : Server κ) : Server κ :=
  { s with registry := s.registry.shutDown, links := s.links.map Link.halt }

/-- someone waits for the last connection to go -/
def await (s : Server κ) : Server κ :=
  { s with registry := s.registry.wait, stopping := some s.registry.waiters.length }

/-- nothing but handlers at work, their gate, the log and the sinks is different -/
structure Beside (s s' : Server κ) : Prop where
  settings : s'.settings = s.settings
  date : s'.date = s.date
  registry : s'.registry = s.registry
  stopping : s'.stopping = s.stopping
  links : s'.links.map Link.core = s.links.map Link.core

/-- one thing that can happen, and the events of connections that it is -/
inductive Move (s : Server κ) : Trace → Server κ → Prop
  | connect (peer : Option Peer) (sink : Sink) : Move s .nothing (s.opened peer sink)
  /-- what the connection counts goes to the registry -/
  | event {i : Nat} {e : Event} {s' : Server κ} (h : s.step? i e = some s') : Move s (.only i [e]) s'
  /-- one connection is told to stop -/
  | stop {i : Nat} {l : Link} (link : s.links[i]? = some l) :
      Move s (.only i l.stops) { s.modifyLink i Link.halt with registry := s.registry.stop l.guard }
  | shutDown : Move s (fun i => (s.links[i]?).elim [] Link.stops) s.halt
  | await : Move s .nothing s.await
  | poll (w : Nat) : Move s .nothing { s with registry := s.registry.poll w }
  | retire (i : Nat) : Move s .nothing (s.retire i)
  | abort (i : Nat) : Move s .nothing (s.modifyLink i fun l => { l with aborted := true })
  | beside {s' : Server κ} (h : Beside s s') : Move s .nothing s'

/-- moves, one after the other -/
inductive History (s : Server κ) : Trace → Server κ → Prop
  | refl : History s .nothing s
  | move {t u : Trace} {m s' : Server κ} (h : History s t m) (n : Move m u s') :
      History s (t.append u) s'

theorem History.trans (h : History s t m) (g : History m u s') : History s (t.append u) s' := by
  induction g with
  | refl =>
    have same : t.append .nothing = t := funext fun i => List.append_nil (t i)
    rw [same]
    exact h
  | @move v w n s' g n ih =>
    have same : t.append (v.append w) = (t.append v).append w :=
      funext fun i => (List.append_assoc _ _ _).symm
    rw [same]
    exact ih.move n

/-! ## what a move does to the connections -/

theorem record_eq (s : Server κ) (guard : Nat) (note : Option Note) :
    ∃ stats registry, s.record guard note = { s with registry }
      ∧ (registry = { s.registry with stats }
        ∨ note = some .respondError ∧ registry = Registry.stop { s.registry with stats } guard) := by
  unfold record
  split
  · exact ⟨s.registry.stats, s.registry, rfl, .inl rfl⟩
  · exact ⟨_, _, rfl, .inr ⟨rfl, rfl⟩⟩
  · exact ⟨_, _, rfl, .inl rfl⟩

/-- an event is a step of a connection that has not been aborted, and what it counts is recorded -/
theorem step?_spec {i : Nat} {e : Event} (h : s.step? i e = some s') :
    ∃ l c note, s.links[i]? = some l ∧ l.aborted = false ∧ l.connection.step e = some (c, note)
      ∧ s' = (s.modifyLink i fun l => { l with connection := c }).record l.guard note := by
  unfold step? at h
  split at h
  · cases h
  · rename_i l link
    split at h
    · cases h
    · rename_i go
      split at h
      · cases h
      · rename_i c note step
        exact ⟨l, c, note, link, Bool.eq_false_iff.mpr go, step, (Option.some.inj h).symm⟩

theorem step?_eq_some {i : Nat} {e : Event} (h : s.step? i e = some s') :
    ∃ l c note stats registry, s.links[i]? = some l ∧ l.aborted = false
      ∧ l.connection.step e = some (c, note)
      ∧ s' = { s with registry, links := s.links.modify i fun l => { l with connection := c } }
      ∧ (registry = { s.registry with stats }
        ∨ note = some .respondError ∧ registry = Registry.stop { s.registry with stats } l.guard) := by
  obtain ⟨l, c, note, link, go, step, rfl⟩ := step?_spec h
  obtain ⟨stats, registry, e, recorded⟩ := record_eq
    (s.modifyLink i fun l => { l with connection := c }) l.guard note
  exact ⟨l, c, note, stats, registry, link, go, step, e, recorded⟩

theorem retire_eq (s : Server κ) (i : Nat) : s.retire i = s
    ∨ ∃ l, s.links[i]? = some l ∧ l.over = true
      ∧ s.retire i = { s with registry := s.registry.drop l.guard } := by
  unfold retire
  split
  · exact .inl rfl
  · rename_i l link
    split
    · rename_i ended
      exact .inr ⟨l, link, ended, rfl⟩
    · exact .inl rfl

theorem retire_links (s : Server κ) (i : Nat) : (s.retire i).links = s.links := by
  rcases s.retire_eq i with e | ⟨l, -, -, e⟩ <;> rw [e]

theorem Beside.link {i : Nat} {l : Link} (h : Beside s s') (link : s.links[i]? = some l) :
    ∃ l', s'.links[i]? = some l' ∧ l'.core = l.core := by
  have same : (s'.links.map Link.core)[i]? = some l.core := by
    rw [h.links, List.getElem?_map, link]
    rfl
  rw [List.getElem?_map] at same
  exact Option.map_eq_some_iff.mp same

theorem Beside.length (h : Beside s s') : s'.links.length = s.links.length := by
  have same := congrArg List.length h.links
  rwa [List.length_map, List.length_map] at same

/-- a connection that is there stays there, and only its own events make a difference to it -/
theorem Move.went (h : Move s t s') {i : Nat} {l : Link} (link : s.links[i]? = some l) :
    ∃ l', s'.links[i]? = some l' ∧ l.Went l' (t i) := by
  have modified (j : Nat) (f : Link → Link) (es : List Event)
      (went : i = j → l.Went (f l) es) :
      ∃ l', (s.links.modify j f)[i]? = some l' ∧ l.Went l' (Trace.only j es i) := by
    refine ⟨_, getElem?_modify_of_some link, ?_⟩
    by_cases same : j = i
    · subst same
      rw [if_pos rfl, Trace.only_self]
      exact went rfl
    · rw [if_neg same, Trace.only_of_ne (Ne.symm same)]
      exact .of_core rfl
  cases h with
  | connect =>
    have lt := (List.getElem?_eq_some_iff.mp link).1
    exact ⟨l, (List.getElem?_append_left lt).trans link, .of_core rfl⟩
  | @event j e s' h =>
    obtain ⟨l', c, note, stats, registry, link', go, step, rfl, -⟩ := step?_eq_some h
    refine modified _ _ _ fun here => ?_
    subst here
    rw [link] at link'
    cases link'
    refine ⟨rfl, ⟨note.toList ++ [], ?_⟩, fun gone => ?_⟩
    · rw [Connection.run, step]
      rfl
    · rw [go] at gone
      cases gone
  | @stop j l' link' =>
    refine modified _ _ _ fun here => ?_
    subst here
    rw [link] at link'
    cases link'
    exact l.went_halt
  | shutDown =>
    refine ⟨l.halt, ?_, ?_⟩
    · show (s.links.map Link.halt)[i]? = _
      rw [List.getElem?_map, link]
      rfl
    · show l.Went l.halt ((s.links[i]?).elim [] Link.stops)
      rw [link]
      exact l.went_halt
  | await | poll => exact ⟨l, link, .of_core rfl⟩
  | retire j => exact ⟨l, by rw [retire_links, link], .of_core rfl⟩
  | abort j =>
    have went := modified j (fun l => { l with aborted := true }) [] fun _ => l.went_aborted
    rwa [Trace.only_nil] at went
  | beside h =>
    obtain ⟨l', link', same⟩ := h.link link
    exact ⟨l', link', .of_core same⟩

/-- a connection that was not there is the one that has been opened -/
theorem Move.fresh (h : Move s t s') {i : Nat} {l' : Link} (absent : s.links[i]? = none)
    (link : s'.links[i]? = some l') :
    i = s.links.length ∧ l'.guard = s.registry.guards.length ∧ l'.aborted = false
      ∧ l'.connection = .ofSettings s.settings.serverName s.date s.settings.queueCapacity
          s.settings.maxBody s.registry.shutdown := by
  have ge := List.getElem?_eq_none_iff.mp absent
  have lt := (List.getElem?_eq_some_iff.mp link).1
  have no {P : Prop} (length : s'.links.length = s.links.length) : P := by omega
  have modified {P : Prop} {j : Nat} {f : Link → Link} (links : s'.links = s.links.modify j f) :
      P := by
    refine no ?_
    rw [links, List.length_modify]
  cases h with
  | connect peer sink =>
    have length : (s.opened peer sink).links.length = s.links.length + 1 := by simp [opened]
    have here : i = s.links.length := by omega
    subst here
    have added := link
    rw [show (s.opened peer sink).links = s.links ++ [_] from rfl, List.getElem?_concat_length]
      at added
    cases added
    exact ⟨rfl, rfl, rfl, rfl⟩
  | event h =>
    obtain ⟨l, c, note, stats, registry, -, -, -, rfl, -⟩ := step?_eq_some h
    exact modified rfl
  | stop | abort => exact modified rfl
  | shutDown => exact no (List.length_map _)
  | await | poll => exact no rfl
  | retire j => exact no (by rw [retire_links])
  | beside h => exact no h.length

theorem Move.trace_of_none (h : Move s t s') {i : Nat} (absent : s.links[i]? = none) : t i = [] := by
  have other {j : Nat} {l : Link} (link : s.links[j]? = some l) (es : List Event) :
      Trace.only j es i = [] := by
    refine Trace.only_of_ne (fun same => ?_) es
    rw [same, link] at absent
    cases absent
  cases h with
  | connect | await | poll | retire | abort | beside => rfl
  | event h =>
    obtain ⟨l, c, note, stats, registry, link, -⟩ := step?_eq_some h
    exact other link _
  | stop link => exact other link _
  | shutDown =>
    show (s.links[i]?).elim [] Link.stops = []
    rw [absent]
    rfl

theorem Move.kept (h : Move s t s') : s'.settings = s.settings ∧ s'.date = s.date
    ∧ (s.registry.shutdown = true → s'.registry.shutdown = true) := by
  have stopped (r : Registry) (guard : Nat) (shut : r.shutdown = true) :
      (r.stop guard).shutdown = true := by
    rcases r.stop_cases guard with e | e <;> rw [e] <;> exact shut
  have dropped (r : Registry) (guard : Nat) (shut : r.shutdown = true) :
      (r.drop guard).shutdown = true := by
    cases found : r.guard? guard with
    | none =>
      rw [Registry.drop_of_none found]
      exact shut
    | some g =>
      obtain ⟨stats, waiters, e, -⟩ := Registry.drop_of_some found
      rw [e]
      exact shut
  cases h with
  | connect | await | poll | abort => exact ⟨rfl, rfl, id⟩
  | shutDown => exact ⟨rfl, rfl, fun _ => rfl⟩
  | stop => exact ⟨rfl, rfl, stopped _ _⟩
  | event h =>
    obtain ⟨l, c, note, stats, registry, -, -, -, rfl, rfl | ⟨-, rfl⟩⟩ := step?_eq_some h
    · exact ⟨rfl, rfl, id⟩
    · exact ⟨rfl, rfl, stopped { s.registry with stats } l.guard⟩
  | retire i =>
    rcases s.retire_eq i with e | ⟨l, -, -, e⟩ <;> rw [e]
    · exact ⟨rfl, rfl, id⟩
    · exact ⟨rfl, rfl, dropped _ _⟩
  | beside h => exact ⟨h.settings, h.date, by rw [h.registry]; exact id⟩

/-! ## what a history does to the connections -/

theorem History.kept (h : History s t s') : s'.settings = s.settings ∧ s'.date = s.date
    ∧ (s.registry.shutdown = true → s'.registry.shutdown = true) := by
  induction h with
  | refl => exact ⟨rfl, rfl, id⟩
  | move h n ih =>
    obtain ⟨settings, date, shutdown⟩ := n.kept
    exact ⟨settings.trans ih.1, date.trans ih.2.1, shutdown ∘ ih.2.2⟩

/-- a history makes a run of its own events of each connection -/
theorem History.went (h : History s t s') {i : Nat} {l : Link} (link : s.links[i]? = some l) :
    ∃ l', s'.links[i]? = some l' ∧ l.Went l' (t i) := by
  induction h with
  | refl => exact ⟨l, link, .of_core rfl⟩
  | move h n ih =>
    obtain ⟨m, middle, first⟩ := ih
    obtain ⟨l', last, second⟩ := n.went middle
    exact ⟨l', last, first.trans second⟩

/-- a connection that is opened in a history is a fresh one that has run its events; it is stopped
from the start if a shutdown has been before -/
theorem History.fresh (h : History s t s') {i : Nat} (absent : s.links[i]? = none) :
    s'.links[i]? = none ∧ t i = []
      ∨ ∃ l' stopped notes, s'.links[i]? = some l' ∧ (s.registry.shutdown = true → stopped = true)
        ∧ (Connection.ofSettings s.settings.serverName s.date s.settings.queueCapacity
            s.settings.maxBody stopped).run (t i) = some (l'.connection, notes) := by
  induction h with
  | refl => exact .inl ⟨absent, rfl⟩
  | @move t u m s' h n ih =>
    rcases ih with ⟨absent, before⟩ | ⟨l, stopped, notes, link, shut, run⟩
    · have still : (t.append u) i = [] := by
        rw [Trace.append, before, n.trace_of_none absent]
        rfl
      cases link : s'.links[i]? with
      | none => exact .inl ⟨rfl, still⟩
      | some l' =>
        obtain ⟨settings, date, shutdown⟩ := h.kept
        obtain ⟨-, -, -, connection⟩ := n.fresh absent link
        refine .inr ⟨l', m.registry.shutdown, [], rfl, shutdown, ?_⟩
        rw [still, connection, settings, date]
        rfl
    · obtain ⟨l', link', went⟩ := n.went link
      obtain ⟨rest, later⟩ := went.run
      exact .inr ⟨l', stopped, _, link', shut, Connection.run_append run later⟩

theorem History.of_run {i : Nat} {l : Link} {es : List Event} {c : Connection} {notes : List Note}
    (link : s.links[i]? = some l) (go : l.aborted = false)
    (run : l.connection.run es = some (c, notes)) :
    ∃ s', History s (.only i es) s'
      ∧ s'.links = s.links.modify i fun l => { l with connection := c } := by
  induction es generalizing s l notes with
  | nil =>
    cases run
    have same : Trace.only i [] = .nothing := funext fun j => Trace.only_nil i j
    refine ⟨s, by rw [same]; exact .refl, List.ext_getElem? fun j => ?_⟩
    rw [List.getElem?_modify]
    by_cases here : i = j
    · subst here
      simp [link]
    · simp [here]
  | cons e es ih =>
    obtain ⟨d, note, rest, step, later, rfl⟩ := Connection.run_cons run
    obtain ⟨m, taken, changed⟩ : ∃ m, s.step? i e = some m
        ∧ m.links = s.links.modify i fun l => { l with connection := d } := by
      obtain ⟨stats, registry, recorded, -⟩ := record_eq
        (s.modifyLink i fun l => { l with connection := d }) l.guard note
      refine ⟨{ s.modifyLink i fun l => { l with connection := d } with registry }, ?_, rfl⟩
      unfold step?
      rw [link]
      simp only [go, step, ← recorded]
      rfl
    have there : m.links[i]? = some { l with connection := d } := by
      rw [changed, getElem?_modify_of_some link, if_pos rfl]
    obtain ⟨s', history, links⟩ := ih there go later
    have same : Trace.only i (e :: es) = (Trace.nothing.append (.only i [e])).append (.only i es) := by
      funext j
      by_cases here : j = i <;> simp [Trace.only, Trace.append, Trace.nothing, here]
    refine ⟨s', ?_, ?_⟩
    · rw [same]
      exact (History.refl.move (.event taken)).trans history
    · rw [links, changed]
      exact List.modify_modify_eq _ _ _ _

end Server

end PipelinedHttp
