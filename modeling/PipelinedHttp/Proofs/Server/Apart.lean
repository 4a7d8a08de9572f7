import PipelinedHttp.Proofs.Lists
import PipelinedHttp.Proofs.Server.Deeds

/-!
# Connections do not interfere

A connection has a `Fate`: what it has become, what its guard says, what it has counted and what its
handler has been called for.  What happens on it makes another fate of it (`Fate.own`), and a server
does to its connections just what happens to their fates, to each its own (`Shows.own`).  What a server
counts is the sum of what they count.

* `Shows.all`          so a list of deeds is to a server what it is to the fates of its connections;
* `fateOf_fatedAll`    a fate comes from what happens on its connection, and from nothing else;
* `apart`              so a connection has the fate that it would have had alone.
-/

namespace PipelinedHttp

namespace Stats

/-- what has been noted of a kind -/
def of (s : Stats) : Note → Nat
  | .served => s.served
  | .readError => s.readErrors
  | .respondError => s.respondErrors

theorem of_note (s : Stats) (n n' : Note) : (s.note n).of n' = s.of n' + [n].count n' := by
  cases n <;> cases n' <;> rfl

end Stats

namespace Server
variable {κ : Type} {s s' : Server κ} {settings : Settings} {date : Bytes} {service : Service κ}
  {i j : Nat} {l : Link} {calls more : Calls}

/-! ## the fate of a connection -/

structure Fate where
  connection : Connection
  aborted : Bool
  /-- whether its guard has been told to stop; nothing if it has been dropped -/
  stopped : Option Bool
  notes : List Note
  calls : List Request

namespace Fate
variable {f f' : Fate}

def isOver (f : Fate) : Bool := f.aborted || f.connection.finished

def ofSettings (settings : Settings) (date : Bytes) : Fate :=
  ⟨.ofSettings settings.serverName date settings.queueCapacity settings.maxBody false, false,
    some false, [], []⟩

/-- a step of the connection, and what it counts and calls for -/
def step (f : Fate) (c : Connection) (note : Option Note) (called : List Request) : Fate :=
  { f with
    connection := c
    stopped := if note = some .respondError then f.stopped.map fun _ => true else f.stopped
    notes := f.notes ++ note.toList
    calls := f.calls ++ called }

/-- what happens on the connection; nothing if it is not possible -/
def own (service : Service κ) (f : Fate) : Own → Option Fate
  | .turn t =>
    match t.event? service f.connection with
    | none => none
    | some e =>
      if f.aborted then none
      else match f.connection.step e with
        | none => none
        | some (c, note) => some (f.step c note (f.connection.handed e))
  | .stop => some { f with
      connection := if f.aborted then f.connection else { f.connection with stopped := true }
      stopped := f.stopped.map fun _ => true }
  | .abort => some { f with aborted := true }
  | .retire => some { f with stopped := if f.isOver then none else f.stopped }

def ownAll (service : Service κ) (f : Fate) : List Own → Option Fate
  | [] => some f
  | o :: os =>
    match f.own service o with
    | none => none
    | some f => f.ownAll service os

end Fate

/-- deeds as they are to the fates of all connections -/
def fated (settings : Settings) (date : Bytes) (service : Service κ) (fates : List Fate) :
    Deed → Option (List Fate)
  | .connect _ _ => some (fates ++ [.ofSettings settings date])
  | .own i o =>
    match fates[i]? with
    | none => none
    | some f => (f.own service o).map fun f => fates.modify i fun _ => f
  | .await | .poll _ => some fates

/-! ## a server shows the fates of its connections -/

/-- the connections of a server have these fates -/
structure Shows (settings : Settings) (date : Bytes) (service : Service κ) (s : Server κ)
    (calls : Calls) (fates : List Fate) : Prop where
  sound : s.Sound
  settings : s.settings = settings
  date : s.date = date
  service : s.service = service
  goes : s.registry.shutdown = false
  length : s.links.length = fates.length
  link : ∀ (i : Nat) (l : Link) (f : Fate), s.links[i]? = some l → fates[i]? = some f →
    f.connection = l.connection ∧ f.aborted = l.aborted
      ∧ f.stopped = s.registry.stopped? i ∧ f.calls = calls.of i
  absent : ∀ c ∈ calls, c.1 < fates.length
  total : s.registry.stats.total = fates.length
  noted : ∀ n, s.registry.stats.of n = (fates.map fun f => f.notes.count n).sum

/-- what happens on a connection is what happens to its fate -/
def Follows (settings : Settings) (date : Bytes) (service : Service κ) (s : Server κ)
    (calls : Calls) (fates : List Fate) (f : Fate) (i : Nat) (o : Own) : Prop :=
  s.own i o = none ∧ f.own service o = none
    ∨ ∃ s' more f', s.own i o = some (s', more) ∧ f.own service o = some f'
      ∧ Shows settings date service s' (calls ++ more) (fates.modify i fun _ => f')

theorem Follows.possible {f : Fate} {o : Own} {fates : List Fate}
    (h : Follows settings date service s calls fates f i o) :
    (s.own i o).isSome = (f.own service o).isSome := by
  rcases h with ⟨no, none⟩ | ⟨s', more, f', done, made, -⟩
  · rw [no, none]
    rfl
  · rw [done, made]
    rfl

/-- what a step counts is noted, and a failed write tells the guard to stop -/
structure Recorded (s : Server κ) (guard : Nat) (note : Option Note) (s' : Server κ) : Prop where
  same : s'.settings = s.settings ∧ s'.date = s.date ∧ s'.service = s.service
  links : s'.links = s.links
  shutdown : s'.registry.shutdown = s.registry.shutdown
  total : s'.registry.stats.total = s.registry.stats.total
  noted : ∀ n, s'.registry.stats.of n = s.registry.stats.of n + note.toList.count n
  own : s'.registry.stopped? guard
    = if note = some .respondError then (s.registry.stopped? guard).map fun _ => true
      else s.registry.stopped? guard
  others : ∀ j ≠ guard, s'.registry.stopped? j = s.registry.stopped? j

theorem recorded (s : Server κ) (guard : Nat) (note : Option Note) :
    Recorded s guard note (s.record guard note) := by
  match note with
  | none => exact ⟨⟨rfl, rfl, rfl⟩, rfl, rfl, rfl, fun _ => rfl, rfl, fun _ _ => rfl⟩
  | some .served | some .readError =>
    exact ⟨⟨rfl, rfl, rfl⟩, rfl, rfl, rfl, Stats.of_note _ _, rfl, fun _ _ => rfl⟩
  | some .respondError =>
    obtain ⟨stats, shutdown⟩ := (s.registry.note .respondError).stop_kept guard
    refine ⟨⟨rfl, rfl, rfl⟩, rfl, shutdown, congrArg (·.total) stats, fun n => ?_,
      Registry.stopped?_stop _ _, fun j ne => ?_⟩
    · exact (congrArg (Stats.of · n) stats).trans (Stats.of_note _ _ n)
    · show ((s.registry.note .respondError).stop guard).stopped? j = _
      unfold Registry.stopped?
      rw [Registry.guard?_stop_of_ne _ (Ne.symm ne)]
      rfl

theorem Calls.of_append (calls more : Calls) (i : Nat) :
    Calls.of (calls ++ more) i = Calls.of calls i ++ Calls.of more i := by
  unfold Calls.of
  rw [List.filter_append, List.map_append]

theorem Calls.of_same (i : Nat) (rs : List Request) : Calls.of (rs.map (i, ·)) i = rs := by
  unfold Calls.of
  induction rs with
  | nil => rfl
  | cons r rs ih => simp [ih]

theorem Calls.of_ne (ne : i ≠ j) (rs : List Request) : Calls.of (rs.map (i, ·)) j = [] := by
  unfold Calls.of
  induction rs with
  | nil => rfl
  | cons r rs ih => simp [ih, ne]

theorem Calls.of_absent {n : Nat} (below : ∀ c ∈ calls, c.1 < n) : Calls.of calls n = [] := by
  unfold Calls.of
  rw [List.filter_eq_nil_iff.mpr]
  · rfl
  · intro c mem same
    exact absurd (below c mem) (by rw [beq_iff_eq.mp same]; exact Nat.lt_irrefl n)

namespace Shows
variable {fates : List Fate} {f f' : Fate} {o : Own}
  (h : Shows settings date service s calls fates)
include h

theorem guard (link : s.links[i]? = some l) : l.guard = i := by
  obtain ⟨g, -, guarded⟩ := h.sound.guard link
  exact guarded.link

theorem modify (l' : Link) (f' : Fate) (called : List Request) (notes : List Note)
    (link : s.links[i]? = some l) (fate : fates[i]? = some f) (sound : s'.Sound)
    (same : s'.settings = s.settings ∧ s'.date = s.date ∧ s'.service = s.service)
    (goes : s'.registry.shutdown = s.registry.shutdown)
    (links : s'.links = s.links.modify i fun _ => l')
    (connection : f'.connection = l'.connection) (aborted : f'.aborted = l'.aborted)
    (stopped : f'.stopped = s'.registry.stopped? i)
    (others : ∀ j ≠ i, s'.registry.stopped? j = s.registry.stopped? j)
    (calls' : f'.calls = f.calls ++ called)
    (total : s'.registry.stats.total = s.registry.stats.total)
    (notes' : f'.notes = f.notes ++ notes)
    (noted : ∀ n, s'.registry.stats.of n = s.registry.stats.of n + notes.count n) :
    Shows settings date service s' (calls ++ called.map (i, ·)) (fates.modify i fun _ => f') := by
  obtain ⟨-, -, -, before⟩ := h.link i l f link fate
  refine ⟨sound, same.1.trans h.settings, same.2.1.trans h.date, same.2.2.trans h.service,
    goes.trans h.goes, ?_, fun j k g there own => ?_, fun c mem => ?_, ?_, fun n => ?_⟩
  · rw [links, List.length_modify, List.length_modify, h.length]
  · rw [links] at there
    by_cases here : i = j
    · subst here
      rw [getElem?_modify_of_some link, if_pos rfl] at there
      rw [getElem?_modify_of_some fate, if_pos rfl] at own
      cases there
      cases own
      refine ⟨connection, aborted, stopped, ?_⟩
      rw [calls', before, Calls.of_append, Calls.of_same]
    · rw [List.getElem?_modify_ne _ _ here] at there own
      obtain ⟨first, second, third, fourth⟩ := h.link j k g there own
      refine ⟨first, second, third.trans (others j (Ne.symm here)).symm, ?_⟩
      rw [fourth, Calls.of_append, Calls.of_ne here, List.append_nil]
  · rw [List.length_modify]
    rcases List.mem_append.mp mem with mem | mem
    · exact h.absent c mem
    · obtain ⟨r, -, rfl⟩ := List.mem_map.mp mem
      exact (List.getElem?_eq_some_iff.mp fate).1
  · rw [total, h.total, List.length_modify]
  · have sum := sum_map_modify (fun f => f.notes.count n) (fun _ => f') fate
    rw [notes', List.count_append] at sum
    have before := h.noted n
    have after := noted n
    omega

theorem turn (link : s.links[i]? = some l) (fate : fates[i]? = some f) (t : Turn) :
    Follows settings date service s calls fates f i (.turn t) := by
  obtain rfl := h.guard link
  obtain ⟨connection, aborted, stopped, -⟩ := h.link _ l f link fate
  unfold Follows Server.own Fate.own
  rw [link, h.service, connection, aborted]
  dsimp only
  cases t.event? service l.connection with
  | none => exact .inl ⟨rfl, rfl⟩
  | some e =>
    dsimp only
    unfold step?
    rw [link]
    dsimp only
    cases gone : l.aborted with
    | true => exact .inl ⟨rfl, rfl⟩
    | false =>
      simp only [Bool.false_eq_true, if_false]
      cases step : l.connection.step e with
      | none => exact .inl ⟨rfl, rfl⟩
      | some next =>
        obtain ⟨c, note⟩ := next
        have taken : s.step? l.guard e = some
            ((s.modifyLink l.guard fun l => { l with connection := c }).record l.guard note) := by
          unfold step?
          rw [link]
          simp only [gone, step, Bool.false_eq_true, if_false]
        have recorded := recorded (s.modifyLink l.guard fun l => { l with connection := c }) l.guard
          note
        refine .inr ⟨_, _, _, rfl, rfl, ?_⟩
        refine h.modify { l with connection := c } (f.step c note (l.connection.handed e)) _ _
          link fate (h.sound.move (.event taken)) recorded.same recorded.shutdown
          (recorded.links.trans (modify_congr fun l' there => ?_)) rfl aborted ?_ ?_ rfl
          recorded.total rfl recorded.noted
        · rw [Option.some.inj (link.symm.trans there)]
        · rw [recorded.own]
          show (if _ then f.stopped.map _ else f.stopped) = _
          rw [stopped]
          rfl
        · exact recorded.others

theorem stop (link : s.links[i]? = some l) (fate : fates[i]? = some f) :
    Follows settings date service s calls fates f i .stop := by
  obtain rfl := h.guard link
  obtain ⟨connection, aborted, stopped, -⟩ := h.link _ l f link fate
  obtain ⟨stats, shutdown⟩ := s.registry.stop_kept l.guard
  unfold Follows Server.own Fate.own
  rw [link]
  refine .inr ⟨_, _, _, rfl, rfl, ?_⟩
  refine h.modify l.halt _ [] [] link fate (h.sound.move (.stop link))
    ⟨rfl, rfl, rfl⟩ shutdown (modify_congr fun l' there => ?_) ?_ ?_ ?_ (fun j ne => ?_)
    (List.append_nil _).symm (congrArg Stats.total stats) (List.append_nil _).symm
    fun n => congrArg (Stats.of · n) stats
  · rw [Option.some.inj (link.symm.trans there)]
  · rw [connection, aborted]
    unfold Link.halt
    split <;> rfl
  · rw [aborted]
    unfold Link.halt
    split <;> rfl
  · show f.stopped.map _ = (s.registry.stop l.guard).stopped? l.guard
    rw [stopped, Registry.stopped?_stop]
  · show (s.registry.stop l.guard).stopped? j = _
    unfold Registry.stopped?
    rw [Registry.guard?_stop_of_ne _ (Ne.symm ne)]

theorem abort (link : s.links[i]? = some l) (fate : fates[i]? = some f) :
    Follows settings date service s calls fates f i .abort := by
  obtain ⟨connection, -, stopped, -⟩ := h.link i l f link fate
  unfold Follows Server.own Fate.own
  rw [link]
  refine .inr ⟨_, _, _, rfl, rfl, ?_⟩
  refine h.modify { l with aborted := true } { f with aborted := true } [] [] link fate
    (h.sound.move (.abort i)) ⟨rfl, rfl, rfl⟩ rfl (modify_congr fun l' there => ?_) connection rfl
    stopped (fun _ _ => rfl) (List.append_nil _).symm rfl (List.append_nil _).symm fun _ => rfl
  rw [Option.some.inj (link.symm.trans there)]

theorem retire (link : s.links[i]? = some l) (fate : fates[i]? = some f) :
    Follows settings date service s calls fates f i .retire := by
  obtain rfl := h.guard link
  obtain ⟨connection, aborted, stopped, -⟩ := h.link _ l f link fate
  have same : f.isOver = l.over := by
    unfold Fate.isOver Link.over
    rw [connection, aborted]
  have links : s.links = s.links.modify l.guard fun _ => l := by
    rw [modify_congr (g := id) fun l' there => Option.some.inj (link.symm.trans there),
      List.modify_id]
  have sound := h.sound.move (.retire l.guard)
  unfold Follows Server.own Fate.own
  rw [link, same]
  refine .inr ⟨_, _, _, rfl, rfl, ?_⟩
  unfold Server.retire at sound ⊢
  rw [link] at sound ⊢
  dsimp only at sound ⊢
  split
  · rename_i ended
    rw [if_pos ended] at sound
    obtain ⟨stats, shutdown⟩ := s.registry.drop_kept l.guard
    refine h.modify l { f with stopped := none } [] [] link fate sound
      ⟨rfl, rfl, rfl⟩ shutdown links
      connection aborted ?_ (fun j ne => ?_) (List.append_nil _).symm ?_ (List.append_nil _).symm
      fun n => ?_
    · show none = (s.registry.drop l.guard).stopped? l.guard
      unfold Registry.stopped?
      rw [Registry.guard?_drop]
      rfl
    · show (s.registry.drop l.guard).stopped? j = _
      unfold Registry.stopped?
      rw [Registry.guard?_drop_of_ne _ (Ne.symm ne)]
    · exact congrArg (·.total) stats
    · show (s.registry.drop l.guard).stats.of n = _
      rw [stats]
      cases n <;> rfl
  · rename_i goes
    rw [if_neg goes] at sound
    exact h.modify l _ [] [] link fate sound ⟨rfl, rfl, rfl⟩ rfl links
      connection aborted stopped (fun _ _ => rfl) (List.append_nil _).symm rfl
      (List.append_nil _).symm fun _ => rfl

/-- whatever happens on a connection is what happens to its fate -/
theorem own (link : s.links[i]? = some l) (fate : fates[i]? = some f) (o : Own) :
    Follows settings date service s calls fates f i o := by
  cases o with
  | turn t => exact h.turn link fate t
  | stop => exact h.stop link fate
  | abort => exact h.abort link fate
  | retire => exact h.retire link fate

theorem opened (peer : Option Peer) (sink : Sink) : Shows settings date service
    (s.opened peer sink) calls (fates ++ [.ofSettings settings date]) := by
  have length := h.length
  have guards := h.sound.length
  refine ⟨h.sound.move (.connect peer sink), h.settings, h.date, h.service, h.goes, ?_,
    fun j k g link fate => ?_, fun c mem => ?_, ?_, fun n => ?_⟩
  · show (s.links ++ [_]).length = _
    rw [List.length_append, List.length_append, length]
    rfl
  · have link : (s.links ++ [_])[j]? = some k := link
    have stopped : (s.opened peer sink).registry.stopped? j
        = (((s.registry.guards ++ [⟨s.registry.nextId, s.registry.shutdown, false⟩])[j]?).filter
          fun g => !g.dropped).map Guard.stopped := rfl
    rcases Nat.lt_or_ge j s.links.length with before | after
    · rw [List.getElem?_append_left before] at link
      rw [List.getElem?_append_left (length ▸ before)] at fate
      rw [stopped, List.getElem?_append_left (guards ▸ before)]
      exact h.link j k g link fate
    · have last : j = s.links.length := by
        have lt := (List.getElem?_eq_some_iff.mp link).1
        rw [List.length_append, List.length_singleton] at lt
        omega
      subst last
      have none : calls.of s.links.length = [] := Calls.of_absent (length ▸ h.absent)
      rw [List.getElem?_concat_length] at link
      rw [length, List.getElem?_concat_length] at fate
      rw [stopped, ← guards, List.getElem?_concat_length, guards, none, h.goes]
      cases link
      cases fate
      refine ⟨?_, rfl, rfl, rfl⟩
      rw [h.settings, h.date, h.goes]
      rfl
  · rw [List.length_append]
    exact Nat.lt_of_lt_of_le (h.absent c mem) (Nat.le_add_right _ _)
  · show s.registry.stats.total + 1 = _
    rw [h.total, List.length_append]
    rfl
  · rw [List.map_append, List.sum_append]
    show s.registry.stats.of n = _
    exact h.noted n

theorem looks {waiters : List Waiter} {stopping : Option Nat}
    (sound : Sound { s with registry := { s.registry with waiters }, stopping }) :
    Shows settings date service { s with registry := { s.registry with waiters }, stopping } calls
      fates :=
  ⟨sound, h.settings, h.date, h.service, h.goes, h.length, h.link, h.absent, h.total, h.noted⟩

/-- a deed is to a server what it is to the fates of its connections -/
theorem deed (d : Deed) :
    s.perform d = none ∧ fated settings date service fates d = none
      ∨ ∃ s' more fates', s.perform d = some (s', more)
        ∧ fated settings date service fates d = some fates'
        ∧ Shows settings date service s' (calls ++ more) fates' := by
  cases d with
  | connect peer sink =>
    refine .inr ⟨_, [], _, rfl, rfl, ?_⟩
    rw [List.append_nil]
    exact h.opened peer sink
  | await =>
    refine .inr ⟨_, [], _, rfl, rfl, ?_⟩
    rw [List.append_nil]
    exact h.looks (h.sound.move .await)
  | poll w =>
    refine .inr ⟨_, [], _, rfl, rfl, ?_⟩
    rw [List.append_nil]
    exact h.looks (h.sound.move (.poll w))
  | own i o =>
    unfold perform fated
    dsimp only
    cases link : s.links[i]? with
    | none =>
      have none : fates[i]? = none := by
        rw [List.getElem?_eq_none_iff] at link ⊢
        exact h.length ▸ link
      refine .inl ⟨?_, by rw [none]⟩
      unfold Server.own
      rw [link]
    | some l =>
      have lt := (List.getElem?_eq_some_iff.mp link).1
      have fate := List.getElem?_eq_getElem (h.length ▸ lt)
      rw [fate]
      dsimp only
      rcases h.own link fate o with ⟨no, none⟩ | ⟨s', more, f', done, made, shows⟩
      · exact .inl ⟨no, by rw [none]; rfl⟩
      · exact .inr ⟨s', more, _, done, by rw [made]; rfl, shows⟩

end Shows

/-! ## many deeds -/

def fatedAll (settings : Settings) (date : Bytes) (service : Service κ) (fates : List Fate) :
    List Deed → Option (List Fate)
  | [] => some fates
  | d :: ds =>
    match fated settings date service fates d with
    | none => none
    | some fates => fatedAll settings date service fates ds

variable {fates fates' : List Fate} {f f' : Fate} {ds : List Deed}

theorem shows_ofSettings (settings : Settings) (date : Bytes) (service : Service κ) :
    Shows settings date service (ofSettings settings date service) [] [] where
  sound := sound_ofSettings settings date service
  settings := rfl
  date := rfl
  service := rfl
  goes := rfl
  length := rfl
  link _ _ _ there := nomatch there
  absent _ mem := nomatch mem
  total := rfl
  noted n := by cases n <;> rfl

theorem Shows.all (h : Shows settings date service s calls fates) (ds : List Deed) :
    s.performAll ds = none ∧ fatedAll settings date service fates ds = none
      ∨ ∃ s' more fates', s.performAll ds = some (s', more)
        ∧ fatedAll settings date service fates ds = some fates'
        ∧ Shows settings date service s' (calls ++ more) fates' := by
  induction ds generalizing s calls fates with
  | nil =>
    refine .inr ⟨s, [], fates, rfl, rfl, ?_⟩
    rw [List.append_nil]
    exact h
  | cons d ds ih =>
    unfold performAll fatedAll
    rcases h.deed d with ⟨no, none⟩ | ⟨m, first, fates₁, done, made, shows⟩
    · rw [no, none]
      exact .inl ⟨rfl, rfl⟩
    · rw [done, made]
      dsimp only
      rcases ih shows with ⟨no, none⟩ | ⟨s', rest, fates', done, made, shows⟩
      · exact .inl ⟨by rw [no]; rfl, none⟩
      · refine .inr ⟨s', first ++ rest, fates', by rw [done]; rfl, made, ?_⟩
        rw [← List.append_assoc]
        exact shows

theorem Fate.ownAll_append (service : Service κ) (f : Fate) (os os' : List Own) :
    f.ownAll service (os ++ os') = (f.ownAll service os).bind fun f => f.ownAll service os' := by
  induction os generalizing f with
  | nil => rfl
  | cons o os ih =>
    rw [List.cons_append, Fate.ownAll, Fate.ownAll]
    cases f.own service o with
    | none => rfl
    | some f => exact ih f

/-- the fate of a connection; a fresh one if it is not there yet -/
def fateOf (settings : Settings) (date : Bytes) (fates : List Fate) (i : Nat) : Fate :=
  (fates[i]?).getD (.ofSettings settings date)

theorem owns_of_ne (ne : j ≠ i) (o : Own) : owns i [.own j o] = [] := by
  simp [owns, Deed.own?, ne]

theorem owns_self (i : Nat) (o : Own) : owns i [.own i o] = [o] := by
  simp [owns, Deed.own?]

/-- what a deed makes of a fate is what happens on the connection, and nothing else -/
theorem fateOf_fated {d : Deed} (h : fated settings date service fates d = some fates') (i : Nat) :
    (fateOf settings date fates i).ownAll service (owns i [d])
      = some (fateOf settings date fates' i) := by
  cases d with
  | await | poll w =>
    cases h
    rfl
  | connect peer sink =>
    cases h
    show some _ = some _
    unfold fateOf
    rw [List.getElem?_append]
    split
    · rfl
    · rename_i after
      rw [List.getElem?_eq_none (Nat.not_lt.mp after), List.getElem?_singleton]
      split <;> rfl
  | own j o =>
    unfold fated at h
    dsimp only at h
    split at h
    · cases h
    · rename_i f fate
      obtain ⟨f', made, rfl⟩ := Option.map_eq_some_iff.mp h
      unfold fateOf
      by_cases here : j = i
      · subst here
        rw [owns_self, getElem?_modify_of_some fate, fate, if_pos rfl, Option.getD_some, Fate.ownAll,
          made]
        rfl
      · rw [owns_of_ne here, List.getElem?_modify_ne _ _ here]
        rfl

theorem fateOf_fatedAll (h : fatedAll settings date service fates ds = some fates') (i : Nat) :
    (fateOf settings date fates i).ownAll service (owns i ds)
      = some (fateOf settings date fates' i) := by
  induction ds generalizing fates with
  | nil =>
    cases h
    rfl
  | cons d ds ih =>
    unfold fatedAll at h
    split at h
    · cases h
    · rename_i m made
      have both : owns i (d :: ds) = owns i [d] ++ owns i ds := List.filterMap_append (l := [d])
      rw [both, Fate.ownAll_append, fateOf_fated made i]
      exact ih h

theorem fatedAll_only (settings : Settings) (date : Bytes) (service : Service κ) (f : Fate)
    (os : List Own) : fatedAll settings date service [f] (os.map (.own 0))
      = (f.ownAll service os).map fun f => [f] := by
  induction os generalizing f with
  | nil => rfl
  | cons o os ih =>
    rw [List.map_cons, fatedAll, Fate.ownAll]
    unfold fated
    dsimp only [List.getElem?_cons_zero]
    cases f.own service o with
    | none => rfl
    | some f => exact ih f

/-! ## each connection as if it were alone -/

/-- What a server has come to by `ds` is, on each of its connections, what it would have come to if
there had been no other one. -/
structure Apart (start : Server κ) (ds : List Deed) (s : Server κ) (calls : Calls) : Prop where
  /-- octets written, stop flags, handler calls and ends are those of the only connection, and so is
  what can happen next -/
  alone : ∀ (i : Nat) (l : Link), s.links[i]? = some l → ∀ peer sink, ∃ s₁ l₁ calls₁,
    start.performAll (alone peer sink ds i) = some (s₁, calls₁) ∧ s₁.links = [l₁]
      ∧ l₁.connection = l.connection ∧ l₁.over = l.over
      ∧ s₁.registry.stopped? l₁.guard = s.registry.stopped? l.guard ∧ calls₁.of 0 = calls.of i
      ∧ ∀ o, (s₁.own 0 o).isSome = (s.own i o).isSome
  /-- what is counted is the sum of what is counted if each is the only one -/
  counted : ∀ peer sink n, s.registry.stats.of n = ((List.range s.links.length).map fun i =>
    (start.after (Server.alone peer sink ds i)).registry.stats.of n).sum
  total : ∀ peer sink, s.registry.stats.total = ((List.range s.links.length).map fun i =>
    (start.after (Server.alone peer sink ds i)).registry.stats.total).sum

/-- the fate of a connection that is alone is the fate that it has among others -/
theorem shows_alone (h : fatedAll settings date service [] ds = some fates)
    (fate : fates[i]? = some f) (peer : Option Peer) (sink : Sink) :
    ∃ s₁ calls₁, (ofSettings settings date service).performAll (alone peer sink ds i)
        = some (s₁, calls₁) ∧ Shows settings date service s₁ calls₁ [f] := by
  -- alone or not, what happens on the connection is the same, and it begins with the same fate
  have own := fateOf_fatedAll h i
  unfold fateOf at own
  rw [fate] at own
  have made : fatedAll settings date service [] (alone peer sink ds i) = some [f] := by
    show fatedAll settings date service [.ofSettings settings date] _ = _
    rw [fatedAll_only]
    exact congrArg (Option.map _) own
  rcases (shows_ofSettings settings date service).all (alone peer sink ds i) with
    ⟨-, none⟩ | ⟨s₁, calls₁, fates₁, done, made', shows⟩
  · cases made.symm.trans none
  · cases made.symm.trans made'
    exact ⟨s₁, calls₁, done, shows⟩

theorem after_eq {ds : List Deed} (h : s.performAll ds = some (s', calls)) : s.after ds = s' := by
  unfold after
  rw [h]
  rfl

/-- a number that each connection adds to is the sum of what it is if each is alone -/
theorem sum_alone (made : fatedAll settings date service [] ds = some fates) (g : Stats → Nat)
    (count : Fate → Nat) (each : ∀ (s₁ : Server κ) calls₁ f,
      Shows settings date service s₁ calls₁ [f] → g s₁.registry.stats = count f)
    (peer : Option Peer) (sink : Sink) :
    (fates.map count).sum = ((List.range fates.length).map fun i =>
      g ((ofSettings settings date service).after (alone peer sink ds i)).registry.stats).sum := by
  congr 1
  refine List.ext_getElem? fun i => ?_
  rw [List.getElem?_map, List.getElem?_map]
  rcases Nat.lt_or_ge i fates.length with lt | ge
  · have fate := List.getElem?_eq_getElem lt
    obtain ⟨s₁, calls₁, done, shows₁⟩ := shows_alone made fate peer sink
    rw [fate, List.getElem?_range lt, Option.map_some, Option.map_some, after_eq done,
      each s₁ calls₁ _ shows₁]
  · rw [List.getElem?_eq_none ge, List.getElem?_eq_none (List.length_range.symm ▸ ge)]
    rfl

/-- **Connections do not interfere.**  Whatever is done with a server short of a shutdown, and in
whatever order: each of its connections has written, called for, heard and come to what it would have
if there had been no other one, and can do next what it then could; and the server has counted what all
of them together have counted. -/
theorem apart (settings : Settings) (date : Bytes) (service : Service κ)
    (run : (ofSettings settings date service).performAll ds = some (s, calls)) :
    Apart (ofSettings settings date service) ds s calls := by
  obtain ⟨fates, made, shows⟩ : ∃ fates, fatedAll settings date service [] ds = some fates
      ∧ Shows settings date service s calls fates := by
    rcases (shows_ofSettings settings date service).all ds with
      ⟨no, -⟩ | ⟨s', more, fates, done, made, shows⟩
    · cases run.symm.trans no
    · cases run.symm.trans done
      exact ⟨fates, made, shows⟩
  refine ⟨fun i l link peer sink => ?_, fun peer sink n => ?_, fun peer sink => ?_⟩
  · have lt := (List.getElem?_eq_some_iff.mp link).1
    have fate := List.getElem?_eq_getElem (shows.length ▸ lt)
    obtain ⟨s₁, calls₁, done, shows₁⟩ := shows_alone made fate peer sink
    obtain ⟨l₁, only⟩ := List.length_eq_one_iff.mp shows₁.length
    have link₁ : s₁.links[0]? = some l₁ := by rw [only]; rfl
    obtain ⟨connection, aborted, stopped, called⟩ := shows.link i l _ link fate
    obtain ⟨connection₁, aborted₁, stopped₁, called₁⟩ := shows₁.link 0 l₁ _ link₁ rfl
    refine ⟨s₁, l₁, calls₁, done, only, connection₁.symm.trans connection, ?_, ?_,
      called₁.symm.trans called, fun o => ?_⟩
    · unfold Link.over
      rw [← connection₁, ← aborted₁, connection, aborted]
    · rw [shows.guard link, shows₁.guard link₁]
      exact stopped₁.symm.trans stopped
    · rw [(shows.own link fate o).possible, (shows₁.own link₁ rfl o).possible]
  · rw [shows.noted n, shows.length]
    exact sum_alone made (·.of n) _ (fun s₁ calls₁ f shows₁ => shows₁.noted n) peer sink
  · rw [shows.total, shows.length,
      ← sum_alone made Stats.total (fun _ => 1) (fun s₁ calls₁ f shows₁ => shows₁.total) peer sink,
      List.map_const', List.sum_replicate_nat, Nat.mul_one]

/-- a malformed request on one connection, and a request that is answered on the other -/
theorem apart_of_malformed :
    let start : Server Unit := ofSettings .standard (Bytes.ofAscii "d")
      fun _ request => ⟨none, request, false, .ok⟩
    let both : List Deed := [.connect none .unlimited, .connect none .unlimited,
      .own 0 (.turn (.arrive (.octets (Bytes.ofAscii "no request\r\n\r\n")))),
      .own 1 (.turn (.arrive (.octets (Bytes.ofAscii "GET / HTTP/1.0\r\n\r\n")))),
      .own 0 (.turn .read), .own 1 (.turn .read), .own 0 (.turn .read), .own 1 (.turn .read),
      .own 0 (.turn .read), .own 1 (.turn .read), .own 0 (.turn .read), .own 1 (.turn .read),
      .own 1 (.turn .read), .own 0 (.turn .read), .own 1 (.turn .respond), .own 1 (.turn .take),
      .own 1 (.turn (.accept 3))]
    ∃ s calls, start.performAll both = some (s, calls) ∧ s.registry.stats.readErrors = 1
      ∧ (s.links.map fun l => l.connection.output) = [[], Bytes.ofAscii "HTT"]
      ∧ Apart start both s calls := by
  intro start both
  have done : (start.performAll both).any fun (s, _) => s.registry.stats.readErrors = 1
      ∧ (s.links.map fun l => l.connection.output) = [[], Bytes.ofAscii "HTT"] := by
    decide +kernel
  obtain ⟨⟨s, calls⟩, run, found⟩ := (Option.any_eq_true _ _).mp done
  obtain ⟨errors, output⟩ := of_decide_eq_true found
  exact ⟨s, calls, run, errors, output, apart _ _ _ run⟩

end Server

end PipelinedHttp
