import Mathlib.Data.List.Perm.Basic
import PipelinedHttp.Proofs.Registry.Accounting
import PipelinedHttp.Proofs.Server.Sound

/-!
# The accounts of a server

Whatever happens to a server, its registry has gone through a list of actions, and what is noted in
them is what the connections have counted, each in a run of its own events (`Move.acted`,
`History.counted`).  So the accounts of the registry are right at any time.

Its connections are registered as they are opened, one guard each; a guard is dropped only when
nothing more will happen on its connection, however that has come, and then it can be dropped
(`Ties`).
-/

namespace PipelinedHttp.Server
open Registry (Gone registered noted)
variable {κ : Type} {s m s' : Server κ} {t u : Trace} {settings : Settings} {date : Bytes}
  {service : Service κ} {i : Nat} {l : Link} {actions : List Registry.Action}

/-! ## moves -/

theorem record_acted (s : Server κ) (guard : Nat) (note : Option Note) :
    ∃ actions, (s.record guard note).registry = s.registry.run actions
      ∧ (s.record guard note).links = s.links ∧ noted actions = note.toList := by
  cases note with
  | none => exact ⟨[], rfl, rfl, rfl⟩
  | some n =>
    cases n with
    | respondError => exact ⟨[.note .respondError, .stop guard], rfl, rfl, rfl⟩
    | served => exact ⟨[.note .served], rfl, rfl, rfl⟩
    | readError => exact ⟨[.note .readError], rfl, rfl, rfl⟩

theorem notes_of_stops {c c' : Connection} {es : List Event} {notes : List Note}
    (run : c.run es = some (c', notes)) (stops : ∀ e ∈ es, e = .stop) : notes = [] := by
  induction es generalizing c notes with
  | nil =>
    cases run
    rfl
  | cons e es ih =>
    obtain ⟨rfl, others⟩ := List.forall_mem_cons.mp stops
    obtain ⟨m, note, rest, step, later, rfl⟩ := Connection.run_cons run
    cases step
    exact ih later others

theorem eq_stop_of_mem_stops {l : Link} {e : Event} (h : e ∈ l.stops) :
    e = .stop := by
  unfold Link.stops at h
  split at h
  · cases h
  · exact List.mem_singleton.mp h

/-- the actions of the registry, and what the connections count in the meantime; those that are not
there count nothing -/
structure Acted (s : Server κ) (t : Trace) (s' : Server κ) (actions : List Registry.Action)
    (notes : Nat → List Note) : Prop where
  registry : s'.registry = s.registry.run actions
  noted : ∀ n ≥ s.links.length, (noted actions).Perm ((List.range n).flatMap notes)
  run : ∀ i l, s.links[i]? = some l →
    ∃ l', s'.links[i]? = some l' ∧ l.connection.run (t i) = some (l'.connection, notes i)
  absent : ∀ i, s.links[i]? = none → notes i = []

theorem Move.acted_of_stops (h : Move s t s') (stops : ∀ i, ∀ e ∈ t i, e = .stop)
    (registry : s'.registry = s.registry.run actions) (none : Registry.noted actions = []) :
    Acted s t s' actions fun _ => [] where
  registry := registry
  noted n _ := by
    rw [none, List.flatMap_eq_nil_iff.mpr fun _ _ => rfl]
  run i l link := by
    obtain ⟨l', link', went⟩ := h.went link
    obtain ⟨notes, run⟩ := went.run
    obtain rfl := notes_of_stops run (stops i)
    exact ⟨l', link', run⟩
  absent _ _ := rfl

/-- the registry notes what the connections count, and nothing else -/
theorem Move.acted (h : Move s t s') : ∃ actions notes, Acted s t s' actions notes := by
  have move := h
  have nothing : ∀ i, ∀ e ∈ Trace.nothing i, e = .stop := fun _ _ => nofun
  cases h with
  | @event i e s' h =>
    obtain ⟨l, c, note, link, -, step, rfl⟩ := step?_spec h
    obtain ⟨actions, registry, links, noted⟩ := record_acted
      (s.modifyLink i fun l => { l with connection := c }) l.guard note
    have lt := (List.getElem?_eq_some_iff.mp link).1
    refine ⟨actions, fun j => if j = i then note.toList else [], registry, fun n ge => ?_,
      fun j l' link' => ?_, fun j absent => if_neg fun here => ?_⟩
    · rw [noted, flatMap_range_only (Nat.lt_of_lt_of_le lt ge)]
    · rw [links]
      refine ⟨_, getElem?_modify_of_some link', ?_⟩
      by_cases here : i = j
      · subst here
        rw [link] at link'
        cases link'
        rw [if_pos rfl, if_pos rfl, Trace.only_self, Connection.run, step]
        exact congrArg (fun notes => some (c, notes)) (List.append_nil _)
      · rw [if_neg here, if_neg (Ne.symm here), Trace.only_of_ne (Ne.symm here)]
        rfl
    · subst here
      rw [link] at absent
      cases absent
  | connect peer => exact ⟨[.register peer], _, move.acted_of_stops nothing rfl rfl⟩
  | @stop i l link =>
    refine ⟨[.stop l.guard], _, move.acted_of_stops (fun j e mem => ?_) rfl rfl⟩
    unfold Trace.only at mem
    split at mem
    · exact eq_stop_of_mem_stops mem
    · cases mem
  | shutDown =>
    refine ⟨[.shutDown], _, move.acted_of_stops (fun j e mem => ?_) rfl rfl⟩
    cases link : s.links[j]? with
    | none =>
      rw [link] at mem
      cases mem
    | some l =>
      rw [link] at mem
      exact eq_stop_of_mem_stops mem
  | await => exact ⟨[.wait], _, move.acted_of_stops nothing rfl rfl⟩
  | poll w => exact ⟨[.poll w], _, move.acted_of_stops nothing rfl rfl⟩
  | abort => exact ⟨[], _, move.acted_of_stops nothing rfl rfl⟩
  | beside h => exact ⟨[], _, move.acted_of_stops nothing h.registry rfl⟩
  | retire i =>
    rcases s.retire_eq i with e | ⟨l, -, -, e⟩
    · exact ⟨[], _, move.acted_of_stops nothing (by rw [e]; rfl) rfl⟩
    · exact ⟨[.drop l.guard], _, move.acted_of_stops nothing (by rw [e]; rfl) rfl⟩

/-! ## histories -/

/-- the actions of the registry of a server, and what its connections have counted so far -/
structure Counted (settings : Settings) (date : Bytes) (t : Trace) (s : Server κ)
    (actions : List Registry.Action) (notes : Nat → List Note) : Prop where
  registry : s.registry = Registry.empty.run actions
  noted : ∀ n ≥ s.links.length, (noted actions).Perm ((List.range n).flatMap notes)
  run : ∀ i l, s.links[i]? = some l →
    ∃ stopped, (Connection.ofSettings settings.serverName date settings.queueCapacity
      settings.maxBody stopped).run (t i) = some (l.connection, notes i)
  absent : ∀ i, s.links[i]? = none → notes i = []

theorem Move.length_le (h : Move s t s') : s.links.length ≤ s'.links.length := by
  cases same : s.links.length with
  | zero => exact Nat.zero_le _
  | succ n =>
    have lt : n < s.links.length := by omega
    obtain ⟨l', link', -⟩ := h.went (List.getElem?_eq_getElem lt)
    exact (List.getElem?_eq_some_iff.mp link').1

theorem Counted.move {notes : Nat → List Note} (c : Counted settings date t m actions notes)
    (h : History (ofSettings settings date service) t m) (n : Move m u s') :
    ∃ actions notes, Counted settings date (t.append u) s' actions notes := by
  obtain ⟨more, others, acted⟩ := n.acted
  have grown := n.length_le
  refine ⟨actions ++ more, fun i => notes i ++ others i, ?_, fun n ge => ?_, fun i l' link' => ?_,
    fun i absent => ?_⟩
  · rw [acted.registry, c.registry, Registry.run_append]
  · rw [Registry.noted_append]
    have still := Nat.le_trans grown ge
    exact ((c.noted n still).append (acted.noted n still)).trans (List.flatMap_append_perm _ _ _)
  · cases link : m.links[i]? with
    | some l =>
      obtain ⟨stopped, first⟩ := c.run i l link
      obtain ⟨l'', same, second⟩ := acted.run i l link
      rw [link'] at same
      cases same
      exact ⟨stopped, Connection.run_append first second⟩
    | none =>
      -- it has just been opened
      obtain ⟨-, -, -, fresh⟩ := n.fresh link link'
      obtain ⟨settings, date, -⟩ := h.kept
      have before : t i = [] := by
        rcases h.fresh (i := i) rfl with ⟨-, none⟩ | ⟨l, -, -, there, -⟩
        · exact none
        · rw [link] at there
          cases there
      refine ⟨m.registry.shutdown, ?_⟩
      rw [Trace.append, before, n.trace_of_none link, c.absent i link, acted.absent i link, fresh,
        settings, date]
      rfl
  · have before : m.links[i]? = none := by
      rw [List.getElem?_eq_none_iff] at absent ⊢
      omega
    rw [c.absent i before, acted.absent i before]
    rfl

theorem History.counted (h : History (ofSettings settings date service) t s) :
    ∃ actions notes, Counted settings date t s actions notes := by
  induction h with
  | refl =>
    refine ⟨[], fun _ => [], rfl, fun n _ => ?_, fun i l link => ?_, fun _ _ => rfl⟩
    · rw [List.flatMap_eq_nil_iff.mpr fun _ _ => rfl]
      rfl
    · cases link
  | move h n ih =>
    obtain ⟨actions, notes, counted⟩ := ih
    exact counted.move h n

/-- the registry of a server, and its connections -/
structure Ties (settings : Settings) (date : Bytes) (t : Trace) (s : Server κ)
    (actions : List Registry.Action) (notes : Nat → List Note) : Prop where
  registry : s.registry = Registry.empty.run actions
  /-- connections are registered as they are opened -/
  registered : (registered actions).length = s.links.length
  guard : ∀ i (l : Link), s.links[i]? = some l → l.guard = i
  /-- each connection has run its own events, and has counted so much in them -/
  run : ∀ i (l : Link), s.links[i]? = some l →
    ∃ stopped, (Connection.ofSettings settings.serverName date settings.queueCapacity
      settings.maxBody stopped).run (t i) = some (l.connection, notes i)
  /-- the notes of the registry are those of the connections, in some order -/
  noted : (noted actions).Perm ((List.range s.links.length).flatMap notes)
  /-- a connection on which something can happen has not gone -/
  stays : ∀ i (l : Link), s.links[i]? = some l → l.over = false → ¬ Gone actions i
  /-- and any other goes when it is retired -/
  goes : ∀ i (l : Link), s.links[i]? = some l → l.over = true →
    (s.retire i).registry = Registry.empty.run (actions ++ [.drop i])
      ∧ Gone (actions ++ [.drop i]) i

theorem History.ties (h : History (ofSettings settings date service) t s) :
    ∃ actions notes, Ties settings date t s actions notes := by
  obtain ⟨actions, notes, counted⟩ := h.counted
  have registry := counted.registry
  have sound := (sound_ofSettings settings date service).history h
  have tally := Registry.tally_run actions
  rw [← registry] at tally
  have registered : (registered actions).length = s.links.length :=
    tally.length_guards.symm.trans sound.length
  refine ⟨actions, notes, registry, registered, fun i l link => ?_, counted.run,
    counted.noted _ (Nat.le_refl _), fun i l link going gone => ?_, fun i l link ended => ?_⟩
  · obtain ⟨g, -, guarded⟩ := sound.guard link
    exact guarded.link
  · obtain ⟨g, there, guarded⟩ := sound.guard link
    rw [guarded.dropped ((tally.dropped there).mpr gone)] at going
    cases going
  · obtain ⟨g, -, guarded⟩ := sound.guard link
    have lt := (List.getElem?_eq_some_iff.mp link).1
    refine ⟨?_, Registry.gone_concat.mpr (.inr ⟨rfl, registered ▸ lt⟩)⟩
    unfold retire
    rw [link]
    dsimp only
    rw [if_pos ended, guarded.link, registry, Registry.run_append]
    rfl

/-- **Accounting.**  Whatever is done with a registry, in whatever order: the live set has the
connections that have been registered and whose guards have not been dropped, each once and with its
own peer, in the order of their ids, which are all different; the gauge is their number, and it can go
down when a guard is dropped; the totals are the numbers of what has been registered and noted, and
none of them goes back.  And a server does nothing else with its registry, whatever happens on its
connections: what is noted is what they have counted, and each is live until nothing more will happen
on it, and then it can be taken off. -/
theorem accounting (settings : Settings) (date : Bytes) (service : Service κ) :
    (∀ actions, (Registry.empty.run actions).Accounts actions
        ∧ ∀ more, Registry.Grown (Registry.empty.run actions).stats
            (Registry.empty.run (actions ++ more)).stats)
      ∧ ∀ t s, History (ofSettings settings date service) t s →
          ∃ actions notes, Ties settings date t s actions notes := by
  refine ⟨fun actions => ⟨?_, Registry.grown_run actions⟩, fun t s h => h.ties⟩
  exact (Registry.tally_run actions).accounts

/-- a connection that is dropped midway has been counted, and can be taken off -/
theorem accounting_of_abort :
    let start : Server Unit := ofSettings .standard (Bytes.ofAscii "d")
      fun _ request => ⟨none, request, false, .ok⟩
    ∃ s, History start .nothing s ∧ s.links.map Link.aborted = [true]
      ∧ (s.retire 0).registry.live = [] ∧ (s.retire 0).registry.stats.current = 0
      ∧ (s.retire 0).registry.stats.total = 1 := by
  intro start
  let s := (start.opened none .unlimited).modifyLink 0 fun l => { l with aborted := true }
  have history : History start .nothing s :=
    (History.refl.move (.connect none .unlimited)).move (.abort 0)
  obtain ⟨accounts, ties⟩ := accounting .standard (Bytes.ofAscii "d")
    fun _ request => (⟨none, request, false, .ok⟩ : Handling Unit)
  obtain ⟨actions, notes, tie⟩ := ties _ s history
  obtain ⟨registry, gone⟩ := tie.goes 0 _ rfl rfl
  obtain ⟨after, -⟩ := accounts (actions ++ [.drop 0])
  rw [← registry] at after
  have length : (registered (actions ++ [.drop 0])).length = 1 := by
    rw [Registry.registered_append, List.length_append, tie.registered]
    rfl
  have live : (s.retire 0).registry.live = [] := by
    refine List.eq_nil_iff_forall_not_mem.mpr fun l mem => ?_
    obtain ⟨i, -, peer, stays⟩ := (after.live l).mp mem
    have lt := (List.getElem?_eq_some_iff.mp peer).1
    obtain rfl : i = 0 := by omega
    exact stays gone
  exact ⟨s, history, rfl, live, by rw [after.current, live]; rfl, after.total.trans length⟩

end PipelinedHttp.Server
