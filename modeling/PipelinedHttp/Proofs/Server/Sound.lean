import PipelinedHttp.Proofs.Connection.Progress
import PipelinedHttp.Proofs.Server.History

/-!
# The registry and its connections

Each connection has a guard of its own, with an id of its own.  The guard knows whether the
connection has been told to stop, and it is dropped only when nothing more will happen on the
connection; until then its id is in the live set.  `Sound` says so, and each move keeps it
(`Sound.move`).

* `Sound.halted`        a connection that has been told to stop has heard of it;
* `Sound.over_of_idle`  when the live set is empty, nothing more will happen on any connection;
* `Move.idle_of_done`   whoever waits for that is done only in such a state.
-/

namespace PipelinedHttp

namespace Link
variable {l l' : Link} {es : List Event}

/-- the connection will not read another request -/
def Halted (l : Link) : Prop := l.aborted = true ∨ l.connection.stopped = true

theorem Went.halted (h : Went l l' es) (halted : l.Halted) : l'.Halted := by
  obtain ⟨notes, run⟩ := h.run
  refine halted.imp (fun gone => (h.aborted gone).1) fun stopped => ?_
  exact Connection.stopped_of_run run (.inl stopped)

theorem over_iff : l.over = true ↔ l.aborted = true ∨ l.connection.finished = true := by
  simp [Link.over]

theorem Went.over (h : Went l l' es) (ended : l.over = true) : l'.over = true := by
  obtain ⟨notes, run⟩ := h.run
  refine over_iff.mpr ((over_iff.mp ended).imp (fun gone => (h.aborted gone).1) fun finished => ?_)
  exact Connection.finished_run finished run

theorem halted_halt (l : Link) : l.halt.Halted := by
  unfold halt
  split
  · rename_i gone
    exact .inl gone
  · exact .inr rfl

end Link

/-! ## the registry and its connections -/

/-- what the guard of a connection says about it -/
structure Guarded (r : Registry) (i : Nat) (l : Link) (g : Guard) : Prop where
  link : l.guard = i
  id : g.id = i + 1
  stopped : g.stopped = true → l.Halted
  shut : r.shutdown = true → g.stopped = true
  dropped : g.dropped = true → l.over = true
  live : g.dropped = false → ∃ x ∈ r.live, x.id = g.id

theorem Guarded.mono {r r' : Registry} {i : Nat} {l l' : Link} {g g' : Guard} {es : List Event}
    (h : Guarded r i l g) (went : l.Went l' es) (same : g'.id = g.id)
    (stopped : g'.stopped = true → g.stopped = true ∨ l'.Halted)
    (shut : r'.shutdown = true → r.shutdown = true ∧ (g.stopped = true → g'.stopped = true)
      ∨ g'.stopped = true)
    (dropped : g'.dropped = true → g.dropped = true ∨ l'.over = true)
    (live : g'.dropped = false → g.dropped = false ∧ ∀ x ∈ r.live, x.id = g.id → x ∈ r'.live) :
    Guarded r' i l' g' where
  link := went.guard.trans h.link
  id := same.trans h.id
  stopped now := (stopped now).elim (fun before => went.halted (h.stopped before)) fun halted => halted
  shut now := (shut now).elim (fun before => before.2 (h.shut before.1)) fun stopped => stopped
  dropped now := (dropped now).elim (fun before => went.over (h.dropped before)) fun ended => ended
  live now := by
    obtain ⟨before, kept⟩ := live now
    obtain ⟨x, hx, own⟩ := h.live before
    exact ⟨x, kept x hx own, own.trans same.symm⟩

namespace Server
variable {κ : Type} {s s' : Server κ} {t : Trace}

/-- each connection has a guard -/
structure Sound (s : Server κ) : Prop where
  length : s.registry.guards.length = s.links.length
  nextId : s.registry.nextId = s.links.length + 1
  guarded : ∀ i l g, s.links[i]? = some l → s.registry.guards[i]? = some g →
    Guarded s.registry i l g

theorem sound_ofSettings (settings : Settings) (date : Bytes) (service : Service κ) :
    (ofSettings settings date service).Sound where
  length := rfl
  nextId := rfl
  guarded i l g link := by simp [ofSettings] at link

theorem Sound.guard (h : s.Sound) {i : Nat} {l : Link} (link : s.links[i]? = some l) :
    ∃ g, s.registry.guards[i]? = some g ∧ Guarded s.registry i l g := by
  have lt := (List.getElem?_eq_some_iff.mp link).1
  rw [← h.length] at lt
  exact ⟨_, List.getElem?_eq_getElem lt, h.guarded i l _ link (List.getElem?_eq_getElem lt)⟩

/-- a move that opens no connection keeps the guards if it keeps each of them -/
theorem Sound.of_each (h : s.Sound) (n : Move s t s')
    (links : s'.links.length = s.links.length)
    (guards : s'.registry.guards.length = s.registry.guards.length)
    (nextId : s'.registry.nextId = s.registry.nextId)
    (each : ∀ i l l' g g', s.links[i]? = some l → s'.links[i]? = some l' → l.Went l' (t i) →
      s.registry.guards[i]? = some g → s'.registry.guards[i]? = some g' →
      Guarded s.registry i l g → Guarded s'.registry i l' g') : s'.Sound := by
  refine ⟨by rw [guards, links, h.length], by rw [nextId, links, h.nextId], ?_⟩
  intro i l' g' link' guard'
  have lt := (List.getElem?_eq_some_iff.mp link').1
  rw [links] at lt
  have link := List.getElem?_eq_getElem lt
  obtain ⟨g, guard, guarded⟩ := h.guard link
  obtain ⟨l'', again, went⟩ := n.went link
  rw [link'] at again
  cases again
  exact each i _ l' g g' link link' went guard guard' guarded

theorem Sound.of_same (h : s.Sound) (n : Move s t s') (links : s'.links.length = s.links.length)
    (guards : s'.registry.guards = s.registry.guards)
    (nextId : s'.registry.nextId = s.registry.nextId) (live : s'.registry.live = s.registry.live)
    (shutdown : s'.registry.shutdown = s.registry.shutdown) : s'.Sound := by
  refine h.of_each n links (by rw [guards]) nextId ?_
  intro i l l' g g' _ _ went guard guard' guarded
  rw [guards, guard] at guard'
  cases guard'
  refine guarded.mono went rfl .inl (fun shut => .inl ⟨shutdown ▸ shut, id⟩) .inl fun there => ?_
  exact ⟨there, fun x hx _ => live ▸ hx⟩

theorem getElem?_modify_eq_some {guards : List Guard} {f : Guard → Guard} {i j : Nat} {g g' : Guard}
    (guard : guards[j]? = some g) (guard' : (guards.modify i f)[j]? = some g') :
    g' = if i = j then f g else g := by
  rw [List.getElem?_modify, guard] at guard'
  exact (Option.some.inj guard').symm

theorem Sound.of_stop (h : s.Sound) (n : Move s t s') (links : s'.links.length = s.links.length)
    {r : Registry} {index : Nat} (registry : s'.registry = r.stop index)
    (guards : r.guards = s.registry.guards) (nextId : r.nextId = s.registry.nextId)
    (live : r.live = s.registry.live) (shutdown : r.shutdown = s.registry.shutdown)
    (halted : ∀ l', s'.links[index]? = some l' → l'.Halted) : s'.Sound := by
  rcases r.stop_cases index with e | e
  · rw [e] at registry
    exact h.of_same n links (by rw [registry, guards]) (by rw [registry, nextId])
      (by rw [registry, live]) (by rw [registry, shutdown])
  · rw [e] at registry
    refine h.of_each n links ?_ (by rw [registry, ← nextId]) ?_
    · rw [registry, ← guards, List.length_modify]
    · intro i l l' g g' _ link' went guard guard' guarded
      rw [registry] at guard' ⊢
      rw [← guards] at guard
      have changed := getElem?_modify_eq_some guard guard'
      subst changed
      refine guarded.mono went ?_ ?_ (fun shut => .inl ⟨shutdown ▸ shut, ?_⟩) ?_ ?_
      · split <;> rfl
      · split
        · rename_i here
          subst here
          exact fun _ => .inr (halted l' link')
        · exact .inl
      · split
        · exact fun _ => rfl
        · exact id
      · split <;> exact .inl
      · have same (there : g.dropped = false) :
            g.dropped = false ∧ ∀ x ∈ s.registry.live, x.id = g.id → x ∈ r.live :=
          ⟨there, fun x hx _ => live ▸ hx⟩
        split <;> exact same

theorem Sound.of_drop (h : s.Sound) {i : Nat} {l : Link}
    (n : Move s t { s with registry := s.registry.drop l.guard }) (link : s.links[i]? = some l)
    (ended : l.over = true) : Sound { s with registry := s.registry.drop l.guard } := by
  obtain ⟨g₀, guard₀, guarded₀⟩ := h.guard link
  cases found : s.registry.guard? l.guard with
  | none =>
    rw [Registry.drop_of_none found]
    exact h
  | some g =>
    obtain ⟨stats, waiters, e, -⟩ := Registry.drop_of_some found
    rw [e] at n ⊢
    have same : g.id = i + 1 := by
      unfold Registry.guard? at found
      rw [guarded₀.link, guard₀] at found
      have here : g₀ = g := Option.some.inj (Option.filter_eq_some_iff.mp found).1
      rw [← here, guarded₀.id]
    refine h.of_each n rfl (List.length_modify _ _ _) rfl ?_
    intro j m m' g' g'' link' link'' went guard guard' guarded
    rw [link'] at link''
    cases link''
    have changed := getElem?_modify_eq_some guard guard'
    rw [guarded₀.link] at changed
    subst changed
    by_cases here : i = j
    · subst here
      rw [link] at link'
      cases link'
      rw [if_pos rfl]
      exact guarded.mono went rfl .inl (fun shut => .inl ⟨shut, id⟩) (fun _ => .inr ended) nofun
    · rw [if_neg here]
      refine guarded.mono went rfl .inl (fun shut => .inl ⟨shut, id⟩) .inl fun there =>
        ⟨there, fun x hx own => ?_⟩
      refine List.mem_filter.mpr ⟨hx, ?_⟩
      rw [bne_iff_ne, own, guarded.id, same]
      omega

/-- a guard is made for a connection that is opened, and its id goes into the live set -/
theorem Sound.of_opened (h : s.Sound) (peer : Option Peer) (sink : Sink) :
    (s.opened peer sink).Sound := by
  have length := h.length
  refine ⟨by simp [opened, Registry.register, length], by simp [opened, Registry.register, h.nextId],
    ?_⟩
  intro i l' g' link' guard'
  have link' : (s.links ++ [_])[i]? = some l' := link'
  have guard' : (s.registry.guards ++ [_])[i]? = some g' := guard'
  rcases Nat.lt_or_ge i s.links.length with before | after
  · rw [List.getElem?_append_left before] at link'
    rw [List.getElem?_append_left (by omega)] at guard'
    refine (h.guarded i l' g' link' guard').mono (.of_core rfl) rfl .inl
      (fun shut => .inl ⟨shut, id⟩) .inl fun there => ⟨there, fun x hx _ => ?_⟩
    exact List.mem_append_left _ hx
  · have here : i = s.links.length := by
      have lt := (List.getElem?_eq_some_iff.mp link').1
      simp at lt
      omega
    subst here
    rw [List.getElem?_concat_length] at link'
    rw [← length, List.getElem?_concat_length] at guard'
    cases link'
    cases guard'
    refine ⟨length, h.nextId, .inr, id, fun dropped => Bool.noConfusion dropped, fun _ => ?_⟩
    exact ⟨_, List.mem_append_right _ List.mem_cons_self, rfl⟩

theorem Sound.move (h : s.Sound) (n : Move s t s') : s'.Sound := by
  have m := n
  cases n with
  | connect peer sink => exact h.of_opened peer sink
  | @event i e s' taken =>
    obtain ⟨l, c, note, stats, registry, link, -, step, rfl, recorded⟩ := step?_eq_some taken
    obtain ⟨g, -, guarded⟩ := h.guard link
    have links := List.length_modify (fun l : Link => { l with connection := c }) s.links i
    rcases recorded with rfl | ⟨failed, registry⟩
    · exact h.of_same m links rfl rfl rfl rfl
    · refine h.of_stop m links registry rfl rfl rfl rfl fun l' link' => .inr ?_
      rw [guarded.link, getElem?_modify_of_some link, if_pos rfl] at link'
      cases link'
      exact (Connection.step_cases step).stopped_of_respondError failed
  | @stop i l link =>
    obtain ⟨g, -, guarded⟩ := h.guard link
    refine h.of_stop m (List.length_modify _ _ _) rfl rfl rfl rfl rfl fun l' link' => ?_
    have link' : (s.links.modify i Link.halt)[l.guard]? = some l' := link'
    rw [guarded.link, getElem?_modify_of_some link, if_pos rfl] at link'
    cases link'
    exact l.halted_halt
  | shutDown =>
    refine h.of_each m (List.length_map _) (List.length_map _) rfl ?_
    intro i l l' g g' link link' went guard guard' guarded
    have link' : (s.links.map Link.halt)[i]? = some l' := link'
    have guard' : (s.registry.guards.map _)[i]? = some g' := guard'
    rw [List.getElem?_map, link] at link'
    rw [List.getElem?_map, guard] at guard'
    cases link'
    cases guard'
    refine guarded.mono went rfl (fun _ => .inr l.halted_halt) (fun _ => .inr rfl) .inl ?_
    exact fun there => ⟨there, fun x hx _ => hx⟩
  | await | poll => exact h.of_same m rfl rfl rfl rfl rfl
  | abort => exact h.of_same m (List.length_modify _ _ _) rfl rfl rfl rfl
  | retire i =>
    rcases s.retire_eq i with e | ⟨l, link, ended, e⟩
    · rw [e]
      exact h
    · rw [e] at m ⊢
      exact h.of_drop m link ended
  | beside same =>
    exact h.of_same m same.length (by rw [same.registry]) (by rw [same.registry])
      (by rw [same.registry]) (by rw [same.registry])

theorem Sound.history (h : s.Sound) (n : History s t s') : s'.Sound := by
  induction n with
  | refl => exact h
  | move _ n ih => exact ih.move n

theorem Sound.halted (h : s.Sound) {i : Nat} {l : Link} (link : s.links[i]? = some l)
    (told : s.registry.shutdown = true ∨ s.registry.stopped? l.guard = some true) : l.Halted := by
  obtain ⟨g, guard, guarded⟩ := h.guard link
  refine guarded.stopped (told.elim guarded.shut fun stopped => ?_)
  obtain ⟨g', found, stopped⟩ := Option.map_eq_some_iff.mp stopped
  unfold Registry.guard? at found
  rw [guarded.link, guard] at found
  rw [Option.some.inj (Option.filter_eq_some_iff.mp found).1]
  exact stopped

/-- when the live set is empty, nothing more will happen on any connection -/
theorem Sound.over_of_idle (h : s.Sound) (idle : s.registry.live = []) {i : Nat} {l : Link}
    (link : s.links[i]? = some l) : l.over = true := by
  obtain ⟨g, -, guarded⟩ := h.guard link
  cases dropped : g.dropped with
  | true => exact guarded.dropped dropped
  | false =>
    obtain ⟨x, hx, -⟩ := guarded.live dropped
    rw [idle] at hx
    cases hx

/-! ## waiting for the live set to be empty -/

/-- whoever waits is done only in a state in which the live set is empty -/
theorem Move.idle_of_done (n : Move s t s') {w : Nat} (waiting : s.registry.isDone w = false)
    (done : s'.registry.isDone w = true) : s'.registry.live = [] := by
  have same {P : Prop}
      (h : s'.registry.waiters.map Waiter.done = s.registry.waiters.map Waiter.done) : P := by
    rw [Registry.isDone_congr h, waiting] at done
    cases done
  have stopped (r : Registry) (guard : Nat) : (r.stop guard).waiters = r.waiters := by
    rcases r.stop_cases guard with e | e <;> rw [e]
  cases n with
  | connect | shutDown | abort => exact same rfl
  | event h =>
    obtain ⟨l, c, note, stats, registry, -, -, -, rfl, rfl | ⟨-, rfl⟩⟩ := step?_eq_some h
    · exact same rfl
    · exact same (congrArg _ (stopped { s.registry with stats } l.guard))
  | stop => exact same (congrArg _ (stopped _ _))
  | beside h => exact same (by rw [h.registry])
  | retire i =>
    rcases s.retire_eq i with e | ⟨l, -, -, e⟩
    · exact same (by rw [e])
    · rw [e] at same
      cases found : s.registry.guard? l.guard with
      | none => exact same (by rw [Registry.drop_of_none found])
      | some g =>
        obtain ⟨stats, waiters, e', dones⟩ := Registry.drop_of_some found
        rw [e'] at same
        exact same dones
  | await => exact Registry.live_eq_nil_of_wait (r := s.registry) waiting done
  | poll v => exact Registry.live_eq_nil_of_poll (r := s.registry) waiting done

end Server

end PipelinedHttp
