import PipelinedHttp.Proofs.Registry.Accounting

/-!
# Stop flags

A guard says that it has been stopped exactly if someone has told it to: it alone, or all guards of the
registry, before it was handed out or since (`ToldToStop`).  Whoever waits for the flag to be raised
sees the same flag as whoever asks for it.

* `getElem?_stop`, `getElem?_drop`   what an action on one guard does to all guards;
* `Flags.act`      whatever is done next, the flags still say who has been told;
* `flags_run`      so they do after any list of actions;
* `Outlasts.run`   and no flag is ever taken back;
* `stop_flags`     all of it together.
-/

namespace PipelinedHttp.Registry
variable {r r' r'' : Registry} {actions : List Action} {a : Action} {i j : Nat} {g : Guard}

/-! ## who has been told -/

/-- the action tells the guard with the given number to stop: it alone, if it has been handed out, or
all of them -/
def Tells (before : List Action) (i : Nat) : Action → Prop
  | .stop j => j = i ∧ i < (registered before).length
  | .shutDown => True
  | _ => False

/-- the guard with the given number has been told to stop -/
def ToldToStop (actions : List Action) (i : Nat) : Prop :=
  ∃ before a after, actions = before ++ a :: after ∧ Tells before i a

theorem toldToStop_concat :
    ToldToStop (actions ++ [a]) i ↔ ToldToStop actions i ∨ Tells actions i a :=
  exists_split_concat

theorem toldToStop_of_not (tells : ¬ Tells actions i a) :
    ToldToStop (actions ++ [a]) i ↔ ToldToStop actions i :=
  toldToStop_concat.trans (or_iff_left tells)

/-- a guard that is not there yet can only have been told with all others -/
theorem toldToStop_of_le (le : (registered actions).length ≤ i) :
    ToldToStop actions i ↔ .shutDown ∈ actions := by
  constructor
  · rintro ⟨before, a, after, rfl, tells⟩
    cases a with
    | shutDown => exact List.mem_append_right before List.mem_cons_self
    | stop j =>
      rw [registered_append, List.length_append] at le
      have lt := tells.2
      omega
    | register | drop | note | wakeIfIdle | wait | poll => cases tells
  · intro mem
    obtain ⟨before, after, split⟩ := List.append_of_mem mem
    exact ⟨before, .shutDown, after, split, trivial⟩

/-! ## one guard and the others -/

theorem getElem?_stop (r : Registry) (i j : Nat) : (r.stop i).guards[j]? = (r.guards[j]?).map
    fun g => if i = j ∧ g.dropped = false then { g with stopped := true } else g := by
  cases there : r.guards[j]? with
  | none =>
    rcases r.stop_cases i with e | e <;> rw [e]
    · exact there
    · rw [List.getElem?_modify, there]
      rfl
  | some g =>
    rw [Option.map_some]
    by_cases here : i = j
    · subst here
      unfold stop guard?
      rw [there, Option.filter_some]
      cases gone : g.dropped with
      | true => simp [there]
      | false => simp [there, gone]
    · rw [if_neg fun both => here both.1]
      rcases r.stop_cases i with e | e <;> rw [e]
      · exact there
      · exact (List.getElem?_modify_ne _ _ here).trans there

theorem getElem?_drop (r : Registry) (i j : Nat) : (r.drop i).guards[j]? = (r.guards[j]?).map
    fun g => if i = j then { g with dropped := true } else g := by
  cases found : r.guard? i with
  | some d =>
    obtain ⟨stats, waiters, e, -⟩ := drop_of_some found
    rw [e]
    exact List.getElem?_modify _ _ _ _
  | none =>
    rw [drop_of_none found]
    cases there : r.guards[j]? with
    | none => rfl
    | some g =>
      rw [Option.map_some]
      by_cases here : i = j
      · subst here
        unfold guard? at found
        rw [there, Option.filter_some] at found
        have gone : g.dropped = true := by simpa using found
        rw [if_pos rfl, ← gone]
      · rw [if_neg here]

/-! ## the flags -/

/-- the flags of a registry say who has been told -/
structure Flags (r : Registry) (actions : List Action) : Prop where
  shutdown : r.shutdown = true ↔ .shutDown ∈ actions
  stopped : ∀ {i g}, r.guards[i]? = some g → g.dropped = false →
    (g.stopped = true ↔ ToldToStop actions i)

theorem flags_empty : Flags empty [] := ⟨⟨nofun, nofun⟩, nofun⟩

namespace Flags

theorem shutdown_concat (f : Flags r actions) (other : a ≠ .shutDown) :
    r.shutdown = true ↔ .shutDown ∈ actions ++ [a] := by
  rw [f.shutdown, List.mem_append, List.mem_singleton]
  exact ⟨.inl, fun mem => mem.resolve_right other.symm⟩

/-- an action that tells no one, and leaves guards and flags as they are -/
theorem congr (f : Flags r actions) (tells : ∀ i, ¬ Tells actions i a)
    (shutdown : r'.shutdown = r.shutdown) (guards : r'.guards = r.guards) :
    Flags r' (actions ++ [a]) := by
  have other : a ≠ .shutDown := by
    rintro rfl
    exact tells 0 trivial
  refine ⟨?_, fun {i g} there stays => ?_⟩
  · rw [shutdown]
    exact f.shutdown_concat other
  · rw [guards] at there
    rw [f.stopped there stays, toldToStop_of_not (tells i)]

theorem register (f : Flags r actions) (t : Tally r actions) (peer : Option Peer) :
    Flags (r.register peer) (actions ++ [.register peer]) := by
  refine ⟨f.shutdown_concat nofun, fun {i g} there stays => ?_⟩
  rw [toldToStop_of_not (a := .register peer) id]
  have there : (r.guards ++ [⟨r.nextId, r.shutdown, false⟩])[i]? = some g := there
  rcases Nat.lt_or_ge i r.guards.length with old | new
  · rw [List.getElem?_append_left old] at there
    exact f.stopped there stays
  · rw [List.getElem?_append_right new, List.getElem?_singleton] at there
    split at there
    · cases there
      rw [t.length_guards] at new
      rw [toldToStop_of_le new]
      exact f.shutdown
    · cases there

theorem drop (f : Flags r actions) (i : Nat) : Flags (r.drop i) (actions ++ [.drop i]) := by
  refine ⟨?_, fun {j g} there stays => ?_⟩
  · rw [(r.drop_kept i).2]
    exact f.shutdown_concat nofun
  · rw [getElem?_drop] at there
    obtain ⟨g', own, rfl⟩ := Option.map_eq_some_iff.mp there
    rw [toldToStop_of_not (a := .drop i) id]
    split at stays
    · cases stays
    · rename_i other
      rw [if_neg other]
      exact f.stopped own stays

theorem stop (f : Flags r actions) (t : Tally r actions) (i : Nat) :
    Flags (r.stop i) (actions ++ [.stop i]) := by
  refine ⟨?_, fun {j g} there stays => ?_⟩
  · rw [(r.stop_kept i).2]
    exact f.shutdown_concat nofun
  · rw [getElem?_stop] at there
    obtain ⟨g', own, rfl⟩ := Option.map_eq_some_iff.mp there
    split at stays
    · rename_i here
      have lt := (List.getElem?_eq_some_iff.mp own).1
      rw [t.length_guards] at lt
      rw [if_pos here]
      exact iff_of_true rfl (toldToStop_concat.mpr (.inr ⟨here.1, lt⟩))
    · rename_i other
      have tells : ¬ Tells actions j (.stop i) := fun tells => other ⟨tells.1, stays⟩
      rw [if_neg other, toldToStop_of_not tells]
      exact f.stopped own stays

theorem shutDown (r : Registry) (actions : List Action) :
    Flags r.shutDown (actions ++ [.shutDown]) := by
  refine ⟨iff_of_true rfl (List.mem_append_right _ (List.mem_singleton.mpr rfl)),
    fun {i g} there _ => ?_⟩
  have there : (r.guards.map fun g => { g with stopped := true })[i]? = some g := there
  rw [List.getElem?_map] at there
  obtain ⟨g', -, rfl⟩ := Option.map_eq_some_iff.mp there
  exact iff_of_true rfl (toldToStop_concat.mpr (.inr trivial))

theorem act (f : Flags r actions) (t : Tally r actions) (a : Action) :
    Flags (r.act a) (actions ++ [a]) := by
  cases a with
  | register peer => exact f.register t peer
  | drop i => exact f.drop i
  | stop i => exact f.stop t i
  | shutDown => exact Flags.shutDown r actions
  | wakeIfIdle =>
    obtain ⟨waiters, e, -⟩ := r.wakeIfIdle_eq
    rw [Registry.act, e]
    exact f.congr (fun _ => id) rfl rfl
  | note | wait | poll => exact f.congr (fun _ => id) rfl rfl

end Flags

theorem flags_run (actions : List Action) : Flags (empty.run actions) actions :=
  (run_invariant (P := fun r actions => Flags r actions ∧ Tally r actions)
    ⟨flags_empty, tally_empty⟩ (fun _ _ a h => ⟨h.1.act h.2 a, h.2.act a⟩) actions).1

theorem Flags.stopped? (f : Flags r actions) (t : Tally r actions)
    (lt : i < (registered actions).length) (stays : ¬ Gone actions i) :
    ∃ told, r.stopped? i = some told ∧ (told = true ↔ ToldToStop actions i) := by
  obtain ⟨g, found⟩ := Option.isSome_iff_exists.mp ((t.isSome_guard? i).mpr ⟨lt, stays⟩)
  obtain ⟨there, kept⟩ := Option.filter_eq_some_iff.mp found
  refine ⟨g.stopped, ?_, f.stopped there (by simpa using kept)⟩
  unfold Registry.stopped?
  rw [found]
  rfl

/-! ## flags are not taken back -/

/-- each flag that was raised still is -/
structure Outlasts (r r' : Registry) : Prop where
  shutdown : r.shutdown = true → r'.shutdown = true
  stopped : ∀ (i : Nat) (g : Guard), r.guards[i]? = some g → g.stopped = true →
    ∃ g' : Guard, r'.guards[i]? = some g' ∧ g'.stopped = true

namespace Outlasts

theorem of_eq (shutdown : r'.shutdown = r.shutdown) (guards : r'.guards = r.guards) :
    Outlasts r r' where
  shutdown raised := shutdown.trans raised
  stopped i g there raised := ⟨g, by rw [guards, there], raised⟩

/-- what is done to each guard does not take its flag back -/
theorem of_map {f : Nat → Guard → Guard} (shutdown : r.shutdown = true → r'.shutdown = true)
    (guards : ∀ i, r'.guards[i]? = (r.guards[i]?).map (f i))
    (kept : ∀ i g, g.stopped = true → (f i g).stopped = true) : Outlasts r r' where
  shutdown := shutdown
  stopped i g there raised := ⟨f i g, by rw [guards, there, Option.map_some], kept i g raised⟩

theorem trans (h : Outlasts r r') (h' : Outlasts r' r'') : Outlasts r r'' where
  shutdown raised := h'.shutdown (h.shutdown raised)
  stopped i g there raised :=
    have ⟨g', there', raised'⟩ := h.stopped i g there raised
    h'.stopped i g' there' raised'

theorem act (r : Registry) (a : Action) : Outlasts r (r.act a) := by
  cases a with
  | register peer =>
    refine ⟨id, fun i g there raised => ⟨g, ?_, raised⟩⟩
    have old := (List.getElem?_eq_some_iff.mp there).1
    exact (List.getElem?_append_left old).trans there
  | drop i =>
    refine of_map (fun raised => (r.drop_kept i).2.trans raised) (r.getElem?_drop i) ?_
    intro j g raised
    split <;> exact raised
  | stop i =>
    refine of_map (fun raised => (r.stop_kept i).2.trans raised) (r.getElem?_stop i) ?_
    intro j g raised
    split
    · rfl
    · exact raised
  | shutDown => exact of_map (fun _ => rfl) (fun i => List.getElem?_map) fun _ _ _ => rfl
  | wakeIfIdle =>
    obtain ⟨waiters, e, -⟩ := r.wakeIfIdle_eq
    rw [Registry.act, e]
    exact of_eq rfl rfl
  | note | wait | poll => exact of_eq rfl rfl

theorem run (r : Registry) (more : List Action) : Outlasts r (r.run more) := by
  induction more generalizing r with
  | nil => exact of_eq rfl rfl
  | cons a more ih => exact (act r a).trans (ih (r.act a))

end Outlasts

/-! ## all of it -/

/-- what the flags of a registry say about what has been done with it -/
structure Signals (r : Registry) (actions : List Action) : Prop where
  /-- each guard that has been handed out and has not been dropped says whether it has been told -/
  stopped : ∀ i, i < (registered actions).length → ¬ Gone actions i →
    ∃ told, r.stopped? i = some told ∧ (told = true ↔ ToldToStop actions i)
  shutdown : r.shutdown = true ↔ .shutDown ∈ actions
  /-- what is done with one guard leaves the others as they are -/
  others : ∀ i j, i ≠ j →
    (r.stop i).stopped? j = r.stopped? j ∧ (r.drop i).stopped? j = r.stopped? j
  /-- and the registry -/
  apart : ∀ i, (r.stop i).shutdown = r.shutdown ∧ (r.drop i).shutdown = r.shutdown
  /-- whatever is done later, no flag is taken back -/
  later : ∀ more, Outlasts r (r.run more)

/-- **Stop flags.**  Whatever has been done with a registry, a guard that is there says that it has been
stopped exactly if it has been told to, alone or with all others, before it was handed out or since; the
registry says that it has been shut down exactly if it has; no guard hears of what is done with another
one; and nothing that is done takes a flag back. -/
theorem stop_flags (actions : List Action) : Signals (empty.run actions) actions := by
  have flags := flags_run actions
  refine ⟨fun i lt stays => flags.stopped? (tally_run actions) lt stays, flags.shutdown,
    fun i j ne => ⟨?_, ?_⟩, fun i => ⟨(stop_kept _ i).2, (drop_kept _ i).2⟩, Outlasts.run _⟩
  · exact congrArg (Option.map Guard.stopped) (guard?_stop_of_ne _ ne)
  · exact congrArg (Option.map Guard.stopped) (guard?_drop_of_ne _ ne)

/-- one guard is stopped alone, one is dropped, one is there at the shutdown, and one comes later -/
example :
    let r := empty.run [.stop 0, .register none, .register none, .stop 1, .register none, .drop 2]
    let s := r.run [.shutDown, .register none]
    r.shutdown = false ∧ (List.range 4).map r.stopped? = [some false, some true, none, none]
      ∧ (List.range 4).map s.stopped? = [some true, some true, none, some true] := by
  decide

end PipelinedHttp.Registry
