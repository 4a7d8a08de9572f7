import PipelinedHttp.Server

/-!
# Guards that are dropped, and those who wait for that

* `deregister_eq`       an id that is taken off the live set is gone, and all others stay;
* `drop_of_some`        dropping a guard does this to its id;
* `drop_live`, `guard?_drop`   so the id is gone from the live set, and the guard is gone too;
* `guard?_drop_of_ne`   no other guard is touched;
* `stopped?_stop`, `guard?_stop_of_ne`   and stopping a guard touches no other one either;
* `live_eq_nil_of_wait`, `live_eq_nil_of_poll`   whoever waits is done only when the live set is empty;
* `Server.retire_of_over`   a connection that is over is taken off the registry.
-/

namespace PipelinedHttp

namespace Registry

theorem wakeIfIdle_eq (r : Registry) :
    ∃ waiters, r.wakeIfIdle = { r with waiters }
      ∧ waiters.map Waiter.done = r.waiters.map Waiter.done := by
  unfold wakeIfIdle
  split
  · refine ⟨_, rfl, ?_⟩
    rw [List.map_map]
    rfl
  · exact ⟨r.waiters, rfl, rfl⟩

/-- an id that is live is taken off the live set, and no one is done waiting by that -/
theorem deregister_of_live {r : Registry} {id : Nat} (there : r.live.any (·.id == id) = true) :
    ∃ waiters, r.deregister id = { r with
        live := r.live.filter (·.id != id)
        stats := { r.stats with current := r.stats.current - 1 }
        waiters }
      ∧ waiters.map Waiter.done = r.waiters.map Waiter.done := by
  unfold deregister
  rw [if_pos there]
  exact wakeIfIdle_eq _

theorem deregister_eq (r : Registry) (id : Nat) :
    ∃ stats waiters, r.deregister id = { r with live := r.live.filter (·.id != id), stats, waiters }
      ∧ waiters.map Waiter.done = r.waiters.map Waiter.done := by
  by_cases there : r.live.any (·.id == id) = true
  · exact ⟨_, deregister_of_live there⟩
  · -- the id is not there, and nothing is filtered out
    have all : r.live.filter (·.id != id) = r.live := by
      refine List.filter_eq_self.mpr fun l hl => ?_
      rw [bne_iff_ne]
      intro e
      exact there (List.any_eq_true.mpr ⟨l, hl, beq_iff_eq.mpr e⟩)
    obtain ⟨waiters, e, same⟩ := wakeIfIdle_eq r
    unfold deregister
    rw [if_neg there, all]
    exact ⟨r.stats, waiters, e, same⟩

/-- a guard that is there is dropped, and its id taken off the live set -/
theorem drop_of_some {r : Registry} {index : Nat} {g : Guard} (h : r.guard? index = some g) :
    ∃ stats waiters, r.drop index = { r with
        guards := r.guards.modify index fun g => { g with dropped := true }
        live := r.live.filter (·.id != g.id)
        stats
        waiters }
      ∧ waiters.map Waiter.done = r.waiters.map Waiter.done := by
  unfold drop
  rw [h]
  exact deregister_eq { r with guards := r.guards.modify index fun g => { g with dropped := true } }
    g.id

theorem drop_of_live {r : Registry} {index : Nat} {g : Guard} (h : r.guard? index = some g)
    (there : r.live.any (·.id == g.id) = true) :
    ∃ waiters, r.drop index = { r with
        guards := r.guards.modify index fun g => { g with dropped := true }
        live := r.live.filter (·.id != g.id)
        stats := { r.stats with current := r.stats.current - 1 }
        waiters } := by
  unfold drop
  rw [h]
  obtain ⟨waiters, e, -⟩ := deregister_of_live (r := { r with
    guards := r.guards.modify index fun g => { g with dropped := true } }) there
  exact ⟨waiters, e⟩

theorem drop_of_none {r : Registry} {index : Nat} (h : r.guard? index = none) :
    r.drop index = r := by
  unfold drop
  rw [h]

theorem stop_cases (r : Registry) (index : Nat) : r.stop index = r ∨ r.stop index
    = { r with guards := r.guards.modify index fun g => { g with stopped := true } } := by
  unfold stop
  split
  · exact .inl rfl
  · exact .inr rfl

theorem drop_live {r : Registry} {index : Nat} {g : Guard} (h : r.guard? index = some g) :
    (r.drop index).live = r.live.filter (·.id != g.id) := by
  obtain ⟨stats, waiters, e, -⟩ := drop_of_some h
  rw [e]

theorem guard?_drop (r : Registry) (index : Nat) : (r.drop index).guard? index = none := by
  cases h : r.guard? index with
  | none => rw [drop_of_none h, h]
  | some g =>
    obtain ⟨stats, waiters, e, -⟩ := drop_of_some h
    rw [e]
    show ((r.guards.modify index _)[index]?).filter _ = none
    rw [List.getElem?_modify_eq]
    cases r.guards[index]? <;> rfl

theorem guard?_drop_of_ne (r : Registry) {index other : Nat} (ne : index ≠ other) :
    (r.drop index).guard? other = r.guard? other := by
  cases h : r.guard? index with
  | none => rw [drop_of_none h]
  | some g =>
    obtain ⟨stats, waiters, e, -⟩ := drop_of_some h
    rw [e]
    show ((r.guards.modify index _)[other]?).filter _ = (r.guards[other]?).filter _
    rw [List.getElem?_modify_ne _ _ ne]

theorem guard?_stop_of_ne (r : Registry) {index other : Nat} (ne : index ≠ other) :
    (r.stop index).guard? other = r.guard? other := by
  rcases r.stop_cases index with e | e
  · rw [e]
  · rw [e]
    show ((r.guards.modify index _)[other]?).filter _ = (r.guards[other]?).filter _
    rw [List.getElem?_modify_ne _ _ ne]

theorem stopped?_stop (r : Registry) (index : Nat) :
    (r.stop index).stopped? index = (r.stopped? index).map fun _ => true := by
  unfold stopped? stop
  cases h : r.guard? index with
  | none =>
    dsimp only
    rw [h]
    rfl
  | some g =>
    obtain ⟨there, stays⟩ := Option.filter_eq_some_iff.mp h
    show (((r.guards.modify index _)[index]?).filter _).map _ = some true
    rw [List.getElem?_modify_eq, there, Option.map_eq_map, Option.map_some,
      Option.filter_some, if_pos stays]
    rfl

theorem stop_kept (r : Registry) (index : Nat) :
    (r.stop index).stats = r.stats ∧ (r.stop index).shutdown = r.shutdown := by
  rcases r.stop_cases index with e | e <;> rw [e] <;> exact ⟨rfl, rfl⟩

theorem drop_kept (r : Registry) (index : Nat) :
    (r.drop index).stats = { r.stats with current := (r.drop index).stats.current }
      ∧ (r.drop index).shutdown = r.shutdown := by
  unfold drop
  split
  · exact ⟨rfl, rfl⟩
  · unfold deregister wakeIfIdle
    dsimp only
    split <;> split <;> exact ⟨rfl, rfl⟩

/-! ## waiting for the live set to be empty -/

theorem isDone_congr {r r' : Registry} (h : r'.waiters.map Waiter.done = r.waiters.map Waiter.done)
    (w : Nat) : r'.isDone w = r.isDone w := by
  have at_ (r : Registry) : r.isDone w = ((r.waiters.map Waiter.done)[w]?).any id := by
    unfold isDone
    rw [List.getElem?_map, Option.any_map]
    rfl
  rw [at_, at_, h]

theorem live_eq_nil_of_wait {r : Registry} {w : Nat} (waiting : r.isDone w = false)
    (done : r.wait.isDone w = true) : r.live = [] := by
  have done : ((r.waiters ++ [⟨false, r.isIdle⟩])[w]?).any Waiter.done = true := done
  rcases Nat.lt_or_ge w r.waiters.length with before | after
  · rw [List.getElem?_append_left before] at done
    exact absurd (waiting.symm.trans done) nofun
  · rw [List.getElem?_append_right after] at done
    cases last : w - r.waiters.length with
    | zero =>
      rw [last] at done
      exact List.isEmpty_iff.mp done
    | succ n =>
      rw [last] at done
      cases done

theorem live_eq_nil_of_poll {r : Registry} {v w : Nat} (waiting : r.isDone w = false)
    (done : (r.poll v).isDone w = true) : r.live = [] := by
  have done : ((r.waiters.modify v fun x =>
    if x.woken && !x.done then ⟨false, r.isIdle⟩ else x)[w]?).any Waiter.done = true := done
  have waiting : (r.waiters[w]?).any Waiter.done = false := waiting
  rw [List.getElem?_modify] at done
  cases there : r.waiters[w]? with
  | none =>
    rw [there] at done
    cases done
  | some x =>
    rw [there] at done waiting
    have waiting : x.done = false := waiting
    by_cases here : v = w
    · simp only [here, if_true, Option.map_eq_map, Option.map_some, Option.any_some] at done
      split at done
      · exact List.isEmpty_iff.mp done
      · exact absurd (waiting.symm.trans done) nofun
    · simp only [here, if_false, Option.map_eq_map, Option.map_some, Option.any_some,
        waiting] at done
      cases done

end Registry

/-- a connection that is over is taken off the live set, and no other one is -/
theorem Server.retire_of_over {κ : Type} {s : Server κ} {i : Nat} {l : Link} {g : Guard}
    (link : s.links[i]? = some l) (h : l.over = true)
    (guard : s.registry.guard? l.guard = some g) :
    (s.retire i).registry.guard? l.guard = none
      ∧ (s.retire i).registry.live = s.registry.live.filter (·.id != g.id)
      ∧ ∀ other ≠ l.guard, (s.retire i).registry.guard? other = s.registry.guard? other := by
  have registry : (s.retire i).registry = s.registry.drop l.guard := by
    unfold retire
    rw [link]
    dsimp only
    rw [if_pos h]
  rw [registry]
  refine ⟨Registry.guard?_drop _ _, Registry.drop_live guard, fun other ne => ?_⟩
  exact Registry.guard?_drop_of_ne _ ne.symm

end PipelinedHttp
