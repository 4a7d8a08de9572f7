import PipelinedHttp.Proofs.Registry.Accounting

/-!
# Waiting for the last connection to go

Whoever waits looks at the live set as it begins to, and then at a poll only if it has been woken
since it looked last.  That is enough: the live set does not become empty without everyone being
woken, so whoever has not been woken would see a connection that is live (`Alert`).

* `Alert.act`          this stays so, whatever is done;
* `Alert.isDone_poll`   so a poll answers as if it always looked;
* `watched_run`        and whoever is done has looked when no one was live;
* `no_lost_wakeup`     so who is done waiting can be read off all that has been done.
-/

namespace PipelinedHttp.Registry
variable {r : Registry} {actions : List Action} {a : Action} {w : Nat}

/-! ## who looks -/

def isWait : Action → Bool
  | .wait => true
  | _ => false

/-- how many have begun to wait -/
def waits (actions : List Action) : Nat := actions.countP isWait

/-- the waiter with the given number looks at the live set: it begins to wait, or it is polled -/
def Looks (before : List Action) (w : Nat) : Action → Prop
  | .wait => w = waits before
  | .poll v => v = w ∧ w < waits before
  | _ => False

/-- the waiter has looked at the live set when that was empty -/
def SeenIdle (actions : List Action) (w : Nat) : Prop :=
  ∃ before a after, actions = before ++ a :: after ∧ Looks before w a ∧ (empty.run before).live = []

theorem waits_concat (actions : List Action) (a : Action) :
    waits (actions ++ [a]) = waits actions + [a].countP isWait := List.countP_append

theorem seenIdle_concat : SeenIdle (actions ++ [a]) w
    ↔ SeenIdle actions w ∨ Looks actions w a ∧ (empty.run actions).live = [] :=
  exists_split_concat

/-! ## everyone is woken in time -/

/-- whoever still waits and has not been woken since it looked would see a connection that is live -/
def Alert (r : Registry) : Prop :=
  ∀ x ∈ r.waiters, x.done = false → x.woken = false → r.live ≠ []

theorem alert_of_live (h : r.live ≠ []) : r.Alert := fun _ _ _ _ => h

theorem alert_wakeIfIdle (r : Registry) : r.wakeIfIdle.Alert := by
  unfold wakeIfIdle
  split
  · intro x mem _ asleep
    obtain ⟨y, -, rfl⟩ := List.mem_map.mp mem
    cases asleep
  · rename_i busy
    refine alert_of_live fun empty => busy ?_
    exact List.isEmpty_iff.mpr empty

/-- the live set does not become empty without everyone being woken -/
theorem Alert.drop (h : r.Alert) (index : Nat) : (r.drop index).Alert := by
  unfold Registry.drop
  split
  · exact h
  · exact alert_wakeIfIdle _

theorem Alert.wait (h : r.Alert) : r.wait.Alert := by
  intro x mem waiting asleep
  rcases List.mem_append.mp mem with old | new
  · exact h x old waiting asleep
  · rw [List.mem_singleton.mp new] at waiting
    exact fun empty => Bool.noConfusion ((List.isEmpty_iff.mpr empty).symm.trans waiting)

/-- what becomes of a waiter that is polled -/
def look (r : Registry) (x : Waiter) : Waiter := if x.woken && !x.done then ⟨false, r.isIdle⟩ else x

theorem getElem?_poll (r : Registry) (v i : Nat) :
    (r.poll v).waiters[i]? = (r.waiters[i]?).map fun x => if v = i then r.look x else x :=
  List.getElem?_modify _ _ _ _

theorem Alert.poll (h : r.Alert) (v : Nat) : (r.poll v).Alert := by
  intro x mem waiting asleep
  obtain ⟨i, there⟩ := List.getElem?_of_mem mem
  rw [getElem?_poll] at there
  obtain ⟨y, own, rfl⟩ := Option.map_eq_some_iff.mp there
  have old := h y (List.mem_of_getElem? own)
  split at waiting
  · rename_i here
    rw [if_pos here] at asleep
    unfold look at waiting asleep
    split at waiting
    · -- it has just looked
      exact fun empty => Bool.noConfusion ((List.isEmpty_iff.mpr empty).symm.trans waiting)
    · rename_i still
      rw [if_neg still] at asleep
      exact old waiting asleep
  · rename_i other
    rw [if_neg other] at asleep
    exact old waiting asleep

theorem Alert.act (h : r.Alert) (a : Action) : (r.act a).Alert := by
  cases a with
  | register peer =>
    exact alert_of_live (List.append_ne_nil_of_right_ne_nil _ (List.cons_ne_nil _ _))
  | drop index => exact h.drop index
  | stop index =>
    rcases r.stop_cases index with e | e <;> rw [Registry.act, e] <;> exact h
  | shutDown | note => exact h
  | wakeIfIdle => exact r.alert_wakeIfIdle
  | wait => exact h.wait
  | poll v => exact h.poll v

/-! ## who is done -/

/-- a poll answers as if it always looked -/
theorem Alert.isDone_poll (h : r.Alert) (there : w < r.waiters.length) :
    (r.poll w).isDone w = true ↔ r.live = [] ∨ r.isDone w = true := by
  have own := List.getElem?_eq_getElem there
  have alert := h _ (List.getElem_mem there)
  have idle : r.isIdle = true ↔ r.live = [] := List.isEmpty_iff
  unfold isDone
  rw [getElem?_poll, own, Option.map_some, if_pos rfl, Option.any_some, Option.any_some]
  unfold look
  cases waiting : r.waiters[w].done with
  | true => simp [waiting]
  | false =>
    cases woken : r.waiters[w].woken with
    | true => simp [idle]
    | false => simp [waiting, alert waiting woken]

theorem isDone_wait (r : Registry) (w : Nat) : r.wait.isDone w = true
    ↔ r.isDone w = true ∨ w = r.waiters.length ∧ r.live = [] := by
  have idle : r.isIdle = true ↔ r.live = [] := List.isEmpty_iff
  have done : r.wait.isDone w = ((r.waiters ++ [⟨false, r.isIdle⟩])[w]?).any Waiter.done := rfl
  rw [done]
  unfold isDone
  rcases Nat.lt_trichotomy w r.waiters.length with before | rfl | after
  · rw [List.getElem?_append_left before]
    exact ⟨.inl, fun h => h.resolve_right fun last => Nat.ne_of_lt before last.1⟩
  · rw [List.getElem?_concat_length, List.getElem?_eq_none (Nat.le_refl _)]
    simp [idle]
  · rw [List.getElem?_eq_none (by simp; omega), List.getElem?_eq_none (Nat.le_of_lt after)]
    simp [Nat.ne_of_gt after]

theorem isDone_poll_of_ne (r : Registry) {v : Nat} (ne : v ≠ w) :
    (r.poll v).isDone w = r.isDone w := by
  unfold isDone
  rw [getElem?_poll, Option.any_map]
  simp [ne]

theorem act_waiters (r : Registry) (wait : a ≠ .wait) (poll : ∀ v, a ≠ .poll v) :
    (r.act a).waiters.map Waiter.done = r.waiters.map Waiter.done := by
  cases a with
  | register | shutDown | note => rfl
  | stop index => rcases r.stop_cases index with e | e <;> rw [act, e]
  | drop index =>
    cases found : r.guard? index with
    | none => rw [act, drop_of_none found]
    | some g =>
      obtain ⟨stats, waiters, e, dones⟩ := drop_of_some found
      rw [act, e]
      exact dones
  | wakeIfIdle =>
    obtain ⟨waiters, e, dones⟩ := r.wakeIfIdle_eq
    rw [act, e]
    exact dones
  | wait => exact absurd rfl wait
  | poll v => exact absurd rfl (poll v)

/-- who waits in a registry, and who is done -/
structure Watched (actions : List Action) : Prop where
  alert : (empty.run actions).Alert
  length : (empty.run actions).waiters.length = waits actions
  done : ∀ w, (empty.run actions).isDone w = true ↔ SeenIdle actions w

theorem Watched.isDone_poll (h : Watched actions) (there : w < waits actions) :
    ((empty.run actions).poll w).isDone w = true
      ↔ (empty.run actions).live = [] ∨ (empty.run actions).isDone w = true :=
  h.alert.isDone_poll (h.length ▸ there)

theorem Watched.act (h : Watched actions) (a : Action) : Watched (actions ++ [a]) := by
  have length := h.length
  have after : empty.run (actions ++ [a]) = (empty.run actions).act a := run_append _ _ _
  -- all actions but two are no looks, and no one is done by them
  have keeps (wait : a ≠ .wait) (poll : ∀ v, a ≠ .poll v) : Watched (actions ++ [a]) := by
    have same := (empty.run actions).act_waiters wait poll
    refine ⟨after ▸ h.alert.act a, ?_, fun w => ?_⟩
    · have none : [a].countP isWait = 0 := by cases a <;> first | rfl | exact absurd rfl wait
      have length' := congrArg List.length same
      rw [List.length_map, List.length_map] at length'
      rw [after, waits_concat, none, length', length]
      rfl
    · have blind : ¬ Looks actions w a := by
        cases a <;> first | exact id | exact absurd rfl wait | exact absurd rfl (poll _)
      rw [after, isDone_congr same, seenIdle_concat, h.done w]
      exact (or_iff_left fun looks => blind looks.1).symm
  cases a with
  | wait =>
    refine ⟨after ▸ h.alert.act _, ?_, fun w => ?_⟩
    · rw [after, waits_concat, ← length]
      exact List.length_append
    · rw [after, seenIdle_concat, ← h.done w]
      show (empty.run actions).wait.isDone w = true ↔ _
      rw [isDone_wait, length]
      rfl
  | poll v =>
    refine ⟨after ▸ h.alert.act _, ?_, fun w => ?_⟩
    · rw [after, waits_concat, ← length]
      exact List.length_modify _ _ _
    · rw [after, seenIdle_concat, ← h.done w]
      show ((empty.run actions).poll v).isDone w = true ↔ _ ∨ (v = w ∧ w < waits actions) ∧ _
      by_cases here : v = w
      · subst here
        by_cases there : v < waits actions
        · rw [h.isDone_poll there, or_comm]
          simp [there]
        · have gone : ((empty.run actions).poll v).isDone v = (empty.run actions).isDone v := by
            unfold isDone
            rw [getElem?_poll, List.getElem?_eq_none (by omega)]
            rfl
          simp [gone, there]
      · rw [isDone_poll_of_ne _ here]
        simp [here]
  | register | drop | stop | shutDown | note | wakeIfIdle => exact keeps nofun fun _ => nofun

theorem watched_empty : Watched [] where
  alert := nofun
  length := rfl
  done w := by
    refine ⟨nofun, ?_⟩
    rintro ⟨before, a, after, e, -⟩
    exact absurd e.symm (List.append_ne_nil_of_right_ne_nil _ (List.cons_ne_nil _ _))

theorem watched_run (actions : List Action) : Watched actions :=
  run_invariant (P := fun _ actions => Watched actions) watched_empty (fun _ _ a h => h.act a)
    actions

theorem seenIdle_append {more : List Action} (there : w < waits actions)
    (unpolled : ∀ a ∈ more, a ≠ .poll w) : SeenIdle (actions ++ more) w ↔ SeenIdle actions w := by
  induction more generalizing actions with
  | nil => rw [List.append_nil]
  | cons a more ih =>
    obtain ⟨first, others⟩ := List.forall_mem_cons.mp unpolled
    have blind : ¬ Looks actions w a := by
      cases a with
      | wait => exact Nat.ne_of_lt there
      | poll v => exact fun looks => first (looks.1 ▸ rfl)
      | register | drop | stop | shutDown | note | wakeIfIdle => exact id
    rw [← List.singleton_append, ← List.append_assoc, ih ?_ others, seenIdle_concat]
    · exact or_iff_left fun looks => blind looks.1
    · rw [waits_concat]
      exact Nat.lt_add_right _ there

theorem waits_append_le (actions more : List Action) : waits actions ≤ waits (actions ++ more) := by
  unfold waits
  rw [List.countP_append]
  exact Nat.le_add_right _ _

/-- **No wakeup is lost, and none is false.**  Whatever has been done with a registry, in whatever
order, and however many wait:

* whoever begins to wait is done at once if and only if the live set is empty;
* a poll finds a waiter done if and only if the live set is empty or the waiter has been done before;
* so whoever waits is done at the next poll if and only if the live set is empty then, whatever it
  has been in between;
* whoever is done has looked at the live set when that was empty, and looks are all that counts. -/
theorem no_lost_wakeup (actions : List Action) :
    ((empty.run actions).wait.isDone (waits actions) = true ↔ (empty.run actions).live = [])
      ∧ (∀ w < waits actions, ((empty.run actions).poll w).isDone w = true
          ↔ (empty.run actions).live = [] ∨ (empty.run actions).isDone w = true)
      ∧ (∀ w < waits actions, (empty.run actions).isDone w = false →
          ∀ more, (∀ a ∈ more, a ≠ .poll w) →
            (((empty.run (actions ++ more)).poll w).isDone w = true
              ↔ (empty.run (actions ++ more)).live = []))
      ∧ ∀ w, (empty.run actions).isDone w = true ↔ SeenIdle actions w := by
  have watched := watched_run actions
  refine ⟨?_, fun w there => watched.isDone_poll there, fun w there waiting more unpolled => ?_,
    watched.done⟩
  · have fresh : (empty.run actions).isDone (waits actions) = false := by
      unfold isDone
      rw [← watched.length, List.getElem?_eq_none (Nat.le_refl _)]
      rfl
    rw [isDone_wait, watched.length, fresh]
    simp
  · have later := watched_run (actions ++ more)
    have still : (empty.run (actions ++ more)).isDone w = false := by
      rw [← Bool.not_eq_true, later.done, seenIdle_append there unpolled, ← watched.done, waiting]
      exact nofun
    rw [later.isDone_poll (Nat.lt_of_lt_of_le there (waits_append_le actions more)), still]
    simp

/-- the live set is emptied and filled again before the waiter is polled: it goes on waiting, and is
done when it finds the set empty -/
theorem no_lost_wakeup_refilled :
    let before : List Action := [.register none, .wait]
    let refill : List Action := [.drop 0, .register none]
    ((empty.run (before ++ refill)).poll 0).isDone 0 = false
      ∧ ((empty.run (before ++ (refill ++ [.drop 1]))).poll 0).isDone 0 = true := by
  intro before refill
  obtain ⟨-, -, next, -⟩ := no_lost_wakeup before
  have there : 0 < waits before := Nat.one_pos
  have waiting : (empty.run before).isDone 0 = false := rfl
  have live : (empty.run (before ++ refill)).live = [⟨2, none⟩] := rfl
  have idle : (empty.run (before ++ (refill ++ [.drop 1]))).live = [] := rfl
  have first := next 0 there waiting refill (by simp [refill])
  have second := next 0 there waiting (refill ++ [.drop 1]) (by simp [refill])
  constructor
  · rw [← Bool.not_eq_true, first, live]
    exact List.cons_ne_nil _ _
  · exact second.mpr idle

end PipelinedHttp.Registry
