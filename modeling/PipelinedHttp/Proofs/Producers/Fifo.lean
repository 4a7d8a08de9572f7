import PipelinedHttp.Proofs.Producers.Fills
import PipelinedHttp.Proofs.Producers.Slots

/-!
# First in, first out

`Traffic` is a run with its log: the entries that have been put, with those who have put them, in the
order in which this was done, and what has been received.  The entries of the log are those received and
those still queued, in the same order (`Logged`).  Since no one gets a slot in front of a producer that
waits (`Orderly.ahead`), the entries of those who push are put in the order in which they have begun.

* `Orderly.act`     what each action keeps of the producers;
* `Logged.act`      and of the log;
* `received_run`    without a sending side the queue is emptied, and then the last mark is received;
* `first_in_first_out`   all of it together.
-/

namespace PipelinedHttp

namespace Producers
variable {p p' : Producers} {capacity i j n : Nat} {s : Slot} {a : Action}
  {actions more : List Action} {new : List (Nat × Slot)}

/-! ## the log of a run -/

/-- the entries that have been put from one state to a later one, with those who have put them -/
def newlyPut (p p' : Producers) : List (Nat × Slot) :=
  (List.range p'.members.length).flatMap fun i =>
    if p.put? i = none then (p'.put? i).toList.map (i, ·) else []

/-- what is received when an action takes place -/
def Action.receives (p : Producers) : Action → List Slot
  | .receive =>
    match p.receive.1 with
    | .entry s => [s]
    | .empty | .noReceiver => []
  | _ => []

structure Traffic where
  producers : Producers
  /-- the entries that have been put, with those who have put them -/
  completed : List (Nat × Slot)
  received : List Slot

namespace Traffic

def ofCapacity (capacity : Nat) : Traffic := ⟨.ofCapacity capacity, [], []⟩

def act (t : Traffic) (a : Action) : Traffic where
  producers := t.producers.act a
  completed := t.completed ++ newlyPut t.producers (t.producers.act a)
  received := t.received ++ a.receives t.producers

def run (t : Traffic) (actions : List Action) : Traffic := actions.foldl act t

end Traffic

/-- what the producers have begun with, in order: an entry if they push, none if they reserve -/
def begun (actions : List Action) : List (Option Slot) := actions.filterMap Action.begins?

/-- the producer pushes -/
def Pushes (actions : List Action) (i : Nat) : Prop := ∃ s, (begun actions)[i]? = some (some s)

/-- the producer has been given the entry: it has begun with it, or it reserves and has been told so -/
def Offered (actions : List Action) (i : Nat) (s : Slot) : Prop :=
  (begun actions)[i]? = some (some s)
    ∨ (begun actions)[i]? = some none ∧ .order i (.fill s) ∈ actions

theorem begun_concat (actions : List Action) (a : Action) :
    begun (actions ++ [a]) = begun actions ++ a.begins?.toList := by
  unfold begun
  rw [List.filterMap_append]
  cases e : a.begins? <;> simp [e]

theorem getElem?_begun_concat {b : Option Slot} (here : (begun actions)[i]? = some b) (a : Action) :
    (begun (actions ++ [a]))[i]? = some b := by
  rw [begun_concat, List.getElem?_append_left (List.getElem?_eq_some_iff.mp here).1, here]

theorem Offered.concat (h : Offered actions i s) (a : Action) : Offered (actions ++ [a]) i s := by
  rcases h with pushed | ⟨reserves, told⟩
  · exact .inl (getElem?_begun_concat pushed a)
  · exact .inr ⟨getElem?_begun_concat reserves a, List.mem_append_left _ told⟩

theorem newlyPut_eq (one : new.length ≤ 1)
    (put : ∀ j s, p'.put? j = some s ↔ p.put? j = some s ∨ (j, s) ∈ new)
    (fresh : ∀ e ∈ new, p.put? e.1 = none) : newlyPut p p' = new := by
  unfold newlyPut
  match new with
  | [] =>
    apply List.flatMap_eq_nil_iff.mpr
    intro i _
    split
    · rename_i before
      have now : p'.put? i = none := by
        rw [Option.eq_none_iff_forall_ne_some] at before ⊢
        intro s now
        exact before s (((put i s).mp now).resolve_right List.not_mem_nil)
      rw [now]
      rfl
    · rfl
  | [(j, s)] =>
    have now : p'.put? j = some s := (put j s).mpr (.inr List.mem_cons_self)
    have before : p.put? j = none := fresh (j, s) List.mem_cons_self
    have lt : j < p'.members.length := lt_of_progress? (put?_eq_some_iff.mp now)
    rw [← flatMap_range_only lt [(j, s)]]
    congr 1
    funext i
    by_cases own : i = j
    · subst own
      simp [before, now]
    · rw [if_neg own]
      split
      · rename_i absent
        cases e : p'.put? i with
        | none => rfl
        | some s' =>
          rcases (put i s').mp e with old | same
          · cases absent.symm.trans old
          · exact absurd (congrArg Prod.fst (List.mem_singleton.mp same)) own
      · rfl
  | _ :: _ :: _ => simp at one

theorem Moved.newlyPut (h : Moved p a p' new) : newlyPut p p' = new :=
  newlyPut_eq h.one h.put h.fresh

/-! ## what is received -/

theorem receive_of_nil (open_ : p.queue.receiving = true) (nil : p.queue.slots = []) :
    p.receive = (if p.sending then .empty else .entry .last, p) := by
  have none : p.queue.take? = .none := by
    unfold ReplyQueue.take?
    rw [nil]
  unfold receive
  simp only [open_, none, Bool.not_true, Bool.false_eq_true, if_false]

theorem receives_of_cons {rest : List Slot} (open_ : p.queue.receiving = true)
    (cons : p.queue.slots = s :: rest) : Action.receive.receives p = [s] := by
  unfold Action.receives receive
  cases taken : p.queue.take? with
  | none =>
    rw [take?_eq_none taken] at cons
    cases cons
  | some taken' =>
    obtain ⟨s', ticket, q'⟩ := taken'
    obtain ⟨slots, -⟩ := ReplyQueue.take?_eq_some taken
    cases cons.symm.trans slots
    simp only [open_, Bool.not_true, Bool.false_eq_true, if_false]

/-! ## the producers of a run -/

/-- what all actions keep of the producers, as long as there is a receiver -/
structure Orderly (capacity : Nat) (actions : List Action) (p : Producers) : Prop where
  settled : Settled capacity p
  receiving : p.queue.receiving = true
  sending : p.sending = true ↔ .closeSender ∉ actions
  ended : p.sending = false → ∀ i g, p.progress? i = some g → g.Ended
  /-- no one has got a slot who has begun behind a producer that still waits -/
  ahead : ∀ i j, i < j → p.Waits i → ¬ p.Granted j
  kinds : p.kinds <+: (begun actions).map Option.isNone
  all : p.sending = true → p.kinds = (begun actions).map Option.isNone
  own : ∀ i s, p.offer? i = some s → Offered actions i s

theorem orderly_ofCapacity (capacity : Nat) : Orderly capacity [] (ofCapacity capacity) where
  settled := settled_ofCapacity capacity
  receiving := rfl
  sending := by simp [ofCapacity]
  ended := nofun
  ahead := by
    rintro i j - ⟨order, waiting⟩
    cases waiting
  kinds := List.prefix_rfl
  all _ := rfl
  own := nofun

theorem length_kinds (p : Producers) : p.kinds.length = p.members.length := List.length_map _

theorem endsSender_iff : a.endsSender = true ↔ a = .closeSender := by
  cases a <;> simp [Action.endsSender]

namespace Orderly
variable (h : Orderly capacity actions p)
include h

theorem getElem?_begun {kind : Bool} (here : p.kinds[i]? = some kind) :
    ∃ b, (begun actions)[i]? = some b ∧ b.isNone = kind := by
  obtain ⟨more, e⟩ := h.kinds
  have same : ((begun actions).map Option.isNone)[i]? = some kind := by
    rw [← e, List.getElem?_append_left (List.getElem?_eq_some_iff.mp here).1, here]
  rw [List.getElem?_map] at same
  exact Option.map_eq_some_iff.mp same

/-- no one puts anything who has ended, and all have ended when the sending side has -/
theorem nothing_new (off : p.sending = false) (moved : Moved p a (p.act a) new) : new = [] := by
  apply List.eq_nil_iff_forall_not_mem.mpr
  rintro ⟨j, s⟩ mem
  have before : p.put? j = none := moved.fresh (j, s) mem
  have now : (p.act a).put? j = some s := (moved.put j s).mpr (.inr mem)
  have lt : j < p.members.length := by
    have lt := lt_of_progress? (put?_eq_some_iff.mp now)
    rw [← length_kinds, moved.kinds, off] at lt
    simpa [length_kinds] using lt
  have there : p.progress? j = some (p.members[j]).progress := by simp [progress?, lt]
  have same : (p.act a).progress? j = _ := h.settled.ended_run there (h.ended off j _ there) [a]
  rw [put?_of_progress same, ← put?_of_progress there, before] at now
  cases now

theorem ended_act (moved : Moved p a (p.act a) new) (off : (p.act a).sending = false)
    {g : Progress} (there : (p.act a).progress? i = some g) : g.Ended := by
  cases on : p.sending with
  | true =>
    -- it is this action that ends the sending side
    rw [moved.sending, on, Bool.true_and, Bool.not_eq_false', endsSender_iff] at off
    subst off
    have there : p.closeSender.progress? i = some g := there
    rw [closeSender_eq, progress?_become] at there
    obtain ⟨old, -, rfl⟩ := Option.map_eq_some_iff.mp there
    cases old <;> trivial
  | false =>
    have lt := lt_of_progress? there
    rw [← length_kinds, moved.kinds, on] at lt
    have lt : i < p.members.length := by simpa [length_kinds] using lt
    have before : p.progress? i = some (p.members[i]).progress := by simp [progress?, lt]
    have gone := h.ended on i _ before
    have same : (p.act a).progress? i = _ := h.settled.ended_run before gone [a]
    cases same.symm.trans there
    exact gone

theorem ahead_act (moved : Moved p a (p.act a) new) (lt : i < j) (waits : (p.act a).Waits i) :
    ¬ (p.act a).Granted j := by
  intro granted
  rcases moved.waits i waits with before | last
  · rcases (h.settled.act a).fair i j lt before granted with got | got
    · exact h.ahead i j lt before got
    · exact waits.not_granted got
  · -- whoever has begun just now is the last one
    obtain ⟨g, there, -⟩ := granted
    have bound := lt_of_progress? there
    rw [← length_kinds, moved.kinds, List.length_append, length_kinds] at bound
    have one : (if p.sending = true then (a.begins?.map Option.isNone).toList else []).length ≤ 1 := by
      split
      · cases a.begins? <;> simp
      · simp
    omega

theorem kinds_act (moved : Moved p a (p.act a) new) :
    (p.act a).kinds <+: (begun (actions ++ [a])).map Option.isNone
      ∧ ((p.act a).sending = true →
          (p.act a).kinds = (begun (actions ++ [a])).map Option.isNone) := by
  rw [begun_concat, List.map_append, moved.kinds]
  have toList : a.begins?.toList.map Option.isNone = (a.begins?.map Option.isNone).toList := by
    cases a.begins? <;> rfl
  rw [toList]
  cases on : p.sending with
  | true =>
    rw [h.all on]
    exact ⟨List.prefix_rfl, fun _ => rfl⟩
  | false =>
    constructor
    · simp only [Bool.false_eq_true, if_false, List.append_nil]
      exact h.kinds.trans (List.prefix_append _ _)
    · intro on'
      rw [moved.sending, on] at on'
      cases on'

theorem own_act (moved : Moved p a (p.act a) new) (has : (p.act a).offer? i = some s) :
    Offered (actions ++ [a]) i s := by
  rcases moved.entry i s has with before | gives
  · exact (h.own i s before).concat a
  · cases a with
    | push s' =>
      obtain ⟨on, rfl, rfl⟩ := gives
      left
      have length : (begun actions).length = p.members.length := by
        rw [← length_kinds, h.all on, List.length_map]
      rw [begun_concat, ← length]
      exact List.getElem?_concat_length
    | order i' o =>
      cases o with
      | fill s' =>
        obtain ⟨rfl, rfl, kind⟩ := gives
        obtain ⟨b, here, reserves⟩ := h.getElem?_begun kind
        rw [Option.isNone_iff_eq_none.mp reserves] at here
        exact .inr ⟨getElem?_begun_concat here _, List.mem_append_right _ List.mem_cons_self⟩
      | giveBack => cases gives
    | reserve | cancel | closeSender | receive | closeReceiver => cases gives

protected theorem act (stays : a ≠ .closeReceiver) :
    Orderly capacity (actions ++ [a]) (p.act a) := by
  obtain ⟨new, moved⟩ := moved_act h.receiving stays
  obtain ⟨kinds, all⟩ := h.kinds_act moved
  refine ⟨(h.settled.act a).settled, moved.receiving.trans h.receiving, ?_, ?_, ?_, kinds, all, ?_⟩
  · rw [moved.sending, Bool.and_eq_true, h.sending, Bool.not_eq_true', ← Bool.not_eq_true,
      endsSender_iff, List.mem_append, List.mem_singleton, not_or]
    exact and_congr_right fun _ => not_congr eq_comm
  · intro off i g there
    exact h.ended_act moved off there
  · intro i j lt waits
    exact h.ahead_act moved lt waits
  · intro i s has
    exact h.own_act moved has

/-- whoever pushes and has completed just now has begun behind all others who have completed -/
theorem behind (moved : Moved p a (p.act a) new) (mem : (j, s) ∈ new)
    (pushes : Pushes (actions ++ [a]) j) {s' : Slot} (put : p.put? i = some s') : i < j := by
  have before : p.put? j = none := moved.fresh (j, s) mem
  have now : (p.act a).put? j = some s := (moved.put j s).mpr (.inr mem)
  apply Nat.lt_of_not_le
  intro le
  have ne : j ≠ i := by
    rintro rfl
    cases before.symm.trans put
  have lt : j < i := by omega
  have bound : j < p.members.length :=
    Nat.lt_trans lt (lt_of_progress? (put?_eq_some_iff.mp put))
  have here : p.members[j]? = some p.members[j] := List.getElem?_eq_getElem bound
  have there : p.progress? j = some (p.members[j]).progress := by simp [progress?, bound]
  have reserves : (p.members[j]).reserves = false := by
    obtain ⟨b, begun, isNone⟩ := h.getElem?_begun (kinds_getElem? here)
    obtain ⟨s'', begun'⟩ := pushes
    cases (getElem?_begun_concat begun a).symm.trans begun'
    exact isNone.symm
  have can := h.settled.pushes j _ here reserves
  -- it puts its entry now and not before, so it has waited all the time
  have waits : p.Waits j := by
    cases e : (p.members[j]).progress with
    | waiting order => exact ⟨order, there.trans (congrArg some e)⟩
    | pushed s'' =>
      rw [put?_of_progress there, e] at before
      cases before
    | reserved | dropped =>
      rw [e] at can
      exact can.elim
    | refused | cancelled =>
      have gone : (p.members[j]).progress.Ended := by
        rw [e]
        trivial
      have same : (p.act a).progress? j = _ := h.settled.ended_run there gone [a]
      rw [put?_of_progress same, e] at now
      cases now
  exact h.ahead j i lt waits (granted_of_put put)

end Orderly

/-! ## the log -/

/-- what all actions keep of the log -/
structure Logged (actions : List Action) (t : Traffic) : Prop where
  put : ∀ i s, (i, s) ∈ t.completed ↔ t.producers.put? i = some s
  once : (t.completed.map Prod.fst).Nodup
  /-- those who push complete in the order in which they have begun -/
  inTurn : t.completed.Pairwise fun e f => Pushes actions e.1 → Pushes actions f.1 → e.1 < f.1
  /-- what has been put has been received or is queued, in order; nothing else is received but last
  marks, when the sending side has ended and the queue is empty -/
  entries : ∃ taken ends, t.received = taken ++ List.replicate ends .last
    ∧ taken ++ t.producers.queue.slots = t.completed.map Prod.snd
    ∧ (ends ≠ 0 → .closeSender ∈ actions ∧ t.producers.queue.slots = [])

theorem logged_ofCapacity (capacity : Nat) : Logged [] (.ofCapacity capacity) where
  put i s := by simp [Traffic.ofCapacity, Producers.ofCapacity, put?, progress?]
  once := .nil
  inTurn := .nil
  entries := ⟨[], 0, rfl, rfl, fun no => absurd rfl no⟩

namespace Orderly
variable {t : Traffic} (h : Orderly capacity actions t.producers)
include h

/-- an entry that is received leaves the queue, and without one nothing happens -/
theorem received_act (moved : Moved t.producers a (t.producers.act a) new) :
    a.receives t.producers = a.takes t.producers
      ∨ a = .receive ∧ t.producers.queue.slots = [] ∧ t.producers.act a = t.producers
        ∧ .closeSender ∈ actions ∧ a.receives t.producers = [.last] := by
  cases a with
  | receive =>
    cases slots : t.producers.queue.slots with
    | nil =>
      have e := receive_of_nil h.receiving slots
      cases on : t.producers.sending with
      | true =>
        left
        rw [on, if_pos rfl] at e
        unfold Action.receives Action.takes
        rw [e, slots]
        rfl
      | false =>
        right
        rw [on, if_neg nofun] at e
        refine ⟨rfl, rfl, congrArg Prod.snd e, ?_, ?_⟩
        · apply Classical.byContradiction
          intro open_
          rw [h.sending.mpr open_] at on
          cases on
        · unfold Action.receives
          rw [e]
    | cons s rest =>
      left
      rw [receives_of_cons h.receiving slots]
      show [s] = t.producers.queue.slots.take 1
      rw [slots]
      rfl
  | push | reserve | order | cancel | closeSender | closeReceiver => exact .inl rfl

end Orderly

namespace Logged
variable {t : Traffic}

theorem mem_begun (h : Orderly capacity actions t.producers) (logged : Logged actions t)
    {e : Nat × Slot} (mem : e ∈ t.completed) : e.1 < (begun actions).length := by
  have put := (logged.put e.1 e.2).mp mem
  have lt := lt_of_progress? (put?_eq_some_iff.mp put)
  have le := h.kinds.length_le
  rw [length_kinds, List.length_map] at le
  omega

theorem inTurn_act (h : Orderly capacity actions t.producers) (logged : Logged actions t)
    (moved : Moved t.producers a (t.producers.act a) new) :
    (t.completed ++ new).Pairwise fun e f =>
      Pushes (actions ++ [a]) e.1 → Pushes (actions ++ [a]) f.1 → e.1 < f.1 := by
  apply List.pairwise_append.mpr
  refine ⟨?_, ?_, ?_⟩
  · refine logged.inTurn.imp_of_mem ?_
    intro e f he hf before
    have old {i : Nat} (lt : i < (begun actions).length) :
        Pushes (actions ++ [a]) i → Pushes actions i := by
      rintro ⟨s, here⟩
      rw [begun_concat, List.getElem?_append_left lt] at here
      exact ⟨s, here⟩
    intro first second
    exact before (old (logged.mem_begun h he) first) (old (logged.mem_begun h hf) second)
  · match new, moved.one with
    | [], _ => exact .nil
    | [e], _ => exact List.pairwise_singleton _ e
  · intro e he f hf _ pushes
    exact h.behind moved hf pushes ((logged.put e.1 e.2).mp he)

theorem entries_act (h : Orderly capacity actions t.producers) (logged : Logged actions t)
    (moved : Moved t.producers a (t.producers.act a) new) :
    ∃ taken ends, t.received ++ a.receives t.producers = taken ++ List.replicate ends .last
      ∧ taken ++ (t.producers.act a).queue.slots = (t.completed ++ new).map Prod.snd
      ∧ (ends ≠ 0 → .closeSender ∈ actions ++ [a] ∧ (t.producers.act a).queue.slots = []) := by
  obtain ⟨taken, ends, received, queued, ended⟩ := logged.entries
  rcases h.received_act moved with entry | ⟨rfl, nil, same, gone, mark⟩
  · by_cases none : ends = 0
    · refine ⟨taken ++ a.takes t.producers, 0, ?_, ?_, fun no => absurd rfl no⟩
      · rw [received, none, entry]
        simp
      · rw [List.append_assoc, moved.slots, ← List.append_assoc, queued, List.map_append]
    · -- nothing is left that could be taken or put
      obtain ⟨gone, nil⟩ := ended none
      have off : t.producers.sending = false := by
        apply Bool.eq_false_iff.mpr
        intro on
        exact h.sending.mp on gone
      have nothing := h.nothing_new off moved
      have slots := moved.slots
      rw [nil, nothing] at slots
      obtain ⟨takes, left⟩ := List.append_eq_nil_iff.mp slots
      refine ⟨taken, ends, ?_, ?_, fun _ => ⟨List.mem_append_left _ gone, left⟩⟩
      · rw [entry, takes, received, List.append_nil]
      · rw [left, ← nil, queued, nothing, List.append_nil]
  · have nothing : new = [] := by
      apply List.eq_nil_iff_forall_not_mem.mpr
      rintro ⟨j, s⟩ mem
      have now := (moved.put j s).mpr (.inr mem)
      rw [same, moved.fresh (j, s) mem] at now
      cases now
    refine ⟨taken, ends + 1, ?_, ?_, fun _ => ⟨List.mem_append_left _ gone, ?_⟩⟩
    · rw [mark, received, List.append_assoc, List.replicate_succ']
    · rw [same, queued, nothing, List.append_nil]
    · rw [same, nil]

protected theorem act (h : Orderly capacity actions t.producers) (logged : Logged actions t)
    (stays : a ≠ .closeReceiver) : Logged (actions ++ [a]) (t.act a) := by
  obtain ⟨new, moved⟩ := moved_act h.receiving stays
  have completed : (t.act a).completed = t.completed ++ new :=
    congrArg (t.completed ++ ·) moved.newlyPut
  refine ⟨?_, ?_, ?_, ?_⟩
  · intro i s
    rw [completed, List.mem_append, logged.put]
    exact (moved.put i s).symm
  · rw [completed, List.map_append]
    refine logged.once.append ?_ ?_
    · match new, moved.one with
      | [], _ => exact .nil
      | [e], _ => exact List.nodup_singleton e.1
    · rintro i before now
      obtain ⟨e, he, rfl⟩ := List.mem_map.mp before
      obtain ⟨f, hf, same⟩ := List.mem_map.mp now
      have put := (logged.put e.1 e.2).mp he
      have none := moved.fresh f hf
      rw [same] at none
      cases none.symm.trans put
  · rw [completed]
    exact logged.inTurn_act h moved
  · rw [completed]
    exact logged.entries_act h moved

end Logged

/-! ## whole runs -/

namespace Traffic
variable {t : Traffic}

theorem producers_run (t : Traffic) (actions : List Action) :
    (t.run actions).producers = t.producers.run actions := by
  induction actions generalizing t with
  | nil => rfl
  | cons a actions ih => exact ih (t := t.act a)

theorem kept_run (h : Orderly capacity actions t.producers) (logged : Logged actions t)
    (open_ : .closeReceiver ∉ more) : Orderly capacity (actions ++ more) (t.run more).producers
      ∧ Logged (actions ++ more) (t.run more) := by
  induction more generalizing actions t with
  | nil =>
    rw [List.append_nil]
    exact ⟨h, logged⟩
  | cons a more ih =>
    have stays : a ≠ .closeReceiver := fun e => open_ (e ▸ List.mem_cons_self)
    have later := ih (t := t.act a) (h.act stays) (logged.act h stays)
      fun mem => open_ (List.mem_cons_of_mem a mem)
    rw [List.append_assoc] at later
    exact later

end Traffic

def Action.isReceive : Action → Bool
  | .receive => true
  | _ => false

/-- what `n` turns of the receiving side give, if nothing is put any more -/
def emptied (slots : List Slot) (n : Nat) : List Slot :=
  slots.take n ++ List.replicate (n - slots.length) .last

theorem emptied_nil_succ (n : Nat) : emptied [] (n + 1) = .last :: emptied [] n := by
  simp [emptied, List.replicate_succ]

theorem emptied_cons_succ (s : Slot) (slots : List Slot) (n : Nat) :
    emptied (s :: slots) (n + 1) = s :: emptied slots n := by
  simp [emptied]

/-- without a sending side what is queued is received, and then the last mark again and again -/
theorem Traffic.received_run {t : Traffic} (h : Orderly capacity actions t.producers)
    (gone : .closeSender ∈ actions) (open_ : .closeReceiver ∉ more) :
    (t.run more).received
      = t.received ++ emptied t.producers.queue.slots (more.countP Action.isReceive) := by
  induction more generalizing actions t with
  | nil => simp [run, emptied]
  | cons a more ih =>
    have stays : a ≠ .closeReceiver := fun e => open_ (e ▸ List.mem_cons_self)
    have later := ih (t := t.act a) (h.act stays) (List.mem_append_left [a] gone)
      fun mem => open_ (List.mem_cons_of_mem a mem)
    have off : t.producers.sending = false := by
      apply Bool.eq_false_iff.mpr
      intro on
      exact h.sending.mp on gone
    obtain ⟨new, moved⟩ := moved_act h.receiving stays
    have slots := moved.slots
    rw [h.nothing_new off moved, List.map_nil, List.append_nil] at slots
    show ((t.act a).run more).received = _
    rw [later]
    show t.received ++ a.receives t.producers ++ emptied (t.producers.act a).queue.slots _ = _
    rw [List.append_assoc]
    congr 1
    rcases h.received_act moved with entry | ⟨rfl, nil, same, -, mark⟩
    · rw [entry, ← slots]
      cases a with
      | receive =>
        cases queued : t.producers.queue.slots with
        | nil =>
          -- the last mark would have been received
          rw [Action.receives, receive_of_nil h.receiving queued, off] at entry
          show [] ++ _ = _
          rw [Action.takes, queued] at entry
          cases entry
        | cons s rest =>
          have takes : Action.receive.takes t.producers = [s] := by
            show t.producers.queue.slots.take 1 = [s]
            rw [queued]
            rfl
          rw [takes, List.countP_cons_of_pos rfl]
          exact (emptied_cons_succ s _ _).symm
      | push | reserve | order | cancel | closeSender | closeReceiver =>
        rw [List.countP_cons_of_neg Bool.false_ne_true]
        rfl
    · rw [mark, same, nil, List.countP_cons_of_pos rfl]
      exact (emptied_nil_succ _).symm

/-- what a run does, as long as there is a receiver -/
structure InOrder (actions : List Action) (t : Traffic) : Prop extends Logged actions t where
  own : ∀ i s, (i, s) ∈ t.completed → Offered actions i s
  /-- no one completes who has begun behind a producer that still waits -/
  patient : ∀ i j s, i < j → t.producers.Waits i → (j, s) ∉ t.completed
  idle : ∀ i s, t.producers.Waits i ∨ t.producers.progress? i = some .cancelled →
    (i, s) ∉ t.completed
  /-- a cancelled producer puts nothing later, either -/
  cancelled : ∀ i, t.producers.progress? i = some .cancelled →
    ∀ more, (t.run more).producers.progress? i = some .cancelled
  ending : .closeSender ∈ actions → ∀ more, .closeReceiver ∉ more →
    (t.run more).received
      = t.received ++ emptied t.producers.queue.slots (more.countP Action.isReceive)

/-- the queue gives what has been put, in the order in which that was done -/
theorem first_in_first_out (capacity : Nat) {actions : List Action}
    (open_ : .closeReceiver ∉ actions) :
    ((Traffic.ofCapacity capacity).run actions).producers = (ofCapacity capacity).run actions
      ∧ InOrder actions ((Traffic.ofCapacity capacity).run actions) := by
  obtain ⟨h, logged⟩ :=
    Traffic.kept_run (orderly_ofCapacity capacity) (logged_ofCapacity capacity) open_
  rw [List.nil_append] at h logged
  refine ⟨Traffic.producers_run _ _, logged, ?own, ?patient, ?idle, ?cancelled, ?ending⟩
  case own =>
    intro i s completed
    exact h.own i s (offer?_of_put ((logged.put i s).mp completed))
  case patient =>
    intro i j s lt waits completed
    exact h.ahead i j lt waits (granted_of_put ((logged.put j s).mp completed))
  case idle =>
    intro i s idle completed
    have put := put?_eq_some_iff.mp ((logged.put i s).mp completed)
    rcases idle with ⟨order, waiting⟩ | cancelled
    · cases put.symm.trans waiting
    · cases put.symm.trans cancelled
  case cancelled =>
    intro i there more
    rw [Traffic.producers_run]
    exact h.settled.ended_run there trivial more
  case ending =>
    intro gone more open_
    exact Traffic.received_run h gone open_

/-- one producer is cancelled in line, and the next gets its slot from the first entry -/
theorem first_in_first_out_handed_over :
    let text (name : Bytes) : Slot := Slot.reply (Reply.ok.setBody name)
    let actions : List Action := [.reserve, .push (text [97]), .push (text [98]), .cancel 1,
      .order 0 (.fill (text [99])), .receive, .closeSender, .receive, .receive]
    .closeReceiver ∉ actions
      ∧ InOrder actions ((Traffic.ofCapacity 1).run actions)
      ∧ ((Traffic.ofCapacity 1).run actions).completed = [(0, text [99]), (2, text [98])]
      ∧ ((Traffic.ofCapacity 1).run actions).received = [text [99], text [98], .last] :=
  ⟨by simp, (first_in_first_out 1 (by simp)).2, rfl, rfl⟩

end Producers

end PipelinedHttp
