import PipelinedHttp.Proofs.Producers.Actions

/-!
# The slots of producers

Producers are settled from the start, and each action leaves them so; what else holds along a run
follows from what each action does, by induction.  `slot_accounting` puts it together: no slot is lost
or made, and they go to whoever has waited longest.
-/

namespace PipelinedHttp

namespace Producers
variable {p p' : Producers} {own : Nat → Prop} {capacity i j t : Nat} {rest : List Nat}
  {g : Progress} {order next : Option Order} {a : Action}

theorem settled_ofCapacity (capacity : Nat) : Settled capacity (ofCapacity capacity) where
  total := rfl
  used_le := Nat.zero_le _
  granted := rfl
  ordered := .nil
  mem_line _ := iff_of_false List.not_mem_nil fun ⟨_, waiting⟩ => nomatch waiting
  full cons := absurd rfl cons
  shut _ := rfl
  pushes _ _ here := nomatch here

theorem Settled.run (h : Settled capacity p) (actions : List Action) :
    Settled capacity (p.run actions) := by
  induction actions generalizing p with
  | nil => exact h
  | cons a actions ih => exact ih (h.act a).settled

theorem Settled.ended_run (h : Settled capacity p) (there : p.progress? i = some g) (ended : g.Ended)
    (actions : List Action) : (p.run actions).progress? i = some g := by
  induction actions generalizing p with
  | nil => exact there
  | cons a actions ih =>
    have after := h.act a
    rcases after.kept i g there with same | ⟨⟨o, waiting⟩, -⟩ | ⟨begun, -⟩
    · exact ih after.settled same
    · cases there.symm.trans waiting
      exact ended.elim
    · exact absurd ended begun

/-- without a receiver no one gets a slot who has none -/
theorem Settled.shut_run (h : Settled capacity p) (shut : p.queue.receiving = false)
    (actions : List Action) : (p.run actions).queue.receiving = false
      ∧ ∀ j, (p.run actions).Granted j → p.Granted j := by
  induction actions generalizing p with
  | nil => exact ⟨shut, fun _ => id⟩
  | cons a actions ih =>
    have after := h.act a
    obtain ⟨still, absent⟩ := after.closed shut
    obtain ⟨shut', before⟩ := ih after.settled still
    refine ⟨shut', fun j got => ?_⟩
    have got := before j got
    cases there : p.progress? j with
    | none => exact absurd got (absent j there)
    | some g =>
      -- only who waits could get a slot now, and the line of a shut queue is empty
      rcases after.kept j g there with same | ⟨waits, -⟩ | ⟨begun, -⟩
      · exact got.congr (same.trans there.symm)
      · exact absurd waits (h.not_waits (h.shut shut))
      · refine ⟨g, there, ?_⟩
        have alone := h.not_waits (j := j) (h.shut shut)
        match g with
        | .waiting o => exact absurd ⟨o, there⟩ alone
        | .reserved => trivial
        | .pushed _ | .dropped | .refused | .cancelled => exact absurd trivial begun

/-! ## what becomes of a slot -/

/-- no one in line has begun before the first -/
theorem Settled.first (h : Settled capacity p) (waits : p.Waits i)
    (least : ∀ j, p.Waits j → i ≤ j) : ∃ rest, p.queue.line = i :: rest := by
  have here := (h.mem_line i).mpr waits
  match line : p.queue.line with
  | [] => rw [line] at here; exact nomatch here
  | t :: rest =>
    have le := least t ((h.mem_line t).mp (line ▸ List.mem_cons_self))
    rcases List.mem_cons.mp (line ▸ here) with rfl | later
    · exact ⟨rest, rfl⟩
    · exact absurd ((List.pairwise_cons.mp (line ▸ h.ordered)).1 i later) (Nat.not_lt.mpr le)

theorem act_of_ended (there : p.progress? i = some g) (ended : g.Ended) :
    p.cancel i = p ∧ ∀ o, p.order i o = p := by
  obtain ⟨m, here, rfl⟩ := Option.map_eq_some_iff.mp there
  constructor
  · unfold cancel
    rw [there]
    cases progress : m.progress <;> rw [progress] at ended <;> first | rfl | exact ended.elim
  · intro o
    unfold order
    rw [here]
    obtain ⟨reserves, progress⟩ := m
    cases reserves <;> cases progress <;> first | rfl | exact ended.elim

theorem start_of_shut (shut : p.queue.receiving = false) (sending : p.sending = true)
    (reserves : Bool) (order : Option Order) : p.start reserves order = p.enter p.queue ⟨reserves, .refused⟩ := by
  unfold start
  dsimp only
  rw [ReplyQueue.request_of_closed shut, if_neg (by rw [sending]; exact nofun)]
  rfl

/-- where the slots of a queue are, and what becomes of them -/
structure Accounted (capacity : Nat) (p : Producers) : Prop where
  /-- the slots that are used are those that are queued or held -/
  used : p.queue.slots.length + p.held = p.queue.used
  used_le : p.queue.used ≤ capacity
  hasFree : p.queue.hasFree = true ↔ p.queue.slots.length + p.held < capacity
  /-- no one waits where there is a slot -/
  full : ∀ i, p.Waits i → p.queue.slots.length + p.held = capacity
  /-- no one gets a slot before those who have waited longer -/
  fair : ∀ a i j, i < j → p.Waits i → (p.act a).Granted j → p.Granted j ∨ (p.act a).Granted i
  /-- a slot that becomes free goes to who has waited longest; it is used again, or there is no one left
  who waits, and one more slot is free -/
  freed : ∀ a, a.Frees p →
    (∀ i, p.Waits i → (∀ j, p.Waits j → i ≤ j) → (p.act a).Granted i)
      ∧ ((∃ i, p.Waits i) ∧ (p.act a).queue.used = p.queue.used
        ∨ (∀ i, ¬ (p.act a).Waits i) ∧ (p.act a).queue.used + 1 = p.queue.used)
  cancelled : ∀ i, p.Waits i ∨ p.Holds i → (p.act (.cancel i)).progress? i = some .cancelled
  /-- who leaves the line leaves all else as it is -/
  withdrawn : ∀ i, p.Waits i → (p.act (.cancel i)).queue.used = p.queue.used
    ∧ ∀ j ≠ i, (p.act (.cancel i)).progress? j = p.progress? j
  /-- who has ended gives nothing back again -/
  ended : ∀ i g, p.progress? i = some g → g.Ended →
    (∀ more, (p.run more).progress? i = some g)
      ∧ p.act (.cancel i) = p ∧ ∀ o, p.act (.order i o) = p
  /-- a slot is held until its holder is told what to do with it, and then it does so, be there a
  receiver or not -/
  usable : ∀ i, p.Holds i → (∀ a : Action, ¬ a.Concerns p i → (p.act a).Holds i)
    ∧ (∀ s, (p.act (.order i (.fill s))).progress? i = some (.pushed s)
        ∧ (p.act (.order i (.fill s))).queue = p.queue.put s)
    ∧ (p.act (.order i .giveBack)).progress? i = some .dropped
  /-- the end of the receiving side refuses those in line -/
  closing : (p.act .closeReceiver).queue.receiving = false
    ∧ ∀ i, p.Waits i → (p.act .closeReceiver).progress? i = some .refused
  /-- after it no one waits, whoever begins is refused, and no one gets a slot any more -/
  shut : p.queue.receiving = false → (∀ i, ¬ p.Waits i)
    ∧ (p.sending = true → (∀ s, (p.act (.push s)).progress? p.members.length = some .refused)
        ∧ (p.act .reserve).progress? p.members.length = some .refused)
    ∧ ∀ more, (p.run more).queue.receiving = false ∧ ∀ j, (p.run more).Granted j → p.Granted j

theorem Settled.used (h : Settled capacity p) : p.queue.slots.length + p.held = p.queue.used :=
  congrArg (p.queue.slots.length + ·) h.granted.symm

theorem Settled.hasFree (h : Settled capacity p) :
    p.queue.hasFree = true ↔ p.queue.slots.length + p.held < capacity := by
  unfold ReplyQueue.hasFree
  rw [decide_eq_true_iff, h.total, h.used]

theorem Settled.freed (h : Settled capacity p) (frees : a.Frees p) :
    (∀ i, p.Waits i → (∀ j, p.Waits j → i ≤ j) → (p.act a).Granted i)
      ∧ ((∃ i, p.Waits i) ∧ (p.act a).queue.used = p.queue.used
        ∨ (∀ i, ¬ (p.act a).Waits i) ∧ (p.act a).queue.used + 1 = p.queue.used) := by
  have after := h.act a
  obtain ⟨first, used⟩ := after.freed frees
  refine ⟨fun i waits least => ?_, ?_⟩
  · obtain ⟨rest, line⟩ := h.first waits least
    exact first i rest line
  · rcases used with ⟨cons, same⟩ | ⟨nil, less⟩
    · obtain ⟨i, rest, line⟩ := List.exists_cons_of_ne_nil cons
      exact .inl ⟨⟨i, (h.mem_line i).mp (line ▸ List.mem_cons_self)⟩, same⟩
    · exact .inr ⟨fun i => after.settled.not_waits nil, less⟩

theorem cancel_of_waits (waiting : p.progress? i = some (.waiting order)) :
    p.cancel i = setProgress { p with queue := p.queue.withdraw i } i .cancelled := by
  unfold cancel
  rw [waiting]

theorem Settled.usable (h : Settled capacity p) (holds : p.Holds i) :
    (∀ a : Action, ¬ a.Concerns p i → (p.act a).Holds i)
      ∧ (∀ s, (p.act (.order i (.fill s))).progress? i = some (.pushed s)
          ∧ (p.act (.order i (.fill s))).queue = p.queue.put s)
      ∧ (p.act (.order i .giveBack)).progress? i = some .dropped := by
  refine ⟨fun a other => ?_, fun s => ⟨(h.order_holds holds (.fill s)).own, ?_⟩,
    (h.order_holds holds .giveBack).own⟩
  · rcases (h.act a).kept i _ holds with same | ⟨waits, -⟩ | ⟨-, concerns⟩
    · exact same
    · exact absurd holds waits.not_holds
    · exact absurd concerns other
  · show (p.order i (.fill s)).queue = p.queue.put s
    rw [order_of_holds h holds, settle_fill]
    rfl

/-- whatever has been done with a queue, its slots are accounted for -/
theorem slot_accounting (capacity : Nat) (actions : List Action) :
    Accounted capacity ((ofCapacity capacity).run actions) := by
  have h := (settled_ofCapacity capacity).run actions
  generalize (ofCapacity capacity).run actions = p at h
  refine ⟨h.used, h.used_le, h.hasFree, fun i waits => h.used.trans (h.full (h.cons_of_waits waits)),
    fun a => (h.act a).fair, fun a => h.freed, ?cancelled, ?withdrawn, ?ended, fun i => h.usable,
    ?closing, ?shut⟩
  case cancelled =>
    rintro i (⟨o, waiting⟩ | holds)
    · show (p.cancel i).progress? i = _
      rw [cancel_of_waits waiting]
      exact progress?_setProgress (p := { p with queue := p.queue.withdraw i }) waiting _
    · exact (h.cancel_holds holds).2
  case withdrawn =>
    rintro i ⟨o, waiting⟩
    show (p.cancel i).queue.used = _ ∧ ∀ j ≠ i, (p.cancel i).progress? j = _
    rw [cancel_of_waits waiting]
    exact ⟨rfl, fun j ne => progress?_setProgress_of_ne { p with queue := p.queue.withdraw i } ne _⟩
  case ended => exact fun i g there ended => ⟨h.ended_run there ended, act_of_ended there ended⟩
  case closing =>
    show p.closeReceiver.queue.receiving = false ∧ ∀ i, p.Waits i → p.closeReceiver.progress? i = _
    rw [closeReceiver_eq]
    refine ⟨p.queue.close_receiving, fun i ⟨o, waiting⟩ => ?_⟩
    rw [progress?_become, waiting]
    rfl
  case shut =>
    refine fun shut => ⟨fun i => h.not_waits (h.shut shut), fun sending => ?_, h.shut_run shut⟩
    have refused (reserves : Bool) (order : Option Order) :
        (p.start reserves order).progress? p.members.length = some .refused := by
      rw [start_of_shut shut sending]
      exact progress?_enter_last _ _ _
    exact ⟨fun s => refused false _, refused true _⟩

/-- the slot of a holder that is cancelled goes to the first in line, and from there to the next -/
example : ((ofCapacity 1).run [.reserve, .reserve, .push .last, .order 1 .giveBack, .cancel 0]).members
    = [⟨true, .cancelled⟩, ⟨true, .dropped⟩, ⟨false, .pushed .last⟩] := by cbv

end Producers

end PipelinedHttp
