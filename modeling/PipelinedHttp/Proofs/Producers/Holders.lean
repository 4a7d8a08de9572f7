import Mathlib.Data.List.Nodup
import Mathlib.Data.List.Perm.Subperm
import PipelinedHttp.Proofs.Producers.Settle

/-!
# Orders and cancellations

`After` says what an action does to settled producers: who has got a slot by it, what has become of the
others, and where a slot has gone that it has freed.  It is one statement for all actions.  Here it is
proved of those that are about one producer: a holder of a slot, which passes it on (`Passed.after`),
or one in line, by which no one gets a slot (`Settled.after`).
-/

namespace PipelinedHttp

namespace Producers
variable {p p' : Producers} {own : Nat → Prop} {capacity i j t : Nat} {rest : List Nat}
  {g : Progress} {order next : Option Order} {a : Action}

/-! ## what is asked of an action -/

/-- the action directs a producer, or ends it -/
def Action.Concerns (p : Producers) (j : Nat) : Action → Prop
  | .order i _ | .cancel i => j = i
  | .closeSender => True
  | .closeReceiver => p.Waits j
  | .push _ | .reserve | .receive => False

/-- the action frees a slot -/
def Action.Frees (p : Producers) : Action → Prop
  | .receive => p.queue.receiving = true ∧ p.queue.slots ≠ []
  | .order i .giveBack | .cancel i => p.Holds i
  | _ => False

/-- what has happened after an action -/
structure After (capacity : Nat) (p : Producers) (a : Action) (p' : Producers) : Prop where
  settled : Settled capacity p'
  kept : ∀ j g, p.progress? j = some g →
    p'.progress? j = some g ∨ p.Waits j ∧ p'.Granted j ∨ ¬ g.Ended ∧ a.Concerns p j
  fair : ∀ i j, i < j → p.Waits i → p'.Granted j → p.Granted j ∨ p'.Granted i
  freed : a.Frees p → Freed p p'
  closed : p.queue.receiving = false → p'.queue.receiving = false
    ∧ ∀ j, p.progress? j = none → ¬ p'.Granted j

theorem Waits.not_holds (h : p.Waits i) : ¬ p.Holds i := by
  obtain ⟨order, waiting⟩ := h
  exact fun holds => nomatch waiting.symm.trans holds

theorem Holds.granted (h : p.Holds i) : p.Granted i := ⟨.reserved, h, trivial⟩

theorem Granted.congr (h : p'.Granted i) (same : p'.progress? i = p.progress? i) : p.Granted i := by
  unfold Granted at h ⊢
  rwa [← same]

theorem lt_of_progress? (h : p.progress? i = some g) : i < p.members.length := by
  obtain ⟨m, there, -⟩ := Option.map_eq_some_iff.mp h
  exact (List.getElem?_eq_some_iff.mp there).1

namespace Settled
variable (h : Settled capacity p)
include h

theorem line_eq_nil (free : p.queue.used < capacity) : p.queue.line = [] := by
  by_cases nil : p.queue.line = []
  · exact nil
  · exact absurd (h.full nil) (Nat.ne_of_lt free)

theorem not_waits (nil : p.queue.line = []) : ¬ p.Waits j := by
  rw [← h.mem_line, nil]
  exact List.not_mem_nil

theorem cons_of_waits (waits : p.Waits j) : p.queue.line ≠ [] :=
  List.ne_nil_of_mem ((h.mem_line j).mpr waits)

theorem reserves {m : Producer} (holds : p.Holds i) (here : p.members[i]? = some m) :
    m.reserves = true ∧ m.progress = .reserved := by
  have progress := progress_of_getElem? holds here
  cases reserves : m.reserves with
  | true => exact ⟨rfl, progress⟩
  | false =>
    have pushes := h.pushes i m here reserves
    rw [progress] at pushes
    exact pushes.elim

/-- whoever holds a slot has it in hand when it is told what to do with it -/
theorem inHand (holds : p.Holds i) (order : Option Order) : InHand capacity p i order where
  total := h.total
  used_le := h.used_le
  granted := ⟨.reserved, holds, congrArg (· + 1) h.granted⟩
  ordered := h.ordered
  mem_line j := by
    rw [h.mem_line, and_iff_right_of_imp]
    rintro waits rfl
    exact waits.not_holds holds
  full := h.full
  shut := h.shut
  obeys m here reserves := by
    rw [(h.reserves holds here).1] at reserves
    cases reserves
  pushes j m _ := h.pushes j m

end Settled

/-- there are turns enough for all in line -/
theorem InHand.length_line_le (h : InHand capacity p i order) :
    p.queue.line.length ≤ p.members.length := by
  have below : p.queue.line ⊆ List.range p.members.length := fun j here => by
    obtain ⟨-, o, waiting⟩ := (h.mem_line j).mp here
    exact List.mem_range.mpr (lt_of_progress? waiting)
  have subperm := h.ordered.nodup.subperm below
  exact Nat.le_trans subperm.length_le (Nat.le_of_eq List.length_range)

theorem InHand.grant (h : InHand capacity p t next)
    (waiting : p.progress? t = some (.waiting next)) :
    Carried capacity p t next (p.grant (some t)) := by
  unfold Producers.grant
  dsimp only
  rw [waiting]
  exact h.settle h.length_line_le

/-! ## actions that pass slots on -/

/-- of two that wait, and of which the later one waits no more, the earlier one does not either -/
theorem Passed.in_order (h : Passed capacity p own p') (settled : Settled capacity p) (lt : i < j)
    (waits : p.Waits j) (gone : ¬ p'.Waits j) : ¬ p'.Waits i := by
  intro still
  obtain ⟨front, line⟩ := h.line
  have behind := (h.settled.mem_line i).mpr still
  have ahead : j ∈ front := by
    have here := (settled.mem_line j).mpr waits
    rw [← line] at here
    exact (List.mem_append.mp here).resolve_right fun here => gone ((h.settled.mem_line j).mp here)
  have ordered := settled.ordered
  rw [← line] at ordered
  exact absurd ((List.pairwise_append.mp ordered).2.2 j ahead i behind) (Nat.lt_asymm lt)

/-- what an action does that only concerns holders of slots -/
theorem Passed.after (h : Passed capacity p own p') (settled : Settled capacity p)
    (holds : ∀ j, own j → p.Holds j ∧ a.Concerns p j) (freed : a.Frees p → Freed p p') :
    After capacity p a p' := by
  refine ⟨h.settled, fun j g there => ?_, fun i j lt waits granted => ?_, freed, fun shut =>
    ⟨h.receiving.trans shut, fun j absent granted => ?_⟩⟩
  · by_cases mine : own j
    · obtain ⟨reserved, concerns⟩ := holds j mine
      cases there.symm.trans reserved
      exact .inr (.inr ⟨id, concerns⟩)
    · exact (h.others j mine).imp (·.trans there) .inl
  · by_cases mine : own j
    · exact .inl (holds j mine).1.granted
    rcases h.others j mine with same | ⟨before, -⟩
    · exact .inl (granted.congr same)
    have theirs : ¬ own i := fun mine => waits.not_holds (holds i mine).1
    rcases h.others i theirs with same | ⟨-, granted⟩
    · obtain ⟨o, waiting⟩ := waits
      exact absurd ⟨o, same.trans waiting⟩
        (h.in_order settled lt before fun still => still.not_granted granted)
    · exact .inr granted
  · have theirs : ¬ own j := fun mine => nomatch absent.symm.trans (holds j mine).1
    obtain ⟨g, there, -⟩ := granted
    rcases h.others j theirs with same | ⟨⟨o, waiting⟩, -⟩
    · cases absent.symm.trans (same.symm.trans there)
    · cases absent.symm.trans waiting

theorem Settled.after (settled : Settled capacity p') (granted : ∀ j, p'.Granted j → p.Granted j)
    (kept : ∀ j g, p.progress? j = some g → p'.progress? j = some g ∨ ¬ g.Ended ∧ a.Concerns p j)
    (idle : ¬ a.Frees p) (shut : p.queue.receiving = false → p'.queue.receiving = false) :
    After capacity p a p' where
  settled := settled
  kept j g there := (kept j g there).imp_right .inr
  fair _ j _ _ got := .inl (granted j got)
  freed frees := absurd frees idle
  closed closed := ⟨shut closed, fun j absent got => by
    obtain ⟨g, there, -⟩ := granted j got
    cases absent.symm.trans there⟩

theorem Settled.same (h : Settled capacity p) (idle : ¬ a.Frees p) : After capacity p a p :=
  h.after (fun _ got => got) (fun _ _ there => .inl there) idle id

/-! ## holders of slots -/

theorem order_of_holds (h : Settled capacity p) (holds : p.Holds i) (o : Order) :
    p.order i o = p.settle p.members.length i (some o) := by
  obtain ⟨m, here, -⟩ := Option.map_eq_some_iff.mp holds
  obtain ⟨reserves, progress⟩ := h.reserves holds here
  cases m
  cases reserves
  cases progress
  unfold order
  rw [here]

theorem Settled.order_holds (h : Settled capacity p) (holds : p.Holds i) (o : Order) :
    Carried capacity p i (some o) (p.order i o) := by
  rw [order_of_holds h holds]
  have inHand := h.inHand holds (some o)
  exact inHand.settle inHand.length_line_le

theorem Settled.after_order_holds (h : Settled capacity p) (holds : p.Holds i) (o : Order) :
    After capacity p (.order i o) (p.order i o) := by
  have carried := h.order_holds holds o
  refine carried.toPassed.after h (fun j mine => ?_) fun frees => carried.gives ?_
  · subst mine
    exact ⟨holds, rfl⟩
  match o with
  | .giveBack => rfl

theorem Settled.cancel_holds (h : Settled capacity p) (holds : p.Holds i) :
    (Passed capacity p (· = i) (p.cancel i) ∧ Freed p (p.cancel i))
      ∧ (p.cancel i).progress? i = some .cancelled := by
  have inHand := h.inHand holds none
  have e : p.cancel i = (setProgress { p with queue := p.queue.giveBack.2 } i .cancelled).grant
      p.queue.giveBack.1 := by
    unfold cancel
    rw [show p.progress? i = some .reserved from holds]
  cases line : p.queue.line with
  | nil =>
    rw [ReplyQueue.giveBack_of_nil line] at e
    rw [e]
    exact ⟨inHand.leave line rfl nofun fun _ _ _ => trivial, progress?_setProgress
      (p := { p with queue := { p.queue with granted := p.queue.granted - 1 } }) holds _⟩
  | cons t rest =>
    obtain ⟨next, waiting⟩ := (h.mem_line t).mp (line ▸ List.mem_cons_self)
    have ne : t ≠ i := fun mine => Waits.not_holds ⟨next, waiting⟩ (mine ▸ holds)
    have used : p.queue.used ≤ p.queue.capacity := h.total.symm ▸ h.used_le
    rw [ReplyQueue.giveBack_of_cons line used inHand.granted_pos] at e
    have theirs : (setProgress { p with queue := { p.queue with line := rest } } i
        .cancelled).progress? t = some (.waiting next) := by
      rw [progress?_setProgress_of_ne _ ne]
      exact waiting
    have mine := progress?_setProgress
      (p := { p with queue := { p.queue with line := rest } }) holds .cancelled
    have passed := inHand.pass line waiting (g := .cancelled) rfl nofun fun _ _ _ => trivial
    have c := passed.grant theirs
    rw [e]
    refine ⟨⟨c.passed line ⟨next, waiting⟩ rfl fun j other => ?_, c.freed line rfl⟩, ?_⟩
    · exact progress?_setProgress_of_ne { p with queue := { p.queue with line := rest } } other _
    · rcases c.others i (Ne.symm ne) with same | ⟨⟨o, waits⟩, -⟩
      · exact same.trans mine
      · exact absurd (waits.symm.trans mine) nofun

/-! ## those in line -/

theorem Settled.after_own (queue : ReplyQueue Nat) {old : Progress}
    (settled : Settled capacity (setProgress { p with queue } i g))
    (there : p.progress? i = some old) (concerns : ¬ old.Ended ∧ a.Concerns p i)
    (none : ¬ g.Granted) (idle : ¬ a.Frees p) (receiving : queue.receiving = p.queue.receiving) :
    After capacity p a (setProgress { p with queue } i g) := by
  have mine := progress?_setProgress (p := { p with queue }) there g
  refine settled.after (fun j got => ?_) (fun j g here => ?_) idle receiving.trans
  · by_cases own : j = i
    · subst own
      obtain ⟨g', now, granted⟩ := got
      cases now.symm.trans mine
      exact absurd granted none
    · exact got.congr (progress?_setProgress_of_ne { p with queue } own g)
  · by_cases own : j = i
    · subst own
      cases here.symm.trans there
      exact .inr concerns
    · exact .inl ((progress?_setProgress_of_ne { p with queue } own _).trans here)

/-- an order that is given to a producer in line has no effect but on itself -/
theorem Settled.told (h : Settled capacity p) (waits : p.Waits i)
    (reserves : ∀ m : Producer, p.members[i]? = some m → m.reserves = true) (o : Order) :
    After capacity p (.order i o) (p.setProgress i (.waiting (some o))) := by
  obtain ⟨before, waiting⟩ := waits
  have here := progress?_setProgress waiting (.waiting (some o))
  have held := held_setProgress waiting (.waiting (some o))
  have waits (j : Nat) : (p.setProgress i (.waiting (some o))).Waits j ↔ p.Waits j := by
    by_cases mine : j = i
    · subst mine
      exact iff_of_true ⟨_, here⟩ ⟨before, waiting⟩
    · unfold Waits
      rw [progress?_setProgress_of_ne p mine]
  have settled : Settled capacity (p.setProgress i (.waiting (some o))) := by
    refine ⟨h.total, h.used_le, h.granted.trans held.symm, h.ordered, fun j =>
      (h.mem_line j).trans (waits j).symm, h.full, h.shut, fun j m =>
      pushes_setProgress (fun m there pushes => ?_) fun m _ => h.pushes j m⟩
    rw [reserves m there] at pushes
    cases pushes
  refine settled.after_own p.queue waiting ⟨id, rfl⟩ id (fun frees => ?_) rfl
  match o with
  | .giveBack => exact Waits.not_holds ⟨before, waiting⟩ frees

theorem Settled.withdrawn (h : Settled capacity p) (waits : p.Waits i) :
    After capacity p (.cancel i)
      (setProgress { p with queue := p.queue.withdraw i } i .cancelled) := by
  obtain ⟨before, waiting⟩ := waits
  have held := held_setProgress (p := { p with queue := p.queue.withdraw i }) waiting .cancelled
  have moves : ∀ order, Progress.cancelled ≠ .waiting order := nofun
  have settled : Settled capacity
      (setProgress { p with queue := p.queue.withdraw i } i .cancelled) := by
    refine ⟨h.total, h.used_le, h.granted.trans held.symm, h.ordered.sublist List.erase_sublist,
      fun j => ?_, fun cons => ?_, fun shut => ?_, fun j m => pushes_setProgress
        (p := { p with queue := p.queue.withdraw i }) (fun _ _ _ => trivial) fun m _ => h.pushes j m⟩
    · rw [waits_setProgress moves]
      show j ∈ p.queue.line.erase i ↔ j ≠ i ∧ p.Waits j
      rw [h.ordered.nodup.mem_erase_iff, h.mem_line]
    · refine h.full fun nil => cons ?_
      show p.queue.line.erase i = []
      rw [nil]
      rfl
    · show p.queue.line.erase i = []
      rw [h.shut shut]
      rfl
  exact settled.after_own (p.queue.withdraw i) waiting ⟨id, rfl⟩ id (Waits.not_holds ⟨before, waiting⟩) rfl

end Producers

end PipelinedHttp
