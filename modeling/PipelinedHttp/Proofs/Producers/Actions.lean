import PipelinedHttp.Proofs.Producers.Holders

/-!
# What each action does

Whoever begins gets a slot if there is a free one, waits at the end of the line if not, and is refused
when there is no receiver.  An entry that is received leaves its slot to the first in line.  The end of
a side is the end of those who can come to nothing without it, and no one gets a slot by it.  With the
actions on one producer this is every action (`Settled.act`).
-/

namespace PipelinedHttp

namespace Progress

/-- what becomes of a producer when the sending side ends -/
def withoutSender : Progress → Progress
  | .waiting _ | .reserved => .cancelled
  | g => g

/-- what becomes of a producer when the receiving side ends -/
def withoutReceiver : Progress → Progress
  | .waiting _ => .refused
  | g => g

end Progress

namespace Producers
variable {p p' : Producers} {own : Nat → Prop} {capacity i j t : Nat} {rest : List Nat}
  {g : Progress} {order next : Option Order} {a : Action}

/-! ## those who begin -/

/-- a further producer -/
def enter (p : Producers) (queue : ReplyQueue Nat) (m : Producer) : Producers :=
  { p with queue, members := p.members ++ [m] }

section
variable {queue : ReplyQueue Nat} {m : Producer}

theorem of_enter {k : Producer} (h : (p.enter queue m).members[j]? = some k) :
    j < p.members.length ∧ p.members[j]? = some k ∨ j = p.members.length ∧ k = m := by
  have here : (p.members ++ [m])[j]? = some k := h
  rcases Nat.lt_or_ge j p.members.length with lt | ge
  · rw [List.getElem?_append_left lt] at here
    exact .inl ⟨lt, here⟩
  · rw [List.getElem?_append_right ge, List.getElem?_singleton] at here
    split at here
    · cases here
      exact .inr ⟨by omega, rfl⟩
    · cases here

theorem progress?_enter_last (p : Producers) (queue : ReplyQueue Nat) (m : Producer) :
    (p.enter queue m).progress? p.members.length = some m.progress := by
  show ((p.members ++ [m])[p.members.length]?).map Producer.progress = some m.progress
  rw [List.getElem?_concat_length]
  rfl

theorem progress?_enter_of_ne (ne : j ≠ p.members.length) :
    (p.enter queue m).progress? j = p.progress? j := by
  show ((p.members ++ [m])[j]?).map Producer.progress = p.progress? j
  unfold progress?
  congr 1
  rcases Nat.lt_or_gt_of_ne ne with lt | gt
  · exact List.getElem?_append_left lt
  · rw [List.getElem?_eq_none (Nat.le_of_lt gt)]
    refine List.getElem?_eq_none ?_
    rw [List.length_append]
    exact gt

theorem held_enter (p : Producers) (queue : ReplyQueue Nat) (m : Producer) :
    (p.enter queue m).held = p.held + m.progress.held := by
  show ((p.members ++ [m]).map fun m => m.progress.held).sum = _
  rw [List.map_append, List.sum_append]
  rfl

theorem waits_enter_of_ne (ne : j ≠ p.members.length) : (p.enter queue m).Waits j ↔ p.Waits j := by
  unfold Waits
  rw [progress?_enter_of_ne ne]

theorem Waits.ne_length (h : p.Waits j) : j ≠ p.members.length := by
  obtain ⟨o, waiting⟩ := h
  exact Nat.ne_of_lt (lt_of_progress? waiting)

theorem Settled.pushes_enter (h : Settled capacity p)
    (pushes : m.reserves = false → m.progress.Pushes) (j : Nat) (k : Producer)
    (here : (p.enter queue m).members[j]? = some k) (reserves : k.reserves = false) :
    k.progress.Pushes := by
  rcases of_enter here with ⟨-, there⟩ | ⟨-, rfl⟩
  · exact h.pushes j k there reserves
  · exact pushes reserves

/-- whoever asks for a slot when there is a free one gets it -/
theorem Settled.begun (h : Settled capacity p) (free : p.queue.used < capacity)
    (obeys : m.reserves = false → ∃ s, order = some (.fill s))
    (waiting : m.progress = .waiting order) :
    InHand capacity (p.enter { p.queue with granted := p.queue.granted + 1 } m) p.members.length
      order where
  total := h.total
  used_le := free
  granted := ⟨_, progress?_enter_last _ _ _, by
    rw [held_enter]
    show p.queue.granted + 1 + m.progress.held = _
    rw [h.granted, waiting]
    rfl⟩
  ordered := h.ordered
  mem_line j := by
    have nil := h.line_eq_nil free
    show j ∈ p.queue.line ↔ _
    rw [nil]
    refine iff_of_false List.not_mem_nil ?_
    rintro ⟨ne, waits⟩
    exact h.not_waits nil ((waits_enter_of_ne ne).mp waits)
  full cons := absurd (h.line_eq_nil free) cons
  shut _ := h.line_eq_nil free
  obeys k here reserves := by
    rcases of_enter here with ⟨lt, -⟩ | ⟨-, rfl⟩
    · exact absurd rfl (Nat.ne_of_lt lt)
    · exact obeys reserves
  pushes j k ne here reserves := by
    rcases of_enter here with ⟨-, there⟩ | ⟨last, -⟩
    · exact h.pushes j k there reserves
    · exact absurd last ne

theorem Settled.queued (h : Settled capacity p) (full : capacity ≤ p.queue.used)
    (receiving : p.queue.receiving = true)
    (pushes : m.reserves = false → m.progress.Pushes) (waiting : m.progress = .waiting order) :
    Settled capacity
      (p.enter { p.queue with line := p.queue.line ++ [p.members.length] } m) where
  total := h.total
  used_le := h.used_le
  granted := by
    rw [held_enter, waiting]
    exact h.granted
  ordered := by
    refine List.pairwise_append.mpr ⟨h.ordered, List.pairwise_singleton _ _, fun j here k last => ?_⟩
    obtain ⟨o, there⟩ := (h.mem_line j).mp here
    rw [List.mem_singleton.mp last]
    exact lt_of_progress? there
  mem_line j := by
    show j ∈ p.queue.line ++ [p.members.length] ↔ _
    rw [List.mem_append, List.mem_singleton, h.mem_line]
    by_cases last : j = p.members.length
    · subst last
      exact iff_of_true (.inr rfl) ⟨order, (progress?_enter_last _ _ _).trans (congrArg some waiting)⟩
    · rw [waits_enter_of_ne last]
      exact or_iff_left last
  full _ := Nat.le_antisymm h.used_le full
  shut shut := absurd (receiving.symm.trans shut) nofun
  pushes := h.pushes_enter pushes

theorem Settled.refused (h : Settled capacity p) (refused : m.progress = .refused) :
    Settled capacity (p.enter p.queue m) where
  total := h.total
  used_le := h.used_le
  granted := by
    rw [held_enter, refused]
    exact h.granted
  ordered := h.ordered
  mem_line j := by
    by_cases last : j = p.members.length
    · subst last
      refine (h.mem_line _).trans (iff_of_false (fun waits => waits.ne_length rfl) ?_)
      rintro ⟨o, waiting⟩
      rw [progress?_enter_last, refused] at waiting
      cases waiting
    · exact (h.mem_line j).trans (waits_enter_of_ne last).symm
  full := h.full
  shut := h.shut
  pushes := h.pushes_enter fun _ => refused ▸ trivial

/-- who has been there already does not notice those who begin and get no slot -/
theorem Settled.after_enter (settled : Settled capacity (p.enter queue m))
    (none : ¬ m.progress.Granted) (idle : ¬ a.Frees p)
    (receiving : queue.receiving = p.queue.receiving) : After capacity p a (p.enter queue m) := by
  refine settled.after (fun j got => ?_) (fun j g there => .inl ?_) idle receiving.trans
  · by_cases last : j = p.members.length
    · subst last
      obtain ⟨g, there, granted⟩ := got
      cases there.symm.trans (progress?_enter_last p queue m)
      exact absurd granted none
    · exact got.congr (progress?_enter_of_ne last)
  · have ne := Nat.ne_of_lt (lt_of_progress? there)
    exact (progress?_enter_of_ne ne).trans there

end

theorem Settled.start (h : Settled capacity p) (reserves : Bool)
    (obeys : reserves = false → ∃ s, order = some (.fill s)) (idle : ¬ a.Frees p) :
    After capacity p a (p.start reserves order) := by
  have pushes : reserves = false → (Progress.waiting order).Pushes := obeys
  unfold Producers.start
  dsimp only
  split
  · exact h.same idle
  cases receiving : p.queue.receiving with
  | false =>
    rw [ReplyQueue.request_of_closed receiving]
    exact (h.refused (m := ⟨reserves, .refused⟩) rfl).after_enter id idle rfl
  | true =>
    rcases ReplyQueue.request_of_open receiving p.members.length with ⟨free, e⟩ | ⟨full, e⟩
    · rw [e]
      rw [h.total] at free
      have begun := h.begun (m := ⟨reserves, .waiting order⟩) free obeys rfl
      have c := begun.grant (progress?_enter_last _ _ _)
      -- there is a free slot, so there is no one in line whom this could concern
      have alone (j : Nat) : ¬ p.Waits j := h.not_waits (h.line_eq_nil free)
      refine ⟨c.settled, fun j g there => .inl ?_, fun i j _ waits _ => absurd waits (alone i),
        fun frees => absurd frees idle, fun shut => absurd (receiving.symm.trans shut) nofun⟩
      have ne := Nat.ne_of_lt (lt_of_progress? there)
      rcases c.others j ne with same | ⟨waits, -⟩
      · exact same.trans ((progress?_enter_of_ne ne).trans there)
      · exact absurd ((waits_enter_of_ne ne).mp waits) (alone j)
    · rw [e]
      rw [h.total] at full
      have queued := h.queued (m := ⟨reserves, .waiting order⟩) full receiving pushes rfl
      exact queued.after_enter id idle rfl

/-! ## the receiving side -/

/-- the slot of an entry that is received is handed to the first in line -/
theorem Settled.handed {s : Slot} {slots : List Slot} {line : List Nat} (h : Settled capacity p)
    (e : p.queue.slots = s :: slots) (cons : p.queue.line = t :: line)
    (waiting : p.progress? t = some (.waiting next)) : InHand capacity
      { p with queue := { p.queue with slots, granted := p.queue.granted + 1, line } } t next := by
  have used : slots.length + (p.queue.granted + 1) = capacity := by
    have full := h.full (cons ▸ List.cons_ne_nil _ _)
    exact (ReplyQueue.used_of_cons e).symm.trans full
  refine ⟨h.total, Nat.le_of_eq used, ⟨_, waiting, congrArg (· + 1) h.granted⟩,
    (List.pairwise_cons.mp (cons ▸ h.ordered)).2, fun j => ?_, fun _ => used, fun shut => ?_,
    fun m here reserves => ?_, fun j m _ => h.pushes j m⟩
  · show j ∈ line ↔ j ≠ t ∧ p.Waits j
    rw [← h.mem_line, cons]
    exact mem_rest_iff (cons ▸ h.ordered)
  · exact absurd (cons.symm.trans (h.shut shut)) nofun
  · exact fills_of_pushes waiting here (h.pushes t m here reserves)

theorem Settled.left {s : Slot} {slots : List Slot} (h : Settled capacity p)
    (e : p.queue.slots = s :: slots) (nil : p.queue.line = []) :
    Passed capacity p (fun _ => False) { p with queue := { p.queue with slots } }
      ∧ Freed p { p with queue := { p.queue with slots } } := by
  have used := (ReplyQueue.used_of_cons e).symm
  have used_le : slots.length + p.queue.granted ≤ capacity :=
    Nat.le_trans (Nat.le_of_succ_le (Nat.le_of_eq used)) h.used_le
  refine ⟨⟨?_, List.suffix_refl _, fun _ _ => .inl rfl, rfl⟩, freed_of_nil nil nil used⟩
  exact ⟨h.total, used_le, h.granted, h.ordered, h.mem_line, fun cons => absurd nil cons, h.shut,
    h.pushes⟩

theorem Settled.receive (h : Settled capacity p) : After capacity p .receive p.receive.2 := by
  unfold Producers.receive
  split
  · rename_i shut
    refine h.same fun frees => ?_
    rw [frees.1] at shut
    exact nomatch shut
  split
  · rename_i s ticket queue taken
    rcases ReplyQueue.take?_cases taken with
      ⟨slots, e, rfl, rfl, why⟩ | ⟨slots, t, line, e, rfl, cons, free, rfl⟩
    · have nil : p.queue.line = [] := by
        refine why.resolve_right fun full => ?_
        have used_le := h.used_le
        rw [ReplyQueue.used_of_cons e] at used_le
        rw [h.total] at full
        omega
      obtain ⟨passed, freed⟩ := h.left e nil
      exact passed.after h nofun fun _ => freed
    · obtain ⟨next, waiting⟩ := (h.mem_line t).mp (cons ▸ List.mem_cons_self)
      have c := (h.handed e cons waiting).grant waiting
      have passed : Passed capacity p (fun _ => False) _ :=
        c.passed cons ⟨next, waiting⟩ rfl fun _ _ => rfl
      exact passed.after h nofun fun _ => c.freed cons (ReplyQueue.used_of_cons e).symm
  · rename_i none
    refine h.same fun frees => frees.2 ?_
    unfold ReplyQueue.take? at none
    split at none
    · assumption
    · exact nomatch none

/-! ## the end of a side -/

/-- the same producers, each with other progress -/
def become (p : Producers) (f : Progress → Progress) : List Producer :=
  p.members.map fun m => { m with progress := f m.progress }

section
variable {f : Progress → Progress} {queue : ReplyQueue Nat} {sending : Bool}

theorem progress?_become (p : Producers) (f : Progress → Progress) (queue : ReplyQueue Nat)
    (sending : Bool) (j : Nat) :
    Producers.progress? ⟨queue, p.become f, sending⟩ j = (p.progress? j).map f := by
  show ((p.members.map _)[j]?).map Producer.progress = ((p.members[j]?).map Producer.progress).map f
  rw [List.getElem?_map, Option.map_map, Option.map_map]
  rfl

theorem held_become (same : ∀ g, (f g).held = g.held) :
    Producers.held ⟨queue, p.become f, sending⟩ = p.held := by
  show ((p.become f).map fun m => m.progress.held).sum = (p.members.map _).sum
  unfold become
  rw [List.map_map]
  exact congrArg List.sum (List.map_congr_left fun m _ => same m.progress)

theorem held_become_zero (none : ∀ g, (f g).held = 0) :
    Producers.held ⟨queue, p.become f, sending⟩ = 0 := by
  show ((p.become f).map fun m => m.progress.held).sum = 0
  unfold become
  rw [List.map_map]
  exact List.sum_eq_zero_iff_forall_eq_nat.mpr fun n here => by
    obtain ⟨m, -, rfl⟩ := List.mem_map.mp here
    exact none m.progress

theorem not_waits_become (moves : ∀ g order, f g ≠ .waiting order) :
    ¬ Producers.Waits ⟨queue, p.become f, sending⟩ j := by
  rintro ⟨order, waiting⟩
  rw [progress?_become] at waiting
  obtain ⟨g, -, there⟩ := Option.map_eq_some_iff.mp waiting
  exact moves g order there

theorem pushes_become (h : Settled capacity p) (fits : ∀ g : Progress, g.Pushes → (f g).Pushes)
    (j : Nat) (m : Producer) (here : (p.become f)[j]? = some m) (reserves : m.reserves = false) :
    m.progress.Pushes := by
  obtain ⟨old, there, rfl⟩ := Option.map_eq_some_iff.mp ((List.getElem?_map ..).symm.trans here)
  exact fits _ (h.pushes j old there reserves)

/-- the end of a side gives no one a slot -/
theorem Settled.after_become (settled : Settled capacity ⟨queue, p.become f, sending⟩)
    (granted : ∀ g, (f g).Granted → g.Granted)
    (ends : ∀ j g, p.progress? j = some g → f g = g ∨ ¬ g.Ended ∧ a.Concerns p j)
    (idle : ¬ a.Frees p) (shut : p.queue.receiving = false → queue.receiving = false) :
    After capacity p a ⟨queue, p.become f, sending⟩ := by
  refine settled.after (fun j got => ?_) (fun j g there => ?_) idle shut
  · obtain ⟨g, there, got⟩ := got
    rw [progress?_become] at there
    obtain ⟨g, before, rfl⟩ := Option.map_eq_some_iff.mp there
    exact ⟨g, before, granted g got⟩
  · refine (ends j g there).imp_left fun same => ?_
    rw [progress?_become, there, Option.map_some, same]

end

theorem closeSender_eq (p : Producers) : p.closeSender
    = ⟨{ p.queue with granted := 0, line := [] }, p.become Progress.withoutSender, false⟩ := by
  unfold closeSender become
  congr 1
  refine List.map_congr_left fun m _ => ?_
  obtain ⟨reserves, progress⟩ := m
  cases progress <;> rfl

theorem closeReceiver_eq (p : Producers) : p.closeReceiver
    = ⟨p.queue.close, p.become Progress.withoutReceiver, p.sending⟩ := by
  unfold closeReceiver become
  congr 1
  refine List.map_congr_left fun m _ => ?_
  obtain ⟨reserves, progress⟩ := m
  cases progress <;> rfl

theorem Settled.closeSender (h : Settled capacity p) :
    After capacity p .closeSender p.closeSender := by
  rw [closeSender_eq]
  have moves (g : Progress) (order : Option Order) : g.withoutSender ≠ .waiting order := by
    cases g <;> exact nofun
  have none (g : Progress) : g.withoutSender.held = 0 := by
    cases g <;> rfl
  have settled : Settled capacity
      ⟨{ p.queue with granted := 0, line := [] }, p.become Progress.withoutSender, false⟩ := by
    refine ⟨h.total, Nat.le_trans (Nat.le_add_right _ _) h.used_le, (held_become_zero none).symm,
      .nil, fun j => iff_of_false List.not_mem_nil (not_waits_become moves), nofun, fun _ => rfl,
      pushes_become h fun g pushes => ?_⟩
    cases g <;> trivial
  refine settled.after_become (fun g granted => ?_) (fun j g _ => ?_) id id
  · cases g <;> trivial
  · cases g <;> first | exact .inl rfl | exact .inr ⟨id, trivial⟩

theorem Settled.closeReceiver (h : Settled capacity p) :
    After capacity p .closeReceiver p.closeReceiver := by
  rw [closeReceiver_eq]
  have moves (g : Progress) (order : Option Order) : g.withoutReceiver ≠ .waiting order := by
    cases g <;> exact nofun
  have same (g : Progress) : g.withoutReceiver.held = g.held := by
    cases g <;> rfl
  have line : p.queue.close.line = [] := by
    unfold ReplyQueue.close
    split
    · rfl
    · rename_i shut
      exact h.shut (Bool.eq_false_iff.mpr shut)
  have granted : p.queue.close.granted = p.queue.granted := by
    unfold ReplyQueue.close
    split <;> rfl
  have total : p.queue.close.capacity = p.queue.capacity := by
    unfold ReplyQueue.close
    split <;> rfl
  have used : p.queue.close.used ≤ p.queue.used := by
    unfold ReplyQueue.used
    rw [granted]
    exact Nat.add_le_add_right p.queue.length_close_le _
  have settled : Settled capacity
      ⟨p.queue.close, p.become Progress.withoutReceiver, p.sending⟩ := by
    refine ⟨total.trans h.total, Nat.le_trans used h.used_le,
      (granted.trans h.granted).trans (held_become same).symm, line ▸ .nil,
      fun j => iff_of_false (fun here => ?_) (not_waits_become moves), fun cons => absurd line cons,
      fun _ => line, pushes_become h fun g pushes => ?_⟩
    · exact List.not_mem_nil (line ▸ here)
    · cases g <;> trivial
  refine settled.after_become (fun g granted => ?_) (fun j g there => ?_) id fun _ =>
    p.queue.close_receiving
  · cases g <;> trivial
  · cases g <;> first | exact .inl rfl | exact .inr ⟨id, _, there⟩

/-! ## every action -/

theorem Settled.act (h : Settled capacity p) (a : Action) : After capacity p a (p.act a) := by
  cases a with
  | push s => exact h.start false (fun _ => ⟨s, rfl⟩) id
  | reserve => exact h.start true nofun id
  | receive => exact h.receive
  | closeSender => exact h.closeSender
  | closeReceiver => exact h.closeReceiver
  | order i o =>
    by_cases holds : p.Holds i
    · exact h.after_order_holds holds o
    have idle : ¬ Action.Frees p (.order i o) := by
      match o with
      | .fill _ => exact id
      | .giveBack => exact holds
    show After capacity p (.order i o) (p.order i o)
    unfold Producers.order
    split
    · rename_i o' here
      refine h.told ⟨o', congrArg (Option.map Producer.progress) here⟩ (fun m there => ?_) o
      cases here.symm.trans there
      rfl
    · rename_i here
      exact absurd (congrArg (Option.map Producer.progress) here) holds
    · exact h.same idle
  | cancel i =>
    by_cases holds : p.Holds i
    · obtain ⟨⟨passed, freed⟩, -⟩ := h.cancel_holds holds
      refine passed.after h (fun j mine => ?_) fun _ => freed
      subst mine
      exact ⟨holds, rfl⟩
    show After capacity p (.cancel i) (p.cancel i)
    unfold Producers.cancel
    split
    · rename_i o here
      exact h.withdrawn ⟨o, here⟩
    · rename_i here
      exact absurd here holds
    · exact h.same holds

end Producers

end PipelinedHttp
