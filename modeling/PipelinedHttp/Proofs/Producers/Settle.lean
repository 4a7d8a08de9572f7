import PipelinedHttp.Producers
import PipelinedHttp.Proofs.Lists
import PipelinedHttp.Proofs.ReplyQueue

/-!
# A slot goes from producer to producer

A slot of a queue is free, queued, held by a producer, or on its way from one of these to the next.
`Settled` says where all slots are when nothing is on its way; `InHand` says it of the moment at which
one slot has been handed to a producer that has not yet carried out its order.  Whoever is handed a
slot may give it back, and then it goes to the next in line, who may do the same; there are never more
in line than turns left, so in the end nothing is on its way (`InHand.settle`).
-/

namespace PipelinedHttp

namespace Progress

/-- the slots that a producer holds -/
def held : Progress → Nat
  | .reserved => 1
  | _ => 0

/-- the producer has got a slot: it holds it, has filled it, or has given it back -/
def Granted : Progress → Prop
  | .reserved | .pushed _ | .dropped => True
  | _ => False

/-- nothing more is to become of the producer -/
def Ended : Progress → Prop
  | .waiting _ | .reserved => False
  | _ => True

/-- what a producer can come to that pushes -/
def Pushes : Progress → Prop
  | .waiting order => ∃ s, order = some (.fill s)
  | .pushed _ | .refused | .cancelled => True
  | .reserved | .dropped => False

/-- what a producer comes to whose order is carried out -/
def ofOrder : Option Order → Progress
  | none => .reserved
  | some (.fill s) => .pushed s
  | some .giveBack => .dropped

theorem granted_ofOrder (order : Option Order) : (ofOrder order).Granted := by
  match order with
  | none | some (.fill _) | some .giveBack => trivial

end Progress

namespace Producers
variable {p q p' : Producers} {own : Nat → Prop} {capacity fuel i j t : Nat} {rest : List Nat}
  {g : Progress} {order next : Option Order}

/-! ## each producer -/

def Waits (p : Producers) (i : Nat) : Prop := ∃ order, p.progress? i = some (.waiting order)

def Holds (p : Producers) (i : Nat) : Prop := p.progress? i = some .reserved

def Granted (p : Producers) (i : Nat) : Prop := ∃ g, p.progress? i = some g ∧ g.Granted

def Ended (p : Producers) (i : Nat) : Prop := ∃ g, p.progress? i = some g ∧ g.Ended

/-- a pushing producer keeps no slot and gives none back -/
def Fits (p : Producers) (i : Nat) (g : Progress) : Prop :=
  ∀ m : Producer, p.members[i]? = some m → m.reserves = false → g.Pushes

/-- the slots that are held -/
def held (p : Producers) : Nat := (p.members.map fun m => m.progress.held).sum

theorem Waits.not_granted (h : p.Waits i) : ¬ p.Granted i := by
  obtain ⟨order, waiting⟩ := h
  rintro ⟨g, there, granted⟩
  rw [waiting] at there
  cases there
  exact granted

theorem progress_of_getElem? {m : Producer} (h : p.progress? i = some g)
    (here : p.members[i]? = some m) : m.progress = g := by
  unfold progress? at h
  rw [here] at h
  exact Option.some.inj h

theorem fills_of_pushes {m : Producer} (waiting : p.progress? i = some (.waiting order))
    (here : p.members[i]? = some m) (pushes : m.progress.Pushes) : ∃ s, order = some (.fill s) := by
  rw [progress_of_getElem? waiting here] at pushes
  exact pushes

theorem getElem?_setProgress (p : Producers) (i j : Nat) (g : Progress) :
    (p.setProgress i g).members[j]?
      = (p.members[j]?).map fun m => if i = j then { m with progress := g } else m :=
  List.getElem?_modify _ _ _ _

theorem of_setProgress {m : Producer} (h : (p.setProgress i g).members[j]? = some m) :
    ∃ old, p.members[j]? = some old ∧ m.reserves = old.reserves
      ∧ (j = i ∧ m.progress = g ∨ j ≠ i ∧ m = old) := by
  rw [getElem?_setProgress] at h
  obtain ⟨old, there, rfl⟩ := Option.map_eq_some_iff.mp h
  refine ⟨old, there, ?_, ?_⟩
  · split <;> rfl
  · by_cases own : i = j
    · exact .inl ⟨own.symm, by rw [if_pos own]⟩
    · exact .inr ⟨Ne.symm own, if_neg own⟩

theorem pushes_setProgress {m : Producer} (fits : p.Fits i g)
    (others : ∀ m : Producer, j ≠ i → p.members[j]? = some m → m.reserves = false →
      m.progress.Pushes) (now : (p.setProgress i g).members[j]? = some m)
    (reserves : m.reserves = false) : m.progress.Pushes := by
  obtain ⟨old, there, same, ⟨rfl, progress⟩ | ⟨ne, rfl⟩⟩ := of_setProgress now
  · rw [progress]
    exact fits old there (same ▸ reserves)
  · exact others m ne there reserves

theorem progress?_setProgress_of_ne (p : Producers) (ne : j ≠ i) (g : Progress) :
    (p.setProgress i g).progress? j = p.progress? j := by
  unfold progress?
  rw [getElem?_setProgress]
  simp [ne.symm]

theorem progress?_setProgress {old : Progress} (h : p.progress? i = some old) (g : Progress) :
    (p.setProgress i g).progress? i = some g := by
  unfold progress? at h ⊢
  obtain ⟨m, there, -⟩ := Option.map_eq_some_iff.mp h
  rw [getElem?_setProgress, there]
  simp

theorem waits_setProgress (h : ∀ order, g ≠ .waiting order) :
    (p.setProgress i g).Waits j ↔ j ≠ i ∧ p.Waits j := by
  by_cases here : j = i
  · subst here
    refine iff_of_false ?_ fun both => both.1 rfl
    rintro ⟨order, waiting⟩
    unfold progress? at waiting
    rw [getElem?_setProgress] at waiting
    obtain ⟨m, there, progress⟩ := Option.map_eq_some_iff.mp waiting
    obtain ⟨m, -, rfl⟩ := Option.map_eq_some_iff.mp there
    rw [if_pos rfl] at progress
    exact h order progress
  · unfold Waits
    rw [progress?_setProgress_of_ne p here]
    exact (and_iff_right here).symm

theorem held_setProgress {old : Progress} (h : p.progress? i = some old) (g : Progress) :
    (p.setProgress i g).held + old.held = p.held + g.held := by
  obtain ⟨m, there, rfl⟩ := Option.map_eq_some_iff.mp h
  exact sum_map_modify (fun m => m.progress.held) (fun m => { m with progress := g }) there

/-! ## where the slots are -/

/-- nothing is on its way -/
structure Settled (capacity : Nat) (p : Producers) : Prop where
  total : p.queue.capacity = capacity
  used_le : p.queue.used ≤ capacity
  granted : p.queue.granted = p.held
  /-- the line is in the order in which the producers have begun -/
  ordered : p.queue.line.Pairwise (· < ·)
  mem_line : ∀ i, i ∈ p.queue.line ↔ p.Waits i
  full : p.queue.line ≠ [] → p.queue.used = capacity
  shut : p.queue.receiving = false → p.queue.line = []
  pushes : ∀ (i : Nat) (m : Producer), p.members[i]? = some m → m.reserves = false →
    m.progress.Pushes

/-- a producer has been handed a slot, and is to carry out its order -/
structure InHand (capacity : Nat) (p : Producers) (i : Nat) (order : Option Order) : Prop where
  total : p.queue.capacity = capacity
  used_le : p.queue.used ≤ capacity
  granted : ∃ g, p.progress? i = some g ∧ p.queue.granted + g.held = p.held + 1
  ordered : p.queue.line.Pairwise (· < ·)
  mem_line : ∀ j, j ∈ p.queue.line ↔ j ≠ i ∧ p.Waits j
  full : p.queue.line ≠ [] → p.queue.used = capacity
  shut : p.queue.receiving = false → p.queue.line = []
  obeys : ∀ m : Producer, p.members[i]? = some m → m.reserves = false → ∃ s, order = some (.fill s)
  pushes : ∀ (j : Nat) (m : Producer), j ≠ i → p.members[j]? = some m → m.reserves = false →
    m.progress.Pushes

theorem InHand.granted_pos (h : InHand capacity p i order) : 0 < p.queue.granted := by
  obtain ⟨g, there, granted⟩ := h.granted
  have le := held_setProgress there .dropped
  have none : Progress.dropped.held = 0 := rfl
  omega

/-- the order has been carried out: the slot is queued, held, or free -/
theorem InHand.settled (h : InHand capacity p i order) (queue : ReplyQueue Nat) (g : Progress)
    (total : queue.capacity = p.queue.capacity) (line : queue.line = p.queue.line)
    (receiving : queue.receiving = p.queue.receiving)
    (used : queue.used = p.queue.used ∨ queue.line = [] ∧ queue.used ≤ p.queue.used)
    (granted : queue.granted + 1 = p.queue.granted + g.held)
    (moves : ∀ order, g ≠ .waiting order) (fits : p.Fits i g) :
    Settled capacity (setProgress { p with queue } i g) := by
  obtain ⟨old, there, before⟩ := h.granted
  have held := held_setProgress (p := { p with queue }) there g
  have same : Producers.held { p with queue } = p.held := rfl
  have used_le := h.used_le
  refine ⟨total.trans h.total, ?_, ?_, line ▸ h.ordered, fun j => ?_, fun cons => ?_, fun shut => ?_,
    fun j m now reserves => ?_⟩
  · show queue.used ≤ capacity
    rcases used with e | ⟨-, le⟩ <;> omega
  · show queue.granted = _
    omega
  · show j ∈ queue.line ↔ _
    rw [line, h.mem_line, waits_setProgress moves]
    rfl
  · rcases used with e | ⟨nil, -⟩
    · exact e.trans (h.full (line ▸ cons))
    · exact absurd nil cons
  · exact line.trans (h.shut (receiving ▸ shut))
  · exact pushes_setProgress (p := { p with queue }) fits (h.pushes j) now reserves

/-- whoever comes to an end hands its slot to the first in line -/
theorem InHand.pass (h : InHand capacity p i order) (line : p.queue.line = t :: rest)
    (waiting : p.progress? t = some (.waiting next)) (none : g.held = 0)
    (moves : ∀ order, g ≠ .waiting order) (fits : p.Fits i g) :
    InHand capacity (setProgress { p with queue := { p.queue with line := rest } } i g) t next := by
  obtain ⟨old, own, granted⟩ := h.granted
  have held := held_setProgress (p := { p with queue := { p.queue with line := rest } }) own g
  have same : Producers.held { p with queue := { p.queue with line := rest } } = p.held := rfl
  have ordered := (List.pairwise_cons.mp (line ▸ h.ordered)).2
  have ne : t ≠ i := ((h.mem_line t).mp (line ▸ List.mem_cons_self)).1
  have cons : p.queue.line ≠ [] := line ▸ List.cons_ne_nil _ _
  refine ⟨h.total, h.used_le, ⟨.waiting next, ?_, ?_⟩, ordered, fun j => ?_, fun _ => h.full cons,
    fun shut => ?_, fun m now reserves => ?_, fun j m _ now reserves => ?_⟩
  · rw [progress?_setProgress_of_ne _ ne]
    exact waiting
  · show p.queue.granted + 0 = _
    omega
  · rw [waits_setProgress moves]
    show j ∈ rest ↔ j ≠ t ∧ j ≠ i ∧ p.Waits j
    rw [← h.mem_line, line]
    exact mem_rest_iff (line ▸ h.ordered)
  · exact absurd (h.shut shut) cons
  · obtain ⟨old, here, -, ⟨rfl, -⟩ | ⟨-, rfl⟩⟩ := of_setProgress now
    · exact absurd rfl ne
    · exact fills_of_pushes waiting here (h.pushes t m ne here reserves)
  · exact pushes_setProgress (p := { p with queue := { p.queue with line := rest } }) fits
      (h.pushes j) now reserves

/-! ## carrying out orders -/

/-- nothing is on its way again; some in front of the line have got slots, and of all others only those
in `own` are different -/
structure Passed (capacity : Nat) (p : Producers) (own : Nat → Prop) (p' : Producers) : Prop where
  settled : Settled capacity p'
  line : p'.queue.line <:+ p.queue.line
  others : ∀ j, ¬ own j → p'.progress? j = p.progress? j ∨ p.Waits j ∧ p'.Granted j
  receiving : p'.queue.receiving = p.queue.receiving

/-- a slot has become free: the first in line has got it, and if there was no one left who kept it,
then there is one more free slot -/
structure Freed (p p' : Producers) : Prop where
  first : ∀ t rest, p.queue.line = t :: rest → p'.Granted t
  used : p.queue.line ≠ [] ∧ p'.queue.used = p.queue.used
    ∨ p'.queue.line = [] ∧ p'.queue.used + 1 = p.queue.used

/-- the order has been carried out -/
structure Carried (capacity : Nat) (p : Producers) (i : Nat) (order : Option Order)
    (p' : Producers) : Prop extends Passed capacity p (· = i) p' where
  own : p'.progress? i = some (.ofOrder order)
  kept : order ≠ some .giveBack → p'.queue.used = p.queue.used
  gives : order = some .giveBack → Freed p p'

theorem Carried.granted (c : Carried capacity p i order p') : p'.Granted i :=
  ⟨_, c.own, Progress.granted_ofOrder order⟩

theorem Settled.passed {queue : ReplyQueue Nat}
    (settled : Settled capacity (setProgress { p with queue } i g))
    (line : queue.line = p.queue.line) (receiving : queue.receiving = p.queue.receiving) :
    Passed capacity p (· = i) (setProgress { p with queue } i g) where
  settled := settled
  line := line ▸ List.suffix_refl _
  others _ ne := .inl (progress?_setProgress_of_ne { p with queue } ne g)
  receiving := receiving

theorem freed_of_nil (nil : p.queue.line = []) (line : p'.queue.line = [])
    (used : p'.queue.used + 1 = p.queue.used) : Freed p p' where
  first _ _ cons := absurd (nil.symm.trans cons) nofun
  used := .inr ⟨line, used⟩

/-- the first in line has been handed a slot, and has carried out its order -/
theorem Carried.passed (c : Carried capacity q t next p') (line : p.queue.line = t :: q.queue.line)
    (waits : p.Waits t) (receiving : q.queue.receiving = p.queue.receiving)
    (same : ∀ j, ¬ own j → q.progress? j = p.progress? j) : Passed capacity p own p' where
  settled := c.settled
  line := c.line.trans (line ▸ List.suffix_cons t _)
  others j other := by
    by_cases here : j = t
    · subst here
      exact .inr ⟨waits, c.granted⟩
    · rcases c.others j here with unchanged | ⟨⟨o, waits⟩, granted⟩
      · exact .inl (unchanged.trans (same j other))
      · exact .inr ⟨⟨o, (same j other).symm.trans waits⟩, granted⟩
  receiving := c.receiving.trans receiving

theorem Carried.freed (c : Carried capacity q t next p') (line : p.queue.line = t :: rest)
    (used : q.queue.used = p.queue.used) : Freed p p' where
  first t' rest' line' := by
    obtain ⟨rfl, -⟩ := List.cons.inj (line.symm.trans line')
    exact c.granted
  used := by
    have cons : p.queue.line ≠ [] := line ▸ List.cons_ne_nil _ _
    by_cases back : next = some .giveBack
    · rcases (c.gives back).used with ⟨-, same⟩ | ⟨nil, less⟩
      · exact .inl ⟨cons, same.trans used⟩
      · exact .inr ⟨nil, less.trans used⟩
    · exact .inl ⟨cons, (c.kept back).trans used⟩

theorem settle_fill (p : Producers) (fuel i : Nat) (s : Slot) : p.settle fuel i (some (.fill s))
    = setProgress { p with queue := p.queue.put s } i (.pushed s) := by
  cases fuel <;> rfl

theorem settle_none (p : Producers) (fuel i : Nat) :
    p.settle fuel i none = p.setProgress i .reserved := by
  cases fuel <;> rfl

theorem settle_giveBack_of_nil (nil : p.queue.line = []) (fuel i : Nat) :
    p.settle fuel i (some .giveBack) = setProgress
      { p with queue := { p.queue with granted := p.queue.granted - 1 } } i .dropped := by
  have back : (p.setProgress i .dropped).queue.giveBack = _ := ReplyQueue.giveBack_of_nil nil
  cases fuel <;> rw [Producers.settle] <;> simp only [back] <;> rfl

theorem settle_giveBack_of_cons (line : p.queue.line = t :: rest) (ne : t ≠ i)
    (waiting : p.progress? t = some (.waiting next)) (used : p.queue.used ≤ p.queue.capacity) (pos : 0 < p.queue.granted) (fuel : Nat) :
    p.settle (fuel + 1) i (some .giveBack) = settle fuel
      (setProgress { p with queue := { p.queue with line := rest } } i .dropped) t next := by
  have back : (p.setProgress i .dropped).queue.giveBack = _ :=
    ReplyQueue.giveBack_of_cons line used pos
  have there : (p.setProgress i .dropped).progress? t = some (.waiting next) := by
    rw [progress?_setProgress_of_ne _ ne]
    exact waiting
  rw [Producers.settle]
  simp only [back, there]
  rfl

theorem InHand.settle_none (h : InHand capacity p i none) (fuel : Nat) :
    Carried capacity p i none (p.settle fuel i none) := by
  obtain ⟨old, there, -⟩ := h.granted
  rw [Producers.settle_none]
  have settled := h.settled p.queue .reserved rfl rfl rfl (.inl rfl) rfl nofun
    fun m here reserves => by
      obtain ⟨s, fills⟩ := h.obeys m here reserves
      cases fills
  exact ⟨settled.passed rfl rfl, progress?_setProgress there _, fun _ => rfl, nofun⟩

theorem InHand.settle_fill {s : Slot} (h : InHand capacity p i (some (.fill s))) (fuel : Nat) :
    Carried capacity p i (some (.fill s)) (p.settle fuel i (some (.fill s))) := by
  obtain ⟨old, there, -⟩ := h.granted
  have pos := h.granted_pos
  have used : (p.queue.put s).used = p.queue.used := by
    show (p.queue.slots ++ [s]).length + (p.queue.granted - 1)
      = p.queue.slots.length + p.queue.granted
    rw [List.length_append, List.length_singleton]
    omega
  have granted : p.queue.granted - 1 + 1 = p.queue.granted + 0 := by omega
  rw [Producers.settle_fill]
  have settled := h.settled (p.queue.put s) (.pushed s) rfl rfl rfl (.inl used) granted
    nofun fun _ _ _ => trivial
  have own := progress?_setProgress (p := { p with queue := p.queue.put s }) there (.pushed s)
  exact ⟨settled.passed rfl rfl, own, fun _ => used, nofun⟩

theorem InHand.leave (h : InHand capacity p i order) (nil : p.queue.line = []) (none : g.held = 0)
    (moves : ∀ order, g ≠ .waiting order) (fits : p.Fits i g) :
    Passed capacity p (· = i) (setProgress
        { p with queue := { p.queue with granted := p.queue.granted - 1 } } i g)
      ∧ Freed p (setProgress
        { p with queue := { p.queue with granted := p.queue.granted - 1 } } i g) := by
  have pos := h.granted_pos
  have used : p.queue.slots.length + (p.queue.granted - 1) + 1
      = p.queue.slots.length + p.queue.granted := by omega
  have settled := h.settled { p.queue with granted := p.queue.granted - 1 } g rfl rfl rfl
    (.inr ⟨nil, Nat.le_of_succ_le (Nat.le_of_eq used)⟩)
    (by rw [none]; exact Nat.sub_add_cancel pos) moves fits
  exact ⟨settled.passed rfl rfl, freed_of_nil nil nil used⟩

/-- a slot to be given back is not one of a pushing producer -/
theorem InHand.fits_dropped (h : InHand capacity p i (some .giveBack)) : p.Fits i .dropped := by
  intro m here reserves
  obtain ⟨s, fills⟩ := h.obeys m here reserves
  cases fills

theorem InHand.settle_giveBack (h : InHand capacity p i (some .giveBack)) (nil : p.queue.line = [])
    (fuel : Nat) : Carried capacity p i (some .giveBack) (p.settle fuel i (some .giveBack)) := by
  obtain ⟨old, there, -⟩ := h.granted
  rw [settle_giveBack_of_nil nil]
  obtain ⟨passed, freed⟩ := h.leave (g := .dropped) nil rfl nofun h.fits_dropped
  exact ⟨passed, progress?_setProgress
    (p := { p with queue := { p.queue with granted := p.queue.granted - 1 } }) there _,
    fun keeps => absurd rfl keeps, fun _ => freed⟩

/-- the slot is given back, and the first in line carries out its order -/
theorem InHand.carried (h : InHand capacity p i (some .giveBack)) (line : p.queue.line = t :: rest)
    (waiting : p.progress? t = some (.waiting next))
    (c : Carried capacity (setProgress { p with queue := { p.queue with line := rest } } i .dropped)
      t next p') : Carried capacity p i (some .giveBack) p' := by
  obtain ⟨old, there, -⟩ := h.granted
  have ne : t ≠ i := ((h.mem_line t).mp (line ▸ List.mem_cons_self)).1
  have dropped := progress?_setProgress
    (p := { p with queue := { p.queue with line := rest } }) there .dropped
  have passed := c.passed line ⟨next, waiting⟩ rfl fun j other =>
    progress?_setProgress_of_ne { p with queue := { p.queue with line := rest } } other .dropped
  refine ⟨passed, ?_, fun keeps => absurd rfl keeps, fun _ => c.freed line rfl⟩
  rcases c.others i (Ne.symm ne) with e | ⟨⟨o, waits⟩, -⟩
  · exact e.trans dropped
  · exact absurd (waits.symm.trans dropped) nofun

/-- whoever is handed a slot carries out its order, if there are as many turns as producers in line -/
theorem InHand.settle (h : InHand capacity p i order) (enough : p.queue.line.length ≤ fuel) :
    Carried capacity p i order (p.settle fuel i order) := by
  -- whoever gives its slot back takes one turn, and takes the next producer out of the line
  induction fuel generalizing p i order with
  | zero =>
    have nil := List.eq_nil_of_length_eq_zero (Nat.le_zero.mp enough)
    match order with
    | none => exact h.settle_none 0
    | some (.fill s) => exact h.settle_fill 0
    | some .giveBack => exact h.settle_giveBack nil 0
  | succ fuel ih =>
    match order with
    | none => exact h.settle_none _
    | some (.fill s) => exact h.settle_fill _
    | some .giveBack =>
      cases line : p.queue.line with
      | nil => exact h.settle_giveBack line _
      | cons t rest =>
        obtain ⟨ne, next, waiting⟩ := (h.mem_line t).mp (line ▸ List.mem_cons_self)
        have used : p.queue.used ≤ p.queue.capacity := h.total.symm ▸ h.used_le
        rw [line, List.length_cons] at enough
        rw [settle_giveBack_of_cons line ne waiting used h.granted_pos]
        exact h.carried line waiting (ih
          (h.pass line waiting rfl nofun h.fits_dropped) (Nat.le_of_succ_le_succ enough))

end Producers

end PipelinedHttp
