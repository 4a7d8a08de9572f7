import PipelinedHttp.Proofs.Connection.Invariant

/-!
# The slots of the queue

Where the slots of a connection's queue are.  As long as the queue is open, a slot is granted exactly
if the reading loop holds it, the line is exactly the reading loop if it waits, and it waits only
while no slot is free; a reading loop that has ended has left the last mark at the end.  `Balanced`
says so of a reading loop and a queue, and it holds at all times (`balanced_run`).

Each lemma about `Balanced` is for one thing that can be done to a queue, so that the lemmas about
steps only say which of them a step does.
-/

namespace PipelinedHttp

/-- the slots that the reading loop holds -/
def Reader.held : Reader → Nat
  | .granted _ | .handling _ => 1
  | _ => 0

/-- the reading loop's place in the line -/
def Reader.line : Reader → List Unit
  | .waiting _ => [()]
  | _ => []

/-- the reading loop neither holds a slot nor waits for one, and goes on -/
def Reader.AtRest : Reader → Prop
  | .idle | .decoding | .awaiting => True
  | _ => False

/-- the counts of a queue of the given capacity fit to the reading loop -/
structure Balanced (capacity : Nat) (reader : Reader) (q : ReplyQueue Unit) : Prop where
  total : q.capacity = capacity
  used_le : q.used ≤ capacity
  held_le : reader.held ≤ q.granted
  granted : q.receiving = true → q.granted = reader.held
  line : q.receiving = true → q.line = reader.line
  full : q.receiving = true → q.line ≠ [] → q.used = capacity
  marked : q.receiving = true → reader = .closed → ∃ front, q.slots = front ++ [.last]

namespace Balanced
variable {capacity : Nat} {reader reader' : Reader} {q q' : ReplyQueue Unit}

theorem ofCapacity (capacity : Nat) : Balanced capacity .idle (.ofCapacity capacity) where
  total := rfl
  used_le := Nat.zero_le _
  held_le := Nat.le_refl _
  granted _ := rfl
  line _ := rfl
  full _ cons := absurd rfl cons
  marked _ closed := nomatch closed

/-- the slots queued and the slot that the reading loop holds are within the capacity -/
theorem slots_add_held_le (b : Balanced capacity reader q) :
    q.slots.length + reader.held ≤ capacity :=
  Nat.le_trans (Nat.add_le_add_left b.held_le _) b.used_le

/-- a reading loop that waits for a slot of an open queue finds all slots filled -/
theorem length_of_waiting {n : Need} (b : Balanced capacity (.waiting n) q)
    (isOpen : q.receiving = true) : q.slots.length = capacity := by
  have line : q.line = [()] := b.line isOpen
  have full := b.full isOpen (by rw [line]; exact List.cons_ne_nil _ _)
  have granted : q.granted = 0 := b.granted isOpen
  unfold ReplyQueue.used at full
  omega

theorem goes (b : Balanced capacity reader q) (held : reader'.held = reader.held)
    (line : reader'.line = reader.line) (goes : reader' ≠ .closed) :
    Balanced capacity reader' q where
  total := b.total
  used_le := b.used_le
  held_le := held ▸ b.held_le
  granted isOpen := held ▸ b.granted isOpen
  line isOpen := line ▸ b.line isOpen
  full := b.full
  marked _ closed := absurd closed goes

theorem idle_of_atRest (b : Balanced capacity reader q) (rest : reader.AtRest) :
    Balanced capacity .idle q := by
  cases reader with
  | idle | decoding | awaiting => exact b.goes rfl rfl nofun
  | waiting | granted | handling | closed => cases rest

theorem ends (b : Balanced capacity reader q) (shut : q.receiving = false) :
    Balanced capacity .closed q where
  total := b.total
  used_le := b.used_le
  held_le := Nat.zero_le _
  granted isOpen := by rw [shut] at isOpen; cases isOpen
  line isOpen := by rw [shut] at isOpen; cases isOpen
  full := b.full
  marked isOpen := by rw [shut] at isOpen; cases isOpen

theorem want {c : Connection} (b : Balanced capacity .idle c.queue) (n : Need) :
    Balanced capacity (c.want n).reader (c.want n).queue := by
  have used := b.used_le
  have total := b.total
  have granted := b.granted
  have line := b.line
  rcases c.want_cases n with ⟨shut, e⟩ | ⟨isOpen, free, e⟩ | ⟨isOpen, full, e⟩
  · rw [e]
    exact b.ends shut
  · rw [e]
    have none : c.queue.granted = 0 := granted isOpen
    refine ⟨total, ?_, ?_, fun _ => ?_, line, fun _ cons => ?_, nofun⟩
    · show c.queue.slots.length + (c.queue.granted + 1) ≤ capacity
      unfold ReplyQueue.used at free
      omega
    · show 1 ≤ c.queue.granted + 1
      omega
    · show c.queue.granted + 1 = 1
      omega
    · exact absurd (line isOpen) cons
  · rw [e]
    refine ⟨total, used, Nat.zero_le _, granted, fun _ => ?_, fun _ _ => ?_, nofun⟩
    · show c.queue.line ++ [()] = [()]
      rw [line isOpen]
      rfl
    · exact Nat.le_antisymm used (total ▸ full)

theorem put (b : Balanced capacity reader q) (held : reader.held = 1) {s : Slot}
    (none : reader'.held = 0) (line : reader'.line = []) (mark : reader' = .closed → s = .last) :
    Balanced capacity reader' (q.put s) := by
  have some_granted := b.held_le
  have used := b.used_le
  have noLine : reader.line = [] := by cases reader <;> first | rfl | cases held
  refine ⟨b.total, ?_, ?_, fun isOpen => ?_, fun isOpen => ?_, fun isOpen cons => ?_,
    fun _ closed => ?_⟩
  · show (q.slots ++ [s]).length + (q.granted - 1) ≤ capacity
    unfold ReplyQueue.used at used
    rw [List.length_append, List.length_singleton]
    omega
  · rw [none]
    exact Nat.zero_le _
  · show q.granted - 1 = reader'.held
    rw [b.granted isOpen, held, none]
  · rw [line, ← noLine]
    exact b.line isOpen
  · exact absurd ((b.line isOpen).trans noLine) cons
  · exact ⟨q.slots, by rw [← mark closed]; rfl⟩

/-- nothing but the counts matters to a queue that is closed -/
theorem of_close (total : q.capacity = capacity) (used : q.used ≤ capacity)
    (held : reader.held ≤ q.granted) : Balanced capacity reader q.close := by
  have no {p : Prop} (isOpen : q.close.receiving = true) : p := by
    rw [ReplyQueue.close_receiving] at isOpen
    cases isOpen
  have same : q.close.capacity = q.capacity ∧ q.close.granted = q.granted := by
    unfold ReplyQueue.close
    split <;> exact ⟨rfl, rfl⟩
  have fewer := q.length_close_le
  refine ⟨same.1.trans total, ?_, same.2 ▸ held, no, no, no, no⟩
  unfold ReplyQueue.used at used ⊢
  omega

theorem close (b : Balanced capacity reader q) : Balanced capacity reader q.close :=
  of_close b.total b.used_le b.held_le

theorem take_close {s : Slot} {ticket : Option Unit} (b : Balanced capacity reader q)
    (taken : q.take? = some (s, ticket, q')) : Balanced capacity reader q'.close := by
  have used := b.used_le
  have held := b.held_le
  have total := b.total
  unfold ReplyQueue.used at used
  rcases ReplyQueue.take?_cases taken with
    ⟨slots, e, -, rfl, -⟩ | ⟨slots, t, rest, e, -, -, free, rfl⟩
  · rw [e, List.length_cons] at used
    refine of_close total ?_ held
    show slots.length + q.granted ≤ capacity
    omega
  · refine of_close total ?_ (Nat.le_succ_of_le held)
    show slots.length + (q.granted + 1) ≤ capacity
    omega

theorem take {r : Reply} {ticket : Option Unit} (b : Balanced capacity reader q)
    (isOpen : q.receiving = true) (taken : q.take? = some (.reply r, ticket, q')) :
    (ticket = none ∧ Balanced capacity reader q')
      ∨ ∃ n, reader = .waiting n ∧ ticket = some () ∧ Balanced capacity (.granted n) q' := by
  have used := b.used_le
  have granted := b.granted isOpen
  have line := b.line isOpen
  have total := b.total
  rcases ReplyQueue.take?_cases taken with
    ⟨slots, e, rfl, rfl, stays⟩ | ⟨slots, t, rest, e, rfl, first, free, rfl⟩
  · refine .inl ⟨rfl, total, ?_, b.held_le, b.granted, b.line, fun _ cons => ?_, fun _ closed => ?_⟩
    · show slots.length + q.granted ≤ capacity
      unfold ReplyQueue.used at used
      rw [e, List.length_cons] at used
      omega
    · show slots.length + q.granted = capacity
      unfold ReplyQueue.used at used
      rw [e, List.length_cons] at used
      have := stays.resolve_left cons
      omega
    · obtain ⟨front, e'⟩ := b.marked isOpen closed
      rw [e] at e'
      cases front with
      | nil => cases List.head_eq_of_cons_eq e'
      | cons x front => exact ⟨front, List.tail_eq_of_cons_eq e'⟩
  · rw [first] at line
    cases reader with
    | waiting n =>
      refine .inr ⟨n, rfl, rfl, total, ?_, ?_, fun _ => ?_, fun _ => ?_, fun _ cons => ?_, nofun⟩
      · show slots.length + (q.granted + 1) ≤ capacity
        omega
      · exact Nat.le_add_left 1 _
      · show q.granted + 1 = 1
        rw [granted]
        rfl
      · exact (List.cons.inj line).2
      · exact absurd (List.cons.inj line).2 cons
    | idle | decoding | awaiting | granted | handling | closed => cases line

end Balanced

namespace Connection
variable {c c' : Connection} {e : Event} {note : Option Note} {capacity : Nat}

/-! ## steps and runs -/

theorem Reading.balanced (b : Balanced capacity c.reader c.queue) (h : Reading c e c' note) :
    Balanced capacity c'.reader c'.queue := by
  have rests (rest : c.reader.AtRest) : Balanced capacity .idle c.queue := b.idle_of_atRest rest
  cases h with
  | begin reader | more reader | piece reader =>
    exact (rests (by rw [reader]; trivial)).goes rfl rfl nofun
  | haltIdle reader | request reader | failed reader | ended reader | cut reader | late reader
  | broken reader =>
    refine Balanced.want ?_ _
    exact rests (by rw [reader]; trivial)
  | halt reader =>
    refine Balanced.want ?_ _
    exact rests (by rcases reader with reader | reader <;> rw [reader] <;> trivial)
  | refused reader shut => exact b.ends shut
  | call reader =>
    rw [reader] at b
    exact b.goes rfl rfl nofun
  | mark reader =>
    rw [reader] at b
    exact b.put rfl rfl rfl fun _ => rfl
  | replyLast r reader =>
    rw [reader] at b
    refine Balanced.want ?_ _
    exact b.put rfl rfl rfl nofun
  | reply r reader =>
    rw [reader] at b
    exact b.put rfl rfl rfl nofun

theorem Writing.balanced (b : Balanced capacity c.reader c.queue) (s : c.Sane)
    (h : Writing c e c' note) : Balanced capacity c'.reader c'.queue := by
  have isOpen := h.isOpen s
  cases h with
  | accept | acceptAll | flush | shutDown => exact b
  | stuck | refuse | flushFailed => exact b.close
  | takeLast writer taken => exact b.take_close taken
  | @take r ticket queue writer taken =>
    rcases b.take (isOpen nofun) taken with ⟨rfl, b⟩ | ⟨n, reader, rfl, b⟩
    · exact b
    · unfold handOver
      simp only [reader]
      exact b

theorem Step.balanced (b : Balanced capacity c.reader c.queue) (s : c.Sane)
    (h : Step c e c' note) : Balanced capacity c'.reader c'.queue := by
  cases h with
  | reading h => exact h.balanced b
  | writing h => exact h.balanced b s
  | stop => exact b
  | arrive a => cases a <;> exact b

theorem balanced_run {es : List Event} {notes : List Note}
    (b : Balanced capacity c.reader c.queue) (s : c.Sane) (h : c.run es = some (c', notes)) :
    Balanced capacity c'.reader c'.queue :=
  (run_invariant (P := fun c => Balanced capacity c.reader c.queue ∧ c.Sane)
    (fun step both => ⟨step.balanced both.1 both.2, both.2.step step⟩) ⟨b, s⟩ h).1

end Connection

end PipelinedHttp
