import PipelinedHttp.ReplyQueue

/-!
# What can be done with a reply queue

What each operation comes to, with the conditions under which it does so.  A slot that is free goes
to the first in line (`handOver_cases`), be it the slot of an entry that is taken (`take?_cases`) or
one that is given back (`giveBack_of_cons`); `request_of_open` says what becomes of whoever asks for
one.
-/

namespace PipelinedHttp.ReplyQueue
variable {τ : Type}

theorem used_of_cons {q : ReplyQueue τ} {s : Slot} {slots : List Slot} (e : q.slots = s :: slots) :
    q.used = slots.length + q.granted + 1 := by
  unfold used
  rw [e, List.length_cons]
  omega

theorem handOver_cases (q : ReplyQueue τ) :
    (q.handOver = (none, q) ∧ (q.line = [] ∨ q.capacity ≤ q.used))
      ∨ ∃ t line, q.line = t :: line ∧ q.used < q.capacity
        ∧ q.handOver = (some t, { q with granted := q.granted + 1, line }) := by
  unfold handOver
  split
  · rename_i nil
    exact .inl ⟨rfl, .inl nil⟩
  · rename_i t line cons
    split
    · rename_i free
      exact .inr ⟨t, line, cons, of_decide_eq_true free, rfl⟩
    · rename_i full
      exact .inl ⟨rfl, .inr (Nat.not_lt.mp fun free => full (decide_eq_true free))⟩

/-- whoever gets the slot that the oldest entry leaves has been the first in line -/
theorem take?_cases {q q' : ReplyQueue τ} {s : Slot} {ticket : Option τ}
    (h : q.take? = some (s, ticket, q')) :
    (∃ slots, q.slots = s :: slots ∧ ticket = none ∧ q' = { q with slots }
        ∧ (q.line = [] ∨ q.capacity ≤ slots.length + q.granted))
      ∨ ∃ slots t line, q.slots = s :: slots ∧ ticket = some t ∧ q.line = t :: line
        ∧ slots.length + q.granted < q.capacity
        ∧ q' = { q with slots, granted := q.granted + 1, line } := by
  unfold take? at h
  split at h
  · cases h
  · rename_i s' slots e
    obtain ⟨rfl, handed⟩ := Prod.mk.inj (Option.some.inj h)
    rcases handOver_cases { q with slots } with ⟨same, why⟩ | ⟨t, line, cons, free, given⟩
    · rw [same] at handed
      cases handed
      exact .inl ⟨slots, e, rfl, rfl, why⟩
    · rw [given] at handed
      cases handed
      exact .inr ⟨slots, t, line, e, rfl, cons, free, rfl⟩

theorem giveBack_of_nil {q : ReplyQueue τ} (nil : q.line = []) :
    q.giveBack = (none, { q with granted := q.granted - 1 }) := by
  unfold giveBack
  rcases handOver_cases { q with granted := q.granted - 1 } with ⟨e, -⟩ | ⟨t, line, cons, -⟩
  · exact e
  · exact absurd (nil.symm.trans cons) nofun

theorem giveBack_of_cons {q : ReplyQueue τ} {t : τ} {line : List τ} (cons : q.line = t :: line)
    (used : q.used ≤ q.capacity) (pos : 0 < q.granted) :
    q.giveBack = (some t, { q with line }) := by
  unfold giveBack
  rcases handOver_cases { q with granted := q.granted - 1 } with
    ⟨-, nil | full⟩ | ⟨t', line', cons', -, e⟩
  · exact absurd (nil.symm.trans cons) nofun
  · have full : q.capacity ≤ q.slots.length + (q.granted - 1) := full
    unfold ReplyQueue.used at used
    omega
  · obtain ⟨rfl, rfl⟩ := List.cons.inj (cons.symm.trans cons')
    refine e.trans ?_
    dsimp only
    rw [Nat.sub_add_cancel pos]

theorem take?_eq_some {q q' : ReplyQueue τ} {s : Slot} {ticket : Option τ}
    (h : q.take? = some (s, ticket, q')) :
    q.slots = s :: q'.slots ∧ q'.receiving = q.receiving := by
  rcases take?_cases h with ⟨slots, e, -, rfl, -⟩ | ⟨slots, t, line, e, -, -, -, rfl⟩
  · exact ⟨e, rfl⟩
  · exact ⟨e, rfl⟩

theorem request_of_closed {q : ReplyQueue τ} (h : q.receiving = false) (ticket : τ) :
    q.request ticket = (.closed, q) := by
  unfold request
  rw [h]
  rfl

/-- an open queue grants a slot that is free, and lets whoever finds none wait in line -/
theorem request_of_open {q : ReplyQueue τ} (h : q.receiving = true) (ticket : τ) :
    q.used < q.capacity ∧ q.request ticket = (.granted, { q with granted := q.granted + 1 })
      ∨ q.capacity ≤ q.used
        ∧ q.request ticket = (.waiting, { q with line := q.line ++ [ticket] }) := by
  unfold request hasFree
  rw [h]
  by_cases free : q.used < q.capacity
  · exact .inl ⟨free, by simp [free]⟩
  · exact .inr ⟨Nat.not_lt.mp free, by simp [free]⟩

theorem close_receiving (q : ReplyQueue τ) : q.close.receiving = false := by
  unfold close
  cases h : q.receiving with
  | false => simp only [Bool.false_eq_true, if_false, h]
  | true => rfl

theorem close_slots {q : ReplyQueue τ} (h : q.receiving = true) : q.close.slots = [] := by
  unfold close
  rw [h]
  rfl

theorem length_close_le (q : ReplyQueue τ) : q.close.slots.length ≤ q.slots.length := by
  unfold close
  split
  · exact Nat.zero_le _
  · exact Nat.le_refl _

end PipelinedHttp.ReplyQueue
