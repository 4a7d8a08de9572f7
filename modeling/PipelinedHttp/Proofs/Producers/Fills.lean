import PipelinedHttp.Proofs.Producers.Actions

/-!
# What an action puts into the queue

A producer has completed when its entry is in the queue.  In one action at most one producer completes,
since an action moves one slot at most, and its entry becomes the last one of the queue (`Fills`).  The
entry is one that the producer had when the action began, or got by it.

* `fills_settle`   whoever is handed a slot fills it, keeps it, or passes it on;
* `fills_grant`    so it is with the first in line;
* `moved_act`      and so it is with every action, which may take the first entry away before.
-/

namespace PipelinedHttp

namespace Progress

/-- the entry that a producer has put -/
def put? : Progress → Option Slot
  | .pushed s => some s
  | _ => none

/-- the entry that a producer has put, or is to put as soon as it has a slot -/
def offer? : Progress → Option Slot
  | .pushed s | .waiting (some (.fill s)) => some s
  | _ => none

end Progress

namespace Producers
variable {p q p' : Producers} {given : Nat → Slot → Prop} {fuel i j t : Nat} {s : Slot}
  {old g : Progress} {order next : Option Order} {queue : ReplyQueue Nat} {m : Producer}
  {new : List (Nat × Slot)}

def put? (p : Producers) (i : Nat) : Option Slot := (p.progress? i).bind Progress.put?

def offer? (p : Producers) (i : Nat) : Option Slot := (p.progress? i).bind Progress.offer?

/-- which of the producers reserve their slots -/
def kinds (p : Producers) : List Bool := p.members.map Producer.reserves

theorem put?_eq_some_iff : p.put? i = some s ↔ p.progress? i = some (.pushed s) := by
  unfold put?
  cases p.progress? i with
  | none => simp
  | some g => cases g <;> simp [Progress.put?]

theorem put?_of_progress (there : p.progress? i = some g) : p.put? i = g.put? := by
  simp [put?, there]

theorem offer?_of_progress (there : p.progress? i = some g) : p.offer? i = g.offer? := by
  simp [offer?, there]

theorem put?_eq_none (absent : p.progress? i = none) : p.put? i = none := by
  simp [put?, absent]

theorem granted_of_put (h : p.put? i = some s) : p.Granted i :=
  ⟨.pushed s, put?_eq_some_iff.mp h, trivial⟩

theorem offer?_of_put (h : p.put? i = some s) : p.offer? i = some s := by
  rw [offer?_of_progress (put?_eq_some_iff.mp h)]
  rfl

/-! ## changes of a single producer -/

theorem put?_setProgress_of_ne (ne : j ≠ i) : (p.setProgress i g).put? j = p.put? j := by
  unfold put?
  rw [progress?_setProgress_of_ne p ne]

theorem offer?_setProgress_of_ne (ne : j ≠ i) : (p.setProgress i g).offer? j = p.offer? j := by
  unfold offer?
  rw [progress?_setProgress_of_ne p ne]

theorem kinds_setProgress (p : Producers) (i : Nat) (g : Progress) :
    (p.setProgress i g).kinds = p.kinds := by
  apply List.ext_getElem?
  intro j
  show ((p.setProgress i g).members.map Producer.reserves)[j]? = (p.members.map _)[j]?
  rw [List.getElem?_map, List.getElem?_map, getElem?_setProgress, Option.map_map]
  apply Option.map_congr
  intro m _
  show (if i = j then _ else m).reserves = m.reserves
  split <;> rfl

/-- the entries that are put go to the end of the queue, one of them at most -/
structure Fills (given : Nat → Slot → Prop) (p p' : Producers) (new : List (Nat × Slot)) :
    Prop where
  slots : p'.queue.slots = p.queue.slots ++ new.map Prod.snd
  one : new.length ≤ 1
  put : ∀ j s, p'.put? j = some s ↔ p.put? j = some s ∨ (j, s) ∈ new
  fresh : ∀ e ∈ new, p.put? e.1 = none
  /-- no one puts anything but what it has had, or has been given -/
  entry : ∀ j s, p'.offer? j = some s → p.offer? j = some s ∨ given j s
  /-- no one who has been there begins to wait -/
  waits : ∀ j, p'.Waits j → p.Waits j
  kinds : p'.kinds = p.kinds
  sending : p'.sending = p.sending
  receiving : p'.queue.receiving = p.queue.receiving

/-- nothing is put by a change of the queue alone -/
theorem fills_queue (slots : queue.slots = p.queue.slots)
    (receiving : queue.receiving = p.queue.receiving) : Fills given p { p with queue } [] where
  slots := by simp [slots]
  one := Nat.zero_le 1
  put j s := by simp [put?, progress?]
  fresh := nofun
  entry _ _ h := .inl h
  waits _ h := h
  kinds := rfl
  sending := rfl
  receiving := receiving

/-- what is done later is done in the same way from the start -/
theorem Fills.after (first : Fills given p q []) (h : Fills given q p' new) :
    Fills given p p' new where
  slots := by rw [h.slots, first.slots]; simp
  one := h.one
  put j s := by rw [h.put, first.put]; simp
  fresh e he := by
    have none := h.fresh e he
    rw [Option.eq_none_iff_forall_ne_some] at none ⊢
    intro s put
    exact none s ((first.put e.1 s).mpr (.inl put))
  entry j s has := by
    rcases h.entry j s has with before | now
    · exact first.entry j s before
    · exact .inr now
  waits j waiting := first.waits j (h.waits j waiting)
  kinds := h.kinds.trans first.kinds
  sending := h.sending.trans first.sending
  receiving := h.receiving.trans first.receiving

theorem Fills.mono {given' : Nat → Slot → Prop} (h : Fills given p p' new)
    (le : ∀ j s, given j s → p.offer? j = some s ∨ given' j s) : Fills given' p p' new := by
  refine { h with entry := ?_ }
  intro j s has
  rcases h.entry j s has with before | now
  · exact .inl before
  · exact le j s now

theorem fills_setProgress (there : p.progress? i = some old) (before : old.put? = none)
    (now : g.put? = none) (moves : ∀ order, g = .waiting order → p.Waits i)
    (entry : ∀ s, g.offer? = some s → given i s) : Fills given p (p.setProgress i g) [] := by
  have mine := progress?_setProgress there g
  refine ⟨by simp [setProgress], Nat.zero_le 1, ?_, nofun, ?_, ?_, kinds_setProgress p i g, rfl, rfl⟩
  · intro j s
    by_cases own : j = i
    · subst own
      simp [put?_of_progress mine, put?_of_progress there, before, now]
    · simp [put?_setProgress_of_ne own]
  · intro j s has
    by_cases own : j = i
    · subst own
      rw [offer?_of_progress mine] at has
      exact .inr (entry s has)
    · exact .inl ((offer?_setProgress_of_ne own).symm.trans has)
  · intro j
    by_cases own : j = i
    · subst own
      rintro ⟨order, waiting⟩
      cases mine.symm.trans waiting
      exact moves order rfl
    · unfold Waits
      rw [progress?_setProgress_of_ne p own]
      exact id

theorem fills_put (there : p.progress? i = some old) (before : old.put? = none)
    (entry : given i s) :
    Fills given p (setProgress { p with queue := p.queue.put s } i (.pushed s)) [(i, s)] := by
  have there' : Producers.progress? { p with queue := p.queue.put s } i = some old := there
  have mine := progress?_setProgress there' (.pushed s)
  refine ⟨rfl, Nat.le_refl 1, ?_, ?_, ?_, ?_, kinds_setProgress _ i _, rfl, rfl⟩
  · intro j s'
    by_cases own : j = i
    · subst own
      rw [put?_of_progress mine, put?_of_progress there, before]
      simp [Progress.put?, eq_comm]
    · rw [put?_setProgress_of_ne own]
      simp [put?, progress?, own]
  · intro e he
    cases List.mem_singleton.mp he
    rw [put?_of_progress there, before]
  · intro j s' has
    by_cases own : j = i
    · subst own
      rw [offer?_of_progress mine] at has
      cases has
      exact .inr entry
    · exact .inl ((offer?_setProgress_of_ne own).symm.trans has)
  · intro j waits
    have moves : ∀ order, Progress.pushed s ≠ .waiting order := nofun
    exact ((waits_setProgress moves).mp waits).2

/-! ## a slot that is handed on -/

theorem giveBack_kept (q : ReplyQueue Nat) :
    q.giveBack.2.slots = q.slots ∧ q.giveBack.2.receiving = q.receiving := by
  unfold ReplyQueue.giveBack ReplyQueue.handOver
  split
  · exact ⟨rfl, rfl⟩
  · split <;> exact ⟨rfl, rfl⟩

/-- a slot that is given back is free, or the first in line carries out its order -/
theorem settle_giveBack_cases (p : Producers) (fuel i : Nat) :
    ∃ queue : ReplyQueue Nat,
      (queue.slots = p.queue.slots ∧ queue.receiving = p.queue.receiving)
      ∧ (p.settle fuel i (some .giveBack) = { p.setProgress i .dropped with queue }
        ∨ ∃ fuel' t next, fuel = fuel' + 1
          ∧ (p.setProgress i .dropped).progress? t = some (.waiting next)
          ∧ p.settle fuel i (some .giveBack)
            = settle fuel' { p.setProgress i .dropped with queue } t next) := by
  refine ⟨(p.setProgress i .dropped).queue.giveBack.2, giveBack_kept p.queue, ?_⟩
  cases back : (p.setProgress i .dropped).queue.giveBack with
  | mk ticket queue =>
    cases fuel with
    | zero =>
      left
      rw [settle]
      simp only [back]
      cases ticket <;> rfl
    | succ fuel =>
      rw [settle]
      simp only [back]
      cases ticket with
      | none => exact .inl rfl
      | some t =>
        cases there : (p.setProgress i .dropped).progress? t with
        | none => exact .inl (by simp only [there])
        | some g =>
          cases g with
          | waiting order => exact .inr ⟨fuel, t, order, rfl, there, by simp only [there]⟩
          | reserved | pushed | dropped | refused | cancelled =>
            exact .inl (by simp only [there])

/-- whoever is handed a slot fills it, keeps it, or passes it on -/
theorem fills_settle (fuel : Nat) (there : p.progress? i = some old) (before : old.put? = none)
    (order : Option Order) :
    ∃ new, Fills (fun j s => j = i ∧ order = some (.fill s)) p (p.settle fuel i order) new := by
  -- whoever gives its slot back takes one turn
  induction fuel using Nat.strongRecOn generalizing p i old order with
  | ind fuel ih =>
    match order with
    | none =>
      rw [settle_none]
      exact ⟨[], fills_setProgress there before rfl nofun nofun⟩
    | some (.fill s) =>
      rw [settle_fill]
      exact ⟨[(i, s)], fills_put there before ⟨rfl, rfl⟩⟩
    | some .giveBack =>
      obtain ⟨queue, ⟨slots, receiving⟩, settled⟩ := settle_giveBack_cases p fuel i
      have dropped {given : Nat → Slot → Prop} :
          Fills given p { p.setProgress i .dropped with queue } [] := by
        have first : Fills given p (p.setProgress i .dropped) [] :=
          fills_setProgress there before rfl nofun nofun
        exact first.after (fills_queue slots receiving)
      rcases settled with e | ⟨fuel', t, next, rfl, waiting, e⟩
      · rw [e]
        exact ⟨[], dropped⟩
      · obtain ⟨new, h⟩ := ih fuel' (Nat.lt_succ_self fuel')
          (p := { p.setProgress i .dropped with queue }) waiting rfl next
        rw [e]
        refine ⟨new, dropped.after (h.mono ?_)⟩
        rintro j s ⟨rfl, rfl⟩
        exact .inl (offer?_of_progress waiting)

theorem fills_grant (given : Nat → Slot → Prop) (p : Producers) (ticket : Option Nat) :
    ∃ new, Fills given p (p.grant ticket) new := by
  unfold grant
  split
  · exact ⟨[], fills_queue rfl rfl⟩
  · split
    · rename_i t order waiting
      obtain ⟨new, h⟩ := fills_settle p.members.length waiting rfl order
      refine ⟨new, h.mono ?_⟩
      rintro j s ⟨rfl, rfl⟩
      exact .inl (offer?_of_progress waiting)
    · exact ⟨[], fills_queue rfl rfl⟩

/-! ## every action -/

/-- what the producer has that an action begins: an entry if it pushes, none if it reserves -/
def Action.begins? : Action → Option (Option Slot)
  | .push s => some (some s)
  | .reserve => some none
  | _ => none

/-- the action gives a producer an entry -/
def Action.Gives (p : Producers) : Action → Nat → Slot → Prop
  | .push s, j, s' => p.sending = true ∧ j = p.members.length ∧ s' = s
  | .order i (.fill s), j, s' => j = i ∧ s' = s ∧ p.kinds[i]? = some true
  | _, _, _ => False

/-- what the action takes off the front of the queue -/
def Action.takes (p : Producers) : Action → List Slot
  | .receive => p.queue.slots.take 1
  | _ => []

def Action.endsSender : Action → Bool
  | .closeSender => true
  | _ => false

/-- what an action moves through the queue, as long as there is a receiver -/
structure Moved (p : Producers) (a : Action) (p' : Producers) (new : List (Nat × Slot)) : Prop where
  slots : a.takes p ++ p'.queue.slots = p.queue.slots ++ new.map Prod.snd
  one : new.length ≤ 1
  put : ∀ j s, p'.put? j = some s ↔ p.put? j = some s ∨ (j, s) ∈ new
  fresh : ∀ e ∈ new, p.put? e.1 = none
  entry : ∀ j s, p'.offer? j = some s → p.offer? j = some s ∨ a.Gives p j s
  waits : ∀ j, p'.Waits j → p.Waits j ∨ j = p.members.length
  kinds : p'.kinds = p.kinds
    ++ if p.sending = true then (a.begins?.map Option.isNone).toList else []
  sending : p'.sending = (p.sending && !a.endsSender)
  receiving : p'.queue.receiving = p.queue.receiving

variable {a : Action}

theorem Fills.moved (h : Fills (a.Gives p) p p' new) (takes : a.takes p = [])
    (begins : a.begins? = none) (stays : a.endsSender = false) : Moved p a p' new where
  slots := by rw [takes, List.nil_append, h.slots]
  one := h.one
  put := h.put
  fresh := h.fresh
  entry := h.entry
  waits j waiting := .inl (h.waits j waiting)
  kinds := by simp [h.kinds, begins]
  sending := by simp [h.sending, stays]
  receiving := h.receiving

/-! ### those who begin -/

theorem put?_enter (queue : ReplyQueue Nat) (none : m.progress.put? = none) (j : Nat) :
    (p.enter queue m).put? j = p.put? j := by
  by_cases last : j = p.members.length
  · subst last
    rw [put?_of_progress (progress?_enter_last p queue m), none, put?_eq_none]
    simp [progress?]
  · unfold put?
    rw [progress?_enter_of_ne last]

theorem offer?_enter (has : (p.enter queue m).offer? j = some s) :
    p.offer? j = some s ∨ j = p.members.length ∧ m.progress.offer? = some s := by
  by_cases last : j = p.members.length
  · subst last
    rw [offer?_of_progress (progress?_enter_last p queue m)] at has
    exact .inr ⟨rfl, has⟩
  · unfold offer? at has ⊢
    rw [progress?_enter_of_ne last] at has
    exact .inl has

theorem kinds_enter (p : Producers) (queue : ReplyQueue Nat) (m : Producer) :
    (p.enter queue m).kinds = p.kinds ++ [m.reserves] := by
  simp [kinds, enter]

/-- a producer that begins, and what is done with its slot if it gets one -/
theorem Fills.moved_enter (h : Fills given (p.enter queue m) p' new)
    (slots : queue.slots = p.queue.slots) (receiving : queue.receiving = p.queue.receiving)
    (none : m.progress.put? = none) (sending : p.sending = true) (takes : a.takes p = [])
    (begins : a.begins?.map Option.isNone = some m.reserves) (stays : a.endsSender = false)
    (gives : ∀ s, m.progress.offer? = some s → a.Gives p p.members.length s)
    (given : ∀ j s, ¬ given j s) : Moved p a p' new where
  slots := by
    rw [takes, List.nil_append, h.slots]
    show queue.slots ++ _ = _
    rw [slots]
  one := h.one
  put j s := by rw [h.put, put?_enter queue none]
  fresh e he := by
    rw [← put?_enter queue none]
    exact h.fresh e he
  entry j s has := by
    have before := (h.entry j s has).resolve_right (given j s)
    rcases offer?_enter before with before | ⟨rfl, own⟩
    · exact .inl before
    · exact .inr (gives s own)
  waits j waiting := by
    by_cases last : j = p.members.length
    · exact .inr last
    · exact .inl ((waits_enter_of_ne last).mp (h.waits j waiting))
  kinds := by rw [h.kinds, kinds_enter, if_pos sending, begins]; rfl
  sending := by
    rw [h.sending, stays]
    show p.sending = _
    simp
  receiving := h.receiving.trans receiving

theorem request_kept {answer : Answer} (e : p.queue.request t = (answer, queue)) :
    queue.slots = p.queue.slots ∧ queue.receiving = p.queue.receiving := by
  unfold ReplyQueue.request at e
  split at e
  · cases e
    exact ⟨rfl, rfl⟩
  · split at e <;> cases e <;> exact ⟨rfl, rfl⟩

theorem moved_same (takes : a.takes p = []) (begins : p.sending = true → a.begins? = none)
    (stays : p.sending = true → a.endsSender = false) : Moved p a p [] where
  slots := by simp [takes]
  one := Nat.zero_le 1
  put := by simp
  fresh := nofun
  entry _ _ h := .inl h
  waits _ h := .inl h
  kinds := by
    split
    · rename_i sending
      simp [begins sending]
    · simp
  sending := by
    cases sending : p.sending with
    | false => rfl
    | true => simp [stays sending]
  receiving := rfl

theorem moved_start {reserves : Bool} (takes : a.takes p = [])
    (begins : a.begins?.map Option.isNone = some reserves) (stays : a.endsSender = false)
    (gives : p.sending = true → ∀ s, (Progress.waiting order).offer? = some s →
      a.Gives p p.members.length s) : ∃ new, Moved p a (p.start reserves order) new := by
  have nothing : ∀ (j : Nat) (s : Slot), ¬ (fun _ _ => False : Nat → Slot → Prop) j s :=
    fun _ _ => id
  unfold start
  dsimp only
  split
  · rename_i off
    have off : p.sending = false := Bool.not_eq_true' _ ▸ off
    exact ⟨[], moved_same takes (fun on => absurd (off.symm.trans on) nofun) fun _ => stays⟩
  · rename_i on
    have on : p.sending = true := by simpa using on
    split
    · have h : Fills (fun _ _ => False) (p.enter p.queue ⟨reserves, .refused⟩) _ [] :=
        fills_queue rfl rfl
      exact ⟨[], h.moved_enter rfl rfl rfl on takes begins stays nofun nothing⟩
    · rename_i queue request
      obtain ⟨slots, receiving⟩ := request_kept request
      have h : Fills (fun _ _ => False) (p.enter queue ⟨reserves, .waiting order⟩) _ [] :=
        fills_queue rfl rfl
      exact ⟨[], h.moved_enter slots receiving rfl on takes begins stays (gives on) nothing⟩
    · rename_i queue request
      obtain ⟨slots, receiving⟩ := request_kept request
      obtain ⟨new, h⟩ := fills_grant (fun _ _ => False)
        (p.enter queue ⟨reserves, .waiting order⟩) (some p.members.length)
      exact ⟨new, h.moved_enter slots receiving rfl on takes begins stays (gives on) nothing⟩

/-! ### those who are there -/

theorem kinds_getElem? (here : p.members[i]? = some m) : p.kinds[i]? = some m.reserves := by
  simp [kinds, here]

theorem moved_order (p : Producers) (i : Nat) (o : Order) :
    ∃ new, Moved p (.order i o) (p.order i o) new := by
  have gives (here : ∃ g, p.members[i]? = some ⟨true, g⟩) (j : Nat) (s : Slot)
      (given : j = i ∧ o = .fill s) : Action.Gives p (.order i o) j s := by
    obtain ⟨rfl, rfl⟩ := given
    obtain ⟨g, here⟩ := here
    exact ⟨rfl, rfl, kinds_getElem? here⟩
  unfold order
  split
  · rename_i before here
    have there := congrArg (Option.map Producer.progress) here
    have h : Fills (Action.Gives p (.order i o)) p (p.setProgress i (.waiting (some o))) [] := by
      refine fills_setProgress there rfl rfl (fun _ _ => ⟨before, there⟩) ?_
      intro s has
      apply gives ⟨_, here⟩
      refine ⟨rfl, ?_⟩
      cases o with
      | fill s' =>
        cases has
        rfl
      | giveBack => cases has
    exact ⟨[], h.moved rfl rfl rfl⟩
  · rename_i here
    have there := congrArg (Option.map Producer.progress) here
    obtain ⟨new, h⟩ := fills_settle p.members.length there rfl (some o)
    have h : Fills (Action.Gives p (.order i o)) p _ new := h.mono fun j s given =>
      .inr (gives ⟨_, here⟩ j s ⟨given.1, Option.some.inj given.2⟩)
    exact ⟨new, h.moved rfl rfl rfl⟩
  · exact ⟨[], moved_same rfl (fun _ => rfl) fun _ => rfl⟩

theorem moved_cancel (p : Producers) (i : Nat) : ∃ new, Moved p (.cancel i) (p.cancel i) new := by
  have leaves {queue : ReplyQueue Nat} {old : Progress} (there : p.progress? i = some old)
      (before : old.put? = none) (kept : queue.slots = p.queue.slots
        ∧ queue.receiving = p.queue.receiving) : Fills (Action.Gives p (.cancel i)) p
          (setProgress { p with queue } i .cancelled) [] := by
    have first : Fills (Action.Gives p (.cancel i)) p { p with queue } [] :=
      fills_queue kept.1 kept.2
    have there : Producers.progress? { p with queue } i = some old := there
    exact first.after (fills_setProgress there before rfl nofun nofun)
  unfold cancel
  split
  · rename_i order there
    have kept : (p.queue.withdraw i).slots = p.queue.slots
        ∧ (p.queue.withdraw i).receiving = p.queue.receiving := ⟨rfl, rfl⟩
    exact ⟨[], (leaves there rfl kept).moved rfl rfl rfl⟩
  · rename_i there
    obtain ⟨new, h⟩ := fills_grant (Action.Gives p (.cancel i))
      (setProgress { p with queue := p.queue.giveBack.2 } i .cancelled) p.queue.giveBack.1
    exact ⟨new, ((leaves there rfl (giveBack_kept p.queue)).after h).moved rfl rfl rfl⟩
  · exact ⟨[], moved_same rfl (fun _ => rfl) fun _ => rfl⟩

/-! ### the two sides -/

theorem take?_eq_none {q : ReplyQueue Nat} (none : q.take? = .none) : q.slots = [] := by
  unfold ReplyQueue.take? at none
  split at none
  · assumption
  · exact nomatch none

theorem moved_receive (open_ : p.queue.receiving = true) :
    ∃ new, Moved p .receive p.receive.2 new := by
  unfold receive
  simp only [open_, Bool.not_true, Bool.false_eq_true, if_false]
  split
  · rename_i s ticket q' taken
    obtain ⟨slots, receiving⟩ := ReplyQueue.take?_eq_some taken
    obtain ⟨new, h⟩ := fills_grant (Action.Gives p .receive) { p with queue := q' } ticket
    refine ⟨new, ?_, h.one, h.put, h.fresh, h.entry, fun j w => .inl (h.waits j w), ?_, ?_,
      h.receiving.trans receiving⟩
    · show p.queue.slots.take 1 ++ _ = _
      rw [h.slots, slots]
      rfl
    · rw [h.kinds]
      simp [Action.begins?, kinds]
    · rw [h.sending]
      simp [Action.endsSender]
  · rename_i none
    refine ⟨[], moved_same ?_ (fun _ => rfl) fun _ => rfl⟩
    show p.queue.slots.take 1 = []
    rw [take?_eq_none none]
    rfl

theorem moved_closeSender (p : Producers) : Moved p .closeSender p.closeSender [] := by
  rw [closeSender_eq]
  refine ⟨by simp [Action.takes], Nat.zero_le 1, ?_, nofun, ?_, ?_, ?_, by simp [Action.endsSender],
    rfl⟩
  · intro j s
    unfold put?
    rw [progress?_become]
    cases p.progress? j with
    | none => simp
    | some g => cases g <;> simp [Progress.withoutSender, Progress.put?]
  · intro j s has
    left
    unfold offer? at has ⊢
    rw [progress?_become] at has
    cases there : p.progress? j with
    | none => simp [there] at has
    | some g => cases g <;> simp_all [Progress.withoutSender, Progress.offer?]
  · intro j waits
    refine absurd waits (not_waits_become fun g order => ?_)
    cases g <;> exact nofun
  · simp [kinds, become, Action.begins?, Function.comp_def]

/-- every action puts one entry at most, and at the end of the queue -/
theorem moved_act (open_ : p.queue.receiving = true) (stays : a ≠ .closeReceiver) :
    ∃ new, Moved p a (p.act a) new := by
  cases a with
  | push s =>
    apply moved_start rfl rfl rfl
    intro sending s' has
    cases has
    exact ⟨sending, rfl, rfl⟩
  | reserve =>
    apply moved_start rfl rfl rfl
    intro _ s has
    cases has
  | order i o => exact moved_order p i o
  | cancel i => exact moved_cancel p i
  | closeSender => exact ⟨[], moved_closeSender p⟩
  | receive => exact moved_receive open_
  | closeReceiver => exact absurd rfl stays

end Producers

end PipelinedHttp
