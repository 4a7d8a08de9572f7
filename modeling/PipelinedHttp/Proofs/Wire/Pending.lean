import PipelinedHttp.Proofs.Lists
import PipelinedHttp.Proofs.Wire.Limits

/-!
# Heads that are held

A decoder is idle, or it holds a head whose body is awaited.  Which of the two it is can be read off the
turns that it has taken: a head is held from the turn that cuts it off to the one that gives its request
out.

* `Decoder.Effect.pending_iff`   what a turn leaves to be held: the head that it has cut off, or the one
                                 that was held before, if the turn wants more octets;
* `Decoder.Effect.of_pending`    a turn of a decoder that holds a head wants more octets or gives the
                                 request out;
* `Session.pending_iff`          so the decoder of a session holds the head that was cut off last, if
                                 every turn since then has wanted more octets.
-/

namespace PipelinedHttp.Wire
variable {d after : Decoder} {taken rest : Bytes} {outcome : Outcome} {said : Request} {n : Nat}

theorem Heading.Says.unique {g g' : Heading} {said' : Request} {n' : Nat} (h : g.Says said n)
    (h' : g'.Says said' n') (same : g.opening = g'.opening) : said = said' ∧ n = n' := by
  have head : g.head = g'.head := by
    have read := g.read
    rw [same, g'.read] at read
    exact (Scan.done.inj read).1.symm
  have target := h.target
  rw [head, h'.target] at target
  cases target
  have length := h.length
  rw [h'.length] at length
  cases length
  exact ⟨rfl, rfl⟩

/-! ## what one turn does -/

namespace Decoder

/-- the turn cuts a head off, and not all of the body that it announces is there -/
structure Opens (d : Decoder) (taken : Bytes) (outcome : Outcome) (said : Request) (n : Nat) : Prop where
  idle : d.idle = true
  more : outcome = .more
  head : ∃ l : Spelling, taken = l.octets ∧ l.heading.Says said n
  pos : 0 < n
  length : said.headers.Reads n

theorem not_opens_nil : ¬ d.Opens [] outcome said n := by
  intro opens
  obtain ⟨l, nil, -⟩ := opens.head
  have least : minHead ≤ l.octets.length := l.heading.minHead_le
  rw [← nil] at least
  exact absurd least (by decide)

theorem Effect.pending_iff (h : d.Effect taken rest outcome after) :
    after.pending = some (said, n)
      ↔ d.Opens taken outcome said n ∨ d.pending = some (said, n) ∧ outcome = .more := by
  have absent (idle : d.pending = none) : d.pending ≠ some (said, n) := by
    rw [idle]
    exact nofun
  have decided (other : outcome ≠ .more) : ¬ (d.Opens taken outcome said n
      ∨ d.pending = some (said, n) ∧ outcome = .more) := by
    rintro (opens | ⟨-, more⟩)
    · exact other opens.more
    · exact other more
  cases h with
  | short | waiting =>
    rw [or_iff_right not_opens_nil, and_iff_left rfl]
  | @opened g said' n' _ idle sound fits lack =>
    rw [or_iff_left fun held => absent idle held.1]
    constructor
    · rintro ⟨⟩
      have pos : 0 < n := Nat.zero_lt_of_lt lack
      obtain ⟨l, octets, spelt⟩ := sound.exists_spelling
      exact ⟨idle_iff.mpr idle, rfl, ⟨l, octets.symm, spelt⟩, pos, reads_of_bodyLength sound.length pos⟩
    · intro opens
      -- the octets that have been taken are those of both heads
      obtain ⟨l, octets, spelt⟩ := opens.head
      obtain ⟨rfl, rfl⟩ := sound.unique spelt octets
      rfl
  | whole idle | barred idle | refused idle => exact iff_of_false (absent idle) (decided nofun)
  | filled => exact iff_of_false nofun (decided nofun)

/-- a decoder that holds a head takes nothing and holds it further, or takes the body and gives the
request out -/
theorem Effect.of_pending (h : d.Effect taken rest outcome after)
    (pending : d.pending = some (said, n)) :
    taken = [] ∧ outcome = .more ∧ after = d
      ∨ taken.length = n ∧ outcome = .request (said.withBody taken) ∧ after.idle = true := by
  cases h with
  | short idle | opened idle | whole idle | barred idle | refused idle =>
    cases pending.symm.trans idle
  | waiting => exact .inl ⟨rfl, rfl, rfl⟩
  | filled held =>
    cases pending.symm.trans held
    exact .inr ⟨rfl, rfl, rfl⟩

end Decoder

/-! ## turn after turn -/

/-- the turn cuts off a head that is then held -/
def Pass.Opens (p : Pass) (said : Request) (n : Nat) : Prop :=
  p.decoder.Opens p.taken p.turn.outcome said n

/-- the turn leaves the head that is held, or gives its request out -/
def Pass.Continues (p : Pass) (said : Request) (n : Nat) : Prop :=
  p.taken = [] ∧ p.turn.outcome = .more ∧ p.turn.decoder = p.decoder
    ∨ p.taken.length = n ∧ p.turn.outcome = .request (said.withBody p.taken)
      ∧ p.turn.decoder.idle = true

theorem Pass.continues (p : Pass) (pending : p.decoder.pending = some (said, n)) :
    p.Continues said n :=
  (p.decoder.effect_decode p.buffer).2.of_pending pending

namespace Session
variable {s : Session}

/-- a head has been cut off, and every turn since then has wanted more octets -/
def Awaits (s : Session) (said : Request) (n : Nat) : Prop :=
  ∃ before p after, s.passes = before ++ p :: after ∧ p.Opens said n
    ∧ ∀ q ∈ after, q.turn.outcome = .more

theorem awaits_turn : (s.use .turn).Awaits said n
    ↔ s.pass.Opens said n ∨ s.Awaits said n ∧ s.pass.turn.outcome = .more := by
  refine exists_split_concat.trans ?_
  constructor
  · rintro (⟨before, p, after, split, opens, more⟩ | ⟨opens, -⟩)
    · obtain ⟨since, last⟩ := List.forall_mem_append.mp more
      exact .inr ⟨⟨before, p, after, split, opens, since⟩, last _ (List.mem_singleton_self _)⟩
    · exact .inl opens
  · rintro (opens | ⟨⟨before, p, after, split, opens, since⟩, last⟩)
    · exact .inr ⟨opens, nofun⟩
    · refine .inl ⟨before, p, after, split, opens, List.forall_mem_append.mpr ⟨since, ?_⟩⟩
      exact List.forall_mem_singleton.mpr last

/-- the turns tell what the decoder holds -/
def Told (s : Session) : Prop :=
  ∀ said n, s.decoder.pending = some (said, n) ↔ s.Awaits said n

theorem told_ofMaxBody (maxBody : Nat) : (ofMaxBody maxBody).Told := by
  intro said n
  refine iff_of_false nofun ?_
  rintro ⟨before, p, after, split, -⟩
  exact absurd split.symm (List.append_ne_nil_of_right_ne_nil _ (List.cons_ne_nil _ _))

theorem Told.use (told : s.Told) (u : Use) : (s.use u).Told := by
  intro said n
  cases u with
  | feed piece => exact told said n
  | turn =>
    rw [awaits_turn, ← told said n]
    exact s.effect_pass.pending_iff

/-- whatever is fed and however often the decoder is turned, its turns tell what it holds -/
theorem pending_iff (maxBody : Nat) (uses : List Use) (said : Request) (n : Nat) :
    ((ofMaxBody maxBody).run uses).decoder.pending = some (said, n)
      ↔ ((ofMaxBody maxBody).run uses).Awaits said n := by
  have told : ((ofMaxBody maxBody).run uses).Told :=
    List.foldlRecOn uses use (told_ofMaxBody maxBody) fun _ told u _ => told.use u
  exact told said n

end Session

end PipelinedHttp.Wire
