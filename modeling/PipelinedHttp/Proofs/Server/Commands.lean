import PipelinedHttp.Proofs.Server.History

/-!
# Commands are histories

Whatever a command does to a server, it does one move after the other: turns of the two loops are
events of a connection, and what they do besides makes no difference to the others.  So what holds
after all histories holds after all commands (`reaches_connect`, `reaches_arrive`, `reaches_setSink`,
`reaches_release`, `reaches_abort`, `reaches_stop`).
-/

namespace PipelinedHttp.Server
variable {κ : Type} {s m s' : Server κ}

/-- a history leads from one server to the other -/
def Reaches (s s' : Server κ) : Prop := ∃ t, History s t s'

theorem Reaches.refl (s : Server κ) : Reaches s s := ⟨_, .refl⟩

theorem Reaches.trans (h : Reaches s m) (g : Reaches m s') : Reaches s s' := by
  obtain ⟨t, h⟩ := h
  obtain ⟨u, g⟩ := g
  exact ⟨_, h.trans g⟩

theorem Move.reaches {t : Trace} (h : Move s t s') : Reaches s s' := ⟨_, .move .refl h⟩

theorem reaches_foldl {α : Type} {f : Server κ → α → Server κ} (h : ∀ s a, Reaches s (f s a))
    (as : List α) (s : Server κ) : Reaches s (as.foldl f s) := by
  induction as generalizing s with
  | nil => exact .refl s
  | cons a as ih => exact (h s a).trans (ih (f s a))

/-! ## what happens besides -/

theorem Beside.refl (s : Server κ) : Beside s s := ⟨rfl, rfl, rfl, rfl, rfl⟩

theorem Beside.trans (h : Beside s m) (g : Beside m s') : Beside s s' where
  settings := g.settings.trans h.settings
  date := g.date.trans h.date
  registry := g.registry.trans h.registry
  stopping := g.stopping.trans h.stopping
  links := g.links.trans h.links

theorem Beside.reaches (h : Beside s s') : Reaches s s' := (Move.beside h).reaches

/-- a change of a link that keeps its core -/
theorem beside_modifyLink (s : Server κ) (i : Nat) {f : Link → Link}
    (h : ∀ l, (f l).core = l.core) : Beside s (s.modifyLink i f) := by
  refine ⟨rfl, rfl, rfl, rfl, List.ext_getElem? fun j => ?_⟩
  show ((s.links.modify i f).map Link.core)[j]? = _
  rw [List.getElem?_map, List.getElem?_map, List.getElem?_modify]
  cases s.links[j]? with
  | none => rfl
  | some l =>
    by_cases here : i = j
    · simp [here, h]
    · simp [here]

theorem beside_call (s : Server κ) (i : Nat) (request : Request) : Beside s (s.call i request) := by
  -- the log, the gate and the work of the handler, whichever of them are touched
  have worked (s : Server κ) (work : Work) (calls : List (Call κ)) (gate : Gate) :
      Beside s (modifyLink { s with calls, gate } i fun l => { l with work }) := by
    have changed : Beside s { s with calls, gate } := ⟨rfl, rfl, rfl, rfl, rfl⟩
    refine changed.trans ?_
    exact beside_modifyLink _ i fun _ => rfl
  unfold call
  dsimp only
  cases (s.service request.path request).who <;> dsimp only <;> split
  · exact worked s _ s.calls s.gate
  · split <;> exact worked s _ s.calls _
  · exact worked s _ _ s.gate
  · split <;> exact worked s _ _ _

/-! ## turns -/

theorem reaches_step? {i : Nat} {e : Event} (h : s.step? i e = some s') : Reaches s s' :=
  (Move.event h).reaches

theorem reaches_step (s : Server κ) (i : Nat) (e : Event) : Reaches s (s.step i e) := by
  unfold step
  cases h : s.step? i e with
  | none => exact .refl s
  | some s' => exact reaches_step? h

theorem reaches_readTurn {i : Nat} (h : s.readTurn i = some s') : Reaches s s' := by
  unfold readTurn at h
  split at h
  · cases h
  · split at h
    · refine (Beside.reaches ?_).trans (reaches_step? h)
      exact beside_modifyLink s i fun _ => rfl
    · cases h
    · obtain ⟨m, step, rfl⟩ := Option.map_eq_some_iff.mp h
      refine (reaches_step? step).trans ?_
      split
      · exact (beside_call m i _).reaches
      · exact .refl m
    · exact reaches_step? h

theorem reaches_writeTurn {i : Nat} (h : s.writeTurn i = some s') : Reaches s s' := by
  unfold writeTurn at h
  split at h
  · cases h
  · split at h
    · cases h
    · refine (Beside.reaches ?_).trans (reaches_step? h)
      exact beside_modifyLink s i fun _ => rfl

theorem reaches_repeatTurn {turn : Server κ → Option (Server κ)}
    (h : ∀ s s', turn s = some s' → Reaches s s') (n : Nat) (s : Server κ) :
    Reaches s (repeatTurn turn n s) := by
  induction n generalizing s with
  | zero => exact .refl s
  | succ n ih =>
    unfold repeatTurn
    split
    · exact .refl s
    · rename_i m step
      exact (h s m step).trans (ih m)

theorem reaches_alternate (i n : Nat) (s : Server κ) : Reaches s (alternate i n s) := by
  induction n generalizing s with
  | zero => exact .refl s
  | succ n ih =>
    have read := reaches_repeatTurn (fun _ _ => reaches_readTurn (i := i)) (s.bound i readBound) s
    have write (s : Server κ) := reaches_repeatTurn (fun _ _ => reaches_writeTurn (i := i))
      (s.bound i writeBound) s
    unfold alternate
    dsimp only
    split
    · exact read.trans (write _)
    · exact (read.trans (write _)).trans (ih _)

theorem reaches_wake (s : Server κ) : Reaches s s.wake := by
  unfold wake
  split
  · exact .refl s
  · exact (Move.poll _).reaches

theorem reaches_settle (s : Server κ) (i : Nat) : Reaches s (s.settle i) := by
  unfold settle
  exact ((reaches_alternate i _ s).trans (Move.retire i).reaches).trans (reaches_wake _)

theorem reaches_settleAll (s : Server κ) : Reaches s s.settleAll := reaches_foldl reaches_settle _ s

/-! ## commands -/

theorem reaches_connect (s : Server κ) (peer : Option Peer) (sink : Sink) :
    Reaches s (s.connect peer sink) :=
  (Move.connect peer sink).reaches.trans (reaches_settle (s.opened peer sink) s.links.length)

theorem reaches_arrive (s : Server κ) (i : Nat) (arrivals : List Arrival) :
    Reaches s (s.arrive i arrivals) :=
  (reaches_foldl (fun s a => reaches_step s i (.arrive a)) arrivals s).trans (reaches_settle _ i)

theorem reaches_setSink (s : Server κ) (i : Nat) (sink : Sink) : Reaches s (s.setSink i sink) := by
  have changed : Beside s (s.modifyLink i fun l => { l with sink }) :=
    beside_modifyLink s i fun _ => rfl
  exact changed.reaches.trans (reaches_settle _ i)

theorem reaches_release (s : Server κ) (n : Nat) : Reaches s (s.release n) := by
  have gated : Beside s { s with gate :=
      ⟨s.gate.spare + (n - (s.gate.line.take n).length), s.gate.line.drop n⟩ } :=
    ⟨rfl, rfl, rfl, rfl, rfl⟩
  refine (gated.reaches.trans (reaches_foldl (fun s i => ?_) (s.gate.line.take n) _)).trans
    (reaches_settleAll _)
  refine (beside_modifyLink s i fun l => ?_).reaches
  split <;> rfl

theorem reaches_abort (s : Server κ) (i : Nat) : Reaches s (s.abort i) := by
  have gated : Beside s { s with gate := { s.gate with line := s.gate.line.filter (· != i) } } :=
    ⟨rfl, rfl, rfl, rfl, rfl⟩
  exact (gated.reaches.trans (Move.abort i).reaches).trans (reaches_settle _ i)

theorem step_stop (s : Server κ) (i : Nat) : s.step i .stop = s.modifyLink i Link.halt := by
  have nothing (same : ∀ l, s.links[i]? = some l → l.halt = l) : s.modifyLink i Link.halt = s := by
    unfold modifyLink
    rw [modify_congr (g := id) same, List.modify_id]
  unfold step step?
  cases link : s.links[i]? with
  | none =>
    refine (nothing fun l there => ?_).symm
    rw [link] at there
    cases there
  | some l =>
    have only (l' : Link) (there : s.links[i]? = some l') : l' = l :=
      Option.some.inj (there.symm.trans link)
    dsimp only
    split
    · rename_i gone
      refine (nothing fun l' there => ?_).symm
      rw [only l' there]
      exact if_pos gone
    · rename_i go
      refine congrArg (fun links => { s with links }) (modify_congr fun l' there => ?_)
      rw [only l' there]
      exact (if_neg go).symm

/-- every connection in turn is all connections at once -/
theorem foldl_modifyLink (f : Link → Link) (s : Server κ) :
    (List.range s.links.length).foldl (fun s i => s.modifyLink i f) s
      = { s with links := s.links.map f } := by
  have front (n : Nat) : ∃ links, (List.range n).foldl (fun s i => s.modifyLink i f) s
      = { s with links } ∧ ∀ j, links[j]? = if j < n then s.links[j]?.map f else s.links[j]? := by
    induction n with
    | zero => exact ⟨s.links, rfl, fun j => (if_neg (Nat.not_lt_zero j)).symm⟩
    | succ n ih =>
      obtain ⟨links, e, each⟩ := ih
      refine ⟨links.modify n f, ?_, fun j => ?_⟩
      · rw [List.range_succ, List.foldl_append, e]
        rfl
      · rw [List.getElem?_modify, each]
        rcases Nat.lt_trichotomy j n with lt | rfl | gt
        · have ne : n ≠ j := by omega
          simp [lt, Nat.lt_succ_of_lt lt, ne]
        · simp
        · have ne : n ≠ j := by omega
          have ge : ¬ j < n := by omega
          have ge' : ¬ j < n + 1 := by omega
          simp [ge, ge', ne]
  obtain ⟨links, e, each⟩ := front s.links.length
  have all : links = s.links.map f := by
    refine List.ext_getElem? fun j => ?_
    rw [each, List.getElem?_map]
    split
    · rfl
    · rename_i ge
      rw [List.getElem?_eq_none_iff.mpr (Nat.not_lt.mp ge)]
      rfl
  rw [e, all]

theorem reaches_stop (s : Server κ) : Reaches s s.stop := by
  have each : (fun (s : Server κ) i => s.step i .stop) = fun s i => s.modifyLink i Link.halt :=
    funext fun s => funext fun i => s.step_stop i
  have told : s.stop = s.halt.await.settleAll := by
    unfold stop
    dsimp only
    rw [each]
    exact congrArg settleAll (foldl_modifyLink Link.halt { s with
      registry := s.registry.shutDown.wait
      stopping := some s.registry.waiters.length })
  rw [told]
  exact (Move.shutDown.reaches.trans Move.await.reaches).trans (reaches_settleAll _)

end PipelinedHttp.Server
