import Mathlib.Data.List.Induction
import PipelinedHttp.Proofs.Lists
import PipelinedHttp.Proofs.Registry.Guards

/-!
# The accounts of the registry

What a registry counts can be read off the list of everything that has been done with it: who has
been registered (`registered`), what has been noted (`noted`) and which guards have been dropped
(`Gone`).  `Tally` says that the registry agrees with this list.

* `Tally.act`         whatever is done next, it still agrees;
* `tally_run`         so it agrees after any list of actions;
* `Tally.accounts`    hence the live set has the connections that have not gone, each once and with
                      its own peer, in the order of their ids, and all the numbers are right;
* `connections_run`   so the live set is listed as it is, in whatever order it has been collected.
-/

namespace PipelinedHttp.Registry

/-! ## what has been done -/

/-- the peers of all connections, in the order in which they have been registered -/
def registered (actions : List Action) : List (Option Peer) :=
  actions.filterMap fun
    | .register peer => some peer
    | _ => none

def noted (actions : List Action) : List Note :=
  actions.filterMap fun
    | .note n => some n
    | _ => none

/-- the guard with the given number has been dropped since it was handed out -/
def Gone (actions : List Action) (i : Nat) : Prop :=
  ∃ before after, actions = before ++ .drop i :: after ∧ i < (registered before).length

theorem run_append (r : Registry) (as bs : List Action) :
    r.run (as ++ bs) = (r.run as).run bs := List.foldl_append

/-- what holds at first, and is kept by each action, holds after any list of actions -/
theorem run_invariant {P : Registry → List Action → Prop} (start : P empty [])
    (kept : ∀ r actions a, P r actions → P (r.act a) (actions ++ [a])) (actions : List Action) :
    P (empty.run actions) actions := by
  induction actions using List.reverseRecOn with
  | nil => exact start
  | append_singleton actions a ih =>
    rw [run_append]
    exact kept _ actions a ih

theorem registered_append (as bs : List Action) :
    registered (as ++ bs) = registered as ++ registered bs := List.filterMap_append

theorem noted_append (as bs : List Action) : noted (as ++ bs) = noted as ++ noted bs :=
  List.filterMap_append

theorem length_registered_add_noted (actions : List Action) :
    (registered actions).length + (noted actions).length ≤ actions.length := by
  induction actions with
  | nil => exact Nat.le_refl 0
  | cons a actions ih =>
    have first := registered_append [a] actions
    have second := noted_append [a] actions
    rw [List.singleton_append] at first second
    rw [first, second, List.length_append, List.length_append, List.length_cons]
    have one : (registered [a]).length + (noted [a]).length ≤ 1 := by
      cases a <;> simp [registered, noted]
    omega

variable {r r' : Registry} {actions : List Action} {i : Nat}

theorem Gone.lt (h : Gone actions i) : i < (registered actions).length := by
  obtain ⟨before, after, rfl, lt⟩ := h
  rw [registered_append, List.length_append]
  omega

theorem gone_iff : Gone actions i ↔ ∃ before a after, actions = before ++ a :: after
    ∧ a = .drop i ∧ i < (registered before).length := by
  constructor
  · rintro ⟨before, after, split, lt⟩
    exact ⟨before, .drop i, after, split, rfl, lt⟩
  · rintro ⟨before, a, after, split, rfl, lt⟩
    exact ⟨before, after, split, lt⟩

theorem gone_concat {a : Action} :
    Gone (actions ++ [a]) i ↔ Gone actions i ∨ a = .drop i ∧ i < (registered actions).length := by
  rw [gone_iff, gone_iff]
  exact exists_split_concat

theorem gone_of_ne_drop {a : Action} (h : ∀ j, a ≠ .drop j) :
    Gone (actions ++ [a]) i ↔ Gone actions i := by
  rw [gone_concat]
  exact or_iff_left fun dropped => h i dropped.1

/-! ## the tally -/

/-- what the accounts need of a guard -/
def core (g : Guard) : Nat × Bool := (g.id, g.dropped)

/-- the numbers that a registry is to have, but for that of its connections -/
def tallied (actions : List Action) (current : Nat) : Stats where
  total := (registered actions).length
  current := current
  served := (noted actions).count .served
  readErrors := (noted actions).count .readError
  respondErrors := (noted actions).count .respondError

/-- a registry agrees with what has been done -/
structure Tally (r : Registry) (actions : List Action) : Prop where
  nextId : r.nextId = (registered actions).length + 1
  ids : r.guards.map Guard.id = List.range' 1 (registered actions).length
  dropped : ∀ {i g}, r.guards[i]? = some g → (g.dropped = true ↔ Gone actions i)
  /-- the live set is that of the guards that have not been dropped -/
  live : r.live.map Live.id = (r.guards.filter (!·.dropped)).map Guard.id
  peer : ∀ l ∈ r.live, (registered actions)[l.id - 1]? = some l.peer
  stats : r.stats = tallied actions r.live.length

theorem tally_empty : Tally empty [] := ⟨rfl, rfl, nofun, rfl, nofun, rfl⟩

namespace Tally

theorem length_guards (t : Tally r actions) : r.guards.length = (registered actions).length := by
  have length := congrArg List.length t.ids
  rwa [List.length_map, List.length_range'] at length

theorem id_of_getElem? (t : Tally r actions) {g : Guard} (h : r.guards[i]? = some g) :
    g.id = i + 1 := by
  have lt := (List.getElem?_eq_some_iff.mp h).1
  have same := congrArg (·[i]?) t.ids
  rw [t.length_guards] at lt
  simp only [List.getElem?_map, h, Option.map_some, List.getElem?_range' lt] at same
  have id := Option.some.inj same
  omega

theorem id_mem (t : Tally r actions) {l : Live} (h : l ∈ r.live) :
    l.id ∈ List.range' 1 (registered actions).length := by
  have mem : l.id ∈ r.live.map Live.id := List.mem_map_of_mem h
  rw [t.live] at mem
  rw [← t.ids]
  exact (List.filter_sublist.map Guard.id).subset mem

/-- what happens to one guard happens to all guards of its id -/
theorem modify_eq_map (t : Tally r actions) (i : Nat) (f : Guard → Guard) :
    r.guards.modify i f = r.guards.map fun g => if g.id = i + 1 then f g else g := by
  refine List.ext_getElem? fun j => ?_
  rw [List.getElem?_modify, List.getElem?_map]
  cases h : r.guards[j]? with
  | none => rfl
  | some g =>
    have id := t.id_of_getElem? h
    by_cases here : i = j
    · simp [here, id]
    · simp [here, id, Ne.symm here]

/-- an action that registers, notes and drops nothing -/
theorem congr (t : Tally r actions) {a : Action} (registers : registered [a] = [])
    (notes : noted [a] = []) (drops : ∀ i, Gone (actions ++ [a]) i ↔ Gone actions i)
    (nextId : r'.nextId = r.nextId) (live : r'.live = r.live) (stats : r'.stats = r.stats)
    (guards : r'.guards.map core = r.guards.map core) : Tally r' (actions ++ [a]) := by
  have registered : registered (actions ++ [a]) = registered actions := by
    rw [registered_append, registers, List.append_nil]
  have noted : noted (actions ++ [a]) = noted actions := by
    rw [noted_append, notes, List.append_nil]
  have ids (r : Registry) : r.guards.map Guard.id = (r.guards.map core).map Prod.fst := by
    rw [List.map_map]
    rfl
  have kept (r : Registry) : (r.guards.filter (!·.dropped)).map Guard.id
      = ((r.guards.map core).filter (!·.2)).map Prod.fst := by
    rw [List.filter_map, List.map_map]
    rfl
  refine ⟨?_, ?_, fun {i g} h => ?_, ?_, ?_, ?_⟩
  · rw [nextId, registered, t.nextId]
  · rw [ids, guards, ← ids, registered, t.ids]
  · have same : (r.guards.map core)[i]? = some (core g) := by
      rw [← guards, List.getElem?_map, h]
      rfl
    rw [List.getElem?_map] at same
    obtain ⟨g', h', e⟩ := Option.map_eq_some_iff.mp same
    rw [drops, ← t.dropped h', show g.dropped = g'.dropped from (congrArg Prod.snd e).symm]
  · rw [kept, guards, ← kept, live, t.live]
  · rw [live, registered]
    exact t.peer
  · rw [stats, live, t.stats]
    unfold tallied
    rw [registered, noted]

theorem register (t : Tally r actions) (peer : Option Peer) :
    Tally (r.register peer) (actions ++ [.register peer]) := by
  have registered : registered (actions ++ [.register peer]) = registered actions ++ [peer] :=
    registered_append _ _
  have noted : noted (actions ++ [.register peer]) = noted actions :=
    (noted_append _ _).trans (List.append_nil _)
  have nextId := t.nextId
  let added : Guard := ⟨r.nextId, r.shutdown, false⟩
  let here : Live := ⟨r.nextId, peer⟩
  refine ⟨?_, ?_, fun {i g} h => ?_, ?_, fun l hl => ?_, ?_⟩
  · rw [registered, List.length_append, ← Nat.add_right_comm, ← nextId]
    rfl
  · show (r.guards ++ [added]).map Guard.id = _
    rw [List.map_append, t.ids, registered, List.length_append, List.length_singleton,
      List.range'_1_concat, Nat.add_comm 1, ← nextId]
    rfl
  · rw [gone_of_ne_drop (a := .register peer) nofun]
    have h : (r.guards ++ [added])[i]? = some g := h
    rcases Nat.lt_or_ge i r.guards.length with before | after
    · rw [List.getElem?_append_left before] at h
      exact t.dropped h
    · rw [List.getElem?_append_right after, List.getElem?_singleton] at h
      split at h
      · cases h
        refine iff_of_false nofun fun gone => ?_
        have lt := gone.lt
        rw [← t.length_guards] at lt
        omega
      · cases h
  · show (r.live ++ [here]).map Live.id = ((r.guards ++ [added]).filter _).map Guard.id
    rw [List.map_append, List.filter_append, List.map_append, t.live]
    rfl
  · rw [registered]
    rcases List.mem_append.mp hl with old | new
    · have bounds := List.mem_range'_1.mp (t.id_mem old)
      rw [List.getElem?_append_left (by omega)]
      exact t.peer l old
    · rw [List.mem_singleton.mp new]
      show (_ ++ [peer])[r.nextId - 1]? = some peer
      rw [nextId, Nat.add_sub_cancel, List.getElem?_concat_length]
  · show { r.stats with total := r.stats.total + 1, current := r.stats.current + 1 }
      = tallied _ (r.live ++ [here]).length
    unfold tallied
    rw [t.stats, registered, noted, List.length_append, List.length_append]
    rfl

theorem note (t : Tally r actions) (n : Note) : Tally (r.note n) (actions ++ [.note n]) := by
  have registered : registered (actions ++ [.note n]) = registered actions :=
    (registered_append _ _).trans (List.append_nil _)
  have noted : noted (actions ++ [.note n]) = noted actions ++ [n] := noted_append _ _
  refine ⟨?_, ?_, fun {i g} h => ?_, t.live, ?_, ?_⟩
  · rw [registered]
    exact t.nextId
  · rw [registered]
    exact t.ids
  · rw [gone_of_ne_drop (a := .note n) nofun]
    exact t.dropped h
  · rw [registered]
    exact t.peer
  · show r.stats.note n = tallied _ r.live.length
    unfold tallied
    rw [t.stats, registered, noted, List.count_append, List.count_append, List.count_append]
    cases n <;> rfl

theorem nodup (t : Tally r actions) : (r.live.map Live.id).Nodup := by
  rw [t.live]
  refine (List.filter_sublist.map Guard.id).nodup ?_
  rw [t.ids]
  exact List.nodup_range'

theorem map_id_filter (live : List Live) (id : Nat) :
    (live.filter (·.id != id)).map Live.id = (live.map Live.id).filter (· != id) := by
  rw [List.filter_map]
  rfl

theorem length_filter_ne (t : Tally r actions) {id : Nat} (there : id ∈ r.live.map Live.id) :
    (r.live.filter (·.id != id)).length + 1 = r.live.length := by
  have length := List.length_erase_of_mem there
  rw [t.nodup.erase_eq_filter, ← map_id_filter, List.length_map, List.length_map] at length
  have some : 0 < r.live.length := by
    have pos := List.length_pos_of_mem there
    rwa [List.length_map] at pos
  omega

theorem id_mem_live (t : Tally r actions) {g : Guard} (h : r.guard? i = some g) :
    r.guards[i]? = some g ∧ g.dropped = false ∧ g.id = i + 1 ∧ i + 1 ∈ r.live.map Live.id := by
  obtain ⟨there, kept⟩ := Option.filter_eq_some_iff.mp h
  have id := t.id_of_getElem? there
  have kept : g.dropped = false := by simpa using kept
  refine ⟨there, kept, id, ?_⟩
  rw [t.live, ← id]
  refine List.mem_map_of_mem (List.mem_filter.mpr ⟨List.mem_of_getElem? there, ?_⟩)
  rw [kept]
  rfl

theorem drop (t : Tally r actions) (i : Nat) : Tally (r.drop i) (actions ++ [.drop i]) := by
  cases h : r.guard? i with
  | none =>
    rw [drop_of_none h]
    refine t.congr rfl rfl (fun j => ?_) rfl rfl rfl rfl
    rw [gone_concat]
    refine or_iff_left_of_imp ?_
    rintro ⟨⟨⟩, lt⟩
    -- there is such a guard, so it has been dropped before
    rw [← t.length_guards] at lt
    have there := List.getElem?_eq_getElem lt
    have dropped := Option.filter_eq_none_iff.mp h _ there
    exact (t.dropped there).mp (by simpa using dropped)
  | some g =>
    obtain ⟨there, kept, id, mem⟩ := t.id_mem_live h
    have live : r.live.any (·.id == g.id) = true := by
      obtain ⟨l, hl, e⟩ := List.mem_map.mp mem
      exact List.any_eq_true.mpr ⟨l, hl, beq_iff_eq.mpr (e.trans id.symm)⟩
    obtain ⟨waiters, e⟩ := drop_of_live h live
    have registered : registered (actions ++ [.drop i]) = registered actions :=
      (registered_append _ _).trans (List.append_nil _)
    have noted : noted (actions ++ [.drop i]) = noted actions :=
      (noted_append _ _).trans (List.append_nil _)
    have guards := t.modify_eq_map i fun g => { g with dropped := true }
    rw [e, id]
    refine ⟨?_, ?_, fun {j g'} h' => ?_, ?_, fun l hl => ?_, ?_⟩
    · rw [registered]
      exact t.nextId
    · show (r.guards.modify i _).map Guard.id = _
      rw [guards, registered, List.map_map, ← t.ids]
      refine List.map_congr_left fun g _ => ?_
      rw [Function.comp_apply]
      split <;> rfl
    · have h' : (r.guards.modify i _)[j]? = some g' := h'
      rw [gone_concat]
      by_cases here : i = j
      · subst here
        rw [List.getElem?_modify_eq, there] at h'
        cases h'
        exact iff_of_true rfl (.inr ⟨rfl, t.length_guards ▸ (List.getElem?_eq_some_iff.mp there).1⟩)
      · rw [List.getElem?_modify_ne _ _ here] at h'
        rw [t.dropped h']
        refine (or_iff_left ?_).symm
        rintro ⟨⟨⟩, -⟩
        exact here rfl
    · show (r.live.filter _).map Live.id = ((r.guards.modify i _).filter _).map Guard.id
      rw [map_id_filter, t.live, guards, List.filter_map, List.filter_filter, List.filter_map,
        List.map_map]
      have kept (g : Guard) : (Guard.id ∘ fun g => if g.id = i + 1 then { g with dropped := true }
          else g) g = g.id := by
        rw [Function.comp_apply]
        split <;> rfl
      rw [List.map_congr_left fun g _ => kept g]
      refine congrArg (List.map Guard.id) (List.filter_congr fun g _ => ?_)
      by_cases same : g.id = i + 1 <;> simp [same]
    · rw [registered]
      exact t.peer l (List.mem_filter.mp hl).1
    · show { r.stats with current := r.stats.current - 1 } = tallied _ (r.live.filter _).length
      have length := t.length_filter_ne mem
      unfold tallied
      rw [t.stats, registered, noted, ← length]
      rfl

/-- who is told to stop is still there -/
theorem stop_eq (t : Tally r actions) (i : Nat) :
    ∃ guards, r.stop i = { r with guards } ∧ guards.map core = r.guards.map core := by
  rcases r.stop_cases i with e | e
  · exact ⟨r.guards, e, rfl⟩
  · refine ⟨_, e, ?_⟩
    rw [t.modify_eq_map, List.map_map]
    refine List.map_congr_left fun g _ => ?_
    rw [Function.comp_apply]
    split <;> rfl

theorem act (t : Tally r actions) (a : Action) : Tally (r.act a) (actions ++ [a]) := by
  cases a with
  | register peer => exact t.register peer
  | drop i => exact t.drop i
  | note n => exact t.note n
  | stop i =>
    obtain ⟨guards, e, same⟩ := t.stop_eq i
    rw [Registry.act, e]
    exact t.congr rfl rfl (fun _ => gone_of_ne_drop nofun) rfl rfl rfl same
  | shutDown =>
    refine t.congr rfl rfl (fun _ => gone_of_ne_drop nofun) rfl rfl rfl ?_
    show (r.guards.map _).map core = _
    rw [List.map_map]
    rfl
  | wakeIfIdle =>
    obtain ⟨waiters, e, -⟩ := r.wakeIfIdle_eq
    rw [Registry.act, e]
    exact t.congr rfl rfl (fun _ => gone_of_ne_drop nofun) rfl rfl rfl rfl
  | wait | poll =>
    exact t.congr rfl rfl (fun _ => gone_of_ne_drop nofun) rfl rfl rfl rfl

end Tally

theorem tally_run (actions : List Action) : Tally (empty.run actions) actions :=
  run_invariant tally_empty (fun _ _ a t => t.act a) actions

/-! ## accounts -/

/-- what can be read off a registry about what has been done with it -/
structure Accounts (r : Registry) (actions : List Action) : Prop where
  /-- no id is handed out twice -/
  ids : r.guards.map Guard.id = List.range' 1 (registered actions).length
  /-- the next id has not been handed out -/
  nextId : r.nextId = (registered actions).length + 1
  /-- each connection that has been registered and has not gone is live, with its own peer -/
  live : ∀ l, l ∈ r.live ↔
    ∃ i, l.id = i + 1 ∧ (registered actions)[i]? = some l.peer ∧ ¬ Gone actions i
  /-- and is so once -/
  ordered : r.live.Pairwise (·.id < ·.id)
  /-- there is a live connection for each guard that has not been dropped -/
  guards : r.live.map Live.id = (r.guards.filter (!·.dropped)).map Guard.id
  guard? : ∀ i, (r.guard? i).isSome = true ↔ i < (registered actions).length ∧ ¬ Gone actions i
  current : r.stats.current = r.live.length
  total : r.stats.total = (registered actions).length
  served : r.stats.served = (noted actions).count .served
  readErrors : r.stats.readErrors = (noted actions).count .readError
  respondErrors : r.stats.respondErrors = (noted actions).count .respondError
  /-- no number outgrows what has been done, so in fewer than `UInt64.size` actions no counter of 64 bits
  wraps, nor does the id of a new connection -/
  small : r.stats.current ≤ r.stats.total
    ∧ r.stats.total + (r.stats.served + r.stats.readErrors + r.stats.respondErrors)
      ≤ actions.length
  /-- the gauge can go down for each guard that is still there -/
  drop : ∀ i g, r.guard? i = some g → (r.drop i).stats.current + 1 = r.stats.current

theorem length_notes (notes : List Note) :
    notes.count .served + notes.count .readError + notes.count .respondError = notes.length := by
  induction notes with
  | nil => rfl
  | cons n notes ih =>
    rw [List.length_cons, ← ih]
    cases n <;> simp <;> omega

theorem Tally.isSome_guard? (t : Tally r actions) (i : Nat) :
    (r.guard? i).isSome = true ↔ i < (registered actions).length ∧ ¬ Gone actions i := by
  rw [← t.length_guards]
  constructor
  · intro h
    obtain ⟨g, h⟩ := Option.isSome_iff_exists.mp h
    obtain ⟨there, kept, -⟩ := t.id_mem_live h
    rw [← t.dropped there, kept]
    exact ⟨(List.getElem?_eq_some_iff.mp there).1, nofun⟩
  · rintro ⟨lt, stays⟩
    have there := List.getElem?_eq_getElem lt
    rw [← t.dropped there] at stays
    unfold guard?
    rw [there, Option.filter_some, if_pos (by simpa using stays)]
    rfl

theorem live_eq {l l' : Live} (id : l.id = l'.id) (peer : l.peer = l'.peer) : l = l' := by
  cases l
  cases id
  cases peer
  rfl

theorem Tally.mem_live_iff (t : Tally r actions) (l : Live) :
    l ∈ r.live ↔ ∃ i, l.id = i + 1 ∧ (registered actions)[i]? = some l.peer ∧ ¬ Gone actions i := by
  constructor
  · intro h
    have mem : l.id ∈ r.live.map Live.id := List.mem_map_of_mem h
    rw [t.live] at mem
    obtain ⟨g, hg, same⟩ := List.mem_map.mp mem
    obtain ⟨hg, kept⟩ := List.mem_filter.mp hg
    obtain ⟨i, there⟩ := List.getElem?_of_mem hg
    have id := same.symm.trans (t.id_of_getElem? there)
    have peer := t.peer l h
    rw [id, Nat.add_sub_cancel] at peer
    refine ⟨i, id, peer, ?_⟩
    rw [← t.dropped there]
    simpa using kept
  · rintro ⟨i, id, peer, stays⟩
    have lt := (List.getElem?_eq_some_iff.mp peer).1
    obtain ⟨g, h⟩ := Option.isSome_iff_exists.mp ((t.isSome_guard? i).mpr ⟨lt, stays⟩)
    obtain ⟨l', there, same⟩ := List.mem_map.mp (t.id_mem_live h).2.2.2
    have peer' := t.peer l' there
    rw [same, Nat.add_sub_cancel, peer] at peer'
    rw [live_eq (id.trans same.symm) (Option.some.inj peer')]
    exact there

theorem Tally.accounts (t : Tally r actions) : Accounts r actions := by
  have current : r.stats.current = r.live.length := by rw [t.stats, tallied]
  have total : r.stats.total = (registered actions).length := by rw [t.stats, tallied]
  have length : r.live.length = (r.guards.filter (!·.dropped)).length := by
    have length := congrArg List.length t.live
    rwa [List.length_map, List.length_map] at length
  refine ⟨t.ids, t.nextId, t.mem_live_iff, ?_, t.live, t.isSome_guard?, current, total, ?_, ?_, ?_,
    ⟨?_, ?_⟩, fun i g h => ?_⟩
  · have sorted : (r.live.map Live.id).Pairwise (· < ·) := by
      rw [t.live]
      refine List.Pairwise.sublist (List.filter_sublist.map Guard.id) ?_
      rw [t.ids]
      exact List.pairwise_lt_range'
    exact List.pairwise_map.mp sorted
  · rw [t.stats, tallied]
  · rw [t.stats, tallied]
  · rw [t.stats, tallied]
  · rw [current, length, total, ← t.length_guards]
    exact List.length_filter_le _ _
  · rw [t.stats, tallied, length_notes]
    exact length_registered_add_noted actions
  · obtain ⟨-, -, id, mem⟩ := t.id_mem_live h
    have after := (t.drop i).stats
    rw [after, current, ← t.length_filter_ne mem, ← id, ← drop_live h]
    rfl

/-! ## the live set in order -/

theorem Accounts.eq_of_id (h : Accounts r actions) {l l' : Live} (hl : l ∈ r.live) (hl' : l' ∈ r.live)
    (id : l.id = l'.id) : l = l' := by
  obtain ⟨i, first, peer, -⟩ := (h.live l).mp hl
  obtain ⟨j, second, peer', -⟩ := (h.live l').mp hl'
  have same : i = j := Nat.succ.inj (first.symm.trans (id.trans second))
  rw [same, peer'] at peer
  exact live_eq id (Option.some.inj peer).symm

/-- in whatever order the live set is collected, sorting by the ids gives the one order -/
theorem Accounts.mergeSort_eq (h : Accounts r actions) {collected : List Live}
    (all : collected.Perm r.live) : collected.mergeSort byId = r.live := by
  have trans (a b c : Live) (ab : byId a b = true) (bc : byId b c = true) : byId a c = true :=
    decide_eq_true (Nat.le_trans (of_decide_eq_true ab) (of_decide_eq_true bc))
  have total (a b : Live) : (byId a b || byId b a) = true := by
    rw [Bool.or_eq_true]
    exact (Nat.le_total a.id b.id).imp decide_eq_true decide_eq_true
  have sorted : (collected.mergeSort byId).Pairwise (·.id ≤ ·.id) :=
    (List.pairwise_mergeSort trans total collected).imp of_decide_eq_true
  have same : (collected.mergeSort byId).Perm r.live :=
    (List.mergeSort_perm collected byId).trans all
  refine List.Perm.eq_of_pairwise ?_ sorted (h.ordered.imp Nat.le_of_lt) same
  intro l l' hl hl' le ge
  exact h.eq_of_id (same.mem_iff.mp hl) hl' (Nat.le_antisymm le ge)

theorem connections_run (actions : List Action) :
    (empty.run actions).connections = (empty.run actions).live :=
  (tally_run actions).accounts.mergeSort_eq (List.Perm.refl _)

/-! ## counts -/

/-- no count goes back -/
structure Grown (s s' : Stats) : Prop where
  total : s.total ≤ s'.total
  served : s.served ≤ s'.served
  readErrors : s.readErrors ≤ s'.readErrors
  respondErrors : s.respondErrors ≤ s'.respondErrors

theorem grown_run (actions more : List Action) :
    Grown (empty.run actions).stats (empty.run (actions ++ more)).stats := by
  have counts (n : Note) : (noted actions).count n ≤ (noted (actions ++ more)).count n := by
    rw [noted_append, List.count_append]
    exact Nat.le_add_right _ _
  have length : (registered actions).length ≤ (registered (actions ++ more)).length := by
    rw [registered_append, List.length_append]
    exact Nat.le_add_right _ _
  rw [(tally_run actions).stats, (tally_run (actions ++ more)).stats]
  exact ⟨length, counts .served, counts .readError, counts .respondError⟩

end PipelinedHttp.Registry
