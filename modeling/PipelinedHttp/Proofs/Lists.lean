import Mathlib.Algebra.GroupWithZero.Nat

/-!
# Lists whose elements are known by their numbers

Links, guards, producers and waiters are in lists and known by their numbers there, and what is done to
one of them modifies one element.  Lines of those who wait are lists of such numbers, and octets that
have been written are a front of what several of them have to write.
-/

namespace PipelinedHttp
variable {α β : Type} {l : List α} {f g : α → α} {i j : Nat} {a : α}

theorem getElem?_modify_of_some (there : l[j]? = some a) :
    (l.modify i f)[j]? = some (if i = j then f a else a) := by
  rw [List.getElem?_modify, there]
  rfl

theorem modify_congr (h : ∀ a, l[i]? = some a → f a = g a) : l.modify i f = l.modify i g := by
  refine List.ext_getElem? fun j => ?_
  rw [List.getElem?_modify, List.getElem?_modify]
  by_cases here : i = j
  · subst here
    cases there : l[i]? with
    | none => rfl
    | some a => simp [h a there]
  · simp [here]

theorem forall_mem_modify {P : α → Prop} (h : ∀ a ∈ l, P a) (kept : ∀ a, P a → P (f a)) :
    ∀ a ∈ l.modify i f, P a := by
  intro a mem
  obtain ⟨j, hj⟩ := List.mem_iff_getElem?.mp mem
  rw [List.getElem?_modify] at hj
  obtain ⟨b, there, rfl⟩ := Option.map_eq_some_iff.mp hj
  have old := h b (List.mem_of_getElem? there)
  split
  · exact kept b old
  · exact old

theorem sum_map_modify (w : α → Nat) (f : α → α) (there : l[i]? = some a) :
    ((l.modify i f).map w).sum + w a = (l.map w).sum + w (f a) := by
  induction l generalizing i with
  | nil => cases there
  | cons b l ih =>
    cases i with
    | zero =>
      cases there
      simp only [List.modify_zero_cons, List.map_cons, List.sum_cons]
      omega
    | succ i =>
      have rest := ih (i := i) there
      simp only [List.modify_succ_cons, List.map_cons, List.sum_cons]
      omega

theorem mem_rest_iff {t : Nat} {rest : List Nat} (ordered : (t :: rest).Pairwise (· < ·)) :
    j ∈ rest ↔ j ≠ t ∧ j ∈ t :: rest := by
  have before := (List.pairwise_cons.mp ordered).1
  constructor
  · intro later
    exact ⟨Nat.ne_of_gt (before j later), List.mem_cons_of_mem t later⟩
  · rintro ⟨other, here⟩
    exact (List.mem_cons.mp here).resolve_left other

theorem flatMap_range_only {n : Nat} (lt : i < n) (bs : List β) :
    (List.range n).flatMap (fun j => if j = i then bs else []) = bs := by
  induction n with
  | zero => exact absurd lt (Nat.not_lt_zero i)
  | succ n ih =>
    rw [List.range_succ, List.flatMap_append, List.flatMap_singleton]
    rcases Nat.lt_succ_iff_lt_or_eq.mp lt with before | rfl
    · rw [ih before, if_neg (Nat.ne_of_gt before), List.append_nil]
    · rw [if_pos rfl, List.flatMap_eq_nil_iff.mpr, List.nil_append]
      exact fun j hj => if_neg (Nat.ne_of_lt (List.mem_range.mp hj))

/-- what has happened at some time has happened before the last element or at it -/
theorem exists_split_concat {P : List α → α → List α → Prop} {as : List α} :
    (∃ before b after, as ++ [a] = before ++ b :: after ∧ P before b after)
      ↔ (∃ before b after, as = before ++ b :: after ∧ P before b (after ++ [a])) ∨ P as a [] := by
  constructor
  · rintro ⟨before, b, after, e, h⟩
    rcases List.eq_nil_or_concat after with rfl | ⟨after, c, rfl⟩
    · obtain ⟨rfl, last⟩ := List.append_inj' e rfl
      cases last
      exact .inr h
    · rw [List.concat_eq_append] at e h
      rw [← List.cons_append, ← List.append_assoc] at e
      obtain ⟨front, last⟩ := List.append_inj' e rfl
      cases last
      exact .inl ⟨before, b, after, front, h⟩
  · rintro (⟨before, b, after, rfl, h⟩ | h)
    · exact ⟨before, b, after ++ [a], by rw [List.append_assoc, List.cons_append], h⟩
    · exact ⟨as, a, [], rfl, h⟩

/-- a front of pieces is some of the pieces, and a front of the next one -/
theorem prefix_flatten {pieces : List (List α)} {s : List α} (h : s <+: pieces.flatten) :
    ∃ k part, s = (pieces.take k).flatten ++ part ∧ part <+: (pieces[k]?).getD [] := by
  induction pieces generalizing s with
  | nil => exact ⟨0, s, rfl, h⟩
  | cons a pieces ih =>
    rw [List.flatten_cons] at h
    rcases List.prefix_or_prefix_of_prefix h (List.prefix_append a _) with within | ⟨t, rfl⟩
    · exact ⟨0, s, rfl, within⟩
    · obtain ⟨k, part, rfl, next⟩ := ih ((List.prefix_append_right_inj a).mp h)
      refine ⟨k + 1, part, ?_, next⟩
      rw [List.take_succ_cons, List.flatten_cons, List.append_assoc]

end PipelinedHttp
