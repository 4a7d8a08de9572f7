import PipelinedHttp.Bytes

/-!
# Octets and separators

* `forall_octet`        what holds of the numbers up to 255 holds of all octets;
* `splitOn_eq_iff`      the pieces of a text are those that are joined to it and have no separator
                        inside;
* `splitFirst_eq_iff`   the parts of a text are those around its first separator.
-/

namespace PipelinedHttp

theorem forall_octet {P : UInt8 → Prop} (h : ∀ n < 256, P (UInt8.ofNat n)) (b : UInt8) : P b := by
  have holds := h b.toNat b.toNat_lt
  rwa [UInt8.ofNat_toNat] at holds

namespace Bytes
variable {sep : UInt8} {s t : Bytes} {pieces : List Bytes}

theorem splitOn_eq (sep : UInt8) (s : Bytes) : splitOn sep s = List.splitOn sep s := by
  induction s with
  | nil => exact (List.splitOn_nil sep).symm
  | cons b s ih =>
    rw [List.splitOn_cons_eq_if_modifyHead, splitOn, ih]
    by_cases here : b = sep
    · rw [if_pos here, if_pos (beq_iff_eq.mpr here)]
    · rw [if_neg here, if_neg (by simpa using here)]
      cases split : List.splitOn sep s with
      | nil => exact absurd split (List.splitOn_ne_nil sep s)
      | cons piece more => rfl

/-- the pieces on both sides of a separator -/
theorem splitOn_append (sep : UInt8) (s t : Bytes) :
    splitOn sep (s ++ sep :: t) = splitOn sep s ++ splitOn sep t := by
  rw [splitOn_eq, splitOn_eq, splitOn_eq]
  exact List.splitOn_append_cons_self s t

theorem not_mem_of_mem_splitOn {piece : Bytes} (mem : piece ∈ splitOn sep s) : sep ∉ piece := by
  induction s generalizing piece with
  | nil =>
    rw [List.mem_singleton.mp mem]
    exact List.not_mem_nil
  | cons b s ih =>
    unfold splitOn at mem
    split at mem
    · rcases List.mem_cons.mp mem with rfl | mem
      · exact List.not_mem_nil
      · exact ih mem
    · rename_i other
      split at mem
      · rw [List.mem_singleton.mp mem]
        exact fun h => other (List.mem_singleton.mp h).symm
      · rename_i first more split
        rw [split] at ih
        rcases List.mem_cons.mp mem with rfl | mem
        · intro h
          rcases List.mem_cons.mp h with rfl | h
          · exact other rfl
          · exact ih List.mem_cons_self h
        · exact ih (List.mem_cons_of_mem _ mem)

/-- the pieces of a text between separators; the empty text has one, which is empty -/
structure Pieces (sep : UInt8) (s : Bytes) (pieces : List Bytes) : Prop where
  some : pieces ≠ []
  joined : [sep].intercalate pieces = s
  clean : ∀ piece ∈ pieces, sep ∉ piece

theorem splitOn_eq_iff : splitOn sep s = pieces ↔ Pieces sep s pieces := by
  constructor
  · rintro rfl
    refine ⟨?_, ?_, fun piece => not_mem_of_mem_splitOn⟩
    · rw [splitOn_eq]
      exact List.splitOn_ne_nil sep s
    · rw [splitOn_eq]
      exact List.intercalate_splitOn sep
  · rintro ⟨some, rfl, clean⟩
    rw [splitOn_eq]
    exact List.splitOn_intercalate sep clean some

/-- the parts of a text around its first separator; without one, the second part is empty -/
inductive Parts (sep : UInt8) : Bytes → Bytes → Bytes → Prop
  | cut {a b : Bytes} : sep ∉ a → Parts sep (a ++ sep :: b) a b
  | whole {a : Bytes} : sep ∉ a → Parts sep a a []

theorem splitFirst_append (clean : sep ∉ s) (t : Bytes) :
    splitFirst sep (s ++ t) = (s ++ (splitFirst sep t).1, (splitFirst sep t).2) := by
  have before : ∀ b ∈ s, (b != sep) = true := fun b mem =>
    bne_iff_ne.mpr fun same => clean (same ▸ mem)
  unfold splitFirst
  rw [List.takeWhile_append_of_pos before, List.dropWhile_append_of_pos before]

theorem splitFirst_of_parts {a b : Bytes} (h : Parts sep s a b) : splitFirst sep s = (a, b) := by
  cases h with
  | cut clean => simpa [splitFirst] using splitFirst_append clean (sep :: b)
  | whole clean => simpa [splitFirst] using splitFirst_append clean []

theorem splitFirst_eq_iff {a b : Bytes} : splitFirst sep s = (a, b) ↔ Parts sep s a b := by
  constructor
  · intro h
    by_cases there : sep ∈ s
    · obtain ⟨front, rest, rfl, clean⟩ := List.eq_append_cons_of_mem there
      have cut : Parts sep (front ++ sep :: rest) front rest := .cut clean
      obtain ⟨rfl, rfl⟩ := Prod.mk.inj ((splitFirst_of_parts cut).symm.trans h)
      exact cut
    · have whole : Parts sep s s [] := .whole there
      obtain ⟨rfl, rfl⟩ := Prod.mk.inj ((splitFirst_of_parts whole).symm.trans h)
      exact whole
  · exact splitFirst_of_parts

end Bytes

end PipelinedHttp
