import Mathlib.Logic.Function.Basic
import PipelinedHttp.Headers
import PipelinedHttp.Proofs.Text.Utf8

/-!
# Header lists as multimaps

A header list stands for a map from names to lists of values, where names are the same up to the
case of ASCII letters.  Each operation does to the list what its counterpart does to the map.  Apart
from that, it leaves the fields of other names as and where they are.

* `Multimap.edit`     the operations on maps;
* `Represents.edit`   a header list stays the list of its map, whatever is done to both;
* `Represents.agreesAt`  so what is looked up in the list is what stands in the map;
* `fields_set_of_first`, `fields_set_of_absent`   where a value is put that replaces others;
* `others_edit`       the fields of other names stay as they are, in their order;
* `multimap`          all of it, for any operations on the empty list.
-/

namespace PipelinedHttp

/-- the values of each name, by its folded spelling -/
abbrev Multimap := Bytes → List Bytes

namespace Multimap

def empty : Multimap := fun _ => []

def append (m : Multimap) (key value : Bytes) : Multimap :=
  Function.update m key (m key ++ [value])

def set (m : Multimap) (key value : Bytes) : Multimap := Function.update m key [value]

def erase (m : Multimap) (key : Bytes) : Multimap := Function.update m key []

def edit (m : Multimap) : Headers.Edit → Multimap
  | .append name value => m.append (Bytes.fold name) value
  | .set name value => m.set (Bytes.fold name) value
  | .erase name => m.erase (Bytes.fold name)

def edits (m : Multimap) (changes : List Headers.Edit) : Multimap := changes.foldl edit m

end Multimap

namespace Headers
variable {h : Headers} {m : Multimap}

/-! ## values -/

theorem values_congr (h : Headers) {name other : Bytes} (same : Bytes.SameName name other) :
    h.values name = h.values other := by
  have named : (fun f : Field => decide (f.Named name)) = fun f => decide (f.Named other) := by
    funext f
    exact decide_eq_decide.mpr ⟨fun e => e.trans same, fun e => e.trans same.symm⟩
  unfold values
  rw [named]

/-- the values of the list are those of the map -/
def Represents (h : Headers) (m : Multimap) : Prop := ∀ name, h.values name = m (Bytes.fold name)

theorem represents_empty : Represents empty Multimap.empty := fun _ => rfl

theorem Represents.edit (same : h.Represents m) (change : Edit) :
    (h.edit change).Represents (m.edit change) := by
  intro other
  cases change with
  | append name value =>
    show (h.append name value).values other = _
    rw [values_append, same other]
    by_cases e : Bytes.SameName name other
    · have key : Bytes.fold other = Bytes.fold name := e.symm
      rw [if_pos e, Multimap.edit, Multimap.append, key, Function.update_self]
    · have key : Bytes.fold other ≠ Bytes.fold name := fun e' => e e'.symm
      rw [if_neg e, List.append_nil, Multimap.edit, Multimap.append, Function.update_of_ne key]
  | set name value =>
    show (h.set name value).values other = _
    by_cases e : Bytes.SameName name other
    · have key : Bytes.fold other = Bytes.fold name := e.symm
      rw [← values_congr _ e, values_set_self, Multimap.edit, Multimap.set, key,
        Function.update_self]
    · have key : Bytes.fold other ≠ Bytes.fold name := fun e' => e e'.symm
      rw [values_set_of_ne h e, same other, Multimap.edit, Multimap.set,
        Function.update_of_ne key]
  | erase name =>
    show (h.erase name).values other = _
    by_cases e : Bytes.SameName name other
    · have key : Bytes.fold other = Bytes.fold name := e.symm
      rw [← values_congr _ e, values_erase_self, Multimap.edit, Multimap.erase, key,
        Function.update_self]
    · have key : Bytes.fold other ≠ Bytes.fold name := fun e' => e e'.symm
      rw [values_erase_of_ne h e, same other, Multimap.edit, Multimap.erase,
        Function.update_of_ne key]

theorem Represents.edits (same : h.Represents m) (changes : List Edit) :
    (h.edits changes).Represents (m.edits changes) := by
  induction changes generalizing h m with
  | nil => exact same
  | cons change changes ih => exact ih (same.edit change)

/-! ## looking up -/

/-- what is looked up in a list is what stands in the map -/
structure AgreesAt (h : Headers) (m : Multimap) (name : Bytes) : Prop where
  values : h.values name = m (Bytes.fold name)
  first : h.get? name = (m (Bytes.fold name)).head?
  contains : h.contains name = true ↔ m (Bytes.fold name) ≠ []
  text : ∀ t, h.getText? name = some t ↔ h.get? name = some (Utf8.encode t)
  /-- to remove a name tells its first value, and is to erase it -/
  removed : h.remove name = ((m (Bytes.fold name)).head?, h.edit (.erase name))

theorem getText?_eq_some_iff (h : Headers) (name : Bytes) (t : String) :
    h.getText? name = some t ↔ h.get? name = some (Utf8.encode t) := by
  unfold getText?
  rw [Option.bind_eq_some_iff]
  constructor
  · rintro ⟨value, found, read⟩
    rw [found, Utf8.decode?_eq_some_iff.mp read]
  · intro found
    exact ⟨Utf8.encode t, found, Utf8.decode?_encode t⟩

theorem erase_of_get?_eq_none {name : Bytes} (absent : h.get? name = none) : h.erase name = h := by
  have none : ∀ f ∈ h.fields, ¬ f.Named name := by
    intro f hf
    have miss := List.find?_eq_none.mp (Option.map_eq_none_iff.mp absent) f hf
    simpa using miss
  unfold erase
  rw [List.filter_eq_self.mpr fun f hf => decide_eq_true (none f hf)]

theorem remove_eq (h : Headers) (name : Bytes) :
    h.remove name = (h.get? name, h.edit (.erase name)) := by
  unfold remove
  cases found : h.get? name with
  | none =>
    show (none, h) = (none, h.erase name)
    rw [erase_of_get?_eq_none found]
  | some value => rfl

theorem Represents.agreesAt (same : h.Represents m) (name : Bytes) : h.AgreesAt m name := by
  have first : h.get? name = (m (Bytes.fold name)).head? := by
    rw [get?_eq_head?_values, same name]
  refine ⟨same name, first, ?_, h.getText?_eq_some_iff name, ?_⟩
  · rw [contains, first, List.isSome_head?]
  · rw [remove_eq, first]

/-! ## places -/

/-- the first field of a name takes the value where it stands, and the later ones of that name go -/
theorem fields_set_of_first {before after : List Field} {f : Field} {name : Bytes}
    (split : h.fields = before ++ f :: after) (named : f.Named name)
    (first : ∀ g ∈ before, ¬ g.Named name) (value : Bytes) :
    (h.set name value).fields
      = before ++ ⟨f.name, value⟩ :: after.filter fun g => ¬ g.Named name := by
  show setFields name value h.fields = _
  rw [split]
  clear split
  induction before with
  | nil => rw [List.nil_append, setFields, if_pos named, List.nil_append]
  | cons g before ih =>
    obtain ⟨other, others⟩ := List.forall_mem_cons.mp first
    rw [List.cons_append, setFields, if_neg other, ih others, List.cons_append]

theorem fields_set_of_absent {name : Bytes} (absent : ∀ f ∈ h.fields, ¬ f.Named name)
    (value : Bytes) : (h.set name value).fields = h.fields ++ [⟨name, value⟩] := by
  show setFields name value h.fields = _
  revert absent
  induction h.fields with
  | nil => exact fun _ => rfl
  | cons f fields ih =>
    intro absent
    obtain ⟨other, others⟩ := List.forall_mem_cons.mp absent
    rw [setFields, if_neg other, ih others, List.cons_append]

/-! ## other names -/

/-- the name that an operation is about -/
def Edit.name : Edit → Bytes
  | .append name _ => name
  | .set name _ => name
  | .erase name => name

/-- the fields of all names but one -/
def others (h : Headers) (name : Bytes) : List Field := h.fields.filter fun f => ¬ f.Named name

theorem filter_setFields_not (name value : Bytes) (fields : List Field) :
    (setFields name value fields).filter (fun f => ¬ f.Named name)
      = fields.filter fun f => ¬ f.Named name := by
  induction fields with
  | nil => simp [setFields, Field.Named, Bytes.SameName.refl]
  | cons f fields ih =>
    unfold setFields
    by_cases e : f.Named name
    · have e' : (⟨f.name, value⟩ : Field).Named name := e
      rw [if_pos e, List.filter_cons_of_neg (by simpa using e'), List.filter_filter,
        List.filter_cons_of_neg (by simpa using e)]
      simp
    · rw [if_neg e, List.filter_cons_of_pos (by simpa using e),
        List.filter_cons_of_pos (by simpa using e), ih]

/-- an operation on one name leaves the fields of all others as they are, in their order -/
theorem others_edit (h : Headers) (change : Edit) :
    (h.edit change).others change.name = h.others change.name := by
  cases change with
  | append name value =>
    have self : (⟨name, value⟩ : Field).Named name := Bytes.SameName.refl name
    show (h.fields ++ [⟨name, value⟩] : List Field).filter (fun f => ¬ f.Named name) = _
    rw [List.filter_append, List.filter_cons_of_neg (by simpa using self), List.filter_nil,
      List.append_nil]
    rfl
  | set name value => exact filter_setFields_not name value h.fields
  | erase name =>
    show (h.fields.filter fun f => ¬ f.Named name).filter (fun f => ¬ f.Named name) = _
    rw [List.filter_filter]
    simp only [Bool.and_self]
    rfl

/-! ## all of it -/

/-- what an operation does to the places of fields -/
structure Placed (h : Headers) : Prop where
  appended : ∀ name value, (h.append name value).fields = h.fields ++ [⟨name, value⟩]
  first : ∀ before f after name value, h.fields = before ++ f :: after → f.Named name →
    (∀ g ∈ before, ¬ g.Named name) → (h.set name value).fields
      = before ++ ⟨f.name, value⟩ :: after.filter fun g => ¬ g.Named name
  absent : ∀ name value, (∀ f ∈ h.fields, ¬ f.Named name) →
    (h.set name value).fields = h.fields ++ [⟨name, value⟩]
  others : ∀ change : Edit, (h.edit change).others change.name = h.others change.name

theorem placed (h : Headers) : h.Placed where
  appended _ _ := rfl
  first _ _ _ _ value split named first := fields_set_of_first split named first value
  absent _ value absent := fields_set_of_absent absent value
  others := h.others_edit

/-- **Header lists are multimaps.**  Whatever has been done to the empty list, it has the values
that the same operations on the empty map give, looking up and removing give what stands in that map,
and the next operation puts its field where it belongs and leaves those of other names alone. -/
theorem multimap (changes : List Edit) :
    let h := empty.edits changes
    (∀ name, h.AgreesAt (Multimap.empty.edits changes) name) ∧ h.Placed := by
  intro h
  exact ⟨(represents_empty.edits changes).agreesAt, h.placed⟩

/-- names in several spellings, a value that is replaced in place, and one that is no text -/
example :
    let a := Bytes.ofAscii "A"
    let h := empty.edits [.append a [1], .append (Bytes.ofAscii "b") [2], .append a [3],
      .set (Bytes.ofAscii "a") [200]]
    h.fields = [⟨a, [200]⟩, ⟨Bytes.ofAscii "b", [2]⟩] ∧ h.getText? a = none
      ∧ h.remove a = (some [200], ⟨[⟨Bytes.ofAscii "b", [2]⟩]⟩) := by
  decide

end Headers

end PipelinedHttp
