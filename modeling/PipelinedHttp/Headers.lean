import PipelinedHttp.Bytes
import PipelinedHttp.Text.Utf8

/-!
# Header lists

An ordered list of fields.  Names keep the spelling they came with and are compared without the
case of ASCII letters; fields keep the order in which they were added.

* `append`  adds a field at the end, whatever is there;
* `set`     leaves exactly one field of a name, where the first one stood, or at the end;
* `erase`   takes all fields of a name away, and `remove` tells the first value of it as well;
* `get?`    the first value of a name.

`values` is the view that the statements use: all values of one name, in order.
-/

namespace PipelinedHttp

structure Field where
  name : Bytes
  value : Bytes
  deriving DecidableEq

namespace Field

/-- the field has the given name, up to letter case -/
def Named (f : Field) (name : Bytes) : Prop := Bytes.SameName f.name name

instance (f : Field) (name : Bytes) : Decidable (f.Named name) :=
  inferInstanceAs (Decidable (Bytes.SameName f.name name))

end Field

/-! ## the names that the library itself looks at or writes -/

namespace FieldName

def connection : Bytes := Bytes.ofAscii "Connection"
def contentLength : Bytes := Bytes.ofAscii "Content-Length"
def contentType : Bytes := Bytes.ofAscii "Content-Type"
def date : Bytes := Bytes.ofAscii "Date"
def server : Bytes := Bytes.ofAscii "Server"
def transferEncoding : Bytes := Bytes.ofAscii "Transfer-Encoding"

end FieldName

structure Headers where
  fields : List Field
  deriving DecidableEq

namespace Headers

def empty : Headers := ⟨[]⟩

def size (h : Headers) : Nat := h.fields.length

def isEmpty (h : Headers) : Bool := h.fields.isEmpty

/-- all values of a name, in order -/
def values (h : Headers) (name : Bytes) : List Bytes :=
  (h.fields.filter fun f => f.Named name).map Field.value

/-! ## looking up -/

def get? (h : Headers) (name : Bytes) : Option Bytes :=
  (h.fields.find? fun f => f.Named name).map Field.value

def contains (h : Headers) (name : Bytes) : Bool := (h.get? name).isSome

/-- the first value of a name as text; nothing if it is not UTF-8 -/
def getText? (h : Headers) (name : Bytes) : Option String := (h.get? name).bind Utf8.decode?

/-! ## changing -/

def append (h : Headers) (name value : Bytes) : Headers := ⟨h.fields ++ [⟨name, value⟩]⟩

def setFields (name value : Bytes) : List Field → List Field
  | [] => [⟨name, value⟩]
  | f :: rest =>
    if f.Named name then { f with value } :: rest.filter fun g => ¬ g.Named name
    else f :: setFields name value rest

/-- the first field of the name takes the value and keeps place and spelling, later ones of that
name go; a name that is absent is added at the end -/
def set (h : Headers) (name value : Bytes) : Headers := ⟨setFields name value h.fields⟩

def erase (h : Headers) (name : Bytes) : Headers := ⟨h.fields.filter fun f => ¬ f.Named name⟩

/-- the first value of a name, and the list without that name -/
def remove (h : Headers) (name : Bytes) : Option Bytes × Headers :=
  match h.get? name with
  | none => (none, h)
  | some value => (some value, h.erase name)

inductive Edit where
  | append (name value : Bytes)
  | set (name value : Bytes)
  | erase (name : Bytes)
  deriving DecidableEq

def edit (h : Headers) : Edit → Headers
  | .append name value => h.append name value
  | .set name value => h.set name value
  | .erase name => h.erase name

def edits (h : Headers) (changes : List Edit) : Headers := changes.foldl edit h

/-! ## the view -/

theorem get?_eq_head?_values (h : Headers) (name : Bytes) :
    h.get? name = (h.values name).head? := by
  unfold get? values
  rw [List.head?_map, List.head?_filter]

theorem values_append (h : Headers) (name value other : Bytes) :
    (h.append name value).values other
      = h.values other ++ (if Bytes.SameName name other then [value] else []) := by
  unfold values append
  rw [List.filter_append, List.map_append]
  congr 1
  by_cases e : Bytes.SameName name other <;> simp [Field.Named, e]

theorem values_erase_self (h : Headers) (name : Bytes) : (h.erase name).values name = [] := by
  simp [values, erase, List.filter_filter]

theorem filter_named_of_ne {name other : Bytes} (ne : ¬ Bytes.SameName name other)
    (fields : List Field) :
    (fields.filter fun f => ¬ f.Named name).filter (fun f => f.Named other)
      = fields.filter fun f => f.Named other := by
  rw [List.filter_filter]
  refine List.filter_congr fun f _ => ?_
  by_cases e : f.Named other
  · have : ¬ f.Named name := fun e' => ne ((Bytes.SameName.symm e').trans e)
    simp [e, this]
  · simp [e]

theorem values_erase_of_ne (h : Headers) {name other : Bytes} (ne : ¬ Bytes.SameName name other) :
    (h.erase name).values other = h.values other :=
  congrArg (List.map Field.value) (filter_named_of_ne ne h.fields)

theorem filter_setFields_self (name value : Bytes) (fields : List Field) :
    ((setFields name value fields).filter fun f => f.Named name).map Field.value = [value] := by
  induction fields with
  | nil => simp [setFields, Field.Named, Bytes.SameName.refl]
  | cons f fields ih =>
    unfold setFields
    by_cases e : f.Named name
    · have e' : ({ f with value } : Field).Named name := e
      simp [e, e', List.filter_filter]
    · rw [if_neg e, List.filter_cons_of_neg (by simpa using e)]
      exact ih

theorem filter_setFields_of_ne {name other : Bytes} (ne : ¬ Bytes.SameName name other)
    (value : Bytes) (fields : List Field) :
    (setFields name value fields).filter (fun f => f.Named other)
      = fields.filter fun f => f.Named other := by
  induction fields with
  | nil => simp [setFields, Field.Named, ne]
  | cons f fields ih =>
    unfold setFields
    by_cases e : f.Named name
    · have e' : ¬ f.Named other := fun e'' => ne ((Bytes.SameName.symm e).trans e'')
      have e'' : ¬ ({ f with value } : Field).Named other := e'
      rw [if_pos e, List.filter_cons_of_neg (by simpa using e''),
        List.filter_cons_of_neg (by simpa using e')]
      exact filter_named_of_ne ne fields
    · rw [if_neg e, List.filter_cons, List.filter_cons, ih]

theorem values_set_self (h : Headers) (name value : Bytes) :
    (h.set name value).values name = [value] :=
  filter_setFields_self name value h.fields

theorem values_set_of_ne (h : Headers) {name other : Bytes} (ne : ¬ Bytes.SameName name other)
    (value : Bytes) : (h.set name value).values other = h.values other :=
  congrArg (List.map Field.value) (filter_setFields_of_ne ne value h.fields)

end Headers

end PipelinedHttp
