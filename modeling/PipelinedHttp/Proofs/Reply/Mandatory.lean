import Mathlib.Data.List.Induction
import PipelinedHttp.Proofs.Headers.Multimap
import PipelinedHttp.Reply.Outgoing

/-!
# Mandatory headers

A reply is written with the name of the server, the date and the length of its body, whatever its
handler has said of these.

* `stamped`           what becomes of a list of fields, read once from its front: the first field of
                      each of the names takes the value, the later ones go, and what has not been
                      found stands at the end;
* `setFields_stamped` to set one more name is to read with one more name;
* `fields_setAll`, `values_setAll`   so names that are set one after the other are one reading, and
                      each ends up with its one value;
* `mandatory_headers` so each of the three names has exactly one field, and all else stays.
-/

namespace PipelinedHttp

/-- The fields with the given stamps, of which some are still due.  The first field that has the
name of a stamp takes its value, later ones are left out, and what is due in the end is added. -/
def stamped (stamps : List Field) : List Field → List Field → List Field
  | due, [] => due
  | due, f :: fields =>
    match due.find? fun s => f.Named s.name with
    | some s => ⟨f.name, s.value⟩ :: stamped stamps (due.erase s) fields
    | none =>
      if ∃ s ∈ stamps, f.Named s.name then stamped stamps due fields
      else f :: stamped stamps due fields

namespace Headers
variable {stamps due : List Field} {m : Field}

theorem stamped_nil (fields : List Field) : stamped [] [] fields = fields := by
  induction fields with
  | nil => rfl
  | cons f fields ih => simp [stamped, ih]

/-- a name that is not among the stamps -/
def NewName (stamps : List Field) (m : Field) : Prop :=
  ∀ s ∈ stamps, ¬ Bytes.SameName s.name m.name

theorem NewName.not_named (new : NewName stamps m) {s f : Field} (mem : s ∈ stamps)
    (named : f.Named s.name) : ¬ f.Named m.name :=
  fun e => new s mem (named.symm.trans e)

theorem exists_stamp_append (stamps : List Field) (m f : Field) :
    (∃ s ∈ stamps ++ [m], f.Named s.name) ↔ (∃ s ∈ stamps, f.Named s.name) ∨ f.Named m.name := by
  simp [or_and_right, exists_or]

theorem NewName.not_mem (new : NewName stamps m) : m ∉ stamps :=
  fun mem => new m mem (Bytes.SameName.refl m.name)

theorem stamped_not_due (new : NewName stamps m) (sub : due ⊆ stamps) (fields : List Field) :
    stamped (stamps ++ [m]) due fields
      = (stamped stamps due fields).filter fun f => ¬ f.Named m.name := by
  induction fields generalizing due with
  | nil =>
    refine (List.filter_eq_self.mpr fun s mem => ?_).symm
    exact decide_eq_true (new s (sub mem))
  | cons f fields ih =>
    unfold stamped
    cases found : due.find? fun s => f.Named s.name with
    | some s =>
      have mem := List.mem_of_find?_eq_some found
      have named : f.Named s.name := by simpa using List.find?_some found
      have other : ¬ (⟨f.name, s.value⟩ : Field).Named m.name := new.not_named (sub mem) named
      show _ :: stamped (stamps ++ [m]) (due.erase s) fields = _
      rw [ih fun t ht => sub (List.mem_of_mem_erase ht)]
      refine (List.filter_cons_of_pos ?_).symm
      exact decide_eq_true other
    | none =>
      simp only
      have either := exists_stamp_append stamps m f
      rw [ih sub]
      by_cases stamp : ∃ s ∈ stamps, f.Named s.name
      · rw [if_pos (either.mpr (.inl stamp)), if_pos stamp]
      · rw [if_neg stamp]
        by_cases named : f.Named m.name
        · rw [if_pos (either.mpr (.inr named)), List.filter_cons_of_neg (by simpa using named)]
        · rw [if_neg fun e => (either.mp e).elim stamp named,
            List.filter_cons_of_pos (by simpa using named)]

/-- to set one more name is to read with one more stamp -/
theorem setFields_stamped (new : NewName stamps m) (sub : due ⊆ stamps) (fields : List Field) :
    setFields m.name m.value (stamped stamps due fields)
      = stamped (stamps ++ [m]) (due ++ [m]) fields := by
  induction fields generalizing due with
  | nil => exact fields_set_of_absent (h := ⟨due⟩) (fun s mem => new s (sub mem)) m.value
  | cons f fields ih =>
    unfold stamped
    rw [List.find?_append]
    cases found : due.find? fun s => f.Named s.name with
    | some s =>
      have mem := List.mem_of_find?_eq_some found
      have named : f.Named s.name := by simpa using List.find?_some found
      have other : ¬ (⟨f.name, s.value⟩ : Field).Named m.name := new.not_named (sub mem) named
      show setFields _ _ (_ :: stamped stamps (due.erase s) fields)
        = _ :: stamped (stamps ++ [m]) ((due ++ [m]).erase s) fields
      rw [setFields, if_neg other, ih fun t ht => sub (List.mem_of_mem_erase ht),
        List.erase_append_left _ mem]
    | none =>
      by_cases named : f.Named m.name
      · have stamp : ¬ ∃ s ∈ stamps, f.Named s.name := by
          rintro ⟨s, mem, e⟩
          exact new.not_named mem e named
        have hit : [m].find? (fun s => f.Named s.name) = some m :=
          List.find?_cons_of_pos (decide_eq_true named)
        have erased : (due ++ [m]).erase m = due := by
          rw [List.erase_append_right _ fun mem => new.not_mem (sub mem), List.erase_cons_head,
            List.append_nil]
        simp only [hit, Option.none_or, erased]
        rw [if_neg stamp, setFields, if_pos named, stamped_not_due new sub]
      · have miss : [m].find? (fun s => f.Named s.name) = none :=
          List.find?_cons_of_neg (by simpa using named)
        have either := exists_stamp_append stamps m f
        simp only [miss, Option.none_or]
        by_cases stamp : ∃ s ∈ stamps, f.Named s.name
        · rw [if_pos stamp, if_pos (either.mpr (.inl stamp)), ih sub]
        · rw [if_neg stamp, if_neg fun e => (either.mp e).elim stamp named, setFields,
            if_neg named, ih sub]

/-- each name is set to its value, one after the other -/
def setAll (h : Headers) (stamps : List Field) : Headers :=
  stamps.foldl (fun h m => h.set m.name m.value) h

theorem setAll_append (h : Headers) (stamps : List Field) (m : Field) :
    h.setAll (stamps ++ [m]) = (h.setAll stamps).set m.name m.value :=
  List.foldl_append

/-- no two stamps have the same name -/
def Apart (stamps : List Field) : Prop := stamps.Pairwise fun s m => ¬ Bytes.SameName s.name m.name

theorem Apart.last (apart : Apart (stamps ++ [m])) : Apart stamps ∧ NewName stamps m := by
  obtain ⟨before, -, last⟩ := List.pairwise_append.mp apart
  exact ⟨before, fun s mem => last s mem m List.mem_cons_self⟩

/-- to set names one after the other is to read once with a stamp for each of them -/
theorem fields_setAll (apart : Apart stamps) (h : Headers) :
    (h.setAll stamps).fields = stamped stamps stamps h.fields := by
  induction stamps using List.reverseRecOn with
  | nil => exact (stamped_nil h.fields).symm
  | append_singleton stamps m ih =>
    obtain ⟨before, new⟩ := apart.last
    rw [setAll_append]
    show setFields _ _ (h.setAll stamps).fields = _
    rw [ih before]
    exact setFields_stamped new (List.Subset.refl stamps) h.fields

theorem values_setAll (apart : Apart stamps) (h : Headers) :
    ∀ s ∈ stamps, (h.setAll stamps).values s.name = [s.value] := by
  induction stamps using List.reverseRecOn with
  | nil => nofun
  | append_singleton stamps m ih =>
    obtain ⟨before, new⟩ := apart.last
    intro s mem
    rw [setAll_append]
    rcases List.mem_append.mp mem with earlier | last
    · have ne : ¬ Bytes.SameName m.name s.name := fun e => new s earlier e.symm
      rw [values_set_of_ne _ ne]
      exact ih before s earlier
    · cases List.mem_singleton.mp last
      exact values_set_self _ _ _

/-- the fields that have none of the names -/
def without (h : Headers) (names : List Bytes) : List Field :=
  h.fields.filter fun f => ∀ name ∈ names, ¬ f.Named name

theorem without_set (h : Headers) {names : List Bytes} {name : Bytes} (mem : name ∈ names)
    (value : Bytes) : (h.set name value).without names = h.without names := by
  have stronger (fields : List Field) : fields.filter (fun f => ∀ n ∈ names, ¬ f.Named n)
      = (fields.filter fun f => ¬ f.Named name).filter fun f => ∀ n ∈ names, ¬ f.Named n := by
    rw [List.filter_filter]
    refine List.filter_congr fun f _ => ?_
    by_cases named : f.Named name
    · have not : ¬ ∀ n ∈ names, ¬ f.Named n := fun all => all name mem named
      simp [named, not]
    · simp [named]
  show (setFields name value h.fields).filter _ = h.fields.filter _
  rw [stronger, filter_setFields_not, ← stronger]

theorem without_setAll (h : Headers) {names : List Bytes} (sub : ∀ s ∈ stamps, s.name ∈ names) :
    (h.setAll stamps).without names = h.without names := by
  induction stamps generalizing h with
  | nil => rfl
  | cons s stamps ih =>
    obtain ⟨first, later⟩ := List.forall_mem_cons.mp sub
    exact (ih (h.set s.name s.value) later).trans (without_set h first s.value)

end Headers

namespace Reply

/-- the headers that every reply is written with -/
def mandatory (r : Reply) (serverName date : Bytes) : List Field :=
  [⟨FieldName.server, serverName⟩, ⟨FieldName.date, date⟩,
    ⟨FieldName.contentLength, Bytes.decimal r.body.length⟩]

def mandatoryNames : List Bytes := [FieldName.server, FieldName.date, FieldName.contentLength]

theorem names_mandatory (r : Reply) (serverName date : Bytes) :
    (r.mandatory serverName date).map Field.name = mandatoryNames := rfl

theorem mandatory_apart (r : Reply) (serverName date : Bytes) :
    Headers.Apart (r.mandatory serverName date) := by
  have names : mandatoryNames.Pairwise fun a b => ¬ Bytes.SameName a b := by decide
  rw [← r.names_mandatory serverName date] at names
  exact List.pairwise_map.mp names

theorem headers_stamp (r : Reply) (serverName date : Bytes) :
    (r.stamp serverName date).headers = r.headers.setAll (r.mandatory serverName date) := rfl

/-- the reply that is written in the place of another -/
structure Stamped (r : Reply) (serverName date : Bytes) (s : Reply) : Prop where
  /-- one field for the name of the server, the date and the length of the body -/
  values : ∀ m ∈ r.mandatory serverName date, s.headers.values m.name = [m.value]
  /-- a field that the handler has given keeps place and spelling, a missing one is added -/
  places : s.headers.fields
    = stamped (r.mandatory serverName date) (r.mandatory serverName date) r.headers.fields
  others : s.headers.without mandatoryNames = r.headers.without mandatoryNames
  statusLine : s.statusLine = r.statusLine
  /-- nothing but the headers changes -/
  rest : { s with headers := r.headers } = r

/-- **Mandatory headers.**  Whatever a handler has put into its reply, the reply that is written has
exactly one field for each of the three names, with the value of this server.  The first field of
such a name stays where it is and as it is spelt, those that are missing are added in their order,
and nothing else of the reply changes. -/
theorem mandatory_headers (r : Reply) (serverName date : Bytes) :
    Stamped r serverName date (r.stamp serverName date) := by
  have apart := r.mandatory_apart serverName date
  have sub : ∀ m ∈ r.mandatory serverName date, m.name ∈ mandatoryNames := by
    intro m mem
    rw [← r.names_mandatory serverName date]
    exact List.mem_map_of_mem mem
  refine ⟨?_, ?_, ?_, rfl, rfl⟩ <;> rw [headers_stamp]
  · exact Headers.values_setAll apart r.headers
  · exact Headers.fields_setAll apart r.headers
  · exact Headers.without_setAll r.headers sub

/-- fields of a handler in other spellings, given twice and in another order -/
example :
    let length := Bytes.ofAscii "content-length"
    let r := (ofStatus .ok).edits ([⟨length, [1]⟩, ⟨[120], [2]⟩, ⟨FieldName.contentLength, [3]⟩,
      ⟨Bytes.ofAscii "SERVER", [4]⟩].map fun f : Field => .headers (.append f.name f.value))
    (r.stamp [5] [6]).headers.fields
      = [⟨length, Bytes.ofAscii "0"⟩, ⟨[120], [2]⟩, ⟨Bytes.ofAscii "SERVER", [5]⟩,
        ⟨FieldName.date, [6]⟩] := by
  decide

end Reply

end PipelinedHttp
