import Mathlib.Data.List.Forall2
import Mathlib.Logic.Relation
import PipelinedHttp.Proofs.Connection.Invariant
import PipelinedHttp.Proofs.Headers.Multimap

/-!
# Which connections stay open

Whether a connection stays open after a reply hangs on the version of the request and the value of
its first `Connection` field, and on nothing else.

* `Headers.First`              the first value of a name, said without looking it up;
* `Headers.Aside`              changes of a header list that leave the first value of a name alone;
* `close_eq_false_iff`         so the connection stays open exactly if its request says so
                               (`StaysOpen`), whatever else is changed in the request;
* `Connection.reply_handling`  and this is what the reading loop does;
* `announced_apply`            the reply says so where it has to;
* `keep_alive_policy`          all of it together.
-/

namespace PipelinedHttp

namespace Headers
variable {h k : Headers} {name value : Bytes}

/-! ## first values -/

/-- the first field of the name has the value -/
def First (h : Headers) (name value : Bytes) : Prop :=
  ∃ front f rest, h.fields = front ++ f :: rest ∧ (∀ g ∈ front, ¬ g.Named name) ∧ f.Named name
    ∧ f.value = value

theorem get?_eq_some_iff : h.get? name = some value ↔ h.First name value := by
  unfold get? First
  rw [Option.map_eq_some_iff]
  constructor
  · rintro ⟨f, found, same⟩
    obtain ⟨named, front, rest, split, others⟩ := List.find?_eq_some_iff_append.mp found
    refine ⟨front, f, rest, split, fun g hg => ?_, of_decide_eq_true named, same⟩
    simpa using others g hg
  · rintro ⟨front, f, rest, split, others, named, same⟩
    refine ⟨f, List.find?_eq_some_iff_append.mpr ⟨decide_eq_true named, front, rest, split, ?_⟩,
      same⟩
    intro g hg
    simpa using others g hg

/-- a change that does not touch the value of the first field of a name -/
inductive Aside (name : Bytes) : Headers → Headers → Prop
  /-- names are spelt in another case -/
  | respelt {fs gs : List Field} :
      List.Forall₂ (fun f g => f.Named g.name ∧ f.value = g.value) fs gs → Aside name ⟨fs⟩ ⟨gs⟩
  /-- fields of other names are added, removed or moved -/
  | others {fs gs : List Field} :
      fs.filter (fun f => f.Named name) = gs.filter (fun g => g.Named name) → Aside name ⟨fs⟩ ⟨gs⟩
  /-- anything is done to what stands behind the first field of the name -/
  | behind {front rest rest' : List Field} {f : Field} :
      f.Named name → Aside name ⟨front ++ f :: rest⟩ ⟨front ++ f :: rest'⟩

theorem Aside.get?_eq (change : Aside name h k) : k.get? name = h.get? name := by
  cases change with
  | @respelt fs gs same =>
    show (gs.find? _).map _ = (fs.find? _).map _
    induction same with
    | nil => rfl
    | @cons f g fs gs first rest ih =>
      obtain ⟨spelt, value⟩ := first
      have named : f.Named name ↔ g.Named name := ⟨spelt.symm.trans, spelt.trans⟩
      rw [List.find?_cons, List.find?_cons, decide_eq_decide.mpr named]
      cases decide (g.Named name) with
      | true => exact congrArg some value.symm
      | false => exact ih
  | others same =>
    rw [get?_eq_head?_values, get?_eq_head?_values]
    exact congrArg (fun fs => (fs.map Field.value).head?) same.symm
  | @behind front rest rest' f named =>
    have here (rest : List Field) : (f :: rest).find? (fun g => g.Named name) = some f :=
      List.find?_cons_of_pos (decide_eq_true named)
    show ((front ++ f :: rest').find? _).map _ = ((front ++ f :: rest).find? _).map _
    rw [List.find?_append, List.find?_append, here, here]

theorem get?_of_aside (changes : Relation.ReflTransGen (Aside name) h k) :
    k.get? name = h.get? name := by
  induction changes with
  | refl => rfl
  | tail _ last ih => exact last.get?_eq.trans ih

end Headers

namespace KeepAlive
variable {version : Version} {h : Headers}

/-! ## the decision -/

/-- the request asks for a connection that stays open: by its first `Connection` field in 1.0, and
unless that says otherwise in 1.1 -/
def StaysOpen (version : Version) (h : Headers) : Prop :=
  version = .http10 ∧ h.First FieldName.connection keepAlive
    ∨ version = .http11 ∧ ¬ h.First FieldName.connection closing

theorem close_eq_false_iff : (evaluate version h).close = false ↔ StaysOpen version h := by
  unfold StaysOpen
  rw [← Headers.get?_eq_some_iff, ← Headers.get?_eq_some_iff]
  cases version <;> simp [evaluate]

theorem announce_eq_true_iff :
    (evaluate version h).announce = true ↔ version = .http10 ∧ StaysOpen version h := by
  unfold StaysOpen
  rw [← Headers.get?_eq_some_iff, ← Headers.get?_eq_some_iff]
  cases version <;> simp [evaluate]

theorem evaluate_congr {k : Headers}
    (same : k.get? FieldName.connection = h.get? FieldName.connection) :
    evaluate version k = evaluate version h := by
  unfold evaluate
  rw [same]

/-! ## the reply -/

/-- the headers of a reply that says that the connection stays open, in place of those given -/
structure Announced (given said : Headers) : Prop where
  one : said.values FieldName.connection = [keepAlive]
  first : ∀ front f rest, given.fields = front ++ f :: rest →
    (∀ g ∈ front, ¬ g.Named FieldName.connection) → f.Named FieldName.connection →
    said.fields
      = front ++ ⟨f.name, keepAlive⟩ :: rest.filter fun g => ¬ g.Named FieldName.connection
  absent : (∀ f ∈ given.fields, ¬ f.Named FieldName.connection) →
    said.fields = given.fields ++ [⟨FieldName.connection, keepAlive⟩]

theorem announced_set (given : Headers) :
    Announced given (given.set FieldName.connection keepAlive) where
  one := Headers.values_set_self given _ _
  first _ _ _ split others named := Headers.fields_set_of_first split named others keepAlive
  absent none := Headers.fields_set_of_absent none keepAlive

theorem announced_apply (version : Version) (h : Headers) (r : Reply) :
    let said := ((evaluate version h).apply r).headers
    (version = .http10 ∧ StaysOpen version h → Announced r.headers said)
      ∧ (¬ (version = .http10 ∧ StaysOpen version h) → said = r.headers) := by
  intro said
  rw [← announce_eq_true_iff]
  constructor
  · intro announce
    rw [show said = r.headers.set FieldName.connection keepAlive from
      congrArg Reply.headers (if_pos announce)]
    exact announced_set r.headers
  · intro silent
    exact congrArg Reply.headers (if_neg silent)

end KeepAlive

/-! ## the connection -/

theorem Connection.want_reader_ne_idle (c : Connection) (n : Need) : (c.want n).reader ≠ .idle := by
  intro idle
  rcases want_cases c n with ⟨-, e⟩ | ⟨-, -, e⟩ | ⟨-, -, e⟩ <;> rw [e] at idle <;> cases idle

/-- when the handler returns, its reply is queued, and the loop reads on exactly if the request asks
for a connection that stays open -/
theorem Connection.reply_handling {c : Connection} {request : Request}
    (reader : c.reader = .handling request) (r : Reply) :
    ∃ c', c.step (.reply r) = some (c', none)
      ∧ c'.queue.slots = c.queue.slots ++ [.reply (r.finish request)]
      ∧ (c'.reader = .idle ↔ KeepAlive.StaysOpen request.version request.headers) := by
  rw [← KeepAlive.close_eq_false_iff]
  unfold step reply
  rw [reader]
  dsimp only
  split
  · rename_i close
    refine ⟨_, rfl, want_slots _ _, ?_⟩
    rw [close]
    exact iff_of_false (want_reader_ne_idle _ _) nofun
  · rename_i stay
    exact ⟨_, rfl, rfl, iff_of_true rfl (Bool.eq_false_iff.mpr stay)⟩

/-! ## all of it -/

namespace KeepAlive

/-- what follows from a request of the version with the headers `h`, and from the reply of its
handler -/
structure Policy (version : Version) (h : Headers) (r : Reply) : Prop where
  staysOpen : (evaluate version h).close = false ↔ StaysOpen version h
  /-- nothing else in the request matters -/
  aside : ∀ k, Relation.ReflTransGen (Headers.Aside FieldName.connection) h k →
    evaluate version k = evaluate version h
  announced : version = .http10 → StaysOpen version h →
    Announced r.headers ((evaluate version h).apply r).headers
  silent : ¬ (version = .http10 ∧ StaysOpen version h) →
    ((evaluate version h).apply r).headers = r.headers
  /-- the reply is queued with these headers, and the loop reads on if the connection stays open -/
  followed : ∀ (c : Connection) (request : Request), c.reader = .handling request →
    request.version = version → request.headers = h →
    ∃ c' s, c.step (.reply r) = some (c', none) ∧ c'.queue.slots = c.queue.slots ++ [.reply s]
      ∧ s.headers = ((evaluate version h).apply r).headers
      ∧ (c'.reader = .idle ↔ StaysOpen version h)

/-- **Keep-alive.**  A connection stays open after a request of 1.0 whose first `Connection` field is
`Keep-Alive`, and after one of 1.1 whose first `Connection` field is not `Close`.  Other spellings of
names, fields of other names and later fields of this name make no difference.  In 1.0 the reply then has
one `Connection` field, which says so, where its handler had put the first one or else at the end; any
other reply keeps the headers that its handler gave. -/
theorem keep_alive_policy (version : Version) (h : Headers) (r : Reply) : Policy version h r := by
  obtain ⟨announced, silent⟩ := announced_apply version h r
  refine ⟨close_eq_false_iff, fun k changes => ?_, fun old opens => announced ⟨old, opens⟩, silent,
    ?_⟩
  · exact evaluate_congr (Headers.get?_of_aside changes)
  · rintro c request reader rfl rfl
    obtain ⟨c', step, slots, idle⟩ := Connection.reply_handling reader r
    exact ⟨c', _, step, slots, rfl, idle⟩

/-- the first field counts, in any spelling of its name, and the handler's own fields give way -/
example :
    let h : Headers := ⟨[⟨Bytes.ofAscii "CONNECTION", keepAlive⟩, ⟨FieldName.connection, closing⟩]⟩
    let r := (Reply.ok.appendHeader (Bytes.ofAscii "connection") closing).appendHeader
      FieldName.connection closing
    (evaluate .http10 h).close = false ∧ (evaluate .http2 h).close = true
      ∧ ((evaluate .http10 h).apply r).headers = ⟨[⟨Bytes.ofAscii "connection", keepAlive⟩]⟩
      ∧ ((evaluate .http11 h).apply r).headers = r.headers := by
  decide

end KeepAlive

end PipelinedHttp
