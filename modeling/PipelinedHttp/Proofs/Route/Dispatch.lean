import PipelinedHttp.Proofs.Route.Growth
import PipelinedHttp.Proofs.Route.Reading
import PipelinedHttp.Routes

/-!
# Dispatching requests

A table is built route by route.  What it does with a request depends on its routes alone, and not
on the order in which they have been put in.

* `Built`       the tables that routes have been put into, with or without a fallback;
* `Regular`     routes whose trees are sound.  Nothing is said of the others: an escape that has
                been shifted may open a tree to a second parameter in a segment, and a root that is
                planted anew loses or moves the route of the empty text;
* `Built.kept`  the tree of a table with regular routes is sound, and lists them;
* `Fitting`     the routes that take a path, with their parameters;
* `Chosen`      of these the one that counts for most;
* `dispatch`    the chosen route is called, and the fallback only if there is none.
-/

namespace PipelinedHttp

namespace Route
variable {α : Type}

/-! ## tables -/

/-- a table that the given routes have been put into, in this order -/
inductive Built : List (Bytes × α) → Routes α → Prop
  | empty : Built [] .empty
  | route {given : List (Bytes × α)} {r r' : Routes α} {text : Bytes} {value : α} :
      Built given r → r.route text value = .ok r' → Built (given ++ [(text, value)]) r'
  | fallback {given : List (Bytes × α)} {r : Routes α} (value : α) :
      Built given r → Built given (r.withFallback value)

/-- routes put in one after the other -/
def putAll (r : Routes α) (given : List (Bytes × α)) : Except InsertError (Routes α) :=
  given.foldlM (fun r g => r.route g.1 g.2) r

theorem Built.putAll {given more : List (Bytes × α)} {r r' : Routes α} (built : Built given r)
    (h : Route.putAll r more = .ok r') : Built (given ++ more) r' := by
  induction more generalizing given r with
  | nil =>
    cases h
    rw [List.append_nil]
    exact built
  | cons g more ih =>
    rw [Route.putAll, List.foldlM_cons] at h
    obtain ⟨m, put, h⟩ := bind_eq_ok h
    have later := ih (built.route put) h
    rwa [List.append_assoc] at later

theorem Built.of_toOption {given : List (Bytes × α)} {r : Routes α}
    (h : (Route.putAll .empty given).toOption = some r) : Built given r := by
  cases put : Route.putAll .empty given with
  | error =>
    rw [put] at h
    cases h
  | ok r' =>
    rw [put] at h
    cases h
    exact Built.empty.putAll put

/-- a route as it is kept -/
def Given (given : List (Bytes × α)) (l : Leaf α) : Prop :=
  ∃ text, (text, l.value) ∈ given ∧ Pattern.ofBytes text = .ok l.pattern

def listing (given : List (Bytes × α)) : Listing α :=
  fun s l => Given given l ∧ s = l.pattern.shape

/-- the empty text is the first of several routes only if the next begins with a parameter -/
def Rooted : List (Bytes × α) → Prop
  | ([], _) :: (text, _) :: _ => ∃ q p, Pattern.ofBytes text = .ok (q :: p) ∧ q.isByte = false
  | _ => True

/-- no segment of a route has a second parameter, and the routes are rooted -/
structure Regular (given : List (Bytes × α)) : Prop where
  spaced : ∀ l, Given given l → l.pattern.Spaced
  rooted : Rooted given

section
variable {given : List (Bytes × α)} {text : Bytes} {value : α} {p : Pattern}

theorem given_append (read : Pattern.ofBytes text = .ok p) (l : Leaf α) :
    Given (given ++ [(text, value)]) l ↔ l = ⟨p, value⟩ ∨ Given given l := by
  constructor
  · rintro ⟨text', mem, read'⟩
    rcases List.mem_append.mp mem with old | new
    · exact .inr ⟨text', old, read'⟩
    · obtain ⟨rfl, same⟩ := Prod.mk.inj (List.mem_singleton.mp new)
      obtain ⟨p', value'⟩ := l
      obtain rfl := Except.ok.inj (read'.symm.trans read)
      exact .inl (congrArg _ same)
  · rintro (rfl | ⟨text', old, read'⟩)
    · exact ⟨text, List.mem_append_right _ List.mem_cons_self, read⟩
    · exact ⟨text', List.mem_append_left _ old, read'⟩

theorem listing_append (read : Pattern.ofBytes text = .ok p) :
    listing (given ++ [(text, value)]) = (listing given).plus p.shape ⟨p, value⟩ := by
  refine Listing.ext fun s l => ?_
  rw [listing, given_append read]
  constructor
  · rintro ⟨rfl | old, rfl⟩
    · exact .inl ⟨rfl, rfl⟩
    · exact .inr ⟨old, rfl⟩
  · rintro (⟨rfl, rfl⟩ | ⟨old, rfl⟩)
    · exact ⟨.inl rfl, rfl⟩
    · exact ⟨.inr old, rfl⟩

theorem rooted_of_head (first : ∀ g ∈ given.head?, g.1 ≠ []) : Rooted given := by
  match given with
  | [] | [([], _)] | (_ :: _, _) :: _ => trivial
  | ([], _) :: _ :: _ => exact absurd rfl (first _ rfl)

theorem Rooted.of_append {g : Bytes × α} (h : Rooted (given ++ [g])) : Rooted given := by
  match given with
  | [] | [([], _)] | (_ :: _, _) :: _ => trivial
  | ([], _) :: _ :: _ => exact h

theorem Regular.of_append (h : Regular (given ++ [(text, value)])) : Regular given :=
  ⟨fun l ⟨text', mem, read⟩ => h.spaced l ⟨text', List.mem_append_left _ mem, read⟩,
    h.rooted.of_append⟩

theorem Regular.of_perm {given' : List (Bytes × α)} (h : Regular given) (perm : given'.Perm given)
    (rooted : Rooted given') : Regular given' :=
  ⟨fun l ⟨text, mem, read⟩ => h.spaced l ⟨text, perm.mem_iff.mp mem, read⟩, rooted⟩

instance Pattern.decidableSpaced : (p : Pattern) → Decidable p.Spaced
  | [] => .isTrue trivial
  | .byte _ :: p => Pattern.decidableSpaced p
  | .param _ _ :: p => @instDecidableAnd _ _ inferInstance (Pattern.decidableSpaced p)
  | .rest _ :: p => Pattern.decidableSpaced p

/-- what makes routes regular, as it is looked up in their texts -/
theorem regular_of_texts (spaced : ∀ text ∈ given.map Prod.fst,
      (Pattern.ofBytes text).toOption.all fun p => p.Spaced)
    (first : ∀ text ∈ (given.map Prod.fst).head?, text ≠ []) : Regular given := by
  refine ⟨fun l ⟨text, mem, read⟩ => ?_, rooted_of_head fun g mem => first g.1 ?_⟩
  · have checked := spaced text (List.mem_map_of_mem mem)
    rw [read] at checked
    exact of_decide_eq_true checked
  · rw [List.head?_map, mem]
    rfl

end

/-- The tree of a table lists its routes.  It is bare only if there are none but the empty text. -/
structure Kept (given : List (Bytes × α)) (root : Tree α) : Prop where
  sound : root.Sound
  has : root.Has = listing given
  planted : (given = [] ∧ root = .empty)
    ∨ (∃ value weight leaf, given = [([], value)] ∧ root = .node weight [] leaf .nil .none)
    ∨ ∃ s l, s ≠ [] ∧ root.Has s l

theorem kept_empty : Kept [] (Tree.empty : Tree α) where
  sound := ⟨nofun, trivial, Forest.branching_nil, trivial⟩
  has := by
    refine Listing.ext fun s l => iff_of_false ?_ ?_
    · simp [Tree.empty, Tree.Has, Forest.Has, Wild.Has, Listing.empty]
    · rintro ⟨⟨text, mem, -⟩, -⟩
      cases mem
  planted := .inl ⟨rfl, rfl⟩

theorem Kept.of_bare {given : List (Bytes × α)} {weight : Nat} {above : Option (Leaf α)}
    (kept : Kept given (.node weight [] above .nil .none)) :
    (given = [] ∧ above = none) ∨ ∃ value, given = [([], value)] := by
  rcases kept.planted with ⟨none, e⟩ | ⟨value, _, _, one, -⟩ | ⟨s, l, some, has⟩
  · cases e
    exact .inl ⟨none, rfl⟩
  · exact .inr ⟨value, one⟩
  · rw [Tree.Has] at has
    obtain ⟨t, rfl, ⟨rfl, -⟩ | impossible | impossible⟩ := has
    · exact absurd rfl some
    · exact impossible.elim
    · exact impossible.elim

theorem Kept.insert {given : List (Bytes × α)} {t t' : Table α} {text : Bytes} {value : α}
    (kept : Kept given t.root) (regular : Regular (given ++ [(text, value)]))
    (h : t.insert text value = .ok t') : Kept (given ++ [(text, value)]) t'.root := by
  obtain ⟨p, read, h⟩ := bind_eq_ok h
  have here : Given (given ++ [(text, value)]) ⟨p, value⟩ := (given_append read _).mpr (.inl rfl)
  have spaced : p.Spaced := regular.spaced _ here
  have clean : p.Clean := clean_ofBytes read spaced
  have listed (has : t'.root.Has = t.root.Has.plus p.shape ⟨p, value⟩) :
      t'.root.Has = listing (given ++ [(text, value)]) := by
    rw [has, kept.has, listing_append read]
  have branched (some : p ≠ []) (has : t'.root.Has = t.root.Has.plus p.shape ⟨p, value⟩) :
      ∃ s l, s ≠ [] ∧ t'.root.Has s l :=
    ⟨p.shape, ⟨p, value⟩, fun none => some (List.map_eq_nil_iff.mp none), has ▸ .inl ⟨rfl, rfl⟩⟩
  simp only at h
  split at h
  · rename_i weight above root
    obtain ⟨u, grafted, e⟩ := bind_eq_ok h
    cases e
    rcases Kept.of_bare (root ▸ kept) with ⟨rfl, rfl⟩ | ⟨value', rfl⟩
    · obtain ⟨sound, has, -⟩ := graft_fuel clean grafted
      have has : u.Has = t.root.Has.plus p.shape ⟨p, value⟩ := by
        rw [root, has]
        simp [Tree.Has, Forest.Has, Wild.Has]
      refine ⟨sound, listed has, .inr ?_⟩
      by_cases none : text = []
      · subst none
        cases read
        cases grafted
        exact .inl ⟨value, _, _, rfl, rfl⟩
      · exact .inr (branched (ofBytes_ne_nil read none) has)
    · -- the empty text stays where the new route begins with a parameter
      obtain ⟨q, p', read', notByte⟩ := regular.rooted
      obtain rfl := Except.ok.inj (read.symm.trans read')
      obtain ⟨sound, has⟩ := graft_above clean notByte grafted
      have has : u.Has = t.root.Has.plus (Pattern.shape (q :: p')) ⟨q :: p', value⟩ := by
        rw [root, has]
        simp [Tree.Has, Forest.Has, Wild.Has, plain, literal]
      exact ⟨sound, listed has, .inr (.inr (branched (List.cons_ne_nil _ _) has))⟩
  · rename_i grown
    obtain ⟨u, grown', e⟩ := bind_eq_ok h
    cases e
    obtain ⟨sound, has, -⟩ := Tree.insert_spec t.root kept.sound clean spaced grown'
    refine ⟨sound, listed has, .inr (.inr ?_)⟩
    rcases kept.planted with ⟨-, bare⟩ | ⟨_, weight, leaf, -, bare⟩ | ⟨s, l, some, old⟩
    · exact (grown _ _ bare).elim
    · exact (grown _ _ bare).elim
    · exact ⟨s, l, some, has ▸ .inr old⟩

theorem insert_of_route {r r' : Routes α} {text : Bytes} {value : α}
    (h : r.route text value = .ok r') :
    ∃ table, r.table.insert text value = .ok table ∧ r' = { r with table } := by
  unfold Routes.route at h
  cases inserted : r.table.insert text value with
  | error =>
    rw [inserted] at h
    cases h
  | ok table =>
    rw [inserted] at h
    cases h
    exact ⟨table, rfl, rfl⟩

theorem Built.kept {given : List (Bytes × α)} {r : Routes α} (built : Built given r)
    (regular : Regular given) : Kept given r.table.root := by
  induction built with
  | empty => exact kept_empty
  | @route given r r' text value built put ih =>
    obtain ⟨table, inserted, rfl⟩ := insert_of_route put
    exact (ih regular.of_append).insert regular inserted
  | fallback value built ih => exact ih regular

/-! ## dispatching -/

/-- The route takes the path: the path is its pattern with the parameters put in, and each of these
ends where the longest end begins that any route has there. -/
structure Fitting (given : List (Bytes × α)) (path : Bytes) (l : Leaf α)
    (params : List (Bytes × Bytes)) : Prop where
  isGiven : Given given l
  fits : l.pattern.Matches path params
  ends : Takes (listing given) l.pattern.shape path (params.map Prod.snd)

/-- the route takes the path, and counts for more than any other that does -/
structure Chosen (given : List (Bytes × α)) (path : Bytes) (l : Leaf α)
    (params : List (Bytes × Bytes)) : Prop where
  fitting : Fitting given path l params
  first : ∀ l' params', Fitting given path l' params' →
    (l' = l ∧ params' = params) ∨ Prefers l.pattern.shape l'.pattern.shape

section
variable {given : List (Bytes × α)} {path : Bytes} {l : Leaf α}

theorem Pattern.Matches.names {p : Pattern} {params : List (Bytes × Bytes)}
    (h : p.Matches path params) : params.map Prod.fst = p.names := by
  induction h with
  | nil | rest => rfl
  | byte c h ih => exact ih
  | param index name value some one h ih => exact congrArg (name :: ·) ih

theorem candidates_listing_iff {s : Shape} {values : List Bytes} :
    (listing given).candidates path s l values
      ↔ s = l.pattern.shape ∧ ∃ params, Fitting given path l params
        ∧ values = params.map Prod.snd := by
  constructor
  · rintro ⟨⟨here, rfl⟩, takes⟩
    obtain ⟨fits, same⟩ := takes.matches
    exact ⟨rfl, _, ⟨here, fits, same.symm ▸ takes⟩, same.symm⟩
  · rintro ⟨rfl, params, fitting, rfl⟩
    exact ⟨⟨fitting.isGiven, rfl⟩, fitting.ends⟩

/-- the values of the parameters and their names in order are the parameters -/
theorem Fitting.params_eq {params : List (Bytes × Bytes)} (h : Fitting given path l params) :
    l.pattern.names.zip (params.map Prod.snd) = params :=
  (List.zip_of_prod h.fits.names rfl).symm

theorem Kept.find?_spec {t : Table α} (kept : Kept given t.root) (path : Bytes) :
    (∃ l params, Chosen given path l params ∧ t.find? path = some (l.value, params))
      ∨ (∀ l params, ¬ Fitting given path l params) ∧ t.find? path = none := by
  have outcome := Tree.outcome t.root kept.sound path
  rw [kept.has] at outcome
  unfold Table.find?
  cases found : t.root.find path with
  | none =>
    rw [found] at outcome
    refine .inr ⟨fun l params fitting => ?_, rfl⟩
    exact outcome _ l _ (candidates_listing_iff.mpr ⟨rfl, params, fitting, rfl⟩)
  | some result =>
    obtain ⟨l, values⟩ := result
    rw [found] at outcome
    obtain ⟨s, here, most⟩ := outcome
    obtain ⟨rfl, params, fitting, rfl⟩ := candidates_listing_iff.mp here
    refine .inl ⟨l, params, ⟨fitting, fun l' params' fitting' => ?_⟩, ?_⟩
    · have there := candidates_listing_iff.mpr ⟨rfl, params', fitting', rfl⟩
      refine (most _ _ _ there).imp_left ?_
      rintro ⟨-, rfl, same⟩
      rw [← fitting.params_eq, ← fitting'.params_eq, same]
      exact ⟨rfl, rfl⟩
    · exact congrArg (fun params => some (l.value, params)) fitting.params_eq

theorem not_prefers_literal (s : Shape) (text : Bytes) : ¬ Prefers s (literal text) := by
  induction s generalizing text with
  | nil => exact id
  | cons a s ih =>
    cases text with
    | nil => cases a <;> exact id
    | cons b text =>
      intro h
      by_cases same : a = .byte b
      · subst same
        exact ih text (prefers_cons.mp h)
      · exact ((prefers_of_ne same).mp h).2 ⟨b, rfl⟩

theorem Pattern.Matches.shape_of_nil {p : Pattern} {params : List (Bytes × Bytes)}
    (h : p.Matches path params) (none : params = []) : p.shape = literal path := by
  induction h with
  | nil => rfl
  | byte c h ih => exact congrArg (_ :: ·) (ih none)
  | param | rest => cases none

theorem Pattern.matches_text (text : Bytes) :
    Pattern.Matches (text.map fun b => .byte ⟨b, false⟩) text [] := by
  induction text with
  | nil => exact .nil
  | cons b text ih => exact .byte ⟨b, false⟩ ih

theorem takes_literal (H : Listing α) (text : Bytes) : Takes H (literal text) text [] := by
  have h : Takes H (literal text ++ []) text [] :=
    takes_literal_iff.mpr ⟨[], (List.append_nil text).symm, .nil⟩
  rwa [List.append_nil] at h

theorem Chosen.of_literal {l' : Leaf α} {params : List (Bytes × Bytes)}
    (h : Chosen given path l' params) (here : Given given l) (fits : l.pattern.Matches path []) :
    l = l' ∧ params = [] := by
  have shape := fits.shape_of_nil rfl
  have fitting : Fitting given path l [] := ⟨here, fits, shape ▸ takes_literal _ path⟩
  rcases h.first l [] fitting with ⟨same, none⟩ | before
  · exact ⟨same, none.symm⟩
  · exact absurd (shape ▸ before) (not_prefers_literal _ _)

theorem listing_congr {given' : List (Bytes × α)} (perm : given'.Perm given) :
    listing given' = listing given := by
  refine Listing.ext fun s l => and_congr_left fun _ => exists_congr fun text => ?_
  rw [perm.mem_iff]

/-- the order of the routes does not matter -/
theorem Kept.find?_congr {given' : List (Bytes × α)} {t t' : Table α} (kept : Kept given t.root)
    (kept' : Kept given' t'.root) (perm : given'.Perm given) (path : Bytes) :
    t'.find? path = t.find? path := by
  have outcome := Tree.outcome t.root kept.sound path
  have outcome' := Tree.outcome t'.root kept'.sound path
  rw [kept.has] at outcome
  rw [kept'.has, listing_congr perm] at outcome'
  unfold Table.find?
  rw [outcome'.unique outcome]

/-- if no route has text behind a parameter in its segment, what a pattern matches is taken -/
theorem fitting_iff_of_whole (whole : ∀ l, Given given l → Whole l.pattern.shape)
    {params : List (Bytes × Bytes)} :
    Fitting given path l params ↔ Given given l ∧ l.pattern.Matches path params := by
  refine ⟨fun h => ⟨h.isGiven, h.fits⟩, fun ⟨here, fits⟩ => ⟨here, fits, ?_⟩⟩
  exact fits.takes (fun s l there => there.2 ▸ whole l there.1) ⟨here, rfl⟩

end

/-- what a table with the given routes does with a request -/
structure Dispatched (given : List (Bytes × Handler)) (r : Routes Handler) (path : Bytes)
    (request : Request) : Prop where
  /-- a route is what it is written as -/
  spelt : ∀ g ∈ given, ∃ p, Pattern.ofBytes g.1 = .ok p ∧ Spelt p (cells g.1)
  /-- one handler is called, with the path -/
  handled : r.handler path request
    = ((r.select path request).1.getD fun _ _ => Routes.notFound) path (r.select path request).2
  /-- it is that of the route that is chosen, with the parameters of the route, or the fallback with
  the request as it is -/
  called : (∃ l params, Chosen given path l params
      ∧ r.select path request = (some l.value, request.withPathParams params))
    ∨ (∀ l params, ¬ Fitting given path l params) ∧ r.select path request = (r.fallback, request)
  /-- the route that is the path, if there is one -/
  literal : ∀ l, Given given l → l.pattern.Matches path [] →
    r.select path request = (some l.value, request.withPathParams [])
  /-- in whatever order the routes have been put in -/
  order : ∀ given' r', Built given' r' → given'.Perm given → Rooted given' →
    r'.fallback = r.fallback → r'.select path request = r.select path request
  /-- nothing else counts if no route has text behind a parameter in its segment -/
  whole : (∀ l, Given given l → Whole l.pattern.shape) → ∀ l params,
    Fitting given path l params ↔ Given given l ∧ l.pattern.Matches path params

theorem Built.read {given : List (Bytes × α)} {r : Routes α} (built : Built given r) :
    ∀ g ∈ given, ∃ p, Pattern.ofBytes g.1 = .ok p := by
  induction built with
  | empty => nofun
  | @route given r r' text value built put ih =>
    obtain ⟨table, inserted, -⟩ := insert_of_route put
    obtain ⟨p, read, -⟩ := bind_eq_ok inserted
    exact List.forall_mem_append.mpr ⟨ih, List.forall_mem_singleton.mpr ⟨p, read⟩⟩
  | fallback value built ih => exact ih

theorem handler_eq (r : Routes Handler) (path : Bytes) (request : Request) :
    r.handler path request = ((r.select path request).1.getD fun _ _ => Routes.notFound) path
      (r.select path request).2 := by
  unfold Routes.handler
  rcases r.select path request with ⟨_ | h, request'⟩ <;> rfl

/-- **Dispatching is sound, complete up to the ends of segments, and keeps its priorities.**
Whatever the regular routes of a table are, and in whatever order they have been put in, a path is
taken by the route that counts for most among those that fit; the fallback takes it exactly if none
does. -/
theorem dispatch {given : List (Bytes × Handler)} {r : Routes Handler} (built : Built given r)
    (regular : Regular given) (path : Bytes) (request : Request) :
    Dispatched given r path request := by
  have kept := built.kept regular
  have found := kept.find?_spec path
  have called : (∃ l params, Chosen given path l params
        ∧ r.select path request = (some l.value, request.withPathParams params))
      ∨ (∀ l params, ¬ Fitting given path l params)
        ∧ r.select path request = (r.fallback, request) := by
    unfold Routes.select
    rcases found with ⟨l, params, chosen, e⟩ | ⟨none, e⟩
    · exact .inl ⟨l, params, chosen, by rw [e]⟩
    · exact .inr ⟨none, by rw [e]⟩
  refine ⟨?_, handler_eq r path request, called, fun l here fits => ?_,
    fun given' r' built' perm rooted fallback => ?_,
    fun whole l params => fitting_iff_of_whole whole⟩
  · intro g mem
    obtain ⟨p, read⟩ := built.read g mem
    exact ⟨p, read, spelt_ofBytes read (regular.spaced ⟨p, g.2⟩ ⟨g.1, mem, read⟩)⟩
  · rcases called with ⟨l', params, chosen, e⟩ | ⟨none, -⟩
    · obtain ⟨rfl, rfl⟩ := chosen.of_literal here fits
      exact e
    · have shape := fits.shape_of_nil rfl
      exact absurd ⟨here, fits, shape ▸ takes_literal _ path⟩ (none l [])
  · have same := kept.find?_congr (built'.kept (regular.of_perm perm rooted)) perm path
    unfold Routes.select
    rw [same, fallback]

/-- a text comes before a parameter -/
theorem dispatch_users :
    let given : List (Bytes × Handler) := [(Bytes.ofAscii "/users/{id}", fun _ _ => .ok),
      (Bytes.ofAscii "/users/me", fun _ _ => Routes.notFound)]
    let request := Request.ofTarget .get ⟨none, none, Bytes.ofAscii "/users/me", none⟩ .http11
    ∃ r, Built given r ∧ Dispatched given r request.path request
      ∧ r.handler request.path request = Routes.notFound := by
  intro given request
  have enters : (putAll .empty given).toOption.isSome = true := by decide +kernel
  obtain ⟨r, put⟩ := Option.isSome_iff_exists.mp enters
  have built : Built given r := .of_toOption put
  have regular : Regular given := regular_of_texts (by decide) (by decide)
  have dispatched := dispatch built regular request.path request
  have me : Given given ⟨(Bytes.ofAscii "/users/me").map fun b => .byte ⟨b, false⟩,
      fun _ _ => Routes.notFound⟩ :=
    ⟨Bytes.ofAscii "/users/me", List.mem_cons_of_mem _ List.mem_cons_self, by decide +kernel⟩
  refine ⟨r, built, dispatched, ?_⟩
  rw [dispatched.handled, dispatched.literal _ me (Pattern.matches_text _)]
  rfl

/-- one of the routes matches the path, and the table takes it for none of them -/
def Missed (given : List (Bytes × α)) (path : Bytes) : Prop :=
  ∃ r, Built given r ∧ (∀ request, r.select path request = (r.fallback, request))
    ∧ ∃ l params, Given given l ∧ l.pattern.Matches path params

theorem missed_of_find? {given : List (Bytes × α)} {path text : Bytes} {value : α} {p : Pattern}
    {params : List (Bytes × Bytes)}
    (misses : (putAll .empty given).toOption.any fun r => (r.table.find? path).isNone)
    (mem : (text, value) ∈ given) (read : Pattern.ofBytes text = .ok p)
    (fits : p.Matches path params) : Missed given path := by
  obtain ⟨r, put, none⟩ := (Option.any_eq_true _ _).mp misses
  refine ⟨r, .of_toOption put, fun request => ?_, ⟨p, value⟩, params, ⟨text, mem, read⟩, fits⟩
  unfold Routes.select
  rw [Option.isNone_iff_eq_none.mp none]

/-- A path that a route matches may be missed: if another route has a longer end for the segment and
does not take the path either, if the empty text has been put in first, and if an escape shifted by
its parameter has let a second parameter into a segment. -/
theorem missed_paths :
    Missed [(Bytes.ofAscii "/\x7ba\x7d/d", 0), (Bytes.ofAscii "/\x7bb\x7db/c", 1)]
        (Bytes.ofAscii "/xb/d")
      ∧ Missed [(Bytes.ofAscii "", 0), (Bytes.ofAscii "a", 1)] (Bytes.ofAscii "")
      ∧ Missed [(Bytes.ofAscii "/\x7bx\x7d\x7b\x7bb\x7d\x7d", 0),
          (Bytes.ofAscii "/\x7bx\x7d\x7by\x7d", 1)] (Bytes.ofAscii "/ab") := by
  let slash : Cell := ⟨Bytes.slash, false⟩
  have longer : Pattern.Matches
      [.byte slash, .param 0 (Bytes.ofAscii "a"), .byte slash, .byte ⟨100, false⟩]
      (Bytes.slash :: (Bytes.ofAscii "xb" ++ [Bytes.slash, 100]))
      [(Bytes.ofAscii "a", Bytes.ofAscii "xb")] :=
    .byte slash (.param 0 _ _ (by decide) (by decide) (.byte slash (.byte ⟨100, false⟩ .nil)))
  have crowded : Pattern.Matches
      [.byte slash, .param 0 (Bytes.ofAscii "x"), .param 1 (Bytes.ofAscii "y")]
      (Bytes.slash :: (Bytes.ofAscii "a" ++ (Bytes.ofAscii "b" ++ [])))
      [(Bytes.ofAscii "x", Bytes.ofAscii "a"), (Bytes.ofAscii "y", Bytes.ofAscii "b")] :=
    .byte slash (.param 0 _ _ (by decide) (by decide) (.param 1 _ _ (by decide) (by decide) .nil))
  refine ⟨?_, ?_, ?_⟩
  · exact missed_of_find? (by decide +kernel) List.mem_cons_self (by decide +kernel) longer
  · exact missed_of_find? (by decide +kernel) List.mem_cons_self rfl .nil
  · exact missed_of_find? (by decide +kernel) (List.mem_cons_of_mem _ List.mem_cons_self)
      (by decide +kernel) crowded

end Route
end PipelinedHttp
