import PipelinedHttp.Bytes

/-!
# Scanning a stream

A scan reads from the front of octets that may still grow.  It is `done` with a value and the rest,
`short` when the octets end too early to decide, or `bad` as soon as an octet cannot be right.
`Scan.bind` runs one scan on what another has left.

All scans here are `Steady`: they cut a front off, and once they have decided, octets that come
later only add to the rest (`Steady.bind` carries this from parts to the whole).  `Takes` bounds
the length of that front from below.
-/

namespace PipelinedHttp.Wire

inductive Flaw where
  | token
  | version
  | newLine
  | fieldName
  | fieldValue
  | tooManyFields
  deriving DecidableEq

def Flaw.message : Flaw → String
  | .token => "invalid token"
  | .version => "invalid HTTP version"
  | .newLine => "invalid new line"
  | .fieldName => "invalid header name"
  | .fieldValue => "invalid header value"
  | .tooManyFields => "too many headers"

inductive Scan (α : Type) where
  | done (value : α) (rest : Bytes)
  | short
  | bad (flaw : Flaw)
  deriving DecidableEq

namespace Scan
variable {α β : Type}

def bind (x : Scan α) (f : α → Bytes → Scan β) : Scan β :=
  match x with
  | .done a rest => f a rest
  | .short => .short
  | .bad flaw => .bad flaw

def map (f : α → β) (x : Scan α) : Scan β := x.bind fun a rest => .done (f a) rest

/-- the same outcome with more octets behind the rest -/
def extend (x : Scan α) (t : Bytes) : Scan α :=
  match x with
  | .done a rest => .done a (rest ++ t)
  | .short => .short
  | .bad flaw => .bad flaw

end Scan

/-! ## pieces -/

def next : Bytes → Scan UInt8
  | [] => .short
  | b :: s => .done b s

/-- one octet, which is left -/
def peek : Bytes → Scan UInt8
  | [] => .short
  | b :: s => .done b (b :: s)

/-- the longest run of octets of a class; the octet that ends it is left -/
def run (p : UInt8 → Bool) (s : Bytes) : Scan Bytes :=
  match s.dropWhile p with
  | [] => .short
  | b :: rest => .done (s.takeWhile p) (b :: rest)

def literal (flaw : Flaw) : Bytes → Bytes → Scan Unit
  | [], s => .done () s
  | _ :: _, [] => .short
  | e :: es, b :: s => if b = e then literal flaw es s else .bad flaw

/-- `\n` or `\r\n` -/
def lineEnd (flaw : Flaw) (s : Bytes) : Scan Unit :=
  (next s).bind fun b rest =>
    if b = Bytes.lf then .done () rest
    else if b = Bytes.cr then literal flaw [Bytes.lf] rest
    else .bad flaw

/-! ## steady scans -/

/-- a scan cuts a front off, and does not change its mind when more octets come -/
structure Steady {α : Type} (scan : Bytes → Scan α) : Prop where
  suffix : ∀ {s a rest}, scan s = .done a rest → rest <:+ s
  stable : ∀ {s}, scan s ≠ .short → ∀ t, scan (s ++ t) = (scan s).extend t

variable {α β : Type}

theorem Steady.done (a : α) : Steady (Scan.done a) where
  suffix h := by cases h; exact List.suffix_rfl
  stable _ _ := rfl

theorem Steady.bad (flaw : Flaw) : Steady fun _ => (Scan.bad flaw : Scan α) where
  suffix h := nomatch h
  stable _ _ := rfl

theorem Steady.bind {scan : Bytes → Scan α} {f : α → Bytes → Scan β} (h : Steady scan)
    (k : ∀ a, Steady (f a)) : Steady fun s => (scan s).bind f where
  suffix {s b rest} e := by
    cases e' : scan s with
    | done a middle =>
      rw [e'] at e
      exact ((k a).suffix e).trans (h.suffix e')
    | short => rw [e'] at e; cases e
    | bad flaw => rw [e'] at e; cases e
  stable {s} e t := by
    cases e' : scan s with
    | done a middle =>
      have e'' : scan (s ++ t) = .done a (middle ++ t) := by
        rw [h.stable (by rw [e']; exact nofun), e']; rfl
      rw [e'] at e
      rw [e'']
      exact (k a).stable e t
    | short => rw [e'] at e; exact absurd rfl e
    | bad flaw =>
      rw [h.stable (by rw [e']; exact nofun), e']
      rfl

theorem Steady.map {scan : Bytes → Scan α} (f : α → β) (h : Steady scan) :
    Steady fun s => (scan s).map f :=
  h.bind fun a => Steady.done (f a)

theorem Steady.ite {p : Prop} [Decidable p] {x y : Bytes → Scan α} (h : Steady x) (k : Steady y) :
    Steady fun s => if p then x s else y s := by
  by_cases e : p
  · simpa only [e, if_true] using h
  · simpa only [e, if_false] using k

theorem steady_next : Steady next where
  suffix {s a rest} h := by
    cases s with
    | nil => cases h
    | cons b s => cases h; exact List.suffix_cons _ _
  stable {s} h t := by
    cases s with
    | nil => exact absurd rfl h
    | cons b s => rfl

theorem steady_peek : Steady peek where
  suffix {s a rest} h := by
    cases s with
    | nil => cases h
    | cons b s => cases h; exact List.suffix_rfl
  stable {s} h t := by
    cases s with
    | nil => exact absurd rfl h
    | cons b s => rfl

theorem run_cons (p : UInt8 → Bool) (b : UInt8) (s : Bytes) :
    run p (b :: s) = if p b then (run p s).map (b :: ·) else .done [] (b :: s) := by
  unfold run
  by_cases h : p b
  · simp only [h, List.dropWhile_cons_of_pos, List.takeWhile_cons_of_pos, if_true]
    cases s.dropWhile p <;> rfl
  · simp [h]

theorem steady_run (p : UInt8 → Bool) : Steady (run p) where
  suffix {s a rest} h := by
    unfold run at h
    cases e : s.dropWhile p with
    | nil => rw [e] at h; cases h
    | cons b s' =>
      rw [e] at h
      cases h
      rw [← e]
      exact List.dropWhile_suffix p
  stable {s} h t := by
    induction s with
    | nil => exact absurd rfl h
    | cons b s ih =>
      rw [List.cons_append, run_cons, run_cons]
      rw [run_cons] at h
      by_cases e : p b
      · simp only [e, if_true] at h ⊢
        have short : run p s ≠ .short := fun e' => h (by rw [e']; rfl)
        rw [ih short]
        cases run p s <;> rfl
      · simp only [e]
        rfl

theorem steady_literal (flaw : Flaw) (text : Bytes) : Steady (literal flaw text) where
  suffix {s a rest} h := by
    induction text generalizing s with
    | nil => cases h; exact List.suffix_rfl
    | cons e text ih =>
      cases s with
      | nil => cases h
      | cons b s =>
        unfold literal at h
        split at h
        · exact (ih h).trans (List.suffix_cons b s)
        · cases h
  stable {s} h t := by
    induction text generalizing s with
    | nil => rfl
    | cons e text ih =>
      cases s with
      | nil => exact absurd rfl h
      | cons b s =>
        unfold literal at h
        rw [List.cons_append]
        unfold literal
        split at h <;> rename_i e'
        · rw [if_pos e', if_pos e', ih h]
        · rw [if_neg e', if_neg e']
          rfl

theorem steady_lineEnd (flaw : Flaw) : Steady (lineEnd flaw) :=
  steady_next.bind fun _ =>
    .ite (.done ()) (.ite (steady_literal flaw [Bytes.lf]) (.bad flaw))

/-! ## the length of what is cut off -/

/-- what is cut off has at least a length that depends on the value -/
structure Takes (least : α → Nat) (scan : Bytes → Scan α) : Prop where
  le : ∀ {s a rest}, scan s = .done a rest → rest.length + least a ≤ s.length

theorem Takes.done (a : α) : Takes (fun _ => 0) (Scan.done a) where
  le h := by cases h; exact Nat.le_refl _

theorem Takes.bad (least : α → Nat) (flaw : Flaw) :
    Takes least fun _ => (Scan.bad flaw : Scan α) where
  le h := nomatch h

theorem Takes.mono {scan : Bytes → Scan α} {m n : α → Nat} (h : Takes m scan)
    (le : ∀ a, n a ≤ m a) : Takes n scan where
  le {_ a _} e := Nat.le_trans (Nat.add_le_add_left (le a) _) (h.le e)

theorem Takes.bind {scan : Bytes → Scan α} {f : α → Bytes → Scan β} {m : α → Nat} {n : β → Nat}
    (h : Takes m scan) (k : ∀ a, Takes (fun b => n b - m a) (f a)) :
    Takes n fun s => (scan s).bind f where
  le {s b rest} e := by
    cases e' : scan s with
    | done a middle =>
      rw [e'] at e
      have h := h.le e'
      have k := (k a).le e
      omega
    | short => rw [e'] at e; cases e
    | bad flaw => rw [e'] at e; cases e

theorem Takes.map {scan : Bytes → Scan α} (f : α → β) {n : Nat} (h : Takes (fun _ => n) scan) :
    Takes (fun _ => n) fun s => (scan s).map f :=
  h.bind fun a => (Takes.done (f a)).mono fun _ => Nat.le_of_eq (Nat.sub_self n)

theorem Takes.ite {p : Prop} [Decidable p] {least : α → Nat} {x y : Bytes → Scan α}
    (h : p → Takes least x) (k : ¬ p → Takes least y) :
    Takes least fun s => if p then x s else y s := by
  by_cases e : p
  · simpa only [e, if_true] using h e
  · simpa only [e, if_false] using k e

theorem Steady.takes {scan : Bytes → Scan α} (h : Steady scan) : Takes (fun _ => 0) scan where
  le e := (h.suffix e).length_le

theorem takes_next : Takes (fun _ => 1) next where
  le {s _ _} h := by
    cases s with
    | nil => cases h
    | cons b s => cases h; exact Nat.le_refl _

theorem takes_run (p : UInt8 → Bool) : Takes List.length (run p) where
  le {s _ _} h := by
    unfold run at h
    cases e : s.dropWhile p with
    | nil => rw [e] at h; cases h
    | cons b rest =>
      rw [e] at h
      cases h
      exact Nat.le_of_eq (by
        rw [← e, Nat.add_comm, ← List.length_append, List.takeWhile_append_dropWhile])

theorem takes_literal (flaw : Flaw) (text : Bytes) :
    Takes (fun _ => text.length) (literal flaw text) where
  le {s a rest} h := by
    induction text generalizing s with
    | nil => cases h; exact Nat.le_refl _
    | cons e text ih =>
      cases s with
      | nil => cases h
      | cons b s =>
        unfold literal at h
        split at h
        · exact Nat.succ_le_succ (ih h)
        · cases h

theorem takes_lineEnd (flaw : Flaw) : Takes (fun _ => 1) (lineEnd flaw) :=
  takes_next.bind fun _ => .ite (fun _ => .done ()) fun _ =>
    .ite (fun _ => (steady_literal flaw [Bytes.lf]).takes) fun _ => .bad _ flaw

end PipelinedHttp.Wire
