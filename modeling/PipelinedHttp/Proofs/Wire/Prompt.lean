import PipelinedHttp.Wire.Decoder

/-!
# Heads are found as soon as they are complete

`Steady` says that a decided scan stays decided.  Here is the converse: a scan that decides on
`s ++ t` without touching `t` has decided on `s` already.

* `Prompt k scan`   a decision that leaves `k` octets in front of `t` needs nothing of `t`
                    (`k = 1` for a run, which is ended by an octet that it leaves);
* `Prompt.bind`     what the second scan takes is there for the first one to look at;
* `prompt_head`     a head ends with its empty line, so nothing behind it is looked at;
* `head_front`      hence the octets of a head are a head on their own.
-/

namespace PipelinedHttp.Wire
open Scan

variable {α β : Type}

/-- a decision that leaves `ahead` octets and all of `t` was there without `t` -/
structure Prompt (ahead : Nat) (scan : Bytes → Scan α) : Prop where
  decides : ∀ {s t a rest}, scan (s ++ t) = .done a rest → t.length + ahead ≤ rest.length →
    scan s ≠ .short

theorem Prompt.done (a : α) : Prompt 0 (Scan.done a) where
  decides _ _ := nofun

theorem Prompt.bad (ahead : Nat) (flaw : Flaw) :
    Prompt ahead fun _ => (Scan.bad flaw : Scan α) where
  decides _ _ := nofun

theorem Prompt.ite {p : Prop} [Decidable p] {ahead : Nat} {x y : Bytes → Scan α}
    (h : Prompt ahead x) (k : Prompt ahead y) : Prompt ahead fun s => if p then x s else y s := by
  by_cases e : p
  · simpa only [e, if_true] using h
  · simpa only [e, if_false] using k

/-- the second scan takes at least `least` octets, and the first one may have looked at them -/
theorem Prompt.bind {scan : Bytes → Scan α} {f : α → Bytes → Scan β} {near far : Nat}
    (least : Nat) (steady : Steady scan) (h : Prompt near scan) (k : ∀ a, Prompt far (f a))
    (takes : ∀ a, Takes (fun _ => least) (f a)) (le : near ≤ far + least) :
    Prompt far fun s => (scan s).bind f where
  decides {s t b rest} e room := by
    cases e' : scan (s ++ t) with
    | short => rw [e'] at e; cases e
    | bad flaw => rw [e'] at e; cases e
    | done a middle =>
      rw [e'] at e
      have taken := (takes a).le e
      have decided : scan s ≠ .short := h.decides e' (by omega)
      have e'' := steady.stable decided t
      cases e₀ : scan s with
      | short => exact absurd e₀ decided
      | bad flaw => exact nofun
      | done a' middle' =>
        rw [e', e₀] at e''
        cases e''
        exact (k a).decides e room

/-- a first scan that looks at nothing it leaves -/
theorem Prompt.seq {scan : Bytes → Scan α} {f : α → Bytes → Scan β} {far : Nat}
    (steady : Steady scan) (h : Prompt 0 scan) (k : ∀ a, Prompt far (f a))
    (steady' : ∀ a, Steady (f a)) : Prompt far fun s => (scan s).bind f :=
  Prompt.bind 0 steady h k (fun a => (steady' a).takes) (Nat.zero_le far)

theorem Prompt.map {scan : Bytes → Scan α} {ahead : Nat} (f : α → β) (h : Prompt ahead scan) :
    Prompt ahead fun s => (scan s).map f where
  decides {s t b rest} e room := by
    cases e' : scan (s ++ t) with
    | short => rw [e'] at e; cases e
    | bad flaw => rw [e'] at e; cases e
    | done a middle =>
      rw [e'] at e
      cases e
      have decided : scan s ≠ .short := h.decides e' room
      cases e₀ : scan s with
      | short => exact absurd e₀ decided
      | bad flaw => exact nofun
      | done a' middle' => exact nofun

/-! ## pieces -/

theorem prompt_next : Prompt 0 next where
  decides {s t a rest} e room := by
    cases s with
    | cons b s => exact nofun
    | nil =>
      have := takes_next.le e
      simp only [List.nil_append] at this
      omega

theorem prompt_peek : Prompt 1 peek where
  decides {s t a rest} e room := by
    cases s with
    | cons b s => exact nofun
    | nil =>
      have := (steady_peek.suffix e).length_le
      simp only [List.nil_append] at this
      omega

theorem prompt_run (p : UInt8 → Bool) : Prompt 1 (run p) where
  decides {s t a rest} e room := by
    induction s generalizing a with
    | nil =>
      have := ((steady_run p).suffix e).length_le
      simp only [List.nil_append] at this
      omega
    | cons b s ih =>
      rw [run_cons]
      by_cases hb : p b
      · rw [List.cons_append, run_cons, if_pos hb] at e
        rw [if_pos hb]
        cases e' : run p (s ++ t) with
        | short => rw [e'] at e; cases e
        | bad flaw => rw [e'] at e; cases e
        | done a' rest' =>
          rw [e'] at e
          cases e
          have decided := ih e'
          cases e₀ : run p s with
          | short => exact absurd e₀ decided
          | bad flaw => exact nofun
          | done a₀ rest₀ => exact nofun
      · rw [if_neg hb]
        exact nofun

theorem prompt_literal (flaw : Flaw) (text : Bytes) : Prompt 0 (literal flaw text) where
  decides {s t a rest} e room := by
    induction text generalizing s with
    | nil =>
      intro short
      cases short
    | cons b text ih =>
      cases s with
      | nil =>
        have := (takes_literal flaw (b :: text)).le e
        simp only [List.nil_append, List.length_cons] at this
        omega
      | cons c s =>
        rw [List.cons_append] at e
        unfold literal at e ⊢
        by_cases h : c = b
        · rw [if_pos h] at e ⊢
          exact ih e
        · rw [if_neg h]
          intro short
          cases short

theorem prompt_lineEnd (flaw : Flaw) : Prompt 0 (lineEnd flaw) :=
  .seq steady_next prompt_next
    (fun _ => .ite (.done ()) (.ite (prompt_literal flaw [Bytes.lf]) (.bad 0 flaw)))
    fun _ => .ite (.done ()) (.ite (steady_literal flaw [Bytes.lf]) (.bad flaw))

/-! ## the parts of a head -/

theorem prompt_blankLines : Prompt 1 blankLines where
  decides {s t a rest} e room := by
    fun_induction blankLines s with
    | case1 =>
      have := (steady_blankLines.suffix e).length_le
      simp only [List.nil_append] at this
      omega
    | case2 s ih =>
      rw [List.cons_append, blankLines_lf] at e
      exact ih e
    | case3 =>
      -- a lone return: the next octet comes out of `t`
      cases t with
      | nil => cases e
      | cons c t =>
        by_cases hc : c = Bytes.lf
        · subst hc
          rw [List.singleton_append, blankLines_crlf] at e
          have := (steady_blankLines.suffix e).length_le
          simp only [List.length_cons] at room
          omega
        · rw [List.singleton_append, blankLines_cr t hc] at e
          cases e
    | case4 s _ ih =>
      rw [List.cons_append, List.cons_append, blankLines_crlf] at e
      exact ih e
    | case5 | case6 =>
      intro short
      cases short

theorem prompt_method : Prompt 0 method :=
  .bind 1 (steady_run isToken) (prompt_run isToken)
    (fun _ => .ite (.bad 0 .token) (.map _ (prompt_literal .token [Bytes.space])))
    (fun _ => .ite (fun _ => .bad _ .token) fun _ => (takes_literal .token [Bytes.space]).map _)
    (Nat.le_refl 1)

theorem prompt_target : Prompt 0 target :=
  .bind 1 (steady_run isTarget) (prompt_run isTarget)
    (fun t => .seq (steady_literal .token _) (prompt_literal .token [Bytes.space])
      (fun _ => .ite (.bad 0 .token) (.done t)) fun _ => .ite (.bad .token) (.done t))
    (fun t => (takes_literal .token [Bytes.space]).bind fun _ =>
      .ite (fun _ => .bad _ .token) fun _ => .done t)
    (Nat.le_refl 1)

theorem steady_minor : Steady fun s => (next s).bind fun b rest =>
    if b = 48 then Scan.done 0 rest else if b = 49 then .done 1 rest else .bad .version :=
  steady_next.bind fun _ => .ite (.done 0) (.ite (.done 1) (.bad .version))

theorem prompt_version : Prompt 0 version :=
  .seq (steady_literal .version _) (prompt_literal .version _)
    (fun _ => .seq steady_next prompt_next
      (fun _ => .ite (.done 0) (.ite (.done 1) (.bad 0 .version)))
      fun _ => .ite (.done 0) (.ite (.done 1) (.bad .version)))
    fun _ => steady_minor

/-- the line end at least -/
theorem takes_field : Takes (fun _ => 1) field :=
  (takes_run isToken).bind fun _ => .ite (fun _ => .bad _ .fieldName) fun _ =>
    (takes_literal .fieldName [Bytes.colon]).bind fun _ =>
      (steady_run Bytes.isBlank).takes.bind fun _ => (steady_run isValue).takes.bind fun _ =>
        ((takes_lineEnd .fieldValue).map _).mono fun _ => by omega

theorem prompt_field : Prompt 0 field :=
  .bind 1 (steady_run isToken) (prompt_run isToken)
    (fun _ => .ite (.bad 0 .fieldName)
      (.seq (steady_literal .fieldName _) (prompt_literal .fieldName [Bytes.colon])
        (fun _ => .bind 1 (steady_run Bytes.isBlank) (prompt_run Bytes.isBlank)
          (fun _ => .bind 1 (steady_run isValue) (prompt_run isValue)
            (fun _ => .map _ (prompt_lineEnd .fieldValue))
            (fun _ => (takes_lineEnd .fieldValue).map _) (Nat.le_refl 1))
          (fun _ => (steady_run isValue).takes.bind fun _ => (takes_lineEnd .fieldValue).map _)
          (Nat.le_refl 1))
        fun _ => (steady_run Bytes.isBlank).bind fun _ => (steady_run isValue).bind fun _ =>
          (steady_lineEnd .fieldValue).map _))
    (fun _ => .ite (fun _ => .bad _ .fieldName) fun _ =>
      (takes_literal .fieldName [Bytes.colon]).bind fun _ =>
        ((steady_run Bytes.isBlank).bind fun _ => (steady_run isValue).bind fun _ =>
          (steady_lineEnd .fieldValue).map _).takes)
    (Nat.le_refl 1)

theorem prompt_fields (room : Nat) : Prompt 0 (fields room) := by
  induction room with
  | zero =>
    rw [fields_zero]
    exact .bind 1 steady_peek prompt_peek
      (fun _ => .ite (.map _ (prompt_lineEnd .newLine))
        (.seq steady_field prompt_field (fun _ => .bad 0 .tooManyFields)
          fun _ => .bad .tooManyFields))
      (fun _ => .ite (fun _ => (takes_lineEnd .newLine).map _) fun _ =>
        takes_field.bind fun _ => .bad _ .tooManyFields)
      (Nat.le_refl 1)
  | succ room ih =>
    rw [fields_succ]
    exact .bind 1 steady_peek prompt_peek
      (fun _ => .ite (.map _ (prompt_lineEnd .newLine))
        (.seq steady_field prompt_field (fun _ => .map _ ih) fun _ => (steady_fields room).map _))
      (fun _ => .ite (fun _ => (takes_lineEnd .newLine).map _) fun _ =>
        takes_field.bind fun _ => ((steady_fields room).map _).takes)
      (Nat.le_refl 1)

/-! ## heads -/

theorem prompt_head : Prompt 0 head := by
  have lines : ∀ m t minor, Steady fun s => (lineEnd .newLine s).bind fun _ s =>
      (fields maxFields s).map fun fields => (⟨m, t, minor, fields⟩ : Head) := fun _ _ _ =>
    (steady_lineEnd .newLine).bind fun _ => (steady_fields maxFields).map _
  have versions : ∀ m t, Steady fun s => (version s).bind fun minor s =>
      (lineEnd .newLine s).bind fun _ s =>
        (fields maxFields s).map fun fields => (⟨m, t, minor, fields⟩ : Head) := fun m t =>
    steady_version.bind (lines m t)
  have targets : ∀ m, Steady fun s => (target s).bind fun t s =>
      (version s).bind fun minor s => (lineEnd .newLine s).bind fun _ s =>
        (fields maxFields s).map fun fields => (⟨m, t, minor, fields⟩ : Head) := fun m =>
    steady_target.bind (versions m)
  refine .bind 1 steady_blankLines prompt_blankLines (fun _ => ?_) (fun _ => ?_) (Nat.le_refl 1)
  · refine .seq steady_method prompt_method (fun m => ?_) targets
    refine .seq steady_target prompt_target (fun t => ?_) (versions m)
    refine .seq steady_version prompt_version (fun minor => ?_) (lines m t)
    exact .seq (steady_lineEnd .newLine) (prompt_lineEnd .newLine)
      (fun _ => .map _ (prompt_fields maxFields)) fun _ => (steady_fields maxFields).map _
  · exact takes_method.bind fun m => (targets m).takes

theorem head_front {s rest : Bytes} {h : Head} (e : head s = .done h rest) :
    ∃ front, s = front ++ rest ∧ head front = .done h [] := by
  obtain ⟨front, rfl⟩ := steady_head.suffix e
  have decided : head front ≠ .short := prompt_head.decides e (Nat.le_refl _)
  have e' := steady_head.stable decided rest
  rw [e] at e'
  refine ⟨front, rfl, ?_⟩
  cases e₀ : head front with
  | short => exact absurd e₀ decided
  | bad flaw => rw [e₀] at e'; cases e'
  | done h' rest' =>
    rw [e₀] at e'
    obtain ⟨rfl, e''⟩ := Scan.done.inj e'
    have nil : rest' = [] := List.append_left_eq_self.mp e''.symm
    rw [nil]

/-- a buffer without the end of its head is shorter than that head -/
theorem head_length_of_short {s t rest : Bytes} {h : Head} (e : head s = .short)
    (e' : head (s ++ t) = .done h rest) : rest.length < t.length := by
  apply Nat.lt_of_not_le
  intro le
  exact prompt_head.decides e' le e

end PipelinedHttp.Wire
