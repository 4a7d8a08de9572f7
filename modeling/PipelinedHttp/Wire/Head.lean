import PipelinedHttp.Headers
import PipelinedHttp.Text.Utf8
import PipelinedHttp.Wire.Scan

/-!
# Request heads

The grammar of a head, read octet by octet so that a fault is reported as soon as it is there:

    head   =  *line-end  method SP target SP "HTTP/1." ("0" / "1") line-end  *field  line-end
    field  =  name ":" *blank value line-end

A method or name is a non-empty token, a target is non-empty UTF-8 without blanks and controls, a
value has no controls but tabs and no blanks at its ends.  Lines end in `\n` or `\r\n`.
-/

namespace PipelinedHttp.Wire

structure Head where
  method : Bytes
  target : Bytes
  /-- the digit behind `HTTP/1.` -/
  minor : Nat
  fields : List Field
  deriving DecidableEq

/-! ## octet classes -/

/-- letters, digits and the marks of a token -/
def isToken (b : UInt8) : Bool :=
  Bytes.isAlphanumeric b || (Bytes.ofAscii "!#$%&'*+-.^_`|~").contains b

def isTarget (b : UInt8) : Bool := (0x21 ≤ b && b ≤ 0x7E) || 0x80 ≤ b

def isValue (b : UInt8) : Bool := b == Bytes.tab || (0x20 ≤ b && b ≤ 0x7E) || 0x80 ≤ b

/-! ## the request line -/

def blankLines : Bytes → Scan Unit
  | [] => .short
  | b :: s =>
    if b = Bytes.lf then blankLines s
    else if b = Bytes.cr then
      match s with
      | [] => .short
      | c :: s => if c = Bytes.lf then blankLines s else .bad .newLine
    else .done () (b :: s)

def method (s : Bytes) : Scan Bytes :=
  (run isToken s).bind fun m rest =>
    if m = [] then .bad .token else (literal .token [Bytes.space] rest).map fun _ => m

def target (s : Bytes) : Scan Bytes :=
  (run isTarget s).bind fun t rest =>
    (literal .token [Bytes.space] rest).bind fun _ rest =>
      if t = [] ∨ Utf8.decode? t = none then .bad .token else .done t rest

def version (s : Bytes) : Scan Nat :=
  (literal .version (Bytes.ofAscii "HTTP/1.") s).bind fun _ rest =>
    (next rest).bind fun b rest =>
      if b = 48 then .done 0 rest else if b = 49 then .done 1 rest else .bad .version

/-! ## fields -/

def field (s : Bytes) : Scan Field :=
  (run isToken s).bind fun name rest =>
    if name = [] then .bad .fieldName
    else (literal .fieldName [Bytes.colon] rest).bind fun _ rest =>
      (run Bytes.isBlank rest).bind fun _ rest =>
        (run isValue rest).bind fun value rest =>
          (lineEnd .fieldValue rest).map fun _ =>
            ⟨name, Bytes.dropEndWhile Bytes.isBlank value⟩

/-- field lines up to the empty line, at most as many as there is room for -/
def fields (room : Nat) (s : Bytes) : Scan (List Field) :=
  (peek s).bind fun b s =>
    if b = Bytes.cr ∨ b = Bytes.lf then (lineEnd .newLine s).map fun _ => []
    else (field s).bind fun f rest =>
      match room with
      | 0 => .bad .tooManyFields
      | room + 1 => (fields room rest).map (f :: ·)

def maxFields : Nat := 64

/-! ## the head -/

def head (s : Bytes) : Scan Head :=
  (blankLines s).bind fun _ s =>
    (method s).bind fun method s =>
      (target s).bind fun target s =>
        (version s).bind fun minor s =>
          (lineEnd .newLine s).bind fun _ s =>
            (fields maxFields s).map fun fields => ⟨method, target, minor, fields⟩

def Head.print (h : Head) : Bytes :=
  h.method ++ Bytes.space :: h.target ++ Bytes.space :: Bytes.ofAscii "HTTP/1."
    ++ Bytes.decimal h.minor ++ Bytes.crlf
    ++ h.fields.flatMap (fun f => f.name ++ Bytes.colon :: Bytes.space :: f.value ++ Bytes.crlf)
    ++ Bytes.crlf

/-! ## steadiness -/

theorem blankLines_lf (s : Bytes) : blankLines (Bytes.lf :: s) = blankLines s := by
  conv => lhs; unfold blankLines
  rw [if_pos rfl]

theorem blankLines_crlf (s : Bytes) : blankLines (Bytes.cr :: Bytes.lf :: s) = blankLines s := by
  conv => lhs; unfold blankLines
  rw [if_neg (by decide), if_pos rfl]
  exact if_pos rfl

theorem blankLines_cr {c : UInt8} (s : Bytes) (h : c ≠ Bytes.lf) :
    blankLines (Bytes.cr :: c :: s) = .bad .newLine := by
  unfold blankLines
  rw [if_neg (by decide), if_pos rfl]
  exact if_neg h

theorem blankLines_of_ne {b : UInt8} (s : Bytes) (h : b ≠ Bytes.lf) (k : b ≠ Bytes.cr) :
    blankLines (b :: s) = .done () (b :: s) := by
  unfold blankLines
  rw [if_neg h, if_neg k]

theorem steady_blankLines : Steady blankLines where
  suffix {s a rest} h := by
    fun_induction blankLines s with
    | case1 => cases h
    | case2 s ih => exact (ih h).trans (List.suffix_cons _ s)
    | case3 => cases h
    | case4 s _ ih => exact (ih h).trans ((List.suffix_cons _ s).trans (List.suffix_cons _ _))
    | case5 => cases h
    | case6 => cases h; exact List.suffix_rfl
  stable {s} h t := by
    fun_induction blankLines s with
    | case1 => exact absurd rfl h
    | case2 s ih => exact (blankLines_lf (s ++ t)).trans (ih h)
    | case3 => exact absurd rfl h
    | case4 s _ ih => exact (blankLines_crlf (s ++ t)).trans (ih h)
    | case5 c s hc => exact blankLines_cr (s ++ t) hc
    | case6 b s hb hb' => exact blankLines_of_ne (s ++ t) hb hb'

theorem steady_method : Steady method :=
  (steady_run isToken).bind fun _ =>
    .ite (.bad .token) ((steady_literal .token [Bytes.space]).map _)

theorem steady_target : Steady target :=
  (steady_run isTarget).bind fun t => (steady_literal .token [Bytes.space]).bind fun _ =>
    .ite (.bad .token) (.done t)

theorem steady_version : Steady version :=
  (steady_literal .version _).bind fun _ => steady_next.bind fun _ =>
    .ite (.done 0) (.ite (.done 1) (.bad .version))

theorem steady_field : Steady field :=
  (steady_run isToken).bind fun _ => .ite (.bad .fieldName)
    ((steady_literal .fieldName [Bytes.colon]).bind fun _ =>
      (steady_run Bytes.isBlank).bind fun _ => (steady_run isValue).bind fun _ =>
        (steady_lineEnd .fieldValue).map _)

theorem fields_zero : fields 0 = fun s =>
    (peek s).bind fun b s =>
      if b = Bytes.cr ∨ b = Bytes.lf then (lineEnd .newLine s).map fun _ => []
      else (field s).bind fun _ _ => .bad .tooManyFields :=
  funext fun s => by rw [fields]

theorem fields_succ (room : Nat) : fields (room + 1) = fun s =>
    (peek s).bind fun b s =>
      if b = Bytes.cr ∨ b = Bytes.lf then (lineEnd .newLine s).map fun _ => []
      else (field s).bind fun f rest => (fields room rest).map (f :: ·) :=
  funext fun s => by rw [fields]

theorem steady_fields (room : Nat) : Steady (fields room) := by
  induction room with
  | zero =>
    rw [fields_zero]
    exact steady_peek.bind fun _ => .ite ((steady_lineEnd .newLine).map _)
      (steady_field.bind fun _ => .bad .tooManyFields)
  | succ room ih =>
    rw [fields_succ]
    exact steady_peek.bind fun _ => .ite ((steady_lineEnd .newLine).map _)
      (steady_field.bind fun _ => ih.map _)

theorem steady_head : Steady head :=
  steady_blankLines.bind fun _ => steady_method.bind fun _ => steady_target.bind fun _ =>
    steady_version.bind fun _ => (steady_lineEnd .newLine).bind fun _ =>
      (steady_fields maxFields).map _

/-! ## lengths -/

theorem takes_method : Takes (fun _ => 2) method :=
  (takes_run isToken).bind fun m => .ite (fun _ => .bad _ .token) fun h =>
    ((takes_literal .token [Bytes.space]).map _).mono fun _ => by
      have := List.length_pos_iff.mpr h
      simp only [List.length_singleton]
      omega

theorem takes_target : Takes (fun _ => 2) target :=
  (takes_run isTarget).bind fun t => (takes_literal .token [Bytes.space]).bind fun _ =>
    .ite (fun _ => .bad _ .token) fun h => (Takes.done t).mono fun _ => by
      have := List.length_pos_iff.mpr fun e => h (.inl e)
      simp only [List.length_singleton]
      omega

theorem takes_version : Takes (fun _ => 8) version :=
  (takes_literal .version _).bind fun _ => takes_next.bind fun _ =>
    .ite (fun _ => .done 0) fun _ => .ite (fun _ => .done 1) fun _ => .bad _ .version

theorem takes_fields (room : Nat) : Takes (fun _ => 1) (fields room) := by
  induction room with
  | zero =>
    rw [fields_zero]
    exact steady_peek.takes.bind fun _ => .ite (fun _ => (takes_lineEnd .newLine).map _)
      fun _ => steady_field.takes.bind fun _ => .bad _ .tooManyFields
  | succ room ih =>
    rw [fields_succ]
    exact steady_peek.takes.bind fun _ => .ite (fun _ => (takes_lineEnd .newLine).map _)
      fun _ => steady_field.takes.bind fun _ => ih.map _

/-- one octet of method and target each, two blanks, the version and two line ends -/
theorem takes_head : Takes (fun _ => 14) head :=
  steady_blankLines.takes.bind fun _ => takes_method.bind fun _ => takes_target.bind fun _ =>
    takes_version.bind fun _ => (takes_lineEnd .newLine).bind fun _ =>
      (takes_fields maxFields).map _

end PipelinedHttp.Wire
