import PipelinedHttp.Proofs.Wire.Cutting

/-!
# Buffers that no head fits in

A buffer with fewer octets than the shortest head is not looked at.  This changes nothing but the
time at which a fault is reported.

* `scanHead_of_tiny`    a look at such a buffer finds no head, and a fault in it stays one whatever
                        comes behind;
* `sameHeads`           so the same heads are found as if every buffer were looked at, and a fault
                        is reported as soon as the buffer is long enough;
* `exact_shortcut`      and no larger buffer may be left unread: there is a request of just so many
                        octets.
-/

namespace PipelinedHttp.Wire
variable {s : Bytes}

theorem scanHead_of_bad (flaw : Flaw) :
    ∃ e, ∀ s, head s = .bad flaw → scanHead s = .failed e s := by
  cases flaw <;> exact ⟨_, fun s bad => by unfold scanHead; rw [bad]⟩

/-- what a look at a tiny buffer comes to: more octets are wanted, or there is a fault that stays -/
theorem scanHead_of_tiny (tiny : s.length < minHead) :
    scanHead s = .more ∨ ∃ e, ∀ t, scanHead (s ++ t) = .failed e (s ++ t) := by
  cases found : head s with
  | done h rest =>
    have least : rest.length + minHead ≤ s.length := takes_head.le found
    omega
  | short =>
    -- the other limit is out of reach
    have small : ¬ maxHead < s.length := by
      have : minHead ≤ maxHead := by decide
      omega
    left
    unfold scanHead
    rw [found]
    exact if_neg small
  | bad flaw =>
    obtain ⟨e, failed⟩ := scanHead_of_bad flaw
    right
    refine ⟨e, fun t => failed (s ++ t) ?_⟩
    rw [steady_head.stable (by rw [found]; exact nofun), found]
    rfl

/-- what a reader that looks at the length of a buffer first makes of it, beside one that does
not -/
structure SameHeads (s : Bytes) : Prop where
  done : ∀ r n rest, readHead s = .done r n rest ↔ scanHead s = .done r n rest
  long : minHead ≤ s.length → readHead s = scanHead s
  /-- a fault is reported later, and is the same then -/
  tiny : s.length < minHead → readHead s = .more ∧ (scanHead s = .more ∨ ∃ e,
    scanHead s = .failed e s
      ∧ ∀ t, minHead ≤ (s ++ t).length → readHead (s ++ t) = .failed e (s ++ t))

theorem sameHeads (s : Bytes) : SameHeads s := by
  rcases Nat.lt_or_ge s.length minHead with tiny | long
  · have more : readHead s = .more := if_pos tiny
    rcases scanHead_of_tiny tiny with wanted | ⟨e, failed⟩
    · refine ⟨fun r n rest => ?_, fun long => absurd tiny (Nat.not_lt.mpr long),
        fun _ => ⟨more, .inl wanted⟩⟩
      rw [more, wanted]
    · have here : scanHead s = .failed e s := by simpa using failed []
      refine ⟨fun r n rest => ?_, fun long => absurd tiny (Nat.not_lt.mpr long),
        fun _ => ⟨more, .inr ⟨e, here, fun t long => ?_⟩⟩⟩
      · rw [more, here]
        exact ⟨nofun, nofun⟩
      · rw [readHead_of_long long, failed t]
  · have same : readHead s = scanHead s := readHead_of_long long
    exact ⟨fun r n rest => by rw [same], fun _ => same,
      fun tiny => absurd tiny (Nat.not_lt.mpr long)⟩

/-! ## a shortest request -/

/-- method and target have one octet each, and lines have bare ends -/
def shortest : Bytes := Bytes.ofAscii "A * HTTP/1.0\n\n"

def shortestRequest : Request :=
  .ofTarget ⟨Bytes.ofAscii "A", by decide, List.all_eq_true.mp rfl⟩ ⟨none, none, [42], none⟩ .http10

theorem readHead_shortest : readHead shortest = .done shortestRequest 0 [] := by
  have read : head shortest = .done ⟨Bytes.ofAscii "A", [42], 0, []⟩ [] := by decide +kernel
  rw [readHead_of_long (by decide), scanHead_of_done read, cutHead, if_neg (by decide)]
  rfl

theorem decode_shortest (d : Decoder) (idle : d.pending = none) :
    d.decode shortest = ⟨.request shortestRequest, d, []⟩ := by
  rw [Decoder.decode_of_done idle readHead_shortest]
  exact if_pos rfl

/-- **The shortcut is exact.**  With the look at the length, a head is found and cut off exactly
when it would be without; only a fault in a buffer that no head fits in is reported later, and it is
reported then.  A shortest head has just the length looked for. -/
theorem exact_shortcut :
    (∀ s, SameHeads s) ∧ ∃ s r, s.length = minHead ∧ readHead s = .done r 0 []
      ∧ ∀ d : Decoder, d.pending = none → d.decode s = ⟨.request r, d, []⟩ :=
  ⟨sameHeads, shortest, shortestRequest, rfl, readHead_shortest, decode_shortest⟩

end PipelinedHttp.Wire
