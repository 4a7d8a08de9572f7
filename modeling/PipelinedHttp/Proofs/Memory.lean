import PipelinedHttp.Memory
import PipelinedHttp.Proofs.Connection.Reset
import PipelinedHttp.Proofs.Server.History
import PipelinedHttp.Proofs.Wire.Limits

/-!
# Room for bodies

While a decoder waits for a body there has to be room for all of it, however little has come yet.  It is the
client that says how long a body is, and only the limit of the decoder keeps that within a block of memory.

* `Session.fits_run_iff`   there is room at all times exactly if the limit is within a block;
* `Connection.fits_of_run`, `Server.History.fits`   so there is on all connections of a server with such a
                           limit.
-/

namespace PipelinedHttp

namespace Wire

theorem Decoder.Holds.fits {d : Decoder} {opening : Bytes} (holds : d.Holds opening)
    (room : d.maxBody ≤ Memory.maxBlock) : d.fits = true := by
  unfold Decoder.fits
  cases pending : d.pending with
  | none => rfl
  | some held =>
    obtain ⟨said, n⟩ := held
    obtain ⟨-, -, -, -, le⟩ := (Decoder.holds_of_pending pending).mp holds
    exact decide_eq_true (Nat.le_trans le room)

theorem Heading.Says.pending_decode {g : Heading} {said : Request} {n : Nat} (h : g.Says said n)
    (d : Decoder) (idle : d.pending = none) (pos : 0 < n) (le : n ≤ d.maxBody) :
    (d.decode g.opening).decoder.pending = some (said, n) := by
  have turn := Heading.decode_append h.small h.target d idle []
  rw [List.append_nil, h.length] at turn
  have wait : (d.afterHead said n []).decoder.pending = some (said, n) := by
    unfold Decoder.afterHead
    rw [if_neg (Nat.ne_of_gt pos), if_neg (Nat.not_lt.mpr le)]
    unfold Decoder.takeBody
    rw [List.length_nil, if_pos pos]
  rw [turn]
  exact wait

/-- a head that announces the shortest body that no block holds -/
def vast : Heading where
  opening := Bytes.ofAscii "POST / HTTP/1.1\r\nContent-Length: 9223372036854775808\r\n\r\n"
  head := .post [⟨FieldName.contentLength, Bytes.decimal (Memory.maxBlock + 1)⟩]
  read := by decide +kernel

theorem vast_says : vast.Says (Head.posted vast.head.fields) (Memory.maxBlock + 1) where
  small := by decide +kernel
  target := Head.toRequest_post _
  length := bodyLength_of_announced rfl rfl (by decide +kernel)

namespace Session
variable {maxBody : Nat}

theorem fits_run (room : maxBody ≤ Memory.maxBlock) (uses : List Use) :
    ((ofMaxBody maxBody).run uses).decoder.fits = true := by
  obtain ⟨cuts, opening, parted⟩ := parted_run maxBody uses
  refine parted.holds.fits ?_
  rw [parted.limit]
  exact room

/-- **Room for bodies.**  Whatever is fed and however often the decoder is turned, there is room for the
body that it waits for, if its limit is within a block of memory.  Under any larger limit a client can
announce a body that there is no room for. -/
theorem fits_run_iff :
    (∀ uses, ((ofMaxBody maxBody).run uses).decoder.fits = true) ↔ maxBody ≤ Memory.maxBlock := by
  refine ⟨fun fits => Nat.not_lt.mp fun large => ?_, fits_run⟩
  have turn (piece : Bytes) : ((ofMaxBody maxBody).run [.feed piece, .turn]).decoder
      = ((Decoder.ofMaxBody maxBody).decode piece).decoder := rfl
  have held := vast_says.pending_decode (.ofMaxBody maxBody) rfl (Nat.zero_lt_succ _) large
  have fits := fits [.feed vast.opening, .turn]
  unfold Decoder.fits at fits
  rw [turn, held] at fits
  have le : Memory.maxBlock + 1 ≤ Memory.maxBlock := of_decide_eq_true fits
  exact Nat.lt_irrefl Memory.maxBlock le

end Session

end Wire

/-! ## servers -/

theorem Connection.fits_of_run {serverName date : Bytes} {queueCapacity maxBody : Nat} {stopped : Bool}
    (room : maxBody ≤ Memory.maxBlock) {es : List Event} {c : Connection} {notes : List Note}
    (run : (ofSettings serverName date queueCapacity maxBody stopped).run es = some (c, notes)) :
    c.decoder.fits = true := by
  have follows := follows_run (rested_ofSettings serverName date queueCapacity maxBody stopped)
    (follows_ofSettings serverName date queueCapacity maxBody stopped) run
  rw [← follows.decoder]
  exact Wire.Session.fits_run room _

theorem Server.History.fits {κ : Type} {s s' : Server κ} {t : Trace} (h : History s t s')
    (fresh : s.links = []) (room : s.settings.maxBody ≤ Memory.maxBlock) :
    ∀ l ∈ s'.links, l.connection.decoder.fits = true := by
  intro l mem
  obtain ⟨i, there⟩ := List.getElem?_of_mem mem
  have absent : s.links[i]? = none := by
    rw [fresh]
    rfl
  rcases h.fresh absent with ⟨none, -⟩ | ⟨l', stopped, notes, link, -, run⟩
  · rw [there] at none
    cases none
  · rw [there] at link
    cases link
    exact Connection.fits_of_run room run

end PipelinedHttp
