import SecureTransfer.Receiver.Forwarded
import SecureTransfer.Receiver.Success
import SecureTransfer.Transfer.Delivery

set_option autoImplicit false

/-! # What a block given up costs

The writer only writes what comes next, so the file holds the chunks before the first one that was
never forwarded and nothing of those after it, whatever block they are in
(`forwarded_in_place_iff`). -/

namespace SecureTransfer.Transfer

open Sender Receiver

variable {job : FileTransfer} {r : Threads} {labels : List Receiver.Label} {w : Writer}
  {sent : List DecryptedChunk} {file : Bytes}

/-- The chunk is in the file, at the byte offset `chunk_id * CHUNK_SIZE`. -/
def InPlace (file : Bytes) (chunk : DecryptedChunk) : Prop :=
  ∀ j < chunk.data.length, file[chunk.chunkId.toNat * chunkSize + j]? = chunk.data[j]?

/-- The file holds every chunk of `sent` and differs from the sender's only in the ranges of other
    chunks. -/
structure LosesOnlyUnsent (job : FileTransfer) (sent : List DecryptedChunk) (file : Bytes) :
    Prop where
  inPlace : ∀ chunk ∈ sent, InPlace file chunk
  differs : ∀ i : ℕ, file[i]? ≠ job.file[i]? → ∀ chunk ∈ sent, chunk.chunkId.toNat ≠ i / chunkSize

/-! ## The chunks of the file in the file -/

theorem IsChunk.data_getElem? {chunkId : UInt32} {data : Bytes} (h : IsChunk job chunkId data)
    {j : ℕ} (hj : j < chunkSize) : data[j]? = job.file[chunkId.toNat * chunkSize + j]? := by
  have hdata : data = _ := readerThread_data job.reads (job.getElem?_chunkId h)
  rw [hdata, List.getElem?_take_of_lt hj, List.getElem?_drop]

theorem IsChunk.length_le {chunkId : UInt32} {data : Bytes} (h : IsChunk job chunkId data) :
    data.length ≤ chunkSize :=
  (readerThread_length job.reads.legal h).2

/-- The range of a chunk ends with the chunk or with the file. -/
theorem IsChunk.end_le {chunkId : UInt32} {data : Bytes} (h : IsChunk job chunkId data) :
    chunkId.toNat * chunkSize + data.length ≤ job.file.length := by
  have hdata : data = _ := readerThread_data job.reads (job.getElem?_chunkId h)
  have hpos := (readerThread_length job.reads.legal h).1
  have hlen := congrArg List.length hdata
  rw [List.length_take, List.length_drop] at hlen
  dsimp only at hpos hlen
  omega

/-- If all chunks are in place, then the file differs elsewhere only. -/
theorem losesOnlyUnsent_of_inPlace (hsent : ∀ chunk ∈ sent, IsChunk job chunk.chunkId chunk.data)
    (hlen : file.length = job.file.length) (hplace : ∀ chunk ∈ sent, InPlace file chunk) :
    LosesOnlyUnsent job sent file := by
  refine ⟨hplace, fun i hdiffers chunk hchunk hid => hdiffers ?_⟩
  have hj : i % chunkSize < chunkSize := Nat.mod_lt _ (by decide)
  have hi : i = chunk.chunkId.toNat * chunkSize + i % chunkSize := by
    rw [hid, Nat.mul_comm]
    exact (Nat.div_add_mod i chunkSize).symm
  have hdata := (hsent chunk hchunk).data_getElem? hj
  rw [← hi] at hdata
  by_cases hlt : i % chunkSize < chunk.data.length
  · have hfile := hplace chunk hchunk _ hlt
    rw [← hi] at hfile
    rw [hfile, hdata]
  · -- the last chunk is short, and the file ends with it
    have hnone : job.file[i]? = none := by
      rw [← hdata]
      exact List.getElem?_eq_none (Nat.le_of_not_lt hlt)
    rw [hnone]
    rw [List.getElem?_eq_none_iff] at hnone ⊢
    rwa [hlen]

/-! ## The first chunks of the file, and then zeros -/

theorem length_reconstructed {m : ℕ} {outfile : List Bytes}
    (hout : outfile.flatten = job.file.take m) :
    (reconstructed job.file.length outfile).length = job.file.length := by
  rw [reconstructed, hout]
  simp

theorem reconstructed_getElem? {m : ℕ} {outfile : List Bytes}
    (hout : outfile.flatten = job.file.take m) {i : ℕ} (hi : i < job.file.length) :
    (reconstructed job.file.length outfile)[i]? = if i < m then job.file[i]? else some 0 := by
  rw [reconstructed, hout, List.length_take]
  split
  · next hlt => rw [List.getElem?_append_left (by rw [List.length_take]; omega),
      List.getElem?_take_of_lt hlt]
  · next hge => rw [List.getElem?_append_right (by rw [List.length_take]; omega),
      List.getElem?_replicate_of_lt (by rw [List.length_take]; omega)]

/-- Of a file that consists of its first `m` chunks, a chunk is in place if it is one of them or
    nothing but zeros. -/
theorem inPlace_reconstructed_iff {m : ℕ} {outfile : List Bytes} {chunk : DecryptedChunk}
    (hout : outfile.flatten = job.file.take (m * chunkSize))
    (hchunk : IsChunk job chunk.chunkId chunk.data) :
    InPlace (reconstructed job.file.length outfile) chunk ↔
      chunk.chunkId.toNat < m ∨ ∀ byte ∈ chunk.data, byte = 0 := by
  have hread : ∀ j < chunk.data.length,
      (reconstructed job.file.length outfile)[chunk.chunkId.toNat * chunkSize + j]?
        = if chunk.chunkId.toNat * chunkSize + j < m * chunkSize then chunk.data[j]? else some 0 := by
    intro j hj
    have hend := hchunk.end_le
    rw [hchunk.data_getElem? (lt_of_lt_of_le hj hchunk.length_le)]
    exact reconstructed_getElem? hout (by omega)
  constructor
  · intro hplace
    refine or_iff_not_imp_left.2 fun hbehind byte hbyte => ?_
    obtain ⟨j, hj⟩ := List.mem_iff_getElem?.1 hbyte
    have hlt := (List.getElem?_eq_some_iff.1 hj).1
    have hle : m * chunkSize ≤ chunk.chunkId.toNat * chunkSize :=
      Nat.mul_le_mul_right _ (Nat.le_of_not_lt hbehind)
    have hzero := hplace j hlt
    rw [hread j hlt, if_neg (by omega), hj] at hzero
    exact (Option.some.inj hzero).symm
  · rintro (hwritten | hzeros) j hj
    · have hle : (chunk.chunkId.toNat + 1) * chunkSize ≤ m * chunkSize :=
        Nat.mul_le_mul_right _ hwritten
      have hshort := hchunk.length_le
      rw [hread j hj, if_pos (by rw [Nat.add_mul] at hle; omega)]
    · rw [hread j hj]
      split
      · rfl
      · have hbyte := List.getElem?_eq_getElem hj
        rw [hbyte, hzeros _ (List.mem_of_getElem? hbyte)]

/-! ## What the receiver has written -/

/-- The returned writer has written the chunks of the file before the first one it never got. -/
theorem flatten_of_holding (h : w.Holding sent)
    (hsent : ∀ chunk ∈ sent, IsChunk job chunk.chunkId chunk.data) :
    FirstMissing job.setup.expectedChunks sent w.outfile.length ∧
      w.outfile.flatten = job.file.take (w.outfile.length * chunkSize) := by
  have hbelow : ∀ chunk ∈ sent, chunk.chunkId < job.setup.expectedChunks :=
    fun chunk hchunk => job.chunkId_lt (hsent chunk hchunk)
  have hsame : ∀ chunk ∈ sent, ∀ chunk' ∈ sent, chunk.chunkId = chunk'.chunkId →
      chunk.data = chunk'.data := fun chunk hchunk chunk' hchunk' hid =>
    congrArg ReadChunk.data (job.chunkId_inj (hsent chunk hchunk) (hsent chunk' hchunk') hid)
  obtain ⟨hfirst, _, hdata⟩ := h.result hbelow hsame
  refine ⟨hfirst, ?_⟩
  have hout : w.outfile = (job.chunks.take w.outfile.length).map ReadChunk.data := by
    refine List.ext_getElem? fun i => ?_
    by_cases hi : i < w.outfile.length
    · obtain ⟨chunk, hchunk, rfl⟩ := hfirst.below i hi
      rw [hdata chunk hchunk hi, List.getElem?_map, List.getElem?_take_of_lt hi,
        job.getElem?_chunkId (hsent chunk hchunk)]
      rfl
    · have hle : ((job.chunks.take w.outfile.length).map ReadChunk.data).length
          ≤ w.outfile.length := by
        rw [List.length_map, List.length_take]
        exact min_le_left _ _
      rw [List.getElem?_eq_none (by omega), List.getElem?_eq_none (by omega)]
  conv_lhs => rw [hout]
  exact readerThread_take_flatten job.reads

/-- **What the rest costs.** When the writer has returned, whichever blocks have been given up:
    every forwarded chunk is in its place in the file, and the file differs from the sender's in
    the ranges of other chunks only, if and only if no chunk with a byte other than zero has been
    forwarded behind a chunk that has not been. -/
theorem forwarded_in_place_iff (hrun : (receiver job.setup).Reaches labels r)
    (hgood : GoodArrivals job.setup (IsChunk job) labels) (hwriter : r.writer = .exited w .ok) :
    LosesOnlyUnsent job r.sent (reconstructed job.file.length w.outfile) ↔
      ∀ chunk ∈ r.sent, (∃ byte ∈ chunk.data, byte ≠ 0) →
        ∀ id < chunk.chunkId, ∃ c ∈ r.sent, c.chunkId = id := by
  have hsent : ∀ chunk ∈ r.sent, IsChunk job chunk.chunkId chunk.data := sent_good hrun hgood
  have hlt : ∀ chunk ∈ r.sent, chunk.chunkId < job.setup.expectedChunks :=
    fun chunk hchunk => job.chunkId_lt (hsent chunk hchunk)
  obtain ⟨hfirst, hout⟩ := flatten_of_holding (holding_of_exited hrun hlt hwriter) hsent
  have hplace : ∀ chunk ∈ r.sent,
      (InPlace (reconstructed job.file.length w.outfile) chunk ↔
        ((∃ byte ∈ chunk.data, byte ≠ 0) →
          ∀ id < chunk.chunkId, ∃ c ∈ r.sent, c.chunkId = id)) := by
    intro chunk hchunk
    have hzeros : (∃ byte ∈ chunk.data, byte ≠ 0) ↔ ¬ ∀ byte ∈ chunk.data, byte = 0 := by simp
    rw [inPlace_reconstructed_iff hout (hsent chunk hchunk),
      hfirst.lt_iff hchunk (hlt chunk hchunk), hzeros, or_comm, or_iff_not_imp_left]
  constructor
  · exact fun h chunk hchunk => (hplace chunk hchunk).1 (h.inPlace chunk hchunk)
  · intro h
    exact losesOnlyUnsent_of_inPlace hsent (length_reconstructed hout)
      fun chunk hchunk => (hplace chunk hchunk).2 (h chunk hchunk)

theorem forwarded_in_place_iff_threeBytes :
    ∃ labels r w, (receiver threeBytes.setup).Reaches labels r ∧ r.writer = .exited w .ok ∧
      LosesOnlyUnsent threeBytes r.sent (reconstructed 3 w.outfile) := by
  obtain ⟨r, hr, hwriter, hsent⟩ := Lts.exists_exec (receiver threeBytes.setup)
    ([.udpLoop, .datagram threeBytesPacket.packet] ++ threeBytesHandled)
    (fun r => r.writer.result? = some .ok ∧ r.sent = [⟨0, [1, 2, 3]⟩]) (by decide +kernel)
  have hrun := Lts.reaches_of_exec hr
  have hgood : GoodArrivals threeBytes.setup (IsChunk threeBytes)
      ([.udpLoop, .datagram threeBytesPacket.packet] ++ threeBytesHandled) := by
    refine goodArrivals_of_sent fun d hd => .inl ⟨⟨0, [1, 2, 3]⟩, by decide, ?_⟩
    simpa [threeBytesPacket, threeBytesHandled, shutdown] using hd
  have hexited := WriterThread.exited_of_some hwriter
  refine ⟨_, r, r.writer.writer, hrun, hexited, (forwarded_in_place_iff hrun hgood hexited).2 ?_⟩
  intro chunk hchunk _ id hid
  rw [hsent, List.mem_singleton] at hchunk
  rw [hchunk] at hid
  exact absurd hid UInt32.not_lt_zero

/-- The packet of the first chunk never arrives, that of the second does, and so does the
    `BlockEnd`, after which everything goes as in `givenUpRun`. -/
def firstLostRun : List Receiver.Label :=
  ([.udpLoop, .datagram secondPacket.packet, .udpSend, .workerRecv 0, .workerMark 0, .workerSend 0,
    .writerRecv, .udpLoop, .datagram (BlockEndPacket.encode 0 2)] : List Receiver.Label) ++
    givenUpRun.drop 2

/-- **The rest is lost.** The writer waits for the chunk given up until the end, and what was
    forwarded behind it is not in the file although `run` returns `Ok`. -/
theorem forwarded_not_in_place :
    ∃ labels r w, (receiver twoChunks.setup).Reaches labels r ∧
      GoodArrivals twoChunks.setup (IsChunk twoChunks) labels ∧ r.control.gaveUp = [0] ∧
      r.main = .returned 0 0 ∧ r.writer = .exited w .ok ∧ ⟨1, [7]⟩ ∈ r.sent ∧
      ¬ LosesOnlyUnsent twoChunks r.sent (reconstructed twoChunks.file.length w.outfile) := by
  obtain ⟨r, hr, hgave, hmain, hwriter, hout, hsent⟩ := Lts.exists_exec (receiver twoChunks.setup)
    firstLostRun (fun r => r.control.gaveUp = [0] ∧ r.main = .returned 0 0 ∧
      r.writer.result? = some .ok ∧ r.writer.writer.outfile = [] ∧ ⟨1, [7]⟩ ∈ r.sent)
    (by decide +kernel)
  have hgood : GoodArrivals twoChunks.setup (IsChunk twoChunks) firstLostRun := by
    refine goodArrivals_of_sent fun d hd => ?_
    have hd' : d = secondPacket.packet ∨ d = BlockEndPacket.encode 0 2 := by
      simpa [firstLostRun, givenUpRun, shutdown, List.mem_flatten, List.mem_replicate] using hd
    exact hd'.imp (fun h => ⟨⟨1, [7]⟩, by decide +kernel, h⟩) fun h => ⟨0, 2, h⟩
  refine ⟨_, r, _, Lts.reaches_of_exec hr, hgood, hgave, hmain,
    WriterThread.exited_of_some hwriter, hsent, fun h => ?_⟩
  have hplace := h.inPlace _ hsent 0 (by decide)
  rw [hout, reconstructed] at hplace
  revert hplace
  decide +kernel

end SecureTransfer.Transfer
