import SecureTransfer.Receiver.Admission
import SecureTransfer.Transfer.FileTransfer
import SecureTransfer.Transfer.Lifecycle

set_option autoImplicit false

/-! # What arrives is the file

Every datagram that reaches the receiver carries a chunk of the file or tells the truth about a
block, so the receiver's own guarantees apply without conditions. -/

namespace SecureTransfer.Transfer

open Sender Receiver

variable {job : FileTransfer} {ls : List Label} {w : World} {inputs : List LoopInput}
  {labels : List Receiver.Label}

/-- The sender's datagrams fit the geometry of the file. -/
theorem Parties.entriesFit {setup : Setup} {upload : Upload setup.expectedChunks}
    (h : Parties setup upload ls w inputs labels) :
    (Receiver.receiver setup).Run (EntriesFit setup) labels w.receiver := by
  obtain ⟨m, hm, _⟩ := h.books
  refine Lts.Run.of_labels h.receiver fun l hl r d hd => ?_
  subst hd
  rcases h.sent hm (h.arrived_sent hl) with ⟨c, hc, rfl, _⟩ | ⟨b, hb, _, rfl⟩
  · obtain ⟨hash, payload, hincoming⟩ := upload.incoming hc
    rw [hincoming]
    exact .inr (blockOf_fst_lt (upload.below c hc))
  · rw [Incoming.ofDatagram_blockEnd]
    have hsmall : packetsInBlock b setup.expectedChunks < 2 ^ 32 :=
      lt_of_le_of_lt (packetsInBlock_le b setup.expectedChunks) (by decide)
    exact .inr ⟨hb, UInt32.toNat_ofNat_of_lt' hsmall⟩

/-- `data` is the chunk of the file with this id. -/
def IsChunk (job : FileTransfer) (chunkId : UInt32) (data : Bytes) : Prop :=
  ⟨chunkId, data⟩ ∈ job.chunks

/-- What the sender's packets decrypt to is the file. -/
theorem goodArrivals_of_sent (hsent : ∀ d, .datagram d ∈ labels →
      (∃ chunk ∈ job.chunks, d = (job.encrypt chunk).packet) ∨
        ∃ b total, d = BlockEndPacket.encode b total) :
    GoodArrivals job.setup (IsChunk job) labels := by
  intro d pkt hd hpkt data hcheck
  rcases hsent d hd with ⟨chunk, hchunk, rfl⟩ | ⟨b, total, rfl⟩
  · have hlen : chunk.data.length < 2 ^ 32 :=
      lt_of_le_of_lt (readerThread_length job.reads.legal hchunk).2 (by decide)
    obtain rfl : pkt = sentPacket job.setup chunk :=
      Incoming.data.inj (hpkt.symm.trans (ofDatagram_workerThread job.setup hlen))
    obtain rfl : data = chunk.data :=
      Option.some.inj (hcheck.symm.trans (checkPacket_sentPacket job.setup chunk))
    rw [IsChunk, receivedPacket, sentPacket, chunkIdOf_blockOf]
    exact hchunk
  · rw [Incoming.ofDatagram_blockEnd] at hpkt
    cases hpkt

theorem Parties.goodArrivals (h : Parties job.setup job.upload ls w inputs labels) :
    GoodArrivals job.setup (IsChunk job) labels := by
  obtain ⟨m, hm, _⟩ := h.books
  refine goodArrivals_of_sent fun d hd => ?_
  rcases h.sent hm (h.arrived_sent hd) with ⟨c, hc, rfl, _⟩ | ⟨b, hb, _, rfl⟩
  · obtain ⟨chunk, hchunk, rfl⟩ := job.mem_upload.1 hc
    exact .inl ⟨chunk, hchunk, rfl⟩
  · exact .inr ⟨b, _, rfl⟩

/-- Without I/O errors the writer does not fail. -/
theorem Parties.writer_ok (h : Parties job.setup job.upload ls w inputs labels)
    (hio : Label.receiver .writerError ∉ ls) :
    ∀ writer result, w.receiver.writer = .exited writer result → result = .ok :=
  writer_exited_ok h.receiver (h.not_mem_labels nofun hio) h.goodArrivals
    fun _ _ hchunk => job.chunkId_lt hchunk

/-- **End to end.** A file goes through a network that loses, delays, reorders and duplicates, with
    the workers of both sides racing and without I/O errors at the writer. If the ack manager's loop
    ends with no block given up, then once the decryption workers and the writer have exited the
    output is the file, and the writer has reported its size and its number of chunks. -/
theorem transfer_exact (hrun : (transfer job.setup job.upload).Reaches ls w)
    (hio : Label.receiver .writerError ∉ ls)
    (hack : w.receiver.control.ack = .exited .ok) (hgave : w.receiver.control.gaveUp = [])
    (hworkers : ∀ worker ∈ w.receiver.workers, worker.result?.isSome = true)
    (hwriter : w.receiver.writer.result?.isSome = true) :
    ∃ writer, w.receiver.writer = .exited writer .ok ∧
      reconstructed job.setup.expectedBytes.toNat writer.outfile = job.file ∧
      writer.bytes = job.file.length ∧
      writer.chunksWritten.toNat = (job.file.length + (chunkSize - 1)) / chunkSize := by
  obtain ⟨inputs, labels, h⟩ := parties_of_reaches hrun
  have hlt : ∀ chunkId data, IsChunk job chunkId data → chunkId < job.setup.expectedChunks :=
    fun _ _ hchunk => job.chunkId_lt hchunk
  obtain ⟨writer, result, hexited⟩ := WriterThread.exited_of_result _ hwriter
  obtain rfl := h.writer_ok hio writer result hexited
  obtain ⟨hcount, hdata, hbytes, hwritten⟩ :=
    written_of_finished h.entriesFit h.goodArrivals hlt hgave hack hworkers hexited
  have hout : writer.outfile = job.chunks.map ReadChunk.data := by
    refine List.ext_getElem ?_ fun i hi hi' => ?_
    · rw [hcount, List.length_map, job.toNat_expectedChunks]
    · have hi'' : i < job.chunks.length := by simpa using hi'
      have hmem := hdata i _ (List.getElem?_eq_getElem hi)
      have hk := List.getElem?_eq_getElem hi''
      have heq := job.chunkId_inj hmem (List.mem_of_getElem? hk) (by
        rw [← UInt32.toNat_inj, job.chunkId_toNat hk]
        exact UInt32.toNat_ofNat_of_lt' (hi''.trans job.length_chunks_lt))
      rw [List.getElem_map, ← heq]
  have hflat : writer.outfile.flatten = job.file := by
    rw [hout]
    exact readerThread_flatten job.reads.legal
  refine ⟨writer, hexited, ?_, ?_, ?_⟩
  · rw [reconstructed, hflat]
    simp [FileTransfer.setup, job.toNat_fileSize]
  · rw [hbytes, ← List.length_flatten, hflat]
  · rw [hwritten, job.toNat_expectedChunks, job.length_chunks]

theorem transfer_exact_threeBytes :
    ∃ w writer, (transfer threeBytes.setup threeBytes.upload).Reaches
        (threeBytesSent ++ threeBytesReceived) w ∧
      w.receiver.writer = .exited writer .ok ∧ reconstructed 3 writer.outfile = [1, 2, 3] := by
  obtain ⟨w, hw, hack, hgave, hworkers, hwriter⟩ := Lts.exists_exec
    (transfer threeBytes.setup threeBytes.upload) (threeBytesSent ++ threeBytesReceived)
    (fun w => w.receiver.control.ack = .exited .ok ∧ w.receiver.control.gaveUp = [] ∧
      (∀ worker ∈ w.receiver.workers, worker.result?.isSome = true) ∧
      w.receiver.writer.result?.isSome = true) (by decide +kernel)
  have hrun := Lts.reaches_of_exec hw
  obtain ⟨writer, hexited, hout, _⟩ := transfer_exact hrun
    (by simp [threeBytesSent, threeBytesReceived, threeBytesHandled, shutdown]) hack hgave hworkers hwriter
  exact ⟨w, writer, hrun, hexited, hout⟩

end SecureTransfer.Transfer
