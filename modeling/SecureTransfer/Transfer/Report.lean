import Mathlib.Algebra.Order.BigOperators.Group.List
import Mathlib.Algebra.Order.Ring.Nat
import SecureTransfer.Sender.Report
import SecureTransfer.Transfer.Recovery
import SecureTransfer.Transfer.Repair

set_option autoImplicit false

/-! # What the sender reports

`Sender::run` prints the `bytes_sent` that the block manager returns as the data sent. What is
missing in it is what was never sent, and when the manager returns that is data of blocks which the
receiver has given up. -/

namespace SecureTransfer.Transfer

open Sender Receiver

variable {job : FileTransfer} {ls : List Label} {w : World} {m : Manager}

/-- The packet of the chunk has been sent. -/
def World.HasSent (w : World) (job : FileTransfer) (chunk : ReadChunk) : Prop :=
  ¬ w.Unsent (job.encrypt chunk)

instance (w : World) (job : FileTransfer) (chunk : ReadChunk) : Decidable (w.HasSent job chunk) :=
  inferInstanceAs (Decidable (¬ _))

/-- The chunks of the file whose packets have been sent. -/
def sentChunks (job : FileTransfer) (w : World) : List ReadChunk :=
  job.chunks.filter fun chunk => w.HasSent job chunk

/-- How many bytes of the file have not been sent. -/
def unsentBytes (job : FileTransfer) (w : World) : ℕ :=
  ((job.chunks.filter fun chunk => ¬ w.HasSent job chunk).map fun chunk => chunk.data.length).sum

/-! ## The chunks of the file -/

theorem sum_lengths (job : FileTransfer) :
    (job.chunks.map fun chunk => chunk.data.length).sum = job.file.length := by
  have hfile : (job.chunks.map ReadChunk.data).flatten = job.file := readerThread_flatten job.reads.legal
  have hlength := congrArg List.length hfile
  rw [List.length_flatten, List.map_map] at hlength
  exact hlength

theorem sentChunks_add_unsentBytes (job : FileTransfer) (w : World) :
    ((sentChunks job w).map fun chunk => chunk.data.length).sum + unsentBytes job w
      = job.file.length := by
  rw [← sum_lengths, unsentBytes, ← List.sum_append, ← List.map_append]
  refine (List.Perm.map _ ?_).sum_eq
  simpa [sentChunks] using List.filter_append_perm (fun chunk => decide (w.HasSent job chunk)) job.chunks

theorem sized_upload {c : EncryptedChunk} (hc : c ∈ job.upload.chunks) : Sized c := by
  obtain ⟨chunk, hchunk, rfl⟩ := job.mem_upload.1 hc
  have hle := (readerThread_length job.reads.legal hchunk).2
  rw [chunkSize] at hle
  exact sized_workerThread _ _ _ (by omega)

theorem sentPackets_nodup (job : FileTransfer) (w : World) :
    ((sentChunks job w).map fun chunk => (job.encrypt chunk).packet).Nodup := by
  have hchunks : (sentChunks job w).Nodup := job.nodup_chunkIds.of_map.filter _
  refine hchunks.map_on fun chunk hchunk chunk' hchunk' heq => ?_
  have hmem := (List.mem_filter.1 hchunk).1
  have hmem' := (List.mem_filter.1 hchunk').1
  have hsame := job.upload.eq_of_packet (job.mem_upload.2 ⟨chunk, hmem, rfl⟩)
    (job.mem_upload.2 ⟨chunk', hmem', rfl⟩) heq
  exact job.chunkId_inj hmem hmem' (congrArg EncryptedChunk.chunkId hsame)

/-! ## The account -/

/-- The payload of the first sends is that of the chunks sent. -/
theorem payload_firsts (hrun : (transfer job.setup job.upload).Reaches ls w)
    (hm : w.sender.manager? = some m) :
    payload (firstSends (managerLog job.setup.expectedChunks pipelineDepth (senderInputs ls)))
      = ((sentChunks job w).map fun chunk => chunk.data.length).sum := by
  have h := Parties.of_reaches hrun
  obtain ⟨m₀, hm₀, hbooks⟩ := h.books
  rw [hm] at hm₀
  cases hm₀
  have hpackets : ∀ c ∈ handledChunks (senderInputs ls), IsPacket c :=
    fun c hc => job.upload.isPacket (h.handled_mem hc)
  have hfirsts := (traced_of_reaches h.sender h.orderly hpackets hm).firsts
  have hall := sent_subset_firsts h.sender h.orderly hpackets hm
  generalize firstSends (managerLog job.setup.expectedChunks pipelineDepth (senderInputs ls)) = sends
    at hfirsts hall ⊢
  have hsent (chunk : ReadChunk) : w.HasSent job chunk ↔ (job.encrypt chunk).packet ∈ m.udp := by
    rw [World.HasSent, World.Unsent, not_not, Parties.sent_eq hm]
  generalize hpacks : ((sentChunks job w).map fun chunk => (job.encrypt chunk).packet) = packets
  have hnodup : packets.Nodup := hpacks ▸ sentPackets_nodup job w
  -- of the first sends, those of chunks are the packets sent, and the others carry nothing
  have hdata : (sends.filter fun d => d ∈ packets).Perm packets := by
    refine (List.perm_ext_iff_of_nodup (hfirsts.nodup.filter _) hnodup).2 fun d => ?_
    rw [List.mem_filter, decide_eq_true_eq, and_iff_right_iff_imp]
    intro hd
    rw [← hpacks] at hd
    obtain ⟨chunk, hchunk, rfl⟩ := List.mem_map.1 hd
    exact hall ((hsent chunk).1 (of_decide_eq_true (List.mem_filter.1 hchunk).2))
  have hrest : payload (sends.filter fun d => ¬ d ∈ packets) = 0 := by
    refine List.sum_eq_zero fun n hn => ?_
    obtain ⟨d, hd, rfl⟩ := List.mem_map.1 hn
    obtain ⟨hd, hnot⟩ := List.mem_filter.1 hd
    obtain ⟨b, -, ⟨c, hc, -, rfl⟩ | ⟨-, rfl⟩⟩ := hbooks.sent d (hfirsts.sub hd)
    · obtain ⟨chunk, hchunk, rfl⟩ := job.mem_upload.1 (h.handled_mem hc)
      refine absurd ?_ (of_decide_eq_true hnot)
      rw [← hpacks]
      exact List.mem_map.2 ⟨chunk, List.mem_filter.2
        ⟨hchunk, decide_eq_true ((hsent chunk).2 (hfirsts.sub hd))⟩, rfl⟩
    · exact payloadSize_blockEnd _ _
  have hsplit := (List.filter_append_perm (fun d => decide (d ∈ packets)) sends).map payloadSize
  calc payload sends
      = payload ((sends.filter fun d => d ∈ packets) ++ sends.filter fun d => ¬ d ∈ packets) := by
        rw [payload, payload, ← hsplit.sum_eq]
        simp
    _ = payload packets := by
        rw [payload_append, hrest, Nat.add_zero]
        exact (hdata.map payloadSize).sum_eq
    _ = ((sentChunks job w).map fun chunk => chunk.data.length).sum := by
        rw [← hpacks, payload, List.map_map]
        congr 1
        refine List.map_congr_left fun chunk hchunk => ?_
        exact sized_upload (job.mem_upload.2 ⟨chunk, (List.mem_filter.1 hchunk).1, rfl⟩)

/-- A manager that has returned `Ok` has all blocks of the file resolved. -/
theorem Parties.all_resolved_of_returned {setup : Setup} {upload : Upload setup.expectedChunks}
    {inputs : List LoopInput} {labels : List Receiver.Label} {n : ℕ}
    (h : Parties setup upload ls w inputs labels) (hm : w.sender.manager? = some m)
    (hreturned : w.sender.bytesSent? = some n) :
    ∀ b < totalBlocks setup.expectedChunks, m.Resolved b := by
  obtain ⟨m₀, hsender⟩ := Loop.returned_of_bytesSent hreturned
  have htally := tally_of_reaches h.sender
  rw [hsender] at hm
  cases hm
  have hcard : (m.blockStates.keysWhere BlockSlot.isResolved).card
      = (totalBlocks setup.expectedChunks).toNat := by
    have hpaced := htally.paced
    rw [hsender] at hpaced
    rw [AList.card_keysWhere, ← htally.counted m (by rw [hsender]; rfl)]
    exact hpaced
  have hiff := all_below_iff_only_below hcard
  simp only [Manager.mem_keysWhere_isResolved] at hiff
  exact hiff.2 fun b hb => h.resolved_lt (by rw [hsender]; rfl) hb

/-- What the manager returns is its count. -/
theorem bytesSent?_eq {totalChunks : UInt32} {depth n : ℕ} {inputs : List LoopInput} {s : Loop}
    (hrun : (blockManager totalChunks depth).Reaches inputs s) (hm : s.manager? = some m)
    (hreturned : s.bytesSent? = some n) : n = m.bytesSent := by
  refine hrun.invariant (P := fun s => ∀ m n, s.manager? = some m → s.bytesSent? = some n →
    n = m.bytesSent) nofun ?_ m n hm hreturned
  intro s l s' _ _ hstep m n hm hreturned
  cases Loop.turn_of_step hstep with
  | exit => cases hm; cases hreturned; rfl
  | disconnectedExit => cases hm; cases hreturned; rfl
  | _ => cases hreturned

/-- **Report.** At every point of every transfer of a file, whatever is lost, duplicated, repaired
    or resent: the bytes counted and the bytes never sent add up to the file. When the manager
    returns, it returns that count; it is the length of the file if and only if all chunks have been
    sent, and a chunk that has not been is one of a block that the receiver has given up. -/
theorem reported_bytes (hrun : (transfer job.setup job.upload).Reaches ls w) :
    ∃ m, w.sender.manager? = some m ∧ m.bytesSent + unsentBytes job w = job.file.length ∧
      ∀ n, w.sender.bytesSent? = some n → n = m.bytesSent ∧
        (n = job.file.length ↔ ∀ chunk ∈ job.chunks, w.HasSent job chunk) ∧
        ∀ chunk ∈ job.chunks, ¬ w.HasSent job chunk →
          (blockOf chunk.chunkId).1 ∈ w.receiver.control.gaveUp := by
  have h := Parties.of_reaches hrun
  obtain ⟨m, hm, -⟩ := h.books
  have hcount : m.bytesSent + unsentBytes job w = job.file.length := by
    rw [← sentChunks_add_unsentBytes job w, ← payload_firsts hrun hm]
    exact congrArg (· + _) (bytesSent_eq_payload h.sender h.orderly
      (fun c hc => sized_upload (h.handled_mem hc)) hm)
  refine ⟨m, hm, hcount, fun n hreturned => ?_⟩
  obtain rfl := bytesSent?_eq h.sender hm hreturned
  refine ⟨rfl, ?_, fun chunk hchunk hnot => ?_⟩
  · have hzero : m.bytesSent = job.file.length ↔ unsentBytes job w = 0 := by omega
    rw [hzero, unsentBytes, List.sum_eq_zero_iff]
    constructor
    · intro hnone chunk hchunk
      by_contra hnot
      have hpos := (readerThread_length job.reads.legal hchunk).1
      exact hpos.ne' (hnone _ (List.mem_map.2 ⟨chunk, List.mem_filter.2
        ⟨hchunk, decide_eq_true hnot⟩, rfl⟩))
    · intro hall n hn
      obtain ⟨chunk, hchunk, -⟩ := List.mem_map.1 hn
      obtain ⟨hmem, hnot⟩ := List.mem_filter.1 hchunk
      exact absurd (hall chunk hmem) (of_decide_eq_true hnot)
  · have hupload := job.mem_upload.2 ⟨chunk, hchunk, rfl⟩
    exact h.gaveUp_of_resolved hm hupload (not_not.1 hnot)
      (h.all_resolved_of_returned hm hreturned _ (blockOf_fst_lt (job.chunkId_lt hchunk)))

/-- The first of two chunks stays with its worker until the receiver has given the block up: the
    sender returns `Ok` and reports one byte of 1401. -/
theorem reported_bytes_pausedRun :
    ∃ w, (transfer twoChunks.setup twoChunks.upload).Reaches (pausedRun ++ returnedRun) w ∧
      w.sender.bytesSent? = some 1 ∧ twoChunks.file.length = 1401 ∧
      (0 : UInt32) ∈ w.receiver.control.gaveUp := by
  obtain ⟨w, hw, hreturned, hunsent⟩ := Lts.exists_exec
    (transfer twoChunks.setup twoChunks.upload) (pausedRun ++ returnedRun)
    (fun w => w.sender.bytesSent? = some 1 ∧
      ¬ w.HasSent twoChunks ⟨0, List.replicate 1400 7⟩) (by decide +kernel)
  have hrun := Lts.reaches_of_exec hw
  obtain ⟨m, -, -, hreport⟩ := reported_bytes hrun
  obtain ⟨-, -, hgaveUp⟩ := hreport 1 hreturned
  exact ⟨w, hrun, hreturned, List.length_replicate, hgaveUp _ (by decide +kernel) hunsent⟩

end SecureTransfer.Transfer
