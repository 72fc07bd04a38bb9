import SecureTransfer.Sender.Confirmed

set_option autoImplicit false

/-! # Files at the size limit

`Sender::run` narrows the number of chunks to `u32` without a check, and nothing after it fails for
that: every job has a run in which `send_file` returns `Ok` (`exists_returned`). So the size is safe
exactly when the number of chunks is below `2^32`. -/

namespace SecureTransfer.Sender

variable {job : SendFile} {m : Manager} {size : UInt64}

/-! ## Nothing fails -/

/-- Once the file has been forwarded, all threads but the manager exit. -/
theorem stop_pipeline (h : m.Confirmed (totalBlocks job.totalChunks).toNat)
    (events : List SenderEvent) :
    ∃ ls s, (sendFile job).exec ls
        { SendThreads.started job (.head m) with reader := .sending [], events := events } = some s ∧
      s.main = .returned 0 := by
  have hexit : (sendFile job).exec [.readerExit, .workerRecv 0, .workerRecv 1, .workerRecv 2,
        .workerRecv 3, .relayRecv]
      { SendThreads.started job (.head m) with reader := .sending [], events := events }
      = some { SendThreads.started job (.head m) with
          reader := .exited .ok, workers := List.replicate numWorkers (.exited .ok),
          chunkRelay := .exited, events := events } := rfl
  have hreturn := h.return (s := { SendThreads.started job (.head m) with
    reader := .exited .ok, workers := List.replicate numWorkers (.exited .ok),
    chunkRelay := .exited, events := events }) rfl
  -- the joins: reader, four workers, manager, ack relay, chunk relay
  have hjoins : (sendFile job).exec (List.replicate 7 .main ++ [.ackRelayExit, .main, .main])
      { SendThreads.started job (.returned m (.ok 0)) with
        reader := .exited .ok, workers := List.replicate numWorkers (.exited .ok),
        chunkRelay := .exited }
      = some { SendThreads.started job (.returned m (.ok 0)) with
          reader := .exited .ok, workers := List.replicate numWorkers (.exited .ok),
          chunkRelay := .exited, ackRelayRunning := false, controlOpen := false,
          main := .returned 0 } := rfl
  exact ⟨_, _, Lts.exec_trans (Lts.exec_trans hexit hreturn) hjoins, rfl⟩

/-- **Every job can succeed.** All blocks are confirmed first, the file is read and forwarded, and
    every thread ends well. -/
theorem exists_returned (job : SendFile) :
    ∃ ls s, (sendFile job).Reaches ls s ∧ s.main = .returned 0 := by
  obtain ⟨before, m, hconfirmed, hconfirm⟩ := confirm_all job
  obtain ⟨middle, hforward⟩ := forward_all job (s := .started job (.head m))
    ⟨rfl, rfl, rfl, rfl, rfl⟩ rfl
  obtain ⟨after, s, hstop, hmain⟩ := stop_pipeline hconfirmed _
  exact ⟨_, s, Lts.reaches_of_exec (Lts.exec_trans (Lts.exec_trans hconfirm hforward) hstop), hmain⟩

/-! ## Sizes -/

/-- Every file can be read with full reads. -/
theorem exists_fullReads (file : Bytes) : ∃ counts, FullReads counts file := by
  induction hlength : file.length using Nat.strongRecOn generalizing file with
  | _ n ih =>
      by_cases hempty : file = []
      · exact ⟨[0], by subst hempty; exact ⟨rfl, rfl⟩⟩
      · have hpos : 0 < file.length := List.length_pos_iff.2 hempty
        have hread : 0 < min chunkSize file.length := lt_min (by decide) hpos
        have hless : (file.drop (min chunkSize file.length)).length < n := by
          rw [List.length_drop, hlength]
          omega
        obtain ⟨counts, hcounts⟩ := ih _ hless _ rfl
        refine ⟨min chunkSize file.length :: counts, rfl, ?_⟩
        rw [if_neg hread.ne']
        exact hcounts

/-- The number of chunks of a file of this size. -/
def chunksOf (size : UInt64) : ℕ :=
  (size.toNat + (chunkSize - 1)) / chunkSize

/-- `send_file` as `run` calls it for a file of this size, with full reads. -/
structure Sends (size : UInt64) (job : SendFile) : Prop where
  file : job.file.length = size.toNat
  reads : FullReads job.counts job.file
  announced : job.totalChunks = totalChunks size

/-- The announced geometry covers the file, and the counter numbers its chunks. -/
structure Covers (size : UInt64) (job : SendFile) : Prop where
  packets : ((List.range (totalBlocks job.totalChunks).toNat).map fun b =>
    packetsInBlock (.ofNat b) job.totalChunks).sum = chunksOf size
  counted : ∀ (k : ℕ) (chunk : ReadChunk), job.chunks[k]? = some chunk →
    chunk.chunkId.toNat = k ∧ chunk.chunkId.toNat + 1 < 2 ^ 32
  distinct : (job.chunks.map ReadChunk.chunkId).Nodup

/-- Every run on a file of this size reports an error, or has announced what covers the file. -/
def SizeSafe (size : UInt64) : Prop :=
  ∀ job, Sends size job → ∀ ls s bytesSent, (sendFile job).Reaches ls s →
    s.main = .returned bytesSent → Covers size job

theorem exists_sends (size : UInt64) : ∃ job, Sends size job := by
  obtain ⟨counts, hcounts⟩ := exists_fullReads (List.replicate size.toNat 0)
  exact ⟨{ zeros 0 with
    totalChunks := totalChunks size, file := List.replicate size.toNat 0, counts := counts,
    reads := hcounts.legal }, List.length_replicate, hcounts, rfl⟩

theorem Sends.length_chunks (h : Sends size job) : job.chunks.length = chunksOf size := by
  rw [chunksOf, ← h.file]
  exact readerThread_length_eq h.reads

/-- Below the limit nothing is lost. -/
theorem Sends.covers (h : Sends size job) (hsmall : chunksOf size < 2 ^ 32) : Covers size job := by
  have hcounted : ∀ (k : ℕ) (chunk : ReadChunk), job.chunks[k]? = some chunk →
      chunk.chunkId.toNat = k ∧ chunk.chunkId.toNat + 1 < 2 ^ 32 := by
    intro k chunk hk
    obtain ⟨hlt, -⟩ := List.getElem?_eq_some_iff.1 hk
    rw [h.length_chunks] at hlt
    have hid := readerThread_chunkId hk
    rw [UInt32.zero_add] at hid
    have hnat : chunk.chunkId.toNat = k := by
      rw [hid, UInt32.toNat_ofNat_of_lt' (hlt.trans hsmall)]
    exact ⟨hnat, by omega⟩
  refine ⟨?_, hcounted, ?_⟩
  · rw [sum_packetsInBlock, h.announced, chunksOf, totalChunks_toNat]
    rw [chunksOf, chunkSize] at hsmall
    rw [chunkSize]
    omega
  · rw [List.nodup_iff_injective_getElem]
    intro i j heq
    have hi := (hcounted i _ (List.getElem?_eq_getElem (by simpa using i.2))).1
    have hj := (hcounted j _ (List.getElem?_eq_getElem (by simpa using j.2))).1
    have hids := congrArg UInt32.toNat heq
    simp only [List.getElem_map] at hids
    exact Fin.ext (hi.symm.trans (hids.trans hj))

/-- Above it no error is reported, and the announced number is not that of the chunks. -/
theorem SizeSafe.small (h : SizeSafe size) : chunksOf size < 2 ^ 32 := by
  obtain ⟨job, hjob⟩ := exists_sends size
  obtain ⟨ls, s, hrun, hmain⟩ := exists_returned job
  have hcovers := (h job hjob ls s 0 hrun hmain).packets
  rw [sum_packetsInBlock] at hcovers
  rw [← hcovers]
  exact UInt32.toNat_lt _

/-- **Size limit.** A size is safe if and only if its number of chunks fits in `u32`. -/
theorem sizeSafe_iff (size : UInt64) :
    SizeSafe size ↔ (size.toNat + (chunkSize - 1)) / chunkSize < 2 ^ 32 :=
  ⟨SizeSafe.small, fun hsmall _ hjob _ _ _ _ _ => hjob.covers hsmall⟩

/-- `2^32` full chunks: no chunk at all is announced, and no error reported. -/
theorem sizeSafe_fails :
    totalChunks 6012954214400 = 0 ∧ chunksOf 6012954214400 = 2 ^ 32 ∧
      ¬ SizeSafe 6012954214400 := by
  have hchunks : chunksOf 6012954214400 = 2 ^ 32 := by decide
  refine ⟨by decide, hchunks, fun h => ?_⟩
  have hsmall := h.small
  rw [hchunks] at hsmall
  exact lt_irrefl _ hsmall

end SecureTransfer.Sender
