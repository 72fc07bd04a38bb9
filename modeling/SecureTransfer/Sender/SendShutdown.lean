import SecureTransfer.Sender.Confirmed

set_option autoImplicit false

/-! # Shutting the sender down

When the block manager has ended, the chunk relay breaks on its next chunk, and each worker fails on
its next one. The reader never notices: `send_file` keeps `read_rx`, so nobody disconnects its
channel, and once the dead threads and the channels have taken what they can (`slack`) it blocks for
good. The sender comes to an end exactly when what is left of the file is within the slack
(`main_over_iff`), which is the case in all states of a file only if it is small
(`shutdown_iff`). -/

namespace SecureTransfer.Sender

variable {job : SendFile} {s s' : SendThreads} {l : SendLabel} {ls : List SendLabel}

/-! ## What the threads can still take -/

def EncryptWorker.isRecv : EncryptWorker → Bool
  | .recv => true
  | _ => false

def ChunkRelay.isRecv : ChunkRelay → Bool
  | .recv => true
  | _ => false

/-- How many more chunks the other threads and the channels take from the reader after the manager
    has ended. -/
def SendThreads.slack (s : SendThreads) : ℕ :=
  (channelCapacity - s.readChunks.length) + s.workers.countP EncryptWorker.isRecv +
    if s.chunkRelay.isExited then 0
    else (channelCapacity - s.sendChunks.length) + s.chunkRelay.isRecv.toNat

/-- `send_file` has returned, or unwinds. -/
def SendMain.isOver : SendMain → Bool
  | .returned _ => true
  | .failed => true
  | .panicked => true
  | _ => false

/-- The steps the threads take by themselves: the file can be read, and nothing comes over the
    control stream. -/
def SendLabel.isOwn : SendLabel → Bool
  | .readerError => false
  | .ackRelay _ => false
  | .controlError => false
  | _ => true

/-- Reading the file fails. -/
def SendLabel.isReadError : SendLabel → Bool
  | .readerError => true
  | _ => false

/-! ## The threads of a run -/

/-- What holds of the threads in every run. The last two fields are about a reader that is not done:
    a worker has exited only if the relay has, and the chunks taken are accounted for. -/
structure SendThreads.Ordered (job : SendFile) (s : SendThreads) : Prop where
  workers : s.workers.length = numWorkers
  readChunks : s.readChunks.length ≤ channelCapacity
  sendChunks : s.sendChunks.length ≤ channelCapacity
  joined : s.main ≠ .joinReader → s.reader.result?.isSome = true
  control : ∀ bytes, s.main = .joinAckRelay bytes → s.controlOpen = false
  failed : s.reader.result? = none → ∀ result, .exited result ∈ s.workers →
    s.chunkRelay.isExited = true
  taken : s.reader.result? = none →
    s.reader.unread + s.readChunks.length + s.sendChunks.length + numWorkers + 1
      ≤ job.chunks.length + s.workers.countP EncryptWorker.isRecv + s.chunkRelay.isRecv.toNat

theorem SendThreads.Ordered.init (job : SendFile) : (SendThreads.init job).Ordered job where
  workers := List.length_replicate
  readChunks := Nat.zero_le _
  sendChunks := Nat.zero_le _
  joined := fun h => absurd rfl h
  control := nofun
  failed := fun _ result hmem => by simp [SendThreads.init] at hmem
  taken := fun _ => by
    simp [SendThreads.init, ReaderThread.unread, List.countP_replicate, EncryptWorker.isRecv,
      ChunkRelay.isRecv]

/-- What the thread of `send_file` does next. -/
theorem SendThreads.onMain_inv {main : SendMain} {controlOpen : Bool}
    (h : s.onMain = some { s with main := main, controlOpen := controlOpen }) :
    (s.main = .joinReader → s.reader.result?.isSome = true) ∧ main ≠ .joinReader ∧
      ∀ bytes, main = .joinAckRelay bytes → controlOpen = false := by
  unfold onMain at h
  have hjoin : ∀ {result : Option ThreadResult} {next main : SendMain},
      SendMain.join result next = some main →
      result.isSome = true ∧ (main = next ∨ main = .failed ∨ main = .panicked) := by
    intro result next main hjoin
    unfold SendMain.join at hjoin
    split at hjoin <;> cases hjoin <;> simp
  have hread : ∀ {main' : SendMain} {controlOpen' : Bool},
      some { s with main := main', controlOpen := controlOpen' }
        = some { s with main := main, controlOpen := controlOpen } →
      main = main' ∧ controlOpen = controlOpen' := fun heq =>
    ⟨(congrArg SendThreads.main (Option.some.inj heq)).symm,
      (congrArg SendThreads.controlOpen (Option.some.inj heq)).symm⟩
  split at h
  · obtain ⟨main', hmain', heq⟩ := Option.map_eq_some_iff.1 h
    obtain ⟨hsome, hcases⟩ := hjoin hmain'
    obtain ⟨rfl, -⟩ := hread (congrArg some heq)
    refine ⟨fun _ => hsome, ?_, ?_⟩
    · rcases hcases with rfl | rfl | rfl <;> nofun
    · rcases hcases with rfl | rfl | rfl <;> nofun
  · next hmain =>
      rw [hmain]
      refine ⟨nofun, ?_⟩
      split at h
      · obtain ⟨rfl, -⟩ := hread h
        exact ⟨nofun, nofun⟩
      · obtain ⟨main', hmain', heq⟩ := Option.map_eq_some_iff.1 h
        obtain ⟨-, hcases⟩ := hjoin hmain'
        obtain ⟨rfl, -⟩ := hread (congrArg some heq)
        rcases hcases with rfl | rfl | rfl <;> exact ⟨nofun, nofun⟩
  · next hmain =>
      rw [hmain]
      refine ⟨nofun, ?_⟩
      split at h
      · obtain ⟨rfl, hcontrol⟩ := hread h
        exact ⟨nofun, fun _ _ => hcontrol⟩
      · obtain ⟨rfl, -⟩ := hread h
        exact ⟨nofun, nofun⟩
      · obtain ⟨rfl, -⟩ := hread h
        exact ⟨nofun, nofun⟩
      · cases h
  · next hmain =>
      rw [hmain]
      refine ⟨nofun, ?_⟩
      split at h
      · cases h
      · obtain ⟨rfl, -⟩ := hread h
        exact ⟨nofun, nofun⟩
  · next hmain =>
      rw [hmain]
      refine ⟨nofun, ?_⟩
      split at h
      · obtain ⟨rfl, -⟩ := hread h
        exact ⟨nofun, nofun⟩
      · cases h
  · cases h
  · cases h
  · cases h

/-- A worker moves on. -/
theorem countP_isRecv_set {i : ℕ} {w : EncryptWorker} (w' : EncryptWorker)
    (h : s.workers[i]? = some w) :
    (s.workers.set i w').countP EncryptWorker.isRecv + w.isRecv.toNat
      = s.workers.countP EncryptWorker.isRecv + w'.isRecv.toNat :=
  countP_set_eq _ w' h

theorem EncryptWorker.exited_of_isSome {w : EncryptWorker} (h : w.result?.isSome = true) :
    ∃ result, w = .exited result := by
  cases w with
  | recv => cases h
  | sending => cases h
  | exited result => exact ⟨result, rfl⟩

/-- While the reader and the chunk relay run, no worker has exited. -/
theorem SendThreads.Ordered.not_exited (h : s.Ordered job) (hreader : s.reader.result? = none)
    (hrelay : s.chunkRelay.isExited = false) (result : ThreadResult) :
    EncryptWorker.exited result ∉ s.workers := by
  intro hmem
  rw [h.failed hreader result hmem] at hrelay
  cases hrelay

/-- A worker that moves on without exiting. -/
theorem SendThreads.Ordered.failed_set (h : s.Ordered job) {i : ℕ} {w' : EncryptWorker}
    (hw' : ∀ result, w' ≠ .exited result) (hreader : s.reader.result? = none) (result : ThreadResult)
    (hmem : .exited result ∈ s.workers.set i w') : s.chunkRelay.isExited = true := by
  rcases List.mem_or_eq_of_mem_set hmem with hold | heq
  · exact h.failed hreader result hold
  · exact absurd heq.symm (hw' result)

theorem SendThreads.Ordered.step (h : s.Ordered job) (hturn : SendThreads.Turn job l s s') :
    s'.Ordered job := by
  have hset : ∀ {i : ℕ} {w' : EncryptWorker}, (s.workers.set i w').length = numWorkers :=
    List.length_set.trans h.workers
  cases hturn with
  | @readerSend _ chunk rest hreader hroom =>
      refine { h with readChunks := ?_, joined := fun hmain => ?_, failed := ?_, taken := ?_ }
      · rw [List.length_append, List.length_singleton]
        exact hroom
      · have := h.joined hmain
        rw [hreader] at this
        cases this
      · exact fun _ => h.failed (by rw [hreader]; rfl)
      · intro _
        have := h.taken (by rw [hreader]; rfl)
        simp only [hreader, ReaderThread.unread, List.length_cons, List.length_append,
          List.length_nil] at this ⊢
        omega
  | readerExit hreader =>
      refine { h with joined := fun _ => rfl, failed := ?_, taken := ?_ }
      · rintro ⟨⟩
      · rintro ⟨⟩
  | readerError hreader =>
      refine { h with joined := fun _ => rfl, failed := ?_, taken := ?_ }
      · rintro ⟨⟩
      · rintro ⟨⟩
  | @workerRecv _ i chunk readChunks hworker hchunks =>
      have hcount := countP_isRecv_set (.sending (job.encrypt chunk)) hworker
      have hlen := h.readChunks
      simp only [EncryptWorker.isRecv, Bool.toNat_true, Bool.toNat_false] at hcount
      rw [hchunks, List.length_cons] at hlen
      refine { h with
        workers := hset, readChunks := ?_, failed := h.failed_set (by rintro _ ⟨⟩), taken := ?_ }
      · exact (Nat.le_succ _).trans hlen
      · intro hreader
        have := h.taken hreader
        simp only [hchunks, List.length_cons] at this ⊢
        omega
  | workerExit hworker hchunks hreader =>
      refine { h with workers := hset, failed := fun hnone => ?_, taken := fun hnone => ?_ }
      · rw [hnone] at hreader
        cases hreader
      · rw [hnone] at hreader
        cases hreader
  | @workerSend _ i chunk hworker hrelay hroom =>
      have hcount := countP_isRecv_set .recv hworker
      simp only [EncryptWorker.isRecv, Bool.toNat_true, Bool.toNat_false] at hcount
      refine { h with
        workers := hset, sendChunks := ?_, failed := h.failed_set (by rintro _ ⟨⟩), taken := ?_ }
      · rw [List.length_append, List.length_singleton]
        exact hroom
      · intro hreader
        have := h.taken hreader
        simp only [List.length_append, List.length_singleton] at this ⊢
        omega
  | @workerError _ i chunk hworker hrelay =>
      have hcount := countP_isRecv_set (.exited .err) hworker
      simp only [EncryptWorker.isRecv, Bool.toNat_false] at hcount
      refine { h with workers := hset, failed := fun _ _ _ => hrelay, taken := ?_ }
      intro hreader
      have := h.taken hreader
      dsimp only at this ⊢
      omega
  | @relayRecv _ chunk sendChunks hrelay hchunks =>
      have hlen := h.sendChunks
      rw [hchunks, List.length_cons] at hlen
      refine { h with sendChunks := (Nat.le_succ _).trans hlen, failed := ?_, taken := ?_ }
      · intro hreader result hmem
        exact absurd hmem (h.not_exited hreader (by rw [hrelay]; rfl) result)
      · intro hreader
        have := h.taken hreader
        simp only [hrelay, hchunks, ChunkRelay.isRecv, List.length_cons, Bool.toNat_true,
          Bool.toNat_false] at this ⊢
        omega
  | relayExit hrelay hchunks hworkers =>
      -- the relay is the first to exit while the reader is not done
      refine { h with failed := fun _ _ _ => rfl, taken := fun hreader => ?_ }
      have hpos : 0 < s.workers.length := by
        rw [h.workers]
        decide
      have hmem := List.getElem_mem hpos
      obtain ⟨result, hresult⟩ :=
        EncryptWorker.exited_of_isSome (List.all_eq_true.1 hworkers _ hmem)
      exact absurd (hresult ▸ hmem) (h.not_exited hreader (by rw [hrelay]; rfl) result)
  | relaySend hrelay hmanager =>
      refine { h with failed := ?_, taken := ?_ }
      · intro hreader result hmem
        exact absurd hmem (h.not_exited hreader (by rw [hrelay]; rfl) result)
      · intro hreader
        have := h.taken hreader
        simp only [hrelay, ChunkRelay.isRecv, Bool.toNat_true, Bool.toNat_false] at this ⊢
        omega
  | relayBreak hrelay hmanager =>
      refine { h with sendChunks := Nat.zero_le _, failed := fun _ _ _ => rfl, taken := ?_ }
      intro hreader
      have := h.taken hreader
      simp only [hrelay, ChunkRelay.isRecv, Bool.toNat_false, List.length_nil] at this ⊢
      omega
  | ackRelay => exact { h with }
  | ackRelayBreak => exact { h with }
  | controlError => exact { h with }
  | ackRelayExit => exact { h with }
  | manager => exact { h with }
  | @main _ main controlOpen hmain =>
      obtain ⟨hfirst, -, hcontrol⟩ := SendThreads.onMain_inv hmain
      refine { h with joined := fun _ => ?_, control := hcontrol }
      by_cases hjoin : s.main = .joinReader
      · exact hfirst hjoin
      · exact h.joined hjoin

theorem ordered_of_reaches (hrun : (sendFile job).Reaches ls s) : s.Ordered job :=
  hrun.invariant (SendThreads.Ordered.init job) fun _ _ _ ih _ hstep =>
    ih.step (SendThreads.turn_of_step hstep)

/-! ## The reader blocks -/

/-- The reader has more chunks left than will ever be taken. -/
structure SendThreads.Wedged (s : SendThreads) : Prop where
  ended : s.manager.ended = true
  reader : s.reader.result? = none
  short : s.slack < s.reader.unread

theorem Loop.step_of_ended {totalChunks : UInt32} {depth : ℕ} {l : LoopInput} {s : Loop}
    (h : s.ended = true) : Loop.step totalChunks depth l s = none := by
  match s, h with
  | .returned _ _, _ => cases l <;> rfl
  | .panicked _, _ => cases l <;> rfl

/-- **Step lemma.** No step helps, but for a failed read. -/
theorem SendThreads.Wedged.step (h : s.Wedged) (hord : s.Ordered job)
    (hturn : SendThreads.Turn job l s s') (hl : l.isReadError = false) : s'.Wedged := by
  have hshort := h.short
  unfold slack at hshort
  cases hturn with
  | readerSend hreader hroom =>
      refine ⟨h.ended, rfl, ?_⟩
      simp only [hreader, ReaderThread.unread, List.length_cons] at hshort
      simp only [slack, ReaderThread.unread, List.length_append, List.length_singleton]
      omega
  | readerExit hreader =>
      simp only [hreader, ReaderThread.unread, List.length_nil] at hshort
      omega
  | readerError => cases hl
  | @workerRecv _ i chunk readChunks hworker hchunks =>
      have hcount := countP_isRecv_set (.sending (job.encrypt chunk)) hworker
      have hlen := hord.readChunks
      simp only [EncryptWorker.isRecv, Bool.toNat_true, Bool.toNat_false] at hcount
      rw [hchunks, List.length_cons] at hlen hshort
      refine ⟨h.ended, h.reader, ?_⟩
      simp only [slack]
      omega
  | workerExit hworker hchunks hreader =>
      rw [h.reader] at hreader
      cases hreader
  | @workerSend _ i chunk hworker hrelay hroom =>
      have hcount := countP_isRecv_set .recv hworker
      simp only [EncryptWorker.isRecv, Bool.toNat_true, Bool.toNat_false] at hcount
      refine ⟨h.ended, h.reader, ?_⟩
      simp only [hrelay, Bool.false_eq_true, if_false] at hshort
      simp only [slack, hrelay, Bool.false_eq_true, if_false, List.length_append,
        List.length_singleton]
      omega
  | workerError hworker =>
      have hcount := countP_isRecv_set (.exited .err) hworker
      simp only [EncryptWorker.isRecv, Bool.toNat_false] at hcount
      refine ⟨h.ended, h.reader, ?_⟩
      simp only [slack]
      omega
  | relayRecv hrelay hchunks =>
      have hlen := hord.sendChunks
      rw [hchunks, List.length_cons] at hlen
      refine ⟨h.ended, h.reader, ?_⟩
      simp only [hrelay, hchunks, ChunkRelay.isExited, ChunkRelay.isRecv, Bool.false_eq_true,
        if_false, Bool.toNat_true, List.length_cons] at hshort
      simp only [slack, ChunkRelay.isExited, ChunkRelay.isRecv, Bool.false_eq_true, if_false,
        Bool.toNat_false]
      omega
  | relayExit hrelay =>
      refine ⟨h.ended, h.reader, ?_⟩
      simp only [slack, ChunkRelay.isExited, if_true]
      omega
  | relaySend hrelay hmanager =>
      rw [h.ended] at hmanager
      cases hmanager
  | relayBreak =>
      refine ⟨h.ended, h.reader, ?_⟩
      simp only [slack, ChunkRelay.isExited, if_true]
      omega
  | manager hadmits hstep =>
      have hnone := (Loop.step_of_ended h.ended).symm.trans hstep
      cases hnone
  | ackRelay => exact ⟨h.ended, h.reader, h.short⟩
  | ackRelayBreak => exact ⟨h.ended, h.reader, h.short⟩
  | controlError => exact ⟨h.ended, h.reader, h.short⟩
  | ackRelayExit => exact ⟨h.ended, h.reader, h.short⟩
  | main => exact ⟨h.ended, h.reader, h.short⟩

/-- **Run lemma.** However long the threads run on, `send_file` waits for the reader. -/
theorem SendThreads.Wedged.exec (h : s.Wedged) (hord : s.Ordered job)
    (hls : ∀ l ∈ ls, l.isReadError = false) (hexec : (sendFile job).exec ls s = some s') :
    s'.main = .joinReader := by
  have hboth : s'.Wedged ∧ s'.Ordered job := by
    refine Lts.exec_preserves_of_labels (P := fun s => s.Wedged ∧ s.Ordered job) ?_ hls ⟨h, hord⟩
      hexec
    intro s l s' hs hl hstep
    have hturn := SendThreads.turn_of_step hstep
    exact ⟨hs.1.step hs.2 hturn hl, hs.2.step hturn⟩
  by_contra hmain
  have hdone := hboth.2.joined hmain
  rw [hboth.1.reader] at hdone
  cases hdone

/-! ## The sender comes to an end -/

def EncryptWorker.isAlive : EncryptWorker → Bool
  | .exited _ => false
  | _ => true

theorem EncryptWorker.isAlive_eq_false_iff {w : EncryptWorker} :
    w.isAlive = false ↔ w.result?.isSome = true := by
  cases w <;> simp [isAlive, result?]

def ReaderThread.rank : ReaderThread → ℕ
  | .sending rest => 5 * rest.length + 1
  | .exited _ => 0

def ChunkRelay.rank : ChunkRelay → ℕ
  | .recv => 1
  | .sending _ => 2
  | .exited => 0

/-- The joins that are left, with `workers` threads to join in the second place. -/
def SendMain.rank (workers : ℕ) : SendMain → ℕ
  | .joinReader => workers + 5
  | .joinWorkers next => (workers - next) + 4
  | .joinManager => 3
  | .joinAckRelay _ => 2
  | .joinChunkRelay _ => 1
  | _ => 0

/-- What is left to do: every chunk has a way to go, every thread an exit, `send_file` its joins. -/
def SendThreads.rank (s : SendThreads) : ℕ :=
  s.reader.rank + 4 * s.readChunks.length +
    (3 * s.workers.countP EncryptWorker.isSending + s.workers.countP EncryptWorker.isAlive) +
    2 * s.sendChunks.length + s.chunkRelay.rank + s.ackRelayRunning.toNat +
    s.main.rank s.workers.length

/-- The manager has ended and the reader is within the slack. -/
structure SendThreads.Closing (job : SendFile) (s : SendThreads) : Prop where
  ordered : s.Ordered job
  ended : s.manager.ended = true
  room : s.reader.unread ≤ s.slack

/-- Some thread takes a step that brings the end nearer. -/
def SendThreads.Advances (job : SendFile) (s : SendThreads) : Prop :=
  ∃ l s', l.isOwn = true ∧ SendThreads.step job l s = some s' ∧ s'.rank < s.rank ∧ s'.Closing job

theorem SendThreads.Closing.advance (h : s.Closing job) (hturn : SendThreads.Turn job l s s')
    (hl : l.isOwn = true) (hmanager : s'.manager = s.manager)
    (hroom : s'.reader.unread ≤ s'.slack) (hrank : s'.rank < s.rank) : s.Advances job :=
  ⟨l, s', hl, hturn.step, hrank, h.ordered.step hturn, hmanager ▸ h.ended, hroom⟩

/-- A reader that is done needs no room. -/
theorem SendThreads.room_of_exited {result : ThreadResult} (hreader : s.reader = .exited result) :
    s.reader.unread ≤ s.slack := by
  rw [hreader]
  exact Nat.zero_le _

/-- How a worker's move changes the counts. -/
theorem countWorkers_set {i : ℕ} {w : EncryptWorker} (w' : EncryptWorker)
    (h : s.workers[i]? = some w) :
    ((s.workers.set i w').countP EncryptWorker.isRecv + w.isRecv.toNat
        = s.workers.countP EncryptWorker.isRecv + w'.isRecv.toNat) ∧
      ((s.workers.set i w').countP EncryptWorker.isSending + w.isSending.toNat
        = s.workers.countP EncryptWorker.isSending + w'.isSending.toNat) ∧
      (s.workers.set i w').countP EncryptWorker.isAlive + w.isAlive.toNat
        = s.workers.countP EncryptWorker.isAlive + w'.isAlive.toNat :=
  ⟨countP_set_eq _ w' h, countP_set_eq _ w' h, countP_set_eq _ w' h⟩

/-- With the read channel full, a chunk moves on further down. -/
theorem SendThreads.Closing.makeRoom (h : s.Closing job) {chunk : ReadChunk} {rest : List ReadChunk}
    (hreader : s.reader = .sending (chunk :: rest))
    (hfull : s.readChunks.length = channelCapacity) : s.Advances job := by
  have hroom := h.room
  rw [hreader, ReaderThread.unread, List.length_cons, slack] at hroom
  by_cases hrecv : 0 < s.workers.countP EncryptWorker.isRecv
  · -- a worker is waiting, and there is a chunk for it
    obtain ⟨w, hw, hwait⟩ := List.countP_pos_iff.1 hrecv
    obtain ⟨i, hi⟩ := List.mem_iff_getElem?.1 hw
    have hworker : s.workers[i]? = some .recv := by
      cases w with
      | recv => exact hi
      | sending => cases hwait
      | exited => cases hwait
    obtain ⟨c, readChunks, hchunks⟩ : ∃ c readChunks, s.readChunks = c :: readChunks := by
      refine List.exists_cons_of_length_pos ?_
      rw [hfull]
      decide
    have hcount := countWorkers_set (.sending (job.encrypt c)) hworker
    simp only [EncryptWorker.isRecv, EncryptWorker.isSending, EncryptWorker.isAlive,
      Bool.toNat_true, Bool.toNat_false] at hcount
    rw [hchunks, List.length_cons] at hfull hroom
    refine h.advance (.workerRecv hworker hchunks) rfl rfl ?_ ?_
    · simp only [slack, hreader, ReaderThread.unread, List.length_cons]
      omega
    · simp only [rank, hchunks, List.length_cons, List.length_set]
      omega
  · -- all workers hold a chunk, and the relay is there
    have hrelay : s.chunkRelay.isExited = false := by
      rw [← Bool.not_eq_true]
      intro hexited
      rw [if_pos hexited] at hroom
      omega
    simp only [hrelay, Bool.false_eq_true, if_false] at hroom
    have hpos : 0 < s.workers.length := by
      rw [h.ordered.workers]
      decide
    obtain ⟨c, hworker⟩ : ∃ c, s.workers[0]? = some (.sending c) := by
      have hmem := List.getElem_mem hpos
      rw [List.getElem?_eq_getElem hpos]
      cases hw : s.workers[0] with
      | sending c => exact ⟨c, rfl⟩
      | recv => exact absurd (List.countP_pos_iff.2 ⟨_, hmem, hw ▸ rfl⟩) hrecv
      | exited result =>
          exact absurd (hw ▸ hmem) (h.ordered.not_exited (by rw [hreader]; rfl) hrelay result)
    by_cases hsend : s.sendChunks.length < channelCapacity
    · have hcount := countWorkers_set .recv hworker
      simp only [EncryptWorker.isRecv, EncryptWorker.isSending, EncryptWorker.isAlive,
        Bool.toNat_true, Bool.toNat_false] at hcount
      refine h.advance (.workerSend hworker hrelay hsend) rfl rfl ?_ ?_
      · simp only [slack, hreader, ReaderThread.unread, hrelay, Bool.false_eq_true, if_false,
          List.length_cons, List.length_append, List.length_nil]
        omega
      · simp only [rank, List.length_append, List.length_singleton, List.length_set]
        omega
    · -- both channels are full
      have hfull' : s.sendChunks.length = channelCapacity :=
        le_antisymm h.ordered.sendChunks (Nat.le_of_not_lt hsend)
      have hwait : s.chunkRelay = .recv := by
        cases hr : s.chunkRelay with
        | recv => rfl
        | sending c' =>
            simp only [hr, ChunkRelay.isRecv, Bool.toNat_false] at hroom
            omega
        | exited =>
            rw [hr] at hrelay
            cases hrelay
      obtain ⟨c', sendChunks, hchunks⟩ : ∃ c' sendChunks, s.sendChunks = c' :: sendChunks := by
        refine List.exists_cons_of_length_pos ?_
        rw [hfull']
        decide
      rw [hchunks, List.length_cons] at hfull'
      rw [hwait, ChunkRelay.isRecv, Bool.toNat_true, hchunks, List.length_cons] at hroom
      refine h.advance (.relayRecv hwait hchunks) rfl rfl ?_ ?_
      · simp only [slack, hreader, ReaderThread.unread, ChunkRelay.isExited, ChunkRelay.isRecv,
          Bool.false_eq_true, if_false, Bool.toNat_false, List.length_cons]
        omega
      · simp only [rank, hwait, hchunks, ChunkRelay.rank, List.length_cons]
        omega

/-- While the reader is not done, it sends, or a chunk moves on to make room. -/
theorem SendThreads.Closing.feed (h : s.Closing job) {rest : List ReadChunk}
    (hreader : s.reader = .sending rest) : s.Advances job := by
  cases rest with
  | nil =>
      refine h.advance (.readerExit hreader) rfl rfl (Nat.zero_le _) ?_
      simp only [rank, hreader, ReaderThread.rank]
      omega
  | cons chunk rest =>
      by_cases hread : s.readChunks.length < channelCapacity
      · have hroom := h.room
        rw [hreader, ReaderThread.unread, List.length_cons, slack] at hroom
        refine h.advance (.readerSend hreader hread) rfl rfl ?_ ?_
        · simp only [slack, ReaderThread.unread, List.length_append, List.length_singleton]
          omega
        · simp only [rank, hreader, ReaderThread.rank, List.length_cons, List.length_append,
            List.length_nil]
          omega
      · exact h.makeRoom hreader (le_antisymm h.ordered.readChunks (Nat.le_of_not_lt hread))

/-- When the reader is done, a worker that is left takes a chunk, passes one on, or exits. -/
theorem SendThreads.Closing.stopWorkers (h : s.Closing job) {result : ThreadResult}
    (hreader : s.reader = .exited result) {w : EncryptWorker} (hw : w ∈ s.workers)
    (halive : w.isAlive = true) : s.Advances job := by
  obtain ⟨i, hi⟩ := List.mem_iff_getElem?.1 hw
  cases w with
  | exited result => cases halive
  | recv =>
      cases hchunks : s.readChunks with
      | cons c readChunks =>
          have hcount := countWorkers_set (.sending (job.encrypt c)) hi
          simp only [EncryptWorker.isRecv, EncryptWorker.isSending, EncryptWorker.isAlive,
            Bool.toNat_true, Bool.toNat_false] at hcount
          refine h.advance (.workerRecv hi hchunks) rfl rfl (room_of_exited hreader) ?_
          simp only [rank, hchunks, List.length_cons, List.length_set]
          omega
      | nil =>
          have hcount := countWorkers_set (.exited .ok) hi
          simp only [EncryptWorker.isRecv, EncryptWorker.isSending, EncryptWorker.isAlive,
            Bool.toNat_true, Bool.toNat_false] at hcount
          refine h.advance (.workerExit hi hchunks (by rw [hreader]; rfl)) rfl rfl
            (room_of_exited hreader) ?_
          simp only [rank, List.length_set]
          omega
  | sending c =>
      cases hrelay : s.chunkRelay with
      | exited =>
          have hcount := countWorkers_set (.exited .err) hi
          simp only [EncryptWorker.isRecv, EncryptWorker.isSending, EncryptWorker.isAlive,
            Bool.toNat_true, Bool.toNat_false] at hcount
          refine h.advance (.workerError hi (by rw [hrelay]; rfl)) rfl rfl (room_of_exited hreader) ?_
          simp only [rank, List.length_set]
          omega
      | sending c' =>
          refine h.advance (.relayBreak hrelay h.ended) rfl rfl (room_of_exited hreader) ?_
          simp only [rank, hrelay, ChunkRelay.rank, List.length_nil]
          omega
      | recv =>
          cases hchunks : s.sendChunks with
          | cons c' sendChunks =>
              refine h.advance (.relayRecv hrelay hchunks) rfl rfl (room_of_exited hreader) ?_
              simp only [rank, hrelay, hchunks, ChunkRelay.rank, List.length_cons]
              omega
          | nil =>
              have hcount := countWorkers_set .recv hi
              simp only [EncryptWorker.isRecv, EncryptWorker.isSending, EncryptWorker.isAlive,
                Bool.toNat_true, Bool.toNat_false] at hcount
              have hroom : s.sendChunks.length < channelCapacity := by
                rw [hchunks]
                decide
              refine h.advance (.workerSend hi (by rw [hrelay]; rfl) hroom) rfl rfl
                (room_of_exited hreader) ?_
              simp only [rank, hchunks, List.nil_append, List.length_nil, List.length_singleton,
                List.length_set]
              omega

/-- When reader and workers are done, so is the relay before long. -/
theorem SendThreads.Closing.stopRelay (h : s.Closing job) {result : ThreadResult}
    (hreader : s.reader = .exited result) (hworkers : ∀ w ∈ s.workers, w.isAlive = false)
    (hrelay : s.chunkRelay.isExited = false) : s.Advances job := by
  cases hr : s.chunkRelay with
  | exited =>
      rw [hr] at hrelay
      cases hrelay
  | sending c =>
      refine h.advance (.relayBreak hr h.ended) rfl rfl (room_of_exited hreader) ?_
      simp only [rank, hr, ChunkRelay.rank, List.length_nil]
      omega
  | recv =>
      cases hchunks : s.sendChunks with
      | cons c sendChunks =>
          refine h.advance (.relayRecv hr hchunks) rfl rfl (room_of_exited hreader) ?_
          simp only [rank, hr, hchunks, ChunkRelay.rank, List.length_cons]
          omega
      | nil =>
          have hall : s.workers.all (·.result?.isSome) = true := by
            refine List.all_eq_true.2 fun w hw => ?_
            have hexited := hworkers w hw
            cases w with
            | exited result => rfl
            | _ => cases hexited
          refine h.advance (.relayExit hr hchunks hall) rfl rfl (room_of_exited hreader) ?_
          simp only [rank, hr, ChunkRelay.rank]
          omega

/-- A join of a thread that has exited succeeds, or ends `send_file`. -/
theorem SendMain.join_exited (workers : ℕ) (result : ThreadResult) (next : SendMain) :
    ∃ main, SendMain.join (some result) next = some main ∧
      main.rank workers ≤ next.rank workers := by
  cases result with
  | ok => exact ⟨next, rfl, le_rfl⟩
  | err => exact ⟨.failed, rfl, Nat.zero_le _⟩
  | panicked => exact ⟨.panicked, rfl, Nat.zero_le _⟩

/-- When all threads but the ack relay are done, `send_file` does not wait. -/
theorem SendThreads.Closing.joinNext (h : s.Closing job) {result : ThreadResult}
    (hreader : s.reader = .exited result) (hworkers : ∀ w ∈ s.workers, w.isAlive = false)
    (hrelay : s.chunkRelay.isExited = true) (hmain : s.main.isOver = false) : s.Advances job := by
  have hjoin : ∀ (main : SendMain) (controlOpen : Bool),
      s.onMain = some { s with main := main, controlOpen := controlOpen } →
      main.rank s.workers.length < s.main.rank s.workers.length → s.Advances job := by
    intro main controlOpen hstep hrank
    refine h.advance (.main hstep) rfl rfl (room_of_exited hreader) ?_
    simp only [rank]
    omega
  cases hpc : s.main with
  | joinReader =>
      obtain ⟨main, hmain', hrank⟩ :=
        SendMain.join_exited s.workers.length result (.joinWorkers 0)
      refine hjoin main s.controlOpen ?_ ?_
      · simp only [onMain, hpc, hreader, ReaderThread.result?, hmain', Option.map_some]
      · rw [hpc]
        exact lt_of_le_of_lt hrank (Nat.lt_succ_self _)
  | joinWorkers next =>
      by_cases hnext : next < s.workers.length
      · have hdead := hworkers _ (List.getElem_mem hnext)
        obtain ⟨result, hexited⟩ :=
          EncryptWorker.exited_of_isSome (EncryptWorker.isAlive_eq_false_iff.1 hdead)
        obtain ⟨main, hmain', hrank⟩ :=
          SendMain.join_exited s.workers.length result (.joinWorkers (next + 1))
        refine hjoin main s.controlOpen ?_ ?_
        · simp only [onMain, hpc, List.getElem?_eq_getElem hnext, hexited, EncryptWorker.result?,
            hmain', Option.map_some]
        · rw [hpc]
          refine lt_of_le_of_lt hrank ?_
          simp only [SendMain.rank]
          omega
      · refine hjoin .joinManager s.controlOpen ?_ ?_
        · simp only [onMain, hpc, List.getElem?_eq_none (Nat.le_of_not_lt hnext)]
        · rw [hpc]
          simp only [SendMain.rank]
          omega
  | joinManager =>
      have hended := h.ended
      match hm : s.manager with
      | .returned m (.ok bytesSent) =>
          refine hjoin (.joinAckRelay bytesSent) false ?_ ?_
          · simp only [onMain, hpc, hm]
          · rw [hpc]
            exact Nat.lt_succ_self _
      | .returned m (.error e) =>
          refine hjoin .failed s.controlOpen ?_ ?_
          · simp only [onMain, hpc, hm]
          · rw [hpc]
            exact Nat.succ_pos _
      | .panicked panic =>
          refine hjoin .panicked s.controlOpen ?_ ?_
          · simp only [onMain, hpc, hm]
          · rw [hpc]
            exact Nat.succ_pos _
      | .head m => rw [hm] at hended; cases hended
      | .wait deadline m => rw [hm] at hended; cases hended
  | joinAckRelay bytesSent =>
      cases hack : s.ackRelayRunning with
      | true =>
          refine h.advance (.ackRelayExit hack (h.ordered.control _ hpc)) rfl rfl
            (room_of_exited hreader) ?_
          simp only [rank, hack, Bool.toNat_true, Bool.toNat_false]
          omega
      | false =>
          refine hjoin (.joinChunkRelay bytesSent) s.controlOpen ?_ ?_
          · simp only [onMain, hpc, hack, Bool.false_eq_true, if_false]
          · rw [hpc]
            exact Nat.lt_succ_self _
  | joinChunkRelay bytesSent =>
      refine hjoin (.returned bytesSent) s.controlOpen ?_ ?_
      · simp only [onMain, hpc, hrelay, if_true]
      · rw [hpc]
        exact Nat.succ_pos _
  | returned bytesSent => rw [hpc] at hmain; cases hmain
  | failed => rw [hpc] at hmain; cases hmain
  | panicked => rw [hpc] at hmain; cases hmain

/-- **Progress.** As long as `send_file` is not over, some thread brings its end nearer. -/
theorem SendThreads.Closing.progress (h : s.Closing job) :
    s.main.isOver = true ∨ s.Advances job := by
  by_cases hover : s.main.isOver = true
  · exact .inl hover
  · refine .inr ?_
    cases hreader : s.reader with
    | sending rest => exact h.feed hreader
    | exited result =>
        by_cases hworkers : ∃ w ∈ s.workers, w.isAlive = true
        · obtain ⟨w, hw, halive⟩ := hworkers
          exact h.stopWorkers hreader hw halive
        · have hall : ∀ w ∈ s.workers, w.isAlive = false := fun w hw =>
            Bool.eq_false_iff.2 fun halive => hworkers ⟨w, hw, halive⟩
          by_cases hrelay : s.chunkRelay.isExited = true
          · exact h.joinNext hreader hall hrelay (Bool.eq_false_iff.2 hover)
          · exact h.stopRelay hreader hall (Bool.eq_false_iff.2 hrelay)

theorem SendThreads.Closing.over (h : s.Closing job) :
    ∃ ls s', (∀ l ∈ ls, l.isOwn = true) ∧ (sendFile job).exec ls s = some s' ∧
      s'.main.isOver = true := by
  obtain ⟨ls, s', hls, hexec, -, hover⟩ := Lts.exists_exec_of_rank (M := sendFile job)
    (fun s => s.Closing job) (fun s => s.main.isOver = true) (fun l => l.isOwn = true)
    SendThreads.rank (fun s hs => hs.progress) s h
  exact ⟨ls, s', hls, hexec, hover⟩

/-! ## When the sender comes to an end -/

/-- The threads can get to the end of `send_file` by themselves. -/
def SendThreads.CanEnd (job : SendFile) (s : SendThreads) : Prop :=
  ∃ ls s', (∀ l ∈ ls, l.isOwn = true) ∧ (sendFile job).exec ls s = some s' ∧ s'.main.isOver = true

/-- They can with whatever comes over the control stream, if the file can be read. -/
def SendThreads.CanEndWithAcks (job : SendFile) (s : SendThreads) : Prop :=
  ∃ ls s', (∀ l ∈ ls, l.isReadError = false) ∧ (sendFile job).exec ls s = some s' ∧
    s'.main.isOver = true

theorem SendThreads.CanEnd.withAcks (h : s.CanEnd job) : s.CanEndWithAcks job := by
  obtain ⟨ls, s', hls, hexec, hover⟩ := h
  refine ⟨ls, s', fun l hl => ?_, hexec, hover⟩
  have hown := hls l hl
  cases l with
  | readerError => cases hown
  | _ => rfl

/-- After the manager has ended, the state decides. -/
theorem SendThreads.Ordered.canEnd_iff (h : s.Ordered job) (hended : s.manager.ended = true) :
    (s.CanEnd job ↔ s.reader.unread ≤ s.slack) ∧
      (s.CanEndWithAcks job ↔ s.reader.unread ≤ s.slack) := by
  have hfits : s.CanEndWithAcks job → s.reader.unread ≤ s.slack := by
    rintro ⟨ls, s', hls, hexec, hover⟩
    by_contra hshort
    have hreader : s.reader.result? = none := by
      cases hr : s.reader with
      | sending rest => rfl
      | exited result =>
          rw [hr] at hshort
          exact absurd (Nat.zero_le _) hshort
    have hwedged : s.Wedged := ⟨hended, hreader, Nat.lt_of_not_le hshort⟩
    rw [hwedged.exec h hls hexec] at hover
    cases hover
  have hcan : s.reader.unread ≤ s.slack → s.CanEnd job := fun hroom =>
    SendThreads.Closing.over ⟨h, hended, hroom⟩
  exact ⟨⟨fun hend => hfits hend.withAcks, hcan⟩, ⟨hfits, fun hroom => (hcan hroom).withAcks⟩⟩

/-! ## Which files are safe -/

/-- What the pipeline takes at least: the relay and each worker a chunk, the read channel the rest. -/
def pipelineRoom : ℕ := channelCapacity + numWorkers + 1

/-- A file that the pipeline takes is within the slack of every state. -/
theorem SendThreads.Ordered.unread_le (h : s.Ordered job)
    (hsmall : job.chunks.length ≤ pipelineRoom) : s.reader.unread ≤ s.slack := by
  cases hreader : s.reader with
  | exited result => exact Nat.zero_le _
  | sending rest =>
      have htaken := h.taken (by rw [hreader]; rfl)
      have hread := h.readChunks
      have hsend := h.sendChunks
      rw [hreader] at htaken
      rw [pipelineRoom] at hsmall
      rw [slack]
      cases hrelay : s.chunkRelay with
      | recv =>
          simp only [hrelay, ChunkRelay.isRecv, ChunkRelay.isExited, Bool.toNat_true,
            Bool.false_eq_true, if_false] at htaken ⊢
          omega
      | sending c =>
          simp only [hrelay, ChunkRelay.isRecv, ChunkRelay.isExited, Bool.toNat_false,
            Bool.false_eq_true, if_false] at htaken ⊢
          omega
      | exited =>
          simp only [hrelay, ChunkRelay.isRecv, ChunkRelay.isExited, Bool.toNat_false,
            if_true] at htaken ⊢
          omega

/-- With the manager gone, the first chunk breaks the relay. -/
theorem break_relay {manager : Loop} (hended : manager.ended = true) {chunk : ReadChunk}
    {rest : List ReadChunk} (hchunks : job.chunks = chunk :: rest) :
    ∃ s, (sendFile job).exec forwardChunk (.started job manager) = some s ∧
      s.manager = manager ∧ s.reader = .sending rest ∧ s.slack = channelCapacity + numWorkers := by
  have hroom : 0 < channelCapacity := by decide
  have hrecv : ChunkRelay.recv.isExited = false := rfl
  have hworkers : 0 < numWorkers := by decide
  have hset : 0 < (List.replicate numWorkers EncryptWorker.recv).length := by decide
  simp only [forwardChunk, Lts.exec, sendFile, SendThreads.step, SendThreads.started,
    SendThreads.init, hchunks, hended, hrecv, List.length_nil, if_pos hroom, Option.bind_some,
    List.nil_append, List.getElem?_replicate, if_pos hworkers, Bool.false_eq_true, if_false, if_true,
    List.getElem?_set_self hset]
  refine ⟨_, rfl, rfl, rfl, ?_⟩
  simp only [SendThreads.slack, ChunkRelay.isExited, if_true, List.length_nil, List.set_set]
  decide

/-- A larger file can leave the reader stuck. -/
theorem exists_wedged (hlarge : pipelineRoom < job.chunks.length) :
    ∃ ls s m, (sendFile job).Reaches ls s ∧ s.manager = .returned m (.ok 0) ∧ s.Wedged := by
  obtain ⟨ls, m, hconfirmed, hexec⟩ := confirm_all job
  obtain ⟨chunk, rest, hchunks⟩ :=
    List.exists_cons_of_length_pos (lt_of_le_of_lt (Nat.zero_le _) hlarge)
  have hended : (Loop.returned m (.ok 0)).ended = true := rfl
  obtain ⟨s, hbreak, hmanager, hreader, hslack⟩ := break_relay hended hchunks
  have hreturn := hconfirmed.return (s := .started job (.head m)) rfl
  refine ⟨_, s, m, Lts.reaches_of_exec (Lts.exec_trans (Lts.exec_trans hexec hreturn) hbreak),
    hmanager, by rw [hmanager]; rfl, by rw [hreader]; rfl, ?_⟩
  rw [hchunks, List.length_cons, pipelineRoom] at hlarge
  rw [hslack, hreader]
  exact Nat.lt_of_succ_lt_succ hlarge

/-- **Shutdown.** Once the manager has ended, the threads can get to the end of `send_file` if and
    only if the chunks the reader has left are within the slack, and acks make no difference. They
    can from every such state of a job if and only if the file is no larger than what the pipeline
    takes: the channel the reader fills, one chunk per worker and one for the relay. -/
theorem shutdown_iff (job : SendFile) :
    (∀ ls s, (sendFile job).Reaches ls s → s.manager.ended = true →
      (s.CanEnd job ↔ s.reader.unread ≤ s.slack) ∧
        (s.CanEndWithAcks job ↔ s.reader.unread ≤ s.slack)) ∧
    ((∀ ls s, (sendFile job).Reaches ls s → s.manager.ended = true → s.CanEnd job) ↔
      job.chunks.length ≤ channelCapacity + numWorkers + 1) := by
  refine ⟨fun ls s hrun hended => (ordered_of_reaches hrun).canEnd_iff hended, fun hall => ?_,
    fun hsmall ls s hrun hended => ?_⟩
  · by_contra hlarge
    obtain ⟨ls, s, m, hrun, hmanager, hwedged⟩ := exists_wedged (Nat.lt_of_not_le hlarge)
    have hroom := ((ordered_of_reaches hrun).canEnd_iff hwedged.ended).1.1
      (hall ls s hrun hwedged.ended)
    exact absurd hwedged.short (Nat.not_lt_of_le hroom)
  · have hordered := ordered_of_reaches hrun
    exact (hordered.canEnd_iff hended).1.2 (hordered.unread_le hsmall)

/-- **A sender that never comes back.** 2054 chunks, the acks of all nine blocks first: the manager
    has returned, chunks are left to read, and `send_file` waits for the reader whatever happens
    short of a failed read. -/
theorem shutdown_wedges :
    ∃ ls s m, (sendFile (zeros 2054)).Reaches ls s ∧ s.manager = .returned m (.ok 0) ∧
      0 < s.reader.unread ∧ ¬ s.CanEndWithAcks (zeros 2054) := by
  have hlarge : pipelineRoom < (zeros 2054).chunks.length := by
    rw [length_chunks_zeros]
    decide
  obtain ⟨ls, s, m, hrun, hmanager, hwedged⟩ := exists_wedged hlarge
  refine ⟨ls, s, m, hrun, hmanager, lt_of_le_of_lt (Nat.zero_le _) hwedged.short, fun hcan => ?_⟩
  have hroom := ((ordered_of_reaches hrun).canEnd_iff hwedged.ended).2.1 hcan
  exact absurd hwedged.short (Nat.not_lt_of_le hroom)

end SecureTransfer.Sender
