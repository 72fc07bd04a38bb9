import SecureTransfer.Sender.ManagerRuns
import SecureTransfer.Sender.SendFile

set_option autoImplicit false

/-! # How many chunks the sender holds

A chunk is in one place at a time, so the sender never holds more chunks than the file has
(`total_le_of_reaches`). Nothing on the way from the reader to the manager refuses a chunk for good,
though: the chunk relay empties the bounded channels into the unbounded one whatever the manager
does, so all chunks of a file can be there at once (`upload_reaches`). -/

namespace SecureTransfer.Sender

variable {totalChunks : UInt32} {m m' : Manager} {job : SendFile} {s s' : SendThreads}

/-! ## What the manager holds -/

/-- The chunks in the bucket or the cache of a block. -/
def BlockSlot.held : BlockSlot → ℕ
  | .pending bucket => bucket.length
  | .opened entry => entry.packets.countP Option.isSome
  | .resolved => 0

def Manager.held (m : Manager) : ℕ :=
  m.blockStates.sumValues BlockSlot.held

/-- `block_states` is dropped when the manager returns or unwinds. -/
def Loop.held : Loop → ℕ
  | .head m => m.held
  | .wait _ m => m.held
  | .returned _ _ => 0
  | .panicked _ => 0

theorem held_insert_le {b : UInt32} {slot : BlockSlot} {n : ℕ}
    (h : slot.held ≤ (m.blockStates.lookup b).elim 0 BlockSlot.held + n)
    (hstates : m'.blockStates = m.blockStates.insert b slot) : m'.held ≤ m.held + n := by
  have hsum := AList.sumValues_insert (m := m.blockStates) BlockSlot.held b slot
  rw [Manager.held, hstates, Manager.held]
  omega

theorem countP_set_some_le (packets : List (Option Bytes)) (i : ℕ) (packet : Option Bytes) :
    (packets.set i packet).countP Option.isSome ≤ packets.countP Option.isSome + 1 := by
  by_cases hi : i < packets.length
  · rw [List.countP_set hi]
    split <;> split <;> omega
  · rw [List.set_eq_of_length_le (by omega)]
    omega

theorem placeChunk_held {b : UInt32} {p : UInt16} {chunk : EncryptedChunk}
    (h : placeChunk b p chunk m = .ok m') : m'.held ≤ m.held + 1 := by
  obtain ⟨entry, entry', out, hl, hstates, hpackets, -⟩ := placeChunk_inv h
  refine held_insert_le ?_ hstates
  rw [hl, Option.elim_some, BlockSlot.held, BlockSlot.held, hpackets]
  exact countP_set_some_le _ _ _

theorem openBlock_held (totalChunks b : UInt32) : (m.openBlock totalChunks b).held ≤ m.held := by
  refine held_insert_le (n := 0) ?_ rfl
  have hempty : BlockSlot.held (.opened (.new (packetsInBlock b totalChunks) m.now)) = 0 := by
    simp [BlockSlot.held, BlockState.new, List.countP_replicate]
  rw [hempty]
  exact Nat.zero_le _

theorem admitOrBuffer_held {depth : ℕ} {chunk : EncryptedChunk}
    (h : admitOrBuffer totalChunks depth chunk m = .ok m') : m'.held ≤ m.held + 1 := by
  cases admission_of_ok h with
  | drop => exact Nat.le_succ _
  | place _ hplace => exact placeChunk_held hplace
  | append hl =>
      refine held_insert_le ?_ rfl
      rw [hl, Option.elim_some, BlockSlot.held, BlockSlot.held, List.length_append,
        List.length_singleton]
  | openBlock _ _ hplace =>
      exact (placeChunk_held hplace).trans (Nat.succ_le_succ (openBlock_held _ _))
  | buffer =>
      refine held_insert_le ?_ rfl
      exact Nat.le_add_left _ _

theorem placeBucket_held {nextId : UInt32} {bucket : List EncryptedChunk}
    (h : placeBucket nextId bucket m = .ok m') : m'.held ≤ m.held + bucket.length := by
  refine placeBucket_rule (P := fun bucket m m' => m'.held ≤ m.held + bucket.length)
    (fun m => le_rfl) ?_ h
  intro c bucket m mid m' _ hplace hrest
  have hfirst := placeChunk_held hplace
  rw [List.length_cons]
  omega

/-- Opening a block moves its bucket into its cache. -/
theorem openPending_held {nextId : UInt32} (h : openPending totalChunks nextId m = .ok m') :
    m'.held ≤ m.held := by
  obtain ⟨bucket, hl, hplace⟩ := openPending_inv h
  -- the entry is gone and the block is empty when the bucket is placed
  have hplaced := placeBucket_held hplace
  have hopened := openBlock_held (m := m.takeBucket nextId) totalChunks nextId
  have htaken := AList.sumValues_erase (m := m.blockStates) BlockSlot.held nextId
  rw [hl, Option.elim_some, BlockSlot.held] at htaken
  rw [Manager.held, Manager.held] at *
  dsimp only at hopened
  omega

theorem drainRounds_held {room : ℕ} (h : drainRounds totalChunks room m = .ok m') :
    m'.held ≤ m.held :=
  drainRounds_ok_rule (P := fun _ m m' => m'.held ≤ m.held) (fun _ _ _ => le_rfl)
    (fun _ _ _ _ _ _ hopen hrest => hrest.trans (openPending_held hopen)) h

theorem handleMissing_held (b : UInt32) (missing : List UInt16) :
    (handleMissing b missing m).held ≤ m.held := by
  obtain ⟨heq, -⟩ | ⟨entry, hl, heq⟩ := handleMissing_cases b missing m
  · rw [heq]
  · rw [heq]
    exact held_insert_le (n := 0) (by rw [hl]; exact le_rfl) rfl

theorem retransmitStale_held (now : Instant) (b : UInt32) :
    (retransmitStale now m b).held ≤ m.held := by
  obtain heq | ⟨entry, hl, -, -, heq⟩ := retransmitStale_cases now m b
  · rw [heq]
  · rw [heq]
    exact held_insert_le (n := 0) (by rw [hl]; exact le_rfl) rfl

theorem retransmitStaleBlocks_held (order : List UInt32) :
    (retransmitStaleBlocks order m).held ≤ m.held :=
  retransmitStaleBlocks_rule (P := fun m' => m'.held ≤ m.held)
    (fun now b _ h => (retransmitStale_held now b).trans h) order le_rfl

theorem handleEvent_held {depth : ℕ} {e : SenderEvent}
    (h : handleEvent totalChunks depth e m = .ok m') :
    m'.held ≤ m.held + (LoopInput.event e).chunk?.toList.length := by
  cases e with
  | chunk c => exact admitOrBuffer_held h
  | ack ack =>
      cases ack with
      | missing b missing => cases h; exact handleMissing_held b missing
      | complete b =>
          rcases handleComplete_inv h with ⟨_, rfl⟩ | ⟨_, hstates, _⟩
          · exact le_rfl
          · exact held_insert_le (n := 0) (Nat.zero_le _) hstates

/-- The manager gains no chunk but the one it takes from the event channel. -/
theorem Loop.Turn.held {depth : ℕ} {l : LoopInput} {s s' : Loop}
    (h : Loop.Turn totalChunks depth l s s') :
    s'.held ≤ s.held + l.chunk?.toList.length := by
  cases h with
  | exit => exact Nat.zero_le _
  | wait hdrain => exact drainRounds_held hdrain
  | event hevent => exact handleEvent_held hevent
  | timeout => exact retransmitStaleBlocks_held _
  | tickHead => exact le_rfl
  | tickWait => exact le_rfl
  | _ => exact Nat.zero_le _

/-! ## What the threads hold -/

def SenderEvent.isChunk : SenderEvent → Bool
  | .chunk _ => true
  | .ack _ => false

/-- The chunks in the channels, the `Pending` buckets and the `Open` caches. -/
def SendThreads.held (s : SendThreads) : ℕ :=
  s.readChunks.length + s.sendChunks.length + s.events.countP SenderEvent.isChunk + s.manager.held

def ReaderThread.unread : ReaderThread → ℕ
  | .sending rest => rest.length
  | .exited _ => 0

def EncryptWorker.isSending : EncryptWorker → Bool
  | .sending _ => true
  | _ => false

def ChunkRelay.isSending : ChunkRelay → Bool
  | .sending _ => true
  | _ => false

/-- The chunks of the file that are left: not read, held, or in the hands of a thread. -/
def SendThreads.total (s : SendThreads) : ℕ :=
  s.reader.unread + s.workers.countP EncryptWorker.isSending + s.chunkRelay.isSending.toNat + s.held

theorem countP_set_eq {α : Type*} (p : α → Bool) {l : List α} {i : ℕ} {a : α} (a' : α)
    (h : l[i]? = some a) : (l.set i a').countP p + (p a).toNat = l.countP p + (p a').toNat := by
  obtain ⟨hi, rfl⟩ := List.getElem?_eq_some_iff.1 h
  have hpos : p l[i] = true → 0 < l.countP p := fun hp =>
    List.countP_pos_iff.2 ⟨_, List.getElem_mem hi, hp⟩
  rw [List.countP_set hi]
  cases hp : p l[i] with
  | false => cases p a' <;> simp
  | true =>
      have := hpos hp
      cases p a' <;> simp <;> omega

theorem countP_eventsAfter {l : LoopInput} (hadmits : s.admits l = true) (manager : Loop) :
    (s.eventsAfter l manager).countP SenderEvent.isChunk + l.chunk?.toList.length
      ≤ s.events.countP SenderEvent.isChunk := by
  have htaken : l.chunk?.toList.length ≤ s.events.countP SenderEvent.isChunk ∧
      ((∃ e, l = .event e) → s.events.tail.countP SenderEvent.isChunk + l.chunk?.toList.length
        ≤ s.events.countP SenderEvent.isChunk) := by
    cases l with
    | event e =>
        have hhead : s.events.head? = some e := by simpa [SendThreads.admits] using hadmits
        obtain ⟨rest, hrest⟩ := List.head?_eq_some_iff.1 hhead
        rw [hrest, List.countP_cons]
        cases e <;> simp [SenderEvent.isChunk, LoopInput.chunk?]
    | _ => exact ⟨Nat.zero_le _, by rintro ⟨e, ⟨⟩⟩⟩
  unfold SendThreads.eventsAfter
  split
  · rw [List.countP_nil, Nat.zero_add]
    exact htaken.1
  · split
    · exact htaken.2 ⟨_, rfl⟩
    · next hother =>
        have hnone : l.chunk? = none := by
          cases l with
          | event e => exact absurd rfl (hother e)
          | _ => rfl
        rw [hnone]
        exact le_rfl

/-- **Step lemma.** No step makes chunks. -/
theorem SendThreads.Turn.total_le {l : SendLabel} (h : SendThreads.Turn job l s s') :
    s'.total ≤ s.total := by
  -- a worker moves on
  have hset : ∀ {i : ℕ} {w : EncryptWorker} (w' : EncryptWorker), s.workers[i]? = some w →
      (s.workers.set i w').countP EncryptWorker.isSending + w.isSending.toNat
        = s.workers.countP EncryptWorker.isSending + w'.isSending.toNat :=
    fun w' hw => countP_set_eq _ w' hw
  cases h with
  | readerSend hreader =>
      simp only [total, held, hreader, ReaderThread.unread, List.length_append, List.length_cons,
        List.length_nil]
      omega
  | readerExit hreader => simp only [total, held, hreader, ReaderThread.unread]; omega
  | readerError hreader => simp only [total, held, hreader, ReaderThread.unread]; omega
  | @workerRecv _ i chunk readChunks hworker hchunks =>
      have hcount := hset (.sending (job.encrypt chunk)) hworker
      simp only [EncryptWorker.isSending, Bool.toNat_true, Bool.toNat_false] at hcount
      simp only [total, held, hchunks, List.length_cons]
      omega
  | workerExit hworker =>
      have hcount := hset (.exited .ok) hworker
      simp only [EncryptWorker.isSending, Bool.toNat_false] at hcount
      simp only [total, held]
      omega
  | workerSend hworker =>
      have hcount := hset .recv hworker
      simp only [EncryptWorker.isSending, Bool.toNat_true, Bool.toNat_false] at hcount
      simp only [total, held, List.length_append, List.length_singleton]
      omega
  | workerError hworker =>
      have hcount := hset (.exited .err) hworker
      simp only [EncryptWorker.isSending, Bool.toNat_true, Bool.toNat_false] at hcount
      simp only [total, held]
      omega
  | relayRecv hrelay hchunks =>
      simp only [total, held, hrelay, hchunks, ChunkRelay.isSending, List.length_cons,
        Bool.toNat_true, Bool.toNat_false]
      omega
  | relayExit hrelay => simp only [total, held, hrelay, ChunkRelay.isSending]; omega
  | relaySend hrelay =>
      simp only [total, held, hrelay, ChunkRelay.isSending, List.countP_append, List.countP_cons,
        List.countP_nil, SenderEvent.isChunk, Bool.toNat_true, Bool.toNat_false, if_true]
      omega
  | relayBreak hrelay =>
      simp only [total, held, hrelay, ChunkRelay.isSending, List.length_nil, Bool.toNat_true,
        Bool.toNat_false]
      omega
  | ackRelay =>
      simp [total, held, List.countP_append, SenderEvent.isChunk]
  | @manager _ l manager hadmits hstep =>
      have hheld := (Loop.turn_of_step hstep).held
      have hevents := countP_eventsAfter hadmits manager
      simp only [total, held]
      omega
  | _ => exact le_rfl

/-- At no point of any run does the sender hold more chunks than the file has. -/
theorem total_le_of_reaches {ls : List SendLabel} (hrun : (sendFile job).Reaches ls s) :
    s.total ≤ job.chunks.length := by
  refine hrun.invariant (P := fun s => s.total ≤ job.chunks.length) ?_
    fun s l s' ih _ hstep => (SendThreads.turn_of_step hstep).total_le.trans ih
  have hzero : Manager.init.held = 0 := rfl
  simp [SendThreads.total, SendThreads.held, sendFile, SendThreads.init, ReaderThread.unread,
    EncryptWorker.isSending, ChunkRelay.isSending, Loop.held, hzero, List.countP_replicate]

/-! ## All chunks at once -/

/-- One chunk goes from the file to the event channel. -/
def forwardChunk : List SendLabel :=
  [.readerSend, .workerRecv 0, .workerSend 0, .relayRecv, .relaySend]

/-- The bounded channels are empty and their threads wait. -/
structure SendThreads.Idle (s : SendThreads) : Prop where
  readChunks : s.readChunks = []
  worker : s.workers[0]? = some .recv
  sendChunks : s.sendChunks = []
  chunkRelay : s.chunkRelay = .recv
  manager : s.manager.ended = false

theorem SendThreads.Idle.forward (h : s.Idle) (job : SendFile) {chunk : ReadChunk}
    {rest : List ReadChunk} (hreader : s.reader = .sending (chunk :: rest)) :
    (sendFile job).exec forwardChunk s
      = some { s with
          reader := .sending rest, events := s.events ++ [.chunk (job.encrypt chunk)] } := by
  obtain ⟨hi, hworker⟩ := List.getElem?_eq_some_iff.1 h.worker
  have hroom : 0 < channelCapacity := by decide
  have hrecv : ChunkRelay.recv.isExited = false := rfl
  have hworkers : s.workers.set 0 .recv = s.workers := by
    rw [← hworker, List.set_getElem_self]
  simp only [forwardChunk, Lts.exec, sendFile, SendThreads.step, hreader, h.readChunks, h.worker,
    h.sendChunks, h.chunkRelay, h.manager, List.length_nil, if_pos hroom, Option.bind_some,
    List.nil_append, List.getElem?_set_self hi, hrecv, Bool.false_eq_true, if_false, List.set_set,
    hworkers]

/-- The whole file ends up in the event channel while the manager has yet to take its first event. -/
theorem forward_all (job : SendFile) {rest : List ReadChunk} (h : s.Idle)
    (hreader : s.reader = .sending rest) :
    ∃ ls, (sendFile job).exec ls s
      = some { s with
          reader := .sending []
          events := s.events ++ rest.map (fun chunk => .chunk (job.encrypt chunk)) } := by
  induction rest generalizing s with
  | nil =>
      refine ⟨[], ?_⟩
      rw [Lts.exec, List.map_nil, List.append_nil, ← hreader]
  | cons chunk rest ih =>
      have hfirst := h.forward job hreader
      obtain ⟨ls, hexec⟩ := ih (s := { s with
        reader := .sending rest, events := s.events ++ [.chunk (job.encrypt chunk)] })
        ⟨h.readChunks, h.worker, h.sendChunks, h.chunkRelay, h.manager⟩ rfl
      refine ⟨forwardChunk ++ ls, (Lts.exec_trans hfirst hexec).trans ?_⟩
      rw [List.append_assoc]
      rfl

/-- Some state holds every chunk of the file. -/
theorem held_reaches (job : SendFile) :
    ∃ ls s, (sendFile job).Reaches ls s ∧ job.chunks.length ≤ s.held := by
  have hidle : (SendThreads.init job).Idle := ⟨rfl, rfl, rfl, rfl, rfl⟩
  obtain ⟨ls, hexec⟩ := forward_all job hidle rfl
  refine ⟨ls, _, Lts.reaches_of_exec hexec, ?_⟩
  have hchunks : ∀ chunks : List ReadChunk, (chunks.map fun chunk =>
      SenderEvent.chunk (job.encrypt chunk)).countP SenderEvent.isChunk = chunks.length := by
    intro chunks
    rw [List.countP_map]
    exact List.countP_eq_length.2 fun _ _ => rfl
  have hcount := hchunks job.chunks
  simp only [SendThreads.held, SendThreads.init, List.nil_append]
  omega

/-- **Memory.** A bound on what the sender holds is one for the file if and only if the file has no
    more chunks than that. -/
theorem held_le_iff (job : SendFile) (bound : ℕ) :
    (∀ ls s, (sendFile job).Reaches ls s → s.held ≤ bound) ↔ job.chunks.length ≤ bound := by
  constructor
  · intro hbound
    obtain ⟨ls, s, hrun, hall⟩ := held_reaches job
    exact hall.trans (hbound ls s hrun)
  · intro hsmall ls s hrun
    have htotal := total_le_of_reaches hrun
    rw [SendThreads.total] at htotal
    omega

/-! ## A file for every bound -/

theorem fullReads_zeros (n : ℕ) :
    FullReads (List.replicate n chunkSize ++ [0]) (List.replicate (n * chunkSize) 0) := by
  induction n with
  | zero => exact ⟨rfl, rfl⟩
  | succ n ih =>
      rw [List.replicate_succ, List.cons_append, FullReads, List.length_replicate,
        List.drop_replicate]
      refine ⟨(min_eq_left ?_).symm, ?_⟩
      · rw [Nat.succ_mul]
        exact Nat.le_add_left _ _
      · rw [if_neg (by decide), Nat.succ_mul, Nat.add_sub_cancel]
        exact ih

/-- `n` chunks of zeros. -/
def zeros (n : ℕ) : SendFile where
  crates := { aes256 := fun _ block => block, xxh64 := fun bytes => UInt64.ofNat bytes.length }
  sessionKey := Vector.replicate 32 0
  nonce := Vector.replicate 16 0
  totalChunks := Sender.totalChunks (UInt64.ofNat (n * chunkSize))
  file := List.replicate (n * chunkSize) 0
  counts := List.replicate n chunkSize ++ [0]
  reads := (fullReads_zeros n).legal

theorem length_chunks_zeros (n : ℕ) : (zeros n).chunks.length = n := by
  have hlen : (readerThread _ _ 0).length = _ := readerThread_length_eq (fullReads_zeros n)
  rw [List.length_replicate] at hlen
  have hchunks : (zeros n).chunks.length = (n * chunkSize + (chunkSize - 1)) / chunkSize := hlen
  rw [hchunks, chunkSize]
  omega

/-- **No bound holds for every file.** -/
theorem held_unbounded :
    ¬ ∃ bound, ∀ (job : SendFile) (ls : List SendLabel) (s : SendThreads),
      (sendFile job).Reaches ls s → s.held ≤ bound := by
  rintro ⟨bound, hbound⟩
  obtain ⟨ls, s, hrun, hall⟩ := held_reaches (zeros (bound + 1))
  rw [length_chunks_zeros] at hall
  have := hbound _ ls s hrun
  omega

end SecureTransfer.Sender
