import SecureTransfer.Sender.BlockManager
import SecureTransfer.Sender.Reader

set_option autoImplicit false

/-! # The sender's threads (`chunk_relay`, `ack_relay`, `send_file` of `sender.rs`)

The reader, the encryption workers, the two relays, the block manager and the thread of `send_file`
itself, with the two bounded channels and the unbounded event channel between them. The acks that
come over the control stream are part of the labels, so nothing is assumed about them. `send_file`
keeps `read_rx` until it returns, so the reader's `tx.send` blocks on a full channel but never fails;
`send_rx` lives in the chunk relay alone and `events_rx` in the manager, and a channel is emptied
when its receiver is dropped. `chunk_id += 1` wraps as the release build does. -/

namespace SecureTransfer.Sender

/-- How a joined thread ended. -/
inductive ThreadResult
  | ok
  | err
  | panicked
deriving DecidableEq

/-- A file with the counts its reads return, and what `Sender::new` and the caller of `send_file`
    fix. -/
structure SendFile where
  crates : Crates
  sessionKey : Key
  nonce : Nonce
  totalChunks : UInt32
  file : Bytes
  counts : List ℕ
  reads : LegalReads counts file

/-- What the reader sends. -/
def SendFile.chunks (job : SendFile) : List ReadChunk :=
  readerThread job.counts job.file 0

/-- What a worker makes of a chunk. -/
def SendFile.encrypt (job : SendFile) (chunk : ReadChunk) : EncryptedChunk :=
  workerThread job.crates job.sessionKey job.nonce chunk

inductive ReaderThread
  /-- The chunks the reader has yet to send. -/
  | sending (rest : List ReadChunk)
  | exited (result : ThreadResult)

inductive EncryptWorker
  /-- In `rx.recv`. -/
  | recv
  /-- In `tx.send`. -/
  | sending (chunk : EncryptedChunk)
  | exited (result : ThreadResult)

inductive ChunkRelay
  | recv
  | sending (chunk : EncryptedChunk)
  | exited

/-- The thread of `send_file`: it joins the others one after the other. -/
inductive SendMain
  | joinReader
  | joinWorkers (next : ℕ)
  | joinManager
  | joinAckRelay (bytesSent : ℕ)
  | joinChunkRelay (bytesSent : ℕ)
  | returned (bytesSent : ℕ)
  | failed
  | panicked
deriving DecidableEq

structure SendThreads where
  reader : ReaderThread
  /-- Between `read_tx` and `read_rx`. -/
  readChunks : List ReadChunk
  workers : List EncryptWorker
  /-- Between `send_tx` and `send_rx`. -/
  sendChunks : List EncryptedChunk
  chunkRelay : ChunkRelay
  ackRelayRunning : Bool
  /-- The control stream has not been shut down by this side. -/
  controlOpen : Bool
  events : List SenderEvent
  manager : Loop
  main : SendMain

def SendThreads.init (job : SendFile) : SendThreads where
  reader := .sending job.chunks
  readChunks := []
  workers := List.replicate numWorkers .recv
  sendChunks := []
  chunkRelay := .recv
  ackRelayRunning := true
  controlOpen := true
  events := []
  manager := .head .init
  main := .joinReader

inductive SendLabel
  | readerSend
  | readerExit
  /-- Opening or reading the file fails. -/
  | readerError
  /-- Worker `i` takes a chunk and encrypts it, or finds the channel closed. -/
  | workerRecv (i : ℕ)
  | workerSend (i : ℕ)
  | relayRecv
  | relaySend
  /-- An ack is read off the control stream and forwarded. -/
  | ackRelay (ack : BlockAck)
  /-- The control stream ends or fails. -/
  | controlError
  /-- Reading the control stream fails because it has been shut down. -/
  | ackRelayExit
  | manager (l : LoopInput)
  | main

def ReaderThread.result? : ReaderThread → Option ThreadResult
  | .exited result => some result
  | .sending _ => none

def EncryptWorker.result? : EncryptWorker → Option ThreadResult
  | .exited result => some result
  | _ => none

def ChunkRelay.isExited : ChunkRelay → Bool
  | .exited => true
  | _ => false

/-- The manager thread is over, and `events_rx` dropped. -/
def Loop.ended : Loop → Bool
  | .returned _ _ => true
  | .panicked _ => true
  | _ => false

/-- What the event channel lets the manager see. -/
def SendThreads.admits (s : SendThreads) : LoopInput → Bool
  | .drain => true
  | .event e => s.events.head? = some e
  | .timeout _ => s.events = []
  | .disconnected => s.events = [] ∧ s.chunkRelay.isExited = true ∧ s.ackRelayRunning = false
  | .tick _ => true

/-- The event channel after the manager has taken its input and moved on to `manager`. -/
def SendThreads.eventsAfter (s : SendThreads) (l : LoopInput) (manager : Loop) :
    List SenderEvent :=
  if manager.ended then []
  else match l with
    | .event _ => s.events.tail
    | _ => s.events

/-- `handle.join().unwrap()?`, then `next`. -/
def SendMain.join (result : Option ThreadResult) (next : SendMain) : Option SendMain :=
  match result with
  | none => none
  | some .ok => some next
  | some .err => some .failed
  | some .panicked => some .panicked

/-- The next join of `send_file`; before that of the ack relay the control stream is shut down. -/
def SendThreads.onMain (s : SendThreads) : Option SendThreads :=
  match s.main with
  | .joinReader => (SendMain.join s.reader.result? (.joinWorkers 0)).map fun main =>
    { s with main }
  | .joinWorkers k =>
    match s.workers[k]? with
    | none => some { s with main := .joinManager }
    | some worker => (SendMain.join worker.result? (.joinWorkers (k + 1))).map fun main =>
      { s with main }
  | .joinManager =>
    match s.manager with
    | .returned _ (.ok bytesSent) =>
      -- The ack relay blocks in a read, which only the shutdown of the stream ends.
      some { s with main := .joinAckRelay bytesSent, controlOpen := false }
    | .returned _ (.error _) => some { s with main := .failed }
    | .panicked _ => some { s with main := .panicked }
    | _ => none
  | .joinAckRelay bytesSent =>
    if s.ackRelayRunning then none else some { s with main := .joinChunkRelay bytesSent }
  | .joinChunkRelay bytesSent =>
    if s.chunkRelay.isExited then some { s with main := .returned bytesSent } else none
  | .returned _ => none
  | .failed => none
  | .panicked => none

def SendThreads.step (job : SendFile) : SendLabel → SendThreads → Option SendThreads
  | .readerSend, s =>
    match s.reader with
    | .sending (chunk :: rest) =>
      if s.readChunks.length < channelCapacity then
        some { s with readChunks := s.readChunks ++ [chunk], reader := .sending rest }
      else none
    | _ => none
  | .readerExit, s =>
    match s.reader with
    | .sending [] => some { s with reader := .exited .ok }
    | _ => none
  | .readerError, s =>
    match s.reader with
    | .sending _ => some { s with reader := .exited .err }
    | _ => none
  | .workerRecv i, s =>
    match s.workers[i]?, s.readChunks with
    | some .recv, chunk :: readChunks =>
      some { s with readChunks, workers := s.workers.set i (.sending (job.encrypt chunk)) }
    | some .recv, [] =>
      -- `send_file` keeps `read_rx`, but not `read_tx`: the reader has the only sender.
      if s.reader.result?.isSome then some { s with workers := s.workers.set i (.exited .ok) }
      else none
    | _, _ => none
  | .workerSend i, s =>
    match s.workers[i]? with
    | some (.sending chunk) =>
      if s.chunkRelay.isExited then some { s with workers := s.workers.set i (.exited .err) }
      else if s.sendChunks.length < channelCapacity then
        some { s with sendChunks := s.sendChunks ++ [chunk], workers := s.workers.set i .recv }
      else none
    | _ => none
  | .relayRecv, s =>
    match s.chunkRelay, s.sendChunks with
    | .recv, chunk :: sendChunks => some { s with sendChunks, chunkRelay := .sending chunk }
    | .recv, [] =>
      if s.workers.all (·.result?.isSome) then some { s with chunkRelay := .exited } else none
    | _, _ => none
  | .relaySend, s =>
    match s.chunkRelay with
    | .sending chunk =>
      -- `events_tx` is unbounded, so it never blocks; it fails once the manager is gone.
      if s.manager.ended then some { s with sendChunks := [], chunkRelay := .exited }
      else some { s with events := s.events ++ [.chunk chunk], chunkRelay := .recv }
    | _ => none
  | .ackRelay ack, s =>
    if s.ackRelayRunning then
      if s.manager.ended then some { s with ackRelayRunning := false }
      else some { s with events := s.events ++ [.ack ack] }
    else none
  | .controlError, s =>
    if s.ackRelayRunning ∧ s.controlOpen then some { s with ackRelayRunning := false } else none
  | .ackRelayExit, s =>
    if s.ackRelayRunning ∧ s.controlOpen = false then some { s with ackRelayRunning := false }
    else none
  | .manager l, s =>
    if s.admits l then
      (Loop.step job.totalChunks pipelineDepth l s.manager).map fun manager =>
        { s with events := s.eventsAfter l manager, manager }
    else none
  | .main, s => s.onMain

def sendFile (job : SendFile) : Lts SendThreads SendLabel where
  init := .init job
  step := SendThreads.step job

/-! ## One step -/

/-- The moves of the threads, with what each requires. -/
inductive SendThreads.Turn (job : SendFile) : SendLabel → SendThreads → SendThreads → Prop
  | readerSend {s : SendThreads} {chunk : ReadChunk} {rest : List ReadChunk}
      (hreader : s.reader = .sending (chunk :: rest))
      (hroom : s.readChunks.length < channelCapacity) :
      Turn job .readerSend s
        { s with readChunks := s.readChunks ++ [chunk], reader := .sending rest }
  | readerExit {s : SendThreads} (hreader : s.reader = .sending []) :
      Turn job .readerExit s { s with reader := .exited .ok }
  | readerError {s : SendThreads} {rest : List ReadChunk} (hreader : s.reader = .sending rest) :
      Turn job .readerError s { s with reader := .exited .err }
  | workerRecv {s : SendThreads} {i : ℕ} {chunk : ReadChunk} {readChunks : List ReadChunk}
      (hworker : s.workers[i]? = some .recv) (hchunks : s.readChunks = chunk :: readChunks) :
      Turn job (.workerRecv i) s
        { s with
          readChunks := readChunks
          workers := s.workers.set i (.sending (job.encrypt chunk)) }
  | workerExit {s : SendThreads} {i : ℕ} (hworker : s.workers[i]? = some .recv)
      (hchunks : s.readChunks = []) (hreader : s.reader.result?.isSome = true) :
      Turn job (.workerRecv i) s { s with workers := s.workers.set i (.exited .ok) }
  | workerSend {s : SendThreads} {i : ℕ} {chunk : EncryptedChunk}
      (hworker : s.workers[i]? = some (.sending chunk)) (hrelay : s.chunkRelay.isExited = false)
      (hroom : s.sendChunks.length < channelCapacity) :
      Turn job (.workerSend i) s
        { s with sendChunks := s.sendChunks ++ [chunk], workers := s.workers.set i .recv }
  | workerError {s : SendThreads} {i : ℕ} {chunk : EncryptedChunk}
      (hworker : s.workers[i]? = some (.sending chunk)) (hrelay : s.chunkRelay.isExited = true) :
      Turn job (.workerSend i) s { s with workers := s.workers.set i (.exited .err) }
  | relayRecv {s : SendThreads} {chunk : EncryptedChunk} {sendChunks : List EncryptedChunk}
      (hrelay : s.chunkRelay = .recv) (hchunks : s.sendChunks = chunk :: sendChunks) :
      Turn job .relayRecv s { s with sendChunks := sendChunks, chunkRelay := .sending chunk }
  | relayExit {s : SendThreads} (hrelay : s.chunkRelay = .recv) (hchunks : s.sendChunks = [])
      (hworkers : s.workers.all (·.result?.isSome) = true) :
      Turn job .relayRecv s { s with chunkRelay := .exited }
  | relaySend {s : SendThreads} {chunk : EncryptedChunk} (hrelay : s.chunkRelay = .sending chunk)
      (hmanager : s.manager.ended = false) :
      Turn job .relaySend s { s with events := s.events ++ [.chunk chunk], chunkRelay := .recv }
  | relayBreak {s : SendThreads} {chunk : EncryptedChunk} (hrelay : s.chunkRelay = .sending chunk)
      (hmanager : s.manager.ended = true) :
      Turn job .relaySend s { s with sendChunks := [], chunkRelay := .exited }
  | ackRelay {s : SendThreads} {ack : BlockAck} (hrelay : s.ackRelayRunning = true)
      (hmanager : s.manager.ended = false) :
      Turn job (.ackRelay ack) s { s with events := s.events ++ [.ack ack] }
  | ackRelayBreak {s : SendThreads} {ack : BlockAck} (hrelay : s.ackRelayRunning = true)
      (hmanager : s.manager.ended = true) :
      Turn job (.ackRelay ack) s { s with ackRelayRunning := false }
  | controlError {s : SendThreads} (hrelay : s.ackRelayRunning = true)
      (hcontrol : s.controlOpen = true) :
      Turn job .controlError s { s with ackRelayRunning := false }
  | ackRelayExit {s : SendThreads} (hrelay : s.ackRelayRunning = true)
      (hcontrol : s.controlOpen = false) :
      Turn job .ackRelayExit s { s with ackRelayRunning := false }
  | manager {s : SendThreads} {l : LoopInput} {manager : Loop} (hadmits : s.admits l = true)
      (hstep : (blockManager job.totalChunks pipelineDepth).step l s.manager = some manager) :
      Turn job (.manager l) s
        { s with events := s.eventsAfter l manager, manager := manager }
  | main {s : SendThreads} {main : SendMain} {controlOpen : Bool}
      (hmain : s.onMain = some { s with main := main, controlOpen := controlOpen }) :
      Turn job .main s { s with main := main, controlOpen := controlOpen }

/-- The thread of `send_file` only touches its own position and the control stream. -/
theorem SendThreads.onMain_eq_some {s s' : SendThreads} (h : s.onMain = some s') :
    ∃ main controlOpen, s' = { s with main := main, controlOpen := controlOpen } := by
  unfold onMain at h
  split at h
  · obtain ⟨m, _, rfl⟩ := Option.map_eq_some_iff.1 h
    exact ⟨m, _, rfl⟩
  · split at h
    · cases h; exact ⟨_, _, rfl⟩
    · obtain ⟨m, _, rfl⟩ := Option.map_eq_some_iff.1 h
      exact ⟨m, _, rfl⟩
  · split at h
    · cases h; exact ⟨_, _, rfl⟩
    · cases h; exact ⟨_, _, rfl⟩
    · cases h; exact ⟨_, _, rfl⟩
    · cases h
  · split at h
    · cases h
    · cases h; exact ⟨_, _, rfl⟩
  · split at h
    · cases h; exact ⟨_, _, rfl⟩
    · cases h
  · cases h
  · cases h
  · cases h

theorem SendThreads.turn_of_step {job : SendFile} {l : SendLabel} {s s' : SendThreads}
    (h : SendThreads.step job l s = some s') : SendThreads.Turn job l s s' := by
  cases l with
  | readerSend =>
      simp only [step] at h
      split at h
      · next hreader =>
          split at h
          · next hroom => cases h; exact .readerSend hreader hroom
          · cases h
      · cases h
  | readerExit =>
      simp only [step] at h
      split at h
      · next hreader => cases h; exact .readerExit hreader
      · cases h
  | readerError =>
      simp only [step] at h
      split at h
      · next hreader => cases h; exact .readerError hreader
      · cases h
  | workerRecv i =>
      simp only [step] at h
      split at h
      · next hworker hchunks => cases h; exact .workerRecv hworker hchunks
      · next hworker hchunks =>
          split at h
          · next hreader => cases h; exact .workerExit hworker hchunks hreader
          · cases h
      · cases h
  | workerSend i =>
      simp only [step] at h
      split at h
      · next hworker =>
          split at h
          · next hrelay => cases h; exact .workerError hworker hrelay
          · next hrelay =>
              split at h
              · next hroom =>
                  cases h
                  exact .workerSend hworker (Bool.eq_false_iff.2 hrelay) hroom
              · cases h
      · cases h
  | relayRecv =>
      simp only [step] at h
      split at h
      · next hrelay hchunks => cases h; exact .relayRecv hrelay hchunks
      · next hrelay hchunks =>
          split at h
          · next hworkers => cases h; exact .relayExit hrelay hchunks hworkers
          · cases h
      · cases h
  | relaySend =>
      simp only [step] at h
      split at h
      · next hrelay =>
          split at h
          · next hmanager => cases h; exact .relayBreak hrelay hmanager
          · next hmanager => cases h; exact .relaySend hrelay (Bool.eq_false_iff.2 hmanager)
      · cases h
  | ackRelay ack =>
      simp only [step] at h
      split at h
      · next hrelay =>
          split at h
          · next hmanager => cases h; exact .ackRelayBreak hrelay hmanager
          · next hmanager => cases h; exact .ackRelay hrelay (Bool.eq_false_iff.2 hmanager)
      · cases h
  | controlError =>
      simp only [step] at h
      split at h
      · next hcond => cases h; exact .controlError hcond.1 hcond.2
      · cases h
  | ackRelayExit =>
      simp only [step] at h
      split at h
      · next hcond => cases h; exact .ackRelayExit hcond.1 hcond.2
      · cases h
  | manager l =>
      simp only [step] at h
      split at h
      · next hadmits =>
          obtain ⟨manager, hstep, rfl⟩ := Option.map_eq_some_iff.1 h
          exact .manager hadmits hstep
      · cases h
  | main =>
      obtain ⟨main, controlOpen, rfl⟩ := SendThreads.onMain_eq_some h
      exact .main h

/-- The moves are enabled. -/
theorem SendThreads.Turn.step {job : SendFile} {l : SendLabel} {s s' : SendThreads}
    (h : SendThreads.Turn job l s s') : SendThreads.step job l s = some s' := by
  cases h with
  | readerSend hreader hroom => simp [SendThreads.step, hreader, hroom]
  | readerExit hreader => simp [SendThreads.step, hreader]
  | readerError hreader => simp [SendThreads.step, hreader]
  | workerRecv hworker hchunks => simp [SendThreads.step, hworker, hchunks]
  | workerExit hworker hchunks hreader => simp [SendThreads.step, hworker, hchunks, hreader]
  | workerSend hworker hrelay hroom => simp [SendThreads.step, hworker, hrelay, hroom]
  | workerError hworker hrelay => simp [SendThreads.step, hworker, hrelay]
  | relayRecv hrelay hchunks => simp [SendThreads.step, hrelay, hchunks]
  | relayExit hrelay hchunks hworkers =>
      simp only [SendThreads.step, hrelay, hchunks, hworkers, if_true]
  | relaySend hrelay hmanager => simp [SendThreads.step, hrelay, hmanager]
  | relayBreak hrelay hmanager => simp [SendThreads.step, hrelay, hmanager]
  | ackRelay hrelay hmanager => simp [SendThreads.step, hrelay, hmanager]
  | ackRelayBreak hrelay hmanager => simp [SendThreads.step, hrelay, hmanager]
  | controlError hrelay hcontrol => simp [SendThreads.step, hrelay, hcontrol]
  | ackRelayExit hrelay hcontrol => simp [SendThreads.step, hrelay, hcontrol]
  | manager hadmits hstep =>
      have hloop : Loop.step job.totalChunks pipelineDepth _ _ = some _ := hstep
      simp only [SendThreads.step, hadmits, hloop, if_true, Option.map_some]
  | main hmain => exact hmain

end SecureTransfer.Sender
