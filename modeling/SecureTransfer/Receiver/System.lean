import SecureTransfer.Crypto
import SecureTransfer.Lib.Transition
import SecureTransfer.Pipeline
import SecureTransfer.Receiver.AckManager
import SecureTransfer.Receiver.Writer

set_option autoImplicit false

/-! # The receiver's threads (`receiver_thread`, `worker_thread`, `run` of `receiver.rs`)

`Threads` holds every thread of `run` after the handshake and the two bounded channels between
them; beside that it records what the workers have sent. A step is one thread going from one
blocking operation, lock or channel to the next. Nothing is assumed about the datagrams. `run`
keeps `packet_rx` until it returns, so `tx.send` of the UDP thread blocks on a full channel but
never fails; `write_tx` lives in the workers alone and `write_rx` in the writer. -/

namespace SecureTransfer.Receiver

/-- What the handshake and the build fix. -/
structure Setup where
  crates : Crates
  sessionKey : Key
  nonce : Nonce
  expectedChunks : UInt32
  expectedBytes : UInt64
  /-- Arithmetic overflow panics (a debug build) instead of wrapping. -/
  overflowChecks : Bool

/-- The number of blocks of the file. -/
abbrev Setup.blocks (setup : Setup) : UInt32 :=
  totalBlocks setup.expectedChunks

/-! ## The UDP thread -/

/-- What `receiver_thread` makes of a datagram. -/
inductive Incoming
  | data (pkt : DecodedDataPacket)
  | blockEnd (blockId totalPackets : UInt32)
  | ignored
deriving DecidableEq

def Incoming.ofDatagram : Datagram → Incoming
  | [] => .ignored
  | tag :: body =>
    if tag = tagData then
      match DataPacket.decode body with
      | none => .ignored
      | some pkt => .data pkt
    else if tag = tagBlockEnd then
      match BlockEndPacket.decode body with
      | none => .ignored
      | some (blockId, totalPackets) => .blockEnd blockId totalPackets
    else .ignored

theorem Incoming.ofDatagram_data (blockId : UInt32) (packetInBlock : UInt16) (hash : UInt64)
    {payload : Bytes} (h : payload.length < 2 ^ 32) :
    Incoming.ofDatagram (DataPacket.encode blockId packetInBlock hash payload)
      = .data ⟨blockId, packetInBlock, hash, payload⟩ := by
  have hdecode := DataPacket.decode_encode blockId packetInBlock hash h
  rw [DataPacket.encode, List.tail_cons] at hdecode
  rw [DataPacket.encode, ofDatagram, if_pos rfl, hdecode]

@[simp] theorem Incoming.ofDatagram_blockEnd (blockId totalPackets : UInt32) :
    Incoming.ofDatagram (BlockEndPacket.encode blockId totalPackets)
      = .blockEnd blockId totalPackets := by
  have hdecode := BlockEndPacket.decode_encode blockId totalPackets
  rw [BlockEndPacket.encode, List.tail_cons] at hdecode
  rw [BlockEndPacket.encode, ofDatagram, if_neg (by decide), if_pos rfl, hdecode]

inductive UdpThread
  /-- At the loop condition. -/
  | loopHead
  /-- In `recv_from`. -/
  | recv
  /-- In `tx.send`. -/
  | sending (packet : ReceivedPacket)
  | exited (result : ThreadEnd)

/-- The packet handed to the workers. -/
def receivedPacket (pkt : DecodedDataPacket) : ReceivedPacket where
  chunkId := chunkIdOf pkt.blockId pkt.packetInBlock
  blockId := pkt.blockId
  packetInBlock := pkt.packetInBlock
  encrypted := pkt.payload
  hash := pkt.hash

/-! ## The decryption workers -/

inductive Worker
  /-- In `rx.recv`. -/
  | recv
  /-- The hash test has passed; `mark_verified` is next. -/
  | verified (packet : ReceivedPacket) (data : Bytes)
  /-- In `tx.send`. -/
  | sending (chunk : DecryptedChunk)
  | exited (result : ThreadEnd)

/-- Decrypt a packet and test its hash. -/
def checkPacket (setup : Setup) (packet : ReceivedPacket) : Option Bytes :=
  let decrypted := decryptChunk setup.crates packet.encrypted setup.sessionKey setup.nonce
    packet.chunkId
  if chunkHash setup.crates decrypted = packet.hash then some decrypted else none

/-! ## All threads -/

inductive WriterThread
  | running (w : Writer)
  | exited (w : Writer) (result : ThreadEnd)

/-- The thread of `run`: it joins the others one after the other. -/
inductive Main
  | joinAck
  | joinUdp
  | joinWorkers (next : ℕ)
  | joinWriter
  /-- `Ok`, with the bytes and chunks the writer reported. -/
  | returned (bytes : ℕ) (chunks : UInt32)
  | failed
  | panicked
deriving DecidableEq

def UdpThread.result? : UdpThread → Option ThreadEnd
  | .exited result => some result
  | _ => none

def Worker.result? : Worker → Option ThreadEnd
  | .exited result => some result
  | _ => none

def AckManager.result? : AckManager → Option ThreadEnd
  | .exited result => some result
  | _ => none

def WriterThread.result? : WriterThread → Option ThreadEnd
  | .exited _ result => some result
  | .running _ => none

def WriterThread.writer : WriterThread → Writer
  | .running w => w
  | .exited w _ => w

structure Threads where
  now : Instant
  running : Bool
  control : Control
  udp : UdpThread
  packets : List ReceivedPacket
  workers : List Worker
  chunks : List DecryptedChunk
  /-- Every chunk a worker has passed to `tx.send`. -/
  sent : List DecryptedChunk
  writer : WriterThread
  main : Main

def Threads.init : Threads where
  now := 0
  running := true
  control := .init
  udp := .loopHead
  packets := []
  workers := List.replicate numWorkers .recv
  chunks := []
  sent := []
  writer := .running .init
  main := .joinAck

inductive Label
  /-- `running.load`. -/
  | udpLoop
  /-- `recv_from` returns a datagram, which is handled up to `tx.send`. -/
  | datagram (d : Datagram)
  | udpTimeout
  | udpError
  | udpSend
  /-- Worker `i` takes a packet and tests it, or finds the channel closed. -/
  | workerRecv (i : ℕ)
  | workerMark (i : ℕ)
  | workerSend (i : ℕ)
  | writerRecv
  | writerError
  | ack (l : AckLabel)
  | main
  | tick (dt : Duration)
deriving DecidableEq

/-- The body of the `Ok` arm of `receiver_thread`. -/
def Threads.onDatagram (setup : Setup) (d : Datagram) (r : Threads) : Threads :=
  match Incoming.ofDatagram d with
  | .ignored => { r with udp := .loopHead }
  | .data pkt =>
    let total := packetsInBlock pkt.blockId setup.expectedChunks
    let control := r.control.mutate (.touchActivity pkt.blockId total r.now)
    -- The block has been touched by the time `chunk_id_of` overflows.
    if setup.overflowChecks && chunkIdOverflows pkt.blockId pkt.packetInBlock then
      { r with control, udp := .exited .panicked }
    else { r with control, udp := .sending (receivedPacket pkt) }
  | .blockEnd blockId totalPackets =>
    { r with
      control := r.control.mutate (.markEndSeen blockId totalPackets.toNat r.now)
      udp := .loopHead }

def Threads.onWorkerRecv (setup : Setup) (i : ℕ) (r : Threads) : Option Threads :=
  match r.packets with
  | packet :: packets =>
    match checkPacket setup packet with
    -- The hash differs: the packet is dropped and nothing is marked.
    | none => some { r with packets }
    | some data => some { r with packets, workers := r.workers.set i (.verified packet data) }
  | [] =>
    -- `rx.recv` fails once the UDP thread has dropped the only sender.
    if r.udp.result?.isSome then some { r with workers := r.workers.set i (.exited .ok) } else none

def Threads.onWriterRecv (setup : Setup) (w : Writer) (r : Threads) : Option Threads :=
  match r.chunks with
  | chunk :: chunks =>
    let w' := w.receive chunk.chunkId chunk.data
    if setup.overflowChecks && w.overflows w' then
      some { r with chunks, writer := .exited w' .panicked }
    else if setup.expectedChunks ≤ w'.nextChunk then
      some { r with chunks, writer := .exited w' .ok }
    else some { r with chunks, writer := .running w' }
  | [] =>
    -- Every worker holds a clone of the sender, so all of them must be gone.
    if r.workers.all (·.result?.isSome) then some { r with writer := .exited w .ok } else none

/-- `handle.join().unwrap()?`, then `next`. -/
def Main.join (result : Option ThreadEnd) (next : Main) : Option Main :=
  match result with
  | none => none
  | some .ok => some next
  | some .err => some .failed
  | some .panicked => some .panicked

/-- The next join of `run`; after the first one `running` is cleared. -/
def Threads.onMain (r : Threads) : Option Threads :=
  match r.main with
  | .joinAck => (Main.join r.control.ack.result? .joinUdp).map fun main =>
    { r with main, running := if r.control.ack.result? = some .ok then false else r.running }
  | .joinUdp => (Main.join r.udp.result? (.joinWorkers 0)).map fun main => { r with main }
  | .joinWorkers k =>
    match r.workers[k]? with
    | none => some { r with main := .joinWriter }
    | some worker => (Main.join worker.result? (.joinWorkers (k + 1))).map fun main =>
      { r with main }
  | .joinWriter =>
    let w := r.writer.writer
    (Main.join r.writer.result? (.returned w.bytes w.chunksWritten)).map fun main =>
      { r with main }
  | .returned _ _ => none
  | .failed => none
  | .panicked => none

def Threads.step (setup : Setup) : Label → Threads → Option Threads
  | .udpLoop, r =>
    match r.udp with
    | .loopHead => some { r with udp := if r.running then .recv else .exited .ok }
    | _ => none
  | .datagram d, r =>
    match r.udp with
    | .recv => some (r.onDatagram setup d)
    | _ => none
  | .udpTimeout, r =>
    match r.udp with
    | .recv => some { r with udp := .loopHead }
    | _ => none
  | .udpError, r =>
    match r.udp with
    | .recv => some { r with udp := .exited .err }
    | _ => none
  | .udpSend, r =>
    match r.udp with
    | .sending packet =>
      if r.packets.length < channelCapacity then
        some { r with packets := r.packets ++ [packet], udp := .loopHead }
      else none
    | _ => none
  | .workerRecv i, r =>
    match r.workers[i]? with
    | some .recv => r.onWorkerRecv setup i
    | _ => none
  | .workerMark i, r =>
    match r.workers[i]? with
    | some (.verified packet data) =>
      -- The packet is marked before its chunk is handed to the writer.
      let total := packetsInBlock packet.blockId setup.expectedChunks
      let chunk : DecryptedChunk := ⟨packet.chunkId, data⟩
      some { r with
        control := r.control.markVerified packet.blockId packet.packetInBlock total r.now
        workers := r.workers.set i (.sending chunk)
        sent := r.sent ++ [chunk] }
    | _ => none
  | .workerSend i, r =>
    match r.workers[i]? with
    | some (.sending chunk) =>
      -- With the writer gone its receiver is dropped: `tx.send` fails and `?` ends the worker.
      if r.writer.result?.isSome then some { r with workers := r.workers.set i (.exited .err) }
      else if r.chunks.length < channelCapacity then
        some { r with chunks := r.chunks ++ [chunk], workers := r.workers.set i .recv }
      else none
    | _ => none
  | .writerRecv, r =>
    match r.writer with
    | .running w => r.onWriterRecv setup w
    | _ => none
  | .writerError, r =>
    match r.writer with
    | .running w => some { r with writer := .exited w .err }
    | _ => none
  | .ack l, r =>
    (ackManagerStep (totalBlocks setup.expectedChunks).toNat r.now l r.control).map fun control =>
      { r with control }
  | .main, r => r.onMain
  | .tick dt, r => some { r with now := r.now + dt }

def receiver (setup : Setup) : Lts Threads Label where
  init := .init
  step := Threads.step setup

/-- A transfer of one chunk of three bytes, with stand-ins for the crates. -/
def oneChunk : Setup where
  crates := { aes256 := fun _ block => block, xxh64 := fun bytes => UInt64.ofNat bytes.length }
  sessionKey := Vector.replicate 32 0
  nonce := Vector.replicate 16 0
  expectedChunks := 1
  expectedBytes := 3
  overflowChecks := false

/-- The datagram of its chunk. -/
def onePacket : Datagram :=
  DataPacket.encode 0 0 (chunkHash oneChunk.crates [1, 2, 3])
    (encryptChunk oneChunk.crates [1, 2, 3] oneChunk.sessionKey oneChunk.nonce 0)

/-! ## One step -/

/-- The moves of the threads, with what each requires. -/
inductive Threads.Turn (setup : Setup) : Label → Threads → Threads → Prop
  | udpRun {r : Threads} (hudp : r.udp = .loopHead) (hrunning : r.running = true) :
      Turn setup .udpLoop r { r with udp := .recv }
  | udpStop {r : Threads} (hudp : r.udp = .loopHead) (hrunning : r.running = false) :
      Turn setup .udpLoop r { r with udp := .exited .ok }
  | ignored {r : Threads} {d : Datagram} (hudp : r.udp = .recv)
      (hd : Incoming.ofDatagram d = .ignored) :
      Turn setup (.datagram d) r { r with udp := .loopHead }
  | data {r : Threads} {d : Datagram} {pkt : DecodedDataPacket} (hudp : r.udp = .recv)
      (hd : Incoming.ofDatagram d = .data pkt)
      (hfits : ¬ (setup.overflowChecks && chunkIdOverflows pkt.blockId pkt.packetInBlock) = true) :
      Turn setup (.datagram d) r
        { r with
          control := r.control.mutate (.touchActivity pkt.blockId
            (packetsInBlock pkt.blockId setup.expectedChunks) r.now)
          udp := .sending (receivedPacket pkt) }
  | dataPanic {r : Threads} {d : Datagram} {pkt : DecodedDataPacket} (hudp : r.udp = .recv)
      (hd : Incoming.ofDatagram d = .data pkt) (hchecks : setup.overflowChecks = true)
      (hoverflow : chunkIdOverflows pkt.blockId pkt.packetInBlock = true) :
      Turn setup (.datagram d) r
        { r with
          control := r.control.mutate (.touchActivity pkt.blockId
            (packetsInBlock pkt.blockId setup.expectedChunks) r.now)
          udp := .exited .panicked }
  | blockEnd {r : Threads} {d : Datagram} {b total : UInt32} (hudp : r.udp = .recv)
      (hd : Incoming.ofDatagram d = .blockEnd b total) :
      Turn setup (.datagram d) r
        { r with
          control := r.control.mutate (.markEndSeen b total.toNat r.now)
          udp := .loopHead }
  | udpTimeout {r : Threads} (hudp : r.udp = .recv) :
      Turn setup .udpTimeout r { r with udp := .loopHead }
  | udpError {r : Threads} (hudp : r.udp = .recv) :
      Turn setup .udpError r { r with udp := .exited .err }
  | udpSend {r : Threads} {p : ReceivedPacket} (hudp : r.udp = .sending p)
      (hroom : r.packets.length < channelCapacity) :
      Turn setup .udpSend r { r with packets := r.packets ++ [p], udp := .loopHead }
  | reject {r : Threads} {i : ℕ} {p : ReceivedPacket} {packets : List ReceivedPacket}
      (hworker : r.workers[i]? = some .recv) (hpackets : r.packets = p :: packets)
      (hcheck : checkPacket setup p = none) :
      Turn setup (.workerRecv i) r { r with packets := packets }
  | accept {r : Threads} {i : ℕ} {p : ReceivedPacket} {packets : List ReceivedPacket} {data : Bytes}
      (hworker : r.workers[i]? = some .recv) (hpackets : r.packets = p :: packets)
      (hcheck : checkPacket setup p = some data) :
      Turn setup (.workerRecv i) r
        { r with packets := packets, workers := r.workers.set i (.verified p data) }
  | workerExit {r : Threads} {i : ℕ} (hworker : r.workers[i]? = some .recv)
      (hpackets : r.packets = []) (hudp : r.udp.result?.isSome = true) :
      Turn setup (.workerRecv i) r { r with workers := r.workers.set i (.exited .ok) }
  | mark {r : Threads} {i : ℕ} {p : ReceivedPacket} {data : Bytes}
      (hworker : r.workers[i]? = some (.verified p data)) :
      Turn setup (.workerMark i) r
        { r with
          control := r.control.markVerified p.blockId p.packetInBlock
            (packetsInBlock p.blockId setup.expectedChunks) r.now
          workers := r.workers.set i (.sending ⟨p.chunkId, data⟩)
          sent := r.sent ++ [⟨p.chunkId, data⟩] }
  | send {r : Threads} {i : ℕ} {chunk : DecryptedChunk} {w : Writer}
      (hworker : r.workers[i]? = some (.sending chunk)) (hwriter : r.writer = .running w)
      (hroom : r.chunks.length < channelCapacity) :
      Turn setup (.workerSend i) r
        { r with chunks := r.chunks ++ [chunk], workers := r.workers.set i .recv }
  | sendError {r : Threads} {i : ℕ} {chunk : DecryptedChunk} {w : Writer} {result : ThreadEnd}
      (hworker : r.workers[i]? = some (.sending chunk)) (hwriter : r.writer = .exited w result) :
      Turn setup (.workerSend i) r { r with workers := r.workers.set i (.exited .err) }
  | write {r : Threads} {w : Writer} {chunk : DecryptedChunk} {chunks : List DecryptedChunk}
      (hwriter : r.writer = .running w) (hchunks : r.chunks = chunk :: chunks)
      (hmore : (w.receive chunk.chunkId chunk.data).nextChunk < setup.expectedChunks) :
      Turn setup .writerRecv r
        { r with chunks := chunks, writer := .running (w.receive chunk.chunkId chunk.data) }
  | writeLast {r : Threads} {w : Writer} {chunk : DecryptedChunk} {chunks : List DecryptedChunk}
      (hwriter : r.writer = .running w) (hchunks : r.chunks = chunk :: chunks)
      (hdone : setup.expectedChunks ≤ (w.receive chunk.chunkId chunk.data).nextChunk) :
      Turn setup .writerRecv r
        { r with chunks := chunks, writer := .exited (w.receive chunk.chunkId chunk.data) .ok }
  | writeOverflow {r : Threads} {w : Writer} {chunk : DecryptedChunk}
      {chunks : List DecryptedChunk} (hwriter : r.writer = .running w)
      (hchunks : r.chunks = chunk :: chunks)
      (hoverflow : w.overflows (w.receive chunk.chunkId chunk.data) = true) :
      Turn setup .writerRecv r
        { r with chunks := chunks, writer := .exited (w.receive chunk.chunkId chunk.data) .panicked }
  | writeEnd {r : Threads} {w : Writer} (hwriter : r.writer = .running w)
      (hchunks : r.chunks = []) (hworkers : r.workers.all (·.result?.isSome) = true) :
      Turn setup .writerRecv r { r with writer := .exited w .ok }
  | writerError {r : Threads} {w : Writer} (hwriter : r.writer = .running w) :
      Turn setup .writerError r { r with writer := .exited w .err }
  | ack {r : Threads} {l : AckLabel} {c : Control}
      (hmove : AckMove (totalBlocks setup.expectedChunks).toNat r.now l r.control c) :
      Turn setup (.ack l) r { r with control := c }
  | main {r : Threads} {running : Bool} {main : Main}
      (hmain : r.onMain = some { r with running := running, main := main }) :
      Turn setup .main r { r with running := running, main := main }
  | tick {r : Threads} {dt : Duration} :
      Turn setup (.tick dt) r { r with now := r.now + dt }

theorem WriterThread.exited_of_result (t : WriterThread) (h : t.result?.isSome = true) :
    ∃ w result, t = .exited w result := by
  cases t with
  | running w => simp [WriterThread.result?] at h
  | exited w result => exact ⟨w, result, rfl⟩

theorem WriterThread.running_of_result (t : WriterThread) (h : ¬ t.result?.isSome = true) :
    ∃ w, t = .running w := by
  cases t with
  | running w => exact ⟨w, rfl⟩
  | exited w result => simp [WriterThread.result?] at h

/-- `run` only touches its own position and the `running` flag. -/
theorem Threads.onMain_eq_some {r r' : Threads} (h : r.onMain = some r') :
    ∃ running main, r' = { r with running := running, main := main } := by
  unfold onMain at h
  split at h
  · obtain ⟨m, _, rfl⟩ := Option.map_eq_some_iff.1 h
    exact ⟨_, m, rfl⟩
  · obtain ⟨m, _, rfl⟩ := Option.map_eq_some_iff.1 h
    exact ⟨_, m, rfl⟩
  · split at h
    · cases h; exact ⟨_, _, rfl⟩
    · obtain ⟨m, _, rfl⟩ := Option.map_eq_some_iff.1 h
      exact ⟨_, m, rfl⟩
  · obtain ⟨m, _, rfl⟩ := Option.map_eq_some_iff.1 h
    exact ⟨_, m, rfl⟩
  · cases h
  · cases h
  · cases h

theorem Threads.turn_of_step {setup : Setup} {l : Label} {r r' : Threads}
    (h : Threads.step setup l r = some r') : Threads.Turn setup l r r' := by
  cases l with
  | udpLoop =>
      simp only [step] at h
      split at h
      · next hudp =>
          cases h
          split
          · next hrunning => exact .udpRun hudp hrunning
          · next hrunning => exact .udpStop hudp (Bool.eq_false_iff.2 hrunning)
      · cases h
  | datagram d =>
      simp only [step] at h
      split at h
      · next hudp =>
          simp only [onDatagram, Option.some.injEq] at h
          split at h
          · next hd => cases h; exact .ignored hudp hd
          · next pkt hd =>
              split at h
              · next hpanic =>
                  rw [Bool.and_eq_true] at hpanic
                  cases h
                  exact .dataPanic hudp hd hpanic.1 hpanic.2
              · next hfits => cases h; exact .data hudp hd hfits
          · next hd => cases h; exact .blockEnd hudp hd
      · cases h
  | udpTimeout =>
      simp only [step] at h
      split at h
      · next hudp => cases h; exact .udpTimeout hudp
      · cases h
  | udpError =>
      simp only [step] at h
      split at h
      · next hudp => cases h; exact .udpError hudp
      · cases h
  | udpSend =>
      simp only [step] at h
      split at h
      · next hudp =>
          split at h
          · next hroom => cases h; exact .udpSend hudp hroom
          · cases h
      · cases h
  | workerRecv i =>
      simp only [step] at h
      split at h
      · next hworker =>
          unfold onWorkerRecv at h
          split at h
          · next hpackets =>
              split at h
              · next hcheck => cases h; exact .reject hworker hpackets hcheck
              · next hcheck => cases h; exact .accept hworker hpackets hcheck
          · next hpackets =>
              split at h
              · next hudp => cases h; exact .workerExit hworker hpackets hudp
              · cases h
      · cases h
  | workerMark i =>
      simp only [step] at h
      split at h
      · next hworker => cases h; exact .mark hworker
      · cases h
  | workerSend i =>
      simp only [step] at h
      split at h
      · next hworker =>
          split at h
          · next hexited =>
              obtain ⟨w, result, hwriter⟩ := r.writer.exited_of_result hexited
              cases h
              exact .sendError hworker hwriter
          · next hrunning =>
              split at h
              · next hroom =>
                  obtain ⟨w, hwriter⟩ := r.writer.running_of_result hrunning
                  cases h
                  exact .send hworker hwriter hroom
              · cases h
      · cases h
  | writerRecv =>
      simp only [step] at h
      split at h
      · next w hwriter =>
          unfold onWriterRecv at h
          split at h
          · next hchunks =>
              dsimp only at h
              split at h
              · next hpanic =>
                  rw [Bool.and_eq_true] at hpanic
                  cases h
                  exact .writeOverflow hwriter hchunks hpanic.2
              · split at h
                · next hdone => cases h; exact .writeLast hwriter hchunks hdone
                · next hmore =>
                    cases h
                    exact .write hwriter hchunks (UInt32.not_le.1 hmore)
          · next hchunks =>
              split at h
              · next hworkers => cases h; exact .writeEnd hwriter hchunks hworkers
              · cases h
      · cases h
  | writerError =>
      simp only [step] at h
      split at h
      · next hwriter => cases h; exact .writerError hwriter
      · cases h
  | ack l =>
      obtain ⟨c, hc, rfl⟩ := Option.map_eq_some_iff.1 h
      exact .ack (ackMove_of_step hc)
  | main =>
      obtain ⟨running, main, rfl⟩ := Threads.onMain_eq_some h
      exact .main h
  | tick dt => cases h; exact .tick

/-! ## The shared state -/

/-- What a move in state `r` makes of the tracker and what stands around it. -/
inductive ControlMove (setup : Setup) (r : Threads) : Label → Control → Prop
  | keep {l : Label} : ControlMove setup r l r.control
  | touch {d : Datagram} {pkt : DecodedDataPacket} (hd : Incoming.ofDatagram d = .data pkt) :
      ControlMove setup r (.datagram d) (r.control.mutate (.touchActivity pkt.blockId
        (packetsInBlock pkt.blockId setup.expectedChunks) r.now))
  | endSeen {d : Datagram} {b total : UInt32} (hd : Incoming.ofDatagram d = .blockEnd b total) :
      ControlMove setup r (.datagram d) (r.control.mutate (.markEndSeen b total.toNat r.now))
  | mark {i : ℕ} {p : ReceivedPacket} {data : Bytes}
      (hworker : r.workers[i]? = some (.verified p data)) :
      ControlMove setup r (.workerMark i) (r.control.markVerified p.blockId p.packetInBlock
        (packetsInBlock p.blockId setup.expectedChunks) r.now)
  | ack {l : AckLabel} {c : Control}
      (hmove : AckMove (totalBlocks setup.expectedChunks).toNat r.now l r.control c) :
      ControlMove setup r (.ack l) c

/-- Packets touch their block also when the arithmetic on the id panics. -/
theorem Threads.Turn.control {setup : Setup} {l : Label} {r r' : Threads}
    (h : Threads.Turn setup l r r') : ControlMove setup r l r'.control := by
  cases h with
  | data _ hd => exact .touch hd
  | dataPanic _ hd => exact .touch hd
  | blockEnd _ hd => exact .endSeen hd
  | mark hworker => exact .mark hworker
  | ack hmove => exact .ack hmove
  | _ => exact .keep

end SecureTransfer.Receiver
