import SecureTransfer.Lib.CountMap
import SecureTransfer.Lib.Transition
import SecureTransfer.Pipeline
import SecureTransfer.Protocol
import SecureTransfer.Transport.Geometry

set_option autoImplicit false

/-! # The block manager (`block_manager_loop` of `sender.rs`)

One thread owns `block_states`, the counters beside it and the UDP socket. Its state is `Manager`;
the functions that write to it are translated one by one, a panic being the `error` of `Except`.
`udp` lists every datagram handed to `udp.send`, oldest first (a failed send is a datagram the
network loses), and `now` is what `Instant::now()` reads. The printed statistics are left out.

The loop itself is the transition system `blockManager`: `Loop` says where the thread is (at the
loop head, waiting in `recv_timeout`, returned, panicked) and `LoopInput` what happens next. The
order in which `HashMap::iter_mut` visits the entries is part of the input. -/

namespace SecureTransfer.Sender

structure BlockState where
  total : ℕ
  packets : List (Option Bytes)
  sent : ℕ
  endEmitted : Bool
  lastAckActivity : Instant
  fallbackSent : Bool

def BlockState.new (total : ℕ) (now : Instant) : BlockState where
  total := total
  packets := List.replicate total none
  sent := 0
  endEmitted := false
  lastAckActivity := now
  fallbackSent := false

def BlockState.allCached (entry : BlockState) : Bool :=
  (entry.packets.take entry.total).all Option.isSome

inductive BlockSlot
  | pending (bucket : List EncryptedChunk)
  | opened (entry : BlockState)
  | resolved

def BlockSlot.isPending : BlockSlot → Bool
  | .pending _ => true
  | _ => false

def BlockSlot.isOpened : BlockSlot → Bool
  | .opened _ => true
  | _ => false

def BlockSlot.isResolved : BlockSlot → Bool
  | .resolved => true
  | _ => false

/-- The ways the manager thread can panic. -/
inductive Panic
  /-- `unreachable!` of `place_chunk`. -/
  | notOpen (blockId : UInt32) (packetInBlock : UInt16)
  /-- `entry.packets[packet_in_block as usize]`. -/
  | indexOutOfBounds (index len : ℕ)
  /-- The `all_cached` assertion before `BlockEnd`. -/
  | notAllCached (blockId : UInt32) (total : ℕ)
  /-- `unreachable!` of `drain_pending`. -/
  | notPending (blockId : UInt32)
  /-- `debug_assert_eq!` of `drain_pending`. -/
  | wrongBlock (bid nextId : UInt32)
  /-- `open_slots -= 1` at zero. -/
  | openSlotsUnderflow
deriving DecidableEq

/-- The state of the manager thread. -/
structure Manager where
  blockStates : AList (fun _ : UInt32 => BlockSlot)
  openSlots : ℕ
  completed : ℕ
  bytesSent : ℕ
  udp : List Datagram
  now : Instant

def Manager.init : Manager where
  blockStates := ∅
  openSlots := 0
  completed := 0
  bytesSent := 0
  udp := []
  now := 0

/-- `block_states.insert(block_id, slot)`. -/
def Manager.setSlot (m : Manager) (blockId : UInt32) (slot : BlockSlot) : Manager :=
  { m with blockStates := m.blockStates.insert blockId slot }

/-- `udp.send` for each of `datagrams`. -/
def Manager.send (m : Manager) (datagrams : List Datagram) : Manager :=
  { m with udp := m.udp ++ datagrams }

/-! ## Admission -/

def placeChunk (blockId : UInt32) (packetInBlock : UInt16) (chunk : EncryptedChunk)
    (m : Manager) : Except Panic Manager :=
  match m.blockStates.lookup blockId with
  | some (.opened entry) =>
    if packetInBlock.toNat < entry.packets.length then
      -- the packet is cached before it is sent
      let entry := { entry with packets := entry.packets.set packetInBlock.toNat chunk.packet }
      let m := m.send [chunk.packet]
      let m := { m with bytesSent := m.bytesSent + chunk.bytes }
      let entry := { entry with sent := entry.sent + 1 }
      if entry.sent = entry.total ∧ entry.endEmitted = false then
        if entry.allCached then
          let m := m.send [BlockEndPacket.encode blockId (UInt32.ofNat entry.total)]
          .ok (m.setSlot blockId
            (.opened { entry with endEmitted := true, lastAckActivity := m.now }))
        else .error (.notAllCached blockId entry.total)
      else .ok (m.setSlot blockId (.opened entry))
    else .error (.indexOutOfBounds packetInBlock.toNat entry.packets.length)
  | _ => .error (.notOpen blockId packetInBlock)

/-- `BlockSlot::Open(BlockState::new(packets_in_block(..)))` inserted and `open_slots += 1`. -/
def Manager.openBlock (m : Manager) (totalChunks blockId : UInt32) : Manager :=
  { m with
    blockStates := m.blockStates.insert blockId
      (.opened (.new (packetsInBlock blockId totalChunks) m.now))
    openSlots := m.openSlots + 1 }

def admitOrBuffer (totalChunks : UInt32) (pipelineDepth : ℕ) (chunk : EncryptedChunk)
    (m : Manager) : Except Panic Manager :=
  let (blockId, packetInBlock) := blockOf chunk.chunkId
  match m.blockStates.lookup blockId with
  | some .resolved => .ok m
  | some (.opened _) => placeChunk blockId packetInBlock chunk m
  | some (.pending bucket) => .ok (m.setSlot blockId (.pending (bucket ++ [chunk])))
  | none =>
    if m.openSlots < pipelineDepth then
      placeChunk blockId packetInBlock chunk (m.openBlock totalChunks blockId)
    else .ok (m.setSlot blockId (.pending [chunk]))

/-! ## Draining -/

/-- The smallest id of a `Pending` block. -/
def Manager.nextPending (m : Manager) : Option UInt32 :=
  ((m.blockStates.entries.filter fun e => e.2.isPending).map Sigma.fst).min?

/-- Place every chunk of a bucket into the block just opened for it. -/
def placeBucket (nextId : UInt32) : List EncryptedChunk → Manager → Except Panic Manager
  | [], m => .ok m
  | buffered :: bucket, m =>
    let (bid, pib) := blockOf buffered.chunkId
    if bid = nextId then
      (placeChunk bid pib buffered m).bind (placeBucket nextId bucket)
    else .error (.wrongBlock bid nextId)

/-- One round of the loop of `drain_pending`: remove the bucket, open the block, place it. -/
def openPending (totalChunks nextId : UInt32) (m : Manager) : Except Panic Manager :=
  match m.blockStates.lookup nextId with
  | some (.pending bucket) =>
    let m := { m with blockStates := m.blockStates.erase nextId }
    placeBucket nextId bucket (m.openBlock totalChunks nextId)
  | _ => .error (.notPending nextId)

/-- The loop of `drain_pending` with `room` free slots left; each round takes one, so `room` is
    the loop condition `open_slots < pipeline_depth` counted down. -/
def drainRounds (totalChunks : UInt32) : ℕ → Manager → Except Panic Manager
  | 0, m => .ok m
  | room + 1, m =>
    match m.nextPending with
    | none => .ok m
    | some nextId => (openPending totalChunks nextId m).bind (drainRounds totalChunks room)

def drainPending (totalChunks : UInt32) (pipelineDepth : ℕ) (m : Manager) :
    Except Panic Manager :=
  drainRounds totalChunks (pipelineDepth - m.openSlots) m

/-! ## Whole-block fallback -/

/-- The body of the loop of `retransmit_stale_blocks` for one map entry. -/
def retransmitStale (now : Instant) (m : Manager) (blockId : UInt32) : Manager :=
  match m.blockStates.lookup blockId with
  | some (.opened entry) =>
    if entry.endEmitted = false ∨ entry.fallbackSent = true then m
    else if now - entry.lastAckActivity < fromMillis wholeBlockRetransmitTimeoutMs then m
    else
      let m := m.send (entry.packets.filterMap id)
      let m := m.send [BlockEndPacket.encode blockId (UInt32.ofNat entry.total)]
      m.setSlot blockId (.opened { entry with fallbackSent := true, lastAckActivity := m.now })
  | _ => m

/-- `retransmit_stale_blocks`, visiting the entries in the order `order`. -/
def retransmitStaleBlocks (order : List UInt32) (m : Manager) : Manager :=
  order.foldl (retransmitStale m.now) m

/-! ## Acks -/

/-- The `BlockAck::Missing` arm. -/
def handleMissing (blockId : UInt32) (missing : List UInt16) (m : Manager) : Manager :=
  match m.blockStates.lookup blockId with
  | some (.opened entry) =>
    let m := m.setSlot blockId (.opened { entry with lastAckActivity := m.now })
    m.send (missing.filterMap fun id => (entry.packets[id.toNat]?).join)
  | _ => m

/-- The `BlockAck::Complete` arm. -/
def handleComplete (blockId : UInt32) (m : Manager) : Except Panic Manager :=
  let resolve (m : Manager) : Manager :=
    { m.setSlot blockId .resolved with completed := m.completed + 1 }
  match m.blockStates.lookup blockId with
  | some .resolved => .ok m
  | some (.opened _) =>
    if m.openSlots = 0 then .error .openSlotsUnderflow
    else .ok { resolve m with openSlots := m.openSlots - 1 }
  | some (.pending _) => .ok (resolve m)
  | none => .ok (resolve m)

/-- What the relay threads put into the event channel. -/
inductive SenderEvent
  | chunk (chunk : EncryptedChunk)
  | ack (ack : BlockAck)
deriving DecidableEq

def handleEvent (totalChunks : UInt32) (pipelineDepth : ℕ) :
    SenderEvent → Manager → Except Panic Manager
  | .chunk chunk, m => admitOrBuffer totalChunks pipelineDepth chunk m
  | .ack (.missing blockId missing), m => .ok (handleMissing blockId missing m)
  | .ack (.complete blockId), m => handleComplete blockId m

/-! ## The loop -/

/-- The error returned when the event channel closes with blocks unresolved. -/
structure EventChannelClosed where
  unresolved : ℕ
  totalBlocks : ℕ
  openSlots : ℕ
  stuckPending : ℕ
  stuckPendingBlocks : ℕ
deriving DecidableEq

def EventChannelClosed.message (e : EventChannelClosed) : String :=
  s!"event channel closed with {e.unresolved}/{e.totalBlocks} blocks unresolved: " ++
  s!"{e.openSlots} block(s) still open awaiting an ack that will never arrive, " ++
  s!"{e.stuckPending} chunk(s) buffered across {e.stuckPendingBlocks} block(s) that never got " ++
  "a pipeline slot -- the connection was lost before the transfer finished"

def Manager.channelClosed (totalChunks : UInt32) (m : Manager) : EventChannelClosed where
  unresolved := (totalBlocks totalChunks).toNat - m.completed
  totalBlocks := (totalBlocks totalChunks).toNat
  openSlots := m.openSlots
  stuckPending := (m.blockStates.entries.map fun e =>
    match e.2 with
    | .pending bucket => bucket.length
    | _ => 0).sum
  stuckPendingBlocks := m.blockStates.countValues BlockSlot.isPending

/-- Where the manager thread is. -/
inductive Loop
  | head (m : Manager)
  /-- In `recv_timeout`, which times out at `deadline`. -/
  | wait (deadline : Instant) (m : Manager)
  | returned (m : Manager) (result : Except EventChannelClosed ℕ)
  | panicked (panic : Panic)

inductive LoopInput
  /-- Run from the loop head: drain, then exit or wait. -/
  | drain
  /-- `recv_timeout` yields an event. -/
  | event (event : SenderEvent)
  /-- `recv_timeout` times out. -/
  | timeout (order : List UInt32)
  /-- Both relays have exited and the channel is empty. -/
  | disconnected
  /-- Time passes. -/
  | tick (dt : Duration)

/-- Continue with the manager a fallible function returns, or panic. -/
def Loop.orPanic (r : Except Panic Manager) (next : Manager → Loop) : Loop :=
  match r with
  | .ok m => next m
  | .error panic => .panicked panic

def Loop.step (totalChunks : UInt32) (pipelineDepth : ℕ) : LoopInput → Loop → Option Loop
  | .drain, .head m => some <|
    .orPanic (drainPending totalChunks pipelineDepth m) fun m =>
      if (totalBlocks totalChunks).toNat ≤ m.completed then .returned m (.ok m.bytesSent)
      else .wait (m.now + fromMillis ackActivityCheckIntervalMs) m
  | .event e, .wait _ m => some <|
    .orPanic (handleEvent totalChunks pipelineDepth e m) .head
  | .timeout order, .wait deadline m =>
    if deadline ≤ m.now ∧ order.Perm m.blockStates.keys then
      some (.head (retransmitStaleBlocks order m))
    else none
  | .disconnected, .wait _ m => some <|
    .orPanic (drainPending totalChunks pipelineDepth m) fun m =>
      if (totalBlocks totalChunks).toNat ≤ m.completed then .returned m (.ok m.bytesSent)
      else .returned m (.error (m.channelClosed totalChunks))
  | .tick dt, .head m => some (.head { m with now := m.now + dt })
  | .tick dt, .wait deadline m => some (.wait deadline { m with now := m.now + dt })
  | _, _ => none

/-- `block_manager_loop`, for the `total_blocks` that `send_file` passes. -/
def blockManager (totalChunks : UInt32) (pipelineDepth : ℕ) : Lts Loop LoopInput where
  init := .head .init
  step := Loop.step totalChunks pipelineDepth

/-- The manager state of a loop that has not panicked. -/
def Loop.manager? : Loop → Option Manager
  | .head m => some m
  | .wait _ m => some m
  | .returned m _ => some m
  | .panicked _ => none

end SecureTransfer.Sender
