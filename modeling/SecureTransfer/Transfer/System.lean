import SecureTransfer.Receiver.Shutdown
import SecureTransfer.Sender.EarlyExit

set_option autoImplicit false

/-! # A whole transfer

The block manager with its two relay threads, a UDP network and the receiver. The network holds the
datagrams in flight (`wire`) and may lose or duplicate any of them and deliver them in any order,
but makes none up; the control stream is reliable and ordered, so writing to it does not fail and
`ack_relay` reads the acks in the order written. Each side has its own clock.

The encryption workers race, so their chunks reach `chunk_relay` in any order: `upstream` is the set
of those that have not been relayed yet. -/

namespace SecureTransfer.Transfer

open Sender Receiver

/-! ## What the sender has to send -/

/-- The datagrams the encryption workers make, one for each of some of the announced chunks. -/
structure Upload (expectedChunks : UInt32) where
  chunks : List EncryptedChunk
  distinct : (chunks.map EncryptedChunk.chunkId).Nodup
  below : ∀ c ∈ chunks, c.chunkId < expectedChunks
  packet : ∀ c ∈ chunks, ∃ hash payload, payload.length < 2 ^ 32 ∧
    c.packet = DataPacket.encode (blockOf c.chunkId).1 (blockOf c.chunkId).2 hash payload

/-! ## The composed system -/

structure World where
  /-- Encrypted chunks that `chunk_relay` has not forwarded. -/
  upstream : List EncryptedChunk
  /-- The event channel. -/
  events : List SenderEvent
  sender : Loop
  /-- Datagrams in flight. -/
  wire : List Datagram
  /-- How many of the acks written `ack_relay` has forwarded. -/
  acksRead : ℕ
  receiver : Threads

/-- Everything handed to `udp.send` so far. -/
def sentDatagrams (s : Loop) : List Datagram :=
  s.manager?.elim [] Manager.udp

inductive Label
  | chunkRelay (c : EncryptedChunk)
  | ackRelay
  | sender (l : LoopInput)
  /-- A step of the receiver other than the arrival of a datagram. -/
  | receiver (l : Receiver.Label)
  | deliver (d : Datagram)
  | lose (d : Datagram)
  | duplicate (d : Datagram)

/-- What the event channel lets the manager see: its head, or that it is empty, or that it is empty
    and both relays are through with their sources; the ack manager's exit closes the stream. -/
def World.admits (w : World) : LoopInput → Bool
  | .drain => true
  | .event e => w.events.head? = some e
  | .timeout _ => w.events = []
  | .disconnected => w.events = [] ∧ w.upstream = [] ∧
      w.acksRead = w.receiver.control.acks.length ∧ w.receiver.control.ack = .exited .ok
  | .tick _ => true

/-- The event channel after the manager has taken its input. -/
def eventsAfter (l : LoopInput) (events : List SenderEvent) : List SenderEvent :=
  match l with
  | .event _ => events.tail
  | _ => events

/-- Steps the receiver takes by itself. -/
def isLocal : Receiver.Label → Bool
  | .datagram _ => false
  | .ack .writeError => false
  | _ => true

theorem isLocal_of_own {l : Receiver.Label} (hl : l.Own) : isLocal l = true := by
  cases l with
  | datagram d => cases hl
  | ack l => cases l <;> first | rfl | cases hl
  | _ => rfl

def World.step (setup : Setup) : Label → World → Option World
  | .chunkRelay c, w =>
    if c ∈ w.upstream then
      some { w with upstream := w.upstream.erase c, events := w.events ++ [.chunk c] }
    else none
  | .ackRelay, w =>
    match w.receiver.control.acks[w.acksRead]? with
    | some ack => some { w with acksRead := w.acksRead + 1, events := w.events ++ [.ack ack] }
    | none => none
  | .sender l, w =>
    if w.admits l then
      (Loop.step setup.expectedChunks pipelineDepth l w.sender).map fun sender =>
        { w with
          events := eventsAfter l w.events
          sender
          wire := w.wire ++ (sentDatagrams sender).drop (sentDatagrams w.sender).length }
    else none
  | .receiver l, w =>
    if isLocal l then
      (Threads.step setup l w.receiver).map fun receiver => { w with receiver }
    else none
  | .deliver d, w =>
    if d ∈ w.wire then
      (Threads.step setup (.datagram d) w.receiver).map fun receiver =>
        { w with wire := w.wire.erase d, receiver }
    else none
  | .lose d, w => if d ∈ w.wire then some { w with wire := w.wire.erase d } else none
  | .duplicate d, w => if d ∈ w.wire then some { w with wire := d :: w.wire } else none

def transfer (setup : Setup) (upload : Upload setup.expectedChunks) : Lts World Label where
  init :=
    { upstream := upload.chunks
      events := []
      sender := .head .init
      wire := []
      acksRead := 0
      receiver := .init }
  step := World.step setup

/-! ## One step -/

variable {setup : Setup} {w w' : World}

/-- The moves of the composed system. -/
inductive World.Move (setup : Setup) : Label → World → World → Prop
  | chunkRelay {w : World} {c : EncryptedChunk} (hc : c ∈ w.upstream) :
      Move setup (.chunkRelay c) w
        { w with upstream := w.upstream.erase c, events := w.events ++ [.chunk c] }
  | ackRelay {w : World} {ack : BlockAck}
      (hack : w.receiver.control.acks[w.acksRead]? = some ack) :
      Move setup .ackRelay w
        { w with acksRead := w.acksRead + 1, events := w.events ++ [.ack ack] }
  | sender {w : World} {l : LoopInput} {s : Loop} (hadmits : w.admits l = true)
      (hstep : (blockManager setup.expectedChunks pipelineDepth).step l w.sender = some s) :
      Move setup (.sender l) w
        { w with
          events := eventsAfter l w.events
          sender := s
          wire := w.wire ++ (sentDatagrams s).drop (sentDatagrams w.sender).length }
  | receiver {w : World} {l : Receiver.Label} {r : Threads} (hlocal : isLocal l = true)
      (hstep : (Receiver.receiver setup).step l w.receiver = some r) :
      Move setup (.receiver l) w { w with receiver := r }
  | deliver {w : World} {d : Datagram} {r : Threads} (hd : d ∈ w.wire)
      (hstep : (Receiver.receiver setup).step (.datagram d) w.receiver = some r) :
      Move setup (.deliver d) w { w with wire := w.wire.erase d, receiver := r }
  | lose {w : World} {d : Datagram} (hd : d ∈ w.wire) :
      Move setup (.lose d) w { w with wire := w.wire.erase d }
  | duplicate {w : World} {d : Datagram} (hd : d ∈ w.wire) :
      Move setup (.duplicate d) w { w with wire := d :: w.wire }

theorem World.move_of_step {l : Label} (h : World.step setup l w = some w') :
    World.Move setup l w w' := by
  cases l with
  | chunkRelay c =>
      simp only [step] at h
      split at h
      · next hc => cases h; exact .chunkRelay hc
      · cases h
  | ackRelay =>
      simp only [step] at h
      split at h
      · next hack => cases h; exact .ackRelay hack
      · cases h
  | sender l =>
      simp only [step] at h
      split at h
      · next hadmits =>
          obtain ⟨s, hstep, rfl⟩ := Option.map_eq_some_iff.1 h
          exact .sender hadmits hstep
      · cases h
  | receiver l =>
      simp only [step] at h
      split at h
      · next hlocal =>
          obtain ⟨r, hstep, rfl⟩ := Option.map_eq_some_iff.1 h
          exact .receiver hlocal hstep
      · cases h
  | deliver d =>
      simp only [step] at h
      split at h
      · next hd =>
          obtain ⟨r, hstep, rfl⟩ := Option.map_eq_some_iff.1 h
          exact .deliver hd hstep
      · cases h
  | lose d =>
      simp only [step] at h
      split at h
      · next hd => cases h; exact .lose hd
      · cases h
  | duplicate d =>
      simp only [step] at h
      split at h
      · next hd => cases h; exact .duplicate hd
      · cases h

end SecureTransfer.Transfer
