import SecureTransfer.Receiver.Surfacing

set_option autoImplicit false

/-! # How a write failure is hidden

One packet of the file, delivered again and again, is enough: after the failure each worker exits
with the first copy it has, then the channel fills up, and with the next copy the UDP thread is
jammed (`exists_flooded`). If the file has another block, the ack manager waits for it for ever
(`Hidden.exec`). -/

namespace SecureTransfer.Receiver

variable {setup : Setup} {traffic : Traffic setup} {r r' : Threads} {l : Label} {ls : List Label}
  {d : Datagram} {pkt : DecodedDataPacket} {b : UInt32}

/-- Only one datagram arrives, and only the receiver's own threads step beside. -/
def Label.Floods (d : Datagram) : Label → Prop
  | .datagram d' => d' = d
  | l => l.Own

/-- The writer has failed, some workers with it, and packets have only been left in the channel when
    all of them have. -/
structure Flooded (r : Threads) : Prop where
  running : r.running = true
  udp : r.udp = .loopHead
  room : r.packets.length ≤ channelCapacity
  workers : ∀ worker ∈ r.workers, worker = .recv ∨ worker = .exited .err
  packets : Worker.recv ∈ r.workers → r.packets = []
  writer : r.writer = .exited .init .err

/-- What is left to do until the channel is full. -/
def Threads.floodRank (r : Threads) : ℕ :=
  (channelCapacity - r.packets.length) + (r.workers.map Worker.rank).sum

/-- All workers have exited, the channel is full, and the UDP thread has a packet more. -/
structure Hidden (r : Threads) : Prop where
  jammed : r.Jammed
  workers : ∀ worker ∈ r.workers, worker = .exited .err
  writer : r.writer = .exited .init .err

/-! ## Reaching it -/

/-- A data packet that comes through the UDP thread and the workers. -/
structure Intact (setup : Setup) (d : Datagram) (pkt : DecodedDataPacket) : Prop where
  incoming : Incoming.ofDatagram d = .data pkt
  fits : chunkIdOverflows pkt.blockId pkt.packetInBlock = false
  check : (checkPacket setup (receivedPacket pkt)).isSome = true

/-- The packet arrives, and the UDP thread is about to pass it on. -/
theorem Flooded.arrive (h : Flooded r) (hd : Intact setup d pkt) :
    (receiver setup).exec [.udpLoop, .datagram d] r = some { r with
      control := r.control.mutate (.touchActivity pkt.blockId
        (packetsInBlock pkt.blockId setup.expectedChunks) r.now)
      udp := .sending (receivedPacket pkt) } := by
  simp [Lts.exec, receiver, Threads.step, h.udp, h.running, Threads.onDatagram, hd.incoming, hd.fits]

/-- A worker takes the packet, finds the writer gone and exits. -/
theorem Flooded.kill (h : Flooded r) (hd : Intact setup d pkt) (hrecv : Worker.recv ∈ r.workers) :
    ∃ ls r', (∀ l ∈ ls, l.Floods d) ∧ (receiver setup).exec ls r = some r' ∧
      r'.floodRank < r.floodRank ∧ Flooded r' := by
  obtain ⟨i, hi⟩ := List.mem_iff_getElem?.1 hrecv
  obtain ⟨data, hcheck⟩ := Option.isSome_iff_exists.1 hd.check
  have hlt := (List.getElem?_eq_some_iff.1 hi).1
  have hpackets := h.packets hrecv
  have hgone : r.writer.result?.isSome = true := by rw [h.writer]; rfl
  have hcapacity : 0 < channelCapacity := by decide
  have hexec : (receiver setup).exec [.udpSend, .workerRecv i, .workerMark i, .workerSend i]
      { r with
        control := r.control.mutate (.touchActivity pkt.blockId
          (packetsInBlock pkt.blockId setup.expectedChunks) r.now)
        udp := .sending (receivedPacket pkt) }
      = some { r with
        control := (r.control.mutate (.touchActivity pkt.blockId
          (packetsInBlock pkt.blockId setup.expectedChunks) r.now)).markVerified pkt.blockId
          pkt.packetInBlock (packetsInBlock pkt.blockId setup.expectedChunks) r.now
        udp := .loopHead
        packets := []
        workers := r.workers.set i (.exited .err)
        sent := r.sent ++ [⟨(receivedPacket pkt).chunkId, data⟩] } := by
    simp only [Lts.exec, receiver, Threads.step, hpackets, List.length_nil, if_pos hcapacity,
      List.nil_append, Option.bind_some, hi, Threads.onWorkerRecv, hcheck,
      List.getElem?_set_self hlt, hgone, if_true, List.set_set]
    rfl
  refine ⟨_, _, ?_, Lts.exec_trans (h.arrive hd) hexec, ?_, h.running, rfl, Nat.zero_le _, ?_, ?_,
    h.writer⟩
  · simp [Label.Floods, Label.Own]
  · have hsum := sum_rank_set hi (.exited .err)
    simp only [Worker.rank] at hsum
    simp only [Threads.floodRank, hpackets, List.length_nil]
    omega
  · exact fun worker hmem => (worker_mem_set hmem).elim (h.workers worker) .inr
  · exact fun _ => rfl

/-- No worker is left, so the packet stays in the channel. -/
theorem Flooded.fill (h : Flooded r) (hd : Intact setup d pkt) (hgone : Worker.recv ∉ r.workers)
    (hroom : r.packets.length < channelCapacity) :
    ∃ ls r', (∀ l ∈ ls, l.Floods d) ∧ (receiver setup).exec ls r = some r' ∧
      r'.floodRank < r.floodRank ∧ Flooded r' := by
  have hexec : (receiver setup).exec [.udpSend]
      { r with
        control := r.control.mutate (.touchActivity pkt.blockId
          (packetsInBlock pkt.blockId setup.expectedChunks) r.now)
        udp := .sending (receivedPacket pkt) }
      = some { r with
        control := r.control.mutate (.touchActivity pkt.blockId
          (packetsInBlock pkt.blockId setup.expectedChunks) r.now)
        udp := .loopHead
        packets := r.packets ++ [receivedPacket pkt] } := by
    simp [Lts.exec, receiver, Threads.step, hroom]
  have hlength : (r.packets ++ [receivedPacket pkt]).length = r.packets.length + 1 := by
    rw [List.length_append, List.length_singleton]
  refine ⟨_, _, ?_, Lts.exec_trans (h.arrive hd) hexec, ?_, h.running, rfl, ?_, h.workers,
    fun hrecv => absurd hrecv hgone, h.writer⟩
  · simp [Label.Floods, Label.Own]
  · simp only [Threads.floodRank, hlength]
    omega
  · dsimp only
    rw [hlength]
    exact hroom

theorem Flooded.progress (h : Flooded r) (hd : Intact setup d pkt) :
    (Worker.recv ∉ r.workers ∧ r.packets.length = channelCapacity) ∨
      ∃ ls r', (∀ l ∈ ls, l.Floods d) ∧ (receiver setup).exec ls r = some r' ∧
        r'.floodRank < r.floodRank ∧ Flooded r' := by
  by_cases hrecv : Worker.recv ∈ r.workers
  · exact .inr (h.kill hd hrecv)
  · rcases Nat.lt_or_eq_of_le h.room with hroom | hfull
    · exact .inr (h.fill hd hrecv hroom)
    · exact .inl ⟨hrecv, hfull⟩

/-- After an early failure any packet of the file is enough to jam the UDP thread. -/
theorem exists_hidden (hd : Intact setup d pkt) :
    ∃ ls r, (∀ l ∈ ls, l.Floods d ∨ l = .writerError) ∧ (receiver setup).exec ls .init = some r ∧
      Hidden r := by
  have hstart : (receiver setup).exec [.writerError] .init
      = some { Threads.init with writer := .exited .init .err } := rfl
  have hflooded : Flooded { Threads.init with writer := .exited .init .err } :=
    ⟨rfl, rfl, Nat.zero_le _, fun _ hmem => .inl (List.eq_of_mem_replicate hmem), fun _ => rfl, rfl⟩
  obtain ⟨ls, mid, hls, hexec, hmid, hgone, hfull⟩ := Lts.exists_exec_of_wellFounded
    (M := receiver setup) Flooded _ (Label.Floods d) Threads.floodRank (fun _ h => h.progress hd) _
    hflooded
  have hall := Lts.exec_trans (Lts.exec_trans hstart hexec) (hmid.arrive hd)
  refine ⟨_, _, fun l hl => ?_, hall, ⟨rfl, hfull.ge, hgone⟩, fun worker hmem => ?_, hmid.writer⟩
  · simp only [List.mem_append, List.mem_cons, List.not_mem_nil, or_false] at hl
    rcases hl with (rfl | hl) | rfl | rfl
    · exact .inr rfl
    · exact .inl (hls l hl)
    · exact .inl trivial
    · exact .inl rfl
  · exact (hmid.workers worker hmem).resolve_left fun heq => hgone (heq ▸ hmem)

/-- The receiver has only been told of the block of the packet. -/
theorem named_of_floods (hd : Intact setup d pkt) (hls : ∀ l ∈ ls, l.Floods d ∨ l = .writerError)
    (hb : b ∈ namedBlocks ls) : b = pkt.blockId := by
  obtain ⟨d', hmem, hblock⟩ := mem_namedBlocks.1 hb
  rcases hls _ hmem with heq | heq
  · have heq : d' = d := heq
    rw [heq, hd.incoming] at hblock
    exact (Option.some.inj hblock).symm
  · cases heq

/-! ## Staying there -/

theorem Hidden.turn (h : Hidden r) (hturn : Threads.Turn setup l r r') : Hidden r' := by
  have hnot : ∀ w, r.writer ≠ .running w := fun w hrunning => by
    rw [h.writer] at hrunning
    cases hrunning
  have hexited : ∀ {i : ℕ} {worker : Worker}, r.workers[i]? = some worker → worker = .exited .err :=
    fun hi => h.workers _ (List.mem_of_getElem? hi)
  refine ⟨h.jammed.turn hturn hnot, ?_, hturn.writer_exited h.writer⟩
  cases hturn with
  | accept hi => cases hexited hi
  | workerExit hi => cases hexited hi
  | mark hi => cases hexited hi
  | send hi => cases hexited hi
  | sendError hi => cases hexited hi
  | _ => exact h.workers

/-- The ack manager hears nothing new. -/
theorem Hidden.acks {N : UInt32 → Prop} (h : Hidden r) (hturn : Threads.Turn setup l r r')
    (hacks : AckInv N setup.blocks.toNat r.control) : AckInv N setup.blocks.toNat r'.control := by
  refine hacks.turn hturn.control (fun p data hmem => ?_) fun d b hl _ => ?_
  · cases h.workers _ hmem
  · subst hl
    have hrecv : r.udp = .recv := by cases hturn <;> assumption
    have hsending := h.jammed.sending
    rw [hrecv] at hsending
    cases hsending

/-- The ack manager knows one block of several, and waits for the others. -/
theorem AckInv.completed_lt (h : AckInv (· = b) setup.blocks.toNat r.control)
    (hmore : 1 < setup.blocks.toNat) : r.control.completed < setup.blocks.toNat := by
  have hcard : r.control.shared.completed.card ≤ 1 := by
    refine (Finset.card_le_card fun b' hb' => ?_).trans (Finset.card_singleton b).le
    exact Finset.mem_singleton.2 (h.completed b' hb')
  rw [h.counted]
  omega

/-- **A hidden failure stays hidden.** Whatever the receiver does and whatever the sender and the
    network do, the UDP thread stays in `tx.send`, the ack manager in its loop and `run` in its
    first join. -/
theorem Hidden.exec (h : Hidden r) (hfailed : Failed traffic r)
    (hacks : AckInv (· = b) setup.blocks.toNat r.control) (hmore : 1 < setup.blocks.toNat)
    (hls : ∀ l ∈ ls, traffic.Allows l) (hexec : (receiver setup).exec ls r = some r') :
    Hidden r' ∧ r'.control.completed < setup.blocks.toNat ∧ r'.main = .joinAck := by
  obtain ⟨hhidden, hacks'⟩ := Lts.exec_preserves (M := receiver setup)
    (P := fun r => Hidden r ∧ AckInv (· = b) setup.blocks.toNat r.control)
    (fun _ _ _ hs hstep => ⟨hs.1.turn (Threads.turn_of_step hstep),
      hs.1.acks (Threads.turn_of_step hstep) hs.2⟩) ⟨h, hacks⟩ hexec
  have hlt := hacks'.completed_lt hmore
  have hsane := (hfailed.exec hls hexec).sane
  refine ⟨hhidden, hlt, hsane.joining.2 (Bool.of_not_eq_false fun hstopped => ?_)⟩
  exact Nat.not_lt_of_le (hacks'.exited (hsane.acked hstopped)) hlt

end SecureTransfer.Receiver
