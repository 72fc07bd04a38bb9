import SecureTransfer.Receiver.Admission

set_option autoImplicit false

/-! # The ids on the wire

`receiver_thread` recombines the block id and the position of a data header with `chunk_id_of` and
checks neither: the product may leave `u32`, and a position of 256 or more names a packet of another
block, or one beyond the file. `mark_verified` checks the position before it indexes the bitmap;
the id the packet is decrypted and written under is not checked anywhere. Exactly the headers whose
position is below `packets_in_block` are handled safely. -/

namespace SecureTransfer.Receiver

variable {setup : Setup} {r r' : Threads} {ls : List Label} {d : Datagram}

/-- The id of the packet names its position, and lies in the file. -/
def PacketInPlace (setup : Setup) (p : ReceivedPacket) : Prop :=
  blockOf p.chunkId = (p.blockId, p.packetInBlock) ∧ p.chunkId < setup.expectedChunks

/-- Wherever the UDP thread receives `d`, the id does not overflow, and the packet it forwards to
    the workers is in its place. -/
def WireIdsSafe (setup : Setup) (d : Datagram) : Prop :=
  ∀ ls r r', (receiver setup).Reaches ls r → Threads.step setup (.datagram d) r = some r' →
    (∀ pkt, Incoming.ofDatagram d = .data pkt →
      chunkIdOverflows pkt.blockId pkt.packetInBlock = false) ∧
    ∀ p, r'.udp = .sending p → PacketInPlace setup p

/-- A data header of `d` is inside the geometry of the announced file. -/
def HeaderFits (setup : Setup) (d : Datagram) : Prop :=
  ∀ pkt, Incoming.ofDatagram d = .data pkt →
    pkt.packetInBlock.toNat < packetsInBlock pkt.blockId setup.expectedChunks

/-- The packet made of a header inside the geometry is in its place. -/
theorem receivedPacket_inPlace_iff (pkt : DecodedDataPacket) :
    (chunkIdOverflows pkt.blockId pkt.packetInBlock = false ∧
        PacketInPlace setup (receivedPacket pkt))
      ↔ pkt.packetInBlock.toNat < packetsInBlock pkt.blockId setup.expectedChunks := by
  constructor
  · rintro ⟨-, hblock, hlt⟩
    have hpos := blockOf_snd_lt hlt
    rw [hblock] at hpos
    exact hpos
  · intro hpos
    obtain ⟨-, hlt, hblock, hfits⟩ := chunkIdOf_spec hpos
    exact ⟨hfits, hblock, hlt⟩

/-- What the UDP thread forwards is the packet of the datagram's header. -/
theorem sending_of_datagram {p : ReceivedPacket}
    (hstep : Threads.step setup (.datagram d) r = some r') (hp : r'.udp = .sending p) :
    ∃ pkt, Incoming.ofDatagram d = .data pkt ∧ p = receivedPacket pkt := by
  cases Threads.turn_of_step hstep with
  | data _ hd => cases hp; exact ⟨_, hd, rfl⟩
  | ignored => cases hp
  | dataPanic => cases hp
  | blockEnd => cases hp

/-- The UDP thread gets to `recv_from`. -/
theorem reaches_recv (setup : Setup) :
    (receiver setup).Reaches [.udpLoop] { Threads.init with udp := .recv } :=
  Lts.reaches_of_exec rfl

/-- In `recv_from` a data datagram whose id fits is forwarded. -/
theorem step_datagram_data {pkt : DecodedDataPacket} (hudp : r.udp = .recv)
    (hd : Incoming.ofDatagram d = .data pkt)
    (hfits : chunkIdOverflows pkt.blockId pkt.packetInBlock = false) :
    ∃ r', Threads.step setup (.datagram d) r = some r' ∧ r'.udp = .sending (receivedPacket pkt) := by
  refine ⟨r.onDatagram setup d, by simp only [Threads.step, hudp], ?_⟩
  simp [Threads.onDatagram, hd, hfits]

theorem HeaderFits.safe (h : HeaderFits setup d) : WireIdsSafe setup d := by
  intro ls r r' _ hstep
  refine ⟨fun pkt hd => ((receivedPacket_inPlace_iff pkt).2 (h pkt hd)).1, fun p hp => ?_⟩
  obtain ⟨pkt, hd, rfl⟩ := sending_of_datagram hstep hp
  exact ((receivedPacket_inPlace_iff pkt).2 (h pkt hd)).2

theorem WireIdsSafe.fits (h : WireIdsSafe setup d) : HeaderFits setup d := by
  intro pkt hd
  have hrecv := reaches_recv setup
  -- the step is enabled in `recv_from`, whatever becomes of the datagram
  have hfits := (h _ _ _ hrecv rfl).1 pkt hd
  obtain ⟨r', hstep, hsending⟩ :=
    step_datagram_data (r := { Threads.init with udp := .recv }) rfl hd hfits
  exact (receivedPacket_inPlace_iff pkt).1 ⟨hfits, (h _ _ _ hrecv hstep).2 _ hsending⟩

/-- While the headers that arrive fit, everything in flight is in its place, and the positions
    marked in the bitmaps are those of the chunks forwarded to the writer, one for one. -/
theorem ids_agree_of_reaches (hrun : (receiver setup).Reaches ls r)
    (hfits : ∀ d, Label.datagram d ∈ ls → HeaderFits setup d) :
    Flow setup (PacketInPlace setup) r ∧
      r.control.marks = r.sent.map (fun chunk => blockOf chunk.chunkId) ∧
      ∀ chunk ∈ r.sent, chunk.chunkId < setup.expectedChunks := by
  refine ⟨(flow_of_reaches hrun).mono ?_, ?_⟩
  · rintro p ⟨d, pkt, hd, hpkt, rfl⟩
    exact ((receivedPacket_inPlace_iff pkt).2 (hfits d hd pkt hpkt)).2
  · obtain ⟨done, hmarks, hsent, hperm⟩ := admitted_of_reaches hrun
    -- an accepted packet carries the id its header names
    have hplace : ∀ a ∈ done, blockOf a.chunk.chunkId = (a.blockId, a.packetInBlock) ∧
        a.chunk.chunkId < setup.expectedChunks := by
      intro a ha
      obtain ⟨pkt, ⟨d, hd, hpkt, -⟩, rfl⟩ := Admitted.passesTest hperm ha
      exact ((receivedPacket_inPlace_iff pkt).2 (hfits d hd pkt hpkt)).2
    rw [hmarks, hsent, List.map_map]
    refine ⟨List.map_congr_left fun a ha => (hplace a ha).1.symm, fun chunk hchunk => ?_⟩
    obtain ⟨a, ha, rfl⟩ := List.mem_map.1 hchunk
    exact (hplace a ha).2

/-- **Wire ids.** A datagram's ids are handled safely if and only if its data header is inside the
    geometry; and in a run in which all are, decryption, file and bitmap speak of the same packet. -/
theorem wireIds_safe_iff (setup : Setup) :
    (∀ d, WireIdsSafe setup d ↔ HeaderFits setup d) ∧
      ∀ ls r, (receiver setup).Reaches ls r → (∀ d, Label.datagram d ∈ ls → HeaderFits setup d) →
        Flow setup (PacketInPlace setup) r ∧
          r.control.marks = r.sent.map (fun chunk => blockOf chunk.chunkId) ∧
          ∀ chunk ∈ r.sent, chunk.chunkId < setup.expectedChunks :=
  ⟨fun _ => ⟨WireIdsSafe.fits, HeaderFits.safe⟩, fun _ _ => ids_agree_of_reaches⟩

/-- The header of the only chunk of a file fits, and it is marked as what it is. -/
theorem wireIds_safe_iff_onePacket :
    WireIdsSafe oneChunk onePacket ∧
      ∃ ls r, (receiver oneChunk).Reaches ls r ∧ r.control.marks = [(0, 0)] ∧
        r.control.marks = r.sent.map fun chunk => blockOf chunk.chunkId := by
  have hfits : HeaderFits oneChunk onePacket := by
    intro pkt hd
    rw [onePacket, Incoming.ofDatagram_data _ _ _ (by decide)] at hd
    cases hd
    decide
  obtain ⟨r, hr, hmarks⟩ := Lts.exists_exec (receiver oneChunk)
    [.udpLoop, .datagram onePacket, .udpSend, .workerRecv 0, .workerMark 0]
    (fun r => r.control.marks = [(0, 0)]) (by decide +kernel)
  have hrun := Lts.reaches_of_exec hr
  refine ⟨((wireIds_safe_iff oneChunk).1 onePacket).2 hfits, _, r, hrun, hmarks,
    ((wireIds_safe_iff oneChunk).2 _ _ hrun fun d hd => ?_).2.1⟩
  have heq : d = onePacket := by simpa using hd
  exact heq ▸ hfits

/-- A transfer of two full blocks. -/
def fullBlocks : Setup := { oneChunk with expectedChunks := 512 }

/-- The header `(0, 256)` is taken for chunk 256, the first one of block 1; the id of the header
    `(2^24, 0)` overflows, and wraps to that of chunk 0. -/
theorem wireIds_unsafe :
    ¬ WireIdsSafe fullBlocks (DataPacket.encode 0 256 7 [9]) ∧
      blockOf (chunkIdOf 0 256) = (1, 0) ∧
      ¬ WireIdsSafe fullBlocks (DataPacket.encode 16777216 0 7 [9]) ∧
      chunkIdOverflows 16777216 0 = true ∧ chunkIdOf 16777216 0 = 0 := by
  refine ⟨fun h => ?_, by decide, fun h => ?_, by decide, by decide⟩
  · have hlt := h.fits _ (Incoming.ofDatagram_data 0 256 7 (by decide))
    exact absurd hlt (by decide)
  · have hlt := h.fits _ (Incoming.ofDatagram_data 16777216 0 7 (by decide))
    exact absurd hlt (by decide)

end SecureTransfer.Receiver
