import SecureTransfer.Receiver.Flooding
import SecureTransfer.Sender.Placement
import SecureTransfer.Sender.SizeLimit
import SecureTransfer.Transfer.Delivery

set_option autoImplicit false

/-! # A write failure in the transfer of a file

What the sender of a file puts on the wire is a `Traffic`, so the receiver of a transfer whose writer
fails is a receiver as in `Failed`: the failure surfaces if and only if the UDP thread is not jammed
(`write_failure_iff`). The network only has to duplicate one packet to jam it. -/

namespace SecureTransfer.Transfer

open Sender Receiver

variable {setup : Setup} {upload : Upload setup.expectedChunks} {job : FileTransfer}
  {ls : List Label} {w : World} {c : EncryptedChunk} {r : Threads}

/-! ## The traffic of a file -/

/-- The packets of the chunks and the `BlockEnd` of each block. -/
def FileTransfer.Emits (job : FileTransfer) (d : Datagram) : Prop :=
  (∃ c ∈ job.upload.chunks, c.packet = d) ∨
  ∃ b < totalBlocks job.setup.expectedChunks,
    d = BlockEndPacket.encode b (UInt32.ofNat (packetsInBlock b job.setup.expectedChunks))

theorem FileTransfer.intact (job : FileTransfer) (hc : c ∈ job.upload.chunks) :
    ∃ pkt, Intact job.setup c.packet pkt ∧ pkt.blockId < job.setup.blocks := by
  obtain ⟨chunk, hchunk, rfl⟩ := job.mem_upload.1 hc
  have hlen : chunk.data.length < 2 ^ 32 :=
    lt_of_le_of_lt (readerThread_length job.reads.legal hchunk).2 (by decide)
  refine ⟨sentPacket job.setup chunk, ⟨ofDatagram_workerThread job.setup hlen,
    chunkIdOverflows_blockOf _, ?_⟩, blockOf_fst_lt (job.chunkId_lt hchunk)⟩
  rw [checkPacket_sentPacket]
  rfl

def FileTransfer.traffic (job : FileTransfer) : Traffic job.setup where
  Sends := job.Emits
  packet := by
    rintro d pkt (⟨c, hc, rfl⟩ | ⟨b, _, rfl⟩) hpkt
    · obtain ⟨pkt', hintact, hb⟩ := job.intact hc
      rw [hintact.incoming] at hpkt
      cases hpkt
      exact ⟨hb, hintact.fits, hintact.check⟩
    · rw [Incoming.ofDatagram_blockEnd] at hpkt
      cases hpkt
  blockEnd := by
    rintro d b n (⟨c, hc, rfl⟩ | ⟨b', hb', rfl⟩) hblock
    · obtain ⟨pkt, hintact, -⟩ := job.intact hc
      rw [hintact.incoming] at hblock
      cases hblock
    · rw [Incoming.ofDatagram_blockEnd] at hblock
      cases hblock
      exact hb'
  ends := fun b hb => ⟨_, .inr ⟨b, hb, rfl⟩⟩

/-- The receiver of a transfer gets the traffic of the file and nothing else. -/
theorem Parties.allowed {inputs : List LoopInput} {labels : List Receiver.Label}
    (h : Parties job.setup job.upload ls w inputs labels)
    (hudp : Label.receiver .udpError ∉ ls) : ∀ l ∈ labels, job.traffic.Allows l := by
  obtain ⟨m, hm, _⟩ := h.books
  intro l hl
  rcases h.arrived l hl with ⟨d, hd, rfl⟩ | ⟨hlocal, hmem⟩
  · rcases h.sent hm hd with ⟨c, hc, hpacket, _⟩ | ⟨b, hb, _, rfl⟩
    · exact .inl ⟨c, hc, hpacket⟩
    · exact .inr ⟨b, hb, rfl⟩
  · cases l with
    | udpError => exact hudp hmem
    | datagram d => cases hlocal
    | ack l => cases l <;> trivial
    | _ => trivial

theorem failed_of_reaches (hrun : (transfer job.setup job.upload).Reaches ls w)
    (hudp : Label.receiver .udpError ∉ ls) (hwriter : w.receiver.writer.result? = some .err) :
    Failed job.traffic w.receiver :=
  let h := Parties.of_reaches hrun
  ⟨⟨_, h.receiver, h.allowed hudp⟩, hwriter⟩

/-! ## A packet on the wire -/

/-- The sender opens the block of the first chunk it gets and sends the packet. -/
theorem admitOrBuffer_init {totalChunks : UInt32} {depth : ℕ} {m : Manager} (hdepth : 0 < depth)
    (h : admitOrBuffer totalChunks depth c .init = .ok m) : c.packet ∈ m.udp := by
  have hnone : Manager.init.blockStates.lookup (blockOf c.chunkId).1 = none := AList.lookup_empty _
  have hopen : Manager.init.openSlots < depth := hdepth
  unfold admitOrBuffer at h
  simp only [hnone, if_pos hopen] at h
  obtain ⟨entry, -, -, -, rfl⟩ := placeChunk_ok h
  exact List.mem_append_right _ List.mem_cons_self

/-- A chunk reaches the manager, and its packet the wire. -/
theorem exists_on_wire (hc : c ∈ upload.chunks) :
    ∃ ls w, (transfer setup upload).Reaches ls w ∧ (∀ l, Label.receiver l ∉ ls) ∧
      c.packet ∈ w.wire ∧ w.receiver = .init := by
  have hpos : ¬ (totalBlocks setup.expectedChunks).toNat ≤ 0 := by
    have hlt := UInt32.lt_iff_toNat_lt.1 (blockOf_fst_lt (upload.below c hc))
    omega
  have hdrain : Loop.step setup.expectedChunks pipelineDepth .drain (.head .init)
      = some (.wait (fromMillis ackActivityCheckIntervalMs) .init) := by
    have hnone : drainPending setup.expectedChunks pipelineDepth .init = .ok .init := rfl
    have hmore : ¬ (totalBlocks setup.expectedChunks).toNat ≤ Manager.init.completed := hpos
    have hnow : Manager.init.now + fromMillis ackActivityCheckIntervalMs
        = fromMillis ackActivityCheckIntervalMs := Nat.zero_add _
    simp only [Loop.step, hnone, Loop.orPanic, if_neg hmore, hnow]
  have hwait : (transfer setup upload).exec [.chunkRelay c, .sender .drain]
      (transfer setup upload).init = some
        { upstream := upload.chunks.erase c
          events := [.chunk c]
          sender := .wait (fromMillis ackActivityCheckIntervalMs) .init
          wire := []
          acksRead := 0
          receiver := .init } := by
    have hudp : Manager.init.udp = [] := rfl
    simp [Lts.exec, transfer, World.step, hc, World.admits, hdrain, eventsAfter, sentDatagrams,
      Loop.manager?, hudp]
  obtain ⟨s, hs⟩ : ∃ s, Loop.step setup.expectedChunks pipelineDepth (.event (.chunk c))
      (.wait (fromMillis ackActivityCheckIntervalMs) .init) = some s := ⟨_, rfl⟩
  have hevent := (Lts.reaches_of_exec hwait).snoc (l := .sender (.event (.chunk c))) trivial
    (by simp [transfer, World.step, World.admits, hs]; rfl)
  obtain ⟨m, hm, _⟩ := (Parties.of_reaches hevent).books
  obtain ⟨m₀, hm₀, hmove⟩ := (Loop.turn_of_step hs).managerMove hm
  cases hm₀
  refine ⟨_, _, hevent, by simp, ?_, rfl⟩
  cases hmove with
  | drain hl => exact absurd rfl (hl _)
  | event hhandle =>
      have hadmitted : admitOrBuffer setup.expectedChunks pipelineDepth c .init = .ok m := hhandle
      have hsent : sentDatagrams s = m.udp := Parties.sent_eq hm
      dsimp only
      rw [hsent]
      exact admitOrBuffer_init (by decide) hadmitted

/-! ## As many copies as it takes -/

/-- The network duplicates the datagram before it delivers it. -/
def copied : Receiver.Label → List Label
  | .datagram d => [.duplicate d, .deliver d]
  | l => [.receiver l]

theorem exec_local {l : Receiver.Label} (hlocal : isLocal l = true)
    (hstep : (Receiver.receiver setup).step l w.receiver = some r) :
    (transfer setup upload).exec [.receiver l] w = some { w with receiver := r } := by
  have hmove : Threads.step setup l w.receiver = some r := hstep
  simp [Lts.exec, transfer, World.step, hlocal, hmove]

/-- The receiver gets a datagram on the wire as often as it likes. -/
theorem exec_copied {d : Datagram} {labels : List Receiver.Label} (hd : d ∈ w.wire)
    (hlabels : ∀ l ∈ labels, l.Floods d ∨ l = .writerError)
    (hexec : (Receiver.receiver setup).exec labels w.receiver = some r) :
    (transfer setup upload).exec (labels.flatMap copied) w = some { w with receiver := r } := by
  induction labels generalizing w with
  | nil =>
      cases hexec
      rfl
  | cons l labels ih =>
      obtain ⟨mid, hmid, hrest⟩ := Option.bind_eq_some_iff.1 hexec
      have htail := ih (w := { w with receiver := mid }) hd
        (fun l hl => hlabels l (List.mem_cons_of_mem _ hl)) hrest
      rw [List.flatMap_cons]
      refine Lts.exec_trans ?_ htail
      rcases hlabels l List.mem_cons_self with hfloods | rfl
      · cases l with
        | datagram d' =>
            obtain rfl : d' = d := hfloods
            have hmove : Threads.step setup (.datagram d') w.receiver = some mid := hmid
            simp [copied, Lts.exec, transfer, World.step, hd, hmove]
        | _ => exact exec_local (isLocal_of_own hfloods) hmid
      · exact exec_local rfl hmid

theorem mem_copied {l l' : Receiver.Label} (h : Label.receiver l' ∈ copied l) : l = l' := by
  cases l with
  | datagram d => simp [copied] at h
  | _ => exact (Label.receiver.inj (List.mem_singleton.1 h)).symm

/-- Any packet of the file can be used to hide the failure. -/
theorem exists_hidden_run (hc : c ∈ job.upload.chunks) :
    ∃ ls w b, (transfer job.setup job.upload).Reaches ls w ∧ Label.receiver .udpError ∉ ls ∧
      Hidden w.receiver ∧ AckInv (· = b) job.setup.blocks.toNat w.receiver.control := by
  obtain ⟨ls, w, hrun, hls, hd, hinit⟩ := exists_on_wire hc
  obtain ⟨pkt, hintact, -⟩ := job.intact hc
  obtain ⟨labels, r, hlabels, hexec, hhidden⟩ := exists_hidden hintact
  have hacks := (ackInv_of_reaches (Lts.reaches_of_exec hexec)).mono
    fun b hb => named_of_floods hintact hlabels hb
  rw [← hinit] at hexec
  refine ⟨_, _, pkt.blockId, hrun.extend (fun _ _ _ => trivial) (exec_copied hd hlabels hexec),
    fun hmem => ?_, hhidden, hacks⟩
  rcases List.mem_append.1 hmem with hmem | hmem
  · exact hls _ hmem
  · obtain ⟨l, hl, hcopied⟩ := List.mem_flatMap.1 hmem
    obtain rfl := mem_copied hcopied
    rcases hlabels _ hl with hfloods | heq
    · cases hfloods
    · cases heq

/-! ## What becomes of a write failure -/

/-- The writer has failed before all chunks were written, and nothing else has. -/
structure WriteFailed (job : FileTransfer) (ls : List Label) (w : World) : Prop where
  run : (transfer job.setup job.upload).Reaches ls w
  udp : Label.receiver .udpError ∉ ls
  writer : w.receiver.writer.result? = some .err
  early : w.receiver.writer.writer.nextChunk < job.setup.expectedChunks

theorem WriteFailed.failed (h : WriteFailed job ls w) : Failed job.traffic w.receiver :=
  failed_of_reaches h.run h.udp h.writer

theorem exists_writeFailed (hc : c ∈ job.upload.chunks) :
    ∃ ls w b, WriteFailed job ls w ∧ Hidden w.receiver ∧
      AckInv (· = b) job.setup.blocks.toNat w.receiver.control := by
  obtain ⟨ls, w, b, hrun, hudp, hhidden, hacks⟩ := exists_hidden_run hc
  refine ⟨ls, w, b, ⟨hrun, hudp, ?_, ?_⟩, hhidden, hacks⟩
  · rw [hhidden.writer]
    rfl
  · rw [hhidden.writer]
    exact UInt32.lt_of_le_of_lt UInt32.zero_le (job.upload.below c hc)

/-- **What becomes of a write failure.** The writer has failed before all chunks were written, the
    datagrams of the file may still arrive in any order and number or not at all, and nothing else
    fails. Then all threads can still exit and `run` can return an error if and only if the UDP
    thread is not in `tx.send` on a full channel with no worker in `rx.recv`; and the error can be
    that of the writer if and only if no data packet is on its way and no worker has failed. The
    failure can always surface only if there is nothing to transfer. -/
theorem write_failure_iff (job : FileTransfer) :
    (∀ ls w, WriteFailed job ls w →
      (w.receiver.CanEnd job.traffic ↔ ¬ w.receiver.Jammed) ∧
      (w.receiver.main ≠ .failed → (w.receiver.CanReport job.traffic ↔ w.receiver.Quiet))) ∧
    ((∀ ls w, WriteFailed job ls w → w.receiver.CanEnd job.traffic) ↔ job.file = []) := by
  refine ⟨fun ls w h => ⟨h.failed.canEnd_iff, h.failed.canReport_iff⟩, fun hall => ?_, ?_⟩
  · by_contra hfile
    obtain ⟨c, hc, -⟩ := job.upload_full (job.expectedChunks_pos_iff.2 hfile)
    obtain ⟨ls, w, b, hfailed, hhidden, -⟩ := exists_writeFailed hc
    exact hfailed.failed.canEnd_iff.1 (hall ls w hfailed) hhidden.jammed
  · intro hfile ls w h
    have hpos := UInt32.lt_of_le_of_lt UInt32.zero_le h.early
    exact absurd hfile (job.expectedChunks_pos_iff.1 hpos)

/-! ## A failure that stays hidden -/

/-- A file of 257 chunks, which is one more than a block has. -/
def twoBlocks : FileTransfer where
  crates := oneChunk.crates
  sessionKey := oneChunk.sessionKey
  nonce := oneChunk.nonce
  overflowChecks := true
  file := List.replicate (257 * chunkSize) 0
  counts := List.replicate 257 chunkSize ++ [0]
  reads := fullReads_zeros 257
  size := by rw [List.length_replicate, chunkSize]; decide

theorem length_twoBlocks : twoBlocks.file.length = 257 * chunkSize :=
  List.length_replicate

theorem toNat_blocks_twoBlocks : twoBlocks.setup.blocks.toNat = 2 := by
  rw [totalBlocks_toNat, twoBlocks.toNat_expectedChunks, twoBlocks.length_chunks, length_twoBlocks,
    chunkSize]

/-- **A write failure that stays hidden.** The writer has failed at the start, and the packet of the
    first chunk has been delivered until it filled the channel. Now the UDP thread is in `tx.send`
    for ever, with no worker left, the ack manager waits for the other block for ever, and `run` for
    the ack manager. -/
theorem write_failure_hidden :
    ∃ ls w, WriteFailed twoBlocks ls w ∧ ∀ ls' r, (∀ l ∈ ls', twoBlocks.traffic.Allows l) →
      (Receiver.receiver twoBlocks.setup).exec ls' w.receiver = some r →
        (∃ packet, r.udp = .sending packet) ∧ r.packets.length = channelCapacity ∧
        (∀ worker ∈ r.workers, worker = .exited .err) ∧
        r.control.completed < (totalBlocks twoBlocks.setup.expectedChunks).toNat ∧
        r.main = .joinAck := by
  have hmore : 1 < twoBlocks.setup.blocks.toNat := by rw [toNat_blocks_twoBlocks]; decide
  have hfile : twoBlocks.file ≠ [] := by
    rw [← List.length_pos_iff, length_twoBlocks]
    decide
  obtain ⟨c, hc, -⟩ := twoBlocks.upload_full (twoBlocks.expectedChunks_pos_iff.2 hfile)
  obtain ⟨ls, w, b, hfailed, hhidden, hacks⟩ := exists_writeFailed hc
  refine ⟨ls, w, hfailed, fun ls' r hls' hexec => ?_⟩
  obtain ⟨hhidden', hlt, hmain⟩ := hhidden.exec hfailed.failed hacks hmore hls' hexec
  have hroom := (hfailed.failed.exec hls' hexec).sane.room
  refine ⟨?_, Nat.le_antisymm hroom hhidden'.jammed.full, hhidden'.workers, hlt, hmain⟩
  have hsending := hhidden'.jammed.sending
  cases hudp : r.udp with
  | sending packet => exact ⟨packet, rfl⟩
  | _ => rw [hudp] at hsending; cases hsending

end SecureTransfer.Transfer
