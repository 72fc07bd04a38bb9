import SecureTransfer.Receiver.IdleRounds
import SecureTransfer.Sender.EndsLast
import SecureTransfer.Transfer.Delivery

set_option autoImplicit false

/-! # Giving up on a block that is still being sent

The retry rounds of a block are counted on the receiver's clock, whatever the sender does meanwhile;
so if the sender stops in the middle of a block for long enough, the ack manager gives the block up
and the sender drops the rest of it (`given_up_unsent`). But without the `BlockEnd` a retry round
takes the idle timeout, and the `BlockEnd` comes last (`waited_of_unsent`). -/

namespace SecureTransfer.Transfer

open Sender Receiver

variable {setup : Setup} {upload : Upload setup.expectedChunks} {ls : List Label} {w : World}
  {inputs : List LoopInput} {labels : List Receiver.Label} {m : Manager} {c c' : EncryptedChunk}
  {b : UInt32}

/-- The packet of the chunk has not been sent. -/
def World.Unsent (w : World) (c : EncryptedChunk) : Prop :=
  c.packet ∉ sentDatagrams w.sender

instance (w : World) (c : EncryptedChunk) : Decidable (w.Unsent c) :=
  inferInstanceAs (Decidable (c.packet ∉ _))

/-- The time `MAX_BLOCK_RETRY_ROUNDS` retry rounds and one more take at least. -/
def patience : ℕ := (maxBlockRetryRounds + 1) * idleTimeout

/-! ## Packets and chunks -/

theorem Upload.not_blockEnd {total : UInt32} (upload : Upload total) (hc : c ∈ upload.chunks)
    (b n : UInt32) : c.packet ≠ BlockEndPacket.encode b n := by
  intro heq
  obtain ⟨hash, payload, hincoming⟩ := upload.incoming hc
  rw [heq, Incoming.ofDatagram_blockEnd] at hincoming
  cases hincoming

/-- There is one chunk of the upload for a position. -/
theorem Upload.eq_of_blockOf {total : UInt32} (upload : Upload total) (hc : c ∈ upload.chunks)
    (hc' : c' ∈ upload.chunks) (h : blockOf c.chunkId = blockOf c'.chunkId) : c = c' :=
  List.inj_on_of_nodup_map upload.distinct hc hc' (blockOf_injective h)

/-- And one for a packet. -/
theorem Upload.eq_of_packet {total : UInt32} (upload : Upload total) (hc : c ∈ upload.chunks)
    (hc' : c' ∈ upload.chunks) (h : c.packet = c'.packet) : c = c' := by
  obtain ⟨hash, payload, hincoming⟩ := upload.incoming hc
  obtain ⟨hash', payload', hincoming'⟩ := upload.incoming hc'
  rw [h, hincoming'] at hincoming
  simp only [Incoming.data.injEq, DecodedDataPacket.mk.injEq] at hincoming
  exact upload.eq_of_blockOf hc hc' (Prod.ext hincoming.1.symm hincoming.2.1.symm)

theorem Parties.handled_mem (h : Parties setup upload ls w inputs labels)
    (hc : c ∈ handledChunks inputs) : c ∈ upload.chunks :=
  h.chunks.mem_iff.1 (List.mem_append_left _ (List.mem_append_left _ hc))

/-- The packet of a chunk that waits in the event channel has not been sent. -/
theorem Parties.unsent_of_pending (h : Parties setup upload ls w inputs labels)
    (hc : SenderEvent.chunk c ∈ w.events) : w.Unsent c := by
  intro hsent
  obtain ⟨m, hm, hbooks⟩ := h.books
  have hpending : c ∈ w.events.filterMap SenderEvent.chunk? := List.mem_filterMap.2 ⟨_, hc, rfl⟩
  have hupload : c ∈ upload.chunks :=
    h.chunks.mem_iff.1 (List.mem_append_left _ (List.mem_append_right _ hpending))
  rw [Parties.sent_eq hm] at hsent
  obtain ⟨b, _, ⟨c', hc', _, hpacket⟩ | ⟨_, heq⟩⟩ := hbooks.sent _ hsent
  · -- the manager would have handled the chunk already
    obtain rfl := upload.eq_of_packet (h.handled_mem hc') hupload hpacket
    have hnodup := h.chunks.nodup_iff.2 upload.distinct.of_map
    rw [List.append_assoc, List.nodup_append] at hnodup
    exact hnodup.2.2 _ hc' _ (List.mem_append_left _ hpending) rfl
  · exact upload.not_blockEnd hupload _ _ heq

/-- Once the `BlockEnd` of a block has been sent, so have its packets. -/
theorem Parties.sent_of_blockEnd (h : Parties setup upload ls w inputs labels) {n : UInt32}
    (hend : BlockEndPacket.encode (EncryptedChunk.block c) n ∈ sentDatagrams w.sender)
    (hc : c ∈ upload.chunks) : ¬ w.Unsent c := by
  obtain ⟨m, hm, _⟩ := h.books
  have hlast : EndsLast setup.expectedChunks {c | c ∈ upload.chunks} m :=
    endsLast_of_reaches h.sender (fun c hc => upload.not_blockEnd hc)
      (fun c hc => h.handled_mem hc) hm
  rw [Parties.sent_eq hm] at hend
  obtain ⟨c', hc', hblock, hindex, hsent⟩ :=
    hlast.ends _ n hend _ (blockOf_snd_lt (upload.below c hc))
  obtain rfl : c' = c :=
    upload.eq_of_blockOf hc' hc (Prod.ext hblock (UInt16.toNat_inj.1 hindex))
  rw [World.Unsent, Parties.sent_eq hm, not_not]
  exact hsent

/-! ## The receiver's share of a run -/

theorem receiver_reaches (hrun : (transfer setup upload).Reaches ls w) :
    (Receiver.receiver setup).Reaches (receiverLabels ls) w.receiver :=
  (Parties.of_reaches hrun).receiver

/-- The sender only ever adds to what it has sent. -/
theorem sent_extend (hrun : (transfer setup upload).Reaches ls w) {l : Label} {w' : World}
    (hstep : World.step setup l w = some w') : sentDatagrams w.sender <+: sentDatagrams w'.sender := by
  obtain ⟨_, _, h⟩ := parties_of_reaches (hrun.snoc trivial hstep)
  obtain ⟨m', hm', _⟩ := h.books
  -- only the manager sends
  cases World.move_of_step hstep with
  | sender _ hmove => exact sentDatagrams_extend (Loop.turn_of_step hmove) hm'
  | _ => exact List.prefix_rfl

/-- What has been delivered has been sent. -/
theorem sent_of_delivered (hrun : (transfer setup upload).Reaches ls w) {d : Datagram}
    (hd : Receiver.Label.datagram d ∈ receiverLabels ls) : d ∈ sentDatagrams w.sender := by
  refine hrun.history (P := fun ls w => Receiver.Label.datagram d ∈ receiverLabels ls →
    d ∈ sentDatagrams w.sender) nofun ?_ hd
  intro ls w l w' hrun ih _ hstep hd
  have hsub := (sent_extend hrun hstep).subset
  rw [receiverLabels_snoc, List.mem_append] at hd
  rcases hd with hold | hnew
  · exact hsub (ih hold)
  · obtain ⟨_, _, h⟩ := parties_of_reaches hrun
    cases World.move_of_step hstep with
    | receiver hlocal _ =>
        cases List.mem_singleton.1 hnew
        cases hlocal
    | deliver hwire _ =>
        cases List.mem_singleton.1 hnew
        exact hsub (h.wire d hwire)
    | _ => cases hnew

/-! ## Patience -/

/-- Before the last packet of a block has been sent, the receiver has no `BlockEnd` for it, and so it
    only gives the block up after a long wait. -/
theorem waited_of_unsent (hrun : (transfer setup upload).Reaches ls w) (hc : c ∈ upload.chunks)
    (hunsent : w.Unsent c) (hgives : w.receiver.control.ack.GivesUp (EncryptedChunk.block c)) :
    Waited (EncryptedChunk.block c) patience (receiverLabels ls) := by
  obtain ⟨inputs, labels, h⟩ := parties_of_reaches hrun
  obtain ⟨m, hm, _⟩ := h.books
  obtain ⟨snapshot, rest, hpc, _, hrounds⟩ := hgives
  have hreceiver := receiver_reaches hrun
  refine (waited_of_acking hreceiver hpc fun entry ht => ?_).mono
    (Nat.mul_le_mul_right _ hrounds)
  rw [← Bool.not_eq_true]
  -- a `BlockEnd` the receiver has seen was sent behind the packets
  intro hseen
  obtain ⟨d, n, hd, hblock⟩ := endSeen_of_reaches hreceiver _ entry ht hseen
  have hsent := sent_of_delivered hrun hd
  rcases h.sent hm hsent with ⟨c', hc', rfl, _⟩ | ⟨b, _, _, rfl⟩
  · obtain ⟨hash, payload, hincoming⟩ := upload.incoming hc'
    rw [hincoming] at hblock
    cases hblock
  · rw [Incoming.ofDatagram_blockEnd] at hblock
    cases hblock
    exact h.sent_of_blockEnd hsent hc hunsent

/-! ## What the sender drops -/

/-- A block given up on has been in the give-up branch. -/
theorem gaveUp_of_reaches (hrun : (transfer setup upload).Reaches ls w)
    (hb : b ∈ w.receiver.control.gaveUp) :
    ∃ ls₀ w₀, ls₀ <+: ls ∧ (transfer setup upload).Reaches ls₀ w₀ ∧
      w₀.receiver.control.ack.GivesUp b ∧ sentDatagrams w₀.sender ⊆ sentDatagrams w.sender := by
  refine hrun.history (P := fun ls w => b ∈ w.receiver.control.gaveUp → ∃ ls₀ w₀, ls₀ <+: ls ∧
    (transfer setup upload).Reaches ls₀ w₀ ∧ w₀.receiver.control.ack.GivesUp b ∧
      sentDatagrams w₀.sender ⊆ sentDatagrams w.sender) (by simp [transfer, Threads.init, Control.init])
    ?_ hb
  intro ls w l w' hrun ih _ hstep hb
  have hsub := (sent_extend hrun hstep).subset
  have hbefore : b ∈ w.receiver.control.gaveUp ∨ w.receiver.control.ack.GivesUp b := by
    cases World.move_of_step hstep with
    | receiver _ hmove => exact (Threads.turn_of_step hmove).gaveUp hb
    | @deliver _ d _ _ hmove => exact (Threads.turn_of_step (l := .datagram d) hmove).gaveUp hb
    | _ => exact .inl hb
  rcases hbefore with hold | hgives
  · obtain ⟨ls₀, w₀, hprefix, hreaches, hgives, hsent⟩ := ih hold
    exact ⟨ls₀, w₀, hprefix.trans (List.prefix_append _ _), hreaches, hgives,
      List.Subset.trans hsent hsub⟩
  · exact ⟨ls, w, List.prefix_append _ _, hrun, hgives, hsub⟩

/-- A chunk whose block is resolved at the sender before the chunk has been sent: the block has been
    given up. -/
theorem Parties.gaveUp_of_resolved (h : Parties setup upload ls w inputs labels)
    (hm : w.sender.manager? = some m) (hc : c ∈ upload.chunks) (hunsent : w.Unsent c)
    (hresolved : m.Resolved (EncryptedChunk.block c)) :
    EncryptedChunk.block c ∈ w.receiver.control.gaveUp := by
  have hhandled := (h.resolved hm).1 hresolved
  have hacks : .complete (EncryptedChunk.block c) ∈ w.receiver.control.acks.take w.acksRead := by
    rw [← h.acks]
    exact List.mem_append_left _ hhandled
  by_contra hkept
  -- then all packets of the block have been verified, and that of the chunk has arrived
  obtain ⟨_, hwhole⟩ := (completeInv_of_run h.entriesFit).written _ (List.mem_of_mem_take hacks) hkept
  obtain ⟨p, hp, hmarked⟩ := hwhole _ (blockOf_snd_lt (upload.below c hc))
  obtain ⟨_, ⟨d, pkt, hd, hdata, rfl⟩, _, hmark⟩ := (flow_of_reaches h.receiver).marks _ hmarked
  have hsent := h.arrived_sent hd
  rcases h.sent hm hsent with ⟨c', hc', rfl, _⟩ | ⟨b, _, _, rfl⟩
  · obtain ⟨hash, payload, hincoming⟩ := upload.incoming hc'
    rw [hincoming] at hdata
    cases hdata
    have hsame : c' = c := by
      refine upload.eq_of_blockOf hc' hc (Prod.ext ?_ ?_)
      · exact (congrArg Prod.fst hmark).symm
      · rw [← UInt16.toNat_inj.1 hp]
        exact (congrArg Prod.snd hmark).symm
    rw [hsame] at hsent
    exact hunsent hsent
  · rw [Incoming.ofDatagram_blockEnd] at hdata
    cases hdata

/-- **No early give-up.** The ack manager gives up a block of which the sender has packets not yet
    sent only when `patience` has passed since a datagram of the block arrived; and a chunk whose
    block is resolved when the manager comes to it, so that it is dropped, is one of a block given
    up in that way. -/
theorem give_up_unsent (hrun : (transfer setup upload).Reaches ls w) (hc : c ∈ upload.chunks)
    (hm : w.sender.manager? = some m) :
    (w.Unsent c → w.receiver.control.ack.GivesUp (EncryptedChunk.block c) →
      Waited (EncryptedChunk.block c) patience (receiverLabels ls)) ∧
    (.chunk c ∈ w.events → m.Resolved (EncryptedChunk.block c) →
      w.Unsent c ∧ ∃ ls₀ w₀, ls₀ <+: ls ∧ (transfer setup upload).Reaches ls₀ w₀ ∧
        w₀.Unsent c ∧ w₀.receiver.control.ack.GivesUp (EncryptedChunk.block c) ∧
        Waited (EncryptedChunk.block c) patience (receiverLabels ls₀)) := by
  refine ⟨waited_of_unsent hrun hc, fun hpending hresolved => ?_⟩
  obtain ⟨inputs, labels, h⟩ := parties_of_reaches hrun
  have hunsent := h.unsent_of_pending hpending
  obtain ⟨ls₀, w₀, hprefix, hreaches, hgives, hsub⟩ :=
    gaveUp_of_reaches hrun (h.gaveUp_of_resolved hm hc hunsent hresolved)
  have hunsent₀ : w₀.Unsent c := fun hsent => hunsent (hsub hsent)
  exact ⟨hunsent, ls₀, w₀, hprefix, hreaches, hunsent₀, hgives,
    waited_of_unsent hreaches hc hunsent₀ hgives⟩

/-- The packet of the first chunk. -/
def firstPacket : EncryptedChunk :=
  twoChunks.encrypt ⟨0, List.replicate 1400 7⟩

/-- The second chunk is encrypted before the first, sent and received; the first is still with its
    encryption worker when the ack manager has lost its patience. -/
def pausedRun : List Label :=
  ([.chunkRelay secondPacket, .sender .drain, .sender (.event (.chunk secondPacket)),
    .receiver .udpLoop, .deliver secondPacket.packet] : List Label) ++
    (([.udpSend, .workerRecv 0, .workerMark 0, .workerSend 0, .writerRecv] : List Receiver.Label) ++
      (List.replicate maxBlockRetryRounds ([.tick (fromMillis 100), .ack (.poll [0]), .ack .next,
        .ack .write, .ack .next] : List Receiver.Label)).flatten ++
      ([.tick (fromMillis 100), .ack (.poll [0]), .ack .next] : List Receiver.Label)).map .receiver

/-- The manager handles the acks and returns. -/
def returnedRun : List Label :=
  ([.receiver (.ack .write)] : List Label) ++
    List.replicate (maxBlockRetryRounds + 1) .ackRelay ++
    (List.replicate maxBlockRetryRounds ([.sender .drain,
      .sender (.event (.ack (.missing 0 [0])))] : List Label)).flatten ++
    ([.sender .drain, .sender (.event (.ack (.complete 0))), .sender .drain] : List Label)

theorem firstPacket_mem : firstPacket ∈ twoChunks.upload.chunks :=
  twoChunks.mem_upload.2 ⟨⟨0, List.replicate 1400 7⟩, by decide +kernel, rfl⟩

theorem give_up_unsent_twoChunks :
    ∃ w, (transfer twoChunks.setup twoChunks.upload).Reaches pausedRun w ∧
      Waited 0 patience (receiverLabels pausedRun) := by
  obtain ⟨w, hw, hunsent, hgives⟩ := Lts.exists_exec
    (transfer twoChunks.setup twoChunks.upload) pausedRun
    (fun w => w.Unsent firstPacket ∧ w.receiver.control.ack.GivesUp 0) (by decide +kernel)
  have hrun := Lts.reaches_of_exec hw
  obtain ⟨inputs, labels, h⟩ := parties_of_reaches hrun
  obtain ⟨m, hm, _⟩ := h.books
  exact ⟨w, hrun, (give_up_unsent hrun firstPacket_mem hm).1 hunsent hgives⟩

/-- **Giving up on a pause.** Nothing is lost and the sender is still to send the first packet when
    the ack manager gives the block up; the manager then returns `Ok` without having sent it. -/
theorem gives_up_while_sending :
    ∃ ls ls' w w', (transfer twoChunks.setup twoChunks.upload).Reaches ls w ∧
      (transfer twoChunks.setup twoChunks.upload).Reaches (ls ++ ls') w' ∧
      (∀ d, Label.lose d ∉ ls ++ ls') ∧ firstPacket ∈ twoChunks.upload.chunks ∧
      w.Unsent firstPacket ∧
      w.receiver.control.ack.GivesUp (EncryptedChunk.block firstPacket) ∧
      w'.Unsent firstPacket ∧ ∃ m bytes, w'.sender = .returned m (.ok bytes) := by
  obtain ⟨w, hw, hunsent, hgives⟩ := Lts.exists_exec
    (transfer twoChunks.setup twoChunks.upload) pausedRun
    (fun w => w.Unsent firstPacket ∧ w.receiver.control.ack.GivesUp 0) (by decide +kernel)
  obtain ⟨w', hw', hunsent', hreturned⟩ := Lts.exists_exec
    (transfer twoChunks.setup twoChunks.upload) (pausedRun ++ returnedRun)
    (fun w => w.Unsent firstPacket ∧ w.sender.bytesSent? = some 1) (by decide +kernel)
  obtain ⟨m, hm⟩ := Loop.returned_of_bytesSent hreturned
  exact ⟨_, _, w, w', Lts.reaches_of_exec hw, Lts.reaches_of_exec hw',
    by simp [pausedRun, returnedRun, List.mem_flatten, List.mem_replicate], firstPacket_mem,
    hunsent, hgives, hunsent', m, 1, hm⟩

end SecureTransfer.Transfer
