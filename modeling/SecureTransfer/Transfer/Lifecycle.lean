import SecureTransfer.Transfer.FileTransfer
import SecureTransfer.Transfer.Parties

set_option autoImplicit false

/-! # The two sides agree on the life of a block

The receiver only hears of blocks the sender has opened, and writes one `Complete` for each; so a
`Complete` on its way names a block that is `Open` at the sender, and when the last one has been
handled the manager is done. -/

namespace SecureTransfer.Transfer

open Sender Receiver

variable {setup : Setup} {upload : Upload setup.expectedChunks} {ls : List Label} {l : Label}
  {w w' : World} {inputs : List LoopInput} {labels : List Receiver.Label} {m : Manager} {b : UInt32}

/-! ## What the sender puts on the wire -/

/-- A datagram of the sender is the packet of one of its chunks, or the `BlockEnd` of a block of the
    file; either way the block has been opened. -/
theorem Parties.sent (h : Parties setup upload ls w inputs labels)
    (hm : w.sender.manager? = some m) {d : Datagram} (hd : d ∈ sentDatagrams w.sender) :
    (∃ c ∈ upload.chunks, c.packet = d ∧ m.Started (EncryptedChunk.block c)) ∨
    (∃ b < totalBlocks setup.expectedChunks, m.Started b ∧
      d = BlockEndPacket.encode b (UInt32.ofNat (packetsInBlock b setup.expectedChunks))) := by
  obtain ⟨m₀, hm₀, hbooks⟩ := h.books
  rw [hm] at hm₀
  cases hm₀
  rw [Parties.sent_eq hm] at hd
  obtain ⟨b, hstarted, ⟨c, hc, rfl, hpacket⟩ | ⟨hb, rfl⟩⟩ := hbooks.sent d hd
  · have hupload : c ∈ upload.chunks := h.chunks.mem_iff.1
      (List.mem_append_left _ (List.mem_append_left _ hc))
    exact .inl ⟨c, hupload, hpacket, hstarted⟩
  · exact .inr ⟨b, hb, hstarted, rfl⟩

/-- What the receiver makes of a packet of the upload. -/
theorem Upload.incoming {total : UInt32} (upload : Upload total) {c : EncryptedChunk}
    (hc : c ∈ upload.chunks) : ∃ hash payload, Incoming.ofDatagram c.packet
      = .data ⟨(blockOf c.chunkId).1, (blockOf c.chunkId).2, hash, payload⟩ := by
  obtain ⟨hash, payload, hlen, hpacket⟩ := upload.packet c hc
  exact ⟨hash, payload, by rw [hpacket, Incoming.ofDatagram_data _ _ _ hlen]⟩

theorem Parties.arrived_sent (h : Parties setup upload ls w inputs labels) {d : Datagram}
    (hd : Receiver.Label.datagram d ∈ labels) : d ∈ sentDatagrams w.sender := by
  rcases h.arrived _ hd with ⟨d', hd', heq⟩ | ⟨hlocal, _⟩
  · cases heq
    exact hd'
  · cases hlocal

/-- The receiver has only been told of blocks of the file which the sender has opened. -/
theorem Parties.named (h : Parties setup upload ls w inputs labels)
    (hm : w.sender.manager? = some m) (hb : b ∈ namedBlocks labels) :
    m.Started b ∧ b < totalBlocks setup.expectedChunks := by
  obtain ⟨d, hd, hblock⟩ := mem_namedBlocks.1 hb
  rcases h.sent hm (h.arrived_sent hd) with ⟨c, hc, rfl, hstarted⟩ | ⟨b', hb', hstarted, rfl⟩
  · obtain ⟨hash, payload, hincoming⟩ := upload.incoming hc
    rw [hincoming] at hblock
    cases hblock
    exact ⟨hstarted, blockOf_fst_lt (upload.below c hc)⟩
  · rw [Incoming.ofDatagram_blockEnd] at hblock
    cases hblock
    exact ⟨hstarted, hb'⟩

/-! ## One `Complete` a block -/

section Acks

variable {N : UInt32 → Prop} {total : ℕ} {c : Control}

theorem named_of_complete (h : AckInv N total c) (hb : .complete b ∈ c.acks) : N b := by
  rcases (h.complete_mem_iff b).1 hb with hb | ⟨rest, hpc⟩
  · exact h.completed b hb
  · obtain ⟨⟨entry, ht⟩, _⟩ := h.removing b rest hpc
    exact h.tracked b entry ht

theorem count_complete_le (h : AckInv N total c) (b : UInt32) :
    c.acks.count (.complete b) ≤ 1 := by
  obtain ⟨missings, tail, heq, ⟨_, hmissing⟩, htail⟩ := h.shape b
  have hcount : c.acks.count (.complete b) = (acksOf b c.acks).count (.complete b) := by
    rw [acksOf, List.count_filter (by simp [BlockAck.blockId])]
  have hnone : missings.count (.complete b) = 0 := by
    rw [List.count_eq_zero]
    intro hmem
    obtain ⟨ids, heq⟩ := hmissing _ hmem
    cases heq
  rw [hcount, heq, List.count_append, hnone]
  rcases htail with rfl | rfl <;> simp

end Acks

theorem Parties.acks_inv (h : Parties setup upload ls w inputs labels) :
    AckInv (· ∈ namedBlocks labels) (totalBlocks setup.expectedChunks).toNat w.receiver.control :=
  ackInv_of_reaches h.receiver

theorem mem_handledAcks {a : BlockAck} :
    a ∈ handledAcks inputs ↔ LoopInput.event (.ack a) ∈ inputs := by
  rw [handledAcks, List.mem_filterMap]
  constructor
  · rintro ⟨l, hl, ha⟩
    cases l with
    | event e =>
        cases e with
        | ack a' => cases ha; exact hl
        | chunk => cases ha
    | _ => cases ha
  · exact fun ha => ⟨_, ha, rfl⟩

theorem Parties.resolved (h : Parties setup upload ls w inputs labels)
    (hm : w.sender.manager? = some m) : m.Resolved b ↔ .complete b ∈ handledAcks inputs := by
  rw [(tally_of_reaches h.sender).resolved m hm b, mem_handledAcks]

/-- A `Complete` that waits in the event channel finds its block `Open`. -/
theorem Parties.opened (h : Parties setup upload ls w inputs labels)
    (hm : w.sender.manager? = some m) (hb : SenderEvent.ack (.complete b) ∈ w.events) :
    ∃ entry, m.blockStates.lookup b = some (.opened entry) := by
  have hpending : BlockAck.complete b ∈ w.events.filterMap SenderEvent.ack? :=
    List.mem_filterMap.2 ⟨_, hb, rfl⟩
  have htaken : .complete b ∈ w.receiver.control.acks.take w.acksRead := by
    rw [← h.acks]
    exact List.mem_append_right _ hpending
  have hnamed := named_of_complete h.acks_inv (List.mem_of_mem_take htaken)
  obtain ⟨⟨slot, hl, hstarted⟩, _⟩ := h.named hm hnamed
  have hunresolved : ¬ m.Resolved b := by
    intro hresolved
    have hhandled := (h.resolved hm).1 hresolved
    have hle : (handledAcks inputs ++ w.events.filterMap SenderEvent.ack?).count (.complete b)
        ≤ 1 := by
      rw [h.acks]
      exact ((List.take_sublist _ _).count_le _).trans (count_complete_le h.acks_inv b)
    rw [List.count_append] at hle
    have h₁ := List.count_pos_iff.2 hhandled
    have h₂ := List.count_pos_iff.2 hpending
    omega
  cases slot with
  | pending _ => simp [BlockSlot.isStarted] at hstarted
  | opened entry => exact ⟨entry, hl⟩
  | resolved => exact absurd hl hunresolved

/-! ## The end -/

/-- The ack manager is through and every ack has been handled: all is resolved. -/
theorem Parties.all_resolved (h : Parties setup upload ls w inputs labels)
    (hm : w.sender.manager? = some m) (hexited : w.receiver.control.ack = .exited .ok)
    (hread : w.acksRead = w.receiver.control.acks.length)
    (hevents : ∀ a, SenderEvent.ack a ∉ w.events) :
    (∀ b < totalBlocks setup.expectedChunks, m.Resolved b) ∧
      m.completed = (totalBlocks setup.expectedChunks).toNat ∧ m.openSlots = 0 := by
  obtain ⟨m₀, hm₀, hbooks⟩ := h.books
  rw [hm] at hm₀
  cases hm₀
  have hhandled : handledAcks inputs = w.receiver.control.acks := by
    have hnone : w.events.filterMap SenderEvent.ack? = [] := by
      rw [List.filterMap_eq_nil_iff]
      intro e he
      cases e with
      | chunk c => rfl
      | ack a => exact absurd he (hevents a)
    have hacks := h.acks
    rwa [hnone, List.append_nil, hread, List.take_length] at hacks
  have hiff : ∀ b, m.Resolved b ↔ b < totalBlocks setup.expectedChunks := by
    intro b
    rw [h.resolved hm, hhandled]
    constructor
    · exact fun hb => (h.named hm (named_of_complete h.acks_inv hb)).2
    · intro hb
      have hdone := (h.acks_inv.le_completed_iff fun b hb => (h.named hm hb).2).1
        (h.acks_inv.exited hexited) b hb
      exact (h.acks_inv.complete_mem_iff b).2 (.inl hdone)
  refine ⟨fun b hb => (hiff b).2 hb, ?_, ?_⟩
  · have hkeys : m.blockStates.keysWhere BlockSlot.isResolved
        = idsBelow (totalBlocks setup.expectedChunks) := by
      ext b
      rw [Manager.mem_keysWhere_isResolved, mem_idsBelow, hiff b]
    rw [hbooks.completed, ← AList.card_keysWhere, hkeys, card_idsBelow]
  · rw [hbooks.openSlots, ← AList.card_keysWhere, Finset.card_eq_zero,
      Finset.eq_empty_iff_forall_notMem]
    intro b hb
    obtain ⟨slot, hl, hopened⟩ := AList.mem_keysWhere.1 hb
    cases slot with
    | opened entry =>
        have hentry : EntryOk setup.expectedChunks _ b entry := hbooks.slots b _ hl
        have hresolved := (hiff b).2 hentry.inFile
        rw [Manager.Resolved, hl] at hresolved
        cases hresolved
    | pending _ => cases hopened
    | resolved => cases hopened

/-- The event channel never closes on a manager with blocks unresolved. -/
theorem not_returned_error (hrun : (transfer setup upload).Reaches ls w) :
    ∀ m e, w.sender ≠ .returned m (.error e) := by
  refine hrun.history (P := fun _ w => ∀ m e, w.sender ≠ .returned m (.error e))
    (fun m e hs => by cases hs) fun ls w l w' hrun ih _ hstep => ?_
  obtain ⟨inputs, labels, h⟩ := parties_of_reaches hrun
  cases World.move_of_step hstep with
  | @sender _ l s hadmits hmove =>
      intro m e hs
      have hturn := Loop.turn_of_step hmove
      have hpaced := (tally_of_reaches h.sender).paced
      change s = _ at hs
      subst hs
      generalize hsender : w.sender = s₀ at hturn hpaced
      cases hturn with
      | @disconnectedError deadline m₀ m' hdrain hmore =>
          -- the relays are through, so all acks have been handled while the manager waits
          simp only [World.admits, decide_eq_true_eq] at hadmits
          obtain ⟨hevents, _, hread, hexited⟩ := hadmits
          have hdone := (h.all_resolved (by rw [hsender]; rfl) hexited hread
            (by simp [hevents])).2.1
          exact absurd hdone (Nat.ne_of_lt hpaced)
  | _ => exact ih

/-- **Lifecycles.** At every point of every transfer a `Complete` the manager has yet to handle
    finds its block `Open`. Once the ack manager has exited and the control stream has been consumed,
    every block is resolved and counted, no slot is in use, and the manager has returned `Ok` or does
    so in its next step. -/
theorem lifecycles_agree (hrun : (transfer setup upload).Reaches ls w) :
    ∃ m, w.sender.manager? = some m ∧
      (∀ b, SenderEvent.ack (.complete b) ∈ w.events →
        ∃ entry, m.blockStates.lookup b = some (.opened entry)) ∧
      (w.receiver.control.ack = .exited .ok → w.acksRead = w.receiver.control.acks.length →
        (∀ a, SenderEvent.ack a ∉ w.events) →
        (∀ b < totalBlocks setup.expectedChunks, m.Resolved b) ∧
        m.completed = (totalBlocks setup.expectedChunks).toNat ∧ m.openSlots = 0 ∧
        ((∃ bytes, w.sender = .returned m (.ok bytes)) ∨
          ∃ m' bytes, (blockManager setup.expectedChunks pipelineDepth).step .drain w.sender
            = some (.returned m' (.ok bytes)))) := by
  obtain ⟨inputs, labels, h⟩ := parties_of_reaches hrun
  obtain ⟨m, hm, hbooks⟩ := h.books
  refine ⟨m, hm, fun b hb => h.opened hm hb, ?_⟩
  intro hexited hread hevents
  obtain ⟨hresolved, hcompleted, hopen⟩ := h.all_resolved hm hexited hread hevents
  refine ⟨hresolved, hcompleted, hopen, ?_⟩
  have hpaced := (tally_of_reaches h.sender).paced
  cases hs : w.sender with
  | head m₀ =>
      rw [hs] at hm
      cases hm
      obtain ⟨m', hdrain, _⟩ := hbooks.drainPending
      have hdone : (totalBlocks setup.expectedChunks).toNat ≤ m'.completed := by
        rw [(drainRounds_keeps hdrain).completed, hcompleted]
      refine .inr ⟨m', m'.bytesSent, ?_⟩
      simp only [blockManager, Loop.step, hdrain, Loop.orPanic, if_pos hdone]
  | wait deadline m₀ =>
      rw [hs] at hm hpaced
      cases hm
      exact absurd hcompleted (Nat.ne_of_lt hpaced)
  | returned m₀ result =>
      cases result with
      | ok bytes =>
          rw [hs] at hm
          cases hm
          exact .inl ⟨bytes, rfl⟩
      | error e => exact absurd hs (not_returned_error hrun m₀ e)
  | panicked panic => rw [hs] at hm; cases hm

/-- The transfer of a file of one block, until its `Complete` has been handled. -/
theorem lifecycles_agree_threeBytes :
    ∃ ls w m, (transfer threeBytes.setup threeBytes.upload).Reaches ls w ∧
      w.sender.manager? = some m ∧ m.Resolved 0 ∧ m.completed = 1 ∧ m.openSlots = 0 := by
  obtain ⟨w, hw, hexited, hread, hevents⟩ := Lts.exists_exec
    (transfer threeBytes.setup threeBytes.upload)
    (threeBytesSent ++ threeBytesReceived ++
      [.sender .drain, .ackRelay, .sender (.event (.ack (.complete 0)))])
    (fun w => w.receiver.control.ack = .exited .ok ∧
      w.acksRead = w.receiver.control.acks.length ∧ w.events = []) (by decide +kernel)
  have hrun := Lts.reaches_of_exec hw
  obtain ⟨m, hm, _, hend⟩ := lifecycles_agree hrun
  obtain ⟨hresolved, hcompleted, hopen, _⟩ := hend hexited hread (by simp [hevents])
  exact ⟨_, w, m, hrun, hm, hresolved 0 (by decide), hcompleted, hopen⟩

end SecureTransfer.Transfer
