import SecureTransfer.Sender.ManagerRuns

set_option autoImplicit false

/-! # A `BlockEnd` comes last

The manager sends the `BlockEnd` of a block only when every packet of the block has been sent once:
a packet is sent when it enters the cache, and the `BlockEnd` goes out when the cache is full. Here
`S` is a set of chunks that has all those the manager handles. -/

namespace SecureTransfer.Sender

variable {totalChunks : UInt32} {pipelineDepth : ℕ} {S : Set EncryptedChunk} {m m' : Manager}
  {udp udp' : List Datagram}

/-! ## The invariant -/

/-- Every packet of the block is one of `udp`. -/
def SentAll (totalChunks : UInt32) (S : Set EncryptedChunk) (udp : List Datagram)
    (blockId : UInt32) : Prop :=
  ∀ i < packetsInBlock blockId totalChunks, ∃ c ∈ S,
    EncryptedChunk.block c = blockId ∧ EncryptedChunk.index c = i ∧ c.packet ∈ udp

/-- An `Open` entry of block `blockId` whose cached packets have been sent. -/
structure EntrySent (totalChunks : UInt32) (S : Set EncryptedChunk) (udp : List Datagram)
    (blockId : UInt32) (entry : BlockState) : Prop where
  total : entry.total = packetsInBlock blockId totalChunks
  length : entry.packets.length = entry.total
  cached : ∀ (i : ℕ) (packet : Bytes), entry.packets[i]? = some (some packet) → ∃ c ∈ S,
    EncryptedChunk.block c = blockId ∧ EncryptedChunk.index c = i ∧ c.packet = packet ∧
      packet ∈ udp
  full : entry.endEmitted = true → entry.allCached = true

def BlockSlot.Sent (totalChunks : UInt32) (S : Set EncryptedChunk) (udp : List Datagram)
    (blockId : UInt32) : BlockSlot → Prop
  | .pending bucket => ∀ c ∈ bucket, c ∈ S
  | .opened entry => EntrySent totalChunks S udp blockId entry
  | .resolved => True

structure EndsLast (totalChunks : UInt32) (S : Set EncryptedChunk) (m : Manager) : Prop where
  data : ∀ c ∈ S, ∀ b n, c.packet ≠ BlockEndPacket.encode b n
  slots : ∀ b slot, m.blockStates.lookup b = some slot → slot.Sent totalChunks S m.udp b
  ends : ∀ b n, BlockEndPacket.encode b n ∈ m.udp → SentAll totalChunks S m.udp b

theorem SentAll.mono {b : UInt32} (h : SentAll totalChunks S udp b) (hsub : udp ⊆ udp') :
    SentAll totalChunks S udp' b := by
  intro i hi
  obtain ⟨c, hc, hblock, hindex, hmem⟩ := h i hi
  exact ⟨c, hc, hblock, hindex, hsub hmem⟩

theorem EntrySent.mono {b : UInt32} {entry : BlockState} (h : EntrySent totalChunks S udp b entry)
    (hsub : udp ⊆ udp') : EntrySent totalChunks S udp' b entry :=
  { h with cached := fun i packet hp =>
      let ⟨c, hc, hblock, hindex, hpacket, hmem⟩ := h.cached i packet hp
      ⟨c, hc, hblock, hindex, hpacket, hsub hmem⟩ }

theorem BlockSlot.Sent.mono {b : UInt32} {slot : BlockSlot} (h : slot.Sent totalChunks S udp b)
    (hsub : udp ⊆ udp') : slot.Sent totalChunks S udp' b := by
  cases slot with
  | pending bucket => exact h
  | opened entry => exact EntrySent.mono h hsub
  | resolved => trivial

theorem BlockState.allCached_iff {entry : BlockState} (h : entry.packets.length = entry.total) :
    entry.allCached = true ↔ ∀ p ∈ entry.packets, p.isSome = true := by
  rw [BlockState.allCached, ← h, List.take_length, List.all_eq_true]

/-- A full cache means that all packets of the block have been sent. -/
theorem EntrySent.sentAll {b : UInt32} {entry : BlockState}
    (h : EntrySent totalChunks S udp b entry) (hfull : entry.allCached = true) :
    SentAll totalChunks S udp b := by
  intro i hi
  rw [← h.total, ← h.length] at hi
  have hsome := (BlockState.allCached_iff h.length).1 hfull _ (List.getElem_mem hi)
  obtain ⟨packet, hpacket⟩ := Option.isSome_iff_exists.1 hsome
  obtain ⟨c, hc, hblock, hindex, rfl, hmem⟩ := h.cached i packet (by
    rw [List.getElem?_eq_getElem hi, hpacket])
  exact ⟨c, hc, hblock, hindex, hmem⟩

/-! ## The functions -/

/-- A block is rebound and datagrams are sent, a `BlockEnd` only for a full cache. -/
theorem EndsLast.rebind (h : EndsLast totalChunks S m) (blockId : UInt32) (slot' : BlockSlot)
    {out : List Datagram} (hstates : m'.blockStates = m.blockStates.insert blockId slot')
    (hudp : m'.udp = m.udp ++ out) (hslot : slot'.Sent totalChunks S m'.udp blockId)
    (hends : ∀ b n, BlockEndPacket.encode b n ∈ out →
      b = blockId ∧ ∃ entry, slot' = .opened entry ∧ entry.allCached = true) :
    EndsLast totalChunks S m' := by
  have hsub : m.udp ⊆ m'.udp := hudp ▸ List.subset_append_left _ _
  refine ⟨h.data, fun b slot hl => ?_, fun b n hmem => ?_⟩
  · rw [hstates, AList.lookup_insert_ite] at hl
    split at hl
    · next hb => cases hl; exact hb ▸ hslot
    · exact (h.slots b slot hl).mono hsub
  · rw [hudp, List.mem_append] at hmem
    rcases hmem with hold | hnew
    · exact (h.ends b n hold).mono hsub
    · obtain ⟨rfl, entry, rfl, hfull⟩ := hends b n hnew
      exact EntrySent.sentAll hslot hfull

/-- The entry with one more packet cached and sent. -/
theorem EntrySent.place {c : EncryptedChunk} {entry entry' : BlockState}
    (h : EntrySent totalChunks S udp (EncryptedChunk.block c) entry) (hc : c ∈ S)
    (hsub : udp ⊆ udp') (hmem : c.packet ∈ udp') (htotal : entry'.total = entry.total)
    (hpackets : entry'.packets = entry.packets.set (EncryptedChunk.index c) (some c.packet))
    (hfull : entry'.endEmitted = true → entry'.allCached = true) :
    EntrySent totalChunks S udp' (EncryptedChunk.block c) entry' where
  total := htotal.trans h.total
  length := by rw [hpackets, List.length_set, h.length, htotal]
  cached := by
    intro i packet hp
    rw [hpackets, List.getElem?_set] at hp
    split at hp
    · next hi =>
        split at hp
        · cases hp
          exact ⟨c, hc, rfl, hi, rfl, hmem⟩
        · cases hp
    · exact (h.mono hsub).cached i packet hp
  full := hfull

theorem EndsLast.placeChunk (h : EndsLast totalChunks S m) {c : EncryptedChunk} (hc : c ∈ S)
    (hok : Sender.placeChunk (EncryptedChunk.block c) (blockOf c.chunkId).2 c m = .ok m') :
    EndsLast totalChunks S m' := by
  unfold Sender.placeChunk at hok
  split at hok
  · next entry hl =>
      have hentry : EntrySent totalChunks S m.udp (EncryptedChunk.block c) entry := h.slots _ _ hl
      split at hok
      · dsimp only at hok
        split at hok
        · split at hok
          -- the packet that makes the cache full, and behind it the `BlockEnd`
          · next hcached =>
              cases hok
              refine h.rebind (EncryptedChunk.block c) (.opened _) rfl (List.append_assoc _ _ _)
                (hentry.place hc ?_ ?_ rfl rfl fun _ => hcached) ?_
              · rw [Manager.setSlot, Manager.send, Manager.send, List.append_assoc]
                exact List.subset_append_left _ _
              · simp [Manager.setSlot, Manager.send]
              · intro b n hmem
                rcases List.mem_pair.1 hmem with heq | heq
                · exact absurd heq.symm (h.data c hc b n)
                · exact ⟨(BlockEndPacket.encode_inj heq).1, _, rfl, hcached⟩
          · cases hok
        · cases hok
          refine h.rebind (EncryptedChunk.block c) (.opened _) rfl rfl
            (hentry.place hc (List.subset_append_left _ _) ?_ rfl rfl fun hend => ?_) ?_
          · simp [Manager.setSlot, Manager.send]
          · -- the entry has been full before
            have hfull := (BlockState.allCached_iff hentry.length).1 (hentry.full hend)
            refine (BlockState.allCached_iff ?_).2 fun p hp => ?_
            · rw [List.length_set, hentry.length]
            · rcases List.mem_or_eq_of_mem_set hp with hold | rfl
              · exact hfull p hold
              · rfl
          · intro b n hmem
            exact absurd (List.mem_singleton.1 hmem).symm (h.data c hc b n)
      · cases hok
  · cases hok

theorem EndsLast.openBlock (h : EndsLast totalChunks S m) (blockId : UInt32) :
    EndsLast totalChunks S (m.openBlock totalChunks blockId) := by
  refine h.rebind blockId (.opened _) rfl (List.append_nil _).symm ⟨rfl, ?_, ?_, nofun⟩ nofun
  · simp [BlockState.new]
  · intro i packet hp
    have := (List.mem_replicate.1 (List.mem_of_getElem? hp)).2
    simp at this

theorem EndsLast.buffer (h : EndsLast totalChunks S m) (blockId : UInt32)
    {bucket : List EncryptedChunk} (hbucket : ∀ c ∈ bucket, c ∈ S) :
    EndsLast totalChunks S (m.setSlot blockId (.pending bucket)) :=
  h.rebind blockId (.pending bucket) rfl (List.append_nil _).symm hbucket nofun

theorem EndsLast.admitOrBuffer (h : EndsLast totalChunks S m) {c : EncryptedChunk} (hc : c ∈ S)
    (hok : Sender.admitOrBuffer totalChunks pipelineDepth c m = .ok m') :
    EndsLast totalChunks S m' := by
  cases admission_of_ok hok with
  | drop => exact h
  | place _ hplace => exact h.placeChunk hc hplace
  | @append bucket hl =>
      refine h.buffer _ fun c' hc' => ?_
      rcases List.mem_append.1 hc' with hold | hnew
      · exact (h.slots _ _ hl : ∀ c ∈ bucket, c ∈ S) c' hold
      · exact List.mem_singleton.1 hnew ▸ hc
  | openBlock _ _ hplace => exact (h.openBlock _).placeChunk hc hplace
  | buffer => exact h.buffer _ fun c' hc' => List.mem_singleton.1 hc' ▸ hc

theorem EndsLast.placeBucket {nextId : UInt32} {bucket : List EncryptedChunk}
    (h : EndsLast totalChunks S m) (hbucket : ∀ c ∈ bucket, c ∈ S)
    (hok : Sender.placeBucket nextId bucket m = .ok m') : EndsLast totalChunks S m' := by
  refine placeBucket_rule (P := fun bucket m m' => EndsLast totalChunks S m →
    (∀ c ∈ bucket, c ∈ S) → EndsLast totalChunks S m') (fun m h _ => h) ?_ hok h hbucket
  rintro c bucket m mid m' rfl hplace ih h hbucket
  obtain ⟨hc, hrest⟩ := List.forall_mem_cons.1 hbucket
  exact ih (h.placeChunk hc hplace) hrest

theorem EndsLast.openPending {nextId : UInt32} (h : EndsLast totalChunks S m)
    (hok : Sender.openPending totalChunks nextId m = .ok m') : EndsLast totalChunks S m' := by
  obtain ⟨bucket, hl, hplace⟩ := openPending_inv hok
  have htaken : EndsLast totalChunks S (m.takeBucket nextId) := by
    refine ⟨h.data, fun b slot hslot => ?_, h.ends⟩
    rw [AList.lookup_erase_ite] at hslot
    split at hslot
    · cases hslot
    · exact h.slots b slot hslot
  exact (htaken.openBlock nextId).placeBucket (h.slots _ _ hl) hplace

theorem EndsLast.drainRounds {room : ℕ} (h : EndsLast totalChunks S m)
    (hok : Sender.drainRounds totalChunks room m = .ok m') : EndsLast totalChunks S m' :=
  drainRounds_ok_rule (P := fun _ m m' => EndsLast totalChunks S m → EndsLast totalChunks S m')
    (fun _ _ _ h => h) (fun _ _ _ _ _ _ hopen ih h => ih (h.openPending hopen)) hok h

/-- A packet from the cache of a block is not a `BlockEnd`. -/
theorem EntrySent.not_end (hdata : ∀ c ∈ S, ∀ b n, c.packet ≠ BlockEndPacket.encode b n)
    {blockId b n : UInt32} {entry : BlockState} (h : EntrySent totalChunks S udp blockId entry) :
    some (BlockEndPacket.encode b n) ∉ entry.packets := by
  intro hmem
  obtain ⟨i, hi⟩ := List.mem_iff_getElem?.1 hmem
  obtain ⟨c, hc, _, _, hpacket, _⟩ := h.cached i _ hi
  exact hdata c hc b n hpacket

theorem EndsLast.handleMissing (h : EndsLast totalChunks S m) (blockId : UInt32)
    (missing : List UInt16) :
    EndsLast totalChunks S (Sender.handleMissing blockId missing m) := by
  obtain ⟨heq, -⟩ | ⟨entry, hl, heq⟩ := handleMissing_cases blockId missing m
  · rw [heq]
    exact h
  · rw [heq]
    have hentry : EntrySent totalChunks S m.udp blockId entry := h.slots _ _ hl
    refine h.rebind blockId (.opened _) rfl rfl ?_ fun b n hmem => ?_
    · exact { hentry.mono (List.subset_append_left _ _) with full := hentry.full }
    · obtain ⟨id, _, hid⟩ := List.mem_filterMap.1 hmem
      have hcached : entry.packets[id.toNat]? = some (some (BlockEndPacket.encode b n)) := by
        simpa [Option.join_eq_some_iff] using hid
      exact absurd (List.mem_of_getElem? hcached) (hentry.not_end h.data)

theorem EndsLast.retransmitStale (h : EndsLast totalChunks S m) (now : Instant)
    (blockId : UInt32) : EndsLast totalChunks S (Sender.retransmitStale now m blockId) := by
  obtain heq | ⟨entry, hl, hended, -, heq⟩ := retransmitStale_cases now m blockId
  · rw [heq]
    exact h
  · rw [heq]
    have hentry : EntrySent totalChunks S m.udp blockId entry := h.slots _ _ hl
    refine h.rebind blockId (.opened _) rfl rfl ?_ fun b n hmem => ?_
    · exact { hentry.mono (List.subset_append_left _ _) with full := hentry.full }
    -- another `BlockEnd` only goes out for a block that has had one
    · rcases List.mem_append.1 hmem with hcached | hblockEnd
      · obtain ⟨p, hp, rfl⟩ := List.mem_filterMap.1 hcached
        exact absurd hp (hentry.not_end h.data)
      · exact ⟨(BlockEndPacket.encode_inj (List.mem_singleton.1 hblockEnd)).1, _, rfl,
          hentry.full hended⟩

theorem EndsLast.retransmitStaleBlocks (h : EndsLast totalChunks S m) (order : List UInt32) :
    EndsLast totalChunks S (Sender.retransmitStaleBlocks order m) :=
  retransmitStaleBlocks_rule (fun now b _ h => h.retransmitStale now b) order h

theorem EndsLast.handleEvent {e : SenderEvent} (h : EndsLast totalChunks S m)
    (hchunk : ∀ c, e = .chunk c → c ∈ S)
    (hok : Sender.handleEvent totalChunks pipelineDepth e m = .ok m') :
    EndsLast totalChunks S m' := by
  cases e with
  | chunk c => exact h.admitOrBuffer (hchunk c rfl) hok
  | ack ack =>
      cases ack with
      | missing blockId missing =>
          cases hok
          exact h.handleMissing blockId missing
      | complete blockId =>
          rcases handleComplete_inv hok with ⟨_, rfl⟩ | ⟨_, hstates, _, hudp, _⟩
          · exact h
          · have hnone : m'.udp = m.udp ++ [] := by rw [hudp, List.append_nil]
            exact h.rebind blockId .resolved hstates hnone trivial nofun

/-! ## Along a run -/

theorem EndsLast.move {l : LoopInput} (h : EndsLast totalChunks S m)
    (hmove : ManagerMove totalChunks pipelineDepth l m m')
    (hchunk : ∀ c, l.chunk? = some c → c ∈ S) : EndsLast totalChunks S m' := by
  cases hmove with
  | drain _ hdrain => exact h.drainRounds hdrain
  | event hevent =>
      refine h.handleEvent (fun c hc => hchunk c ?_) hevent
      rw [hc, LoopInput.chunk?]
  | timeout => exact h.retransmitStaleBlocks _
  | tick => exact { h with }

/-- **Run lemma.** If all chunks handled are in `S` and none of them looks like a `BlockEnd`, then a
    `BlockEnd` is sent after all packets of its block. -/
theorem endsLast_of_reaches {ls : List LoopInput} {s : Loop}
    (hrun : (blockManager totalChunks pipelineDepth).Reaches ls s)
    (hdata : ∀ c ∈ S, ∀ b n, c.packet ≠ BlockEndPacket.encode b n)
    (hchunks : ∀ c ∈ handledChunks ls, c ∈ S) (hm : s.manager? = some m) :
    EndsLast totalChunks S m := by
  refine hrun.history (P := fun ls s => (∀ c ∈ handledChunks ls, c ∈ S) →
    ∀ m, s.manager? = some m → EndsLast totalChunks S m) ?_ ?_ hchunks m hm
  · intro _ m hm
    cases hm
    exact ⟨hdata, nofun, nofun⟩
  · intro ls s l s' _ ih _ hstep hchunks m' hm'
    rw [handledChunks_snoc] at hchunks
    obtain ⟨m, hm, hmove⟩ := (Loop.turn_of_step hstep).managerMove hm'
    have hbefore := ih (fun c hc => hchunks c (List.mem_append_left _ hc)) m hm
    refine hbefore.move hmove fun c hc => hchunks c (List.mem_append_right _ ?_)
    simp [hc]

end SecureTransfer.Sender
