import SecureTransfer.Sender.BlockManager

set_option autoImplicit false

/-! # The bookkeeping invariant of the block manager

`Bookkeeping totalChunks pipelineDepth H m` says that the slot map, the two counters and the
datagrams sent so far are in step with the set `H` of chunks the manager has taken over. Every
function of the manager rebinds one block at a time, so there is one preservation lemma for a
rebinding (`Bookkeeping.rebind`) and each function is an instance of it. -/

namespace SecureTransfer.Sender

variable {totalChunks : UInt32} {pipelineDepth : ℕ} {H H' : Set EncryptedChunk} {m m' : Manager}

/-! ## The invariant -/

/-- The block of a chunk. -/
abbrev EncryptedChunk.block (c : EncryptedChunk) : UInt32 := (blockOf c.chunkId).1

/-- The index of a chunk in the cache of its block. -/
abbrev EncryptedChunk.index (c : EncryptedChunk) : ℕ := (blockOf c.chunkId).2.toNat

/-- An `Open` entry of block `blockId` holding chunks of `H`. -/
structure EntryOk (totalChunks : UInt32) (H : Set EncryptedChunk) (blockId : UInt32)
    (entry : BlockState) : Prop where
  inFile : blockId < totalBlocks totalChunks
  total : entry.total = packetsInBlock blockId totalChunks
  length : entry.packets.length = entry.total
  sent : entry.sent = entry.packets.countP Option.isSome
  endEmitted : entry.endEmitted = true ↔ entry.sent = entry.total
  cached : ∀ (i : ℕ) (packet : Bytes), entry.packets[i]? = some (some packet) →
    ∃ c ∈ H, EncryptedChunk.block c = blockId ∧ EncryptedChunk.index c = i ∧ c.packet = packet

/-- A `Pending` bucket: nonempty, distinct chunks of `H`, all of block `blockId`. -/
structure BucketOk (H : Set EncryptedChunk) (blockId : UInt32) (bucket : List EncryptedChunk) :
    Prop where
  nonempty : bucket ≠ []
  nodup : (bucket.map EncryptedChunk.chunkId).Nodup
  mem : ∀ c ∈ bucket, c ∈ H ∧ EncryptedChunk.block c = blockId

def SlotOk (totalChunks : UInt32) (H : Set EncryptedChunk) (blockId : UInt32) : BlockSlot → Prop
  | .pending bucket => BucketOk H blockId bucket
  | .opened entry => EntryOk totalChunks H blockId entry
  | .resolved => True

/-- The chunk is cached at its own index, or buffered, or its block is done with. -/
def BlockSlot.Holds (c : EncryptedChunk) : BlockSlot → Prop
  | .pending bucket => c ∈ bucket
  | .opened entry => entry.packets[EncryptedChunk.index c]? = some (some c.packet)
  | .resolved => True

/-- The block has left `Pending`: something of it may be on the wire. -/
def BlockSlot.isStarted : BlockSlot → Bool
  | .pending _ => false
  | _ => true

def Manager.Started (m : Manager) (blockId : UInt32) : Prop :=
  ∃ slot, m.blockStates.lookup blockId = some slot ∧ slot.isStarted = true

def Manager.Resolved (m : Manager) (blockId : UInt32) : Prop :=
  m.blockStates.lookup blockId = some .resolved

/-- `d` is the datagram of a chunk of `H` in block `blockId`, or the block's `BlockEnd`. -/
def FromBlock (totalChunks : UInt32) (H : Set EncryptedChunk) (blockId : UInt32)
    (d : Datagram) : Prop :=
  (∃ c ∈ H, EncryptedChunk.block c = blockId ∧ c.packet = d) ∨
    (blockId < totalBlocks totalChunks ∧
      d = BlockEndPacket.encode blockId (UInt32.ofNat (packetsInBlock blockId totalChunks)))

/-- The chunks of `H` are chunks of the file, each with its own id. -/
structure DistinctBelow (totalChunks : UInt32) (H : Set EncryptedChunk) : Prop where
  below : ∀ c ∈ H, c.chunkId < totalChunks
  distinct : ∀ c ∈ H, ∀ c' ∈ H, c.chunkId = c'.chunkId → c = c'

structure Bookkeeping (totalChunks : UInt32) (pipelineDepth : ℕ) (H : Set EncryptedChunk)
    (m : Manager) : Prop where
  openSlots : m.openSlots = m.blockStates.countValues BlockSlot.isOpened
  openSlots_le : m.openSlots ≤ pipelineDepth
  completed : m.completed = m.blockStates.countValues BlockSlot.isResolved
  slots : ∀ blockId slot, m.blockStates.lookup blockId = some slot →
    SlotOk totalChunks H blockId slot
  chunks : DistinctBelow totalChunks H
  placed : ∀ c ∈ H, ∃ slot,
    m.blockStates.lookup (EncryptedChunk.block c) = some slot ∧ slot.Holds c
  sent : ∀ d ∈ m.udp, ∃ blockId, m.Started blockId ∧ FromBlock totalChunks H blockId d

/-! ## Monotonicity -/

theorem FromBlock.mono {blockId : UInt32} {d : Datagram}
    (hsub : ∀ c ∈ H, EncryptedChunk.block c = blockId → c ∈ H')
    (h : FromBlock totalChunks H blockId d) : FromBlock totalChunks H' blockId d :=
  h.imp (fun ⟨c, hc, hblock, hpacket⟩ => ⟨c, hsub c hc hblock, hblock, hpacket⟩) id

theorem EntryOk.mono {blockId : UInt32} {entry : BlockState}
    (hsub : ∀ c ∈ H, EncryptedChunk.block c = blockId → c ∈ H')
    (h : EntryOk totalChunks H blockId entry) : EntryOk totalChunks H' blockId entry :=
  { h with cached := fun i packet hp =>
      let ⟨c, hc, hblock, hrest⟩ := h.cached i packet hp
      ⟨c, hsub c hc hblock, hblock, hrest⟩ }

/-- A slot only depends on the chunks of its own block. -/
theorem SlotOk.mono {blockId : UInt32} {slot : BlockSlot}
    (hsub : ∀ c ∈ H, EncryptedChunk.block c = blockId → c ∈ H')
    (h : SlotOk totalChunks H blockId slot) : SlotOk totalChunks H' blockId slot := by
  cases slot with
  | pending bucket =>
      exact { h with mem := fun c hc => ⟨hsub c (h.mem c hc).1 (h.mem c hc).2, (h.mem c hc).2⟩ }
  | opened entry => exact EntryOk.mono hsub h
  | resolved => trivial

theorem DistinctBelow.empty : DistinctBelow totalChunks (∅ : Set EncryptedChunk) :=
  ⟨fun _ h => h.elim, fun _ h => h.elim⟩

theorem DistinctBelow.subset (h : DistinctBelow totalChunks H') (hsub : H ⊆ H') :
    DistinctBelow totalChunks H :=
  ⟨fun c hc => h.below c (hsub hc), fun c hc c' hc' => h.distinct c (hsub hc) c' (hsub hc')⟩

/-- Taking over one more chunk whose id is new. -/
theorem DistinctBelow.insert {c : EncryptedChunk} (h : DistinctBelow totalChunks H)
    (hbelow : c.chunkId < totalChunks) (hfresh : ∀ c' ∈ H, c'.chunkId ≠ c.chunkId) :
    DistinctBelow totalChunks (insert c H) := by
  refine ⟨fun a ha => ?_, fun a ha b hb hab => ?_⟩
  · rcases Set.mem_insert_iff.1 ha with hac | haH
    · exact hac ▸ hbelow
    · exact h.below a haH
  · rcases Set.mem_insert_iff.1 ha with hac | haH
    · rcases Set.mem_insert_iff.1 hb with hbc | hbH
      · rw [hac, hbc]
      · exact absurd (hac ▸ hab.symm) (hfresh b hbH)
    · rcases Set.mem_insert_iff.1 hb with hbc | hbH
      · exact absurd (hbc ▸ hab) (hfresh a haH)
      · exact h.distinct a haH b hbH hab

theorem Bookkeeping.init :
    Bookkeeping totalChunks pipelineDepth (∅ : Set EncryptedChunk) .init where
  openSlots := rfl
  openSlots_le := Nat.zero_le _
  completed := rfl
  slots := by simp [Manager.init]
  chunks := .empty
  placed := by simp
  sent := by simp [Manager.init]

/-! ## Rebinding one block -/

/-- **The preservation lemma.** The block `blockId` is rebound to `slot'`, the counters move by what
    the rebinding does to the counts, and what is sent belongs to the block. -/
theorem Bookkeeping.rebind (h : Bookkeeping totalChunks pipelineDepth H m) (blockId : UInt32)
    (slot' : BlockSlot) (hstates : m'.blockStates = m.blockStates.insert blockId slot')
    (hopen : m'.openSlots + (m.blockStates.lookup blockId).elim 0 (fun s => s.isOpened.toNat)
      = m.openSlots + slot'.isOpened.toNat)
    (hroom : m'.openSlots ≤ pipelineDepth)
    (hcompleted : m'.completed
      + (m.blockStates.lookup blockId).elim 0 (fun s => s.isResolved.toNat)
      = m.completed + slot'.isResolved.toNat)
    (hchunks : DistinctBelow totalChunks H') (hsub : H ⊆ H')
    (hnew : ∀ c ∈ H', c ∉ H → EncryptedChunk.block c = blockId)
    (hslot : SlotOk totalChunks H' blockId slot')
    (hholds : ∀ c ∈ H', EncryptedChunk.block c = blockId → slot'.Holds c)
    (hstarted : m.Started blockId → slot'.isStarted = true)
    (hudp : ∀ d ∈ m'.udp, d ∈ m.udp ∨
      (slot'.isStarted = true ∧ FromBlock totalChunks H' blockId d)) :
    Bookkeeping totalChunks pipelineDepth H' m' where
  openSlots := by
    have hcount := AList.countValues_insert (p := BlockSlot.isOpened) (m := m.blockStates)
      blockId slot'
    rw [hstates]
    have := h.openSlots
    omega
  openSlots_le := hroom
  completed := by
    have hcount := AList.countValues_insert (p := BlockSlot.isResolved) (m := m.blockStates)
      blockId slot'
    rw [hstates]
    have := h.completed
    omega
  slots := by
    intro b slot hl
    rw [hstates, AList.lookup_insert_ite] at hl
    split at hl
    · next hb => cases hl; exact hb ▸ hslot
    · exact (h.slots b slot hl).mono fun _ hc _ => hsub hc
  chunks := hchunks
  placed := by
    intro c hc
    rw [hstates, AList.lookup_insert_ite]
    by_cases hb : EncryptedChunk.block c = blockId
    · exact ⟨slot', if_pos hb, hholds c hc hb⟩
    · have hold : c ∈ H := by
        by_contra hn
        exact hb (hnew c hc hn)
      rw [if_neg hb]
      exact h.placed c hold
  sent := by
    have hkeep : ∀ b, m.Started b → m'.Started b := by
      rintro b ⟨slot, hl, hs⟩
      rw [Manager.Started, hstates, AList.lookup_insert_ite]
      by_cases hb : b = blockId
      · exact ⟨slot', if_pos hb, hstarted (hb ▸ ⟨slot, hl, hs⟩)⟩
      · exact ⟨slot, by rw [if_neg hb]; exact hl, hs⟩
    intro d hd
    rcases hudp d hd with hold | ⟨hs, hfrom⟩
    · obtain ⟨b, hb, hfrom⟩ := h.sent d hold
      exact ⟨b, hkeep b hb, hfrom.mono fun _ hc _ => hsub hc⟩
    · refine ⟨blockId, ⟨slot', ?_, hs⟩, hfrom⟩
      rw [hstates, AList.lookup_insert]

/-- An `Open` entry is replaced by one with the same cache, and datagrams of the block are sent. -/
theorem Bookkeeping.refresh (h : Bookkeeping totalChunks pipelineDepth H m) {blockId : UInt32}
    {entry entry' : BlockState} (hl : m.blockStates.lookup blockId = some (.opened entry))
    (hstates : m'.blockStates = m.blockStates.insert blockId (.opened entry'))
    (hcache : entry'.total = entry.total ∧ entry'.packets = entry.packets ∧
      entry'.sent = entry.sent ∧ entry'.endEmitted = entry.endEmitted)
    {out : List Datagram} (hout : ∀ d ∈ out, FromBlock totalChunks H blockId d)
    (hopen : m'.openSlots = m.openSlots) (hcompleted : m'.completed = m.completed)
    (hudp : m'.udp = m.udp ++ out) : Bookkeeping totalChunks pipelineDepth H m' := by
  obtain ⟨htotal, hpackets, hsent, hend⟩ := hcache
  have hentry : EntryOk totalChunks H blockId entry := h.slots _ _ hl
  refine h.rebind blockId (.opened entry') hstates ?_ ?_ ?_ h.chunks subset_rfl ?_ ?_ ?_ ?_ ?_
  · rw [hl, hopen]; rfl
  · rw [hopen]; exact h.openSlots_le
  · rw [hl, hcompleted]; rfl
  · exact fun c hc hn => absurd hc hn
  · exact ⟨hentry.inFile, by rw [htotal, hentry.total], by rw [htotal, hpackets, hentry.length],
      by rw [hsent, hpackets, hentry.sent], by rw [hend, hsent, htotal, hentry.endEmitted],
      fun i packet hp => hentry.cached i packet (hpackets ▸ hp)⟩
  · intro c hc hb
    obtain ⟨slot, hslot, hholds⟩ := h.placed c hc
    rw [hb, hl] at hslot
    cases hslot
    simp only [BlockSlot.Holds, hpackets] at hholds ⊢
    exact hholds
  · exact fun _ => rfl
  · intro d hd
    rw [hudp, List.mem_append] at hd
    exact hd.imp id fun hd => ⟨rfl, hout d hd⟩

/-- Every cached packet of an `Open` entry is the datagram of one of its chunks. -/
theorem EntryOk.fromBlock {blockId : UInt32} {entry : BlockState} {packet : Bytes}
    (h : EntryOk totalChunks H blockId entry) (hp : some packet ∈ entry.packets) :
    FromBlock totalChunks H blockId packet := by
  obtain ⟨i, hi⟩ := List.mem_iff_getElem?.1 hp
  obtain ⟨c, hc, hb, _, hpacket⟩ := h.cached i packet hi
  exact .inl ⟨c, hc, hb, hpacket⟩

end SecureTransfer.Sender
