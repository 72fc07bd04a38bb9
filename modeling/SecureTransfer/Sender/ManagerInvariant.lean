import SecureTransfer.Sender.Keeps

set_option autoImplicit false

/-! # The manager keeps its books and does not panic

For every function of the manager: under `Bookkeeping` it returns (`.ok`) and the invariant holds
again, with the chunk just taken over added to `H`. Draining takes a bucket out of `H` while its
block is being filled (`Bookkeeping.takeBucket`) and puts it back chunk by chunk. -/

namespace SecureTransfer.Sender

variable {totalChunks : UInt32} {pipelineDepth : ℕ} {H : Set EncryptedChunk} {m m' : Manager}

/-! ## Placing a chunk -/

/-- The cache slot of a chunk that has not been taken over is free. -/
theorem EntryOk.free {c : EncryptedChunk} {entry : BlockState}
    (h : EntryOk totalChunks H (EncryptedChunk.block c) entry) (hbelow : c.chunkId < totalChunks)
    (hfresh : ∀ c' ∈ H, c'.chunkId ≠ c.chunkId) :
    entry.packets[EncryptedChunk.index c]? = some none := by
  have hidx : EncryptedChunk.index c < entry.packets.length := by
    rw [h.length, h.total]
    exact blockOf_snd_lt hbelow
  rw [List.getElem?_eq_getElem hidx]
  cases hp : entry.packets[EncryptedChunk.index c] with
  | none => rfl
  | some packet =>
      obtain ⟨c', hc', hblock, hindex, _⟩ := h.cached _ packet (by
        rw [List.getElem?_eq_getElem hidx, hp])
      have hid : c'.chunkId = c.chunkId :=
        blockOf_injective (Prod.ext hblock (UInt16.toNat_inj.1 hindex))
      exact absurd hid (hfresh c' hc')

/-- A free cache slot means the block is not full and its `BlockEnd` has not gone out. -/
theorem EntryOk.sent_lt {blockId : UInt32} {entry : BlockState} {i : ℕ}
    (h : EntryOk totalChunks H blockId entry) (hfree : entry.packets[i]? = some none) :
    entry.sent < entry.total ∧ entry.endEmitted = false := by
  have hne : entry.packets.countP Option.isSome ≠ entry.packets.length := by
    intro hall
    have := List.countP_eq_length.1 hall none (List.mem_of_getElem? hfree)
    simp at this
  have hle := List.countP_le_length (p := Option.isSome) (l := entry.packets)
  have hlt : entry.sent < entry.total := by
    rw [h.sent, ← h.length]
    omega
  refine ⟨hlt, ?_⟩
  rw [← Bool.not_eq_true, h.endEmitted]
  omega

/-- The entry with one more chunk cached. -/
theorem EntryOk.place {c : EncryptedChunk} {entry entry' : BlockState}
    (h : EntryOk totalChunks H (EncryptedChunk.block c) entry)
    (hfree : entry.packets[EncryptedChunk.index c]? = some none)
    (htotal : entry'.total = entry.total)
    (hpackets : entry'.packets = entry.packets.set (EncryptedChunk.index c) (some c.packet))
    (hsent : entry'.sent = entry.sent + 1)
    (hend : entry'.endEmitted = true ↔ entry'.sent = entry'.total) :
    EntryOk totalChunks (insert c H) (EncryptedChunk.block c) entry' where
  inFile := h.inFile
  total := by rw [htotal, h.total]
  length := by rw [hpackets, List.length_set, h.length, htotal]
  sent := by
    have hidx := (List.getElem?_eq_some_iff.1 hfree).1
    have hnone := (List.getElem?_eq_some_iff.1 hfree).2
    rw [hsent, hpackets, List.countP_set hidx, hnone, h.sent]
    simp
  endEmitted := hend
  cached := by
    intro i packet hp
    rw [hpackets, List.getElem?_set] at hp
    split at hp
    · next hi =>
        split at hp
        · cases hp
          exact ⟨c, Set.mem_insert _ _, rfl, hi, rfl⟩
        · cases hp
    · obtain ⟨c', hc', hrest⟩ := h.cached i packet hp
      exact ⟨c', Set.mem_insert_of_mem _ hc', hrest⟩

/-- When the last slot has been filled the assertion before `BlockEnd` holds. -/
theorem EntryOk.allCached {blockId : UInt32} {entry : BlockState}
    (h : EntryOk totalChunks H blockId entry) (hfull : entry.sent = entry.total) :
    entry.allCached = true := by
  have hcount : entry.packets.countP Option.isSome = entry.packets.length := by
    rw [← h.sent, hfull, h.length]
  rw [BlockState.allCached, ← h.length, List.take_length, List.all_eq_true]
  exact List.countP_eq_length.1 hcount

theorem Bookkeeping.placeChunk (h : Bookkeeping totalChunks pipelineDepth H m) {c : EncryptedChunk}
    {entry : BlockState} (hl : m.blockStates.lookup (EncryptedChunk.block c) = some (.opened entry))
    (hbelow : c.chunkId < totalChunks) (hfresh : ∀ c' ∈ H, c'.chunkId ≠ c.chunkId) :
    ∃ m', Sender.placeChunk (EncryptedChunk.block c) (blockOf c.chunkId).2 c m = .ok m' ∧
      Bookkeeping totalChunks pipelineDepth (insert c H) m' ∧
      ∃ entry', m'.blockStates.lookup (EncryptedChunk.block c) = some (.opened entry') := by
  have he : EntryOk totalChunks H (EncryptedChunk.block c) entry := h.slots _ _ hl
  have hfree := he.free hbelow hfresh
  have hidx : (blockOf c.chunkId).2.toNat < entry.packets.length :=
    (List.getElem?_eq_some_iff.1 hfree).1
  obtain ⟨hlt, hend⟩ := he.sent_lt hfree
  -- whatever the new entry is, it replaces the old one and sends datagrams of this block
  have key : ∀ (entry' : BlockState) (m' : Manager) (out : List Datagram),
      EntryOk totalChunks (insert c H) (EncryptedChunk.block c) entry' →
      entry'.packets = entry.packets.set (EncryptedChunk.index c) (some c.packet) →
      m'.blockStates = m.blockStates.insert (EncryptedChunk.block c) (.opened entry') →
      m'.openSlots = m.openSlots → m'.completed = m.completed → m'.udp = m.udp ++ out →
      (∀ d ∈ out, FromBlock totalChunks (insert c H) (EncryptedChunk.block c) d) →
      Bookkeeping totalChunks pipelineDepth (insert c H) m' ∧
        ∃ entry', m'.blockStates.lookup (EncryptedChunk.block c) = some (.opened entry') := by
    intro entry' m' out hok hpackets hstates hopen hcompleted hudp hout
    refine ⟨h.rebind (EncryptedChunk.block c) (.opened entry') hstates ?_ ?_ ?_
      (h.chunks.insert hbelow hfresh) (Set.subset_insert _ _) ?_ hok ?_ (fun _ => rfl) ?_,
      entry', by rw [hstates, AList.lookup_insert]⟩
    · rw [hl, hopen]; rfl
    · rw [hopen]; exact h.openSlots_le
    · rw [hl, hcompleted]; rfl
    · intro c' hc' hn
      rcases Set.mem_insert_iff.1 hc' with rfl | hmem
      · rfl
      · exact absurd hmem hn
    · intro c' hc' hblock
      simp only [BlockSlot.Holds, hpackets]
      rcases Set.mem_insert_iff.1 hc' with rfl | hmem
      · rw [List.getElem?_set_self hidx]
      · obtain ⟨slot, hslot, hholds⟩ := h.placed c' hmem
        rw [hblock, hl] at hslot
        cases hslot
        have hindex : EncryptedChunk.index c ≠ EncryptedChunk.index c' := by
          intro heq
          have hid : c'.chunkId = c.chunkId :=
            blockOf_injective (Prod.ext hblock (UInt16.toNat_inj.1 heq.symm))
          exact hfresh c' hmem hid
        rw [List.getElem?_set_ne hindex]
        exact hholds
    · intro d hd
      rw [hudp, List.mem_append] at hd
      exact hd.imp id fun hd => ⟨rfl, hout d hd⟩
  have hpacket : FromBlock totalChunks (insert c H) (EncryptedChunk.block c) c.packet :=
    .inl ⟨c, Set.mem_insert _ _, rfl, rfl⟩
  unfold Sender.placeChunk
  rw [hl]
  dsimp only
  rw [if_pos hidx]
  by_cases hfull : entry.sent + 1 = entry.total
  · -- the block is complete: the assertion holds and `BlockEnd` goes out
    rw [if_pos ⟨hfull, hend⟩]
    have hfilled : EntryOk totalChunks (insert c H) (EncryptedChunk.block c)
        { entry with
          packets := entry.packets.set (EncryptedChunk.index c) (some c.packet)
          sent := entry.sent + 1
          endEmitted := true } :=
      he.place hfree rfl rfl rfl ⟨fun _ => hfull, fun _ => rfl⟩
    have hcached : ∀ ended, BlockState.allCached
        { entry with
          packets := entry.packets.set (EncryptedChunk.index c) (some c.packet)
          sent := entry.sent + 1
          endEmitted := ended } = true :=
      fun _ => hfilled.allCached hfull
    rw [if_pos (hcached _)]
    refine ⟨_, rfl, key _ _ [c.packet,
      BlockEndPacket.encode (EncryptedChunk.block c) (UInt32.ofNat entry.total)] ?_ rfl rfl rfl rfl
      (List.append_assoc _ _ _) ?_⟩
    · exact he.place hfree rfl rfl rfl ⟨fun _ => hfull, fun _ => rfl⟩
    · intro d hd
      rcases List.mem_pair.1 hd with rfl | rfl
      · exact hpacket
      · exact .inr ⟨he.inFile, by rw [he.total]⟩
  · rw [if_neg (fun hcond => hfull hcond.1)]
    refine ⟨_, rfl, key _ _ [c.packet] ?_ rfl rfl rfl rfl rfl ?_⟩
    · refine he.place hfree rfl rfl rfl ?_
      simp only [hend, hfull, Bool.false_eq_true]
    · intro d hd
      rw [List.mem_singleton.1 hd]
      exact hpacket

/-! ## Admitting a chunk -/

theorem EntryOk.new {blockId : UInt32} {now : Instant} (h : blockId < totalBlocks totalChunks) :
    EntryOk totalChunks H blockId (.new (packetsInBlock blockId totalChunks) now) where
  inFile := h
  total := rfl
  length := by simp [BlockState.new]
  sent := by
    symm
    rw [BlockState.new, List.countP_eq_zero]
    intro p hp
    rw [(List.mem_replicate.1 hp).2]
    simp
  endEmitted := by
    have hpos := packetsInBlock_pos_iff.2 h
    simp [BlockState.new]
    omega
  cached := by
    intro i packet hp
    have := (List.mem_replicate.1 (List.mem_of_getElem? hp)).2
    simp at this

/-- Opening a block with a free slot. -/
theorem Bookkeeping.openBlock (h : Bookkeeping totalChunks pipelineDepth H m) {blockId : UInt32}
    (hl : m.blockStates.lookup blockId = none) (hroom : m.openSlots < pipelineDepth)
    (hblock : blockId < totalBlocks totalChunks) :
    Bookkeeping totalChunks pipelineDepth H (m.openBlock totalChunks blockId) := by
  refine h.rebind blockId _ rfl ?_ hroom ?_ h.chunks subset_rfl (fun c hc hn => absurd hc hn)
    (EntryOk.new hblock) ?_ (fun _ => rfl) (fun d hd => .inl hd)
  · rw [hl]; rfl
  · rw [hl]; rfl
  · intro c hc hb
    obtain ⟨slot, hslot, _⟩ := h.placed c hc
    rw [hb, hl] at hslot
    cases hslot

/-- Buffering a chunk of a block that is not open. -/
theorem Bookkeeping.buffer (h : Bookkeeping totalChunks pipelineDepth H m) {c : EncryptedChunk}
    {bucket : List EncryptedChunk} (hbelow : c.chunkId < totalChunks)
    (hfresh : ∀ c' ∈ H, c'.chunkId ≠ c.chunkId)
    (hl : m.blockStates.lookup (EncryptedChunk.block c) = some (.pending bucket) ∨
      (m.blockStates.lookup (EncryptedChunk.block c) = none ∧ bucket = [])) :
    Bookkeeping totalChunks pipelineDepth (insert c H)
      (m.setSlot (EncryptedChunk.block c) (.pending (bucket ++ [c]))) := by
  have hold : ∀ c' ∈ bucket, c' ∈ H ∧ EncryptedChunk.block c' = EncryptedChunk.block c := by
    rcases hl with hl | ⟨_, rfl⟩
    · exact (h.slots _ _ hl : BucketOk H (EncryptedChunk.block c) bucket).mem
    · simp
  have hnodup : (bucket.map EncryptedChunk.chunkId).Nodup := by
    rcases hl with hl | ⟨_, rfl⟩
    · exact (h.slots _ _ hl : BucketOk H (EncryptedChunk.block c) bucket).nodup
    · simp
  refine h.rebind (EncryptedChunk.block c) _ rfl ?_ h.openSlots_le ?_
    (h.chunks.insert hbelow hfresh) (Set.subset_insert _ _) ?_ ⟨by simp, ?_, ?_⟩ ?_ ?_
    (fun d hd => .inl hd)
  · rcases hl with hl | ⟨hl, _⟩ <;> rw [hl] <;> rfl
  · rcases hl with hl | ⟨hl, _⟩ <;> rw [hl] <;> rfl
  · intro c' hc' hn
    rcases Set.mem_insert_iff.1 hc' with rfl | hmem
    · rfl
    · exact absurd hmem hn
  · rw [List.map_append, List.nodup_append]
    refine ⟨hnodup, by simp, ?_⟩
    intro a ha b hb
    obtain ⟨c', hc', rfl⟩ := List.mem_map.1 ha
    rw [List.map_singleton, List.mem_singleton] at hb
    exact hb ▸ hfresh c' (hold c' hc').1
  · intro c' hc'
    rcases List.mem_append.1 hc' with hmem | hmem
    · exact ⟨Set.mem_insert_of_mem _ (hold c' hmem).1, (hold c' hmem).2⟩
    · rw [List.mem_singleton.1 hmem]
      exact ⟨Set.mem_insert _ _, rfl⟩
  · intro c' hc' hblock
    rcases Set.mem_insert_iff.1 hc' with rfl | hmem
    · simp [BlockSlot.Holds]
    · obtain ⟨slot, hslot, hholds⟩ := h.placed c' hmem
      rcases hl with hl | ⟨hl, _⟩
      · rw [hblock, hl] at hslot
        cases hslot
        exact List.mem_append_left _ hholds
      · rw [hblock, hl] at hslot
        cases hslot
  · rintro ⟨slot, hslot, hs⟩
    rcases hl with hl | ⟨hl, _⟩
    · rw [hl] at hslot
      cases hslot
      exact hs
    · rw [hl] at hslot
      cases hslot

/-- A chunk of a resolved block is dropped; taking it over costs nothing. -/
theorem Bookkeeping.drop (h : Bookkeeping totalChunks pipelineDepth H m) {c : EncryptedChunk}
    (hbelow : c.chunkId < totalChunks) (hfresh : ∀ c' ∈ H, c'.chunkId ≠ c.chunkId)
    (hl : m.blockStates.lookup (EncryptedChunk.block c) = some .resolved) :
    Bookkeeping totalChunks pipelineDepth (insert c H) m :=
  { h with
    slots := fun b slot hs => (h.slots b slot hs).mono fun _ hc _ => Set.mem_insert_of_mem _ hc
    chunks := h.chunks.insert hbelow hfresh
    placed := by
      intro c' hc'
      rcases Set.mem_insert_iff.1 hc' with rfl | hmem
      · exact ⟨.resolved, hl, trivial⟩
      · exact h.placed c' hmem
    sent := fun d hd =>
      let ⟨b, hb, hfrom⟩ := h.sent d hd
      ⟨b, hb, hfrom.mono fun _ hc _ => Set.mem_insert_of_mem _ hc⟩ }

theorem Bookkeeping.admitOrBuffer (h : Bookkeeping totalChunks pipelineDepth H m)
    {c : EncryptedChunk} (hbelow : c.chunkId < totalChunks)
    (hfresh : ∀ c' ∈ H, c'.chunkId ≠ c.chunkId) :
    ∃ m', Sender.admitOrBuffer totalChunks pipelineDepth c m = .ok m' ∧
      Bookkeeping totalChunks pipelineDepth (insert c H) m' := by
  unfold Sender.admitOrBuffer
  dsimp only
  cases hl : m.blockStates.lookup (EncryptedChunk.block c) with
  | none =>
      dsimp only
      split
      · next hroom =>
          have hopened := h.openBlock hl hroom (blockOf_fst_lt hbelow)
          obtain ⟨m', hm', hok, _⟩ := hopened.placeChunk (AList.lookup_insert _) hbelow hfresh
          exact ⟨m', hm', hok⟩
      · exact ⟨_, rfl, h.buffer hbelow hfresh (.inr ⟨hl, rfl⟩)⟩
  | some slot =>
      cases slot with
      | resolved => exact ⟨m, rfl, h.drop hbelow hfresh hl⟩
      | opened entry =>
          obtain ⟨m', hm', hok, _⟩ := h.placeChunk hl hbelow hfresh
          exact ⟨m', hm', hok⟩
      | pending bucket => exact ⟨_, rfl, h.buffer hbelow hfresh (.inl hl)⟩

/-! ## Draining -/

/-- The chunks of a bucket. -/
abbrev bucketSet (bucket : List EncryptedChunk) : Set EncryptedChunk := {c | c ∈ bucket}

/-- A bucket leaves the map, and its chunks leave the set of chunks taken over. -/
theorem Bookkeeping.takeBucket (h : Bookkeeping totalChunks pipelineDepth H m) {blockId : UInt32}
    {bucket : List EncryptedChunk} (hl : m.blockStates.lookup blockId = some (.pending bucket)) :
    Bookkeeping totalChunks pipelineDepth (H \ bucketSet bucket) (m.takeBucket blockId) := by
  have hbucket : BucketOk H blockId bucket := h.slots _ _ hl
  have hother : ∀ b, b ≠ blockId → ∀ c ∈ H, EncryptedChunk.block c = b →
      c ∈ H \ bucketSet bucket := by
    intro b hb c hc hblock
    refine ⟨hc, fun hmem => hb ?_⟩
    rw [← hblock, (hbucket.mem c hmem).2]
  refine ⟨?_, h.openSlots_le, ?_, ?_, h.chunks.subset Set.sdiff_subset, ?_, ?_⟩
  · have hcount := AList.countValues_erase (p := BlockSlot.isOpened) (m := m.blockStates) blockId
    rw [hl] at hcount
    exact h.openSlots.trans hcount.symm
  · have hcount := AList.countValues_erase (p := BlockSlot.isResolved) (m := m.blockStates) blockId
    rw [hl] at hcount
    exact h.completed.trans hcount.symm
  · intro b slot hslot
    rw [AList.lookup_erase_ite] at hslot
    split at hslot
    · cases hslot
    · next hb => exact (h.slots b slot hslot).mono (hother b hb)
  · rintro c ⟨hc, hout⟩
    obtain ⟨slot, hslot, hholds⟩ := h.placed c hc
    refine ⟨slot, ?_, hholds⟩
    rw [AList.lookup_erase_ite, if_neg, hslot]
    intro hb
    rw [hb, hl] at hslot
    cases hslot
    exact hout hholds
  · intro d hd
    obtain ⟨b, ⟨slot, hslot, hs⟩, hfrom⟩ := h.sent d hd
    have hb : b ≠ blockId := by
      intro hb
      rw [hb, hl] at hslot
      cases hslot
      simp [BlockSlot.isStarted] at hs
    refine ⟨b, ⟨slot, ?_, hs⟩, hfrom.mono (hother b hb)⟩
    rw [AList.lookup_erase_ite, if_neg hb, hslot]

/-- Distinct chunks of block `b`, none of them taken over yet. -/
structure NewBucket (totalChunks : UInt32) (H : Set EncryptedChunk) (b : UInt32)
    (bucket : List EncryptedChunk) : Prop where
  nodup : (bucket.map EncryptedChunk.chunkId).Nodup
  block : ∀ c ∈ bucket, EncryptedChunk.block c = b
  below : ∀ c ∈ bucket, c.chunkId < totalChunks
  fresh : ∀ c ∈ bucket, ∀ c' ∈ H, c'.chunkId ≠ c.chunkId

section NewBucket

variable {b : UInt32} {c : EncryptedChunk} {bucket : List EncryptedChunk}

theorem NewBucket.head (h : NewBucket totalChunks H b (c :: bucket)) :
    EncryptedChunk.block c = b ∧ c.chunkId < totalChunks ∧ ∀ c' ∈ H, c'.chunkId ≠ c.chunkId :=
  ⟨h.block c List.mem_cons_self, h.below c List.mem_cons_self, h.fresh c List.mem_cons_self⟩

/-- Taking over the first chunk leaves the others new. -/
theorem NewBucket.tail (h : NewBucket totalChunks H b (c :: bucket)) :
    NewBucket totalChunks (insert c H) b bucket where
  nodup := (List.nodup_cons.1 h.nodup).2
  block := fun c' hc' => h.block c' (List.mem_cons_of_mem _ hc')
  below := fun c' hc' => h.below c' (List.mem_cons_of_mem _ hc')
  fresh := by
    intro c' hc' c'' hc''
    rcases Set.mem_insert_iff.1 hc'' with rfl | hmem
    · exact fun heq => (List.nodup_cons.1 h.nodup).1 (heq ▸ List.mem_map_of_mem hc')
    · exact h.fresh c' (List.mem_cons_of_mem _ hc') c'' hmem

/-- A bucket is new to the books it has been taken out of. -/
theorem BucketOk.newBucket (h : BucketOk H b bucket) (hchunks : DistinctBelow totalChunks H) :
    NewBucket totalChunks (H \ bucketSet bucket) b bucket where
  nodup := h.nodup
  block := fun c hc => (h.mem c hc).2
  below := fun c hc => hchunks.below c (h.mem c hc).1
  fresh := by
    rintro c hc c' ⟨hc', hout⟩ heq
    exact hout (hchunks.distinct c' hc' c (h.mem c hc).1 heq ▸ hc)

end NewBucket

/-- Filling an open block with distinct new chunks of its own. -/
theorem Bookkeeping.placeBucket {nextId : UInt32} {bucket : List EncryptedChunk}
    (h : Bookkeeping totalChunks pipelineDepth H m)
    (hl : ∃ entry, m.blockStates.lookup nextId = some (.opened entry))
    (hnew : NewBucket totalChunks H nextId bucket) :
    ∃ m', Sender.placeBucket nextId bucket m = .ok m' ∧
      Bookkeeping totalChunks pipelineDepth (bucketSet bucket ∪ H) m' := by
  induction bucket generalizing m H with
  | nil => exact ⟨m, rfl, by simpa [bucketSet] using h⟩
  | cons c bucket ih =>
      obtain ⟨entry, hl⟩ := hl
      obtain ⟨rfl, hbelow, hfresh⟩ := hnew.head
      obtain ⟨mid, hmid, hok, hopened⟩ := h.placeChunk hl hbelow hfresh
      obtain ⟨m', hm', hall⟩ := ih hok hopened hnew.tail
      refine ⟨m', ?_, ?_⟩
      · rw [Sender.placeBucket]
        dsimp only
        rw [if_pos rfl, hmid]
        exact hm'
      · have hset : bucketSet (c :: bucket) ∪ H = bucketSet bucket ∪ insert c H := by
          ext a
          simp only [bucketSet, Set.mem_union, Set.mem_ofPred_eq, List.mem_cons, Set.mem_insert_iff]
          tauto
        rw [hset]
        exact hall

/-- The bucket of a block has been taken out and the block opened for it. -/
theorem Bookkeeping.openForBucket (h : Bookkeeping totalChunks pipelineDepth H m) {nextId : UInt32}
    {bucket : List EncryptedChunk} (hl : m.blockStates.lookup nextId = some (.pending bucket))
    (hroom : m.openSlots < pipelineDepth) :
    Bookkeeping totalChunks pipelineDepth (H \ bucketSet bucket)
        ((m.takeBucket nextId).openBlock totalChunks nextId) ∧
      NewBucket totalChunks (H \ bucketSet bucket) nextId bucket := by
  have hbucket : BucketOk H nextId bucket := h.slots _ _ hl
  obtain ⟨c, hc⟩ := List.exists_mem_of_ne_nil _ hbucket.nonempty
  have hblock : nextId < totalBlocks totalChunks := by
    rw [← (hbucket.mem c hc).2]
    exact blockOf_fst_lt (h.chunks.below c (hbucket.mem c hc).1)
  exact ⟨(h.takeBucket hl).openBlock (AList.lookup_erase nextId m.blockStates) hroom hblock,
    hbucket.newBucket h.chunks⟩

theorem Bookkeeping.openPending (h : Bookkeeping totalChunks pipelineDepth H m) {nextId : UInt32}
    {bucket : List EncryptedChunk} (hl : m.blockStates.lookup nextId = some (.pending bucket))
    (hroom : m.openSlots < pipelineDepth) :
    ∃ m', Sender.openPending totalChunks nextId m = .ok m' ∧
      Bookkeeping totalChunks pipelineDepth H m' := by
  have hbucket : BucketOk H nextId bucket := h.slots _ _ hl
  obtain ⟨hopened, hnew⟩ := h.openForBucket hl hroom
  obtain ⟨m', hm', hok⟩ := hopened.placeBucket ⟨_, AList.lookup_insert _⟩ hnew
  refine ⟨m', ?_, ?_⟩
  · rw [Sender.openPending, hl]
    exact hm'
  · have hsub : bucketSet bucket ⊆ H := fun c hc => (hbucket.mem c hc).1
    rwa [Set.union_sdiff_cancel hsub] at hok

theorem Manager.nextPending_eq_some {nextId : UInt32} (h : m.nextPending = some nextId) :
    ∃ bucket, m.blockStates.lookup nextId = some (.pending bucket) := by
  have hmem := List.min?_mem h
  obtain ⟨⟨b, slot⟩, hin, rfl⟩ := List.mem_map.1 hmem
  obtain ⟨hentry, hpending⟩ := List.mem_filter.1 hin
  rw [AList.mem_entries_iff_lookup] at hentry
  cases slot with
  | pending bucket => exact ⟨bucket, hentry⟩
  | opened _ => simp [BlockSlot.isPending] at hpending
  | resolved => simp [BlockSlot.isPending] at hpending

/-- A round of `drain_pending` that starts with a free slot takes it and does not panic. -/
theorem Bookkeeping.round (h : Bookkeeping totalChunks pipelineDepth H m) {nextId : UInt32}
    (hnext : m.nextPending = some nextId) (hroom : m.openSlots < pipelineDepth) :
    ∃ mid, Sender.openPending totalChunks nextId m = .ok mid ∧
      Bookkeeping totalChunks pipelineDepth H mid ∧ mid.openSlots = m.openSlots + 1 := by
  obtain ⟨bucket, hl⟩ := Manager.nextPending_eq_some hnext
  obtain ⟨mid, hmid, hbooks⟩ := h.openPending hl hroom
  exact ⟨mid, hmid, hbooks, (openPending_keeps hmid).2⟩

theorem Bookkeeping.drainRounds {room : ℕ} (h : Bookkeeping totalChunks pipelineDepth H m)
    (hroom : m.openSlots + room ≤ pipelineDepth) :
    ∃ m', Sender.drainRounds totalChunks room m = .ok m' ∧
      Bookkeeping totalChunks pipelineDepth H m' := by
  refine drainRounds_rule (P := fun room m r => Bookkeeping totalChunks pipelineDepth H m →
    m.openSlots + room ≤ pipelineDepth →
    ∃ m', r = .ok m' ∧ Bookkeeping totalChunks pipelineDepth H m') ?_ ?_ ?_ room m h hroom
  · exact fun _ m _ h _ => ⟨m, rfl, h⟩
  · intro room nextId m panic hnext hopen h hroom
    obtain ⟨mid, hmid, -⟩ := h.round hnext (by omega)
    rw [hopen] at hmid
    cases hmid
  · intro room nextId m mid r hnext hopen ih h hroom
    obtain ⟨_, hmid, hbooks, hslots⟩ := h.round hnext (by omega)
    rw [hopen] at hmid
    cases hmid
    exact ih hbooks (by omega)

/-- The drain rule where the books are kept: every round starts with them and with a free slot. -/
theorem Bookkeeping.drainRounds_rule {P : Manager → Manager → Prop} (hdone : ∀ m, P m m)
    (hround : ∀ nextId m mid m', Bookkeeping totalChunks pipelineDepth H m →
      m.openSlots < pipelineDepth → m.nextPending = some nextId →
      Sender.openPending totalChunks nextId m = .ok mid → P mid m' → P m m')
    {room : ℕ} (h : Bookkeeping totalChunks pipelineDepth H m)
    (hroom : m.openSlots + room ≤ pipelineDepth)
    (hok : Sender.drainRounds totalChunks room m = .ok m') : P m m' := by
  refine drainRounds_ok_rule (P := fun room m m' => Bookkeeping totalChunks pipelineDepth H m →
    m.openSlots + room ≤ pipelineDepth → P m m') (fun _ m _ _ _ => hdone m) ?_ hok h hroom
  intro room nextId m mid m' hnext hopen ih h hroom
  obtain ⟨_, hmid, hbooks, hslots⟩ := h.round hnext (by omega)
  rw [hopen] at hmid
  cases hmid
  exact hround nextId m mid m' h (by omega) hnext hopen (ih hbooks (by omega))

theorem Bookkeeping.drainPending (h : Bookkeeping totalChunks pipelineDepth H m) :
    ∃ m', Sender.drainPending totalChunks pipelineDepth m = .ok m' ∧
      Bookkeeping totalChunks pipelineDepth H m' :=
  h.drainRounds (by have := h.openSlots_le; omega)

/-! ## Acks and timeouts -/

theorem Bookkeeping.handleMissing (h : Bookkeeping totalChunks pipelineDepth H m)
    (blockId : UInt32) (missing : List UInt16) :
    Bookkeeping totalChunks pipelineDepth H (Sender.handleMissing blockId missing m) := by
  obtain ⟨heq, -⟩ | ⟨entry, hl, heq⟩ := handleMissing_cases blockId missing m
  · rw [heq]
    exact h
  · rw [heq]
    refine h.refresh hl rfl ⟨rfl, rfl, rfl, rfl⟩ ?_ rfl rfl rfl
    intro d hd
    obtain ⟨i, _, hi⟩ := List.mem_filterMap.1 hd
    have hslot := h.slots _ _ hl
    refine EntryOk.fromBlock hslot (List.mem_of_getElem? (i := i.toNat) ?_)
    simpa [Option.join_eq_some_iff] using hi

theorem Bookkeeping.retransmitStale (h : Bookkeeping totalChunks pipelineDepth H m) (now : Instant)
    (blockId : UInt32) :
    Bookkeeping totalChunks pipelineDepth H (Sender.retransmitStale now m blockId) := by
  obtain heq | ⟨entry, hl, -, -, heq⟩ := retransmitStale_cases now m blockId
  · rw [heq]
    exact h
  · rw [heq]
    have hentry : EntryOk totalChunks H blockId entry := h.slots _ _ hl
    refine h.refresh hl rfl ⟨rfl, rfl, rfl, rfl⟩ ?_ rfl rfl rfl
    intro d hd
    rcases List.mem_append.1 hd with hd | hd
    · obtain ⟨p, hp, rfl⟩ := List.mem_filterMap.1 hd
      exact hentry.fromBlock hp
    · rw [List.mem_singleton.1 hd]
      exact .inr ⟨hentry.inFile, by rw [hentry.total]⟩

theorem Bookkeeping.retransmitStaleBlocks (h : Bookkeeping totalChunks pipelineDepth H m)
    (order : List UInt32) :
    Bookkeeping totalChunks pipelineDepth H (Sender.retransmitStaleBlocks order m) :=
  retransmitStaleBlocks_rule (fun now b _ h => h.retransmitStale now b) order h

/-- Resolving a block never underflows `open_slots`: an `Open` block is counted in it. -/
theorem Bookkeeping.handleComplete (h : Bookkeeping totalChunks pipelineDepth H m)
    (blockId : UInt32) :
    ∃ m', Sender.handleComplete blockId m = .ok m' ∧
      Bookkeeping totalChunks pipelineDepth H m' := by
  have hreturns : ∃ m', Sender.handleComplete blockId m = .ok m' := by
    unfold Sender.handleComplete
    dsimp only
    split
    · exact ⟨m, rfl⟩
    · next entry hl =>
        have hpos := AList.countValues_pos (p := BlockSlot.isOpened) hl rfl
        rw [if_neg (by rw [h.openSlots]; omega)]
        exact ⟨_, rfl⟩
    · exact ⟨_, rfl⟩
    · exact ⟨_, rfl⟩
  obtain ⟨m', hm'⟩ := hreturns
  refine ⟨m', hm', ?_⟩
  rcases handleComplete_inv hm' with ⟨_, rfl⟩ | ⟨hne, hstates, hcompleted, hudp, _, hopen⟩
  · exact h
  · refine h.rebind blockId .resolved hstates (by simpa [BlockSlot.isOpened] using hopen) ?_ ?_
      h.chunks subset_rfl (fun c hc hn => absurd hc hn) trivial (fun _ _ _ => trivial)
      (fun _ => rfl) (fun d hd => .inl (hudp ▸ hd))
    · have := h.openSlots_le
      omega
    · have hcount := AList.countValues_insert (p := BlockSlot.isResolved) (m := m.blockStates)
        blockId .resolved
      rw [countResolved_insert hne, ← h.completed] at hcount
      omega

end SecureTransfer.Sender
