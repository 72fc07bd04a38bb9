import SecureTransfer.Sender.ManagerInvariant

set_option autoImplicit false

/-! # What placing a chunk does, exactly

`placeChunk_ok` says what becomes of the manager when `place_chunk` returns: one entry is replaced
by `BlockState.placed`, and `BlockState.placeOut` goes out. Filling a block from its bucket
(`placeBucket_ok`, `openPending_ok`) is that, chunk by chunk. -/

namespace SecureTransfer.Sender

variable {totalChunks : UInt32} {pipelineDepth : ℕ} {H : Set EncryptedChunk} {m m' : Manager}
  {b : UInt32} {entry : BlockState}

/-! ## One chunk -/

/-- The packet placed next is the last one of the block. -/
def BlockState.fills (entry : BlockState) : Bool :=
  entry.sent + 1 = entry.total ∧ entry.endEmitted = false

/-- The entry once the packet has been placed at index `i`. -/
def BlockState.placed (entry : BlockState) (i : ℕ) (packet : Bytes) (now : Instant) :
    BlockState where
  total := entry.total
  packets := entry.packets.set i (some packet)
  sent := entry.sent + 1
  endEmitted := entry.endEmitted || entry.fills
  lastAckActivity := if entry.fills then now else entry.lastAckActivity
  fallbackSent := entry.fallbackSent

/-- The datagrams that placing the packet sends. -/
def BlockState.placeOut (b : UInt32) (entry : BlockState) (packet : Bytes) : List Datagram :=
  packet :: if entry.fills then [BlockEndPacket.encode b (UInt32.ofNat entry.total)] else []

/-- The manager once chunk `c` has been placed at index `i` of the block, whose entry was `entry`. -/
def Manager.placed (m : Manager) (b : UInt32) (entry : BlockState) (i : ℕ) (c : EncryptedChunk) :
    Manager :=
  { m with
    blockStates := m.blockStates.insert b (.opened (entry.placed i c.packet m.now))
    bytesSent := m.bytesSent + c.bytes
    udp := m.udp ++ entry.placeOut b c.packet }

theorem placeChunk_ok {p : UInt16} {c : EncryptedChunk} (h : placeChunk b p c m = .ok m') :
    ∃ entry, m.blockStates.lookup b = some (.opened entry) ∧ p.toNat < entry.packets.length ∧
      (entry.fills = true → (entry.placed p.toNat c.packet m.now).allCached = true) ∧
      m' = m.placed b entry p.toNat c := by
  unfold placeChunk at h
  split at h
  · next entry hl =>
      refine ⟨entry, hl, ?_⟩
      split at h
      · next hindex =>
          dsimp only at h
          refine ⟨hindex, ?_⟩
          by_cases hfills : entry.fills = true
          · have hcond := of_decide_eq_true hfills
            rw [if_pos hcond] at h
            split at h
            · next hcached =>
                cases h
                refine ⟨fun _ => hcached, ?_⟩
                simp [Manager.placed, Manager.setSlot, Manager.send, BlockState.placed,
                  BlockState.placeOut, hfills]
            · cases h
          · have hcond : ¬ (entry.sent + 1 = entry.total ∧ entry.endEmitted = false) :=
              fun hcond => hfills (decide_eq_true hcond)
            rw [if_neg hcond] at h
            cases h
            refine ⟨fun hfull => absurd hfull hfills, ?_⟩
            simp [Manager.placed, Manager.setSlot, Manager.send, BlockState.placed,
              BlockState.placeOut, hfills]
      · cases h
  · cases h

/-! ## A bucket -/

/-- The datagrams sent when the chunks of `bucket` are placed into block `b`, of which `room` are
    missing. -/
def bucketOut (b totalPackets : UInt32) (room : ℕ) (bucket : List EncryptedChunk) :
    List Datagram :=
  bucket.map EncryptedChunk.packet ++
    if bucket ≠ [] ∧ bucket.length = room then [BlockEndPacket.encode b totalPackets] else []

/-- Entry `entry'` is `entry` with the chunks of `bucket` cached, each at its own index. -/
structure BlockState.Filled (entry : BlockState) (bucket : List EncryptedChunk)
    (entry' : BlockState) : Prop where
  total : entry'.total = entry.total
  sent : entry'.sent = entry.sent + bucket.length
  cached : ∀ c ∈ bucket, entry'.packets[EncryptedChunk.index c]? = some (some c.packet)
  other : ∀ i, (∀ c ∈ bucket, EncryptedChunk.index c ≠ i) → entry'.packets[i]? = entry.packets[i]?
  fallbackSent : entry'.fallbackSent = entry.fallbackSent

theorem BlockState.Filled.cons {c : EncryptedChunk} {bucket : List EncryptedChunk}
    {entry' : BlockState} {now : Instant} (hindex : EncryptedChunk.index c < entry.packets.length)
    (hfresh : EncryptedChunk.index c ∉ bucket.map EncryptedChunk.index)
    (h : (entry.placed (EncryptedChunk.index c) c.packet now).Filled bucket entry') :
    entry.Filled (c :: bucket) entry' where
  total := h.total
  sent := by
    rw [h.sent, List.length_cons]
    show entry.sent + 1 + bucket.length = _
    omega
  cached := by
    intro c' hc'
    rcases List.mem_cons.1 hc' with rfl | hc'
    · have hkeep := h.other (EncryptedChunk.index c') fun a ha heq =>
        hfresh (List.mem_map.2 ⟨a, ha, heq⟩)
      rw [hkeep, BlockState.placed, List.getElem?_set_self hindex]
    · exact h.cached c' hc'
  other := by
    intro i hi
    rw [h.other i fun c' hc' => hi c' (List.mem_cons_of_mem _ hc'), BlockState.placed,
      List.getElem?_set_ne (hi c List.mem_cons_self)]
  fallbackSent := h.fallbackSent

/-- The first chunk's datagrams, then those of the others. -/
theorem placeOut_append_bucketOut {c : EncryptedChunk} {bucket : List EncryptedChunk}
    (hend : entry.endEmitted = false) (hroom : entry.sent + (bucket.length + 1) ≤ entry.total) :
    entry.placeOut b c.packet ++
        bucketOut b (UInt32.ofNat entry.total) (entry.total - (entry.sent + 1)) bucket
      = bucketOut b (UInt32.ofNat entry.total) (entry.total - entry.sent) (c :: bucket) := by
  have hfills : entry.fills = true ↔ entry.sent + 1 = entry.total := by
    simp [BlockState.fills, hend]
  rw [BlockState.placeOut, bucketOut, bucketOut, List.map_cons, List.length_cons]
  by_cases hlast : bucket = []
  · subst hlast
    by_cases hfull : entry.sent + 1 = entry.total
    · have hone : 1 = entry.total - entry.sent := by omega
      simp [hfills.2 hfull, ← hone]
    · have hone : ¬ 1 = entry.total - entry.sent := by
        rw [List.length_nil] at hroom
        omega
      simp [mt hfills.1 hfull, hone]
  · have hpos : 0 < bucket.length := List.length_pos_iff.2 hlast
    have hnot : ¬ entry.fills = true := fun h => by
      have := hfills.1 h
      omega
    have hcond : bucket.length = entry.total - (entry.sent + 1)
        ↔ bucket.length + 1 = entry.total - entry.sent := by omega
    simp [hnot, hlast, hcond]

/-- The bucket has been placed in the `Open` entry of block `b`, which sent `out`. -/
structure BucketPlaced (b : UInt32) (entry : BlockState) (bucket : List EncryptedChunk)
    (out : List Datagram) (m m' : Manager) : Prop where
  filled : ∃ entry', m'.blockStates.lookup b = some (.opened entry') ∧ entry.Filled bucket entry'
  other : ∀ b', b' ≠ b → m'.blockStates.lookup b' = m.blockStates.lookup b'
  udp : m'.udp = m.udp ++ out

theorem placeBucket_ok {bucket : List EncryptedChunk}
    (hok : placeBucket b bucket m = .ok m') (hl : m.blockStates.lookup b = some (.opened entry))
    (hend : entry.endEmitted = true → bucket = [])
    (hroom : entry.sent + bucket.length ≤ entry.total)
    (hnodup : (bucket.map EncryptedChunk.index).Nodup) :
    BucketPlaced b entry bucket
      (bucketOut b (UInt32.ofNat entry.total) (entry.total - entry.sent) bucket) m m' := by
  refine placeBucket_rule (P := fun bucket m m' => ∀ entry,
    m.blockStates.lookup b = some (.opened entry) → (entry.endEmitted = true → bucket = []) →
    entry.sent + bucket.length ≤ entry.total → (bucket.map EncryptedChunk.index).Nodup →
    BucketPlaced b entry bucket
      (bucketOut b (UInt32.ofNat entry.total) (entry.total - entry.sent) bucket) m m')
    ?_ ?_ hok entry hl hend hroom hnodup
  · intro m entry hl _ _ _
    refine ⟨⟨entry, hl, rfl, rfl, nofun, fun _ _ => rfl, rfl⟩, fun _ _ => rfl, ?_⟩
    simp [bucketOut]
  · intro c bucket m mid m' hblock hplace ih entry hl hend hroom hnodup
    rw [List.map_cons, List.nodup_cons] at hnodup
    rw [List.length_cons] at hroom
    have hopen : entry.endEmitted = false := Bool.eq_false_iff.2 fun h => nomatch hend h
    obtain ⟨entry₀, hl₀, hindex, -, rfl⟩ := placeChunk_ok hplace
    rw [hl] at hl₀
    cases hl₀
    -- `BlockEnd` has gone out only if nothing is left to place
    have hdone : (entry.placed (blockOf c.chunkId).2.toNat c.packet m.now).endEmitted = true →
        bucket = [] := by
      intro hended
      rw [BlockState.placed, hopen, Bool.false_or] at hended
      have hfull : entry.sent + 1 = entry.total := (of_decide_eq_true hended).1
      exact List.length_eq_zero_iff.1 (by omega)
    obtain ⟨⟨entry', hl', hfilled⟩, hother, hudp⟩ :=
      ih _ (AList.lookup_insert _) hdone
        (by show entry.sent + 1 + bucket.length ≤ entry.total; omega) hnodup.2
    refine ⟨⟨entry', hl', hfilled.cons hindex hnodup.1⟩, fun b' hb' => ?_, ?_⟩
    · rw [hother b' hb', Manager.placed, AList.lookup_insert_ne hb']
    · rw [hudp, ← placeOut_append_bucketOut hopen hroom, ← List.append_assoc]
      rfl

/-! ## Opening a block -/

/-- The chunks of a bucket have different indices. -/
theorem BucketOk.nodup_index {bucket : List EncryptedChunk} (h : BucketOk H b bucket) :
    (bucket.map EncryptedChunk.index).Nodup := by
  refine List.Nodup.map_on (fun c hc c' hc' heq => ?_) h.nodup.of_map
  have hid : c.chunkId = c'.chunkId := blockOf_injective
    (Prod.ext ((h.mem c hc).2.trans (h.mem c' hc').2.symm) (UInt16.toNat_inj.1 heq))
  exact List.inj_on_of_nodup_map h.nodup hc hc' hid

/-- A bucket has no more chunks than its block. -/
theorem BucketOk.length_le {bucket : List EncryptedChunk} (h : BucketOk H b bucket)
    (hchunks : DistinctBelow totalChunks H) : bucket.length ≤ packetsInBlock b totalChunks := by
  have hsub : (bucket.map EncryptedChunk.index).toFinset
      ⊆ Finset.range (packetsInBlock b totalChunks) := by
    intro i hi
    obtain ⟨c, hc, rfl⟩ := List.mem_map.1 (List.mem_toFinset.1 hi)
    have hlt := blockOf_snd_lt (hchunks.below c (h.mem c hc).1)
    rw [show (blockOf c.chunkId).1 = b from (h.mem c hc).2] at hlt
    exact Finset.mem_range.2 hlt
  have hcard := Finset.card_le_card hsub
  rwa [List.toFinset_card_of_nodup h.nodup_index, List.length_map, Finset.card_range] at hcard

/-- The datagrams sent when a block is opened for its bucket. -/
def openOut (totalChunks b : UInt32) (bucket : List EncryptedChunk) : List Datagram :=
  bucketOut b (UInt32.ofNat (packetsInBlock b totalChunks)) (packetsInBlock b totalChunks) bucket

theorem openPending_ok (h : Bookkeeping totalChunks pipelineDepth H m)
    {bucket : List EncryptedChunk} (hl : m.blockStates.lookup b = some (.pending bucket))
    (hok : openPending totalChunks b m = .ok m') :
    BucketPlaced b (.new (packetsInBlock b totalChunks) m.now) bucket
      (openOut totalChunks b bucket) m m' := by
  have hbucket : BucketOk H b bucket := h.slots _ _ hl
  rw [openPending, hl] at hok
  have hroom : (BlockState.new (packetsInBlock b totalChunks) m.now).sent + bucket.length
      ≤ (BlockState.new (packetsInBlock b totalChunks) m.now).total := by
    have hle := hbucket.length_le h.chunks
    simp only [BlockState.new]
    omega
  obtain ⟨hentry, hother, hudp⟩ := placeBucket_ok hok (AList.lookup_insert _) (by rintro ⟨⟩) hroom
    hbucket.nodup_index
  refine ⟨hentry, fun b' hb' => ?_, hudp⟩
  rw [hother b' hb', Manager.openBlock, AList.lookup_insert_ne hb', AList.lookup_erase_ne hb']

end SecureTransfer.Sender
