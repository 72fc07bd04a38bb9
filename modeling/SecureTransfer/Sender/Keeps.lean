import SecureTransfer.Sender.Bookkeeping

set_option autoImplicit false

/-! # What the manager's functions do

`Keeps m m'` is what every function of the manager except the `Complete` arm guarantees whenever it
returns, whatever the input: datagrams are only appended, no block is resolved or reopened, a started
block stays started, and `completed` and the clock stand still. Beside it stand the inversions of
the functions (`Admission`, `openPending_inv`, `handleMissing_cases`, `retransmitStale_cases`) and
one rule for each of their loops (`placeBucket_rule`, `drainRounds_rule`,
`retransmitStaleBlocks_rule`), of which the invariants of the manager are instances. -/

namespace SecureTransfer.Sender

variable {totalChunks : UInt32} {pipelineDepth : ℕ} {m m' m'' : Manager}

structure Keeps (m m' : Manager) : Prop where
  udp : m.udp <+: m'.udp
  resolved : ∀ b, m'.Resolved b ↔ m.Resolved b
  started : ∀ b, m.Started b → m'.Started b
  completed : m'.completed = m.completed
  now : m'.now = m.now

theorem Keeps.refl (m : Manager) : Keeps m m :=
  ⟨List.prefix_rfl, fun _ => Iff.rfl, fun _ h => h, rfl, rfl⟩

theorem Keeps.trans (h₁ : Keeps m m') (h₂ : Keeps m' m'') : Keeps m m'' :=
  ⟨h₁.udp.trans h₂.udp, fun b => (h₂.resolved b).trans (h₁.resolved b),
    fun b h => h₂.started b (h₁.started b h), h₂.completed.trans h₁.completed, h₂.now.trans h₁.now⟩

/-- Rebinding a block that is not resolved to a slot that is not. -/
theorem Keeps.rebind (blockId : UInt32) (slot' : BlockSlot) (out : List Datagram)
    (hold : m.blockStates.lookup blockId ≠ some .resolved) (hnew : slot' ≠ .resolved)
    (hstarted : m.Started blockId → slot'.isStarted = true)
    (hstates : m'.blockStates = m.blockStates.insert blockId slot')
    (hudp : m'.udp = m.udp ++ out) (hcompleted : m'.completed = m.completed)
    (hnow : m'.now = m.now) : Keeps m m' where
  udp := hudp ▸ List.prefix_append _ _
  resolved := by
    intro b
    rw [Manager.Resolved, Manager.Resolved, hstates, AList.lookup_insert_ite]
    by_cases hb : b = blockId
    · subst hb
      rw [if_pos rfl]
      exact ⟨fun h => absurd (Option.some.inj h) hnew, fun h => absurd h hold⟩
    · rw [if_neg hb]
  started := by
    rintro b ⟨slot, hl, hs⟩
    rw [Manager.Started, hstates, AList.lookup_insert_ite]
    by_cases hb : b = blockId
    · exact ⟨slot', if_pos hb, hstarted (hb ▸ ⟨slot, hl, hs⟩)⟩
    · exact ⟨slot, by rw [if_neg hb]; exact hl, hs⟩
  completed := hcompleted
  now := hnow

theorem Manager.mem_keysWhere_isResolved {b : UInt32} :
    b ∈ m.blockStates.keysWhere BlockSlot.isResolved ↔ m.Resolved b := by
  rw [AList.mem_keysWhere]
  constructor
  · rintro ⟨slot, hl, hs⟩
    cases slot with
    | resolved => exact hl
    | pending _ => simp [BlockSlot.isResolved] at hs
    | opened _ => simp [BlockSlot.isResolved] at hs
  · exact fun hl => ⟨.resolved, hl, rfl⟩

theorem Keeps.countResolved (h : Keeps m m') :
    m'.blockStates.countValues BlockSlot.isResolved
      = m.blockStates.countValues BlockSlot.isResolved := by
  rw [← AList.card_keysWhere, ← AList.card_keysWhere]
  congr 1
  ext b
  rw [Manager.mem_keysWhere_isResolved, Manager.mem_keysWhere_isResolved, h.resolved b]

/-! ## The functions -/

/-- What `place_chunk` does when it returns. -/
theorem placeChunk_inv {blockId : UInt32} {packetInBlock : UInt16} {chunk : EncryptedChunk}
    (h : placeChunk blockId packetInBlock chunk m = .ok m') :
    ∃ entry entry' out, m.blockStates.lookup blockId = some (.opened entry) ∧
      m'.blockStates = m.blockStates.insert blockId (.opened entry') ∧
      entry'.packets = entry.packets.set packetInBlock.toNat (some chunk.packet) ∧
      m'.udp = m.udp ++ out ∧ m'.openSlots = m.openSlots ∧ m'.completed = m.completed ∧
      m'.now = m.now := by
  unfold placeChunk at h
  split at h
  · next entry hl =>
      split at h
      · dsimp only at h
        split at h
        · split at h
          · cases h
            exact ⟨entry, _, _, hl, rfl, rfl, List.append_assoc _ _ _, rfl, rfl, rfl⟩
          · cases h
        · cases h
          exact ⟨entry, _, _, hl, rfl, rfl, rfl, rfl, rfl, rfl⟩
      · cases h
  · cases h

theorem placeChunk_keeps {blockId : UInt32} {packetInBlock : UInt16} {chunk : EncryptedChunk}
    (h : placeChunk blockId packetInBlock chunk m = .ok m') :
    Keeps m m' ∧ m'.openSlots = m.openSlots := by
  obtain ⟨entry, entry', out, hl, hstates, -, hudp, hopen, hcompleted, hnow⟩ := placeChunk_inv h
  refine ⟨.rebind blockId (.opened entry') out ?_ ?_ (fun _ => rfl) hstates hudp hcompleted hnow,
    hopen⟩
  · rw [hl]; simp
  · simp

theorem openBlock_keeps {blockId : UInt32} (h : m.blockStates.lookup blockId = none) :
    Keeps m (m.openBlock totalChunks blockId) := by
  refine .rebind blockId _ [] ?_ ?_ (fun _ => rfl) rfl (by simp [Manager.openBlock]) rfl rfl
  · rw [h]; simp
  · simp

/-- Buffering a chunk of a block that is not open. -/
theorem bufferChunk_keeps {blockId : UInt32} {bucket : List EncryptedChunk}
    (h : m.blockStates.lookup blockId = none ∨
      ∃ bucket, m.blockStates.lookup blockId = some (.pending bucket)) :
    Keeps m (m.setSlot blockId (.pending bucket)) := by
  refine .rebind blockId _ [] ?_ ?_ ?_ rfl (by simp [Manager.setSlot]) rfl rfl
  · rcases h with h | ⟨_, h⟩ <;> rw [h] <;> simp
  · simp
  · rintro ⟨slot, hl, hs⟩
    rcases h with h | ⟨_, h⟩ <;> rw [h] at hl <;> cases hl
    exact hs

/-- What `admit_or_buffer` does when it returns. -/
inductive Admission (totalChunks : UInt32) (pipelineDepth : ℕ) (c : EncryptedChunk) (m : Manager) :
    Manager → Prop
  /-- The block is resolved, the chunk dropped. -/
  | drop (hl : m.Resolved (EncryptedChunk.block c)) : Admission totalChunks pipelineDepth c m m
  | place {entry : BlockState} {m' : Manager}
      (hl : m.blockStates.lookup (EncryptedChunk.block c) = some (.opened entry))
      (hplace : placeChunk (EncryptedChunk.block c) (blockOf c.chunkId).2 c m = .ok m') :
      Admission totalChunks pipelineDepth c m m'
  | append {bucket : List EncryptedChunk}
      (hl : m.blockStates.lookup (EncryptedChunk.block c) = some (.pending bucket)) :
      Admission totalChunks pipelineDepth c m
        (m.setSlot (EncryptedChunk.block c) (.pending (bucket ++ [c])))
  | openBlock {m' : Manager} (hl : m.blockStates.lookup (EncryptedChunk.block c) = none)
      (hroom : m.openSlots < pipelineDepth)
      (hplace : placeChunk (EncryptedChunk.block c) (blockOf c.chunkId).2 c
        (m.openBlock totalChunks (EncryptedChunk.block c)) = .ok m') :
      Admission totalChunks pipelineDepth c m m'
  | buffer (hl : m.blockStates.lookup (EncryptedChunk.block c) = none)
      (hfull : ¬ m.openSlots < pipelineDepth) :
      Admission totalChunks pipelineDepth c m (m.setSlot (EncryptedChunk.block c) (.pending [c]))

theorem admission_of_ok {c : EncryptedChunk}
    (h : admitOrBuffer totalChunks pipelineDepth c m = .ok m') :
    Admission totalChunks pipelineDepth c m m' := by
  unfold admitOrBuffer at h
  dsimp only at h
  split at h
  · next hl => cases h; exact .drop hl
  · next hl => exact .place hl h
  · next hl => cases h; exact .append hl
  · next hl =>
      split at h
      · next hroom => exact .openBlock hl hroom h
      · next hfull => cases h; exact .buffer hl hfull

theorem admitOrBuffer_keeps {c : EncryptedChunk}
    (h : admitOrBuffer totalChunks pipelineDepth c m = .ok m') : Keeps m m' := by
  cases admission_of_ok h with
  | drop => exact .refl m
  | place _ hplace => exact (placeChunk_keeps hplace).1
  | append hl => exact bufferChunk_keeps (.inr ⟨_, hl⟩)
  | openBlock hl _ hplace => exact (openBlock_keeps hl).trans (placeChunk_keeps hplace).1
  | buffer hl => exact bufferChunk_keeps (.inl hl)

/-- Placing a bucket that is not empty: its first chunk, then the rest. -/
theorem placeBucket_cons {nextId : UInt32} {c : EncryptedChunk} {bucket : List EncryptedChunk}
    (h : placeBucket nextId (c :: bucket) m = .ok m') :
    EncryptedChunk.block c = nextId ∧ ∃ mid,
      placeChunk nextId (blockOf c.chunkId).2 c m = .ok mid ∧
      placeBucket nextId bucket mid = .ok m' := by
  rw [placeBucket] at h
  dsimp only at h
  split at h
  · next hblock =>
      rw [hblock] at h
      cases hplace : placeChunk nextId (blockOf c.chunkId).2 c m with
      | error panic => rw [hplace] at h; cases h
      | ok mid =>
          rw [hplace] at h
          exact ⟨hblock, mid, rfl, h⟩
  · cases h

/-- **Bucket rule.** What holds of an empty bucket, and of a bucket whenever it holds of the rest
    behind its first chunk, holds of every bucket that is placed without a panic. -/
theorem placeBucket_rule {nextId : UInt32} {P : List EncryptedChunk → Manager → Manager → Prop}
    (hnil : ∀ m, P [] m m)
    (hcons : ∀ c bucket m mid m', EncryptedChunk.block c = nextId →
      placeChunk nextId (blockOf c.chunkId).2 c m = .ok mid → P bucket mid m' →
      P (c :: bucket) m m')
    {bucket : List EncryptedChunk} (h : placeBucket nextId bucket m = .ok m') : P bucket m m' := by
  induction bucket generalizing m with
  | nil => cases h; exact hnil _
  | cons c bucket ih =>
      obtain ⟨hblock, mid, hplace, hrest⟩ := placeBucket_cons h
      exact hcons c bucket m mid m' hblock hplace (ih hrest)

theorem placeBucket_keeps {nextId : UInt32} {bucket : List EncryptedChunk}
    (h : placeBucket nextId bucket m = .ok m') : Keeps m m' ∧ m'.openSlots = m.openSlots := by
  refine placeBucket_rule (P := fun _ m m' => Keeps m m' ∧ m'.openSlots = m.openSlots)
    (fun m => ⟨.refl m, rfl⟩) ?_ h
  intro c bucket m mid m' _ hplace ⟨hk₂, ho₂⟩
  obtain ⟨hk₁, ho₁⟩ := placeChunk_keeps hplace
  exact ⟨hk₁.trans hk₂, ho₂.trans ho₁⟩

/-- `block_states.remove(next_id)`. -/
abbrev Manager.takeBucket (m : Manager) (nextId : UInt32) : Manager :=
  { m with blockStates := m.blockStates.erase nextId }

theorem takeBucket_keeps {blockId : UInt32} {bucket : List EncryptedChunk}
    (hl : m.blockStates.lookup blockId = some (.pending bucket)) :
    Keeps m (m.takeBucket blockId) := by
  refine ⟨List.prefix_rfl, fun b => ?_, ?_, rfl, rfl⟩
  · simp only [Manager.Resolved, AList.lookup_erase_ite]
    split
    · next hb => rw [hb, hl]; simp
    · rfl
  · rintro b ⟨slot, hslot, hs⟩
    refine ⟨slot, ?_, hs⟩
    simp only [AList.lookup_erase_ite]
    split
    · next hb =>
        rw [hb, hl] at hslot
        cases hslot
        simp [BlockSlot.isStarted] at hs
    · exact hslot

/-- What a round of `drain_pending` does when it returns: the bucket is taken out of the map, the
    block opened and the bucket placed. -/
theorem openPending_inv {nextId : UInt32} (h : openPending totalChunks nextId m = .ok m') :
    ∃ bucket, m.blockStates.lookup nextId = some (.pending bucket) ∧
      placeBucket nextId bucket ((m.takeBucket nextId).openBlock totalChunks nextId) = .ok m' := by
  unfold openPending at h
  split at h
  · next bucket hl => exact ⟨bucket, hl, h⟩
  · cases h

theorem openPending_keeps {nextId : UInt32} (h : openPending totalChunks nextId m = .ok m') :
    Keeps m m' ∧ m'.openSlots = m.openSlots + 1 := by
  obtain ⟨bucket, hl, hplace⟩ := openPending_inv h
  obtain ⟨hk, ho⟩ := placeBucket_keeps hplace
  have hempty := AList.lookup_erase nextId m.blockStates
  exact ⟨((takeBucket_keeps hl).trans (openBlock_keeps hempty)).trans hk, ho⟩

/-- **Drain rule.** The loop of `drain_pending` ends with no slot or no bucket left, or with the
    panic of a round, or goes on behind a round. -/
theorem drainRounds_rule {P : ℕ → Manager → Except Panic Manager → Prop}
    (hdone : ∀ room m, room = 0 ∨ m.nextPending = none → P room m (.ok m))
    (hpanic : ∀ room nextId m panic, m.nextPending = some nextId →
      openPending totalChunks nextId m = .error panic → P (room + 1) m (.error panic))
    (hround : ∀ room nextId m mid r, m.nextPending = some nextId →
      openPending totalChunks nextId m = .ok mid → P room mid r → P (room + 1) m r)
    (room : ℕ) (m : Manager) : P room m (drainRounds totalChunks room m) := by
  induction room generalizing m with
  | zero => exact hdone 0 m (.inl rfl)
  | succ room ih =>
      rw [drainRounds]
      cases hnext : m.nextPending with
      | none => exact hdone _ m (.inr hnext)
      | some nextId =>
          dsimp only
          cases hopen : openPending totalChunks nextId m with
          | error panic => exact hpanic room nextId m panic hnext hopen
          | ok mid => exact hround room nextId m mid _ hnext hopen (ih mid)

/-- The rule for a loop that ends without a panic. -/
theorem drainRounds_ok_rule {P : ℕ → Manager → Manager → Prop}
    (hdone : ∀ room m, room = 0 ∨ m.nextPending = none → P room m m)
    (hround : ∀ room nextId m mid m', m.nextPending = some nextId →
      openPending totalChunks nextId m = .ok mid → P room mid m' → P (room + 1) m m')
    {room : ℕ} (h : drainRounds totalChunks room m = .ok m') : P room m m' := by
  refine drainRounds_rule (P := fun room m r => ∀ m', r = .ok m' → P room m m') ?_ nofun ?_
    room m m' h
  · rintro room m hended _ ⟨⟩
    exact hdone room m hended
  · intro room nextId m mid r hnext hopen ih m' hr
    exact hround room nextId m mid m' hnext hopen (ih m' hr)

theorem drainRounds_keeps {room : ℕ} (h : drainRounds totalChunks room m = .ok m') :
    Keeps m m' :=
  drainRounds_ok_rule (P := fun _ m m' => Keeps m m') (fun _ m _ => .refl m)
    (fun _ _ _ _ _ _ hopen hrest => (openPending_keeps hopen).1.trans hrest) h

/-- What the `Missing` arm does: nothing unless the block is `Open`, otherwise its entry is stamped
    and the packets asked for are sent out of the cache. -/
theorem handleMissing_cases (blockId : UInt32) (missing : List UInt16) (m : Manager) :
    (handleMissing blockId missing m = m ∧
      ∀ entry, m.blockStates.lookup blockId ≠ some (.opened entry)) ∨
    ∃ entry, m.blockStates.lookup blockId = some (.opened entry) ∧
      handleMissing blockId missing m
        = (m.setSlot blockId (.opened { entry with lastAckActivity := m.now })).send
          (missing.filterMap fun id => (entry.packets[id.toNat]?).join) := by
  unfold handleMissing
  split
  · next entry hl => exact .inr ⟨entry, hl, rfl⟩
  · next hother => exact .inl ⟨rfl, hother⟩

theorem handleMissing_keeps (blockId : UInt32) (missing : List UInt16) :
    Keeps m (handleMissing blockId missing m) := by
  obtain ⟨heq, -⟩ | ⟨entry, hl, heq⟩ := handleMissing_cases blockId missing m
  · rw [heq]
    exact .refl m
  · rw [heq]
    refine .rebind blockId _ _ ?_ ?_ (fun _ => rfl) rfl rfl rfl rfl
    · rw [hl]; simp
    · simp

/-- What the fallback does with a map entry: nothing, or the block is due for the first time, all
    that is cached and the `BlockEnd` are sent, and the entry is stamped and marked. -/
theorem retransmitStale_cases (now : Instant) (m : Manager) (blockId : UInt32) :
    retransmitStale now m blockId = m ∨
    ∃ entry, m.blockStates.lookup blockId = some (.opened entry) ∧ entry.endEmitted = true ∧
      entry.fallbackSent = false ∧
      retransmitStale now m blockId
        = (m.send (entry.packets.filterMap id ++
            [BlockEndPacket.encode blockId (UInt32.ofNat entry.total)])).setSlot blockId
          (.opened { entry with fallbackSent := true, lastAckActivity := m.now }) := by
  unfold retransmitStale
  split
  · next entry hl =>
      split
      · exact .inl rfl
      · next hfirst =>
          rw [not_or, Bool.not_eq_false, Bool.not_eq_true] at hfirst
          split
          · exact .inl rfl
          · refine .inr ⟨entry, hl, hfirst.1, hfirst.2, ?_⟩
            simp only [Manager.send, List.append_assoc]
  · exact .inl rfl

theorem retransmitStale_keeps (now : Instant) (blockId : UInt32) :
    Keeps m (retransmitStale now m blockId) := by
  obtain heq | ⟨entry, hl, -, -, heq⟩ := retransmitStale_cases now m blockId
  · rw [heq]
    exact .refl m
  · rw [heq]
    refine .rebind blockId _ _ ?_ ?_ (fun _ => rfl) rfl rfl rfl rfl
    · rw [hl]; simp
    · simp

/-- **Fallback rule.** What survives the visit of one block survives the loop of
    `retransmit_stale_blocks`. -/
theorem foldl_retransmitStale_rule {P : Manager → Prop} {now : Instant}
    (hvisit : ∀ b m, P m → P (retransmitStale now m b)) (order : List UInt32) (h : P m) :
    P (order.foldl (retransmitStale now) m) :=
  List.foldlRecOn order _ h fun m hm b _ => hvisit b m hm

theorem retransmitStaleBlocks_rule {P : Manager → Prop}
    (hvisit : ∀ now b m, P m → P (retransmitStale now m b)) (order : List UInt32) (h : P m) :
    P (retransmitStaleBlocks order m) :=
  foldl_retransmitStale_rule (hvisit m.now) order h

theorem retransmitStaleBlocks_keeps (order : List UInt32) :
    Keeps m (retransmitStaleBlocks order m) :=
  retransmitStaleBlocks_rule (P := Keeps m)
    (fun now b _ h => h.trans (retransmitStale_keeps now b)) order (.refl m)

/-- What the `Complete` arm does when it returns: nothing for a resolved block; otherwise the block
    is resolved and counted, and an `Open` block gives its slot back. -/
theorem handleComplete_inv {blockId : UInt32} (h : handleComplete blockId m = .ok m') :
    (m.Resolved blockId ∧ m' = m) ∨
    (¬ m.Resolved blockId ∧
      m'.blockStates = m.blockStates.insert blockId .resolved ∧
      m'.completed = m.completed + 1 ∧ m'.udp = m.udp ∧ m'.now = m.now ∧
      m'.openSlots + (m.blockStates.lookup blockId).elim 0 (fun s => s.isOpened.toNat)
        = m.openSlots) := by
  unfold handleComplete at h
  dsimp only at h
  split at h
  · next hl => cases h; exact .inl ⟨hl, rfl⟩
  · next entry hl =>
      split at h
      · cases h
      · next hpos =>
          cases h
          refine .inr ⟨by simp [Manager.Resolved, hl], rfl, rfl, rfl, rfl, ?_⟩
          rw [hl]
          simp only [Option.elim_some, BlockSlot.isOpened, Bool.toNat_true]
          omega
  · next bucket hl =>
      cases h
      exact .inr ⟨by simp [Manager.Resolved, hl], rfl, rfl, rfl, rfl, by rw [hl]; rfl⟩
  · next hl =>
      cases h
      exact .inr ⟨by simp [Manager.Resolved, hl], rfl, rfl, rfl, rfl, by rw [hl]; rfl⟩

/-- Resolving a block that was not resolved adds one to the number of resolved blocks. -/
theorem countResolved_insert {blockId : UInt32} (h : ¬ m.Resolved blockId) :
    (m.blockStates.insert blockId .resolved).countValues BlockSlot.isResolved
      = m.blockStates.countValues BlockSlot.isResolved + 1 := by
  have hcount := AList.countValues_insert (p := BlockSlot.isResolved) (m := m.blockStates)
    blockId .resolved
  cases hl : m.blockStates.lookup blockId with
  | none => rw [hl] at hcount; exact hcount
  | some slot =>
      rw [hl] at hcount
      cases slot with
      | resolved => exact absurd hl h
      | pending _ => exact hcount
      | opened _ => exact hcount

end SecureTransfer.Sender
