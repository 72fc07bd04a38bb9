import SecureTransfer.Sender.EarlyExit

set_option autoImplicit false

/-! # What the manager can do by itself

Without events the manager has two means: draining, which it has exhausted whenever it waits, and
the whole-block fallback, which an `Open` block has once. -/

namespace SecureTransfer.Sender

variable {totalChunks : UInt32} {pipelineDepth : ℕ} {H : Set EncryptedChunk} {m m' : Manager}
  {b : UInt32}

/-! ## Draining is exhausted -/

/-- No block waits for a slot, or no slot is free. -/
def Manager.Drained (pipelineDepth : ℕ) (m : Manager) : Prop :=
  m.nextPending = none ∨ pipelineDepth ≤ m.openSlots

theorem drainRounds_drained {room : ℕ} (h : drainRounds totalChunks room m = .ok m') :
    m'.nextPending = none ∨ m'.openSlots = m.openSlots + room := by
  refine drainRounds_ok_rule
    (P := fun room m m' => m'.nextPending = none ∨ m'.openSlots = m.openSlots + room) ?_ ?_ h
  · rintro room m (rfl | hnone)
    · exact .inr rfl
    · exact .inl hnone
  · intro room nextId m mid m' _ hopen ih
    refine ih.imp id fun hslots => ?_
    rw [hslots, (openPending_keeps hopen).2]
    omega

theorem drainPending_drained (h : drainPending totalChunks pipelineDepth m = .ok m') :
    m'.Drained pipelineDepth := by
  refine (drainRounds_drained h).imp id fun hslots => ?_
  omega

/-- The manager with which the thread waits in `recv_timeout`, or is going to. -/
def Loop.WaitsWith (totalChunks : UInt32) (pipelineDepth : ℕ) : Loop → Manager → Prop
  | .wait _ m, m' => m = m'
  | .head m, m' => drainPending totalChunks pipelineDepth m = .ok m'
  | .returned _ _, _ => False
  | .panicked _, _ => False

theorem drained_of_reaches {ls : List LoopInput} {s : Loop}
    (hrun : (blockManager totalChunks pipelineDepth).Reaches ls s) :
    ∀ deadline m, s = .wait deadline m → m.Drained pipelineDepth := by
  refine hrun.invariant (P := fun s => ∀ deadline m, s = .wait deadline m →
    m.Drained pipelineDepth) nofun fun s l s' ih _ hstep => ?_
  cases Loop.turn_of_step hstep with
  | wait hdrain => rintro _ _ ⟨⟩; exact drainPending_drained hdrain
  | tickWait =>
      rintro _ _ ⟨⟩
      have hold := ih _ _ rfl
      exact hold
  | _ => nofun

/-! ## The one-shot fallback -/

/-- The block is `Open` and has not been sent as a whole again. -/
def Manager.FallbackLeft (m : Manager) (b : UInt32) (entry : BlockState) : Prop :=
  m.blockStates.lookup b = some (.opened entry) ∧ entry.fallbackSent = false

/-- After the clock has advanced by `dt`, `retransmit_stale_blocks` sends something. -/
def Manager.ResendsAfter (m : Manager) (dt : Duration) : Prop :=
  ∀ order, order.Perm m.blockStates.keys →
    m.udp.length < (retransmitStaleBlocks order { m with now := m.now + dt }).udp.length

theorem retransmitStale_other {now : Instant} {b' : UInt32} (h : b' ≠ b) :
    (retransmitStale now m b).blockStates.lookup b' = m.blockStates.lookup b' := by
  obtain heq | ⟨entry, -, -, -, heq⟩ := retransmitStale_cases now m b
  · rw [heq]
  · rw [heq]
    exact AList.lookup_insert_ne h

/-- A due block sends its packets and its `BlockEnd`, whatever the other blocks do first. -/
theorem foldl_retransmitStale_sends {now : Instant} {entry : BlockState} {order : List UInt32}
    (hleft : m.FallbackLeft b entry) (hend : entry.endEmitted = true)
    (hdue : fromMillis wholeBlockRetransmitTimeoutMs ≤ now - entry.lastAckActivity)
    (hb : b ∈ order) :
    m.udp.length < (order.foldl (retransmitStale now) m).udp.length := by
  have hkeeps : ∀ (order : List UInt32) (m : Manager),
      m.udp.length ≤ (order.foldl (retransmitStale now) m).udp.length := fun order m =>
    foldl_retransmitStale_rule (P := fun m' => m.udp.length ≤ m'.udp.length)
      (fun b _ h => h.trans (retransmitStale_keeps now b).udp.length_le) order le_rfl
  induction order generalizing m with
  | nil => cases hb
  | cons b' order ih =>
      rw [List.foldl_cons]
      by_cases hbb : b = b'
      · subst hbb
        refine lt_of_lt_of_le ?_ (hkeeps order _)
        rw [retransmitStale, hleft.1]
        have hnot : ¬ (entry.endEmitted = false ∨ entry.fallbackSent = true) := by
          simp [hend, hleft.2]
        simp only [if_neg hnot, if_neg (Nat.not_lt.2 hdue)]
        simp [Manager.setSlot, Manager.send]
      · have hrest : b ∈ order := (List.mem_cons.1 hb).resolve_left hbb
        have hleft' : (retransmitStale now m b').FallbackLeft b entry :=
          ⟨by rw [retransmitStale_other hbb]; exact hleft.1, hleft.2⟩
        exact lt_of_le_of_lt (retransmitStale_keeps now b').udp.length_le (ih hleft' hrest)

/-- With every fallback used, nothing is sent however late it gets. -/
theorem foldl_retransmitStale_idle {now : Instant} (h : ∀ b entry, ¬ m.FallbackLeft b entry)
    (order : List UInt32) : order.foldl (retransmitStale now) m = m := by
  have hstep : ∀ b, retransmitStale now m b = m := by
    intro b
    obtain heq | ⟨entry, hl, -, hleft, -⟩ := retransmitStale_cases now m b
    · exact heq
    · exact absurd ⟨hl, hleft⟩ (h b entry)
  exact foldl_retransmitStale_rule (P := fun m' => m' = m)
    (fun b m' h => by rw [h, hstep]) order rfl

/-- Wait long enough, and any timeout has passed. -/
theorem exists_elapsed (now last timeout : ℕ) : ∃ dt₀, ∀ dt ≥ dt₀, timeout ≤ now + dt - last :=
  ⟨last + timeout, by omega⟩

/-- A block with its fallback left is resent in time. -/
theorem Manager.FallbackLeft.resends {entry : BlockState} (h : m.FallbackLeft b entry)
    (hend : entry.endEmitted = true) : ∃ dt₀, ∀ dt ≥ dt₀, m.ResendsAfter dt := by
  have hkeys : b ∈ m.blockStates.keys := by
    rw [← AList.mem_keys, ← AList.lookup_isSome, h.1]
    rfl
  obtain ⟨dt₀, hdue⟩ := exists_elapsed m.now entry.lastAckActivity
    (fromMillis wholeBlockRetransmitTimeoutMs)
  refine ⟨dt₀, fun dt hdt order horder => ?_⟩
  have hleft : Manager.FallbackLeft { m with now := m.now + dt } b entry := h
  exact foldl_retransmitStale_sends hleft hend (hdue dt hdt) (horder.mem_iff.2 hkeys)

/-- With no fallback left, nothing is ever resent. -/
theorem silent_of_no_fallback (h : ∀ b entry, ¬ m.FallbackLeft b entry) (dt : Duration)
    (order : List UInt32) :
    (retransmitStaleBlocks order { m with now := m.now + dt }).udp = m.udp := by
  have hnone : ∀ b entry, ¬ Manager.FallbackLeft { m with now := m.now + dt } b entry := h
  rw [retransmitStaleBlocks, foldl_retransmitStale_idle hnone]

/-! ## When all chunks have been handed over -/

/-- Every packet of an `Open` block is cached, so its `BlockEnd` is out. -/
theorem Bookkeeping.endEmitted (h : Bookkeeping totalChunks pipelineDepth H m)
    (hall : ∀ chunkId < totalChunks, ∃ c ∈ H, c.chunkId = chunkId) {entry : BlockState}
    (hl : m.blockStates.lookup b = some (.opened entry)) : entry.endEmitted = true := by
  have hentry : EntryOk totalChunks H b entry := h.slots b _ hl
  rw [hentry.endEmitted, hentry.sent, ← hentry.length, List.countP_eq_length]
  intro packet hpacket
  obtain ⟨i, hi⟩ := List.mem_iff_getElem?.1 hpacket
  have hlt : i < packetsInBlock b totalChunks := by
    rw [← hentry.total, ← hentry.length]
    exact (List.getElem?_eq_some_iff.1 hi).1
  have hi16 : (UInt16.ofNat i).toNat = i := by
    have hsmall : i < 2 ^ 16 := lt_of_lt_of_le hlt
      ((packetsInBlock_le b totalChunks).trans (by decide))
    exact UInt16.toNat_ofNat_of_lt' hsmall
  have hin : (UInt16.ofNat i).toNat < packetsInBlock b totalChunks := hi16.symm ▸ hlt
  obtain ⟨_, hid, hblock, _⟩ := chunkIdOf_spec hin
  obtain ⟨c, hc, hcid⟩ := hall _ hid
  obtain ⟨slot, hslot, hholds⟩ := h.placed c hc
  have hcblock : EncryptedChunk.block c = b := by
    rw [EncryptedChunk.block, hcid, hblock]
  have hcindex : EncryptedChunk.index c = i := by
    rw [EncryptedChunk.index, hcid, hblock, hi16]
  rw [hcblock, hl] at hslot
  cases hslot
  have hcached : entry.packets[EncryptedChunk.index c]? = some (some c.packet) := hholds
  rw [hcindex, hi] at hcached
  cases hcached
  rfl

/-- A drained manager with a block unresolved has one that is `Open`. -/
theorem Bookkeeping.exists_opened (h : Bookkeeping totalChunks pipelineDepth H m)
    (hall : ∀ chunkId < totalChunks, ∃ c ∈ H, c.chunkId = chunkId)
    (hdrained : m.Drained pipelineDepth) (hdepth : 0 < pipelineDepth)
    (hb : b < totalBlocks totalChunks) (hunresolved : ¬ m.Resolved b) :
    ∃ b' entry, m.blockStates.lookup b' = some (.opened entry) := by
  have hin : (0 : UInt16).toNat < packetsInBlock b totalChunks := packetsInBlock_pos_iff.2 hb
  obtain ⟨_, hid, hblock, _⟩ := chunkIdOf_spec hin
  obtain ⟨c, hc, hcid⟩ := hall _ hid
  obtain ⟨slot, hslot, _⟩ := h.placed c hc
  have hcblock : EncryptedChunk.block c = b := by
    rw [EncryptedChunk.block, hcid, hblock]
  rw [hcblock] at hslot
  cases slot with
  | opened entry => exact ⟨b, entry, hslot⟩
  | resolved => exact absurd hslot hunresolved
  | pending bucket =>
      -- a block waits, so all slots are taken
      rcases hdrained with hnone | hfull
      · have hmem : b ∈ (m.blockStates.entries.filter fun e => e.2.isPending).map Sigma.fst :=
          List.mem_map.2 ⟨⟨b, .pending bucket⟩,
            List.mem_filter.2 ⟨AList.mem_entries_iff_lookup.2 hslot, rfl⟩, rfl⟩
        rw [Manager.nextPending, List.min?_eq_none_iff] at hnone
        rw [hnone] at hmem
        cases hmem
      · have hcard : 0 < (m.blockStates.keysWhere BlockSlot.isOpened).card := by
          rw [AList.card_keysWhere, ← h.openSlots]
          omega
        obtain ⟨b', hb'⟩ := Finset.card_pos.1 hcard
        obtain ⟨slot, hl, hopened⟩ := AList.mem_keysWhere.1 hb'
        cases slot with
        | opened entry => exact ⟨b', entry, hl⟩
        | pending _ => cases hopened
        | resolved => cases hopened

end SecureTransfer.Sender
