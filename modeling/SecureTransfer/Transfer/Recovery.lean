import SecureTransfer.Sender.Fallback
import SecureTransfer.Transfer.FileTransfer
import SecureTransfer.Transfer.Lifecycle

set_option autoImplicit false

/-! # When a silent network is recovered from

All chunks are with the manager and nothing is in flight: what can still happen is up to the two
clocks. The receiver asks for what it misses of the blocks it tracks; of a block it has never heard
of it cannot, and there everything depends on the sender's one-shot fallback. -/

namespace SecureTransfer.Transfer

open Sender Receiver

variable {setup : Setup} {upload : Upload setup.expectedChunks} {ls : List Label} {w : World}
  {inputs : List LoopInput} {labels : List Receiver.Label} {m m₀ : Manager} {b : UInt32}

/-! ## The receiver's clock -/

/-- What `ready_for_check` returns when the clock has advanced by `dt`. -/
def readyAfter (r : Threads) (dt : Duration) : List UInt32 :=
  r.control.shared.readyForCheck (fromMillis blockGracePeriodMs) (fromMillis blockIdleTimeoutMs)
    (r.now + dt)

/-- A tracked block is checked in time. -/
theorem ready_of_tracked {r : Threads} {entry : BlockRxEntry}
    (h : r.control.shared.Tracked b entry) : ∃ dt₀, ∀ dt ≥ dt₀, b ∈ readyAfter r dt := by
  obtain ⟨dt₀, hidle⟩ := exists_elapsed r.now entry.lastActivity (fromMillis blockIdleTimeoutMs)
  exact ⟨dt₀, fun dt hdt =>
    ReceiverInner.mem_readyForCheck.2 ⟨entry, h, BlockRxEntry.isReady_of_idle fromMillis_grace_le (hidle dt hdt)⟩⟩

theorem not_ready_of_untracked {r : Threads} (h : ∀ b entry, ¬ r.control.shared.Tracked b entry)
    (dt : Duration) : readyAfter r dt = [] := by
  rw [List.eq_nil_iff_forall_not_mem]
  intro b hb
  obtain ⟨entry, ht, _⟩ := ReceiverInner.mem_readyForCheck.1 hb
  exact h b entry ht

/-! ## The sender's -/

/-- Every `Complete` that has been handled named a block of the file. -/
theorem Parties.resolved_lt (h : Parties setup upload ls w inputs labels)
    (hm : w.sender.manager? = some m) (hb : m.Resolved b) : b < totalBlocks setup.expectedChunks := by
  have hacks : .complete b ∈ w.receiver.control.acks.take w.acksRead := by
    rw [← h.acks]
    exact List.mem_append_left _ ((h.resolved hm).1 hb)
  exact (h.named hm (named_of_complete h.acks_inv (List.mem_of_mem_take hacks))).2

/-- With a block unresolved the manager waits or is about to, and it has drained. -/
theorem waits_of_unresolved (hrun : (transfer setup upload).Reaches ls w)
    (h : Parties setup upload ls w inputs labels) (hm : w.sender.manager? = some m₀)
    (hb : b < totalBlocks setup.expectedChunks) (hunresolved : ¬ m₀.Resolved b) :
    ∃ m, w.sender.WaitsWith setup.expectedChunks pipelineDepth m ∧ m.Drained pipelineDepth ∧
      ¬ m.Resolved b ∧
      Bookkeeping setup.expectedChunks pipelineDepth (bucketSet (handledChunks inputs)) m := by
  obtain ⟨m₁, hm₁, hbooks⟩ := h.books
  have htally := tally_of_reaches h.sender
  cases hs : w.sender with
  | head m₂ =>
      rw [hs] at hm hm₁
      cases hm
      cases hm₁
      obtain ⟨m, hdrain, hbooks'⟩ := hbooks.drainPending
      refine ⟨m, hdrain, drainPending_drained hdrain, ?_, hbooks'⟩
      rwa [(drainRounds_keeps hdrain).resolved b]
  | wait deadline m₂ =>
      have hdrained := drained_of_reaches h.sender deadline m₂ hs
      rw [hs] at hm hm₁
      cases hm
      cases hm₁
      exact ⟨_, rfl, hdrained, hunresolved, hbooks⟩
  | returned m₂ result =>
      cases result with
      | error e => exact absurd hs (not_returned_error hrun m₂ e)
      | ok bytes =>
          -- the counter is full, and it only counts blocks of the file
          have hm₂ := hm
          have hpaced := htally.paced
          rw [hs] at hm₂ hpaced
          cases hm₂
          have hcard : (totalBlocks setup.expectedChunks).toNat
              ≤ (m₀.blockStates.keysWhere BlockSlot.isResolved).card := by
            rw [AList.card_keysWhere, ← htally.counted m₀ hm]
            exact hpaced.ge
          have hall := (all_below_iff_le_card fun b' hb' =>
            h.resolved_lt hm (Manager.mem_keysWhere_isResolved.1 hb')).2 hcard b hb
          exact absurd (Manager.mem_keysWhere_isResolved.1 hall) hunresolved
  | panicked panic => rw [hs] at hm; cases hm

/-! ## Both -/

/-- **Recovery.** All chunks of the file have been handed to the manager, no event and no ack is on
    its way, and some block is not resolved. Then the ack manager still polls and some block is
    `Open` with its `BlockEnd` out; and if the receiver tracks a block or an `Open` block has its
    fallback left, then from some time on the receiver finds a block to check or the sender resends
    one. If not, neither ever happens. -/
theorem recovery_enabled_iff (hrun : (transfer setup upload).Reaches ls w)
    (hfull : ∀ chunkId < setup.expectedChunks, ∃ c ∈ upload.chunks, c.chunkId = chunkId)
    (hupstream : w.upstream = []) (hevents : w.events = [])
    (hread : w.acksRead = w.receiver.control.acks.length) (hm : w.sender.manager? = some m₀)
    (hb : b < totalBlocks setup.expectedChunks) (hunresolved : ¬ m₀.Resolved b) :
    w.receiver.control.ack ≠ .exited .ok ∧
    ∃ m, w.sender.WaitsWith setup.expectedChunks pipelineDepth m ∧
      (∃ b' entry, m.blockStates.lookup b' = some (.opened entry) ∧ entry.endEmitted = true) ∧
      (((∃ b' entry, w.receiver.control.shared.Tracked b' entry) ∨
          ∃ b' entry, m.FallbackLeft b' entry) →
        ∃ dt₀, ∀ dt ≥ dt₀, readyAfter w.receiver dt ≠ [] ∨ m.ResendsAfter dt) ∧
      (¬ ((∃ b' entry, w.receiver.control.shared.Tracked b' entry) ∨
          ∃ b' entry, m.FallbackLeft b' entry) →
        ∀ dt, readyAfter w.receiver dt = [] ∧
          ∀ order, (retransmitStaleBlocks order { m with now := m.now + dt }).udp = m.udp) := by
  obtain ⟨inputs, labels, h⟩ := parties_of_reaches hrun
  refine ⟨fun hexited => ?_, ?_⟩
  · exact hunresolved ((h.all_resolved hm hexited hread (by simp [hevents])).1 b hb)
  obtain ⟨m, hwaits, hdrained, hunresolved', hbooks⟩ :=
    waits_of_unresolved hrun h hm hb hunresolved
  have hall : ∀ chunkId < setup.expectedChunks, ∃ c ∈ bucketSet (handledChunks inputs),
      c.chunkId = chunkId := by
    intro chunkId hid
    obtain ⟨c, hc, hcid⟩ := hfull chunkId hid
    have hchunks := h.chunks
    rw [hevents, hupstream, List.filterMap_nil, List.append_nil, List.append_nil] at hchunks
    exact ⟨c, hchunks.mem_iff.2 hc, hcid⟩
  have hend : ∀ b' entry, m.blockStates.lookup b' = some (.opened entry) →
      entry.endEmitted = true := fun _ _ hl => hbooks.endEmitted hall hl
  obtain ⟨b', entry, hopened⟩ :=
    hbooks.exists_opened hall hdrained (by decide) hb hunresolved'
  refine ⟨m, hwaits, ⟨b', entry, hopened, hend b' entry hopened⟩, ?_, ?_⟩
  · rintro (⟨b', entry, ht⟩ | ⟨b', entry, hleft⟩)
    · obtain ⟨dt₀, hready⟩ := ready_of_tracked ht
      exact ⟨dt₀, fun dt hdt => .inl (List.ne_nil_of_mem (hready dt hdt))⟩
    · obtain ⟨dt₀, hresends⟩ := hleft.resends (hend b' entry hleft.1)
      exact ⟨dt₀, fun dt hdt => .inr (hresends dt hdt)⟩
  · intro hnone dt
    exact ⟨not_ready_of_untracked (fun b' entry ht => hnone (.inl ⟨b', entry, ht⟩)) dt,
      silent_of_no_fallback (fun b' entry hleft => hnone (.inr ⟨b', entry, hleft⟩)) dt⟩

/-- The network loses both datagrams of `threeBytes`. -/
def threeBytesLost : List Label :=
  [.lose threeBytesPacket.packet, .lose (BlockEndPacket.encode 0 1)]

/-- They are lost once: the fallback is left. -/
theorem recovery_enabled_iff_lostOnce :
    ∃ ls w m, (transfer threeBytes.setup threeBytes.upload).Reaches ls w ∧ w.wire = [] ∧
      w.sender.WaitsWith threeBytes.setup.expectedChunks pipelineDepth m ∧
      ∃ b entry, m.blockStates.lookup b = some (.opened entry) ∧ entry.endEmitted = true := by
  obtain ⟨w, hw, hupstream, hevents, hwire, hread, hcount⟩ := Lts.exists_exec
    (transfer threeBytes.setup threeBytes.upload) (threeBytesSent ++ threeBytesLost)
    (fun w => w.upstream = [] ∧ w.events = [] ∧ w.wire = [] ∧
      w.acksRead = w.receiver.control.acks.length ∧
      (w.sender.manager?.map fun m => m.blockStates.countValues BlockSlot.isResolved) = some 0)
    (by decide +kernel)
  have hrun := Lts.reaches_of_exec hw
  obtain ⟨m₀, hm, hnone⟩ := Option.map_eq_some_iff.1 hcount
  have hunresolved : ¬ m₀.Resolved 0 := fun hresolved =>
    absurd hnone (AList.countValues_pos hresolved rfl).ne'
  obtain ⟨_, m, hwaits, hopened, _⟩ := recovery_enabled_iff hrun
    (fun _ hid => threeBytes.upload_full hid) hupstream hevents hread hm (by decide) hunresolved
  exact ⟨_, w, m, hrun, hwire, hwaits, hopened⟩

/-- The manager waits, and every block is `Open` with its fallback used. -/
def stuck : Loop → Bool
  | .wait _ m => m.blockStates.entries.all fun e =>
    match e.2 with
    | .opened entry => entry.fallbackSent
    | _ => false
  | _ => false

theorem stuck_iff {s : Loop} (h : stuck s = true) : ∃ deadline m, s = .wait deadline m ∧
    ∀ b slot, m.blockStates.lookup b = some slot →
      ∃ entry, slot = .opened entry ∧ entry.fallbackSent = true := by
  cases s with
  | wait deadline m =>
      refine ⟨deadline, m, rfl, fun b slot hl => ?_⟩
      have hslot := List.all_eq_true.1 h ⟨b, slot⟩ (AList.mem_entries_iff_lookup.2 hl)
      cases slot with
      | opened entry => exact ⟨entry, rfl, hslot⟩
      | pending _ => cases hslot
      | resolved => cases hslot
  | _ => cases h

/-- **Both sendings lost.** The packet and the `BlockEnd` of a one-block file are lost, and lost again
    when the fallback resends them. Nothing is in flight, the block is not resolved, and however
    far the clocks advance neither side does anything. -/
theorem both_sendings_lost :
    ∃ ls w m deadline, (transfer threeBytes.setup threeBytes.upload).Reaches ls w ∧
      w.upstream = [] ∧ w.events = [] ∧ w.wire = [] ∧
      w.acksRead = w.receiver.control.acks.length ∧ w.sender = .wait deadline m ∧
      0 < totalBlocks threeBytes.setup.expectedChunks ∧ ¬ m.Resolved 0 ∧
      ∀ dt, readyAfter w.receiver dt = [] ∧
        ∀ order, (retransmitStaleBlocks order { m with now := m.now + dt }).udp = m.udp := by
  obtain ⟨w, hw, hupstream, hevents, hwire, hread, hstuck, hblocks⟩ := Lts.exists_exec
    (transfer threeBytes.setup threeBytes.upload)
    (threeBytesSent ++ threeBytesLost ++
      [.sender .drain, .sender (.tick (fromMillis 2000)), .sender (.timeout [0])] ++
      threeBytesLost ++ [.sender .drain])
    (fun w => w.upstream = [] ∧ w.events = [] ∧ w.wire = [] ∧
      w.acksRead = w.receiver.control.acks.length ∧ stuck w.sender = true ∧
      w.receiver.control.shared.blocks.keys = []) (by decide +kernel)
  obtain ⟨deadline, m, hs, hused⟩ := stuck_iff hstuck
  refine ⟨_, w, m, deadline, Lts.reaches_of_exec hw, hupstream, hevents, hwire, hread, hs,
    by decide, fun hresolved => ?_, fun dt => ⟨not_ready_of_untracked (fun b entry ht => ?_) dt,
      silent_of_no_fallback (fun b entry hleft => ?_) dt⟩⟩
  · obtain ⟨entry, heq, _⟩ := hused 0 _ hresolved
    cases heq
  · have hmem : b ∈ w.receiver.control.shared.blocks.keys := by
      rw [← AList.mem_keys, ← AList.lookup_isSome, ht]
      rfl
    rw [hblocks] at hmem
    cases hmem
  · obtain ⟨entry', heq, hsent⟩ := hused b _ hleft.1
    cases heq
    rw [hleft.2] at hsent
    cases hsent

end SecureTransfer.Transfer
