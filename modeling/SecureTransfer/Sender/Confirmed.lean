import SecureTransfer.Sender.Memory

set_option autoImplicit false

/-! # Acks before chunks

The manager believes the acks: a `Complete` for each block makes it return, whether it has seen a
chunk or not. So every job has a run in which the manager has counted all blocks while the reader
has yet to read the file (`confirm_all`). -/

namespace SecureTransfer.Sender

variable {totalChunks : UInt32} {depth n : ℕ} {m m' : Manager} {job : SendFile} {s : SendThreads}

/-- The manager has seen the `Complete`s of the first `n` blocks, and nothing else. -/
structure Manager.Confirmed (n : ℕ) (m : Manager) : Prop where
  completed : m.completed = n
  bytesSent : m.bytesSent = 0
  slots : ∀ b slot, m.blockStates.lookup b = some slot → slot = .resolved ∧ b.toNat < n

theorem Manager.Confirmed.init : Manager.Confirmed 0 .init :=
  ⟨rfl, rfl, fun b slot hl => by simp [Manager.init] at hl⟩

theorem Manager.Confirmed.drainPending (h : m.Confirmed n) :
    drainPending totalChunks depth m = .ok m := by
  have hnone : m.nextPending = none := by
    rw [nextPending, List.min?_eq_none_iff, List.map_eq_nil_iff, List.filter_eq_nil_iff]
    intro e he
    rw [(h.slots e.1 e.2 (AList.mem_entries_iff_lookup.1 he)).1]
    nofun
  rw [Sender.drainPending]
  cases depth - m.openSlots with
  | zero => rfl
  | succ room => rw [drainRounds, hnone]

theorem Manager.Confirmed.handleComplete (h : m.Confirmed n) (hn : n < 2 ^ 32) :
    ∃ m', handleComplete (.ofNat n) m = .ok m' ∧ m'.Confirmed (n + 1) := by
  have hnat : (UInt32.ofNat n).toNat = n := UInt32.toNat_ofNat_of_lt' hn
  have hnew : m.blockStates.lookup (.ofNat n) = none := by
    cases hl : m.blockStates.lookup (.ofNat n) with
    | none => rfl
    | some slot =>
        have hlt := (h.slots _ _ hl).2
        rw [hnat] at hlt
        exact absurd hlt (lt_irrefl n)
  refine ⟨{ m.setSlot (.ofNat n) .resolved with completed := m.completed + 1 }, ?_,
    ⟨congrArg (· + 1) h.completed, h.bytesSent, fun b slot hl => ?_⟩⟩
  · rw [Sender.handleComplete, hnew]
  · rw [setSlot, AList.lookup_insert_ite] at hl
    split at hl
    · next hb =>
        rw [hb, hnat]
        exact ⟨(Option.some.inj hl).symm, Nat.lt_succ_self n⟩
    · obtain ⟨hresolved, hlt⟩ := h.slots b slot hl
      exact ⟨hresolved, Nat.lt_succ_of_lt hlt⟩

/-- The threads at the start, but for the manager. -/
def SendThreads.started (job : SendFile) (manager : Loop) : SendThreads :=
  { SendThreads.init job with manager }

/-- One more `Complete` comes over the control stream. -/
theorem confirm_next (h : m.Confirmed n) (hn : n < (totalBlocks job.totalChunks).toNat) :
    ∃ m', m'.Confirmed (n + 1) ∧
      (sendFile job).exec [.manager .drain, .ackRelay (.complete (.ofNat n)),
          .manager (.event (.ack (.complete (.ofNat n))))] (.started job (.head m))
        = some (.started job (.head m')) := by
  obtain ⟨m', hm', hconfirmed⟩ := h.handleComplete (hn.trans (UInt32.toNat_lt _))
  have hmore : ¬ (totalBlocks job.totalChunks).toNat ≤ m.completed := by
    rw [h.completed]
    exact Nat.not_le_of_lt hn
  refine ⟨m', hconfirmed, ?_⟩
  simp [Lts.exec, sendFile, SendThreads.step, SendThreads.started, SendThreads.init,
    SendThreads.admits, SendThreads.eventsAfter, Loop.step, h.drainPending, Loop.orPanic, hmore,
    Loop.ended, handleEvent, hm']

/-- All blocks are confirmed before the first chunk has been read. -/
theorem confirm_all (job : SendFile) :
    ∃ ls m, m.Confirmed (totalBlocks job.totalChunks).toNat ∧
      (sendFile job).exec ls (.init job) = some (.started job (.head m)) := by
  have hupto : ∀ n ≤ (totalBlocks job.totalChunks).toNat, ∃ ls m, m.Confirmed n ∧
      (sendFile job).exec ls (.init job) = some (.started job (.head m)) := by
    intro n
    induction n with
    | zero => exact fun _ => ⟨[], .init, .init, rfl⟩
    | succ n ih =>
        intro hn
        obtain ⟨ls, m, hm, hexec⟩ := ih (Nat.le_of_succ_le hn)
        obtain ⟨m', hm', hnext⟩ := confirm_next hm hn
        exact ⟨_, m', hm', Lts.exec_trans hexec hnext⟩
  exact hupto _ le_rfl

/-- Then the manager returns. -/
theorem Manager.Confirmed.return (h : m.Confirmed (totalBlocks job.totalChunks).toNat)
    (hmanager : s.manager = .head m) :
    (sendFile job).exec [.manager .drain] s
      = some { s with events := [], manager := .returned m (.ok 0) } := by
  have hdone : (totalBlocks job.totalChunks).toNat ≤ m.completed := h.completed.ge
  simp [Lts.exec, sendFile, SendThreads.step, SendThreads.admits, SendThreads.eventsAfter, hmanager,
    Loop.step, h.drainPending, Loop.orPanic, hdone, Loop.ended, h.bytesSent]

end SecureTransfer.Sender
