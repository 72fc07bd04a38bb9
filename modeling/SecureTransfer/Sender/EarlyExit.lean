import SecureTransfer.Sender.ManagerRuns

set_option autoImplicit false

/-! # When the block manager may return

The exit test compares the counter `completed` with `total_blocks`. The counter always equals the
number of `Resolved` entries, and it passes `total_blocks` nowhere; but the `Complete` arm resolves
any id it is told, so the entries counted are the blocks of the file exactly when no handled
`Complete` named an id past its end. -/

namespace SecureTransfer.Sender

variable {totalChunks : UInt32} {pipelineDepth : ℕ} {m m' : Manager}

/-- The bytes a returned manager has counted. -/
def Loop.bytesSent? : Loop → Option ℕ
  | .returned _ (.ok bytesSent) => some bytesSent
  | _ => none

theorem Loop.returned_of_bytesSent {s : Loop} {bytes : ℕ} (h : s.bytesSent? = some bytes) :
    ∃ m, s = .returned m (.ok bytes) := by
  match s, h with
  | .returned m (.ok _), h => cases h; exact ⟨m, rfl⟩

/-- How far `completed` can be at each point of the loop. -/
def Loop.Paced (total : ℕ) : Loop → Prop
  | .head m => m.completed ≤ total
  | .wait _ m => m.completed < total
  | .returned m (.ok _) => m.completed = total
  | .returned _ (.error _) => True
  | .panicked _ => True

/-- What the counter counts, after the history `ls`. -/
structure Tally (totalChunks : UInt32) (ls : List LoopInput) (s : Loop) : Prop where
  counted : ∀ m, s.manager? = some m →
    m.completed = m.blockStates.countValues BlockSlot.isResolved
  resolved : ∀ m, s.manager? = some m →
    ∀ b, m.Resolved b ↔ .event (.ack (.complete b)) ∈ ls
  paced : s.Paced (totalBlocks totalChunks).toNat

/-- `completed` is the number of resolved blocks. -/
abbrev Manager.Counted (m : Manager) : Prop :=
  m.completed = m.blockStates.countValues BlockSlot.isResolved

theorem Keeps.counted (h : Keeps m m') (hcounted : m.Counted) : m'.Counted := by
  rw [Manager.Counted, h.countResolved, h.completed, hcounted]

theorem handleEvent_counted {e : SenderEvent} (hcounted : m.Counted)
    (h : handleEvent totalChunks pipelineDepth e m = .ok m') :
    m'.Counted ∧ m'.completed ≤ m.completed + 1 := by
  have hkeeps : Keeps m m' → m'.Counted ∧ m'.completed ≤ m.completed + 1 := fun hk =>
    ⟨hk.counted hcounted, hk.completed.le.trans (Nat.le_succ _)⟩
  cases e with
  | chunk c => exact hkeeps (admitOrBuffer_keeps h)
  | ack ack =>
      cases ack with
      | missing blockId missing => cases h; exact hkeeps (handleMissing_keeps blockId missing)
      | complete blockId =>
          rcases handleComplete_inv h with ⟨_, rfl⟩ | ⟨hne, hstates, hcompleted, _⟩
          · exact ⟨hcounted, Nat.le_succ _⟩
          · refine ⟨?_, hcompleted.le⟩
            rw [Manager.Counted, hstates, countResolved_insert hne, hcompleted, hcounted]

theorem ManagerMove.counted {l : LoopInput} (h : ManagerMove totalChunks pipelineDepth l m m')
    (hcounted : m.Counted) : m'.Counted := by
  cases h with
  | drain _ hdrain => exact (drainRounds_keeps hdrain).counted hcounted
  | event hevent => exact (handleEvent_counted hcounted hevent).1
  | timeout => exact (retransmitStaleBlocks_keeps _).counted hcounted
  | tick => exact hcounted

/-- The loop looks at the counter after every event, so it never misses the total. -/
theorem Loop.Turn.paced {l : LoopInput} {s s' : Loop}
    (h : Loop.Turn totalChunks pipelineDepth l s s')
    (hcounted : ∀ m, s.manager? = some m → m.Counted)
    (hpaced : s.Paced (totalBlocks totalChunks).toNat) :
    s'.Paced (totalBlocks totalChunks).toNat := by
  cases h with
  | exit hdrain hdone =>
      refine le_antisymm ?_ hdone
      rw [(drainRounds_keeps hdrain).completed]
      exact hpaced
  | wait hdrain hmore => exact hmore
  | event hevent => exact (handleEvent_counted (hcounted _ rfl) hevent).2.trans hpaced
  | timeout =>
      rw [Loop.Paced, (retransmitStaleBlocks_keeps _).completed]
      exact le_of_lt hpaced
  | disconnectedExit hdrain hdone =>
      refine le_antisymm ?_ hdone
      rw [(drainRounds_keeps hdrain).completed]
      exact le_of_lt hpaced
  | tickHead => exact hpaced
  | tickWait => exact hpaced
  | _ => exact trivial

theorem tally_of_reaches {ls : List LoopInput} {s : Loop}
    (hrun : (blockManager totalChunks pipelineDepth).Reaches ls s) : Tally totalChunks ls s := by
  refine hrun.history ?_ ?_
  · refine ⟨fun m hm => ?_, fun m hm b => ?_, Nat.zero_le _⟩ <;> cases hm
    · rfl
    · simp [Manager.Resolved, Manager.init]
  · intro ls s l s' _ ih _ hstep
    have hturn := Loop.turn_of_step hstep
    refine ⟨fun m' hm' => ?_, fun m' hm' b => ?_, hturn.paced ih.counted ih.paced⟩
    · obtain ⟨m, hm, hmove⟩ := hturn.managerMove hm'
      exact hmove.counted (ih.counted m hm)
    · obtain ⟨m, hm, hiff⟩ := hturn.resolved hm'
      rw [hiff b, ih.resolved m hm b, List.mem_append, List.mem_singleton, eq_comm (a := l)]

/-- **When an `Ok` means every block is resolved.** In a run that returns `Ok`, every block of the
    file is resolved iff every `Complete` handled named a block of the file. -/
theorem returned_ok_all_resolved_iff {ls : List LoopInput} {bytes : ℕ}
    (hrun : (blockManager totalChunks pipelineDepth).Reaches ls (.returned m (.ok bytes))) :
    (∀ b < totalBlocks totalChunks, m.Resolved b) ↔
      ∀ b, LoopInput.event (.ack (.complete b)) ∈ ls → b < totalBlocks totalChunks := by
  have h := tally_of_reaches hrun
  have hcard : (m.blockStates.keysWhere BlockSlot.isResolved).card
      = (totalBlocks totalChunks).toNat := by
    rw [AList.card_keysWhere, ← h.counted m rfl]
    exact h.paced
  have hiff := all_below_iff_only_below hcard
  simp only [Manager.mem_keysWhere_isResolved] at hiff
  rw [hiff]
  exact forall_congr' fun b => by rw [h.resolved m rfl b]

/-- A `Complete` for the only block of the file, and the manager returns. -/
theorem returned_ok_all_resolved_iff_oneBlock :
    ∃ m bytes, (blockManager 1 4).Reaches
        [.drain, .event (.chunk ⟨0, [1], 1⟩), .drain, .event (.ack (.complete 0)), .drain]
        (.returned m (.ok bytes)) ∧ ∀ b < totalBlocks 1, m.Resolved b := by
  have hrun : (blockManager 1 4).Reaches
      [.drain, .event (.chunk ⟨0, [1], 1⟩), .drain, .event (.ack (.complete 0)), .drain] _ :=
    Lts.reaches_of_exec rfl
  refine ⟨_, _, hrun, (returned_ok_all_resolved_iff hrun).2 fun b hb => ?_⟩
  have hb0 : b = 0 := by simpa using hb
  subst hb0
  decide

/-- **Early exit.** The file has one block; a `Complete` for block 5 arrives first and the manager
    returns `Ok` without having opened block 0. -/
theorem returns_ok_with_unresolved_block :
    ∃ ls m bytes, (blockManager 1 4).Reaches ls (.returned m (.ok bytes)) ∧
      ¬ ∀ b < totalBlocks 1, m.Resolved b := by
  have hrun : (blockManager 1 4).Reaches [.drain, .event (.ack (.complete 5)), .drain] _ :=
    Lts.reaches_of_exec rfl
  refine ⟨_, _, _, hrun, fun hall => ?_⟩
  cases hall 0 (by decide)

end SecureTransfer.Sender
