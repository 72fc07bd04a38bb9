import SecureTransfer.Receiver.AckStream

set_option autoImplicit false

/-! # How long a retry round takes

Before the `BlockEnd` of a block has been seen, `ready_for_check` only returns the block when nothing
of it has arrived for `BLOCK_IDLE_TIMEOUT_MS`, and `snapshot_and_tick` restarts that clock; so every
retry round of such a block takes the idle timeout at least (`IdleInv`). The list `ready` may be old
when a block of it is checked, but then the block has only waited longer. -/

namespace SecureTransfer.Receiver

variable {setup : Setup} {r r' : Threads} {l : Label} {ls : List Label} {c c' : Control}
  {b : UInt32} {now : ℕ} {total : ℕ}

/-- `idle_timeout`. -/
def idleTimeout : ℕ := fromMillis blockIdleTimeoutMs

/-! ## The receiver's clock -/

def Label.dt : Label → ℕ
  | .tick dt => dt
  | _ => 0

/-- The time that has passed on the receiver's clock. -/
def elapsed (ls : List Label) : ℕ := (ls.map Label.dt).sum

theorem elapsed_append (ls ls' : List Label) : elapsed (ls ++ ls') = elapsed ls + elapsed ls' := by
  simp [elapsed]

theorem Threads.Turn.now_eq (h : Threads.Turn setup l r r') : r'.now = r.now + l.dt := by
  cases h <;> rfl

theorem now_eq_elapsed (hrun : (receiver setup).Reaches ls r) : r.now = elapsed ls := by
  refine hrun.history (P := fun ls r => r.now = elapsed ls) rfl fun ls r l r' _ ih _ hstep => ?_
  rw [elapsed_append, (Threads.turn_of_step hstep).now_eq, ih]
  simp [elapsed]

/-- A datagram of the block had arrived at time `t`. -/
def HeardAt (b : UInt32) (t : ℕ) (ls : List Label) : Prop :=
  ∃ before d after, ls = before ++ Label.datagram d :: after ∧
    (Incoming.ofDatagram d).block? = some b ∧ elapsed before ≤ t

/-- Since a datagram of the block arrived, `dt` has passed at least. -/
def Waited (b : UInt32) (dt : ℕ) (ls : List Label) : Prop :=
  ∃ before d after, ls = before ++ Label.datagram d :: after ∧
    (Incoming.ofDatagram d).block? = some b ∧ dt ≤ elapsed after

theorem HeardAt.snoc {t : ℕ} (h : HeardAt b t ls) (l : Label) : HeardAt b t (ls ++ [l]) := by
  obtain ⟨before, d, after, rfl, hrest⟩ := h
  exact ⟨before, d, after ++ [l], by simp, hrest⟩

theorem heardAt_now (h : b ∈ namedBlocks ls) : HeardAt b (elapsed ls) ls := by
  obtain ⟨d, hd, hb⟩ := mem_namedBlocks.1 h
  obtain ⟨before, after, rfl⟩ := List.append_of_mem hd
  exact ⟨before, d, after, rfl, hb, by rw [elapsed_append]; exact Nat.le_add_right _ _⟩

theorem HeardAt.waited {t dt : ℕ} (h : HeardAt b t ls) (hdt : t + dt ≤ elapsed ls) :
    Waited b dt ls := by
  obtain ⟨before, d, after, rfl, hb, ht⟩ := h
  refine ⟨before, d, after, rfl, hb, ?_⟩
  have hsplit : elapsed (before ++ Label.datagram d :: after) = elapsed before + elapsed after := by
    simp [elapsed, Label.dt]
  omega

theorem Waited.mono {dt dt' : ℕ} (h : Waited b dt ls) (hdt : dt' ≤ dt) : Waited b dt' ls := by
  obtain ⟨before, d, after, heq, hb, hle⟩ := h
  exact ⟨before, d, after, heq, hb, hdt.trans hle⟩

/-! ## The invariant -/

/-- The blocks `snapshot_and_tick` is still to be called for in this round. -/
def AckManager.due : AckManager → List UInt32
  | .checking ready => ready
  | .acking _ _ rest => rest
  | .removing _ rest => rest
  | _ => []

/-- These and the one being handled. -/
def AckManager.round : AckManager → List UInt32
  | .checking ready => ready
  | .acking blockId _ rest => blockId :: rest
  | .removing blockId rest => blockId :: rest
  | _ => []

/-- Every retry round of a block without `BlockEnd` has taken the idle timeout, and so will the one
    that is due. -/
structure IdleInv (ls : List Label) (now : ℕ) (c : Control) : Prop where
  past : ∀ b entry, c.shared.Tracked b entry → entry.lastActivity ≤ now
  rounds : ∀ b entry, c.shared.Tracked b entry → entry.endSeen = false →
    ∃ t, HeardAt b t ls ∧ t + entry.rounds * idleTimeout ≤ entry.lastActivity
  tracked : ∀ b ∈ c.ack.due, ∃ entry, c.shared.Tracked b entry
  waited : ∀ b ∈ c.ack.due, ∀ entry, c.shared.Tracked b entry → entry.endSeen = false →
    ∃ t, HeardAt b t ls ∧ t + (entry.rounds + 1) * idleTimeout ≤ now
  nodup : c.ack.round.Nodup

theorem IdleInv.init : IdleInv [] 0 .init where
  past := fun _ _ h => absurd h ReceiverInner.not_tracked_init
  rounds := fun _ _ h => absurd h ReceiverInner.not_tracked_init
  tracked := nofun
  waited := nofun
  nodup := List.nodup_nil

/-- More has happened. -/
theorem IdleInv.snoc (h : IdleInv ls now c) (l : Label) : IdleInv (ls ++ [l]) now c :=
  { h with
    rounds := fun b entry ht hend =>
      let ⟨t, hheard, hle⟩ := h.rounds b entry ht hend
      ⟨t, hheard.snoc l, hle⟩
    waited := fun b hb entry ht hend =>
      let ⟨t, hheard, hle⟩ := h.waited b hb entry ht hend
      ⟨t, hheard.snoc l, hle⟩ }

/-- Time has passed. -/
theorem IdleInv.later (h : IdleInv ls now c) {now' : ℕ} (hnow : now ≤ now') :
    IdleInv ls now' c :=
  { h with
    past := fun b entry ht => (h.past b entry ht).trans hnow
    waited := fun b hb entry ht hend =>
      let ⟨t, hheard, hle⟩ := h.waited b hb entry ht hend
      ⟨t, hheard, hle.trans hnow⟩ }

/-- What the mutators of the other threads do to an entry. -/
structure Touched (now : ℕ) (entry entry' : BlockRxEntry) : Prop where
  rounds : entry'.rounds = entry.rounds
  lastActivity : entry'.lastActivity = entry.lastActivity ∨ entry'.lastActivity = now
  endSeen : entry'.endSeen = false → entry.endSeen = false

/-- A mutator called by another thread for a block that has been heard of. -/
theorem IdleInv.mutate (h : IdleInv ls now c) {n : ℕ} {update : BlockRxEntry → BlockRxEntry}
    (hheard : HeardAt b now ls) (htouched : ∀ entry, Touched now entry (update entry)) :
    IdleInv ls now (c.mutate (ReceiverInner.withEntry b n now update)) := by
  -- the entry updated is a tracked one, or has just been made
  have hentry : ∀ b' entry', (c.mutate (ReceiverInner.withEntry b n now update)).shared.Tracked
      b' entry' → c.shared.Tracked b' entry' ∨
        (∃ entry, c.shared.Tracked b' entry ∧ Touched now entry entry') ∨
        (b' = b ∧ c.shared.blocks.lookup b = none ∧ entry'.rounds = 0 ∧
          entry'.lastActivity = now) := by
    intro b' entry' ht
    rcases ReceiverInner.tracked_withEntry ht with hold | ⟨rfl, _, rfl⟩
    · exact .inl hold
    · rcases c.shared.entryOrNew_cases b' n now with ht | ⟨hnone, hnew⟩
      · exact .inr (.inl ⟨_, ht, htouched _⟩)
      · rw [hnew]
        have hupdate := htouched (.new n now)
        exact .inr (.inr ⟨rfl, hnone, hupdate.rounds, hupdate.lastActivity.elim id id⟩)
  refine ⟨fun b' entry' ht => ?_, fun b' entry' ht hend => ?_, fun b' hb' => ?_,
    fun b' hb' entry' ht hend => ?_, h.nodup⟩
  · rcases hentry b' entry' ht with hold | ⟨entry, hold, htouch⟩ | ⟨_, _, _, hlast⟩
    · exact h.past b' entry' hold
    · rcases htouch.lastActivity with heq | heq
      · rw [heq]
        exact h.past b' entry hold
      · exact heq.le
    · exact hlast.le
  · rcases hentry b' entry' ht with hold | ⟨entry, hold, htouch⟩ | ⟨rfl, _, hrounds, hlast⟩
    · exact h.rounds b' entry' hold hend
    · obtain ⟨t, hheard', hle⟩ := h.rounds b' entry hold (htouch.endSeen hend)
      refine ⟨t, hheard', ?_⟩
      rw [htouch.rounds]
      rcases htouch.lastActivity with heq | heq
      · rwa [heq]
      · rw [heq]
        exact hle.trans (h.past b' entry hold)
    · exact ⟨now, hheard, by rw [hrounds, hlast, Nat.zero_mul]; exact le_rfl⟩
  · obtain ⟨entry, ht⟩ := h.tracked b' hb'
    rcases ht.withEntry with ht | ⟨_, ht⟩
    · exact ⟨entry, ht⟩
    · exact ⟨update entry, ht⟩
  · rcases hentry b' entry' ht with hold | ⟨entry, hold, htouch⟩ | ⟨rfl, hnone, _⟩
    · exact h.waited b' hb' entry' hold hend
    · rw [htouch.rounds]
      exact h.waited b' hb' entry hold (htouch.endSeen hend)
    · obtain ⟨entry, ht'⟩ := h.tracked b' hb'
      rw [ReceiverInner.Tracked, hnone] at ht'
      cases ht'

/-! ## The ack manager's moves -/

/-- A block without `BlockEnd` is only returned when it has been idle. -/
theorem idle_of_isReady {grace timeout : Duration} {entry : BlockRxEntry}
    (h : entry.isReady grace timeout now = true) (hend : entry.endSeen = false) :
    timeout ≤ now - entry.lastActivity := by
  unfold BlockRxEntry.isReady at h
  simpa [hend] using h

theorem next_round {t rounds last timeout now : ℕ} (hidle : timeout ≤ now - last)
    (hpast : last ≤ now) (h : t + rounds * timeout ≤ last) : t + (rounds + 1) * timeout ≤ now := by
  rw [Nat.succ_mul]
  omega

theorem IdleInv.move (h : IdleInv ls now c) {l : AckLabel} (hmove : AckMove total now l c c') :
    IdleInv ls now c' := by
  have hround := h.nodup
  have htracked := h.tracked
  have hwaited := h.waited
  cases hmove with
  | @poll _ order _ _ horder =>
      have hready : ∀ b ∈ order, ∃ entry, c.shared.Tracked b entry ∧
          entry.isReady (fromMillis blockGracePeriodMs) idleTimeout now = true :=
        fun b hb => ReceiverInner.mem_readyForCheck.1 (horder.mem_iff.1 hb)
      -- the block has just been idle, so the round that is due has taken its time
      refine { h with
        tracked := fun b hb => (hready b hb).imp fun entry ht => ht.1
        waited := fun b hb entry ht hend => ?_
        nodup := horder.nodup_iff.2 ReceiverInner.nodup_readyForCheck }
      obtain ⟨entry', ht', hidle⟩ := hready b hb
      obtain rfl : entry = entry' := Option.some.inj (ht.symm.trans ht')
      obtain ⟨t, hheard, hle⟩ := h.rounds b entry ht hend
      exact ⟨t, hheard, next_round (idle_of_isReady hidle hend) (h.past b entry ht) hle⟩
  | exit => exact { h with tracked := nofun, waited := nofun, nodup := List.nodup_nil }
  | endRound => exact { h with tracked := nofun, waited := nofun, nodup := List.nodup_nil }
  | writeError => exact { h with tracked := nofun, waited := nofun, nodup := List.nodup_nil }
  | skip hpc =>
      rw [hpc] at hround htracked hwaited
      exact { h with
        tracked := fun b hb => htracked b (List.mem_cons_of_mem _ hb)
        waited := fun b hb => hwaited b (List.mem_cons_of_mem _ hb)
        nodup := (List.nodup_cons.1 hround).2 }
  | @snapshot _ b rest snapshot shared hpc hsome =>
      rw [hpc] at hround htracked hwaited
      obtain ⟨entry, ht, rfl, rfl⟩ := snapshotAndTick_eq_some hsome
      -- the round of `b` is counted now; it is not due again
      have hne : ∀ b' ∈ rest, b' ≠ b := fun b' hb' heq =>
        (List.nodup_cons.1 hround).1 (heq ▸ hb')
      refine ⟨fun b' entry' ht' => ?_, fun b' entry' ht' hend => ?_, fun b' hb' => ?_,
        fun b' hb' entry' ht' hend => ?_, hround⟩
      · rcases ReceiverInner.tracked_setEntry.1 ht' with ⟨_, rfl⟩ | ⟨_, ht'⟩
        · exact Nat.le_refl now
        · exact h.past b' entry' ht'
      · rcases ReceiverInner.tracked_setEntry.1 ht' with ⟨rfl, rfl⟩ | ⟨_, ht'⟩
        · exact hwaited b' List.mem_cons_self entry ht hend
        · exact h.rounds b' entry' ht' hend
      · obtain ⟨entry', ht'⟩ := htracked b' (List.mem_cons_of_mem _ hb')
        exact ⟨entry', ReceiverInner.tracked_setEntry.2 (.inr ⟨hne b' hb', ht'⟩)⟩
      · rcases ReceiverInner.tracked_setEntry.1 ht' with ⟨heq, _⟩ | ⟨_, ht'⟩
        · exact absurd heq (hne b' hb')
        · exact hwaited b' (List.mem_cons_of_mem _ hb') entry' ht' hend
  | complete hpc =>
      rw [hpc] at hround htracked hwaited
      exact { h with tracked := htracked, waited := hwaited, nodup := hround }
  | giveUp hpc =>
      rw [hpc] at hround htracked hwaited
      exact { h with tracked := htracked, waited := hwaited, nodup := hround }
  | missing hpc =>
      rw [hpc] at hround htracked hwaited
      exact { h with
        tracked := htracked
        waited := hwaited
        nodup := (List.nodup_cons.1 hround).2 }
  | @remove _ b rest hpc =>
      rw [hpc] at hround htracked hwaited
      refine ⟨fun b' entry' ht' => h.past b' entry' (ReceiverInner.tracked_remove.1 ht').2,
        fun b' entry' ht' => h.rounds b' entry' (ReceiverInner.tracked_remove.1 ht').2,
        fun b' hb' => ?_,
        fun b' hb' entry' ht' => hwaited b' hb' entry' (ReceiverInner.tracked_remove.1 ht').2,
        (List.nodup_cons.1 hround).2⟩
      obtain ⟨entry', ht'⟩ := htracked b' hb'
      exact ⟨entry', ReceiverInner.tracked_remove.2
        ⟨fun heq => (List.nodup_cons.1 hround).1 (heq ▸ hb'), ht'⟩⟩

/-! ## Along a run -/

theorem IdleInv.turn (h : IdleInv ls r.now r.control) (hnow : r.now = elapsed ls)
    (hmove : ControlMove setup r l c')
    (hworkers : ∀ p data, Worker.verified p data ∈ r.workers → p.blockId ∈ namedBlocks ls) :
    IdleInv (ls ++ [l]) r.now c' := by
  have hsnoc := h.snoc l
  have hheard : ∀ {b}, b ∈ namedBlocks (ls ++ [l]) → l.dt = 0 → HeardAt b r.now (ls ++ [l]) := by
    intro b hb hl
    have hlen : elapsed (ls ++ [l]) = r.now := by
      rw [elapsed_append, hnow]
      simp [elapsed, hl]
    rw [← hlen]
    exact heardAt_now hb
  have hnew : ∀ {d b}, l = .datagram d → (Incoming.ofDatagram d).block? = some b →
      HeardAt b r.now (ls ++ [l]) := by
    intro d b hl hb
    refine hheard (mem_namedBlocks.2 ⟨d, by simp [hl], hb⟩) ?_
    rw [hl]
    rfl
  cases hmove with
  | keep => exact hsnoc
  | touch hd => exact hsnoc.mutate (hnew rfl (by rw [hd]; rfl)) fun _ => ⟨rfl, .inr rfl, id⟩
  | endSeen hd => exact hsnoc.mutate (hnew rfl (by rw [hd]; rfl)) fun _ => ⟨rfl, .inr rfl, nofun⟩
  | @mark i p data hworker =>
      have hnamed := named_snoc (hworkers p data (List.mem_of_getElem? hworker)) (.workerMark i)
      have hmutated : IdleInv (ls ++ [.workerMark i]) r.now (r.control.mutate
          (.markVerified p.blockId p.packetInBlock (packetsInBlock p.blockId setup.expectedChunks)
            r.now)) :=
        hsnoc.mutate (hheard hnamed rfl) fun e =>
          ⟨e.mark_rounds _, .inl (e.mark_lastActivity _), fun hend => by rwa [e.mark_endSeen] at hend⟩
      exact { hmutated with }
  | ack hmove => exact hsnoc.move hmove

theorem idleInv_of_reaches (hrun : (receiver setup).Reaches ls r) :
    IdleInv ls r.now r.control := by
  refine hrun.history (P := fun ls r => IdleInv ls r.now r.control) .init
    fun ls r l r' hrun ih _ hstep => ?_
  have hturn := Threads.turn_of_step hstep
  have hmoved := ih.turn (now_eq_elapsed hrun) hturn.control
    fun p data hw => ((flow_of_reaches hrun).verified p data hw).1.named
  refine hmoved.later ?_
  rw [hturn.now_eq]
  exact Nat.le_add_right _ _

/-- **Slow rounds.** When the ack manager is about to write an ack for a block without `BlockEnd`,
    the idle timeout has passed for every retry round since the block was first heard of. -/
theorem waited_of_acking (hrun : (receiver setup).Reaches ls r) {snapshot : Snapshot}
    {rest : List UInt32} (hpc : r.control.ack = .acking b snapshot rest)
    (hend : ∀ entry, r.control.shared.Tracked b entry → entry.endSeen = false) :
    Waited b (snapshot.rounds * idleTimeout) ls := by
  have hidle := idleInv_of_reaches hrun
  obtain ⟨entry, ht, hrounds, _⟩ := (ackInv_of_reaches hrun).acking b snapshot rest hpc
  obtain ⟨t, hheard, hle⟩ := hidle.rounds b entry ht (hend entry ht)
  have hpast := hidle.past b entry ht
  rw [now_eq_elapsed hrun] at hpast
  rw [hrounds] at hle
  exact hheard.waited (hle.trans hpast)

/-! ## Whether the `BlockEnd` has been seen -/

/-- A `BlockEnd` of the block has arrived. -/
def EndHeard (b : UInt32) (ls : List Label) : Prop :=
  ∃ d n, Label.datagram d ∈ ls ∧ Incoming.ofDatagram d = .blockEnd b n

theorem endSeen_of_move (hmove : ControlMove setup r l c')
    (h : ∀ b entry, r.control.shared.Tracked b entry → entry.endSeen = true → EndHeard b ls) :
    ∀ b entry, c'.shared.Tracked b entry → entry.endSeen = true → EndHeard b (ls ++ [l]) := by
  have hold : ∀ b entry, r.control.shared.Tracked b entry → entry.endSeen = true →
      EndHeard b (ls ++ [l]) := fun b entry ht hend =>
    let ⟨d, n, hd, hblock⟩ := h b entry ht hend
    ⟨d, n, List.mem_append_left _ hd, hblock⟩
  -- a mutator that leaves the flag alone
  have hkeeps : ∀ {b' n} {update : BlockRxEntry → BlockRxEntry},
      (∀ e, (update e).endSeen = e.endSeen) → ∀ b entry,
      (r.control.shared.withEntry b' n r.now update).Tracked b entry → entry.endSeen = true →
      EndHeard b (ls ++ [l]) := by
    intro b' n update hupdate b entry ht hend
    rcases ReceiverInner.tracked_withEntry ht with ht | ⟨rfl, _, rfl⟩
    · exact hold b entry ht hend
    · rw [hupdate] at hend
      rcases r.control.shared.entryOrNew_cases b n r.now with ht | ⟨_, hnew⟩
      · exact hold b _ ht hend
      · rw [hnew] at hend
        cases hend
  cases hmove with
  | keep => exact hold
  | touch => exact hkeeps fun _ => rfl
  | @endSeen d b' n hd =>
      intro b entry ht hend
      rcases ReceiverInner.tracked_withEntry ht with ht | ⟨rfl, _, _⟩
      · exact hold b entry ht hend
      · exact ⟨d, n, by simp, hd⟩
  | mark => exact hkeeps fun e => e.mark_endSeen _
  | ack hmove =>
      cases hmove with
      | snapshot _ hsome =>
          obtain ⟨entry, ht, rfl, _⟩ := snapshotAndTick_eq_some hsome
          intro b entry' ht' hend
          rcases ReceiverInner.tracked_setEntry.1 ht' with ⟨rfl, rfl⟩ | ⟨_, ht'⟩
          · exact hold b entry ht hend
          · exact hold b entry' ht' hend
      | remove =>
          exact fun b entry ht => hold b entry (ReceiverInner.tracked_remove.1 ht).2
      | _ => exact hold

/-- `end_seen` is only set by a `BlockEnd` of the block. -/
theorem endSeen_of_reaches (hrun : (receiver setup).Reaches ls r) :
    ∀ b entry, r.control.shared.Tracked b entry → entry.endSeen = true → EndHeard b ls :=
  hrun.history (P := fun ls r => ∀ b entry, r.control.shared.Tracked b entry →
      entry.endSeen = true → EndHeard b ls)
    (fun _ _ ht => absurd ht ReceiverInner.not_tracked_init)
    fun _ _ _ _ _ ih _ hstep => endSeen_of_move (Threads.turn_of_step hstep).control ih

/-! ## Giving up -/

/-- The ack manager is in the give-up branch for the block. -/
def AckManager.GivesUp (ack : AckManager) (b : UInt32) : Prop :=
  ∃ snapshot rest, ack = .acking b snapshot rest ∧ snapshot.isComplete = false ∧
    maxBlockRetryRounds < snapshot.rounds

instance (ack : AckManager) (b : UInt32) : Decidable (ack.GivesUp b) :=
  match ack with
  | .acking b' snapshot rest =>
    decidable_of_iff (b' = b ∧ snapshot.isComplete = false ∧ maxBlockRetryRounds < snapshot.rounds)
      ⟨fun ⟨hb, h⟩ => ⟨snapshot, rest, by rw [hb], h⟩, fun ⟨_, _, heq, h⟩ => by
        cases heq
        exact ⟨rfl, h⟩⟩
  | .poll | .checking _ | .removing _ _ | .exited _ => isFalse nofun

/-- A block is given up in the give-up branch only. -/
theorem Threads.Turn.gaveUp (h : Threads.Turn setup l r r') (hb : b ∈ r'.control.gaveUp) :
    b ∈ r.control.gaveUp ∨ r.control.ack.GivesUp b := by
  cases h with
  | ack hmove =>
      cases hmove with
      | @giveUp _ b' rest snapshot hpc hincomplete hrounds =>
          refine (List.mem_append.1 hb).imp_right fun hb' => ?_
          rw [List.mem_singleton.1 hb']
          exact ⟨snapshot, rest, hpc, hincomplete, hrounds⟩
      | _ => exact .inl hb
  | _ => exact .inl hb

end SecureTransfer.Receiver
