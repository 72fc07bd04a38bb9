import Mathlib.Algebra.Order.BigOperators.Group.Finset
import Mathlib.Data.Prod.Lex
import SecureTransfer.Receiver.Completion
import SecureTransfer.Receiver.Shutdown

set_option autoImplicit false

/-! # The ack manager gets through

A block the receiver has heard of is resolved in any case: the ack manager asks for it at most
`MAX_BLOCK_RETRY_ROUNDS` times and then gives it up. So once every block of the file is known the
ack manager leaves its loop by itself, as long as it can write (`exists_resolved`); the other threads
do not come into it. The rank is the acks left to write, block by block. -/

namespace SecureTransfer.Receiver

variable {setup : Setup} {r r₀ : Threads} {c : Control} {b : UInt32} {rest : List UInt32}

/-- Every block is known, and beside `r₀` only the ack manager has moved and time has passed. -/
structure Resolving (setup : Setup) (r₀ r : Threads) : Prop where
  frame : r = { r₀ with control := r.control, now := r.now }
  acks : AckInv (· < setup.blocks) setup.blocks.toNat r.control
  known : ∀ b < setup.blocks, r.control.Known b
  ok : ∀ x, r.control.ack = .exited x → x = .ok

/-- The acks that may still be written. -/
def acksLeft (setup : Setup) (acks : List BlockAck) : ℕ :=
  ∑ k ∈ Finset.range setup.blocks.toNat,
    (maxBlockRetryRounds + 1 - (acksOf (UInt32.ofNat k) acks).length)

def Threads.resolvingRank (setup : Setup) (r : Threads) : ℕ ×ₗ ℕ :=
  toLex (acksLeft setup r.control.acks, r.control.ack.rank)

/-! ## The rank -/

theorem acksLeft_lt (hb : b < setup.blocks) {acks : List BlockAck}
    (hfew : (acksOf b acks).length ≤ maxBlockRetryRounds) {a : BlockAck} (ha : a.blockId = b) :
    acksLeft setup (acks ++ [a]) < acksLeft setup acks := by
  refine Finset.sum_lt_sum (fun k _ => ?_) ⟨b.toNat, Finset.mem_range.2 hb, ?_⟩
  · by_cases hk : a.blockId = UInt32.ofNat k
    · rw [acksOf_append_self _ a hk, List.length_append]
      omega
    · rw [acksOf_append_other a hk]
  · rw [UInt32.ofNat_toNat, acksOf_append_self b a ha, List.length_append, List.length_singleton]
    omega

/-- Before an ack is written its block has not had all of them. -/
theorem AckInv.few {N : UInt32 → Prop} {total : ℕ} (h : AckInv N total c) {snapshot : Snapshot}
    (hpc : c.ack = .acking b snapshot rest) :
    N b ∧ (acksOf b c.acks).length ≤ maxBlockRetryRounds := by
  obtain ⟨entry, ht, -⟩ := h.acking b snapshot rest hpc
  refine ⟨h.tracked b entry ht, ?_⟩
  have hshort := (h.unfinished b (h.consistent.disjoint b entry ht) (by simp [hpc])).1
  exact hshort.trans (min_le_left _ _)

/-! ## Steps -/

/-- What is left of the way when steps of the receiver's own threads lead from `r` to `r'`. -/
def Resolving.Closer (setup : Setup) (r₀ r : Threads) : Prop :=
  ∃ ls r', (∀ l ∈ ls, Label.Own l) ∧ (receiver setup).exec ls r = some r' ∧
    r'.resolvingRank setup < r.resolvingRank setup ∧ Resolving setup r₀ r'

theorem Resolving.ack (h : Resolving setup r₀ r) {l : AckLabel}
    (hstep : ackManagerStep setup.blocks.toNat r.now l r.control = some c) (hl : l ≠ .writeError) :
    (receiver setup).step (.ack l) r = some { r with control := c } ∧
      Resolving setup r₀ { r with control := c } := by
  have hmove := ackMove_of_step hstep
  refine ⟨by simp [receiver, Threads.step, hstep], ?_, h.acks.move hmove,
    fun b hb => (h.known b hb).move hmove, fun x hx => ?_⟩
  · rw [h.frame]
  · cases hmove with
    | exit => exact (AckManager.exited.inj hx).symm
    | writeError => exact absurd rfl hl
    | _ => cases hx

/-- One step of the ack manager that writes nothing. -/
theorem Resolving.quietStep (h : Resolving setup r₀ r) {l : AckLabel}
    (hstep : ackManagerStep setup.blocks.toNat r.now l r.control = some c) (hl : l ≠ .writeError)
    (hacks : c.acks = r.control.acks) (hrank : c.ack.rank < r.control.ack.rank) :
    Resolving.Closer setup r₀ r := by
  obtain ⟨hmove, hnext⟩ := h.ack hstep hl
  refine ⟨[.ack l], _, ?_, by rw [Lts.exec, hmove]; rfl, ?_, hnext⟩
  · intro l' hl'
    rw [List.mem_singleton.1 hl']
    cases l <;> trivial
  · rw [Threads.resolvingRank, Threads.resolvingRank, Prod.Lex.toLex_lt_toLex]
    exact .inr ⟨congrArg (acksLeft setup) hacks, hrank⟩

/-- The ack is written. -/
theorem Resolving.write (h : Resolving setup r₀ r) {snapshot : Snapshot}
    (hpc : r.control.ack = .acking b snapshot rest) :
    ∃ r', (receiver setup).step (.ack .write) r = some r' ∧
      acksLeft setup r'.control.acks < acksLeft setup r.control.acks ∧ Resolving setup r₀ r' := by
  obtain ⟨hb, hfew⟩ := h.acks.few hpc
  have hwrite : ∃ c a, ackManagerStep setup.blocks.toNat r.now .write r.control = some c ∧
      c.acks = r.control.acks ++ [a] ∧ a.blockId = b := by
    simp only [ackManagerStep, hpc]
    split
    · exact ⟨_, _, rfl, rfl, rfl⟩
    · split
      · exact ⟨_, _, rfl, rfl, rfl⟩
      · exact ⟨_, _, rfl, rfl, rfl⟩
  obtain ⟨c, a, hstep, hacks, ha⟩ := hwrite
  obtain ⟨hmove, hnext⟩ := h.ack hstep (by rintro ⟨⟩)
  refine ⟨_, hmove, ?_, hnext⟩
  rw [show ({ r with control := c } : Threads).control.acks = c.acks from rfl, hacks]
  exact acksLeft_lt hb hfew ha

/-- A tracked block is next: snapshot and ack. -/
theorem Resolving.check (h : Resolving setup r₀ r) (hpc : r.control.ack = .checking (b :: rest))
    {entry : BlockRxEntry} (ht : r.control.shared.Tracked b entry) :
    ∃ r', (receiver setup).exec [.ack .next, .ack .write] r = some r' ∧
      acksLeft setup r'.control.acks < acksLeft setup r.control.acks ∧ Resolving setup r₀ r' := by
  obtain ⟨taken, hsome⟩ : ∃ taken, r.control.shared.snapshotAndTick b r.now = some taken := by
    rw [ReceiverInner.snapshotAndTick, show r.control.shared.blocks.lookup b = some entry from ht]
    exact ⟨_, rfl⟩
  have hstep : ackManagerStep setup.blocks.toNat r.now .next r.control
      = some { r.control with shared := taken.2, ack := .acking b taken.1 rest } := by
    simp only [ackManagerStep, hpc, hsome]
  obtain ⟨hmove, hnext⟩ := h.ack hstep (by rintro ⟨⟩)
  obtain ⟨r', hwrite, hless, hlast⟩ := hnext.write rfl
  refine ⟨r', ?_, hless, hlast⟩
  rw [Lts.exec, hmove, Option.bind_some, Lts.exec, hwrite]
  rfl

theorem Resolving.tick (h : Resolving setup r₀ r) (dt : Duration) :
    Resolving setup r₀ { r with now := r.now + dt } :=
  { h with frame := by rw [h.frame] }

/-- With a block left the ack manager waits until one is ready, and acks it. -/
theorem Resolving.poll (h : Resolving setup r₀ r) (hpc : r.control.ack = .poll)
    (hmore : r.control.completed < setup.blocks.toNat) : Resolving.Closer setup r₀ r := by
  -- a block not completed is tracked
  have hopen : ¬ ∀ b < setup.blocks, b ∈ r.control.shared.completed := fun hall =>
    absurd ((h.acks.le_completed_iff fun _ hb => hb).2 hall) (Nat.not_le_of_lt hmore)
  simp only [not_forall] at hopen
  obtain ⟨b, hb, hopen⟩ := hopen
  obtain ⟨entry, ht⟩ := (h.known b hb).resolve_right hopen
  have helapsed : ∀ now last idle : ℕ, idle ≤ now + (last + idle) - last := by omega
  let dt := entry.lastActivity + fromMillis blockIdleTimeoutMs
  have hready : b ∈ r.control.shared.readyForCheck (fromMillis blockGracePeriodMs)
      (fromMillis blockIdleTimeoutMs) (r.now + dt) :=
    ReceiverInner.mem_readyForCheck.2
      ⟨entry, ht, BlockRxEntry.isReady_of_idle fromMillis_grace_le (helapsed _ _ _)⟩
  obtain ⟨first, order, horder⟩ := List.exists_cons_of_ne_nil (List.ne_nil_of_mem hready)
  obtain ⟨entry', ht', -⟩ := ReceiverInner.mem_readyForCheck.1 (horder ▸ List.mem_cons_self)
  have hstep : ackManagerStep setup.blocks.toNat (r.now + dt) (.poll (first :: order)) r.control
      = some { r.control with ack := .checking (first :: order) } := by
    simp only [ackManagerStep, hpc]
    rw [if_pos ⟨hmore, by rw [horder]⟩]
  obtain ⟨hmove, hnext⟩ := (h.tick dt).ack hstep (by rintro ⟨⟩)
  obtain ⟨r', hexec, hless, hlast⟩ := hnext.check rfl ht'
  refine ⟨.tick dt :: .ack (.poll (first :: order)) :: [.ack .next, .ack .write], r', ?_, ?_, ?_,
    hlast⟩
  · simp [Label.Own]
  · rw [Lts.exec, show (receiver setup).step (.tick dt) r = some { r with now := r.now + dt } from rfl,
      Option.bind_some, Lts.exec, hmove, Option.bind_some]
    exact hexec
  · rw [Threads.resolvingRank, Threads.resolvingRank, Prod.Lex.toLex_lt_toLex]
    exact .inl hless

theorem Resolving.progress (h : Resolving setup r₀ r) :
    r.control.ack = .exited .ok ∨ Resolving.Closer setup r₀ r := by
  cases hpc : r.control.ack with
  | poll =>
      rcases Nat.lt_or_ge r.control.completed setup.blocks.toNat with hmore | hdone
      · exact .inr (h.poll hpc hmore)
      · have hstep : ackManagerStep setup.blocks.toNat r.now .exit r.control
            = some { r.control with ack := .exited .ok } := by
          simp only [ackManagerStep, hpc, if_neg (Nat.not_lt.2 hdone)]
        exact .inr (h.quietStep hstep (by rintro ⟨⟩) rfl (by simp [hpc, AckManager.rank]))
  | checking ready =>
      cases ready with
      | nil =>
          have hstep : ackManagerStep setup.blocks.toNat r.now .next r.control
              = some { r.control with ack := .poll } := by
            simp only [ackManagerStep, hpc]
          exact .inr (h.quietStep hstep (by rintro ⟨⟩) rfl (by simp [hpc, AckManager.rank]))
      | cons b rest =>
          cases hl : r.control.shared.blocks.lookup b with
          | none =>
              have hstep : ackManagerStep setup.blocks.toNat r.now .next r.control
                  = some { r.control with ack := .checking rest } := by
                simp only [ackManagerStep, hpc, ReceiverInner.snapshotAndTick, hl]
              exact .inr (h.quietStep hstep (by rintro ⟨⟩) rfl (by simp [hpc, AckManager.rank]))
          | some entry =>
              obtain ⟨r', hexec, hless, hnext⟩ := h.check hpc hl
              refine .inr ⟨_, r', by simp [Label.Own], hexec, ?_, hnext⟩
              rw [Threads.resolvingRank, Threads.resolvingRank, Prod.Lex.toLex_lt_toLex]
              exact .inl hless
  | acking b snapshot rest =>
      obtain ⟨r', hstep, hless, hnext⟩ := h.write hpc
      refine .inr ⟨[.ack .write], r', by simp [Label.Own], by rw [Lts.exec, hstep]; rfl, ?_, hnext⟩
      rw [Threads.resolvingRank, Threads.resolvingRank, Prod.Lex.toLex_lt_toLex]
      exact .inl hless
  | removing b rest =>
      have hstep : ackManagerStep setup.blocks.toNat r.now .remove r.control
          = some { r.control with
              shared := r.control.shared.remove b
              completed := r.control.completed + 1
              ack := .checking rest } := by
        simp only [ackManagerStep, hpc]
      exact .inr (h.quietStep hstep (by rintro ⟨⟩) rfl (by simp [hpc, AckManager.rank]))
  | exited x =>
      rw [h.ok x hpc]
      exact .inl rfl

/-- **All blocks get resolved.** Once every block is known, the ack manager alone goes on to the exit
    of its loop. -/
theorem Resolving.exists_resolved (h : Resolving setup r r) :
    ∃ ls r', (∀ l ∈ ls, Label.Own l) ∧ (receiver setup).exec ls r = some r' ∧
      Resolving setup r r' ∧ r'.control.ack = .exited .ok :=
  Lts.exists_exec_of_wellFounded (Resolving setup r) (fun r => r.control.ack = .exited .ok) Label.Own
    (Threads.resolvingRank setup) (fun _ hr => hr.progress) r h

end SecureTransfer.Receiver
