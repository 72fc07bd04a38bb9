import Mathlib.Algebra.Order.BigOperators.Group.List
import SecureTransfer.Lib.Outputs
import SecureTransfer.Receiver.IdleRounds

set_option autoImplicit false

/-! # The repair window

`config.rs` speaks of 50 rounds of 150 ms before a block is given up. What `ready_for_check` enforces
is the round number times the grace period, which is 1 ms, and the idle timeout of 100 ms at most; so
the waits between the checks of a block never add up to more than five seconds, and to 1325 ms when
its `BlockEnd` has been seen (`repairWindow_short`). -/

namespace SecureTransfer.Receiver

variable {setup : Setup} {r r' : Threads} {l : Label} {ls : List Label} {c c' : Control}
  {b b' : UInt32} {now total : ℕ}

/-- `grace`. -/
def grace : ℕ := fromMillis blockGracePeriodMs

/-- `MAX_BLOCK_RETRY_ROUNDS` rounds of 150 ms. -/
def repairWindow : ℕ := maxBlockRetryRounds * fromMillis 150

/-! ## The waits -/

/-- How long `ready_for_check` holds a block back after its last activity. -/
def requiredWait (e : BlockRxEntry) : ℕ :=
  if e.isComplete then if e.endSeen then grace else idleTimeout
  else if e.endSeen then min (grace * (e.rounds + 1)) idleTimeout
  else idleTimeout

theorem isReady_iff {e : BlockRxEntry} :
    e.isReady (fromMillis blockGracePeriodMs) (fromMillis blockIdleTimeoutMs) now = true ↔
      requiredWait e ≤ now - e.lastActivity := by
  unfold BlockRxEntry.isReady requiredWait
  cases e.isComplete <;> cases e.endSeen <;> simp [grace, idleTimeout]

theorem requiredWait_le (e : BlockRxEntry) : requiredWait e ≤ idleTimeout := by
  have hgrace : grace ≤ idleTimeout := by decide
  unfold requiredWait
  cases e.isComplete <;> cases e.endSeen <;> simp [hgrace]

/-- A block that `ready_for_check` returns, with the wait it was held to. -/
structure Check where
  block : UInt32
  endSeen : Bool
  wait : ℕ

variable {log : List Check}

/-- What `ready_for_check` has returned as `order`. -/
def polled (s : ReceiverInner) (order : List UInt32) : List Check :=
  order.filterMap fun b => (s.blocks.lookup b).map fun e => ⟨b, e.endSeen, requiredWait e⟩

def Threads.checks (l : Label) (r : Threads) : List Check :=
  match l with
  | .ack (.poll order) => polled r.control.shared order
  | _ => []

/-- The checks of a run. -/
def checkLog (setup : Setup) (ls : List Label) : List Check :=
  (receiver setup).outputs (fun l r _ => r.checks l) ls (receiver setup).init

def checksOf (b : UInt32) (log : List Check) : List Check :=
  log.filter fun check => check.block = b

/-- The waits between the first check of a block and the last. -/
def waits (b : UInt32) (log : List Check) : List ℕ :=
  (checksOf b log).tail.map Check.wait

theorem checksOf_append (b : UInt32) (log log' : List Check) :
    checksOf b (log ++ log') = checksOf b log ++ checksOf b log' :=
  List.filter_append _ _

/-- A block is returned once at most. -/
theorem checksOf_polled {s : ReceiverInner} {order : List UInt32} (hnodup : order.Nodup)
    (b : UInt32) : checksOf b (polled s order) = if b ∈ order then
      ((s.blocks.lookup b).map fun e => ⟨b, e.endSeen, requiredWait e⟩).toList else [] := by
  induction order with
  | nil => rfl
  | cons b' order ih =>
      obtain ⟨hnot, hrest⟩ := List.nodup_cons.1 hnodup
      have hfirst : polled s (b' :: order) =
          ((s.blocks.lookup b').map fun e => ⟨b', e.endSeen, requiredWait e⟩).toList
            ++ polled s order := by
        rw [polled, List.filterMap_cons]
        cases s.blocks.lookup b' <;> rfl
      rw [hfirst, checksOf_append, ih hrest]
      by_cases hb : b = b'
      · subst hb
        rw [if_neg hnot, List.append_nil, if_pos List.mem_cons_self]
        cases s.blocks.lookup b <;> simp [checksOf]
      · have hother : checksOf b ((s.blocks.lookup b').map fun e =>
            (⟨b', e.endSeen, requiredWait e⟩ : Check)).toList = [] := by
          cases s.blocks.lookup b' <;> simp [checksOf, Ne.symm hb]
        simp [hother, hb]

/-! ## The invariant -/

/-- The block whose snapshot has been taken. -/
def AckManager.handled : AckManager → Option UInt32
  | .acking blockId _ _ => some blockId
  | .removing blockId _ => some blockId
  | _ => none

/-- The block is incomplete, or the snapshot about to be acked says so. -/
def Control.Incomplete (c : Control) (b : UInt32) (entry : BlockRxEntry) : Prop :=
  entry.isComplete = false ∨
    ∃ snapshot rest, c.ack = .acking b snapshot rest ∧ snapshot.isComplete = false

/-- What the checks of a block say about its entry. -/
structure Checked (log : List Check) (c : Control) : Prop where
  fresh : ∀ b, c.shared.blocks.lookup b = none → b ∉ c.shared.completed → checksOf b log = []
  count : ∀ b entry, c.shared.Tracked b entry →
    (checksOf b log).length = entry.rounds + if b ∈ c.ack.due then 1 else 0
  limit : ∀ b entry, c.shared.Tracked b entry →
    entry.rounds ≤ maxBlockRetryRounds + if c.ack.handled = some b then 1 else 0
  bound : ∀ check ∈ log, check.wait ≤ idleTimeout
  waits : ∀ b entry, c.shared.Tracked b entry → c.Incomplete b entry → ∀ (k : ℕ) (check : Check),
    (checksOf b log)[k]? = some check → check.endSeen = true →
      check.wait = min (grace * (k + 1)) idleTimeout
  ends : ∀ b entry, c.shared.Tracked b entry → ∀ check ∈ checksOf b log, check.endSeen = true →
    entry.endSeen = true
  sticky : ∀ b, (checksOf b log).Pairwise fun check check' =>
    check.endSeen = true → check'.endSeen = true

theorem Checked.init : Checked [] .init where
  fresh := fun _ _ _ => rfl
  count := fun _ _ h => absurd h ReceiverInner.not_tracked_init
  limit := fun _ _ h => absurd h ReceiverInner.not_tracked_init
  bound := nofun
  waits := fun _ _ h => absurd h ReceiverInner.not_tracked_init
  ends := fun _ _ h => absurd h ReceiverInner.not_tracked_init
  sticky := fun _ => .nil

/-! ## The other threads -/

/-- What a mutator of another thread does to a consistent entry. -/
structure Advanced (entry entry' : BlockRxEntry) : Prop where
  rounds : entry'.rounds = entry.rounds
  endSeen : entry.endSeen = true → entry'.endSeen = true
  incomplete : entry'.isComplete = false → entry.isComplete = false

theorem Checked.mutate (h : Checked log c) (hconsistent : c.shared.Consistent) {n : ℕ}
    {update : BlockRxEntry → BlockRxEntry} (hdue : ∀ b ∈ c.ack.due, ∃ entry, c.shared.Tracked b entry)
    (hhandled : ∀ b, c.ack.handled = some b → ∃ entry, c.shared.Tracked b entry)
    (hadvanced : ∀ entry : BlockRxEntry, entry.Consistent → Advanced entry (update entry)) :
    Checked log (c.mutate (ReceiverInner.withEntry b n now update)) := by
  -- an entry found afterwards is an old one, an updated one, or new
  have hentry : ∀ b' entry', (c.mutate (ReceiverInner.withEntry b n now update)).shared.Tracked
      b' entry' →
      (∃ entry, c.shared.Tracked b' entry ∧ Advanced entry entry') ∨
        (checksOf b' log = [] ∧ b' ∉ c.ack.due ∧ c.ack.handled ≠ some b' ∧ entry'.rounds = 0) := by
    intro b' entry' ht
    rcases ReceiverInner.tracked_withEntry ht with hold | ⟨rfl, hopen, rfl⟩
    · exact .inl ⟨entry', hold, rfl, id, id⟩
    · rcases c.shared.entryOrNew_cases b' n now with ht | ⟨hnone, hnew⟩
      · exact .inl ⟨_, ht, hadvanced _ (hconsistent.entries _ _ ht)⟩
      · have huntracked : ¬ ∃ entry, c.shared.Tracked b' entry := by
          rintro ⟨entry, ht'⟩
          rw [ReceiverInner.Tracked, hnone] at ht'
          cases ht'
        rw [hnew]
        exact .inr ⟨h.fresh b' hnone hopen, fun hb => huntracked (hdue b' hb),
          fun hb => huntracked (hhandled b' hb), (hadvanced _ .new).rounds⟩
  refine ⟨fun b' hnone hopen => ?_, fun b' entry' ht => ?_, fun b' entry' ht => ?_, h.bound,
    fun b' entry' ht hincomplete k check hk => ?_, fun b' entry' ht check hcheck hend => ?_, h.sticky⟩
  · refine h.fresh b' ?_ (by simpa [Control.mutate] using hopen)
    by_contra htracked
    obtain ⟨entry, ht⟩ := Option.ne_none_iff_exists'.1 htracked
    have hkept : ∃ entry', (c.shared.withEntry b n now update).Tracked b' entry' :=
      (ReceiverInner.Tracked.withEntry ht).elim (fun ht => ⟨_, ht⟩) fun ht => ⟨_, ht.2⟩
    obtain ⟨entry', ht'⟩ := hkept
    exact absurd (ht'.symm.trans hnone) (Option.some_ne_none _)
  · rcases hentry b' entry' ht with ⟨entry, hold, hadv⟩ | ⟨hnil, hb, -, hrounds⟩
    · rw [hadv.rounds]
      exact h.count b' entry hold
    · have hdue : b' ∉ (c.mutate (ReceiverInner.withEntry b n now update)).ack.due := hb
      rw [hnil, hrounds, if_neg hdue]
      rfl
  · rcases hentry b' entry' ht with ⟨entry, hold, hadv⟩ | ⟨-, -, -, hrounds⟩
    · rw [hadv.rounds]
      exact h.limit b' entry hold
    · rw [hrounds]
      exact Nat.zero_le _
  · rcases hentry b' entry' ht with ⟨entry, hold, hadv⟩ | ⟨hnil, -⟩
    · exact h.waits b' entry hold (hincomplete.imp_left hadv.incomplete) k check hk
    · rw [hnil] at hk
      cases hk
  · rcases hentry b' entry' ht with ⟨entry, hold, hadv⟩ | ⟨hnil, -⟩
    · exact hadv.endSeen (h.ends b' entry hold check hcheck hend)
    · rw [hnil] at hcheck
      cases hcheck

/-! ## The ack manager's moves -/

/-- `ready_for_check` returns blocks to check. -/
theorem Checked.poll (h : Checked log c) {order : List UInt32} (hpc : c.ack = .poll)
    (hnodup : order.Nodup) :
    Checked (log ++ polled c.shared order) { c with ack := .checking order } := by
  have hnew : ∀ {b entry}, c.shared.Tracked b entry → checksOf b (polled c.shared order)
      = if b ∈ order then [⟨b, entry.endSeen, requiredWait entry⟩] else [] := by
    intro b entry ht
    rw [checksOf_polled hnodup, show c.shared.blocks.lookup b = some entry from ht]
    rfl
  have hcount : ∀ {b entry}, c.shared.Tracked b entry →
      (checksOf b log).length = entry.rounds := by
    intro b entry ht
    have := h.count b entry ht
    simpa [hpc, AckManager.due] using this
  refine ⟨fun b hnone hopen => ?_, fun b entry ht => ?_, fun b entry ht => ?_, fun check hcheck => ?_,
    fun b entry ht hincomplete k check hk hend => ?_, fun b entry ht check hcheck hend => ?_,
    fun b => ?_⟩
  · have hno : checksOf b (polled c.shared order) = [] := by
      rw [checksOf_polled hnodup, show c.shared.blocks.lookup b = none from hnone]
      simp
    rw [checksOf_append, h.fresh b hnone hopen, hno]
    rfl
  · rw [checksOf_append, hnew ht, List.length_append, hcount ht]
    show _ = entry.rounds + if b ∈ order then 1 else 0
    split <;> rfl
  · have := h.limit b entry ht
    rwa [hpc] at this
  · rcases List.mem_append.1 hcheck with hold | hcheck
    · exact h.bound check hold
    · obtain ⟨b, -, heq⟩ := List.mem_filterMap.1 hcheck
      obtain ⟨e, -, rfl⟩ := Option.map_eq_some_iff.1 heq
      exact requiredWait_le e
  · have hopen : entry.isComplete = false := hincomplete.resolve_right nofun
    rw [checksOf_append, hnew ht] at hk
    rcases Nat.lt_or_ge k (checksOf b log).length with hlt | hge
    · rw [List.getElem?_append_left hlt] at hk
      exact h.waits b entry ht (.inl hopen) k check hk hend
    · rw [List.getElem?_append_right hge] at hk
      split at hk
      · obtain ⟨hzero, rfl⟩ : k - (checksOf b log).length = 0 ∧
            (⟨b, entry.endSeen, requiredWait entry⟩ : Check) = check := by
          cases hi : k - (checksOf b log).length with
          | zero =>
              rw [hi] at hk
              exact ⟨rfl, Option.some.inj hk⟩
          | succ i =>
              rw [hi] at hk
              cases hk
        have hround : k = entry.rounds := by
          have := hcount ht
          omega
        subst hround
        have hseen : entry.endSeen = true := hend
        show requiredWait entry = _
        simp [requiredWait, hopen, hseen]
      · cases hk
  · rw [checksOf_append, hnew ht] at hcheck
    rcases List.mem_append.1 hcheck with hold | hcheck
    · exact h.ends b entry ht check hold hend
    · split at hcheck
      · rw [List.mem_singleton.1 hcheck] at hend
        exact hend
      · cases hcheck
  · rw [checksOf_append]
    refine List.pairwise_append.2 ⟨h.sticky b, ?_, fun check hcheck check' hcheck' hend => ?_⟩
    · rw [checksOf_polled hnodup]
      split
      · cases c.shared.blocks.lookup b <;> simp
      · exact .nil
    · cases hl : c.shared.blocks.lookup b with
      | none =>
          rw [checksOf_polled hnodup, hl] at hcheck'
          simp at hcheck'
      | some entry =>
          rw [hnew hl] at hcheck'
          split at hcheck'
          · rw [List.mem_singleton.1 hcheck']
            exact h.ends b entry hl check hcheck hend
          · cases hcheck'

/-- A move that takes neither a snapshot nor a block away. -/
theorem Checked.goto (h : Checked log c) {ack : AckManager} {acks : List BlockAck}
    {gaveUp : List UInt32} (hdue : ∀ b entry, c.shared.Tracked b entry → (b ∈ ack.due ↔ b ∈ c.ack.due))
    (hlimit : ∀ b entry, c.shared.Tracked b entry →
      entry.rounds ≤ maxBlockRetryRounds + if ack.handled = some b then 1 else 0)
    (hacking : ∀ b snapshot rest, ack ≠ .acking b snapshot rest) :
    Checked log { c with ack := ack, acks := acks, gaveUp := gaveUp } :=
  { h with
    count := fun b entry ht => by
      rw [h.count b entry ht]
      exact congrArg _ (if_congr (hdue b entry ht).symm rfl rfl)
    limit := hlimit
    waits := fun b entry ht hincomplete => by
      refine h.waits b entry ht (.inl (hincomplete.resolve_right ?_))
      rintro ⟨snapshot, rest, heq, -⟩
      exact hacking b snapshot rest heq }

theorem Checked.snapshot (h : Checked log c) {rest : List UInt32} {snapshot : Snapshot}
    {shared : ReceiverInner} (hpc : c.ack = .checking (b :: rest)) (hnodup : (b :: rest).Nodup)
    (hsome : c.shared.snapshotAndTick b now = some (snapshot, shared)) :
    Checked log { c with shared := shared, ack := .acking b snapshot rest } := by
  obtain ⟨entry, ht, rfl, rfl⟩ := snapshotAndTick_eq_some hsome
  have hb := (List.nodup_cons.1 hnodup).1
  have hlimit : entry.rounds ≤ maxBlockRetryRounds := by
    have := h.limit b entry ht
    simpa [hpc, AckManager.handled] using this
  refine ⟨fun b' hnone hopen => ?_, fun b' entry' ht' => ?_, fun b' entry' ht' => ?_, h.bound,
    fun b' entry' ht' hincomplete k check hk => ?_, fun b' entry' ht' check hcheck hend => ?_,
    h.sticky⟩
  · refine h.fresh b' ?_ hopen
    rw [ReceiverInner.setEntry, AList.lookup_insert_ite] at hnone
    split at hnone
    · cases hnone
    · exact hnone
  · rcases ReceiverInner.tracked_setEntry.1 ht' with ⟨rfl, rfl⟩ | ⟨hne, ht'⟩
    · have := h.count b' entry ht
      simpa [hpc, AckManager.due, hb] using this
    · rw [h.count b' entry' ht', hpc]
      exact congrArg _ (if_congr (by simp [AckManager.due, hne]) rfl rfl)
  · rcases ReceiverInner.tracked_setEntry.1 ht' with ⟨rfl, rfl⟩ | ⟨hne, ht'⟩
    · show entry.rounds + 1 ≤ maxBlockRetryRounds + if some b' = some b' then 1 else 0
      rw [if_pos rfl]
      exact Nat.succ_le_succ hlimit
    · have := h.limit b' entry' ht'
      rw [hpc] at this
      exact this.trans (Nat.add_le_add_left (Nat.zero_le _) _)
  · rcases ReceiverInner.tracked_setEntry.1 ht' with ⟨rfl, rfl⟩ | ⟨hne, ht'⟩
    · refine h.waits b' entry ht (.inl ?_) k check hk
      rcases hincomplete with hopen | ⟨snapshot, rest', heq, hopen⟩
      · exact hopen
      · cases heq
        exact hopen
    · refine h.waits b' entry' ht' (.inl (hincomplete.resolve_right ?_)) k check hk
      rintro ⟨snapshot, rest', heq, -⟩
      cases heq
      exact hne rfl
  · rcases ReceiverInner.tracked_setEntry.1 ht' with ⟨rfl, rfl⟩ | ⟨hne, ht'⟩
    · exact h.ends b' entry ht check hcheck hend
    · exact h.ends b' entry' ht' check hcheck hend

theorem Checked.remove (h : Checked log c) {rest : List UInt32} (hpc : c.ack = .removing b rest) :
    Checked log { c with
      shared := c.shared.remove b, completed := c.completed + 1, ack := .checking rest } := by
  refine ⟨fun b' hnone hopen => ?_, fun b' entry' ht' => ?_, fun b' entry' ht' => ?_, h.bound,
    fun b' entry' ht' hincomplete => ?_, fun b' entry' ht' => ?_, h.sticky⟩
  · rw [ReceiverInner.remove, Finset.mem_insert, not_or] at hopen
    refine h.fresh b' ?_ hopen.2
    rwa [ReceiverInner.remove, AList.lookup_erase_ne hopen.1] at hnone
  · have := h.count b' entry' (ReceiverInner.tracked_remove.1 ht').2
    rwa [hpc] at this
  · obtain ⟨hne, ht'⟩ := ReceiverInner.tracked_remove.1 ht'
    have := h.limit b' entry' ht'
    simpa [hpc, AckManager.handled, Ne.symm hne] using this
  · exact h.waits b' entry' (ReceiverInner.tracked_remove.1 ht').2
      (.inl (hincomplete.resolve_right (by rintro ⟨_, _, ⟨⟩, _⟩)))
  · exact h.ends b' entry' (ReceiverInner.tracked_remove.1 ht').2

/-- An ack manager that has exited has no more moves. -/
theorem AckMove.not_exited {l : AckLabel} (h : AckMove total now l c c') (result : ThreadEnd) :
    c.ack ≠ .exited result := by
  cases h with
  | poll hpc | exit hpc | endRound hpc | skip hpc | snapshot hpc | complete hpc | giveUp hpc
  | missing hpc | writeError hpc | remove hpc =>
      rw [hpc]
      nofun

theorem Checked.move (h : Checked log c) (hidle : IdleInv ls now c)
    (hack : AckInv (· ∈ namedBlocks ls) total c) {l : AckLabel} (hmove : AckMove total now l c c') :
    (∃ result, c'.ack = .exited result) ∨
      Checked (log ++ match l with | .poll order => polled c.shared order | _ => []) c' := by
  have hround := hidle.nodup
  have hlimit := h.limit
  cases hmove with
  | poll hpc _ horder =>
      exact .inr (h.poll hpc (horder.nodup_iff.2 ReceiverInner.nodup_readyForCheck))
  | exit => exact .inl ⟨_, rfl⟩
  | writeError => exact .inl ⟨_, rfl⟩
  | endRound hpc =>
      rw [List.append_nil]
      rw [hpc] at hlimit
      exact .inr (h.goto (fun b entry _ => by simp [hpc, AckManager.due]) hlimit nofun)
  | @skip _ b rest hpc hnone =>
      rw [List.append_nil]
      rw [hpc] at hlimit
      refine .inr (h.goto (fun b' entry ht => ?_) hlimit nofun)
      have hne : b' ≠ b := by
        rintro rfl
        rw [ReceiverInner.snapshotAndTick, show c.shared.blocks.lookup b' = some entry from ht] at hnone
        cases hnone
      simp [hpc, AckManager.due, hne]
  | snapshot hpc hsome =>
      rw [List.append_nil]
      rw [hpc] at hround
      exact .inr (h.snapshot hpc hround hsome)
  | complete hpc =>
      rw [List.append_nil]
      rw [hpc] at hlimit
      exact .inr (h.goto (fun b entry _ => by rw [hpc]; exact Iff.rfl) hlimit nofun)
  | giveUp hpc =>
      rw [List.append_nil]
      rw [hpc] at hlimit
      exact .inr (h.goto (fun b entry _ => by rw [hpc]; exact Iff.rfl) hlimit nofun)
  | @missing _ b rest snapshot hpc _ hrounds =>
      rw [List.append_nil]
      obtain ⟨entry₀, ht₀, heq, -⟩ := hack.acking b snapshot rest hpc
      refine .inr (h.goto (fun b entry _ => by rw [hpc]; exact Iff.rfl) (fun b' entry ht => ?_) nofun)
      by_cases hb : b' = b
      · subst hb
        obtain rfl : entry = entry₀ := Option.some.inj (ht.symm.trans ht₀)
        rw [heq]
        exact hrounds
      · have := hlimit b' entry ht
        rw [hpc, AckManager.handled, if_neg fun heq => hb (Option.some.inj heq).symm] at this
        exact this
  | remove hpc =>
      rw [List.append_nil]
      exact .inr (h.remove hpc)

/-- The checks of the other threads' moves. -/
theorem Checked.others (h : Checked log r.control) (hmove : ControlMove setup r l c')
    (hl : ∀ l', l ≠ .ack l') (hidle : IdleInv ls r.now r.control)
    (hack : AckInv (· ∈ namedBlocks ls) total r.control) : Checked log c' := by
  have hhandled : ∀ b, r.control.ack.handled = some b →
      ∃ entry, r.control.shared.Tracked b entry := by
    intro b hb
    cases hpc : r.control.ack with
    | acking b' snapshot rest =>
        rw [hpc] at hb
        cases hb
        exact (hack.acking b snapshot rest hpc).imp fun entry h => h.1
    | removing b' rest =>
        rw [hpc] at hb
        cases hb
        exact (hack.removing b rest hpc).1
    | _ => rw [hpc] at hb; cases hb
  cases hmove with
  | keep => exact h
  | touch =>
      exact h.mutate hack.consistent hidle.tracked hhandled fun e _ => ⟨rfl, id, id⟩
  | endSeen =>
      exact h.mutate hack.consistent hidle.tracked hhandled fun e _ => ⟨rfl, fun _ => rfl, id⟩
  | @mark i p data =>
      have hmutated : Checked log (r.control.mutate (.markVerified p.blockId p.packetInBlock
          (packetsInBlock p.blockId setup.expectedChunks) r.now)) :=
        h.mutate hack.consistent hidle.tracked hhandled fun e he =>
          ⟨e.mark_rounds _, fun hend => (e.mark_endSeen _).trans hend, he.mark_incomplete⟩
      exact { hmutated with }
  | ack => exact absurd rfl (hl _)

/-! ## Along a run -/

theorem checked_of_reaches (hrun : (receiver setup).Reaches ls r) :
    (∃ result, r.control.ack = .exited result) ∨ Checked (checkLog setup ls) r.control := by
  refine hrun.outputs (P := fun _ log r =>
    (∃ result, r.control.ack = .exited result) ∨ Checked log r.control) (.inr .init) ?_
  intro ls log r l r' hrun ih _ hstep
  have hturn := Threads.turn_of_step hstep
  have hidle := idleInv_of_reaches hrun
  have hack := ackInv_of_reaches hrun
  have hcases : (∃ l', l = .ack l' ∧
      AckMove (totalBlocks setup.expectedChunks).toNat r.now l' r.control r'.control) ∨
      ∀ l', l ≠ .ack l' := by
    cases hturn with
    | ack hmove => exact .inl ⟨_, rfl, hmove⟩
    | _ => exact .inr nofun
  rcases hcases with ⟨l', rfl, hmove⟩ | hother
  · rcases ih with ⟨result, hexited⟩ | h
    · exact absurd hexited (hmove.not_exited result)
    · cases l' with
      | poll order => exact h.move hidle hack hmove
      | _ => exact h.move hidle hack hmove
  · have hchecks : r.checks l = [] := by
      cases l with
      | ack l' => exact absurd rfl (hother l')
      | _ => rfl
    have hcontrol := hturn.control
    rw [hchecks, List.append_nil]
    rcases ih with ⟨result, hexited⟩ | h
    · refine .inl ⟨result, ?_⟩
      generalize r'.control = c' at hcontrol
      cases hcontrol with
      | ack => exact absurd rfl (hother _)
      | _ => exact hexited
    · exact .inr (h.others hcontrol hother hidle hack)

/-! ## The window -/

/-- The waits of a block that is being given up. -/
theorem waits_of_givesUp (hrun : (receiver setup).Reaches ls r) (hgives : r.control.ack.GivesUp b) :
    (waits b (checkLog setup ls)).length = maxBlockRetryRounds ∧
      (∀ w ∈ waits b (checkLog setup ls), w ≤ idleTimeout) ∧
      ((∃ check rest, checksOf b (checkLog setup ls) = check :: rest ∧ check.endSeen = true) →
        waits b (checkLog setup ls) = (List.range maxBlockRetryRounds).map fun k =>
          min (grace * (k + 2)) idleTimeout) := by
  obtain ⟨snapshot, rest, hpc, hopen, hrounds⟩ := hgives
  obtain ⟨entry, ht, heq, -⟩ := (ackInv_of_reaches hrun).acking b snapshot rest hpc
  rcases checked_of_reaches hrun with ⟨result, hexited⟩ | h
  · rw [hpc] at hexited
    cases hexited
  have hnodup := (idleInv_of_reaches hrun).nodup
  rw [hpc] at hnodup
  have hcount := h.count b entry ht
  have hlimit := h.limit b entry ht
  simp only [hpc, AckManager.due, AckManager.handled, if_neg (List.nodup_cons.1 hnodup).1,
    if_true] at hcount hlimit
  have hlength : (checksOf b (checkLog setup ls)).length = maxBlockRetryRounds + 1 := by omega
  have hwaits : (waits b (checkLog setup ls)).length = maxBlockRetryRounds := by
    rw [waits, List.length_map, List.length_tail, hlength]
    rfl
  refine ⟨hwaits, fun w hw => ?_, ?_⟩
  · obtain ⟨check, hcheck, rfl⟩ := List.mem_map.1 hw
    exact h.bound check (List.mem_of_mem_filter (List.mem_of_mem_tail hcheck))
  · rintro ⟨first, others, hsplit, hend⟩
    refine List.ext_getElem (by rw [hwaits]; simp) fun k hk _ => ?_
    have hsticky := h.sticky b
    rw [hsplit] at hsticky
    have htail : waits b (checkLog setup ls) = others.map Check.wait := by rw [waits, hsplit]; rfl
    rw [htail, List.length_map] at hk
    have hcheck : (checksOf b (checkLog setup ls))[k + 1]? = some others[k] := by
      rw [hsplit, List.getElem?_cons_succ, List.getElem?_eq_getElem hk]
    have hseen := (List.pairwise_cons.1 hsticky).1 _ (List.getElem_mem hk) hend
    have hwait := h.waits b entry ht (.inr ⟨snapshot, rest, hpc, hopen⟩) (k + 1) _ hcheck hseen
    simpa [htail] using hwait

/-- **The repair window.** `ready_for_check` holds a block to the required wait and no longer. In
    every run, when the ack manager gives a block up, the waits enforced between its checks are 50,
    none longer than the idle timeout, and so less than the 7.5 seconds of `config.rs`; they come to
    1325 ms if the `BlockEnd` had been seen at the first check. -/
theorem repairWindow_short (hrun : (receiver setup).Reaches ls r)
    (hgives : r.control.ack.GivesUp b) :
    (∀ (e : BlockRxEntry) (now : ℕ),
        e.isReady (fromMillis blockGracePeriodMs) (fromMillis blockIdleTimeoutMs) now = true ↔
          requiredWait e ≤ now - e.lastActivity) ∧
      (waits b (checkLog setup ls)).length = maxBlockRetryRounds ∧
      (∀ w ∈ waits b (checkLog setup ls), w ≤ idleTimeout) ∧
      ¬ repairWindow ≤ (waits b (checkLog setup ls)).sum ∧
      ((∃ check rest, checksOf b (checkLog setup ls) = check :: rest ∧ check.endSeen = true) →
        (waits b (checkLog setup ls)).sum = fromMillis 1325) := by
  obtain ⟨hlength, hbound, hexact⟩ := waits_of_givesUp hrun hgives
  refine ⟨fun _ _ => isReady_iff, hlength, hbound, ?_, fun hseen => ?_⟩
  · have hsum := List.sum_le_card_nsmul _ _ hbound
    rw [hlength, nsmul_eq_mul, Nat.cast_id] at hsum
    have hshort : maxBlockRetryRounds * idleTimeout < repairWindow := by decide
    exact Nat.not_le_of_lt (lt_of_le_of_lt hsum hshort)
  · rw [hexact hseen]
    decide

/-- The `BlockEnd` arrives, and a millisecond later the block is checked for the first time. -/
def firstCheck : List Label :=
  [.udpLoop, .datagram (BlockEndPacket.encode 0 1), .tick (fromMillis 1), .ack (.poll [0]),
    .ack .next]

/-- The only packet is lost, and the ack manager checks the block as soon as it may. -/
def otherChecks : List Label :=
  (List.range maxBlockRetryRounds).flatMap fun k =>
    [.ack .write, .ack .next, .tick (fromMillis (k + 2)), .ack (.poll [0]), .ack .next]

theorem repairWindow_short_lostPacket :
    ∃ r, (receiver oneChunk).Reaches (firstCheck ++ otherChecks) r ∧
      ¬ repairWindow ≤ (waits 0 (checkLog oneChunk (firstCheck ++ otherChecks))).sum := by
  obtain ⟨r, hr, hgives⟩ := Lts.exists_exec (receiver oneChunk) (firstCheck ++ otherChecks)
    (fun r => r.control.ack.GivesUp 0) (by decide +kernel)
  exact ⟨r, Lts.reaches_of_exec hr, (repairWindow_short (Lts.reaches_of_exec hr) hgives).2.2.2.1⟩

/-- **Given up after 1.3 seconds.** The `BlockEnd` has been seen and the block is checked for the
    first time; 1325 ms later the ack manager gives it up. -/
theorem given_up_early :
    ∃ mid r, (receiver oneChunk).Reaches firstCheck mid ∧
      mid.control.ack = .acking 0 ⟨false, [0], 1⟩ [] ∧ EndHeard 0 firstCheck ∧
      (receiver oneChunk).Reaches (firstCheck ++ otherChecks) r ∧ r.control.ack.GivesUp 0 ∧
      elapsed otherChecks = fromMillis 1325 ∧ fromMillis 1325 < repairWindow := by
  obtain ⟨mid, hmid, hfirst⟩ := Lts.exists_exec (receiver oneChunk) firstCheck
    (fun r => r.control.ack = .acking 0 ⟨false, [0], 1⟩ []) (by decide +kernel)
  obtain ⟨r, hr, hgives⟩ := Lts.exists_exec (receiver oneChunk) (firstCheck ++ otherChecks)
    (fun r => r.control.ack.GivesUp 0) (by decide +kernel)
  exact ⟨mid, r, Lts.reaches_of_exec hmid, hfirst,
    ⟨BlockEndPacket.encode 0 1, 1, by simp [firstCheck], Incoming.ofDatagram_blockEnd 0 1⟩,
    Lts.reaches_of_exec hr, hgives, by decide +kernel, by decide⟩

end SecureTransfer.Receiver
