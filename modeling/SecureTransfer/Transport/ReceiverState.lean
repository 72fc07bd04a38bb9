import Mathlib.Data.Finset.Insert
import SecureTransfer.Config
import SecureTransfer.Lib.CountMap

set_option autoImplicit false

/-! # The receiver's block tracker (`SharedReceiverState` of `transport.rs`)

Every method takes the one lock for its whole body, so each is one function on `ReceiverInner`;
`now` is what `Instant::now()` reads inside it. -/

namespace SecureTransfer

structure BlockRxEntry where
  total : ℕ
  received : List Bool
  receivedCount : ℕ
  lastActivity : Instant
  endSeen : Bool
  rounds : ℕ

def BlockRxEntry.new (total : ℕ) (now : Instant) : BlockRxEntry where
  total := total
  received := List.replicate total false
  receivedCount := 0
  lastActivity := now
  endSeen := false
  rounds := 0

def BlockRxEntry.isComplete (entry : BlockRxEntry) : Bool :=
  entry.receivedCount == entry.total

/-- The positions whose bit is not set, cut to `u16`. -/
def BlockRxEntry.missingIds (entry : BlockRxEntry) : List UInt16 :=
  (entry.received.zipIdx.filter fun e => !e.1).map fun e => UInt16.ofNat e.2

structure ReceiverInner where
  blocks : AList (fun _ : UInt32 => BlockRxEntry)
  completed : Finset UInt32

def ReceiverInner.init : ReceiverInner where
  blocks := ∅
  completed := ∅

/-- `guard.blocks.entry(block_id).or_insert_with(|| BlockRxEntry::new(total))`, as a value. -/
def ReceiverInner.entryOrNew (s : ReceiverInner) (blockId : UInt32) (total : ℕ) (now : Instant) :
    BlockRxEntry :=
  (s.blocks.lookup blockId).getD (.new total now)

/-- The entry is written back. -/
def ReceiverInner.setEntry (s : ReceiverInner) (blockId : UInt32) (entry : BlockRxEntry) :
    ReceiverInner :=
  { s with blocks := s.blocks.insert blockId entry }

/-- The mutators: nothing for a completed block, otherwise the entry is found or made, updated and
    written back. -/
def ReceiverInner.withEntry (blockId : UInt32) (total : ℕ) (now : Instant)
    (update : BlockRxEntry → BlockRxEntry) (s : ReceiverInner) : ReceiverInner :=
  if blockId ∈ s.completed then s
  else s.setEntry blockId (update (s.entryOrNew blockId total now))

def ReceiverInner.touchActivity (blockId : UInt32) (total : ℕ) (now : Instant)
    (s : ReceiverInner) : ReceiverInner :=
  s.withEntry blockId total now fun entry => { entry with lastActivity := now }

/-- The bit of one packet is set, and counted, unless it is out of range or set already. -/
def BlockRxEntry.mark (idx : ℕ) (entry : BlockRxEntry) : BlockRxEntry :=
  if entry.received[idx]? = some false then
    { entry with
      received := entry.received.set idx true
      receivedCount := entry.receivedCount + 1 }
  else entry

def ReceiverInner.markVerified (blockId : UInt32) (packetInBlock : UInt16) (total : ℕ)
    (now : Instant) (s : ReceiverInner) : ReceiverInner :=
  s.withEntry blockId total now (BlockRxEntry.mark packetInBlock.toNat)

def ReceiverInner.markEndSeen (blockId : UInt32) (total : ℕ) (now : Instant)
    (s : ReceiverInner) : ReceiverInner :=
  s.withEntry blockId total now fun entry => { entry with endSeen := true, lastActivity := now }

/-- The filter of `ready_for_check`. -/
def BlockRxEntry.isReady (grace idleTimeout : Duration) (now : Instant) (e : BlockRxEntry) : Bool :=
  let elapsed := now - e.lastActivity
  if e.isComplete then
    if e.endSeen then grace ≤ elapsed else idleTimeout ≤ elapsed
  else if e.endSeen then
    let required := min (grace * (e.rounds + 1)) idleTimeout
    required ≤ elapsed
  else idleTimeout ≤ elapsed

/-- The blocks to check, in the order of the map's entries; the source visits them in any order. -/
def ReceiverInner.readyForCheck (grace idleTimeout : Duration) (now : Instant)
    (s : ReceiverInner) : List UInt32 :=
  (s.blocks.entries.filter fun e => e.2.isReady grace idleTimeout now).map Sigma.fst

/-- What `snapshot_and_tick` returns for a tracked block. -/
structure Snapshot where
  isComplete : Bool
  missing : List UInt16
  rounds : ℕ
deriving DecidableEq

def ReceiverInner.snapshotAndTick (blockId : UInt32) (now : Instant) (s : ReceiverInner) :
    Option (Snapshot × ReceiverInner) :=
  match s.blocks.lookup blockId with
  | none => none
  | some entry =>
    let entry := { entry with rounds := entry.rounds + 1, lastActivity := now }
    some (⟨entry.isComplete, entry.missingIds, entry.rounds⟩, s.setEntry blockId entry)

def ReceiverInner.remove (blockId : UInt32) (s : ReceiverInner) : ReceiverInner where
  blocks := s.blocks.erase blockId
  completed := insert blockId s.completed

/-! ## Tracked blocks -/

variable {s : ReceiverInner} {b b' : UInt32} {total : ℕ} {now : Instant} {entry : BlockRxEntry}

def ReceiverInner.Tracked (s : ReceiverInner) (blockId : UInt32) (entry : BlockRxEntry) : Prop :=
  s.blocks.lookup blockId = some entry

theorem ReceiverInner.not_tracked_init : ¬ ReceiverInner.init.Tracked b entry := by
  simp [Tracked, ReceiverInner.init]

theorem ReceiverInner.tracked_setEntry {entry' : BlockRxEntry} :
    (s.setEntry b entry').Tracked b' entry ↔
      (b' = b ∧ entry = entry') ∨ (b' ≠ b ∧ s.Tracked b' entry) := by
  unfold Tracked setEntry
  rw [AList.lookup_insert_ite]
  by_cases h : b' = b
  · simp [h, eq_comm]
  · simp [h]

theorem ReceiverInner.tracked_remove :
    (s.remove b).Tracked b' entry ↔ b' ≠ b ∧ s.Tracked b' entry := by
  unfold Tracked remove
  rw [AList.lookup_erase_ite]
  by_cases h : b' = b <;> simp [h]

theorem fromMillis_grace_le : fromMillis blockGracePeriodMs ≤ fromMillis blockIdleTimeoutMs :=
  Nat.mul_le_mul_right _ (by decide)

/-- Whatever its state, an entry is ready once it has been idle for the idle timeout. -/
theorem BlockRxEntry.isReady_of_idle {grace idleTimeout : Duration} (hgrace : grace ≤ idleTimeout)
    (hidle : idleTimeout ≤ now - entry.lastActivity) :
    entry.isReady grace idleTimeout now = true := by
  unfold isReady
  dsimp only
  split
  · split
    · exact decide_eq_true (hgrace.trans hidle)
    · exact decide_eq_true hidle
  · split
    · exact decide_eq_true ((min_le_right _ _).trans hidle)
    · exact decide_eq_true hidle

theorem ReceiverInner.mem_readyForCheck {grace idleTimeout : Duration} :
    b ∈ s.readyForCheck grace idleTimeout now
      ↔ ∃ entry, s.Tracked b entry ∧ entry.isReady grace idleTimeout now = true := by
  simp only [readyForCheck, List.mem_map, List.mem_filter]
  constructor
  · rintro ⟨⟨b', entry⟩, ⟨hmem, hready⟩, rfl⟩
    exact ⟨entry, AList.mem_entries_iff_lookup.1 hmem, hready⟩
  · rintro ⟨entry, ht, hready⟩
    exact ⟨⟨b, entry⟩, ⟨AList.mem_entries_iff_lookup.2 ht, hready⟩, rfl⟩

theorem ReceiverInner.nodup_readyForCheck {grace idleTimeout : Duration} :
    (s.readyForCheck grace idleTimeout now).Nodup :=
  List.NodupKeys.sublist List.filter_sublist s.blocks.nodupKeys

/-- What a mutator tracks: its own entry, and whatever was tracked before. -/
theorem ReceiverInner.tracked_withEntry {update : BlockRxEntry → BlockRxEntry}
    (h : (s.withEntry b total now update).Tracked b' entry) :
    s.Tracked b' entry ∨
      (b' = b ∧ b ∉ s.completed ∧ entry = update (s.entryOrNew b total now)) := by
  unfold withEntry at h
  split at h
  · exact .inl h
  · next hb =>
      rcases tracked_setEntry.1 h with ⟨hb', hentry⟩ | ⟨_, ht⟩
      · exact .inr ⟨hb', hb, hentry⟩
      · exact .inl ht

/-- A mutator keeps every block tracked. -/
theorem ReceiverInner.Tracked.withEntry {update : BlockRxEntry → BlockRxEntry}
    (h : s.Tracked b' entry) :
    (s.withEntry b total now update).Tracked b' entry ∨
      (b' = b ∧ (s.withEntry b total now update).Tracked b' (update entry)) := by
  unfold ReceiverInner.withEntry
  split
  · exact .inl h
  · by_cases hb : b' = b
    · subst hb
      refine .inr ⟨rfl, tracked_setEntry.2 (.inl ⟨rfl, ?_⟩)⟩
      unfold Tracked at h
      rw [entryOrNew, h, Option.getD_some]
    · exact .inl (tracked_setEntry.2 (.inr ⟨hb, h⟩))

@[simp] theorem ReceiverInner.completed_withEntry {update : BlockRxEntry → BlockRxEntry} :
    (s.withEntry b total now update).completed = s.completed := by
  unfold withEntry; split <;> rfl

/-- An entry that is updated was tracked before or is new. -/
theorem ReceiverInner.entryOrNew_cases (s : ReceiverInner) (b : UInt32) (total : ℕ)
    (now : Instant) :
    s.Tracked b (s.entryOrNew b total now) ∨
      (s.blocks.lookup b = none ∧ s.entryOrNew b total now = .new total now) := by
  unfold Tracked entryOrNew
  cases h : s.blocks.lookup b with
  | none => exact .inr ⟨rfl, rfl⟩
  | some entry => exact .inl rfl

@[simp] theorem BlockRxEntry.mark_total (entry : BlockRxEntry) (idx : ℕ) :
    (entry.mark idx).total = entry.total := by
  unfold mark; split <;> rfl

@[simp] theorem BlockRxEntry.mark_rounds (entry : BlockRxEntry) (idx : ℕ) :
    (entry.mark idx).rounds = entry.rounds := by
  unfold mark; split <;> rfl

@[simp] theorem BlockRxEntry.length_received_mark (entry : BlockRxEntry) (idx : ℕ) :
    (entry.mark idx).received.length = entry.received.length := by
  unfold mark; split <;> simp

@[simp] theorem BlockRxEntry.mark_lastActivity (entry : BlockRxEntry) (idx : ℕ) :
    (entry.mark idx).lastActivity = entry.lastActivity := by
  unfold mark; split <;> rfl

@[simp] theorem BlockRxEntry.mark_endSeen (entry : BlockRxEntry) (idx : ℕ) :
    (entry.mark idx).endSeen = entry.endSeen := by
  unfold mark; split <;> rfl

/-- The bits of a marked entry. -/
theorem BlockRxEntry.received_mark {idx i : ℕ} :
    (entry.mark idx).received[i]? = some true ↔
      entry.received[i]? = some true ∨ (i = idx ∧ i < entry.received.length) := by
  unfold mark
  split
  · next hfree =>
      have hlt : idx < entry.received.length := (List.getElem?_eq_some_iff.1 hfree).1
      by_cases h : i = idx
      · subst h
        simp [hlt]
      · rw [List.getElem?_set_ne (Ne.symm h)]
        simp [h]
  · next hset =>
      constructor
      · exact .inl
      · rintro (h | ⟨rfl, hlt⟩)
        · exact h
        · rw [List.getElem?_eq_getElem hlt] at hset ⊢
          cases hbit : entry.received[i] with
          | true => rfl
          | false => exact absurd (congrArg some hbit) hset

/-! ## The counter beside the bitmap -/

/-- The bitmap has one bit per packet and the counter counts the set ones. -/
structure BlockRxEntry.Consistent (entry : BlockRxEntry) : Prop where
  length : entry.received.length = entry.total
  count : entry.receivedCount = entry.received.count true

theorem BlockRxEntry.Consistent.new : (BlockRxEntry.new total now).Consistent :=
  ⟨by simp [BlockRxEntry.new], by simp [BlockRxEntry.new, List.count_replicate]⟩

theorem BlockRxEntry.Consistent.mark (h : entry.Consistent) (idx : ℕ) :
    (entry.mark idx).Consistent := by
  unfold BlockRxEntry.mark
  split
  · next hfree =>
      obtain ⟨hlt, hbit⟩ := List.getElem?_eq_some_iff.1 hfree
      refine ⟨by rw [List.length_set, h.length], ?_⟩
      show entry.receivedCount + 1 = (entry.received.set idx true).count true
      rw [List.count_set hlt, hbit, h.count]
      simp
  · exact h

/-- A complete entry has no bit left to set. -/
theorem BlockRxEntry.Consistent.mark_incomplete (h : entry.Consistent) {idx : ℕ}
    (hopen : (entry.mark idx).isComplete = false) : entry.isComplete = false := by
  unfold BlockRxEntry.mark at hopen
  split at hopen
  · next hfree =>
      -- a free bit means that the count is below the total
      obtain ⟨hlt, hbit⟩ := List.getElem?_eq_some_iff.1 hfree
      rw [BlockRxEntry.isComplete, beq_eq_false_iff_ne, h.count, ← h.length]
      intro hall
      have htrue := List.count_eq_length.1 hall _ (List.getElem_mem hlt)
      rw [hbit] at htrue
      cases htrue
  · exact hopen

/-- The test on the counter is a test on the bitmap. -/
theorem BlockRxEntry.Consistent.isComplete_iff (h : entry.Consistent) :
    entry.isComplete = true ↔ ∀ i < entry.total, entry.received[i]? = some true := by
  rw [BlockRxEntry.isComplete, beq_iff_eq, h.count, ← h.length, List.count_eq_length]
  constructor
  · intro hall i hi
    rw [List.getElem?_eq_getElem hi, ← hall _ (List.getElem_mem hi)]
  · intro hall x hx
    obtain ⟨i, hi, rfl⟩ := List.mem_iff_getElem.1 hx
    have hbit := hall i hi
    rw [List.getElem?_eq_getElem hi, Option.some.injEq] at hbit
    exact hbit.symm

/-! ## The missing ids -/

theorem BlockRxEntry.map_toNat_missingIds (h : entry.received.length ≤ 2 ^ 16) :
    entry.missingIds.map UInt16.toNat
      = (entry.received.zipIdx.filter fun e => !e.1).map Prod.snd := by
  rw [BlockRxEntry.missingIds, List.map_map]
  refine List.map_congr_left fun e he => ?_
  obtain ⟨hlt, -⟩ := List.mem_zipIdx' (List.mem_filter.1 he).1
  exact UInt16.toNat_ofNat_of_lt' (lt_of_lt_of_le hlt h)

/-- The cut to `u16` loses nothing of a block of the file. -/
theorem BlockRxEntry.mem_missingIds (h : entry.received.length ≤ 2 ^ 16) {id : UInt16} :
    id ∈ entry.missingIds ↔ entry.received[id.toNat]? = some false := by
  have hmem : id ∈ entry.missingIds ↔ id.toNat ∈ entry.missingIds.map UInt16.toNat := by
    rw [List.mem_map]
    exact ⟨fun hid => ⟨id, hid, rfl⟩, fun ⟨id', hid', heq⟩ => UInt16.toNat_inj.1 heq ▸ hid'⟩
  rw [hmem, map_toNat_missingIds h, List.mem_map]
  constructor
  · rintro ⟨⟨bit, i⟩, he, rfl⟩
    obtain ⟨hbit, hfree⟩ := List.mem_filter.1 he
    rw [List.mem_zipIdx_iff_getElem?.1 hbit]
    simpa using hfree
  · intro hfree
    exact ⟨(false, id.toNat),
      List.mem_filter.2 ⟨List.mem_zipIdx_iff_getElem?.2 hfree, rfl⟩, rfl⟩

/-- Each id once, in ascending order. -/
theorem BlockRxEntry.pairwise_missingIds (h : entry.received.length ≤ 2 ^ 16) :
    entry.missingIds.Pairwise (· < ·) := by
  have hsorted : (entry.missingIds.map UInt16.toNat).Pairwise (· < ·) := by
    rw [map_toNat_missingIds h]
    refine List.Pairwise.sublist (List.filter_sublist.map _) ?_
    rw [List.zipIdx_map_snd]
    exact List.pairwise_lt_range'
  exact (List.pairwise_map.1 hsorted).imp UInt16.lt_iff_toNat_lt.2

/-- The tracker as a whole: consistent entries, none of a completed block. -/
structure ReceiverInner.Consistent (s : ReceiverInner) : Prop where
  entries : ∀ b entry, s.Tracked b entry → entry.Consistent
  disjoint : ∀ b entry, s.Tracked b entry → b ∉ s.completed

theorem ReceiverInner.Consistent.init : ReceiverInner.init.Consistent :=
  ⟨fun _ _ h => absurd h not_tracked_init, fun _ _ h => absurd h not_tracked_init⟩

theorem ReceiverInner.Consistent.entryOrNew (h : s.Consistent) :
    (s.entryOrNew b total now).Consistent := by
  rcases s.entryOrNew_cases b total now with ht | ⟨_, hnew⟩
  · exact h.entries _ _ ht
  · rw [hnew]
    exact .new

theorem ReceiverInner.Consistent.setEntry (h : s.Consistent) (hb : b ∉ s.completed)
    (hentry : entry.Consistent) : (s.setEntry b entry).Consistent := by
  refine ⟨fun b' e ht => ?_, fun b' e ht => ?_⟩
  · rcases ReceiverInner.tracked_setEntry.1 ht with ⟨_, rfl⟩ | ⟨_, ht⟩
    · exact hentry
    · exact h.entries b' e ht
  · rcases ReceiverInner.tracked_setEntry.1 ht with ⟨rfl, _⟩ | ⟨_, ht⟩
    · exact hb
    · exact h.disjoint b' e ht

theorem ReceiverInner.Consistent.withEntry {update : BlockRxEntry → BlockRxEntry}
    (h : s.Consistent) (hupdate : ∀ e : BlockRxEntry, e.Consistent → (update e).Consistent) :
    (s.withEntry b total now update).Consistent := by
  unfold ReceiverInner.withEntry
  split
  · exact h
  · next hb => exact h.setEntry hb (hupdate _ h.entryOrNew)

theorem ReceiverInner.Consistent.remove (h : s.Consistent) : (s.remove b).Consistent := by
  refine ⟨fun b' e ht => h.entries b' e (ReceiverInner.tracked_remove.1 ht).2, fun b' e ht => ?_⟩
  obtain ⟨hne, ht⟩ := ReceiverInner.tracked_remove.1 ht
  rw [ReceiverInner.remove, Finset.mem_insert]
  exact fun hmem => hmem.elim hne (h.disjoint b' e ht)

end SecureTransfer
