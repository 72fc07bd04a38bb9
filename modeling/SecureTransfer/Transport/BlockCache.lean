import Mathlib.Data.List.Basic
import SecureTransfer.Config
import SecureTransfer.Lib.CountMap
import SecureTransfer.Lib.Transition

set_option autoImplicit false

/-! # The shared block cache (`SharedBlockCache` of `transport.rs`)

The cache the sender's threads shared before one thread came to own the blocks. Every method takes
the one lock for its whole body, so threads calling them produce a sequence of calls, and
`blockCache` runs every such sequence. A call that panics leaves the lock poisoned, and every later
call panics in `lock().unwrap()`; so a run ends there. -/

namespace SecureTransfer

structure BlockCacheEntry where
  packets : List (Option Bytes)

def BlockCacheEntry.new (total : ℕ) : BlockCacheEntry where
  packets := List.replicate total none

structure SharedBlockCache where
  inner : AList (fun _ : UInt32 => BlockCacheEntry)

def SharedBlockCache.new : SharedBlockCache where
  inner := ∅

/-- The panic of `entry.packets[packet_in_block as usize]`. -/
structure CacheIndexPanic where
  index : ℕ
  len : ℕ
deriving DecidableEq

def SharedBlockCache.recordSent (blockId : UInt32) (packetInBlock : UInt16) (total : ℕ)
    (datagram : Bytes) (cache : SharedBlockCache) : Except CacheIndexPanic SharedBlockCache :=
  let entry := (cache.inner.lookup blockId).getD (.new total)
  if packetInBlock.toNat < entry.packets.length then
    .ok ⟨cache.inner.insert blockId ⟨entry.packets.set packetInBlock.toNat (some datagram)⟩⟩
  else .error ⟨packetInBlock.toNat, entry.packets.length⟩

def SharedBlockCache.fetchForRetransmit (blockId : UInt32) (ids : List UInt16)
    (cache : SharedBlockCache) : List Bytes :=
  match cache.inner.lookup blockId with
  | none => []
  | some entry => ids.filterMap fun id => (entry.packets[id.toNat]?).join

def SharedBlockCache.complete (blockId : UInt32) (cache : SharedBlockCache) : SharedBlockCache where
  inner := cache.inner.erase blockId

def SharedBlockCache.openBlockCount (cache : SharedBlockCache) : ℕ :=
  cache.inner.entries.length

/-! ## Sequences of calls -/

/-- A call of one of the methods that change the cache. -/
inductive CacheCall
  | recordSent (blockId : UInt32) (packetInBlock : UInt16) (total : ℕ) (datagram : Bytes)
  | complete (blockId : UInt32)

def SharedBlockCache.call (cache : SharedBlockCache) :
    CacheCall → Except CacheIndexPanic SharedBlockCache
  | .recordSent blockId packetInBlock total datagram =>
    cache.recordSent blockId packetInBlock total datagram
  | .complete blockId => .ok (cache.complete blockId)

def blockCache : Lts SharedBlockCache CacheCall where
  init := .new
  step := fun c cache => (cache.call c).toOption

/-- What one `record_sent` of a block says. -/
structure CacheRecord where
  packetInBlock : UInt16
  total : ℕ
  datagram : Bytes

/-- What a call adds to, or takes from, the records of block `b`. -/
def CacheCall.onRecords (b : UInt32) (records : List CacheRecord) : CacheCall → List CacheRecord
  | .recordSent blockId packetInBlock total datagram =>
    if blockId = b then records ++ [⟨packetInBlock, total, datagram⟩] else records
  | .complete blockId => if blockId = b then [] else records

/-- The records of block `b` since it was last completed, oldest first. -/
def recordsOf (b : UInt32) (calls : List CacheCall) : List CacheRecord :=
  calls.foldl (CacheCall.onRecords b) []

/-- The datagram recorded last for packet `id`. -/
def latest (records : List CacheRecord) (id : ℕ) : Option Bytes :=
  records.foldl (fun found r => if r.packetInBlock.toNat = id then some r.datagram else found) none

/-- The size of the entry that a further record finds: the first record of the block made it. -/
def sizeFor (records : List CacheRecord) (total : ℕ) : ℕ :=
  records.head?.elim total CacheRecord.total

variable {cache cache' : SharedBlockCache} {c : CacheCall} {calls : List CacheCall} {b : UInt32}
  {records : List CacheRecord} {entry : BlockCacheEntry}

theorem recordsOf_snoc (b : UInt32) (calls : List CacheCall) (c : CacheCall) :
    recordsOf b (calls ++ [c]) = c.onRecords b (recordsOf b calls) := by
  rw [recordsOf, List.foldl_append]
  rfl

theorem latest_snoc (records : List CacheRecord) (r : CacheRecord) (id : ℕ) :
    latest (records ++ [r]) id
      = if r.packetInBlock.toNat = id then some r.datagram else latest records id := by
  rw [latest, List.foldl_append]
  rfl

/-- The first record stays the first. -/
theorem sizeFor_snoc (records : List CacheRecord) (r : CacheRecord) (total : ℕ) :
    sizeFor (records ++ [r]) total = sizeFor records r.total := by
  cases records <;> rfl

/-! ## The cache and its history -/

/-- The entry has, for each index, what was recorded last. -/
structure BlockCacheEntry.Holds (entry : BlockCacheEntry) (records : List CacheRecord) : Prop where
  recorded : records ≠ []
  length : ∀ total, entry.packets.length = sizeFor records total
  packets : ∀ id : ℕ, (entry.packets[id]?).join = latest records id

/-- Block by block, the cache is what its records say. -/
def SharedBlockCache.Reflects (cache : SharedBlockCache) (calls : List CacheCall) : Prop :=
  ∀ b, match cache.inner.lookup b with
    | none => recordsOf b calls = []
    | some entry => entry.Holds (recordsOf b calls)

/-- Setting a packet below the length. -/
theorem join_getElem?_set {packets : List (Option Bytes)} {i : ℕ} (hi : i < packets.length)
    (d : Bytes) (id : ℕ) :
    ((packets.set i (some d))[id]?).join = if i = id then some d else (packets[id]?).join := by
  by_cases h : i = id
  · subst h
    rw [List.getElem?_set_self hi, if_pos rfl]
    rfl
  · rw [List.getElem?_set_ne h, if_neg h]

theorem BlockCacheEntry.Holds.snoc (h : entry.Holds records) {r : CacheRecord}
    (hi : r.packetInBlock.toNat < entry.packets.length) :
    BlockCacheEntry.Holds ⟨entry.packets.set r.packetInBlock.toNat (some r.datagram)⟩
      (records ++ [r]) where
  recorded := by simp
  length := fun total => by rw [List.length_set, sizeFor_snoc, h.length r.total]
  packets := fun id => by rw [join_getElem?_set hi, latest_snoc, h.packets]

theorem BlockCacheEntry.holds_first {r : CacheRecord} (hi : r.packetInBlock.toNat < r.total) :
    BlockCacheEntry.Holds
      ⟨(BlockCacheEntry.new r.total).packets.set r.packetInBlock.toNat (some r.datagram)⟩ [r] where
  recorded := by simp
  length := fun total => by simp [BlockCacheEntry.new, sizeFor]
  packets := fun id => by
    have hlen : r.packetInBlock.toNat < (BlockCacheEntry.new r.total).packets.length := by
      simpa [BlockCacheEntry.new] using hi
    rw [join_getElem?_set hlen]
    have hnone : ((BlockCacheEntry.new r.total).packets[id]?).join = none := by
      rw [BlockCacheEntry.new, List.getElem?_replicate]
      split <;> rfl
    rw [hnone]
    rfl

/-- The entry a record finds, or makes. -/
theorem SharedBlockCache.Reflects.size (h : cache.Reflects calls) (b : UInt32) (total : ℕ) :
    ((cache.inner.lookup b).getD (.new total)).packets.length
      = sizeFor (recordsOf b calls) total := by
  have hb := h b
  cases hl : cache.inner.lookup b with
  | none =>
      rw [hl] at hb
      rw [hb]
      exact List.length_replicate
  | some entry =>
      rw [hl] at hb
      exact hb.length total

theorem SharedBlockCache.Reflects.step (h : cache.Reflects calls)
    (hcall : cache.call c = .ok cache') : cache'.Reflects (calls ++ [c]) := by
  intro b
  rw [recordsOf_snoc]
  have hb := h b
  cases c with
  | recordSent blockId packetInBlock total datagram =>
      simp only [call, recordSent] at hcall
      split at hcall
      · next hi =>
          cases hcall
          simp only [AList.lookup_insert_ite, CacheCall.onRecords]
          by_cases heq : b = blockId
          · subst heq
            rw [if_pos rfl, if_pos rfl]
            cases hl : cache.inner.lookup b with
            | none =>
                rw [hl] at hb hi
                rw [hb]
                exact BlockCacheEntry.holds_first (r := ⟨packetInBlock, total, datagram⟩)
                  (by simpa [BlockCacheEntry.new] using hi)
            | some entry =>
                rw [hl] at hb hi
                exact hb.snoc (r := ⟨packetInBlock, total, datagram⟩) hi
          · rw [if_neg heq, if_neg (Ne.symm heq)]
            exact hb
      · cases hcall
  | complete blockId =>
      cases hcall
      simp only [complete, AList.lookup_erase_ite, CacheCall.onRecords]
      by_cases heq : b = blockId
      · rw [if_pos heq, if_pos heq.symm]
      · rw [if_neg heq, if_neg (Ne.symm heq)]
        exact hb

theorem call_of_step (h : blockCache.step c cache = some cache') : cache.call c = .ok cache' := by
  have hstep : (cache.call c).toOption = some cache' := h
  cases hcall : cache.call c with
  | error panic => rw [hcall] at hstep; cases hstep
  | ok cache₁ => rw [hcall] at hstep; cases hstep; rfl

theorem reflects_of_reaches (hrun : blockCache.Reaches calls cache) : cache.Reflects calls :=
  hrun.history (P := fun calls cache => cache.Reflects calls) (fun _ => rfl)
    fun _ _ _ _ _ ih _ hstep => ih.step (call_of_step hstep)

/-- The blocks that have an entry. -/
def SharedBlockCache.openBlocks (cache : SharedBlockCache) : Finset UInt32 :=
  cache.inner.keysWhere fun _ => true

theorem SharedBlockCache.mem_openBlocks :
    b ∈ cache.openBlocks ↔ ∃ entry, cache.inner.lookup b = some entry := by
  rw [openBlocks, AList.mem_keysWhere]
  simp

theorem SharedBlockCache.openBlockCount_eq (cache : SharedBlockCache) :
    cache.openBlockCount = cache.openBlocks.card := by
  rw [openBlocks, AList.card_keysWhere, openBlockCount, AList.countValues]
  exact (congrFun List.countP_true _).symm

/-- **Cache history.** Whatever threads call the cache in whatever order, and with whatever
    arguments: it has the blocks with a record since their last completion, counts just these, and
    serves for each id the datagram recorded last. A `record_sent` panics if and only if its index
    is not below the size named by the first of these records, its own if there is none; so after a
    `complete` the next record of a block makes a new entry with that one packet. -/
theorem cache_history (hrun : blockCache.Reaches calls cache) :
    (∀ b, b ∈ cache.openBlocks ↔ recordsOf b calls ≠ []) ∧
    cache.openBlockCount = cache.openBlocks.card ∧
    (∀ b ids, cache.fetchForRetransmit b ids
      = ids.filterMap fun id => latest (recordsOf b calls) id.toNat) ∧
    ∀ b packetInBlock total datagram,
      (∃ panic, cache.call (.recordSent b packetInBlock total datagram) = .error panic) ↔
        sizeFor (recordsOf b calls) total ≤ packetInBlock.toNat := by
  have h := reflects_of_reaches hrun
  refine ⟨fun b => ?_, cache.openBlockCount_eq, fun b ids => ?_, fun b i total d => ?_⟩
  · have hb := h b
    rw [SharedBlockCache.mem_openBlocks]
    cases hl : cache.inner.lookup b with
    | none =>
        rw [hl] at hb
        simp [hb]
    | some entry =>
        rw [hl] at hb
        simp [hb.recorded]
  · have hb := h b
    rw [SharedBlockCache.fetchForRetransmit]
    cases hl : cache.inner.lookup b with
    | none =>
        rw [hl] at hb
        rw [hb]
        exact (List.filterMap_eq_nil_iff.2 fun _ _ => rfl).symm
    | some entry =>
        rw [hl] at hb
        exact List.filterMap_congr fun id _ => hb.packets id.toNat
  · rw [SharedBlockCache.call, SharedBlockCache.recordSent, h.size]
    split
    · next hlt =>
        refine iff_of_false ?_ (Nat.not_le_of_lt hlt)
        rintro ⟨panic, hpanic⟩
        cases hpanic
    · next hge => exact iff_of_true ⟨_, rfl⟩ (Nat.le_of_not_lt hge)

/-- The race of the sender's old threads: block 2 has two packets, a `complete` comes between them,
    and the second `record_sent` makes a new entry that lacks the first packet. -/
theorem cache_history_race :
    ∃ cache, blockCache.Reaches [.recordSent 2 0 2 [1], .complete 2, .recordSent 2 1 2 [7]] cache ∧
      2 ∈ cache.openBlocks ∧ cache.fetchForRetransmit 2 [0, 1] = [[7]] := by
  have hrun : blockCache.Reaches [.recordSent 2 0 2 [1], .complete 2, .recordSent 2 1 2 [7]] _ :=
    Lts.reaches_of_exec rfl
  obtain ⟨hopen, -, hfetch, -⟩ := cache_history hrun
  refine ⟨_, hrun, (hopen 2).2 (by decide), ?_⟩
  rw [hfetch]
  rfl

end SecureTransfer
