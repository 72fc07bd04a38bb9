import SecureTransfer.Sender.Fallback
import SecureTransfer.Sender.Placement

set_option autoImplicit false

/-! # Admission is work conserving

Slots are freed by `Complete`, taken by `admit_or_buffer` and refilled by `drain_pending` at the loop
head, so nothing waits for a slot that is free only while the loop waits for an event. `Drains` says
what one call of `drain_pending` does with the blocks `ids`, in the order they are opened. -/

namespace SecureTransfer.Sender

variable {totalChunks : UInt32} {pipelineDepth : ℕ} {H : Set EncryptedChunk} {m m' mid : Manager}
  {b : UInt32} {ids : List UInt32}

/-! ## The loop of `drain_pending` -/

/-- The `while` loop, entered with `m`, ends with `r`. -/
inductive DrainLoop (totalChunks : UInt32) (pipelineDepth : ℕ) :
    Manager → Except Panic Manager → Prop
  | full {m : Manager} (hfull : ¬ m.openSlots < pipelineDepth) :
      DrainLoop totalChunks pipelineDepth m (.ok m)
  | empty {m : Manager} (hroom : m.openSlots < pipelineDepth) (hnone : m.nextPending = none) :
      DrainLoop totalChunks pipelineDepth m (.ok m)
  | round {m mid : Manager} {nextId : UInt32} {r : Except Panic Manager}
      (hroom : m.openSlots < pipelineDepth) (hnext : m.nextPending = some nextId)
      (hopen : openPending totalChunks nextId m = .ok mid)
      (hrest : DrainLoop totalChunks pipelineDepth mid r) : DrainLoop totalChunks pipelineDepth m r
  | panic {m : Manager} {nextId : UInt32} {panic : Panic} (hroom : m.openSlots < pipelineDepth)
      (hnext : m.nextPending = some nextId)
      (hopen : openPending totalChunks nextId m = .error panic) :
      DrainLoop totalChunks pipelineDepth m (.error panic)

/-- The loop ends, whatever the manager: every round takes one slot. -/
theorem drainLoop_rounds {room : ℕ} (hroom : room = pipelineDepth - m.openSlots) :
    DrainLoop totalChunks pipelineDepth m (drainRounds totalChunks room m) := by
  refine drainRounds_rule (P := fun room m r => room = pipelineDepth - m.openSlots →
    DrainLoop totalChunks pipelineDepth m r) ?_ ?_ ?_ room m hroom
  · intro room m hended hroom
    by_cases hfull : m.openSlots < pipelineDepth
    · exact .empty hfull (hended.resolve_left (by omega))
    · exact .full hfull
  · intro room nextId m panic hnext hopen hroom
    exact .panic (by omega) hnext hopen
  · intro room nextId m mid r hnext hopen ih hroom
    have hslots := (openPending_keeps hopen).2
    exact .round (by omega) hnext hopen (ih (by omega))

theorem drainLoop_drainPending (m : Manager) :
    DrainLoop totalChunks pipelineDepth m (drainPending totalChunks pipelineDepth m) :=
  drainLoop_rounds rfl

/-! ## What a call does -/

/-- No block is `Pending`. -/
def Manager.NonePending (m : Manager) : Prop :=
  ∀ b bucket, m.blockStates.lookup b ≠ some (.pending bucket)

theorem Manager.mem_pending {bucket : List EncryptedChunk}
    (hl : m.blockStates.lookup b = some (.pending bucket)) :
    b ∈ (m.blockStates.entries.filter fun e => e.2.isPending).map Sigma.fst :=
  List.mem_map.2 ⟨⟨b, .pending bucket⟩,
    List.mem_filter.2 ⟨AList.mem_entries_iff_lookup.2 hl, rfl⟩, rfl⟩

theorem Manager.nonePending_of_nextPending (h : m.nextPending = none) : m.NonePending := by
  intro b bucket hl
  have hmem := Manager.mem_pending hl
  rw [Manager.nextPending, List.min?_eq_none_iff] at h
  rw [h] at hmem
  cases hmem

/-- The block that is opened next has the smallest id. -/
theorem Manager.nextPending_le (h : m.nextPending = some b) {b' : UInt32}
    {bucket : List EncryptedChunk} (hl : m.blockStates.lookup b' = some (.pending bucket)) :
    b ≤ b' :=
  (List.min?_eq_some_iff.1 h).2 b' (Manager.mem_pending hl)

/-- The chunks buffered for a block. -/
def Manager.bucket (m : Manager) (b : UInt32) : List EncryptedChunk :=
  match m.blockStates.lookup b with
  | some (.pending bucket) => bucket
  | _ => []

theorem Manager.bucket_eq {bucket : List EncryptedChunk}
    (hl : m.blockStates.lookup b = some (.pending bucket)) : m.bucket b = bucket := by
  rw [Manager.bucket, hl]

/-- Draining `m` opens the blocks `ids`, in this order, and gives `m'`. -/
structure Drains (totalChunks : UInt32) (m : Manager) (ids : List UInt32) (m' : Manager) :
    Prop where
  ascending : ids.Pairwise (· < ·)
  opened : ∀ b ∈ ids, ∃ bucket entry, m.blockStates.lookup b = some (.pending bucket) ∧
    m'.blockStates.lookup b = some (.opened entry) ∧
    (BlockState.new (packetsInBlock b totalChunks) m.now).Filled bucket entry
  other : ∀ b, b ∉ ids → m'.blockStates.lookup b = m.blockStates.lookup b
  sent : m'.udp = m.udp ++ ids.flatMap fun b => openOut totalChunks b (m.bucket b)
  openSlots : m'.openSlots = m.openSlots + ids.length
  least : ∀ b ∈ ids, ∀ b' bucket, m'.blockStates.lookup b' = some (.pending bucket) → b < b'

theorem Drains.nil (m : Manager) : Drains totalChunks m [] m where
  ascending := .nil
  opened := nofun
  other := fun _ _ => rfl
  sent := by simp
  openSlots := rfl
  least := nofun

/-- One round, then the rest. -/
theorem Drains.cons (h : Bookkeeping totalChunks pipelineDepth H m) (hnext : m.nextPending = some b)
    (hopen : openPending totalChunks b m = .ok mid) (hrest : Drains totalChunks mid ids m') :
    Drains totalChunks m (b :: ids) m' := by
  obtain ⟨bucket, hl⟩ := Manager.nextPending_eq_some hnext
  obtain ⟨⟨entry, hentry, hfilled⟩, hother, hudp⟩ := openPending_ok h hl hopen
  obtain ⟨hkeeps, hslots⟩ := openPending_keeps hopen
  -- what is still `Pending` was so before, and has a greater id
  have hlater : ∀ b' bucket', mid.blockStates.lookup b' = some (.pending bucket') →
      b < b' ∧ m.blockStates.lookup b' = some (.pending bucket') := by
    intro b' bucket' hl'
    have hne : b' ≠ b := by
      rintro rfl
      rw [hentry] at hl'
      cases hl'
    have hold := (hother b' hne).symm.trans hl'
    exact ⟨UInt32.lt_of_le_of_ne (Manager.nextPending_le hnext hold) hne.symm, hold⟩
  have hids : ∀ b' ∈ ids, b < b' := by
    intro b' hb'
    obtain ⟨bucket', _, hl', _⟩ := hrest.opened b' hb'
    exact (hlater b' bucket' hl').1
  have hnot : b ∉ ids := fun hmem => UInt32.lt_irrefl b (hids b hmem)
  refine ⟨List.pairwise_cons.2 ⟨hids, hrest.ascending⟩, fun b' hb' => ?_, fun b' hb' => ?_, ?_, ?_,
    fun b' hb' b'' bucket'' hl'' => ?_⟩
  · rcases List.mem_cons.1 hb' with rfl | hb'
    · exact ⟨bucket, entry, hl, (hrest.other b' hnot).trans hentry, hfilled⟩
    · obtain ⟨bucket', entry', hl', hentry', hfilled'⟩ := hrest.opened b' hb'
      exact ⟨bucket', entry', (hlater b' bucket' hl').2, hentry', hkeeps.now ▸ hfilled'⟩
  · rw [List.mem_cons, not_or] at hb'
    exact (hrest.other b' hb'.2).trans (hother b' hb'.1)
  · have hsame : ∀ b' ∈ ids, openOut totalChunks b' (mid.bucket b')
        = openOut totalChunks b' (m.bucket b') := by
      intro b' hb'
      rw [Manager.bucket, Manager.bucket, hother b' (UInt32.ne_of_lt (hids b' hb')).symm]
    rw [hrest.sent, hudp, List.flatMap_cons, Manager.bucket_eq hl, List.flatMap_congr hsame,
      List.append_assoc]
  · rw [hrest.openSlots, hslots, List.length_cons]
    omega
  · rcases List.mem_cons.1 hb' with rfl | hb'
    · by_cases hmem : b'' ∈ ids
      · exact hids b'' hmem
      · exact (hlater b'' bucket'' ((hrest.other b'' hmem).symm.trans hl'')).1
    · exact hrest.least b' hb' b'' bucket'' hl''

theorem Bookkeeping.drains {room : ℕ} (h : Bookkeeping totalChunks pipelineDepth H m)
    (hroom : m.openSlots + room ≤ pipelineDepth)
    (hok : Sender.drainRounds totalChunks room m = .ok m') :
    ∃ ids, Drains totalChunks m ids m' := by
  refine h.drainRounds_rule (P := fun m m' => ∃ ids, Drains totalChunks m ids m')
    (fun m => ⟨[], .nil m⟩) ?_ hroom hok
  rintro nextId m mid m' h _ hnext hopen ⟨ids, hids⟩
  exact ⟨nextId :: ids, hids.cons h hnext hopen⟩

/-! ## Along a run -/

/-- An event that opens a block not seen before finds no block `Pending`. -/
theorem nonePending_of_opens {c : EncryptedChunk} {entry : BlockState}
    (hdrained : m.Drained pipelineDepth)
    (hok : handleEvent totalChunks pipelineDepth (.chunk c) m = .ok m')
    (hunseen : m.blockStates.lookup (EncryptedChunk.block c) = none)
    (hopened : m'.blockStates.lookup (EncryptedChunk.block c) = some (.opened entry)) :
    m.NonePending := by
  cases admission_of_ok hok with
  | drop hl => cases hunseen.symm.trans hl
  | place hl => cases hunseen.symm.trans hl
  | append hl => cases hunseen.symm.trans hl
  | openBlock _ hroom =>
      rcases hdrained with hnone | hfull
      · exact Manager.nonePending_of_nextPending hnone
      · omega
  | buffer =>
      -- without a free slot the chunk is buffered
      rw [Manager.setSlot, AList.lookup_insert] at hopened
      cases hopened

/-- **Work conservation.** Whatever the acks and the order of the chunks: when the loop waits, no
    block is `Pending` or all slots are taken, so an arriving chunk opens a block not seen before
    only when no block is `Pending`; and a call of `drain_pending` ends, opens `Pending` blocks by
    ascending id and moves their buckets into them, touching nothing else. -/
theorem admission_conserves_work {ls : List LoopInput} {s : Loop}
    (hrun : (blockManager totalChunks pipelineDepth).Reaches ls s)
    (horderly : Orderly totalChunks ls) :
    (∀ deadline m, s = .wait deadline m → m.NonePending ∨ m.openSlots = pipelineDepth) ∧
      (∀ deadline m c s' m' entry, s = .wait deadline m →
        Loop.step totalChunks pipelineDepth (.event (.chunk c)) s = some s' →
        s'.manager? = some m' → m.blockStates.lookup (EncryptedChunk.block c) = none →
        m'.blockStates.lookup (EncryptedChunk.block c) = some (.opened entry) →
        m.NonePending) ∧
      ∃ m, s.manager? = some m ∧ ∃ m' ids,
        drainPending totalChunks pipelineDepth m = .ok m' ∧
        DrainLoop totalChunks pipelineDepth m (.ok m') ∧ Drains totalChunks m ids m' ∧
        (m'.NonePending ∨ m'.openSlots = pipelineDepth) := by
  obtain ⟨m, hm, hbooks⟩ := bookkeeping_of_reaches hrun horderly
  have hexact : ∀ {m : Manager}, m.Drained pipelineDepth →
      Bookkeeping totalChunks pipelineDepth (bucketSet (handledChunks ls)) m →
      m.NonePending ∨ m.openSlots = pipelineDepth := fun hdrained hbooks =>
    hdrained.imp Manager.nonePending_of_nextPending (le_antisymm hbooks.openSlots_le)
  refine ⟨?_, ?_, m, hm, ?_⟩
  · rintro deadline m' rfl
    cases hm
    exact hexact (drained_of_reaches hrun _ _ rfl) hbooks
  · rintro deadline m₀ c s' m' entry rfl hstep hm' hunseen hopened
    cases Loop.turn_of_step hstep with
    | event hevent =>
        cases hm'
        exact nonePending_of_opens (drained_of_reaches hrun _ _ rfl) hevent hunseen hopened
    | eventPanic => cases hm'
  · obtain ⟨m', hok, hbooks'⟩ := hbooks.drainPending
    obtain ⟨ids, hids⟩ := hbooks.drains
      (by have := hbooks.openSlots_le; omega) hok
    exact ⟨m', ids, hok, hok ▸ drainLoop_drainPending m, hids,
      hexact (drainPending_drained hok) hbooks'⟩

/-- Depth one: the chunks of blocks 2 and 1 wait while block 0 is open, and when it is resolved
    block 1 comes first. -/
theorem admission_conserves_work_threeBlocks :
    ∃ s m, (blockManager 600 1).exec
        [.drain, .event (.chunk ⟨0, [1], 1⟩), .drain, .event (.chunk ⟨512, [2], 1⟩), .drain,
          .event (.chunk ⟨256, [3], 1⟩), .drain, .event (.ack (.complete 0)), .drain]
        (blockManager 600 1).init = some s ∧
      s.manager? = some m ∧ m.openSlots = 1 ∧ m.udp = [[1], [3]] ∧
      ∃ m' ids, drainPending 600 1 m = .ok m' ∧ Drains 600 m ids m' := by
  obtain ⟨s, hs, hcheck⟩ := Lts.exists_exec (blockManager 600 1)
    [.drain, .event (.chunk ⟨0, [1], 1⟩), .drain, .event (.chunk ⟨512, [2], 1⟩), .drain,
      .event (.chunk ⟨256, [3], 1⟩), .drain, .event (.ack (.complete 0)), .drain]
    (fun s => s.manager?.map (fun m => (m.openSlots, m.udp)) = some (1, [[1], [3]]))
    (by decide +kernel)
  obtain ⟨-, -, m, hm, m', ids, hok, -, hids, -⟩ := admission_conserves_work
    (Lts.reaches_of_exec hs) ⟨by decide, by decide⟩
  rw [hm, Option.map_some, Option.some.injEq, Prod.mk.injEq] at hcheck
  exact ⟨s, m, hs, hm, hcheck.1, hcheck.2, m', ids, hok, hids⟩

end SecureTransfer.Sender
