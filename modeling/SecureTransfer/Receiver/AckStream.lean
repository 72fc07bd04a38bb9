import SecureTransfer.Receiver.DataFlow

set_option autoImplicit false

/-! # The stream of acks

`AckInv` ties what the ack manager has written to the tracker: a block that is not completed has had
`Missing` acks only, no more of them than its retry rounds; a completed block has had one `Complete`
after them and nothing since. It is proved for the ack manager's own moves (`AckInv.move`) and for
the mutators of the other threads (`AckInv.mutate`), which may run between any two of them. -/

namespace SecureTransfer.Receiver

variable {setup : Setup} {N N' : UInt32 → Prop} {total : ℕ} {now : Instant} {c c' : Control}
  {r r' : Threads} {l : Label} {ls : List Label} {b b' : UInt32}

/-! ## The acks of one block -/

def acksOf (b : UInt32) (acks : List BlockAck) : List BlockAck :=
  acks.filter fun a => a.blockId = b

theorem acksOf_append_self {acks : List BlockAck} (b : UInt32) (a : BlockAck) (h : a.blockId = b) :
    acksOf b (acks ++ [a]) = acksOf b acks ++ [a] := by
  rw [acksOf, List.filter_append, List.filter_singleton, h]
  simp [acksOf]

theorem acksOf_append_other {acks : List BlockAck} (a : BlockAck) (h : a.blockId ≠ b) :
    acksOf b (acks ++ [a]) = acksOf b acks := by
  rw [acksOf, List.filter_append, List.filter_singleton]
  simp [acksOf, h]

/-- At most `n` acks, all of them `Missing`. -/
def AtMostMissing (n : ℕ) (b : UInt32) (acks : List BlockAck) : Prop :=
  acks.length ≤ n ∧ ∀ a ∈ acks, ∃ missing, a = .missing b missing

/-- `Missing` acks within the retry limit, then one `Complete`. -/
def Finished (b : UInt32) (acks : List BlockAck) : Prop :=
  ∃ missings, acks = missings ++ [.complete b] ∧ AtMostMissing maxBlockRetryRounds b missings

/-- The retry rounds of a block. -/
def rounds (s : ReceiverInner) (b : UInt32) : ℕ :=
  (s.blocks.lookup b).elim 0 BlockRxEntry.rounds

theorem rounds_of_tracked {s : ReceiverInner} {entry : BlockRxEntry} (h : s.Tracked b entry) :
    rounds s b = entry.rounds := by
  rw [rounds, h, Option.elim_some]

theorem rounds_setEntry (s : ReceiverInner) (b b' : UInt32) (entry : BlockRxEntry) :
    rounds (s.setEntry b entry) b' = if b' = b then entry.rounds else rounds s b' := by
  rw [rounds, ReceiverInner.setEntry, AList.lookup_insert_ite]
  split <;> rfl

theorem rounds_withEntry {s : ReceiverInner} {n : ℕ} {update : BlockRxEntry → BlockRxEntry}
    (hrounds : ∀ e : BlockRxEntry, (update e).rounds = e.rounds) :
    rounds (s.withEntry b n now update) b' = rounds s b' := by
  unfold ReceiverInner.withEntry
  split
  · rfl
  · rw [rounds_setEntry, hrounds]
    split
    · next hb =>
        subst hb
        rw [ReceiverInner.entryOrNew, rounds]
        cases s.blocks.lookup b' <;> rfl
    · rfl

/-! ## The invariant -/

/-- The acks written are in step with the tracker; `N` is what is known of the blocks it has heard
    of. -/
structure AckInv (N : UInt32 → Prop) (total : ℕ) (c : Control) : Prop where
  consistent : c.shared.Consistent
  tracked : ∀ b entry, c.shared.Tracked b entry → N b
  completed : ∀ b ∈ c.shared.completed, N b
  counted : c.completed = c.shared.completed.card
  unfinished : ∀ b ∉ c.shared.completed, (∀ rest, c.ack ≠ .removing b rest) →
    AtMostMissing (min maxBlockRetryRounds (rounds c.shared b)) b (acksOf b c.acks)
  acking : ∀ b snapshot rest, c.ack = .acking b snapshot rest →
    ∃ entry, c.shared.Tracked b entry ∧ entry.rounds = snapshot.rounds ∧
      (acksOf b c.acks).length < snapshot.rounds
  removing : ∀ b rest, c.ack = .removing b rest →
    (∃ entry, c.shared.Tracked b entry) ∧ Finished b (acksOf b c.acks)
  finished : ∀ b ∈ c.shared.completed, Finished b (acksOf b c.acks)
  exited : c.ack = .exited .ok → total ≤ c.completed

theorem AckInv.init : AckInv N total .init where
  consistent := .init
  tracked := fun _ _ h => absurd h ReceiverInner.not_tracked_init
  completed := by simp [Control.init, ReceiverInner.init]
  counted := rfl
  unfinished := fun b _ _ => ⟨Nat.zero_le _, nofun⟩
  acking := nofun
  removing := nofun
  finished := by simp [Control.init, ReceiverInner.init]
  exited := nofun

theorem AckInv.mono (hN : ∀ b, N b → N' b) (h : AckInv N total c) : AckInv N' total c :=
  { h with
    tracked := fun b entry ht => hN b (h.tracked b entry ht)
    completed := fun b hb => hN b (h.completed b hb) }

/-- A mutator called by another thread for a block with `N`. -/
theorem AckInv.mutate (h : AckInv N total c) {n : ℕ} {update : BlockRxEntry → BlockRxEntry}
    (hb : N b) (hconsistent : ∀ e : BlockRxEntry, e.Consistent → (update e).Consistent)
    (hrounds : ∀ e : BlockRxEntry, (update e).rounds = e.rounds) :
    AckInv N total (c.mutate (ReceiverInner.withEntry b n now update)) where
  consistent := h.consistent.withEntry hconsistent
  tracked := fun b' entry ht => by
    rcases ReceiverInner.tracked_withEntry ht with hold | ⟨rfl, _⟩
    · exact h.tracked b' entry hold
    · exact hb
  completed := fun b' hb' => h.completed b' (by simpa [Control.mutate] using hb')
  counted := by simpa [Control.mutate] using h.counted
  unfinished := fun b' hb' hpc => by
    have hold := h.unfinished b' (by simpa [Control.mutate] using hb') hpc
    simpa only [Control.mutate, rounds_withEntry hrounds] using hold
  acking := fun b' snapshot rest hpc => by
    obtain ⟨entry, ht, hrest⟩ := h.acking b' snapshot rest hpc
    rcases ht.withEntry with ht | ⟨_, ht⟩
    · exact ⟨entry, ht, hrest⟩
    · exact ⟨update entry, ht, by rw [hrounds]; exact hrest.1, hrest.2⟩
  removing := fun b' rest hpc => by
    obtain ⟨⟨entry, ht⟩, hfinished⟩ := h.removing b' rest hpc
    refine ⟨?_, hfinished⟩
    rcases ht.withEntry with ht | ⟨_, ht⟩
    · exact ⟨entry, ht⟩
    · exact ⟨update entry, ht⟩
  finished := fun b' hb' => h.finished b' (by simpa [Control.mutate] using hb')
  exited := h.exited

/-! ## The ack manager's moves -/

theorem snapshotAndTick_eq_some {s s' : ReceiverInner} {snapshot : Snapshot}
    (h : s.snapshotAndTick b now = some (snapshot, s')) :
    ∃ entry, s.Tracked b entry ∧
      s' = s.setEntry b { entry with rounds := entry.rounds + 1, lastActivity := now } ∧
      snapshot = ⟨entry.isComplete, entry.missingIds, entry.rounds + 1⟩ := by
  unfold ReceiverInner.snapshotAndTick at h
  split at h
  · cases h
  · next entry ht => cases h; exact ⟨entry, ht, rfl, rfl⟩

/-- A step of the ack manager that neither writes nor touches the tracker. -/
theorem AckInv.goto (h : AckInv N total c) (ack : AckManager)
    (hremoving : ∀ b rest, c.ack ≠ .removing b rest) (hacking : ∀ b s rest, ack ≠ .acking b s rest)
    (hremoving' : ∀ b rest, ack ≠ .removing b rest) (hexit : ack = .exited .ok → total ≤ c.completed) :
    AckInv N total { c with ack := ack } :=
  { h with
    unfinished := fun b hb _ => h.unfinished b hb (hremoving b)
    acking := fun b s rest hpc => absurd hpc (hacking b s rest)
    removing := fun b rest hpc => absurd hpc (hremoving' b rest)
    exited := hexit }

/-- Writing a `Complete`, through either branch. -/
theorem AckInv.writeComplete (h : AckInv N total c) {snapshot : Snapshot} {rest : List UInt32}
    (hpc : c.ack = .acking b snapshot rest) (gaveUp : List UInt32) :
    AckInv N total { c with
      gaveUp := gaveUp
      acks := c.acks ++ [.complete b]
      ack := .removing b rest } := by
  have hne : ∀ b' rest', c.ack ≠ .removing b' rest' := fun b' rest' h' => by
    rw [hpc] at h'
    cases h'
  have hother : ∀ b', b' ≠ b → acksOf b' (c.acks ++ [.complete b]) = acksOf b' c.acks :=
    fun b' hb' => acksOf_append_other (.complete b) hb'.symm
  obtain ⟨entry, ht, _, _⟩ := h.acking b snapshot rest hpc
  have hopen := h.consistent.disjoint b entry ht
  refine { h with unfinished := ?_, acking := nofun, removing := ?_, finished := ?_, exited := nofun }
  · intro b' hb' hpc'
    have hb'ne : b' ≠ b := fun heq => hpc' rest (by rw [heq])
    dsimp only
    rw [hother b' hb'ne]
    exact h.unfinished b' hb' (hne b')
  · intro b' rest' hpc'
    cases hpc'
    obtain ⟨hlen, hmissing⟩ := h.unfinished b hopen (hne b)
    exact ⟨⟨entry, ht⟩, acksOf b c.acks, acksOf_append_self b _ rfl,
      hlen.trans (min_le_left _ _), hmissing⟩
  · intro b' hb'
    have hb'ne : b' ≠ b := fun heq => hopen (heq ▸ hb')
    dsimp only
    rw [hother b' hb'ne]
    exact h.finished b' hb'

theorem AckInv.move (h : AckInv N total c) {l : AckLabel} (hmove : AckMove total now l c c') :
    AckInv N total c' := by
  cases hmove with
  | poll hpc => exact h.goto _ (by simp [hpc]) nofun nofun nofun
  | exit hpc hdone => exact h.goto _ (by simp [hpc]) nofun nofun fun _ => hdone
  | endRound hpc => exact h.goto _ (by simp [hpc]) nofun nofun nofun
  | skip hpc => exact h.goto _ (by simp [hpc]) nofun nofun nofun
  | writeError hpc => exact h.goto _ (by simp [hpc]) nofun nofun nofun
  | complete hpc => exact h.writeComplete hpc _
  | giveUp hpc => exact h.writeComplete hpc _
  | @snapshot _ b rest snapshot shared hpc hsome =>
      obtain ⟨entry, ht, rfl, rfl⟩ := snapshotAndTick_eq_some hsome
      have hopen := h.consistent.disjoint b entry ht
      have hne : ∀ b' rest', c.ack ≠ .removing b' rest' := by simp [hpc]
      have hentry := h.consistent.entries b entry ht
      refine { h with
        consistent := h.consistent.setEntry hopen ⟨hentry.length, hentry.count⟩
        tracked := ?_, unfinished := ?_, acking := ?_, removing := nofun, exited := nofun }
      · intro b' entry' ht'
        rcases ReceiverInner.tracked_setEntry.1 ht' with ⟨rfl, _⟩ | ⟨_, ht'⟩
        · exact h.tracked _ entry ht
        · exact h.tracked b' entry' ht'
      · intro b' hb' _
        obtain ⟨hlen, hmissing⟩ := h.unfinished b' hb' (hne b')
        refine ⟨hlen.trans (min_le_min_left _ ?_), hmissing⟩
        dsimp only
        rw [rounds_setEntry]
        split
        · next hb => rw [hb, rounds_of_tracked ht]; exact Nat.le_succ _
        · exact le_rfl
      · intro b' snapshot' rest' hpc'
        cases hpc'
        refine ⟨_, ReceiverInner.tracked_setEntry.2 (.inl ⟨rfl, rfl⟩), rfl, ?_⟩
        have hlen := (h.unfinished b hopen (hne b)).1
        rw [rounds_of_tracked ht] at hlen
        dsimp only
        omega
  | @missing _ b rest snapshot hpc _ hrounds =>
      have hne : ∀ b' rest', c.ack ≠ .removing b' rest' := by simp [hpc]
      obtain ⟨entry, ht, hentry, hlt⟩ := h.acking b snapshot rest hpc
      refine { h with
        unfinished := ?_, acking := nofun, removing := nofun, finished := ?_, exited := nofun }
      · intro b' hb' _
        dsimp only
        by_cases hb : b' = b
        · subst hb
          obtain ⟨_, hmissing⟩ := h.unfinished b' hb' (hne b')
          rw [acksOf_append_self b' (.missing b' snapshot.missing) rfl]
          refine ⟨?_, fun a ha => ?_⟩
          · rw [rounds_of_tracked ht, hentry, List.length_append, List.length_singleton]
            omega
          · rcases List.mem_append.1 ha with ha | ha
            · exact hmissing a ha
            · exact ⟨_, List.mem_singleton.1 ha⟩
        · rw [acksOf_append_other (.missing b snapshot.missing) (Ne.symm hb)]
          exact h.unfinished b' hb' (hne b')
      · intro b' hb'
        have hb : b ≠ b' := fun heq => h.consistent.disjoint b entry ht (heq ▸ hb')
        dsimp only
        rw [acksOf_append_other (.missing b snapshot.missing) hb]
        exact h.finished b' hb'
  | @remove _ b rest hpc =>
      obtain ⟨⟨entry, ht⟩, hfinished⟩ := h.removing b rest hpc
      have hopen := h.consistent.disjoint b entry ht
      refine { h with
        consistent := h.consistent.remove
        tracked := fun b' entry' ht' => h.tracked b' entry' (ReceiverInner.tracked_remove.1 ht').2
        completed := ?_, counted := ?_, unfinished := ?_, acking := nofun, removing := nofun
        finished := ?_, exited := nofun }
      · intro b' hb'
        rcases Finset.mem_insert.1 hb' with rfl | hb'
        · exact h.tracked _ entry ht
        · exact h.completed b' hb'
      · rw [ReceiverInner.remove, Finset.card_insert_of_notMem hopen, h.counted]
      · intro b' hb' _
        rw [ReceiverInner.remove, Finset.mem_insert, not_or] at hb'
        have hold := h.unfinished b' hb'.2 fun rest' hpc' => by
          rw [hpc] at hpc'
          cases hpc'
          exact hb'.1 rfl
        simpa only [rounds, ReceiverInner.remove, AList.lookup_erase_ne hb'.1] using hold
      · intro b' hb'
        rcases Finset.mem_insert.1 hb' with rfl | hb'
        · exact hfinished
        · exact h.finished b' hb'

/-! ## Along a run -/

/-- The block a datagram is about, if `receiver_thread` handles it. -/
def Incoming.block? : Incoming → Option UInt32
  | .data pkt => some pkt.blockId
  | .blockEnd blockId _ => some blockId
  | .ignored => none

def Label.block? : Label → Option UInt32
  | .datagram d => (Incoming.ofDatagram d).block?
  | _ => none

/-- The block ids the receiver has been told. -/
def namedBlocks (ls : List Label) : List UInt32 :=
  ls.filterMap Label.block?

theorem mem_namedBlocks {ls : List Label} {b : UInt32} :
    b ∈ namedBlocks ls ↔ ∃ d, Label.datagram d ∈ ls ∧ (Incoming.ofDatagram d).block? = some b := by
  rw [namedBlocks, List.mem_filterMap]
  constructor
  · rintro ⟨l, hl, hb⟩
    cases l with
    | datagram d => exact ⟨d, hl, hb⟩
    | _ => cases hb
  · rintro ⟨d, hd, hb⟩
    exact ⟨.datagram d, hd, hb⟩

theorem Arrived.named {p : ReceivedPacket} (h : Arrived ls p) : p.blockId ∈ namedBlocks ls := by
  obtain ⟨d, pkt, hd, hdata, rfl⟩ := h
  exact mem_namedBlocks.2 ⟨d, hd, by rw [hdata]; rfl⟩

theorem named_snoc (h : b ∈ namedBlocks ls) (l : Label) : b ∈ namedBlocks (ls ++ [l]) := by
  rw [namedBlocks, List.filterMap_append]
  exact List.mem_append_left _ h

theorem AckInv.turn (h : AckInv N (totalBlocks setup.expectedChunks).toNat r.control)
    (hmove : ControlMove setup r l c')
    (hworkers : ∀ p data, Worker.verified p data ∈ r.workers → N p.blockId)
    (hnew : ∀ d b, l = .datagram d → (Incoming.ofDatagram d).block? = some b → N b) :
    AckInv N (totalBlocks setup.expectedChunks).toNat c' := by
  cases hmove with
  | keep => exact h
  | touch hd =>
      exact h.mutate (hnew _ _ rfl (by rw [hd]; rfl)) (fun e he => ⟨he.length, he.count⟩)
        fun _ => rfl
  | endSeen hd =>
      exact h.mutate (hnew _ _ rfl (by rw [hd]; rfl)) (fun e he => ⟨he.length, he.count⟩)
        fun _ => rfl
  | @mark _ p _ hworker =>
      have hmutated : AckInv N _ (r.control.mutate (.markVerified p.blockId p.packetInBlock
          (packetsInBlock p.blockId setup.expectedChunks) r.now)) :=
        h.mutate (hworkers _ _ (List.mem_of_getElem? hworker)) (fun e he => he.mark _)
          fun e => e.mark_rounds _
      exact { hmutated with }
  | ack hmove => exact h.move hmove

theorem ackInv_of_reaches (hrun : (receiver setup).Reaches ls r) :
    AckInv (· ∈ namedBlocks ls) (totalBlocks setup.expectedChunks).toNat r.control := by
  refine hrun.history (P := fun ls r => AckInv (· ∈ namedBlocks ls)
    (totalBlocks setup.expectedChunks).toNat r.control) .init fun ls r l r' hrun ih _ hstep => ?_
  have hflow := flow_of_reaches hrun
  refine (ih.mono fun b hb => named_snoc hb l).turn (Threads.turn_of_step hstep).control
    (fun p data hw => named_snoc (hflow.verified p data hw).1.named l) fun d b hl hb => ?_
  exact mem_namedBlocks.2 ⟨d, by simp [hl], hb⟩

/-! ## The shape of the stream -/

theorem Finished.complete_mem {acks : List BlockAck} (h : Finished b (acksOf b acks)) :
    .complete b ∈ acks := by
  obtain ⟨missings, heq, _⟩ := h
  have hmem : .complete b ∈ acksOf b acks := by rw [heq]; simp
  exact List.mem_of_mem_filter hmem

/-- The blocks whose `Complete` has been written: those completed, and the one about to be. -/
theorem AckInv.complete_mem_iff (h : AckInv N total c) (b : UInt32) :
    .complete b ∈ c.acks ↔ b ∈ c.shared.completed ∨ ∃ rest, c.ack = .removing b rest := by
  constructor
  · intro hmem
    by_contra hno
    rw [not_or, not_exists] at hno
    have hof : .complete b ∈ acksOf b c.acks := List.mem_filter.2 ⟨hmem, by simp [BlockAck.blockId]⟩
    obtain ⟨_, heq⟩ := (h.unfinished b hno.1 hno.2).2 _ hof
    cases heq
  · rintro (hb | ⟨rest, hpc⟩)
    · exact (h.finished b hb).complete_mem
    · exact (h.removing b rest hpc).2.complete_mem

/-- The acks of a block: `Missing` acks within the retry limit, then at most one `Complete`. -/
theorem AckInv.shape (h : AckInv N total c) (b : UInt32) :
    ∃ missings tail, acksOf b c.acks = missings ++ tail ∧
      AtMostMissing maxBlockRetryRounds b missings ∧ (tail = [] ∨ tail = [.complete b]) := by
  by_cases hb : b ∈ c.shared.completed
  · obtain ⟨missings, heq, hmissings⟩ := h.finished b hb
    exact ⟨missings, [.complete b], heq, hmissings, .inr rfl⟩
  · by_cases hpc : ∃ rest, c.ack = .removing b rest
    · obtain ⟨rest, hpc⟩ := hpc
      obtain ⟨missings, heq, hmissings⟩ := (h.removing b rest hpc).2
      exact ⟨missings, [.complete b], heq, hmissings, .inr rfl⟩
    · obtain ⟨hlen, hmissing⟩ := h.unfinished b hb fun rest hpc' => hpc ⟨rest, hpc'⟩
      exact ⟨acksOf b c.acks, [], (List.append_nil _).symm,
        ⟨hlen.trans (min_le_left _ _), hmissing⟩, .inl rfl⟩

/-- When every datagram names a block of the file, the counter reaches the number of blocks exactly
    when all of them are completed. -/
theorem AckInv.le_completed_iff {total : UInt32} (h : AckInv N total.toNat c)
    (hbelow : ∀ b, N b → b < total) :
    total.toNat ≤ c.completed ↔ ∀ b < total, b ∈ c.shared.completed := by
  rw [h.counted, all_below_iff_le_card fun b hb => hbelow b (h.completed b hb)]

/-- **Shape of the ack stream.** Whatever the interleaving, as long as every datagram names a block
    of the file: the acks written for a block are at most `MAX_BLOCK_RETRY_ROUNDS` `Missing`s, then
    at most one `Complete`; the counter is the number of completed ids; and at the loop condition
    the loop exits exactly when the `Complete` of every block has been written. -/
theorem ackStream_shape (hrun : (receiver setup).Reaches ls r)
    (hbelow : ∀ b ∈ namedBlocks ls, b < totalBlocks setup.expectedChunks) :
    (∀ b, ∃ missings tail, acksOf b r.control.acks = missings ++ tail ∧
      missings.length ≤ maxBlockRetryRounds ∧ (∀ a ∈ missings, ∃ missing, a = .missing b missing) ∧
      (tail = [] ∨ tail = [.complete b])) ∧
    r.control.completed = r.control.shared.completed.card ∧
    (∀ b, .complete b ∈ r.control.acks ↔
      b ∈ r.control.shared.completed ∨ ∃ rest, r.control.ack = .removing b rest) ∧
    (r.control.ack = .exited .ok →
      ∀ b < totalBlocks setup.expectedChunks, .complete b ∈ r.control.acks) ∧
    (r.control.ack = .poll → ((∃ r', (receiver setup).step (.ack .exit) r = some r') ↔
      ∀ b < totalBlocks setup.expectedChunks, .complete b ∈ r.control.acks)) := by
  have h := ackInv_of_reaches hrun
  have hdone := h.le_completed_iff hbelow
  refine ⟨fun b => ?_, h.counted, h.complete_mem_iff, fun hpc b hb => ?_, fun hpc => ?_⟩
  · obtain ⟨missings, tail, heq, ⟨hlen, hmissing⟩, htail⟩ := h.shape b
    exact ⟨missings, tail, heq, hlen, hmissing, htail⟩
  · exact (h.complete_mem_iff b).2 (.inl (hdone.1 (h.exited hpc) b hb))
  · have hcompleted : ∀ b, .complete b ∈ r.control.acks ↔ b ∈ r.control.shared.completed := by
      intro b
      rw [h.complete_mem_iff b, hpc]
      simp
    simp only [hcompleted, ← hdone, receiver, Threads.step, ackManagerStep, hpc]
    split
    · next hmore => simp; omega
    · next hmore => simp; omega

/-- A block whose only packet is lost: its `BlockEnd` arrives, and a `Missing` goes out. -/
theorem ackStream_shape_lostPacket :
    ∃ r, (receiver oneChunk).exec
        [.udpLoop, .datagram (BlockEndPacket.encode 0 1), .tick (fromMillis 100), .ack (.poll [0]),
          .ack .next, .ack .write, .ack .next] (receiver oneChunk).init = some r ∧
      r.control.acks = [.missing 0 [0]] ∧
      r.control.completed = r.control.shared.completed.card := by
  obtain ⟨r, hr, hacks⟩ := Lts.exists_exec (receiver oneChunk)
    [.udpLoop, .datagram (BlockEndPacket.encode 0 1), .tick (fromMillis 100), .ack (.poll [0]),
      .ack .next, .ack .write, .ack .next]
    (fun r => r.control.acks = [.missing 0 [0]]) (by decide +kernel)
  refine ⟨r, hr, hacks, (ackStream_shape (Lts.reaches_of_exec hr) fun b hb => ?_).2.1⟩
  obtain ⟨d, hd, hb⟩ := mem_namedBlocks.1 hb
  have hd' : d = BlockEndPacket.encode 0 1 := by simpa using hd
  rw [hd', Incoming.ofDatagram_blockEnd] at hb
  cases hb
  decide

end SecureTransfer.Receiver
