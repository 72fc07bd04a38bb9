import SecureTransfer.Receiver.AckStream

set_option autoImplicit false

/-! # What a `Complete` stands for

The first datagram of a block makes its entry and fixes the size for ever: a data packet takes it
from the geometry of the file, a `BlockEnd` from its own field, and neither checks the id. So
`is_complete` speaks about the block exactly as long as the datagrams that make entries fit the
geometry (`EntryFits`); later ones may say what they like. -/

namespace SecureTransfer.Receiver

variable {setup : Setup} {c c' : Control} {r r' : Threads} {l : Label} {ls : List Label}
  {b b' : UInt32} {now : Instant} {total : ℕ}

/-- The block is tracked or completed, so no datagram makes an entry for it. -/
def Control.Known (c : Control) (b : UInt32) : Prop :=
  (∃ entry, c.shared.Tracked b entry) ∨ b ∈ c.shared.completed

instance (c : Control) (b : UInt32) : Decidable (c.Known b) :=
  decidable_of_iff ((c.shared.blocks.lookup b).isSome = true ∨ b ∈ c.shared.completed)
    (or_congr_left Option.isSome_iff_exists)

/-- `mark_verified` has been called for packet `i` of the block. -/
def Control.Marked (c : Control) (b : UInt32) (i : ℕ) : Prop :=
  ∃ p : UInt16, p.toNat = i ∧ (b, p) ∈ c.marks

/-- The block is one of the file and all of its packets have been marked. -/
def Control.Whole (expectedChunks : UInt32) (c : Control) (b : UInt32) : Prop :=
  b < totalBlocks expectedChunks ∧ ∀ i < packetsInBlock b expectedChunks, c.Marked b i

/-- A datagram that makes an entry fits the geometry of the file. -/
def EntryFits (setup : Setup) (c : Control) : Incoming → Prop
  | .data pkt => c.Known pkt.blockId ∨ pkt.blockId < totalBlocks setup.expectedChunks
  | .blockEnd b totalPackets => c.Known b ∨
    (b < totalBlocks setup.expectedChunks ∧
      totalPackets.toNat = packetsInBlock b setup.expectedChunks)
  | .ignored => True

/-- Entries have the size of their block, and what is complete is whole. -/
structure CompleteInv (expectedChunks : UInt32) (c : Control) : Prop where
  consistent : c.shared.Consistent
  entries : ∀ b entry, c.shared.Tracked b entry →
    b < totalBlocks expectedChunks ∧ entry.total = packetsInBlock b expectedChunks
  bits : ∀ b entry i, c.shared.Tracked b entry → entry.received[i]? = some true → c.Marked b i
  acking : ∀ b snapshot rest, c.ack = .acking b snapshot rest → snapshot.isComplete = true →
    c.Whole expectedChunks b
  written : ∀ b, .complete b ∈ c.acks → b ∉ c.gaveUp → c.Whole expectedChunks b

theorem CompleteInv.init {expectedChunks : UInt32} : CompleteInv expectedChunks .init where
  consistent := .init
  entries := fun _ _ h => absurd h ReceiverInner.not_tracked_init
  bits := fun _ _ _ h => absurd h ReceiverInner.not_tracked_init
  acking := nofun
  written := nofun

/-! ## Blocks stay known -/

theorem Control.Known.withEntry {update : BlockRxEntry → BlockRxEntry} {n : ℕ} (h : c.Known b) :
    (c.mutate (ReceiverInner.withEntry b' n now update)).Known b := by
  rcases h with ⟨entry, ht⟩ | hb
  · rcases ht.withEntry with ht | ⟨_, ht⟩
    · exact .inl ⟨entry, ht⟩
    · exact .inl ⟨update entry, ht⟩
  · exact .inr (by simpa [Control.mutate] using hb)

/-- A mutator makes its block known. -/
theorem Control.known_withEntry {update : BlockRxEntry → BlockRxEntry} {n : ℕ} :
    (c.mutate (ReceiverInner.withEntry b n now update)).Known b := by
  unfold Control.mutate ReceiverInner.withEntry
  by_cases hb : b ∈ c.shared.completed
  · rw [if_pos hb]
    exact .inr hb
  · rw [if_neg hb]
    exact .inl ⟨_, ReceiverInner.tracked_setEntry.2 (.inl ⟨rfl, rfl⟩)⟩

theorem Control.Known.move (h : c.Known b) {l : AckLabel} (hmove : AckMove total now l c c') :
    c'.Known b := by
  cases hmove with
  | @snapshot _ b' _ _ _ _ hsome =>
      obtain ⟨entry', ht', rfl, _⟩ := snapshotAndTick_eq_some hsome
      refine h.imp (fun ⟨entry, ht⟩ => ?_) id
      by_cases hb : b = b'
      · exact ⟨_, ReceiverInner.tracked_setEntry.2 (.inl ⟨hb, rfl⟩)⟩
      · exact ⟨entry, ReceiverInner.tracked_setEntry.2 (.inr ⟨hb, ht⟩)⟩
  | @remove _ b' _ _ =>
      by_cases hb : b = b'
      · exact .inr (hb ▸ Finset.mem_insert_self _ _)
      · refine h.imp (fun ⟨entry, ht⟩ => ⟨entry, ReceiverInner.tracked_remove.2 ⟨hb, ht⟩⟩) ?_
        exact Finset.mem_insert_of_mem
  | _ => exact h

/-! ## Preservation -/

/-- A mutator that, if it makes an entry, makes one of the right size, and sets only bits of marked
    packets. -/
theorem CompleteInv.mutate {expectedChunks : UInt32} (h : CompleteInv expectedChunks c) {n : ℕ}
    (update : BlockRxEntry → BlockRxEntry)
    (hfits : c.Known b ∨ (b < totalBlocks expectedChunks ∧ n = packetsInBlock b expectedChunks))
    (hconsistent : ∀ e : BlockRxEntry, e.Consistent → (update e).Consistent)
    (htotal : ∀ e : BlockRxEntry, (update e).total = e.total) (marks : List (UInt32 × UInt16))
    (hmarks : c.marks ⊆ marks)
    (hbits : ∀ (e : BlockRxEntry) i, (update e).received[i]? = some true →
      e.received[i]? = some true ∨ ∃ p : UInt16, p.toNat = i ∧ (b, p) ∈ marks) :
    CompleteInv expectedChunks
      { c.mutate (ReceiverInner.withEntry b n now update) with marks := marks } := by
  have hmark : ∀ {b i}, c.Marked b i → Control.Marked
      { c.mutate (ReceiverInner.withEntry b n now update) with marks := marks } b i :=
    fun ⟨p, hp, hmem⟩ => ⟨p, hp, hmarks hmem⟩
  have hwhole : ∀ {b'}, c.Whole expectedChunks b' → Control.Whole expectedChunks
      { c.mutate (ReceiverInner.withEntry b n now update) with marks := marks } b' :=
    fun ⟨hb, hall⟩ => ⟨hb, fun i hi => let ⟨p, hp, hmem⟩ := hall i hi; ⟨p, hp, hmarks hmem⟩⟩
  -- the entry updated is a tracked one, or a new one of the right size
  have hentry : b ∉ c.shared.completed → b < totalBlocks expectedChunks ∧
      (c.shared.entryOrNew b n now).total = packetsInBlock b expectedChunks ∧
      ∀ i, (c.shared.entryOrNew b n now).received[i]? = some true → c.Marked b i := by
    intro hopen
    rcases c.shared.entryOrNew_cases b n now with ht | ⟨hnone, hnew⟩
    · exact ⟨(h.entries b _ ht).1, (h.entries b _ ht).2, fun i hi => h.bits b _ i ht hi⟩
    · have hfits' := hfits.resolve_left fun hknown => by
        rcases hknown with ⟨entry, ht⟩ | hb
        · rw [ReceiverInner.Tracked, hnone] at ht
          cases ht
        · exact hopen hb
      rw [hnew]
      refine ⟨hfits'.1, hfits'.2, fun i hi => ?_⟩
      have := (List.mem_replicate.1 (List.mem_of_getElem? hi)).2
      cases this
  refine ⟨h.consistent.withEntry hconsistent, fun b' entry ht => ?_, fun b' entry i ht hi => ?_,
    fun b' snapshot rest hpc hcomplete => hwhole (h.acking b' snapshot rest hpc hcomplete),
    fun b' hmem hgave => hwhole (h.written b' hmem hgave)⟩
  · rcases ReceiverInner.tracked_withEntry ht with hold | ⟨rfl, hopen, rfl⟩
    · exact h.entries b' entry hold
    · rw [htotal]
      exact ⟨(hentry hopen).1, (hentry hopen).2.1⟩
  · rcases ReceiverInner.tracked_withEntry ht with hold | ⟨rfl, hopen, rfl⟩
    · exact let ⟨p, hp, hmem⟩ := h.bits b' entry i hold hi; ⟨p, hp, hmarks hmem⟩
    · rcases hbits _ i hi with hi | hp
      · exact let ⟨p, hp, hmem⟩ := (hentry hopen).2.2 i hi; ⟨p, hp, hmarks hmem⟩
      · exact hp

theorem CompleteInv.move {expectedChunks : UInt32} (h : CompleteInv expectedChunks c)
    {l : AckLabel} (hmove : AckMove total now l c c') : CompleteInv expectedChunks c' := by
  cases hmove with
  | poll => exact { h with acking := nofun }
  | exit => exact { h with acking := nofun }
  | endRound => exact { h with acking := nofun }
  | skip => exact { h with acking := nofun }
  | writeError => exact { h with acking := nofun }
  | @snapshot _ b rest snapshot shared _ hsome =>
      obtain ⟨entry, ht, rfl, rfl⟩ := snapshotAndTick_eq_some hsome
      have hconsistent := h.consistent.entries b entry ht
      refine ⟨h.consistent.setEntry (h.consistent.disjoint b entry ht)
        ⟨hconsistent.length, hconsistent.count⟩, fun b' entry' ht' => ?_,
        fun b' entry' i ht' hi => ?_, fun b' snapshot' rest' hpc hcomplete => ?_, h.written⟩
      · rcases ReceiverInner.tracked_setEntry.1 ht' with ⟨rfl, rfl⟩ | ⟨_, ht'⟩
        · exact h.entries b' entry ht
        · exact h.entries b' entry' ht'
      · rcases ReceiverInner.tracked_setEntry.1 ht' with ⟨rfl, rfl⟩ | ⟨_, ht'⟩
        · exact h.bits b' entry i ht hi
        · exact h.bits b' entry' i ht' hi
      · cases hpc
        obtain ⟨hb, htotal⟩ := h.entries b entry ht
        refine ⟨hb, fun i hi => h.bits b entry i ht ?_⟩
        exact hconsistent.isComplete_iff.1 hcomplete i (by rw [htotal]; exact hi)
  | @complete _ b rest snapshot hpc hcomplete =>
      refine { h with acking := nofun, written := fun b' hmem hgave => ?_ }
      rcases List.mem_append.1 hmem with hmem | hmem
      · exact h.written b' hmem hgave
      · cases List.mem_singleton.1 hmem
        exact h.acking b snapshot rest hpc hcomplete
  | giveUp =>
      refine { h with acking := nofun, written := fun b' hmem hgave => ?_ }
      rw [List.mem_append, not_or, List.mem_singleton] at hgave
      rcases List.mem_append.1 hmem with hmem | hmem
      · exact h.written b' hmem hgave.1
      · cases List.mem_singleton.1 hmem
        exact absurd rfl hgave.2
  | missing =>
      refine { h with acking := nofun, written := fun b' hmem hgave => h.written b' ?_ hgave }
      rcases List.mem_append.1 hmem with hmem | hmem
      · exact hmem
      · cases List.mem_singleton.1 hmem
  | remove =>
      exact {
        consistent := h.consistent.remove
        entries := fun b' entry ht => h.entries b' entry (ReceiverInner.tracked_remove.1 ht).2
        bits := fun b' entry i ht hi => h.bits b' entry i (ReceiverInner.tracked_remove.1 ht).2 hi
        acking := nofun
        written := h.written }

/-! ## Along a run -/

/-- Every datagram that makes an entry fits the geometry. -/
def EntriesFit (setup : Setup) (r : Threads) (l : Label) : Prop :=
  ∀ d, l = .datagram d → EntryFits setup r.control (Incoming.ofDatagram d)

/-- A block stays known. -/
theorem ControlMove.known (h : ControlMove setup r l c') (hb : r.control.Known b) : c'.Known b := by
  cases h with
  | keep => exact hb
  | touch => exact hb.withEntry
  | endSeen => exact hb.withEntry
  | mark => exact hb.withEntry
  | ack hmove => exact hb.move hmove

/-- Packets in flight are of known blocks: `receiver_thread` touches a block before it hands a
    packet on. -/
abbrev InFlightKnown (setup : Setup) (r : Threads) : Prop :=
  Flow setup (fun p => r.control.Known p.blockId) r

theorem InFlightKnown.turn (h : InFlightKnown setup r) (hturn : Threads.Turn setup l r r') :
    InFlightKnown setup r' := by
  refine (h.mono fun _ hp => hturn.control.known hp).turn hturn fun d pkt hl hd => ?_
  subst hl
  cases hturn with
  | ignored _ hd' => rw [hd] at hd'; cases hd'
  | data _ hd' => rw [hd] at hd'; cases hd'; exact Control.known_withEntry
  | dataPanic _ hd' => rw [hd] at hd'; cases hd'; exact Control.known_withEntry
  | blockEnd _ hd' => rw [hd] at hd'; cases hd'

theorem CompleteInv.turn (h : CompleteInv setup.expectedChunks r.control)
    (hflight : InFlightKnown setup r) (hmove : ControlMove setup r l c')
    (hfits : EntriesFit setup r l) : CompleteInv setup.expectedChunks c' := by
  cases hmove with
  | keep => exact h
  | @touch d pkt hd =>
      have hok := hfits d rfl
      rw [hd] at hok
      exact h.mutate (fun entry => { entry with lastActivity := r.now })
        (hok.imp id fun hb => ⟨hb, rfl⟩) (fun e he => ⟨he.length, he.count⟩)
        (fun _ => rfl) r.control.marks (List.Subset.refl _) fun _ _ hi => .inl hi
  | @endSeen d b t hd =>
      have hok := hfits d rfl
      rw [hd] at hok
      exact h.mutate (fun entry => { entry with endSeen := true, lastActivity := r.now }) hok
        (fun e he => ⟨he.length, he.count⟩)
        (fun _ => rfl) r.control.marks (List.Subset.refl _) fun _ _ hi => .inl hi
  | @mark i p data hworker =>
      have hknown := (hflight.verified p data (List.mem_of_getElem? hworker)).1
      refine h.mutate (BlockRxEntry.mark p.packetInBlock.toNat) (.inl hknown) (fun e he => he.mark _)
        (fun e => e.mark_total _) (r.control.marks ++ [(p.blockId, p.packetInBlock)])
        (List.subset_append_left _ _) ?_
      intro e i hi
      refine (BlockRxEntry.received_mark.1 hi).imp id ?_
      rintro ⟨rfl, _⟩
      exact ⟨p.packetInBlock, rfl, by simp⟩
  | ack hmove => exact h.move hmove

theorem completeInv_of_run (hrun : (receiver setup).Run (EntriesFit setup) ls r) :
    CompleteInv setup.expectedChunks r.control := by
  suffices h : InFlightKnown setup r ∧ CompleteInv setup.expectedChunks r.control from h.2
  refine hrun.invariant (P := fun r => InFlightKnown setup r ∧
    CompleteInv setup.expectedChunks r.control) ⟨.init, .init⟩ fun r l r' ih hfits hstep => ?_
  have hturn := Threads.turn_of_step hstep
  exact ⟨ih.1.turn hturn, ih.2.turn ih.1 hturn.control hfits⟩

/-- **A genuine `Complete`.** In every run in which the datagrams that make entries fit the geometry,
    tracked entries have the size of their block, and whenever the ack manager is about to write a
    `Complete` through the `is_complete` branch the block is one of the file and every packet of it
    has been marked. -/
theorem complete_of_isComplete (hrun : (receiver setup).Run (EntriesFit setup) ls r) :
    (∀ b entry, r.control.shared.Tracked b entry →
      b < totalBlocks setup.expectedChunks ∧
        entry.total = packetsInBlock b setup.expectedChunks) ∧
    (∀ b snapshot rest, r.control.ack = .acking b snapshot rest → snapshot.isComplete = true →
      b < totalBlocks setup.expectedChunks ∧
        ∀ i < packetsInBlock b setup.expectedChunks, r.control.Marked b i) := by
  have h := completeInv_of_run hrun
  exact ⟨h.entries, h.acking⟩

/-- The one packet of the file arrives and is verified before the ack manager looks. -/
theorem complete_of_isComplete_onePacket :
    ∃ ls r snapshot, (receiver oneChunk).Run (EntriesFit oneChunk) ls r ∧
      r.control.ack = .acking 0 snapshot [] ∧ r.control.Marked 0 0 := by
  have hok : ∀ l ∈ [.udpLoop, .datagram onePacket, .udpSend, .workerRecv 0, .workerMark 0,
      .tick (fromMillis 100), .ack (.poll [0]), .ack .next], ∀ r, EntriesFit oneChunk r l := by
    intro l hl r d hd
    have hd' : d = onePacket := by simpa [hd] using hl
    rw [hd', onePacket, Incoming.ofDatagram_data _ _ _ (by simp)]
    exact .inr (by decide)
  obtain ⟨r, hr, hack⟩ := Lts.exists_exec (receiver oneChunk)
    [.udpLoop, .datagram onePacket, .udpSend, .workerRecv 0, .workerMark 0,
      .tick (fromMillis 100), .ack (.poll [0]), .ack .next]
    (fun r => r.control.ack = .acking 0 ⟨true, [], 1⟩ []) (by decide +kernel)
  have hrun := Lts.run_of_exec hok hr
  exact ⟨_, r, _, hrun, hack, ((complete_of_isComplete hrun).2 0 _ _ hack rfl).2 0 (by decide)⟩

/-- **A `Complete` for nothing.** A `BlockEnd` that announces no packets is the first datagram of
    block 0 of a one-chunk file: its entry is complete at once. -/
theorem complete_with_nothing_marked :
    ∃ ls r snapshot, (receiver oneChunk).Reaches ls r ∧
      r.control.ack = .acking 0 snapshot [] ∧ snapshot.isComplete = true ∧
      ¬ (0 < totalBlocks oneChunk.expectedChunks ∧
        ∀ i < packetsInBlock 0 oneChunk.expectedChunks, r.control.Marked 0 i) := by
  obtain ⟨r, hr, hack, hmarks⟩ := Lts.exists_exec (receiver oneChunk)
    [.udpLoop, .datagram (BlockEndPacket.encode 0 0), .tick (fromMillis 100), .ack (.poll [0]),
      .ack .next]
    (fun r => r.control.ack = .acking 0 ⟨true, [], 1⟩ [] ∧ r.control.marks = [])
    (by decide +kernel)
  refine ⟨_, r, _, Lts.reaches_of_exec hr, hack, rfl, fun ⟨_, hall⟩ => ?_⟩
  obtain ⟨p, _, hmem⟩ := hall 0 (by decide)
  rw [hmarks] at hmem
  cases hmem

end SecureTransfer.Receiver
