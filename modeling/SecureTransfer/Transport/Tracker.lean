import SecureTransfer.Lib.Transition
import SecureTransfer.Transport.ReceiverState

set_option autoImplicit false

/-! # The tracker under any interleaving

Each method holds the lock from its first to its last line, so threads calling the five methods
that change the tracker produce a sequence of calls, and `tracker` runs every such sequence. Nothing
is assumed about the arguments: the block need not be one of the file and `total` need not be its
size. A release build counts `rounds` modulo `2^32`; nothing here depends on it. -/

namespace SecureTransfer

/-- A call of one of the methods that change the tracker. -/
inductive TrackerCall
  | touchActivity (blockId : UInt32) (total : ℕ) (now : Instant)
  | markVerified (blockId : UInt32) (packetInBlock : UInt16) (total : ℕ) (now : Instant)
  | markEndSeen (blockId : UInt32) (total : ℕ) (now : Instant)
  | snapshotAndTick (blockId : UInt32) (now : Instant)
  | remove (blockId : UInt32)

/-- The tracker after a call. -/
def ReceiverInner.call (s : ReceiverInner) : TrackerCall → ReceiverInner
  | .touchActivity blockId total now => s.touchActivity blockId total now
  | .markVerified blockId packetInBlock total now => s.markVerified blockId packetInBlock total now
  | .markEndSeen blockId total now => s.markEndSeen blockId total now
  | .snapshotAndTick blockId now => (s.snapshotAndTick blockId now).elim s Prod.snd
  | .remove blockId => s.remove blockId

def tracker : Lts ReceiverInner TrackerCall where
  init := .init
  step := fun c s => some (s.call c)

variable {s s' : ReceiverInner} {c : TrackerCall} {calls : List TrackerCall} {b : UInt32}
  {now : Instant} {entry entry' : BlockRxEntry} {i : ℕ}

/-! ## One call -/

/-- What `snapshot_and_tick` does to the tracker: nothing, or it writes an entry back. -/
theorem ReceiverInner.call_snapshotAndTick (s : ReceiverInner) (b : UInt32) (now : Instant) :
    s.call (.snapshotAndTick b now) = s ∨ ∃ entry, s.Tracked b entry ∧
      s.call (.snapshotAndTick b now)
        = s.setEntry b { entry with rounds := entry.rounds + 1, lastActivity := now } := by
  simp only [call, snapshotAndTick, Tracked]
  cases s.blocks.lookup b with
  | none => exact .inl rfl
  | some entry => exact .inr ⟨entry, rfl, rfl⟩

theorem ReceiverInner.Consistent.call (h : s.Consistent) (c : TrackerCall) :
    (s.call c).Consistent := by
  cases c with
  | touchActivity b total now =>
      have hupdate : ∀ e : BlockRxEntry, e.Consistent →
          BlockRxEntry.Consistent { e with lastActivity := now } :=
        fun e he => ⟨he.length, he.count⟩
      exact h.withEntry hupdate
  | markVerified b p total now => exact h.withEntry fun e he => he.mark p.toNat
  | markEndSeen b total now =>
      have hupdate : ∀ e : BlockRxEntry, e.Consistent →
          BlockRxEntry.Consistent { e with endSeen := true, lastActivity := now } :=
        fun e he => ⟨he.length, he.count⟩
      exact h.withEntry hupdate
  | snapshotAndTick b now =>
      rcases s.call_snapshotAndTick b now with heq | ⟨entry, ht, heq⟩
      · rw [heq]
        exact h
      · have hentry := h.entries b entry ht
        rw [heq]
        exact h.setEntry (h.disjoint b entry ht) ⟨hentry.length, hentry.count⟩
  | remove => exact h.remove

/-- A completed block stays completed. -/
theorem ReceiverInner.completed_call (hb : b ∈ s.completed) (c : TrackerCall) :
    b ∈ (s.call c).completed := by
  cases c with
  | touchActivity => exact completed_withEntry.symm ▸ hb
  | markVerified => exact completed_withEntry.symm ▸ hb
  | markEndSeen => exact completed_withEntry.symm ▸ hb
  | snapshotAndTick b' now =>
      rcases s.call_snapshotAndTick b' now with heq | ⟨entry, _, heq⟩
      · rw [heq]
        exact hb
      · rw [heq]
        exact hb
  | remove b' => exact Finset.mem_insert_of_mem hb

/-- A tracked block stays tracked or becomes completed. -/
theorem ReceiverInner.Tracked.call (h : s.Tracked b entry) (c : TrackerCall) :
    b ∈ (s.call c).completed ∨ ∃ entry', (s.call c).Tracked b entry' := by
  cases c with
  | touchActivity => exact .inr (h.withEntry.elim (fun h => ⟨_, h⟩) fun h => ⟨_, h.2⟩)
  | markVerified => exact .inr (h.withEntry.elim (fun h => ⟨_, h⟩) fun h => ⟨_, h.2⟩)
  | markEndSeen => exact .inr (h.withEntry.elim (fun h => ⟨_, h⟩) fun h => ⟨_, h.2⟩)
  | snapshotAndTick b' now =>
      right
      rcases s.call_snapshotAndTick b' now with heq | ⟨entry', _, heq⟩
      · rw [heq]
        exact ⟨entry, h⟩
      · rw [heq]
        by_cases hb : b = b'
        · exact ⟨_, tracked_setEntry.2 (.inl ⟨hb, rfl⟩)⟩
        · exact ⟨entry, tracked_setEntry.2 (.inr ⟨hb, h⟩)⟩
  | remove b' =>
      by_cases hb : b = b'
      · exact .inl (hb ▸ Finset.mem_insert_self _ _)
      · exact .inr ⟨entry, tracked_remove.2 ⟨hb, h⟩⟩

/-- **Inversion.** An entry after a call has the bitmap it had before, or that of a new entry, with
    one more bit set if the call was `mark_verified` of its block. -/
theorem ReceiverInner.tracked_call (h : (s.call c).Tracked b entry') :
    ∃ entry, (s.Tracked b entry ∨
        (s.blocks.lookup b = none ∧ ∃ total now, entry = .new total now)) ∧
      (entry'.received = entry.received ∨
        ∃ p total now, c = .markVerified b p total now ∧
          entry'.received = (entry.mark p.toNat).received) := by
  have hold : ∀ {b' : UInt32} {total : ℕ} {now : Instant},
      s.Tracked b' (s.entryOrNew b' total now) ∨ (s.blocks.lookup b' = none ∧
        ∃ total' now', s.entryOrNew b' total now = .new total' now') :=
    fun {b' total now} => (s.entryOrNew_cases b' total now).imp id
      (And.imp_right fun heq => ⟨total, now, heq⟩)
  cases c with
  | touchActivity =>
      rcases tracked_withEntry h with ht | ⟨rfl, _, rfl⟩
      · exact ⟨entry', .inl ht, .inl rfl⟩
      · exact ⟨_, hold, .inl rfl⟩
  | markVerified b' p total now =>
      rcases tracked_withEntry h with ht | ⟨rfl, _, rfl⟩
      · exact ⟨entry', .inl ht, .inl rfl⟩
      · exact ⟨_, hold, .inr ⟨p, total, now, rfl, rfl⟩⟩
  | markEndSeen =>
      rcases tracked_withEntry h with ht | ⟨rfl, _, rfl⟩
      · exact ⟨entry', .inl ht, .inl rfl⟩
      · exact ⟨_, hold, .inl rfl⟩
  | snapshotAndTick b' now =>
      rcases s.call_snapshotAndTick b' now with heq | ⟨entry, ht, heq⟩
      · exact ⟨entry', .inl (heq ▸ h), .inl rfl⟩
      · rw [heq] at h
        rcases tracked_setEntry.1 h with ⟨rfl, rfl⟩ | ⟨_, ht'⟩
        · exact ⟨entry, .inl ht, .inl rfl⟩
        · exact ⟨entry', .inl ht', .inl rfl⟩
  | remove => exact ⟨entry', .inl (tracked_remove.1 h).2, .inl rfl⟩

/-- A set bit is still set after a call. -/
theorem ReceiverInner.Tracked.bit_stays (h : s.Tracked b entry)
    (h' : (s.call c).Tracked b entry') (hi : entry.received[i]? = some true) :
    entry'.received[i]? = some true := by
  obtain ⟨old, ht | ⟨hnone, _⟩, hreceived⟩ := ReceiverInner.tracked_call h'
  · rw [Tracked, h, Option.some.injEq] at ht
    subst ht
    rcases hreceived with heq | ⟨p, _, _, _, heq⟩
    · rwa [heq]
    · rw [heq]
      exact BlockRxEntry.received_mark.2 (.inl hi)
  · rw [Tracked, hnone] at h
    cases h

/-- A set bit was set before the call, or the call was `mark_verified` of just that packet. -/
theorem ReceiverInner.Tracked.bit_origin (h' : (s.call c).Tracked b entry')
    (hi : entry'.received[i]? = some true) :
    (∃ entry, s.Tracked b entry ∧ entry.received[i]? = some true) ∨
      ∃ p total now, c = .markVerified b p total now ∧ p.toNat = i := by
  obtain ⟨old, hold, hreceived⟩ := ReceiverInner.tracked_call h'
  have hset : old.received[i]? = some true →
      ∃ entry, s.Tracked b entry ∧ entry.received[i]? = some true := by
    intro hi
    rcases hold with ht | ⟨_, total, now, rfl⟩
    · exact ⟨old, ht, hi⟩
    · -- a new entry has no bit set
      have := (List.mem_replicate.1 (List.mem_of_getElem? hi)).2
      cases this
  rcases hreceived with heq | ⟨p, total, now, hcall, heq⟩
  · exact .inl (hset (heq ▸ hi))
  · rw [heq] at hi
    rcases BlockRxEntry.received_mark.1 hi with hi | ⟨hp, _⟩
    · exact .inl (hset hi)
    · exact .inr ⟨p, total, now, hcall, hp.symm⟩

/-! ## The list of missing packets -/

/-- The positions of the clear bits, in order. -/
theorem zipIdx_filter_map (bits : List Bool) :
    (bits.zipIdx.filter fun e => !e.1).map Prod.snd
      = (List.range bits.length).filter fun i => bits[i]? = some false := by
  induction bits using List.reverseRecOn with
  | nil => rfl
  | append_singleton bits bit ih =>
      have hbefore : ∀ i ∈ List.range bits.length,
          decide ((bits ++ [bit])[i]? = some false) = decide (bits[i]? = some false) := by
        intro i hi
        rw [List.getElem?_append_left (List.mem_range.1 hi)]
      rw [List.zipIdx_append, List.filter_append, List.map_append, ih, List.length_append,
        List.length_singleton, List.range_succ, List.filter_append, List.filter_congr hbefore]
      cases bit <;> simp

/-- As long as the positions fit a `u16`, `missing_ids` lists exactly the clear bits. -/
theorem BlockRxEntry.map_missingIds (hsize : entry.received.length ≤ 65536) :
    entry.missingIds.map UInt16.toNat
      = (List.range entry.received.length).filter fun i => entry.received[i]? = some false := by
  rw [← zipIdx_filter_map, missingIds, List.map_map]
  refine List.map_congr_left fun e he => ?_
  have hlt := List.snd_lt_of_mem_zipIdx (List.mem_of_mem_filter he)
  have hfits : e.2 < 2 ^ 16 := by omega
  exact UInt16.toNat_ofNat_of_lt' hfits

/-- The test on the counter says whether the list is empty. -/
theorem BlockRxEntry.Consistent.isComplete_iff_missingIds (h : entry.Consistent) :
    entry.isComplete = true ↔ entry.missingIds = [] := by
  have hempty : entry.missingIds = [] ↔
      (List.range entry.received.length).filter (fun i => entry.received[i]? = some false) = [] := by
    rw [← zipIdx_filter_map, missingIds, List.map_eq_nil_iff, List.map_eq_nil_iff]
  rw [hempty, h.isComplete_iff, List.filter_eq_nil_iff, ← h.length]
  constructor
  · intro hall i hi
    rw [hall i (List.mem_range.1 hi)]
    decide
  · intro hnone i hi
    have hbit := hnone i (List.mem_range.2 hi)
    rw [List.getElem?_eq_getElem hi] at hbit ⊢
    cases hval : entry.received[i] with
    | true => rfl
    | false => simp [hval] at hbit

/-! ## Along a run -/

theorem consistent_step (h : s.Consistent) (hstep : tracker.step c s = some s') :
    s'.Consistent := by
  cases hstep
  exact h.call c

theorem consistent_of_calls (hrun : tracker.Reaches calls s) : s.Consistent :=
  hrun.invariant .init fun _ _ _ h _ hstep => consistent_step h hstep

/-- However the calls go on, a completed block stays completed. -/
theorem completed_stays (hexec : tracker.exec calls s = some s') (hb : b ∈ s.completed) :
    b ∈ s'.completed :=
  Lts.exec_preserves (P := fun s => b ∈ s.completed)
    (fun _ c _ hb hstep => Option.some.inj hstep ▸ ReceiverInner.completed_call hb c) hb hexec

/-- However the calls go on, a set bit stays set until its block is completed. -/
theorem bit_stays_or_completed (hexec : tracker.exec calls s = some s') (ht : s.Tracked b entry)
    (hi : entry.received[i]? = some true) :
    b ∈ s'.completed ∨ ∃ entry', s'.Tracked b entry' ∧ entry'.received[i]? = some true := by
  refine Lts.exec_preserves (P := fun s => b ∈ s.completed ∨
    ∃ entry, s.Tracked b entry ∧ entry.received[i]? = some true) ?_ (.inr ⟨entry, ht, hi⟩) hexec
  rintro s c _ (hb | ⟨entry, ht, hi⟩) hstep
  · exact .inl (Option.some.inj hstep ▸ ReceiverInner.completed_call hb c)
  · cases hstep
    rcases ht.call c with hb | ⟨entry', ht'⟩
    · exact .inl hb
    · exact .inr ⟨entry', ht', ht.bit_stays ht' hi⟩

/-- A set bit has been set by a `mark_verified` of just that packet. -/
theorem marked_of_bit (hrun : tracker.Reaches calls s) (ht : s.Tracked b entry)
    (hi : entry.received[i]? = some true) :
    ∃ p total now, TrackerCall.markVerified b p total now ∈ calls ∧ p.toNat = i := by
  refine hrun.history (P := fun calls s => ∀ entry, s.Tracked b entry →
    entry.received[i]? = some true →
      ∃ p total now, TrackerCall.markVerified b p total now ∈ calls ∧ p.toNat = i)
    (fun entry ht => by simp [ReceiverInner.Tracked, tracker, ReceiverInner.init] at ht)
    ?_ entry ht hi
  intro calls s c s' _ ih _ hstep entry' ht' hi'
  cases hstep
  rcases ReceiverInner.Tracked.bit_origin ht' hi' with ⟨entry, ht, hi⟩ | ⟨p, total, now, rfl, hp⟩
  · obtain ⟨p, total, now, hmem, hp⟩ := ih entry ht hi
    exact ⟨p, total, now, List.mem_append_left _ hmem, hp⟩
  · exact ⟨p, total, now, by simp, hp⟩

/-- **The tracker's invariant.** After any sequence of calls: the counter of an entry counts the
    bits of its bitmap, which has one bit a packet; bits are set by `mark_verified` of that packet
    only and stay set; a block is tracked or completed but not both, and once completed it stays
    so; and what `snapshot_and_tick` returns is the state of the entry. -/
theorem tracker_invariant (hrun : tracker.Reaches calls s) :
    (∀ b entry, s.Tracked b entry → entry.received.length = entry.total ∧
      entry.receivedCount = entry.received.count true ∧ entry.receivedCount ≤ entry.total) ∧
    (∀ b entry i, s.Tracked b entry → entry.received[i]? = some true →
      (∃ p total now, TrackerCall.markVerified b p total now ∈ calls ∧ p.toNat = i) ∧
      ∀ calls' s' entry', tracker.exec calls' s = some s' → s'.Tracked b entry' →
        entry'.received[i]? = some true) ∧
    (∀ c b entry' i, (s.call c).Tracked b entry' → entry'.received[i]? = some true →
      (∃ entry, s.Tracked b entry ∧ entry.received[i]? = some true) ∨
        ∃ p total now, c = .markVerified b p total now ∧ p.toNat = i) ∧
    (∀ b ∈ s.completed, ∀ calls' s', tracker.exec calls' s = some s' →
      b ∈ s'.completed ∧ ∀ entry, ¬ s'.Tracked b entry) ∧
    (∀ b now snapshot s', s.snapshotAndTick b now = some (snapshot, s') →
      ∃ entry, s.Tracked b entry ∧
        (snapshot.isComplete = true ↔ snapshot.missing = []) ∧
        (entry.total ≤ 65536 → snapshot.missing.map UInt16.toNat
          = (List.range entry.total).filter fun i => entry.received[i]? = some false)) := by
  have h := consistent_of_calls hrun
  have hafter : ∀ {calls' s'}, tracker.exec calls' s = some s' → s'.Consistent := fun hexec =>
    Lts.exec_preserves (fun _ _ _ h hstep => consistent_step h hstep) h hexec
  refine ⟨fun b entry ht => ?_, fun b entry i ht hi => ⟨marked_of_bit hrun ht hi, ?_⟩,
    fun c b entry' i ht hi => ReceiverInner.Tracked.bit_origin ht hi, ?_, ?_⟩
  · have hentry := h.entries b entry ht
    refine ⟨hentry.length, hentry.count, ?_⟩
    rw [hentry.count, ← hentry.length]
    exact List.count_le_length
  · intro calls' s' entry' hexec ht'
    rcases bit_stays_or_completed hexec ht hi with hb | ⟨entry'', ht'', hi''⟩
    · exact absurd hb ((hafter hexec).disjoint b entry' ht')
    · rw [ReceiverInner.Tracked, ht', Option.some.injEq] at ht''
      exact ht'' ▸ hi''
  · intro b hb calls' s' hexec
    have hb' := completed_stays hexec hb
    exact ⟨hb', fun entry ht => (hafter hexec).disjoint b entry ht hb'⟩
  · intro b now snapshot s' hsnapshot
    unfold ReceiverInner.snapshotAndTick at hsnapshot
    split at hsnapshot
    · cases hsnapshot
    · next entry ht =>
        cases hsnapshot
        have hentry := h.entries b entry ht
        refine ⟨entry, ht, hentry.isComplete_iff_missingIds, fun hsize => ?_⟩
        rw [← hentry.length] at hsize ⊢
        exact BlockRxEntry.map_missingIds hsize

/-- A block of two packets: one is verified, a snapshot is taken, the block is given up, and a late
    packet of it changes nothing. -/
theorem tracker_invariant_twoPackets :
    ∃ s, tracker.exec [.touchActivity 0 2 0, .markVerified 0 1 2 5, .markEndSeen 0 2 6,
        .snapshotAndTick 0 9, .remove 0, .markVerified 0 0 2 11] tracker.init = some s ∧
      0 ∈ s.completed ∧ ∀ entry, ¬ s.Tracked 0 entry := by
  obtain ⟨s, hs, hcompleted⟩ := Lts.exists_exec tracker
    [.touchActivity 0 2 0, .markVerified 0 1 2 5, .markEndSeen 0 2 6, .snapshotAndTick 0 9,
      .remove 0, .markVerified 0 0 2 11]
    (fun s => 0 ∈ s.completed) (by decide +kernel)
  have hinvariant := tracker_invariant (Lts.reaches_of_exec hs)
  exact ⟨s, hs, hcompleted, (hinvariant.2.2.2.1 0 hcompleted [] s rfl).2⟩

end SecureTransfer
