import SecureTransfer.Receiver.Completion

set_option autoImplicit false

/-! # What a `Missing` lists

The set bits of a tracked entry are the packets marked: a mark makes an entry if there is none, and
so a block without an entry has no marks unless it is completed (`MarksHeld`). What
`snapshot_and_tick` finds missing are thus the packets of the block that have not been verified. -/

namespace SecureTransfer.Receiver

variable {setup : Setup} {c c' : Control} {r r' : Threads} {l : Label} {ls : List Label}
  {b : UInt32} {now : Instant} {total : ℕ}

/-- A marked block is known, and its entry holds the marks. -/
structure MarksHeld (c : Control) : Prop where
  known : ∀ b p, (b, p) ∈ c.marks → c.Known b
  bits : ∀ b entry (p : UInt16), c.shared.Tracked b entry → (b, p) ∈ c.marks →
    p.toNat < entry.received.length → entry.received[p.toNat]? = some true

theorem MarksHeld.init : MarksHeld .init where
  known := nofun
  bits := nofun

/-! ## Preservation -/

/-- A mutator of block `b` that sets the bits of the marks it adds and clears none. -/
theorem MarksHeld.mutate (h : MarksHeld c) (hconsistent : c.shared.Consistent) {n : ℕ}
    (update : BlockRxEntry → BlockRxEntry) (marks : List (UInt32 × UInt16))
    (hmarks : ∀ b' p, (b', p) ∈ marks → (b', p) ∈ c.marks ∨ b' = b)
    (hbits : ∀ (e : BlockRxEntry) (p : UInt16), (b, p) ∈ marks →
      p.toNat < (update e).received.length →
      ((b, p) ∈ c.marks → p.toNat < e.received.length → e.received[p.toNat]? = some true) →
      (update e).received[p.toNat]? = some true) :
    MarksHeld { c.mutate (ReceiverInner.withEntry b n now update) with marks := marks } := by
  refine ⟨fun b' p hp => ?_, fun b' entry p ht hp hlt => ?_⟩
  · rcases hmarks b' p hp with hold | rfl
    · exact (h.known b' p hold).withEntry
    · exact Control.known_withEntry
  · have ht : (c.shared.withEntry b n now update).Tracked b' entry := ht
    unfold ReceiverInner.withEntry at ht
    split at ht
    · next hdone =>
        -- the marks of a completed block have no entry to be held by
        refine h.bits b' entry p ht ((hmarks b' p hp).resolve_right fun heq => ?_) hlt
        exact hconsistent.disjoint b' entry ht (heq ▸ hdone)
    · next hopen =>
        rcases ReceiverInner.tracked_setEntry.1 ht with ⟨rfl, rfl⟩ | ⟨hne, ht⟩
        · refine hbits _ p hp hlt fun hold hlt => ?_
          rcases c.shared.entryOrNew_cases b' n now with ht | ⟨hnone, -⟩
          · exact h.bits b' _ p ht hold hlt
          · rcases h.known b' p hold with ⟨entry, ht⟩ | hdone
            · rw [ReceiverInner.Tracked, hnone] at ht
              cases ht
            · exact absurd hdone hopen
        · exact h.bits b' entry p ht ((hmarks b' p hp).resolve_right hne) hlt

theorem MarksHeld.move (h : MarksHeld c) {l : AckLabel} (hmove : AckMove total now l c c') :
    MarksHeld c' := by
  have hmarks := hmove.marks
  refine ⟨fun b p hp => (h.known b p (hmarks ▸ hp)).move hmove, fun b entry p ht hp hlt => ?_⟩
  rw [hmarks] at hp
  cases hmove with
  | @snapshot _ b' _ _ _ _ hsome =>
      obtain ⟨entry', ht', rfl, -⟩ := snapshotAndTick_eq_some hsome
      rcases ReceiverInner.tracked_setEntry.1 ht with ⟨rfl, rfl⟩ | ⟨-, ht⟩
      · exact h.bits b entry' p ht' hp hlt
      · exact h.bits b entry p ht hp hlt
  | remove => exact h.bits b entry p (ReceiverInner.tracked_remove.1 ht).2 hp hlt
  | _ => exact h.bits b entry p ht hp hlt

theorem MarksHeld.turn (h : MarksHeld r.control) (hconsistent : r.control.shared.Consistent)
    (hmove : ControlMove setup r l c') : MarksHeld c' := by
  cases hmove with
  | keep => exact h
  | touch =>
      exact h.mutate hconsistent (fun entry => { entry with lastActivity := r.now }) r.control.marks
        (fun _ _ hp => .inl hp) fun _ _ hp hlt hold => hold hp hlt
  | endSeen =>
      exact h.mutate hconsistent (fun entry => { entry with endSeen := true, lastActivity := r.now })
        r.control.marks (fun _ _ hp => .inl hp) fun _ _ hp hlt hold => hold hp hlt
  | @mark i p data =>
      refine h.mutate hconsistent (BlockRxEntry.mark p.packetInBlock.toNat)
        (r.control.marks ++ [(p.blockId, p.packetInBlock)]) ?_ ?_
      · intro b' p' hp'
        rcases List.mem_append.1 hp' with hold | hnew
        · exact .inl hold
        · exact .inr (congrArg Prod.fst (List.mem_singleton.1 hnew))
      · intro e p' hp' hlt hold
        rw [BlockRxEntry.length_received_mark] at hlt
        refine BlockRxEntry.received_mark.2 ?_
        rcases List.mem_append.1 hp' with hp' | hnew
        · exact .inl (hold hp' hlt)
        · obtain ⟨-, rfl⟩ := Prod.mk.inj (List.mem_singleton.1 hnew)
          exact .inr ⟨rfl, hlt⟩
  | ack hmove => exact h.move hmove

theorem marksHeld_of_run (hrun : (receiver setup).Run (EntriesFit setup) ls r) :
    MarksHeld r.control := by
  refine hrun.history (P := fun _ r => MarksHeld r.control) .init ?_
  intro ls r l r' hrun ih _ hstep
  exact ih.turn (completeInv_of_run hrun).consistent (Threads.turn_of_step hstep).control

/-! ## The snapshot -/

/-- The ids of the packets of the block that have not been verified, in ascending order. -/
structure Control.Unverified (expectedChunks : UInt32) (c : Control) (b : UInt32)
    (ids : List UInt16) : Prop where
  ascending : ids.Pairwise (· < ·)
  exact : ∀ id, id ∈ ids ↔ id.toNat < packetsInBlock b expectedChunks ∧ (b, id) ∉ c.marks

theorem unverified_of_tracked (hrun : (receiver setup).Run (EntriesFit setup) ls r)
    {entry : BlockRxEntry} (ht : r.control.shared.Tracked b entry) :
    r.control.Unverified setup.expectedChunks b entry.missingIds := by
  have hcomplete := completeInv_of_run hrun
  have hlen : entry.received.length = packetsInBlock b setup.expectedChunks := by
    rw [(hcomplete.consistent.entries b entry ht).length, (hcomplete.entries b entry ht).2]
  have hfits : entry.received.length ≤ 2 ^ 16 := by
    rw [hlen]
    exact (packetsInBlock_le b setup.expectedChunks).trans (by decide)
  refine ⟨BlockRxEntry.pairwise_missingIds hfits, fun id => ?_⟩
  rw [BlockRxEntry.mem_missingIds hfits, ← hlen]
  constructor
  · intro hfree
    have hlt := (List.getElem?_eq_some_iff.1 hfree).1
    refine ⟨hlt, fun hmarked => ?_⟩
    rw [(marksHeld_of_run hrun).bits b entry id ht hmarked hlt] at hfree
    cases hfree
  · rintro ⟨hlt, hunmarked⟩
    rw [List.getElem?_eq_getElem hlt]
    cases hbit : entry.received[id.toNat] with
    | false => rfl
    | true =>
        obtain ⟨p, hp, hmarked⟩ := hcomplete.bits b entry id.toNat ht
          (by rw [List.getElem?_eq_getElem hlt, hbit])
        exact absurd (UInt16.toNat_inj.1 hp ▸ hmarked) hunmarked

/-! ## From the snapshot to the ack -/

/-- The ack manager comes to an ack by a snapshot. -/
theorem ControlMove.acking (h : ControlMove setup r l c') {snapshot : Snapshot} {rest : List UInt32}
    (hpc : c'.ack = .acking b snapshot rest) : c'.acks = r.control.acks ∧
      (r.control.ack = .acking b snapshot rest ∨
        (l = .ack .next ∧ r.control.ack = .checking (b :: rest) ∧
          ∃ shared, r.control.shared.snapshotAndTick b r.now = some (snapshot, shared))) := by
  cases h with
  | keep => exact ⟨rfl, .inl hpc⟩
  | touch => exact ⟨rfl, .inl hpc⟩
  | endSeen => exact ⟨rfl, .inl hpc⟩
  | mark => exact ⟨rfl, .inl hpc⟩
  | ack hmove =>
      cases hmove with
      | snapshot hchecking hsome =>
          cases hpc
          exact ⟨rfl, .inr ⟨rfl, hchecking, _, hsome⟩⟩
      | _ => cases hpc

/-- It writes what the snapshot says. -/
theorem ControlMove.missing (h : ControlMove setup r l c') {k : ℕ} {ids : List UInt16}
    (hk : c'.acks[k]? = some (.missing b ids)) :
    r.control.acks[k]? = some (.missing b ids) ∨
      (k = r.control.acks.length ∧ ∃ snapshot rest,
        r.control.ack = .acking b snapshot rest ∧ snapshot.missing = ids) := by
  cases h with
  | keep => exact .inl hk
  | touch => exact .inl hk
  | endSeen => exact .inl hk
  | mark => exact .inl hk
  | ack hmove =>
      have hlast : ∀ {ack : BlockAck}, (r.control.acks ++ [ack])[k]? = some (.missing b ids) →
          r.control.acks[k]? = some (.missing b ids) ∨
            (k = r.control.acks.length ∧ ack = .missing b ids) := by
        intro ack hack
        rcases Nat.lt_or_ge k r.control.acks.length with hlt | hge
        · exact .inl (by rwa [List.getElem?_append_left hlt] at hack)
        · rw [List.getElem?_append_right hge, List.getElem?_singleton] at hack
          split at hack
          · exact .inr ⟨by omega, Option.some.inj hack⟩
          · cases hack
      cases hmove with
      | complete => exact (hlast hk).imp_right fun ⟨_, heq⟩ => by cases heq
      | giveUp => exact (hlast hk).imp_right fun ⟨_, heq⟩ => by cases heq
      | missing hpc =>
          exact (hlast hk).imp_right fun ⟨heq, hack⟩ => by cases hack; exact ⟨heq, _, _, hpc, rfl⟩
      | _ => exact .inl hk

end SecureTransfer.Receiver
