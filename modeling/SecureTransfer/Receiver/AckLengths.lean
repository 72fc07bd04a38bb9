import SecureTransfer.ControlStream
import SecureTransfer.Receiver.AckStream

set_option autoImplicit false

/-! # The lengths of the acks

The list of a `Missing` ack is written behind its length as a `u32`. Whatever datagrams arrive, the
cast loses nothing: a block is tracked with a total that was a `u32` itself, or `packets_in_block`. -/

namespace SecureTransfer.Receiver

variable {setup : Setup} {r : Threads} {c c' : Control} {ls : List Label} {l : Label} {b : UInt32}
  {total : ℕ} {now : Instant}

/-- No bitmap is longer than a `u32` can count, nor is what has been made of one. -/
structure ListsFit (c : Control) : Prop where
  entries : ∀ b entry, c.shared.Tracked b entry → entry.received.length < 2 ^ 32
  acking : ∀ b snapshot rest, c.ack = .acking b snapshot rest → snapshot.missing.length < 2 ^ 32
  acks : ∀ ack ∈ c.acks, ack.Fits

theorem ListsFit.init : ListsFit .init where
  entries := fun _ _ h => absurd h ReceiverInner.not_tracked_init
  acking := nofun
  acks := nofun

theorem length_missingIds_le (entry : BlockRxEntry) :
    entry.missingIds.length ≤ entry.received.length := by
  rw [BlockRxEntry.missingIds, List.length_map]
  exact (List.length_filter_le _ _).trans (List.length_zipIdx).le

theorem ListsFit.mutate (h : ListsFit c) {n : ℕ} {update : BlockRxEntry → BlockRxEntry}
    (hn : n < 2 ^ 32) (hupdate : ∀ e, (update e).received.length = e.received.length) :
    ListsFit (c.mutate (ReceiverInner.withEntry b n now update)) where
  entries := by
    intro b' entry ht
    rcases ReceiverInner.tracked_withEntry ht with hold | ⟨rfl, -, rfl⟩
    · exact h.entries b' entry hold
    · rw [hupdate]
      rcases c.shared.entryOrNew_cases b' n now with hold | ⟨-, hnew⟩
      · exact h.entries b' _ hold
      · rw [hnew, BlockRxEntry.new, List.length_replicate]
        exact hn
  acking := h.acking
  acks := h.acks

theorem ListsFit.move (h : ListsFit c) {l : AckLabel} (hmove : AckMove total now l c c') :
    ListsFit c' := by
  have hwrite {ack : BlockAck} (hack : ack.Fits) : ∀ a ∈ c.acks ++ [ack], a.Fits := by
    intro a ha
    rcases List.mem_append.1 ha with ha | ha
    · exact h.acks a ha
    · rw [List.mem_singleton.1 ha]
      exact hack
  cases hmove with
  | poll => exact ⟨h.entries, nofun, h.acks⟩
  | exit => exact ⟨h.entries, nofun, h.acks⟩
  | endRound => exact ⟨h.entries, nofun, h.acks⟩
  | skip => exact ⟨h.entries, nofun, h.acks⟩
  | writeError => exact ⟨h.entries, nofun, h.acks⟩
  | complete => exact ⟨h.entries, nofun, hwrite trivial⟩
  | giveUp => exact ⟨h.entries, nofun, hwrite trivial⟩
  | missing hpc => exact ⟨h.entries, nofun, hwrite (h.acking _ _ _ hpc)⟩
  | remove hpc =>
      exact ⟨fun b' entry ht => h.entries b' entry (ReceiverInner.tracked_remove.1 ht).2, nofun,
        h.acks⟩
  | snapshot hpc hsome =>
      obtain ⟨entry, ht, rfl, rfl⟩ := snapshotAndTick_eq_some hsome
      have hlen := h.entries _ _ ht
      refine ⟨fun b' entry' ht' => ?_, ?_, h.acks⟩
      · rcases ReceiverInner.tracked_setEntry.1 ht' with ⟨-, rfl⟩ | ⟨-, ht'⟩
        · exact hlen
        · exact h.entries b' entry' ht'
      · rintro b' snapshot rest ⟨⟩
        exact (length_missingIds_le entry).trans_lt hlen

theorem packetsInBlock_lt (b expectedChunks : UInt32) :
    packetsInBlock b expectedChunks < 2 ^ 32 :=
  (packetsInBlock_le b expectedChunks).trans_lt (by decide)

theorem ListsFit.turn (h : ListsFit r.control) (hmove : ControlMove setup r l c') : ListsFit c' := by
  cases hmove with
  | keep => exact h
  | touch hd => exact h.mutate (packetsInBlock_lt _ _) fun _ => rfl
  | endSeen hd => exact h.mutate (UInt32.toNat_lt _) fun _ => rfl
  | @mark _ p _ hworker =>
      have hmutated : ListsFit (r.control.mutate (.markVerified p.blockId p.packetInBlock
          (packetsInBlock p.blockId setup.expectedChunks) r.now)) :=
        h.mutate (packetsInBlock_lt _ _) fun e => e.length_received_mark _
      exact { hmutated with }
  | ack hmove => exact h.move hmove

theorem listsFit_of_reaches (hrun : (receiver setup).Reaches ls r) : ListsFit r.control :=
  hrun.invariant (P := fun r => ListsFit r.control) .init fun _ _ _ h _ hstep =>
    h.turn (Threads.turn_of_step hstep).control

end SecureTransfer.Receiver
