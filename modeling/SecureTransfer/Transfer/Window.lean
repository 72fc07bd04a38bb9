import Mathlib.Data.Finset.Option
import SecureTransfer.Transfer.Lifecycle

set_option autoImplicit false

/-! # The receiver's window

The sender keeps at most `PIPELINE_DEPTH` blocks `Open`, and the receiver tracks what the sender has
told it about. The two sets of blocks differ by one block at most: a block is resolved at the sender
only through a `Complete`, and between writing that and removing the block the ack manager does
nothing else. -/

namespace SecureTransfer.Transfer

open Sender Receiver

variable {setup : Setup} {upload : Upload setup.expectedChunks} {ls : List Label} {w : World}
  {inputs : List LoopInput} {labels : List Receiver.Label} {m : Manager} {b : UInt32}

/-- The block whose `Complete` has been written and which is about to be removed. -/
def leaving : AckManager → Option UInt32
  | .removing blockId _ => some blockId
  | _ => none

theorem leaving_eq_some {ack : AckManager} :
    leaving ack = some b ↔ ∃ rest, ack = .removing b rest := by
  cases ack <;> simp [leaving]

/-- A tracked block is `Open` at the sender, or leaving. -/
theorem Parties.tracked (h : Parties setup upload ls w inputs labels)
    (hm : w.sender.manager? = some m) {entry : BlockRxEntry}
    (ht : w.receiver.control.shared.Tracked b entry) :
    (∃ slot, m.blockStates.lookup b = some (.opened slot)) ∨
      leaving w.receiver.control.ack = some b := by
  obtain ⟨⟨slot, hl, hstarted⟩, _⟩ := h.named hm (h.acks_inv.tracked b entry ht)
  cases slot with
  | pending _ => cases hstarted
  | opened slot => exact .inl ⟨slot, hl⟩
  | resolved =>
      -- its `Complete` has been handled, so it has been written
      have hhandled := (h.resolved hm).1 hl
      have hread : .complete b ∈ w.receiver.control.acks.take w.acksRead := by
        rw [← h.acks]
        exact List.mem_append_left _ hhandled
      have hwritten := List.mem_of_mem_take hread
      rcases (h.acks_inv.complete_mem_iff b).1 hwritten with hcompleted | hremoving
      · exact absurd hcompleted (h.acks_inv.consistent.disjoint b entry ht)
      · exact .inr (leaving_eq_some.2 hremoving)

/-- **The window.** In every state of every transfer the receiver tracks blocks that are `Open` at
    the sender, and at most one more, whose `Complete` it has just written; so it tracks no more
    than `PIPELINE_DEPTH + 1` blocks. -/
theorem tracked_within_window (hrun : (transfer setup upload).Reaches ls w) :
    (∃ m, w.sender.manager? = some m ∧ ∀ b entry, w.receiver.control.shared.Tracked b entry →
      (∃ slot, m.blockStates.lookup b = some (.opened slot)) ∨
        (.complete b ∈ w.receiver.control.acks ∧ leaving w.receiver.control.ack = some b)) ∧
    w.receiver.control.shared.blocks.entries.length ≤ pipelineDepth + 1 := by
  obtain ⟨inputs, labels, h⟩ := parties_of_reaches hrun
  obtain ⟨m, hm, hbooks⟩ := h.books
  refine ⟨⟨m, hm, fun b entry ht => (h.tracked hm ht).imp_right fun hleaving => ⟨?_, hleaving⟩⟩, ?_⟩
  · exact (h.acks_inv.complete_mem_iff b).2 (.inr (leaving_eq_some.1 hleaving))
  · have hsize := AList.length_entries_le (m := w.receiver.control.shared.blocks)
      (s := m.blockStates.keysWhere BlockSlot.isOpened
        ∪ (leaving w.receiver.control.ack).toFinset) fun b entry ht => by
        rw [Finset.mem_union, AList.mem_keysWhere, Option.mem_toFinset, Option.mem_def]
        exact (h.tracked hm ht).imp_left fun ⟨slot, hl⟩ => ⟨_, hl, rfl⟩
    have hopen : (m.blockStates.keysWhere BlockSlot.isOpened).card ≤ pipelineDepth := by
      rw [AList.card_keysWhere, ← hbooks.openSlots]
      exact hbooks.openSlots_le
    have hleaving : (leaving w.receiver.control.ack).toFinset.card ≤ 1 := by
      cases leaving w.receiver.control.ack <;> simp
    calc w.receiver.control.shared.blocks.entries.length
        ≤ _ := hsize
      _ ≤ _ := Finset.card_union_le _ _
      _ ≤ pipelineDepth + 1 := Nat.add_le_add hopen hleaving

/-- The sender has handled the `Complete` of a block that the receiver has yet to remove. -/
theorem tracked_within_window_leaving :
    ∃ ls w, (transfer threeBytes.setup threeBytes.upload).Reaches ls w ∧
      (w.sender.manager?.map Manager.completed = some 1 ∧
        (w.receiver.control.shared.blocks.lookup 0).isSome = true) ∧
      w.receiver.control.shared.blocks.entries.length ≤ 5 := by
  obtain ⟨w, hw, hleaving⟩ := Lts.exists_exec
    (transfer threeBytes.setup threeBytes.upload)
    (threeBytesSent ++ ([.receiver .udpLoop, .deliver threeBytesPacket.packet] : List Label) ++
      ([.udpSend, .workerRecv 0, .workerMark 0, .tick (fromMillis 100), .ack (.poll [0]),
        .ack .next, .ack .write] : List Receiver.Label).map .receiver ++
      ([.sender .drain, .ackRelay, .sender (.event (.ack (.complete 0)))] : List Label))
    (fun w => w.sender.manager?.map Manager.completed = some 1 ∧
      (w.receiver.control.shared.blocks.lookup 0).isSome = true) (by decide +kernel)
  have hrun := Lts.reaches_of_exec hw
  exact ⟨_, w, hrun, hleaving, (tracked_within_window hrun).2⟩

end SecureTransfer.Transfer
