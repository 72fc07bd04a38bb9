import SecureTransfer.Sender.OutputTrace

set_option autoImplicit false

/-! # What a repair sends

The cache of an `Open` block and the first sends of the block say the same: the index of a packet is
filled if and only if `place_chunk` has sent it, and with the bytes it sent. So the `Missing` arm
repeats first sends and sends nothing else. -/

namespace SecureTransfer.Sender

variable {totalChunks : UInt32} {pipelineDepth : ℕ} {H : Set EncryptedChunk} {m : Manager}
  {sends : List Datagram} {b : UInt32} {entry : BlockState} {id : UInt16} {d : Datagram}

/-- What the cache has for packet `id`. -/
def BlockState.cachedPacket (entry : BlockState) (id : UInt16) : Option Bytes :=
  (entry.packets[id.toNat]?).join

/-- The chunk of packet `id` has been placed. -/
def BlockState.hasPlaced (entry : BlockState) (id : UInt16) : Bool :=
  (entry.cachedPacket id).isSome

/-- `d` is the datagram with which `place_chunk` sent packet `id` of the block. -/
structure FirstSend (sends : List Datagram) (b : UInt32) (id : UInt16) (d : Datagram) : Prop where
  sent : d ∈ sends
  data : DataFor b id d
  only : ∀ d' ∈ sends, DataFor b id d' → d' = d

theorem BlockState.cachedPacket_eq_some :
    entry.cachedPacket id = some d ↔ entry.packets[id.toNat]? = some (some d) := by
  rw [cachedPacket, Option.join_eq_some_iff]

/-! ## The cache and the first sends -/

/-- What is cached is what was sent first. -/
theorem FirstSends.cachedPacket_iff (h : FirstSends totalChunks m sends)
    (hbooks : Bookkeeping totalChunks pipelineDepth H m) (hpackets : ∀ c ∈ H, IsPacket c)
    (hl : m.blockStates.lookup b = some (.opened entry)) :
    entry.cachedPacket id = some d ↔ FirstSend sends b id d := by
  have hentry : EntryOk totalChunks H b entry := hbooks.slots _ _ hl
  rw [BlockState.cachedPacket_eq_some]
  constructor
  · intro hcached
    have hsent := h.cached b entry hl _ d hcached
    obtain ⟨c, hc, rfl, hindex, rfl⟩ := hentry.cached _ d hcached
    have hdata : DataFor (EncryptedChunk.block c) id c.packet :=
      UInt16.toNat_inj.1 hindex ▸ hpackets c hc
    refine ⟨hsent, hdata, fun d' hd' hfor => ?_⟩
    obtain ⟨c', hc', rfl, hpos⟩ := hbooks.exists_of_dataFor hpackets (h.sub hd') hfor
    have hid : c'.chunkId = c.chunkId :=
      blockOf_injective (hpos.trans (Prod.ext rfl (UInt16.toNat_inj.1 hindex).symm))
    rw [hbooks.chunks.distinct c' hc' c hc hid]
  · rintro ⟨hsent, hdata, -⟩
    obtain ⟨c, hc, rfl, hpos⟩ := hbooks.exists_of_dataFor hpackets (h.sub hsent) hdata
    obtain ⟨slot, hslot, hholds⟩ := hbooks.placed c hc
    rw [EncryptedChunk.block, hpos, hl, Option.some.injEq] at hslot
    subst hslot
    rwa [BlockSlot.Holds, EncryptedChunk.index, hpos] at hholds

/-- Once the `BlockEnd` is out, every chunk of the block has been placed. -/
theorem EntryOk.hasPlaced (h : EntryOk totalChunks H b entry) (hended : entry.endEmitted = true)
    (hid : id.toNat < packetsInBlock b totalChunks) : entry.hasPlaced id = true := by
  rw [← h.total, ← h.length] at hid
  have hsome := h.isSome_of_ended hended _ (List.getElem_mem hid)
  obtain ⟨packet, hpacket⟩ := Option.isSome_iff_exists.1 hsome
  have hcached : entry.cachedPacket id = some packet :=
    BlockState.cachedPacket_eq_some.2 (by rw [List.getElem?_eq_getElem hid, hpacket])
  rw [BlockState.hasPlaced, hcached]
  rfl

/-! ## The `Missing` arm -/

theorem forall₂_filterMap {α β : Type*} {f : α → Option β} {R : α → β → Prop} {xs : List α}
    (h : ∀ x ∈ xs, ∀ y, f x = some y → R x y) :
    List.Forall₂ R (xs.filter fun x => (f x).isSome) (xs.filterMap f) := by
  induction xs with
  | nil => exact .nil
  | cons x xs ih =>
      have hrest := ih fun x' hx' => h x' (List.mem_cons_of_mem _ hx')
      cases hx : f x with
      | none => simpa [List.filter_cons, List.filterMap_cons, hx] using hrest
      | some y =>
          have hy := h x List.mem_cons_self y hx
          simpa [List.filter_cons, List.filterMap_cons, hx] using ⟨hy, hrest⟩

/-- The manager attempts, in the order of the list, exactly the first sends of the packets listed
    whose chunks it has placed. -/
theorem handleMissing_repairs (h : FirstSends totalChunks m sends)
    (hbooks : Bookkeeping totalChunks pipelineDepth H m) (hpackets : ∀ c ∈ H, IsPacket c)
    (hl : m.blockStates.lookup b = some (.opened entry)) (ids : List UInt16) :
    ∃ out, (handleMissing b ids m).udp = m.udp ++ out ∧
      List.Forall₂ (FirstSend sends b) (ids.filter entry.hasPlaced) out := by
  refine ⟨ids.filterMap entry.cachedPacket, ?_, ?_⟩
  · rw [handleMissing, hl]
    rfl
  · exact forall₂_filterMap fun id _ d hid => (h.cachedPacket_iff hbooks hpackets hl).1 hid

end SecureTransfer.Sender
