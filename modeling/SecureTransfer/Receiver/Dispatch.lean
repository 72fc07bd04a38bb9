import SecureTransfer.Lib.PrefixCode
import SecureTransfer.Lib.Slice
import SecureTransfer.Receiver.System

set_option autoImplicit false

/-! # The grammar of the datagrams

`receiver_thread` cuts a datagram up by index: the tag, the body behind it, the fields at their
offsets, and a payload as long as the header declares. `dispatch` and the two `decodeChecked` are
this code with every access and every addition checked. None of them panics, whatever the length
and the declared size, and what they return is what the decoders of the model return; so a datagram
carries a data packet, or a `BlockEnd`, exactly when it starts with its encoding. -/

namespace SecureTransfer

open BigEndian

/-- The width of `usize`. -/
def usizeBits : ℕ := 64

/-! ## The code with its accesses -/

/-- `u16::from_be_bytes`. -/
def u16FromBeBytes (bytes : { bs : Bytes // bs.length = 2 }) : UInt16 :=
  UInt16.ofNat (ofBe bytes.1)

/-- `u32::from_be_bytes`. -/
def u32FromBeBytes (bytes : { bs : Bytes // bs.length = 4 }) : UInt32 :=
  UInt32.ofNat (ofBe bytes.1)

/-- `u64::from_be_bytes`. -/
def u64FromBeBytes (bytes : { bs : Bytes // bs.length = 8 }) : UInt64 :=
  UInt64.ofNat (ofBe bytes.1)

/-- `DataPacket::decode` with its accesses. -/
def DataPacket.decodeChecked (body : Bytes) : Checked DecodedDataPacket := do
  if body.length < DataPacket.fixed then failure
  let blockId := u32FromBeBytes (← Slice.array 4 body 0 4)
  let packetInBlock := u16FromBeBytes (← Slice.array 2 body 4 6)
  let encryptedSize := (u32FromBeBytes (← Slice.array 4 body 6 10)).toNat
  let hash := u64FromBeBytes (← Slice.array 8 body 10 18)
  if body.length < (← checkedAdd usizeBits DataPacket.fixed encryptedSize) then failure
  let payload ←
    Slice.range body DataPacket.fixed (← checkedAdd usizeBits DataPacket.fixed encryptedSize)
  pure { blockId, packetInBlock, hash, payload }

/-- `BlockEndPacket::decode` with its accesses. -/
def BlockEndPacket.decodeChecked (body : Bytes) : Checked (UInt32 × UInt32) := do
  if body.length < 8 then failure
  let blockId := u32FromBeBytes (← Slice.array 4 body 0 4)
  let totalPackets := u32FromBeBytes (← Slice.array 4 body 4 8)
  pure (blockId, totalPackets)

namespace Receiver

/-- What `receiver_thread` makes of the `size` bytes that `recv_from` has put at the front of
    `buffer`; behind them may be what is left of longer datagrams. -/
def dispatch (buffer : Bytes) (size : ℕ) : Except Fault Incoming := do
  if size < 1 then return .ignored
  let tag ← Slice.get buffer 0
  let body ← Slice.range buffer 1 size
  if tag = tagData then
    match ← (DataPacket.decodeChecked body).run with
    | none => return .ignored
    | some pkt => return .data pkt
  else if tag = tagBlockEnd then
    match ← (BlockEndPacket.decodeChecked body).run with
    | none => return .ignored
    | some (blockId, totalPackets) => return .blockEnd blockId totalPackets
  else return .ignored

end Receiver

/-! ## No access is out of bounds -/

/-- The header with the declared payload is far from the end of `usize`. -/
theorem checkedAdd_fixed (size : UInt32) :
    checkedAdd usizeBits DataPacket.fixed size.toNat = .ok (DataPacket.fixed + size.toNat) := by
  have hsize : size.toNat < 2 ^ 32 := size.toNat_lt
  refine checkedAdd_of_lt ?_
  simp only [usizeBits, DataPacket.fixed]
  omega

/-- A payload is cut out of the body only where there is one. -/
theorem DataPacket.decodeChecked_run (body : Bytes) :
    (DataPacket.decodeChecked body).run = .ok (DataPacket.decode body) := by
  by_cases hshort : body.length < DataPacket.fixed
  · rw [DataPacket.decodeChecked, Checked.run_ite_failure, if_pos hshort, DataPacket.decode,
      if_pos hshort]
  · have hheader : 18 ≤ body.length := Nat.not_lt.1 hshort
    obtain ⟨_, hblockId⟩ := Slice.array_of_le 4 body 0 4 rfl (by omega)
    obtain ⟨_, hpacket⟩ := Slice.array_of_le 2 body 4 6 rfl (by omega)
    obtain ⟨hlen, hsize⟩ := Slice.array_of_le 4 body 6 10 rfl (by omega)
    obtain ⟨_, hhash⟩ := Slice.array_of_le 8 body 10 18 rfl hheader
    rw [DataPacket.decodeChecked, Checked.run_ite_failure, if_neg hshort, DataPacket.decode,
      if_neg hshort]
    simp only [hblockId, hpacket, hsize, hhash, pure_bind, checkedAdd_fixed, Checked.lift_ok,
      Checked.run_ite_failure]
    by_cases hpayload : body.length
        < DataPacket.fixed + (u32FromBeBytes ⟨body.extract 6 10, hlen⟩).toNat
    · rw [if_pos hpayload]
      exact congrArg Except.ok (if_pos hpayload).symm
    · rw [if_neg hpayload, Slice.range_of_le (Nat.le_add_right _ _) (Nat.not_lt.1 hpayload)]
      exact congrArg Except.ok (if_neg hpayload).symm

theorem BlockEndPacket.decodeChecked_run (body : Bytes) :
    (BlockEndPacket.decodeChecked body).run = .ok (BlockEndPacket.decode body) := by
  by_cases hshort : body.length < 8
  · rw [BlockEndPacket.decodeChecked, Checked.run_ite_failure, if_pos hshort,
      BlockEndPacket.decode, if_pos hshort]
  · obtain ⟨_, hblockId⟩ := Slice.array_of_le 4 body 0 4 rfl (by omega)
    obtain ⟨_, htotal⟩ := Slice.array_of_le 4 body 4 8 rfl (Nat.not_lt.1 hshort)
    rw [BlockEndPacket.decodeChecked, Checked.run_ite_failure, if_neg hshort,
      BlockEndPacket.decode, if_neg hshort]
    simp only [hblockId, htotal, pure_bind]
    rfl

namespace Receiver

/-- The dispatch never panics; it returns what the model takes the datagram for, whatever the
    buffer holds behind it. -/
theorem dispatch_eq (d stale : Bytes) :
    dispatch (d ++ stale) d.length = .ok (Incoming.ofDatagram d) := by
  cases d with
  | nil => rfl
  | cons tag body =>
      have htag : Slice.get (tag :: body ++ stale) 0 = .ok tag :=
        Slice.get_cons_zero tag (body ++ stale)
      have hbody := Slice.range_tail tag body stale
      have hsize : ¬ (tag :: body).length < 1 := by simp
      simp only [dispatch, if_neg hsize, htag, hbody, Fault.ok_bind, DataPacket.decodeChecked_run,
        BlockEndPacket.decodeChecked_run, Incoming.ofDatagram]
      by_cases hdata : tag = tagData
      · rw [if_pos hdata, if_pos hdata]
        cases DataPacket.decode body <;> rfl
      · rw [if_neg hdata, if_neg hdata]
        by_cases hend : tag = tagBlockEnd
        · rw [if_pos hend, if_pos hend]
          cases BlockEndPacket.decode body <;> rfl
        · rw [if_neg hend, if_neg hend]
          rfl

/-! ## What a datagram carries -/

/-- A data packet, or the block and the number of packets of a `BlockEnd`. -/
abbrev Carried := DecodedDataPacket ⊕ (UInt32 × UInt32)

def Carried.encode : Carried → Datagram :=
  Sum.elim (fun p => DataPacket.encode p.blockId p.packetInBlock p.hash p.payload)
    fun e => BlockEndPacket.encode e.1 e.2

/-- The length of the payload survives its cast to `u32`. -/
def Carried.Fits : Carried → Prop :=
  Sum.elim (fun p => p.payload.length < 2 ^ 32) fun _ => True

def Carried.incoming : Carried → Incoming :=
  Sum.elim .data fun e => .blockEnd e.1 e.2

theorem prefixCode_dataPacket :
    PrefixCode (fun p : DecodedDataPacket => p.payload.length < 2 ^ 32)
      (fun p => (DataPacket.encode p.blockId p.packetInBlock p.hash p.payload).tail)
      DataPacket.decode := by
  intro body p
  rw [DataPacket.decode_eq_some_iff, DataPacket.encode, List.cons_prefix_cons, and_iff_right rfl]
  rfl

theorem prefixCode_blockEnd :
    PrefixCode (fun _ : UInt32 × UInt32 => True) (fun e => (BlockEndPacket.encode e.1 e.2).tail)
      BlockEndPacket.decode := by
  rintro body ⟨blockId, totalPackets⟩
  rw [BlockEndPacket.decode_eq_some_iff, BlockEndPacket.encode, List.cons_prefix_cons,
    and_iff_right rfl]
  exact (and_iff_right trivial).symm

def carried? : Datagram → Option Carried :=
  PrefixCode.decodeTagged tagData DataPacket.decode tagBlockEnd BlockEndPacket.decode

/-- The two kinds of datagrams, told apart by their tag. -/
theorem prefixCode_carried : PrefixCode Carried.Fits Carried.encode carried? :=
  .tagged (by decide) prefixCode_dataPacket prefixCode_blockEnd

theorem ofDatagram_eq (d : Datagram) :
    Incoming.ofDatagram d = (carried? d).elim .ignored Carried.incoming := by
  cases d with
  | nil => rfl
  | cons tag body =>
      rw [carried?, PrefixCode.decodeTagged, Incoming.ofDatagram]
      split
      · cases DataPacket.decode body <;> rfl
      · split
        · cases BlockEndPacket.decode body <;> rfl
        · rfl

theorem ofDatagram_eq_incoming_iff {d : Datagram} (v : Carried) :
    Incoming.ofDatagram d = v.incoming ↔ v.Fits ∧ v.encode <+: d := by
  rw [← prefixCode_carried d v, ofDatagram_eq]
  cases carried? d with
  | none => rcases v with p | e <;> simp [Carried.incoming]
  | some w => rcases v with p | e <;> rcases w with q | f <;> simp [Carried.incoming, Prod.ext_iff]

theorem ofDatagram_eq_ignored_iff {d : Datagram} :
    Incoming.ofDatagram d = .ignored ↔ ∀ v : Carried, v.Fits → ¬ v.encode <+: d := by
  rw [← prefixCode_carried.decode_eq_none_iff, ofDatagram_eq]
  cases carried? d with
  | none => simp
  | some v => rcases v with p | e <;> simp [Carried.incoming]

/-- **Datagram grammar.** Every datagram is dispatched without a panic, as the value whose encoding it
    starts with; there is at most one, without one it is dropped, and what was encoded comes out. -/
theorem datagram_grammar (d stale : Bytes) :
    (∀ p, dispatch (d ++ stale) d.length = .ok (.data p) ↔ p.payload.length < 2 ^ 32 ∧
      DataPacket.encode p.blockId p.packetInBlock p.hash p.payload <+: d) ∧
    (∀ b t, dispatch (d ++ stale) d.length = .ok (.blockEnd b t) ↔
      BlockEndPacket.encode b t <+: d) ∧
    (dispatch (d ++ stale) d.length = .ok .ignored ↔
      ∀ v : Carried, v.Fits → ¬ v.encode <+: d) ∧
    (∀ v w : Carried, v.Fits → w.Fits → v.encode <+: d → w.encode <+: d → v = w) ∧
    (∀ v : Carried, v.Fits → dispatch (v.encode ++ stale) v.encode.length = .ok v.incoming) ∧
    dispatch (d ++ stale) d.length = .ok (Incoming.ofDatagram d) := by
  simp only [dispatch_eq, Except.ok.injEq]
  refine ⟨fun p => ofDatagram_eq_incoming_iff (.inl p), fun b t => ?_, ofDatagram_eq_ignored_iff,
    fun v w => prefixCode_carried.unique, fun v hfits => ?_, trivial⟩
  · exact (ofDatagram_eq_incoming_iff (.inr (b, t))).trans (and_iff_right trivial)
  · rw [ofDatagram_eq, prefixCode_carried.decode_encode hfits, Option.elim_some]

/-- A payload cut short is not completed from what an earlier datagram has left in the buffer. -/
example : dispatch (tagData :: (DataPacket.header 0 0 2 7 ++ [9] ++ [9, 9])) 20 = .ok .ignored := by
  decide

end Receiver

end SecureTransfer
