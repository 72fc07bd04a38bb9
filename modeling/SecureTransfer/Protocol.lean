import SecureTransfer.Config
import SecureTransfer.Lib.BigEndian

set_option autoImplicit false

/-! # Wire formats (`protocol.rs`)

UDP datagrams start with a tag byte: `tagData` for a `DataPacket`, `tagBlockEnd` for a
`BlockEndPacket`. The decoders work on the body, the tag already stripped, and return `none` on
anything truncated; bytes behind the declared payload are ignored, which is why
`DataPacket.decode_eq_some_iff` speaks of a prefix. `BlockAck` is the message of the TCP control
stream. -/

namespace SecureTransfer

open BigEndian

def tagData : UInt8 := 0x01

def tagBlockEnd : UInt8 := 0x02

/-! ## Data packets -/

structure DecodedDataPacket where
  blockId : UInt32
  packetInBlock : UInt16
  hash : UInt64
  payload : Bytes
deriving DecidableEq

/-- Header of a data packet without its tag: block id, packet in block, payload size, hash. -/
def DataPacket.header (blockId : UInt32) (packetInBlock : UInt16) (size : UInt32) (hash : UInt64) :
    Bytes :=
  toBe 4 blockId.toNat ++ (toBe 2 packetInBlock.toNat ++ (toBe 4 size.toNat ++ toBe 8 hash.toNat))

/-- Length of `DataPacket.header` (`FIXED` in the source). -/
def DataPacket.fixed : ℕ := 4 + 2 + 4 + 8

/-- A full datagram, tag byte included. -/
def DataPacket.encode (blockId : UInt32) (packetInBlock : UInt16) (hash : UInt64)
    (payload : Bytes) : Datagram :=
  tagData ::
    (DataPacket.header blockId packetInBlock (UInt32.ofNat payload.length) hash ++ payload)

def DataPacket.decode (body : Bytes) : Option DecodedDataPacket :=
  if body.length < DataPacket.fixed then none
  else
    let blockId := UInt32.ofNat (ofBe (body.extract 0 4))
    let packetInBlock := UInt16.ofNat (ofBe (body.extract 4 6))
    let encryptedSize := (UInt32.ofNat (ofBe (body.extract 6 10))).toNat
    let hash := UInt64.ofNat (ofBe (body.extract 10 18))
    if body.length < DataPacket.fixed + encryptedSize then none
    else some
      { blockId, packetInBlock, hash,
        payload := body.extract DataPacket.fixed (DataPacket.fixed + encryptedSize) }

/-! ## BlockEnd packets -/

def BlockEndPacket.encode (blockId totalPackets : UInt32) : Datagram :=
  tagBlockEnd :: (toBe 4 blockId.toNat ++ toBe 4 totalPackets.toNat)

def BlockEndPacket.decode (body : Bytes) : Option (UInt32 × UInt32) :=
  if body.length < 8 then none
  else some (UInt32.ofNat (ofBe (body.extract 0 4)), UInt32.ofNat (ofBe (body.extract 4 8)))

/-! ## Control messages -/

/-- TCP control message, receiver to sender, scoped to one block. -/
inductive BlockAck
  | missing (blockId : UInt32) (missing : List UInt16)
  | complete (blockId : UInt32)
deriving DecidableEq

/-- The block an ack is about. -/
def BlockAck.blockId : BlockAck → UInt32
  | .missing blockId _ => blockId
  | .complete blockId => blockId

/-! ## Codec laws -/

private theorem ofNat_ofBe_toBe32 (x : UInt32) : UInt32.ofNat (ofBe (toBe 4 x.toNat)) = x := by
  rw [ofBe_toBe_of_lt x.toNat_lt, UInt32.ofNat_toNat]

@[simp] theorem DataPacket.length_header (blockId : UInt32) (packetInBlock : UInt16)
    (size : UInt32) (hash : UInt64) :
    (DataPacket.header blockId packetInBlock size hash).length = DataPacket.fixed := by
  simp [DataPacket.header, DataPacket.fixed]

/-- Decoding a body whose header fields are known. -/
theorem DataPacket.decode_header (blockId : UInt32) (packetInBlock : UInt16) (size : UInt32)
    (hash : UInt64) (tail : Bytes) :
    DataPacket.decode (DataPacket.header blockId packetInBlock size hash ++ tail)
      = if tail.length < size.toNat then none
        else some ⟨blockId, packetInBlock, hash, tail.take size.toNat⟩ := by
  have h1 : (DataPacket.header blockId packetInBlock size hash ++ tail).extract 0 4
      = toBe 4 blockId.toNat := by
    simp [DataPacket.header]
  have h2 : (DataPacket.header blockId packetInBlock size hash ++ tail).extract 4 6
      = toBe 2 packetInBlock.toNat := by
    simp [DataPacket.header]
  have h3 : (DataPacket.header blockId packetInBlock size hash ++ tail).extract 6 10
      = toBe 4 size.toNat := by
    simp [DataPacket.header, List.drop_append, List.take_append]
  have h4 : (DataPacket.header blockId packetInBlock size hash ++ tail).extract 10 18
      = toBe 8 hash.toNat := by
    simp [DataPacket.header, List.drop_append, List.drop_eq_nil_of_le]
  have h5 : (DataPacket.header blockId packetInBlock size hash ++ tail).extract
      DataPacket.fixed (DataPacket.fixed + size.toNat) = tail.take size.toNat := by
    rw [List.extract_eq_take_drop, Nat.add_sub_cancel_left,
      List.drop_left' (DataPacket.length_header ..)]
  have hpacket : UInt16.ofNat (ofBe (toBe 2 packetInBlock.toNat)) = packetInBlock := by
    rw [ofBe_toBe_of_lt packetInBlock.toNat_lt, UInt16.ofNat_toNat]
  have hhash : UInt64.ofNat (ofBe (toBe 8 hash.toNat)) = hash := by
    rw [ofBe_toBe_of_lt hash.toNat_lt, UInt64.ofNat_toNat]
  have hlen : ¬ (DataPacket.header blockId packetInBlock size hash ++ tail).length
      < DataPacket.fixed := by
    simp
  rw [DataPacket.decode, if_neg hlen]
  simp only [h1, h2, h3, h4, ofNat_ofBe_toBe32, h5, hpacket, hhash, List.length_append,
    DataPacket.length_header, Nat.add_lt_add_iff_left]

/-- A body too short for the header, or the header followed by some tail. -/
theorem DataPacket.body_cases (body : Bytes) :
    body.length < DataPacket.fixed ∨ ∃ blockId packetInBlock size hash tail,
      body = DataPacket.header blockId packetInBlock size hash ++ tail := by
  by_cases hlen : body.length < DataPacket.fixed
  · exact .inl hlen
  · right
    simp only [DataPacket.fixed, not_lt] at hlen
    have hlen₀ : 4 ≤ body.length := by omega
    obtain ⟨b, hb, r₁, rfl, hr₁⟩ := exists_toBe_append hlen₀
    have hlen₁ : 2 ≤ r₁.length := by omega
    obtain ⟨p, hp, r₂, rfl, hr₂⟩ := exists_toBe_append hlen₁
    have hlen₂ : 4 ≤ r₂.length := by omega
    obtain ⟨s, hs, r₃, rfl, hr₃⟩ := exists_toBe_append hlen₂
    have hlen₃ : 8 ≤ r₃.length := by omega
    obtain ⟨h, hh, r₄, rfl, hr₄⟩ := exists_toBe_append hlen₃
    refine ⟨UInt32.ofNat b, UInt16.ofNat p, UInt32.ofNat s, UInt64.ofNat h, r₄, ?_⟩
    rw [DataPacket.header, UInt32.toNat_ofNat_of_lt' hb, UInt16.toNat_ofNat_of_lt' hp,
      UInt32.toNat_ofNat_of_lt' hs, UInt64.toNat_ofNat_of_lt' hh]
    simp only [List.append_assoc]

/-- **Data packet grammar.** A body decodes to `p` iff it starts with the encoding of `p`. -/
theorem DataPacket.decode_eq_some_iff {body : Bytes} {p : DecodedDataPacket} :
    DataPacket.decode body = some p ↔ p.payload.length < 2 ^ 32 ∧
      DataPacket.encode p.blockId p.packetInBlock p.hash p.payload <+: tagData :: body := by
  have hcons : ∀ b : Bytes, DataPacket.encode p.blockId p.packetInBlock p.hash p.payload
      <+: tagData :: b ↔ DataPacket.header p.blockId p.packetInBlock
        (UInt32.ofNat p.payload.length) p.hash ++ p.payload <+: b := fun b => by
    rw [DataPacket.encode, List.cons_prefix_cons]
    exact and_iff_right rfl
  rw [hcons]
  constructor
  · intro hdec
    rcases DataPacket.body_cases body with hshort | ⟨blockId, packetInBlock, size, hash, tail, rfl⟩
    · simp [DataPacket.decode, hshort] at hdec
    · rw [DataPacket.decode_header] at hdec
      split at hdec
      · simp at hdec
      · next hfit =>
          simp only [Option.some.injEq] at hdec
          subst hdec
          have hlen : (tail.take size.toNat).length = size.toNat := by simp; omega
          refine ⟨by rw [hlen]; exact size.toNat_lt, ?_⟩
          rw [hlen, UInt32.ofNat_toNat]
          exact (List.prefix_append_right_inj _).2 (List.take_prefix _ _)
  · rintro ⟨hlt, rest, hrest⟩
    have hsize : (UInt32.ofNat p.payload.length).toNat = p.payload.length :=
      UInt32.toNat_ofNat_of_lt' hlt
    rw [← hrest, List.append_assoc, DataPacket.decode_header, hsize, if_neg (by simp)]
    simp

/-- Every encoding with a payload below `2^32` bytes decodes to what was encoded. -/
theorem DataPacket.decode_encode (blockId : UInt32) (packetInBlock : UInt16) (hash : UInt64)
    {payload : Bytes} (h : payload.length < 2 ^ 32) :
    DataPacket.decode (DataPacket.encode blockId packetInBlock hash payload).tail
      = some ⟨blockId, packetInBlock, hash, payload⟩ :=
  DataPacket.decode_eq_some_iff.2 ⟨h, List.prefix_refl _⟩

/-- Decoding a body whose fields are known. -/
theorem BlockEndPacket.decode_fields (blockId totalPackets : UInt32) (tail : Bytes) :
    BlockEndPacket.decode (toBe 4 blockId.toNat ++ (toBe 4 totalPackets.toNat ++ tail))
      = some (blockId, totalPackets) := by
  have h1 : (toBe 4 blockId.toNat ++ (toBe 4 totalPackets.toNat ++ tail)).extract 0 4
      = toBe 4 blockId.toNat := by simp
  have h2 : (toBe 4 blockId.toNat ++ (toBe 4 totalPackets.toNat ++ tail)).extract 4 8
      = toBe 4 totalPackets.toNat := by simp
  rw [BlockEndPacket.decode, if_neg (by simp; omega), h1, h2, ofNat_ofBe_toBe32, ofNat_ofBe_toBe32]

/-- **BlockEnd grammar.** A body decodes to a block and its size iff it starts with their encoding. -/
theorem BlockEndPacket.decode_eq_some_iff {body : Bytes} {blockId totalPackets : UInt32} :
    BlockEndPacket.decode body = some (blockId, totalPackets)
      ↔ BlockEndPacket.encode blockId totalPackets <+: tagBlockEnd :: body := by
  rw [BlockEndPacket.encode, List.cons_prefix_cons, and_iff_right rfl]
  constructor
  · intro hdec
    by_cases hlen : body.length < 8
    · rw [BlockEndPacket.decode, if_pos hlen] at hdec
      cases hdec
    · have hlen₀ : 4 ≤ body.length := by omega
      obtain ⟨b, hb, r₁, rfl, hr₁⟩ := exists_toBe_append hlen₀
      have hlen₁ : 4 ≤ r₁.length := by omega
      obtain ⟨n, hn, r₂, rfl, -⟩ := exists_toBe_append hlen₁
      have hfields := BlockEndPacket.decode_fields (UInt32.ofNat b) (UInt32.ofNat n) r₂
      rw [UInt32.toNat_ofNat_of_lt' hb, UInt32.toNat_ofNat_of_lt' hn, hdec] at hfields
      cases hfields
      rw [UInt32.toNat_ofNat_of_lt' hb, UInt32.toNat_ofNat_of_lt' hn, ← List.append_assoc]
      exact List.prefix_append _ _
  · rintro ⟨tail, rfl⟩
    rw [List.append_assoc]
    exact BlockEndPacket.decode_fields _ _ tail

@[simp] theorem BlockEndPacket.decode_encode (blockId totalPackets : UInt32) :
    BlockEndPacket.decode (BlockEndPacket.encode blockId totalPackets).tail
      = some (blockId, totalPackets) :=
  BlockEndPacket.decode_eq_some_iff.2 (List.prefix_refl _)

theorem BlockEndPacket.encode_inj {b b' n n' : UInt32}
    (h : BlockEndPacket.encode b n = BlockEndPacket.encode b' n') : b = b' ∧ n = n' := by
  have hdec := congrArg (fun d => BlockEndPacket.decode d.tail) h
  simpa only [BlockEndPacket.decode_encode, Option.some.injEq, Prod.mk.injEq] using hdec

/-! ## What a datagram is about -/

/-- A data packet with this header. -/
def DataFor (b : UInt32) (i : UInt16) (d : Datagram) : Prop :=
  ∃ hash payload, d = DataPacket.encode b i hash payload

/-- A `BlockEnd` of this block. -/
def EndFor (b : UInt32) (d : Datagram) : Prop :=
  ∃ n, d = BlockEndPacket.encode b n

def ForBlock (b : UInt32) (d : Datagram) : Prop :=
  (∃ i, DataFor b i d) ∨ EndFor b d

/-- Whatever its payload, a data packet starts with its block and its position. -/
theorem DataFor.inj {b b' : UInt32} {i i' : UInt16} {d : Datagram} (h : DataFor b i d)
    (h' : DataFor b' i' d) : b = b' ∧ i = i' := by
  obtain ⟨hash, payload, rfl⟩ := h
  obtain ⟨hash', payload', heq⟩ := h'
  simp only [DataPacket.encode, DataPacket.header, List.append_assoc, List.cons.injEq,
    true_and] at heq
  obtain ⟨hb, hrest⟩ := List.append_inj heq (by simp)
  obtain ⟨hi, -⟩ := List.append_inj hrest (by simp)
  have hblock := congrArg ofBe hb
  have hindex := congrArg ofBe hi
  rw [ofBe_toBe_of_lt b.toNat_lt, ofBe_toBe_of_lt b'.toNat_lt] at hblock
  rw [ofBe_toBe_of_lt i.toNat_lt, ofBe_toBe_of_lt i'.toNat_lt] at hindex
  exact ⟨UInt32.toNat_inj.1 hblock, UInt16.toNat_inj.1 hindex⟩

theorem DataFor.not_endFor {b b' : UInt32} {i : UInt16} {d : Datagram} (h : DataFor b i d) :
    ¬ EndFor b' d := by
  obtain ⟨hash, payload, rfl⟩ := h
  rintro ⟨n, heq⟩
  rw [DataPacket.encode, BlockEndPacket.encode, List.cons.injEq] at heq
  exact absurd heq.1 (by decide)

theorem EndFor.inj {b b' : UInt32} {d : Datagram} (h : EndFor b d) (h' : EndFor b' d) : b = b' := by
  obtain ⟨n, rfl⟩ := h
  obtain ⟨n', heq⟩ := h'
  exact (BlockEndPacket.encode_inj heq).1

theorem ForBlock.inj {b b' : UInt32} {d : Datagram} (h : ForBlock b d) (h' : ForBlock b' d) :
    b = b' := by
  rcases h with ⟨i, hdata⟩ | hend
  · rcases h' with ⟨i', hdata'⟩ | hend'
    · exact (hdata.inj hdata').1
    · exact absurd hend' hdata.not_endFor
  · rcases h' with ⟨i', hdata'⟩ | hend'
    · exact absurd hend hdata'.not_endFor
    · exact hend.inj hend'

end SecureTransfer
