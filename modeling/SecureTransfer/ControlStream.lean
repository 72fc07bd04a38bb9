import SecureTransfer.Lib.StreamCodec
import SecureTransfer.Protocol

set_option autoImplicit false

/-! # The control stream (`BlockAck::write_to`, `BlockAck::read_from`, `ack_relay`)

Acks follow one another on a TCP stream without delimiters; a list of ids is preceded by its length.
A stream is the list of the bytes up to its end, and a read past the end is `unexpectedEof`. The
sender's relay reads acks until the first error. -/

namespace SecureTransfer

open BigEndian Reader

def ctrlBlockAck : UInt8 := 0xB1

def ctrlBlockComplete : UInt8 := 0xB2

/-- The `io::Error`s of `read_from`. -/
inductive IoError
  | unexpectedEof
  | invalidData (message : String)
deriving DecidableEq

abbrev StreamReader := Reader IoError UInt8

/-- `{:#x}` of a byte. -/
def hexAlternate (b : UInt8) : String :=
  "0x" ++ String.ofList (Nat.toDigits 16 b.toNat)

/-- The bytes an ack is written as; the length of the list is cast to `u32`. -/
def BlockAck.writeTo : BlockAck → Bytes
  | .complete blockId => [ctrlBlockComplete] ++ toBe 4 blockId.toNat
  | .missing blockId ids =>
    [ctrlBlockAck] ++ (toBe 4 blockId.toNat ++ (toBe 4 (UInt32.ofNat ids.length).toNat ++
      ids.flatMap fun id => toBe 2 id.toNat))

def readU8 : StreamReader UInt8 := do
  let buf ← readExact .unexpectedEof 1
  pure (buf.headD 0)

def readU16 : StreamReader UInt16 := do
  let buf ← readExact .unexpectedEof 2
  pure (UInt16.ofNat (ofBe buf))

def readU32 : StreamReader UInt32 := do
  let buf ← readExact .unexpectedEof 4
  pure (UInt32.ofNat (ofBe buf))

/-- The tag is looked at only after the block id has been read. -/
def BlockAck.readFrom : StreamReader BlockAck := do
  let tag ← readU8
  let blockId ← readU32
  if tag = ctrlBlockComplete then
    pure (.complete blockId)
  else if tag = ctrlBlockAck then do
    let count ← readU32
    let ids ← Reader.many readU16 count.toNat
    pure (.missing blockId ids)
  else
    throw (.invalidData ("unknown control tag " ++ hexAlternate tag))

/-- The acks the relay forwards. Each takes a byte at least, so there are no more than bytes. -/
def ackRelay (control : Bytes) : List BlockAck :=
  Reader.untilError BlockAck.readFrom (control.length + 1) control

/-! ## Fixed-width fields -/

theorem codec_readU8 : Codec .unexpectedEof (fun _ => True) (fun b => [b]) readU8 := by
  refine Codec.field _ (fun buf => buf.headD 0) (fun _ => rfl) (fun _ => rfl) fun front hlen => ?_
  obtain ⟨b, rfl⟩ := List.length_eq_one_iff.1 hlen
  rfl

theorem codec_readU16 :
    Codec .unexpectedEof (fun _ => True) (fun id : UInt16 => toBe 2 id.toNat) readU16 :=
  .bigEndian UInt16.toNat UInt16.ofNat UInt16.toNat_lt (fun _ => UInt16.ofNat_toNat)
    fun _ hx => UInt16.toNat_ofNat_of_lt' hx

theorem codec_readU32 :
    Codec .unexpectedEof (fun _ => True) (fun x : UInt32 => toBe 4 x.toNat) readU32 :=
  .bigEndian UInt32.toNat UInt32.ofNat UInt32.toNat_lt (fun _ => UInt32.ofNat_toNat)
    fun _ hx => UInt32.toNat_ofNat_of_lt' hx

/-! ## Acks -/

/-- The length of the list survives the cast. -/
def BlockAck.Fits : BlockAck → Prop
  | .missing _ ids => ids.length < 2 ^ 32
  | .complete _ => True

theorem stable_readFrom : Stable .unexpectedEof BlockAck.readFrom := by
  refine .bind codec_readU8.stable fun tag => .bind codec_readU32.stable fun blockId => ?_
  split
  · exact .pure _
  · split
    · exact .bind codec_readU32.stable fun count =>
        .bind (codec_readU16.many _).stable fun ids => .pure _
    · exact .throw _

/-- Reading an ack behind its tag and block id. -/
theorem readFrom_head (tag : UInt8) (blockId : UInt32) (s : Bytes) :
    BlockAck.readFrom ([tag] ++ (toBe 4 blockId.toNat ++ s))
      = (if tag = ctrlBlockComplete then pure (.complete blockId)
        else if tag = ctrlBlockAck then do
          let count ← readU32
          let ids ← Reader.many readU16 count.toNat
          pure (.missing blockId ids)
        else throw (.invalidData ("unknown control tag " ++ hexAlternate tag))
          : StreamReader BlockAck) s := by
  rw [BlockAck.readFrom, bind_of_ok (codec_readU8.read_write trivial _),
    bind_of_ok (codec_readU32.read_write trivial _)]

theorem codec_blockAck :
    Codec .unexpectedEof BlockAck.Fits BlockAck.writeTo BlockAck.readFrom where
  stable := stable_readFrom
  complete := by
    intro ack hfits
    cases ack with
    | complete blockId =>
        have hhead := readFrom_head ctrlBlockComplete blockId []
        rw [List.append_nil, if_pos rfl] at hhead
        exact hhead
    | missing blockId ids =>
        have hlen : (UInt32.ofNat ids.length).toNat = ids.length := UInt32.toNat_ofNat_of_lt' hfits
        have hids := (codec_readU16.many ids.length).complete ids ⟨rfl, fun _ _ => trivial⟩
        rw [BlockAck.writeTo, readFrom_head, if_neg (by decide), if_pos rfl,
          bind_of_ok (codec_readU32.read_write trivial _), hlen, bind_of_ok hids]
        rfl
  sound := by
    intro s ack rest hread
    obtain ⟨tag, s₁, htag, hread⟩ := bind_eq_ok hread
    obtain ⟨blockId, s₂, hblockId, hbody⟩ := bind_eq_ok hread
    obtain ⟨-, rfl⟩ := codec_readU8.sound _ _ _ htag
    obtain ⟨-, rfl⟩ := codec_readU32.sound _ _ _ hblockId
    split at hbody
    · next hcomplete =>
        subst hcomplete
        cases hbody
        exact ⟨trivial, rfl⟩
    · split at hbody
      · next hmissing =>
          subst hmissing
          obtain ⟨count, s₃, hcount, hlist⟩ := bind_eq_ok hbody
          obtain ⟨ids, s₄, hids, hpure⟩ := bind_eq_ok hlist
          cases hpure
          obtain ⟨-, rfl⟩ := codec_readU32.sound _ _ _ hcount
          obtain ⟨⟨hlen, -⟩, rfl⟩ := (codec_readU16.many _).sound _ _ _ hids
          refine ⟨?_, ?_⟩
          · rw [BlockAck.Fits, hlen]
            exact count.toNat_lt
          · rw [BlockAck.writeTo, hlen, UInt32.ofNat_toNat]
            simp only [List.append_assoc]
      · cases hbody

theorem length_writeTo_pos (ack : BlockAck) : 0 < ack.writeTo.length := by
  cases ack <;> simp [BlockAck.writeTo]

theorem length_le_length_flatMap_writeTo (acks : List BlockAck) :
    acks.length ≤ (acks.flatMap BlockAck.writeTo).length := by
  induction acks with
  | nil => exact le_rfl
  | cons ack acks ih =>
      have hpos := length_writeTo_pos ack
      rw [List.flatMap_cons, List.length_append, List.length_cons]
      omega

/-- **The control stream.** What `read_from` returns for a sequence of written acks is the sequence,
    and the bytes behind it are left; what it takes off any stream is what `write_to` writes for the
    ack it returns; a stream that ends inside an ack is an error. So the relay forwards the acks
    written before the stream ends, and no other. -/
theorem control_stream_codec :
    (∀ (acks : List BlockAck) (rest : Bytes), (∀ ack ∈ acks, ack.Fits) →
      Reader.many BlockAck.readFrom acks.length (acks.flatMap BlockAck.writeTo ++ rest)
        = .ok (acks, rest)) ∧
    (∀ (stream : Bytes) (ack : BlockAck) (rest : Bytes),
      BlockAck.readFrom stream = .ok (ack, rest) → ack.Fits ∧ stream = ack.writeTo ++ rest) ∧
    (∀ (ack : BlockAck) (stream more : Bytes), ack.Fits → ack.writeTo = stream ++ more →
      more ≠ [] → BlockAck.readFrom stream = .error .unexpectedEof) ∧
    (∀ (acks : List BlockAck) (ack : BlockAck) (stream more : Bytes), (∀ ack ∈ acks, ack.Fits) →
      ack.Fits → ack.writeTo = stream ++ more → more ≠ [] →
      ackRelay (acks.flatMap BlockAck.writeTo ++ stream) = acks) := by
  refine ⟨fun acks rest hfits => ?_, codec_blockAck.sound, fun ack stream more hack => ?_,
    fun acks ack stream more hfits hack hcut hmore => ?_⟩
  · exact (codec_blockAck.many acks.length).read_write ⟨rfl, hfits⟩ rest
  · exact codec_blockAck.read_cut hack
  · have hbytes := length_le_length_flatMap_writeTo acks
    refine codec_blockAck.untilError hfits (codec_blockAck.read_cut hack hcut hmore) ?_
    rw [List.length_append]
    omega

/-- Two acks, and a third of which the first six bytes have arrived. -/
theorem control_stream_codec_torn :
    ackRelay ([0xB1, 0, 0, 0, 7, 0, 0, 0, 2, 0, 3, 1, 0, 0xB2, 0, 0, 0, 7] ++
        [0xB1, 0, 0, 0, 8, 0])
      = [.missing 7 [3, 256], .complete 7] :=
  control_stream_codec.2.2.2 [.missing 7 [3, 256], .complete 7] (.missing 8 [])
    [0xB1, 0, 0, 0, 8, 0] [0, 0, 0] (by simp [BlockAck.Fits]) (by simp [BlockAck.Fits]) (by decide)
    (by decide)

end SecureTransfer
