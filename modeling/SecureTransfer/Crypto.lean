import SecureTransfer.Config
import SecureTransfer.Lib.BigEndian
import SecureTransfer.Lib.CounterMode

set_option autoImplicit false

/-! # Encryption and checksum (`crypto.rs`, `checksum.rs`)

The block cipher and the hash come from third-party crates and are parameters (`Crates`). What the
code relies on from the `ctr` crate is that `Ctr128BE` XORs a keystream whose 16-byte block number
`j` is the encryption of the initial counter plus `j`, modulo `2^128`; that is how `encryptChunk`
is defined. Everything the repository itself decides (how the initial counter is laid out) is
`buildCounter`. -/

namespace SecureTransfer

open BigEndian CounterMode

abbrev Key := Vector UInt8 32

abbrev Nonce := Vector UInt8 16

/-- An AES block. -/
abbrev Block := BitVec 128

/-- The functions the program takes from other crates. -/
structure Crates where
  aes256 : Key → Block → Block
  xxh64 : Bytes → UInt64

/-- `build_counter`: eight bytes of nonce, then the chunk id as a big-endian `u64`. -/
def buildCounter (nonce : Nonce) (chunkId : UInt32) : Bytes :=
  nonce.toList.take 8 ++ toBe 8 chunkId.toUInt64.toNat

/-- The counter block `Ctr128BE` feeds to AES for 16-byte block number `j` of a chunk. -/
def counterBlock (nonce : Nonce) (chunkId : UInt32) (j : ℕ) : Block :=
  BitVec.ofNat 128 (ofBe (buildCounter nonce chunkId)) + BitVec.ofNat 128 j

/-- Byte `k` of an AES block, most significant first. -/
def blockByte (block : Block) (k : ℕ) : UInt8 :=
  (toBe 16 block.toNat).getD k 0

/-- Byte `i` of the keystream of a chunk. -/
def keystream (crates : Crates) (key : Key) (nonce : Nonce) (chunkId : UInt32) (i : ℕ) : UInt8 :=
  blockByte (crates.aes256 key (counterBlock nonce chunkId (i / 16))) (i % 16)

def encryptChunk (crates : Crates) (data : Bytes) (key : Key) (nonce : Nonce)
    (chunkId : UInt32) : Bytes :=
  xorStream (keystream crates key nonce chunkId) data

def decryptChunk (crates : Crates) (encrypted : Bytes) (key : Key) (nonce : Nonce)
    (chunkId : UInt32) : Bytes :=
  encryptChunk crates encrypted key nonce chunkId

/-- `chunk_hash`. -/
def chunkHash (crates : Crates) (data : Bytes) : UInt64 :=
  crates.xxh64 data

@[simp] theorem length_encryptChunk (crates : Crates) (data : Bytes) (key : Key) (nonce : Nonce)
    (chunkId : UInt32) : (encryptChunk crates data key nonce chunkId).length = data.length :=
  length_xorStream _ _

@[simp] theorem decryptChunk_encryptChunk (crates : Crates) (data : Bytes) (key : Key)
    (nonce : Nonce) (chunkId : UInt32) :
    decryptChunk crates (encryptChunk crates data key nonce chunkId) key nonce chunkId = data :=
  xorStream_xorStream _ _

/-! ## The counter as a number -/

/-- The half of the counter taken from the nonce. -/
def noncePrefix (nonce : Nonce) : ℕ :=
  ofBe (nonce.toList.take 8)

theorem noncePrefix_lt (nonce : Nonce) : noncePrefix nonce < 2 ^ 64 := by
  have h := ofBe_lt (nonce.toList.take 8)
  have hlen : (nonce.toList.take 8).length = 8 := by simp
  rw [hlen] at h
  exact h

theorem ofBe_buildCounter (nonce : Nonce) (chunkId : UInt32) :
    ofBe (buildCounter nonce chunkId) = noncePrefix nonce * 2 ^ 64 + chunkId.toNat := by
  have hid : chunkId.toUInt64.toNat = chunkId.toNat := UInt32.toNat_toUInt64 chunkId
  have hlt : chunkId.toNat < 256 ^ 8 := lt_trans chunkId.toNat_lt (by decide)
  rw [buildCounter, ofBe_append, length_toBe, hid, ofBe_toBe_of_lt hlt, noncePrefix]
  norm_num

/-- Within a chunk of less than `2^63` blocks the counter never carries into the nonce half. -/
theorem toNat_counterBlock (nonce : Nonce) (chunkId : UInt32) {j : ℕ} (hj : j < 2 ^ 63) :
    (counterBlock nonce chunkId j).toNat = noncePrefix nonce * 2 ^ 64 + (chunkId.toNat + j) := by
  have hp := noncePrefix_lt nonce
  have hid : chunkId.toNat < 2 ^ 32 := chunkId.toNat_lt
  rw [counterBlock, ofBe_buildCounter, BitVec.toNat_add, BitVec.toNat_ofNat, BitVec.toNat_ofNat]
  omega

/-- Two counter blocks coincide exactly when chunk id plus block index do. -/
theorem counterBlock_eq_iff (nonce : Nonce) (chunkId chunkId' : UInt32) {j j' : ℕ}
    (hj : j < 2 ^ 63) (hj' : j' < 2 ^ 63) :
    counterBlock nonce chunkId j = counterBlock nonce chunkId' j'
      ↔ chunkId.toNat + j = chunkId'.toNat + j' := by
  rw [← BitVec.toNat_inj, toNat_counterBlock nonce chunkId hj, toNat_counterBlock nonce chunkId' hj']
  omega

end SecureTransfer
