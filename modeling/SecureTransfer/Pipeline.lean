import SecureTransfer.Config

set_option autoImplicit false

/-! # What flows through the channels (`pipeline.rs`) -/

namespace SecureTransfer

/-- A piece of the file, as the reader hands it to the encryption workers. -/
structure ReadChunk where
  chunkId : UInt32
  data : Bytes
deriving DecidableEq

/-- A ready-to-send datagram, as an encryption worker hands it to the block manager. -/
structure EncryptedChunk where
  chunkId : UInt32
  packet : Bytes
  bytes : ℕ
deriving DecidableEq

/-- A still-encrypted packet off the wire, as the UDP thread hands it to the decryption workers. -/
structure ReceivedPacket where
  chunkId : UInt32
  blockId : UInt32
  packetInBlock : UInt16
  encrypted : Bytes
  hash : UInt64
deriving DecidableEq

/-- A verified chunk, as a decryption worker hands it to the writer. -/
structure DecryptedChunk where
  chunkId : UInt32
  data : Bytes
deriving DecidableEq

end SecureTransfer
