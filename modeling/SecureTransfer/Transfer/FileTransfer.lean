import SecureTransfer.Sender.Reader
import SecureTransfer.Transfer.System

set_option autoImplicit false

/-! # The transfer of a file

`FileTransfer` is a file with the key material of a session and the counts its reads return; what
the sender announces and uploads is computed from it. -/

namespace SecureTransfer.Transfer

open Sender Receiver

/-- A file of at most `(2^32 - 1) * CHUNK_SIZE` bytes whose reads fill the buffer except at the
    end. -/
structure FileTransfer where
  crates : Crates
  sessionKey : Key
  nonce : Nonce
  overflowChecks : Bool
  file : Bytes
  counts : List ℕ
  reads : FullReads counts file
  size : file.length ≤ (2 ^ 32 - 1) * chunkSize

namespace FileTransfer

variable (job : FileTransfer)

/-- What the receiver gets from the handshake. -/
def setup : Setup where
  crates := job.crates
  sessionKey := job.sessionKey
  nonce := job.nonce
  expectedChunks := totalChunks (UInt64.ofNat job.file.length)
  expectedBytes := UInt64.ofNat job.file.length
  overflowChecks := job.overflowChecks

def chunks : List ReadChunk :=
  readerThread job.counts job.file 0

def encrypt (chunk : ReadChunk) : EncryptedChunk :=
  workerThread job.crates job.sessionKey job.nonce chunk

/-! ## Sizes and ids -/

theorem toNat_fileSize : (UInt64.ofNat job.file.length).toNat = job.file.length := by
  have hsize := job.size
  rw [chunkSize] at hsize
  have hlt : job.file.length < 2 ^ 64 := by omega
  exact UInt64.toNat_ofNat_of_lt' hlt

theorem length_chunks :
    job.chunks.length = (job.file.length + (chunkSize - 1)) / chunkSize :=
  readerThread_length_eq job.reads

theorem toNat_expectedChunks : job.setup.expectedChunks.toNat = job.chunks.length := by
  have hsize : (UInt64.ofNat job.file.length).toNat ≤ (2 ^ 32 - 1) * chunkSize := by
    rw [job.toNat_fileSize]
    exact job.size
  rw [setup, totalChunks_toNat hsize, job.toNat_fileSize, job.length_chunks]

theorem length_chunks_lt : job.chunks.length < 2 ^ 32 := by
  rw [← job.toNat_expectedChunks]
  exact UInt32.toNat_lt _

theorem expectedChunks_pos_iff : 0 < job.setup.expectedChunks ↔ job.file ≠ [] := by
  rw [UInt32.lt_iff_toNat_lt, job.toNat_expectedChunks, job.length_chunks, ← List.length_pos_iff]
  exact Nat.div_pos_iff.trans (by rw [chunkSize]; omega)

/-- Chunk `k` has id `k`. -/
theorem chunkId_toNat {k : ℕ} {chunk : ReadChunk} (h : job.chunks[k]? = some chunk) :
    chunk.chunkId.toNat = k := by
  have hk := (List.getElem?_eq_some_iff.1 h).1
  rw [readerThread_chunkId h, UInt32.zero_add,
    UInt32.toNat_ofNat_of_lt' (hk.trans job.length_chunks_lt)]

/-- A chunk is found under its id. -/
theorem getElem?_chunkId {chunk : ReadChunk} (h : chunk ∈ job.chunks) :
    job.chunks[chunk.chunkId.toNat]? = some chunk := by
  obtain ⟨k, hk⟩ := List.mem_iff_getElem?.1 h
  rwa [job.chunkId_toNat hk]

theorem chunkId_inj {chunk chunk' : ReadChunk} (h : chunk ∈ job.chunks) (h' : chunk' ∈ job.chunks)
    (hid : chunk.chunkId = chunk'.chunkId) : chunk = chunk' := by
  have hk := job.getElem?_chunkId h
  rw [hid, job.getElem?_chunkId h'] at hk
  exact (Option.some.inj hk).symm

theorem chunkId_lt {chunk : ReadChunk} (h : chunk ∈ job.chunks) :
    chunk.chunkId < job.setup.expectedChunks := by
  obtain ⟨k, hk⟩ := List.mem_iff_getElem?.1 h
  rw [UInt32.lt_iff_toNat_lt, job.chunkId_toNat hk, job.toNat_expectedChunks]
  exact (List.getElem?_eq_some_iff.1 hk).1

theorem exists_chunk {chunkId : UInt32} (h : chunkId < job.setup.expectedChunks) :
    ∃ chunk ∈ job.chunks, chunk.chunkId = chunkId := by
  rw [UInt32.lt_iff_toNat_lt, job.toNat_expectedChunks] at h
  have hk := List.getElem?_eq_getElem h
  exact ⟨_, List.mem_of_getElem? hk, UInt32.toNat_inj.1 (job.chunkId_toNat hk)⟩

theorem nodup_chunkIds : (job.chunks.map ReadChunk.chunkId).Nodup := by
  rw [List.Nodup, List.pairwise_iff_getElem]
  intro i j hi hj hij heq
  simp only [List.length_map] at hi hj
  simp only [List.getElem_map] at heq
  have hid := congrArg UInt32.toNat heq
  rw [job.chunkId_toNat (List.getElem?_eq_getElem hi),
    job.chunkId_toNat (List.getElem?_eq_getElem hj)] at hid
  omega

/-! ## The upload -/

theorem nodup_encrypted : ((job.chunks.map job.encrypt).map EncryptedChunk.chunkId).Nodup := by
  rw [List.map_map]
  exact job.nodup_chunkIds

theorem encrypted_lt : ∀ c ∈ job.chunks.map job.encrypt, c.chunkId < job.setup.expectedChunks := by
  intro c hc
  obtain ⟨chunk, hchunk, rfl⟩ := List.mem_map.1 hc
  exact job.chunkId_lt hchunk

/-- A packet is made of the encrypted chunk, which is at most `chunkSize` bytes long. -/
theorem encrypted_packet : ∀ c ∈ job.chunks.map job.encrypt, ∃ hash payload,
    payload.length < 2 ^ 32 ∧
      c.packet = DataPacket.encode (blockOf c.chunkId).1 (blockOf c.chunkId).2 hash payload := by
  intro c hc
  obtain ⟨chunk, hchunk, rfl⟩ := List.mem_map.1 hc
  refine ⟨chunkHash job.crates chunk.data,
    encryptChunk job.crates chunk.data job.sessionKey job.nonce chunk.chunkId, ?_, rfl⟩
  have hle := (readerThread_length job.reads.legal hchunk).2
  rw [length_encryptChunk]
  rw [chunkSize] at hle
  omega

def upload : Upload job.setup.expectedChunks where
  chunks := job.chunks.map job.encrypt
  distinct := job.nodup_encrypted
  below := job.encrypted_lt
  packet := job.encrypted_packet

theorem mem_upload {c : EncryptedChunk} :
    c ∈ job.upload.chunks ↔ ∃ chunk ∈ job.chunks, job.encrypt chunk = c :=
  List.mem_map

theorem upload_full {chunkId : UInt32} (h : chunkId < job.setup.expectedChunks) :
    ∃ c ∈ job.upload.chunks, c.chunkId = chunkId := by
  obtain ⟨chunk, hchunk, hid⟩ := job.exists_chunk h
  exact ⟨_, job.mem_upload.2 ⟨chunk, hchunk, rfl⟩, hid⟩

end FileTransfer

/-- The transfer of a file of three bytes, with stand-ins for the crates. -/
def threeBytes : FileTransfer where
  crates := oneChunk.crates
  sessionKey := oneChunk.sessionKey
  nonce := oneChunk.nonce
  overflowChecks := true
  file := [1, 2, 3]
  counts := [3, 0]
  reads := by decide
  size := by decide

/-- Its only packet. -/
def threeBytesPacket : EncryptedChunk :=
  threeBytes.encrypt ⟨0, [1, 2, 3]⟩

/-- The chunk reaches the manager, which sends its packet and the `BlockEnd`. -/
def threeBytesSent : List Label :=
  [.chunkRelay threeBytesPacket, .sender .drain, .sender (.event (.chunk threeBytesPacket))]

/-- The receiver handles the packet and goes on until all its threads have exited. -/
def threeBytesHandled : List Receiver.Label :=
  ([.udpSend, .workerRecv 0, .workerMark 0, .workerSend 0, .tick (fromMillis 100),
    .ack (.poll [0]), .ack .next, .ack .write, .ack .remove] : List Receiver.Label) ++ shutdown

/-- The packet is delivered and handled. -/
def threeBytesReceived : List Label :=
  ([.receiver .udpLoop, .deliver threeBytesPacket.packet] : List Label) ++
    threeBytesHandled.map .receiver

/-- A file of two chunks, the second of one byte. -/
def twoChunks : FileTransfer where
  crates := oneChunk.crates
  sessionKey := oneChunk.sessionKey
  nonce := oneChunk.nonce
  overflowChecks := true
  file := List.replicate 1401 7
  counts := [1400, 1, 0]
  reads := by decide +kernel
  size := by decide +kernel

/-- The packet of the second chunk. -/
def secondPacket : EncryptedChunk :=
  twoChunks.encrypt ⟨1, [7]⟩

end SecureTransfer.Transfer
