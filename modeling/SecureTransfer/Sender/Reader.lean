import SecureTransfer.Crypto
import SecureTransfer.Pipeline
import SecureTransfer.Protocol
import SecureTransfer.Transport.Geometry

set_option autoImplicit false

/-! # From the file to datagrams (`reader_thread`, `worker_thread`, `Sender::run` of `sender.rs`)

`File::read` may return any count from 1 to the buffer size before the end of the file and 0 at the
end, so the reader is a function of the file and of the counts its calls return; `LegalReads` says
which count sequences the contract of `std::io::Read` allows and `FullReads` singles out those that
always fill the buffer. -/

namespace SecureTransfer.Sender

/-- The chunks `reader_thread` sends when successive `file.read` calls return `counts`; `rest` is
    what is left of the file. -/
def readerThread : List ℕ → Bytes → UInt32 → List ReadChunk
  | [], _, _ => []
  | bytes :: counts, rest, chunkId =>
    if bytes = 0 then []
    else ⟨chunkId, rest.take bytes⟩ :: readerThread counts (rest.drop bytes) (chunkId + 1)

/-- The read counts of a whole pass over `rest` that `std::io::Read` permits. -/
def LegalReads : List ℕ → Bytes → Prop
  | [], _ => False
  | bytes :: counts, rest =>
    if bytes = 0 then rest = [] ∧ counts = []
    else bytes ≤ chunkSize ∧ bytes ≤ rest.length ∧ LegalReads counts (rest.drop bytes)

/-- Every read fills the buffer, except the last ones at the end of the file. -/
def FullReads : List ℕ → Bytes → Prop
  | [], _ => False
  | bytes :: counts, rest =>
    bytes = min chunkSize rest.length ∧
      if bytes = 0 then counts = [] else FullReads counts (rest.drop bytes)

instance decidableLegalReads : (counts : List ℕ) → (rest : Bytes) →
    Decidable (LegalReads counts rest)
  | [], _ => inferInstanceAs (Decidable False)
  | bytes :: counts, rest =>
    have := decidableLegalReads counts (rest.drop bytes)
    inferInstanceAs (Decidable (if bytes = 0 then _ else _))

instance decidableFullReads : (counts : List ℕ) → (rest : Bytes) →
    Decidable (FullReads counts rest)
  | [], _ => inferInstanceAs (Decidable False)
  | bytes :: counts, rest =>
    have := decidableFullReads counts (rest.drop bytes)
    inferInstanceAs (Decidable (_ ∧ if bytes = 0 then _ else _))

/-- One round of the encryption worker's loop: the datagram for a chunk. -/
def workerThread (crates : Crates) (key : Key) (nonce : Nonce) (chunk : ReadChunk) :
    EncryptedChunk :=
  let encrypted := encryptChunk crates chunk.data key nonce chunk.chunkId
  let hash := chunkHash crates chunk.data
  let (blockId, packetInBlock) := blockOf chunk.chunkId
  { chunkId := chunk.chunkId
    packet := DataPacket.encode blockId packetInBlock hash encrypted
    bytes := chunk.data.length }

/-- The chunk count `Sender::run` announces: `file_size.div_ceil(CHUNK_SIZE as u64) as u32`. -/
def totalChunks (fileSize : UInt64) : UInt32 :=
  (divCeil fileSize (UInt64.ofNat chunkSize)).toUInt32

/-! ## What the reader emits -/

theorem FullReads.legal {counts : List ℕ} {rest : Bytes} (h : FullReads counts rest) :
    LegalReads counts rest := by
  induction counts generalizing rest with
  | nil => exact h
  | cons bytes counts ih =>
      obtain ⟨hbytes, hrest⟩ := h
      rw [LegalReads]
      split
      · next h0 =>
          rw [if_pos h0] at hrest
          refine ⟨?_, hrest⟩
          have hlen : rest.length = 0 := by
            rw [h0, chunkSize] at hbytes; omega
          exact List.length_eq_zero_iff.1 hlen
      · next h0 =>
          rw [if_neg h0] at hrest
          exact ⟨by omega, by omega, ih hrest⟩

/-- Chunk `k` carries id `start + k`, counted in `u32`. -/
theorem readerThread_chunkId {counts : List ℕ} {rest : Bytes} {start : UInt32} {k : ℕ}
    {c : ReadChunk} (h : (readerThread counts rest start)[k]? = some c) :
    c.chunkId = start + UInt32.ofNat k := by
  induction counts generalizing rest start k with
  | nil => simp [readerThread] at h
  | cons bytes counts ih =>
      rw [readerThread] at h
      split at h
      · simp at h
      · cases k with
        | zero =>
            simp only [List.getElem?_cons_zero, Option.some.injEq] at h
            subst h
            simp
        | succ k =>
            rw [List.getElem?_cons_succ] at h
            rw [ih h, UInt32.add_assoc, UInt32.ofNat_add, UInt32.add_comm (UInt32.ofNat k)]
            rfl

/-- The chunks of a legal pass are nonempty and at most `chunkSize` long. -/
theorem readerThread_length {counts : List ℕ} {rest : Bytes} {start : UInt32} {c : ReadChunk}
    (hreads : LegalReads counts rest) (h : c ∈ readerThread counts rest start) :
    0 < c.data.length ∧ c.data.length ≤ chunkSize := by
  induction counts generalizing rest start with
  | nil => exact hreads.elim
  | cons bytes counts ih =>
      rw [LegalReads] at hreads
      rw [readerThread] at h
      split at h
      · simp at h
      · next h0 =>
          rw [if_neg h0] at hreads
          obtain ⟨hsize, hlen, hrest⟩ := hreads
          rcases List.mem_cons.1 h with rfl | h
          · rw [List.length_take]; omega
          · exact ih hrest h

/-- The chunks of a legal pass, put together, are the file. -/
theorem readerThread_flatten {counts : List ℕ} {rest : Bytes} {start : UInt32}
    (hreads : LegalReads counts rest) :
    ((readerThread counts rest start).map ReadChunk.data).flatten = rest := by
  induction counts generalizing rest start with
  | nil => exact hreads.elim
  | cons bytes counts ih =>
      rw [LegalReads] at hreads
      rw [readerThread]
      split
      · next h0 =>
          rw [if_pos h0] at hreads
          simp [hreads.1]
      · next h0 =>
          rw [if_neg h0] at hreads
          simp [ih hreads.2.2]

/-- With full reads chunk `k` is the `k`-th piece of `chunkSize` bytes. -/
theorem readerThread_data {counts : List ℕ} {rest : Bytes} {start : UInt32} {k : ℕ} {c : ReadChunk}
    (hreads : FullReads counts rest) (h : (readerThread counts rest start)[k]? = some c) :
    c.data = (rest.drop (k * chunkSize)).take chunkSize := by
  induction counts generalizing rest start k with
  | nil => exact hreads.elim
  | cons bytes counts ih =>
      obtain ⟨hbytes, hrest⟩ := hreads
      rw [readerThread] at h
      split at h
      · simp at h
      · next h0 =>
          rw [if_neg h0] at hrest
          cases k with
          | zero =>
              simp only [List.getElem?_cons_zero, Option.some.injEq] at h
              subst h hbytes
              rw [Nat.zero_mul, List.drop_zero, List.take_eq_take_iff]
              omega
          | succ k =>
              rw [List.getElem?_cons_succ] at h
              rw [ih hrest h, List.drop_drop]
              rcases Nat.le_total chunkSize rest.length with hle | hle
              · rw [hbytes, min_eq_left hle, Nat.add_mul, Nat.one_mul, Nat.add_comm]
              · have hshort : rest.length ≤ (k + 1) * chunkSize :=
                  hle.trans (Nat.le_mul_of_pos_left _ k.succ_pos)
                rw [hbytes, min_eq_right hle, List.drop_eq_nil_of_le (Nat.le_add_right _ _),
                  List.drop_eq_nil_of_le hshort]

/-- With full reads the first `m` chunks are the first `m * chunkSize` bytes. -/
theorem readerThread_take_flatten {counts : List ℕ} {rest : Bytes} {start : UInt32} {m : ℕ}
    (hreads : FullReads counts rest) :
    (((readerThread counts rest start).take m).map ReadChunk.data).flatten
      = rest.take (m * chunkSize) := by
  induction counts generalizing rest start m with
  | nil => exact hreads.elim
  | cons bytes counts ih =>
      obtain ⟨hbytes, hrest⟩ := hreads
      rw [readerThread]
      split
      · next h0 =>
          have hempty : rest = [] := by
            rw [h0, chunkSize] at hbytes
            exact List.length_eq_zero_iff.1 (by omega)
          simp [hempty]
      · next h0 =>
          rw [if_neg h0] at hrest
          cases m with
          | zero => simp
          | succ m =>
              rw [List.take_succ_cons, List.map_cons, List.flatten_cons, ih hrest, ← List.take_add,
                List.take_eq_take_iff]
              rw [chunkSize] at hbytes ⊢
              omega

/-- With full reads the number of chunks is the ceiling of the file size. -/
theorem readerThread_length_eq {counts : List ℕ} {rest : Bytes} {start : UInt32}
    (hreads : FullReads counts rest) :
    (readerThread counts rest start).length = (rest.length + (chunkSize - 1)) / chunkSize := by
  induction counts generalizing rest start with
  | nil => exact hreads.elim
  | cons bytes counts ih =>
      obtain ⟨hbytes, hrest⟩ := hreads
      rw [readerThread]
      split
      · next h0 =>
          rw [chunkSize] at hbytes ⊢
          simp only [List.length_nil]
          omega
      · next h0 =>
          rw [if_neg h0] at hrest
          rw [List.length_cons, ih hrest, List.length_drop]
          rw [chunkSize] at hbytes ⊢
          omega

theorem totalChunks_toNat {fileSize : UInt64} (h : fileSize.toNat ≤ (2 ^ 32 - 1) * chunkSize) :
    (totalChunks fileSize).toNat = (fileSize.toNat + (chunkSize - 1)) / chunkSize := by
  have hsize : (UInt64.ofNat chunkSize).toNat = chunkSize := rfl
  rw [totalChunks, UInt64.toNat_toUInt32, divCeil_toNat _ _ (by rw [hsize, chunkSize]; omega), hsize]
  rw [chunkSize] at h ⊢
  omega

end SecureTransfer.Sender
