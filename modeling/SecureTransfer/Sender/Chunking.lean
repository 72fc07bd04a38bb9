import SecureTransfer.Sender.BlockManager
import SecureTransfer.Sender.Reader

set_option autoImplicit false

/-! # The chunks of a file and the announced geometry

`Sender::run` computes the number of chunks from the file size, `reader_thread` numbers the pieces
its `read` calls happen to return. The two agree exactly when every call returns as many bytes as
fit into the buffer or are left (`FullReads`); `std::io::Read` promises less. -/

namespace SecureTransfer.Sender

variable {counts : List ℕ} {file rest : Bytes} {start : UInt32}

/-- The `k`-th piece of `chunkSize` bytes; the last one may be shorter. -/
def slice (file : Bytes) (k : ℕ) : Bytes :=
  (file.drop (k * chunkSize)).take chunkSize

theorem slice_zero (file : Bytes) : slice file 0 = file.take chunkSize := by
  rw [slice, Nat.zero_mul, List.drop_zero]

theorem slice_succ (file : Bytes) (k : ℕ) : slice file (k + 1) = slice (file.drop chunkSize) k := by
  rw [slice, slice, List.drop_drop, Nat.add_mul, Nat.one_mul, Nat.add_comm]

/-- What the number of chunks that `Sender::run` announces stands for: chunk `k` of the file, for
    every `k` below it. -/
def announcedChunks (file : Bytes) : List ReadChunk :=
  (List.range (totalChunks (UInt64.ofNat file.length)).toNat).map fun k =>
    ⟨UInt32.ofNat k, slice file k⟩

theorem length_announcedChunks (file : Bytes) :
    (announcedChunks file).length = (totalChunks (UInt64.ofNat file.length)).toNat := by
  rw [announcedChunks, List.length_map, List.length_range]

theorem announcedChunks_data {k : ℕ} {c : ReadChunk} (h : (announcedChunks file)[k]? = some c) :
    c.data = slice file k := by
  obtain ⟨hk, rfl⟩ := List.getElem?_eq_some_iff.1 h
  simp only [announcedChunks, List.getElem_map, List.getElem_range]

/-- Below the `u32` limit the announced number is the ceiling of the file size. -/
theorem totalChunks_length (hsize : (file.length + (chunkSize - 1)) / chunkSize < 2 ^ 32) :
    (totalChunks (UInt64.ofNat file.length)).toNat = (file.length + (chunkSize - 1)) / chunkSize := by
  rw [chunkSize] at hsize
  have hlength : (UInt64.ofNat file.length).toNat = file.length :=
    UInt64.toNat_ofNat_of_lt' (by show file.length < 2 ^ 64; omega)
  rw [totalChunks_toNat (by rw [hlength, chunkSize]; omega), hlength]

/-- Reads whose chunks are the slices of the file fill the buffer. -/
theorem fullReads_of_slices (start : UInt32) (hreads : LegalReads counts rest)
    (hdata : ∀ (k : ℕ) (c : ReadChunk), (readerThread counts rest start)[k]? = some c →
      c.data = slice rest k) : FullReads counts rest := by
  induction counts generalizing rest start with
  | nil => exact hreads.elim
  | cons bytes counts ih =>
      rw [LegalReads] at hreads
      rw [readerThread] at hdata
      by_cases h0 : bytes = 0
      · rw [if_pos h0] at hreads
        obtain ⟨rfl, rfl⟩ := hreads
        exact ⟨h0, by rw [if_pos h0]⟩
      · rw [if_neg h0] at hreads hdata
        obtain ⟨hle, hlen, hrest⟩ := hreads
        have hfirst := hdata 0 _ rfl
        have hbytes : bytes = min chunkSize rest.length := by
          have hlengths := congrArg List.length hfirst
          rw [slice_zero, List.length_take, List.length_take] at hlengths
          omega
        refine ⟨hbytes, ?_⟩
        rw [if_neg h0]
        refine ih (start + 1) hrest fun k c hc => ?_
        rw [hdata (k + 1) c (by rw [List.getElem?_cons_succ]; exact hc), slice_succ]
        -- what follows a short first chunk is empty, as its slice is
        rcases Nat.le_total chunkSize rest.length with hfull | hshort
        · rw [hbytes, min_eq_left hfull]
        · rw [hbytes, min_eq_right hshort, List.drop_eq_nil_of_le hshort,
            List.drop_eq_nil_of_le le_rfl]

/-- With full reads the reader emits what is announced. -/
theorem FullReads.announced (hreads : FullReads counts file)
    (hsize : (file.length + (chunkSize - 1)) / chunkSize < 2 ^ 32) :
    readerThread counts file 0 = announcedChunks file := by
  have hlength : (readerThread counts file 0).length = (announcedChunks file).length := by
    rw [readerThread_length_eq hreads, length_announcedChunks, totalChunks_length hsize]
  refine List.ext_getElem hlength fun k hk hk' => ?_
  have hc := List.getElem?_eq_getElem hk
  have hid := readerThread_chunkId hc
  have hdata := readerThread_data hreads hc
  simp only [announcedChunks, List.getElem_map, List.getElem_range]
  rw [UInt32.zero_add] at hid
  exact (congrArg₂ ReadChunk.mk hid hdata :)

/-- The announced chunks are inside the geometry. -/
theorem announcedChunks_inside {c : ReadChunk} (h : c ∈ announcedChunks file) :
    c.chunkId < totalChunks (UInt64.ofNat file.length) := by
  obtain ⟨k, hk, rfl⟩ := List.mem_map.1 h
  have hlt := List.mem_range.1 hk
  rw [UInt32.lt_iff_toNat_lt]
  show (UInt32.ofNat k).toNat < _
  rwa [UInt32.toNat_ofNat_of_lt' (hlt.trans (UInt32.toNat_lt _))]

/-- **Chunking.** For every file below the `u32` limit and every legal sequence of reads, the reader
    emits the announced chunks, all inside the geometry, if and only if every read fills the buffer
    or takes what is left. -/
theorem chunking_iff (hreads : LegalReads counts file)
    (hsize : (file.length + (chunkSize - 1)) / chunkSize < 2 ^ 32) :
    (readerThread counts file 0 = announcedChunks file ∧
        ∀ c ∈ readerThread counts file 0,
          c.chunkId < totalChunks (UInt64.ofNat file.length) ∧
          (blockOf c.chunkId).2.toNat
            < packetsInBlock (blockOf c.chunkId).1 (totalChunks (UInt64.ofNat file.length)))
      ↔ FullReads counts file := by
  constructor
  · rintro ⟨heq, -⟩
    have hdata : ∀ (k : ℕ) (c : ReadChunk), (readerThread counts file 0)[k]? = some c →
        c.data = slice file k := by
      intro k c hc
      rw [heq] at hc
      exact announcedChunks_data hc
    exact fullReads_of_slices 0 hreads hdata
  · intro hfull
    have heq := hfull.announced hsize
    refine ⟨heq, fun c hc => ?_⟩
    have hlt := announcedChunks_inside (heq ▸ hc)
    exact ⟨hlt, blockOf_snd_lt hlt⟩

/-- Three bytes, read in one go. -/
theorem chunking_iff_threeBytes :
    readerThread [3, 0] [1, 2, 3] 0 = announcedChunks [1, 2, 3] :=
  ((chunking_iff (show LegalReads [3, 0] [1, 2, 3] by decide) (by decide)).2 (by decide)).1

/-- What a worker makes of the chunks of a file of two bytes whose reads return one byte each. -/
def shortReads : List EncryptedChunk :=
  (readerThread [1, 1, 0] [7, 8] 0).map (workerThread
    { aes256 := fun _ block => block, xxh64 := fun bytes => UInt64.ofNat bytes.length }
    (Vector.replicate 32 0) (Vector.replicate 16 0))

/-- **Two short reads.** One chunk is announced and two are sent; the second one is outside the only
    block, and the block manager panics at its index. -/
theorem chunking_shortReads :
    LegalReads [1, 1, 0] [7, 8] ∧
      readerThread [1, 1, 0] [7, 8] 0 ≠ announcedChunks [7, 8] ∧
      (readerThread [1, 1, 0] [7, 8] 0).map ReadChunk.data = [[7], [8]] ∧
      totalChunks 2 = 1 ∧
      (blockManager 1 pipelineDepth).exec
          (shortReads.flatMap fun chunk => [.drain, .event (.chunk chunk)]) (.head .init)
        = some (.panicked (.indexOutOfBounds 1 1)) := by
  refine ⟨by decide, fun heq => ?_, by decide, by decide, rfl⟩
  have hlength := congrArg List.length heq
  exact absurd hlength (by decide)

end SecureTransfer.Sender
