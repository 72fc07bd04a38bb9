import SecureTransfer.Config
import SecureTransfer.Lib.Reorder

set_option autoImplicit false

/-! # The writer (`writer_thread` of `receiver.rs`)

`outfile` lists the buffers handed to `write_all`; they go to consecutive offsets of a file that
`set_len` has extended to `expected_bytes`, so `reconstructed` is what the flushed file holds. The
progress line is left out. -/

namespace SecureTransfer.Receiver

open Reorder

structure Writer where
  outfile : List Bytes
  bytes : ℕ
  chunksWritten : UInt32
  nextChunk : UInt32
  pending : AList (fun _ : UInt32 => Bytes)

def Writer.init : Writer where
  outfile := []
  bytes := 0
  chunksWritten := 0
  nextChunk := 0
  pending := ∅

/-- The inner loop, `while let Some(data) = pending.remove(&next_chunk)`. -/
def Writer.drain : ℕ → Writer → Writer
  | 0, w => w
  | fuel + 1, w =>
    match w.pending.lookup w.nextChunk with
    | none => w
    | some data =>
      Writer.drain fuel
        { outfile := w.outfile ++ [data]
          bytes := w.bytes + data.length
          chunksWritten := w.chunksWritten + 1
          nextChunk := w.nextChunk + 1
          pending := w.pending.erase w.nextChunk }

/-- One round of the outer loop; every round of the inner one removes an entry of `pending`. -/
def Writer.receive (chunkId : UInt32) (data : Bytes) (w : Writer) : Writer :=
  let pending := w.pending.insert chunkId data
  Writer.drain pending.entries.length { w with pending }

/-- `next_chunk += 1` left the `u32` range in this round, where a debug build panics. -/
def Writer.overflows (w w' : Writer) : Bool :=
  2 ^ 32 ≤ w.nextChunk.toNat + (w'.outfile.length - w.outfile.length)

/-- The content of `reconstructed.bin` after the flush. -/
def reconstructed (expectedBytes : ℕ) (outfile : List Bytes) : Bytes :=
  outfile.flatten ++ List.replicate (expectedBytes - outfile.flatten.length) 0

/-! ## The writer is a reorder buffer with counters -/

variable {w : Writer}

def Writer.buffer (w : Writer) : Buffer UInt32 Bytes where
  pending := w.pending
  next := w.nextChunk
  out := w.outfile

theorem Writer.drain_buffer (fuel : ℕ) (w : Writer) :
    (w.drain fuel).buffer = Reorder.drain (· + 1) fuel w.buffer := by
  induction fuel generalizing w with
  | zero => rfl
  | succ fuel ih =>
      have hdue : w.buffer.pending.lookup w.buffer.next = w.pending.lookup w.nextChunk := rfl
      rw [Writer.drain, Reorder.drain, hdue]
      cases w.pending.lookup w.nextChunk with
      | none => rfl
      | some data => exact ih _

theorem Writer.receive_buffer (chunkId : UInt32) (data : Bytes) (w : Writer) :
    (w.receive chunkId data).buffer = Reorder.offer (· + 1) chunkId data w.buffer :=
  Writer.drain_buffer _ _

/-- The counters count what has been written. -/
structure Writer.Counted (w : Writer) : Prop where
  bytes : w.bytes = (w.outfile.map List.length).sum
  chunksWritten : w.chunksWritten = UInt32.ofNat w.outfile.length

theorem Writer.Counted.init : Writer.init.Counted := ⟨rfl, rfl⟩

theorem Writer.Counted.drain (h : w.Counted) (fuel : ℕ) : (w.drain fuel).Counted := by
  induction fuel generalizing w with
  | zero => exact h
  | succ fuel ih =>
      rw [Writer.drain]
      split
      · exact h
      · refine ih ⟨?_, ?_⟩
        · simp [h.bytes]
        · simp [h.chunksWritten, UInt32.ofNat_add]

theorem Writer.Counted.receive (h : w.Counted) (chunkId : UInt32) (data : Bytes) :
    (w.receive chunkId data).Counted := by
  have hinsert : Writer.Counted { w with pending := w.pending.insert chunkId data } :=
    ⟨h.bytes, h.chunksWritten⟩
  exact hinsert.drain _

/-- The key due after `i` departures is `i`. -/
theorem iterate_succ_eq (i : ℕ) : (fun k : UInt32 => k + 1)^[i] 0 = UInt32.ofNat i := by
  induction i with
  | zero => rfl
  | succ i ih => rw [Function.iterate_succ_apply', ih, UInt32.ofNat_add]; rfl

/-- `data` is acceptable for the chunk with number `i`. -/
abbrev Writer.Sound (Q : UInt32 → Bytes → Prop) (w : Writer) : Prop :=
  Reorder.Sound (· + 1) 0 Q w.buffer

/-- The chunk is buffered or written. -/
abbrev Writer.Has (w : Writer) (chunkId : UInt32) : Prop :=
  Reorder.Has (· + 1) 0 w.buffer chunkId

end SecureTransfer.Receiver
