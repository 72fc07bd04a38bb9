import SecureTransfer.Receiver.Admission
import SecureTransfer.Receiver.Conservation
import SecureTransfer.Receiver.WriterRuns

set_option autoImplicit false

/-! # What the writer has of what was forwarded

Every chunk between a worker and the file has been forwarded (`FromSent`), and nothing forwarded is
lost on the way; so a writer that has returned holds exactly the chunks forwarded
(`holding_of_exited`), and its file is what `writer_thread` makes of them in any order. -/

namespace SecureTransfer.Receiver

variable {setup : Setup} {r r' : Threads} {l : Label} {ls : List Label} {w : Writer}
  {Good : UInt32 → Bytes → Prop}

/-- Chunks are forwarded before they are anywhere else. -/
structure FromSent (r : Threads) : Prop where
  handed : ∀ chunk, Worker.sending chunk ∈ r.workers → chunk ∈ r.sent
  chunks : ∀ chunk ∈ r.chunks, chunk ∈ r.sent
  writer : r.writer.writer.Sound fun chunkId data => ⟨chunkId, data⟩ ∈ r.sent

theorem FromSent.init : FromSent .init where
  handed := fun chunk hw => by simp [Threads.init] at hw
  chunks := nofun
  writer := .init

/-- A worker goes on without a chunk. -/
theorem FromSent.setWorker (h : FromSent r) {i : ℕ} {w' : Worker}
    (hsending : ∀ chunk, w' ≠ .sending chunk) :
    FromSent { r with workers := r.workers.set i w' } :=
  { h with
    handed := fun chunk hw => (worker_mem_set hw).elim (h.handed chunk)
      fun heq => absurd heq.symm (hsending chunk) }

theorem FromSent.turn (h : FromSent r) (hturn : Threads.Turn setup l r r') : FromSent r' := by
  cases hturn with
  | @accept r i p _ data =>
      have hkept : FromSent { r with workers := r.workers.set i (.verified p data) } :=
        h.setWorker nofun
      exact { hkept with }
  | workerExit => exact h.setWorker nofun
  | @mark r i p data hw =>
      refine ⟨fun chunk hmem => ?_, fun chunk hmem => List.mem_append_left _ (h.chunks chunk hmem),
        h.writer.mono fun _ _ hmem => List.mem_append_left _ hmem⟩
      rcases worker_mem_set hmem with hmem | heq
      · exact List.mem_append_left _ (h.handed chunk hmem)
      · cases heq
        exact List.mem_append_right _ (List.mem_singleton_self _)
  | @send r i chunk w hw =>
      have hidle : FromSent { r with workers := r.workers.set i .recv } := h.setWorker nofun
      refine { hidle with chunks := fun c hc => ?_ }
      rcases List.mem_append.1 hc with hc | hc
      · exact h.chunks c hc
      · rw [List.mem_singleton.1 hc]
        exact h.handed chunk (List.mem_of_getElem? hw)
  | sendError => exact h.setWorker nofun
  | write hwriter hchunks =>
      obtain ⟨hrest, hsound⟩ := r.receive_sound hwriter hchunks h.chunks h.writer
      exact { h with chunks := hrest, writer := hsound }
  | writeLast hwriter hchunks =>
      obtain ⟨hrest, hsound⟩ := r.receive_sound hwriter hchunks h.chunks h.writer
      exact { h with chunks := hrest, writer := hsound }
  | writeOverflow hwriter hchunks =>
      obtain ⟨hrest, hsound⟩ := r.receive_sound hwriter hchunks h.chunks h.writer
      exact { h with chunks := hrest, writer := hsound }
  | writeEnd hwriter => exact { h with writer := by have := h.writer; rwa [hwriter] at this }
  | writerError hwriter => exact { h with writer := by have := h.writer; rwa [hwriter] at this }
  | _ => exact { h with }

theorem fromSent_of_reaches (hrun : (receiver setup).Reaches ls r) : FromSent r :=
  hrun.invariant .init fun _ _ _ ih _ hstep => ih.turn (Threads.turn_of_step hstep)

/-- Whatever is forwarded is good, if the packets that arrive are. -/
theorem sent_good (hrun : (receiver setup).Reaches ls r) (hgood : GoodArrivals setup Good ls) :
    ∀ chunk ∈ r.sent, Good chunk.chunkId chunk.data := by
  obtain ⟨done, -, hsent, hperm⟩ := admitted_of_reaches hrun
  intro chunk hchunk
  rw [hsent] at hchunk
  obtain ⟨a, ha, rfl⟩ := List.mem_map.1 hchunk
  obtain ⟨pkt, ⟨d, hd, hpkt, hhash⟩, rfl⟩ := Admitted.passesTest hperm ha
  refine hgood d pkt hd hpkt _ ?_
  exact if_pos hhash

/-- A forwarded chunk is held. -/
theorem sent_holds (hrun : (receiver setup).Reaches ls r) :
    ∀ chunk ∈ r.sent, chunk.chunkId < setup.expectedChunks → r.Holds chunk.chunkId := by
  obtain ⟨done, hmarks, hsent, hperm⟩ := admitted_of_reaches hrun
  intro chunk hchunk hlt
  rw [hsent] at hchunk
  obtain ⟨a, ha, rfl⟩ := List.mem_map.1 hchunk
  have hmark : (a.blockId, a.packetInBlock) ∈ r.control.marks := by
    rw [hmarks]
    exact List.mem_map.2 ⟨a, ha, rfl⟩
  obtain ⟨pkt, -, rfl⟩ := Admitted.passesTest hperm ha
  exact (conserved_of_reaches hrun).marked _ _ hmark hlt

/-- **The returned writer.** It holds exactly the chunks that were forwarded. -/
theorem holding_of_exited (hrun : (receiver setup).Reaches ls r)
    (hbelow : ∀ chunk ∈ r.sent, chunk.chunkId < setup.expectedChunks)
    (hwriter : r.writer = .exited w .ok) : w.Holding r.sent := by
  have hconserved := conserved_of_reaches hrun
  have hsound := (fromSent_of_reaches hrun).writer
  have hsettled := hconserved.settled
  have hcounted := hconserved.counted
  simp only [hwriter, WriterThread.writer] at hsound hsettled hcounted
  refine ⟨hsound, fun chunk hchunk => ?_, hsettled, hcounted⟩
  have hlt := hbelow chunk hchunk
  rcases hconserved.stopped w hwriter with hdone | ⟨hchunks, hworkers⟩
  · exact Writer.has_of_lt hsound (UInt32.lt_of_lt_of_le hlt hdone)
  · rcases sent_holds hrun chunk hchunk hlt with ⟨i, data, hi⟩ | ⟨data, hmem⟩ | hhas | hfailed
    · have := hworkers _ (List.mem_of_getElem? hi)
      cases this
    · rw [hchunks] at hmem
      cases hmem
    · rwa [hwriter] at hhas
    · obtain ⟨w', x, hexited, hx⟩ := hfailed
      rw [hwriter] at hexited
      cases hexited
      exact absurd rfl hx

end SecureTransfer.Receiver
