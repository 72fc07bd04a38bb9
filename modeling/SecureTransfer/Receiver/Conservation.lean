import SecureTransfer.Receiver.Completion

set_option autoImplicit false

/-! # Nothing verified is lost

A chunk whose packet has been marked is with a worker, in the channel, in the writer's reorder
buffer or written (`Conserved`). The writer may stop while chunks are still on their way, but only
when it has written enough of them or when no worker is left to send one. -/

namespace SecureTransfer.Receiver

open Reorder

variable {setup : Setup} {P : ReceivedPacket → Prop} {r r' : Threads} {l : Label} {ls : List Label}

/-! ## Threads that have exited -/

theorem Threads.Turn.ack_exited (h : Threads.Turn setup l r r') {x : ThreadEnd}
    (hx : r.control.ack = .exited x) : r'.control.ack = .exited x := by
  cases h with
  | ack hmove => cases hmove <;> simp_all
  | _ => exact hx

theorem Threads.Turn.udp_exited (h : Threads.Turn setup l r r') {x : ThreadEnd}
    (hx : r.udp = .exited x) : r'.udp = .exited x := by
  cases h <;> simp_all

theorem Threads.Turn.writer_exited (h : Threads.Turn setup l r r') {w : Writer} {x : ThreadEnd}
    (hx : r.writer = .exited w x) : r'.writer = .exited w x := by
  cases h <;> simp_all

/-- A worker other than the one that moves. -/
theorem worker_set_of_ne {workers : List Worker} {i j : ℕ} {w w' : Worker}
    (hi : workers[i]? ≠ some w) (hj : workers[j]? = some w) : (workers.set i w')[j]? = some w := by
  rw [List.getElem?_set_ne]
  · exact hj
  · rintro rfl
    exact hi hj

theorem Threads.Turn.worker_exited (h : Threads.Turn setup l r r') {j : ℕ} {x : ThreadEnd}
    (hx : r.workers[j]? = some (.exited x)) : r'.workers[j]? = some (.exited x) := by
  cases h with
  | accept hw => exact worker_set_of_ne (by simp [hw]) hx
  | workerExit hw => exact worker_set_of_ne (by simp [hw]) hx
  | mark hw => exact worker_set_of_ne (by simp [hw]) hx
  | send hw => exact worker_set_of_ne (by simp [hw]) hx
  | sendError hw => exact worker_set_of_ne (by simp [hw]) hx
  | _ => exact hx

/-! ## Where a chunk is -/

/-- A chunk with this id is on its way to the file or in it, or the writer has failed. -/
def Threads.Holds (r : Threads) (chunkId : UInt32) : Prop :=
  (∃ (i : ℕ) (data : Bytes), r.workers[i]? = some (Worker.sending ⟨chunkId, data⟩)) ∨
  (∃ data : Bytes, DecryptedChunk.mk chunkId data ∈ r.chunks) ∨
  r.writer.writer.Has chunkId ∨
  ∃ w x, r.writer = .exited w x ∧ x ≠ .ok

structure Conserved (setup : Setup) (r : Threads) : Prop where
  marked : ∀ b p, (b, p) ∈ r.control.marks → chunkIdOf b p < setup.expectedChunks →
    r.Holds (chunkIdOf b p)
  stopped : ∀ w, r.writer = .exited w .ok → setup.expectedChunks ≤ w.nextChunk ∨
    (r.chunks = [] ∧ ∀ worker ∈ r.workers, worker.result?.isSome = true)
  settled : Settled r.writer.writer.buffer
  counted : r.writer.writer.Counted

theorem Conserved.init : Conserved setup .init where
  marked := nofun
  stopped := nofun
  settled := by simp [Settled, Threads.init, WriterThread.writer, Writer.buffer, Writer.init]
  counted := .init

/-- The writer's next id never runs ahead of what it has written. -/
theorem Writer.Sound.nextChunk_le {Q : UInt32 → Bytes → Prop} {w : Writer} (h : w.Sound Q) :
    w.nextChunk.toNat ≤ w.outfile.length := by
  have hnext : w.nextChunk = UInt32.ofNat w.outfile.length := by
    rw [← iterate_succ_eq]
    exact h.next
  rw [hnext, UInt32.toNat_ofNat']
  exact Nat.mod_le _ _

theorem Writer.has_of_lt {Q : UInt32 → Bytes → Prop} {w : Writer} {chunkId : UInt32}
    (h : w.Sound Q) (hlt : chunkId < w.nextChunk) : w.Has chunkId := by
  refine .inr ⟨chunkId.toNat, ?_, ?_⟩
  · exact lt_of_lt_of_le (UInt32.lt_iff_toNat_lt.1 hlt) h.nextChunk_le
  · rw [iterate_succ_eq, UInt32.ofNat_toNat]

/-- A chunk stays where it is or moves on. -/
theorem Threads.Holds.turn {chunkId : UInt32} (h : r.Holds chunkId) (hflow : Flow setup P r)
    (hstopped : ∀ w, r.writer = .exited w .ok → setup.expectedChunks ≤ w.nextChunk ∨
      (r.chunks = [] ∧ ∀ worker ∈ r.workers, worker.result?.isSome = true))
    (hlt : chunkId < setup.expectedChunks) (hturn : Threads.Turn setup l r r') :
    r'.Holds chunkId := by
  -- a worker that is not sending moves
  have hidle : ∀ {i : ℕ} {w w' : Worker}, r.workers[i]? = some w → (∀ chunk, w ≠ .sending chunk) →
      ∀ {packets control sent}, Threads.Holds
        { r with
          packets := packets
          control := control
          workers := r.workers.set i w'
          sent := sent } chunkId := by
    intro i w w' hw hne packets control sent
    refine h.imp (fun ⟨j, data, hj⟩ => ⟨j, data, worker_set_of_ne ?_ hj⟩) id
    rw [hw]
    exact fun heq => hne _ (Option.some.inj heq)
  -- the writer takes the chunk at the head of the channel
  have hreceive : ∀ {w : Writer} {chunk : DecryptedChunk} {chunks : List DecryptedChunk}
      {t : WriterThread}, r.writer = .running w → r.chunks = chunk :: chunks →
      t.writer = w.receive chunk.chunkId chunk.data →
      Threads.Holds { r with chunks := chunks, writer := t } chunkId := by
    intro w chunk chunks t hwriter hchunks ht
    have hsound := hflow.writer
    rw [hwriter] at hsound
    have hgenuine := hflow.chunks chunk (by rw [hchunks]; exact List.mem_cons_self)
    have hoffer : (chunkId = chunk.chunkId ∨ w.Has chunkId) → t.writer.Has chunkId := by
      intro hhas
      rw [ht, Writer.Has, Writer.receive_buffer]
      exact Has.offer hsound hgenuine hhas
    rcases h with hworker | ⟨data, hmem⟩ | hhas | ⟨w', x, hexited, _⟩
    · exact .inl hworker
    · rw [hchunks] at hmem
      rcases List.mem_cons.1 hmem with rfl | hmem
      · exact .inr (.inr (.inl (hoffer (.inl rfl))))
      · exact .inr (.inl ⟨data, hmem⟩)
    · rw [hwriter] at hhas
      exact .inr (.inr (.inl (hoffer (.inr hhas))))
    · rw [hwriter] at hexited
      cases hexited
  cases hturn with
  | accept hw => exact hidle hw nofun
  | workerExit hw => exact hidle hw nofun
  | mark hw => exact hidle hw nofun
  | @send r i chunk w hw hwriter =>
      rcases h with ⟨j, data, hj⟩ | ⟨data, hmem⟩ | hrest
      · by_cases hij : i = j
        · subst hij
          rw [hw] at hj
          cases hj
          exact .inr (.inl ⟨data, by simp⟩)
        · exact .inl ⟨j, data, by rw [List.getElem?_set_ne hij]; exact hj⟩
      · exact .inr (.inl ⟨data, List.mem_append_left _ hmem⟩)
      · exact .inr (.inr hrest)
  | @sendError r i chunk w x hw hwriter =>
      rcases h with ⟨j, data, hj⟩ | hrest
      · by_cases hij : i = j
        · -- the chunk is dropped: the writer has failed, or has it already
          cases x with
          | ok =>
              rcases hstopped w hwriter with hdone | ⟨_, hall⟩
              · have hsound := hflow.writer
                rw [hwriter] at hsound
                refine .inr (.inr (.inl ?_))
                rw [hwriter]
                exact Writer.has_of_lt hsound (UInt32.lt_of_lt_of_le hlt hdone)
              · have := hall _ (List.mem_of_getElem? hw)
                simp [Worker.result?] at this
          | err => exact .inr (.inr (.inr ⟨w, _, hwriter, nofun⟩))
          | panicked => exact .inr (.inr (.inr ⟨w, _, hwriter, nofun⟩))
        · exact .inl ⟨j, data, by rw [List.getElem?_set_ne hij]; exact hj⟩
      · exact .inr hrest
  | write hwriter hchunks => exact hreceive hwriter hchunks rfl
  | writeLast hwriter hchunks => exact hreceive hwriter hchunks rfl
  | writeOverflow hwriter hchunks => exact hreceive hwriter hchunks rfl
  | writeEnd hwriter =>
      refine h.imp id (Or.imp id (Or.imp ?_ fun ⟨w', x, hexited, _⟩ => ?_))
      · rw [hwriter]; exact id
      · rw [hwriter] at hexited; cases hexited
  | writerError hwriter => exact .inr (.inr (.inr ⟨_, _, rfl, nofun⟩))
  | _ => exact h

/-- No worker is left to move. -/
theorem not_all_exited {i : ℕ} {w : Worker} (hw : r.workers[i]? = some w)
    (hrunning : w.result? = none) : ¬ ∀ worker ∈ r.workers, worker.result?.isSome = true := by
  intro hall
  have := hall w (List.mem_of_getElem? hw)
  rw [hrunning] at this
  cases this

theorem Conserved.turn (h : Conserved setup r) (hflow : Flow setup P r)
    (hids : ∀ p, P p → p.chunkId = chunkIdOf p.blockId p.packetInBlock)
    (hturn : Threads.Turn setup l r r') : Conserved setup r' := by
  -- marks only appear in the step of a worker that goes on to hold the chunk
  have hmarked : ∀ b p, (b, p) ∈ r'.control.marks → chunkIdOf b p < setup.expectedChunks →
      r'.Holds (chunkIdOf b p) := by
    intro b p hmem hlt
    have hold : (b, p) ∈ r.control.marks → r'.Holds (chunkIdOf b p) := fun hmem =>
      (h.marked b p hmem hlt).turn hflow h.stopped hlt hturn
    cases hturn with
    | @mark r i packet data hw =>
        rcases List.mem_append.1 hmem with hmem | hmem
        · exact hold hmem
        · cases List.mem_singleton.1 hmem
          refine .inl ⟨i, data, ?_⟩
          rw [← hids packet (hflow.verified _ _ (List.mem_of_getElem? hw)).1,
            List.getElem?_set_self (List.getElem?_eq_some_iff.1 hw).1]
    | ack hmove => exact hold (hmove.marks ▸ hmem)
    | _ => exact hold hmem
  have hstopped : ∀ {i : ℕ} {w w' : Worker}, r.workers[i]? = some w → w.result? = none →
      ∀ w₀, r.writer = .exited w₀ .ok → setup.expectedChunks ≤ w₀.nextChunk ∨
        (r.chunks = [] ∧ ∀ worker ∈ r.workers.set i w', worker.result?.isSome = true) :=
    fun hw hrunning w₀ hexited =>
      .inl ((h.stopped w₀ hexited).resolve_right fun hall => not_all_exited hw hrunning hall.2)
  -- the writer takes a chunk
  have hreceive : ∀ {w : Writer} (chunk : DecryptedChunk), r.writer = .running w →
      Settled (w.receive chunk.chunkId chunk.data).buffer ∧
        (w.receive chunk.chunkId chunk.data).Counted := by
    intro w chunk hwriter
    have hcounted := h.counted
    rw [hwriter] at hcounted
    refine ⟨?_, hcounted.receive _ _⟩
    rw [Writer.receive_buffer]
    exact settled_offer _ _
  cases hturn with
  | accept hw => exact ⟨hmarked, hstopped hw rfl, h.settled, h.counted⟩
  | workerExit hw => exact ⟨hmarked, hstopped hw rfl, h.settled, h.counted⟩
  | mark hw => exact ⟨hmarked, hstopped hw rfl, h.settled, h.counted⟩
  | sendError hw => exact ⟨hmarked, hstopped hw rfl, h.settled, h.counted⟩
  | send hw hwriter =>
      refine ⟨hmarked, fun w hexited => ?_, h.settled, h.counted⟩
      cases hwriter.symm.trans hexited
  | @write _ _ chunk _ hwriter =>
      obtain ⟨hsettled, hcounted⟩ := hreceive chunk hwriter
      exact ⟨hmarked, nofun, hsettled, hcounted⟩
  | @writeLast _ _ chunk _ hwriter _ hdone =>
      obtain ⟨hsettled, hcounted⟩ := hreceive chunk hwriter
      refine ⟨hmarked, fun w hexited => ?_, hsettled, hcounted⟩
      cases hexited
      exact .inl hdone
  | @writeOverflow _ _ chunk _ hwriter =>
      obtain ⟨hsettled, hcounted⟩ := hreceive chunk hwriter
      exact ⟨hmarked, fun _ hexited => (by cases hexited), hsettled, hcounted⟩
  | writeEnd hwriter hchunks hworkers =>
      obtain ⟨_, _, hsettled, hcounted⟩ := h
      rw [hwriter] at hsettled hcounted
      exact ⟨hmarked, fun _ _ => .inr ⟨hchunks, List.all_eq_true.1 hworkers⟩, hsettled, hcounted⟩
  | writerError hwriter =>
      obtain ⟨_, _, hsettled, hcounted⟩ := h
      rw [hwriter] at hsettled hcounted
      exact ⟨hmarked, fun _ hexited => (by cases hexited), hsettled, hcounted⟩
  | _ => exact ⟨hmarked, h.stopped, h.settled, h.counted⟩

theorem conserved_of_reaches (hrun : (receiver setup).Reaches ls r) : Conserved setup r := by
  refine hrun.history (P := fun _ r => Conserved setup r) .init
    fun ls r l r' hrun ih _ hstep => ih.turn (flow_of_reaches hrun) ?_ (Threads.turn_of_step hstep)
  rintro p ⟨d, pkt, _, _, rfl⟩
  rfl

/-! ## A finished pipeline -/

/-- The data a packet decrypts to, if it passes the hash test, is acceptable for its chunk. -/
def GoodPacket (setup : Setup) (Good : UInt32 → Bytes → Prop) (p : ReceivedPacket) : Prop :=
  ∀ data, checkPacket setup p = some data → Good p.chunkId data

/-- Every data packet that has arrived is good. -/
def GoodArrivals (setup : Setup) (Good : UInt32 → Bytes → Prop) (ls : List Label) : Prop :=
  ∀ d pkt, Label.datagram d ∈ ls → Incoming.ofDatagram d = .data pkt →
    GoodPacket setup Good (receivedPacket pkt)

variable {Good : UInt32 → Bytes → Prop}

theorem sound_of_reaches (hrun : (receiver setup).Reaches ls r)
    (hgood : GoodArrivals setup Good ls) : r.writer.writer.Sound Good := by
  refine (flow_of_reaches hrun).writer.mono ?_
  rintro chunkId data ⟨p, ⟨d, pkt, hd, hdata, rfl⟩, hid, hcheck⟩
  have hchunk : (receivedPacket pkt).chunkId = chunkId := hid
  exact hchunk ▸ hgood d pkt hd hdata data hcheck

/-- If only chunks of the file are good, the writer never writes more than the file has. -/
theorem outfile_length_le (hrun : (receiver setup).Reaches ls r)
    (hgood : GoodArrivals setup Good ls)
    (hlt : ∀ chunkId data, Good chunkId data → chunkId < setup.expectedChunks) :
    r.writer.writer.outfile.length ≤ setup.expectedChunks.toNat := by
  by_contra hlong
  -- the item behind the last chunk of the file would have its number
  have hidx : setup.expectedChunks.toNat < r.writer.writer.outfile.length := by omega
  have hout := (sound_of_reaches hrun hgood).out _ _ (List.getElem?_eq_getElem hidx)
  rw [iterate_succ_eq, UInt32.ofNat_toNat] at hout
  exact absurd (hlt _ _ hout) (UInt32.lt_irrefl _)

theorem GoodArrivals.of_snoc (h : GoodArrivals setup Good (ls ++ [l])) :
    GoodArrivals setup Good ls :=
  fun d pkt hd hpkt => h d pkt (List.mem_append_left _ hd) hpkt

/-- Without I/O errors, and if only chunks of the file are good, the writer does not fail: there are
    too few chunks for its counters to overflow. -/
theorem writer_exited_ok (hrun : (receiver setup).Reaches ls r) (hio : Label.writerError ∉ ls)
    (hgood : GoodArrivals setup Good ls)
    (hlt : ∀ chunkId data, Good chunkId data → chunkId < setup.expectedChunks) :
    ∀ w result, r.writer = .exited w result → result = .ok := by
  refine hrun.history (P := fun ls r => Label.writerError ∉ ls → GoodArrivals setup Good ls →
    ∀ w result, r.writer = .exited w result → result = .ok)
    (fun _ _ w result hw => by cases hw) ?_ hio hgood
  intro ls r l r' hrun ih _ hstep hio hgood w result hw
  have hrun' := hrun.snoc trivial hstep
  have hold := ih (fun hmem => hio (List.mem_append_left _ hmem)) hgood.of_snoc
  cases Threads.turn_of_step hstep with
  | write => cases hw
  | writeLast => cases hw; rfl
  | writeEnd => cases hw; rfl
  | writerError => exact absurd (by simp) hio
  | @writeOverflow r w₀ chunk chunks hwriter hchunks hoverflow =>
      have hlen := outfile_length_le hrun' hgood hlt
      have hsound := sound_of_reaches hrun hgood.of_snoc
      have hle := outfile_length_le hrun hgood.of_snoc hlt
      have hE := setup.expectedChunks.toNat_lt
      rw [hwriter] at hsound hle
      have hnext := hsound.nextChunk_le
      simp only [Writer.overflows, decide_eq_true_eq] at hoverflow
      simp only [WriterThread.writer] at hlen hle hnext
      omega
  | _ => exact hold w result hw

/-- All blocks are completed, none of them given up: every chunk of the file is held. -/
theorem holds_of_finished (hrun : (receiver setup).Run (EntriesFit setup) ls r)
    (hgave : r.control.gaveUp = []) (hack : r.control.ack = .exited .ok) :
    ∀ chunkId < setup.expectedChunks, r.Holds chunkId := by
  have hacks := ackInv_of_reaches hrun.reaches
  have hcomplete := completeInv_of_run hrun
  have hwhole : ∀ b ∈ r.control.shared.completed, r.control.Whole setup.expectedChunks b :=
    fun b hb => hcomplete.written b ((hacks.complete_mem_iff b).2 (.inl hb)) (by simp [hgave])
  have hall : ∀ b < totalBlocks setup.expectedChunks, b ∈ r.control.shared.completed := by
    rw [all_below_iff_le_card fun b hb => (hwhole b hb).1, ← hacks.counted]
    exact hacks.exited hack
  intro chunkId hid
  obtain ⟨p, hp, hmark⟩ :=
    (hwhole _ (hall _ (blockOf_fst_lt hid))).2 _ (blockOf_snd_lt hid)
  have hpair : chunkIdOf (blockOf chunkId).1 p = chunkId := by
    rw [UInt16.toNat_inj.1 hp, chunkIdOf_blockOf]
  have hheld := (conserved_of_reaches hrun.reaches).marked _ p hmark (by rwa [hpair])
  rwa [hpair] at hheld

/-- **The finished pipeline.** All threads have exited, the writer without an error, and no block was
    given up: exactly the chunks of the file have been written, in order, each with good data. -/
theorem written_of_finished (hrun : (receiver setup).Run (EntriesFit setup) ls r)
    (hgood : GoodArrivals setup Good ls)
    (hlt : ∀ chunkId data, Good chunkId data → chunkId < setup.expectedChunks)
    (hgave : r.control.gaveUp = []) (hack : r.control.ack = .exited .ok)
    (hworkers : ∀ worker ∈ r.workers, worker.result?.isSome = true) {w : Writer}
    (hwriter : r.writer = .exited w .ok) :
    w.outfile.length = setup.expectedChunks.toNat ∧
      (∀ (i : ℕ) data, w.outfile[i]? = some data → Good (UInt32.ofNat i) data) ∧
      w.bytes = (w.outfile.map List.length).sum ∧ w.chunksWritten = setup.expectedChunks := by
  have hconserved := conserved_of_reaches hrun.reaches
  have hsound := sound_of_reaches hrun.reaches hgood
  have hle := outfile_length_le hrun.reaches hgood hlt
  have hcounted := hconserved.counted
  have hsettled := hconserved.settled
  have hheld := holds_of_finished hrun hgave hack
  simp only [hwriter, WriterThread.writer] at hsound hle hcounted hsettled
  have hge : setup.expectedChunks.toNat ≤ w.outfile.length := by
    rcases hconserved.stopped w hwriter with hdone | ⟨hchunks, _⟩
    · exact (UInt32.le_iff_toNat_le.1 hdone).trans hsound.nextChunk_le
    · refine hsettled.le_length hsound ?_ fun i hi => ?_
      · intro i hi j hj heq
        have hi32 := hi.trans setup.expectedChunks.toNat_lt
        rw [iterate_succ_eq, iterate_succ_eq] at heq
        rw [← UInt32.toNat_ofNat_of_lt' hi32, heq,
          UInt32.toNat_ofNat_of_lt' (lt_of_le_of_lt hj hi32)]
      · have hi32 := hi.trans setup.expectedChunks.toNat_lt
        rw [iterate_succ_eq]
        have hid : UInt32.ofNat i < setup.expectedChunks := by
          rw [UInt32.lt_iff_toNat_lt, UInt32.toNat_ofNat_of_lt' hi32]
          exact hi
        rcases hheld _ hid with ⟨j, data, hj⟩ | ⟨data, hmem⟩ | hhas | ⟨w', x, hexited, hx⟩
        · have := hworkers _ (List.mem_of_getElem? hj)
          cases this
        · rw [hchunks] at hmem
          cases hmem
        · rwa [hwriter] at hhas
        · rw [hwriter] at hexited
          cases hexited
          exact absurd rfl hx
  have hlen := le_antisymm hle hge
  refine ⟨hlen, fun i data hi => ?_, hcounted.bytes, ?_⟩
  · rw [← iterate_succ_eq]
    exact hsound.out i data hi
  · rw [hcounted.chunksWritten, hlen, UInt32.ofNat_toNat]

end SecureTransfer.Receiver
