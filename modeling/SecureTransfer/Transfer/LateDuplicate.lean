import SecureTransfer.Receiver.Forwarded
import SecureTransfer.Transfer.Delivery

set_option autoImplicit false

/-! # A duplicate after the end

The network may deliver a packet once more when the file is complete. A worker that passes it on
then finds the writer gone, and `run` returns its error (`late_duplicate_fails`); if none comes so
late, `run` returns `Ok` (`finished_returns`). -/

namespace SecureTransfer.Transfer

open Sender Receiver

variable {job : FileTransfer} {setup : Setup} {ls : List Label} {w : World}
  {inputs : List LoopInput} {labels : List Receiver.Label}

/-- What the receiver does next is in time. -/
def World.InTime (setup : Setup) (w : World) : Label → Prop
  | .receiver l => w.receiver.OnTime setup l
  | .deliver d => w.receiver.OnTime setup (.datagram d)
  | _ => True

instance : DecidablePred (w.InTime setup)
  | .receiver l => inferInstanceAs (Decidable (w.receiver.OnTime setup l))
  | .deliver d => inferInstanceAs (Decidable (w.receiver.OnTime setup (.datagram d)))
  | .chunkRelay _ | .ackRelay | .sender _ | .lose _ | .duplicate _ =>
    inferInstanceAs (Decidable True)

/-- A step of the receiver's own threads, and no I/O error. -/
def Label.Own : Label → Prop
  | .receiver l => l.Own
  | _ => False

/-- The sender's packets name positions whose chunk id fits. -/
theorem Parties.fits (h : Parties job.setup job.upload ls w inputs labels) {d : Datagram}
    (hd : d ∈ w.wire) {pkt : DecodedDataPacket} (hpkt : Incoming.ofDatagram d = .data pkt) :
    chunkIdOverflows pkt.blockId pkt.packetInBlock = false := by
  obtain ⟨m, hm, _⟩ := h.books
  rcases h.sent hm (h.wire d hd) with ⟨c, hc, rfl, _⟩ | ⟨b, _, _, rfl⟩
  · obtain ⟨hash, payload, hincoming⟩ := job.upload.incoming hc
    rw [hincoming] at hpkt
    cases hpkt
    exact chunkIdOverflows_blockOf _
  · rw [Incoming.ofDatagram_blockEnd] at hpkt
    cases hpkt

/-- As long as nothing comes late, no thread fails. -/
theorem clean_of_run (hrun : (transfer job.setup job.upload).Run (World.InTime job.setup) ls w)
    (hudp : Label.receiver .udpError ∉ ls) (hwriter : Label.receiver .writerError ∉ ls) :
    Clean job.setup w.receiver := by
  refine hrun.history (P := fun ls w => Label.receiver .udpError ∉ ls →
    Label.receiver .writerError ∉ ls → Clean job.setup w.receiver) (fun _ _ => .init) ?_ hudp hwriter
  intro ls w l w' hrun ih hok hstep hudp hwriter
  rw [List.mem_append, not_or, List.mem_singleton] at hudp hwriter
  have hclean := ih hudp.1 hwriter.1
  obtain ⟨inputs, labels, h⟩ := parties_of_reaches hrun.reaches
  have hexited := h.writer_ok hwriter.1
  have hconserved := conserved_of_reaches h.receiver
  cases World.move_of_step hstep with
  | receiver hlocal hmove =>
      refine hclean.turn (Threads.turn_of_step hmove) hok ?_ ?_ ?_ hexited hconserved
      · rintro rfl
        exact hudp.2 rfl
      · rintro rfl
        cases hlocal
      · rintro d pkt rfl
        cases hlocal
  | @deliver _ d _ hd hmove =>
      have hturn := Threads.turn_of_step (l := .datagram d) hmove
      refine hclean.turn hturn hok nofun nofun ?_ hexited hconserved
      intro d' pkt hd' hpkt
      cases hd'
      exact h.fits hd hpkt
  | _ => exact hclean

/-- A run without I/O errors in which nothing comes late has come to the point where all is written
    and all blocks are acknowledged. -/
structure Finished (job : FileTransfer) (ls : List Label) (w : World) : Prop where
  run : (transfer job.setup job.upload).Run (World.InTime job.setup) ls w
  udp : Label.receiver .udpError ∉ ls
  writer : Label.receiver .writerError ∉ ls
  written : w.receiver.Written job.setup
  complete : ∀ b < totalBlocks job.setup.expectedChunks, .complete b ∈ w.receiver.control.acks

theorem Finished.finishing (h : Finished job ls w) : Finishing job.setup w.receiver := by
  have hclean := clean_of_run h.run h.udp h.writer
  obtain ⟨inputs, labels, hparties⟩ := parties_of_reaches h.run.reaches
  obtain ⟨m, hm, _⟩ := hparties.books
  have hacks := hparties.acks_inv
  have htracked : ∀ b entry, w.receiver.control.shared.Tracked b entry →
      b < totalBlocks job.setup.expectedChunks :=
    fun b entry ht => (hparties.named hm (hacks.tracked b entry ht)).2
  have hcompleted : (∀ b rest, w.receiver.control.ack ≠ .removing b rest) →
      ∀ b < totalBlocks job.setup.expectedChunks, b ∈ w.receiver.control.shared.completed :=
    fun hne b hb => ((hacks.complete_mem_iff b).1 (h.complete b hb)).resolve_right
      fun ⟨rest, hpc⟩ => hne b rest hpc
  have huntracked : (∀ b rest, w.receiver.control.ack ≠ .removing b rest) →
      ∀ b entry, ¬ w.receiver.control.shared.Tracked b entry := fun hne b entry ht =>
    hacks.consistent.disjoint b entry ht (hcompleted hne b (htracked b entry ht))
  refine ⟨hclean, joined_of_reaches hparties.receiver, hclean.idle h.written,
    fun b snapshot rest hpc => ?_, fun hne => ⟨huntracked hne, ?_⟩, hparties.writer_ok h.writer,
    fun writer hrunning => ?_⟩
  · obtain ⟨entry, ht, _⟩ := hacks.acking b snapshot rest hpc
    refine huntracked (fun b' rest' hpc' => ?_) b entry ht
    rw [hpc] at hpc'
    cases hpc'
  · exact (hacks.le_completed_iff fun b hb => (hparties.named hm hb).2).2 (hcompleted hne)
  · -- the writer has only written everything without a chunk if there is none
    have hwritten := h.written
    rw [Threads.Written, hrunning] at hwritten
    rcases hclean.writing writer hrunning with rfl | hmore
    · refine List.eq_nil_iff_forall_not_mem.2 fun chunk hchunk => ?_
      have hsent := (fromSent_of_reaches hparties.receiver).chunks chunk hchunk
      have hgood := sent_good hparties.receiver hparties.goodArrivals chunk hsent
      exact UInt32.not_lt_zero (UInt32.lt_of_lt_of_le (job.chunkId_lt hgood) hwritten)
    · exact absurd hmore (UInt32.not_lt.2 hwritten)

/-- A step towards the end is in time. -/
theorem Finished.advance (h : Finished job ls w) (hadvances : w.receiver.Advances job.setup) :
    ∃ l w', Label.Own l ∧ (transfer job.setup job.upload).step l w = some w' ∧
      w'.receiver.rank < w.receiver.rank ∧ Finished job (ls ++ [l]) w' := by
  obtain ⟨l, r, hown, hstep, hrank, hwriter, hacks⟩ := hadvances
  have hlocal := isLocal_of_own hown
  have honTime : w.receiver.OnTime job.setup l := by
    cases l with
    | datagram d => cases hown
    | writerRecv => exact fun _ => h.finishing.idle
    | _ => trivial
  have hmove : (transfer job.setup job.upload).step (.receiver l) w
      = some { w with receiver := r } := by
    have hstep' : Threads.step job.setup l w.receiver = some r := hstep
    simp [transfer, World.step, hlocal, hstep']
  refine ⟨.receiver l, { w with receiver := r }, hown, hmove, hrank,
    h.run.snoc honTime hmove, ?_, ?_, ?_, ?_⟩
  · rw [List.mem_append, not_or, List.mem_singleton]
    refine ⟨h.udp, fun heq => ?_⟩
    cases heq
    cases hown
  · rw [List.mem_append, not_or, List.mem_singleton]
    refine ⟨h.writer, fun heq => ?_⟩
    cases heq
    cases hown
  · rw [Threads.Written, hwriter]
    exact h.written
  · dsimp only
    rw [hacks]
    exact h.complete

/-- **A finished transfer returns.** There are no I/O errors, and no data packet is on its way when
    the writer takes the last chunk nor arrives later. Then as soon as the writer has written all
    chunks and a `Complete` has been written for every block: no thread has failed, and the
    receiver's own threads can go on to where all of them have exited and `run` has returned
    `Ok`. -/
theorem finished_returns (hrun : (transfer job.setup job.upload).Run (World.InTime job.setup) ls w)
    (hudp : Label.receiver .udpError ∉ ls) (hwriter : Label.receiver .writerError ∉ ls)
    (hwritten : w.receiver.writer.writer.outfile.length = job.setup.expectedChunks.toNat)
    (hcomplete : ∀ b < totalBlocks job.setup.expectedChunks,
      .complete b ∈ w.receiver.control.acks) :
    (∀ x, w.receiver.udp = .exited x → x = .ok) ∧
    (∀ x, Worker.exited x ∈ w.receiver.workers → x = .ok) ∧
    (w.receiver.main ≠ .failed ∧ w.receiver.main ≠ .panicked) ∧
    ∃ ls' w', (∀ l ∈ ls', Label.Own l) ∧
      (transfer job.setup job.upload).exec ls' w = some w' ∧ w'.receiver.udp = .exited .ok ∧
      (∀ worker ∈ w'.receiver.workers, worker = .exited .ok) ∧
      ∃ bytes chunks, w'.receiver.main = .returned bytes chunks := by
  obtain ⟨inputs, labels, h⟩ := parties_of_reaches hrun.reaches
  have hnext : w.receiver.Written job.setup := by
    have hsound := (fromSent_of_reaches h.receiver).writer.next
    rw [iterate_succ_eq] at hsound
    have hnext : w.receiver.writer.writer.nextChunk = UInt32.ofNat _ := hsound
    have hlen : w.receiver.writer.writer.buffer.out.length = job.setup.expectedChunks.toNat :=
      hwritten
    rw [Threads.Written, hnext, hlen, UInt32.ofNat_toNat]
    exact UInt32.le_refl _
  have hclean := clean_of_run hrun hudp hwriter
  refine ⟨hclean.udp, hclean.workers, hclean.main, ?_⟩
  have hprogress : ∀ w, (∃ ls, Finished job ls w) →
      (∃ bytes chunks, w.receiver.main = .returned bytes chunks) ∨
      ∃ l w', Label.Own l ∧ (transfer job.setup job.upload).step l w = some w' ∧
        w'.receiver.rank < w.receiver.rank ∧ ∃ ls, Finished job ls w' := by
    rintro w ⟨ls, hw⟩
    refine hw.finishing.progress.imp_right fun hadvances => ?_
    obtain ⟨l, w', hown, hstep, hrank, hw'⟩ := hw.advance hadvances
    exact ⟨l, w', hown, hstep, hrank, _, hw'⟩
  obtain ⟨ls', w', hown, hexec, ⟨ls'', hfinished⟩, bytes, chunks, hreturned⟩ :=
    Lts.exists_exec_of_rank (M := transfer job.setup job.upload) (fun w => ∃ ls, Finished job ls w)
      (fun w => ∃ bytes chunks, w.receiver.main = .returned bytes chunks) Label.Own
      (fun w => w.receiver.rank) hprogress w ⟨ls, hrun, hudp, hwriter, hnext, hcomplete⟩
  have hjoined := hfinished.finishing.joined
  rw [hreturned] at hjoined
  exact ⟨ls', w', hown, hexec, hjoined.2.1, hjoined.2.2.1, bytes, chunks, hreturned⟩

/-- The chunk of `threeBytes` is delivered, written and acknowledged. -/
def threeBytesFinished : List Label :=
  threeBytesSent ++ ([.receiver .udpLoop, .deliver threeBytesPacket.packet] : List Label) ++
    ([.udpSend, .workerRecv 0, .workerMark 0, .workerSend 0, .writerRecv, .tick (fromMillis 100),
      .ack (.poll [0]), .ack .next, .ack .write] : List Receiver.Label).map .receiver

theorem finished_returns_threeBytes :
    ∃ ls w bytes chunks, (transfer threeBytes.setup threeBytes.upload).Reaches ls w ∧
      w.receiver.main = .returned bytes chunks := by
  obtain ⟨w, hw, hwritten, hcomplete⟩ := Lts.exists_exec
    (transfer threeBytes.setup threeBytes.upload) threeBytesFinished
    (fun w => w.receiver.writer.writer.outfile.length = threeBytes.setup.expectedChunks.toNat ∧
      w.receiver.control.acks = [.complete 0]) (by decide +kernel)
  have hrun : (transfer threeBytes.setup threeBytes.upload).Run (World.InTime threeBytes.setup)
      threeBytesFinished w := Lts.run_of_checks (by decide +kernel) hw
  have hall : ∀ b < totalBlocks threeBytes.setup.expectedChunks,
      .complete b ∈ w.receiver.control.acks := by
    intro b hb
    have hzero : b = 0 := by
      have hone : totalBlocks threeBytes.setup.expectedChunks = 1 := by decide +kernel
      rw [hone, UInt32.lt_iff_toNat_lt] at hb
      exact UInt32.toNat_inj.1 (Nat.lt_one_iff.1 hb)
    rw [hcomplete, hzero]
    exact List.mem_singleton_self _
  obtain ⟨_, _, _, ls', w', _, hexec, _, _, bytes, chunks, hreturned⟩ :=
    finished_returns hrun (by simp [threeBytesFinished, threeBytesSent])
      (by simp [threeBytesFinished, threeBytesSent]) hwritten hall
  exact ⟨_, w', bytes, chunks, Lts.reaches_of_exec (Lts.exec_trans hw hexec), hreturned⟩

/-- The network delivers the packet of `threeBytes` twice, the second time when the chunk has been
    written. -/
def threeBytesTwice : List Label :=
  threeBytesSent ++ ([.duplicate threeBytesPacket.packet, .receiver .udpLoop,
    .deliver threeBytesPacket.packet] : List Label) ++
    ([.udpSend, .workerRecv 0, .workerMark 0, .workerSend 0, .writerRecv, .udpLoop] :
      List Receiver.Label).map .receiver ++
    ([.deliver threeBytesPacket.packet] : List Label) ++
    ([.udpSend, .workerRecv 1, .workerMark 1, .workerSend 1, .tick (fromMillis 100),
      .ack (.poll [0]), .ack .next, .ack .write, .ack .remove, .ack .next, .ack .exit, .main,
      .udpLoop, .main, .workerRecv 0, .main, .main] : List Receiver.Label).map .receiver

/-- **A finished transfer fails.** The whole file has been written and its block acknowledged, and
    `run` returns the error of the worker that had the duplicate. -/
theorem late_duplicate_fails :
    ∃ ls w, (transfer threeBytes.setup threeBytes.upload).Reaches ls w ∧
      Label.receiver .udpError ∉ ls ∧ Label.receiver .writerError ∉ ls ∧
      w.receiver.control.gaveUp = [] ∧
      w.receiver.writer.writer.outfile.length = threeBytes.setup.expectedChunks.toNat ∧
      totalBlocks threeBytes.setup.expectedChunks = 1 ∧ w.receiver.control.acks = [.complete 0] ∧
      (∃ worker ∈ w.receiver.workers, worker = .exited .err) ∧ w.receiver.main = .failed := by
  obtain ⟨w, hw, hgave, hwritten, hacks, hworkers, hmain⟩ := Lts.exists_exec
    (transfer threeBytes.setup threeBytes.upload) threeBytesTwice
    (fun w => w.receiver.control.gaveUp = [] ∧
      w.receiver.writer.writer.outfile.length = threeBytes.setup.expectedChunks.toNat ∧
      w.receiver.control.acks = [.complete 0] ∧
      (∃ worker ∈ w.receiver.workers, worker.result? = some .err) ∧ w.receiver.main = .failed)
    (by decide +kernel)
  obtain ⟨worker, hmem, hresult⟩ := hworkers
  exact ⟨_, w, Lts.reaches_of_exec hw, by simp [threeBytesTwice, threeBytesSent],
    by simp [threeBytesTwice, threeBytesSent], hgave, hwritten, by decide +kernel, hacks,
    ⟨worker, hmem, Worker.exited_of_result hresult⟩, hmain⟩

end SecureTransfer.Transfer
