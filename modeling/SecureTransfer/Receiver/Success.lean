import SecureTransfer.Receiver.Conservation

set_option autoImplicit false

/-! # What `Ok` from `run` says

`run` joins its threads in a fixed order and returns `Ok` with what the writer reports, which it
does not compare with what the sender announced. -/

namespace SecureTransfer.Receiver

variable {setup : Setup} {r r' : Threads} {l : Label} {ls : List Label}

/-! ## Joining -/

theorem AckManager.exited_of_result {ack : AckManager} {x : ThreadEnd} (h : ack.result? = some x) :
    ack = .exited x := by
  cases ack <;> simp_all [AckManager.result?]

theorem UdpThread.exited_of_result {udp : UdpThread} {x : ThreadEnd} (h : udp.result? = some x) :
    udp = .exited x := by
  cases udp <;> simp_all [UdpThread.result?]

theorem Worker.exited_of_result {worker : Worker} {x : ThreadEnd} (h : worker.result? = some x) :
    worker = .exited x := by
  cases worker <;> simp_all [Worker.result?]

theorem WriterThread.exited_of_some {writer : WriterThread} {x : ThreadEnd}
    (h : writer.result? = some x) : writer = .exited writer.writer x := by
  cases writer <;> simp_all [WriterThread.result?, WriterThread.writer]

/-! ## The joins of `run` -/

/-- How the thread has exited that `run` is about to join. -/
def Threads.joining? (r : Threads) : Option ThreadEnd :=
  match r.main with
  | .joinAck => r.control.ack.result?
  | .joinUdp => r.udp.result?
  | .joinWorkers k => r.workers[k]?.bind Worker.result?
  | .joinWriter => r.writer.result?
  | .returned _ _ | .failed | .panicked => none

/-- The moves of `run`, with what becomes of `running`. -/
inductive Threads.MainMove (r : Threads) : Bool → Main → Prop
  | ack (hpc : r.main = .joinAck) (hack : r.control.ack = .exited .ok) : MainMove r false .joinUdp
  | udp (hpc : r.main = .joinUdp) (hudp : r.udp = .exited .ok) :
      MainMove r r.running (.joinWorkers 0)
  | worker {k : ℕ} (hpc : r.main = .joinWorkers k) (hworker : r.workers[k]? = some (.exited .ok)) :
      MainMove r r.running (.joinWorkers (k + 1))
  | workers {k : ℕ} (hpc : r.main = .joinWorkers k) (hnone : r.workers[k]? = none) :
      MainMove r r.running .joinWriter
  | writer {w : Writer} (hpc : r.main = .joinWriter) (hwriter : r.writer = .exited w .ok) :
      MainMove r r.running (.returned w.bytes w.chunksWritten)
  | failed (hjoining : r.joining? = some .err) : MainMove r r.running .failed
  | panicked (hjoining : r.joining? = some .panicked) : MainMove r r.running .panicked

theorem Main.join_eq_some {result : Option ThreadEnd} {next main : Main}
    (h : Main.join result next = some main) :
    (result = some .ok ∧ main = next) ∨ (result = some .err ∧ main = .failed) ∨
      (result = some .panicked ∧ main = .panicked) := by
  unfold Main.join at h
  split at h
  · cases h
  · exact .inl ⟨rfl, (Option.some.inj h).symm⟩
  · exact .inr (.inl ⟨rfl, (Option.some.inj h).symm⟩)
  · exact .inr (.inr ⟨rfl, (Option.some.inj h).symm⟩)

theorem Threads.mainMove_of_onMain {running : Bool} {main : Main}
    (h : r.onMain = some { r with running := running, main := main }) :
    r.MainMove running main := by
  have hread : ∀ {running' : Bool} {main' : Main},
      { r with running := running', main := main' } = { r with running := running, main := main } →
      running = running' ∧ main = main' := fun heq =>
    ⟨(congrArg Threads.running heq).symm, (congrArg Threads.main heq).symm⟩
  unfold onMain at h
  split at h
  · next hpc =>
      obtain ⟨m, hjoin, heq⟩ := Option.map_eq_some_iff.1 h
      obtain ⟨rfl, rfl⟩ := hread heq
      rcases Main.join_eq_some hjoin with ⟨hx, rfl⟩ | ⟨hx, rfl⟩ | ⟨hx, rfl⟩
      · rw [if_pos hx]
        exact .ack hpc (AckManager.exited_of_result hx)
      · rw [hx, if_neg (by decide)]
        exact .failed (by rw [joining?, hpc]; exact hx)
      · rw [hx, if_neg (by decide)]
        exact .panicked (by rw [joining?, hpc]; exact hx)
  · next hpc =>
      obtain ⟨m, hjoin, heq⟩ := Option.map_eq_some_iff.1 h
      obtain ⟨rfl, rfl⟩ := hread heq
      rcases Main.join_eq_some hjoin with ⟨hx, rfl⟩ | ⟨hx, rfl⟩ | ⟨hx, rfl⟩
      · exact .udp hpc (UdpThread.exited_of_result hx)
      · exact .failed (by rw [joining?, hpc]; exact hx)
      · exact .panicked (by rw [joining?, hpc]; exact hx)
  · next k hpc =>
      split at h
      · next hnone =>
          obtain ⟨rfl, rfl⟩ := hread (Option.some.inj h)
          exact .workers hpc hnone
      · next worker hworker =>
          obtain ⟨m, hjoin, heq⟩ := Option.map_eq_some_iff.1 h
          obtain ⟨rfl, rfl⟩ := hread heq
          have hjoining : r.joining? = worker.result? := by
            rw [joining?, hpc]
            simp only [hworker, Option.bind_some]
          rcases Main.join_eq_some hjoin with ⟨hx, rfl⟩ | ⟨hx, rfl⟩ | ⟨hx, rfl⟩
          · exact .worker hpc (Worker.exited_of_result hx ▸ hworker)
          · exact .failed (hjoining.trans hx)
          · exact .panicked (hjoining.trans hx)
  · next hpc =>
      obtain ⟨m, hjoin, heq⟩ := Option.map_eq_some_iff.1 h
      obtain ⟨rfl, rfl⟩ := hread heq
      rcases Main.join_eq_some hjoin with ⟨hx, rfl⟩ | ⟨hx, rfl⟩ | ⟨hx, rfl⟩
      · exact .writer hpc (WriterThread.exited_of_some hx)
      · exact .failed (by rw [joining?, hpc]; exact hx)
      · exact .panicked (by rw [joining?, hpc]; exact hx)
  · cases h
  · cases h
  · cases h

/-- A thread that has failed ends `run`. -/
theorem Threads.onMain_of_joining {x : ThreadEnd} (h : r.joining? = some x) (hx : x ≠ .ok)
    {main : Main} (hmain : Main.join (some x) .joinAck = some main) :
    r.onMain = some { r with main := main } := by
  have hnext : ∀ next, Main.join (some x) next = some main := by
    intro next
    cases x with
    | ok => exact absurd rfl hx
    | _ => exact hmain
  cases hpc : r.main with
  | joinAck =>
      rw [joining?, hpc] at h
      simp [onMain, hpc, h, hnext, hx]
  | joinUdp =>
      rw [joining?, hpc] at h
      simp [onMain, hpc, h, hnext]
  | joinWorkers k =>
      rw [joining?, hpc] at h
      obtain ⟨worker, hworker, hresult⟩ := Option.bind_eq_some_iff.1 h
      simp [onMain, hpc, hworker, hresult, hnext]
  | joinWriter =>
      rw [joining?, hpc] at h
      simp [onMain, hpc, h, hnext]
  | _ => rw [joining?, hpc] at h; cases h

theorem Threads.MainMove.onMain {running : Bool} {main : Main} (h : r.MainMove running main) :
    r.onMain = some { r with running := running, main := main } := by
  cases h with
  | ack hpc hack => simp [Threads.onMain, hpc, hack, AckManager.result?, Main.join]
  | udp hpc hudp => simp [Threads.onMain, hpc, hudp, UdpThread.result?, Main.join]
  | worker hpc hworker => simp [Threads.onMain, hpc, hworker, Worker.result?, Main.join]
  | workers hpc hnone => simp [Threads.onMain, hpc, hnone]
  | writer hpc hwriter =>
      simp [Threads.onMain, hpc, hwriter, WriterThread.result?, WriterThread.writer, Main.join]
  | failed hjoining => exact Threads.onMain_of_joining hjoining (by rintro ⟨⟩) rfl
  | panicked hjoining => exact Threads.onMain_of_joining hjoining (by rintro ⟨⟩) rfl

/-- The threads that `run` has joined when it is at `main` have exited without an error. -/
def Threads.Joined (r : Threads) : Main → Prop
  | .joinAck => True
  | .joinUdp => r.control.ack = .exited .ok
  | .joinWorkers k => r.control.ack = .exited .ok ∧ r.udp = .exited .ok ∧
      ∀ i < k, ∀ worker, r.workers[i]? = some worker → worker = .exited .ok
  | .joinWriter => r.control.ack = .exited .ok ∧ r.udp = .exited .ok ∧
      ∀ worker ∈ r.workers, worker = .exited .ok
  | .returned bytes chunks => r.control.ack = .exited .ok ∧ r.udp = .exited .ok ∧
      (∀ worker ∈ r.workers, worker = .exited .ok) ∧
      ∃ w, r.writer = .exited w .ok ∧ bytes = w.bytes ∧ chunks = w.chunksWritten
  | .failed => True
  | .panicked => True

theorem Threads.Turn.workers_length (h : Threads.Turn setup l r r') :
    r'.workers.length = r.workers.length := by
  cases h <;> simp

/-- A worker of the next state that had exited before is the same worker. -/
theorem Threads.Turn.worker_stays (h : Threads.Turn setup l r r') {i : ℕ} {worker : Worker}
    (hw : r'.workers[i]? = some worker)
    (hold : ∀ worker, r.workers[i]? = some worker → worker = .exited .ok) :
    worker = .exited .ok := by
  have hlt : i < r.workers.length := by
    rw [← h.workers_length]
    exact (List.getElem?_eq_some_iff.1 hw).1
  have hexited := h.worker_exited
    ((List.getElem?_eq_getElem hlt).trans (congrArg some (hold _ (List.getElem?_eq_getElem hlt))))
  exact Option.some.inj (hw.symm.trans hexited)

/-- What has been joined stays joined while the threads move. -/
theorem Threads.Joined.turn {main : Main} (h : r.Joined main) (hturn : Threads.Turn setup l r r') :
    r'.Joined main := by
  have hall : (∀ worker ∈ r.workers, worker = Worker.exited .ok) →
      ∀ worker ∈ r'.workers, worker = Worker.exited .ok := by
    intro hold worker hmem
    obtain ⟨i, hi⟩ := List.mem_iff_getElem?.1 hmem
    exact hturn.worker_stays hi fun _ hw => hold _ (List.mem_of_getElem? hw)
  cases main with
  | joinAck => trivial
  | joinUdp => exact hturn.ack_exited h
  | joinWorkers k =>
      exact ⟨hturn.ack_exited h.1, hturn.udp_exited h.2.1,
        fun i hi worker hw => hturn.worker_stays hw (h.2.2 i hi)⟩
  | joinWriter => exact ⟨hturn.ack_exited h.1, hturn.udp_exited h.2.1, hall h.2.2⟩
  | returned bytes chunks =>
      obtain ⟨hack, hudp, hworkers, w, hwriter, hreport⟩ := h
      exact ⟨hturn.ack_exited hack, hturn.udp_exited hudp, hall hworkers, w,
        hturn.writer_exited hwriter, hreport⟩
  | failed => trivial
  | panicked => trivial

/-- A join takes `run` on to a place where it has joined one thread more. -/
theorem Threads.Joined.onMain (h : r.Joined r.main) {running : Bool} {main : Main}
    (hmove : r.MainMove running main) : r.Joined main := by
  cases hmove with
  | ack _ hack => exact hack
  | udp hpc hudp =>
      rw [hpc] at h
      exact ⟨h, hudp, nofun⟩
  | @worker k hpc hworker =>
      rw [hpc] at h
      obtain ⟨hack, hudp, hworkers⟩ := h
      refine ⟨hack, hudp, fun i hi worker' hw => ?_⟩
      rcases Nat.lt_succ_iff_lt_or_eq.1 hi with hlt | rfl
      · exact hworkers i hlt worker' hw
      · rw [hworker] at hw
        exact (Option.some.inj hw).symm
  | @workers k hpc hnone =>
      rw [hpc] at h
      obtain ⟨hack, hudp, hworkers⟩ := h
      refine ⟨hack, hudp, fun worker hmem => ?_⟩
      obtain ⟨i, hi⟩ := List.mem_iff_getElem?.1 hmem
      have hlt : i < k := lt_of_lt_of_le (List.getElem?_eq_some_iff.1 hi).1
        (List.getElem?_eq_none_iff.1 hnone)
      exact hworkers i hlt worker hi
  | writer hpc hwriter =>
      rw [hpc] at h
      obtain ⟨hack, hudp, hworkers⟩ := h
      exact ⟨hack, hudp, hworkers, _, hwriter, rfl, rfl⟩
  | failed => trivial
  | panicked => trivial

theorem joined_of_reaches (hrun : (receiver setup).Reaches ls r) : r.Joined r.main := by
  refine hrun.invariant (P := fun r => r.Joined r.main) trivial fun r l r' ih _ hstep => ?_
  have hturn := Threads.turn_of_step hstep
  have hnext : ∀ {main}, r.Joined main → r'.Joined main := fun h => h.turn hturn
  cases hturn with
  | main hmain => exact hnext (ih.onMain (Threads.mainMove_of_onMain hmain))
  | _ => exact hnext ih

/-! ## What has been written -/

/-- **What success says.** If no block was given up, the datagrams that make entries fit the
    geometry, and the chunks that pass the hash test are chunks of a file of the announced size,
    then `run` returns `Ok` only when the writer has written all chunks and all bytes. -/
theorem returned_ok_written {bytes : ℕ} {chunks : UInt32}
    (hrun : (receiver setup).Run (EntriesFit setup) ls r) (hgave : r.control.gaveUp = [])
    (len : ℕ → ℕ)
    (hlen : ((List.range setup.expectedChunks.toNat).map len).sum = setup.expectedBytes.toNat)
    (hgood : GoodArrivals setup
      (fun chunkId data => chunkId < setup.expectedChunks ∧ data.length = len chunkId.toNat) ls)
    (hreturned : r.main = .returned bytes chunks) :
    bytes = setup.expectedBytes.toNat ∧ chunks = setup.expectedChunks := by
  have hjoined := joined_of_reaches hrun.reaches
  rw [hreturned] at hjoined
  obtain ⟨hack, _, hworkers, w, hwriter, rfl, rfl⟩ := hjoined
  obtain ⟨hcount, hdata, hbytes, hchunks⟩ := written_of_finished hrun hgood (fun _ _ h => h.1) hgave
    hack (fun worker hmem => by rw [hworkers worker hmem]; rfl) hwriter
  refine ⟨?_, hchunks⟩
  rw [hbytes, ← hlen, ← hcount]
  congr 1
  refine List.ext_getElem (by simp) fun i hi _ => ?_
  have hi' : i < w.outfile.length := by simpa using hi
  have hgood := (hdata i _ (List.getElem?_eq_getElem hi')).2
  have hi32 : i < 2 ^ 32 := by
    rw [hcount] at hi'
    exact hi'.trans setup.expectedChunks.toNat_lt
  rw [UInt32.toNat_ofNat_of_lt' hi32] at hgood
  simpa using hgood

/-- After the last `remove`: the ack manager exits, and `run` joins one thread after the other. -/
def shutdown : List Label :=
  ([.ack .next, .ack .exit, .main, .udpLoop, .main] : List Label) ++
    (List.range numWorkers).map .workerRecv ++ ([.writerRecv] : List Label) ++
    List.replicate (numWorkers + 2) .main

/-- The packet of a one-chunk file arrives, and is verified and written. -/
def onePacketRun : List Label :=
  ([.udpLoop, .datagram onePacket, .udpSend, .workerRecv 0, .workerMark 0, .workerSend 0,
    .tick (fromMillis 100), .ack (.poll [0]), .ack .next, .ack .write, .ack .remove] :
      List Label) ++ shutdown

theorem returned_ok_written_onePacket :
    ∃ r, (receiver oneChunk).Run (EntriesFit oneChunk) onePacketRun r ∧ r.main = .returned 3 1 ∧
      3 = oneChunk.expectedBytes.toNat ∧ 1 = oneChunk.expectedChunks := by
  have hdata : Incoming.ofDatagram onePacket = _ := Incoming.ofDatagram_data _ _ _ (by simp)
  obtain ⟨r, hr, hmain, hgave⟩ := Lts.exists_exec (receiver oneChunk) onePacketRun
    (fun r => r.main = .returned 3 1 ∧ r.control.gaveUp = []) (by decide +kernel)
  have hrun : (receiver oneChunk).Run (EntriesFit oneChunk) onePacketRun r := by
    refine Lts.run_of_exec (fun l hl r d hd => ?_) hr
    have hd' : d = onePacket := by simpa [hd, onePacketRun, shutdown] using hl
    rw [hd', hdata]
    exact .inr (by decide)
  refine ⟨r, hrun, hmain, returned_ok_written hrun hgave (fun _ => 3) rfl ?_ hmain⟩
  intro d pkt hd hpkt data hcheck
  have hd' : d = onePacket := by simpa [onePacketRun, shutdown] using hd
  rw [hd', hdata] at hpkt
  cases hpkt
  have hchunk : [1, 2, 3] = data := by
    simpa [checkPacket, receivedPacket, chunkIdOf, decryptChunk_encryptChunk] using hcheck
  rw [← hchunk]
  decide

/-- Its packet is lost, and after `MAX_BLOCK_RETRY_ROUNDS` requests the block is given up. -/
def givenUpRun : List Label :=
  ([.udpLoop, .datagram (BlockEndPacket.encode 0 1)] : List Label) ++
    (List.replicate maxBlockRetryRounds ([.tick (fromMillis 100), .ack (.poll [0]), .ack .next,
      .ack .write, .ack .next] : List Label)).flatten ++
    ([.tick (fromMillis 100), .ack (.poll [0]), .ack .next, .ack .write, .ack .remove] :
      List Label) ++ shutdown

/-- A packet without data takes its place. -/
def emptyPacketRun : List Label :=
  ([.udpLoop, .datagram (DataPacket.encode 0 0 (chunkHash oneChunk.crates []) []), .udpSend,
    .workerRecv 0, .workerMark 0, .workerSend 0, .tick (fromMillis 100), .ack (.poll [0]),
    .ack .next, .ack .write, .ack .remove] : List Label) ++ shutdown

/-- A `BlockEnd` announces that the block has no packets. -/
def emptyBlockRun : List Label :=
  ([.udpLoop, .datagram (BlockEndPacket.encode 0 0), .tick (fromMillis 100), .ack (.poll [0]),
    .ack .next, .ack .write, .ack .remove] : List Label) ++ shutdown

/-- **`Ok` for a damaged file**, at the end of each of the three runs. -/
theorem returned_ok_unwritten :
    (∃ ls r, (receiver oneChunk).Run (EntriesFit oneChunk) ls r ∧ r.control.gaveUp = [0] ∧
      r.main = .returned 0 0 ∧ ¬ (0 = oneChunk.expectedBytes.toNat ∧ 0 = oneChunk.expectedChunks)) ∧
    (∃ ls r, (receiver oneChunk).Run (EntriesFit oneChunk) ls r ∧ r.control.gaveUp = [] ∧
      r.main = .returned 0 1 ∧ ¬ (0 = oneChunk.expectedBytes.toNat ∧ 1 = oneChunk.expectedChunks)) ∧
    (∃ ls r, (receiver oneChunk).Reaches ls r ∧ r.control.gaveUp = [] ∧
      r.main = .returned 0 0 ∧
        ¬ (0 = oneChunk.expectedBytes.toNat ∧ 0 = oneChunk.expectedChunks)) := by
  refine ⟨?_, ?_, ?_⟩
  · obtain ⟨r, hr, hgave, hmain⟩ := Lts.exists_exec (receiver oneChunk) givenUpRun
      (fun r => r.control.gaveUp = [0] ∧ r.main = .returned 0 0) (by decide +kernel)
    refine ⟨_, r, Lts.run_of_exec (fun l hl r d hd => ?_) hr, hgave, hmain, by decide⟩
    have hd' : d = BlockEndPacket.encode 0 1 := by
      simpa [hd, givenUpRun, shutdown, List.mem_flatten, List.mem_replicate] using hl
    rw [hd', Incoming.ofDatagram_blockEnd]
    exact .inr (by decide)
  · obtain ⟨r, hr, hgave, hmain⟩ := Lts.exists_exec (receiver oneChunk) emptyPacketRun
      (fun r => r.control.gaveUp = [] ∧ r.main = .returned 0 1) (by decide +kernel)
    refine ⟨_, r, Lts.run_of_exec (fun l hl r d hd => ?_) hr, hgave, hmain, by decide⟩
    have hd' : d = DataPacket.encode 0 0 (chunkHash oneChunk.crates []) [] := by
      simpa [hd, emptyPacketRun, shutdown] using hl
    rw [hd', Incoming.ofDatagram_data _ _ _ (by simp)]
    exact .inr (by decide)
  · obtain ⟨r, hr, hgave, hmain⟩ := Lts.exists_exec (receiver oneChunk) emptyBlockRun
      (fun r => r.control.gaveUp = [] ∧ r.main = .returned 0 0) (by decide +kernel)
    exact ⟨_, r, Lts.reaches_of_exec hr, hgave, hmain, by decide⟩

end SecureTransfer.Receiver
