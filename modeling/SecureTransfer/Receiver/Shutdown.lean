import SecureTransfer.Receiver.Success

set_option autoImplicit false

/-! # How the receiver comes to an end

`run` joins the ack manager, stops the UDP thread, and joins that, the workers and the writer. The
writer does not wait for any of this: it leaves with the last chunk, and a worker that sends it
another one afterwards fails. As long as nothing comes late (`OnTime`) every thread ends well
(`Clean`), and once all is written and acknowledged each has a step that brings `run` closer to
`Ok` (`Finishing.progress`). -/

namespace SecureTransfer.Receiver

variable {setup : Setup} {r r' : Threads} {l : Label} {ls : List Label}

/-! ## Nothing comes late -/

def Incoming.isData : Incoming → Bool
  | .data _ => true
  | _ => false

def UdpThread.isSending : UdpThread → Bool
  | .sending _ => true
  | _ => false

/-- The worker has no packet. -/
def Worker.isIdle : Worker → Bool
  | .recv => true
  | .exited _ => true
  | _ => false

/-- The writer has written as many chunks as announced. -/
def Threads.Written (setup : Setup) (r : Threads) : Prop :=
  setup.expectedChunks ≤ r.writer.writer.nextChunk

/-- No data packet is on its way to the writer's channel. -/
def Threads.Idle (r : Threads) : Prop :=
  r.udp.isSending = false ∧ r.packets.isEmpty = true ∧ r.workers.all Worker.isIdle = true

/-- What the writer takes next makes the file complete. -/
def Threads.lastChunk (setup : Setup) (r : Threads) : Bool :=
  match r.writer, r.chunks with
  | .running w, chunk :: _ => setup.expectedChunks ≤ (w.receive chunk.chunkId chunk.data).nextChunk
  | _, _ => false

/-- When the file is complete no data packet is on its way, and none arrives after that. -/
def Threads.OnTime (setup : Setup) (r : Threads) : Label → Prop
  | .datagram d => r.Written setup → (Incoming.ofDatagram d).isData = false
  | .writerRecv => r.lastChunk setup = true → r.Idle
  | _ => True

instance : Decidable (r.Written setup) :=
  inferInstanceAs (Decidable (_ ≤ _))

instance : Decidable r.Idle :=
  inferInstanceAs (Decidable (_ ∧ _))

instance : DecidablePred (r.OnTime setup)
  | .datagram _ => inferInstanceAs (Decidable (_ → _))
  | .writerRecv => inferInstanceAs (Decidable (_ → _))
  | .udpLoop | .udpTimeout | .udpError | .udpSend | .workerRecv _ | .workerMark _ | .workerSend _
  | .writerError | .ack _ | .main | .tick _ => inferInstanceAs (Decidable True)

theorem Threads.Idle.worker (h : r.Idle) {i : ℕ} {worker : Worker}
    (hw : r.workers[i]? = some worker) : worker.isIdle = true :=
  List.all_eq_true.1 h.2.2 _ (List.mem_of_getElem? hw)

theorem Threads.Idle.setWorker (h : r.Idle) {i : ℕ} {w' : Worker} (hidle : w'.isIdle = true) :
    Threads.Idle { r with workers := r.workers.set i w' } := by
  refine ⟨h.1, h.2.1, List.all_eq_true.2 fun worker hmem => ?_⟩
  rcases worker_mem_set hmem with hold | rfl
  · exact List.all_eq_true.1 h.2.2 _ hold
  · exact hidle

/-! ## Every thread ends well -/

/-- No thread has failed, and nothing is left behind when the file is complete. -/
structure Clean (setup : Setup) (r : Threads) : Prop where
  ack : ∀ x, r.control.ack = .exited x → x = .ok
  udp : ∀ x, r.udp = .exited x → x = .ok
  workers : ∀ x, Worker.exited x ∈ r.workers → x = .ok
  writing : ∀ w, r.writer = .running w → w = .init ∨ w.nextChunk < setup.expectedChunks
  idle : r.Written setup → r.Idle
  main : r.main ≠ .failed ∧ r.main ≠ .panicked
  stopping : r.main ≠ .joinAck → r.running = false

theorem Clean.init : Clean setup .init where
  ack := nofun
  udp := nofun
  workers := fun x hx => by simp [Threads.init] at hx
  writing := fun w hw => .inl (WriterThread.running.inj hw).symm
  idle := fun _ => ⟨rfl, rfl, rfl⟩
  main := ⟨nofun, nofun⟩
  stopping := fun h => absurd rfl h

/-- The thread joined next has not failed. -/
theorem Clean.joining (h : Clean setup r) (hwriter : ∀ w x, r.writer = .exited w x → x = .ok)
    {x : ThreadEnd} (hx : r.joining? = some x) : x = .ok := by
  unfold Threads.joining? at hx
  split at hx
  · exact h.ack x (AckManager.exited_of_result hx)
  · exact h.udp x (UdpThread.exited_of_result hx)
  · obtain ⟨worker, hworker, hresult⟩ := Option.bind_eq_some_iff.1 hx
    exact h.workers x (Worker.exited_of_result hresult ▸ List.mem_of_getElem? hworker)
  · exact hwriter _ x (WriterThread.exited_of_some hx)
  · cases hx
  · cases hx
  · cases hx

/-- `run` goes on to the next join. -/
theorem Clean.onMain (h : Clean setup r) (hwriter : ∀ w x, r.writer = .exited w x → x = .ok)
    {running : Bool} {main : Main} (hmove : r.MainMove running main) :
    (main ≠ .failed ∧ main ≠ .panicked) ∧ running = false := by
  cases hmove with
  | ack => exact ⟨⟨nofun, nofun⟩, rfl⟩
  | udp hpc => exact ⟨⟨nofun, nofun⟩, h.stopping (by rw [hpc]; nofun)⟩
  | worker hpc => exact ⟨⟨nofun, nofun⟩, h.stopping (by rw [hpc]; nofun)⟩
  | workers hpc => exact ⟨⟨nofun, nofun⟩, h.stopping (by rw [hpc]; nofun)⟩
  | writer hpc => exact ⟨⟨nofun, nofun⟩, h.stopping (by rw [hpc]; nofun)⟩
  | failed hjoining => cases h.joining hwriter hjoining
  | panicked hjoining => cases h.joining hwriter hjoining

/-- **Step lemma.** Without I/O errors, and if nothing comes late, no thread fails. -/
theorem Clean.turn (h : Clean setup r) (hturn : Threads.Turn setup l r r')
    (honTime : r.OnTime setup l) (hudp : l ≠ .udpError) (hack : l ≠ .ack .writeError)
    (hfits : ∀ d pkt, l = .datagram d → Incoming.ofDatagram d = .data pkt →
      chunkIdOverflows pkt.blockId pkt.packetInBlock = false)
    (hwriter : ∀ w x, r.writer = .exited w x → x = .ok) (hconserved : Conserved setup r) :
    Clean setup r' := by
  have hsetWorker : ∀ {i : ℕ} {w' : Worker}, (∀ x, w' = .exited x → x = .ok) →
      ∀ x, Worker.exited x ∈ r.workers.set i w' → x = .ok := fun hw' x hx =>
    (worker_mem_set hx).elim (h.workers x) fun heq => hw' x heq.symm
  -- a worker with a packet moves, so the file is not complete yet
  have hbusy : ∀ {i : ℕ} {worker : Worker}, r.workers[i]? = some worker → worker.isIdle = false →
      ¬ r.Written setup := by
    intro i worker hworker hbusy hwritten
    rw [(h.idle hwritten).worker hworker] at hbusy
    cases hbusy
  -- the writer takes a chunk
  have hwrite : ∀ {w : Writer} {chunk : DecryptedChunk} {chunks : List DecryptedChunk},
      r.writer = .running w → r.chunks = chunk :: chunks → l = .writerRecv →
      setup.expectedChunks ≤ (w.receive chunk.chunkId chunk.data).nextChunk → r.Idle := by
    intro w chunk chunks hrunning hchunks hl hdone
    subst hl
    refine honTime ?_
    rw [Threads.lastChunk, hrunning, hchunks]
    exact decide_eq_true hdone
  cases hturn with
  | udpRun => exact { h with udp := nofun, idle := fun hw => ⟨rfl, (h.idle hw).2⟩ }
  | udpStop =>
      exact { h with
        udp := fun x hx => (UdpThread.exited.inj hx).symm
        idle := fun hw => ⟨rfl, (h.idle hw).2⟩ }
  | ignored => exact { h with udp := nofun, idle := fun hw => ⟨rfl, (h.idle hw).2⟩ }
  | data _ hd =>
      refine { h with udp := nofun, idle := fun hw => ?_ }
      have hdata := honTime hw
      rw [hd] at hdata
      cases hdata
  | dataPanic _ hd _ hoverflow =>
      rw [hfits _ _ rfl hd] at hoverflow
      cases hoverflow
  | blockEnd => exact { h with udp := nofun, idle := fun hw => ⟨rfl, (h.idle hw).2⟩ }
  | udpTimeout => exact { h with udp := nofun, idle := fun hw => ⟨rfl, (h.idle hw).2⟩ }
  | udpError => exact absurd rfl hudp
  | udpSend hsending =>
      refine { h with udp := nofun, idle := fun hw => ?_ }
      have hidle := (h.idle hw).1
      rw [hsending] at hidle
      cases hidle
  | reject _ hpackets =>
      refine { h with idle := fun hw => ?_ }
      have hempty := (h.idle hw).2.1
      rw [hpackets] at hempty
      cases hempty
  | accept _ hpackets =>
      refine { h with workers := hsetWorker nofun, idle := fun hw => ?_ }
      have hempty := (h.idle hw).2.1
      rw [hpackets] at hempty
      cases hempty
  | workerExit =>
      exact { h with
        workers := hsetWorker fun x hx => (Worker.exited.inj hx).symm
        idle := fun hw => (h.idle hw).setWorker rfl }
  | mark hworker =>
      exact { h with
        workers := hsetWorker nofun
        idle := fun hw => absurd hw (hbusy hworker rfl) }
  | send hworker =>
      exact { h with
        workers := hsetWorker nofun
        idle := fun hw => absurd hw (hbusy hworker rfl) }
  | @sendError _ _ _ w result hworker hexited =>
      -- the writer has left with the whole file, or because no worker was left
      cases hwriter w result hexited
      rcases hconserved.stopped w hexited with hdone | ⟨_, hall⟩
      · refine absurd ?_ (hbusy hworker rfl)
        rwa [Threads.Written, hexited]
      · have hresult := hall _ (List.mem_of_getElem? hworker)
        cases hresult
  | write _ _ hmore =>
      refine { h with
        writing := fun w' hw' => .inr (WriterThread.running.inj hw' ▸ hmore)
        idle := fun hw => absurd hw (UInt32.not_le.2 hmore) }
  | writeLast hrunning hchunks hdone =>
      exact { h with writing := nofun, idle := fun _ => hwrite hrunning hchunks rfl hdone }
  | writeOverflow hrunning hchunks =>
      exact { h with writing := nofun, idle := fun hw => hwrite hrunning hchunks rfl hw }
  | writeEnd hrunning =>
      refine { h with writing := nofun, idle := fun hw => h.idle ?_ }
      rwa [Threads.Written, hrunning]
  | writerError hrunning =>
      refine { h with writing := nofun, idle := fun hw => h.idle ?_ }
      rwa [Threads.Written, hrunning]
  | ack hmove =>
      refine { h with ack := fun x hx => ?_ }
      cases hmove with
      | exit => exact (AckManager.exited.inj hx).symm
      | writeError => exact absurd rfl hack
      | skip | snapshot | poll | endRound | complete | giveUp | missing | remove => cases hx
  | main hmain =>
      obtain ⟨hmain', hrunning⟩ := h.onMain hwriter (Threads.mainMove_of_onMain hmain)
      exact { h with main := hmain', stopping := fun _ => hrunning }
  | tick => exact { h with }

/-! ## What is left to do -/

/-- A step of the receiver's own threads, and no I/O error. -/
def Label.Own : Label → Prop
  | .datagram _ | .udpError | .writerError | .ack .writeError => False
  | _ => True

def AckManager.rank : AckManager → ℕ
  | .poll => 1
  | .checking ready => ready.length + 2
  | .removing _ rest => rest.length + 3
  | .acking _ _ rest => rest.length + 4
  | .exited _ => 0

def UdpThread.rank : UdpThread → ℕ
  | .loopHead => 1
  | .recv => 2
  | .sending _ => 3
  | .exited _ => 0

def WriterThread.rank : WriterThread → ℕ
  | .running _ => 1
  | .exited _ _ => 0

/-- The joins that are left when there are `workers` workers. -/
def Main.rank (workers : ℕ) : Main → ℕ
  | .joinAck => workers + 4
  | .joinUdp => workers + 3
  | .joinWorkers next => workers - next + 2
  | .joinWriter => 1
  | .returned _ _ | .failed | .panicked => 0

/-- What is left to do until `run` returns, when nothing more arrives. -/
def Threads.rank (r : Threads) : ℕ :=
  r.control.ack.rank + r.udp.rank + r.workers.countP (·.result?.isNone) + r.writer.rank +
    r.main.rank r.workers.length

/-- Everything has been written and acknowledged, and no thread has failed. -/
structure Finishing (setup : Setup) (r : Threads) : Prop where
  clean : Clean setup r
  joined : r.Joined r.main
  idle : r.Idle
  acked : ∀ b snapshot rest, r.control.ack ≠ .acking b snapshot rest
  resolved : (∀ b rest, r.control.ack ≠ .removing b rest) →
    (∀ b entry, ¬ r.control.shared.Tracked b entry) ∧
      (totalBlocks setup.expectedChunks).toNat ≤ r.control.completed
  writer : ∀ w x, r.writer = .exited w x → x = .ok
  drained : ∀ w, r.writer = .running w → r.chunks = []

/-- A step of the receiver's own threads brings it closer to the end. -/
def Threads.Advances (setup : Setup) (r : Threads) : Prop :=
  ∃ l r', Label.Own l ∧ (receiver setup).step l r = some r' ∧ r'.rank < r.rank ∧
    r'.writer.writer = r.writer.writer ∧ r'.control.acks = r.control.acks

/-- The ack manager goes through what `ready_for_check` has returned and leaves the loop. -/
theorem Finishing.ackStep (h : Finishing setup r) (hack : r.control.ack ≠ .exited .ok) :
    r.Advances setup := by
  have hmove : ∀ (l : AckLabel) {c : Control}, l ≠ .writeError →
      ackManagerStep (totalBlocks setup.expectedChunks).toNat r.now l r.control = some c →
      c.ack.rank < r.control.ack.rank → c.acks = r.control.acks → r.Advances setup := by
    intro l c hl hstep hrank hacks
    refine ⟨.ack l, { r with control := c }, ?_, by simp [receiver, Threads.step, hstep], ?_, rfl,
      hacks⟩
    · cases l <;> trivial
    · simp only [Threads.rank]
      omega
  cases hpc : r.control.ack with
  | poll =>
      obtain ⟨_, hdone⟩ := h.resolved (by simp [hpc])
      have hstep : ackManagerStep (totalBlocks setup.expectedChunks).toNat r.now .exit r.control
          = some { r.control with ack := .exited .ok } := by
        simp only [ackManagerStep, hpc, if_neg (Nat.not_lt.2 hdone)]
      exact hmove .exit (by rintro ⟨⟩) hstep (by simp [hpc, AckManager.rank]) rfl
  | checking ready =>
      cases ready with
      | nil =>
          have hstep : ackManagerStep (totalBlocks setup.expectedChunks).toNat r.now .next r.control
              = some { r.control with ack := .poll } := by
            simp only [ackManagerStep, hpc]
          exact hmove .next (by rintro ⟨⟩) hstep (by simp [hpc, AckManager.rank]) rfl
      | cons b rest =>
          -- all blocks are completed, so the list is stale
          obtain ⟨huntracked, _⟩ := h.resolved (by simp [hpc])
          have hnone : r.control.shared.snapshotAndTick b r.now = none := by
            have hlookup : r.control.shared.blocks.lookup b = none :=
              Option.eq_none_iff_forall_ne_some.2 fun entry => huntracked b entry
            rw [ReceiverInner.snapshotAndTick, hlookup]
          have hstep : ackManagerStep (totalBlocks setup.expectedChunks).toNat r.now .next r.control
              = some { r.control with ack := .checking rest } := by
            simp only [ackManagerStep, hpc, hnone]
          exact hmove .next (by rintro ⟨⟩) hstep (by simp [hpc, AckManager.rank]) rfl
  | acking b snapshot rest => exact absurd hpc (h.acked b snapshot rest)
  | removing b rest =>
      have hstep : ackManagerStep (totalBlocks setup.expectedChunks).toNat r.now .remove r.control
          = some { r.control with
              shared := r.control.shared.remove b
              completed := r.control.completed + 1
              ack := .checking rest } := by
        simp only [ackManagerStep, hpc]
      exact hmove .remove (by rintro ⟨⟩) hstep (by simp [hpc, AckManager.rank]) rfl
  | exited x =>
      rw [h.clean.ack x hpc] at hpc
      exact absurd hpc hack

/-- The UDP thread sees that it is to stop. -/
theorem Threads.udp_stops (hrunning : r.running = false) (hidle : r.udp.isSending = false)
    (hok : ∀ x, r.udp = .exited x → x = .ok) (hudp : r.udp ≠ .exited .ok) :
    ∃ l udp, Label.Own l ∧ (receiver setup).step l r = some { r with udp := udp } ∧
      udp.rank < r.udp.rank := by
  cases hpc : r.udp with
  | loopHead =>
      refine ⟨.udpLoop, .exited .ok, trivial, ?_, by simp [UdpThread.rank]⟩
      simp [receiver, Threads.step, hpc, hrunning]
  | recv =>
      -- nothing arrives, and the read times out
      refine ⟨.udpTimeout, .loopHead, trivial, ?_, by simp [UdpThread.rank]⟩
      simp [receiver, Threads.step, hpc]
  | sending p =>
      rw [hpc] at hidle
      cases hidle
  | exited x =>
      rw [hok x hpc] at hpc
      exact absurd hpc hudp

theorem Finishing.udpStep (h : Finishing setup r) (hrunning : r.running = false)
    (hudp : r.udp ≠ .exited .ok) : r.Advances setup := by
  obtain ⟨l, udp, hl, hstep, hrank⟩ := Threads.udp_stops hrunning h.idle.1 h.clean.udp hudp
  refine ⟨l, _, hl, hstep, ?_, rfl, rfl⟩
  simp only [Threads.rank]
  omega

/-- A worker finds the channel closed. -/
theorem Finishing.workerStep (h : Finishing setup r) (hudp : r.udp = .exited .ok)
    (hworkers : ¬ ∀ worker ∈ r.workers, worker = .exited .ok) : r.Advances setup := by
  simp only [not_forall] at hworkers
  obtain ⟨worker, hmem, hne⟩ := hworkers
  obtain ⟨i, hi⟩ := List.mem_iff_getElem?.1 hmem
  obtain ⟨hlt, hget⟩ := List.getElem?_eq_some_iff.1 hi
  have hrecv : worker = .recv := by
    have hidle := h.idle.worker hi
    cases worker with
    | recv => rfl
    | exited x =>
        rw [h.clean.workers x hmem] at hne
        exact absurd rfl hne
    | verified _ _ => cases hidle
    | sending _ => cases hidle
  subst hrecv
  have hpackets : r.packets = [] := List.isEmpty_iff.1 h.idle.2.1
  refine ⟨.workerRecv i, { r with workers := r.workers.set i (.exited .ok) }, trivial, ?_, ?_, rfl,
    rfl⟩
  · simp [receiver, Threads.step, hi, Threads.onWorkerRecv, hpackets, hudp, UdpThread.result?]
  · have hpos : 0 < r.workers.countP (·.result?.isNone) :=
      List.countP_pos_iff.2 ⟨_, hmem, rfl⟩
    have hcount : (r.workers.set i (.exited .ok)).countP (·.result?.isNone)
        = r.workers.countP (·.result?.isNone) - 1 := by
      rw [List.countP_set hlt, hget]
      rfl
    simp only [Threads.rank, hcount, List.length_set]
    omega

/-- The writer finds the channel closed. -/
theorem Finishing.writerStep (h : Finishing setup r)
    (hworkers : ∀ worker ∈ r.workers, worker = .exited .ok) {w : Writer}
    (hrunning : r.writer = .running w) : r.Advances setup := by
  have hall : r.workers.all (·.result?.isSome) = true :=
    List.all_eq_true.2 fun worker hmem => by rw [hworkers worker hmem]; rfl
  refine ⟨.writerRecv, { r with writer := .exited w .ok }, trivial, ?_, ?_, ?_, rfl⟩
  · simp only [receiver, Threads.step, hrunning, Threads.onWriterRecv, h.drained w hrunning, hall,
      if_true]
  · simp only [Threads.rank, hrunning, WriterThread.rank]
    omega
  · rw [hrunning]
    rfl

/-- `run` goes on to another join. -/
theorem Threads.advances_main {running : Bool} {main : Main} (hmove : r.MainMove running main)
    (hrank : main.rank r.workers.length < r.main.rank r.workers.length) : r.Advances setup :=
  ⟨.main, _, trivial, hmove.onMain, by simp only [Threads.rank]; omega, rfl, rfl⟩

/-- `run` joins the next thread, or has returned. -/
theorem Finishing.mainStep (h : Finishing setup r) (hudp : r.udp = .exited .ok)
    (hworkers : ∀ worker ∈ r.workers, worker = .exited .ok)
    (hwriter : r.writer.result? = some .ok) (hmain : r.main ≠ .joinAck) :
    (∃ bytes chunks, r.main = .returned bytes chunks) ∨ r.Advances setup := by
  cases hpc : r.main with
  | joinAck => exact absurd hpc hmain
  | joinUdp =>
      refine .inr (Threads.advances_main (.udp hpc hudp) ?_)
      simp [hpc, Main.rank]
  | joinWorkers k =>
      cases hk : r.workers[k]? with
      | none =>
          refine .inr (Threads.advances_main (.workers hpc hk) ?_)
          simp [hpc, Main.rank]
      | some worker =>
          have hlt := (List.getElem?_eq_some_iff.1 hk).1
          obtain rfl := hworkers _ (List.mem_of_getElem? hk)
          refine .inr (Threads.advances_main (.worker hpc hk) ?_)
          simp only [hpc, Main.rank]
          omega
  | joinWriter =>
      refine .inr (Threads.advances_main (.writer hpc (WriterThread.exited_of_some hwriter)) ?_)
      simp [hpc, Main.rank]
  | returned bytes chunks => exact .inl ⟨bytes, chunks, rfl⟩
  | failed => exact absurd hpc h.clean.main.1
  | panicked => exact absurd hpc h.clean.main.2

/-- **Progress.** Until `run` has returned some thread has a step that brings it closer to that. -/
theorem Finishing.progress (h : Finishing setup r) :
    (∃ bytes chunks, r.main = .returned bytes chunks) ∨ r.Advances setup := by
  -- the order in which `run` joins the threads
  by_cases hack : r.control.ack = .exited .ok
  · by_cases hmain : r.main = .joinAck
    · refine .inr (Threads.advances_main (.ack hmain hack) ?_)
      simp [hmain, Main.rank]
    · by_cases hudp : r.udp = .exited .ok
      · by_cases hworkers : ∀ worker ∈ r.workers, worker = .exited .ok
        · cases hw : r.writer with
          | running w => exact .inr (h.writerStep hworkers hw)
          | exited w x =>
              refine h.mainStep hudp hworkers ?_ hmain
              rw [hw, h.writer w x hw]
              rfl
        · exact .inr (h.workerStep hudp hworkers)
      · exact .inr (h.udpStep (h.clean.stopping hmain) hudp)
  · exact .inr (h.ackStep hack)

end SecureTransfer.Receiver
