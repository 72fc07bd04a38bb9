import SecureTransfer.Receiver.AckStream
import SecureTransfer.Receiver.Shutdown

set_option autoImplicit false

/-! # A write failure

When the writer has failed, the workers find out one by one, each with the next chunk it has, and
`run` finds out when it joins the first of these, or the writer. But `run` keeps `packet_rx`, so the
UDP thread does not find out at all: in `tx.send` on a full channel, with no worker left to take a
packet, it stays for good (`Failed.jammed_exec`). -/

namespace SecureTransfer.Receiver

/-! ## What may happen -/

/-- The datagrams of a transfer: packets of the file, and the `BlockEnd` of each of its blocks. -/
structure Traffic (setup : Setup) where
  Sends : Datagram → Prop
  packet : ∀ d pkt, Sends d → Incoming.ofDatagram d = .data pkt → pkt.blockId < setup.blocks ∧
    chunkIdOverflows pkt.blockId pkt.packetInBlock = false ∧
    (checkPacket setup (receivedPacket pkt)).isSome = true
  blockEnd : ∀ d b n, Sends d → Incoming.ofDatagram d = .blockEnd b n → b < setup.blocks
  ends : ∀ b < setup.blocks, ∃ n, Sends (BlockEndPacket.encode b n)

variable {setup : Setup} {traffic : Traffic setup} {r r' : Threads} {l : Label} {ls : List Label}
  {b : UInt32}

/-- Only what has been sent arrives, and nothing fails but the writer. -/
def Traffic.Allows (traffic : Traffic setup) : Label → Prop
  | .datagram d => traffic.Sends d
  | .udpError | .ack .writeError => False
  | _ => True

theorem Traffic.allows_of_own (hl : l.Own) : traffic.Allows l := by
  cases l with
  | datagram d => cases hl
  | udpError => cases hl
  | ack l => cases l <;> trivial
  | _ => trivial

/-! ## The threads as long as only the writer fails -/

structure Sane (r : Threads) : Prop where
  room : r.packets.length ≤ channelCapacity
  ack : ∀ x, r.control.ack = .exited x → x = .ok
  udp : ∀ x, r.udp = .exited x → x = .ok ∧ r.running = false
  count : r.workers.length = numWorkers
  workers : Worker.exited .panicked ∉ r.workers
  closed : Worker.exited .ok ∈ r.workers → r.packets = [] ∧ r.udp = .exited .ok
  joining : r.main = .joinAck ↔ r.running = true
  acked : r.running = false → r.control.ack = .exited .ok
  main : r.main = .panicked → r.writer.result? = some .panicked

theorem Sane.init : Sane .init where
  room := Nat.zero_le _
  ack := nofun
  udp := nofun
  count := rfl
  workers := by simp [Threads.init]
  closed := fun h => by simp [Threads.init] at h
  joining := ⟨fun _ => rfl, fun _ => rfl⟩
  acked := nofun
  main := nofun

/-- A worker moves on, and exits at most with an error. -/
theorem Sane.setWorker (h : Sane r) {i : ℕ} {w' : Worker} (hw' : ∀ x, w' = .exited x → x = .err) :
    Sane { r with workers := r.workers.set i w' } :=
  { h with
    count := by rw [List.length_set, h.count]
    workers := fun hmem => (worker_mem_set hmem).elim h.workers fun heq => by
      cases hw' _ heq.symm
    closed := fun hmem => (worker_mem_set hmem).elim h.closed fun heq => by
      cases hw' _ heq.symm }

/-- If the thread joined next has failed, it is the writer, or a worker that has not panicked. -/
theorem Sane.joinFails (h : Sane r) {x : ThreadEnd} (hx : r.joining? = some x) (hfailed : x ≠ .ok) :
    r.main ≠ .joinAck ∧ ((r.main = .joinWriter ∧ r.writer.result? = some x) ∨
      (x = .err ∧ Worker.exited .err ∈ r.workers)) := by
  unfold Threads.joining? at hx
  split at hx
  · exact absurd (h.ack x (AckManager.exited_of_result hx)) hfailed
  · exact absurd (h.udp x (UdpThread.exited_of_result hx)).1 hfailed
  · next hpc =>
      obtain ⟨worker, hworker, hresult⟩ := Option.bind_eq_some_iff.1 hx
      have hmem := List.mem_of_getElem? hworker
      rw [Worker.exited_of_result hresult] at hmem
      refine ⟨by rw [hpc]; nofun, .inr ?_⟩
      cases x with
      | ok => exact absurd rfl hfailed
      | err => exact ⟨rfl, hmem⟩
      | panicked => exact absurd hmem h.workers
  · next hpc => exact ⟨by rw [hpc]; nofun, .inl ⟨hpc, hx⟩⟩
  · cases hx
  · cases hx
  · cases hx

/-- `run` goes on, or finds that the writer or a worker has failed. -/
theorem Sane.onMain (h : Sane r) {running : Bool} {main : Main} (hmove : r.MainMove running main) :
    running = false ∧ r.control.ack = .exited .ok ∧ main ≠ .joinAck ∧
      (main = .panicked → r.writer.result? = some .panicked) ∧
      (main = .failed → r.main = .joinWriter ∨ Worker.exited .err ∈ r.workers) := by
  have hstopped : r.main ≠ .joinAck → r.running = false ∧ r.control.ack = .exited .ok := by
    intro hne
    have hrunning := Bool.eq_false_iff.2 fun hrunning => hne (h.joining.2 hrunning)
    exact ⟨hrunning, h.acked hrunning⟩
  cases hmove with
  | ack _ hack => exact ⟨rfl, hack, nofun, nofun, nofun⟩
  | failed hjoining =>
      obtain ⟨hne, hcases⟩ := h.joinFails hjoining nofun
      obtain ⟨hrunning, hack⟩ := hstopped hne
      exact ⟨hrunning, hack, nofun, nofun, fun _ => hcases.imp And.left And.right⟩
  | panicked hjoining =>
      obtain ⟨hne, hcases⟩ := h.joinFails hjoining nofun
      obtain ⟨hrunning, hack⟩ := hstopped hne
      refine ⟨hrunning, hack, nofun, fun _ => ?_, nofun⟩
      rcases hcases with ⟨-, hwriter⟩ | ⟨heq, -⟩
      · exact hwriter
      · cases heq
  | udp hpc | worker hpc | workers hpc | writer hpc =>
      obtain ⟨hrunning, hack⟩ := hstopped (by rw [hpc]; nofun)
      exact ⟨hrunning, hack, nofun, nofun, nofun⟩

theorem Sane.turn (h : Sane r) (hturn : Threads.Turn setup l r r') (hl : traffic.Allows l) :
    Sane r' := by
  have hopen : ∀ {udp : UdpThread}, r.udp = udp → udp ≠ .exited .ok → Worker.exited .ok ∉ r.workers :=
    fun hudp hne hmem => hne (hudp ▸ (h.closed hmem).2)
  have hmain : ∀ {w : Writer}, r.writer = .running w → r.main ≠ .panicked := by
    intro w hwriter hpc
    have hresult := h.main hpc
    rw [hwriter] at hresult
    cases hresult
  cases hturn with
  | udpRun hudp =>
      exact { h with udp := nofun, closed := fun hmem => absurd hmem (hopen hudp nofun) }
  | udpStop hudp hrunning =>
      exact { h with
        udp := fun x hx => ⟨(UdpThread.exited.inj hx).symm, hrunning⟩
        closed := fun hmem => absurd hmem (hopen hudp nofun) }
  | ignored hudp =>
      exact { h with udp := nofun, closed := fun hmem => absurd hmem (hopen hudp nofun) }
  | data hudp =>
      exact { h with udp := nofun, closed := fun hmem => absurd hmem (hopen hudp nofun) }
  | dataPanic _ hd _ hoverflow =>
      rw [(traffic.packet _ _ hl hd).2.1] at hoverflow
      cases hoverflow
  | blockEnd hudp =>
      exact { h with udp := nofun, closed := fun hmem => absurd hmem (hopen hudp nofun) }
  | udpTimeout hudp =>
      exact { h with udp := nofun, closed := fun hmem => absurd hmem (hopen hudp nofun) }
  | udpError => cases hl
  | udpSend hudp hroom =>
      refine { h with
        room := ?_
        udp := nofun
        closed := fun hmem => absurd hmem (hopen hudp nofun) }
      rw [List.length_append]
      exact hroom
  | reject _ hpackets =>
      have hroom := h.room
      rw [hpackets, List.length_cons] at hroom
      refine { h with room := Nat.le_of_succ_le hroom, closed := fun hmem => ?_ }
      have hempty := (h.closed hmem).1
      rw [hpackets] at hempty
      cases hempty
  | @accept r i p packets data _ hpackets =>
      have hroom := h.room
      rw [hpackets, List.length_cons] at hroom
      have hmoved : Sane { r with workers := r.workers.set i (.verified p data) } :=
        h.setWorker nofun
      refine { hmoved with room := Nat.le_of_succ_le hroom, closed := fun hmem => ?_ }
      have hempty := (hmoved.closed hmem).1
      dsimp only at hempty
      rw [hpackets] at hempty
      cases hempty
  | workerExit hworker hpackets hudp =>
      obtain ⟨x, hx⟩ := Option.isSome_iff_exists.1 hudp
      have hexited := UdpThread.exited_of_result hx
      obtain ⟨rfl, -⟩ := h.udp x hexited
      refine { h with
        count := by rw [List.length_set, h.count]
        workers := fun hmem => (worker_mem_set hmem).elim h.workers nofun
        closed := fun _ => ⟨hpackets, hexited⟩ }
  | @mark r i p data =>
      have hmoved : Sane { r with workers := r.workers.set i (.sending ⟨p.chunkId, data⟩) } :=
        h.setWorker nofun
      exact { hmoved with }
  | @send r i =>
      have hmoved : Sane { r with workers := r.workers.set i .recv } := h.setWorker nofun
      exact { hmoved with }
  | sendError => exact h.setWorker fun x hx => (Worker.exited.inj hx).symm
  | ack hmove =>
      refine { h with ack := fun x hx => ?_, acked := fun hrunning => ?_ }
      · cases hmove with
        | exit => exact (AckManager.exited.inj hx).symm
        | writeError => cases hl
        | _ => cases hx
      · have hexited := h.acked hrunning
        cases hmove <;> simp_all
  | main hmain =>
      obtain ⟨rfl, hack, hne, hpanicked, -⟩ := h.onMain (Threads.mainMove_of_onMain hmain)
      exact { h with
        udp := fun x hx => ⟨(h.udp x hx).1, rfl⟩
        joining := ⟨fun heq => absurd heq hne, nofun⟩
        acked := fun _ => hack
        main := hpanicked }
  | write hwriter => exact { h with main := fun hpc => absurd hpc (hmain hwriter) }
  | writeLast hwriter => exact { h with main := fun hpc => absurd hpc (hmain hwriter) }
  | writeOverflow hwriter => exact { h with main := fun hpc => absurd hpc (hmain hwriter) }
  | writeEnd hwriter => exact { h with main := fun hpc => absurd hpc (hmain hwriter) }
  | writerError hwriter => exact { h with main := fun hpc => absurd hpc (hmain hwriter) }
  | tick => exact { h with }

theorem sane_of_reaches (hrun : (receiver setup).Reaches ls r) (hls : ∀ l ∈ ls, traffic.Allows l) :
    Sane r := by
  have hallowed : (receiver setup).Run (fun _ => traffic.Allows) ls r :=
    .of_labels hrun fun l hl _ => hls l hl
  exact hallowed.invariant .init fun _ _ _ ih hl hstep => ih.turn (Threads.turn_of_step hstep) hl

/-! ## After the failure -/

/-- The writer has failed, and so far nothing else. -/
structure Failed (traffic : Traffic setup) (r : Threads) : Prop where
  run : ∃ ls, (receiver setup).Reaches ls r ∧ ∀ l ∈ ls, traffic.Allows l
  writer : r.writer.result? = some .err

theorem Failed.exec (h : Failed traffic r) {ls' : List Label} (hls' : ∀ l ∈ ls', traffic.Allows l)
    (hexec : (receiver setup).exec ls' r = some r') : Failed traffic r' := by
  obtain ⟨ls, hrun, hls⟩ := h.run
  refine ⟨⟨ls ++ ls', hrun.extend (fun _ _ _ => trivial) hexec, fun l hl => ?_⟩, ?_⟩
  · exact (List.mem_append.1 hl).elim (hls l) (hls' l)
  · have hexited := WriterThread.exited_of_some h.writer
    have hstill : r'.writer = .exited r.writer.writer .err :=
      Lts.exec_preserves (M := receiver setup) (P := fun r' => r'.writer = .exited r.writer.writer .err)
        (fun _ _ _ hs hstep => (Threads.turn_of_step hstep).writer_exited hs) hexited hexec
    rw [hstill]
    rfl

theorem Failed.step (h : Failed traffic r) (hl : traffic.Allows l)
    (hstep : (receiver setup).step l r = some r') : Failed traffic r' := by
  have hexec : (receiver setup).exec [l] r = some r' := by
    rw [Lts.exec, hstep]
    rfl
  exact h.exec (fun l' hl' => List.mem_singleton.1 hl' ▸ hl) hexec

theorem Failed.sane (h : Failed traffic r) : Sane r :=
  let ⟨_, hrun, hls⟩ := h.run
  sane_of_reaches hrun hls

theorem Failed.not_running (h : Failed traffic r) {w : Writer} : r.writer ≠ .running w := by
  intro hrunning
  have hresult := h.writer
  rw [hrunning] at hresult
  cases hresult

/-- Every packet in the channel passes the hash test. -/
theorem Failed.accepted (h : Failed traffic r) {p : ReceivedPacket} (hp : p ∈ r.packets) :
    ∃ data, checkPacket setup p = some data := by
  obtain ⟨ls, hrun, hls⟩ := h.run
  obtain ⟨d, pkt, hd, hpkt, rfl⟩ := (flow_of_reaches hrun).packets p hp
  exact Option.isSome_iff_exists.1 (traffic.packet d pkt (hls _ hd) hpkt).2.2

/-- The receiver has heard of blocks of the file only. -/
theorem Failed.acks (h : Failed traffic r) :
    AckInv (· < setup.blocks) setup.blocks.toNat r.control := by
  obtain ⟨ls, hrun, hls⟩ := h.run
  refine (ackInv_of_reaches hrun).mono fun b hb => ?_
  obtain ⟨d, hd, hblock⟩ := mem_namedBlocks.1 hb
  cases hincoming : Incoming.ofDatagram d with
  | data pkt =>
      rw [hincoming] at hblock
      cases hblock
      exact (traffic.packet d pkt (hls _ hd) hincoming).1
  | blockEnd b' n =>
      rw [hincoming] at hblock
      cases hblock
      exact traffic.blockEnd d _ n (hls _ hd) hincoming
  | ignored => rw [hincoming] at hblock; cases hblock

/-! ## Jammed for good -/

/-- The UDP thread is in `tx.send` on a full channel, and no worker is in `rx.recv`. -/
structure Threads.Jammed (r : Threads) : Prop where
  sending : r.udp.isSending = true
  full : channelCapacity ≤ r.packets.length
  busy : Worker.recv ∉ r.workers

/-- Without a writer nothing gets the UDP thread out of this, whatever arrives or fails. -/
theorem Threads.Jammed.turn (h : r.Jammed) (hturn : Threads.Turn setup l r r')
    (hwriter : ∀ w, r.writer ≠ .running w) : r'.Jammed := by
  have hudp : ∀ {udp : UdpThread}, r.udp = udp → udp.isSending = true := fun heq => heq ▸ h.sending
  have hset : ∀ {i : ℕ} {w' : Worker}, w' ≠ .recv → Worker.recv ∉ r.workers.set i w' :=
    fun hne hmem => (worker_mem_set hmem).elim h.busy fun heq => hne heq.symm
  cases hturn with
  | udpRun heq => cases hudp heq
  | udpStop heq => cases hudp heq
  | ignored heq => cases hudp heq
  | data heq => cases hudp heq
  | dataPanic heq => cases hudp heq
  | blockEnd heq => cases hudp heq
  | udpTimeout heq => cases hudp heq
  | udpError heq => cases hudp heq
  | udpSend _ hroom => exact absurd hroom (Nat.not_lt_of_le h.full)
  | reject hworker => exact absurd (List.mem_of_getElem? hworker) h.busy
  | accept hworker => exact absurd (List.mem_of_getElem? hworker) h.busy
  | workerExit hworker => exact absurd (List.mem_of_getElem? hworker) h.busy
  | mark => exact { h with busy := hset nofun }
  | send _ hrunning => exact absurd hrunning (hwriter _)
  | sendError => exact { h with busy := hset nofun }
  | write hrunning => exact absurd hrunning (hwriter _)
  | writeLast hrunning => exact absurd hrunning (hwriter _)
  | writeOverflow hrunning => exact absurd hrunning (hwriter _)
  | writeEnd hrunning => exact absurd hrunning (hwriter _)
  | writerError hrunning => exact absurd hrunning (hwriter _)
  | ack => exact { h with }
  | main => exact { h with }
  | tick => exact { h with }

theorem Failed.jammed_exec (h : Failed traffic r) (hjammed : r.Jammed) {ls' : List Label}
    (hls' : ∀ l ∈ ls', traffic.Allows l) (hexec : (receiver setup).exec ls' r = some r') :
    Failed traffic r' ∧ r'.Jammed :=
  Lts.exec_preserves_of_labels (P := fun r => Failed traffic r ∧ r.Jammed)
    (fun _ _ _ hs hl hstep => ⟨hs.1.step hl hstep,
      hs.2.turn (Threads.turn_of_step hstep) fun _ => hs.1.not_running⟩) hls' ⟨h, hjammed⟩ hexec

/-! ## A quiet pipeline -/

/-- No data packet is on its way to the writer, and no worker has failed. -/
structure Threads.Quiet (r : Threads) : Prop where
  udp : r.udp.isSending = false
  packets : r.packets = []
  workers : ∀ worker ∈ r.workers, worker = .recv ∨ worker = .exited .ok

/-- Once a data packet is in the pipeline some worker fails, or never gets to it. -/
theorem Threads.Quiet.of_turn (h : r'.Quiet) (hfailed : Failed traffic r)
    (hturn : Threads.Turn setup l r r') (hl : traffic.Allows l) : r.Quiet := by
  have hset : ∀ {i : ℕ} {worker w' : Worker}, r.workers[i]? = some worker →
      (∀ worker ∈ r.workers.set i w', worker = .recv ∨ worker = .exited .ok) →
      w' = .recv ∨ w' = .exited .ok :=
    fun hworker hall => hall _ (List.mem_of_getElem?
      (List.getElem?_set_self (List.getElem?_eq_some_iff.1 hworker).1))
  cases hturn with
  | udpRun heq => exact { h with udp := by rw [heq]; rfl }
  | udpStop heq => exact { h with udp := by rw [heq]; rfl }
  | ignored heq => exact { h with udp := by rw [heq]; rfl }
  | data => cases h.udp
  | dataPanic heq => exact { h with udp := by rw [heq]; rfl }
  | blockEnd heq => exact { h with udp := by rw [heq]; rfl }
  | udpTimeout heq => exact { h with udp := by rw [heq]; rfl }
  | udpError => cases hl
  | udpSend => exact absurd h.packets (List.append_ne_nil_of_right_ne_nil _ (List.cons_ne_nil _ _))
  | reject _ hpackets hcheck =>
      obtain ⟨data, hdata⟩ := hfailed.accepted (hpackets ▸ List.mem_cons_self)
      rw [hcheck] at hdata
      cases hdata
  | accept hworker => rcases hset hworker h.workers with heq | heq <;> cases heq
  | @workerExit r i hworker =>
      refine { h with workers := fun worker hmem => ?_ }
      obtain ⟨j, hj⟩ := List.mem_iff_getElem?.1 hmem
      by_cases hij : i = j
      · subst hij
        rw [hworker] at hj
        exact .inl (Option.some.inj hj).symm
      · exact h.workers worker (List.mem_of_getElem? ((List.getElem?_set_ne hij).trans hj))
  | mark hworker => rcases hset hworker h.workers with heq | heq <;> cases heq
  | send _ hrunning => exact absurd hrunning hfailed.not_running
  | sendError hworker => rcases hset hworker h.workers with heq | heq <;> cases heq
  | write hrunning => exact absurd hrunning hfailed.not_running
  | writeLast hrunning => exact absurd hrunning hfailed.not_running
  | writeOverflow hrunning => exact absurd hrunning hfailed.not_running
  | writeEnd hrunning => exact absurd hrunning hfailed.not_running
  | writerError hrunning => exact absurd hrunning hfailed.not_running
  | ack => exact { h with }
  | main => exact { h with }
  | tick => exact { h with }

/-- `run` only comes to the writer if the pipeline has been quiet. -/
theorem Failed.quiet_of_joinWriter (h : Failed traffic r) (hmain : r.main = .joinWriter) :
    r.Quiet := by
  obtain ⟨ls, hrun, -⟩ := h.run
  have hjoined := joined_of_reaches hrun
  rw [hmain] at hjoined
  obtain ⟨-, hudp, hworkers⟩ := hjoined
  have hcount := h.sane.count
  obtain ⟨worker, hmem⟩ : ∃ worker, worker ∈ r.workers :=
    List.exists_mem_of_length_pos (by rw [hcount]; decide)
  obtain ⟨hpackets, -⟩ := h.sane.closed (hworkers worker hmem ▸ hmem)
  exact ⟨by rw [hudp]; rfl, hpackets, fun worker hmem => .inr (hworkers worker hmem)⟩

theorem Failed.quiet_of_exec (h : Failed traffic r) {ls' : List Label}
    (hls' : ∀ l ∈ ls', traffic.Allows l) (hexec : (receiver setup).exec ls' r = some r')
    (hquiet : r'.Quiet) : r.Quiet := by
  by_contra hloud
  refine (Lts.exec_preserves_of_labels (P := fun r => Failed traffic r ∧ ¬ r.Quiet) ?_ hls'
    ⟨h, hloud⟩ hexec).2 hquiet
  exact fun _ _ _ hs hl hstep => ⟨hs.1.step hl hstep, fun hquiet =>
    hs.2 (hquiet.of_turn hs.1 (Threads.turn_of_step hstep) hl)⟩

end SecureTransfer.Receiver
