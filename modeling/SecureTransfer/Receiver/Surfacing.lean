import SecureTransfer.Receiver.Resolving
import SecureTransfer.Receiver.WriteFailure

set_option autoImplicit false

/-! # How a write failure surfaces

If the UDP thread is not jammed, it can get out of `tx.send` and hear of every block; the ack manager
can then leave its loop, and the joins of `run` come to an end with an error (`Failed.canEnd_iff`).
It is the error of the writer itself if and only if no data packet was on its way
(`Failed.canReport_iff`). -/

namespace SecureTransfer.Receiver

variable {setup : Setup} {traffic : Traffic setup} {r r' : Threads} {l : Label} {ls : List Label}
  {b : UInt32}

/-! ## The way out: hearing of all blocks -/

/-- If the UDP thread is not jammed it gets out of `tx.send`. -/
theorem Failed.unblock (h : Failed traffic r) (hfree : ¬ r.Jammed) :
    ∃ ls r', (∀ l ∈ ls, Label.Own l) ∧ (receiver setup).exec ls r = some r' ∧
      r'.udp.isSending = false := by
  by_cases hsending : r.udp.isSending = true
  · cases hudp : r.udp with
    | sending p =>
        rcases Nat.lt_or_ge r.packets.length channelCapacity with hroom | hfull
        · refine ⟨[.udpSend], { r with packets := r.packets ++ [p], udp := .loopHead },
            by simp [Label.Own], ?_, rfl⟩
          simp [Lts.exec, receiver, Threads.step, hudp, hroom]
        · -- some worker takes a packet
          have hrecv : Worker.recv ∈ r.workers := by
            by_contra hbusy
            exact hfree ⟨hsending, hfull, hbusy⟩
          obtain ⟨i, hi⟩ := List.mem_iff_getElem?.1 hrecv
          have hpos : 0 < r.packets.length := lt_of_lt_of_le (by decide) hfull
          obtain ⟨first, packets, hpackets⟩ := List.exists_cons_of_length_pos hpos
          have hroom := h.sane.room
          rw [hpackets, List.length_cons] at hroom
          obtain ⟨data, hcheck⟩ := h.accepted (hpackets ▸ List.mem_cons_self)
          refine ⟨[.workerRecv i, .udpSend], { r with
              packets := packets ++ [p]
              workers := r.workers.set i (.verified first data)
              udp := .loopHead }, by simp [Label.Own], ?_, rfl⟩
          simp only [Lts.exec, receiver, Threads.step, hi, Threads.onWorkerRecv, hpackets, hcheck,
            Option.bind_some, hudp, if_pos (Nat.lt_of_succ_le hroom)]
    | _ => rw [hudp] at hsending; cases hsending
  · exact ⟨[], r, List.forall_mem_nil _, rfl, Bool.eq_false_iff.2 hsending⟩

def UdpThread.atHead : UdpThread → Bool
  | .loopHead => true
  | _ => false

/-- Beside `r₀` the UDP thread, the ack manager and the clock have moved, and no packet is in
    `tx.send`. -/
structure Listening (traffic : Traffic setup) (r₀ r : Threads) : Prop where
  failed : Failed traffic r
  frame : r = { r₀ with control := r.control, now := r.now, udp := r.udp }
  udp : r.udp.isSending = false

/-- The blocks of the file that the receiver has not heard of. -/
def Threads.unheard (setup : Setup) (r : Threads) : Finset ℕ :=
  (Finset.range setup.blocks.toNat).filter fun k => ¬ r.control.Known (UInt32.ofNat k)

theorem Threads.mem_unheard {k : ℕ} :
    k ∈ r.unheard setup ↔ k < setup.blocks.toNat ∧ ¬ r.control.Known (UInt32.ofNat k) := by
  rw [unheard, Finset.mem_filter, Finset.mem_range]

theorem Threads.known_of_unheard (h : r.unheard setup = ∅) : ∀ b < setup.blocks, r.control.Known b := by
  intro b hb
  by_contra hunknown
  have hmem : b.toNat ∈ r.unheard setup := mem_unheard.2 ⟨hb, by rwa [UInt32.ofNat_toNat]⟩
  rw [h] at hmem
  cases hmem

/-- A step to the loop head is worth a block. -/
def Threads.hearingRank (setup : Setup) (r : Threads) : ℕ :=
  2 * (r.unheard setup).card + if r.udp.atHead then 1 else 0

/-- The `BlockEnd` of another block arrives. -/
theorem Listening.hear {r₀ : Threads} (h : Listening traffic r₀ r) (hudp : r.udp = .recv)
    (hb : b < setup.blocks) (hunknown : ¬ r.control.Known b) :
    ∃ l r', traffic.Allows l ∧ (receiver setup).step l r = some r' ∧
      r'.hearingRank setup < r.hearingRank setup ∧ Listening traffic r₀ r' := by
  obtain ⟨n, hsends⟩ := traffic.ends b hb
  have hl : traffic.Allows (.datagram (BlockEndPacket.encode b n)) := hsends
  have hstep : (receiver setup).step (.datagram (BlockEndPacket.encode b n)) r
      = some { r with
          control := r.control.mutate (.markEndSeen b n.toNat r.now)
          udp := .loopHead } := by
    simp [receiver, Threads.step, hudp, Threads.onDatagram]
  have hfewer : (Threads.unheard setup { r with
      control := r.control.mutate (.markEndSeen b n.toNat r.now)
      udp := .loopHead }).card < (r.unheard setup).card := by
    refine Finset.card_lt_card (Finset.ssubset_iff_subset_ne.2 ⟨fun k hk => ?_, fun heq => ?_⟩)
    · obtain ⟨hlt, hk⟩ := Threads.mem_unheard.1 hk
      exact Threads.mem_unheard.2 ⟨hlt, fun hold => hk hold.withEntry⟩
    · have hmem : b.toNat ∈ r.unheard setup :=
        Threads.mem_unheard.2 ⟨hb, by rwa [UInt32.ofNat_toNat]⟩
      rw [← heq] at hmem
      refine (Threads.mem_unheard.1 hmem).2 ?_
      rw [UInt32.ofNat_toNat]
      exact Control.known_withEntry
  refine ⟨_, _, hl, hstep, ?_, h.failed.step hl hstep, by rw [h.frame], rfl⟩
  simp only [Threads.hearingRank, hudp, UdpThread.atHead, if_true, Bool.false_eq_true, if_false]
  omega

/-- As long as `run` has not stopped it, the UDP thread can hear of every block. -/
theorem Listening.exists_heard {r₀ : Threads} (h : Listening traffic r₀ r)
    (hrunning : r₀.running = true) :
    ∃ ls r', (∀ l ∈ ls, traffic.Allows l) ∧ (receiver setup).exec ls r = some r' ∧
      Listening traffic r₀ r' ∧ r'.unheard setup = ∅ := by
  refine Lts.exists_exec_of_rank (Listening traffic r₀) (fun r => r.unheard setup = ∅) traffic.Allows
    (Threads.hearingRank setup) (fun r h => ?_) r h
  rcases (r.unheard setup).eq_empty_or_nonempty with hnone | ⟨k, hk⟩
  · exact .inl hnone
  · refine .inr ?_
    have hrunning : r.running = true := by
      rw [h.frame]
      exact hrunning
    cases hudp : r.udp with
    | loopHead =>
        have hstep : (receiver setup).step .udpLoop r = some { r with udp := .recv } := by
          simp [receiver, Threads.step, hudp, hrunning]
        have hl : traffic.Allows .udpLoop := trivial
        refine ⟨.udpLoop, _, hl, hstep, ?_, h.failed.step hl hstep, by rw [h.frame], rfl⟩
        simp only [Threads.hearingRank, hudp, UdpThread.atHead, if_true, Bool.false_eq_true, if_false]
        exact Nat.lt_succ_self _
    | recv =>
        obtain ⟨hlt, hunknown⟩ := Threads.mem_unheard.1 hk
        refine h.hear hudp ?_ hunknown
        rwa [UInt32.lt_iff_toNat_lt, UInt32.toNat_ofNat_of_lt' (hlt.trans (UInt32.toNat_lt _))]
    | sending p =>
        have hsending := h.udp
        rw [hudp] at hsending
        cases hsending
    | exited x =>
        have hstopped := (h.failed.sane.udp x hudp).2
        rw [hrunning] at hstopped
        cases hstopped

/-- The ack manager can leave its loop. -/
theorem Listening.exists_acked (h : Listening traffic r r) :
    ∃ ls r', (∀ l ∈ ls, traffic.Allows l) ∧ (receiver setup).exec ls r = some r' ∧
      Listening traffic r r' ∧ r'.control.ack = .exited .ok := by
  by_cases hrunning : r.running = true
  · obtain ⟨ls, mid, hls, hexec, hmid, hheard⟩ := h.exists_heard hrunning
    have hresolving : Resolving setup mid mid :=
      ⟨rfl, hmid.failed.acks, Threads.known_of_unheard hheard, hmid.failed.sane.ack⟩
    obtain ⟨ls', r', hls', hexec', hresolved, hack⟩ := hresolving.exists_resolved
    have hallowed : ∀ l ∈ ls', traffic.Allows l := fun l hl => traffic.allows_of_own (hls' l hl)
    refine ⟨ls ++ ls', r', fun l hl => (List.mem_append.1 hl).elim (hls l) (hallowed l),
      Lts.exec_trans hexec hexec', ⟨hmid.failed.exec hallowed hexec', ?_, ?_⟩, hack⟩
    · rw [hresolved.frame, hmid.frame]
    · rw [hresolved.frame]
      exact hmid.udp
  · exact ⟨[], r, nofun, rfl, h, h.failed.sane.acked (Bool.eq_false_iff.2 hrunning)⟩

/-! ## The way out: the joins -/

/-- What a worker has left to do when the writer is gone. -/
def Worker.rank : Worker → ℕ
  | .recv => 1
  | .verified _ _ => 2
  | .sending _ => 1
  | .exited _ => 0

def Threads.closingRank (r : Threads) : ℕ :=
  2 * r.packets.length + r.udp.rank + (r.workers.map Worker.rank).sum + r.main.rank r.workers.length

/-- The ack manager has left its loop, and the UDP thread is not in `tx.send`. -/
structure Closing (traffic : Traffic setup) (r : Threads) : Prop where
  failed : Failed traffic r
  ack : r.control.ack = .exited .ok
  udp : r.udp.isSending = false

/-- All threads have exited, and `run` has returned an error. -/
structure Threads.Ended (r : Threads) : Prop where
  ack : r.control.ack = .exited .ok
  udp : r.udp = .exited .ok
  workers : ∀ worker ∈ r.workers, worker.result?.isSome = true
  writer : r.writer.result? = some .err
  main : r.main = .failed

theorem Closing.own (h : Closing traffic r) (hl : l.Own) (hstep : (receiver setup).step l r = some r') :
    Closing traffic r' := by
  have hturn := Threads.turn_of_step hstep
  refine ⟨h.failed.step (traffic.allows_of_own hl) hstep, hturn.ack_exited h.ack, ?_⟩
  cases hturn with
  | data => cases hl
  | dataPanic => cases hl
  | ignored => cases hl
  | blockEnd => cases hl
  | udpRun => rfl
  | udpStop => rfl
  | udpTimeout => rfl
  | udpError => rfl
  | udpSend => rfl
  | _ => exact h.udp

/-- A step that brings the threads closer to the end. -/
def Closing.Closer (traffic : Traffic setup) (r : Threads) : Prop :=
  ∃ l r', Label.Own l ∧ (receiver setup).step l r = some r' ∧ r'.closingRank < r.closingRank ∧
    Closing traffic r'

theorem Closing.closer (h : Closing traffic r) (hstep : (receiver setup).step l r = some r')
    (hl : l.Own) (hrank : r'.closingRank < r.closingRank) : Closing.Closer traffic r :=
  ⟨l, r', hl, hstep, hrank, h.own hl hstep⟩

theorem sum_rank_set {workers : List Worker} {i : ℕ} {worker : Worker}
    (hi : workers[i]? = some worker) (w' : Worker) :
    ((workers.set i w').map Worker.rank).sum + worker.rank
      = (workers.map Worker.rank).sum + w'.rank := by
  induction workers generalizing i with
  | nil => cases hi
  | cons first workers ih =>
      cases i with
      | zero =>
          cases hi
          simp only [List.set_cons_zero, List.map_cons, List.sum_cons]
          omega
      | succ i =>
          have hrest := ih hi
          simp only [List.set_cons_succ, List.map_cons, List.sum_cons]
          omega

/-- A worker moves on. -/
theorem Closing.workerCloser (h : Closing traffic r) {i : ℕ} {worker w' : Worker}
    (hstep : (receiver setup).step l r = some r') (hi : r.workers[i]? = some worker) (hl : l.Own)
    (hworkers : r'.workers = r.workers.set i w') (hudp : r'.udp = r.udp) (hmain : r'.main = r.main)
    (hrank : 2 * r'.packets.length + w'.rank < 2 * r.packets.length + worker.rank) :
    Closing.Closer traffic r := by
  refine h.closer hstep hl ?_
  have hsum := sum_rank_set hi w'
  rw [Threads.closingRank, Threads.closingRank, hworkers, hudp, hmain, List.length_set]
  omega

/-- A worker that has not exited has a step. -/
theorem Closing.workerStep (h : Closing traffic r) (hudp : r.udp = .exited .ok) {i : ℕ}
    {worker : Worker} (hi : r.workers[i]? = some worker) (hlive : worker.result?.isSome = false) :
    Closing.Closer traffic r := by
  cases worker with
  | recv =>
      cases hpackets : r.packets with
      | nil =>
          have hstep : (receiver setup).step (.workerRecv i) r
              = some { r with workers := r.workers.set i (.exited .ok) } := by
            simp [receiver, Threads.step, hi, Threads.onWorkerRecv, hpackets, hudp,
              UdpThread.result?]
          refine h.workerCloser hstep hi trivial rfl rfl rfl ?_
          simp [Worker.rank]
      | cons p packets =>
          obtain ⟨data, hcheck⟩ := h.failed.accepted (hpackets ▸ List.mem_cons_self)
          have hstep : (receiver setup).step (.workerRecv i) r
              = some { r with
                  packets := packets
                  workers := r.workers.set i (.verified p data) } := by
            simp [receiver, Threads.step, hi, Threads.onWorkerRecv, hpackets, hcheck]
          refine h.workerCloser hstep hi trivial rfl rfl rfl ?_
          rw [hpackets, List.length_cons]
          simp only [Worker.rank]
          omega
  | verified p data =>
      have hstep : (receiver setup).step (.workerMark i) r
          = some { r with
              control := r.control.markVerified p.blockId p.packetInBlock
                (packetsInBlock p.blockId setup.expectedChunks) r.now
              workers := r.workers.set i (.sending ⟨p.chunkId, data⟩)
              sent := r.sent ++ [⟨p.chunkId, data⟩] } := by
        simp [receiver, Threads.step, hi]
      refine h.workerCloser hstep hi trivial rfl rfl rfl ?_
      simp [Worker.rank]
  | sending chunk =>
      have hgone : r.writer.result?.isSome = true := by rw [h.failed.writer]; rfl
      have hstep : (receiver setup).step (.workerSend i) r
          = some { r with workers := r.workers.set i (.exited .err) } := by
        simp [receiver, Threads.step, hi, hgone]
      refine h.workerCloser hstep hi trivial rfl rfl rfl ?_
      simp [Worker.rank]
  | exited x => cases hlive

theorem Closing.udpStep (h : Closing traffic r) (hrunning : r.running = false)
    (hudp : r.udp ≠ .exited .ok) : Closing.Closer traffic r := by
  obtain ⟨l, udp, hl, hstep, hrank⟩ := Threads.udp_stops hrunning h.udp
    (fun x hx => (h.failed.sane.udp x hx).1) hudp
  refine h.closer hstep hl ?_
  simp only [Threads.closingRank]
  omega

/-- `run` goes on to the next join, or returns an error. -/
theorem Closing.mainCloser (h : Closing traffic r) {running : Bool} {main : Main}
    (hmove : r.MainMove running main)
    (hrank : main.rank r.workers.length < r.main.rank r.workers.length) :
    Closing.Closer traffic r := by
  have hstep : (receiver setup).step .main r = some { r with running := running, main := main } :=
    hmove.onMain
  refine h.closer hstep trivial ?_
  simp only [Threads.closingRank]
  omega

/-- When the other threads have exited `run` comes to its end. -/
theorem Closing.mainStep (h : Closing traffic r) (hudp : r.udp = .exited .ok)
    (hworkers : ∀ worker ∈ r.workers, worker.result?.isSome = true) (hmain : r.main ≠ .joinAck) :
    r.main = .failed ∨ Closing.Closer traffic r := by
  cases hpc : r.main with
  | joinAck => exact absurd hpc hmain
  | joinUdp =>
      refine .inr (h.mainCloser (.udp hpc hudp) ?_)
      simp [hpc, Main.rank]
  | joinWorkers k =>
      cases hk : r.workers[k]? with
      | none =>
          refine .inr (h.mainCloser (.workers hpc hk) ?_)
          simp [hpc, Main.rank]
      | some worker =>
          have hlt := (List.getElem?_eq_some_iff.1 hk).1
          have hmem := List.mem_of_getElem? hk
          obtain ⟨x, hx⟩ := Option.isSome_iff_exists.1 (hworkers worker hmem)
          obtain rfl := Worker.exited_of_result hx
          cases x with
          | ok =>
              refine .inr (h.mainCloser (.worker hpc hk) ?_)
              simp only [hpc, Main.rank]
              omega
          | err =>
              have hjoining : r.joining? = some .err := by
                simp only [Threads.joining?, hpc, hk, Option.bind_some, Worker.result?]
              refine .inr (h.mainCloser (.failed hjoining) ?_)
              simp [hpc, Main.rank]
          | panicked => exact absurd hmem h.failed.sane.workers
  | joinWriter =>
      have hjoining : r.joining? = some .err := by
        simp only [Threads.joining?, hpc, h.failed.writer]
      refine .inr (h.mainCloser (.failed hjoining) ?_)
      simp [hpc, Main.rank]
  | returned bytes chunks =>
      obtain ⟨ls, hrun, -⟩ := h.failed.run
      have hjoined := joined_of_reaches hrun
      rw [hpc] at hjoined
      obtain ⟨-, -, -, w, hwriter, -⟩ := hjoined
      have hresult := h.failed.writer
      rw [hwriter] at hresult
      cases hresult
  | failed => exact .inl rfl
  | panicked =>
      have hresult := h.failed.sane.main hpc
      rw [h.failed.writer] at hresult
      cases hresult

theorem Closing.progress (h : Closing traffic r) : r.Ended ∨ Closing.Closer traffic r := by
  by_cases hmain : r.main = .joinAck
  · refine .inr (h.mainCloser (.ack hmain h.ack) ?_)
    simp [hmain, Main.rank]
  · have hrunning : r.running = false :=
      Bool.eq_false_iff.2 fun hrunning => hmain (h.failed.sane.joining.2 hrunning)
    by_cases hudp : r.udp = .exited .ok
    · by_cases hworkers : ∀ worker ∈ r.workers, worker.result?.isSome = true
      · exact (h.mainStep hudp hworkers hmain).imp_left fun hfailed =>
          ⟨h.ack, hudp, hworkers, h.failed.writer, hfailed⟩
      · simp only [not_forall] at hworkers
        obtain ⟨worker, hmem, hlive⟩ := hworkers
        obtain ⟨i, hi⟩ := List.mem_iff_getElem?.1 hmem
        exact .inr (h.workerStep hudp hi (Bool.eq_false_iff.2 hlive))
    · exact .inr (h.udpStep hrunning hudp)

/-! ## What the failure comes to -/

/-- All threads can exit and `run` can return an error. -/
def Threads.CanEnd (traffic : Traffic setup) (r : Threads) : Prop :=
  ∃ ls r', (∀ l ∈ ls, traffic.Allows l) ∧ (receiver setup).exec ls r = some r' ∧ r'.Ended

/-- `run` can come to the join of the writer, and so return the error of the writer. -/
def Threads.CanReport (traffic : Traffic setup) (r : Threads) : Prop :=
  ∃ ls r', (∀ l ∈ ls, traffic.Allows l) ∧ (receiver setup).exec ls r = some r' ∧
    r'.main = .joinWriter

theorem Closing.exists_ended (h : Closing traffic r) :
    ∃ ls r', (∀ l ∈ ls, Label.Own l) ∧ (receiver setup).exec ls r = some r' ∧ r'.Ended := by
  obtain ⟨ls, r', hls, hexec, -, hended⟩ := Lts.exists_exec_of_rank (Closing traffic) Threads.Ended
    Label.Own Threads.closingRank (fun _ hr => hr.progress) r h
  exact ⟨ls, r', hls, hexec, hended⟩

/-- **The exact condition.** After a failure of the writer everything can come to its end unless the
    UDP thread is jammed. -/
theorem Failed.canEnd_iff (h : Failed traffic r) : r.CanEnd traffic ↔ ¬ r.Jammed := by
  constructor
  · rintro ⟨ls, r', hls, hexec, hended⟩ hjammed
    have hsending := (h.jammed_exec hjammed hls hexec).2.sending
    rw [hended.udp] at hsending
    cases hsending
  · intro hfree
    obtain ⟨ls, mid, hls, hexec, hmid⟩ := h.unblock hfree
    have hallowed : ∀ l ∈ ls, traffic.Allows l := fun l hl => traffic.allows_of_own (hls l hl)
    have hlistening : Listening traffic mid mid := ⟨h.exec hallowed hexec, rfl, hmid⟩
    obtain ⟨ls', mid', hls', hexec', hmid', hack⟩ := hlistening.exists_acked
    have hclosing : Closing traffic mid' := ⟨hmid'.failed, hack, hmid'.udp⟩
    obtain ⟨ls'', r', hls'', hexec'', hended⟩ := hclosing.exists_ended
    refine ⟨ls ++ ls' ++ ls'', r', fun l hl => ?_,
      Lts.exec_trans (Lts.exec_trans hexec hexec') hexec'', hended⟩
    rcases List.mem_append.1 hl with hl | hl
    · exact (List.mem_append.1 hl).elim (hallowed l) (hls' l)
    · exact traffic.allows_of_own (hls'' l hl)

/-- The receiver's own steps put no packet into a quiet pipeline. -/
theorem Threads.Quiet.own (h : r.Quiet) (hturn : Threads.Turn setup l r r') (hl : l.Own) :
    r'.Quiet := by
  have hidle : ∀ {i : ℕ} {worker : Worker}, r.workers[i]? = some worker →
      worker = .recv ∨ worker = .exited .ok := fun hi => h.workers _ (List.mem_of_getElem? hi)
  cases hturn with
  | udpRun => exact { h with udp := rfl }
  | udpStop => exact { h with udp := rfl }
  | ignored => cases hl
  | data => cases hl
  | dataPanic => cases hl
  | blockEnd => cases hl
  | udpTimeout => exact { h with udp := rfl }
  | udpError => exact { h with udp := rfl }
  | udpSend hudp =>
      have hsending := h.udp
      rw [hudp] at hsending
      cases hsending
  | reject _ hpackets => rw [h.packets] at hpackets; cases hpackets
  | accept _ hpackets => rw [h.packets] at hpackets; cases hpackets
  | workerExit =>
      exact { h with workers := fun worker hmem => (worker_mem_set hmem).elim (h.workers worker) .inr }
  | mark hi => rcases hidle hi with heq | heq <;> cases heq
  | send hi => rcases hidle hi with heq | heq <;> cases heq
  | sendError hi => rcases hidle hi with heq | heq <;> cases heq
  | _ => exact { h with }

/-- In a quiet pipeline `run` does not fail before it joins the writer. -/
theorem Threads.Quiet.not_failed (h : r.Quiet) (hsane : Sane r) (hturn : Threads.Turn setup l r r')
    (hmain : r.main ≠ .failed ∧ r.main ≠ .joinWriter) : r'.main ≠ .failed := by
  cases hturn with
  | main hstep =>
      intro hfailed
      have hmove := hsane.onMain (Threads.mainMove_of_onMain hstep)
      rcases hmove.2.2.2.2 hfailed with hpc | hmem
      · exact hmain.2 hpc
      · rcases h.workers _ hmem with heq | heq <;> cases heq
  | _ => exact hmain.1

/-- `run` can return the error of the writer itself, if it has not returned, exactly if no data
    packet is in the pipeline. -/
theorem Failed.canReport_iff (h : Failed traffic r) (hmain : r.main ≠ .failed) :
    r.CanReport traffic ↔ r.Quiet := by
  constructor
  · rintro ⟨ls, r', hls, hexec, hjoin⟩
    exact h.quiet_of_exec hls hexec ((h.exec hls hexec).quiet_of_joinWriter hjoin)
  · intro hquiet
    have hlistening : Listening traffic r r := ⟨h, rfl, hquiet.udp⟩
    obtain ⟨ls, mid, hls, hexec, hmid, hack⟩ := hlistening.exists_acked
    have hframe : mid.packets = r.packets ∧ mid.workers = r.workers ∧ mid.main = r.main := by
      rw [hmid.frame]
      exact ⟨rfl, rfl, rfl⟩
    have hstart : Closing traffic mid ∧ mid.Quiet ∧ mid.main ≠ .failed := by
      refine ⟨⟨hmid.failed, hack, hmid.udp⟩, ⟨hmid.udp, ?_, ?_⟩, ?_⟩
      · rw [hframe.1, hquiet.packets]
      · rw [hframe.2.1]
        exact hquiet.workers
      · rw [hframe.2.2]
        exact hmain
    obtain ⟨ls', r', hls', hexec', -, hjoin⟩ := Lts.exists_exec_of_rank (M := receiver setup)
      (fun r => Closing traffic r ∧ r.Quiet ∧ r.main ≠ .failed) (fun r => r.main = .joinWriter)
      Label.Own Threads.closingRank (fun r ⟨hclosing, hquiet, hmain⟩ => by
        by_cases hjoin : r.main = .joinWriter
        · exact .inl hjoin
        · rcases hclosing.progress with hended | ⟨l, r', hl, hstep, hrank, hnext⟩
          · exact absurd hended.main hmain
          · have hturn := Threads.turn_of_step hstep
            exact .inr ⟨l, r', hl, hstep, hrank, hnext, hquiet.own hturn hl,
              hquiet.not_failed hclosing.failed.sane hturn ⟨hmain, hjoin⟩⟩) mid hstart
    refine ⟨ls ++ ls', r', fun l hl => ?_, Lts.exec_trans hexec hexec', hjoin⟩
    exact (List.mem_append.1 hl).elim (hls l) fun hl => traffic.allows_of_own (hls' l hl)

end SecureTransfer.Receiver
