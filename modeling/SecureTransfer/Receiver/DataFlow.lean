import SecureTransfer.Receiver.System

set_option autoImplicit false

/-! # Where the receiver's data comes from

Everything between the socket and the file stems from a datagram that arrived: `Flow P` says that
every packet in flight satisfies `P`, that every chunk from the hash test on is what such a packet
decrypts to, and that `mark_verified` was called for such packets only. -/

namespace SecureTransfer.Receiver

variable {setup : Setup} {P P' : ReceivedPacket → Prop} {r r' : Threads} {l : Label}
  {ls : List Label}

/-- `chunk` is what a packet with `P` that passes the hash test decrypts to. -/
def Genuine (setup : Setup) (P : ReceivedPacket → Prop) (chunk : DecryptedChunk) : Prop :=
  ∃ p, P p ∧ p.chunkId = chunk.chunkId ∧ checkPacket setup p = some chunk.data

/-- A call of `mark_verified` for a packet with `P` that passes the hash test. -/
def GenuineMark (setup : Setup) (P : ReceivedPacket → Prop) (mark : UInt32 × UInt16) : Prop :=
  ∃ p, P p ∧ (checkPacket setup p).isSome = true ∧ mark = (p.blockId, p.packetInBlock)

structure Flow (setup : Setup) (P : ReceivedPacket → Prop) (r : Threads) : Prop where
  sending : ∀ p, r.udp = .sending p → P p
  packets : ∀ p ∈ r.packets, P p
  verified : ∀ p data, Worker.verified p data ∈ r.workers →
    P p ∧ checkPacket setup p = some data
  handed : ∀ chunk, Worker.sending chunk ∈ r.workers → Genuine setup P chunk
  chunks : ∀ chunk ∈ r.chunks, Genuine setup P chunk
  writer : r.writer.writer.Sound fun chunkId data => Genuine setup P ⟨chunkId, data⟩
  marks : ∀ mark ∈ r.control.marks, GenuineMark setup P mark

theorem Genuine.mono (hP : ∀ p, P p → P' p) {chunk : DecryptedChunk}
    (h : Genuine setup P chunk) : Genuine setup P' chunk :=
  let ⟨p, hp, hrest⟩ := h
  ⟨p, hP p hp, hrest⟩

theorem Flow.mono (hP : ∀ p, P p → P' p) (h : Flow setup P r) : Flow setup P' r where
  sending := fun p hp => hP p (h.sending p hp)
  packets := fun p hp => hP p (h.packets p hp)
  verified := fun p data hw => ⟨hP p (h.verified p data hw).1, (h.verified p data hw).2⟩
  handed := fun chunk hw => (h.handed chunk hw).mono hP
  chunks := fun chunk hc => (h.chunks chunk hc).mono hP
  writer := h.writer.mono fun _ _ hg => hg.mono hP
  marks := fun mark hm =>
    let ⟨p, hp, hrest⟩ := h.marks mark hm
    ⟨p, hP p hp, hrest⟩

theorem Flow.init : Flow setup P .init where
  sending := nofun
  packets := nofun
  verified := fun p data hw => by simp [Threads.init] at hw
  handed := fun chunk hw => by simp [Threads.init] at hw
  chunks := nofun
  writer := .init
  marks := nofun

/-- The ack manager calls no `mark_verified`. -/
theorem AckMove.marks {total : ℕ} {now : Instant} {l : AckLabel} {c c' : Control}
    (h : AckMove total now l c c') : c'.marks = c.marks := by
  cases h <;> rfl

/-- A worker after one of the workers has moved. -/
theorem worker_mem_set {workers : List Worker} {i : ℕ} {w w' : Worker}
    (h : w ∈ workers.set i w') : w ∈ workers ∨ w = w' :=
  List.mem_or_eq_of_mem_set h

/-- A worker whose next state holds no data leaves the other workers' data as it was. -/
theorem Flow.setIdle (h : Flow setup P r) {i : ℕ} {w' : Worker}
    (hverified : ∀ p data, w' ≠ .verified p data) (hsending : ∀ chunk, w' ≠ .sending chunk) :
    Flow setup P { r with workers := r.workers.set i w' } :=
  { h with
    verified := fun p data hw => (worker_mem_set hw).elim (h.verified p data)
      fun heq => absurd heq.symm (hverified p data)
    handed := fun chunk hw => (worker_mem_set hw).elim (h.handed chunk)
      fun heq => absurd heq.symm (hsending chunk) }

/-- The writer takes the first chunk out of the channel. -/
theorem Threads.receive_sound {Q : UInt32 → Bytes → Prop} {w : Writer} {chunk : DecryptedChunk}
    {chunks : List DecryptedChunk} (hwriter : r.writer = .running w)
    (hchunks : r.chunks = chunk :: chunks) (hall : ∀ c ∈ r.chunks, Q c.chunkId c.data)
    (hsound : r.writer.writer.Sound Q) :
    (∀ c ∈ chunks, Q c.chunkId c.data) ∧ (w.receive chunk.chunkId chunk.data).Sound Q := by
  rw [hchunks] at hall
  rw [hwriter] at hsound
  refine ⟨fun c hc => hall c (List.mem_cons_of_mem _ hc), ?_⟩
  rw [Writer.Sound, Writer.receive_buffer]
  exact hsound.offer (hall chunk List.mem_cons_self)

/-- **Step lemma.** Whatever moves, data stays genuine, provided a packet that arrives is. -/
theorem Flow.turn (h : Flow setup P r) (hturn : Threads.Turn setup l r r')
    (hnew : ∀ d pkt, l = .datagram d → Incoming.ofDatagram d = .data pkt →
      P (receivedPacket pkt)) : Flow setup P r' := by
  cases hturn with
  | udpRun => exact { h with sending := nofun }
  | udpStop => exact { h with sending := nofun }
  | ignored => exact { h with sending := nofun }
  | data _ hd => exact { h with sending := fun p hp => by cases hp; exact hnew _ _ rfl hd }
  | dataPanic => exact { h with sending := nofun }
  | blockEnd => exact { h with sending := nofun }
  | udpTimeout => exact { h with sending := nofun }
  | udpError => exact { h with sending := nofun }
  | udpSend hudp =>
      refine { h with sending := nofun, packets := fun p hp => ?_ }
      rcases List.mem_append.1 hp with hp | hp
      · exact h.packets p hp
      · rw [List.mem_singleton.1 hp]
        exact h.sending _ hudp
  | reject _ hpackets =>
      refine { h with packets := fun p hp => h.packets p ?_ }
      rw [hpackets]
      exact List.mem_cons_of_mem _ hp
  | accept _ hpackets hcheck =>
      refine { h with
        packets := fun p hp => h.packets p ?_
        verified := fun p data hw => (worker_mem_set hw).elim (h.verified p data) ?_
        handed := fun chunk hw => (worker_mem_set hw).elim (h.handed chunk) nofun }
      · rw [hpackets]
        exact List.mem_cons_of_mem _ hp
      · intro heq
        cases heq
        exact ⟨h.packets _ (by rw [hpackets]; exact List.mem_cons_self), hcheck⟩
  | workerExit => exact h.setIdle nofun nofun
  | mark hworker =>
      obtain ⟨hp, hcheck⟩ := h.verified _ _ (List.mem_of_getElem? hworker)
      refine { h with
        verified := fun p data hw => (worker_mem_set hw).elim (h.verified p data) nofun
        handed := fun chunk hw => (worker_mem_set hw).elim (h.handed chunk) ?_
        marks := fun mark hm => ?_ }
      · intro heq
        cases heq
        exact ⟨_, hp, rfl, hcheck⟩
      · rcases List.mem_append.1 hm with hm | hm
        · exact h.marks mark hm
        · exact ⟨_, hp, by rw [hcheck]; rfl, List.mem_singleton.1 hm⟩
  | @send r i _ _ hworker =>
      have hidle : Flow setup P { r with workers := r.workers.set i .recv } := h.setIdle nofun nofun
      refine { hidle with chunks := fun chunk hc => ?_ }
      rcases List.mem_append.1 hc with hc | hc
      · exact h.chunks chunk hc
      · rw [List.mem_singleton.1 hc]
        exact h.handed _ (List.mem_of_getElem? hworker)
  | sendError => exact h.setIdle nofun nofun
  | write hwriter hchunks =>
      obtain ⟨hrest, hsound⟩ := r.receive_sound hwriter hchunks h.chunks h.writer
      exact { h with chunks := hrest, writer := hsound }
  | writeLast hwriter hchunks =>
      obtain ⟨hrest, hsound⟩ := r.receive_sound hwriter hchunks h.chunks h.writer
      exact { h with chunks := hrest, writer := hsound }
  | writeOverflow hwriter hchunks =>
      obtain ⟨hrest, hsound⟩ := r.receive_sound hwriter hchunks h.chunks h.writer
      exact { h with chunks := hrest, writer := hsound }
  | writeEnd hwriter => exact { h with writer := by have := h.writer; rwa [hwriter] at this }
  | writerError hwriter => exact { h with writer := by have := h.writer; rwa [hwriter] at this }
  | ack hmove => exact { h with marks := by rw [hmove.marks]; exact h.marks }
  | main => exact { h with }
  | tick => exact { h with }

/-! ## Along a run -/

/-- The packets of the data datagrams that have arrived. -/
def Arrived (ls : List Label) (p : ReceivedPacket) : Prop :=
  ∃ d pkt, Label.datagram d ∈ ls ∧ Incoming.ofDatagram d = .data pkt ∧ p = receivedPacket pkt

/-- **Provenance.** At every point of every run the data in the receiver comes from datagrams that
    have arrived. -/
theorem flow_of_reaches (hrun : (receiver setup).Reaches ls r) : Flow setup (Arrived ls) r := by
  refine hrun.history (P := fun ls r => Flow setup (Arrived ls) r) .init
    fun ls r l r' _ ih _ hstep => ?_
  have hold : Flow setup (Arrived (ls ++ [l])) r := ih.mono fun p ⟨d, pkt, hd, hrest⟩ =>
    ⟨d, pkt, List.mem_append_left _ hd, hrest⟩
  refine hold.turn (Threads.turn_of_step hstep) fun d pkt hl hd => ?_
  exact ⟨d, pkt, by simp [hl], hd, rfl⟩

end SecureTransfer.Receiver
