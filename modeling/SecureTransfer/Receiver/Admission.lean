import SecureTransfer.Receiver.DataFlow
import SecureTransfer.Sender.Reader

set_option autoImplicit false

/-! # Which datagrams get in

`accept` is the whole of what the receiver asks of a datagram before it marks a packet and hands a
chunk to the writer: the decrypted payload has the hash of the header. `admission_of_reaches` says
that a run marks and sends exactly what its arrivals make acceptable, up to order and up to what is
still on its way. -/

namespace SecureTransfer.Receiver

variable {setup : Setup} {r r' : Threads} {l : Label} {ls ls' : List Label}

/-- A packet that has passed the hash test, with its chunk. -/
structure Accepted where
  blockId : UInt32
  packetInBlock : UInt16
  chunk : DecryptedChunk
deriving DecidableEq

def Accepted.ofPacket (p : ReceivedPacket) (data : Bytes) : Accepted where
  blockId := p.blockId
  packetInBlock := p.packetInBlock
  chunk := ⟨p.chunkId, data⟩

/-- What a worker makes of a packet. -/
def acceptPacket (setup : Setup) (p : ReceivedPacket) : Option Accepted :=
  (checkPacket setup p).map (Accepted.ofPacket p)

/-- What the UDP thread and a worker make of a datagram. -/
def accept (setup : Setup) (d : Datagram) : Option Accepted :=
  match Incoming.ofDatagram d with
  | .data pkt =>
    if setup.overflowChecks && chunkIdOverflows pkt.blockId pkt.packetInBlock then none
    else acceptPacket setup (receivedPacket pkt)
  | _ => none

def Label.datagram? : Label → Option Datagram
  | .datagram d => some d
  | _ => none

/-- The datagrams that have arrived, in order. -/
def arrivals (ls : List Label) : List Datagram :=
  ls.filterMap Label.datagram?

@[simp] theorem mem_arrivals {d : Datagram} : d ∈ arrivals ls ↔ Label.datagram d ∈ ls := by
  rw [arrivals, List.mem_filterMap]
  constructor
  · rintro ⟨l, hl, hd⟩
    cases l with
    | datagram d' => cases hd; exact hl
    | _ => cases hd
  · exact fun hd => ⟨_, hd, rfl⟩

/-- The chunk a data packet carries: what its payload decrypts to under the session key and the
    chunk id of its header. -/
def carriedChunk (setup : Setup) (pkt : DecodedDataPacket) : DecryptedChunk :=
  let chunkId := chunkIdOf pkt.blockId pkt.packetInBlock
  ⟨chunkId, decryptChunk setup.crates pkt.payload setup.sessionKey setup.nonce chunkId⟩

/-- The hash test is all there is. -/
theorem accept_eq_some {d : Datagram} {a : Accepted} (h : accept setup d = some a) :
    ∃ pkt, Incoming.ofDatagram d = .data pkt ∧
      chunkHash setup.crates (carriedChunk setup pkt).data = pkt.hash ∧
      a = ⟨pkt.blockId, pkt.packetInBlock, carriedChunk setup pkt⟩ := by
  unfold accept at h
  split at h
  · next pkt hd =>
      split at h
      · cases h
      · obtain ⟨data, hcheck, rfl⟩ := Option.map_eq_some_iff.1 h
        unfold checkPacket at hcheck
        dsimp only at hcheck
        split at hcheck
        · next hhash =>
            cases hcheck
            exact ⟨pkt, hd, hhash, rfl⟩
        · cases hcheck
  · cases h

/-! ## On the way -/

def UdpThread.carried (setup : Setup) : UdpThread → List Accepted
  | .sending p => (acceptPacket setup p).toList
  | _ => []

def Worker.carried? : Worker → Option Accepted
  | .verified p data => some (.ofPacket p data)
  | _ => none

/-- Accepted packets that have not been marked yet. -/
def Threads.pending (setup : Setup) (r : Threads) : List Accepted :=
  r.udp.carried setup ++ r.packets.filterMap (acceptPacket setup) ++
    r.workers.filterMap Worker.carried?

theorem filterMap_cons_eq {α β : Type*} (f : α → Option β) (a : α) (l : List α) :
    (a :: l).filterMap f = (f a).toList ++ l.filterMap f := by
  rw [List.filterMap_cons]
  cases f a <;> rfl

/-- Replacing one element changes the count by what it and its replacement contribute. -/
theorem count_filterMap_set {α β : Type*} [DecidableEq β] (f : α → Option β) (b : β) {l : List α}
    {i : ℕ} {a : α} (a' : α) (h : l[i]? = some a) :
    ((l.set i a').filterMap f).count b + (f a).toList.count b
      = (l.filterMap f).count b + (f a').toList.count b := by
  induction l generalizing i with
  | nil => simp at h
  | cons x l ih =>
      cases i with
      | zero =>
          simp only [List.getElem?_cons_zero, Option.some.injEq] at h
          subst h
          simp only [List.set_cons_zero, filterMap_cons_eq, List.count_append]
          omega
      | succ i =>
          have hrest := ih h
          simp only [List.set_cons_succ, filterMap_cons_eq, List.count_append]
          omega

/-- What has been marked and sent is what was accepted, less what is on its way. -/
def Admitted (setup : Setup) (ls : List Label) (r : Threads) : Prop :=
  ∃ done : List Accepted,
    r.control.marks = done.map (fun a => (a.blockId, a.packetInBlock)) ∧
    r.sent = done.map Accepted.chunk ∧
    ((arrivals ls).filterMap (accept setup)).Perm (done ++ r.pending setup)

theorem accepted_snoc_datagram (d : Datagram) :
    (arrivals (ls ++ [.datagram d])).filterMap (accept setup)
      = (arrivals ls).filterMap (accept setup) ++ (accept setup d).toList := by
  have harrivals : arrivals (ls ++ [.datagram d]) = arrivals ls ++ [d] := by
    simp [arrivals, Label.datagram?]
  rw [harrivals, List.filterMap_append, filterMap_cons_eq, List.filterMap_nil, List.append_nil]

theorem arrivals_snoc (hl : l.datagram? = none) : arrivals (ls ++ [l]) = arrivals ls := by
  simp [arrivals, hl]

/-- A step that marks nothing keeps arrivals and what is on the way in balance. -/
theorem Admitted.balance (h : Admitted setup ls r) (hmarks : r'.control.marks = r.control.marks)
    (hsent : r'.sent = r.sent)
    (hbalance : ∀ a, ((arrivals (ls ++ [l])).filterMap (accept setup)).count a
        + (r.pending setup).count a
      = ((arrivals ls).filterMap (accept setup)).count a + (r'.pending setup).count a) :
    Admitted setup (ls ++ [l]) r' := by
  obtain ⟨done, hdone, hchunks, hperm⟩ := h
  refine ⟨done, hmarks.trans hdone, hsent.trans hchunks, List.perm_iff_count.2 fun a => ?_⟩
  have hold := List.perm_iff_count.1 hperm a
  have hnew := hbalance a
  rw [List.count_append] at hold ⊢
  omega

theorem Admitted.turn (h : Admitted setup ls r) (hturn : Threads.Turn setup l r r') :
    Admitted setup (ls ++ [l]) r' := by
  -- a worker that was not about to mark goes on to something else
  have hworker : ∀ {i : ℕ} {w w' : Worker}, r.workers[i]? = some w → w.carried? = none →
      ∀ a, ((r.workers.set i w').filterMap Worker.carried?).count a
        = (r.workers.filterMap Worker.carried?).count a + w'.carried?.toList.count a := by
    intro i w w' hw hnone a
    have hcount := count_filterMap_set Worker.carried? a w' hw
    rw [hnone] at hcount
    simpa using hcount
  cases hturn with
  | udpRun hudp =>
      refine h.balance rfl rfl fun a => ?_
      rw [arrivals_snoc rfl, Threads.pending, Threads.pending, hudp]
      rfl
  | udpStop hudp =>
      refine h.balance rfl rfl fun a => ?_
      rw [arrivals_snoc rfl, Threads.pending, Threads.pending, hudp]
      rfl
  | @ignored r d hudp hd =>
      refine h.balance rfl rfl fun a => ?_
      have hnone : accept setup d = none := by simp only [accept, hd]
      rw [accepted_snoc_datagram, hnone, Threads.pending, Threads.pending, hudp]
      simp [UdpThread.carried]
  | @data r d pkt hudp hd hfits =>
      refine h.balance rfl rfl fun a => ?_
      have hsome : accept setup d = acceptPacket setup (receivedPacket pkt) := by
        simp only [accept, hd, if_neg hfits]
      simp only [accepted_snoc_datagram, hsome, Threads.pending, UdpThread.carried, hudp,
        List.count_append, List.count_nil]
      omega
  | @dataPanic r d pkt hudp hd hchecks hoverflow =>
      refine h.balance rfl rfl fun a => ?_
      have hnone : accept setup d = none := by simp [accept, hd, hchecks, hoverflow]
      rw [accepted_snoc_datagram, hnone, Threads.pending, Threads.pending, hudp]
      simp [UdpThread.carried]
  | @blockEnd r d b total hudp hd =>
      refine h.balance rfl rfl fun a => ?_
      have hnone : accept setup d = none := by simp only [accept, hd]
      rw [accepted_snoc_datagram, hnone, Threads.pending, Threads.pending, hudp]
      simp [UdpThread.carried]
  | udpTimeout hudp =>
      refine h.balance rfl rfl fun a => ?_
      rw [arrivals_snoc rfl, Threads.pending, Threads.pending, hudp]
      rfl
  | udpError hudp =>
      refine h.balance rfl rfl fun a => ?_
      rw [arrivals_snoc rfl, Threads.pending, Threads.pending, hudp]
      rfl
  | udpSend hudp =>
      refine h.balance rfl rfl fun a => ?_
      rw [arrivals_snoc rfl]
      simp only [Threads.pending, UdpThread.carried, hudp, List.filterMap_append,
        filterMap_cons_eq, List.filterMap_nil, List.count_append, List.count_nil]
      omega
  | reject hw hpackets hcheck =>
      refine h.balance rfl rfl fun a => ?_
      rw [arrivals_snoc rfl, Threads.pending, Threads.pending, hpackets, filterMap_cons_eq,
        acceptPacket, hcheck]
      rfl
  | accept hw hpackets hcheck =>
      refine h.balance rfl rfl fun a => ?_
      rw [arrivals_snoc rfl]
      simp only [Threads.pending, hpackets, filterMap_cons_eq, acceptPacket, hcheck,
        Option.map_some, List.count_append, hworker hw rfl, Worker.carried?]
      omega
  | workerExit hw =>
      refine h.balance rfl rfl fun a => ?_
      rw [arrivals_snoc rfl]
      simp [Threads.pending, hworker hw rfl, Worker.carried?]
  | @mark r i p data hw =>
      obtain ⟨done, hdone, hchunks, hperm⟩ := h
      refine ⟨done ++ [.ofPacket p data], ?_, ?_, List.perm_iff_count.2 fun a => ?_⟩
      · rw [List.map_append, ← hdone]
        rfl
      · rw [List.map_append, ← hchunks]
        rfl
      · have hcount := count_filterMap_set Worker.carried? a (.sending ⟨p.chunkId, data⟩) hw
        have hold := List.perm_iff_count.1 hperm a
        rw [arrivals_snoc rfl]
        simp only [Threads.pending, Worker.carried?, List.count_append, Option.toList_some,
          Option.toList_none, List.count_nil] at hold hcount ⊢
        omega
  | send hw =>
      refine h.balance rfl rfl fun a => ?_
      rw [arrivals_snoc rfl]
      simp [Threads.pending, hworker hw rfl, Worker.carried?]
  | sendError hw =>
      refine h.balance rfl rfl fun a => ?_
      rw [arrivals_snoc rfl]
      simp [Threads.pending, hworker hw rfl, Worker.carried?]
  | ack hmove =>
      refine h.balance hmove.marks rfl fun a => ?_
      rw [arrivals_snoc rfl]
      rfl
  | _ =>
      refine h.balance rfl rfl fun a => ?_
      rw [arrivals_snoc rfl]
      rfl

theorem admitted_of_reaches (hrun : (receiver setup).Reaches ls r) : Admitted setup ls r := by
  refine hrun.history (P := fun ls r => Admitted setup ls r) ⟨[], rfl, rfl, ?_⟩
    fun ls r l r' _ ih _ hstep => ih.turn (Threads.turn_of_step hstep)
  simp [arrivals, Threads.pending, receiver, Threads.init, UdpThread.carried, Worker.carried?]

/-! ## What the hash test keeps out -/

/-- An arrived data packet that passes the hash test. -/
def PassesTest (setup : Setup) (ls : List Label) (pkt : DecodedDataPacket) : Prop :=
  ∃ d, Label.datagram d ∈ ls ∧ Incoming.ofDatagram d = .data pkt ∧
    chunkHash setup.crates (carriedChunk setup pkt).data = pkt.hash

theorem Admitted.passesTest {done : List Accepted} {a : Accepted}
    (hperm : ((arrivals ls).filterMap (accept setup)).Perm (done ++ r.pending setup))
    (ha : a ∈ done) :
    ∃ pkt, PassesTest setup ls pkt ∧
      a = ⟨pkt.blockId, pkt.packetInBlock, carriedChunk setup pkt⟩ := by
  obtain ⟨d, hd, haccept⟩ := List.mem_filterMap.1 (hperm.mem_iff.2 (List.mem_append_left _ ha))
  obtain ⟨pkt, hpkt, hhash, rfl⟩ := accept_eq_some haccept
  exact ⟨pkt, ⟨d, mem_arrivals.1 hd, hpkt, hhash⟩, rfl⟩

/-- **Admission.** Every mark and every chunk sent to the writer is that of an arrived packet which
    passes the hash test, and the chunk is the one its header's hash was made from unless the hash
    collides there. Two runs whose arrivals have the same packets that pass the test have made the
    same marks and sent the same chunks, up to order, once nothing is on its way. -/
theorem admission_of_reaches (hrun : (receiver setup).Reaches ls r) :
    (∀ mark ∈ r.control.marks, ∃ pkt, PassesTest setup ls pkt ∧
      mark = (pkt.blockId, pkt.packetInBlock)) ∧
    (∀ chunk ∈ r.sent, ∃ pkt, PassesTest setup ls pkt ∧ chunk = carriedChunk setup pkt ∧
      ∀ data, pkt.hash = chunkHash setup.crates data →
        (∀ x, chunkHash setup.crates x = chunkHash setup.crates data → x = data) →
        chunk.data = data) ∧
    (∀ ls' r', (receiver setup).Reaches ls' r' →
      ((arrivals ls).filterMap (accept setup)).Perm ((arrivals ls').filterMap (accept setup)) →
      r.pending setup = [] → r'.pending setup = [] →
      r.control.marks.Perm r'.control.marks ∧ r.sent.Perm r'.sent) := by
  obtain ⟨done, hmarks, hsent, hperm⟩ := admitted_of_reaches hrun
  refine ⟨fun mark hmark => ?_, fun chunk hchunk => ?_, fun ls' r' hrun' hsame hidle hidle' => ?_⟩
  · rw [hmarks] at hmark
    obtain ⟨a, ha, rfl⟩ := List.mem_map.1 hmark
    obtain ⟨pkt, hpkt, rfl⟩ := Admitted.passesTest hperm ha
    exact ⟨pkt, hpkt, rfl⟩
  · rw [hsent] at hchunk
    obtain ⟨a, ha, rfl⟩ := List.mem_map.1 hchunk
    obtain ⟨pkt, hpkt, rfl⟩ := Admitted.passesTest hperm ha
    obtain ⟨_, _, _, hhash⟩ := id hpkt
    exact ⟨pkt, hpkt, rfl, fun data hdata hcollision => hcollision _ (hhash.trans hdata)⟩
  · obtain ⟨done', hmarks', hsent', hperm'⟩ := admitted_of_reaches hrun'
    rw [hidle, List.append_nil] at hperm
    rw [hidle', List.append_nil] at hperm'
    have hdone : done.Perm done' := hperm.symm.trans (hsame.trans hperm')
    rw [hmarks, hmarks', hsent, hsent']
    exact ⟨hdone.map _, hdone.map _⟩

/-- A packet that fails the test arrives before the genuine one, or does not. -/
theorem admission_of_reaches_rejected :
    ∃ ls r ls' r', (receiver oneChunk).Reaches ls r ∧ (receiver oneChunk).Reaches ls' r' ∧
      arrivals ls = DataPacket.encode 0 0 7 [9] :: arrivals ls' ∧
      r.control.marks.Perm r'.control.marks ∧ r.sent.Perm r'.sent := by
  obtain ⟨r, hr, hidle⟩ := Lts.exists_exec (receiver oneChunk)
    [.udpLoop, .datagram (DataPacket.encode 0 0 7 [9]), .udpSend, .workerRecv 0, .udpLoop,
      .datagram onePacket, .udpSend, .workerRecv 0, .workerMark 0]
    (fun r => r.pending oneChunk = []) (by decide +kernel)
  obtain ⟨r', hr', hidle'⟩ := Lts.exists_exec (receiver oneChunk)
    [.udpLoop, .datagram onePacket, .udpSend, .workerRecv 0, .workerMark 0]
    (fun r => r.pending oneChunk = []) (by decide +kernel)
  have hsame := (admission_of_reaches (Lts.reaches_of_exec hr)).2.2 _ r' (Lts.reaches_of_exec hr')
    (by decide +kernel) hidle hidle'
  exact ⟨_, r, _, r', Lts.reaches_of_exec hr, Lts.reaches_of_exec hr', rfl, hsame⟩

/-! ## What it lets in -/

/-- A packet that anyone can build: no payload, and the hash of no bytes. -/
def emptyPacket (crates : Crates) : Datagram :=
  DataPacket.encode 0 0 (chunkHash crates []) []

/-- Whatever the hash, the key and the nonce are, the empty packet passes. -/
theorem accept_emptyPacket (setup : Setup) :
    accept setup (emptyPacket setup.crates) = some ⟨0, 0, ⟨0, []⟩⟩ := by
  have hd : Incoming.ofDatagram (emptyPacket setup.crates) = _ :=
    Incoming.ofDatagram_data _ _ _ (by simp)
  have hdecrypt : ∀ chunkId, decryptChunk setup.crates [] setup.sessionKey setup.nonce chunkId = [] :=
    fun _ => rfl
  have hfits : chunkIdOverflows 0 0 = false := by decide
  simp only [accept, hd, hfits, Bool.and_false, Bool.false_eq_true, if_false, acceptPacket,
    checkPacket, receivedPacket, hdecrypt, if_true, Option.map_some]
  rfl

/-- **Injection.** The empty packet is the only datagram to arrive; it is marked, and an empty chunk
    is sent to the writer under the id of the file's only chunk. No hash avoids this. -/
theorem empty_packet_admitted :
    (∃ ls r entry, (receiver oneChunk).Reaches ls r ∧
      arrivals ls = [emptyPacket oneChunk.crates] ∧
      r.control.shared.Tracked 0 entry ∧ entry.received = [true] ∧ r.sent = [⟨0, []⟩] ∧
      ∀ chunk ∈ Sender.readerThread [3, 0] [1, 2, 3] 0, ⟨chunk.chunkId, chunk.data⟩ ∉ r.sent) ∧
    ∀ setup, accept setup (emptyPacket setup.crates) = some ⟨0, 0, ⟨0, []⟩⟩ := by
  obtain ⟨r, hr, hentry, hsent⟩ := Lts.exists_exec (receiver oneChunk)
    [.udpLoop, .datagram (emptyPacket oneChunk.crates), .udpSend, .workerRecv 0, .workerMark 0]
    (fun r => (r.control.shared.blocks.lookup 0).map BlockRxEntry.received = some [true] ∧
      r.sent = [⟨0, []⟩]) (by decide +kernel)
  obtain ⟨entry, htracked, hreceived⟩ := Option.map_eq_some_iff.1 hentry
  refine ⟨⟨_, r, entry, Lts.reaches_of_exec hr, rfl, htracked, hreceived, hsent, ?_⟩,
    accept_emptyPacket⟩
  rw [hsent]
  decide

/-! ## The sender's packets -/

/-- The numbers computed for a chunk on its way from one worker to the other are those of `ℕ`: no
    cast, sum or product of `block_of`, `encode`, `decode`, `packets_in_block` and `chunk_id_of`
    wraps, and the counter of no AES block carries into its nonce half. -/
structure Fits (nonce : Nonce) (chunk : ReadChunk) : Prop where
  packetInBlock : (blockOf chunk.chunkId).2.toNat = chunk.chunkId.toNat % packetsPerBlock
  chunkId : (blockOf chunk.chunkId).1.toNat * packetsPerBlock + (blockOf chunk.chunkId).2.toNat
    = chunk.chunkId.toNat
  encryptedSize : (UInt32.ofNat chunk.data.length).toNat = chunk.data.length
  datagram : DataPacket.fixed + chunk.data.length < 2 ^ 64
  start : (blockOf chunk.chunkId).1.toNat * packetsPerBlock < 2 ^ 64
  counter : ∀ i < chunk.data.length, (counterBlock nonce chunk.chunkId (i / 16)).toNat
    = noncePrefix nonce * 2 ^ 64 + (chunk.chunkId.toNat + i / 16)

theorem fits_of_length (nonce : Nonce) {chunk : ReadChunk} (hlen : chunk.data.length < 2 ^ 32) :
    Fits nonce chunk where
  packetInBlock := blockOf_snd_toNat _
  chunkId := by
    rw [blockOf_fst_toNat, blockOf_snd_toNat, packetsPerBlock]
    omega
  encryptedSize := UInt32.toNat_ofNat_of_lt' hlen
  datagram := by
    rw [DataPacket.fixed]
    omega
  start := by
    have hblock := UInt32.toNat_lt (blockOf chunk.chunkId).1
    rw [packetsPerBlock]
    omega
  counter := fun i hi => toNat_counterBlock _ _ (by omega)

/-- What the sender's worker makes of a chunk, as the UDP thread decodes it. -/
def sentPacket (setup : Setup) (chunk : ReadChunk) : DecodedDataPacket where
  blockId := (blockOf chunk.chunkId).1
  packetInBlock := (blockOf chunk.chunkId).2
  hash := chunkHash setup.crates chunk.data
  payload := encryptChunk setup.crates chunk.data setup.sessionKey setup.nonce chunk.chunkId

theorem ofDatagram_workerThread (setup : Setup) {chunk : ReadChunk}
    (hlen : chunk.data.length < 2 ^ 32) :
    Incoming.ofDatagram
        (Sender.workerThread setup.crates setup.sessionKey setup.nonce chunk).packet
      = .data (sentPacket setup chunk) :=
  Incoming.ofDatagram_data _ _ _ (by rwa [length_encryptChunk])

theorem checkPacket_sentPacket (setup : Setup) (chunk : ReadChunk) :
    checkPacket setup (receivedPacket (sentPacket setup chunk)) = some chunk.data := by
  simp only [checkPacket, receivedPacket, sentPacket, chunkIdOf_blockOf, decryptChunk_encryptChunk,
    if_true]

/-- **Round trip of a packet.** The datagram the sender's worker builds for a chunk decodes to the
    position of the chunk, is accepted, and yields the chunk; a receiver that gets it hands exactly
    this chunk to the writer. Nothing overflows on the way. -/
theorem packet_round_trip (setup : Setup) (chunk : ReadChunk)
    (hlen : chunk.data.length < 2 ^ 32) :
    let datagram := (Sender.workerThread setup.crates setup.sessionKey setup.nonce chunk).packet
    let (blockId, packetInBlock) := blockOf chunk.chunkId
    accept setup datagram = some ⟨blockId, packetInBlock, ⟨chunk.chunkId, chunk.data⟩⟩ ∧
    (∀ (r : Threads) (i : ℕ), r.udp = .recv → r.packets = [] → r.workers[i]? = some .recv →
      ∃ r', (receiver setup).exec
          [.datagram datagram, .udpSend, .workerRecv i, .workerMark i] r = some r' ∧
        r'.workers[i]? = some (.sending ⟨chunk.chunkId, chunk.data⟩) ∧
        r'.control.marks = r.control.marks ++ [(blockId, packetInBlock)]) ∧
    chunkIdOverflows blockId packetInBlock = false ∧ Fits setup.nonce chunk := by
  have hfits : chunkIdOverflows (sentPacket setup chunk).blockId
      (sentPacket setup chunk).packetInBlock = false := chunkIdOverflows_blockOf chunk.chunkId
  have hdatagram := ofDatagram_workerThread setup hlen
  have hcheck := checkPacket_sentPacket setup chunk
  have hid : (receivedPacket (sentPacket setup chunk)).chunkId = chunk.chunkId :=
    chunkIdOf_blockOf chunk.chunkId
  refine ⟨?_, fun r i hudp hpackets hworker => ?_, hfits, fits_of_length _ hlen⟩
  · simp only [accept, hdatagram, hfits, Bool.and_false, Bool.false_eq_true, if_false,
      acceptPacket, hcheck, Option.map_some, Accepted.ofPacket, hid]
    rfl
  · have hi := (List.getElem?_eq_some_iff.1 hworker).1
    have hroom : ([] : List ReceivedPacket).length < channelCapacity := by decide
    simp only [Lts.exec, receiver, Threads.step, hudp, Threads.onDatagram, hdatagram, hfits,
      Bool.and_false, Bool.false_eq_true, if_false, Option.bind_some, hpackets, if_pos hroom,
      hworker, Threads.onWorkerRecv, List.nil_append, hcheck, List.getElem?_set_self hi]
    refine ⟨_, rfl, ?_, rfl⟩
    rw [List.set_set, List.getElem?_set_self hi, hid]

/-- The chunk with the largest id. -/
theorem packet_round_trip_last :
    accept oneChunk (Sender.workerThread oneChunk.crates oneChunk.sessionKey oneChunk.nonce
        ⟨4294967295, [1, 2, 3]⟩).packet
      = some ⟨16777215, 255, ⟨4294967295, [1, 2, 3]⟩⟩ :=
  (packet_round_trip oneChunk ⟨4294967295, [1, 2, 3]⟩ (by decide)).1

end SecureTransfer.Receiver
