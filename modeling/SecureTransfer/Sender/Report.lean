import SecureTransfer.Sender.OutputTrace

set_option autoImplicit false

/-! # What `bytes_sent` counts

The manager returns `bytes_sent`, from which `Sender::run` computes what it prints. Only
`place_chunk` adds to it, the size of the chunk it places; so it is the payload of the first sends
(`bytesSent_eq_payload`), to which repairs and fallbacks add nothing, since they repeat first sends
(`sent_subset_firsts`). -/

namespace SecureTransfer.Sender

variable {totalChunks : UInt32} {pipelineDepth : ℕ} {H : Set EncryptedChunk} {m m' mid : Manager}
  {log : List (Instant × Activity)} {acts : List Activity} {l : LoopInput} {ls : List LoopInput}
  {s : Loop} {b : UInt32} {c : EncryptedChunk}

/-! ## The payload of a datagram -/

/-- How many bytes of the file a datagram carries. -/
def payloadSize : Datagram → ℕ
  | tag :: body => if tag = tagData then (DataPacket.decode body).elim 0 fun p => p.payload.length else 0
  | [] => 0

/-- The payload of all of `ds`. -/
def payload (ds : List Datagram) : ℕ :=
  (ds.map payloadSize).sum

theorem payload_append (ds ds' : List Datagram) : payload (ds ++ ds') = payload ds + payload ds' := by
  rw [payload, List.map_append, List.sum_append]
  rfl

theorem payloadSize_encode (blockId : UInt32) (packetInBlock : UInt16) (hash : UInt64)
    {data : Bytes} (h : data.length < 2 ^ 32) :
    payloadSize (DataPacket.encode blockId packetInBlock hash data) = data.length := by
  have hdecode := DataPacket.decode_encode blockId packetInBlock hash h
  rw [DataPacket.encode, List.tail_cons] at hdecode
  rw [DataPacket.encode, payloadSize, if_pos rfl, hdecode]
  rfl

theorem payloadSize_blockEnd (b n : UInt32) : payloadSize (BlockEndPacket.encode b n) = 0 := by
  rw [BlockEndPacket.encode, payloadSize, if_neg (by decide)]

/-- The `bytes` of the chunk are those its packet carries. -/
def Sized (c : EncryptedChunk) : Prop :=
  payloadSize c.packet = c.bytes

/-- What the workers make is sized. -/
theorem sized_workerThread (crates : Crates) (key : Key) (nonce : Nonce) {chunk : ReadChunk}
    (h : chunk.data.length < 2 ^ 32) : Sized (workerThread crates key nonce chunk) := by
  have hlen : (encryptChunk crates chunk.data key nonce chunk.chunkId).length
      = chunk.data.length := length_encryptChunk ..
  exact (payloadSize_encode _ _ _ (hlen ▸ h)).trans hlen

/-! ## Placing chunks -/

/-- The manager has counted the payload of what it has sent since `m`. -/
def Pays (m m' : Manager) : Prop :=
  ∃ out, m'.udp = m.udp ++ out ∧ m'.bytesSent = m.bytesSent + payload out

theorem Pays.of_idle (hudp : m'.udp = m.udp) (hbytes : m'.bytesSent = m.bytesSent) : Pays m m' :=
  ⟨[], by rw [hudp, List.append_nil], hbytes⟩

theorem Pays.trans (h : Pays m mid) (h' : Pays mid m') : Pays m m' := by
  obtain ⟨out, hudp, hbytes⟩ := h
  obtain ⟨out', hudp', hbytes'⟩ := h'
  refine ⟨out ++ out', by rw [hudp', hudp, List.append_assoc], ?_⟩
  rw [hbytes', hbytes, payload_append, Nat.add_assoc]

theorem Pays.sentSince (h : Pays m m') :
    m'.bytesSent = m.bytesSent + payload (m.sentSince m') := by
  obtain ⟨out, hudp, hbytes⟩ := h
  rw [Manager.sentSince_eq hudp, hbytes]

theorem placeChunk_pays {i : UInt16} (hsized : Sized c) (hok : placeChunk b i c m = .ok m') :
    Pays m m' := by
  obtain ⟨entry, -, -, -, rfl⟩ := placeChunk_ok hok
  refine ⟨_, rfl, ?_⟩
  rw [payload, BlockState.placeOut, List.map_cons, List.sum_cons, hsized]
  split
  · rw [List.map_singleton, List.sum_singleton, payloadSize_blockEnd]
    rfl
  · rfl

theorem placeBucket_pays {bucket : List EncryptedChunk} (hsized : ∀ c ∈ bucket, Sized c)
    (hok : placeBucket b bucket m = .ok m') : Pays m m' := by
  refine placeBucket_rule (P := fun bucket m m' => (∀ c ∈ bucket, Sized c) → Pays m m')
    (fun m _ => .of_idle rfl rfl) ?_ hok hsized
  intro c bucket m mid m' _ hplace ih hsized
  obtain ⟨hc, hbucket⟩ := List.forall_mem_cons.1 hsized
  exact (placeChunk_pays hc hplace).trans (ih hbucket)

theorem admitOrBuffer_pays (hsized : Sized c)
    (hok : admitOrBuffer totalChunks pipelineDepth c m = .ok m') : Pays m m' := by
  cases admission_of_ok hok with
  | drop => exact .of_idle rfl rfl
  | place _ hplace => exact placeChunk_pays hsized hplace
  | append => exact .of_idle rfl rfl
  | openBlock _ _ hplace =>
      have hopen : Pays m (m.openBlock totalChunks (EncryptedChunk.block c)) := .of_idle rfl rfl
      exact hopen.trans (placeChunk_pays hsized hplace)
  | buffer => exact .of_idle rfl rfl

theorem openPending_pays (hbooks : Bookkeeping totalChunks pipelineDepth H m)
    (hsized : ∀ c ∈ H, Sized c) (hok : openPending totalChunks b m = .ok m') : Pays m m' := by
  obtain ⟨bucket, hl, hplace⟩ := openPending_inv hok
  have hbucket : BucketOk H b bucket := hbooks.slots _ _ hl
  have hopen : Pays m ((m.takeBucket b).openBlock totalChunks b) := .of_idle rfl rfl
  exact hopen.trans (placeBucket_pays (fun c hc => hsized c (hbucket.mem c hc).1) hplace)

theorem drainRounds_pays {room : ℕ} (hbooks : Bookkeeping totalChunks pipelineDepth H m)
    (hsized : ∀ c ∈ H, Sized c) (hroom : m.openSlots + room ≤ pipelineDepth)
    (hok : drainRounds totalChunks room m = .ok m') : Pays m m' :=
  hbooks.drainRounds_rule (fun _ => .of_idle rfl rfl)
    (fun _ _ _ _ hbooks _ _ hopen hrest => (openPending_pays hbooks hsized hopen).trans hrest)
    hroom hok

/-! ## The other functions -/

theorem handleMissing_bytesSent (ids : List UInt16) :
    (handleMissing b ids m).bytesSent = m.bytesSent := by
  obtain ⟨heq, -⟩ | ⟨entry, -, heq⟩ := handleMissing_cases b ids m
  · rw [heq]
  · rw [heq]
    rfl

theorem handleComplete_bytesSent (hok : handleComplete b m = .ok m') :
    m'.bytesSent = m.bytesSent := by
  unfold handleComplete at hok
  dsimp only at hok
  split at hok
  · cases hok; rfl
  · split at hok <;> cases hok
    rfl
  · cases hok; rfl
  · cases hok; rfl

theorem retransmitStale_bytesSent (now : Instant) :
    (retransmitStale now m b).bytesSent = m.bytesSent := by
  obtain heq | ⟨entry, -, -, -, heq⟩ := retransmitStale_cases now m b
  · rw [heq]
  · rw [heq]
    rfl

theorem retransmitStaleBlocks_bytesSent (order : List UInt32) :
    (retransmitStaleBlocks order m).bytesSent = m.bytesSent :=
  retransmitStaleBlocks_rule (P := fun m' => m'.bytesSent = m.bytesSent)
    (fun now _ _ h => (retransmitStale_bytesSent now).trans h) order rfl

/-! ## Along a run -/

/-- What a move adds to `bytes_sent` is the payload of its first sends. -/
theorem LogMove.pays (hmove : LogMove totalChunks pipelineDepth l m m' acts)
    (hbooks : Bookkeeping totalChunks pipelineDepth H m) (hsized : ∀ c ∈ H, Sized c)
    (hnew : ∀ c, l.chunk? = some c → Sized c) :
    m'.bytesSent = m.bytesSent + payload (firstSends (acts.map (Prod.mk m.now))) := by
  have hidle (hbytes : m'.bytesSent = m.bytesSent)
      (hfirst : ∀ a ∈ acts, a.first? = none) :
      m'.bytesSent = m.bytesSent + payload (firstSends (acts.map (Prod.mk m.now))) := by
    have hnone : firstSends (acts.map (Prod.mk m.now)) = [] :=
      List.filterMap_eq_nil_iff.2 (by simpa using hfirst)
    rw [hnone]
    exact hbytes
  cases hmove with
  | drain _ hdrain =>
      rw [firstSends_firsts]
      have hroom := hbooks.openSlots_le
      exact (drainRounds_pays hbooks hsized (by omega) hdrain).sentSince
  | chunk hadmitted =>
      rw [firstSends_firsts]
      exact (admitOrBuffer_pays (hnew _ rfl) hadmitted).sentSince
  | missing => exact hidle (handleMissing_bytesSent _) (by simp [Activity.first?])
  | complete hcomplete =>
      exact hidle (handleComplete_bytesSent hcomplete) (by simp [Activity.first?])
  | timeout =>
      refine hidle (retransmitStaleBlocks_bytesSent _) fun a ha => ?_
      obtain ⟨b, ds, -, -, rfl⟩ := mem_resends ha
      rfl
  | tick => rfl

/-- **Accounting.** `bytes_sent` is the payload of the first sends. -/
theorem bytesSent_eq_payload (hrun : (blockManager totalChunks pipelineDepth).Reaches ls s)
    (horderly : Orderly totalChunks ls) (hsized : ∀ c ∈ handledChunks ls, Sized c)
    (hm : s.manager? = some m) :
    m.bytesSent = payload (firstSends (managerLog totalChunks pipelineDepth ls)) := by
  refine managerLog_rule (P := fun ls log m => (∀ c ∈ handledChunks ls, Sized c) →
    m.bytesSent = payload (firstSends log)) (fun _ => rfl) ?_ hrun horderly hm hsized
  intro ls log m l m' acts hbooks _ ih hmove hsized
  rw [handledChunks_snoc] at hsized
  have hold : ∀ c ∈ bucketSet (handledChunks ls), Sized c :=
    fun c hc => hsized c (List.mem_append_left _ hc)
  have hnew : ∀ c, l.chunk? = some c → Sized c :=
    fun c hc => hsized c (List.mem_append_right _ (by simp [hc]))
  rw [hmove.pays hbooks hold hnew, ih hold, firstSends_append, payload_append]

/-! ## Resends -/

/-- A move sends for the first time or repeats what has been sent for the first time. -/
theorem LogMove.sent_subset (hmove : LogMove totalChunks pipelineDepth l m m' acts)
    (hbooks : Bookkeeping totalChunks pipelineDepth H m)
    (h : FirstSends totalChunks m (firstSends log)) :
    allSends (acts.map (Prod.mk m.now)) ⊆ firstSends (log ++ acts.map (Prod.mk m.now)) := by
  rw [firstSends_append]
  cases hmove with
  | drain =>
      rw [allSends_each fun _ => rfl, firstSends_firsts]
      exact List.subset_append_right _ _
  | chunk =>
      rw [allSends_each fun _ => rfl, firstSends_firsts]
      exact List.subset_append_right _ _
  | @missing b ids =>
      refine List.subset_append_of_subset_left _ fun d hd => ?_
      have hrepair : d ∈ m.sentSince (handleMissing b ids m) := by
        rw [← allSends_each (f := .repair) (fun _ => rfl) m.now (m.sentSince _)]
        exact hd
      obtain ⟨entry, hl, i, hcached⟩ := cached_of_repair hrepair
      exact h.cached b entry hl i d hcached
  | complete => exact List.nil_subset _
  | timeout =>
      refine List.subset_append_of_subset_left _ fun d hd => ?_
      obtain ⟨e, he, hd⟩ := List.mem_flatMap.1 hd
      obtain ⟨a, ha, rfl⟩ := List.mem_map.1 he
      obtain ⟨b, ds, -, hds, rfl⟩ := mem_resends ha
      obtain ⟨entry, hl, hended, -, -, rfl⟩ := Manager.resend_eq_some hds
      rcases List.mem_append.1 hd with hd | hd
      · obtain ⟨p, hp, rfl⟩ := List.mem_filterMap.1 hd
        obtain ⟨i, hi⟩ := List.mem_iff_getElem?.1 hp
        exact h.cached b entry hl i d hi
      · have hentry : EntryOk totalChunks H b entry := hbooks.slots _ _ hl
        rw [List.mem_singleton.1 hd, hentry.total]
        exact h.ended b entry hl hended
  | tick => exact List.nil_subset _

/-- Whatever is sent has been sent for the first time. -/
theorem sent_subset_firsts (hrun : (blockManager totalChunks pipelineDepth).Reaches ls s)
    (horderly : Orderly totalChunks ls) (hpackets : ∀ c ∈ handledChunks ls, IsPacket c)
    (hm : s.manager? = some m) :
    m.udp ⊆ firstSends (managerLog totalChunks pipelineDepth ls) := by
  rw [← managerLog_sent hrun horderly hm]
  refine (managerLog_rule (P := fun ls log m => (∀ c ∈ handledChunks ls, IsPacket c) →
    Traced totalChunks log m ∧ allSends log ⊆ firstSends log)
    (fun _ => ⟨.init, List.Subset.refl _⟩) ?_ hrun horderly hm hpackets).2
  intro ls log m l m' acts hbooks horderly ih hmove hpackets
  obtain ⟨hold, hnew⟩ := horderly.newChunk hpackets
  obtain ⟨htraced, hsub⟩ := ih hold
  refine ⟨htraced.move hmove hbooks hold hnew, ?_⟩
  rw [allSends_append]
  refine List.append_subset.2 ⟨fun d hd => ?_, hmove.sent_subset hbooks htraced.firsts⟩
  rw [firstSends_append]
  exact List.mem_append_left _ (hsub hd)

end SecureTransfer.Sender
