import SecureTransfer.Sender.OutputTrace
import SecureTransfer.Transport.BlockCache

set_option autoImplicit false

/-! # The block manager keeps the contract of the shared cache

The manager stores the packets of its `Open` blocks itself. Here the shared cache is given the calls
that the manager's sends and `Complete`s amount to (`cacheCalls`), a packet being recorded before it
is sent; then at every point the cache holds what the manager's entries hold (`Mirrors`), and no
call panics. -/

namespace SecureTransfer.Sender

variable {totalChunks : UInt32} {pipelineDepth : ℕ} {m m' mid : Manager} {cache : SharedBlockCache}
  {log : List (Instant × Activity)} {acts : List Activity} {l : LoopInput} {ls : List LoopInput}
  {s : Loop} {b : UInt32} {c : EncryptedChunk} {entry : BlockState}

/-! ## The calls -/

/-- The call with which a datagram would be recorded. -/
def recordCall (totalChunks : UInt32) : Datagram → Option CacheCall
  | tag :: body =>
    if tag = tagData then
      (DataPacket.decode body).map fun p =>
        .recordSent p.blockId p.packetInBlock (packetsInBlock p.blockId totalChunks) (tag :: body)
    else none
  | [] => none

/-- A packet is recorded when it is sent for the first time, and a block completed when its
    `Complete` is handled. -/
def cacheCall (totalChunks : UInt32) : Activity → Option CacheCall
  | .first d => recordCall totalChunks d
  | .complete b => some (.complete b)
  | _ => none

def cacheCalls (totalChunks : UInt32) (log : List (Instant × Activity)) : List CacheCall :=
  log.filterMap fun e => cacheCall totalChunks e.2

/-- The packet of the chunk decodes to the position of the chunk. -/
def Encoded (c : EncryptedChunk) : Prop :=
  ∃ hash payload, payload.length < 2 ^ 32 ∧
    c.packet = DataPacket.encode (EncryptedChunk.block c) (blockOf c.chunkId).2 hash payload

theorem Encoded.isPacket (h : Encoded c) : IsPacket c := by
  obtain ⟨hash, payload, -, hpacket⟩ := h
  exact ⟨hash, payload, hpacket⟩

theorem Encoded.recordCall (h : Encoded c) : Sender.recordCall totalChunks c.packet
    = some (.recordSent (EncryptedChunk.block c) (blockOf c.chunkId).2
        (packetsInBlock (EncryptedChunk.block c) totalChunks) c.packet) := by
  obtain ⟨hash, payload, hlen, hpacket⟩ := h
  have hdecode := DataPacket.decode_encode (EncryptedChunk.block c) (blockOf c.chunkId).2 hash hlen
  rw [← hpacket] at hdecode
  rw [DataPacket.encode] at hpacket
  rw [hpacket, List.tail_cons] at hdecode
  rw [hpacket, Sender.recordCall, if_pos rfl, hdecode]
  rfl

theorem recordCall_blockEnd (b n : UInt32) :
    recordCall totalChunks (BlockEndPacket.encode b n) = none := by
  rw [BlockEndPacket.encode, recordCall, if_neg (by decide)]

/-! ## What the cache mirrors -/

/-- The manager's cache for the block. -/
def BlockSlot.cached : BlockSlot → Option BlockCacheEntry
  | .opened entry => some ⟨entry.packets⟩
  | _ => none

def Manager.cachedEntry (m : Manager) (b : UInt32) : Option BlockCacheEntry :=
  (m.blockStates.lookup b).bind BlockSlot.cached

def Mirrors (cache : SharedBlockCache) (m : Manager) : Prop :=
  ∀ b, cache.inner.lookup b = m.cachedEntry b

/-- As `Mirrors`, but block `b` may have just been opened, of which the cache hears with the first
    packet. -/
structure MirrorsBut (totalChunks : UInt32) (cache : SharedBlockCache) (m : Manager) (b : UInt32)
    (entry : BlockState) : Prop where
  opened : m.blockStates.lookup b = some (.opened entry)
  packets : (cache.inner.lookup b).getD (.new (packetsInBlock b totalChunks)) = ⟨entry.packets⟩
  other : ∀ b', b' ≠ b → cache.inner.lookup b' = m.cachedEntry b'

theorem Mirrors.but (h : Mirrors cache m) (hl : m.blockStates.lookup b = some (.opened entry)) :
    MirrorsBut totalChunks cache m b entry where
  opened := hl
  packets := by
    rw [h b, Manager.cachedEntry, hl]
    rfl
  other := fun b' _ => h b'

/-- Of a block that is not `Open` the cache has nothing. -/
theorem Mirrors.lookup_eq_none (h : Mirrors cache m)
    (hnot : ∀ entry, m.blockStates.lookup b ≠ some (.opened entry)) :
    cache.inner.lookup b = none := by
  rw [h b, Manager.cachedEntry]
  cases hl : m.blockStates.lookup b with
  | none => rfl
  | some slot =>
      cases slot with
      | opened entry => exact absurd hl (hnot entry)
      | _ => rfl

theorem Mirrors.congr (h : Mirrors cache m) (hsame : ∀ b, m'.cachedEntry b = m.cachedEntry b) :
    Mirrors cache m' :=
  fun b => (h b).trans (hsame b).symm

/-- The block is opened. -/
theorem Mirrors.openBlock (h : Mirrors cache m)
    (hnot : ∀ entry, m.blockStates.lookup b ≠ some (.opened entry))
    (hother : ∀ b', b' ≠ b → m'.blockStates.lookup b' = m.blockStates.lookup b')
    (hl : m'.blockStates.lookup b
      = some (.opened (.new (packetsInBlock b totalChunks) m.now))) :
    MirrorsBut totalChunks cache m' b (.new (packetsInBlock b totalChunks) m.now) where
  opened := hl
  packets := by
    rw [h.lookup_eq_none hnot]
    rfl
  other := fun b' hb' => by rw [h b', Manager.cachedEntry, Manager.cachedEntry, hother b' hb']

/-! ## Placing chunks -/

/-- Recording what has been sent since `m` takes the cache along. -/
def Records (totalChunks : UInt32) (cache : SharedBlockCache) (m m' : Manager) : Prop :=
  ∃ out cache', m'.udp = m.udp ++ out ∧
    blockCache.exec (out.filterMap (recordCall totalChunks)) cache = some cache' ∧ Mirrors cache' m'

theorem Records.refl (h : Mirrors cache m') (hudp : m'.udp = m.udp) :
    Records totalChunks cache m m' :=
  ⟨[], cache, by rw [hudp, List.append_nil], rfl, h⟩

/-- What follows is recorded in the cache that mirrors the state in between. -/
theorem Records.trans (h : Records totalChunks cache m mid)
    (h' : ∀ cache', Mirrors cache' mid → Records totalChunks cache' mid m') :
    Records totalChunks cache m m' := by
  obtain ⟨out, cache', hudp, hexec, hmirrors⟩ := h
  obtain ⟨out', cache'', hudp', hexec', hmirrors'⟩ := h' cache' hmirrors
  refine ⟨out ++ out', cache'', by rw [hudp', hudp, List.append_assoc], ?_, hmirrors'⟩
  rw [List.filterMap_append]
  exact Lts.exec_trans hexec hexec'

/-- One packet is recorded of what placing a chunk sends. -/
theorem Encoded.recordCalls (hc : Encoded c) (entry : BlockState) :
    (entry.placeOut (EncryptedChunk.block c) c.packet).filterMap (Sender.recordCall totalChunks)
      = [.recordSent (EncryptedChunk.block c) (blockOf c.chunkId).2
          (packetsInBlock (EncryptedChunk.block c) totalChunks) c.packet] := by
  rw [BlockState.placeOut, List.filterMap_cons_some hc.recordCall]
  split
  · rw [List.filterMap_cons_none (recordCall_blockEnd _ _)]
    rfl
  · rfl

/-- A packet is placed in the `Open` entry of its block, and recorded. -/
theorem MirrorsBut.placeChunk (h : MirrorsBut totalChunks cache m b entry) (hc : Encoded c)
    (hb : EncryptedChunk.block c = b)
    (hok : Sender.placeChunk b (blockOf c.chunkId).2 c m = .ok m') :
    Records totalChunks cache m m' ∧ ∃ entry', m'.blockStates.lookup b = some (.opened entry') := by
  subst hb
  obtain ⟨entry₀, hl, hindex, -, rfl⟩ := placeChunk_ok hok
  rw [h.opened] at hl
  cases hl
  refine ⟨⟨entry.placeOut (EncryptedChunk.block c) c.packet,
    ⟨cache.inner.insert (EncryptedChunk.block c)
      ⟨entry.packets.set (blockOf c.chunkId).2.toNat (some c.packet)⟩⟩, rfl, ?_, fun b' => ?_⟩,
    _, AList.lookup_insert _⟩
  · rw [hc.recordCalls entry]
    simp only [Lts.exec, blockCache, SharedBlockCache.call, SharedBlockCache.recordSent, h.packets,
      if_pos hindex, Except.toOption, Option.bind_some]
  · rw [Manager.cachedEntry, Manager.placed, AList.lookup_insert_ite, AList.lookup_insert_ite]
    split
    · rfl
    · next hne => exact h.other b' hne

theorem Mirrors.placeBucket {bucket : List EncryptedChunk} (h : Mirrors cache m)
    (hl : ∃ entry, m.blockStates.lookup b = some (.opened entry))
    (hencoded : ∀ c ∈ bucket, Encoded c) (hok : Sender.placeBucket b bucket m = .ok m') :
    Records totalChunks cache m m' := by
  refine placeBucket_rule (P := fun bucket m m' => ∀ cache, Mirrors cache m →
    (∃ entry, m.blockStates.lookup b = some (.opened entry)) → (∀ c ∈ bucket, Encoded c) →
    Records totalChunks cache m m') (fun m cache h _ _ => .refl h rfl) ?_ hok cache h hl hencoded
  rintro c bucket m mid m' hblock hplace ih cache h ⟨entry, hl⟩ hencoded
  obtain ⟨hc, hrest⟩ := List.forall_mem_cons.1 hencoded
  obtain ⟨hrecords, hl'⟩ := (h.but hl).placeChunk hc hblock hplace
  exact hrecords.trans fun cache' hmirrors => ih cache' hmirrors hl' hrest

/-- The first chunk makes the entry of a new block. -/
theorem MirrorsBut.placeBucket {bucket : List EncryptedChunk}
    (h : MirrorsBut totalChunks cache m b entry) (hbucket : bucket ≠ [])
    (hencoded : ∀ c ∈ bucket, Encoded c) (hok : Sender.placeBucket b bucket m = .ok m') :
    Records totalChunks cache m m' := by
  obtain ⟨c, bucket, rfl⟩ := List.exists_cons_of_ne_nil hbucket
  obtain ⟨hc, hrest⟩ := List.forall_mem_cons.1 hencoded
  obtain ⟨hblock, mid, hplace, hrestOk⟩ := placeBucket_cons hok
  obtain ⟨hrecords, hl⟩ := h.placeChunk hc hblock hplace
  exact hrecords.trans fun cache' hmirrors => hmirrors.placeBucket hl hrest hrestOk

theorem Mirrors.openPending {H : Set EncryptedChunk} (h : Mirrors cache m)
    (hbooks : Bookkeeping totalChunks pipelineDepth H m) (hencoded : ∀ c ∈ H, Encoded c)
    (hok : Sender.openPending totalChunks b m = .ok m') : Records totalChunks cache m m' := by
  obtain ⟨bucket, hl, hplace⟩ := openPending_inv hok
  have hbucket : BucketOk H b bucket := hbooks.slots _ _ hl
  have hopen : MirrorsBut totalChunks cache ((m.takeBucket b).openBlock totalChunks b) b
      (.new (packetsInBlock b totalChunks) m.now) :=
    h.openBlock (fun entry hl' => by rw [hl] at hl'; cases hl')
      (fun b' hb' => by
        rw [Manager.openBlock, AList.lookup_insert_ne hb', AList.lookup_erase_ne hb'])
      (AList.lookup_insert _)
  exact hopen.placeBucket hbucket.nonempty (fun c hc => hencoded c (hbucket.mem c hc).1) hplace

theorem Mirrors.drainRounds {H : Set EncryptedChunk} {room : ℕ} (h : Mirrors cache m)
    (hbooks : Bookkeeping totalChunks pipelineDepth H m) (hencoded : ∀ c ∈ H, Encoded c)
    (hroom : m.openSlots + room ≤ pipelineDepth)
    (hok : Sender.drainRounds totalChunks room m = .ok m') : Records totalChunks cache m m' := by
  refine hbooks.drainRounds_rule (P := fun m m' => ∀ cache, Mirrors cache m →
    Records totalChunks cache m m') (fun m cache h => .refl h rfl) ?_ hroom hok cache h
  intro nextId m mid m' hbooks _ _ hopen ih cache h
  exact (h.openPending hbooks hencoded hopen).trans ih

theorem Mirrors.admitOrBuffer (h : Mirrors cache m) (hc : Encoded c)
    (hok : Sender.admitOrBuffer totalChunks pipelineDepth c m = .ok m') :
    Records totalChunks cache m m' := by
  have hbuffer (hnot : ∀ entry, m.blockStates.lookup (EncryptedChunk.block c) ≠ some (.opened entry))
      (bucket : List EncryptedChunk) :
      Records totalChunks cache m (m.setSlot (EncryptedChunk.block c) (.pending bucket)) := by
    refine .refl (fun b => ?_) rfl
    rw [Manager.cachedEntry, Manager.setSlot, AList.lookup_insert_ite]
    split
    · next hb => rw [hb, h.lookup_eq_none hnot]; rfl
    · exact h b
  cases admission_of_ok hok with
  | drop => exact .refl h rfl
  | place hl hplace => exact ((h.but hl).placeChunk hc rfl hplace).1
  | append hl => exact hbuffer (fun entry hl' => by rw [hl] at hl'; cases hl') _
  | openBlock hl _ hplace =>
      have hopen : MirrorsBut totalChunks cache (m.openBlock totalChunks (EncryptedChunk.block c))
          (EncryptedChunk.block c)
          (.new (packetsInBlock (EncryptedChunk.block c) totalChunks) m.now) :=
        h.openBlock (fun entry hl' => by rw [hl] at hl'; cases hl')
          (fun b' hb' => AList.lookup_insert_ne hb') (AList.lookup_insert _)
      exact (hopen.placeChunk hc rfl hplace).1
  | buffer hl => exact hbuffer (fun entry hl' => by rw [hl] at hl'; cases hl') _

/-! ## The other functions -/

/-- An entry is replaced by one with the same packets. -/
theorem Manager.cachedEntry_setSlot (entry' : BlockState)
    (hl : m.blockStates.lookup b = some (.opened entry)) (hpackets : entry'.packets = entry.packets)
    (b' : UInt32) : (m.setSlot b (.opened entry')).cachedEntry b' = m.cachedEntry b' := by
  rw [Manager.cachedEntry, Manager.setSlot, AList.lookup_insert_ite]
  split
  · next hb =>
      rw [Manager.cachedEntry, hb, hl]
      exact congrArg (fun packets => some (BlockCacheEntry.mk packets)) hpackets
  · rfl

theorem handleMissing_cachedEntry (ids : List UInt16) (b' : UInt32) :
    (handleMissing b ids m).cachedEntry b' = m.cachedEntry b' := by
  obtain ⟨heq, -⟩ | ⟨entry, hl, heq⟩ := handleMissing_cases b ids m
  · rw [heq]
  · rw [heq]
    exact Manager.cachedEntry_setSlot { entry with lastAckActivity := m.now } hl rfl b'

theorem retransmitStale_cachedEntry (now : Instant) (b' : UInt32) :
    (retransmitStale now m b).cachedEntry b' = m.cachedEntry b' := by
  obtain heq | ⟨entry, hl, -, -, heq⟩ := retransmitStale_cases now m b
  · rw [heq]
  · rw [heq]
    exact Manager.cachedEntry_setSlot
      { entry with fallbackSent := true, lastAckActivity := m.now } hl rfl b'

theorem retransmitStaleBlocks_cachedEntry (order : List UInt32) (b' : UInt32) :
    (retransmitStaleBlocks order m).cachedEntry b' = m.cachedEntry b' :=
  retransmitStaleBlocks_rule (P := fun m' => m'.cachedEntry b' = m.cachedEntry b')
    (fun now _ _ h => (retransmitStale_cachedEntry now b').trans h) order rfl

/-- The cache loses the block, whatever state the block was in. -/
theorem Mirrors.handleComplete (h : Mirrors cache m) (hok : Sender.handleComplete b m = .ok m') :
    Mirrors (cache.complete b) m' := by
  intro b'
  rw [SharedBlockCache.complete, AList.lookup_erase_ite]
  rcases handleComplete_inv hok with ⟨hresolved, rfl⟩ | ⟨-, hstates, -⟩
  · split
    · next hb => rw [Manager.cachedEntry, hb, hresolved]; rfl
    · exact h b'
  · rw [Manager.cachedEntry, hstates, AList.lookup_insert_ite]
    split
    · rfl
    · exact h b'

/-! ## Along a run -/

theorem LogMove.mirrors {H : Set EncryptedChunk}
    (hmove : LogMove totalChunks pipelineDepth l m m' acts)
    (hbooks : Bookkeeping totalChunks pipelineDepth H m) (hencoded : ∀ c ∈ H, Encoded c)
    (hnew : ∀ c, l.chunk? = some c → Encoded c) (h : Mirrors cache m) :
    ∃ cache', blockCache.exec (acts.filterMap (cacheCall totalChunks)) cache = some cache' ∧
      Mirrors cache' m' := by
  have hrecorded (hrecords : Records totalChunks cache m m') :
      ∃ cache', blockCache.exec
        (((m.sentSince m').map .first).filterMap (cacheCall totalChunks)) cache = some cache' ∧
        Mirrors cache' m' := by
    obtain ⟨out, cache', hudp, hexec, hmirrors⟩ := hrecords
    rw [Manager.sentSince_eq hudp, List.filterMap_map]
    exact ⟨cache', hexec, hmirrors⟩
  have hidle (hcalls : ∀ a ∈ acts, cacheCall totalChunks a = none)
      (hsame : ∀ b, m'.cachedEntry b = m.cachedEntry b) :
      ∃ cache', blockCache.exec (acts.filterMap (cacheCall totalChunks)) cache = some cache' ∧
        Mirrors cache' m' := by
    rw [List.filterMap_eq_nil_iff.2 hcalls]
    exact ⟨cache, rfl, h.congr hsame⟩
  cases hmove with
  | drain _ hdrain =>
      have hroom := hbooks.openSlots_le
      exact hrecorded (h.drainRounds hbooks hencoded (by omega) hdrain)
  | chunk hadmitted => exact hrecorded (h.admitOrBuffer (hnew _ rfl) hadmitted)
  | missing => exact hidle (by simp [cacheCall]) (handleMissing_cachedEntry _)
  | complete hcomplete => exact ⟨_, rfl, h.handleComplete hcomplete⟩
  | timeout =>
      refine hidle (fun a ha => ?_) (retransmitStaleBlocks_cachedEntry _)
      obtain ⟨b, ds, -, -, rfl⟩ := mem_resends ha
      rfl
  | tick => exact ⟨cache, rfl, h⟩

theorem mirrors_of_reaches (hrun : (blockManager totalChunks pipelineDepth).Reaches ls s)
    (horderly : Orderly totalChunks ls) (hencoded : ∀ c ∈ handledChunks ls, Encoded c)
    (hm : s.manager? = some m) :
    ∃ cache, blockCache.exec (cacheCalls totalChunks (managerLog totalChunks pipelineDepth ls)) .new
      = some cache ∧ Mirrors cache m := by
  refine managerLog_rule (P := fun ls log m => (∀ c ∈ handledChunks ls, Encoded c) →
    ∃ cache, blockCache.exec (cacheCalls totalChunks log) .new = some cache ∧ Mirrors cache m)
    (fun _ => ⟨.new, rfl, fun _ => rfl⟩) ?_ hrun horderly hm hencoded
  intro ls log m l m' acts hbooks _ ih hmove hencoded
  rw [handledChunks_snoc] at hencoded
  obtain ⟨cache, hexec, hmirrors⟩ := ih fun c hc => hencoded c (List.mem_append_left _ hc)
  obtain ⟨cache', hexec', hmirrors'⟩ := hmove.mirrors hbooks
    (fun c hc => hencoded c (List.mem_append_left _ hc))
    (fun c hc => hencoded c (List.mem_append_right _ (by simp [hc]))) hmirrors
  refine ⟨cache', ?_, hmirrors'⟩
  rw [cacheCalls, List.filterMap_append, List.filterMap_map]
  exact Lts.exec_trans hexec hexec'

/-! ## What the cache answers -/

/-- The cache serves what the `Missing` arm sends. -/
theorem Mirrors.handleMissing_udp (h : Mirrors cache m) (b : UInt32) (ids : List UInt16) :
    (handleMissing b ids m).udp = m.udp ++ cache.fetchForRetransmit b ids := by
  rw [SharedBlockCache.fetchForRetransmit, h b, Manager.cachedEntry, handleMissing]
  cases m.blockStates.lookup b with
  | none => exact (List.append_nil _).symm
  | some slot =>
      cases slot with
      | opened entry => rfl
      | _ => exact (List.append_nil _).symm

theorem Mirrors.mem_openBlocks (h : Mirrors cache m) :
    b ∈ cache.openBlocks ↔ ∃ entry, m.blockStates.lookup b = some (.opened entry) := by
  rw [SharedBlockCache.mem_openBlocks, h b, Manager.cachedEntry]
  cases m.blockStates.lookup b with
  | none => simp
  | some slot => cases slot <;> simp [BlockSlot.cached]

theorem Mirrors.openBlockCount {H : Set EncryptedChunk} (h : Mirrors cache m)
    (hbooks : Bookkeeping totalChunks pipelineDepth H m) : cache.openBlockCount = m.openSlots := by
  rw [cache.openBlockCount_eq, hbooks.openSlots, ← AList.card_keysWhere]
  refine congrArg Finset.card (Finset.ext fun b => ?_)
  rw [h.mem_openBlocks, AList.mem_keysWhere]
  constructor
  · rintro ⟨entry, hl⟩
    exact ⟨_, hl, rfl⟩
  · rintro ⟨slot, hl, hopened⟩
    cases slot with
    | opened entry => exact ⟨entry, hl⟩
    | _ => cases hopened

/-- What is recorded for a block is a datagram of the block. -/
theorem Bookkeeping.forBlock_of_recordCall {H : Set EncryptedChunk}
    (hbooks : Bookkeeping totalChunks pipelineDepth H m) (hencoded : ∀ c ∈ H, Encoded c)
    {d d' : Datagram} {i : UInt16} {total : ℕ} (hd : d ∈ m.udp)
    (hcall : recordCall totalChunks d = some (.recordSent b i total d')) : ForBlock b d := by
  obtain ⟨b', -, ⟨c, hc, -, rfl⟩ | ⟨-, rfl⟩⟩ := hbooks.sent d hd
  · rw [(hencoded c hc).recordCall] at hcall
    cases hcall
    exact .inl ⟨_, (hencoded c hc).isPacket⟩
  · rw [recordCall_blockEnd] at hcall
    cases hcall

/-- A call of the log comes from an activity. -/
theorem exists_of_cacheCalls {pre post : List CacheCall} {call : CacheCall}
    (h : cacheCalls totalChunks log = pre ++ call :: post) :
    ∃ before e after, log = before ++ e :: after ∧ cacheCall totalChunks e.2 = some call ∧
      cacheCalls totalChunks after = post := by
  obtain ⟨before, rest, rfl, -, hrest⟩ := List.filterMap_eq_append_iff.1 h
  obtain ⟨skipped, e, after, rfl, -, he, hafter⟩ := List.filterMap_eq_cons_iff.1 hrest
  exact ⟨before ++ skipped, e, after, (List.append_assoc _ _ _).symm, he, hafter⟩

/-- No packet of a block is recorded after the completion of the block. -/
theorem Bookkeeping.not_recorded {H : Set EncryptedChunk}
    (hbooks : Bookkeeping totalChunks pipelineDepth H m) (hencoded : ∀ c ∈ H, Encoded c)
    (hsent : allSends log = m.udp) (hsilent : SilentAfterComplete log) {pre post : List CacheCall}
    (hsplit : cacheCalls totalChunks log = pre ++ .complete b :: post) {i : UInt16} {total : ℕ}
    {d : Datagram} : .recordSent b i total d ∉ post := by
  intro hmem
  obtain ⟨before, ⟨t, a⟩, after, rfl, hcomplete, rfl⟩ := exists_of_cacheCalls hsplit
  obtain ⟨⟨t', a'⟩, he, hcall⟩ := List.mem_filterMap.1 hmem
  obtain ⟨mid, rest, rfl⟩ := List.append_of_mem he
  -- the one activity is a `Complete`, the other a first send
  have ha : a = .complete b := by
    cases a with
    | first d =>
        have hnot : ∀ b', recordCall totalChunks d ≠ some (.complete b') := by
          intro b' heq
          unfold recordCall at heq
          split at heq
          · split at heq
            · obtain ⟨p, -, hp⟩ := Option.map_eq_some_iff.1 heq
              cases hp
            · cases heq
          · cases heq
        exact absurd hcomplete (hnot b)
    | complete b' => cases hcomplete; rfl
    | _ => cases hcomplete
  subst ha
  cases a' with
  | first d' =>
      have hin : d' ∈ m.udp := by
        rw [← hsent]
        exact List.mem_flatMap.2 ⟨(t', .first d'), by simp, List.mem_singleton_self d'⟩
      exact hsilent (before ++ (t, .complete b) :: mid) (t', .first d') rest (by simp) t b (by simp)
        d' (List.mem_singleton_self d') (hbooks.forBlock_of_recordCall hencoded hin hcall)
  | complete b' => cases hcall
  | _ => cases hcall

/-- **Contract.** In every run of the manager, the calls that its sends and `Complete`s amount to do
    not panic in the shared cache, and none records a packet of a block completed before, so the
    race of the old threads is gone. The cache then has an entry for each `Open` block and for no
    other, counts the slots in use, and would serve for every `Missing` exactly the packets that
    the manager resends. -/
theorem manager_keeps_cache_contract
    (hrun : (blockManager totalChunks pipelineDepth).Reaches ls s)
    (horderly : Orderly totalChunks ls) (hencoded : ∀ c ∈ handledChunks ls, Encoded c) :
    ∃ m cache, s.manager? = some m ∧
      blockCache.Reaches (cacheCalls totalChunks (managerLog totalChunks pipelineDepth ls)) cache ∧
      (∀ pre b post, cacheCalls totalChunks (managerLog totalChunks pipelineDepth ls)
        = pre ++ .complete b :: post → ∀ i total d, .recordSent b i total d ∉ post) ∧
      (∀ b, b ∈ cache.openBlocks ↔ ∃ entry, m.blockStates.lookup b = some (.opened entry)) ∧
      cache.openBlockCount = m.openSlots ∧
      ∀ b ids, (handleMissing b ids m).udp = m.udp ++ cache.fetchForRetransmit b ids := by
  obtain ⟨m, hm, hbooks⟩ := bookkeeping_of_reaches hrun horderly
  obtain ⟨cache, hexec, hmirrors⟩ := mirrors_of_reaches hrun horderly hencoded hm
  have htraced := traced_of_reaches hrun horderly (fun c hc => (hencoded c hc).isPacket) hm
  exact ⟨m, cache, hm, Lts.reaches_of_exec hexec,
    fun _ _ _ hsplit _ _ _ => hbooks.not_recorded hencoded (managerLog_sent hrun horderly hm)
      htraced.silent hsplit, fun _ => hmirrors.mem_openBlocks,
    hmirrors.openBlockCount hbooks, hmirrors.handleMissing_udp⟩

theorem twoPackets_encoded : ∀ c ∈ [twoPackets 1, twoPackets 0], Encoded c := by
  intro c hc
  rcases List.mem_cons.1 hc with rfl | hc
  · exact ⟨_, _, by decide +kernel, rfl⟩
  · rw [List.mem_singleton.1 hc]
    exact ⟨_, _, by decide +kernel, rfl⟩

/-- Two packets recorded, one of them served, the block completed. -/
theorem manager_keeps_cache_contract_twoPackets :
    ∃ cache, blockCache.Reaches (cacheCalls 2 (managerLog 2 1 twoPacketsRun)) cache ∧
      cache.openBlockCount = 0 ∧ (cacheCalls 2 (managerLog 2 1 twoPacketsRun)).length = 3 := by
  obtain ⟨s, hs, hslots⟩ := Lts.exists_exec (blockManager 2 1) twoPacketsRun
    (fun s => s.manager?.map Manager.openSlots = some 0) (by decide +kernel)
  obtain ⟨m, cache, hm, hreaches, -, -, hcount, -⟩ := manager_keeps_cache_contract
    (Lts.reaches_of_exec hs) ⟨by decide +kernel, by decide +kernel⟩ twoPackets_encoded
  rw [hm, Option.map_some, Option.some.injEq] at hslots
  exact ⟨cache, hreaches, hcount.trans hslots, by decide +kernel⟩

end SecureTransfer.Sender
