import SecureTransfer.Sender.FirstSends

set_option autoImplicit false

/-! # The output trace of the block manager

The log of every run with orderly events: the first sends of a block are its data datagrams, each
once, then its `BlockEnd`, once; and when the first `Complete` of a block has been handled nothing
is sent for it any more, by whichever arm. -/

namespace SecureTransfer.Sender

variable {totalChunks : UInt32} {pipelineDepth : ℕ} {H : Set EncryptedChunk} {m m' : Manager}
  {sends : List Datagram} {b : UInt32} {log : List (Instant × Activity)} {acts : List Activity}
  {l : LoopInput} {ls : List LoopInput} {s : Loop}

/-! ## The arms that place nothing -/

/-- The caches stay as they are. -/
theorem FirstSends.refresh (h : FirstSends totalChunks m sends) (hsub : m.udp ⊆ m'.udp)
    (hentries : ∀ b entry', m'.blockStates.lookup b = some (.opened entry') →
      ∃ entry, m.blockStates.lookup b = some (.opened entry) ∧
        entry'.packets = entry.packets ∧ entry'.endEmitted = entry.endEmitted) :
    FirstSends totalChunks m' sends :=
  { h with
    sub := fun _ hd => hsub (h.sub hd)
    cached := fun b entry' hl' i packet hp => by
      obtain ⟨entry, hl, hpackets, -⟩ := hentries b entry' hl'
      exact h.cached b entry hl i packet (hpackets ▸ hp)
    ended := fun b entry' hl' hended => by
      obtain ⟨entry, hl, -, hend⟩ := hentries b entry' hl'
      exact h.ended b entry hl (hend ▸ hended) }

theorem FirstSends.handleMissing (h : FirstSends totalChunks m sends) (b : UInt32)
    (ids : List UInt16) : FirstSends totalChunks (Sender.handleMissing b ids m) sends := by
  refine h.refresh (handleMissing_keeps b ids).udp.subset fun b' entry' hl' => ?_
  obtain ⟨entry, hl, rfl⟩ := handleMissing_opened hl'
  exact ⟨entry, hl, rfl, rfl⟩

theorem FirstSends.retransmitStaleBlocks (h : FirstSends totalChunks m sends) {order : List UInt32}
    (hnodup : order.Nodup) :
    FirstSends totalChunks (Sender.retransmitStaleBlocks order m) sends := by
  refine h.refresh (retransmitStaleBlocks_keeps order).udp.subset fun b' entry' hl' => ?_
  obtain ⟨entry, hl, ⟨rfl, -⟩ | ⟨-, -, rfl⟩⟩ := retransmitStaleBlocks_opened hnodup hl'
  · exact ⟨_, hl, rfl, rfl⟩
  · exact ⟨entry, hl, rfl, rfl⟩

theorem FirstSends.handleComplete (h : FirstSends totalChunks m sends)
    (hok : Sender.handleComplete b m = .ok m') : FirstSends totalChunks m' sends := by
  refine h.refresh ?_ fun b' entry hl' => ⟨entry, handleComplete_opened hok hl', rfl, rfl⟩
  rcases handleComplete_inv hok with ⟨-, rfl⟩ | ⟨-, -, -, hudp, -⟩
  · exact List.Subset.refl _
  · exact hudp ▸ List.Subset.refl _

/-- What is sent out of the cache of a block is for that block. -/
theorem EntryOk.forBlock {entry : BlockState} (h : EntryOk totalChunks H b entry)
    (hpackets : ∀ c ∈ H, IsPacket c) {packet : Bytes} (hp : some packet ∈ entry.packets) :
    ForBlock b packet := by
  obtain ⟨i, hi⟩ := List.mem_iff_getElem?.1 hp
  obtain ⟨c, hc, rfl, -, rfl⟩ := h.cached i packet hi
  exact .inl ⟨_, hpackets c hc⟩

/-- A repair is for the `Open` block that the `Missing` is about. -/
theorem handleMissing_unresolved (hbooks : Bookkeeping totalChunks pipelineDepth H m)
    (hpackets : ∀ c ∈ H, IsPacket c) {ids : List UInt16} :
    ∀ d ∈ m.sentSince (handleMissing b ids m), ¬ m.Resolved b ∧ ForBlock b d := by
  intro d hd
  obtain ⟨entry, hl, i, hcached⟩ := cached_of_repair hd
  have hentry : EntryOk totalChunks H b entry := hbooks.slots _ _ hl
  exact ⟨by rw [Manager.Resolved, hl]; simp,
    hentry.forBlock hpackets (List.mem_of_getElem? hcached)⟩

/-- A block that is resent is `Open`. -/
theorem resend_unresolved (hbooks : Bookkeeping totalChunks pipelineDepth H m)
    (hpackets : ∀ c ∈ H, IsPacket c) {now : Instant} {ds : List Datagram}
    (hresend : m.resend now b = some ds) : ∀ d ∈ ds, ¬ m.Resolved b ∧ ForBlock b d := by
  obtain ⟨entry, hl, -, -, -, rfl⟩ := Manager.resend_eq_some hresend
  have hentry : EntryOk totalChunks H b entry := hbooks.slots _ _ hl
  intro d hd
  refine ⟨by rw [Manager.Resolved, hl]; simp, ?_⟩
  rcases List.mem_append.1 hd with hd | hd
  · obtain ⟨p, hp, rfl⟩ := List.mem_filterMap.1 hd
    exact hentry.forBlock hpackets hp
  · exact .inr ⟨_, List.mem_singleton.1 hd⟩

/-! ## One step -/

/-- What a move does to the first sends, and for which blocks it sends. -/
theorem LogMove.firsts (hmove : LogMove totalChunks pipelineDepth l m m' acts)
    (hbooks : Bookkeeping totalChunks pipelineDepth H m) (hpackets : ∀ c ∈ H, IsPacket c)
    (hnew : ∀ c, l.chunk? = some c → IsPacket c ∧ c.chunkId < totalChunks ∧
      ∀ c' ∈ H, c'.chunkId ≠ c.chunkId) (h : FirstSends totalChunks m sends) :
    FirstSends totalChunks m' (sends ++ firstSends (acts.map (Prod.mk m.now))) ∧
      ∀ a ∈ acts, ∀ d ∈ a.sent, ∃ b, ¬ m.Resolved b ∧ ForBlock b d := by
  have hplaced : (∃ out, Places totalChunks m sends m' out) →
      FirstSends totalChunks m'
          (sends ++ firstSends (((m.sentSince m').map .first).map (Prod.mk m.now))) ∧
        ∀ a ∈ (m.sentSince m').map Activity.first, ∀ d ∈ a.sent,
          ∃ b, ¬ m.Resolved b ∧ ForBlock b d := by
    rintro ⟨out, hout⟩
    rw [firstSends_firsts, Manager.sentSince_eq hout.udp]
    refine ⟨hout.firsts, fun a ha d hd => ?_⟩
    obtain ⟨d', hd', rfl⟩ := List.mem_map.1 ha
    rw [Activity.sent, List.mem_singleton] at hd
    exact hout.unresolved d (hd ▸ hd')
  cases hmove with
  | drain hl hdrain => exact hplaced (h.drainPending hbooks hpackets hdrain)
  | @chunk c m m' hadmitted =>
      obtain ⟨hc, hbelow, hfresh⟩ := hnew c rfl
      exact hplaced (h.admitOrBuffer hbooks hpackets hc hbelow hfresh hadmitted)
  | @missing b ids =>
      have hnone : firstSends ((.missing b :: (m.sentSince (handleMissing b ids m)).map
          Activity.repair).map (Prod.mk m.now)) = [] := by
        simp [firstSends, Activity.first?]
      rw [hnone, List.append_nil]
      refine ⟨h.handleMissing b ids, fun a ha d hd => ?_⟩
      rcases List.mem_cons.1 ha with rfl | ha
      · cases hd
      · obtain ⟨d', hd', rfl⟩ := List.mem_map.1 ha
        rw [Activity.sent, List.mem_singleton] at hd
        exact ⟨b, handleMissing_unresolved hbooks hpackets d (hd ▸ hd')⟩
  | complete hcomplete =>
      refine ⟨?_, fun a ha d hd => ?_⟩
      · simpa [firstSends, Activity.first?] using h.handleComplete hcomplete
      · rw [List.mem_singleton.1 ha] at hd
        cases hd
  | @timeout order _ horder =>
      have hnodup : order.Nodup := horder.nodup_iff.2 m.blockStates.nodupKeys
      have hnone : firstSends ((order.filterMap fun b =>
          (m.resend m.now b).map (Activity.fallback b)).map (Prod.mk m.now)) = [] := by
        refine List.filterMap_eq_nil_iff.2 fun e he => ?_
        obtain ⟨a, ha, rfl⟩ := List.mem_map.1 he
        obtain ⟨b, ds, -, -, rfl⟩ := mem_resends ha
        rfl
      rw [hnone, List.append_nil]
      refine ⟨h.retransmitStaleBlocks hnodup, fun a ha d hd => ?_⟩
      obtain ⟨b, ds, -, hds, rfl⟩ := mem_resends ha
      exact ⟨b, resend_unresolved hbooks hpackets hds d hd⟩
  | tick =>
      refine ⟨?_, List.forall_mem_nil _⟩
      rw [List.map_nil, firstSends, List.filterMap_nil, List.append_nil]
      exact { h with }

/-- A move logs `Complete` alone, and for a block that is resolved afterwards. -/
theorem LogMove.completes (hmove : LogMove totalChunks pipelineDepth l m m' acts) :
    (∀ b, .complete b ∉ acts) ∨ ∃ b, acts = [.complete b] ∧ m'.Resolved b := by
  cases hmove with
  | drain => exact .inl fun b => by simp
  | chunk => exact .inl fun b => by simp
  | missing => exact .inl fun b => by simp
  | @complete b m m' hcomplete =>
      have hevent : handleEvent totalChunks pipelineDepth (.ack (.complete b)) m = .ok m' :=
        hcomplete
      exact .inr ⟨b, rfl, (handleEvent_resolved hevent b).2 (.inr rfl)⟩
  | timeout =>
      refine .inl fun b hmem => ?_
      obtain ⟨b', ds, -, -, heq⟩ := mem_resends hmem
      cases heq
  | tick => exact .inl fun b => by simp

/-- `Resolved` is terminal. -/
theorem LogMove.resolved (hmove : LogMove totalChunks pipelineDepth l m m' acts)
    (h : m.Resolved b) : m'.Resolved b := by
  cases hmove with
  | drain _ hdrain => exact ((drainRounds_keeps hdrain).resolved b).2 h
  | chunk hadmitted => exact ((admitOrBuffer_keeps hadmitted).resolved b).2 h
  | missing => exact ((handleMissing_keeps _ _).resolved b).2 h
  | @complete b' m m' hcomplete =>
      have hevent : handleEvent totalChunks pipelineDepth (.ack (.complete b')) m = .ok m' :=
        hcomplete
      exact (handleEvent_resolved hevent b).2 (.inl h)
  | timeout => exact ((retransmitStaleBlocks_keeps _).resolved b).2 h
  | tick => exact h

/-! ## Along a run -/

/-- Nothing is sent for a block whose `Complete` has been handled. -/
def SilentAfterComplete (log : List (Instant × Activity)) : Prop :=
  EachAfter (fun pre e => ∀ t b, (t, Activity.complete b) ∈ pre →
    ∀ d ∈ e.2.sent, ¬ ForBlock b d) log

structure Traced (totalChunks : UInt32) (log : List (Instant × Activity)) (m : Manager) : Prop where
  firsts : FirstSends totalChunks m (firstSends log)
  resolved : ∀ t b, (t, Activity.complete b) ∈ log → m.Resolved b
  silent : SilentAfterComplete log

theorem Traced.init : Traced totalChunks [] .init where
  firsts := ⟨List.Subset.refl _, List.nodup_nil, nofun, nofun, .nil, fun b hb hall => by
    have hpos := packetsInBlock_pos_iff.2 hb
    obtain ⟨c, -, -, -, hmem⟩ := hall 0 hpos
    cases hmem⟩
  resolved := nofun
  silent := .nil

theorem Traced.move (h : Traced totalChunks log m)
    (hmove : LogMove totalChunks pipelineDepth l m m' acts)
    (hbooks : Bookkeeping totalChunks pipelineDepth H m) (hpackets : ∀ c ∈ H, IsPacket c)
    (hnew : ∀ c, l.chunk? = some c → IsPacket c ∧ c.chunkId < totalChunks ∧
      ∀ c' ∈ H, c'.chunkId ≠ c.chunkId) :
    Traced totalChunks (log ++ acts.map (Prod.mk m.now)) m' := by
  obtain ⟨hfirsts, hsends⟩ := hmove.firsts hbooks hpackets hnew h.firsts
  refine ⟨by rw [firstSends_append]; exact hfirsts, fun t b hmem => ?_, ?_⟩
  · rcases List.mem_append.1 hmem with hold | hmem
    · exact hmove.resolved (h.resolved t b hold)
    · obtain ⟨a, ha, heq⟩ := List.mem_map.1 hmem
      cases heq
      rcases hmove.completes with hnone | ⟨b', rfl, hresolved⟩
      · exact absurd ha (hnone b)
      · cases List.mem_singleton.1 ha
        exact hresolved
  · refine h.silent.append fun pre e post hsplit t b hmem d hd hfor => ?_
    have he : e ∈ acts.map (Prod.mk m.now) := hsplit ▸ by simp
    obtain ⟨a, ha, rfl⟩ := List.mem_map.1 he
    -- the `Complete` was logged before this move
    have hold : (t, Activity.complete b) ∈ log := by
      refine (List.mem_append.1 hmem).resolve_right fun hpre => ?_
      have hin : (t, Activity.complete b) ∈ acts.map (Prod.mk m.now) :=
        hsplit ▸ List.mem_append_left _ hpre
      obtain ⟨a', ha', heq⟩ := List.mem_map.1 hin
      cases heq
      rcases hmove.completes with hnone | ⟨b', rfl, -⟩
      · exact hnone b ha'
      · have hlen := congrArg List.length hsplit
        have hpos := List.length_pos_of_mem hpre
        simp at hlen
        omega
    obtain ⟨b', hunresolved, hfor'⟩ := hsends a ha d hd
    exact hunresolved (hfor.inj hfor' ▸ h.resolved t b hold)

/-- The chunks of a run, the next one included, as `Traced.move` wants them. -/
theorem Orderly.newChunk (horderly : Orderly totalChunks (ls ++ [l]))
    (hpackets : ∀ c ∈ handledChunks (ls ++ [l]), IsPacket c) :
    (∀ c ∈ bucketSet (handledChunks ls), IsPacket c) ∧
      ∀ c, l.chunk? = some c → IsPacket c ∧ c.chunkId < totalChunks ∧
        ∀ c' ∈ bucketSet (handledChunks ls), c'.chunkId ≠ c.chunkId := by
  rw [handledChunks_snoc] at hpackets
  refine ⟨fun c hc => hpackets c (List.mem_append_left _ hc), fun c hc => ?_⟩
  obtain ⟨hbelow, hfresh⟩ := horderly.of_snoc.2 c hc
  exact ⟨hpackets c (List.mem_append_right _ (by simp [hc])), hbelow, hfresh⟩

theorem traced_of_reaches (hrun : (blockManager totalChunks pipelineDepth).Reaches ls s)
    (horderly : Orderly totalChunks ls) (hpackets : ∀ c ∈ handledChunks ls, IsPacket c)
    (hm : s.manager? = some m) :
    Traced totalChunks (managerLog totalChunks pipelineDepth ls) m := by
  refine managerLog_rule (P := fun ls log m => (∀ c ∈ handledChunks ls, IsPacket c) →
    Traced totalChunks log m) (fun _ => .init) ?_ hrun horderly hm hpackets
  intro ls log m l m' acts hbooks horderly ih hmove hpackets
  obtain ⟨hold, hnew⟩ := horderly.newChunk hpackets
  exact (ih hold).move hmove hbooks hold hnew

/-! ## The trace law -/

/-- The data datagrams of a block are told apart by their position, and its `BlockEnd`s are one. -/
def OncePerBlock (sends : List Datagram) : Prop :=
  sends.Pairwise fun d d' => ∀ b, (∀ i, DataFor b i d → ¬ DataFor b i d') ∧
    (EndFor b d → ¬ EndFor b d')

/-- All data datagrams of the block are among `sends`. -/
def DataSent (totalChunks : UInt32) (sends : List Datagram) (b : UInt32) : Prop :=
  ∀ i : UInt16, i.toNat < packetsInBlock b totalChunks → ∃ d ∈ sends, DataFor b i d

theorem DataSent.iff_allSent (hbooks : Bookkeeping totalChunks pipelineDepth H m)
    (hpackets : ∀ c ∈ H, IsPacket c) (hsub : sends ⊆ m.udp) :
    DataSent totalChunks sends b ↔ AllSent totalChunks sends b := by
  constructor
  · intro h i hi
    have hi16 : (UInt16.ofNat i).toNat = i := UInt16.toNat_ofNat_of_lt'
      (lt_of_lt_of_le hi ((packetsInBlock_le b totalChunks).trans (by decide)))
    obtain ⟨d, hd, hfor⟩ := h (.ofNat i) (hi16.symm ▸ hi)
    obtain ⟨b', -, ⟨c, hc, -, rfl⟩ | ⟨-, rfl⟩⟩ := hbooks.sent d (hsub hd)
    · obtain ⟨hb, hidx⟩ := hfor.inj (hpackets c hc)
      exact ⟨c, hpackets c hc, hb.symm, by rw [EncryptedChunk.index, ← hidx, hi16], hd⟩
    · exact absurd (blockEndOf_endFor totalChunks b') hfor.not_endFor
  · intro h i hi
    obtain ⟨c, hc, rfl, hidx, hmem⟩ := h i.toNat hi
    refine ⟨c.packet, hmem, ?_⟩
    rw [← UInt16.toNat_inj.1 hidx]
    exact hc

/-- A data datagram that has been sent is the packet of a chunk taken over. -/
theorem Bookkeeping.exists_of_dataFor (hbooks : Bookkeeping totalChunks pipelineDepth H m)
    (hpackets : ∀ c ∈ H, IsPacket c) {d : Datagram} (hd : d ∈ m.udp) {i : UInt16}
    (hfor : DataFor b i d) : ∃ c ∈ H, c.packet = d ∧ blockOf c.chunkId = (b, i) := by
  obtain ⟨b', -, ⟨c, hc, -, rfl⟩ | ⟨-, rfl⟩⟩ := hbooks.sent d hd
  · obtain ⟨hb, hi⟩ := hfor.inj (hpackets c hc)
    exact ⟨c, hc, rfl, Prod.ext hb.symm hi.symm⟩
  · exact absurd (blockEndOf_endFor totalChunks b') hfor.not_endFor

theorem Bookkeeping.eq_of_endFor (hbooks : Bookkeeping totalChunks pipelineDepth H m)
    (hpackets : ∀ c ∈ H, IsPacket c) {d : Datagram} (hd : d ∈ m.udp) (hend : EndFor b d) :
    d = blockEndOf totalChunks b := by
  obtain ⟨b', -, ⟨c, hc, -, rfl⟩ | ⟨-, rfl⟩⟩ := hbooks.sent d hd
  · exact absurd hend (hpackets c hc).not_endFor
  · rw [hend.inj (blockEndOf_endFor totalChunks b')]
    rfl

theorem FirstSends.oncePerBlock (h : FirstSends totalChunks m sends)
    (hbooks : Bookkeeping totalChunks pipelineDepth H m) (hpackets : ∀ c ∈ H, IsPacket c) :
    OncePerBlock sends := by
  refine h.nodup.imp_of_mem fun {d d'} hd hd' hne b => ⟨fun i hfor hfor' => hne ?_,
    fun hend hend' => hne ?_⟩
  · obtain ⟨c, hc, rfl, hpos⟩ := hbooks.exists_of_dataFor hpackets (h.sub hd) hfor
    obtain ⟨c', hc', rfl, hpos'⟩ := hbooks.exists_of_dataFor hpackets (h.sub hd') hfor'
    rw [hbooks.chunks.distinct c hc c' hc' (blockOf_injective (hpos.trans hpos'.symm))]
  · rw [hbooks.eq_of_endFor hpackets (h.sub hd) hend, hbooks.eq_of_endFor hpackets (h.sub hd') hend']

/-- Before the `BlockEnd` all data datagrams of the block have been sent, and none comes after. -/
theorem FirstSends.end_last (h : FirstSends totalChunks m sends)
    (hbooks : Bookkeeping totalChunks pipelineDepth H m) (hpackets : ∀ c ∈ H, IsPacket c)
    {pre post : List Datagram} {d : Datagram} (hsplit : sends = pre ++ d :: post)
    (hend : EndFor b d) : d = blockEndOf totalChunks b ∧ DataSent totalChunks pre b ∧
      ∀ d' ∈ post, ∀ i, ¬ DataFor b i d' := by
  obtain ⟨hd, hall⟩ := h.ends pre d post hsplit b hend
  have hpre : pre ⊆ m.udp := fun d hd => h.sub (hsplit ▸ List.mem_append_left _ hd)
  have hdata := (DataSent.iff_allSent hbooks hpackets hpre).2 hall
  refine ⟨hd, hdata, fun d' hd' i hfor => ?_⟩
  have hmem : d' ∈ sends := hsplit ▸ List.mem_append_right _ (List.mem_cons_of_mem _ hd')
  obtain ⟨c, hc, -, hpos⟩ := hbooks.exists_of_dataFor hpackets (h.sub hmem) hfor
  have hlt := blockOf_snd_lt (hbooks.chunks.below c hc)
  rw [hpos] at hlt
  -- the datagram at this position has been sent before
  obtain ⟨d₀, hd₀, hfor₀⟩ := hdata i hlt
  have honce := h.oncePerBlock hbooks hpackets
  rw [hsplit] at honce
  have hrel := (List.pairwise_append.1 honce).2.2 d₀ hd₀ d' (List.mem_cons_of_mem _ hd')
  exact (hrel b).1 i hfor₀ hfor

/-- At some moment of the run the block is `Open` and all of its chunks have been handled. -/
def PlacedWhileOpen (totalChunks : UInt32) (pipelineDepth : ℕ) (ls : List LoopInput) (b : UInt32) :
    Prop :=
  ∃ ls₀ s m entry, ls₀ <+: ls ∧ (blockManager totalChunks pipelineDepth).Reaches ls₀ s ∧
    s.manager? = some m ∧ m.blockStates.lookup b = some (.opened entry) ∧
    ∀ chunkId < totalChunks, (blockOf chunkId).1 = b →
      ∃ c ∈ handledChunks ls₀, c.chunkId = chunkId

/-- What has been handled of an `Open` block has been sent, and it stays sent when the block is
    resolved. -/
theorem PlacedWhileOpen.dataSent (h : PlacedWhileOpen totalChunks pipelineDepth ls b)
    (horderly : Orderly totalChunks ls) (hpackets : ∀ c ∈ handledChunks ls, IsPacket c) :
    b < totalBlocks totalChunks ∧
      DataSent totalChunks (firstSends (managerLog totalChunks pipelineDepth ls)) b := by
  obtain ⟨ls₀, s, m, entry, ⟨later, rfl⟩, hrun, hm, hl, hall⟩ := h
  have hpackets₀ : ∀ c ∈ handledChunks ls₀, IsPacket c := fun c hc =>
    hpackets c (handledChunks_append ls₀ later ▸ List.mem_append_left _ hc)
  have htraced := traced_of_reaches hrun horderly.of_append hpackets₀ hm
  obtain ⟨_, hm', hbooks⟩ := bookkeeping_of_reaches hrun horderly.of_append
  rw [hm] at hm'
  cases hm'
  have hentry : EntryOk totalChunks _ b entry := hbooks.slots b _ hl
  refine ⟨hentry.inFile, fun i hi => ?_⟩
  obtain ⟨_, hid, hpos, -⟩ := chunkIdOf_spec hi
  obtain ⟨c, hc, hcid⟩ := hall _ hid (congrArg Prod.fst hpos)
  have hcpos : blockOf c.chunkId = (b, i) := hcid ▸ hpos
  obtain ⟨slot, hslot, hholds⟩ := hbooks.placed c hc
  rw [EncryptedChunk.block, hcpos, hl] at hslot
  cases hslot
  -- the packet is cached, and what is cached has been sent
  have hsent := htraced.firsts.cached b entry hl _ c.packet hholds
  obtain ⟨rest, hlog⟩ := managerLog_prefix (List.prefix_append ls₀ later) hrun
  refine ⟨c.packet, ?_, ?_⟩
  · rw [← hlog, firstSends_append]
    exact List.mem_append_left _ hsent
  · have hfor : DataFor (blockOf c.chunkId).1 (blockOf c.chunkId).2 c.packet := hpackets₀ c hc
    rwa [hcpos] at hfor

/-- **Output trace.** Whatever the acks and the order of the chunks: what the log says is what is
    sent; among the first sends every data datagram and every `BlockEnd` comes at most once, the
    `BlockEnd` of a block after all of its data datagrams, and it does come once these have been
    sent, as they are when all chunks of the block have been handled while it is `Open`; after a
    `Complete` nothing is sent for its block. -/
theorem output_trace (hrun : (blockManager totalChunks pipelineDepth).Reaches ls s)
    (horderly : Orderly totalChunks ls) (hworker : ∀ c ∈ handledChunks ls, FromWorker c) :
    ∃ m, s.manager? = some m ∧
      allSends (managerLog totalChunks pipelineDepth ls) = m.udp ∧
      OncePerBlock (firstSends (managerLog totalChunks pipelineDepth ls)) ∧
      (∀ pre t d post b, managerLog totalChunks pipelineDepth ls = pre ++ (t, .first d) :: post →
        EndFor b d → d = blockEndOf totalChunks b ∧ DataSent totalChunks (firstSends pre) b ∧
          ∀ d' ∈ firstSends post, ∀ i, ¬ DataFor b i d') ∧
      (∀ b < totalBlocks totalChunks,
        DataSent totalChunks (firstSends (managerLog totalChunks pipelineDepth ls)) b →
        (firstSends (managerLog totalChunks pipelineDepth ls)).count (blockEndOf totalChunks b)
          = 1) ∧
      (∀ b, PlacedWhileOpen totalChunks pipelineDepth ls b →
        (firstSends (managerLog totalChunks pipelineDepth ls)).count (blockEndOf totalChunks b)
          = 1) ∧
      ∀ pre t b post,
        managerLog totalChunks pipelineDepth ls = pre ++ (t, .complete b) :: post →
        ∀ e ∈ post, ∀ d ∈ e.2.sent, ¬ ForBlock b d := by
  obtain ⟨m, hm, hbooks⟩ := bookkeeping_of_reaches hrun horderly
  have hpackets : ∀ c ∈ bucketSet (handledChunks ls), IsPacket c :=
    fun c hc => (hworker c hc).isPacket
  have htraced := traced_of_reaches hrun horderly hpackets hm
  have hfirsts := htraced.firsts
  have hended : ∀ b < totalBlocks totalChunks,
      DataSent totalChunks (firstSends (managerLog totalChunks pipelineDepth ls)) b →
      (firstSends (managerLog totalChunks pipelineDepth ls)).count (blockEndOf totalChunks b)
        = 1 := by
    intro b hb hdata
    have hall := (DataSent.iff_allSent hbooks hpackets hfirsts.sub).1 hdata
    exact List.count_eq_one_of_mem hfirsts.nodup (hfirsts.complete b hb hall)
  refine ⟨m, hm, managerLog_sent hrun horderly hm, hfirsts.oncePerBlock hbooks hpackets, ?_, hended,
    ?_, ?_⟩
  · intro pre t d post b hsplit hend
    refine hfirsts.end_last hbooks hpackets ?_ hend
    rw [hsplit, firstSends_append]
    rfl
  · intro b hplaced
    obtain ⟨hb, hdata⟩ := hplaced.dataSent horderly hpackets
    exact hended b hb hdata
  · intro pre t b post hsplit e he d hd
    obtain ⟨mid, rest, rfl⟩ := List.append_of_mem he
    refine htraced.silent (pre ++ (t, .complete b) :: mid) e rest ?_ t b (by simp) d hd
    rw [hsplit, List.append_assoc, List.cons_append]

/-- The two chunks of a file of two bytes read one by one, as some worker makes them. -/
def twoPackets (id : UInt32) : EncryptedChunk :=
  workerThread { aes256 := fun _ block => block, xxh64 := fun bytes => UInt64.ofNat bytes.length }
    (Vector.replicate 32 0) (Vector.replicate 16 0) ⟨id, [7]⟩

theorem twoPackets_fromWorker : ∀ c ∈ [twoPackets 1, twoPackets 0], FromWorker c := by
  intro c hc
  rcases List.mem_cons.1 hc with rfl | hc
  · exact ⟨_, _, _, _, rfl⟩
  · rw [List.mem_singleton.1 hc]
    exact ⟨_, _, _, _, rfl⟩

/-- Two chunks out of order, a repair, and the `Complete`. -/
def twoPacketsRun : List LoopInput :=
  [.drain, .event (.chunk (twoPackets 1)), .drain, .event (.chunk (twoPackets 0)), .drain,
    .event (.ack (.missing 0 [1])), .drain, .event (.ack (.complete 0)), .drain]

/-- Both chunks have been handled before the `Complete`. -/
theorem placedWhileOpen_twoPackets : PlacedWhileOpen 2 1 twoPacketsRun 0 := by
  obtain ⟨s, hs, hopened⟩ := Lts.exists_exec (blockManager 2 1) (twoPacketsRun.take 5)
    (fun s => (s.manager?.bind fun m => m.blockStates.lookup 0).any BlockSlot.isOpened = true)
    (by decide +kernel)
  obtain ⟨slot, hslot, hslotOpened⟩ := (Option.any_eq_true _ _).1 hopened
  obtain ⟨m, hm, hl⟩ := Option.bind_eq_some_iff.1 hslot
  cases slot with
  | opened entry =>
      refine ⟨_, s, m, entry, List.take_prefix 5 _, Lts.reaches_of_exec hs, hm, hl, ?_⟩
      intro chunkId hlt _
      rw [UInt32.lt_iff_toNat_lt] at hlt
      have hcases : chunkId = 0 ∨ chunkId = 1 := by
        rw [← UInt32.toNat_inj, ← UInt32.toNat_inj]
        exact Nat.le_one_iff_eq_zero_or_eq_one.1 (Nat.le_of_lt_succ hlt)
      rcases hcases with rfl | rfl
      · exact ⟨twoPackets 0, by decide +kernel, rfl⟩
      · exact ⟨twoPackets 1, by decide +kernel, rfl⟩
  | pending bucket => cases hslotOpened
  | resolved => cases hslotOpened

theorem output_trace_twoPackets :
    ∃ s m, (blockManager 2 1).exec twoPacketsRun (blockManager 2 1).init = some s ∧
      s.manager? = some m ∧ OncePerBlock (firstSends (managerLog 2 1 twoPacketsRun)) ∧
      (firstSends (managerLog 2 1 twoPacketsRun)).count (blockEndOf 2 0) = 1 := by
  obtain ⟨s, hs, -⟩ := Lts.exists_exec (blockManager 2 1) twoPacketsRun (fun _ => True)
    (by decide +kernel)
  obtain ⟨m, hm, -, honce, -, -, hplaced, -⟩ := output_trace (Lts.reaches_of_exec hs)
    ⟨by decide +kernel, by decide +kernel⟩ twoPackets_fromWorker
  exact ⟨s, m, hs, hm, honce, hplaced 0 placedWhileOpen_twoPackets⟩

end SecureTransfer.Sender
