import SecureTransfer.Sender.OutputTrace

set_option autoImplicit false

/-! # The whole-block fallback along a run

An `Open` entry remembers when its block was last touched, by a `Missing` or by a `BlockEnd`, and
whether it has been resent (`Timed`). A block that `retransmit_stale_blocks` resends is therefore
`Disciplined`: the first time, behind its `BlockEnd`, and after two seconds of silence. Timeouts are
what the event channel makes of them: `EventLoop` is the manager with the channel it waits on, which
times out only while the channel is empty. -/

namespace SecureTransfer.Sender

variable {totalChunks : UInt32} {pipelineDepth : ℕ} {H : Set EncryptedChunk} {m m' : Manager}
  {sends : List Datagram} {b : UInt32} {log : List (Instant × Activity)} {acts : List Activity}
  {l : LoopInput} {ls : List LoopInput} {s : Loop} {ds : List Datagram}

/-! ## The time stamps -/

/-- A `Missing` for the block is handled, or a `BlockEnd` of it sent. -/
def Activity.Touches (b : UInt32) (a : Activity) : Prop :=
  a = .missing b ∨ ∃ d ∈ a.sent, EndFor b d

theorem touches_first {d : Datagram} : (Activity.first d).Touches b ↔ EndFor b d := by
  simp [Activity.Touches, Activity.sent]

structure Timed (log : List (Instant × Activity)) (m : Manager) : Prop where
  past : ∀ e ∈ log, e.1 ≤ m.now
  touched : ∀ b entry, m.blockStates.lookup b = some (.opened entry) →
    ∀ e ∈ log, e.2.Touches b → e.1 ≤ entry.lastAckActivity
  flagged : ∀ b entry, m.blockStates.lookup b = some (.opened entry) →
    ∀ t ds, (t, Activity.fallback b ds) ∈ log → entry.fallbackSent = true
  started : ∀ t b ds, (t, Activity.fallback b ds) ∈ log → m.Started b

theorem Timed.init : Timed [] .init := ⟨nofun, nofun, nofun, nofun⟩

/-- What an `Open` entry owes to the state before: it is stamped anew, or its block has not been
    touched; and its flag is not taken back. -/
def Stamps (m m' : Manager) (acts : List Activity) : Prop :=
  ∀ b entry', m'.blockStates.lookup b = some (.opened entry') →
    (∃ entry, m.blockStates.lookup b = some (.opened entry) ∧
      (entry.fallbackSent = true → entry'.fallbackSent = true) ∧
      (entry'.lastAckActivity = m.now ∨
        entry'.lastAckActivity = entry.lastAckActivity ∧ ∀ a ∈ acts, ¬ a.Touches b)) ∨
    (¬ m.Started b ∧ entry'.lastAckActivity = m.now)

theorem Timed.append (h : Timed log m) (hnow : m.now ≤ m'.now)
    (hstarted : ∀ b, m.Started b → m'.Started b) (hstamps : Stamps m m' acts)
    (hfallback : ∀ b ds, Activity.fallback b ds ∈ acts → m.Started b ∧
      ∀ entry, m'.blockStates.lookup b = some (.opened entry) → entry.fallbackSent = true) :
    Timed (log ++ acts.map (Prod.mk m.now)) m' where
  past := by
    intro e he
    rcases List.mem_append.1 he with hold | hnew
    · exact (h.past e hold).trans hnow
    · obtain ⟨a, -, rfl⟩ := List.mem_map.1 hnew
      exact hnow
  touched := by
    intro b entry' hl' e he htouches
    rcases List.mem_append.1 he with hold | hnew
    · rcases hstamps b entry' hl' with ⟨entry, hl, -, hage | ⟨hage, -⟩⟩ | ⟨-, hage⟩
      · exact (h.past e hold).trans hage.ge
      · exact (h.touched b entry hl e hold htouches).trans hage.ge
      · exact (h.past e hold).trans hage.ge
    · obtain ⟨a, ha, rfl⟩ := List.mem_map.1 hnew
      rcases hstamps b entry' hl' with ⟨entry, hl, -, hage | ⟨-, huntouched⟩⟩ | ⟨-, hage⟩
      · exact hage.ge
      · exact absurd htouches (huntouched a ha)
      · exact hage.ge
  flagged := by
    intro b entry' hl' t ds hmem
    rcases List.mem_append.1 hmem with hold | hnew
    · rcases hstamps b entry' hl' with ⟨entry, hl, hflag, -⟩ | ⟨hnot, -⟩
      · exact hflag (h.flagged b entry hl t ds hold)
      · exact absurd (h.started t b ds hold) hnot
    · obtain ⟨a, ha, heq⟩ := List.mem_map.1 hnew
      cases heq
      exact (hfallback b ds ha).2 entry' hl'
  started := by
    intro t b ds hmem
    rcases List.mem_append.1 hmem with hold | hnew
    · exact hstarted b (h.started t b ds hold)
    · obtain ⟨a, ha, heq⟩ := List.mem_map.1 hnew
      cases heq
      exact hstarted b (hfallback b ds ha).1

/-- Placing chunks touches a block only by its `BlockEnd`. -/
theorem Places.timed {out : List Datagram} (h : Places totalChunks m sends m' out)
    (htimed : Timed log m) :
    Timed (log ++ ((m.sentSince m').map Activity.first).map (Prod.mk m.now)) m' := by
  rw [Manager.sentSince_eq h.udp]
  refine htimed.append h.keeps.now.ge h.keeps.started (fun b entry' hl' => ?_) fun b ds hmem => ?_
  · rcases h.ages b entry' hl' with ⟨entry, hl, hflag, hage⟩ | ⟨hnot, -, hage⟩
    · refine .inl ⟨entry, hl, fun hset => hflag.trans hset, hage.imp id fun hsame => ?_⟩
      refine ⟨hsame.1, fun a ha => ?_⟩
      obtain ⟨d, hd, rfl⟩ := List.mem_map.1 ha
      rw [touches_first]
      exact hsame.2 d hd
    · exact .inr ⟨hnot, hage⟩
  · obtain ⟨d, -, heq⟩ := List.mem_map.1 hmem
    cases heq

/-- A `Missing` refreshes the entry of its block. -/
theorem Timed.missing (h : Timed log m) (hbooks : Bookkeeping totalChunks pipelineDepth H m)
    (hpackets : ∀ c ∈ H, IsPacket c) (b : UInt32) (ids : List UInt16) :
    Timed (log ++ (Activity.missing b ::
      (m.sentSince (handleMissing b ids m)).map .repair).map (Prod.mk m.now))
      (handleMissing b ids m) := by
  have hkeeps : Keeps m (handleMissing b ids m) := handleMissing_keeps b ids
  refine h.append hkeeps.now.ge hkeeps.started (fun b' entry' hl' => ?_) fun b' ds hmem => ?_
  · obtain ⟨entry, hl, rfl⟩ := handleMissing_opened hl'
    refine .inl ⟨entry, hl, id, ?_⟩
    by_cases hb : b' = b
    · exact .inl (if_pos hb)
    · refine .inr ⟨if_neg hb, fun a ha htouches => ?_⟩
      rcases List.mem_cons.1 ha with rfl | ha
      · rcases htouches with heq | ⟨d, hd, -⟩
        · cases heq
          exact hb rfl
        · cases hd
      · obtain ⟨d, hd, rfl⟩ := List.mem_map.1 ha
        rcases htouches with heq | ⟨d', hd', hend⟩
        · cases heq
        · cases List.mem_singleton.1 hd'
          have hfor := (handleMissing_unresolved hbooks hpackets d hd).2
          exact hb (ForBlock.inj (.inr hend) hfor)
  · rcases List.mem_cons.1 hmem with heq | hmem
    · cases heq
    · obtain ⟨d, -, heq⟩ := List.mem_map.1 hmem
      cases heq

theorem handleComplete_started (h : handleComplete b m = .ok m') :
    m'.now = m.now ∧ ∀ b, m.Started b → m'.Started b := by
  rcases handleComplete_inv h with ⟨-, rfl⟩ | ⟨-, hstates, -, -, hnow, -⟩
  · exact ⟨rfl, fun _ => id⟩
  · refine ⟨hnow, fun b' hb' => ?_⟩
    obtain ⟨slot, hl, hs⟩ := hb'
    rw [Manager.Started, hstates, AList.lookup_insert_ite]
    by_cases hb : b' = b
    · exact ⟨.resolved, if_pos hb, rfl⟩
    · exact ⟨slot, by rw [if_neg hb]; exact hl, hs⟩

theorem Timed.complete (h : Timed log m) (hcomplete : handleComplete b m = .ok m') :
    Timed (log ++ [Activity.complete b].map (Prod.mk m.now)) m' := by
  obtain ⟨hnow, hstarted⟩ := handleComplete_started hcomplete
  refine h.append hnow.ge hstarted (fun b' entry' hl' => ?_) fun b' ds hmem => ?_
  · refine .inl ⟨entry', handleComplete_opened hcomplete hl', id, .inr ⟨rfl, fun a ha => ?_⟩⟩
    rw [List.mem_singleton.1 ha]
    rintro (heq | ⟨d, hd, -⟩)
    · cases heq
    · cases hd
  · cases List.mem_singleton.1 hmem

/-- A timeout refreshes the entries of the blocks it resends. -/
theorem Timed.timeout (h : Timed log m) (hbooks : Bookkeeping totalChunks pipelineDepth H m)
    (hpackets : ∀ c ∈ H, IsPacket c) {order : List UInt32} (hnodup : order.Nodup) :
    Timed (log ++ (order.filterMap fun b => (m.resend m.now b).map (Activity.fallback b)).map
      (Prod.mk m.now)) (retransmitStaleBlocks order m) := by
  have hkeeps : Keeps m (retransmitStaleBlocks order m) := retransmitStaleBlocks_keeps order
  refine h.append hkeeps.now.ge hkeeps.started (fun b entry' hl' => ?_) fun b ds hmem => ?_
  · obtain ⟨entry, hl, ⟨rfl, hnone⟩ | ⟨-, -, rfl⟩⟩ := retransmitStaleBlocks_opened hnodup hl'
    · refine .inl ⟨_, hl, id, .inr ⟨rfl, fun a ha htouches => ?_⟩⟩
      obtain ⟨b', ds, hb', hds, rfl⟩ := mem_resends ha
      rcases htouches with heq | ⟨d, hd, hend⟩
      · cases heq
      · -- the block resent is the one of its datagrams
        have hfor := (resend_unresolved hbooks hpackets hds d hd).2
        have hb : b = b' := ForBlock.inj (.inr hend) hfor
        subst hb
        rw [hnone hb'] at hds
        cases hds
    · exact .inl ⟨entry, hl, fun _ => rfl, .inl rfl⟩
  · obtain ⟨b', ds', hb', hds, heq⟩ := mem_resends hmem
    cases heq
    obtain ⟨entry, hl, -⟩ := Manager.resend_eq_some hds
    refine ⟨⟨_, hl, rfl⟩, fun entry' hl' => ?_⟩
    obtain ⟨-, -, ⟨-, hnone⟩ | ⟨-, -, rfl⟩⟩ := retransmitStaleBlocks_opened hnodup hl'
    · rw [hnone hb'] at hds
      cases hds
    · rfl

theorem LogMove.timed (hmove : LogMove totalChunks pipelineDepth l m m' acts)
    (hbooks : Bookkeeping totalChunks pipelineDepth H m) (hpackets : ∀ c ∈ H, IsPacket c)
    (hnew : ∀ c, l.chunk? = some c → IsPacket c ∧ c.chunkId < totalChunks ∧
      ∀ c' ∈ H, c'.chunkId ≠ c.chunkId)
    (hfirsts : FirstSends totalChunks m sends) (h : Timed log m) :
    Timed (log ++ acts.map (Prod.mk m.now)) m' := by
  cases hmove with
  | drain hl hdrain =>
      obtain ⟨out, hout⟩ := hfirsts.drainPending hbooks hpackets hdrain
      exact hout.timed h
  | @chunk c m m' hadmitted =>
      obtain ⟨hc, hbelow, hfresh⟩ := hnew c rfl
      obtain ⟨out, hout⟩ := hfirsts.admitOrBuffer hbooks hpackets hc hbelow hfresh hadmitted
      exact hout.timed h
  | missing => exact h.missing hbooks hpackets _ _
  | complete hcomplete => exact h.complete hcomplete
  | timeout horder =>
      exact h.timeout hbooks hpackets (horder.nodup_iff.2 m.blockStates.nodupKeys)
  | @tick dt m =>
      refine h.append (Nat.le_add_right _ _) (fun _ => id) (fun b entry hl => ?_) nofun
      exact .inl ⟨entry, hl, id, .inr ⟨rfl, nofun⟩⟩

/-! ## What is resent -/

/-- All datagrams of the block, as they were first sent, and its `BlockEnd`. -/
def WholeBlock (totalChunks : UInt32) (sends : List Datagram) (b : UInt32) (ds : List Datagram) :
    Prop :=
  ∃ packets, ds = packets ++ [blockEndOf totalChunks b] ∧
    packets.length = packetsInBlock b totalChunks ∧
    ∀ (i : ℕ) (packet : Datagram), packets[i]? = some packet →
      packet ∈ sends ∧ DataFor b (.ofNat i) packet ∧
        ∀ d ∈ sends, DataFor b (.ofNat i) d → d = packet

theorem eq_map_some_filterMap {α : Type*} {ps : List (Option α)}
    (h : ∀ p ∈ ps, p.isSome = true) : ps = (ps.filterMap id).map some := by
  induction ps with
  | nil => rfl
  | cons p ps ih =>
      obtain ⟨a, rfl⟩ := Option.isSome_iff_exists.1 (h p List.mem_cons_self)
      exact congrArg (some a :: ·) (ih fun p hp => h p (List.mem_cons_of_mem _ hp))

/-- The cache of a block whose `BlockEnd` is out is full. -/
theorem EntryOk.full {entry : BlockState} (h : EntryOk totalChunks H b entry)
    (hended : entry.endEmitted = true) : entry.packets = (entry.packets.filterMap id).map some :=
  eq_map_some_filterMap (h.isSome_of_ended hended)

theorem resend_wholeBlock (hbooks : Bookkeeping totalChunks pipelineDepth H m)
    (hpackets : ∀ c ∈ H, IsPacket c) (hfirsts : FirstSends totalChunks m sends)
    (hresend : m.resend m.now b = some ds) : WholeBlock totalChunks sends b ds := by
  obtain ⟨entry, hl, hended, -, -, rfl⟩ := Manager.resend_eq_some hresend
  have hentry : EntryOk totalChunks H b entry := hbooks.slots _ _ hl
  have hfull := hentry.full hended
  refine ⟨entry.packets.filterMap id, ?_, ?_, fun i packet hi => ?_⟩
  · rw [hentry.total, blockEndOf]
  · have hlength := congrArg List.length hfull
    rw [List.length_map] at hlength
    rw [← hlength, hentry.length, hentry.total]
  · have hcached : entry.packets[i]? = some (some packet) := by
      rw [hfull, List.getElem?_map, hi]
      rfl
    have hsent := hfirsts.cached b entry hl i packet hcached
    obtain ⟨c, hc, rfl, rfl, rfl⟩ := hentry.cached i packet hcached
    have hindex : UInt16.ofNat (EncryptedChunk.index c) = (blockOf c.chunkId).2 :=
      UInt16.ofNat_toNat
    have hfor : DataFor (EncryptedChunk.block c) (.ofNat (EncryptedChunk.index c)) c.packet := by
      rw [hindex]
      exact hpackets c hc
    refine ⟨hsent, hfor, fun d hd hfor' => ?_⟩
    -- the block and the index are those of one chunk
    obtain ⟨c', hc', rfl, hpos⟩ := hbooks.exists_of_dataFor hpackets (hfirsts.sub hd) hfor'
    rw [hindex] at hpos
    have hid : c'.chunkId = c.chunkId := blockOf_injective hpos
    rw [hbooks.chunks.distinct c' hc' c hc hid]

/-! ## The discipline -/

/-- What holds of the log `pre` before the block is resent as `ds` at time `t`. -/
structure Disciplined (totalChunks : UInt32) (pre : List (Instant × Activity)) (t : Instant)
    (b : UInt32) (ds : List Datagram) : Prop where
  once : ∀ t' ds', (t', Activity.fallback b ds') ∉ pre
  ended : blockEndOf totalChunks b ∈ firstSends pre
  unresolved : ∀ t', (t', Activity.complete b) ∉ pre
  silent : ∀ e ∈ pre, e.2.Touches b → e.1 + fromMillis wholeBlockRetransmitTimeoutMs ≤ t
  whole : WholeBlock totalChunks (firstSends pre) b ds

/-- Every resend of a block is disciplined. -/
def FallbackLaw (totalChunks : UInt32) (log : List (Instant × Activity)) : Prop :=
  EachAfter (fun pre e => ∀ b ds, e.2 = .fallback b ds → Disciplined totalChunks pre e.1 b ds) log

/-- The first resend of a timeout is disciplined. -/
theorem Timed.disciplined (h : Timed log m) (hbooks : Bookkeeping totalChunks pipelineDepth H m)
    (hpackets : ∀ c ∈ H, IsPacket c) (htraced : Traced totalChunks log m)
    (hresend : m.resend m.now b = some ds) : Disciplined totalChunks log m.now b ds := by
  obtain ⟨entry, hl, hended, hflag, hdue, -⟩ := Manager.resend_eq_some hresend
  refine ⟨fun t ds' hmem => ?_, htraced.firsts.ended b entry hl hended, fun t hmem => ?_,
    fun e he htouches => ?_, resend_wholeBlock hbooks hpackets htraced.firsts hresend⟩
  · have hset := h.flagged b entry hl t ds' hmem
    rw [hflag] at hset
    cases hset
  · have hresolved : m.Resolved b := htraced.resolved t b hmem
    rw [Manager.Resolved, hl] at hresolved
    cases hresolved
  · have hbefore := h.touched b entry hl e he htouches
    have hpos : 0 < fromMillis wholeBlockRetransmitTimeoutMs := by decide
    have hlt : entry.lastAckActivity < m.now := Nat.sub_pos_iff_lt.1 (lt_of_lt_of_le hpos hdue)
    exact (Nat.add_le_add_right hbefore _).trans ((Nat.le_sub_iff_add_le' hlt.le).1 hdue)

/-- Resending other blocks before does not matter. -/
theorem Disciplined.append {t : Instant} (h : Disciplined totalChunks log t b ds)
    (hothers : ∀ e ∈ acts, ∃ b' ds', e = .fallback b' ds' ∧ b' ≠ b ∧ ∀ d ∈ ds', ForBlock b' d)
    {t' : Instant} : Disciplined totalChunks (log ++ acts.map (Prod.mk t')) t b ds := by
  have hfirsts : firstSends (log ++ acts.map (Prod.mk t')) = firstSends log := by
    rw [firstSends_append, List.append_right_eq_self, firstSends, List.filterMap_eq_nil_iff]
    intro e he
    obtain ⟨a, ha, rfl⟩ := List.mem_map.1 he
    obtain ⟨b', ds', rfl, -⟩ := hothers a ha
    rfl
  refine ⟨fun t₀ ds₀ hmem => ?_, hfirsts ▸ h.ended, fun t₀ hmem => ?_, fun e he htouches => ?_,
    hfirsts ▸ h.whole⟩
  · refine (List.mem_append.1 hmem).elim (h.once t₀ ds₀) fun hnew => ?_
    obtain ⟨a, ha, heq⟩ := List.mem_map.1 hnew
    obtain ⟨b', ds', rfl, hne, -⟩ := hothers a ha
    cases heq
    exact hne rfl
  · refine (List.mem_append.1 hmem).elim (h.unresolved t₀) fun hnew => ?_
    obtain ⟨a, ha, heq⟩ := List.mem_map.1 hnew
    obtain ⟨b', ds', rfl, -⟩ := hothers a ha
    cases heq
  · refine (List.mem_append.1 he).elim (fun hold => h.silent e hold htouches) fun hnew => ?_
    obtain ⟨a, ha, rfl⟩ := List.mem_map.1 hnew
    obtain ⟨b', ds', rfl, hne, hfor⟩ := hothers a ha
    rcases htouches with heq | ⟨d, hd, hend⟩
    · cases heq
    · exact absurd (ForBlock.inj (hfor d hd) (.inr hend)) hne

theorem FallbackLaw.move (h : FallbackLaw totalChunks log) (htimed : Timed log m)
    (htraced : Traced totalChunks log m) (hmove : LogMove totalChunks pipelineDepth l m m' acts)
    (hbooks : Bookkeeping totalChunks pipelineDepth H m) (hpackets : ∀ c ∈ H, IsPacket c) :
    FallbackLaw totalChunks (log ++ acts.map (Prod.mk m.now)) := by
  have hnone : (∀ b ds, Activity.fallback b ds ∉ acts) →
      FallbackLaw totalChunks (log ++ acts.map (Prod.mk m.now)) := by
    refine fun hno => EachAfter.append h fun pre e post hsplit b ds heq => ?_
    have he : e ∈ acts.map (Prod.mk m.now) := hsplit ▸ by simp
    obtain ⟨a, ha, rfl⟩ := List.mem_map.1 he
    exact absurd (heq ▸ ha) (hno b ds)
  cases hmove with
  | drain => exact hnone fun b ds => by simp
  | chunk => exact hnone fun b ds => by simp
  | missing => exact hnone fun b ds => by simp
  | complete => exact hnone fun b ds => by simp
  | tick => exact hnone fun b ds => by simp
  | @timeout order _ horder =>
      have hnodup : order.Nodup := horder.nodup_iff.2 m.blockStates.nodupKeys
      refine EachAfter.append h fun pre e post hsplit b ds heq => ?_
      obtain ⟨before, rest, hacts, rfl, hrest⟩ := List.map_eq_append_iff.1 hsplit
      obtain ⟨a, after, rfl, rfl, -⟩ := List.map_eq_cons_iff.1 hrest
      dsimp only at heq ⊢
      subst heq
      have hmem := mem_resends (hacts ▸ List.mem_append_right before List.mem_cons_self)
      obtain ⟨b₀, ds₀, -, hds, heq⟩ := hmem
      cases heq
      refine (htimed.disciplined hbooks hpackets htraced hds).append fun a ha => ?_
      obtain ⟨b', ds', -, hds', rfl⟩ := mem_resends (hacts ▸ List.mem_append_left _ ha)
      refine ⟨b', ds', rfl, ?_, fun d hd => (resend_unresolved hbooks hpackets hds' d hd).2⟩
      -- a timeout visits every block once
      have hpairs : (order.filterMap fun b => (m.resend m.now b).map (Activity.fallback b)).Pairwise
          fun a a' => ∀ b ds b' ds', a = .fallback b ds → a' = .fallback b' ds' → b ≠ b' := by
        refine List.Pairwise.filterMap _ (fun b b' hne a ha a' ha' => ?_) hnodup
        obtain ⟨_, -, rfl⟩ := Option.map_eq_some_iff.1 ha
        obtain ⟨_, -, rfl⟩ := Option.map_eq_some_iff.1 ha'
        intro b₁ ds₁ b₂ ds₂ h₁ h₂
        cases h₁
        cases h₂
        exact hne
      rw [hacts] at hpairs
      exact (List.pairwise_append.1 hpairs).2.2 _ ha _ List.mem_cons_self b' ds' b ds rfl rfl

theorem fallbackLaw_of_reaches (hrun : (blockManager totalChunks pipelineDepth).Reaches ls s)
    (horderly : Orderly totalChunks ls) (hpackets : ∀ c ∈ handledChunks ls, IsPacket c) :
    FallbackLaw totalChunks (managerLog totalChunks pipelineDepth ls) := by
  obtain ⟨m, hm, -⟩ := bookkeeping_of_reaches hrun horderly
  have hall := managerLog_rule (P := fun ls log m => (∀ c ∈ handledChunks ls, IsPacket c) →
    Traced totalChunks log m ∧ Timed log m ∧ FallbackLaw totalChunks log)
    (fun _ => ⟨.init, .init, .nil⟩) ?_ hrun horderly hm hpackets
  · exact hall.2.2
  · intro ls log m l m' acts hbooks horderly ih hmove hpackets
    obtain ⟨hold, hnew⟩ := horderly.newChunk hpackets
    obtain ⟨htraced, htimed, hlaw⟩ := ih hold
    exact ⟨htraced.move hmove hbooks hold hnew, hmove.timed hbooks hold hnew htraced.firsts htimed,
      hlaw.move htimed htraced hmove hbooks hold⟩

/-! ## The event channel -/

/-- The manager thread with the channel it receives from. -/
structure EventLoop where
  events : List SenderEvent
  loop : Loop

inductive EventLoopLabel
  /-- Some relay sends. -/
  | send (e : SenderEvent)
  | manager (l : LoopInput)

/-- `recv_timeout` yields the oldest event, and times out or finds the channel closed only when
    there is none. -/
def EventLoop.admits (s : EventLoop) : LoopInput → Bool
  | .drain => true
  | .event e => s.events.head? = some e
  | .timeout _ => s.events = []
  | .disconnected => s.events = []
  | .tick _ => true

def EventLoop.step (totalChunks : UInt32) (pipelineDepth : ℕ) :
    EventLoopLabel → EventLoop → Option EventLoop
  | .send e, s => some { s with events := s.events ++ [e] }
  | .manager l, s =>
    if s.admits l then
      (Loop.step totalChunks pipelineDepth l s.loop).map fun loop =>
        { events := if let .event _ := l then s.events.tail else s.events, loop }
    else none

def eventLoop (totalChunks : UInt32) (pipelineDepth : ℕ) : Lts EventLoop EventLoopLabel where
  init := { events := [], loop := .head .init }
  step := EventLoop.step totalChunks pipelineDepth

def EventLoopLabel.input? : EventLoopLabel → Option LoopInput
  | .send _ => none
  | .manager l => some l

/-- What the manager thread gets to see. -/
def loopInputs (ls : List EventLoopLabel) : List LoopInput :=
  ls.filterMap EventLoopLabel.input?

theorem EventLoop.step_manager {l : LoopInput} {s s' : EventLoop}
    (h : (eventLoop totalChunks pipelineDepth).step (.manager l) s = some s') :
    s.admits l = true ∧ (blockManager totalChunks pipelineDepth).step l s.loop = some s'.loop := by
  have hstep : (if s.admits l then _ else none) = some s' := h
  split at hstep
  · next hadmits =>
      obtain ⟨loop, hloop, rfl⟩ := Option.map_eq_some_iff.1 hstep
      exact ⟨hadmits, hloop⟩
  · cases hstep

/-- A run with the channel is one of the loop. -/
theorem loop_of_eventLoop {ls : List EventLoopLabel} {s : EventLoop}
    (hrun : (eventLoop totalChunks pipelineDepth).Reaches ls s) :
    (blockManager totalChunks pipelineDepth).Reaches (loopInputs ls) s.loop := by
  refine hrun.history (P := fun ls s =>
    (blockManager totalChunks pipelineDepth).Reaches (loopInputs ls) s.loop) .nil ?_
  intro ls s l s' _ ih _ hstep
  rw [loopInputs, List.filterMap_append]
  cases l with
  | send e =>
      cases hstep
      exact (List.append_nil (loopInputs ls)).symm ▸ ih
  | manager l => exact .snoc ih trivial (EventLoop.step_manager hstep).2

/-- A step that resends a block is a timeout, and the channel is empty. -/
theorem EventLoop.fallback_idle {l : LoopInput} {s s' : EventLoop} {t : Instant}
    (hstep : (eventLoop totalChunks pipelineDepth).step (.manager l) s = some s')
    (hmem : (t, Activity.fallback b ds) ∈ Loop.activity l s.loop s'.loop) : s.events = [] := by
  obtain ⟨hadmits, -⟩ := EventLoop.step_manager hstep
  have htimeout : ∃ order, l = .timeout order := by
    unfold Loop.activity at hmem
    split at hmem
    · obtain ⟨a, ha, heq⟩ := List.mem_map.1 hmem
      cases heq
      unfold Manager.activity at ha
      split at ha
      · simp at ha
      · simp at ha
      · simp at ha
      · simp at ha
      · simp at ha
      · exact ⟨_, rfl⟩
      · cases ha
    · cases hmem
  obtain ⟨order, rfl⟩ := htimeout
  simpa [admits] using hadmits

/-- **Fallback discipline.** In every run of the loop behind its event channel the datagrams of the
    log are those handed to `udp.send`, and each resend of a block as a whole is the first of that
    block, comes behind its `BlockEnd` and before its `Complete`, two seconds or more after the last
    `Missing` and the last `BlockEnd` of it, sends all of its datagrams again, then `BlockEnd`; and
    no event is left unread in the channel. -/
theorem fallback_discipline {ls : List EventLoopLabel} {s : EventLoop}
    (hrun : (eventLoop totalChunks pipelineDepth).Reaches ls s)
    (horderly : Orderly totalChunks (loopInputs ls))
    (hworker : ∀ c ∈ handledChunks (loopInputs ls), FromWorker c) :
    ∃ m, s.loop.manager? = some m ∧
      allSends (managerLog totalChunks pipelineDepth (loopInputs ls)) = m.udp ∧
      (∀ pre t b ds post,
        managerLog totalChunks pipelineDepth (loopInputs ls) = pre ++ (t, .fallback b ds) :: post →
        Disciplined totalChunks pre t b ds) ∧
      ∀ before l after mid next, ls = before ++ .manager l :: after →
        (eventLoop totalChunks pipelineDepth).Reaches before mid →
        (eventLoop totalChunks pipelineDepth).step (.manager l) mid = some next →
        ∀ t b ds, (t, Activity.fallback b ds) ∈ Loop.activity l mid.loop next.loop →
          mid.events = [] := by
  have hloop := loop_of_eventLoop hrun
  obtain ⟨m, hm, -⟩ := bookkeeping_of_reaches hloop horderly
  have hlaw := fallbackLaw_of_reaches hloop horderly fun c hc => (hworker c hc).isPacket
  refine ⟨m, hm, managerLog_sent hloop horderly hm, fun pre t b ds post hsplit => ?_,
    fun _ l _ mid next _ _ hstep t b ds hmem => EventLoop.fallback_idle hstep hmem⟩
  exact hlaw pre (t, .fallback b ds) post hsplit b ds rfl

/-- One block, two seconds of silence, and a resend. -/
def silentRun : List EventLoopLabel :=
  [.send (.chunk (twoPackets 1)), .send (.chunk (twoPackets 0)), .manager .drain,
    .manager (.event (.chunk (twoPackets 1))), .manager .drain,
    .manager (.event (.chunk (twoPackets 0))), .manager .drain,
    .manager (.tick (fromMillis 2000)), .manager (.timeout [0])]

theorem fallback_discipline_silentRun :
    ∃ s m pre t ds, (eventLoop 2 1).exec silentRun (eventLoop 2 1).init = some s ∧
      s.loop.manager? = some m ∧ allSends (managerLog 2 1 (loopInputs silentRun)) = m.udp ∧
      managerLog 2 1 (loopInputs silentRun) = pre ++ [(t, .fallback 0 ds)] ∧
      Disciplined 2 pre t 0 ds := by
  obtain ⟨s, hs, -⟩ := Lts.exists_exec (eventLoop 2 1) silentRun (fun _ => True) (by decide +kernel)
  have hlog : managerLog 2 1 (loopInputs silentRun)
      = (managerLog 2 1 (loopInputs silentRun)).dropLast ++ [(fromMillis 2000, .fallback 0
        [(twoPackets 0).packet, (twoPackets 1).packet, blockEndOf 2 0])] := by decide +kernel
  obtain ⟨m, hm, hsent, hdisciplined, -⟩ := fallback_discipline (Lts.reaches_of_exec hs)
    ⟨by decide +kernel, by decide +kernel⟩ twoPackets_fromWorker
  exact ⟨s, m, _, _, _, hs, hm, hsent, hlog, hdisciplined _ _ _ _ _ hlog⟩

end SecureTransfer.Sender
