import SecureTransfer.Sender.ManagerInvariant

set_option autoImplicit false

/-! # Runs of the block manager

`Loop.Turn` is the inversion of `Loop.step`, one constructor per way the loop can move. The
bookkeeping invariant is carried along a run with `H` the chunks handled so far. -/

namespace SecureTransfer.Sender

variable {totalChunks : UInt32} {pipelineDepth : ℕ} {H : Set EncryptedChunk} {m m' : Manager}

/-! ## One step of the loop -/

/-- The moves of the loop. -/
inductive Loop.Turn (totalChunks : UInt32) (pipelineDepth : ℕ) : LoopInput → Loop → Loop → Prop
  | exit {m m' : Manager} (hdrain : drainPending totalChunks pipelineDepth m = .ok m')
      (hdone : (totalBlocks totalChunks).toNat ≤ m'.completed) :
      Turn totalChunks pipelineDepth .drain (.head m) (.returned m' (.ok m'.bytesSent))
  | wait {m m' : Manager} (hdrain : drainPending totalChunks pipelineDepth m = .ok m')
      (hmore : m'.completed < (totalBlocks totalChunks).toNat) :
      Turn totalChunks pipelineDepth .drain (.head m)
        (.wait (m'.now + fromMillis ackActivityCheckIntervalMs) m')
  | event {deadline : Instant} {m m' : Manager} {e : SenderEvent}
      (hevent : handleEvent totalChunks pipelineDepth e m = .ok m') :
      Turn totalChunks pipelineDepth (.event e) (.wait deadline m) (.head m')
  | timeout {deadline : Instant} {m : Manager} {order : List UInt32} (hdue : deadline ≤ m.now)
      (horder : order.Perm m.blockStates.keys) :
      Turn totalChunks pipelineDepth (.timeout order) (.wait deadline m)
        (.head (retransmitStaleBlocks order m))
  | disconnectedExit {deadline : Instant} {m m' : Manager}
      (hdrain : drainPending totalChunks pipelineDepth m = .ok m')
      (hdone : (totalBlocks totalChunks).toNat ≤ m'.completed) :
      Turn totalChunks pipelineDepth .disconnected (.wait deadline m)
        (.returned m' (.ok m'.bytesSent))
  | disconnectedError {deadline : Instant} {m m' : Manager}
      (hdrain : drainPending totalChunks pipelineDepth m = .ok m')
      (hmore : m'.completed < (totalBlocks totalChunks).toNat) :
      Turn totalChunks pipelineDepth .disconnected (.wait deadline m)
        (.returned m' (.error (m'.channelClosed totalChunks)))
  | tickHead {m : Manager} {dt : Duration} :
      Turn totalChunks pipelineDepth (.tick dt) (.head m) (.head { m with now := m.now + dt })
  | tickWait {deadline : Instant} {m : Manager} {dt : Duration} :
      Turn totalChunks pipelineDepth (.tick dt) (.wait deadline m)
        (.wait deadline { m with now := m.now + dt })
  | drainPanic {m : Manager} {panic : Panic}
      (hdrain : drainPending totalChunks pipelineDepth m = .error panic) :
      Turn totalChunks pipelineDepth .drain (.head m) (.panicked panic)
  | eventPanic {deadline : Instant} {m : Manager} {e : SenderEvent} {panic : Panic}
      (hevent : handleEvent totalChunks pipelineDepth e m = .error panic) :
      Turn totalChunks pipelineDepth (.event e) (.wait deadline m) (.panicked panic)
  | disconnectedPanic {deadline : Instant} {m : Manager} {panic : Panic}
      (hdrain : drainPending totalChunks pipelineDepth m = .error panic) :
      Turn totalChunks pipelineDepth .disconnected (.wait deadline m) (.panicked panic)

theorem Loop.turn_of_step {l : LoopInput} {s s' : Loop}
    (h : Loop.step totalChunks pipelineDepth l s = some s') :
    Loop.Turn totalChunks pipelineDepth l s s' := by
  unfold Loop.step at h
  split at h
  · next m =>
      cases hdrain : drainPending totalChunks pipelineDepth m with
      | error panic => rw [hdrain] at h; cases h; exact .drainPanic hdrain
      | ok m' =>
          rw [hdrain] at h
          simp only [Loop.orPanic, Option.some.injEq] at h
          subst h
          split
          · next hdone => exact .exit hdrain hdone
          · next hmore => exact .wait hdrain (by omega)
  · next e deadline m =>
      cases hevent : handleEvent totalChunks pipelineDepth e m with
      | error panic => rw [hevent] at h; cases h; exact .eventPanic hevent
      | ok m' => rw [hevent] at h; cases h; exact .event hevent
  · next order deadline m =>
      split at h
      · next hdue => cases h; exact .timeout hdue.1 hdue.2
      · cases h
  · next deadline m =>
      cases hdrain : drainPending totalChunks pipelineDepth m with
      | error panic => rw [hdrain] at h; cases h; exact .disconnectedPanic hdrain
      | ok m' =>
          rw [hdrain] at h
          simp only [Loop.orPanic, Option.some.injEq] at h
          subst h
          split
          · next hdone => exact .disconnectedExit hdrain hdone
          · next hmore => exact .disconnectedError hdrain (by omega)
  · cases h; exact .tickHead
  · cases h; exact .tickWait
  · cases h

/-- What a move of the loop does to the manager's state. -/
inductive ManagerMove (totalChunks : UInt32) (pipelineDepth : ℕ) :
    LoopInput → Manager → Manager → Prop
  | drain {l : LoopInput} {m m' : Manager} (hl : ∀ e, l ≠ .event e)
      (hdrain : drainPending totalChunks pipelineDepth m = .ok m') :
      ManagerMove totalChunks pipelineDepth l m m'
  | event {e : SenderEvent} {m m' : Manager}
      (hevent : handleEvent totalChunks pipelineDepth e m = .ok m') :
      ManagerMove totalChunks pipelineDepth (.event e) m m'
  | timeout {order : List UInt32} {m : Manager} :
      ManagerMove totalChunks pipelineDepth (.timeout order) m (retransmitStaleBlocks order m)
  | tick {dt : Duration} {m : Manager} :
      ManagerMove totalChunks pipelineDepth (.tick dt) m { m with now := m.now + dt }

theorem Loop.Turn.managerMove {l : LoopInput} {s s' : Loop}
    (h : Loop.Turn totalChunks pipelineDepth l s s') (hm' : s'.manager? = some m') :
    ∃ m, s.manager? = some m ∧ ManagerMove totalChunks pipelineDepth l m m' := by
  cases h with
  | exit hdrain => cases hm'; exact ⟨_, rfl, .drain nofun hdrain⟩
  | wait hdrain => cases hm'; exact ⟨_, rfl, .drain nofun hdrain⟩
  | event hevent => cases hm'; exact ⟨_, rfl, .event hevent⟩
  | timeout => cases hm'; exact ⟨_, rfl, .timeout⟩
  | disconnectedExit hdrain => cases hm'; exact ⟨_, rfl, .drain nofun hdrain⟩
  | disconnectedError hdrain => cases hm'; exact ⟨_, rfl, .drain nofun hdrain⟩
  | tickHead => cases hm'; exact ⟨_, rfl, .tick⟩
  | tickWait => cases hm'; exact ⟨_, rfl, .tick⟩
  | drainPanic => cases hm'
  | eventPanic => cases hm'
  | disconnectedPanic => cases hm'

/-! ## Resolved blocks -/

/-- A block is resolved by a `Complete` for it and by nothing else, and stays so. -/
theorem handleEvent_resolved {e : SenderEvent}
    (h : handleEvent totalChunks pipelineDepth e m = .ok m') (b : UInt32) :
    m'.Resolved b ↔ m.Resolved b ∨ e = .ack (.complete b) := by
  cases e with
  | chunk c => simpa using (admitOrBuffer_keeps h).resolved b
  | ack ack =>
      cases ack with
      | missing blockId missing =>
          cases h
          simpa using (handleMissing_keeps blockId missing).resolved b
      | complete blockId =>
          rcases handleComplete_inv h with ⟨hl, rfl⟩ | ⟨_, hstates, _⟩
          · constructor
            · exact .inl
            · rintro (hr | heq)
              · exact hr
              · cases heq; exact hl
          · simp only [Manager.Resolved, hstates, AList.lookup_insert_ite, SenderEvent.ack.injEq,
              BlockAck.complete.injEq]
            by_cases hb : b = blockId
            · simp [hb]
            · simp [hb, Ne.symm hb]

/-- What one move of the loop does to the resolved blocks. -/
theorem Loop.Turn.resolved {l : LoopInput} {s s' : Loop}
    (h : Loop.Turn totalChunks pipelineDepth l s s') (hm' : s'.manager? = some m') :
    ∃ m, s.manager? = some m ∧
      ∀ b, m'.Resolved b ↔ m.Resolved b ∨ l = .event (.ack (.complete b)) := by
  obtain ⟨m, hm, hmove⟩ := h.managerMove hm'
  refine ⟨m, hm, fun b => ?_⟩
  cases hmove with
  | drain hl hdrain => simpa [hl] using (drainRounds_keeps hdrain).resolved b
  | event hevent => simpa using handleEvent_resolved hevent b
  | timeout => simpa using (retransmitStaleBlocks_keeps _).resolved b
  | tick => simp [Manager.Resolved]

/-- `Resolved` is terminal. -/
theorem resolved_stays {ls : List LoopInput} {s s' : Loop}
    (hexec : (blockManager totalChunks pipelineDepth).exec ls s = some s')
    (hm : s.manager? = some m) (hm' : s'.manager? = some m') {b : UInt32} (hb : m.Resolved b) :
    m'.Resolved b := by
  have key : ∀ m, s'.manager? = some m → m.Resolved b := by
    refine Lts.exec_preserves (P := fun s => ∀ m, s.manager? = some m → m.Resolved b) ?_ ?_ hexec
    · intro s l s' hs hstep m' hm'
      obtain ⟨m, hm, hiff⟩ := (Loop.turn_of_step hstep).resolved hm'
      exact (hiff b).2 (.inl (hs m hm))
    · intro m₀ hm₀
      rw [hm] at hm₀
      exact Option.some.inj hm₀ ▸ hb
  exact key m' hm'

/-! ## The books along a run -/

/-- The chunk of a chunk event. -/
def LoopInput.chunk? : LoopInput → Option EncryptedChunk
  | .event (.chunk c) => some c
  | _ => none

/-- The chunks handled in a run. -/
def handledChunks (ls : List LoopInput) : List EncryptedChunk :=
  ls.filterMap LoopInput.chunk?

theorem handledChunks_append (ls ls' : List LoopInput) :
    handledChunks (ls ++ ls') = handledChunks ls ++ handledChunks ls' :=
  List.filterMap_append

theorem handledChunks_snoc (ls : List LoopInput) (l : LoopInput) :
    handledChunks (ls ++ [l]) = handledChunks ls ++ l.chunk?.toList := by
  rw [handledChunks_append]
  rfl

/-- The events the manager is promised: every chunk is one of the file and comes at most once. -/
structure Orderly (totalChunks : UInt32) (ls : List LoopInput) : Prop where
  nodup : ((handledChunks ls).map EncryptedChunk.chunkId).Nodup
  below : ∀ c ∈ handledChunks ls, c.chunkId < totalChunks

theorem Orderly.of_append {ls ls' : List LoopInput} (h : Orderly totalChunks (ls ++ ls')) :
    Orderly totalChunks ls := by
  obtain ⟨hnodup, hbelow⟩ := h
  rw [handledChunks_append] at hnodup hbelow
  rw [List.map_append] at hnodup
  exact ⟨hnodup.of_append_left, fun c hc => hbelow c (List.mem_append_left _ hc)⟩

theorem Orderly.of_snoc {ls : List LoopInput} {l : LoopInput}
    (h : Orderly totalChunks (ls ++ [l])) :
    Orderly totalChunks ls ∧ ∀ c, l.chunk? = some c →
      c.chunkId < totalChunks ∧ ∀ c' ∈ handledChunks ls, c'.chunkId ≠ c.chunkId := by
  refine ⟨h.of_append, fun c hc => ?_⟩
  obtain ⟨hnodup, hbelow⟩ := h
  rw [handledChunks_snoc, hc] at hnodup hbelow
  rw [List.map_append, List.nodup_append] at hnodup
  refine ⟨hbelow c (by simp), fun c' hc' => hnodup.2.2 _ (List.mem_map_of_mem hc') _ (by simp)⟩

theorem Bookkeeping.tick (h : Bookkeeping totalChunks pipelineDepth H m) (dt : Duration) :
    Bookkeeping totalChunks pipelineDepth H { m with now := m.now + dt } :=
  { h with sent := h.sent }

theorem Bookkeeping.handleAck (h : Bookkeeping totalChunks pipelineDepth H m) (ack : BlockAck) :
    ∃ m', handleEvent totalChunks pipelineDepth (.ack ack) m = .ok m' ∧
      Bookkeeping totalChunks pipelineDepth H m' := by
  cases ack with
  | missing blockId missing => exact ⟨_, rfl, h.handleMissing blockId missing⟩
  | complete blockId => exact h.handleComplete blockId

/-- **Step lemma.** A move whose chunk, if any, is new and of the file does not panic and keeps the
    books with that chunk added. -/
theorem Bookkeeping.turn {l : LoopInput} {s s' : Loop} {ls : List LoopInput}
    (hturn : Loop.Turn totalChunks pipelineDepth l s s') (hm : s.manager? = some m)
    (h : Bookkeeping totalChunks pipelineDepth (bucketSet (handledChunks ls)) m)
    (hnew : ∀ c, l.chunk? = some c →
      c.chunkId < totalChunks ∧ ∀ c' ∈ handledChunks ls, c'.chunkId ≠ c.chunkId) :
    ∃ m', s'.manager? = some m' ∧
      Bookkeeping totalChunks pipelineDepth (bucketSet (handledChunks (ls ++ [l]))) m' := by
  have hsame : l.chunk? = none →
      bucketSet (handledChunks (ls ++ [l])) = bucketSet (handledChunks ls) := by
    intro hl
    rw [handledChunks_snoc, hl, Option.toList_none, List.append_nil]
  -- the three places that drain
  have hdrained : ∀ {m₀ : Manager} {r : Except Panic Manager}, s.manager? = some m₀ →
      Sender.drainPending totalChunks pipelineDepth m₀ = r →
      ∃ m', r = .ok m' ∧ Bookkeeping totalChunks pipelineDepth (bucketSet (handledChunks ls)) m' := by
    intro m₀ r hm₀ hr
    rw [hm] at hm₀
    cases hm₀
    obtain ⟨m', hok, hbooks⟩ := h.drainPending
    exact ⟨m', hr.symm.trans hok, hbooks⟩
  -- and the event arm
  have hhandled : ∀ {m₀ : Manager} {e : SenderEvent} {r : Except Panic Manager},
      l = .event e → s.manager? = some m₀ → handleEvent totalChunks pipelineDepth e m₀ = r →
      ∃ m', r = .ok m' ∧
        Bookkeeping totalChunks pipelineDepth (bucketSet (handledChunks (ls ++ [l]))) m' := by
    intro m₀ e r hl hm₀ hr
    rw [hm] at hm₀
    cases hm₀
    subst hl
    cases e with
    | ack ack =>
        rw [hsame rfl]
        obtain ⟨m', hok, hbooks⟩ := h.handleAck ack
        exact ⟨m', hr.symm.trans hok, hbooks⟩
    | chunk c =>
        obtain ⟨hbelow, hfresh⟩ := hnew c rfl
        obtain ⟨m', hok, hbooks⟩ := h.admitOrBuffer hbelow hfresh
        refine ⟨m', hr.symm.trans hok, ?_⟩
        have hset : bucketSet (handledChunks (ls ++ [.event (.chunk c)]))
            = insert c (bucketSet (handledChunks ls)) := by
          ext a
          simp [handledChunks_snoc, LoopInput.chunk?, or_comm]
        rwa [hset]
  cases hturn with
  | exit hdrain =>
      obtain ⟨m', hr, hbooks⟩ := hdrained rfl hdrain
      cases hr
      exact ⟨_, rfl, hsame rfl ▸ hbooks⟩
  | wait hdrain =>
      obtain ⟨m', hr, hbooks⟩ := hdrained rfl hdrain
      cases hr
      exact ⟨_, rfl, hsame rfl ▸ hbooks⟩
  | event hevent =>
      obtain ⟨m', hr, hbooks⟩ := hhandled rfl rfl hevent
      cases hr
      exact ⟨_, rfl, hbooks⟩
  | timeout =>
      cases hm
      exact ⟨_, rfl, hsame rfl ▸ h.retransmitStaleBlocks _⟩
  | disconnectedExit hdrain =>
      obtain ⟨m', hr, hbooks⟩ := hdrained rfl hdrain
      cases hr
      exact ⟨_, rfl, hsame rfl ▸ hbooks⟩
  | disconnectedError hdrain =>
      obtain ⟨m', hr, hbooks⟩ := hdrained rfl hdrain
      cases hr
      exact ⟨_, rfl, hsame rfl ▸ hbooks⟩
  | tickHead => cases hm; exact ⟨_, rfl, hsame rfl ▸ h.tick _⟩
  | tickWait => cases hm; exact ⟨_, rfl, hsame rfl ▸ h.tick _⟩
  | drainPanic hdrain =>
      obtain ⟨m', hr, _⟩ := hdrained rfl hdrain
      cases hr
  | eventPanic hevent =>
      obtain ⟨m', hr, _⟩ := hhandled rfl rfl hevent
      cases hr
  | disconnectedPanic hdrain =>
      obtain ⟨m', hr, _⟩ := hdrained rfl hdrain
      cases hr

/-- **Run lemma.** Under orderly events the manager never panics and its books are in step with the
    chunks handled. -/
theorem bookkeeping_of_reaches {ls : List LoopInput} {s : Loop}
    (hrun : (blockManager totalChunks pipelineDepth).Reaches ls s)
    (horderly : Orderly totalChunks ls) :
    ∃ m, s.manager? = some m ∧
      Bookkeeping totalChunks pipelineDepth (bucketSet (handledChunks ls)) m := by
  refine hrun.history (P := fun ls s => Orderly totalChunks ls → ∃ m, s.manager? = some m ∧
    Bookkeeping totalChunks pipelineDepth (bucketSet (handledChunks ls)) m) ?_ ?_ horderly
  · intro _
    refine ⟨.init, rfl, ?_⟩
    have hempty : bucketSet (handledChunks []) = ∅ := by
      ext c
      simp [handledChunks]
    rw [hempty]
    exact .init
  · intro ls s l s' _ ih _ hstep horderly
    obtain ⟨hbefore, hnew⟩ := horderly.of_snoc
    obtain ⟨m, hm, hbooks⟩ := ih hbefore
    exact Bookkeeping.turn (Loop.turn_of_step hstep) hm hbooks hnew

/-! ## The books, spelled out -/

/-- The chunk is cached at its own index in the `Open` entry of its block. -/
def Manager.Cached (m : Manager) (c : EncryptedChunk) : Prop :=
  ∃ entry, m.blockStates.lookup (EncryptedChunk.block c) = some (.opened entry) ∧
    entry.packets[EncryptedChunk.index c]? = some (some c.packet)

/-- The chunk waits in the `Pending` bucket of its block. -/
def Manager.Buffered (m : Manager) (c : EncryptedChunk) : Prop :=
  ∃ bucket, m.blockStates.lookup (EncryptedChunk.block c) = some (.pending bucket) ∧ c ∈ bucket

/-- A chunk taken over is in exactly one place. -/
theorem Bookkeeping.exactlyOne (h : Bookkeeping totalChunks pipelineDepth H m) {c : EncryptedChunk}
    (hc : c ∈ H) :
    (m.Cached c ∧ ¬ m.Buffered c ∧ ¬ m.Resolved (EncryptedChunk.block c)) ∨
    (¬ m.Cached c ∧ m.Buffered c ∧ ¬ m.Resolved (EncryptedChunk.block c)) ∨
    (¬ m.Cached c ∧ ¬ m.Buffered c ∧ m.Resolved (EncryptedChunk.block c)) := by
  obtain ⟨slot, hl, hholds⟩ := h.placed c hc
  unfold Manager.Cached Manager.Buffered Manager.Resolved
  rw [hl]
  cases slot with
  | pending bucket =>
      have hmem : c ∈ bucket := hholds
      simp [hmem]
  | opened entry =>
      have hcached : entry.packets[EncryptedChunk.index c]? = some (some c.packet) := hholds
      simp [hcached]
  | resolved => simp

/-- **Block manager bookkeeping.** Whatever the acks and timeouts, as long as every chunk is one of
    the file and comes at most once, the loop does not panic and in every reachable state the
    counters, the slot map and the chunks handled agree. -/
theorem blockManager_bookkeeping {ls : List LoopInput} {s : Loop}
    (hrun : (blockManager totalChunks pipelineDepth).Reaches ls s)
    (horderly : Orderly totalChunks ls) :
    ∃ m, s.manager? = some m ∧
      (m.openSlots = m.blockStates.countValues BlockSlot.isOpened ∧ m.openSlots ≤ pipelineDepth) ∧
      m.completed = m.blockStates.countValues BlockSlot.isResolved ∧
      (∀ b entry, m.blockStates.lookup b = some (.opened entry) →
        entry.packets.length = entry.total ∧ entry.total = packetsInBlock b totalChunks ∧
        entry.sent = entry.packets.countP Option.isSome ∧
        (entry.endEmitted = true ↔ entry.sent = entry.total)) ∧
      (∀ b bucket, m.blockStates.lookup b = some (.pending bucket) →
        bucket ≠ [] ∧ (bucket.map EncryptedChunk.chunkId).Nodup ∧
        ∀ c ∈ bucket, EncryptedChunk.block c = b) ∧
      (∀ c ∈ handledChunks ls,
        (m.Cached c ∧ ¬ m.Buffered c ∧ ¬ m.Resolved (EncryptedChunk.block c)) ∨
        (¬ m.Cached c ∧ m.Buffered c ∧ ¬ m.Resolved (EncryptedChunk.block c)) ∨
        (¬ m.Cached c ∧ ¬ m.Buffered c ∧ m.Resolved (EncryptedChunk.block c))) ∧
      (∀ ls' s' m', (blockManager totalChunks pipelineDepth).exec ls' s = some s' →
        s'.manager? = some m' → ∀ b, m.Resolved b → m'.Resolved b) := by
  obtain ⟨m, hm, h⟩ := bookkeeping_of_reaches hrun horderly
  refine ⟨m, hm, ⟨h.openSlots, h.openSlots_le⟩, h.completed, ?_, ?_, ?_, ?_⟩
  · intro b entry hl
    have hentry : EntryOk totalChunks _ b entry := h.slots b _ hl
    exact ⟨hentry.length, hentry.total, hentry.sent, hentry.endEmitted⟩
  · intro b bucket hl
    have hbucket : BucketOk _ b bucket := h.slots b _ hl
    exact ⟨hbucket.nonempty, hbucket.nodup, fun c hc => (hbucket.mem c hc).2⟩
  · exact fun c hc => h.exactlyOne hc
  · exact fun ls' s' m' hexec hm' b hb => resolved_stays hexec hm hm' hb

/-- Two blocks through a pipeline of depth one: the second waits until the first is resolved. -/
theorem blockManager_bookkeeping_twoBlocks :
    ∃ s m, (blockManager 257 1).exec
        [.drain, .event (.chunk ⟨0, [1], 1⟩), .drain, .event (.chunk ⟨256, [2], 1⟩), .drain,
          .event (.ack (.missing 0 [0, 7])), .drain, .event (.ack (.complete 0)), .drain]
        (blockManager 257 1).init = some s ∧
      s.manager? = some m ∧ m.openSlots = m.blockStates.countValues BlockSlot.isOpened := by
  obtain ⟨s, hs, _⟩ := Lts.exists_exec (blockManager 257 1)
    [.drain, .event (.chunk ⟨0, [1], 1⟩), .drain, .event (.chunk ⟨256, [2], 1⟩), .drain,
      .event (.ack (.missing 0 [0, 7])), .drain, .event (.ack (.complete 0)), .drain]
    (fun _ => True) (by decide +kernel)
  obtain ⟨m, hm, hopen, _⟩ := blockManager_bookkeeping (Lts.reaches_of_exec hs)
    ⟨by decide, by decide⟩
  exact ⟨s, m, hs, hm, hopen.1⟩

end SecureTransfer.Sender
