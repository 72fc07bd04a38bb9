import SecureTransfer.Lib.Outputs
import SecureTransfer.Sender.Fallback
import SecureTransfer.Sender.Placement

set_option autoImplicit false

/-! # The log of the block manager

What the manager thread sends, and which acks it handles, entry by entry with the time. The log
tells the three origins of a datagram apart: `place_chunk`, the `Missing` arm and
`retransmit_stale_blocks`; put together its datagrams are those handed to `udp.send`
(`managerLog_sent`). -/

namespace SecureTransfer.Sender

variable {totalChunks : UInt32} {pipelineDepth : ℕ} {m m' : Manager} {b : UInt32}

inductive Activity
  /-- `place_chunk` sends. -/
  | first (d : Datagram)
  /-- The `Missing` arm is entered. -/
  | missing (b : UInt32)
  /-- The `Missing` arm sends. -/
  | repair (d : Datagram)
  /-- `retransmit_stale_blocks` sends a block as a whole. -/
  | fallback (b : UInt32) (ds : List Datagram)
  /-- The `Complete` arm is entered. -/
  | complete (b : UInt32)
deriving DecidableEq

def Activity.sent : Activity → List Datagram
  | .first d => [d]
  | .missing _ => []
  | .repair d => [d]
  | .fallback _ ds => ds
  | .complete _ => []

def Activity.first? : Activity → Option Datagram
  | .first d => some d
  | _ => none

/-! ## What the fallback sends -/

/-- The datagrams `retransmit_stale_blocks` sends for a block, if it does not skip it. -/
def Manager.resend (now : Instant) (m : Manager) (b : UInt32) : Option (List Datagram) :=
  match m.blockStates.lookup b with
  | some (.opened entry) =>
    if entry.endEmitted = false ∨ entry.fallbackSent = true then none
    else if now - entry.lastAckActivity < fromMillis wholeBlockRetransmitTimeoutMs then none
    else some (entry.packets.filterMap id ++ [BlockEndPacket.encode b (UInt32.ofNat entry.total)])
  | _ => none

theorem Manager.resend_of_opened {now : Instant} {entry : BlockState}
    (hl : m.blockStates.lookup b = some (.opened entry)) :
    m.resend now b =
      if entry.endEmitted = false ∨ entry.fallbackSent = true then none
      else if now - entry.lastAckActivity < fromMillis wholeBlockRetransmitTimeoutMs then none
      else some (entry.packets.filterMap id ++
        [BlockEndPacket.encode b (UInt32.ofNat entry.total)]) := by
  rw [resend, hl]

theorem Manager.resend_eq_some {now : Instant} {ds : List Datagram} (h : m.resend now b = some ds) :
    ∃ entry, m.blockStates.lookup b = some (.opened entry) ∧ entry.endEmitted = true ∧
      entry.fallbackSent = false ∧
      fromMillis wholeBlockRetransmitTimeoutMs ≤ now - entry.lastAckActivity ∧
      ds = entry.packets.filterMap id ++
        [BlockEndPacket.encode b (UInt32.ofNat entry.total)] := by
  unfold resend at h
  split at h
  · next entry hl =>
      split at h
      · cases h
      · next hskip =>
          split at h
          · cases h
          · next hdue =>
              cases h
              rw [not_or, Bool.not_eq_false, Bool.not_eq_true] at hskip
              exact ⟨entry, hl, hskip.1, hskip.2, Nat.le_of_not_lt hdue, rfl⟩
  · cases h

theorem retransmitStale_udp (now : Instant) (m : Manager) (b : UInt32) :
    (retransmitStale now m b).udp = m.udp ++ (m.resend now b).getD [] := by
  rcases hl : m.blockStates.lookup b with _ | bucket | entry | _
  · simp [retransmitStale, Manager.resend, hl]
  · simp [retransmitStale, Manager.resend, hl]
  · by_cases hskip : entry.endEmitted = false ∨ entry.fallbackSent = true
    · simp [retransmitStale, Manager.resend, hl, hskip]
    · by_cases hdue : now - entry.lastAckActivity < fromMillis wholeBlockRetransmitTimeoutMs
      · simp [retransmitStale, Manager.resend, hl, hskip, hdue]
      · simp [retransmitStale, Manager.resend, hl, hskip, hdue, Manager.setSlot, Manager.send]
  · simp [retransmitStale, Manager.resend, hl]

theorem foldl_retransmitStale_udp {now : Instant} {order : List UInt32} (hnodup : order.Nodup)
    (m : Manager) :
    (order.foldl (retransmitStale now) m).udp
      = m.udp ++ (order.filterMap (m.resend now)).flatten := by
  induction order generalizing m with
  | nil => simp
  | cons b order ih =>
      obtain ⟨hb, hrest⟩ := List.nodup_cons.1 hnodup
      -- what is sent for one block does not depend on the others
      have hsame : ∀ b' ∈ order, (retransmitStale now m b).resend now b' = m.resend now b' := by
        intro b' hb'
        have hne : b' ≠ b := fun heq => hb (heq ▸ hb')
        rw [Manager.resend, Manager.resend, retransmitStale_other hne]
      rw [List.foldl_cons, ih hrest, retransmitStale_udp, List.filterMap_congr hsame,
        List.filterMap_cons, List.append_assoc]
      cases m.resend now b with
      | none => rfl
      | some ds => rfl

/-- A timeout sends the stale blocks one after the other, each as a whole. -/
theorem retransmitStaleBlocks_udp {order : List UInt32} (hnodup : order.Nodup) (m : Manager) :
    (retransmitStaleBlocks order m).udp
      = m.udp ++ (order.filterMap (m.resend m.now)).flatten :=
  foldl_retransmitStale_udp hnodup m

/-! ## The `Open` entries -/

/-- What the fallback makes of the entry of a block it resends. -/
def BlockState.resent (entry : BlockState) (now : Instant) : BlockState :=
  { entry with fallbackSent := true, lastAckActivity := now }

theorem retransmitStale_opened {now : Instant} {b' : UInt32} {entry' : BlockState}
    (hl : (retransmitStale now m b).blockStates.lookup b' = some (.opened entry')) :
    ∃ entry, m.blockStates.lookup b' = some (.opened entry) ∧
      ((entry' = entry ∧ (b' = b → m.resend now b = none)) ∨
        (b' = b ∧ (m.resend now b).isSome = true ∧ entry' = entry.resent m.now)) := by
  by_cases hb : b' = b
  · subst hb
    unfold retransmitStale at hl
    split at hl
    · next entry hentry =>
        rw [Manager.resend_of_opened hentry]
        split at hl
        · next hskip =>
            rw [hentry, Option.some.injEq, BlockSlot.opened.injEq] at hl
            exact ⟨entry, hentry, .inl ⟨hl.symm, fun _ => if_pos hskip⟩⟩
        · next hskip =>
            rw [if_neg hskip]
            split at hl
            · next hearly =>
                rw [hentry, Option.some.injEq, BlockSlot.opened.injEq] at hl
                exact ⟨entry, hentry, .inl ⟨hl.symm, fun _ => if_pos hearly⟩⟩
            · next hdue =>
                rw [Manager.setSlot, AList.lookup_insert, Option.some.injEq,
                  BlockSlot.opened.injEq] at hl
                exact ⟨entry, hentry, .inr ⟨rfl, by rw [if_neg hdue]; rfl, hl.symm⟩⟩
    · next hother => exact absurd hl (hother entry')
  · rw [retransmitStale_other hb] at hl
    exact ⟨entry', hl, .inl ⟨rfl, fun heq => absurd heq hb⟩⟩

theorem foldl_retransmitStale_opened {now : Instant} {order : List UInt32} (hnodup : order.Nodup)
    {entry' : BlockState}
    (hl : (order.foldl (retransmitStale now) m).blockStates.lookup b = some (.opened entry')) :
    ∃ entry, m.blockStates.lookup b = some (.opened entry) ∧
      ((entry' = entry ∧ (b ∈ order → m.resend now b = none)) ∨
        (b ∈ order ∧ (m.resend now b).isSome = true ∧ entry' = entry.resent m.now)) := by
  induction order generalizing m with
  | nil => exact ⟨entry', hl, .inl ⟨rfl, nofun⟩⟩
  | cons b₀ order ih =>
      obtain ⟨hnot, hrest⟩ := List.nodup_cons.1 hnodup
      obtain ⟨mid, hmid, hcase⟩ := ih hrest hl
      have hnow : (retransmitStale now m b₀).now = m.now := (retransmitStale_keeps now b₀).now
      obtain ⟨entry, hentry, hfirst⟩ := retransmitStale_opened hmid
      refine ⟨entry, hentry, ?_⟩
      by_cases hb : b = b₀
      · subst hb
        rcases hcase with ⟨rfl, -⟩ | ⟨hmem, -⟩
        · rcases hfirst with ⟨rfl, hnone⟩ | ⟨-, hsome, rfl⟩
          · exact .inl ⟨rfl, fun _ => hnone rfl⟩
          · exact .inr ⟨List.mem_cons_self, hsome, rfl⟩
        · exact absurd hmem hnot
      · -- the first block leaves the entry of this one alone
        have hsame : (retransmitStale now m b₀).resend now b = m.resend now b := by
          rw [Manager.resend, Manager.resend, retransmitStale_other hb]
        rcases hfirst with ⟨rfl, -⟩ | ⟨heq, -⟩
        · rw [hsame, hnow] at hcase
          rcases hcase with ⟨rfl, hnone⟩ | ⟨hmem, hsome, rfl⟩
          · exact .inl ⟨rfl, fun hmem => hnone ((List.mem_cons.1 hmem).resolve_left hb)⟩
          · exact .inr ⟨List.mem_cons_of_mem _ hmem, hsome, rfl⟩
        · exact absurd heq hb

/-- A timeout marks the blocks it resends, and touches no other entry. -/
theorem retransmitStaleBlocks_opened {order : List UInt32} (hnodup : order.Nodup)
    {entry' : BlockState}
    (hl : (retransmitStaleBlocks order m).blockStates.lookup b = some (.opened entry')) :
    ∃ entry, m.blockStates.lookup b = some (.opened entry) ∧
      ((entry' = entry ∧ (b ∈ order → m.resend m.now b = none)) ∨
        (b ∈ order ∧ (m.resend m.now b).isSome = true ∧ entry' = entry.resent m.now)) :=
  foldl_retransmitStale_opened hnodup hl

/-- A `Missing` stamps the entry of its block. -/
theorem handleMissing_opened {ids : List UInt16} {b' : UInt32} {entry' : BlockState}
    (hl : (handleMissing b ids m).blockStates.lookup b' = some (.opened entry')) :
    ∃ entry, m.blockStates.lookup b' = some (.opened entry) ∧
      entry' = { entry with
        lastAckActivity := if b' = b then m.now else entry.lastAckActivity } := by
  obtain ⟨heq, hother⟩ | ⟨entry, hentry, heq⟩ := handleMissing_cases b ids m
  · rw [heq] at hl
    refine ⟨entry', hl, ?_⟩
    rw [if_neg]
    rintro rfl
    exact hother entry' hl
  · rw [heq] at hl
    by_cases hb : b' = b
    · subst hb
      simp only [Manager.send, Manager.setSlot, AList.lookup_insert, Option.some.injEq,
        BlockSlot.opened.injEq] at hl
      exact ⟨entry, hentry, by rw [if_pos rfl]; exact hl.symm⟩
    · simp only [Manager.send, Manager.setSlot, AList.lookup_insert_ne hb] at hl
      exact ⟨entry', hl, by rw [if_neg hb]⟩

theorem handleComplete_opened {b' : UInt32} {entry : BlockState} (h : handleComplete b m = .ok m')
    (hl : m'.blockStates.lookup b' = some (.opened entry)) :
    m.blockStates.lookup b' = some (.opened entry) := by
  rcases handleComplete_inv h with ⟨-, rfl⟩ | ⟨-, hstates, -⟩
  · exact hl
  · rw [hstates, AList.lookup_insert_ite] at hl
    split at hl
    · cases hl
    · exact hl

/-! ## The log -/

/-- The datagrams sent between two states of the manager. -/
def Manager.sentSince (m m' : Manager) : List Datagram :=
  m'.udp.drop m.udp.length

theorem Manager.sentSince_eq {out : List Datagram} (h : m'.udp = m.udp ++ out) :
    m.sentSince m' = out := by
  rw [sentSince, h, List.drop_left]

/-- A repair comes out of the cache of the block. -/
theorem cached_of_repair {ids : List UInt16} {d : Datagram}
    (hd : d ∈ m.sentSince (handleMissing b ids m)) :
    ∃ entry, m.blockStates.lookup b = some (.opened entry) ∧
      ∃ i : ℕ, entry.packets[i]? = some (some d) := by
  obtain ⟨heq, -⟩ | ⟨entry, hl, heq⟩ := handleMissing_cases b ids m
  · rw [heq, Manager.sentSince_eq (List.append_nil _).symm] at hd
    cases hd
  · rw [heq, Manager.sentSince_eq rfl] at hd
    obtain ⟨id, -, hcached⟩ := List.mem_filterMap.1 hd
    exact ⟨entry, hl, _, Option.join_eq_some_iff.1 hcached⟩

/-- What the manager thread does in one step of the loop. -/
def Manager.activity (l : LoopInput) (m m' : Manager) : List Activity :=
  match l with
  | .drain => (m.sentSince m').map .first
  | .disconnected => (m.sentSince m').map .first
  | .event (.chunk _) => (m.sentSince m').map .first
  | .event (.ack (.missing b _)) => .missing b :: (m.sentSince m').map .repair
  | .event (.ack (.complete b)) => [.complete b]
  | .timeout order => order.filterMap fun b => (m.resend m.now b).map (.fallback b)
  | .tick _ => []

def Loop.activity (l : LoopInput) (s s' : Loop) : List (Instant × Activity) :=
  match s.manager?, s'.manager? with
  | some m, some m' => (m.activity l m').map (Prod.mk m.now)
  | _, _ => []

def managerLog (totalChunks : UInt32) (pipelineDepth : ℕ) (ls : List LoopInput) :
    List (Instant × Activity) :=
  (blockManager totalChunks pipelineDepth).outputs Loop.activity ls
    (blockManager totalChunks pipelineDepth).init

/-- The datagrams that `place_chunk` sends. -/
def firstSends (log : List (Instant × Activity)) : List Datagram :=
  log.filterMap fun e => e.2.first?

/-- All datagrams. -/
def allSends (log : List (Instant × Activity)) : List Datagram :=
  log.flatMap fun e => e.2.sent

theorem firstSends_append (log log' : List (Instant × Activity)) :
    firstSends (log ++ log') = firstSends log ++ firstSends log' :=
  List.filterMap_append

theorem allSends_append (log log' : List (Instant × Activity)) :
    allSends (log ++ log') = allSends log ++ allSends log' :=
  List.flatMap_append

theorem firstSends_firsts (now : Instant) (ds : List Datagram) :
    firstSends ((ds.map Activity.first).map (Prod.mk now)) = ds := by
  induction ds with
  | nil => rfl
  | cons d ds ih => exact congrArg (d :: ·) ih

/-- Entries of one datagram each. -/
theorem allSends_each {f : Datagram → Activity} (hf : ∀ d, (f d).sent = [d]) (now : Instant)
    (ds : List Datagram) : allSends ((ds.map f).map (Prod.mk now)) = ds := by
  simp [allSends, List.flatMap_map, hf]

/-- A timeout sends blocks as a whole and nothing else. -/
theorem mem_resends {order : List UInt32} {a : Activity}
    (ha : a ∈ order.filterMap fun b => (m.resend m.now b).map (Activity.fallback b)) :
    ∃ b ds, b ∈ order ∧ m.resend m.now b = some ds ∧ a = .fallback b ds := by
  obtain ⟨b, hb, heq⟩ := List.mem_filterMap.1 ha
  obtain ⟨ds, hds, rfl⟩ := Option.map_eq_some_iff.1 heq
  exact ⟨b, ds, hb, hds, rfl⟩

/-! ## One step -/

/-- The moves of the manager with what they log. -/
inductive LogMove (totalChunks : UInt32) (pipelineDepth : ℕ) :
    LoopInput → Manager → Manager → List Activity → Prop
  | drain {l : LoopInput} {m m' : Manager} (hl : l.chunk? = none)
      (hdrain : drainPending totalChunks pipelineDepth m = .ok m') :
      LogMove totalChunks pipelineDepth l m m' ((m.sentSince m').map .first)
  | chunk {c : EncryptedChunk} {m m' : Manager}
      (hadmitted : admitOrBuffer totalChunks pipelineDepth c m = .ok m') :
      LogMove totalChunks pipelineDepth (.event (.chunk c)) m m' ((m.sentSince m').map .first)
  | missing {b : UInt32} {ids : List UInt16} {m : Manager} :
      LogMove totalChunks pipelineDepth (.event (.ack (.missing b ids))) m (handleMissing b ids m)
        (.missing b :: (m.sentSince (handleMissing b ids m)).map .repair)
  | complete {b : UInt32} {m m' : Manager} (hcomplete : handleComplete b m = .ok m') :
      LogMove totalChunks pipelineDepth (.event (.ack (.complete b))) m m' [.complete b]
  | timeout {order : List UInt32} {m : Manager} (horder : order.Perm m.blockStates.keys) :
      LogMove totalChunks pipelineDepth (.timeout order) m (retransmitStaleBlocks order m)
        (order.filterMap fun b => (m.resend m.now b).map (.fallback b))
  | tick {dt : Duration} {m : Manager} :
      LogMove totalChunks pipelineDepth (.tick dt) m { m with now := m.now + dt } []

theorem Loop.Turn.logMove {l : LoopInput} {s s' : Loop}
    (h : Loop.Turn totalChunks pipelineDepth l s s') (hm' : s'.manager? = some m') :
    ∃ m acts, s.manager? = some m ∧ LogMove totalChunks pipelineDepth l m m' acts ∧
      Loop.activity l s s' = acts.map (Prod.mk m.now) := by
  cases h with
  | exit hdrain => cases hm'; exact ⟨_, _, rfl, .drain rfl hdrain, rfl⟩
  | wait hdrain => cases hm'; exact ⟨_, _, rfl, .drain rfl hdrain, rfl⟩
  | disconnectedExit hdrain => cases hm'; exact ⟨_, _, rfl, .drain rfl hdrain, rfl⟩
  | disconnectedError hdrain => cases hm'; exact ⟨_, _, rfl, .drain rfl hdrain, rfl⟩
  | @event _ _ _ e hevent =>
      cases hm'
      cases e with
      | chunk c => exact ⟨_, _, rfl, .chunk hevent, rfl⟩
      | ack ack =>
          cases ack with
          | missing b ids => cases hevent; exact ⟨_, _, rfl, .missing, rfl⟩
          | complete b => exact ⟨_, _, rfl, .complete hevent, rfl⟩
  | timeout _ horder => cases hm'; exact ⟨_, _, rfl, .timeout horder, rfl⟩
  | tickHead => cases hm'; exact ⟨_, _, rfl, .tick, rfl⟩
  | tickWait => cases hm'; exact ⟨_, _, rfl, .tick, rfl⟩
  | drainPanic => cases hm'
  | eventPanic => cases hm'
  | disconnectedPanic => cases hm'

/-- What is logged as sent is what is sent. -/
theorem LogMove.udp {l : LoopInput} {acts : List Activity}
    (h : LogMove totalChunks pipelineDepth l m m' acts) :
    m'.udp = m.udp ++ allSends (acts.map (Prod.mk m.now)) := by
  have hprefix : ∀ {m m' : Manager}, Keeps m m' → m'.udp = m.udp ++ m.sentSince m' := by
    intro m m' hkeeps
    obtain ⟨out, hout⟩ := hkeeps.udp
    rw [Manager.sentSince_eq hout.symm, hout]
  cases h with
  | drain _ hdrain => rw [allSends_each fun _ => rfl]; exact hprefix (drainRounds_keeps hdrain)
  | chunk hadmitted => rw [allSends_each fun _ => rfl]; exact hprefix (admitOrBuffer_keeps hadmitted)
  | @missing b ids =>
      have hsent := hprefix (handleMissing_keeps (m := m) b ids)
      exact hsent.trans (congrArg _ (allSends_each (fun _ => rfl) _ _).symm)
  | complete hcomplete =>
      rcases handleComplete_inv hcomplete with ⟨-, rfl⟩ | ⟨-, -, -, hudp, -⟩
      · simp [allSends, Activity.sent]
      · simp [allSends, Activity.sent, hudp]
  | @timeout order _ horder =>
      have hnodup : order.Nodup := horder.nodup_iff.2 m.blockStates.nodupKeys
      rw [retransmitStaleBlocks_udp hnodup]
      congr 1
      clear horder hnodup
      induction order with
      | nil => rfl
      | cons b order ih =>
          rw [List.filterMap_cons, List.filterMap_cons]
          cases m.resend m.now b with
          | none => exact ih
          | some ds => exact congrArg (ds ++ ·) ih
  | tick => simp [allSends]

/-! ## Along a run -/

/-- **Run rule.** What holds at the start and survives every logged move of a run with orderly
    events holds of the history, the log and the manager. -/
theorem managerLog_rule {P : List LoopInput → List (Instant × Activity) → Manager → Prop}
    (hinit : P [] [] .init)
    (hstep : ∀ ls log m l m' acts, Bookkeeping totalChunks pipelineDepth
      (bucketSet (handledChunks ls)) m → Orderly totalChunks (ls ++ [l]) → P ls log m →
      LogMove totalChunks pipelineDepth l m m' acts →
      P (ls ++ [l]) (log ++ acts.map (Prod.mk m.now)) m')
    {ls : List LoopInput} {s : Loop} (hrun : (blockManager totalChunks pipelineDepth).Reaches ls s)
    (horderly : Orderly totalChunks ls) (hm : s.manager? = some m) :
    P ls (managerLog totalChunks pipelineDepth ls) m := by
  refine hrun.outputs (P := fun ls log s => Orderly totalChunks ls →
    ∀ m, s.manager? = some m → P ls log m) ?_ ?_ horderly m hm
  · intro _ m hm
    cases hm
    exact hinit
  · intro ls log s l s' hrun ih _ hs horderly m' hm'
    obtain ⟨m, acts, hm, hmove, hlog⟩ := (Loop.turn_of_step hs).logMove hm'
    obtain ⟨m₀, hm₀, hbooks⟩ := bookkeeping_of_reaches hrun horderly.of_snoc.1
    rw [hm] at hm₀
    cases hm₀
    rw [hlog]
    exact hstep ls log m l m' acts hbooks horderly (ih horderly.of_snoc.1 m hm) hmove

/-- The log of an earlier moment of the run is the beginning of the log. -/
theorem managerLog_prefix {ls₀ ls : List LoopInput} {s : Loop} (hpre : ls₀ <+: ls)
    (hrun : (blockManager totalChunks pipelineDepth).Reaches ls₀ s) :
    managerLog totalChunks pipelineDepth ls₀ <+: managerLog totalChunks pipelineDepth ls := by
  obtain ⟨later, rfl⟩ := hpre
  rw [managerLog, managerLog, Lts.outputs_append hrun.exec_eq]
  exact List.prefix_append _ _

/-- The datagrams of the log are those handed to `udp.send`. -/
theorem managerLog_sent {ls : List LoopInput} {s : Loop}
    (hrun : (blockManager totalChunks pipelineDepth).Reaches ls s)
    (horderly : Orderly totalChunks ls) (hm : s.manager? = some m) :
    allSends (managerLog totalChunks pipelineDepth ls) = m.udp := by
  refine managerLog_rule (P := fun _ log m => allSends log = m.udp) rfl ?_ hrun horderly hm
  intro _ log m l m' acts _ _ ih hmove
  rw [allSends_append, ih, hmove.udp]

end SecureTransfer.Sender
