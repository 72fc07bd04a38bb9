import SecureTransfer.Receiver.Missing
import SecureTransfer.Sender.Repair
import SecureTransfer.Transfer.EarlyGiveUp

set_option autoImplicit false

/-! # Repairs

A `Missing` comes out of one snapshot of the tracker and goes, some time later, into the cache of
the sender. `Snapshotted` finds the snapshot of every ack in the run; what it lists is
`Control.Unverified`, and what the manager does with it is `handleMissing_repairs`. -/

namespace SecureTransfer.Transfer

open Sender Receiver

variable {setup : Setup} {upload : Upload setup.expectedChunks} {ls ls₀ : List Label} {w w₀ : World}
  {k : ℕ} {b : UInt32} {ids : List UInt16}

/-! ## The snapshot of an ack -/

/-- In the run `ls`, in state `w₀`, `snapshot_and_tick` of the block finds `ids` missing; the next
    ack written is number `k`. -/
structure Snapshotted (setup : Setup) (upload : Upload setup.expectedChunks) (ls : List Label)
    (k : ℕ) (b : UInt32) (ids : List UInt16) (ls₀ : List Label) (w₀ : World) : Prop where
  before : ls₀ ++ [.receiver (.ack .next)] <+: ls
  reached : (transfer setup upload).Reaches ls₀ w₀
  number : w₀.receiver.control.acks.length = k
  taken : ∃ rest snapshot shared, w₀.receiver.control.ack = .checking (b :: rest) ∧
    w₀.receiver.control.shared.snapshotAndTick b w₀.receiver.now = some (snapshot, shared) ∧
    snapshot.missing = ids

theorem Snapshotted.mono (h : Snapshotted setup upload ls k b ids ls₀ w₀) (l : Label) :
    Snapshotted setup upload (ls ++ [l]) k b ids ls₀ w₀ :=
  { h with before := h.before.trans (List.prefix_append _ _) }

/-- Every ack that is being written, and every `Missing` that has been, has its snapshot. -/
structure Recorded (setup : Setup) (upload : Upload setup.expectedChunks) (ls : List Label)
    (c : Control) : Prop where
  acking : ∀ b snapshot rest, c.ack = .acking b snapshot rest →
    ∃ ls₀ w₀, Snapshotted setup upload ls c.acks.length b snapshot.missing ls₀ w₀
  written : ∀ k b ids, c.acks[k]? = some (.missing b ids) →
    ∃ ls₀ w₀, Snapshotted setup upload ls k b ids ls₀ w₀

theorem Recorded.init : Recorded setup upload [] .init where
  acking := nofun
  written := nofun

theorem Recorded.mono {c : Control} (h : Recorded setup upload ls c) (l : Label) :
    Recorded setup upload (ls ++ [l]) c where
  acking := fun b snapshot rest hpc =>
    let ⟨ls₀, w₀, hs⟩ := h.acking b snapshot rest hpc
    ⟨ls₀, w₀, hs.mono l⟩
  written := fun k b ids hk =>
    let ⟨ls₀, w₀, hs⟩ := h.written k b ids hk
    ⟨ls₀, w₀, hs.mono l⟩

theorem Recorded.receiverStep (hrun : (transfer setup upload).Reaches ls w)
    (h : Recorded setup upload ls w.receiver.control) {l : Label} {l' : Receiver.Label} {c' : Control}
    (hl : l' = .ack .next → l = .receiver l') (hmove : ControlMove setup w.receiver l' c') :
    Recorded setup upload (ls ++ [l]) c' where
  acking := by
    intro b snapshot rest hpc
    obtain ⟨hacks, hold | ⟨hnext, hchecking, shared, hsome⟩⟩ := hmove.acking hpc
    · rw [hacks]
      exact (h.mono l).acking b snapshot rest hold
    · refine ⟨ls, w, ?_, hrun, by rw [hacks], rest, snapshot, shared, hchecking, hsome, rfl⟩
      rw [hl hnext, hnext]
  written := by
    intro k b ids hk
    rcases hmove.missing hk with hold | ⟨rfl, snapshot, rest, hpc, rfl⟩
    · exact (h.mono l).written k b ids hold
    · exact (h.mono l).acking b snapshot rest hpc

theorem recorded_of_reaches (hrun : (transfer setup upload).Reaches ls w) :
    Recorded setup upload ls w.receiver.control := by
  refine hrun.history (P := fun ls w => Recorded setup upload ls w.receiver.control)
    .init ?_
  intro ls w l w' hrun ih _ hstep
  cases World.move_of_step hstep with
  | receiver _ hmove => exact ih.receiverStep hrun (fun _ => rfl) (Threads.turn_of_step hmove).control
  | @deliver _ d _ _ hmove =>
      refine ih.receiverStep hrun ?_ (Threads.turn_of_step (l := .datagram d) hmove).control
      exact nofun
  | _ => exact ih.mono _

/-- What a `Missing` lists had not been verified at its snapshot, and nothing else of the block. -/
theorem Snapshotted.unverified (h : Snapshotted setup upload ls k b ids ls₀ w₀) :
    w₀.receiver.control.Unverified setup.expectedChunks b ids := by
  obtain ⟨rest, snapshot, shared, -, hsome, rfl⟩ := h.taken
  obtain ⟨entry, ht, -, rfl⟩ := snapshotAndTick_eq_some hsome
  exact unverified_of_tracked (Parties.of_reaches h.reached).entriesFit ht

/-! ## The repair -/

/-- The datagrams that `place_chunk` has sent in a run. -/
def firstSent (setup : Setup) (ls : List Label) : List Datagram :=
  firstSends (managerLog setup.expectedChunks pipelineDepth (senderInputs ls))

theorem Upload.isPacket {total : UInt32} (upload : Upload total) {c : EncryptedChunk}
    (hc : c ∈ upload.chunks) : IsPacket c := by
  obtain ⟨hash, payload, -, hpacket⟩ := upload.packet c hc
  exact ⟨hash, payload, hpacket⟩

/-- **Repair exactness.** Each `Missing` lists, in ascending order, exactly the packets of its block
    that had not been verified at the snapshot it was made from. And if the manager handles a
    `Missing` of an `Open` block, it is one of those written, and the manager sends exactly one
    datagram for each packet listed whose chunk has been placed, in the order of the list: the one
    that was sent first for it. After the `BlockEnd` these are all of them. -/
theorem repair_exact (hrun : (transfer setup upload).Reaches ls w) :
    (∀ k b ids, w.receiver.control.acks[k]? = some (.missing b ids) →
      ∃ ls₀ w₀, Snapshotted setup upload ls k b ids ls₀ w₀ ∧
        w₀.receiver.control.Unverified setup.expectedChunks b ids) ∧
    ∀ deadline m b ids entry w', w.sender = .wait deadline m →
      m.blockStates.lookup b = some (.opened entry) →
      World.step setup (.sender (.event (.ack (.missing b ids)))) w = some w' →
      .missing b ids ∈ w.receiver.control.acks ∧
      (∀ id, entry.hasPlaced id = true ↔ ∃ d, FirstSend (firstSent setup ls) b id d) ∧
      (entry.endEmitted = true → ids.filter entry.hasPlaced = ids) ∧
      ∃ out, sentDatagrams w'.sender = sentDatagrams w.sender ++ out ∧ w'.wire = w.wire ++ out ∧
        List.Forall₂ (FirstSend (firstSent setup ls) b) (ids.filter entry.hasPlaced) out := by
  have hwritten : ∀ k b ids, w.receiver.control.acks[k]? = some (.missing b ids) →
      ∃ ls₀ w₀, Snapshotted setup upload ls k b ids ls₀ w₀ ∧
        w₀.receiver.control.Unverified setup.expectedChunks b ids := by
    intro k b ids hk
    obtain ⟨ls₀, w₀, hs⟩ := (recorded_of_reaches hrun).written k b ids hk
    exact ⟨ls₀, w₀, hs, hs.unverified⟩
  refine ⟨hwritten, fun deadline m b ids entry w' hwait hl hstep => ?_⟩
  have h := Parties.of_reaches hrun
  have hm : w.sender.manager? = some m := by rw [hwait]; rfl
  obtain ⟨m', hm', hbooks⟩ := h.books
  rw [hm, Option.some.injEq] at hm'
  subst hm'
  have hhandled : ∀ c ∈ handledChunks (senderInputs ls), IsPacket c :=
    fun c hc => upload.isPacket (h.handled_mem hc)
  have hpackets : ∀ c ∈ bucketSet (handledChunks (senderInputs ls)), IsPacket c := hhandled
  have hfirsts := (traced_of_reaches h.sender h.orderly hhandled hm).firsts
  -- the ack at the head of the event channel is one that the receiver has written
  cases World.move_of_step hstep with
  | @sender _ _ s hadmits hmove =>
      have htaken : .missing b ids ∈ w.events.filterMap SenderEvent.ack? := by
        rw [← taken _ hadmits]
        exact List.mem_cons_self
      have hmem : .missing b ids ∈ w.receiver.control.acks := by
        refine List.mem_of_mem_take (i := w.acksRead) ?_
        rw [← h.acks]
        exact List.mem_append_right _ htaken
      have hs : s = .head (handleMissing b ids m) := by
        rw [hwait] at hmove
        exact (Option.some.inj hmove).symm
      obtain ⟨out, hout, hrepairs⟩ := handleMissing_repairs hfirsts hbooks hpackets hl ids
      have hsent : sentDatagrams s = sentDatagrams w.sender ++ out := by
        rw [hs, Parties.sent_eq hm]
        exact hout
      refine ⟨hmem, fun id => ?_, fun hended => ?_, out, hsent, ?_, hrepairs⟩
      · rw [BlockState.hasPlaced, Option.isSome_iff_exists]
        exact exists_congr fun d => hfirsts.cachedPacket_iff hbooks hpackets hl
      · refine List.filter_eq_self.2 fun id hid => ?_
        obtain ⟨k, hk⟩ := List.mem_iff_getElem?.1 hmem
        obtain ⟨ls₀, w₀, -, hlisted⟩ := hwritten k b ids hk
        have hentry : EntryOk setup.expectedChunks _ b entry := hbooks.slots _ _ hl
        exact hentry.hasPlaced hended ((hlisted.exact id).1 hid).1
      · rw [hsent, List.drop_left]

/-- The packet is overtaken by the `BlockEnd`, and the receiver asks for it. -/
def missingRun : List Label :=
  threeBytesSent ++ [.sender .drain, .receiver .udpLoop, .deliver (BlockEndPacket.encode 0 1),
    .receiver (.tick (fromMillis 100)), .receiver (.ack (.poll [0])), .receiver (.ack .next),
    .receiver (.ack .write), .ackRelay]

/-- The manager waits with the block `Open` and its `BlockEnd` out. -/
def waitsEnded (b : UInt32) : Loop → Bool
  | .wait _ m =>
    match m.blockStates.lookup b with
    | some (.opened entry) => entry.endEmitted
    | _ => false
  | _ => false

theorem waitsEnded_iff {s : Loop} : waitsEnded b s = true ↔ ∃ deadline m entry,
    s = .wait deadline m ∧ m.blockStates.lookup b = some (.opened entry) ∧
      entry.endEmitted = true := by
  cases s with
  | wait deadline m =>
      rw [waitsEnded]
      split
      · next entry hl => simp [hl]
      · next hother => simpa using fun entry hl => absurd hl (hother entry)
  | _ => simp [waitsEnded]

/-- The packet is sent once more. -/
theorem repair_exact_threeBytes :
    ∃ w w' d, (transfer threeBytes.setup threeBytes.upload).Reaches missingRun w ∧
      World.step threeBytes.setup (.sender (.event (.ack (.missing 0 [0])))) w = some w' ∧
      FirstSend (firstSent threeBytes.setup missingRun) 0 0 d ∧
      sentDatagrams w'.sender = sentDatagrams w.sender ++ [d] := by
  obtain ⟨w, hw, hended, hsome⟩ := Lts.exists_exec (transfer threeBytes.setup threeBytes.upload)
    missingRun (fun w => waitsEnded 0 w.sender = true ∧
      (World.step threeBytes.setup (.sender (.event (.ack (.missing 0 [0])))) w).isSome = true)
    (by decide +kernel)
  obtain ⟨deadline, m, entry, hwait, hl, hend⟩ := waitsEnded_iff.1 hended
  obtain ⟨w', hstep⟩ := Option.isSome_iff_exists.1 hsome
  have hrun := Lts.reaches_of_exec hw
  obtain ⟨-, -, hall, out, hsent, -, hrepairs⟩ :=
    (repair_exact hrun).2 deadline m 0 [0] entry w' hwait hl hstep
  rw [hall hend] at hrepairs
  obtain ⟨d, rest, hfirst, hnil, rfl⟩ := List.forall₂_cons_left_iff.1 hrepairs
  rw [List.forall₂_nil_left_iff.1 hnil] at hsent
  exact ⟨w, w', d, hrun, hstep, hfirst, hsent⟩

end SecureTransfer.Transfer
