import SecureTransfer.Transfer.System

set_option autoImplicit false

/-! # A transfer is a run of each party

`Parties` takes a run of the composed system apart: the block manager has made a run of its own, the
receiver has made a run of its own, and the event channel, the control stream and the wire account
for everything the one has of the other. Whatever is known of the runs of one party therefore holds
in the whole system. -/

namespace SecureTransfer.Transfer

open Sender Receiver

variable {setup : Setup} {upload : Upload setup.expectedChunks} {ls : List Label} {l : Label}
  {w w' : World} {inputs : List LoopInput} {labels : List Receiver.Label}

/-! ## What a step leaves behind -/

theorem handleEvent_udp {totalChunks : UInt32} {depth : ℕ} {e : SenderEvent} {m m' : Manager}
    (h : handleEvent totalChunks depth e m = .ok m') : m.udp <+: m'.udp := by
  cases e with
  | chunk c => exact (admitOrBuffer_keeps h).udp
  | ack ack =>
      cases ack with
      | missing b missing =>
          cases h
          exact (handleMissing_keeps b missing).udp
      | complete b =>
          rcases handleComplete_inv h with ⟨_, rfl⟩ | ⟨_, _, _, hudp, _⟩
          · exact List.prefix_rfl
          · rw [hudp]

/-- Unless it panics, the manager only ever adds to what it has sent. -/
theorem sentDatagrams_extend {totalChunks : UInt32} {depth : ℕ} {l : LoopInput} {s s' : Loop}
    {m' : Manager} (h : Loop.Turn totalChunks depth l s s') (hm' : s'.manager? = some m') :
    sentDatagrams s <+: sentDatagrams s' := by
  obtain ⟨m, hm, hmove⟩ := h.managerMove hm'
  rw [sentDatagrams, sentDatagrams, hm, hm', Option.elim_some, Option.elim_some]
  cases hmove with
  | drain _ hdrain => exact (drainRounds_keeps hdrain).udp
  | event hevent => exact handleEvent_udp hevent
  | timeout => exact (retransmitStaleBlocks_keeps _).udp
  | tick => exact List.prefix_rfl

theorem acks_extend {l : Receiver.Label} {r r' : Threads} (h : Threads.Turn setup l r r') :
    r.control.acks <+: r'.control.acks := by
  cases h with
  | ack hmove =>
      cases hmove with
      | complete => exact List.prefix_append _ _
      | giveUp => exact List.prefix_append _ _
      | missing => exact List.prefix_append _ _
      | _ => exact List.prefix_rfl
  | _ => exact List.prefix_rfl

/-! ## The event channel -/

def LoopInput.ack? : LoopInput → Option BlockAck
  | .event (.ack ack) => some ack
  | _ => none

/-- The acks handled in a run of the manager. -/
def handledAcks (inputs : List LoopInput) : List BlockAck :=
  inputs.filterMap LoopInput.ack?

def SenderEvent.chunk? : SenderEvent → Option EncryptedChunk
  | .chunk c => some c
  | .ack _ => none

def SenderEvent.ack? : SenderEvent → Option BlockAck
  | .chunk _ => none
  | .ack ack => some ack

theorem handledAcks_snoc (inputs : List LoopInput) (l : LoopInput) :
    handledAcks (inputs ++ [l]) = handledAcks inputs ++ (LoopInput.ack? l).toList := by
  rw [handledAcks, List.filterMap_append]
  rfl

def LoopInput.event? : LoopInput → Option SenderEvent
  | .event e => some e
  | _ => none

theorem LoopInput.chunk?_eq (l : LoopInput) : l.chunk? = (event? l).bind SenderEvent.chunk? := by
  cases l with
  | event e => cases e <;> rfl
  | _ => rfl

theorem LoopInput.ack?_eq (l : LoopInput) : ack? l = (event? l).bind SenderEvent.ack? := by
  cases l with
  | event e => cases e <;> rfl
  | _ => rfl

/-- What the manager takes from the channel is handled, and nothing else leaves the channel. -/
theorem taken {α : Type} (f : SenderEvent → Option α) {l : LoopInput} (h : w.admits l = true) :
    ((LoopInput.event? l).bind f).toList ++ (eventsAfter l w.events).filterMap f
      = w.events.filterMap f := by
  cases l with
  | event e =>
      have hhead : w.events.head? = some e := by simpa [World.admits] using h
      obtain ⟨rest, hrest⟩ := List.head?_eq_some_iff.1 hhead
      rw [hrest, List.filterMap_cons, LoopInput.event?, Option.bind_some, eventsAfter,
        List.tail_cons]
      cases f e <;> rfl
  | _ => rfl

/-! ## The parties -/

/-- The runs `inputs` of the manager and `labels` of the receiver that a run `ls` of the whole
    system consists of, and what is between the two. -/
structure Parties (setup : Setup) (upload : Upload setup.expectedChunks) (ls : List Label)
    (w : World) (inputs : List LoopInput) (labels : List Receiver.Label) : Prop where
  sender : (blockManager setup.expectedChunks pipelineDepth).Reaches inputs w.sender
  receiver : (Receiver.receiver setup).Reaches labels w.receiver
  chunks : (handledChunks inputs ++ w.events.filterMap SenderEvent.chunk? ++ w.upstream).Perm
    upload.chunks
  acks : handledAcks inputs ++ w.events.filterMap SenderEvent.ack?
    = w.receiver.control.acks.take w.acksRead
  acksRead : w.acksRead ≤ w.receiver.control.acks.length
  wire : ∀ d ∈ w.wire, d ∈ sentDatagrams w.sender
  arrived : ∀ l ∈ labels, (∃ d ∈ sentDatagrams w.sender, l = .datagram d) ∨
    (isLocal l = true ∧ .receiver l ∈ ls)

theorem Parties.init :
    Parties setup upload [] (transfer setup upload).init [] [] where
  sender := .nil
  receiver := .nil
  chunks := by simp [handledChunks, transfer]
  acks := rfl
  acksRead := Nat.zero_le _
  wire := nofun
  arrived := nofun

/-- The events of the manager are orderly: the relay passes each chunk on once. -/
theorem orderly_of_perm {pending : List EncryptedChunk}
    (h : (handledChunks inputs ++ pending).Perm upload.chunks) :
    Orderly setup.expectedChunks inputs := by
  constructor
  · have hnodup : ((handledChunks inputs ++ pending).map EncryptedChunk.chunkId).Nodup :=
      (h.map _).nodup_iff.2 upload.distinct
    rw [List.map_append] at hnodup
    exact (List.nodup_append.1 hnodup).1
  · exact fun c hc => upload.below c (h.mem_iff.1 (List.mem_append_left _ hc))

theorem Parties.orderly (h : Parties setup upload ls w inputs labels) :
    Orderly setup.expectedChunks inputs := by
  have hchunks := h.chunks
  rw [List.append_assoc] at hchunks
  exact orderly_of_perm hchunks

/-- The manager has not panicked, and its books are in order. -/
theorem Parties.books (h : Parties setup upload ls w inputs labels) :
    ∃ m, w.sender.manager? = some m ∧
      Bookkeeping setup.expectedChunks pipelineDepth (bucketSet (handledChunks inputs)) m :=
  bookkeeping_of_reaches h.sender h.orderly

theorem Parties.sent_eq {m : Manager} (hm : w.sender.manager? = some m) :
    sentDatagrams w.sender = m.udp := by
  rw [sentDatagrams, hm]
  rfl

/-- More labels, with the manager having sent the same or more. -/
theorem Parties.arrived_mono (h : Parties setup upload ls w inputs labels) {s : Loop} (l : Label)
    (hsent : sentDatagrams w.sender ⊆ sentDatagrams s) :
    ∀ l' ∈ labels, (∃ d ∈ sentDatagrams s, l' = .datagram d) ∨
      (isLocal l' = true ∧ .receiver l' ∈ ls ++ [l]) :=
  fun l' hl' => (h.arrived l' hl').imp (fun ⟨d, hd, heq⟩ => ⟨d, hsent hd, heq⟩)
    (And.imp_right (List.mem_append_left _))

/-- The receiver moves on. -/
theorem Parties.receiverStep (h : Parties setup upload ls w inputs labels) {l' : Receiver.Label}
    {r : Threads} {wire : List Datagram}
    (hstep : (Receiver.receiver setup).step l' w.receiver = some r)
    (hwire : ∀ d ∈ wire, d ∈ w.wire)
    (horigin : (∃ d ∈ sentDatagrams w.sender, l' = .datagram d) ∨
      (isLocal l' = true ∧ .receiver l' ∈ ls ++ [l])) :
    Parties setup upload (ls ++ [l]) { w with wire := wire, receiver := r } inputs
      (labels ++ [l']) where
  sender := h.sender
  receiver := h.receiver.snoc trivial hstep
  chunks := h.chunks
  acks := by
    obtain ⟨more, hmore⟩ := acks_extend (Threads.turn_of_step hstep)
    rw [h.acks, ← hmore, List.take_append_of_le_length h.acksRead]
  acksRead := h.acksRead.trans (acks_extend (Threads.turn_of_step hstep)).length_le
  wire := fun d hd => h.wire d (hwire d hd)
  arrived := by
    intro l'' hl''
    rcases List.mem_append.1 hl'' with hl'' | hl''
    · exact h.arrived_mono l (List.Subset.refl _) l'' hl''
    · cases List.mem_singleton.1 hl''
      exact horigin

/-- The network or a relay moves. -/
theorem Parties.relayed (h : Parties setup upload ls w inputs labels) {upstream : List EncryptedChunk}
    {events : List SenderEvent} {wire : List Datagram} {acksRead : ℕ}
    (hchunks : (events.filterMap SenderEvent.chunk? ++ upstream).Perm
      (w.events.filterMap SenderEvent.chunk? ++ w.upstream))
    (hacks : handledAcks inputs ++ events.filterMap SenderEvent.ack?
      = w.receiver.control.acks.take acksRead)
    (hread : acksRead ≤ w.receiver.control.acks.length) (hwire : ∀ d ∈ wire, d ∈ w.wire) :
    Parties setup upload (ls ++ [l])
      { w with upstream := upstream, events := events, wire := wire, acksRead := acksRead }
      inputs labels where
  sender := h.sender
  receiver := h.receiver
  chunks := by
    have hold := h.chunks
    rw [List.append_assoc] at hold ⊢
    exact (hchunks.append_left _).trans hold
  acks := hacks
  acksRead := hread
  wire := fun d hd => h.wire d (hwire d hd)
  arrived := h.arrived_mono l (List.Subset.refl _)

/-- The manager moves. -/
theorem Parties.senderStep (h : Parties setup upload ls w inputs labels) {l' : LoopInput} {s : Loop}
    (hadmits : w.admits l' = true)
    (hstep : (blockManager setup.expectedChunks pipelineDepth).step l' w.sender = some s) :
    Parties setup upload (ls ++ [l])
      { w with
        events := eventsAfter l' w.events
        sender := s
        wire := w.wire ++ (sentDatagrams s).drop (sentDatagrams w.sender).length }
      (inputs ++ [l']) labels := by
  have hchunks : (handledChunks (inputs ++ [l'])
      ++ (eventsAfter l' w.events).filterMap SenderEvent.chunk? ++ w.upstream).Perm upload.chunks := by
    rw [handledChunks_snoc, List.append_assoc (handledChunks inputs), LoopInput.chunk?_eq,
      taken _ hadmits]
    exact h.chunks
  have hsender := h.sender.snoc trivial hstep
  have horderly : Orderly setup.expectedChunks (inputs ++ [l']) := by
    rw [List.append_assoc] at hchunks
    exact orderly_of_perm hchunks
  obtain ⟨m, hm, _⟩ := bookkeeping_of_reaches hsender horderly
  have hsent := sentDatagrams_extend (Loop.turn_of_step hstep) hm
  exact
    { sender := hsender
      receiver := h.receiver
      chunks := hchunks
      acks := by
        rw [handledAcks_snoc, List.append_assoc, LoopInput.ack?_eq, taken _ hadmits]
        exact h.acks
      acksRead := h.acksRead
      wire := fun d hd => (List.mem_append.1 hd).elim (fun hd => hsent.subset (h.wire d hd))
        List.mem_of_mem_drop
      arrived := h.arrived_mono l hsent.subset }

/-! ## Taking a run apart -/

def Label.sender? : Label → Option LoopInput
  | .sender l => some l
  | _ => none

def Label.receiver? : Label → Option Receiver.Label
  | .receiver l => some l
  | .deliver d => some (.datagram d)
  | _ => none

/-- What the manager has done in a run. -/
def senderInputs (ls : List Label) : List LoopInput :=
  ls.filterMap Label.sender?

/-- What the receiver has done in a run. -/
def receiverLabels (ls : List Label) : List Receiver.Label :=
  ls.filterMap Label.receiver?

theorem senderInputs_snoc (ls : List Label) (l : Label) :
    senderInputs (ls ++ [l]) = senderInputs ls ++ l.sender?.toList := by
  rw [senderInputs, List.filterMap_append]
  rfl

theorem receiverLabels_snoc (ls : List Label) (l : Label) :
    receiverLabels (ls ++ [l]) = receiverLabels ls ++ l.receiver?.toList := by
  rw [receiverLabels, List.filterMap_append]
  rfl

/-- **Decomposition.** Every run of the composed system is a run of each party. -/
theorem Parties.of_reaches (hrun : (transfer setup upload).Reaches ls w) :
    Parties setup upload ls w (senderInputs ls) (receiverLabels ls) := by
  refine hrun.history (P := fun ls w => Parties setup upload ls w (senderInputs ls)
    (receiverLabels ls)) .init ?_
  intro ls w l w' _ h _ hstep
  rw [senderInputs_snoc, receiverLabels_snoc]
  cases World.move_of_step hstep with
  | @chunkRelay _ c hc =>
      simp only [Label.sender?, Label.receiver?, Option.toList_none, List.append_nil]
      refine h.relayed ?_ ?_ h.acksRead fun _ hd => hd
      · rw [List.filterMap_append, List.append_assoc]
        exact ((List.perm_cons_erase hc).symm).append_left _
      · rw [List.filterMap_append]
        simpa [List.filterMap_cons, SenderEvent.ack?] using h.acks
  | @ackRelay _ ack hack =>
      have hlt : w.acksRead < w.receiver.control.acks.length :=
        (List.getElem?_eq_some_iff.1 hack).1
      simp only [Label.sender?, Label.receiver?, Option.toList_none, List.append_nil]
      refine h.relayed ?_ ?_ hlt fun _ hd => hd
      · rw [List.filterMap_append]
        simp [List.filterMap_cons, SenderEvent.chunk?]
      · rw [List.filterMap_append, ← List.append_assoc, h.acks, List.take_add_one, hack]
        rfl
  | sender hadmits hmove =>
      simp only [Label.sender?, Label.receiver?, Option.toList_none, Option.toList_some,
        List.append_nil]
      exact h.senderStep hadmits hmove
  | receiver hlocal hmove =>
      simp only [Label.sender?, Label.receiver?, Option.toList_none, Option.toList_some,
        List.append_nil]
      exact h.receiverStep hmove (fun _ hd => hd) (.inr ⟨hlocal, by simp⟩)
  | @deliver _ d _ hd hmove =>
      simp only [Label.sender?, Label.receiver?, Option.toList_none, Option.toList_some,
        List.append_nil]
      exact h.receiverStep hmove (fun _ hd' => List.mem_of_mem_erase hd') (.inl ⟨d, h.wire d hd, rfl⟩)
  | lose hd =>
      simp only [Label.sender?, Label.receiver?, Option.toList_none, List.append_nil]
      exact h.relayed (List.Perm.refl _) h.acks h.acksRead fun _ hd' => List.mem_of_mem_erase hd'
  | @duplicate _ d hd =>
      simp only [Label.sender?, Label.receiver?, Option.toList_none, List.append_nil]
      refine h.relayed (List.Perm.refl _) h.acks h.acksRead fun d' hd' => ?_
      rcases List.mem_cons.1 hd' with rfl | hd'
      · exact hd
      · exact hd'

theorem parties_of_reaches (hrun : (transfer setup upload).Reaches ls w) :
    ∃ inputs labels, Parties setup upload ls w inputs labels :=
  ⟨_, _, .of_reaches hrun⟩

/-- The receiver takes no step of its own that the whole system has not taken. -/
theorem Parties.not_mem_labels (h : Parties setup upload ls w inputs labels)
    {l' : Receiver.Label} (hlocal : ∀ d, l' ≠ .datagram d) (hl' : Label.receiver l' ∉ ls) :
    l' ∉ labels := by
  intro hmem
  rcases h.arrived _ hmem with ⟨d, _, hd⟩ | ⟨_, hmem⟩
  · exact hlocal d hd
  · exact hl' hmem

end SecureTransfer.Transfer
