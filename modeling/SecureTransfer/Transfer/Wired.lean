import SecureTransfer.Lib.FramedChannel
import SecureTransfer.Lib.Simulation
import SecureTransfer.Receiver.AckLengths
import SecureTransfer.Receiver.Conservation
import SecureTransfer.Transfer.Parties

set_option autoImplicit false

/-! # The control stream, byte by byte

The composed system hands the acks to `ack_relay` one by one. Here the ack manager writes bytes
(`write_to`), the bytes arrive singly, and `ack_relay` puts them together again (`read_from`), each
`read_exact` a step of its own. Both systems reach the same states: what is known of the one is known
of the other. -/

namespace SecureTransfer.Transfer

open BigEndian Script Sender Receiver

/-! ## `BlockAck::read_from` -/

def recvIds : ℕ → Script IoError UInt8 (List UInt16)
  | 0 => pure []
  | n + 1 => do
    let idBuf ← recvExact 2
    let ids ← recvIds n
    pure (UInt16.ofNat (ofBe idBuf) :: ids)

def readFrom : Script IoError UInt8 BlockAck := do
  let tag ← recvExact 1
  let blockIdBuf ← recvExact 4
  let blockId := UInt32.ofNat (ofBe blockIdBuf)
  if tag.headD 0 = ctrlBlockComplete then
    pure (.complete blockId)
  else if tag.headD 0 = ctrlBlockAck then do
    let countBuf ← recvExact 4
    let missing ← recvIds (UInt32.ofNat (ofBe countBuf)).toNat
    pure (.missing blockId missing)
  else
    fail (.invalidData ("unknown control tag " ++ hexAlternate (tag.headD 0)))

theorem reader_recvIds (n : ℕ) :
    (recvIds n).reader .unexpectedEof = Reader.many readU16 n := by
  induction n with
  | zero => rfl
  | succ n ih =>
      rw [recvIds, reader_bind, reader_recvExact, Reader.many, readU16, bind_assoc]
      refine congrArg _ (funext fun idBuf => ?_)
      rw [reader_bind, ih, pure_bind]
      rfl

theorem reader_readFrom : readFrom.reader .unexpectedEof = BlockAck.readFrom := by
  rw [readFrom, reader_bind, reader_recvExact, BlockAck.readFrom, readU8, bind_assoc]
  refine congrArg _ (funext fun tag => ?_)
  rw [reader_bind, reader_recvExact, pure_bind, readU32, bind_assoc]
  refine congrArg _ (funext fun blockIdBuf => ?_)
  rw [pure_bind]
  dsimp only
  split
  · rfl
  · split
    · rw [reader_bind, reader_recvExact, bind_assoc]
      refine congrArg _ (funext fun countBuf => ?_)
      rw [reader_bind, reader_recvIds, pure_bind]
      rfl
    · rfl

theorem framing_blockAck :
    Channel.Framing .unexpectedEof BlockAck.Fits BlockAck.writeTo readFrom where
  codec := by
    rw [reader_readFrom]
    exact codec_blockAck
  starts := ⟨0, _, rfl⟩

/-! ## The system -/

structure Wired where
  /-- All but the control stream; `acksRead` counts the acks that have been forwarded. -/
  world : World
  control : Channel IoError UInt8 BlockAck

inductive WiredLabel
  | other (l : Label)
  /-- A byte arrives at the sender. -/
  | arrive
  /-- `ack_relay` reads. -/
  | read
  /-- `ack_relay` sends the ack that it has read. -/
  | forward

/-- The ack manager's exit closes the stream. -/
def Wired.closed (s : Wired) : Bool :=
  s.world.receiver.control.ack = .exited .ok

/-- A step of the rest of the system, and what it writes to the control stream. -/
def Wired.moveTo (s : Wired) (world : World) : Wired where
  world := world
  control := s.control.write BlockAck.writeTo
    (world.receiver.control.acks.drop s.world.receiver.control.acks.length)

/-- The event channel is empty and both relays have exited. -/
def Wired.disconnected (s : Wired) : Bool :=
  s.world.events = [] ∧ s.world.upstream = [] ∧ s.control.isEnded

def Wired.forward (s : Wired) (ack : BlockAck) (control : Channel IoError UInt8 BlockAck) :
    Wired where
  world :=
    { s.world with
      acksRead := s.world.acksRead + 1
      events := s.world.events ++ [.ack ack] }
  control := control

def Wired.step (setup : Setup) : WiredLabel → Wired → Option Wired
  | .other .ackRelay, _ => none
  | .other (.sender .disconnected), s =>
    if s.disconnected then
      (Loop.step setup.expectedChunks pipelineDepth .disconnected s.world.sender).map fun sender =>
        s.moveTo
          { s.world with
            sender
            wire := s.world.wire ++
              (sentDatagrams sender).drop (sentDatagrams s.world.sender).length }
    else none
  | .other l, s => (World.step setup l s.world).map s.moveTo
  | .arrive, s => s.control.arrive.map fun control => { s with control }
  | .read, s => (s.control.read .unexpectedEof s.closed).map fun control => { s with control }
  | .forward, s => (s.control.take readFrom).map fun (ack, control) => s.forward ack control

def wired (setup : Setup) (upload : Upload setup.expectedChunks) : Lts Wired WiredLabel where
  init := ⟨(transfer setup upload).init, .start readFrom⟩
  step := Wired.step setup

/-! ## The moves of the rest of the system -/

variable {setup : Setup} {upload : Upload setup.expectedChunks} {w w' : World} {s s' : Wired}
  {l : Label}

/-- The acks only grow, and no more once the ack manager has exited. -/
theorem acks_of_step {l : Receiver.Label} {r r' : Threads}
    (h : (Receiver.receiver setup).step l r = some r') :
    r.control.acks <+: r'.control.acks ∧ (r.control.ack = .exited .ok →
      r'.control.ack = .exited .ok ∧ r'.control.acks = r.control.acks) := by
  have hturn := Threads.turn_of_step h
  refine ⟨acks_extend hturn, fun hexited => ⟨hturn.ack_exited hexited, ?_⟩⟩
  cases hturn with
  | ack hmove => cases hmove <;> simp_all
  | _ => rfl

theorem World.Move.acks (h : World.Move setup l w w') :
    w.receiver.control.acks <+: w'.receiver.control.acks ∧
      (w.receiver.control.ack = .exited .ok → w'.receiver.control.ack = .exited .ok ∧
        w'.receiver.control.acks = w.receiver.control.acks) := by
  cases h with
  | receiver _ hstep => exact acks_of_step hstep
  | deliver _ hstep => exact acks_of_step hstep
  | _ => exact ⟨List.prefix_rfl, fun hexited => ⟨hexited, rfl⟩⟩

theorem World.Move.acksRead (h : World.Move setup l w w') (hl : l ≠ .ackRelay) :
    w'.acksRead = w.acksRead := by
  cases h with
  | ackRelay => exact absurd rfl hl
  | _ => rfl

theorem World.ended_of_step (h : World.step setup (.sender .disconnected) w = some w') :
    w.acksRead = w.receiver.control.acks.length ∧ w.receiver.control.ack = .exited .ok := by
  rw [World.step] at h
  split at h
  · next hadmits => exact (of_decide_eq_true hadmits).2.2
  · cases h

/-- Every step but those about the control stream is the same in both systems. -/
theorem Wired.step_other (hl : l ≠ .ackRelay)
    (hended : l = .sender .disconnected → s.control.isEnded = true)
    (hstep : World.step setup l s.world = some w') :
    Wired.step setup (.other l) s = some (s.moveTo w') := by
  have hsame : (World.step setup l s.world).map s.moveTo = some (s.moveTo w') := by
    rw [hstep]
    rfl
  cases l with
  | ackRelay => exact absurd rfl hl
  | sender l' =>
      cases l' with
      | disconnected =>
          rw [World.step] at hstep
          split at hstep
          · next hadmits =>
              have hends := of_decide_eq_true hadmits
              have hdisconnected : s.disconnected = true :=
                decide_eq_true ⟨hends.1, hends.2.1, hended rfl⟩
              obtain ⟨sender, hsender, rfl⟩ := Option.map_eq_some_iff.1 hstep
              rw [Wired.step, if_pos hdisconnected, hsender]
              rfl
          · cases hstep
      | _ => exact hsame
  | _ => exact hsame

/-! ## The link between the systems -/

/-- What is on the control stream are the acks of the queue. -/
def Wired.Linked (s : Wired) : Prop :=
  s.control.Carries BlockAck.writeTo readFrom s.closed s.world.receiver.control.acks
    s.world.acksRead

theorem Wired.Linked.moveTo (h : s.Linked) (hmove : World.Move setup l s.world w')
    (hl : l ≠ .ackRelay) : (s.moveTo w').Linked := by
  obtain ⟨hgrown, hexited⟩ := hmove.acks
  have hacks : s.world.receiver.control.acks ++
      w'.receiver.control.acks.drop s.world.receiver.control.acks.length
        = w'.receiver.control.acks := by
    obtain ⟨more, hmore⟩ := hgrown
    rw [← hmore, List.drop_left]
  have hopen : s.closed = false ∨
      w'.receiver.control.acks.drop s.world.receiver.control.acks.length = [] := by
    cases hclosed : s.closed with
    | false => exact .inl rfl
    | true => exact .inr (by rw [(hexited (of_decide_eq_true hclosed)).2, List.drop_length])
  have hwrite := Channel.Carries.write h hopen
  rw [hacks] at hwrite
  have hread : (s.moveTo w').world.acksRead = s.world.acksRead := hmove.acksRead hl
  rw [Linked, hread]
  cases hclosed : s.closed with
  | false =>
      rw [hclosed] at hwrite
      cases hclosed' : (s.moveTo w').closed with
      | false => exact hwrite
      | true => exact hwrite.close
  | true =>
      rw [hclosed] at hwrite
      have hclosed' : (s.moveTo w').closed = true :=
        decide_eq_true (hexited (of_decide_eq_true hclosed)).1
      rw [hclosed']
      exact hwrite

/-- `ack_relay` exits only behind the last ack. -/
theorem Wired.Linked.worldStep (h : s.Linked)
    (hok : ∀ ack ∈ s.world.receiver.control.acks, ack.Fits)
    (hstep : Wired.step setup (.other l) s = some s') :
    l ≠ .ackRelay ∧ ∃ w', World.step setup l s.world = some w' ∧ s' = s.moveTo w' := by
  have hsame (hmap : (World.step setup l s.world).map s.moveTo = some s') :
      ∃ w', World.step setup l s.world = some w' ∧ s' = s.moveTo w' := by
    obtain ⟨w', hw', rfl⟩ := Option.map_eq_some_iff.1 hmap
    exact ⟨w', hw', rfl⟩
  cases l with
  | ackRelay => cases hstep
  | sender l' =>
      refine ⟨by simp, ?_⟩
      cases l' with
      | disconnected =>
          rw [Wired.step] at hstep
          split at hstep
          · next hdisconnected =>
              obtain ⟨hevents, hupstream, hended⟩ := of_decide_eq_true hdisconnected
              obtain ⟨hclosed, hread⟩ := Channel.Carries.ended framing_blockAck hok h hended
              have hadmits : s.world.admits .disconnected = true :=
                decide_eq_true ⟨hevents, hupstream, hread, of_decide_eq_true hclosed⟩
              obtain ⟨sender, hsender, rfl⟩ := Option.map_eq_some_iff.1 hstep
              refine ⟨_, ?_, rfl⟩
              rw [World.step, if_pos hadmits, hsender]
              rfl
          · cases hstep
      | _ => exact hsame hstep
  | _ => exact ⟨by simp, hsame hstep⟩

/-- Every ack of a transfer can be written. -/
theorem fits_of_reaches {ls : List Label} (hrun : (transfer setup upload).Reaches ls w) :
    ∀ ack ∈ w.receiver.control.acks, ack.Fits := by
  obtain ⟨inputs, labels, hparties⟩ := parties_of_reaches hrun
  exact (listsFit_of_reaches hparties.receiver).acks

/-- The channel has moved by itself, and `acks` have been relayed. -/
def Wired.relayed (s : Wired) (acks : List BlockAck) (control : Channel IoError UInt8 BlockAck) :
    Wired where
  world :=
    { s.world with
      acksRead := s.world.acksRead + acks.length
      events := s.world.events ++ acks.map .ack }
  control := control

theorem Wired.relayed_nil (s : Wired) (control : Channel IoError UInt8 BlockAck) :
    s.relayed [] control = { s with control := control } := by
  rw [relayed, List.map_nil, List.append_nil]
  rfl

variable (upload) in
theorem Wired.exists_relayed {acks : List BlockAck} {control : Channel IoError UInt8 BlockAck}
    (h : s.control.Leads .unexpectedEof s.closed readFrom acks control) :
    ∃ ls, (wired setup upload).exec ls s = some (s.relayed acks control) := by
  generalize hclosed : s.closed = closed at h
  generalize hcontrol : s.control = first at h
  induction h generalizing s with
  | refl c =>
      refine ⟨[], congrArg some ?_⟩
      rw [relayed_nil, ← hcontrol]
  | @arrive _ c₁ _ _ harrive _ ih =>
      have hstep : Wired.step setup .arrive s = some { s with control := c₁ } := by
        rw [Wired.step, hcontrol, harrive]
        rfl
      obtain ⟨ls, hls⟩ := ih (s := { s with control := c₁ }) hclosed rfl
      exact ⟨.arrive :: ls, Option.bind_eq_some_iff.2 ⟨_, hstep, hls⟩⟩
  | @read _ c₁ _ _ hread _ ih =>
      have hstep : Wired.step setup .read s = some { s with control := c₁ } := by
        rw [Wired.step, hcontrol, hclosed, hread]
        rfl
      obtain ⟨ls, hls⟩ := ih (s := { s with control := c₁ }) hclosed rfl
      exact ⟨.read :: ls, Option.bind_eq_some_iff.2 ⟨_, hstep, hls⟩⟩
  | @take _ c₁ last ack acks htake _ ih =>
      have hstep : Wired.step setup .forward s = some (s.forward ack c₁) := by
        rw [Wired.step, hcontrol, htake]
        rfl
      obtain ⟨ls, hls⟩ := ih (s := s.forward ack c₁) hclosed rfl
      have hlast : (s.forward ack c₁).relayed acks last = s.relayed (ack :: acks) last := by
        simp only [relayed, forward, List.length_cons, List.map_cons, List.append_assoc,
          List.singleton_append, Nat.add_assoc, Nat.add_comm 1]
      exact ⟨.forward :: ls, Option.bind_eq_some_iff.2 ⟨_, hstep, hlast ▸ hls⟩⟩

/-! ## Refinement -/

theorem wired_simulation (setup : Setup) (upload : Upload setup.expectedChunks) :
    (wired setup upload).Simulation (transfer setup upload) fun s w => s.world = w ∧ s.Linked where
  init := ⟨rfl, .start _ _⟩
  step := by
    rintro ks l s s' w hreach ⟨rfl, hlinked⟩ hstep
    have hok := fits_of_reaches hreach
    cases l with
    | other l =>
        obtain ⟨hl, w', hw', rfl⟩ := hlinked.worldStep hok hstep
        refine ⟨[l], w', ?_, rfl, hlinked.moveTo (World.move_of_step hw') hl⟩
        exact (Option.bind_eq_some_iff.2 ⟨w', hw', rfl⟩)
    | arrive =>
        obtain ⟨control, harrive, rfl⟩ := Option.map_eq_some_iff.1 hstep
        exact ⟨[], _, rfl, rfl, Channel.Carries.arrive hlinked harrive⟩
    | read =>
        obtain ⟨control, hread, rfl⟩ := Option.map_eq_some_iff.1 hstep
        exact ⟨[], _, rfl, rfl, Channel.Carries.read framing_blockAck hok hlinked hread⟩
    | forward =>
        obtain ⟨⟨ack, control⟩, htake, rfl⟩ := Option.map_eq_some_iff.1 hstep
        obtain ⟨hack, hcarries⟩ := Channel.Carries.take framing_blockAck hok hlinked htake
        refine ⟨[.ackRelay], _, ?_, rfl, hcarries⟩
        rw [Lts.exec]
        change (World.step setup .ackRelay s.world).bind _ = _
        rw [World.step, hack]
        rfl

/-- What is known of a reachable state of the byte stream. -/
theorem Wired.linked_of_reaches {ls : List WiredLabel} (hrun : (wired setup upload).Reaches ls s) :
    s.Linked ∧ ∀ ack ∈ s.world.receiver.control.acks, ack.Fits := by
  obtain ⟨ks, w, hreach, rfl, hlinked⟩ := (wired_simulation setup upload).reaches hrun
  exact ⟨hlinked, fits_of_reaches hreach⟩

theorem transfer_simulation (setup : Setup) (upload : Upload setup.expectedChunks) :
    (transfer setup upload).Simulation (wired setup upload) fun w s => s.world = w ∧ s.Linked where
  init := ⟨rfl, .start _ _⟩
  step := by
    rintro ks l w w' s hreach ⟨rfl, hlinked⟩ hstep
    obtain ⟨-, hok⟩ := Wired.linked_of_reaches hreach
    have hmove := World.move_of_step hstep
    by_cases hrelay : l = .ackRelay
    · subst hrelay
      cases hmove with
      | ackRelay hack =>
          obtain ⟨control, hleads, hcarries⟩ :=
            Channel.Carries.exists_take framing_blockAck hok hlinked hack
          obtain ⟨ks', hks'⟩ := Wired.exists_relayed upload hleads
          exact ⟨ks', _, hks', rfl, hcarries⟩
    · by_cases hended : l = .sender .disconnected
      · subst hended
        -- `ack_relay` finds the end of the stream first
        obtain ⟨hread, hexited⟩ := World.ended_of_step hstep
        have hclosed : s.closed = true := decide_eq_true hexited
        have hend := hlinked
        rw [Wired.Linked, hread, hclosed] at hend
        obtain ⟨control, hleads, hcarries, hended⟩ := hend.exists_ended framing_blockAck
        rw [← hclosed] at hleads
        obtain ⟨ks', hks'⟩ := Wired.exists_relayed upload hleads
        rw [Wired.relayed_nil] at hks'
        have hlinked' : Wired.Linked { s with control := control } := by
          rw [← hclosed, ← hread] at hcarries
          exact hcarries
        have hother := Wired.step_other (s := { s with control := control }) hrelay
          (fun _ => hended) hstep
        have hlast : (wired setup upload).exec [.other (.sender .disconnected)]
            { s with control := control } = _ := Option.bind_eq_some_iff.2 ⟨_, hother, rfl⟩
        exact ⟨ks' ++ _, _, Lts.exec_trans hks' hlast, rfl, hlinked'.moveTo hmove hrelay⟩
      · have hother := Wired.step_other hrelay (fun h => absurd h hended) hstep
        exact ⟨[.other l], _, Option.bind_eq_some_iff.2 ⟨_, hother, rfl⟩, rfl,
          hlinked.moveTo hmove hrelay⟩

/-- **The control stream.** However the bytes of the acks are cut up on their way, the system reaches
    exactly the states it reaches when the acks are handed over whole. `ack_relay` exits only behind
    the last ack of a stream that is closed, never for an ack it cannot read, and from every state it
    can forward all that has been written. -/
theorem control_stream_refines (setup : Setup) (upload : Upload setup.expectedChunks) :
    (∀ w, (∃ ls s, (wired setup upload).Reaches ls s ∧ s.world = w) ↔
      ∃ ls, (transfer setup upload).Reaches ls w) ∧
    ∀ ls s, (wired setup upload).Reaches ls s →
      s.control.pipe.written = s.world.receiver.control.acks.flatMap BlockAck.writeTo ∧
      (s.control.isEnded = true →
        s.closed = true ∧ s.world.acksRead = s.world.receiver.control.acks.length) ∧
      ∃ ls' control, (wired setup upload).exec ls' s
        = some (s.relayed (s.world.receiver.control.acks.drop s.world.acksRead) control) := by
  refine ⟨fun w => ⟨?_, ?_⟩, fun ls s hrun => ?_⟩
  · rintro ⟨ls, s, hrun, rfl⟩
    obtain ⟨ks, w, hreach, rfl, -⟩ := (wired_simulation setup upload).reaches hrun
    exact ⟨ks, hreach⟩
  · rintro ⟨ls, hrun⟩
    obtain ⟨ks, s, hreach, rfl, -⟩ := (transfer_simulation setup upload).reaches hrun
    exact ⟨ks, s, hreach, rfl⟩
  · obtain ⟨hlinked, hok⟩ := Wired.linked_of_reaches hrun
    obtain ⟨control, hleads, -⟩ := Channel.Carries.drained framing_blockAck hok hlinked
    obtain ⟨ls', hls'⟩ := Wired.exists_relayed upload hleads
    exact ⟨hlinked.written, Channel.Carries.ended framing_blockAck hok hlinked, ls', control, hls'⟩

end SecureTransfer.Transfer
