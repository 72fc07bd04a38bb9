import SecureTransfer.Protocol
import SecureTransfer.Transport.Geometry
import SecureTransfer.Transport.ReceiverState

set_option autoImplicit false

/-! # The ack manager (`ack_manager_loop` of `receiver.rs`)

The thread takes the tracker's lock in `ready_for_check`, `snapshot_and_tick` and `remove` and writes
to the control stream in between, so each of these is a step of its own and the other threads may
run between any two. `Control` is the tracker together with this thread; beside the program's own
data it records what the thread wrote (`acks`), which blocks it warned about (`gaveUp`) and every
call of `mark_verified` (`marks`). -/

namespace SecureTransfer.Receiver

/-- How a thread ended. -/
inductive ThreadEnd
  | ok
  | err
  | panicked
deriving DecidableEq

/-- Where the ack manager is. -/
inductive AckManager
  /-- At the loop condition. -/
  | poll
  /-- In the `for` loop, before `snapshot_and_tick` of the first of `ready`. -/
  | checking (ready : List UInt32)
  /-- About to write an ack. -/
  | acking (blockId : UInt32) (snapshot : Snapshot) (rest : List UInt32)
  /-- A `Complete` has been written; `remove` is next. -/
  | removing (blockId : UInt32) (rest : List UInt32)
  | exited (result : ThreadEnd)
deriving DecidableEq

structure Control where
  shared : ReceiverInner
  ack : AckManager
  completed : ℕ
  acks : List BlockAck
  gaveUp : List UInt32
  marks : List (UInt32 × UInt16)

def Control.init : Control where
  shared := .init
  ack := .poll
  completed := 0
  acks := []
  gaveUp := []
  marks := []

inductive AckLabel
  /-- `ready_for_check` finds the blocks `order`. -/
  | poll (order : List UInt32)
  /-- The loop condition is false. -/
  | exit
  /-- `snapshot_and_tick` of the next block, or the end of the `for` loop. -/
  | next
  /-- The ack is written to the control stream. -/
  | write
  /-- Writing to the control stream fails. -/
  | writeError
  | remove
deriving DecidableEq

def ackManagerStep (totalBlocksCount : ℕ) (now : Instant) : AckLabel → Control → Option Control
  | .poll order, c =>
    match c.ack with
    | .poll =>
      if c.completed < totalBlocksCount ∧
          order.Perm (c.shared.readyForCheck (fromMillis blockGracePeriodMs)
            (fromMillis blockIdleTimeoutMs) now) then
        some { c with ack := .checking order }
      else none
    | _ => none
  | .exit, c =>
    match c.ack with
    | .poll => if c.completed < totalBlocksCount then none else some { c with ack := .exited .ok }
    | _ => none
  | .next, c =>
    match c.ack with
    | .checking [] => some { c with ack := .poll }
    | .checking (blockId :: rest) =>
      match c.shared.snapshotAndTick blockId now with
      -- The block is not tracked any more: `continue`.
      | none => some { c with ack := .checking rest }
      | some (snapshot, shared) => some { c with shared, ack := .acking blockId snapshot rest }
    | _ => none
  | .write, c =>
    match c.ack with
    | .acking blockId snapshot rest =>
      if snapshot.isComplete then
        some { c with acks := c.acks ++ [.complete blockId], ack := .removing blockId rest }
      else if maxBlockRetryRounds < snapshot.rounds then
        -- The safety valve writes the same ack as for a whole block.
        some { c with
          gaveUp := c.gaveUp ++ [blockId]
          acks := c.acks ++ [.complete blockId]
          ack := .removing blockId rest }
      else
        some { c with
          acks := c.acks ++ [.missing blockId snapshot.missing]
          ack := .checking rest }
    | _ => none
  | .writeError, c =>
    match c.ack with
    | .acking _ _ _ => some { c with ack := .exited .err }
    | _ => none
  | .remove, c =>
    match c.ack with
    | .removing blockId rest =>
      some { c with
        shared := c.shared.remove blockId
        completed := c.completed + 1
        ack := .checking rest }
    | _ => none

/-- The moves of the ack manager, with what each requires. -/
inductive AckMove (totalBlocksCount : ℕ) (now : Instant) : AckLabel → Control → Control → Prop
  | poll {c : Control} {order : List UInt32} (hpc : c.ack = .poll)
      (hmore : c.completed < totalBlocksCount)
      (horder : order.Perm (c.shared.readyForCheck (fromMillis blockGracePeriodMs)
        (fromMillis blockIdleTimeoutMs) now)) :
      AckMove totalBlocksCount now (.poll order) c { c with ack := .checking order }
  | exit {c : Control} (hpc : c.ack = .poll) (hdone : totalBlocksCount ≤ c.completed) :
      AckMove totalBlocksCount now .exit c { c with ack := .exited .ok }
  | endRound {c : Control} (hpc : c.ack = .checking []) :
      AckMove totalBlocksCount now .next c { c with ack := .poll }
  | skip {c : Control} {b : UInt32} {rest : List UInt32} (hpc : c.ack = .checking (b :: rest))
      (hnone : c.shared.snapshotAndTick b now = none) :
      AckMove totalBlocksCount now .next c { c with ack := .checking rest }
  | snapshot {c : Control} {b : UInt32} {rest : List UInt32} {snapshot : Snapshot}
      {shared : ReceiverInner} (hpc : c.ack = .checking (b :: rest))
      (hsome : c.shared.snapshotAndTick b now = some (snapshot, shared)) :
      AckMove totalBlocksCount now .next c
        { c with shared := shared, ack := .acking b snapshot rest }
  | complete {c : Control} {b : UInt32} {rest : List UInt32} {snapshot : Snapshot}
      (hpc : c.ack = .acking b snapshot rest) (hcomplete : snapshot.isComplete = true) :
      AckMove totalBlocksCount now .write c
        { c with acks := c.acks ++ [.complete b], ack := .removing b rest }
  | giveUp {c : Control} {b : UInt32} {rest : List UInt32} {snapshot : Snapshot}
      (hpc : c.ack = .acking b snapshot rest) (hincomplete : snapshot.isComplete = false)
      (hrounds : maxBlockRetryRounds < snapshot.rounds) :
      AckMove totalBlocksCount now .write c
        { c with
          gaveUp := c.gaveUp ++ [b]
          acks := c.acks ++ [.complete b]
          ack := .removing b rest }
  | missing {c : Control} {b : UInt32} {rest : List UInt32} {snapshot : Snapshot}
      (hpc : c.ack = .acking b snapshot rest) (hincomplete : snapshot.isComplete = false)
      (hrounds : snapshot.rounds ≤ maxBlockRetryRounds) :
      AckMove totalBlocksCount now .write c
        { c with acks := c.acks ++ [.missing b snapshot.missing], ack := .checking rest }
  | writeError {c : Control} {b : UInt32} {rest : List UInt32} {snapshot : Snapshot}
      (hpc : c.ack = .acking b snapshot rest) :
      AckMove totalBlocksCount now .writeError c { c with ack := .exited .err }
  | remove {c : Control} {b : UInt32} {rest : List UInt32} (hpc : c.ack = .removing b rest) :
      AckMove totalBlocksCount now .remove c
        { c with
          shared := c.shared.remove b
          completed := c.completed + 1
          ack := .checking rest }

theorem ackMove_of_step {totalBlocksCount : ℕ} {now : Instant} {l : AckLabel} {c c' : Control}
    (h : ackManagerStep totalBlocksCount now l c = some c') :
    AckMove totalBlocksCount now l c c' := by
  cases l with
  | poll order =>
      simp only [ackManagerStep] at h
      split at h
      · next hpc =>
          split at h
          · next hcond => cases h; exact .poll hpc hcond.1 hcond.2
          · cases h
      · cases h
  | exit =>
      simp only [ackManagerStep] at h
      split at h
      · next hpc =>
          split at h
          · cases h
          · next hdone => cases h; exact .exit hpc (by omega)
      · cases h
  | next =>
      simp only [ackManagerStep] at h
      split at h
      · next hpc => cases h; exact .endRound hpc
      · next b rest hpc =>
          split at h
          · next hnone => cases h; exact .skip hpc hnone
          · next hsome => cases h; exact .snapshot hpc hsome
      · cases h
  | write =>
      simp only [ackManagerStep] at h
      split at h
      · next b snapshot rest hpc =>
          split at h
          · next hcomplete => cases h; exact .complete hpc hcomplete
          · next hincomplete =>
              have hincomplete := Bool.eq_false_iff.2 hincomplete
              split at h
              · next hrounds => cases h; exact .giveUp hpc hincomplete hrounds
              · next hrounds => cases h; exact .missing hpc hincomplete (by omega)
      · cases h
  | writeError =>
      simp only [ackManagerStep] at h
      split at h
      · next hpc => cases h; exact .writeError hpc
      · cases h
  | remove =>
      simp only [ackManagerStep] at h
      split at h
      · next hpc => cases h; exact .remove hpc
      · cases h

/-! ## The other threads -/

/-- A call of one of the mutators by another thread. -/
def Control.mutate (f : ReceiverInner → ReceiverInner) (c : Control) : Control :=
  { c with shared := f c.shared }

/-- `mark_verified`, recorded. -/
def Control.markVerified (blockId : UInt32) (packetInBlock : UInt16) (total : ℕ) (now : Instant)
    (c : Control) : Control :=
  { c with
    shared := c.shared.markVerified blockId packetInBlock total now
    marks := c.marks ++ [(blockId, packetInBlock)] }

end SecureTransfer.Receiver
