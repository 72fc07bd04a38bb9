import Mathlib.Algebra.BigOperators.Ring.List
import Mathlib.Tactic.Ring
import SecureTransfer.ControlStream
import SecureTransfer.Sender.Traffic
import SecureTransfer.Transfer.Repair

set_option autoImplicit false

/-! # The traffic of a transfer

However long a transfer takes and whatever the network does to its datagrams, what the two sides send
is bounded by the size of the file: the receiver asks for a packet at most `MAX_BLOCK_RETRY_ROUNDS`
times, and everything else the sender sends it sends at most twice. -/

namespace SecureTransfer.Transfer

open BigEndian Sender Receiver

variable {setup : Setup} {upload : Upload setup.expectedChunks} {ls : List Label} {w : World}
  {b : UInt32} {ids : List UInt16}

/-- A list of unverified packets is no longer than the block. -/
theorem length_le_of_unverified {expectedChunks : UInt32} {c : Control}
    (h : c.Unverified expectedChunks b ids) : ids.length ≤ packetsInBlock b expectedChunks := by
  have hids : ids.Nodup := h.ascending.imp fun hlt => UInt16.ne_of_lt hlt
  have hnodup : (ids.map UInt16.toNat).Nodup := hids.map fun _ _ => UInt16.toNat_inj.1
  have hsub : ids.map UInt16.toNat ⊆ List.range (packetsInBlock b expectedChunks) := by
    intro i hi
    obtain ⟨id, hid, rfl⟩ := List.mem_map.1 hi
    exact List.mem_range.2 ((h.exact id).1 hid).1
  have hle := (hnodup.subperm hsub).length_le
  rwa [List.length_map, List.length_range] at hle

/-- Every `Missing` is about a block of the file and lists no more than its packets. -/
theorem missing_within (hrun : (transfer setup upload).Reaches ls w)
    (hack : .missing b ids ∈ w.receiver.control.acks) :
    b < totalBlocks setup.expectedChunks ∧
      ids.length ≤ packetsInBlock b setup.expectedChunks := by
  obtain ⟨k, hk⟩ := List.mem_iff_getElem?.1 hack
  obtain ⟨ls₀, w₀, hs⟩ := (recorded_of_reaches hrun).written k b ids hk
  refine ⟨?_, length_le_of_unverified hs.unverified⟩
  obtain ⟨rest, snapshot, shared, -, hsome, -⟩ := hs.taken
  obtain ⟨entry, ht, -⟩ := snapshotAndTick_eq_some hsome
  have h₀ := Parties.of_reaches hs.reached
  obtain ⟨m, hm, -⟩ := h₀.books
  exact (h₀.named hm (h₀.acks_inv.tracked b entry ht)).2

theorem ack_below (hrun : (transfer setup upload).Reaches ls w) {ack : BlockAck}
    (hack : ack ∈ w.receiver.control.acks) :
    ack.blockId.toNat < (totalBlocks setup.expectedChunks).toNat := by
  rw [← UInt32.lt_iff_toNat_lt]
  cases ack with
  | missing b ids => exact (missing_within hrun hack).1
  | complete b =>
      have h := Parties.of_reaches hrun
      obtain ⟨m, hm, -⟩ := h.books
      exact (h.named hm (named_of_complete h.acks_inv hack)).2

/-- For each block the receiver writes `MAX_BLOCK_RETRY_ROUNDS` times a `Missing` and one `Complete`,
    or less. -/
theorem sum_acks_le (hrun : (transfer setup upload).Reaches ls w) {f : BlockAck → ℕ} {x : ℕ → ℕ}
    {y : ℕ} (hmissing : ∀ b ids, .missing b ids ∈ w.receiver.control.acks →
      f (.missing b ids) ≤ x b.toNat) (hcomplete : ∀ b, f (.complete b) ≤ y) :
    (w.receiver.control.acks.map f).sum
      ≤ ((List.range (totalBlocks setup.expectedChunks).toNat).map fun b =>
        maxBlockRetryRounds * x b + y).sum := by
  refine Groups.sum_le (fun ack hack => ack_below hrun hack) fun k hk => ?_
  have hlt := hk.trans (UInt32.toNat_lt _)
  have hgroup : w.receiver.control.acks.filter (fun ack => ack.blockId.toNat = k)
      = acksOf (.ofNat k) w.receiver.control.acks := by
    refine List.filter_congr fun ack _ => ?_
    rw [decide_eq_decide, ← UInt32.toNat_inj, UInt32.toNat_ofNat_of_lt' hlt]
  obtain ⟨missings, tail, heq, ⟨hlen, hall⟩, htail⟩ :=
    (Parties.of_reaches hrun).acks_inv.shape (.ofNat k)
  have hrepairs : (missings.map f).sum ≤ maxBlockRetryRounds * x k := by
    refine (List.sum_le_card_nsmul _ (x k) fun n hn => ?_).trans ?_
    · obtain ⟨ack, hack, rfl⟩ := List.mem_map.1 hn
      obtain ⟨ids, rfl⟩ := hall ack hack
      have hmem : .missing (.ofNat k) ids ∈ acksOf (.ofNat k) w.receiver.control.acks :=
        heq ▸ List.mem_append_left _ hack
      have hle := hmissing _ _ (List.mem_of_mem_filter hmem)
      rwa [UInt32.toNat_ofNat_of_lt' hlt] at hle
    · rw [List.length_map, nsmul_eq_mul, Nat.cast_id]
      exact Nat.mul_le_mul_right _ hlen
  have hlast : (tail.map f).sum ≤ y := by
    rcases htail with rfl | rfl
    · exact Nat.zero_le _
    · simpa using hcomplete (.ofNat k)
  rw [hgroup, heq, List.map_append, List.sum_append]
  exact Nat.add_le_add hrepairs hlast

/-- How many ids an ack lists as missing. -/
def listed : BlockAck → ℕ
  | .missing _ ids => ids.length
  | .complete _ => 0

theorem sum_listed (inputs : List LoopInput) :
    (inputs.map LoopInput.listed).sum = ((handledAcks inputs).map listed).sum := by
  induction inputs with
  | nil => rfl
  | cons l inputs ih =>
      have hcons : handledAcks (l :: inputs) = (LoopInput.ack? l).toList ++ handledAcks inputs := by
        cases hl : LoopInput.ack? l <;> simp [handledAcks, hl]
      rw [List.map_cons, List.sum_cons, ih, hcons, List.map_append, List.sum_append]
      congr 1
      cases l with
      | event e =>
          cases e with
          | chunk c => rfl
          | ack ack => cases ack <;> rfl
      | _ => rfl

theorem length_writeTo_missing (b : UInt32) (ids : List UInt16) :
    (BlockAck.missing b ids).writeTo.length = 9 + 2 * ids.length := by
  have hids : (ids.flatMap fun id => toBe 2 id.toNat).length = 2 * ids.length := by
    induction ids with
    | nil => rfl
    | cons id ids ih =>
        rw [List.flatMap_cons, List.length_append, ih, length_toBe, List.length_cons]
        omega
  simp only [BlockAck.writeTo, List.length_append, length_toBe, hids, List.length_singleton]
  omega

/-- **Traffic.** In every state of every transfer, for however long it has run: the sender has sent
    each packet at most `MAX_BLOCK_RETRY_ROUNDS + 2` times and each `BlockEnd` at most twice, put
    together; the receiver has written at most `MAX_BLOCK_RETRY_ROUNDS + 1` acks for each block, and
    the bytes of the acks are bounded accordingly. -/
theorem traffic_bounded (hrun : (transfer setup upload).Reaches ls w) :
    (sentDatagrams w.sender).length ≤ (maxBlockRetryRounds + 2) * setup.expectedChunks.toNat
      + 2 * (totalBlocks setup.expectedChunks).toNat ∧
    w.receiver.control.acks.length
      ≤ (maxBlockRetryRounds + 1) * (totalBlocks setup.expectedChunks).toNat ∧
    (w.receiver.control.acks.flatMap BlockAck.writeTo).length
      ≤ 2 * maxBlockRetryRounds * setup.expectedChunks.toNat
        + (9 * maxBlockRetryRounds + 5) * (totalBlocks setup.expectedChunks).toNat := by
  have h := Parties.of_reaches hrun
  obtain ⟨m, hm, -⟩ := h.books
  have hlisted : (w.receiver.control.acks.map listed).sum
      ≤ maxBlockRetryRounds * setup.expectedChunks.toNat := by
    refine (sum_acks_le hrun (x := fun b => packetsInBlock (.ofNat b) setup.expectedChunks) (y := 0)
      (fun b ids hack => ?_) fun _ => le_rfl).trans ?_
    · rw [UInt32.ofNat_toNat]
      exact (missing_within hrun hack).2
    · simp only [Nat.add_zero]
      rw [List.sum_map_mul_left, sum_packetsInBlock]
  have hpackets : ∀ c ∈ handledChunks (senderInputs ls), IsPacket c :=
    fun c hc => upload.isPacket (h.handled_mem hc)
  refine ⟨?_, ?_, ?_⟩
  · have hsent := sent_le_of_reaches h.sender h.orderly hpackets hm
    have hhandled : ((handledAcks (senderInputs ls)).map listed).sum
        ≤ (w.receiver.control.acks.map listed).sum := by
      have hread : handledAcks (senderInputs ls) <+: w.receiver.control.acks :=
        (List.prefix_append _ _).trans (h.acks ▸ List.take_prefix _ _)
      exact (hread.map listed).sublist.sum_le_sum fun _ _ => Nat.zero_le _
    rw [sum_listed] at hsent
    rw [Parties.sent_eq hm, Nat.add_mul]
    omega
  · have hle := sum_acks_le hrun (f := fun _ => 1) (x := fun _ => 1) (y := 1)
      (fun _ _ _ => le_rfl) fun _ => le_rfl
    simpa [Nat.mul_comm] using hle
  · have hle := sum_acks_le hrun (f := fun ack => ack.writeTo.length)
      (x := fun b => 9 + 2 * packetsInBlock (.ofNat b) setup.expectedChunks) (y := 5)
      (fun b ids hack => ?_) fun b => by simp [BlockAck.writeTo]
    · have hsum : ((List.range (totalBlocks setup.expectedChunks).toNat).map fun b =>
          maxBlockRetryRounds * (9 + 2 * packetsInBlock (.ofNat b) setup.expectedChunks) + 5).sum
          = 2 * maxBlockRetryRounds * setup.expectedChunks.toNat
            + (9 * maxBlockRetryRounds + 5) * (totalBlocks setup.expectedChunks).toNat := by
        rw [List.sum_map_add, List.sum_map_mul_left, List.sum_map_add, List.sum_map_mul_left,
          sum_packetsInBlock]
        simp only [List.map_const', List.sum_replicate, List.length_range, nsmul_eq_mul, Nat.cast_id]
        ring
      rw [List.length_flatMap]
      exact hle.trans hsum.le
    · have hids := (missing_within hrun hack).2
      rw [length_writeTo_missing, UInt32.ofNat_toNat]
      omega

/-- Of one packet: the packet, its `BlockEnd` and a repair are out. -/
theorem traffic_bounded_missingRun :
    ∃ w, (transfer threeBytes.setup threeBytes.upload).Reaches
        (missingRun ++ [.sender (.event (.ack (.missing 0 [0])))]) w ∧
      (sentDatagrams w.sender).length = 3 ∧ (sentDatagrams w.sender).length ≤ 52 * 1 + 2 * 1 ∧
      w.receiver.control.acks.length ≤ 51 * 1 := by
  obtain ⟨w, hw, hsent⟩ := Lts.exists_exec (transfer threeBytes.setup threeBytes.upload)
    (missingRun ++ [.sender (.event (.ack (.missing 0 [0])))])
    (fun w => (sentDatagrams w.sender).length = 3) (by decide +kernel)
  have hrun := Lts.reaches_of_exec hw
  obtain ⟨hle, hacks, -⟩ := traffic_bounded hrun
  exact ⟨w, hrun, hsent, hle, hacks⟩

end SecureTransfer.Transfer
