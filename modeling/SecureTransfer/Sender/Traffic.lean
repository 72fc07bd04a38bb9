import SecureTransfer.Lib.Groups
import SecureTransfer.Sender.FallbackDiscipline

set_option autoImplicit false

/-! # How much the manager sends

First sends and fallbacks are bounded by the size of the file, repairs by what the acks ask for. So
for given acks the traffic is bounded, however long the run takes. -/

namespace SecureTransfer.Sender

variable {totalChunks : UInt32} {pipelineDepth : ℕ} {ls : List LoopInput} {s : Loop} {m m' : Manager}
  {log : List (Instant × Activity)} {H : Set EncryptedChunk}

/-! ## The parts of the log -/

def Activity.repairs : Activity → ℕ
  | .repair _ => 1
  | _ => 0

def Activity.fallbackBlock? : Activity → Option (UInt32 × List Datagram)
  | .fallback b ds => some (b, ds)
  | _ => none

/-- The resends of whole blocks. -/
def fallbacks (log : List (Instant × Activity)) : List (UInt32 × List Datagram) :=
  log.filterMap fun e => e.2.fallbackBlock?

theorem length_allSends (log : List (Instant × Activity)) :
    (allSends log).length = (firstSends log).length + (log.map fun e => e.2.repairs).sum
      + ((fallbacks log).map fun p => p.2.length).sum := by
  induction log with
  | nil => rfl
  | cons e log ih =>
      obtain ⟨t, a⟩ := e
      have hall : (allSends ((t, a) :: log)).length = a.sent.length + (allSends log).length := by
        simp [allSends]
      rw [hall, ih]
      cases a <;> simp [firstSends, fallbacks, Activity.first?, Activity.fallbackBlock?,
        Activity.repairs, Activity.sent] <;> omega

/-! ## First sends -/

/-- Chunks with distinct ids below a bound are no more than the bound. -/
theorem length_le_of_distinct {cs : List EncryptedChunk}
    (hnodup : (cs.map EncryptedChunk.chunkId).Nodup) (hbelow : ∀ c ∈ cs, c.chunkId < totalChunks) :
    cs.length ≤ totalChunks.toNat := by
  have hids : ((cs.map EncryptedChunk.chunkId).map UInt32.toNat).Nodup :=
    hnodup.map fun _ _ => UInt32.toNat_inj.1
  have hsub : (cs.map EncryptedChunk.chunkId).map UInt32.toNat ⊆ List.range totalChunks.toNat := by
    intro i hi
    obtain ⟨id, hid, rfl⟩ := List.mem_map.1 hi
    obtain ⟨c, hc, rfl⟩ := List.mem_map.1 hid
    exact List.mem_range.2 (UInt32.lt_iff_toNat_lt.1 (hbelow c hc))
  have hle := (hids.subperm hsub).length_le
  rwa [List.length_map, List.length_map, List.length_range] at hle

/-- Every first send is the packet of a chunk or the `BlockEnd` of a block, and none comes twice. -/
theorem FirstSends.length_le {sends : List Datagram} (h : FirstSends totalChunks m sends)
    (horderly : Orderly totalChunks ls)
    (hbooks : Bookkeeping totalChunks pipelineDepth (bucketSet (handledChunks ls)) m) :
    sends.length ≤ totalChunks.toNat + (totalBlocks totalChunks).toNat := by
  have hsub : sends ⊆ (handledChunks ls).map EncryptedChunk.packet ++
      (List.range (totalBlocks totalChunks).toNat).map fun b => blockEndOf totalChunks (.ofNat b) := by
    intro d hd
    obtain ⟨b, -, ⟨c, hc, -, rfl⟩ | ⟨hb, rfl⟩⟩ := hbooks.sent d (h.sub hd)
    · exact List.mem_append_left _ (List.mem_map_of_mem hc)
    · refine List.mem_append_right _ (List.mem_map.2 ⟨b.toNat, List.mem_range.2 ?_, ?_⟩)
      · exact UInt32.lt_iff_toNat_lt.1 hb
      · rw [UInt32.ofNat_toNat]
        rfl
  have hle := (h.nodup.subperm hsub).length_le
  rw [List.length_append, List.length_map, List.length_map, List.length_range] at hle
  exact hle.trans (Nat.add_le_add_right (length_le_of_distinct horderly.nodup horderly.below) _)

/-! ## Fallbacks -/

/-- A log is cut where a block is resent. -/
theorem exists_of_fallbacks {pre post : List (UInt32 × List Datagram)} {p : UInt32 × List Datagram}
    (h : fallbacks log = pre ++ p :: post) :
    ∃ before t after, log = before ++ (t, .fallback p.1 p.2) :: after ∧ fallbacks before = pre := by
  obtain ⟨before, rest, rfl, hbefore, hrest⟩ := List.filterMap_eq_append_iff.1 h
  obtain ⟨skipped, e, after, rfl, hskipped, he, -⟩ := List.filterMap_eq_cons_iff.1 hrest
  have hfallback : e.2 = .fallback p.1 p.2 := by
    obtain ⟨t, a⟩ := e
    cases a <;> cases he
    rfl
  refine ⟨before ++ skipped, e.1, after, ?_, ?_⟩
  · rw [List.append_assoc, ← hfallback]
  · rw [fallbacks, List.filterMap_append, hbefore, List.filterMap_eq_nil_iff.2 hskipped,
      List.append_nil]

theorem FallbackLaw.pairwise (h : FallbackLaw totalChunks log) :
    (fallbacks log).Pairwise fun p p' => p.1.toNat ≠ p'.1.toNat := by
  refine List.pairwise_iff_getElem.2 fun i j hi hj hlt heq => ?_
  have hsplit : fallbacks log = (fallbacks log).take j ++ (fallbacks log)[j] ::
      (fallbacks log).drop (j + 1) := by
    rw [List.getElem_cons_drop, List.take_append_drop]
  obtain ⟨before, t, after, hlog, hbefore⟩ := exists_of_fallbacks hsplit
  have hmem : (fallbacks log)[i] ∈ fallbacks before := by
    rw [hbefore]
    exact List.mem_take_iff_getElem.2 ⟨i, by omega, rfl⟩
  obtain ⟨pre, post, hpre⟩ := List.append_of_mem hmem
  obtain ⟨earlier, t', later, rfl, -⟩ := exists_of_fallbacks hpre
  refine (h _ _ _ hlog _ _ rfl).once t' (fallbacks log)[i].2 ?_
  rw [← UInt32.toNat_inj.1 heq]
  simp

/-- A block is resent only if it is one of the file, with its packets and one `BlockEnd`. -/
theorem FallbackLaw.whole (h : FallbackLaw totalChunks log)
    (hfirsts : FirstSends totalChunks m (firstSends log))
    (hbooks : Bookkeeping totalChunks pipelineDepth H m) (hpackets : ∀ c ∈ H, IsPacket c)
    {p : UInt32 × List Datagram} (hp : p ∈ fallbacks log) :
    p.1 < totalBlocks totalChunks ∧ p.2.length = packetsInBlock p.1 totalChunks + 1 := by
  obtain ⟨pre, post, hsplit⟩ := List.append_of_mem hp
  obtain ⟨before, t, after, rfl, -⟩ := exists_of_fallbacks hsplit
  have hlaw := h _ _ _ rfl p.1 p.2 rfl
  constructor
  · have hmem : blockEndOf totalChunks p.1 ∈ m.udp := by
      refine hfirsts.sub ?_
      rw [firstSends_append]
      exact List.mem_append_left _ hlaw.ended
    have hend := blockEndOf_endFor totalChunks p.1
    obtain ⟨b, -, ⟨c, hc, -, heq⟩ | ⟨hb, heq⟩⟩ := hbooks.sent _ hmem
    · rw [← heq] at hend
      exact absurd hend (hpackets c hc).not_endFor
    · rw [heq] at hend
      rwa [hend.inj (blockEndOf_endFor totalChunks b)]
  · obtain ⟨packets, heq, hlength, -⟩ := hlaw.whole
    rw [heq, List.length_append, hlength, List.length_singleton]

/-! ## Repairs -/

/-- How many ids an input lists as missing. -/
def LoopInput.listed : LoopInput → ℕ
  | .event (.ack (.missing _ ids)) => ids.length
  | _ => 0

theorem handleMissing_udp (b : UInt32) (ids : List UInt16) (m : Manager) :
    ∃ out, (handleMissing b ids m).udp = m.udp ++ out ∧ out.length ≤ ids.length := by
  obtain ⟨heq, -⟩ | ⟨entry, -, heq⟩ := handleMissing_cases b ids m
  · rw [heq]
    exact ⟨[], (List.append_nil _).symm, Nat.zero_le _⟩
  · rw [heq]
    exact ⟨_, rfl, List.length_filterMap_le _ _⟩

theorem LogMove.repairs_le {l : LoopInput} {acts : List Activity}
    (h : LogMove totalChunks pipelineDepth l m m' acts) :
    (acts.map Activity.repairs).sum ≤ l.listed := by
  have hnone (hno : ∀ a ∈ acts, a.repairs = 0) : (acts.map Activity.repairs).sum ≤ l.listed := by
    rw [List.sum_eq_zero (by simpa using hno)]
    exact Nat.zero_le _
  cases h with
  | @missing b ids =>
      obtain ⟨out, hout, hle⟩ := handleMissing_udp b ids m
      rw [Manager.sentSince_eq hout]
      have hsum : ((out.map Activity.repair).map Activity.repairs).sum = out.length := by
        simp [Function.comp_def, Activity.repairs]
      rw [List.map_cons, List.sum_cons, hsum]
      exact (Nat.zero_add _).trans_le hle
  | drain => exact hnone (by simp [Activity.repairs])
  | chunk => exact hnone (by simp [Activity.repairs])
  | complete => exact hnone (by simp [Activity.repairs])
  | tick => exact hnone (by simp)
  | timeout =>
      refine hnone fun a ha => ?_
      obtain ⟨b, ds, -, -, rfl⟩ := mem_resends ha
      rfl

theorem repairs_le_of_reaches (hrun : (blockManager totalChunks pipelineDepth).Reaches ls s)
    (horderly : Orderly totalChunks ls) (hm : s.manager? = some m) :
    ((managerLog totalChunks pipelineDepth ls).map fun e => e.2.repairs).sum
      ≤ (ls.map LoopInput.listed).sum := by
  refine managerLog_rule (P := fun ls log _ => (log.map fun e => e.2.repairs).sum
    ≤ (ls.map LoopInput.listed).sum) le_rfl ?_ hrun horderly hm
  intro ls log m l m' acts _ _ ih hmove
  have hacts : ((acts.map (Prod.mk m.now)).map fun e => e.2.repairs).sum
      = (acts.map Activity.repairs).sum := by rw [List.map_map]; rfl
  rw [List.map_append, List.sum_append, List.map_append, List.sum_append, hacts,
    List.map_singleton, List.sum_singleton]
  exact Nat.add_le_add ih hmove.repairs_le

/-! ## All together -/

/-- First sends and fallbacks send each packet and each `BlockEnd` once at most. -/
theorem sent_le_of_reaches (hrun : (blockManager totalChunks pipelineDepth).Reaches ls s)
    (horderly : Orderly totalChunks ls) (hpackets : ∀ c ∈ handledChunks ls, IsPacket c)
    (hm : s.manager? = some m) :
    m.udp.length ≤ 2 * (totalChunks.toNat + (totalBlocks totalChunks).toNat)
      + (ls.map LoopInput.listed).sum := by
  obtain ⟨m₀, hm₀, hbooks⟩ := bookkeeping_of_reaches hrun horderly
  rw [hm] at hm₀
  cases hm₀
  have hfirsts := (traced_of_reaches hrun horderly hpackets hm).firsts
  have hlaw := fallbackLaw_of_reaches hrun horderly hpackets
  have hpackets' : ∀ c ∈ bucketSet (handledChunks ls), IsPacket c := hpackets
  have hfallbacks : ((fallbacks (managerLog totalChunks pipelineDepth ls)).map
      fun p => p.2.length).sum ≤ totalChunks.toNat + (totalBlocks totalChunks).toNat := by
    have hle := Groups.sum_le_of_pairwise (f := fun p => p.2.length)
      (g := fun b => packetsInBlock (.ofNat b) totalChunks + 1) (n := (totalBlocks totalChunks).toNat)
      (fun p hp => UInt32.lt_iff_toNat_lt.1 (hlaw.whole hfirsts hbooks hpackets' hp).1)
      hlaw.pairwise fun p hp => by
        rw [UInt32.ofNat_toNat]
        exact (hlaw.whole hfirsts hbooks hpackets' hp).2.le
    rw [List.sum_map_add, sum_packetsInBlock] at hle
    simpa using hle
  rw [← managerLog_sent hrun horderly hm, length_allSends]
  have hfirst := hfirsts.length_le horderly hbooks
  have hrepairs := repairs_le_of_reaches hrun horderly hm
  omega

end SecureTransfer.Sender
