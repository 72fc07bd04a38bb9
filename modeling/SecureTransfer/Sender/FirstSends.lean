import SecureTransfer.Sender.EndsLast
import SecureTransfer.Sender.Log
import SecureTransfer.Sender.Reader

set_option autoImplicit false

/-! # What `place_chunk` sends

`FirstSends` is about the datagrams that `place_chunk` has sent so far: none comes twice, a
`BlockEnd` comes after all packets of its block and not without them. `Places` says what a function
that places chunks adds to them; the functions of the manager compose it chunk by chunk. -/

namespace SecureTransfer.Sender

variable {totalChunks : UInt32} {pipelineDepth : ℕ} {H : Set EncryptedChunk} {m m' mid : Manager}
  {sends sends' : List Datagram} {b : UInt32} {c : EncryptedChunk}

/-! ## Chunks as the workers make them -/

/-- The packet of the chunk carries its block and its index. -/
def IsPacket (c : EncryptedChunk) : Prop :=
  DataFor (EncryptedChunk.block c) (blockOf c.chunkId).2 c.packet

/-- Made by `worker_thread`, whatever the keys and the data. -/
def FromWorker (c : EncryptedChunk) : Prop :=
  ∃ crates key nonce chunk, c = workerThread crates key nonce chunk

theorem FromWorker.isPacket (h : FromWorker c) : IsPacket c := by
  obtain ⟨crates, key, nonce, chunk, rfl⟩ := h
  exact ⟨_, _, rfl⟩

/-- The `BlockEnd` of a block of the file. -/
def blockEndOf (totalChunks b : UInt32) : Datagram :=
  BlockEndPacket.encode b (UInt32.ofNat (packetsInBlock b totalChunks))

theorem blockEndOf_endFor (totalChunks b : UInt32) : EndFor b (blockEndOf totalChunks b) :=
  ⟨_, rfl⟩

theorem IsPacket.ne_end (h : IsPacket c) (b : UInt32) :
    c.packet ≠ blockEndOf totalChunks b :=
  fun heq => h.not_endFor (heq ▸ blockEndOf_endFor totalChunks b)

/-- Packets of the same bytes are packets of the same chunk. -/
theorem IsPacket.chunkId_eq {c' : EncryptedChunk} (h : IsPacket c)
    (h' : IsPacket c') (heq : c.packet = c'.packet) : c.chunkId = c'.chunkId := by
  rw [IsPacket, ← heq] at h'
  have hpos := DataFor.inj h h'
  exact blockOf_injective (Prod.ext hpos.1 hpos.2)

/-- A packet that has been sent is one of a chunk taken over. -/
theorem Bookkeeping.exists_of_sent (hbooks : Bookkeeping totalChunks pipelineDepth H m)
    (hpackets : ∀ c ∈ H, IsPacket c) (hc : IsPacket c) (hmem : c.packet ∈ m.udp) :
    ∃ c' ∈ H, c'.chunkId = c.chunkId ∧ c'.packet = c.packet ∧
      m.Started (EncryptedChunk.block c) := by
  obtain ⟨b, hstarted, ⟨c', hc', hblock, hpacket⟩ | ⟨-, hend⟩⟩ := hbooks.sent _ hmem
  · have hid := (hpackets c' hc').chunkId_eq hc hpacket
    refine ⟨c', hc', hid, hpacket, ?_⟩
    rwa [EncryptedChunk.block, ← hid, show (blockOf c'.chunkId).1 = b from hblock]
  · exact absurd hend (hc.ne_end b)

/-- What has been sent of an `Open` block is in its cache. -/
theorem Bookkeeping.cached_of_sent (hbooks : Bookkeeping totalChunks pipelineDepth H m)
    (hpackets : ∀ c ∈ H, IsPacket c) (hc : IsPacket c) (hmem : c.packet ∈ m.udp)
    {entry : BlockState}
    (hl : m.blockStates.lookup (EncryptedChunk.block c) = some (.opened entry)) :
    entry.packets[EncryptedChunk.index c]? = some (some c.packet) := by
  obtain ⟨c', hc', hid, hpacket, -⟩ := hbooks.exists_of_sent hpackets hc hmem
  obtain ⟨slot, hslot, hholds⟩ := hbooks.placed c' hc'
  have hpos : blockOf c'.chunkId = blockOf c.chunkId := congrArg blockOf hid
  rw [EncryptedChunk.block, hpos, hl, Option.some.injEq] at hslot
  subst hslot
  rwa [BlockSlot.Holds, EncryptedChunk.index, hpos, hpacket] at hholds

/-- A block that is not full has a free index. -/
theorem EntryOk.exists_free {entry : BlockState} (h : EntryOk totalChunks H b entry)
    (hshort : entry.sent ≠ entry.total) : ∃ i : ℕ, entry.packets[i]? = some none := by
  by_contra hnone
  refine hshort ?_
  rw [h.sent, ← h.length, List.countP_eq_length]
  intro p hp
  obtain ⟨i, hi⟩ := List.mem_iff_getElem?.1 hp
  cases p with
  | some packet => rfl
  | none => exact absurd ⟨i, hi⟩ hnone

/-- Once the `BlockEnd` is out, no index is free. -/
theorem EntryOk.isSome_of_ended {entry : BlockState} (h : EntryOk totalChunks H b entry)
    (hended : entry.endEmitted = true) : ∀ p ∈ entry.packets, p.isSome = true := by
  refine List.countP_eq_length.1 ?_
  rw [← h.sent, h.endEmitted.1 hended, h.length]

/-- The packet of a chunk not yet taken over has not been sent. -/
theorem Bookkeeping.packet_notMem (hbooks : Bookkeeping totalChunks pipelineDepth H m)
    (hpackets : ∀ c ∈ H, IsPacket c) (hc : IsPacket c)
    (hfresh : ∀ c' ∈ H, c'.chunkId ≠ c.chunkId) : c.packet ∉ m.udp := by
  intro hmem
  obtain ⟨c', hc', hid, -⟩ := hbooks.exists_of_sent hpackets hc hmem
  exact hfresh c' hc' hid

/-! ## The invariant -/

/-- Every packet of the block is one of `udp`. -/
abbrev AllSent (totalChunks : UInt32) (udp : List Datagram) (b : UInt32) : Prop :=
  SentAll totalChunks {c | IsPacket c} udp b

structure FirstSends (totalChunks : UInt32) (m : Manager) (sends : List Datagram) : Prop where
  sub : sends ⊆ m.udp
  nodup : sends.Nodup
  cached : ∀ b entry, m.blockStates.lookup b = some (.opened entry) →
    ∀ (i : ℕ) (packet : Bytes), entry.packets[i]? = some (some packet) → packet ∈ sends
  ended : ∀ b entry, m.blockStates.lookup b = some (.opened entry) → entry.endEmitted = true →
    blockEndOf totalChunks b ∈ sends
  ends : EachAfter (fun pre d => ∀ b, EndFor b d →
    d = blockEndOf totalChunks b ∧ AllSent totalChunks pre b) sends
  complete : ∀ b < totalBlocks totalChunks, AllSent totalChunks sends b →
    blockEndOf totalChunks b ∈ sends

/-- How the ages of the `Open` entries change when `out` is sent: an entry keeps its time stamp
    while no `BlockEnd` of its block goes out, or gets a new one. -/
def Ages (m m' : Manager) (out : List Datagram) : Prop :=
  ∀ b entry', m'.blockStates.lookup b = some (.opened entry') →
    (∃ entry, m.blockStates.lookup b = some (.opened entry) ∧
      entry'.fallbackSent = entry.fallbackSent ∧
      (entry'.lastAckActivity = m.now ∨
        entry'.lastAckActivity = entry.lastAckActivity ∧ ∀ d ∈ out, ¬ EndFor b d)) ∨
    (¬ m.Started b ∧ entry'.fallbackSent = false ∧ entry'.lastAckActivity = m.now)

/-- Placing chunks adds `out` to what has been sent. -/
structure Places (totalChunks : UInt32) (m : Manager) (sends : List Datagram) (m' : Manager)
    (out : List Datagram) : Prop where
  keeps : Keeps m m'
  udp : m'.udp = m.udp ++ out
  firsts : FirstSends totalChunks m' (sends ++ out)
  unresolved : ∀ d ∈ out, ∃ b, ¬ m.Resolved b ∧ ForBlock b d
  ages : Ages m m' out

theorem Ages.trans {out out' : List Datagram} (hkeeps : Keeps m mid) (h : Ages m mid out)
    (h' : Ages mid m' out') : Ages m m' (out ++ out') := by
  intro b entry' hl'
  rcases h' b entry' hl' with ⟨entry, hl, hflag, hage⟩ | ⟨hnot, hflag, hage⟩
  · rcases h b entry hl with ⟨entry₀, hl₀, hflag₀, hage₀⟩ | ⟨hnot₀, hflag₀, hage₀⟩
    · refine .inl ⟨entry₀, hl₀, hflag.trans hflag₀, ?_⟩
      rcases hage with hnow | ⟨hsame, hnoend⟩
      · exact .inl (hnow.trans hkeeps.now)
      · rcases hage₀ with hnow₀ | ⟨hsame₀, hnoend₀⟩
        · exact .inl (hsame.trans hnow₀)
        · refine .inr ⟨hsame.trans hsame₀, fun d hd => ?_⟩
          exact (List.mem_append.1 hd).elim (hnoend₀ d) (hnoend d)
    · refine .inr ⟨hnot₀, hflag.trans hflag₀, ?_⟩
      rcases hage with hnow | ⟨hsame, -⟩
      · exact hnow.trans hkeeps.now
      · exact hsame.trans hage₀
  · exact .inr ⟨fun hs => hnot (hkeeps.started b hs), hflag, hage.trans hkeeps.now⟩

theorem Places.trans {out out' : List Datagram} (h : Places totalChunks m sends mid out)
    (h' : Places totalChunks mid (sends ++ out) m' out') :
    Places totalChunks m sends m' (out ++ out') where
  keeps := h.keeps.trans h'.keeps
  udp := by rw [h'.udp, h.udp, List.append_assoc]
  firsts := by rw [← List.append_assoc]; exact h'.firsts
  unresolved := by
    intro d hd
    rcases List.mem_append.1 hd with hd | hd
    · exact h.unresolved d hd
    · obtain ⟨b, hb, hfor⟩ := h'.unresolved d hd
      exact ⟨b, fun hres => hb ((h.keeps.resolved b).2 hres), hfor⟩
  ages := h.ages.trans h.keeps h'.ages

/-! ## Placing a chunk -/

/-- A chunk not taken over before comes to the `Open` entry of its block. -/
structure Arrives (totalChunks : UInt32) (pipelineDepth : ℕ) (H : Set EncryptedChunk) (m : Manager)
    (c : EncryptedChunk) (entry : BlockState) : Prop where
  books : Bookkeeping totalChunks pipelineDepth H m
  packets : ∀ c ∈ H, IsPacket c
  packet : IsPacket c
  below : c.chunkId < totalChunks
  fresh : ∀ c' ∈ H, c'.chunkId ≠ c.chunkId
  opened : m.blockStates.lookup (EncryptedChunk.block c) = some (.opened entry)

/-- The manager once the chunk is in its place. -/
abbrev Manager.after (m : Manager) (entry : BlockState) (c : EncryptedChunk) : Manager :=
  m.placed (EncryptedChunk.block c) entry (EncryptedChunk.index c) c

section Arrives

variable {entry : BlockState} (h : Arrives totalChunks pipelineDepth H m c entry)
include h

theorem Arrives.entryOk : EntryOk totalChunks H (EncryptedChunk.block c) entry :=
  h.books.slots _ _ h.opened

theorem Arrives.room : entry.sent < entry.total ∧ entry.endEmitted = false :=
  h.entryOk.sent_lt (h.entryOk.free h.below h.fresh)

/-- The packet is sent, and the `BlockEnd` behind the last one. -/
theorem Arrives.mem_out {d : Datagram} :
    d ∈ entry.placeOut (EncryptedChunk.block c) c.packet ↔ d = c.packet ∨
      (entry.fills = true ∧ d = blockEndOf totalChunks (EncryptedChunk.block c)) := by
  rw [BlockState.placeOut, h.entryOk.total, List.mem_cons, blockEndOf]
  cases entry.fills <;> simp

theorem Arrives.books_after
    (hok : placeChunk (EncryptedChunk.block c) (blockOf c.chunkId).2 c m
      = .ok (m.after entry c)) :
    Bookkeeping totalChunks pipelineDepth (insert c H) (m.after entry c) := by
  obtain ⟨m', hm', hbooks, -⟩ := h.books.placeChunk h.opened h.below h.fresh
  rw [hok, Except.ok.injEq] at hm'
  exact hm' ▸ hbooks

theorem Arrives.packets_after : ∀ c' ∈ insert c H, IsPacket c' := fun c' hc' =>
  (Set.mem_insert_iff.1 hc').elim (fun heq => heq ▸ h.packet) (h.packets c')

/-- Nothing with the id of the chunk has been sent. -/
theorem Arrives.packet_new {c' : EncryptedChunk} (hc' : IsPacket c') (hid : c'.chunkId = c.chunkId) :
    c'.packet ∉ m.udp :=
  h.books.packet_notMem h.packets hc' fun c'' hc'' => hid ▸ h.fresh c'' hc''

/-- Nor has the `BlockEnd` of its block. -/
theorem Arrives.end_new (hfirsts : FirstSends totalChunks m sends) {d : Datagram}
    (hd : EndFor (EncryptedChunk.block c) d) : d ∉ sends := by
  intro hmem
  obtain ⟨pre, post, hsplit⟩ := List.append_of_mem hmem
  obtain ⟨-, hall⟩ := hfirsts.ends pre d post hsplit _ hd
  obtain ⟨c', hc', hblock, hindex, hsent⟩ := hall _ (blockOf_snd_lt h.below)
  have hid : c'.chunkId = c.chunkId :=
    blockOf_injective (Prod.ext hblock (UInt16.toNat_inj.1 hindex))
  exact h.packet_new hc' hid (hfirsts.sub (hsplit ▸ List.mem_append_left _ hsent))

/-- The packets cached once the chunk is in its place have been sent. -/
theorem Arrives.cached_sent (hfirsts : FirstSends totalChunks m sends) {i : ℕ} {packet : Bytes}
    (hindex : EncryptedChunk.index c < entry.packets.length)
    (hp : (entry.placed (EncryptedChunk.index c) c.packet m.now).packets[i]? = some (some packet)) :
    packet ∈ sends ++ [c.packet] := by
  rw [BlockState.placed, List.getElem?_set] at hp
  split at hp
  · rw [Option.some.injEq, Option.some.injEq] at hp
    exact List.mem_append_right _ (List.mem_singleton.2 hp.symm)
  · exact List.mem_append_left _ (hfirsts.cached _ _ h.opened i packet hp)

theorem Arrives.nodup (hfirsts : FirstSends totalChunks m sends) :
    (sends ++ entry.placeOut (EncryptedChunk.block c) c.packet).Nodup := by
  have hpair : (entry.placeOut (EncryptedChunk.block c) c.packet).Nodup := by
    rw [BlockState.placeOut, h.entryOk.total]
    cases entry.fills with
    | false => simp
    | true =>
        have hne : c.packet ≠ blockEndOf totalChunks (EncryptedChunk.block c) := h.packet.ne_end _
        rw [blockEndOf] at hne
        simpa using hne
  refine List.nodup_append.2 ⟨hfirsts.nodup, hpair, fun d hd d' hd' heq => ?_⟩
  rcases h.mem_out.1 hd' with hpacket | ⟨-, hend⟩
  · exact h.packet_new h.packet rfl (hpacket ▸ heq ▸ hfirsts.sub hd)
  · exact h.end_new hfirsts (blockEndOf_endFor totalChunks _) (hend ▸ heq ▸ hd)

/-- The `BlockEnd` goes out behind the last packet of its block. -/
theorem Arrives.ends (hfirsts : FirstSends totalChunks m sends)
    (hok : placeChunk (EncryptedChunk.block c) (blockOf c.chunkId).2 c m
      = .ok (m.after entry c))
    (hindex : EncryptedChunk.index c < entry.packets.length)
    (hfull : entry.fills = true →
      (entry.placed (EncryptedChunk.index c) c.packet m.now).allCached = true) :
    EachAfter (fun pre d => ∀ b, EndFor b d →
        d = blockEndOf totalChunks b ∧ AllSent totalChunks pre b)
      (sends ++ entry.placeOut (EncryptedChunk.block c) c.packet) := by
  have hpacket := hfirsts.ends.snoc (x := c.packet)
    fun b hend => absurd hend h.packet.not_endFor
  rw [BlockState.placeOut, h.entryOk.total]
  by_cases hfills : entry.fills = true
  · rw [if_pos hfills, ← List.singleton_append, ← List.append_assoc]
    refine hpacket.snoc fun b hend => ?_
    have hb : b = EncryptedChunk.block c :=
      hend.inj (blockEndOf_endFor totalChunks (EncryptedChunk.block c))
    subst hb
    refine ⟨rfl, fun i hi => ?_⟩
    -- the cache is full, and what is cached has been sent
    have hentry : EntryOk totalChunks (insert c H) (EncryptedChunk.block c)
        (entry.placed (EncryptedChunk.index c) c.packet m.now) :=
      (h.books_after hok).slots _ _ (AList.lookup_insert _)
    rw [← hentry.total, ← hentry.length] at hi
    have hsome := (BlockState.allCached_iff hentry.length).1 (hfull hfills) _ (List.getElem_mem hi)
    obtain ⟨packet, hp⟩ := Option.isSome_iff_exists.1 hsome
    rw [← Option.some.injEq, ← List.getElem?_eq_getElem hi] at hp
    obtain ⟨c', hc', hblock, hidx, rfl⟩ := hentry.cached i packet hp
    exact ⟨c', h.packets_after c' hc', hblock, hidx, h.cached_sent hfirsts hindex hp⟩
  · rw [if_neg hfills]
    exact hpacket

/-- Once all packets of a block have been sent, so has its `BlockEnd`. -/
theorem Arrives.complete (hfirsts : FirstSends totalChunks m sends)
    (hok : placeChunk (EncryptedChunk.block c) (blockOf c.chunkId).2 c m
      = .ok (m.after entry c)) :
    ∀ b < totalBlocks totalChunks,
      AllSent totalChunks (sends ++ entry.placeOut (EncryptedChunk.block c) c.packet) b →
      blockEndOf totalChunks b ∈ sends ++ entry.placeOut (EncryptedChunk.block c) c.packet := by
  intro b hb hall
  by_cases hblock : b = EncryptedChunk.block c
  · subst hblock
    by_cases hfills : entry.fills = true
    · exact List.mem_append_right _ (h.mem_out.2 (.inr ⟨hfills, rfl⟩))
    · -- a packet of the block is missing in the cache, so it has not been sent
      have hbooks := h.books_after hok
      have hentry : EntryOk totalChunks (insert c H) (EncryptedChunk.block c)
          (entry.placed (EncryptedChunk.index c) c.packet m.now) :=
        hbooks.slots _ _ (AList.lookup_insert _)
      obtain ⟨i, hi⟩ := hentry.exists_free fun hfull => hfills (decide_eq_true ⟨hfull, h.room.2⟩)
      have hlt : i < packetsInBlock (EncryptedChunk.block c) totalChunks := by
        rw [← hentry.total, ← hentry.length]
        exact (List.getElem?_eq_some_iff.1 hi).1
      obtain ⟨c', hc', hb', hidx, hmem⟩ := hall i hlt
      have hudp : c'.packet ∈ (m.after entry c).udp :=
        (List.mem_append.1 hmem).elim (fun hold => List.mem_append_left _ (hfirsts.sub hold))
          fun hnew => List.mem_append_right _ hnew
      have hl' : (m.after entry c).blockStates.lookup (EncryptedChunk.block c')
          = some (.opened (entry.placed (EncryptedChunk.index c) c.packet m.now)) := by
        rw [hb']
        exact AList.lookup_insert _
      have hcached := hbooks.cached_of_sent h.packets_after hc' hudp hl'
      rw [hidx, hi] at hcached
      cases hcached
  · refine List.mem_append_left _ (hfirsts.complete b hb fun i hi => ?_)
    obtain ⟨c', hc', hb', hidx, hmem⟩ := hall i hi
    refine ⟨c', hc', hb', hidx, (List.mem_append.1 hmem).resolve_right fun hnew => ?_⟩
    rcases h.mem_out.1 hnew with hpacket | ⟨-, hend⟩
    · refine hblock ?_
      rw [← hb', EncryptedChunk.block, IsPacket.chunkId_eq hc' h.packet hpacket]
    · exact hc'.ne_end _ hend

theorem Arrives.ages :
    Ages m (m.after entry c) (entry.placeOut (EncryptedChunk.block c) c.packet) := by
  intro b entry' hl'
  rw [Manager.after, Manager.placed, AList.lookup_insert_ite] at hl'
  split at hl'
  · next hb =>
      cases hl'
      refine .inl ⟨entry, hb ▸ h.opened, rfl, ?_⟩
      by_cases hfills : entry.fills = true
      · exact .inl (if_pos hfills)
      · refine .inr ⟨if_neg hfills, fun d hd => ?_⟩
        rcases h.mem_out.1 hd with rfl | ⟨hfull, -⟩
        · exact h.packet.not_endFor
        · exact absurd hfull hfills
  · next hb =>
      refine .inl ⟨entry', hl', rfl, .inr ⟨rfl, fun d hd hend => ?_⟩⟩
      rcases h.mem_out.1 hd with rfl | ⟨-, rfl⟩
      · exact h.packet.not_endFor hend
      · exact hb (hend.inj (blockEndOf_endFor totalChunks _))

end Arrives

/-- What `place_chunk` sends for a chunk not taken over before is new, and in order. -/
theorem Arrives.places {entry : BlockState} (h : Arrives totalChunks pipelineDepth H m c entry)
    (hfirsts : FirstSends totalChunks m sends)
    (hok : placeChunk (EncryptedChunk.block c) (blockOf c.chunkId).2 c m = .ok m') :
    ∃ out, Places totalChunks m sends m' out := by
  have hkeeps := (placeChunk_keeps hok).1
  obtain ⟨entry₀, hl, hindex, hfull, rfl⟩ := placeChunk_ok hok
  rw [h.opened] at hl
  cases hl
  refine ⟨_, hkeeps, rfl, ⟨?_, h.nodup hfirsts, fun b entry' hl' i packet hp => ?_,
    fun b entry' hl' hended => ?_, h.ends hfirsts hok hindex hfull, h.complete hfirsts hok⟩,
    fun d hd => ⟨EncryptedChunk.block c, ?_, ?_⟩, h.ages⟩
  · exact List.append_subset.2 ⟨fun d hd => List.mem_append_left _ (hfirsts.sub hd),
      List.subset_append_right _ _⟩
  · rw [Manager.placed, AList.lookup_insert_ite] at hl'
    split at hl'
    · cases hl'
      have hsent := h.cached_sent hfirsts hindex hp
      rcases List.mem_append.1 hsent with hold | hnew
      · exact List.mem_append_left _ hold
      · exact List.mem_append_right _ (h.mem_out.2 (.inl (List.mem_singleton.1 hnew)))
    · exact List.mem_append_left _ (hfirsts.cached b entry' hl' i packet hp)
  · rw [Manager.placed, AList.lookup_insert_ite] at hl'
    split at hl'
    · next hb =>
        cases hl'
        have hfills : entry.fills = true := by
          rw [BlockState.placed, h.room.2, Bool.false_or] at hended
          exact hended
        exact List.mem_append_right _ (h.mem_out.2 (.inr ⟨hfills, hb ▸ rfl⟩))
    · exact List.mem_append_left _ (hfirsts.ended b entry' hl' hended)
  · rw [Manager.Resolved, h.opened]
    simp
  · rcases h.mem_out.1 hd with rfl | ⟨-, rfl⟩
    · exact .inl ⟨_, h.packet⟩
    · exact .inr (blockEndOf_endFor totalChunks _)

/-! ## The functions that place chunks -/

/-- Nothing is placed. -/
theorem Places.refl (h : FirstSends totalChunks m sends) : Places totalChunks m sends m [] where
  keeps := .refl m
  udp := (List.append_nil _).symm
  firsts := by rwa [List.append_nil]
  unresolved := nofun
  ages := fun _ entry hl => .inl ⟨entry, hl, rfl, .inr ⟨rfl, nofun⟩⟩

/-- A block that has not been started is buffered, or opened with an empty cache. -/
theorem FirstSends.rebind (h : FirstSends totalChunks m sends) {slot' : BlockSlot}
    (hkeeps : Keeps m m') (hnot : ¬ m.Started b) (hl : m'.blockStates.lookup b = some slot')
    (hslot : (∃ bucket, slot' = .pending bucket) ∨ ∃ total, slot' = .opened (.new total m.now))
    (hother : ∀ b', b' ≠ b → m'.blockStates.lookup b' = m.blockStates.lookup b')
    (hudp : m'.udp = m.udp) : Places totalChunks m sends m' [] := by
  have hentries : ∀ b' entry, m'.blockStates.lookup b' = some (.opened entry) →
      m.blockStates.lookup b' = some (.opened entry) ∨
        (b' = b ∧ ∃ total, entry = .new total m.now) := by
    intro b' entry hl'
    by_cases hb : b' = b
    · subst hb
      rw [hl, Option.some.injEq] at hl'
      rcases hslot with ⟨bucket, rfl⟩ | ⟨total, rfl⟩
      · cases hl'
      · cases hl'
        exact .inr ⟨rfl, total, rfl⟩
    · exact .inl ((hother b' hb).symm.trans hl')
  refine ⟨hkeeps, by rw [hudp, List.append_nil], ?_, nofun, fun b' entry hl' => ?_⟩
  · rw [List.append_nil]
    refine { h with sub := hudp ▸ h.sub, cached := ?_, ended := ?_ }
    · intro b' entry hl' i packet hp
      rcases hentries b' entry hl' with hold | ⟨-, total, rfl⟩
      · exact h.cached b' entry hold i packet hp
      · have := (List.mem_replicate.1 (List.mem_of_getElem? hp)).2
        simp at this
    · intro b' entry hl' hended
      rcases hentries b' entry hl' with hold | ⟨-, total, rfl⟩
      · exact h.ended b' entry hold hended
      · cases hended
  · rcases hentries b' entry hl' with hold | ⟨rfl, total, rfl⟩
    · exact .inl ⟨entry, hold, rfl, .inr ⟨rfl, nofun⟩⟩
    · exact .inr ⟨hnot, rfl, rfl⟩

theorem Manager.not_started (h : m.blockStates.lookup b = none ∨
    ∃ bucket, m.blockStates.lookup b = some (.pending bucket)) : ¬ m.Started b := by
  rintro ⟨slot, hl, hs⟩
  rcases h with h | ⟨bucket, h⟩
  · rw [h] at hl
    cases hl
  · rw [h] at hl
    cases hl
    cases hs

theorem FirstSends.openBlock (h : FirstSends totalChunks m sends)
    (hl : m.blockStates.lookup b = none) :
    Places totalChunks m sends (m.openBlock totalChunks b) [] :=
  h.rebind (openBlock_keeps hl) (Manager.not_started (.inl hl)) (AList.lookup_insert _)
    (.inr ⟨_, rfl⟩) (fun _ hb => AList.lookup_insert_ne hb) rfl

theorem FirstSends.buffer (h : FirstSends totalChunks m sends) {bucket : List EncryptedChunk}
    (hl : m.blockStates.lookup b = none ∨
      ∃ bucket, m.blockStates.lookup b = some (.pending bucket)) :
    Places totalChunks m sends (m.setSlot b (.pending bucket)) [] :=
  h.rebind (bufferChunk_keeps hl) (Manager.not_started hl) (AList.lookup_insert _)
    (.inl ⟨_, rfl⟩) (fun _ hb => AList.lookup_insert_ne hb) rfl

theorem FirstSends.placeBucket {bucket : List EncryptedChunk} (h : FirstSends totalChunks m sends)
    (hbooks : Bookkeeping totalChunks pipelineDepth H m) (hpackets : ∀ c ∈ H, IsPacket c)
    (hl : ∃ entry, m.blockStates.lookup b = some (.opened entry))
    (hnew : NewBucket totalChunks H b bucket) (hbucket : ∀ c ∈ bucket, IsPacket c)
    (hok : Sender.placeBucket b bucket m = .ok m') : ∃ out, Places totalChunks m sends m' out := by
  refine placeBucket_rule (P := fun bucket m m' => ∀ H sends, FirstSends totalChunks m sends →
    Bookkeeping totalChunks pipelineDepth H m → (∀ c ∈ H, IsPacket c) →
    (∃ entry, m.blockStates.lookup b = some (.opened entry)) → NewBucket totalChunks H b bucket →
    (∀ c ∈ bucket, IsPacket c) → ∃ out, Places totalChunks m sends m' out)
    (fun m H sends h _ _ _ _ _ => ⟨[], .refl h⟩) ?_ hok H sends h hbooks hpackets hl hnew hbucket
  rintro c bucket m mid m' rfl hplace ih H sends h hbooks hpackets ⟨entry, hl⟩ hnew hbucket
  obtain ⟨hpacket, hrest⟩ := List.forall_mem_cons.1 hbucket
  obtain ⟨-, hbelow, hfresh⟩ := hnew.head
  have harrives : Arrives totalChunks pipelineDepth H m c entry :=
    ⟨hbooks, hpackets, hpacket, hbelow, hfresh, hl⟩
  obtain ⟨_, hmid, hbooks', hl'⟩ := hbooks.placeChunk hl hbelow hfresh
  rw [hplace] at hmid
  cases hmid
  obtain ⟨out, hout⟩ := harrives.places h hplace
  obtain ⟨out', hout'⟩ := ih _ _ hout.firsts hbooks' harrives.packets_after hl' hnew.tail hrest
  exact ⟨_, hout.trans hout'⟩

theorem FirstSends.openPending (h : FirstSends totalChunks m sends)
    (hbooks : Bookkeeping totalChunks pipelineDepth H m) (hpackets : ∀ c ∈ H, IsPacket c)
    (hroom : m.openSlots < pipelineDepth) (hok : Sender.openPending totalChunks b m = .ok m') :
    ∃ out, Places totalChunks m sends m' out := by
  obtain ⟨bucket, hl, hplace⟩ := openPending_inv hok
  have hbucket : BucketOk H b bucket := hbooks.slots _ _ hl
  obtain ⟨hopened, hnew⟩ := hbooks.openForBucket hl hroom
  have hfirst : Places totalChunks m sends ((m.takeBucket b).openBlock totalChunks b) [] :=
    h.rebind ((takeBucket_keeps hl).trans (openBlock_keeps (AList.lookup_erase b _)))
      (Manager.not_started (.inr ⟨_, hl⟩)) (AList.lookup_insert _) (.inr ⟨_, rfl⟩)
      (fun b' hb => by
        rw [Manager.openBlock, AList.lookup_insert_ne hb, AList.lookup_erase_ne hb]) rfl
  obtain ⟨out, hout⟩ := hfirst.firsts.placeBucket hopened (fun c hc => hpackets c hc.1)
    ⟨_, AList.lookup_insert _⟩ hnew (fun c hc => hpackets c (hbucket.mem c hc).1) hplace
  exact ⟨_, hfirst.trans hout⟩

theorem FirstSends.drainRounds {room : ℕ} (h : FirstSends totalChunks m sends)
    (hbooks : Bookkeeping totalChunks pipelineDepth H m) (hpackets : ∀ c ∈ H, IsPacket c)
    (hroom : m.openSlots + room ≤ pipelineDepth)
    (hok : Sender.drainRounds totalChunks room m = .ok m') :
    ∃ out, Places totalChunks m sends m' out := by
  refine hbooks.drainRounds_rule (P := fun m m' => ∀ sends, FirstSends totalChunks m sends →
    ∃ out, Places totalChunks m sends m' out) (fun m sends h => ⟨[], .refl h⟩) ?_ hroom hok sends h
  intro nextId m mid m' hbooks hroom _ hopen ih sends h
  obtain ⟨out, hout⟩ := h.openPending hbooks hpackets hroom hopen
  obtain ⟨out', hout'⟩ := ih _ hout.firsts
  exact ⟨_, hout.trans hout'⟩

theorem FirstSends.drainPending (h : FirstSends totalChunks m sends)
    (hbooks : Bookkeeping totalChunks pipelineDepth H m) (hpackets : ∀ c ∈ H, IsPacket c)
    (hok : Sender.drainPending totalChunks pipelineDepth m = .ok m') :
    ∃ out, Places totalChunks m sends m' out :=
  h.drainRounds hbooks hpackets (by have := hbooks.openSlots_le; omega) hok

theorem FirstSends.admitOrBuffer (h : FirstSends totalChunks m sends)
    (hbooks : Bookkeeping totalChunks pipelineDepth H m) (hpackets : ∀ c ∈ H, IsPacket c)
    (hc : IsPacket c) (hbelow : c.chunkId < totalChunks) (hfresh : ∀ c' ∈ H, c'.chunkId ≠ c.chunkId)
    (hok : Sender.admitOrBuffer totalChunks pipelineDepth c m = .ok m') :
    ∃ out, Places totalChunks m sends m' out := by
  cases admission_of_ok hok with
  | drop => exact ⟨[], .refl h⟩
  | place hl hplace => exact Arrives.places ⟨hbooks, hpackets, hc, hbelow, hfresh, hl⟩ h hplace
  | append hl => exact ⟨[], h.buffer (.inr ⟨_, hl⟩)⟩
  | openBlock hl hroom hplace =>
      have hopened := hbooks.openBlock hl hroom (blockOf_fst_lt hbelow)
      have hfirst := h.openBlock hl
      obtain ⟨out, hout⟩ := Arrives.places
        ⟨hopened, hpackets, hc, hbelow, hfresh, AList.lookup_insert _⟩ hfirst.firsts hplace
      exact ⟨_, hfirst.trans hout⟩
  | buffer hl => exact ⟨[], h.buffer (.inl hl)⟩

end SecureTransfer.Sender
