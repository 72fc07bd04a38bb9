import Mathlib.Data.Finset.Card
import Mathlib.Data.List.Nodup
import SecureTransfer.Pipeline
import SecureTransfer.Receiver.Writer

set_option autoImplicit false

/-! # The writer on a sequence of chunks

`writerThread` is the loop of `writer_thread` on the chunks of a channel that then closes. Whatever
order they come in and however often, the writer ends with chunks `0, …, m - 1` written, `m` being
the least id that has not arrived (`writer_reorders`). Its buffer is another matter: it is pruned at
the cursor only, so a chunk that comes again after it has been written stays (`pruned_iff`). -/

namespace SecureTransfer.Receiver

open Reorder

variable {received arrivals : List DecryptedChunk} {chunk : DecryptedChunk} {w : Writer}
  {expectedChunks : UInt32}

/-- One round of the loop for each of `received`. -/
def Writer.receiveAll (received : List DecryptedChunk) (w : Writer) : Writer :=
  received.foldl (fun w chunk => w.receive chunk.chunkId chunk.data) w

/-- The loop: the writer when it ends, and the chunks it has left in the channel. -/
def writerThread (expectedChunks : UInt32) :
    List DecryptedChunk → Writer → Writer × List DecryptedChunk
  | [], w => (w, [])
  | chunk :: rest, w =>
    let w' := w.receive chunk.chunkId chunk.data
    if expectedChunks ≤ w'.nextChunk then (w', rest) else writerThread expectedChunks rest w'

@[simp] theorem Writer.receiveAll_nil (w : Writer) : w.receiveAll [] = w := rfl

theorem Writer.receiveAll_snoc (received : List DecryptedChunk) (chunk : DecryptedChunk)
    (w : Writer) : w.receiveAll (received ++ [chunk])
      = (w.receiveAll received).receive chunk.chunkId chunk.data := by
  rw [receiveAll, List.foldl_append]
  rfl

/-! ## What the writer has of what it has received -/

/-- The writer holds exactly what it has received: everything is buffered or written, and nothing
    else is. -/
structure Writer.Holding (received : List DecryptedChunk) (w : Writer) : Prop where
  sound : w.Sound fun chunkId data => ⟨chunkId, data⟩ ∈ received
  has : ∀ chunk ∈ received, w.Has chunk.chunkId
  settled : Settled w.buffer
  counted : w.Counted

theorem Writer.Holding.init : Writer.init.Holding [] where
  sound := .init
  has := nofun
  settled := rfl
  counted := .init

theorem Writer.Holding.receive (h : w.Holding received) (chunk : DecryptedChunk) :
    (w.receive chunk.chunkId chunk.data).Holding (received ++ [chunk]) := by
  have hsound : w.Sound fun chunkId data => ⟨chunkId, data⟩ ∈ received ++ [chunk] :=
    h.sound.mono fun _ _ hmem => List.mem_append_left _ hmem
  have hnew : ⟨chunk.chunkId, chunk.data⟩ ∈ received ++ [chunk] := by simp
  refine ⟨?_, fun c hc => ?_, ?_, h.counted.receive _ _⟩
  · rw [Writer.Sound, receive_buffer]
    exact hsound.offer hnew
  · rw [Writer.Has, receive_buffer]
    refine Has.offer hsound hnew ?_
    rcases List.mem_append.1 hc with hc | hc
    · exact .inr (h.has c hc)
    · exact .inl (congrArg DecryptedChunk.chunkId (List.mem_singleton.1 hc))
  · rw [receive_buffer]
    exact settled_offer _ _

theorem Writer.holding_receiveAll (received : List DecryptedChunk) :
    (Writer.init.receiveAll received).Holding received := by
  induction received using List.reverseRecOn with
  | nil => exact .init
  | append_singleton received chunk ih =>
      rw [receiveAll_snoc]
      exact ih.receive chunk

/-- The writer never writes more chunks than there are, if all ids are ids of the file. -/
theorem Writer.Holding.length_le (h : w.Holding received)
    (hbelow : ∀ c ∈ received, c.chunkId < expectedChunks) :
    w.outfile.length ≤ expectedChunks.toNat := by
  by_contra hlong
  have hidx : expectedChunks.toNat < w.outfile.length := by omega
  have hout := h.sound.out _ _ (List.getElem?_eq_getElem hidx)
  rw [iterate_succ_eq, UInt32.ofNat_toNat] at hout
  exact absurd (hbelow _ hout) (UInt32.lt_irrefl _)

theorem Writer.Holding.nextChunk_toNat (h : w.Holding received)
    (hlen : w.outfile.length < 2 ^ 32) : w.nextChunk.toNat = w.outfile.length := by
  have hnext : w.nextChunk = UInt32.ofNat w.outfile.length := by
    rw [← iterate_succ_eq]
    exact h.sound.next
  rw [hnext, UInt32.toNat_ofNat_of_lt' hlen]

/-- The chunk due next has not been received. -/
theorem Writer.Holding.nextChunk_missing (h : w.Holding received)
    (hlen : w.outfile.length < 2 ^ 32) {c : DecryptedChunk} (hc : c ∈ received) :
    c.chunkId ≠ w.nextChunk := by
  intro hid
  rcases h.has c hc with ⟨data, hl⟩ | ⟨i, hi, heq⟩
  · have hsettled : w.pending.lookup w.nextChunk = none := h.settled
    rw [hid] at hl
    cases hl.symm.trans hsettled
  · have hnext := h.nextChunk_toNat hlen
    change i < w.outfile.length at hi
    rw [iterate_succ_eq] at heq
    rw [← hid, heq, UInt32.toNat_ofNat_of_lt' (hi.trans hlen)] at hnext
    omega

/-- What has been written is what has been received, in the order of the ids. -/
theorem Writer.Holding.written (h : w.Holding received) {i : ℕ} (hi : i < w.outfile.length) :
    ∃ data, w.outfile[i]? = some data ∧ ⟨UInt32.ofNat i, data⟩ ∈ received := by
  have hdata := List.getElem?_eq_getElem hi
  refine ⟨_, hdata, ?_⟩
  rw [← iterate_succ_eq]
  exact h.sound.out i _ hdata

/-! ## The loop -/

/-- The chunks before the last one received leave some chunk of the file out. -/
def NoneSooner (expectedChunks : UInt32) (received : List DecryptedChunk) : Prop :=
  ∀ sooner, sooner <+: received → sooner ≠ received →
    ∃ id < expectedChunks, ∀ c ∈ sooner, c.chunkId ≠ id

/-- The loop takes chunks from the channel until it has all of the file or the channel closes. -/
theorem writerThread_spec (hbelow : ∀ c ∈ received ++ arrivals, c.chunkId < expectedChunks)
    (hmore : arrivals ≠ [] → (Writer.init.receiveAll received).nextChunk < expectedChunks)
    (hsooner : NoneSooner expectedChunks received) :
    ∃ taken, arrivals
        = taken ++ (writerThread expectedChunks arrivals (Writer.init.receiveAll received)).2 ∧
      (writerThread expectedChunks arrivals (Writer.init.receiveAll received)).1
        = Writer.init.receiveAll (received ++ taken) ∧
      ((writerThread expectedChunks arrivals (Writer.init.receiveAll received)).2 ≠ [] →
        expectedChunks ≤ (Writer.init.receiveAll (received ++ taken)).nextChunk) ∧
      NoneSooner expectedChunks (received ++ taken) := by
  induction arrivals generalizing received with
  | nil =>
      refine ⟨[], rfl, ?_, fun hne => absurd rfl hne, ?_⟩
      · rw [List.append_nil]
        rfl
      · rwa [List.append_nil]
  | cons chunk rest ih =>
      have hholding := Writer.holding_receiveAll received
      have hlen := hholding.length_le fun c hc => hbelow c (List.mem_append_left _ hc)
      have hnext := hmore (List.cons_ne_nil _ _)
      -- what is due next has not been received, so the loop could not have ended here
      have hsooner' : NoneSooner expectedChunks (received ++ [chunk]) := by
        intro sooner hprefix hne
        by_cases hshort : sooner <+: received
        · by_cases heq : sooner = received
          · subst heq
            exact ⟨_, hnext, fun c hc =>
              hholding.nextChunk_missing (lt_of_le_of_lt hlen (UInt32.toNat_lt _)) hc⟩
          · exact hsooner sooner hshort heq
        · exact absurd ((List.prefix_concat_iff.1 hprefix).resolve_left hne) hshort
      rw [writerThread, ← Writer.receiveAll_snoc]
      split
      · next hdone => exact ⟨[chunk], rfl, rfl, fun _ => hdone, hsooner'⟩
      · next hmore' =>
          have hbelow' : ∀ c ∈ received ++ [chunk] ++ rest, c.chunkId < expectedChunks := by
            rwa [List.append_assoc]
          obtain ⟨taken, hsplit, hwriter, hleft, hnone⟩ :=
            ih hbelow' (fun _ => UInt32.not_le.1 hmore') hsooner'
          rw [List.append_assoc] at hwriter hleft hnone
          refine ⟨chunk :: taken, ?_, hwriter, hleft, hnone⟩
          rw [List.cons_append, ← hsplit]

/-- `m` is the least id of the file under which nothing has arrived, or the number of chunks of the
    file if there is none. -/
structure FirstMissing (expectedChunks : UInt32) (arrivals : List DecryptedChunk) (m : ℕ) :
    Prop where
  le : m ≤ expectedChunks.toNat
  below : ∀ i < m, ∃ c ∈ arrivals, c.chunkId.toNat = i
  missing : m < expectedChunks.toNat → ∀ c ∈ arrivals, c.chunkId.toNat ≠ m

theorem FirstMissing.unique {arrivals' : List DecryptedChunk} {m m' : ℕ}
    (h : FirstMissing expectedChunks arrivals m) (h' : FirstMissing expectedChunks arrivals' m')
    (hset : ∀ c, c ∈ arrivals ↔ c ∈ arrivals') : m = m' := by
  rcases Nat.lt_trichotomy m m' with hlt | heq | hgt
  · obtain ⟨c, hc, hid⟩ := h'.below m hlt
    exact absurd hid (h.missing (lt_of_lt_of_le hlt h'.le) c ((hset c).2 hc))
  · exact heq
  · obtain ⟨c, hc, hid⟩ := h.below m' hgt
    exact absurd hid (h'.missing (lt_of_lt_of_le hgt h.le) c ((hset c).1 hc))

/-- A chunk that has arrived is among the first `m` if and only if all before it have arrived. -/
theorem FirstMissing.lt_iff {m : ℕ} (h : FirstMissing expectedChunks arrivals m)
    (hchunk : chunk ∈ arrivals) (hlt : chunk.chunkId < expectedChunks) :
    chunk.chunkId.toNat < m ↔ ∀ id < chunk.chunkId, ∃ c ∈ arrivals, c.chunkId = id := by
  rw [UInt32.lt_iff_toNat_lt] at hlt
  constructor
  · intro hm id hid
    obtain ⟨c, hc, heq⟩ := h.below id.toNat (lt_trans (UInt32.lt_iff_toNat_lt.1 hid) hm)
    exact ⟨c, hc, UInt32.toNat_inj.1 heq⟩
  · intro hall
    by_contra hge
    have hne := h.missing (by omega) chunk hchunk
    have hm : m < 2 ^ 32 := lt_of_le_of_lt (Nat.le_of_not_lt hge) (UInt32.toNat_lt _)
    obtain ⟨c, hc, hid⟩ := hall (UInt32.ofNat m) (by
      rw [UInt32.lt_iff_toNat_lt, UInt32.toNat_ofNat_of_lt' hm]
      omega)
    refine h.missing (by omega) c hc ?_
    rw [hid, UInt32.toNat_ofNat_of_lt' hm]

/-- What the writer has received determines what it has written. -/
theorem Writer.Holding.result (h : w.Holding received)
    (hbelow : ∀ c ∈ received, c.chunkId < expectedChunks)
    (hsame : ∀ c ∈ received, ∀ c' ∈ received, c.chunkId = c'.chunkId → c.data = c'.data) :
    FirstMissing expectedChunks received w.outfile.length ∧
      w.nextChunk.toNat = w.outfile.length ∧
      ∀ c ∈ received, c.chunkId.toNat < w.outfile.length →
        w.outfile[c.chunkId.toNat]? = some c.data := by
  have hle := h.length_le hbelow
  have hlt : w.outfile.length < 2 ^ 32 := lt_of_le_of_lt hle (UInt32.toNat_lt _)
  have hnext := h.nextChunk_toNat hlt
  refine ⟨⟨hle, fun i hi => ?_, fun _ c hc hid => ?_⟩, hnext, fun c hc hid => ?_⟩
  · obtain ⟨data, _, hmem⟩ := h.written hi
    exact ⟨_, hmem, UInt32.toNat_ofNat_of_lt' (hi.trans hlt)⟩
  · exact h.nextChunk_missing hlt hc (UInt32.toNat_inj.1 (hid.trans hnext.symm))
  · obtain ⟨data, hdata, hmem⟩ := h.written hid
    rw [UInt32.ofNat_toNat] at hmem
    rw [hdata, hsame c hc _ hmem rfl]

/-- The loop from the start. -/
theorem writerThread_taken (hbelow : ∀ c ∈ arrivals, c.chunkId < expectedChunks) :
    ∃ taken, arrivals = taken ++ (writerThread expectedChunks arrivals .init).2 ∧
      (writerThread expectedChunks arrivals .init).1.Holding taken ∧
      ((writerThread expectedChunks arrivals .init).2 ≠ [] →
        expectedChunks ≤ (writerThread expectedChunks arrivals .init).1.nextChunk) ∧
      NoneSooner expectedChunks taken := by
  have hstart : arrivals ≠ [] → (Writer.init.receiveAll []).nextChunk < expectedChunks := by
    intro hne
    obtain ⟨c, hc⟩ := List.exists_mem_of_ne_nil arrivals hne
    exact UInt32.lt_of_le_of_lt UInt32.zero_le (hbelow c hc)
  have hnothing : NoneSooner expectedChunks [] :=
    fun sooner hprefix hne => absurd (List.prefix_nil.1 hprefix) hne
  obtain ⟨taken, hsplit, hwriter, hleft, hnone⟩ := writerThread_spec hbelow hstart hnothing
  rw [List.nil_append, Writer.receiveAll_nil] at *
  refine ⟨taken, hsplit, ?_, ?_, hnone⟩
  · rw [hwriter]
    exact Writer.holding_receiveAll taken
  · rwa [hwriter]

/-- The result in terms of everything that comes through the channel: what the loop leaves behind
    when it has the whole file makes no difference. -/
theorem writerThread_result (hbelow : ∀ c ∈ arrivals, c.chunkId < expectedChunks)
    (hsame : ∀ c ∈ arrivals, ∀ c' ∈ arrivals, c.chunkId = c'.chunkId → c.data = c'.data) :
    FirstMissing expectedChunks arrivals
        (writerThread expectedChunks arrivals .init).1.outfile.length ∧
      (∀ c ∈ arrivals, c.chunkId.toNat
          < (writerThread expectedChunks arrivals .init).1.outfile.length →
        (writerThread expectedChunks arrivals .init).1.outfile[c.chunkId.toNat]? = some c.data) ∧
      (writerThread expectedChunks arrivals .init).1.Counted := by
  obtain ⟨taken, hsplit, hholding, hleft, _⟩ := writerThread_taken hbelow
  have hmem : ∀ c ∈ taken, c ∈ arrivals := fun c hc => by
    rw [hsplit]
    exact List.mem_append_left _ hc
  obtain ⟨hfirst, hnext, hdata⟩ := hholding.result (fun c hc => hbelow c (hmem c hc))
    fun c hc c' hc' => hsame c (hmem c hc) c' (hmem c' hc')
  refine ⟨⟨hfirst.le, fun i hi => ?_, fun hlt c hc => ?_⟩, fun c hc hid => ?_, hholding.counted⟩
  · obtain ⟨c, hc, hid⟩ := hfirst.below i hi
    exact ⟨c, hmem c hc, hid⟩
  · -- something is missing, so nothing has been left behind
    have hempty : (writerThread expectedChunks arrivals .init).2 = [] := by
      by_contra hne
      have hdone := UInt32.le_iff_toNat_le.1 (hleft hne)
      omega
    rw [hempty, List.append_nil] at hsplit
    exact hfirst.missing hlt c (hsplit ▸ hc)
  · obtain ⟨c', hc', hid'⟩ := hfirst.below _ hid
    rw [hsame c hc c' (hmem c' hc') (UInt32.toNat_inj.1 hid'.symm), ← hid']
    exact hdata c' hc' (hid' ▸ hid)

/-- **The reorder buffer.** Chunks of the file come in any order and any number of times. The loop
    stops as soon as it has received all of them; it has then written, each once and in the order
    of their ids, the chunks before the first one missing, and it reports how many bytes and chunks
    these are. Another sequence of the same chunks leads to the same file and the same result. -/
theorem writer_reorders (hbelow : ∀ c ∈ arrivals, c.chunkId < expectedChunks)
    (hsame : ∀ c ∈ arrivals, ∀ c' ∈ arrivals, c.chunkId = c'.chunkId → c.data = c'.data) :
    (∃ m received, arrivals = received ++ (writerThread expectedChunks arrivals .init).2 ∧
      FirstMissing expectedChunks received m ∧ NoneSooner expectedChunks received ∧
      ((writerThread expectedChunks arrivals .init).2 ≠ [] → m = expectedChunks.toNat) ∧
      (writerThread expectedChunks arrivals .init).1.outfile.length = m ∧
      (∀ c ∈ received, c.chunkId.toNat < m →
        (writerThread expectedChunks arrivals .init).1.outfile[c.chunkId.toNat]? = some c.data) ∧
      (writerThread expectedChunks arrivals .init).1.bytes
        = (writerThread expectedChunks arrivals .init).1.outfile.flatten.length ∧
      (writerThread expectedChunks arrivals .init).1.chunksWritten.toNat = m) ∧
    ∀ arrivals', (∀ c, c ∈ arrivals ↔ c ∈ arrivals') →
      (writerThread expectedChunks arrivals' .init).1.outfile
        = (writerThread expectedChunks arrivals .init).1.outfile ∧
      (writerThread expectedChunks arrivals' .init).1.bytes
        = (writerThread expectedChunks arrivals .init).1.bytes ∧
      (writerThread expectedChunks arrivals' .init).1.chunksWritten
        = (writerThread expectedChunks arrivals .init).1.chunksWritten := by
  constructor
  · obtain ⟨taken, hsplit, hholding, hleft, hnone⟩ := writerThread_taken hbelow
    have hmem : ∀ c ∈ taken, c ∈ arrivals := fun c hc => by
      rw [hsplit]
      exact List.mem_append_left _ hc
    obtain ⟨hfirst, hnext, hdata⟩ := hholding.result (fun c hc => hbelow c (hmem c hc))
      fun c hc c' hc' => hsame c (hmem c hc) c' (hmem c' hc')
    refine ⟨_, taken, hsplit, hfirst, hnone, fun hne => ?_, rfl, hdata, ?_, ?_⟩
    · have hdone := UInt32.le_iff_toNat_le.1 (hleft hne)
      exact le_antisymm hfirst.le (hnext ▸ hdone)
    · rw [hholding.counted.bytes, List.length_flatten]
    · have hlt := lt_of_le_of_lt hfirst.le (UInt32.toNat_lt expectedChunks)
      rw [hholding.counted.chunksWritten, UInt32.toNat_ofNat_of_lt' hlt]
  · intro arrivals' hset
    obtain ⟨hfirst, hdata, hcounted⟩ := writerThread_result hbelow hsame
    obtain ⟨hfirst', hdata', hcounted'⟩ := writerThread_result
      (fun c hc => hbelow c ((hset c).2 hc))
      fun c hc c' hc' => hsame c ((hset c).2 hc) c' ((hset c').2 hc')
    have hlen := hfirst.unique hfirst' hset
    have hout : (writerThread expectedChunks arrivals' .init).1.outfile
        = (writerThread expectedChunks arrivals .init).1.outfile := by
      refine List.ext_getElem? fun i => ?_
      by_cases hi : i < (writerThread expectedChunks arrivals .init).1.outfile.length
      · obtain ⟨c, hc, rfl⟩ := hfirst.below i hi
        rw [hdata c hc hi, hdata' c ((hset c).1 hc) (hlen ▸ hi)]
      · rw [List.getElem?_eq_none (by omega), List.getElem?_eq_none (by omega)]
    exact ⟨hout, by rw [hcounted.bytes, hcounted'.bytes, hout],
      by rw [hcounted.chunksWritten, hcounted'.chunksWritten, hout]⟩

/-- Three chunks arrive backwards, one of them twice. -/
theorem writer_reorders_backwards :
    (writerThread 3 [⟨0, [1]⟩, ⟨1, [2]⟩, ⟨2, [3]⟩] .init).1.outfile
      = (writerThread 3 [⟨2, [3]⟩, ⟨1, [2]⟩, ⟨2, [3]⟩, ⟨0, [1]⟩] .init).1.outfile :=
  ((@writer_reorders [⟨2, [3]⟩, ⟨1, [2]⟩, ⟨2, [3]⟩, ⟨0, [1]⟩] 3 (by decide) (by decide)).2
    [⟨0, [1]⟩, ⟨1, [2]⟩, ⟨2, [3]⟩] fun c => by simp; tauto).1

/-! ## What stays in the buffer -/

/-- One iteration of the loop: the writer before it, the chunk it receives, the writer after it. -/
structure WriterRound where
  before : Writer
  chunk : DecryptedChunk
  after : Writer

/-- The iterations of `writerThread`. -/
def writerRounds (expectedChunks : UInt32) : List DecryptedChunk → Writer → List WriterRound
  | [], _ => []
  | chunk :: rest, w =>
    let w' := w.receive chunk.chunkId chunk.data
    ⟨w, chunk, w'⟩ ::
      if expectedChunks ≤ w'.nextChunk then [] else writerRounds expectedChunks rest w'

/-- No chunk already written is buffered, so the buffer is no larger than the number of distinct
    chunks that have been received before their turn. -/
structure Writer.Pruned (received : List DecryptedChunk) (w : Writer) : Prop where
  ahead : ∀ chunkId data, w.pending.lookup chunkId = some data → w.nextChunk < chunkId
  size : w.pending.entries.length
    ≤ ((received.map DecryptedChunk.chunkId).filter (w.nextChunk < ·)).toFinset.card

/-- The iteration `k` of the loop has received the chunks up to and including number `k`. -/
theorem writerRounds_after_getElem? {received arrivals : List DecryptedChunk} {k : ℕ}
    {r : WriterRound}
    (hr : (writerRounds expectedChunks arrivals (Writer.init.receiveAll received))[k]? = some r) :
    r.before = Writer.init.receiveAll (received ++ arrivals.take k) ∧
      arrivals[k]? = some r.chunk ∧
      r.after = Writer.init.receiveAll (received ++ arrivals.take (k + 1)) ∧
      r.after = r.before.receive r.chunk.chunkId r.chunk.data := by
  induction arrivals generalizing received k with
  | nil => cases hr
  | cons chunk rest ih =>
      rw [writerRounds, ← Writer.receiveAll_snoc] at hr
      cases k with
      | zero =>
          simp only [List.getElem?_cons_zero, Option.some.injEq] at hr
          subst hr
          simp [Writer.receiveAll_snoc]
      | succ k =>
          rw [List.getElem?_cons_succ] at hr
          split at hr
          · cases hr
          · obtain ⟨hbefore, hchunk, hafter, hreceive⟩ := ih hr
            simp only [List.append_assoc, List.singleton_append] at hbefore hafter
            exact ⟨hbefore, hchunk, hafter, hreceive⟩

theorem writerRounds_getElem? {k : ℕ} {r : WriterRound}
    (hr : (writerRounds expectedChunks arrivals .init)[k]? = some r) :
    r.before = Writer.init.receiveAll (arrivals.take k) ∧ arrivals[k]? = some r.chunk ∧
      r.after = Writer.init.receiveAll (arrivals.take (k + 1)) ∧
      r.after = r.before.receive r.chunk.chunkId r.chunk.data := by
  rw [← Writer.receiveAll_nil .init] at hr
  exact writerRounds_after_getElem? hr

/-- The iterations that lead to iteration `k`, last first. -/
theorem writerRounds_pred {k : ℕ} {r : WriterRound}
    (hr : (writerRounds expectedChunks arrivals w)[k + 1]? = some r) :
    ∃ r', (writerRounds expectedChunks arrivals w)[k]? = some r' := by
  obtain ⟨hlt, _⟩ := List.getElem?_eq_some_iff.1 hr
  exact ⟨_, List.getElem?_eq_getElem (by omega)⟩

theorem succ_le_of_ne {key key' : UInt32} (hle : key ≤ key') (hne : key' ≠ key) :
    key + 1 ≤ key' := by
  rw [UInt32.le_iff_toNat_le] at hle ⊢
  have hlt : key.toNat ≠ key'.toNat := fun heq => hne (UInt32.toNat_inj.1 heq.symm)
  have hone : (1 : UInt32).toNat = 1 := rfl
  rw [UInt32.toNat_add, hone]
  exact (Nat.mod_le _ _).trans (by omega)

/-- A buffer without late chunks is pruned. -/
theorem Writer.Holding.pruned (h : w.Holding received) (hahead : Ahead w.buffer) :
    w.Pruned received := by
  have hlt : ∀ chunkId data, w.pending.lookup chunkId = some data → w.nextChunk < chunkId := by
    intro chunkId data hl
    have hle := UInt32.le_iff_toNat_le.1 (hahead chunkId data hl)
    rw [UInt32.lt_iff_toNat_lt]
    refine lt_of_le_of_ne hle fun heq => ?_
    have hsettled : w.pending.lookup w.nextChunk = none := h.settled
    rw [UInt32.toNat_inj.1 heq, hl] at hsettled
    cases hsettled
  refine ⟨hlt, AList.length_entries_le fun chunkId data hl => ?_⟩
  have hreceived := h.sound.pending chunkId data hl
  rw [List.mem_toFinset, List.mem_filter]
  exact ⟨List.mem_map.2 ⟨_, hreceived, rfl⟩, decide_eq_true (hlt chunkId data hl)⟩

theorem Writer.ahead_receive (h : Ahead w.buffer) (hturn : w.nextChunk ≤ chunk.chunkId) :
    Ahead (w.receive chunk.chunkId chunk.data).buffer := by
  rw [receive_buffer]
  have hinserted : Ahead { w.buffer with pending := w.pending.insert chunk.chunkId chunk.data } :=
    h.insert hturn
  exact hinserted.drain (fun _ _ => succ_le_of_ne) _

/-- A chunk that comes after it has been written stays. -/
theorem Writer.not_pruned_receive (h : w.Holding received)
    (hlate : chunk.chunkId < w.nextChunk) :
    ¬ (w.receive chunk.chunkId chunk.data).Pruned (received ++ [chunk]) := by
  intro hpruned
  have hne : chunk.chunkId ≠ w.nextChunk := UInt32.ne_of_lt hlate
  have hbuffer : (w.receive chunk.chunkId chunk.data).buffer
      = { w.buffer with pending := w.pending.insert chunk.chunkId chunk.data } := by
    rw [receive_buffer]
    exact offer_behind h.settled hne
  have hpending : (w.receive chunk.chunkId chunk.data).pending
      = w.pending.insert chunk.chunkId chunk.data := congrArg Buffer.pending hbuffer
  have hnext : (w.receive chunk.chunkId chunk.data).nextChunk = w.nextChunk :=
    congrArg Buffer.next hbuffer
  have hahead := hpruned.ahead chunk.chunkId chunk.data (by rw [hpending, AList.lookup_insert])
  rw [hnext] at hahead
  exact UInt32.lt_asymm hlate hahead

/-- As long as no chunk comes late, the buffer is ahead of the cursor. -/
theorem ahead_before
    (hturn : ∀ r ∈ writerRounds expectedChunks arrivals .init,
      r.before.nextChunk ≤ r.chunk.chunkId) {k : ℕ} {r : WriterRound}
    (hr : (writerRounds expectedChunks arrivals .init)[k]? = some r) : Ahead r.before.buffer := by
  induction k generalizing r with
  | zero =>
      obtain ⟨hbefore, -⟩ := writerRounds_getElem? hr
      rw [hbefore]
      exact fun _ _ hl => nomatch hl
  | succ k ih =>
      obtain ⟨r', hr'⟩ := writerRounds_pred hr
      obtain ⟨hbefore, -⟩ := writerRounds_getElem? hr
      obtain ⟨-, -, hafter, hreceive⟩ := writerRounds_getElem? hr'
      rw [hbefore, ← hafter, hreceive]
      exact Writer.ahead_receive (ih hr') (hturn r' (List.mem_of_getElem? hr'))

/-- **Pruning.** The buffer is pruned in every iteration of the loop if and only if no chunk is
    received after it has been written. -/
theorem pruned_iff (expectedChunks : UInt32) (arrivals : List DecryptedChunk) :
    (∀ (k : ℕ) (r : WriterRound), (writerRounds expectedChunks arrivals .init)[k]? = some r →
        r.after.Pruned (arrivals.take (k + 1))) ↔
      ∀ r ∈ writerRounds expectedChunks arrivals .init,
        r.before.nextChunk ≤ r.chunk.chunkId := by
  constructor
  · intro hpruned r hr
    obtain ⟨k, hk⟩ := List.mem_iff_getElem?.1 hr
    obtain ⟨hbefore, hchunk, -, hreceive⟩ := writerRounds_getElem? hk
    by_contra hlate
    have hholding : r.before.Holding (arrivals.take k) := by
      rw [hbefore]
      exact Writer.holding_receiveAll _
    refine Writer.not_pruned_receive hholding (UInt32.not_le.1 hlate) ?_
    have htake : arrivals.take k ++ [r.chunk] = arrivals.take (k + 1) := by
      rw [List.take_add_one, hchunk, Option.toList_some]
    rw [← hreceive, htake]
    exact hpruned k r hk
  · intro hturn k r hr
    obtain ⟨-, -, hafter, hreceive⟩ := writerRounds_getElem? hr
    have hholding : r.after.Holding (arrivals.take (k + 1)) := by
      rw [hafter]
      exact Writer.holding_receiveAll _
    refine hholding.pruned ?_
    rw [hreceive]
    exact Writer.ahead_receive (ahead_before hturn hr) (hturn r (List.mem_of_getElem? hr))

/-- A chunk comes twice. The second time it stays in the buffer, below the cursor. -/
theorem pruned_fails_on_repetition :
    ¬ ∀ (expectedChunks : UInt32) (arrivals : List DecryptedChunk) (k : ℕ) (r : WriterRound),
      (writerRounds expectedChunks arrivals .init)[k]? = some r →
        r.after.Pruned (arrivals.take (k + 1)) := by
  intro hpruned
  have hlate := (hpruned 2 [⟨0, [7]⟩, ⟨0, [7]⟩] 1 _ rfl).ahead 0 [7] rfl
  exact absurd hlate (by decide)

end SecureTransfer.Receiver
