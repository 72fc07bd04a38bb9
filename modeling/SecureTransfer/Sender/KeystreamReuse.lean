import SecureTransfer.Sender.Reader

set_option autoImplicit false

/-! # Counter blocks of a transfer

`buildCounter` puts the chunk id itself into the low half of the initial counter, so the counters of
consecutive chunks are one block apart while a full chunk consumes 88 of them. -/

namespace SecureTransfer.Sender

open CounterMode

/-- The number of 16-byte blocks (the last one may be partial) in `size` bytes. -/
def aesBlocks (size : ℕ) : ℕ :=
  (size + 15) / 16

/-- AES is fed different counter blocks at any two different positions (chunk number, block index)
    of the chunks `cs` of one file, so no keystream byte is used for two plaintext bytes. -/
def NoKeystreamReuse (nonce : Nonce) (cs : List ReadChunk) : Prop :=
  ∀ (k k' : ℕ) (c c' : ReadChunk), cs[k]? = some c → cs[k']? = some c' →
    ∀ j j', j < aesBlocks c.data.length → j' < aesBlocks c'.data.length →
      (k, j) ≠ (k', j') → counterBlock nonce c.chunkId j ≠ counterBlock nonce c'.chunkId j'

theorem aesBlocks_pos {size : ℕ} (h : 0 < size) : 0 < aesBlocks size := by
  unfold aesBlocks; omega

theorem aesBlocks_lt {size : ℕ} (h : size ≤ chunkSize) : aesBlocks size < 2 ^ 63 := by
  rw [chunkSize] at h; unfold aesBlocks; omega

/-- As long as the ids do not wrap, reuse of counter blocks is the stride-one instance of
    `NoReuse`. -/
theorem noKeystreamReuse_iff_noReuse (nonce : Nonce) {counts : List ℕ} {file : Bytes}
    (hreads : LegalReads counts file) (hids : (readerThread counts file 0).length ≤ 2 ^ 32) :
    NoKeystreamReuse nonce (readerThread counts file 0) ↔
      NoReuse (fun k => 1 * k)
        (fun k => aesBlocks (((readerThread counts file 0)[k]?.map (·.data.length)).getD 0))
        (readerThread counts file 0).length := by
  have hid : ∀ {k : ℕ} {c : ReadChunk}, (readerThread counts file 0)[k]? = some c →
      c.chunkId.toNat = k := by
    intro k c hc
    have hk : k < (readerThread counts file 0).length := (List.getElem?_eq_some_iff.1 hc).1
    rw [readerThread_chunkId hc, UInt32.zero_add, UInt32.toNat_ofNat_of_lt' (lt_of_lt_of_le hk hids)]
  have hsmall : ∀ {k : ℕ} {c : ReadChunk}, (readerThread counts file 0)[k]? = some c →
      ∀ j < aesBlocks c.data.length, j < 2 ^ 63 := fun hc j hj =>
    hj.trans (aesBlocks_lt (readerThread_length hreads (List.mem_of_getElem? hc)).2)
  constructor
  · intro hno k k' hk hk' j j' hj hj' heq
    obtain ⟨c, hc⟩ : ∃ c, (readerThread counts file 0)[k]? = some c := ⟨_, List.getElem?_eq_getElem hk⟩
    obtain ⟨c', hc'⟩ : ∃ c, (readerThread counts file 0)[k']? = some c :=
      ⟨_, List.getElem?_eq_getElem hk'⟩
    simp only [hc, hc', Option.map_some, Option.getD_some, one_mul] at hj hj' heq
    by_contra hne
    refine hno k k' c c' hc hc' j j' hj hj' (fun h => hne (Prod.ext_iff.1 h)) ?_
    rw [counterBlock_eq_iff _ _ _ (hsmall hc j hj) (hsmall hc' j' hj'), hid hc, hid hc', heq]
  · intro hno k k' c c' hc hc' j j' hj hj' hne heq
    rw [counterBlock_eq_iff _ _ _ (hsmall hc j hj) (hsmall hc' j' hj'), hid hc, hid hc'] at heq
    have hk := (List.getElem?_eq_some_iff.1 hc).1
    have hk' := (List.getElem?_eq_some_iff.1 hc').1
    have hpos := hno k k' hk hk' j j' (by simpa [hc] using hj) (by simpa [hc'] using hj')
      (by simpa using heq)
    exact hne (Prod.ext hpos.1 hpos.2)

/-- **Keystream reuse.** For every nonce, file and legal sequence of reads, no counter block of the
    transfer is used twice exactly when every chunk but the last fits into one AES block (and the
    ids do not wrap around `u32`). -/
theorem noKeystreamReuse_iff (nonce : Nonce) {counts : List ℕ} {file : Bytes}
    (hreads : LegalReads counts file) :
    NoKeystreamReuse nonce (readerThread counts file 0) ↔
      (readerThread counts file 0).length ≤ 2 ^ 32 ∧
        ∀ (k : ℕ) (c : ReadChunk), (readerThread counts file 0)[k]? = some c →
          k + 1 < (readerThread counts file 0).length → c.data.length ≤ 16 := by
  by_cases hids : (readerThread counts file 0).length ≤ 2 ^ 32
  · rw [noKeystreamReuse_iff_noReuse nonce hreads hids, noReuse_stride_iff]
    · constructor
      · intro hfit
        refine ⟨hids, fun k c hc hk => ?_⟩
        have := hfit k hk
        rw [hc, Option.map_some, Option.getD_some, aesBlocks] at this
        omega
      · rintro ⟨_, hfit⟩ k hk
        have hlt : k < (readerThread counts file 0).length := by omega
        have := hfit k _ (List.getElem?_eq_getElem hlt) hk
        rw [List.getElem?_eq_getElem hlt, Option.map_some, Option.getD_some, aesBlocks]
        omega
    · intro k hk
      rw [List.getElem?_eq_getElem hk, Option.map_some, Option.getD_some]
      exact aesBlocks_pos (readerThread_length hreads (List.getElem_mem hk)).1
  · -- chunk `2 ^ 32` has the id of chunk 0, hence its counters
    refine ⟨fun hno => ?_, fun h => absurd h.1 hids⟩
    have h0 : 0 < (readerThread counts file 0).length := by omega
    have hw : 2 ^ 32 < (readerThread counts file 0).length := by omega
    have hc0 := List.getElem?_eq_getElem h0
    have hcw := List.getElem?_eq_getElem hw
    refine absurd ?_ (hno 0 (2 ^ 32) _ _ hc0 hcw 0 0 ?_ ?_ (by simp))
    · rw [readerThread_chunkId hc0, readerThread_chunkId hcw]; rfl
    · exact aesBlocks_pos (readerThread_length hreads (List.getElem_mem h0)).1
    · exact aesBlocks_pos (readerThread_length hreads (List.getElem_mem hw)).1

/-- **Keystream reuse, in terms of the reads.** When every read fills the buffer no counter block is
    used twice exactly when the file is one chunk; in general, when every chunk but the last is at
    most 16 bytes. -/
theorem noKeystreamReuse_iff_short (nonce : Nonce) {counts : List ℕ} {file : Bytes}
    (hreads : LegalReads counts file) :
    (NoKeystreamReuse nonce (readerThread counts file 0) ↔
      (readerThread counts file 0).length ≤ 2 ^ 32 ∧
        ∀ (k : ℕ) (c : ReadChunk), (readerThread counts file 0)[k]? = some c →
          k + 1 < (readerThread counts file 0).length → c.data.length ≤ 16) ∧
    (FullReads counts file →
      (NoKeystreamReuse nonce (readerThread counts file 0) ↔ file.length ≤ chunkSize)) := by
  have hiff := noKeystreamReuse_iff nonce hreads
  refine ⟨hiff, fun hfull => hiff.trans ?_⟩
  have hlen : (readerThread counts file 0).length = _ := readerThread_length_eq hfull
  constructor
  · rintro ⟨_, hfit⟩
    by_contra hlong
    -- two chunks or more: the first one is full
    have htwo : 1 < (readerThread counts file 0).length := by
      rw [hlen]
      rw [chunkSize] at hlong ⊢
      omega
    have hfirst := List.getElem?_eq_getElem (Nat.zero_lt_of_lt htwo)
    have hdata := hfit 0 _ hfirst htwo
    rw [readerThread_data hfull hfirst, Nat.zero_mul, List.drop_zero, List.length_take] at hdata
    rw [chunkSize] at hdata hlong
    omega
  · intro hshort
    have hone : (readerThread counts file 0).length ≤ 1 := by
      rw [hlen]
      rw [chunkSize] at hshort ⊢
      omega
    exact ⟨hone.trans (by norm_num), fun k c _ hk => by omega⟩

/-- A three-byte file, read in one go. -/
theorem noKeystreamReuse_iff_short_threeBytes :
    NoKeystreamReuse (Vector.replicate 16 0) (readerThread [3, 0] [1, 2, 3] 0) :=
  ((noKeystreamReuse_iff_short _ (show LegalReads [3, 0] [1, 2, 3] by decide)).2
    (by decide)).2 (by decide)

/-- **Reuse in a 1401-byte file.** AES block 1 of chunk 0 and AES block 0 of chunk 1 use the same
    counter block. -/
theorem keystream_reused_twoChunks :
    FullReads [1400, 1, 0] (List.replicate 1401 0) ∧
      ¬ NoKeystreamReuse (Vector.replicate 16 0)
        (readerThread [1400, 1, 0] (List.replicate 1401 0) 0) := by
  refine ⟨by decide +kernel, fun hno => ?_⟩
  refine hno 0 1 ⟨0, (List.replicate 1401 0).take 1400⟩
    ⟨1, ((List.replicate 1401 0).drop 1400).take 1⟩ rfl rfl 1 0 ?_ ?_ (by decide) (by decide)
  · rw [List.length_take, List.length_replicate]
    decide
  · rw [List.length_take, List.length_drop, List.length_replicate]
    decide

end SecureTransfer.Sender
