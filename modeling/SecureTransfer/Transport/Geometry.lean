import Mathlib.Data.Finset.Card
import Mathlib.Data.Set.Function
import SecureTransfer.Config
import SecureTransfer.Lib.Blocks

set_option autoImplicit false

/-! # Block geometry (`transport.rs`, shared helpers)

The arithmetic between global chunk ids and `(block_id, packet_in_block)` pairs, at the widths of
the source: `u32` ids, `u16` positions, `u64` intermediate totals. `chunkIdOf` wraps as the release
build does; `chunkIdOverflows` tells when the debug build panics instead. The lemmas restate each
function over `ℕ`, where it is one of `Blocks`, and the later modules use only these. -/

namespace SecureTransfer

/-- `PACKETS_PER_BLOCK as u32`. -/
def perBlock : UInt32 := UInt32.ofNat packetsPerBlock

/-- `u64::saturating_sub`. -/
def saturatingSub (a b : UInt64) : UInt64 :=
  if b ≤ a then a - b else 0

/-- `u64::div_ceil`. -/
def divCeil (a b : UInt64) : UInt64 :=
  if a % b = 0 then a / b else a / b + 1

/-- `(block_id, packet_in_block)` of a global chunk id. -/
def blockOf (chunkId : UInt32) : UInt32 × UInt16 :=
  (chunkId / perBlock, (chunkId % perBlock).toUInt16)

/-- Global chunk id of a `(block_id, packet_in_block)` pair, with wrapping arithmetic. -/
def chunkIdOf (blockId : UInt32) (packetInBlock : UInt16) : UInt32 :=
  blockId * perBlock + packetInBlock.toUInt32

/-- The product or the sum in `chunk_id_of` does not fit a `u32`. -/
def chunkIdOverflows (blockId : UInt32) (packetInBlock : UInt16) : Bool :=
  2 ^ 32 ≤ blockId.toNat * packetsPerBlock + packetInBlock.toNat

/-- Number of packets of `blockId` in a file of `totalChunks` chunks. -/
def packetsInBlock (blockId totalChunks : UInt32) : ℕ :=
  let start := blockId.toUInt64 * UInt64.ofNat packetsPerBlock
  let remaining := saturatingSub totalChunks.toUInt64 start
  (min remaining (UInt64.ofNat packetsPerBlock)).toNat

/-- Number of blocks of a file of `totalChunks` chunks. -/
def totalBlocks (totalChunks : UInt32) : UInt32 :=
  (divCeil totalChunks.toUInt64 (UInt64.ofNat packetsPerBlock)).toUInt32

/-! ## The same over `ℕ` -/

theorem saturatingSub_toNat (a b : UInt64) : (saturatingSub a b).toNat = a.toNat - b.toNat := by
  unfold saturatingSub
  split
  · next h => exact UInt64.toNat_sub_of_le _ _ h
  · next h =>
      have : a.toNat < b.toNat := by simpa [UInt64.le_iff_toNat_le] using h
      simp
      omega

theorem divCeil_toNat (a b : UInt64) (hb : 1 < b.toNat) :
    (divCeil a b).toNat = (a.toNat + (b.toNat - 1)) / b.toNat := by
  have hpos : 0 < b.toNat := by omega
  have hdm := Nat.div_add_mod a.toNat b.toNat
  have hmod := Nat.mod_lt a.toNat hpos
  have hceil : (a.toNat + (b.toNat - 1)) / b.toNat
      = a.toNat / b.toNat + (a.toNat % b.toNat + (b.toNat - 1)) / b.toNat := by
    conv_lhs => rw [← hdm, Nat.add_assoc, Nat.mul_add_div hpos]
  have hzero : (a % b = 0) ↔ a.toNat % b.toNat = 0 := by
    rw [← UInt64.toNat_inj, UInt64.toNat_mod]; rfl
  unfold divCeil
  split
  · next h =>
      have hnone : (a.toNat % b.toNat + (b.toNat - 1)) / b.toNat = 0 := by
        rw [hzero.1 h, Nat.zero_add]
        exact Nat.div_eq_of_lt (Nat.sub_one_lt hpos.ne')
      rw [UInt64.toNat_div, hceil, hnone, Nat.add_zero]
  · next h =>
      have hne : a.toNat % b.toNat ≠ 0 := fun h0 => h (hzero.2 h0)
      have hone : (a.toNat % b.toNat + (b.toNat - 1)) / b.toNat = 1 := by
        rw [Nat.div_eq_iff hpos]; omega
      have hquot : a.toNat / b.toNat ≤ a.toNat / 2 := Nat.div_le_div_left (by omega) (by omega)
      have ha : a.toNat < 2 ^ 64 := a.toNat_lt
      rw [UInt64.toNat_add, UInt64.toNat_div, hceil, hone, Nat.mod_eq_of_lt]
      · rfl
      · have h1 : (1 : UInt64).toNat = 1 := rfl
        rw [h1]; omega

theorem packetsInBlock_eq (blockId totalChunks : UInt32) :
    packetsInBlock blockId totalChunks = min (totalChunks.toNat - blockId.toNat * 256) 256 := by
  have hb : blockId.toNat < 2 ^ 32 := blockId.toNat_lt
  have hper : (UInt64.ofNat packetsPerBlock).toNat = 256 := rfl
  have hstart : (blockId.toUInt64 * UInt64.ofNat packetsPerBlock).toNat = blockId.toNat * 256 := by
    rw [UInt64.toNat_mul, UInt32.toNat_toUInt64, hper]
    omega
  have hmin : ∀ x y : UInt64, (min x y).toNat = min x.toNat y.toNat := by
    intro x y
    have hdef : min x y = if x ≤ y then x else y := rfl
    rw [hdef]
    split
    · next h => rw [min_eq_left (UInt64.le_iff_toNat_le.1 h)]
    · next h =>
        have hle : ¬ x.toNat ≤ y.toNat := fun hle => h (UInt64.le_iff_toNat_le.2 hle)
        rw [min_eq_right (by omega)]
  simp only [packetsInBlock, hmin, saturatingSub_toNat, hstart, hper, UInt32.toNat_toUInt64]

theorem totalBlocks_toNat (totalChunks : UInt32) :
    (totalBlocks totalChunks).toNat = (totalChunks.toNat + 255) / 256 := by
  have ht : totalChunks.toNat < 2 ^ 32 := totalChunks.toNat_lt
  have hper : (UInt64.ofNat packetsPerBlock).toNat = 256 := rfl
  rw [totalBlocks, UInt64.toNat_toUInt32, divCeil_toNat _ _ (by rw [hper]; omega), hper,
    UInt32.toNat_toUInt64]
  omega

theorem blockOf_fst_toNat (chunkId : UInt32) : (blockOf chunkId).1.toNat = chunkId.toNat / 256 := by
  rw [blockOf, UInt32.toNat_div]; rfl

theorem blockOf_snd_toNat (chunkId : UInt32) : (blockOf chunkId).2.toNat = chunkId.toNat % 256 := by
  have hper : perBlock.toNat = 256 := rfl
  rw [blockOf, UInt32.toNat_toUInt16, UInt32.toNat_mod, hper]
  omega

theorem chunkIdOf_toNat (blockId : UInt32) (packetInBlock : UInt16) :
    (chunkIdOf blockId packetInBlock).toNat
      = (blockId.toNat * 256 + packetInBlock.toNat) % 2 ^ 32 := by
  have hper : perBlock.toNat = 256 := rfl
  rw [chunkIdOf, UInt32.toNat_add, UInt32.toNat_mul, hper, UInt16.toNat_toUInt32]
  omega

theorem packetsInBlock_eq_size (blockId totalChunks : UInt32) :
    packetsInBlock blockId totalChunks
      = Blocks.size packetsPerBlock totalChunks.toNat blockId.toNat :=
  packetsInBlock_eq blockId totalChunks

theorem totalBlocks_eq_count (totalChunks : UInt32) :
    (totalBlocks totalChunks).toNat = Blocks.count packetsPerBlock totalChunks.toNat :=
  totalBlocks_toNat totalChunks

private theorem packetsPerBlock_pos : 0 < packetsPerBlock := by decide

/-! ## Places -/

/-- A block id and a position as numbers. -/
def place (c : UInt32 × UInt16) : ℕ × ℕ :=
  (c.1.toNat, c.2.toNat)

theorem place_injective : Function.Injective place := by
  rintro ⟨b, i⟩ ⟨b', i'⟩ h
  obtain ⟨hb, hi⟩ := Prod.mk.inj h
  exact Prod.ext (UInt32.toNat_inj.1 hb) (UInt16.toNat_inj.1 hi)

theorem place_blockOf (chunkId : UInt32) :
    place (blockOf chunkId) = Blocks.split packetsPerBlock chunkId.toNat :=
  Prod.ext (blockOf_fst_toNat chunkId) (blockOf_snd_toNat chunkId)

/-- The places of a file are the pairs inside its blocks. -/
theorem isPlace_iff {totalChunks : UInt32} {c : UInt32 × UInt16} :
    Blocks.IsPlace packetsPerBlock totalChunks.toNat (place c)
      ↔ c.1 < totalBlocks totalChunks ∧ c.2.toNat < packetsInBlock c.1 totalChunks := by
  rw [UInt32.lt_iff_toNat_lt, totalBlocks_eq_count, packetsInBlock_eq_size]
  rfl

theorem packetsInBlock_pos_iff {blockId totalChunks : UInt32} :
    0 < packetsInBlock blockId totalChunks ↔ blockId < totalBlocks totalChunks := by
  rw [packetsInBlock_eq_size, Blocks.size_pos_iff packetsPerBlock_pos, UInt32.lt_iff_toNat_lt,
    totalBlocks_eq_count]

theorem packetsInBlock_le (blockId totalChunks : UInt32) :
    packetsInBlock blockId totalChunks ≤ 256 := by
  rw [packetsInBlock_eq_size]
  exact Blocks.size_le _ _ _

/-- The positions of a file are the pairs inside its blocks. -/
theorem packet_lt_iff {totalChunks blockId : UInt32} {i : ℕ} :
    i < packetsInBlock blockId totalChunks
      ↔ i < 256 ∧ blockId.toNat * 256 + i < totalChunks.toNat := by
  rw [packetsInBlock_eq_size]
  exact Blocks.lt_size_iff

/-- Put together, the blocks have as many packets as there are chunks. -/
theorem sum_packetsInBlock (totalChunks : UInt32) :
    ((List.range (totalBlocks totalChunks).toNat).map fun b =>
      packetsInBlock (.ofNat b) totalChunks).sum = totalChunks.toNat := by
  have hsizes : ∀ b ∈ List.range (totalBlocks totalChunks).toNat,
      packetsInBlock (.ofNat b) totalChunks
        = Blocks.size packetsPerBlock totalChunks.toNat b := by
    intro b hb
    have hlt := (List.mem_range.1 hb).trans (UInt32.toNat_lt _)
    rw [packetsInBlock_eq_size, UInt32.toNat_ofNat_of_lt' hlt]
  rw [List.map_congr_left hsizes, totalBlocks_eq_count]
  exact Blocks.sum_size packetsPerBlock_pos _

/-! ## Round trips -/

@[simp] theorem chunkIdOf_blockOf (chunkId : UInt32) :
    chunkIdOf (blockOf chunkId).1 (blockOf chunkId).2 = chunkId := by
  apply UInt32.toNat_inj.mp
  have hid : chunkId.toNat < 2 ^ 32 := chunkId.toNat_lt
  rw [chunkIdOf_toNat, blockOf_fst_toNat, blockOf_snd_toNat]
  omega

@[simp] theorem chunkIdOverflows_blockOf (chunkId : UInt32) :
    chunkIdOverflows (blockOf chunkId).1 (blockOf chunkId).2 = false := by
  have hid : chunkId.toNat < 2 ^ 32 := chunkId.toNat_lt
  simp only [chunkIdOverflows, blockOf_fst_toNat, blockOf_snd_toNat, packetsPerBlock,
    decide_eq_false_iff_not]
  omega

/-- Chunk ids are determined by their block and position. -/
theorem blockOf_injective : Function.Injective blockOf := by
  intro a b h
  rw [← chunkIdOf_blockOf a, ← chunkIdOf_blockOf b, h]

theorem isPlace_blockOf {chunkId totalChunks : UInt32} (h : chunkId < totalChunks) :
    (blockOf chunkId).1 < totalBlocks totalChunks ∧
      (blockOf chunkId).2.toNat < packetsInBlock (blockOf chunkId).1 totalChunks := by
  rw [← isPlace_iff, place_blockOf]
  exact (Blocks.isPlace_split_iff packetsPerBlock_pos).2 h

theorem blockOf_fst_lt {chunkId totalChunks : UInt32} (h : chunkId < totalChunks) :
    (blockOf chunkId).1 < totalBlocks totalChunks :=
  (isPlace_blockOf h).1

theorem blockOf_snd_lt {chunkId totalChunks : UInt32} (h : chunkId < totalChunks) :
    (blockOf chunkId).2.toNat < packetsInBlock (blockOf chunkId).1 totalChunks :=
  (isPlace_blockOf h).2

/-- Inside the geometry the recombined id is in range and `blockOf` undoes it. -/
theorem chunkIdOf_spec {totalChunks blockId : UInt32} {packetInBlock : UInt16}
    (h : packetInBlock.toNat < packetsInBlock blockId totalChunks) :
    (chunkIdOf blockId packetInBlock).toNat = blockId.toNat * 256 + packetInBlock.toNat
      ∧ chunkIdOf blockId packetInBlock < totalChunks
      ∧ blockOf (chunkIdOf blockId packetInBlock) = (blockId, packetInBlock)
      ∧ chunkIdOverflows blockId packetInBlock = false := by
  obtain ⟨hi, hlt⟩ := packet_lt_iff.1 h
  have hfits : blockId.toNat * 256 + packetInBlock.toNat < 2 ^ 32 :=
    hlt.trans totalChunks.toNat_lt
  have hid : (chunkIdOf blockId packetInBlock).toNat
      = blockId.toNat * 256 + packetInBlock.toNat := by
    rw [chunkIdOf_toNat, Nat.mod_eq_of_lt hfits]
  refine ⟨hid, ?_, place_injective ?_, ?_⟩
  · rw [UInt32.lt_iff_toNat_lt, hid]
    exact hlt
  · rw [place_blockOf, hid]
    exact Blocks.split_join (c := place (blockId, packetInBlock)) packetsPerBlock_pos hi
  · rw [chunkIdOverflows, decide_eq_false_iff_not]
    exact Nat.not_le.2 hfits

/-! ## The partition -/

/-- **Block geometry.** `blockOf` is a bijection from the chunk ids of a file onto the pairs inside
    its blocks, with `chunkIdOf` as inverse and without overflow; only the blocks that count have a
    packet, only the last of them may be short, and their sizes sum up to the number of chunks. -/
theorem geometry_partition (totalChunks : UInt32) :
    Set.BijOn blockOf { chunkId | chunkId < totalChunks }
        { c | c.1 < totalBlocks totalChunks ∧ c.2.toNat < packetsInBlock c.1 totalChunks } ∧
      Set.InvOn (fun c => chunkIdOf c.1 c.2) blockOf { chunkId | chunkId < totalChunks }
        { c | c.1 < totalBlocks totalChunks ∧ c.2.toNat < packetsInBlock c.1 totalChunks } ∧
      (∀ blockId packetInBlock, blockId < totalBlocks totalChunks →
        packetInBlock.toNat < packetsInBlock blockId totalChunks →
        chunkIdOverflows blockId packetInBlock = false) ∧
      (∀ blockId, (blockId < totalBlocks totalChunks → 1 ≤ packetsInBlock blockId totalChunks) ∧
        (¬ blockId < totalBlocks totalChunks → packetsInBlock blockId totalChunks = 0)) ∧
      (∀ blockId, packetsInBlock blockId totalChunks ≤ packetsPerBlock ∧
        (blockId < totalBlocks totalChunks → packetsInBlock blockId totalChunks < packetsPerBlock →
          blockId.toNat + 1 = (totalBlocks totalChunks).toNat)) ∧
      ((List.range (totalBlocks totalChunks).toNat).map fun b =>
        packetsInBlock (.ofNat b) totalChunks).sum = totalChunks.toNat := by
  have hinv : Set.InvOn (fun c => chunkIdOf c.1 c.2) blockOf { chunkId | chunkId < totalChunks }
      { c | c.1 < totalBlocks totalChunks ∧ c.2.toNat < packetsInBlock c.1 totalChunks } :=
    ⟨fun chunkId _ => chunkIdOf_blockOf chunkId, fun c hc => (chunkIdOf_spec hc.2).2.2.1⟩
  have hbij := hinv.bijOn (fun chunkId h => isPlace_blockOf h) fun c hc => (chunkIdOf_spec hc.2).2.1
  refine ⟨hbij, hinv, fun b i _ hi => (chunkIdOf_spec hi).2.2.2,
    fun b => ⟨packetsInBlock_pos_iff.2, fun h => ?_⟩,
    fun b => ⟨packetsInBlock_le b totalChunks, fun hb hshort => ?_⟩, sum_packetsInBlock totalChunks⟩
  · exact Nat.eq_zero_of_not_pos fun hpos => h (packetsInBlock_pos_iff.1 hpos)
  · by_contra hlast
    have hnext : b.toNat + 1 < Blocks.count packetsPerBlock totalChunks.toNat := by
      rw [← totalBlocks_eq_count]
      rw [UInt32.lt_iff_toNat_lt] at hb
      omega
    rw [packetsInBlock_eq_size, Blocks.size_eq_of_succ_lt packetsPerBlock_pos hnext] at hshort
    exact lt_irrefl _ hshort

/-! ## The ids below a bound -/

/-- The ids `0, …, total - 1`. -/
def idsBelow (total : UInt32) : Finset UInt32 :=
  (Finset.range total.toNat).image UInt32.ofNat

theorem mem_idsBelow {total b : UInt32} : b ∈ idsBelow total ↔ b < total := by
  rw [idsBelow, Finset.mem_image, UInt32.lt_iff_toNat_lt]
  constructor
  · rintro ⟨i, hi, rfl⟩
    have hlt := Finset.mem_range.1 hi
    rwa [UInt32.toNat_ofNat_of_lt' (hlt.trans total.toNat_lt)]
  · exact fun hlt => ⟨b.toNat, Finset.mem_range.2 hlt, UInt32.ofNat_toNat⟩

theorem card_idsBelow (total : UInt32) : (idsBelow total).card = total.toNat := by
  rw [idsBelow, Finset.card_image_of_injOn, Finset.card_range]
  intro i hi j hj heq
  have hi32 := (Finset.mem_range.1 (Finset.mem_coe.1 hi)).trans total.toNat_lt
  have hj32 := (Finset.mem_range.1 (Finset.mem_coe.1 hj)).trans total.toNat_lt
  rw [← UInt32.toNat_ofNat_of_lt' hi32, ← UInt32.toNat_ofNat_of_lt' hj32]
  exact congrArg UInt32.toNat heq

/-- As many ids as there are below `total`: they are all of these iff they are only these. -/
theorem all_below_iff_only_below {total : UInt32} {ids : Finset UInt32}
    (hcard : ids.card = total.toNat) :
    (∀ b < total, b ∈ ids) ↔ ∀ b ∈ ids, b < total := by
  have hcard' : ids.card = (idsBelow total).card := hcard.trans (card_idsBelow total).symm
  constructor
  · intro hall b hb
    have hsub : idsBelow total ⊆ ids := fun b hb => hall b (mem_idsBelow.1 hb)
    rw [← mem_idsBelow, Finset.eq_of_subset_of_card_le hsub hcard'.le]
    exact hb
  · intro honly b hb
    have hsub : ids ⊆ idsBelow total := fun b hb => mem_idsBelow.2 (honly b hb)
    rw [Finset.eq_of_subset_of_card_le hsub hcard'.ge]
    exact mem_idsBelow.2 hb

/-- A set of ids below `total` has all of them iff its size reaches `total`. -/
theorem all_below_iff_le_card {total : UInt32} {ids : Finset UInt32}
    (hbelow : ∀ b ∈ ids, b < total) : (∀ b < total, b ∈ ids) ↔ total.toNat ≤ ids.card := by
  have hsub : ids ⊆ idsBelow total := fun b hb => mem_idsBelow.2 (hbelow b hb)
  constructor
  · intro hall
    rw [← card_idsBelow]
    exact Finset.card_le_card fun b hb => hall b (mem_idsBelow.1 hb)
  · intro hle
    have hle' := Finset.card_le_card hsub
    rw [card_idsBelow] at hle'
    exact (all_below_iff_only_below (le_antisymm hle' hle)).2 hbelow

end SecureTransfer
