import Mathlib.Algebra.Order.Ring.Nat

set_option autoImplicit false

/-! # Blocks of a fixed size

`n` items in a row, cut into blocks of `k`: item `i` stands at position `i % k` of block `i / k`, and
the last block may be short. `split` and `join` are inverse to each other between the items and the
places; every block that counts has a place, all but the last have `k`, and all together `n`. -/

namespace Blocks

variable {k n b i : ℕ} {c : ℕ × ℕ}

/-- The block of an item and its position there. -/
def split (k i : ℕ) : ℕ × ℕ :=
  (i / k, i % k)

def join (k : ℕ) (c : ℕ × ℕ) : ℕ :=
  c.1 * k + c.2

/-- The number of items in block `b`. -/
def size (k n b : ℕ) : ℕ :=
  min (n - b * k) k

/-- The number of blocks. -/
def count (k n : ℕ) : ℕ :=
  (n + (k - 1)) / k

/-- `c` is a position in one of the blocks. -/
def IsPlace (k n : ℕ) (c : ℕ × ℕ) : Prop :=
  c.1 < count k n ∧ c.2 < size k n c.1

/-! ## Sizes -/

theorem lt_count_iff (hk : 0 < k) : b < count k n ↔ b * k < n := by
  rw [count, ← Nat.succ_le_iff, Nat.le_div_iff_mul_le hk, Nat.succ_mul]
  omega

theorem lt_size_iff : i < size k n b ↔ i < k ∧ b * k + i < n := by
  rw [size, lt_min_iff]
  omega

theorem size_le (k n b : ℕ) : size k n b ≤ k :=
  min_le_right _ _

/-- The blocks that have an item are those that count. -/
theorem size_pos_iff (hk : 0 < k) : 0 < size k n b ↔ b < count k n := by
  rw [lt_size_iff, lt_count_iff hk]
  omega

/-- A block is full if another one follows. -/
theorem size_eq_of_succ_lt (hk : 0 < k) (h : b + 1 < count k n) : size k n b = k := by
  rw [lt_count_iff hk, Nat.succ_mul] at h
  rw [size, min_eq_right]
  omega

/-- The first `m` blocks. -/
theorem sum_size_range (k n m : ℕ) : ((List.range m).map (size k n)).sum = min n (m * k) := by
  induction m with
  | zero => simp
  | succ m ih =>
      rw [List.range_succ, List.map_append, List.sum_append, ih, List.map_singleton,
        List.sum_singleton, size, Nat.succ_mul]
      omega

/-- Together the blocks have all items. -/
theorem sum_size (hk : 0 < k) (n : ℕ) : ((List.range (count k n)).map (size k n)).sum = n := by
  have hall : n ≤ count k n * k := by
    by_contra hless
    exact lt_irrefl _ ((lt_count_iff hk).2 (Nat.lt_of_not_le hless))
  rw [sum_size_range, min_eq_left hall]

/-! ## Items and places -/

theorem isPlace_iff (hk : 0 < k) : IsPlace k n c ↔ c.2 < k ∧ join k c < n := by
  have hcounts : c.2 < size k n c.1 → c.1 < count k n := fun h =>
    (size_pos_iff hk).1 (Nat.zero_lt_of_lt h)
  rw [IsPlace, and_iff_right_of_imp hcounts, lt_size_iff, join]

theorem join_split (k i : ℕ) : join k (split k i) = i :=
  Nat.div_add_mod' i k

theorem split_join (hk : 0 < k) (hc : c.2 < k) : split k (join k c) = c := by
  have hblock : (c.1 * k + c.2) / k = c.1 := by
    rw [Nat.add_comm, Nat.add_mul_div_right _ _ hk, Nat.div_eq_of_lt hc, Nat.zero_add]
  have hpos : (c.1 * k + c.2) % k = c.2 := by
    rw [Nat.mul_add_mod_self_right, Nat.mod_eq_of_lt hc]
  exact Prod.ext hblock hpos

/-- The items are split to places. -/
theorem isPlace_split_iff (hk : 0 < k) : IsPlace k n (split k i) ↔ i < n := by
  rw [isPlace_iff hk, join_split]
  exact and_iff_right (Nat.mod_lt i hk)

end Blocks
