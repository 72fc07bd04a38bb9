import Mathlib.Algebra.Order.Ring.Nat
import Mathlib.Algebra.BigOperators.Group.Finset.Piecewise
import Mathlib.Algebra.Order.BigOperators.Group.Finset

set_option autoImplicit false

/-! # Sums by groups

A sum over a list whose members have keys below `n` is the sum of the sums over the groups of equal
keys, so a bound for each group bounds the whole. -/

namespace Groups

variable {α : Type*} {l : List α} {key f : α → ℕ} {n : ℕ}

theorem sum_eq (h : ∀ a ∈ l, key a < n) :
    (l.map f).sum = ((List.range n).map fun k => ((l.filter (key · = k)).map f).sum).sum := by
  change _ = ∑ k ∈ Finset.range n, ((l.filter (key · = k)).map f).sum
  induction l with
  | nil => simp
  | cons a l ih =>
      obtain ⟨ha, hl⟩ := List.forall_mem_cons.1 h
      have hcons : ∀ k, (((a :: l).filter (key · = k)).map f).sum
          = (if key a = k then f a else 0) + ((l.filter (key · = k)).map f).sum := by
        intro k
        by_cases hk : key a = k <;> simp [hk]
      simp only [hcons, Finset.sum_add_distrib, List.map_cons, List.sum_cons, ih hl,
        Finset.sum_ite_eq, Finset.mem_range, ha, if_true]

theorem sum_le {g : ℕ → ℕ} (h : ∀ a ∈ l, key a < n)
    (hgroup : ∀ k < n, ((l.filter (key · = k)).map f).sum ≤ g k) :
    (l.map f).sum ≤ ((List.range n).map g).sum := by
  rw [sum_eq h]
  exact List.sum_le_sum fun k hk => hgroup k (List.mem_range.1 hk)

/-- Where each group has one member at most. -/
theorem sum_le_of_pairwise {g : ℕ → ℕ} (h : ∀ a ∈ l, key a < n)
    (hpairwise : l.Pairwise fun a a' => key a ≠ key a') (hle : ∀ a ∈ l, f a ≤ g (key a)) :
    (l.map f).sum ≤ ((List.range n).map g).sum := by
  refine sum_le h fun k _ => ?_
  have hgroup := hpairwise.filter fun a => decide (key a = k)
  cases hl : l.filter (key · = k) with
  | nil => exact Nat.zero_le _
  | cons a rest =>
      have hmem {a' : α} (ha' : a' ∈ a :: rest) : a' ∈ l ∧ key a' = k := by
        rw [← hl] at ha'
        simpa using ha'
      rw [hl] at hgroup
      cases rest with
      | nil =>
          obtain ⟨ha, rfl⟩ := hmem List.mem_cons_self
          simpa using hle a ha
      | cons a' rest =>
          have hne := (List.pairwise_cons.1 hgroup).1 a' List.mem_cons_self
          rw [(hmem List.mem_cons_self).2,
            (hmem (List.mem_cons_of_mem _ List.mem_cons_self)).2] at hne
          exact absurd rfl hne

end Groups
