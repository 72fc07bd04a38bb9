import Mathlib.Algebra.Order.Ring.Nat
import Mathlib.Data.List.AList
import Mathlib.Data.Finset.Card

set_option autoImplicit false

/-! # Counting the values of a finite map

A finite map is Mathlib's `AList`. Programs that keep a counter beside a map ("how many entries are
in state X", "how much do the entries hold") need one law: how a sum over the values moves when one
key is rebound. `sumValues_insert` and `countValues_insert` state it without subtraction; `keysWhere`
is the set of keys counted, for pigeonhole arguments. -/

namespace AList

variable {α β : Type*} [DecidableEq α]

/-- The number of entries whose value satisfies `p`. -/
def countValues (p : β → Bool) (m : AList (fun _ : α => β)) : Nat :=
  m.entries.countP fun e => p e.2

/-- The total weight of the values. -/
def sumValues (weight : β → ℕ) (m : AList (fun _ : α => β)) : ℕ :=
  (m.entries.map fun e => weight e.2).sum

/-- The keys whose value satisfies `p`. -/
def keysWhere (p : β → Bool) (m : AList (fun _ : α => β)) : Finset α :=
  ((m.entries.filter fun e => p e.2).map Sigma.fst).toFinset

variable {p : β → Bool} {m : AList (fun _ : α => β)}

/-- Lookup after an insertion, as one conditional. -/
theorem lookup_insert_ite (a a' : α) (b : β) (m : AList (fun _ : α => β)) :
    (m.insert a b).lookup a' = if a' = a then some b else m.lookup a' := by
  by_cases h : a' = a
  · subst h; simp
  · rw [lookup_insert_ne h, if_neg h]

theorem lookup_erase_ite (a a' : α) (m : AList (fun _ : α => β)) :
    (m.erase a).lookup a' = if a' = a then none else m.lookup a' := by
  by_cases h : a' = a
  · subst h; simp
  · rw [lookup_erase_ne h, if_neg h]

theorem mem_entries_iff_lookup {a : α} {b : β} {m : AList (fun _ : α => β)} :
    ⟨a, b⟩ ∈ m.entries ↔ m.lookup a = some b :=
  (mem_lookup_iff (s := m)).symm

theorem entries_erase (a : α) : (m.erase a).entries = m.entries.kerase a := rfl

/-- Removing a key removes the weight of its value. -/
theorem sumValues_erase (weight : β → ℕ) (a : α) :
    sumValues weight (m.erase a) + (m.lookup a).elim 0 weight = sumValues weight m := by
  cases hl : m.lookup a with
  | none =>
      have hkeys : a ∉ m.entries.keys := fun hin => lookup_eq_none.1 hl (mem_keys.2 hin)
      rw [sumValues, entries_erase, List.kerase_of_notMem_keys hkeys, sumValues, Option.elim_none,
        Nat.add_zero]
  | some b =>
      have hmem : a ∈ m.entries.keys :=
        mem_keys.1 (lookup_isSome.1 (by rw [hl]; rfl))
      obtain ⟨b', l₁, l₂, _, hsplit, herase⟩ := List.exists_of_kerase hmem
      have hb : b' = b := by
        have hin : ⟨a, b'⟩ ∈ m.entries := by rw [hsplit]; simp
        rw [mem_entries_iff_lookup, hl] at hin
        exact (Option.some.inj hin).symm
      subst hb
      have hsum : sumValues weight (m.erase a) = ((l₁ ++ l₂).map fun e => weight e.2).sum := by
        rw [sumValues, entries_erase, herase]
      rw [hsum, sumValues, hsplit]
      simp only [List.map_append, List.map_cons, List.sum_append, List.sum_cons,
        Option.elim_some]
      omega

/-- **The law of sums.** Rebinding a key takes the weight of its old value out and puts that of the
    new one in. -/
theorem sumValues_insert (weight : β → ℕ) (a : α) (b : β) :
    sumValues weight (m.insert a b) + (m.lookup a).elim 0 weight = sumValues weight m + weight b := by
  have hcons : sumValues weight (m.insert a b) = weight b + sumValues weight (m.erase a) := by
    simp only [sumValues, entries_insert, entries_erase, List.map_cons, List.sum_cons]
  have := sumValues_erase (m := m) weight a
  omega

omit [DecidableEq α] in
/-- Counting is summing ones. -/
theorem countValues_eq_sumValues :
    countValues p m = sumValues (fun b => (p b).toNat) m := by
  rw [countValues, sumValues]
  induction m.entries with
  | nil => rfl
  | cons e entries ih =>
      rw [List.countP_cons, List.map_cons, List.sum_cons, ih, Nat.add_comm]
      cases p e.2 <;> rfl

theorem countValues_erase (a : α) :
    countValues p (m.erase a) + (m.lookup a).elim 0 (fun b => (p b).toNat) = countValues p m := by
  rw [countValues_eq_sumValues, countValues_eq_sumValues]
  exact sumValues_erase _ a

/-- **The counting law.** Rebinding a key takes its old value out of the count and puts the new one
    in. -/
theorem countValues_insert (a : α) (b : β) :
    countValues p (m.insert a b) + (m.lookup a).elim 0 (fun b' => (p b').toNat)
      = countValues p m + (p b).toNat := by
  rw [countValues_eq_sumValues, countValues_eq_sumValues]
  exact sumValues_insert _ a b

theorem countValues_pos {a : α} {b : β} (h : m.lookup a = some b) (hp : p b = true) :
    0 < countValues p m := by
  have := countValues_erase (p := p) (m := m) a
  rw [h, Option.elim_some, hp] at this
  simp only [Bool.toNat_true] at this
  omega

theorem mem_keysWhere {a : α} : a ∈ keysWhere p m ↔ ∃ b, m.lookup a = some b ∧ p b = true := by
  simp only [keysWhere, List.mem_toFinset, List.mem_map, List.mem_filter]
  constructor
  · rintro ⟨⟨a', b⟩, ⟨hin, hp⟩, rfl⟩
    exact ⟨b, mem_entries_iff_lookup.1 hin, hp⟩
  · rintro ⟨b, hb, hp⟩
    exact ⟨⟨a, b⟩, ⟨mem_entries_iff_lookup.2 hb, hp⟩, rfl⟩

/-- The count is the number of distinct keys counted. -/
theorem card_keysWhere : (keysWhere p m).card = countValues p m := by
  have hnodup : ((m.entries.filter fun e => p e.2).map Sigma.fst).Nodup :=
    (List.filter_sublist.map Sigma.fst).nodup m.keys_nodup
  rw [keysWhere, List.toFinset_card_of_nodup hnodup, List.length_map, countValues,
    List.countP_eq_length_filter]

/-- A map is no larger than any set that its keys are in. -/
theorem length_entries_le {s : Finset α} (h : ∀ a b, m.lookup a = some b → a ∈ s) :
    m.entries.length ≤ s.card := by
  have hsub : m.keys.toFinset ⊆ s := by
    intro a ha
    rw [List.mem_toFinset, ← mem_keys, ← lookup_isSome] at ha
    obtain ⟨b, hb⟩ := Option.isSome_iff_exists.1 ha
    exact h a b hb
  calc m.entries.length = m.keys.toFinset.card := by
        rw [List.toFinset_card_of_nodup m.keys_nodup, keys, List.keys, List.length_map]
    _ ≤ s.card := Finset.card_le_card hsub

end AList
