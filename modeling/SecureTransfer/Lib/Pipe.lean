import Mathlib.Algebra.Order.Ring.Nat
import Mathlib.Data.List.Basic

set_option autoImplicit false

/-! # Pipes

One direction of a connection. What is written on a pipe arrives at the other end symbol by symbol,
in order, so in pieces of any size, and is read there in order. -/

/-- One direction of a connection: everything written on it, how much of it has arrived, and how
    much of that has been read. -/
structure Pipe (β : Type) where
  written : List β
  arrived : ℕ
  read : ℕ
  read_le : read ≤ arrived
  arrived_le : arrived ≤ written.length

namespace Pipe

variable {β : Type} {p p' q : Pipe β} {n : ℕ}

def empty : Pipe β where
  written := []
  arrived := 0
  read := 0
  read_le := le_rfl
  arrived_le := le_rfl

theorem arrived_le_append (p : Pipe β) (bs : List β) :
    p.arrived ≤ (p.written ++ bs).length :=
  p.arrived_le.trans (List.length_append ▸ Nat.le_add_right _ _)

def push (p : Pipe β) (bs : List β) : Pipe β where
  written := p.written ++ bs
  arrived := p.arrived
  read := p.read
  read_le := p.read_le
  arrived_le := p.arrived_le_append bs

@[simp] theorem push_written (p : Pipe β) (bs : List β) : (p.push bs).written = p.written ++ bs :=
  rfl

@[simp] theorem push_arrived (p : Pipe β) (bs : List β) : (p.push bs).arrived = p.arrived := rfl

@[simp] theorem push_read (p : Pipe β) (bs : List β) : (p.push bs).read = p.read := rfl

/-- The next symbol arrives. -/
def arrive (p : Pipe β) : Option (Pipe β) :=
  if h : p.arrived < p.written.length then
    some ⟨p.written, p.arrived + 1, p.read, Nat.le_succ_of_le p.read_le, h⟩
  else none

/-- The next `n` symbols. -/
def front (p : Pipe β) (n : ℕ) : List β :=
  (p.written.drop p.read).take n

/-- The next `n` symbols are read, if they have arrived. -/
def skip (p : Pipe β) (n : ℕ) : Option (Pipe β) :=
  if h : p.read + n ≤ p.arrived then some ⟨p.written, p.arrived, p.read + n, h, p.arrived_le⟩
  else none

/-- All that has been read. -/
def consumed (p : Pipe β) : List β :=
  p.written.take p.read

theorem arrive_eq_some (h : p.arrive = some q) :
    p.arrived < p.written.length ∧ q.written = p.written ∧ q.arrived = p.arrived + 1 ∧
      q.read = p.read := by
  unfold arrive at h
  split at h
  · next hlt => cases h; exact ⟨hlt, rfl, rfl, rfl⟩
  · cases h

theorem skip_eq_some (h : p.skip n = some q) :
    p.read + n ≤ p.arrived ∧ q.written = p.written ∧ q.arrived = p.arrived ∧
      q.read = p.read + n := by
  unfold skip at h
  split at h
  · next hle => cases h; exact ⟨hle, rfl, rfl, rfl⟩
  · cases h

theorem skip_eq_none (h : p.skip n = none) : p.arrived < p.read + n := by
  unfold skip at h
  split at h
  · cases h
  · next hle => exact Nat.lt_of_not_le hle

theorem ext (hwritten : p.written = q.written) (harrived : p.arrived = q.arrived)
    (hread : p.read = q.read) : p = q := by
  cases p
  cases q
  cases hwritten
  cases harrived
  cases hread
  rfl

theorem exists_arrive (h : p.arrived < p.written.length) : ∃ q, p.arrive = some q := by
  rw [arrive, dif_pos h]
  exact ⟨_, rfl⟩

theorem exists_skip (h : p.read + n ≤ p.arrived) : ∃ q, p.skip n = some q := by
  rw [skip, dif_pos h]
  exact ⟨_, rfl⟩

theorem front_push (h : p.skip n = some q) (bs : List β) : (p.push bs).front n = p.front n := by
  obtain ⟨hle, -⟩ := skip_eq_some h
  have hlen := p.arrived_le
  rw [front, front, push_written, push_read, List.drop_append_of_le_length (by omega),
    List.take_append_of_le_length (by rw [List.length_drop]; omega)]

theorem skip_push (h : p.skip n = some q) (bs : List β) :
    (p.push bs).skip n = some (q.push bs) := by
  obtain ⟨hle, hw, ha, hr⟩ := skip_eq_some h
  obtain ⟨q', hq'⟩ := exists_skip (p := p.push bs) (n := n) hle
  obtain ⟨-, hw', ha', hr'⟩ := skip_eq_some hq'
  rw [hq']
  exact congrArg some (ext (by simp [hw, hw']) (by simp [ha, ha']) (by simp [hr, hr']))

theorem arrive_push (h : p.arrive = some q) (bs : List β) :
    (p.push bs).arrive = some (q.push bs) := by
  obtain ⟨hlt, hw, ha, hr⟩ := arrive_eq_some h
  obtain ⟨q', hq'⟩ := exists_arrive (p := p.push bs) (by simp; omega)
  obtain ⟨-, hw', ha', hr'⟩ := arrive_eq_some hq'
  rw [hq']
  exact congrArg some (ext (by simp [hw, hw']) (by simp [ha, ha']) (by simp [hr, hr']))

theorem front_arrive (h : p.arrive = some q) : q.front n = p.front n := by
  obtain ⟨-, hw, -, hr⟩ := arrive_eq_some h
  rw [front, front, hw, hr]

theorem skip_arrive (hskip : p.skip n = some q) (harrive : p.arrive = some p') :
    ∃ q', q.arrive = some q' ∧ p'.skip n = some q' := by
  obtain ⟨hle, hw, ha, hr⟩ := skip_eq_some hskip
  obtain ⟨hlt, hw', ha', hr'⟩ := arrive_eq_some harrive
  obtain ⟨q₁, hq₁⟩ := exists_arrive (p := q) (by rw [hw, ha]; exact hlt)
  obtain ⟨q₂, hq₂⟩ := exists_skip (p := p') (n := n) (by omega)
  obtain ⟨-, hw₁, ha₁, hr₁⟩ := arrive_eq_some hq₁
  obtain ⟨-, hw₂, ha₂, hr₂⟩ := skip_eq_some hq₂
  refine ⟨q₁, hq₁, hq₂.trans (congrArg some (ext ?_ ?_ ?_))⟩
  · rw [hw₁, hw₂, hw, hw']
  · rw [ha₁, ha₂, ha, ha']
  · rw [hr₁, hr₂, hr, hr']

/-- Reading moves the border between what has been read and what has not. -/
theorem consumed_skip (h : p.skip n = some q) : q.consumed = p.consumed ++ p.front n := by
  obtain ⟨-, hw, -, hr⟩ := skip_eq_some h
  rw [consumed, consumed, front, hw, hr, List.take_add]

theorem consumed_push (p : Pipe β) (bs : List β) : (p.push bs).consumed = p.consumed :=
  List.take_append_of_le_length (p.read_le.trans p.arrived_le)

theorem consumed_arrive (h : p.arrive = some q) : q.consumed = p.consumed := by
  obtain ⟨-, hw, -, hr⟩ := arrive_eq_some h
  rw [consumed, consumed, hw, hr]

theorem length_front (h : p.skip n = some q) : (p.front n).length = n := by
  obtain ⟨hle, -⟩ := skip_eq_some h
  have hlen := p.arrived_le
  rw [front, List.length_take, List.length_drop]
  omega

theorem length_le_append (front back : List β) : front.length ≤ (front ++ back).length :=
  List.length_append ▸ Nat.le_add_right _ _

/-- Everything has arrived: `front` has been read and `back` has not. -/
def settled (front back : List β) : Pipe β where
  written := front ++ back
  arrived := (front ++ back).length
  read := front.length
  read_le := length_le_append front back
  arrived_le := le_rfl

theorem arrive_settled (front back : List β) : (settled front back).arrive = none :=
  dif_neg (Nat.lt_irrefl _)

theorem front_settled (front bs back : List β) :
    (settled front (bs ++ back)).front bs.length = bs := by
  rw [Pipe.front, settled, List.drop_left, List.take_left]

theorem skip_settled (front bs back : List β) :
    (settled front (bs ++ back)).skip bs.length = some (settled (front ++ bs) back) := by
  obtain ⟨q, hq⟩ := exists_skip (p := settled front (bs ++ back)) (n := bs.length)
    (by simp [settled])
  obtain ⟨-, hw, ha, hr⟩ := skip_eq_some hq
  rw [hq]
  exact congrArg some (ext (by simp [hw, settled]) (by simp [ha, settled])
    (by simp [hr, settled]))

theorem skip_settled_short {front back : List β} (h : back.length < n) :
    (settled front back).skip n = none :=
  dif_neg (by simp [settled]; omega)

end Pipe
