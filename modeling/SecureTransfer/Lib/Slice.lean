import Mathlib.Algebra.Order.Ring.Nat

set_option autoImplicit false

/-! # Slice accesses that panic

A slice is a list. `Slice.get` and `Slice.range` are `s[i]` and `&s[start..stop]`: out of bounds
they end in a `Fault`, and so does `checkedAdd` on an overflow. `Checked` adds the early `None` of
`?`. A function written with these returns `ok` exactly when none of its accesses panics; the lemmas
compute an access whose bounds are known, which is how a proof shows that. -/

/-- What a panicking operation reports. -/
inductive Fault
  /-- `index out of bounds`. -/
  | index (i len : ℕ)
  /-- `slice index starts at .. but ends at ..`. -/
  | order (start stop : ℕ)
  /-- `range end index out of range`. -/
  | stop (stop len : ℕ)
  /-- `attempt to add with overflow`. -/
  | overflow (a b : ℕ)
deriving DecidableEq

/-- A function that returns an `Option` unless it panics. -/
abbrev Checked (α : Type) := OptionT (Except Fault) α

/-- `a + b` at `width` bits. -/
def checkedAdd (width a b : ℕ) : Except Fault ℕ :=
  if a + b < 2 ^ width then .ok (a + b) else .error (.overflow a b)

theorem checkedAdd_of_lt {width a b : ℕ} (h : a + b < 2 ^ width) :
    checkedAdd width a b = .ok (a + b) :=
  if_pos h

@[simp] theorem Fault.ok_bind {α β : Type} (a : α) (next : α → Except Fault β) :
    ((.ok a : Except Fault α) >>= next) = next a := rfl

@[simp] theorem Checked.lift_ok {α : Type} (a : α) :
    (liftM (.ok a : Except Fault α) : Checked α) = pure a := rfl

@[simp] theorem Checked.run_ite_failure {α : Type} (c : Prop) [Decidable c] (next : Checked α) :
    (if c then do failure; next else next).run = if c then .ok none else next.run := by
  split
  · rfl
  · rfl

namespace Slice

variable {α : Type} {s : List α} {start stop : ℕ}

/-- `s[i]`. -/
def get (s : List α) (i : ℕ) : Except Fault α :=
  match s[i]? with
  | some a => .ok a
  | none => .error (.index i s.length)

/-- `&s[start..stop]`. -/
def range (s : List α) (start stop : ℕ) : Except Fault (List α) :=
  if stop < start then .error (.order start stop)
  else if s.length < stop then .error (.stop stop s.length)
  else .ok (s.extract start stop)

/-- `<[T; n]>::try_from(s).ok()`. -/
def toArray? (n : ℕ) (s : List α) : Option { a : List α // a.length = n } :=
  if h : s.length = n then some ⟨s, h⟩ else none

/-- `s[start..stop].try_into().ok()?`. -/
def array (n : ℕ) (s : List α) (start stop : ℕ) : Checked { a : List α // a.length = n } := do
  let part ← range s start stop
  OptionT.mk (.ok (toArray? n part))

@[simp] theorem get_cons_zero (a : α) (s : List α) : get (a :: s) 0 = .ok a := rfl

theorem range_of_le (hstart : start ≤ stop) (hstop : stop ≤ s.length) :
    range s start stop = .ok (s.extract start stop) := by
  rw [range, if_neg (Nat.not_lt.2 hstart), if_neg (Nat.not_lt.2 hstop)]

/-- `&s[1..len]` of a buffer that starts with `len` elements, whatever lies behind them. -/
theorem range_tail (a : α) (s back : List α) :
    range (a :: s ++ back) 1 (a :: s).length = .ok s := by
  have hstop : (a :: s).length ≤ (a :: s ++ back).length := by simp
  rw [range_of_le (List.length_pos_of_mem List.mem_cons_self) hstop, List.extract_eq_take_drop]
  simp

/-- A range of `n` elements inside the slice makes an array of `n` elements. -/
theorem array_of_le (n : ℕ) (s : List α) (start stop : ℕ) (hstart : start + n = stop)
    (hstop : stop ≤ s.length) :
    ∃ h, array n s start stop = pure ⟨s.extract start stop, h⟩ := by
  have hlen : (s.extract start stop).length = n := by
    rw [List.extract_eq_take_drop, List.length_take, List.length_drop]
    omega
  refine ⟨hlen, ?_⟩
  rw [array, range_of_le (by omega) hstop, Checked.lift_ok, pure_bind, toArray?, dif_pos hlen]
  rfl

end Slice
