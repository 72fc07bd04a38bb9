import Mathlib.Data.List.Basic
import Mathlib.Tactic.Ring

set_option autoImplicit false

/-! # Counter-mode streams

A stream cipher XORs a keystream into the message (`xorStream`), so applying it twice is the
identity. In counter mode message number `k` consumes the counters `start k, start k + 1, …`, one
per block; no keystream byte is used twice exactly when these ranges do not meet
(`NoReuse`). For messages whose counters start at multiples of a stride, `noReuse_stride_iff` says
that this needs a stride no smaller than the block count of every message but the last. -/

namespace CounterMode

/-- XOR byte `i` of the keystream into byte `i` of the message. -/
def xorStream (keystream : Nat → UInt8) (message : List UInt8) : List UInt8 :=
  message.mapIdx fun i b => b ^^^ keystream i

@[simp] theorem length_xorStream (keystream : Nat → UInt8) (message : List UInt8) :
    (xorStream keystream message).length = message.length := by
  simp [xorStream]

/-- Decryption is encryption. -/
@[simp] theorem xorStream_xorStream (keystream : Nat → UInt8) (message : List UInt8) :
    xorStream keystream (xorStream keystream message) = message := by
  apply List.ext_getElem (by simp)
  intro i _ _
  simp only [xorStream, List.getElem_mapIdx]
  rw [UInt8.xor_assoc, UInt8.xor_self, UInt8.xor_zero]

/-- No counter is consumed at two positions: message `k < n` consumes the counters
    `start k + j` for `j < blocks k`. -/
def NoReuse (start blocks : Nat → Nat) (n : Nat) : Prop :=
  ∀ k k', k < n → k' < n → ∀ j j', j < blocks k → j' < blocks k' →
    start k + j = start k' + j' → k = k' ∧ j = j'

/-- With counters starting at multiples of `stride`, nothing is reused iff every message but the
    last fits into the stride. -/
theorem noReuse_stride_iff {stride n : Nat} (blocks : Nat → Nat)
    (hblocks : ∀ k < n, 0 < blocks k) :
    NoReuse (fun k => stride * k) blocks n ↔ ∀ k, k + 1 < n → blocks k ≤ stride := by
  constructor
  · intro hno k hk
    by_contra hlong
    -- block `stride` of message `k` is block `0` of message `k + 1`
    obtain ⟨hkk, _⟩ := hno k (k + 1) (by omega) hk stride 0 (by omega) (hblocks _ hk) (by ring)
    omega
  · intro hfit k k' hk hk' j j' hj hj' heq
    have hsep : ∀ a b i i' : Nat, a < b → b < n → i < blocks a →
        stride * a + i ≠ stride * b + i' := by
      intro a b i i' hab hb hi
      have hle : blocks a ≤ stride := hfit a (by omega)
      have hmul : stride * (a + 1) ≤ stride * b := Nat.mul_le_mul_left _ hab
      have hexp : stride * (a + 1) = stride * a + stride := by ring
      omega
    rcases Nat.lt_trichotomy k k' with hlt | rfl | hgt
    · exact absurd heq (hsep k k' j j' hlt hk' hj)
    · exact ⟨rfl, by simpa using heq⟩
    · exact absurd heq.symm (hsep k' k j' j hgt hk hj')

end CounterMode
