import Mathlib.Data.List.Induction
import Mathlib.Tactic.Ring

set_option autoImplicit false

/-! # Big-endian byte strings

`toBe n x` is the `n` low bytes of `x`, most significant first, and `ofBe` reads a byte string of
any length back. The two round trips (`ofBe_toBe`, `toBe_ofBe`) and the append law are what a codec
built from fixed-width fields needs. -/

namespace BigEndian

/-- The `n` low-order bytes of `x`, most significant first. -/
def toBe : Nat → Nat → List UInt8
  | 0, _ => []
  | n + 1, x => toBe n (x / 256) ++ [UInt8.ofNat x]

/-- The number a byte string denotes, most significant byte first. -/
def ofBe (bs : List UInt8) : Nat :=
  bs.foldl (fun acc b => acc * 256 + b.toNat) 0

@[simp] theorem length_toBe (n x : Nat) : (toBe n x).length = n := by
  induction n generalizing x with
  | zero => rfl
  | succ n ih => simp [toBe, ih]

@[simp] theorem ofBe_nil : ofBe [] = 0 := rfl

theorem ofBe_concat (bs : List UInt8) (b : UInt8) : ofBe (bs ++ [b]) = ofBe bs * 256 + b.toNat := by
  simp [ofBe, List.foldl_append]

/-- Reading back the `n` low bytes of `x` loses exactly what the width loses. -/
theorem ofBe_toBe (n x : Nat) : ofBe (toBe n x) = x % 256 ^ n := by
  induction n generalizing x with
  | zero => simp [toBe, Nat.mod_one]
  | succ n ih =>
      have hsplit : x % 256 ^ (n + 1) = x % 256 + 256 * (x / 256 % 256 ^ n) := by
        rw [pow_succ', Nat.mod_mul]
      rw [toBe, ofBe_concat, ih, hsplit, UInt8.toNat_ofNat']
      omega

theorem ofBe_toBe_of_lt {n x : Nat} (h : x < 256 ^ n) : ofBe (toBe n x) = x := by
  rw [ofBe_toBe, Nat.mod_eq_of_lt h]

theorem ofBe_append (as bs : List UInt8) :
    ofBe (as ++ bs) = ofBe as * 256 ^ bs.length + ofBe bs := by
  induction bs using List.reverseRecOn with
  | nil => simp
  | append_singleton bs b ih =>
      rw [← List.append_assoc, ofBe_concat, ih, ofBe_concat, List.length_append, List.length_singleton,
        pow_succ]
      ring

theorem ofBe_lt (bs : List UInt8) : ofBe bs < 256 ^ bs.length := by
  induction bs using List.reverseRecOn with
  | nil => simp
  | append_singleton bs b ih =>
      have hb : b.toNat < 256 := b.toNat_lt
      rw [ofBe_concat, List.length_append, List.length_singleton, pow_succ]
      omega

/-- A byte string is recovered from the number it denotes and its length. -/
theorem toBe_ofBe (bs : List UInt8) : toBe bs.length (ofBe bs) = bs := by
  induction bs using List.reverseRecOn with
  | nil => rfl
  | append_singleton bs b ih =>
      have hb : b.toNat < 256 := b.toNat_lt
      have hdiv : ofBe (bs ++ [b]) / 256 = ofBe bs := by rw [ofBe_concat]; omega
      have hlow : UInt8.ofNat (ofBe (bs ++ [b])) = b := by
        apply UInt8.toNat_inj.mp
        rw [UInt8.toNat_ofNat', ofBe_concat]
        omega
      rw [List.length_append, List.length_singleton, toBe, hdiv, ih, hlow]

/-- Every byte string is the encoding of a number of its width. -/
theorem exists_toBe {n : Nat} {bs : List UInt8} (h : bs.length = n) :
    ∃ x < 256 ^ n, bs = toBe n x := by
  subst h
  exact ⟨ofBe bs, ofBe_lt bs, (toBe_ofBe bs).symm⟩

/-- A byte string of at least `n` bytes starts with a field of width `n`. -/
theorem exists_toBe_append {n : Nat} {bs : List UInt8} (h : n ≤ bs.length) :
    ∃ x < 256 ^ n, ∃ rest, bs = toBe n x ++ rest ∧ rest.length + n = bs.length := by
  have hlen : (bs.take n).length = n := by simp [h]
  obtain ⟨x, hx, htake⟩ := exists_toBe hlen
  refine ⟨x, hx, bs.drop n, ?_, by simp [h]⟩
  rw [← htake, List.take_append_drop]

end BigEndian
