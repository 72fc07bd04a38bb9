import Mathlib.Logic.Function.Iterate
import SecureTransfer.Lib.CountMap

set_option autoImplicit false

/-! # In-order delivery from a reorder buffer

Items arrive under keys in any order and leave in the order `start, succ start, succ (succ start), …`.
The buffer holds what cannot leave yet. Three facts describe it: what leaves is what was offered
under that key (`Sound`), nothing offered is lost (`Has`), and after an offer the item due next is
not in the buffer (`settled_offer`). -/

namespace Reorder

variable {κ β : Type*}

structure Buffer (κ β : Type*) where
  pending : AList (fun _ : κ => β)
  /-- The key due next. -/
  next : κ
  /-- What has left, in order. -/
  out : List β

def Buffer.init (start : κ) : Buffer κ β where
  pending := ∅
  next := start
  out := []

variable [DecidableEq κ] {succ : κ → κ} {start : κ} {Q : κ → β → Prop} {b : Buffer κ β}

/-- Let at most `fuel` items leave. -/
def drain (succ : κ → κ) : ℕ → Buffer κ β → Buffer κ β
  | 0, b => b
  | fuel + 1, b =>
    match b.pending.lookup b.next with
    | none => b
    | some item =>
      drain succ fuel
        { pending := b.pending.erase b.next, next := succ b.next, out := b.out ++ [item] }

/-- An item arrives; everything that is due leaves. Each departure shrinks the buffer, so its size
    bounds their number. -/
def offer (succ : κ → κ) (key : κ) (item : β) (b : Buffer κ β) : Buffer κ β :=
  let pending := b.pending.insert key item
  drain succ pending.entries.length { b with pending }

/-! ## What leaves -/

/-- Items buffered or gone satisfy `Q` under their key, and the keys gone are the first ones. -/
structure Sound (succ : κ → κ) (start : κ) (Q : κ → β → Prop) (b : Buffer κ β) : Prop where
  next : b.next = succ^[b.out.length] start
  pending : ∀ key item, b.pending.lookup key = some item → Q key item
  out : ∀ i item, b.out[i]? = some item → Q (succ^[i] start) item

theorem Sound.init : Sound succ start Q (Buffer.init start) :=
  ⟨rfl, by simp [Buffer.init], by simp [Buffer.init]⟩

/-- One departure. -/
theorem Sound.depart (h : Sound succ start Q b) {item : β}
    (hdue : b.pending.lookup b.next = some item) :
    Sound succ start Q
      { pending := b.pending.erase b.next, next := succ b.next, out := b.out ++ [item] } where
  next := by
    rw [List.length_append, List.length_singleton, Function.iterate_succ_apply', h.next]
  pending := by
    intro key item' hl
    rw [AList.lookup_erase_ite] at hl
    split at hl
    · cases hl
    · exact h.pending key item' hl
  out := by
    intro i item' hi
    rw [List.getElem?_append] at hi
    split at hi
    · exact h.out i item' hi
    · next hge =>
        obtain ⟨hzero, hitem⟩ := List.getElem?_eq_some_iff.1 hi
        rw [List.length_singleton] at hzero
        have hlast : i = b.out.length := by omega
        subst hlast
        simp only [Nat.sub_self, List.getElem_cons_zero] at hitem
        rw [← h.next, ← hitem]
        exact h.pending _ _ hdue

theorem Sound.drain (h : Sound succ start Q b) (fuel : ℕ) :
    Sound succ start Q (Reorder.drain succ fuel b) := by
  induction fuel generalizing b with
  | zero => exact h
  | succ fuel ih =>
      rw [Reorder.drain]
      split
      · exact h
      · next hdue => exact ih (h.depart hdue)

theorem Sound.insert (h : Sound succ start Q b) {key : κ} {item : β} (hitem : Q key item) :
    Sound succ start Q { b with pending := b.pending.insert key item } where
  next := h.next
  pending := by
    intro key' item' hl
    rw [AList.lookup_insert_ite] at hl
    split at hl
    · next hkey => cases hl; exact hkey ▸ hitem
    · exact h.pending key' item' hl
  out := h.out

theorem Sound.offer (h : Sound succ start Q b) {key : κ} {item : β} (hitem : Q key item) :
    Sound succ start Q (Reorder.offer succ key item b) :=
  (h.insert hitem).drain _

theorem Sound.mono {Q' : κ → β → Prop} (h : Sound succ start Q b)
    (hQ : ∀ key item, Q key item → Q' key item) : Sound succ start Q' b :=
  ⟨h.next, fun key item hl => hQ _ _ (h.pending key item hl),
    fun i item hi => hQ _ _ (h.out i item hi)⟩

/-! ## Nothing is lost -/

/-- An item under `key` is buffered or has left. -/
def Has (succ : κ → κ) (start : κ) (b : Buffer κ β) (key : κ) : Prop :=
  (∃ item, b.pending.lookup key = some item) ∨ ∃ i < b.out.length, key = succ^[i] start

theorem Has.drain {key : κ} (hsound : Sound succ start Q b) (h : Has succ start b key) (fuel : ℕ) :
    Has succ start (Reorder.drain succ fuel b) key := by
  induction fuel generalizing b with
  | zero => exact h
  | succ fuel ih =>
      rw [Reorder.drain]
      split
      · exact h
      · next item hdue =>
          refine ih (hsound.depart hdue) ?_
          rcases h with ⟨item', hl⟩ | ⟨i, hi, hkey⟩
          · by_cases hnext : key = b.next
            · refine .inr ⟨b.out.length, by simp, ?_⟩
              rw [hnext, hsound.next]
            · refine .inl ⟨item', ?_⟩
              rw [AList.lookup_erase_ite, if_neg hnext, hl]
          · exact .inr ⟨i, by rw [List.length_append]; omega, hkey⟩

theorem Has.offer {key key' : κ} {item : β} (hsound : Sound succ start Q b) (hitem : Q key item)
    (h : key' = key ∨ Has succ start b key') :
    Has succ start (Reorder.offer succ key item b) key' := by
  refine Has.drain (hsound.insert hitem) ?_ _
  by_cases hkey : key' = key
  · exact .inl ⟨item, by rw [hkey, AList.lookup_insert]⟩
  · rcases h.resolve_left hkey with ⟨item', hl⟩ | hout
    · exact .inl ⟨item', by rw [AList.lookup_insert_ite, if_neg hkey, hl]⟩
    · exact .inr hout

/-! ## Nothing due stays -/

/-- The key due next is not buffered. -/
def Settled (b : Buffer κ β) : Prop := b.pending.lookup b.next = none

theorem settled_drain {fuel : ℕ} (hfuel : b.pending.entries.length ≤ fuel) :
    Settled (drain succ fuel b) := by
  -- a departure makes the buffer smaller by one
  have hsize : ∀ {b : Buffer κ β} {item : β}, b.pending.lookup b.next = some item →
      (b.pending.erase b.next).entries.length + 1 = b.pending.entries.length := by
    intro b item hdue
    have := AList.countValues_erase (p := fun _ => true) (m := b.pending) b.next
    simpa [hdue, AList.countValues] using this
  induction fuel generalizing b with
  | zero =>
      rw [drain, Settled]
      cases hdue : b.pending.lookup b.next with
      | none => rfl
      | some item => have := hsize hdue; omega
  | succ fuel ih =>
      rw [drain]
      split
      · next hnone => exact hnone
      · next item hdue =>
          have := hsize hdue
          exact ih (by dsimp only; omega)

theorem settled_offer (key : κ) (item : β) : Settled (offer succ key item b) :=
  settled_drain le_rfl

theorem drain_of_settled (h : Settled b) (fuel : ℕ) : drain succ fuel b = b := by
  cases fuel with
  | zero => rfl
  | succ fuel => rw [drain, show b.pending.lookup b.next = none from h]

/-- When everything below `n` is there and nothing due is left behind, `n` items have left. -/
theorem Settled.le_length {n : ℕ} (hsettled : Settled b) (hsound : Sound succ start Q b)
    (hinj : ∀ i < n, ∀ j ≤ i, succ^[i] start = succ^[j] start → i = j)
    (hall : ∀ i < n, Has succ start b (succ^[i] start)) : n ≤ b.out.length := by
  by_contra hlt
  have hlen : b.out.length < n := by omega
  -- the key due next is neither buffered nor one of those that have left
  rcases hall b.out.length hlen with ⟨item, hl⟩ | ⟨j, hj, heq⟩
  · rw [← hsound.next] at hl
    rw [Settled, hl] at hsettled
    cases hsettled
  · have := hinj b.out.length hlen j hj.le heq
    omega

/-! ## What comes late -/

/-- An item that comes after its turn stays for good. -/
theorem offer_behind (hsettled : Settled b) {key : κ} {item : β} (hkey : key ≠ b.next) :
    offer succ key item b = { b with pending := b.pending.insert key item } := by
  refine drain_of_settled ?_ _
  rw [Settled, AList.lookup_insert_ite, if_neg hkey.symm]
  exact hsettled

section Ahead

variable [LE κ]

/-- Every key in the buffer is due now or later. -/
def Ahead (b : Buffer κ β) : Prop :=
  ∀ key item, b.pending.lookup key = some item → b.next ≤ key

theorem Ahead.insert (h : Ahead b) {key : κ} {item : β} (hkey : b.next ≤ key) :
    Ahead { b with pending := b.pending.insert key item } := by
  intro key' item' hl
  rw [AList.lookup_insert_ite] at hl
  split at hl
  · next heq => exact heq ▸ hkey
  · exact h key' item' hl

theorem Ahead.drain (hsucc : ∀ key key', key ≤ key' → key' ≠ key → succ key ≤ key') (h : Ahead b)
    (fuel : ℕ) : Ahead (Reorder.drain succ fuel b) := by
  induction fuel generalizing b with
  | zero => exact h
  | succ fuel ih =>
      rw [Reorder.drain]
      split
      · exact h
      · refine ih fun key item hl => ?_
        dsimp only at hl ⊢
        rw [AList.lookup_erase_ite] at hl
        split at hl
        · cases hl
        · next hne => exact hsucc _ _ (h key item hl) hne

end Ahead

end Reorder
