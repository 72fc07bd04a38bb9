import Mathlib.Data.List.Infix

set_option autoImplicit false

/-! # Prefix codes

A decoder that takes a value off the front of a string and ignores what follows is a `PrefixCode` if
it returns `a` exactly on the strings that start with the code word of `a`. It then decodes what was
encoded, no string starts with the words of two values, and it rejects exactly the strings that
start with none. Two codes under different tags make one (`PrefixCode.tagged`). -/

/-- `decode` returns a value with `ok` exactly in front of its code word. -/
def PrefixCode {α β : Type} (ok : α → Prop) (encode : α → List β) (decode : List β → Option α) :
    Prop :=
  ∀ s a, decode s = some a ↔ ok a ∧ encode a <+: s

namespace PrefixCode

variable {α β γ : Type} {ok : α → Prop} {encode : α → List β} {decode : List β → Option α}
  {ok' : γ → Prop} {encode' : γ → List β} {decode' : List β → Option γ} {s : List β} {a b : α}

theorem decode_encode (h : PrefixCode ok encode decode) (ha : ok a) :
    decode (encode a) = some a :=
  (h _ _).2 ⟨ha, List.prefix_refl _⟩

/-- A string starts with at most one code word. -/
theorem unique (h : PrefixCode ok encode decode) (ha : ok a) (hb : ok b) (hsa : encode a <+: s)
    (hsb : encode b <+: s) : a = b := by
  have hread := (h s a).2 ⟨ha, hsa⟩
  rw [(h s b).2 ⟨hb, hsb⟩] at hread
  exact (Option.some.inj hread).symm

theorem decode_eq_none_iff (h : PrefixCode ok encode decode) :
    decode s = none ↔ ∀ a, ok a → ¬ encode a <+: s := by
  rw [Option.eq_none_iff_forall_ne_some]
  constructor
  · intro hnone a ha hs
    exact hnone a ((h s a).2 ⟨ha, hs⟩)
  · intro hnone a hread
    obtain ⟨ha, hs⟩ := (h s a).1 hread
    exact hnone a ha hs

/-- Dispatch on a tag. -/
def decodeTagged [DecidableEq β] (tag : β) (decode : List β → Option α) (tag' : β)
    (decode' : List β → Option γ) : List β → Option (α ⊕ γ)
  | [] => none
  | t :: s =>
    if t = tag then (decode s).map .inl
    else if t = tag' then (decode' s).map .inr
    else none

/-- Two codes under different tags. -/
theorem tagged [DecidableEq β] {tag tag' : β} (hne : tag ≠ tag') (h : PrefixCode ok encode decode)
    (h' : PrefixCode ok' encode' decode') :
    PrefixCode (Sum.elim ok ok') (Sum.elim (fun a => tag :: encode a) fun c => tag' :: encode' c)
      (decodeTagged tag decode tag' decode') := by
  intro s v
  cases s with
  | nil => cases v <;> simp [decodeTagged]
  | cons t s =>
      cases v with
      | inl a =>
          rw [Sum.elim_inl, Sum.elim_inl, List.cons_prefix_cons, decodeTagged]
          by_cases ht : t = tag
          · subst ht
            simp [h s a]
          · rw [if_neg ht]
            split <;> simp [Ne.symm ht]
      | inr c =>
          rw [Sum.elim_inr, Sum.elim_inr, List.cons_prefix_cons, decodeTagged]
          by_cases ht : t = tag
          · subst ht
            simp [Ne.symm hne]
          · rw [if_neg ht]
            by_cases ht' : t = tag'
            · subst ht'
              simp [h' s c]
            · simp [ht', Ne.symm ht']

end PrefixCode
