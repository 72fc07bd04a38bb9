import SecureTransfer.Lib.Outputs

set_option autoImplicit false

/-! # Simulation

A concrete system simulates into an abstract one when the two start related and every concrete step
from related states is matched by some steps of the abstract system, perhaps none. Whatever holds in
every reachable state of the abstract system then holds of the abstraction of every reachable state
of the concrete one. -/

namespace Lts

variable {σ τ ℓ κ : Type*} {M : Lts σ ℓ} {N : Lts τ κ} {R : σ → τ → Prop}

/-- Every step of `M` is matched by an execution of `N`; what is known of the states that `N` reaches
    may be used of the state it is in. -/
structure Simulation (M : Lts σ ℓ) (N : Lts τ κ) (R : σ → τ → Prop) : Prop where
  init : R M.init N.init
  step : ∀ ks l s s' t, N.Reaches ks t → R s t → M.step l s = some s' →
    ∃ ks' t', N.exec ks' t = some t' ∧ R s' t'

theorem Simulation.reaches (h : M.Simulation N R) {ls : List ℓ} {s : σ} (hrun : M.Reaches ls s) :
    ∃ ks t, N.Reaches ks t ∧ R s t := by
  induction hrun with
  | nil => exact ⟨[], N.init, .nil, h.init⟩
  | snoc _ _ hstep ih =>
      obtain ⟨ks, t, hreach, hrel⟩ := ih
      obtain ⟨ks', t', hexec, hrel'⟩ := h.step _ _ _ _ _ hreach hrel hstep
      exact ⟨ks ++ ks', t', hreach.extend (fun _ _ _ => trivial) hexec, hrel'⟩

end Lts
