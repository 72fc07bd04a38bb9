import SecureTransfer.Lib.Transition

set_option autoImplicit false

/-! # Systems whose steps commute

Where two enabled steps with different labels can be taken in either order, with the same result,
the schedule does not matter: once one schedule leads to a state without a next step, every other
one leads there as well and takes each step as often. So it is enough to follow one schedule. -/

namespace Lts

variable {σ ℓ : Type*} {M : Lts σ ℓ}

/-- Steps with different labels can be taken in either order. -/
def Commutes (M : Lts σ ℓ) : Prop :=
  ∀ l l' s s₁ s₂, l ≠ l' → M.step l s = some s₁ → M.step l' s = some s₂ →
    ∃ s₃, M.step l' s₁ = some s₃ ∧ M.step l s₂ = some s₃

/-- No step is enabled. -/
def Stuck (M : Lts σ ℓ) (s : σ) : Prop :=
  ∀ l, M.step l s = none

/-- A step taken first: either the execution takes it later, or it is still enabled at the end. -/
theorem Commutes.pull [DecidableEq ℓ] (h : M.Commutes) {l : ℓ} {ls : List ℓ} {s s' t : σ}
    (hstep : M.step l s = some s') (hexec : M.exec ls s = some t) :
    (l ∈ ls ∧ M.exec (ls.erase l) s' = some t) ∨
      ∃ t', M.exec ls s' = some t' ∧ M.step l t = some t' := by
  induction ls generalizing s s' with
  | nil =>
      cases hexec
      exact .inr ⟨s', rfl, hstep⟩
  | cons l₁ ls ih =>
      obtain ⟨s₁, hstep₁, hrest⟩ := Option.bind_eq_some_iff.1 hexec
      by_cases heq : l₁ = l
      · subst heq
        rw [hstep] at hstep₁
        cases hstep₁
        exact .inl ⟨List.mem_cons_self, by rwa [List.erase_cons_head]⟩
      · obtain ⟨s₂, hafter, hbefore⟩ := h l₁ l s s₁ s' heq hstep₁ hstep
        rcases ih hafter hrest with ⟨hmem, hexec'⟩ | ⟨t', hexec', hlast⟩
        · refine .inl ⟨List.mem_cons_of_mem _ hmem, ?_⟩
          rw [List.erase_cons_tail (by simpa using heq), exec, hbefore]
          exact hexec'
        · refine .inr ⟨t', ?_, hlast⟩
          rw [exec, hbefore]
          exact hexec'

/-- **One schedule decides.** If one execution ends in a state without a next step, every other
    execution from the same state can be continued to that state, and the two then have the same
    steps. -/
theorem Commutes.exists_exec_of_stuck [DecidableEq ℓ] (h : M.Commutes) {ls ls' : List ℓ}
    {s s' t : σ} (hexec : M.exec ls s = some t) (hstuck : M.Stuck t)
    (hexec' : M.exec ls' s = some s') :
    ∃ ls'', M.exec ls'' s' = some t ∧ ls.Perm (ls' ++ ls'') := by
  induction ls' generalizing ls s with
  | nil =>
      cases hexec'
      exact ⟨ls, hexec, List.Perm.refl _⟩
  | cons l ls' ih =>
      obtain ⟨s₁, hstep, hrest⟩ := Option.bind_eq_some_iff.1 hexec'
      rcases h.pull hstep hexec with ⟨hmem, hexec₁⟩ | ⟨t', _, hlast⟩
      · obtain ⟨ls'', hls'', hperm⟩ := ih hexec₁ hrest
        exact ⟨ls'', hls'', (List.perm_cons_erase hmem).trans (hperm.cons l)⟩
      · rw [hstuck l] at hlast
        cases hlast

/-- An execution that cannot go on has reached the same state. -/
theorem Commutes.eq_of_stuck [DecidableEq ℓ] (h : M.Commutes) {ls ls' : List ℓ} {s s' t : σ}
    (hexec : M.exec ls s = some t) (hstuck : M.Stuck t) (hexec' : M.exec ls' s = some s')
    (hstuck' : M.Stuck s') : s' = t := by
  obtain ⟨ls'', hrest, _⟩ := h.exists_exec_of_stuck hexec hstuck hexec'
  cases ls'' with
  | nil => exact Option.some.inj hrest
  | cons l ls'' => rw [exec, hstuck' l] at hrest; cases hrest

end Lts
