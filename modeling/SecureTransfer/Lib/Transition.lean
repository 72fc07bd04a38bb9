import Mathlib.Logic.Basic
import Mathlib.Data.List.Basic
import Mathlib.Order.WellFounded

set_option autoImplicit false

/-! # Labelled transition systems with a partial step function

A system is an initial state and a step function `ℓ → σ → Option σ`; a label that is not enabled
steps to `none`. Nondeterminism (an interleaving, a network, a clock) lives in the label, so a
concrete run is a list of labels that `exec` evaluates, while the invariant rules below are about
`Run`, the inductive relation between a history of labels and the state it leads to. `Run` carries
a side condition `ok` on every step taken (`fun _ _ => True` for all runs), so "every run whose
steps all satisfy `ok`" is a `Run` like any other. -/

/-- A transition system whose steps are selected by labels. -/
structure Lts (σ ℓ : Type*) where
  init : σ
  step : ℓ → σ → Option σ

namespace Lts

variable {σ ℓ : Type*} (M : Lts σ ℓ)

/-- Take the steps of `ls` in order from `s`; `none` when one of them is not enabled. -/
def exec : List ℓ → σ → Option σ
  | [], s => some s
  | l :: ls, s => (M.step l s).bind (exec ls)

/-- `M.Run ok ls s`: the labels `ls`, oldest first, lead from the initial state to `s`, and every
    step taken satisfies `ok` in the state it is taken from. -/
inductive Run (ok : σ → ℓ → Prop) : List ℓ → σ → Prop
  | nil : Run ok [] M.init
  | snoc {ls : List ℓ} {s : σ} {l : ℓ} {s' : σ} :
      Run ok ls s → ok s l → M.step l s = some s' → Run ok (ls ++ [l]) s'

/-- Every history of labels, without a side condition. -/
abbrev Reaches (ls : List ℓ) (s : σ) : Prop := M.Run (fun _ _ => True) ls s

variable {M} {ok : σ → ℓ → Prop}

/-- **Invariant rule.** What holds initially and is preserved by every admitted step holds in every
    state a run leads to. -/
theorem Run.invariant {P : σ → Prop} (hinit : P M.init)
    (hstep : ∀ s l s', P s → ok s l → M.step l s = some s' → P s')
    {ls : List ℓ} {s : σ} (h : M.Run ok ls s) : P s := by
  induction h with
  | nil => exact hinit
  | snoc _ hok hs ih => exact hstep _ _ _ ih hok hs

/-- The invariant rule for a property of the history and the state together; what is known of
    all runs may be used of the run so far. -/
theorem Run.history {P : List ℓ → σ → Prop} (hinit : P [] M.init)
    (hstep : ∀ ls s l s', M.Run ok ls s → P ls s → ok s l → M.step l s = some s' →
      P (ls ++ [l]) s')
    {ls : List ℓ} {s : σ} (h : M.Run ok ls s) : P ls s := by
  induction h with
  | nil => exact hinit
  | snoc hrun hok hs ih => exact hstep _ _ _ _ hrun ih hok hs

theorem exec_append (ls ls' : List ℓ) (s : σ) :
    M.exec (ls ++ ls') s = (M.exec ls s).bind (M.exec ls') := by
  induction ls generalizing s with
  | nil => rfl
  | cons l ls ih =>
      rw [List.cons_append, exec, exec, Option.bind_assoc]
      exact congrArg _ (funext ih)

/-- One execution after another. -/
theorem exec_trans {ls ls' : List ℓ} {s mid s' : σ} (h : M.exec ls s = some mid)
    (h' : M.exec ls' mid = some s') : M.exec (ls ++ ls') s = some s' := by
  rw [exec_append, h, Option.bind_some, h']

/-- A run continues along an execution all of whose labels satisfy the condition. -/
theorem Run.extend {ls ls' : List ℓ} {s s' : σ} (h : M.Run ok ls s)
    (hok : ∀ l ∈ ls', ∀ s, ok s l) (hexec : M.exec ls' s = some s') : M.Run ok (ls ++ ls') s' := by
  induction ls' generalizing ls s with
  | nil =>
      simp only [exec, Option.some.injEq] at hexec
      subst hexec
      simpa using h
  | cons l rest ih =>
      obtain ⟨mid, hmid, hrest⟩ := Option.bind_eq_some_iff.1 hexec
      have hsnoc : M.Run ok (ls ++ [l]) mid := .snoc h (hok l List.mem_cons_self s) hmid
      simpa using ih hsnoc (fun l hl => hok l (List.mem_cons_of_mem _ hl)) hrest

/-- Whether every step taken satisfies the condition in the state it is taken from. -/
def checks (M : Lts σ ℓ) (ok : σ → ℓ → Prop) [∀ s, DecidablePred (ok s)] : List ℓ → σ → Bool
  | [], _ => true
  | l :: ls, s => decide (ok s l) && (M.step l s).all (checks M ok ls)

/-- A run continues along an execution that has been checked step by step. -/
theorem Run.extend_of_checks [∀ s, DecidablePred (ok s)] {ls ls' : List ℓ} {s s' : σ}
    (h : M.Run ok ls s) (hchecks : M.checks ok ls' s = true) (hexec : M.exec ls' s = some s') :
    M.Run ok (ls ++ ls') s' := by
  induction ls' generalizing ls s with
  | nil =>
      simp only [exec, Option.some.injEq] at hexec
      subst hexec
      simpa using h
  | cons l rest ih =>
      obtain ⟨mid, hmid, hrest⟩ := Option.bind_eq_some_iff.1 hexec
      rw [checks, hmid, Option.all_some, Bool.and_eq_true, decide_eq_true_eq] at hchecks
      simpa using ih (h.snoc hchecks.1 hmid) hchecks.2 hrest

/-- An execution from the initial state is a run. -/
theorem run_of_exec {ls : List ℓ} {s : σ} (hok : ∀ l ∈ ls, ∀ s, ok s l)
    (h : M.exec ls M.init = some s) : M.Run ok ls s := by
  simpa using Run.extend (M := M) .nil hok h

theorem run_of_checks [∀ s, DecidablePred (ok s)] {ls : List ℓ} {s : σ}
    (hchecks : M.checks ok ls M.init = true) (h : M.exec ls M.init = some s) : M.Run ok ls s := by
  simpa using Run.extend_of_checks (M := M) .nil hchecks h

theorem reaches_of_exec {ls : List ℓ} {s : σ} (h : M.exec ls M.init = some s) :
    M.Reaches ls s :=
  run_of_exec (fun _ _ _ => trivial) h

/-- Evaluate a concrete execution and a decidable property of the state it ends in. -/
theorem exists_exec (M : Lts σ ℓ) (ls : List ℓ) (P : σ → Prop) [DecidablePred P]
    (h : ((M.exec ls M.init).any fun s => decide (P s)) = true) :
    ∃ s, M.exec ls M.init = some s ∧ P s := by
  simpa using (Option.any_eq_true _ _).1 h

theorem Run.reaches {ls : List ℓ} {s : σ} (h : M.Run ok ls s) : M.Reaches ls s := by
  induction h with
  | nil => exact .nil
  | snoc _ _ hs ih => exact .snoc ih trivial hs

/-- A run all of whose labels satisfy the condition, whatever the state, is a run under it. -/
theorem Run.of_labels {ls : List ℓ} {s : σ} (h : M.Reaches ls s)
    (hok : ∀ l ∈ ls, ∀ s, ok s l) : M.Run ok ls s := by
  induction h with
  | nil => exact .nil
  | snoc _ _ hs ih =>
      exact .snoc (ih fun l hl => hok l (List.mem_append_left _ hl)) (hok _ (by simp) _) hs

/-- What every step with a label in `own` preserves, every execution of such steps preserves. -/
theorem exec_preserves_of_labels {P : σ → Prop} {own : ℓ → Prop}
    (hstep : ∀ s l s', P s → own l → M.step l s = some s' → P s') {ls : List ℓ} {s s' : σ}
    (hls : ∀ l ∈ ls, own l) (hs : P s) (h : M.exec ls s = some s') : P s' := by
  induction ls generalizing s with
  | nil =>
      simp only [exec, Option.some.injEq] at h
      exact h ▸ hs
  | cons l rest ih =>
      obtain ⟨mid, hmid, hrest⟩ := Option.bind_eq_some_iff.1 h
      exact ih (fun l hl => hls l (List.mem_cons_of_mem _ hl))
        (hstep _ _ _ hs (hls l List.mem_cons_self) hmid) hrest

/-- What every step preserves, every execution preserves. -/
theorem exec_preserves {P : σ → Prop} (hstep : ∀ s l s', P s → M.step l s = some s' → P s')
    {ls : List ℓ} {s s' : σ} (hs : P s) (h : M.exec ls s = some s') : P s' :=
  exec_preserves_of_labels (fun s l s' hs _ => hstep s l s' hs)
    (fun _ _ => trivial) hs h

/-- **Progress rule.** If some execution of steps with labels in `own` leads on to a smaller rank
    wherever the goal is not reached, then such an execution leads to the goal. -/
theorem exists_exec_of_wellFounded {α : Type*} [LT α] [WellFoundedLT α] (P goal : σ → Prop)
    (own : ℓ → Prop) (rank : σ → α)
    (hprogress : ∀ s, P s → goal s ∨
      ∃ ls s', (∀ l ∈ ls, own l) ∧ M.exec ls s = some s' ∧ rank s' < rank s ∧ P s')
    (s : σ) (hs : P s) : ∃ ls s', (∀ l ∈ ls, own l) ∧ M.exec ls s = some s' ∧ P s' ∧ goal s' := by
  induction hrank : rank s using WellFoundedLT.induction generalizing s with
  | _ a ih =>
      rcases hprogress s hs with hgoal | ⟨ls, mid, hls, hexec, hlt, hmid⟩
      · exact ⟨[], s, nofun, rfl, hs, hgoal⟩
      · obtain ⟨ls', s', hls', hexec', hrest⟩ := ih _ (hrank ▸ hlt) mid hmid rfl
        refine ⟨ls ++ ls', s', fun l hl => ?_, exec_trans hexec hexec', hrest⟩
        exact (List.mem_append.1 hl).elim (hls l) (hls' l)

/-- One step at a time, and a rank in the natural numbers. -/
theorem exists_exec_of_rank (P goal : σ → Prop) (own : ℓ → Prop) (rank : σ → ℕ)
    (hprogress : ∀ s, P s → goal s ∨
      ∃ l s', own l ∧ M.step l s = some s' ∧ rank s' < rank s ∧ P s') (s : σ) (hs : P s) :
    ∃ ls s', (∀ l ∈ ls, own l) ∧ M.exec ls s = some s' ∧ P s' ∧ goal s' := by
  refine exists_exec_of_wellFounded P goal own rank (fun s hs => (hprogress s hs).imp_right ?_) s hs
  rintro ⟨l, s', hl, hstep, hrest⟩
  refine ⟨[l], s', fun l' hl' => List.mem_singleton.1 hl' ▸ hl, ?_, hrest⟩
  rw [exec, hstep]
  rfl

end Lts
