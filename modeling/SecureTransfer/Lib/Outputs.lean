import SecureTransfer.Lib.Transition

set_option autoImplicit false

/-! # The outputs of a run

What the steps of a run emit, put together in order, is its log. The rule `Run.outputs` carries an
invariant of history, log and state along a run; `EachAfter R` says that every entry of a log stands
in relation `R` to the part of the log before it, which is how "only after", "never again" and "not
before so much time has passed" are stated. -/

namespace Lts

variable {σ ℓ ω : Type*} {M : Lts σ ℓ} {ok : σ → ℓ → Prop} {emit : ℓ → σ → σ → List ω}

/-- What the steps of `ls` emit, from `s` on. -/
def outputs (M : Lts σ ℓ) (emit : ℓ → σ → σ → List ω) : List ℓ → σ → List ω
  | [], _ => []
  | l :: ls, s =>
    match M.step l s with
    | none => []
    | some s' => emit l s s' ++ outputs M emit ls s'

theorem outputs_append {ls ls' : List ℓ} {s mid : σ} (h : M.exec ls s = some mid) :
    M.outputs emit (ls ++ ls') s = M.outputs emit ls s ++ M.outputs emit ls' mid := by
  induction ls generalizing s with
  | nil =>
      simp only [exec, Option.some.injEq] at h
      subst h
      rfl
  | cons l ls ih =>
      obtain ⟨next, hstep, hrest⟩ := Option.bind_eq_some_iff.1 h
      simp only [List.cons_append, outputs, hstep, ih hrest, List.append_assoc]

/-- A run is an execution. -/
theorem Run.exec_eq {ls : List ℓ} {s : σ} (h : M.Run ok ls s) : M.exec ls M.init = some s := by
  induction h with
  | nil => rfl
  | snoc _ _ hs ih =>
      refine exec_trans ih ?_
      rw [exec, hs]
      rfl

theorem Run.outputs_snoc {ls : List ℓ} {s s' : σ} {l : ℓ} (h : M.Run ok ls s)
    (hstep : M.step l s = some s') :
    M.outputs emit (ls ++ [l]) M.init = M.outputs emit ls M.init ++ emit l s s' := by
  rw [outputs_append h.exec_eq]
  simp only [outputs, hstep, List.append_nil]

/-- The invariant rule for a property of the history, the log and the state. -/
theorem Run.outputs {P : List ℓ → List ω → σ → Prop} (hinit : P [] [] M.init)
    (hstep : ∀ ls log s l s', M.Run ok ls s → P ls log s → ok s l → M.step l s = some s' →
      P (ls ++ [l]) (log ++ emit l s s') s')
    {ls : List ℓ} {s : σ} (h : M.Run ok ls s) : P ls (M.outputs emit ls M.init) s := by
  refine h.history (P := fun ls s => P ls (M.outputs emit ls M.init) s) hinit
    fun ls s l s' hrun ih hok hs => ?_
  rw [hrun.outputs_snoc hs]
  exact hstep ls _ s l s' hrun ih hok hs

end Lts

variable {ω : Type*} {R : List ω → ω → Prop} {log out : List ω} {x : ω}

/-- Every entry stands in relation `R` to what is before it. -/
def EachAfter (R : List ω → ω → Prop) (log : List ω) : Prop :=
  ∀ pre x post, log = pre ++ x :: post → R pre x

theorem EachAfter.nil : EachAfter R [] := by
  intro pre x post h
  simp at h

theorem EachAfter.append (h : EachAfter R log)
    (hnew : ∀ pre x post, out = pre ++ x :: post → R (log ++ pre) x) : EachAfter R (log ++ out) := by
  intro pre x post heq
  rcases List.append_eq_append_iff.1 heq with ⟨mid, rfl, hout⟩ | ⟨mid, hlog, hout⟩
  · exact hnew mid x post hout
  · cases mid with
    | nil =>
        rw [List.append_nil] at hlog
        subst hlog
        simpa using hnew [] x post (by simpa using hout.symm)
    | cons y mid =>
        rw [List.cons_append, List.cons.injEq] at hout
        exact h pre x mid (by rw [hlog, hout.1])

theorem EachAfter.snoc (h : EachAfter R log) (hx : R log x) : EachAfter R (log ++ [x]) := by
  refine h.append fun pre y post heq => ?_
  cases pre with
  | nil =>
      rw [List.nil_append, List.cons.injEq] at heq
      rw [List.append_nil, ← heq.1]
      exact hx
  | cons z pre => simp at heq
