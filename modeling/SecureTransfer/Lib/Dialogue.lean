import Mathlib.Logic.Relation
import SecureTransfer.Lib.Confluence
import SecureTransfer.Lib.Outputs
import SecureTransfer.Lib.Script

set_option autoImplicit false

/-! # Two programs on a connection

A `Talk` lets a script run at each end of a connection, their steps and the arrivals of single
symbols interleaved in any order; an end whose script has failed is closed. Neither end can see the
schedule: the steps of a talk commute (`commutes`), so how one schedule ends is how all of them end
(`exists_bound`), and the result of an end is what it makes of all that the other has written
(`result_right`). -/

structure Talk (ε β α γ : Type) where
  left : Script ε β α
  right : Script ε β γ
  toLeft : Pipe β
  toRight : Pipe β

namespace Talk

inductive Label
  | left
  | right
  /-- A symbol arrives at the left end. -/
  | arriveLeft
  | arriveRight
deriving DecidableEq

variable {ε β α γ : Type}

def step (eof : ε) : Label → Talk ε β α γ → Option (Talk ε β α γ)
  | .left, t =>
    (t.left.step eof t.right.isFailed t.toLeft t.toRight).map fun (left, toLeft, toRight) =>
      { t with left, toLeft, toRight }
  | .right, t =>
    (t.right.step eof t.left.isFailed t.toRight t.toLeft).map fun (right, toRight, toLeft) =>
      { t with right, toLeft, toRight }
  | .arriveLeft, t => t.toLeft.arrive.map fun toLeft => { t with toLeft }
  | .arriveRight, t => t.toRight.arrive.map fun toRight => { t with toRight }

/-- `left` and `right` talking to each other. -/
def talk (eof : ε) (left : Script ε β α) (right : Script ε β γ) : Lts (Talk ε β α γ) Label where
  init := ⟨left, right, .empty, .empty⟩
  step := step eof

/-! ### One step -/

inductive Turn (eof : ε) : Label → Talk ε β α γ → Talk ε β α γ → Prop
  | left {t : Talk ε β α γ} {left : Script ε β α} {toLeft toRight : Pipe β}
      (h : Script.Move eof t.right.isFailed t.toLeft t.toRight t.left left toLeft toRight) :
      Turn eof .left t { t with left := left, toLeft := toLeft, toRight := toRight }
  | right {t : Talk ε β α γ} {right : Script ε β γ} {toLeft toRight : Pipe β}
      (h : Script.Move eof t.left.isFailed t.toRight t.toLeft t.right right toRight toLeft) :
      Turn eof .right t { t with right := right, toLeft := toLeft, toRight := toRight }
  | arriveLeft {t : Talk ε β α γ} {toLeft : Pipe β} (h : t.toLeft.arrive = some toLeft) :
      Turn eof .arriveLeft t { t with toLeft := toLeft }
  | arriveRight {t : Talk ε β α γ} {toRight : Pipe β} (h : t.toRight.arrive = some toRight) :
      Turn eof .arriveRight t { t with toRight := toRight }

variable {eof : ε} {l l' : Label} {t t' t₁ t₂ : Talk ε β α γ}

theorem turn_of_step (h : step eof l t = some t') : Turn eof l t t' := by
  cases l with
  | left =>
      obtain ⟨r, hmove, rfl⟩ := Option.map_eq_some_iff.1 h
      exact .left (Script.move_of_step hmove)
  | right =>
      obtain ⟨r, hmove, rfl⟩ := Option.map_eq_some_iff.1 h
      exact .right (Script.move_of_step hmove)
  | arriveLeft =>
      obtain ⟨r, harrive, rfl⟩ := Option.map_eq_some_iff.1 h
      exact .arriveLeft harrive
  | arriveRight =>
      obtain ⟨r, harrive, rfl⟩ := Option.map_eq_some_iff.1 h
      exact .arriveRight harrive

theorem Turn.step (h : Turn eof l t t') : step eof l t = some t' := by
  cases h with
  | left h => rw [Talk.step, h.step]; rfl
  | right h => rw [Talk.step, h.step]; rfl
  | arriveLeft h => rw [Talk.step, h]; rfl
  | arriveRight h => rw [Talk.step, h]; rfl

/-! ### The other way round -/

def Label.swap : Label → Label
  | .left => .right
  | .right => .left
  | .arriveLeft => .arriveRight
  | .arriveRight => .arriveLeft

/-- The ends exchanged. -/
def swap (t : Talk ε β α γ) : Talk ε β γ α :=
  ⟨t.right, t.left, t.toRight, t.toLeft⟩

theorem Turn.swap (h : Turn eof l t t') : Turn eof l.swap t.swap t'.swap := by
  cases h with
  | left h => exact .right (t := t.swap) h
  | right h => exact .left (t := t.swap) h
  | arriveLeft h => exact .arriveRight (t := t.swap) h
  | arriveRight h => exact .arriveLeft (t := t.swap) h

/-! ### Commuting -/

theorem commute_ends (h₁ : Turn eof .left t t₁) (h₂ : Turn eof .right t t₂) :
    ∃ t₃, Turn eof .right t₁ t₃ ∧ Turn eof .left t₂ t₃ := by
  cases h₁ with
  | left h₁ =>
      cases h₂ with
      | right h₂ =>
          have hleft := h₁.not_failed
          have hright := h₂.not_failed
          rw [hright] at h₁
          rw [hleft] at h₂
          obtain ⟨toLeft, toRight, hmove, hmove'⟩ := h₁.commute h₂ _ _
          exact ⟨_, .right hmove, .left hmove'⟩

theorem commute_left_arriveLeft (h₁ : Turn eof .left t t₁) (h₂ : Turn eof .arriveLeft t t₂) :
    ∃ t₃, Turn eof .arriveLeft t₁ t₃ ∧ Turn eof .left t₂ t₃ := by
  cases h₁ with
  | left h₁ =>
      cases h₂ with
      | arriveLeft h₂ =>
          obtain ⟨toLeft, harrive, hmove⟩ := h₁.arrive_inp h₂
          exact ⟨_, .arriveLeft harrive, .left hmove⟩

theorem commute_left_arriveRight (h₁ : Turn eof .left t t₁) (h₂ : Turn eof .arriveRight t t₂) :
    ∃ t₃, Turn eof .arriveRight t₁ t₃ ∧ Turn eof .left t₂ t₃ := by
  cases h₁ with
  | left h₁ =>
      cases h₂ with
      | arriveRight h₂ =>
          obtain ⟨toRight, harrive, hmove⟩ := h₁.arrive_out h₂
          exact ⟨_, .arriveRight harrive, .left hmove⟩

theorem commute_right_arriveLeft (h₁ : Turn eof .right t t₁) (h₂ : Turn eof .arriveLeft t t₂) :
    ∃ t₃, Turn eof .arriveLeft t₁ t₃ ∧ Turn eof .right t₂ t₃ := by
  obtain ⟨t₃, h₃, h₃'⟩ := commute_left_arriveRight h₁.swap h₂.swap
  exact ⟨t₃.swap, h₃.swap, h₃'.swap⟩

theorem commute_right_arriveRight (h₁ : Turn eof .right t t₁) (h₂ : Turn eof .arriveRight t t₂) :
    ∃ t₃, Turn eof .arriveRight t₁ t₃ ∧ Turn eof .right t₂ t₃ := by
  obtain ⟨t₃, h₃, h₃'⟩ := commute_left_arriveLeft h₁.swap h₂.swap
  exact ⟨t₃.swap, h₃.swap, h₃'.swap⟩

theorem commute_arrivals (h₁ : Turn eof .arriveLeft t t₁) (h₂ : Turn eof .arriveRight t t₂) :
    ∃ t₃, Turn eof .arriveRight t₁ t₃ ∧ Turn eof .arriveLeft t₂ t₃ := by
  cases h₁ with
  | arriveLeft h₁ =>
      cases h₂ with
      | arriveRight h₂ => exact ⟨_, .arriveRight h₂, .arriveLeft h₁⟩

theorem Turn.commute (hne : l ≠ l') (h₁ : Turn eof l t t₁) (h₂ : Turn eof l' t t₂) :
    ∃ t₃, Turn eof l' t₁ t₃ ∧ Turn eof l t₂ t₃ := by
  have hswap {t₁ t₂ : Talk ε β α γ} {l l' : Label}
      (h : ∃ t₃, Turn eof l' t₁ t₃ ∧ Turn eof l t₂ t₃) :
      ∃ t₃, Turn eof l t₂ t₃ ∧ Turn eof l' t₁ t₃ := h.imp fun _ => And.symm
  cases l with
  | left =>
      cases l' with
      | left => exact absurd rfl hne
      | right => exact commute_ends h₁ h₂
      | arriveLeft => exact commute_left_arriveLeft h₁ h₂
      | arriveRight => exact commute_left_arriveRight h₁ h₂
  | right =>
      cases l' with
      | left => exact hswap (commute_ends h₂ h₁)
      | right => exact absurd rfl hne
      | arriveLeft => exact commute_right_arriveLeft h₁ h₂
      | arriveRight => exact commute_right_arriveRight h₁ h₂
  | arriveLeft =>
      cases l' with
      | left => exact hswap (commute_left_arriveLeft h₂ h₁)
      | right => exact hswap (commute_right_arriveLeft h₂ h₁)
      | arriveLeft => exact absurd rfl hne
      | arriveRight => exact commute_arrivals h₁ h₂
  | arriveRight =>
      cases l' with
      | left => exact hswap (commute_left_arriveRight h₂ h₁)
      | right => exact hswap (commute_right_arriveRight h₂ h₁)
      | arriveLeft => exact hswap (commute_arrivals h₂ h₁)
      | arriveRight => exact absurd rfl hne

/-- **The schedule does not matter.** -/
theorem commutes (eof : ε) (left : Script ε β α) (right : Script ε β γ) :
    (talk eof left right).Commutes := by
  intro l l' t t₁ t₂ hne h₁ h₂
  obtain ⟨t₃, h₃, h₃'⟩ := (turn_of_step h₁).commute hne (turn_of_step h₂)
  exact ⟨t₃, h₃.step, h₃'.step⟩

/-! ### Whole talks -/

variable {left : Script ε β α} {right : Script ε β γ} {ls : List Label}

/-- Each end has followed its script. -/
def Faithful (eof : ε) (left : Script ε β α) (right : Script ε β γ) (t : Talk ε β α γ) : Prop :=
  Script.Follows eof left t.right.isFailed t.toLeft t.toRight t.left ∧
    Script.Follows eof right t.left.isFailed t.toRight t.toLeft t.right

theorem Faithful.swap (h : Faithful eof left right t) : Faithful eof right left t.swap :=
  ⟨h.2, h.1⟩

theorem Faithful.moveLeft {l₁ : Script ε β α} {toLeft toRight : Pipe β}
    (h : Faithful eof left right t)
    (hmove : Script.Move eof t.right.isFailed t.toLeft t.toRight t.left l₁ toLeft toRight) :
    Faithful eof left right { t with left := l₁, toLeft := toLeft, toRight := toRight } := by
  obtain ⟨hinp, hout⟩ := hmove.frame
  refine ⟨h.1.move hmove, h.2.congr hout hinp fun hclosed => ?_⟩
  rw [hmove.not_failed] at hclosed
  cases hclosed

theorem Faithful.arriveLeft {toLeft : Pipe β} (h : Faithful eof left right t)
    (harrive : t.toLeft.arrive = some toLeft) :
    Faithful eof left right { t with toLeft := toLeft } := by
  obtain ⟨-, hwritten, -, hread⟩ := Pipe.arrive_eq_some harrive
  exact ⟨h.1.congr (Pipe.consumed_arrive harrive) rfl fun hclosed => ⟨hclosed, hwritten, hread⟩,
    h.2.congr rfl hwritten fun hclosed => ⟨hclosed, rfl, rfl⟩⟩

theorem faithful (h : (talk eof left right).Reaches ls t) : Faithful eof left right t := by
  refine Lts.Run.invariant (P := Faithful eof left right) ?_ ?_ h
  · exact ⟨⟨left, .refl _, .inl rfl⟩, ⟨right, .refl _, .inl rfl⟩⟩
  · intro t l t' hfaithful _ hstep
    cases turn_of_step hstep with
    | left hmove => exact hfaithful.moveLeft hmove
    | right hmove => exact (hfaithful.swap.moveLeft hmove).swap
    | arriveLeft harrive => exact hfaithful.arriveLeft harrive
    | arriveRight harrive => exact (hfaithful.swap.arriveLeft harrive).swap

/-- **Results.** An end that is over has read what its result tells of, from all that has been
    written to it, and the rest is left. -/
theorem result_right {result : Except ε γ} (h : (talk eof left right).Reaches ls t)
    (hdone : t.right = .done result) :
    right.reader eof t.toRight.written
      = result.map fun a => (a, t.toRight.written.drop t.toRight.read) := by
  have hright := (faithful h).2
  rw [hdone] at hright
  exact hright.result

/-! ### One schedule -/

/-- Some schedule leads from one state to the other. -/
def Leads (eof : ε) : Talk ε β α γ → Talk ε β α γ → Prop :=
  Relation.ReflTransGen fun t t' => ∃ l, step eof l t = some t'

variable {l₀ l₁ : Script ε β α} {r₀ r₁ : Script ε β γ} {toLeft toRight : Pipe β}
  {front back front' back' bs input output : List β} {n : ℕ}

theorem leads_iff_exec (left : Script ε β α) (right : Script ε β γ) :
    Leads eof t t' ↔ ∃ ls, (talk eof left right).exec ls t = some t' := by
  constructor
  · intro h
    induction h with
    | refl => exact ⟨[], rfl⟩
    | @tail mid last _ hstep ih =>
        obtain ⟨ls, hls⟩ := ih
        obtain ⟨l, hl⟩ := hstep
        have hlast : (talk eof left right).exec [l] mid = some last := by
          rw [Lts.exec, show (talk eof left right).step l mid = some last from hl]
          rfl
        exact ⟨ls ++ [l], Lts.exec_trans hls hlast⟩
  · rintro ⟨ls, hls⟩
    induction ls generalizing t with
    | nil => cases hls; exact .refl
    | cons l ls ih =>
        obtain ⟨mid, hmid, hrest⟩ := Option.bind_eq_some_iff.1 hls
        exact .head ⟨l, hmid⟩ (ih hrest)

theorem Turn.leads (h : Turn eof l t t') : Leads eof t t' :=
  .single ⟨l, h.step⟩

theorem Leads.swap (h : Leads eof t t') : Leads eof t.swap t'.swap := by
  induction h with
  | refl => exact .refl
  | tail _ hstep ih =>
      obtain ⟨l, hl⟩ := hstep
      exact ih.tail ⟨l.swap, (turn_of_step hl).swap.step⟩

/-- An end that is over stays so. -/
theorem Leads.right_done {result : Except ε γ} (h : Leads eof t t')
    (hdone : t.right = .done result) : t'.right = .done result := by
  induction h with
  | refl => exact hdone
  | tail _ hstep ih =>
      obtain ⟨l, hl⟩ := hstep
      cases turn_of_step hl with
      | left hmove => exact ih
      | right hmove => rw [ih] at hmove; cases hmove
      | arriveLeft harrive => exact ih
      | arriveRight harrive => exact ih

theorem Leads.left_done {result : Except ε α} (h : Leads eof t t')
    (hdone : t.left = .done result) : t'.left = .done result :=
  h.swap.right_done hdone

/-- What is on its way arrives. -/
theorem leads_arriveRight (hread : front.length ≤ toRight.arrived)
    (hr : toRight.read = front.length) (hw : toRight.written = front ++ back) :
    Leads eof ⟨l₀, r₀, toLeft, toRight⟩ ⟨l₀, r₀, toLeft, .settled front back⟩ := by
  induction hrest : toRight.written.length - toRight.arrived generalizing toRight with
  | zero =>
      have heq : toRight = .settled front back := by
        refine Pipe.ext hw ?_ hr
        have hle := toRight.arrived_le
        simp only [Pipe.settled, ← hw]
        omega
      rw [heq]
      exact .refl
  | succ k ih =>
      obtain ⟨q, hq⟩ := Pipe.exists_arrive (p := toRight) (by omega)
      obtain ⟨-, hw', ha', hr'⟩ := Pipe.arrive_eq_some hq
      have hturn : Turn eof .arriveRight ⟨l₀, r₀, toLeft, toRight⟩ ⟨l₀, r₀, toLeft, q⟩ :=
        .arriveRight hq
      exact hturn.leads.trans (ih (by omega) (hr'.trans hr) (hw'.trans hw)
        (by rw [hw', ha']; omega))

/-- The left end runs on input that has arrived, -/
theorem leads_left (h : Script.Steps l₀ input output l₁) :
    Leads eof ⟨l₀, r₀, .settled front (input ++ back), .settled front' back'⟩
      ⟨l₁, r₀, .settled (front ++ input) back, .settled front' (back' ++ output)⟩ := by
  induction h generalizing front back' with
  | refl p =>
      rw [List.append_nil, List.append_nil]
      exact .refl
  | @write bs input output next q h ih =>
      have hturn : Turn eof .left ⟨.write bs next, r₀, .settled front (input ++ back), _⟩
          ⟨next, r₀, .settled front (input ++ back), (Pipe.settled front' back').push bs⟩ :=
        .left (.write bs next)
      refine (hturn.leads.trans (leads_arriveRight (Pipe.settled front' back').read_le rfl
        (List.append_assoc _ _ _))).trans ?_
      rw [← List.append_assoc]
      exact ih
  | @read n bs input output next q hlen h ih =>
      subst hlen
      have hmove : Script.Move eof r₀.isFailed (.settled front (bs ++ (input ++ back)))
          (.settled front' back') (.readExact bs.length next) _ _ _ :=
        .read next (Pipe.skip_settled front bs (input ++ back))
      rw [Pipe.front_settled] at hmove
      have hturn : Turn eof .left ⟨_, r₀, _, _⟩ ⟨_, r₀, _, _⟩ := .left hmove
      rw [List.append_assoc]
      refine hturn.leads.trans ?_
      rw [← List.append_assoc]
      exact ih

/-- and so does the right end. -/
theorem leads_right (h : Script.Steps r₀ input output r₁) :
    Leads eof ⟨l₀, r₀, .settled front' back', .settled front (input ++ back)⟩
      ⟨l₀, r₁, .settled front' (back' ++ output), .settled (front ++ input) back⟩ :=
  (leads_left h).swap

/-- The left end finds that its input has ended, -/
theorem leads_left_eof {next : List β → Script ε β α} (hfailed : r₀.isFailed = true)
    (hshort : back.length < n) :
    Leads eof ⟨.readExact n next, r₀, .settled front back, toRight⟩
      ⟨.fail eof, r₀, .settled front back, toRight⟩ :=
  Turn.leads (.left (t := ⟨.readExact n next, r₀, .settled front back, toRight⟩)
    (.eof next (Pipe.skip_settled_short hshort) hfailed rfl))

/-- or the right end does. -/
theorem leads_right_eof {next : List β → Script ε β γ} (hfailed : l₀.isFailed = true)
    (hshort : back.length < n) :
    Leads eof ⟨l₀, .readExact n next, toLeft, .settled front back⟩
      ⟨l₀, .fail eof, toLeft, .settled front back⟩ :=
  (leads_left_eof hfailed hshort).swap

theorem stuck_of_done {result : Except ε α} {result' : Except ε γ} (left : Script ε β α)
    (right : Script ε β γ) :
    (talk eof left right).Stuck
      ⟨.done result, .done result', .settled front back, .settled front' back'⟩ := by
  intro l
  cases l with
  | left => rfl
  | right => rfl
  | arriveLeft => exact congrArg (Option.map _) (Pipe.arrive_settled front back)
  | arriveRight => exact congrArg (Option.map _) (Pipe.arrive_settled front' back')

/-- **How a talk ends.** When some schedule ends with both scripts over, no schedule takes more
    steps, each can be continued to the same end, and one that cannot go on has reached it. -/
theorem exists_bound {last : Talk ε β α γ} (hstuck : (talk eof left right).Stuck last)
    (hleads : Leads eof (talk eof left right).init last) :
    ∃ bound, ∀ ls t, (talk eof left right).Reaches ls t →
      ls.length ≤ bound ∧ Leads eof t last ∧ ((talk eof left right).Stuck t → t = last) := by
  obtain ⟨ls₀, hls₀⟩ := (leads_iff_exec left right).1 hleads
  refine ⟨ls₀.length, fun ls t hrun => ?_⟩
  have hls := hrun.exec_eq
  obtain ⟨rest, hrest, hperm⟩ := (commutes eof left right).exists_exec_of_stuck hls₀ hstuck hls
  refine ⟨?_, (leads_iff_exec left right).2 ⟨rest, hrest⟩, fun hend => ?_⟩
  · rw [hperm.length_eq, List.length_append]
    exact Nat.le_add_right _ _
  · exact (commutes eof left right).eq_of_stuck hls₀ hstuck hls hend

end Talk
