import SecureTransfer.Lib.Pipe
import SecureTransfer.Lib.StreamCodec

set_option autoImplicit false

/-! # Programs at one end of a connection

A `Script` is what the program at one end of a connection does: write, wait for exactly `n` symbols
(`read_exact`), return or fail. One that waits in vain for an end that is closed fails with `eof`.
`Steps` is what it has read and written so far, and `reader` what it makes of a whole stream; the
two agree (`Follows.result`). -/

/-- What the program at one end of a connection does. -/
inductive Script (ε β α : Type)
  | done (result : Except ε α)
  | write (bs : List β) (next : Script ε β α)
  | readExact (n : ℕ) (next : List β → Script ε β α)

namespace Script

variable {ε β α γ : Type}

def bind : Script ε β α → (α → Script ε β γ) → Script ε β γ
  | .done (.ok a), f => f a
  | .done (.error e), _ => .done (.error e)
  | .write bs next, f => .write bs (next.bind f)
  | .readExact n next, f => .readExact n fun bs => (next bs).bind f

instance : Monad (Script ε β) where
  pure a := .done (.ok a)
  bind := Script.bind

theorem bind_done (p : Script ε β α) : p.bind (fun a => .done (.ok a)) = p := by
  induction p with
  | done result => cases result <;> rfl
  | write bs next ih => exact congrArg (Script.write bs) ih
  | readExact n next ih => exact congrArg (Script.readExact n) (funext ih)

theorem bind_bind {δ : Type} (p : Script ε β α) (f : α → Script ε β γ) (g : γ → Script ε β δ) :
    (p.bind f).bind g = p.bind fun a => (f a).bind g := by
  induction p with
  | done result => cases result <;> rfl
  | write bs next ih => exact congrArg (Script.write bs) ih
  | readExact n next ih => exact congrArg (Script.readExact n) (funext ih)

instance : LawfulMonad (Script ε β) :=
  .mk' (Script ε β) bind_done (fun _ _ => rfl) bind_bind

/-- Stop with an error. -/
def fail (e : ε) : Script ε β α :=
  .done (.error e)

def writeAll (bs : List β) : Script ε β Unit :=
  .write bs (pure ())

def recvExact (n : ℕ) : Script ε β (List β) :=
  .readExact n pure

/-- A call of a function that may fail. -/
def orFail (e : ε) : Option α → Script ε β α
  | some a => pure a
  | none => fail e

def isFailed : Script ε β α → Bool
  | .done (.error _) => true
  | _ => false

/-- One step of the program at an end of a connection. A read waits until enough has arrived, or
    until the other end is closed and nothing more can arrive. -/
def step (eof : ε) (closed : Bool) (inp out : Pipe β) :
    Script ε β α → Option (Script ε β α × Pipe β × Pipe β)
  | .done _ => none
  | .write bs next => some (next, inp, out.push bs)
  | .readExact n next =>
    match inp.skip n with
    | some inp' => some (next (inp.front n), inp', out)
    | none =>
      if closed ∧ inp.arrived = inp.written.length then some (fail eof, inp, out) else none

/-- The moves of a script, with what each requires. -/
inductive Move (eof : ε) (closed : Bool) (inp out : Pipe β) :
    Script ε β α → Script ε β α → Pipe β → Pipe β → Prop
  | write (bs : List β) (next : Script ε β α) :
      Move eof closed inp out (.write bs next) next inp (out.push bs)
  | read {n : ℕ} {inp' : Pipe β} (next : List β → Script ε β α) (hskip : inp.skip n = some inp') :
      Move eof closed inp out (.readExact n next) (next (inp.front n)) inp' out
  | eof {n : ℕ} (next : List β → Script ε β α) (hskip : inp.skip n = none) (hclosed : closed = true)
      (harrived : inp.arrived = inp.written.length) :
      Move eof closed inp out (.readExact n next) (fail eof) inp out

theorem move_of_step {eof : ε} {closed : Bool} {inp out inp' out' : Pipe β}
    {p p' : Script ε β α} (h : p.step eof closed inp out = some (p', inp', out')) :
    Move eof closed inp out p p' inp' out' := by
  cases p with
  | done result => cases h
  | write bs next => cases h; exact .write bs _
  | readExact n next =>
      simp only [step] at h
      cases hskip : inp.skip n with
      | some q =>
          rw [hskip] at h
          cases h
          exact .read next hskip
      | none =>
          rw [hskip] at h
          dsimp only at h
          split at h
          · next hend => cases h; exact .eof next hskip hend.1 hend.2
          · cases h

theorem Move.step {eof : ε} {closed : Bool} {inp out inp' out' : Pipe β} {p p' : Script ε β α}
    (h : Move eof closed inp out p p' inp' out') :
    p.step eof closed inp out = some (p', inp', out') := by
  cases h with
  | write => rfl
  | read next hskip => rw [Script.step, hskip]
  | eof next hskip hclosed harrived => rw [Script.step, hskip]; simp [hclosed, harrived]

/-! ### Moves and the pipes -/

variable {eof : ε} {closed : Bool} {inp out inp' out' : Pipe β} {p p' : Script ε β α}

theorem Move.not_failed (h : Move eof closed inp out p p' inp' out') : p.isFailed = false := by
  cases h <;> rfl

/-- What the other end writes makes no difference to a move that is open already. -/
theorem Move.push (h : Move eof false inp out p p' inp' out') (closed : Bool) (bs : List β) :
    Move eof closed (inp.push bs) out p p' (inp'.push bs) out' := by
  cases h with
  | write bs' next => exact .write bs' _
  | read next hskip =>
      rw [← Pipe.front_push hskip bs]
      exact .read next (Pipe.skip_push hskip bs)
  | eof next hskip hclosed harrived => cases hclosed

/-- Nor does it matter whether the other end has been closed since. -/
theorem Move.of_open (h : Move eof false inp out p p' inp' out') (closed : Bool) :
    Move eof closed inp out p p' inp' out' := by
  cases h with
  | write bs next => exact .write bs _
  | read next hskip => exact .read next hskip
  | eof next hskip hclosed harrived => cases hclosed

/-- Nor what arrives, -/
theorem Move.arrive_inp {inp₁ : Pipe β} (h : Move eof closed inp out p p' inp' out')
    (harrive : inp.arrive = some inp₁) :
    ∃ inp₂, inp'.arrive = some inp₂ ∧ Move eof closed inp₁ out p p' inp₂ out' := by
  cases h with
  | write bs next => exact ⟨inp₁, harrive, .write bs _⟩
  | read next hskip =>
      obtain ⟨inp₂, harrive', hskip'⟩ := Pipe.skip_arrive hskip harrive
      refine ⟨inp₂, harrive', ?_⟩
      rw [← Pipe.front_arrive harrive]
      exact .read next hskip'
  | eof next hskip hclosed harrived =>
      exact absurd (Pipe.arrive_eq_some harrive).1 (by omega)

/-- at either end, -/
theorem Move.arrive_out {out₁ : Pipe β} (h : Move eof closed inp out p p' inp' out')
    (harrive : out.arrive = some out₁) :
    ∃ out₂, out'.arrive = some out₂ ∧ Move eof closed inp out₁ p p' inp' out₂ := by
  cases h with
  | write bs next => exact ⟨out₁.push bs, Pipe.arrive_push harrive bs, .write bs _⟩
  | read next hskip => exact ⟨out₁, harrive, .read next hskip⟩
  | eof next hskip hclosed harrived =>
      exact ⟨out₁, harrive, .eof next hskip hclosed harrived⟩

/-- nor what the other end reads. -/
theorem Move.skip_out {n : ℕ} {out₁ : Pipe β} (h : Move eof closed inp out p p' inp' out')
    (hskip : out.skip n = some out₁) :
    ∃ out₂, out'.skip n = some out₂ ∧ out'.front n = out.front n ∧
      Move eof closed inp out₁ p p' inp' out₂ := by
  cases h with
  | write bs next =>
      exact ⟨out₁.push bs, Pipe.skip_push hskip bs, Pipe.front_push hskip bs, .write bs _⟩
  | read next hskip' => exact ⟨out₁, hskip, rfl, .read next hskip'⟩
  | eof next hskip' hclosed harrived => exact ⟨out₁, hskip, rfl, .eof next hskip' hclosed harrived⟩

/-- The moves of the two ends of a connection can be made in either order. -/
theorem Move.commute {γ : Type} {q q' : Script ε β γ} {inp₂ out₂ : Pipe β}
    (h : Move eof false inp out p p' inp' out') (h' : Move eof false out inp q q' out₂ inp₂)
    (closed closed' : Bool) :
    ∃ inp₃ out₃, Move eof closed out' inp' q q' out₃ inp₃ ∧
      Move eof closed' inp₂ out₂ p p' inp₃ out₃ := by
  cases h with
  | write bs next => exact ⟨inp₂, out₂.push bs, h'.push closed bs, .write bs _⟩
  | read next hskip =>
      obtain ⟨inp₃, hskip', hfront, hmove⟩ := h'.skip_out hskip
      refine ⟨inp₃, out₂, hmove.of_open closed, ?_⟩
      rw [← hfront]
      exact .read next hskip'
  | eof next hskip hclosed harrived => cases hclosed

/-! ### What a script has read and written -/

/-- `p.Steps input output q`: reading `input` and writing `output` takes `p` to `q`. -/
inductive Steps : Script ε β α → List β → List β → Script ε β α → Prop
  | refl (p : Script ε β α) : Steps p [] [] p
  | write {bs input output : List β} {next q : Script ε β α} (h : Steps next input output q) :
      Steps (.write bs next) input (bs ++ output) q
  | read {n : ℕ} {bs input output : List β} {next : List β → Script ε β α} {q : Script ε β α}
      (hlen : bs.length = n) (h : Steps (next bs) input output q) :
      Steps (.readExact n next) (bs ++ input) output q

variable {input output input' output' : List β} {q r : Script ε β α}

theorem Steps.trans (h : Steps p input output q) (h' : Steps q input' output' r) :
    Steps p (input ++ input') (output ++ output') r := by
  induction h with
  | refl p => exact h'
  | write h ih => rw [List.append_assoc]; exact .write (ih h')
  | read hlen h ih => rw [List.append_assoc]; exact .read hlen (ih h')

/-- Run the first of two programs, then the second. -/
theorem Steps.bind {a : α} {f : α → Script ε β γ} {q : Script ε β γ}
    (h : Steps p input output (pure a)) (h' : Steps (f a) input' output' q) :
    Steps (p >>= f) (input ++ input') (output ++ output') q := by
  change Steps (p.bind f) _ _ q
  generalize hend : (pure a : Script ε β α) = last at h
  induction h with
  | refl p => subst hend; exact h'
  | write h ih => rw [List.append_assoc]; exact .write (ih hend)
  | read hlen h ih => rw [List.append_assoc]; exact .read hlen (ih hend)

/-- The first only reads. -/
theorem Steps.recv {a : α} {f : α → Script ε β γ} {q : Script ε β γ}
    (h : Steps p input [] (pure a)) (h' : Steps (f a) input' output q) :
    Steps (p >>= f) (input ++ input') output q :=
  h.bind h'

theorem steps_recvExact (bs : List β) :
    Steps (recvExact bs.length : Script ε β (List β)) bs [] (pure bs) := by
  have hread : Steps (recvExact bs.length : Script ε β (List β)) (bs ++ []) [] (pure bs) :=
    .read rfl (.refl _)
  rwa [List.append_nil] at hread

theorem steps_writeAll {next : Unit → Script ε β α} (bs : List β)
    (h : Steps (next ()) input output q) :
    Steps (writeAll bs >>= next) input (bs ++ output) q :=
  .write h

theorem steps_done {result : Except ε α} (h : Steps (.done result) input output q) :
    input = [] ∧ output = [] ∧ q = .done result := by
  cases h
  exact ⟨rfl, rfl, rfl⟩

/-- Inversion at a write, -/
theorem steps_write {bs : List β} {next : Script ε β α}
    (h : Steps (.write bs next) input output q) :
    (input = [] ∧ output = [] ∧ q = .write bs next) ∨
      ∃ output', output = bs ++ output' ∧ Steps next input output' q := by
  cases h with
  | refl => exact .inl ⟨rfl, rfl, rfl⟩
  | write h => exact .inr ⟨_, rfl, h⟩

/-- and at a read. -/
theorem steps_readExact {n : ℕ} {next : List β → Script ε β α}
    (h : Steps (.readExact n next) input output q) :
    (input = [] ∧ output = [] ∧ q = .readExact n next) ∨
      ∃ bs input', input = bs ++ input' ∧ bs.length = n ∧ Steps (next bs) input' output q := by
  cases h with
  | refl => exact .inl ⟨rfl, rfl, rfl⟩
  | read hlen h => exact .inr ⟨_, _, rfl, hlen, h⟩

/-- `p` reads nothing, writes `whole` front to back unless it fails, and returns with `post`. -/
def Emits (p : Script ε β α) (whole : List β) (post : α → Prop) : Prop :=
  ∀ input output q, Steps p input output q → input = [] ∧ output <+: whole ∧
    ∀ a, q = .done (.ok a) → output = whole ∧ post a

theorem Emits.pure {post : α → Prop} {a : α} (h : post a) :
    Emits (Pure.pure a : Script ε β α) [] post := by
  intro input output q hsteps
  obtain ⟨rfl, rfl, rfl⟩ := steps_done hsteps
  refine ⟨rfl, List.nil_prefix, fun a' ha' => ⟨rfl, ?_⟩⟩
  cases ha'
  exact h

theorem Emits.fail (e : ε) (whole : List β) (post : α → Prop) :
    Emits (Script.fail e : Script ε β α) whole post := by
  intro input output q hsteps
  obtain ⟨rfl, rfl, rfl⟩ := steps_done hsteps
  exact ⟨rfl, List.nil_prefix, nofun⟩

theorem Emits.writeAll {whole : List β} {next : Unit → Script ε β α} {post : α → Prop}
    (bs : List β) (h : Emits (next ()) whole post) :
    Emits (Script.writeAll bs >>= next) (bs ++ whole) post := by
  intro input output q hsteps
  rcases steps_write hsteps with ⟨rfl, rfl, rfl⟩ | ⟨output', rfl, hnext⟩
  · exact ⟨rfl, List.nil_prefix, nofun⟩
  · obtain ⟨rfl, hprefix, hdone⟩ := h _ _ _ hnext
    refine ⟨rfl, (List.prefix_append_right_inj bs).2 hprefix, fun a ha => ?_⟩
    obtain ⟨rfl, hpost⟩ := hdone a ha
    exact ⟨rfl, hpost⟩

/-- A move reads from one pipe and writes on the other, unless the stream has ended. -/
theorem Move.steps (h : Move eof closed inp out p p' inp' out') :
    (∃ input output, Steps p input output p' ∧ inp'.consumed = inp.consumed ++ input ∧
      out'.written = out.written ++ output) ∨
    (p' = fail eof ∧ closed = true ∧ inp' = inp ∧ out' = out ∧
      ∃ n next, p = .readExact n next ∧ inp.written.length < inp.read + n) := by
  cases h with
  | write bs next =>
      exact .inl ⟨[], bs ++ [], .write (.refl _), by simp, by simp⟩
  | read next hskip =>
      exact .inl ⟨inp.front _ ++ [], [], .read (Pipe.length_front hskip) (.refl _),
        by rw [List.append_nil, Pipe.consumed_skip hskip], by simp⟩
  | eof next hskip hclosed harrived =>
      exact .inr ⟨rfl, hclosed, rfl, rfl, _, next, rfl, harrived ▸ Pipe.skip_eq_none hskip⟩

/-- A move neither writes on the pipe it reads from nor reads from the one it writes on. -/
theorem Move.frame (h : Move eof closed inp out p p' inp' out') :
    inp'.written = inp.written ∧ out'.consumed = out.consumed := by
  cases h with
  | write bs next => exact ⟨rfl, Pipe.consumed_push out bs⟩
  | read next hskip => exact ⟨(Pipe.skip_eq_some hskip).2.1, rfl⟩
  | eof next hskip hclosed harrived => exact ⟨rfl, rfl⟩

/-! ### The result as a function of the input -/

/-- What a script makes of a whole stream, and what it leaves of it. -/
def reader (eof : ε) : Script ε β α → Reader ε β α
  | .done (.ok a) => pure a
  | .done (.error e) => throw e
  | .write _ next => next.reader eof
  | .readExact n next => Reader.readExact eof n >>= fun bs => (next bs).reader eof

theorem reader_bind (p : Script ε β α) (f : α → Script ε β γ) :
    (p >>= f).reader eof = p.reader eof >>= fun a => (f a).reader eof := by
  change (p.bind f).reader eof = _
  induction p with
  | done result => cases result <;> rfl
  | write bs next ih => exact ih
  | readExact n next ih =>
      funext s
      simp only [Script.bind, reader, Reader.bind_apply]
      cases Reader.readExact eof n s with
      | error e => rfl
      | ok r => dsimp only; rw [ih, Reader.bind_apply]

theorem reader_recvExact (n : ℕ) :
    (recvExact n : Script ε β (List β)).reader eof = Reader.readExact eof n := by
  funext s
  rw [recvExact, reader, Reader.bind_apply]
  cases Reader.readExact eof n s <;> rfl

theorem Steps.reader (h : Steps p input output q) (more : List β) :
    p.reader eof (input ++ more) = q.reader eof more := by
  induction h with
  | refl p => rfl
  | write h ih => exact ih
  | read hlen h ih =>
      rw [List.append_assoc, Script.reader, Reader.bind_of_ok (Reader.readExact_append hlen _), ih]

/-- Where a script that was `p₀` is, once it has read what `inp` and written what `out` says. It may
    also have found that the other end is closed and its input too short. -/
def Follows (eof : ε) (p₀ : Script ε β α) (closed : Bool) (inp out : Pipe β)
    (p : Script ε β α) : Prop :=
  ∃ q, Steps p₀ inp.consumed out.written q ∧
    (p = q ∨ p = fail eof ∧ closed = true ∧
      ∃ n next, q = .readExact n next ∧ inp.written.length < inp.read + n)

theorem Follows.move {p₀ : Script ε β α} (h : Follows eof p₀ closed inp out p)
    (hmove : Move eof closed inp out p p' inp' out') : Follows eof p₀ closed inp' out' p' := by
  obtain ⟨q, hsteps, rfl | ⟨rfl, -⟩⟩ := h
  · rcases hmove.steps with ⟨input, output, hmore, hinp, hout⟩ | ⟨rfl, hclosed, rfl, rfl, hread⟩
    · refine ⟨p', ?_, .inl rfl⟩
      rw [hinp, hout]
      exact hsteps.trans hmore
    · exact ⟨p, hsteps, .inr ⟨rfl, hclosed, hread⟩⟩
  · cases hmove

theorem Follows.congr {p₀ : Script ε β α} {closed' : Bool} (h : Follows eof p₀ closed inp out p)
    (hinp : inp'.consumed = inp.consumed) (hout : out'.written = out.written)
    (hend : closed = true → closed' = true ∧ inp'.written = inp.written ∧ inp'.read = inp.read) :
    Follows eof p₀ closed' inp' out' p := by
  obtain ⟨q, hsteps, rfl | ⟨rfl, hclosed, hread⟩⟩ := h
  · exact ⟨p, hinp ▸ hout ▸ hsteps, .inl rfl⟩
  · obtain ⟨hclosed', hwritten, hr⟩ := hend hclosed
    exact ⟨q, hinp ▸ hout ▸ hsteps, .inr ⟨rfl, hclosed', by rwa [hwritten, hr]⟩⟩

/-- The result of a script is what it makes of everything that is written to it. -/
theorem Follows.result {p₀ : Script ε β α} {result : Except ε α}
    (h : Follows eof p₀ closed inp out (.done result)) :
    p₀.reader eof inp.written = result.map fun a => (a, inp.written.drop inp.read) := by
  obtain ⟨q, hsteps, rfl | ⟨hfail, -, n, next, rfl, hshort⟩⟩ := h
  · have hreader : p₀.reader eof _ = _ := hsteps.reader (inp.written.drop inp.read)
    rw [Pipe.consumed, List.take_append_drop] at hreader
    rw [hreader]
    cases result <;> rfl
  · have hreader : p₀.reader eof _ = _ := hsteps.reader (inp.written.drop inp.read)
    have hlen : ¬ n ≤ (inp.written.drop inp.read).length := by
      have hle := inp.read_le.trans inp.arrived_le
      rw [List.length_drop]
      omega
    rw [Pipe.consumed, List.take_append_drop, Script.reader, Reader.bind_apply, Reader.readExact,
      if_neg hlen] at hreader
    cases hfail
    exact hreader

end Script
