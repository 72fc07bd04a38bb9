import SecureTransfer.Lib.Script

set_option autoImplicit false

/-! # A queue of messages on a stream

A `Channel` is a stream on which messages are written one behind the other, together with a reader
that takes them off again, one `Script` for each message. Symbols arrive one by one, whatever the
messages they belong to. `Carries` relates it to a queue: what has been written are the messages
`sent`, of which the first `n` have been taken off. For a codec this is an invariant, the message that
is taken off next is the next one of the queue (`Carries.take`), the reader fails only once the queue
is empty (`Carries.ended`), and it cannot come to a standstill before (`Carries.drained`). -/

open Script

structure Channel (ε β α : Type) where
  pipe : Pipe β
  /-- What is left to do for the message that is being read. -/
  reading : Script ε β α

namespace Channel

variable {ε β α : Type}

/-- Nothing written yet; `script` is about to read. -/
def start (script : Script ε β α) : Channel ε β α :=
  ⟨.empty, script⟩

def write (encode : α → List β) (messages : List α) (c : Channel ε β α) : Channel ε β α :=
  { c with pipe := c.pipe.push (messages.flatMap encode) }

def arrive (c : Channel ε β α) : Option (Channel ε β α) :=
  c.pipe.arrive.map fun pipe => { c with pipe }

/-- One step of the reader. -/
def read (eof : ε) (closed : Bool) (c : Channel ε β α) : Option (Channel ε β α) :=
  (c.reading.step eof closed c.pipe .empty).map fun (reading, pipe, _) => { pipe, reading }

/-- The message that has been read, if it is complete; the reader starts again. -/
def take (script : Script ε β α) (c : Channel ε β α) : Option (α × Channel ε β α) :=
  match c.reading with
  | .done (.ok a) => some (a, { c with reading := script })
  | _ => none

/-- The reader has given up. -/
def isEnded (c : Channel ε β α) : Bool :=
  c.reading.isFailed

/-- How messages are encoded and read back: by a codec, and no message is empty. -/
structure Framing (eof : ε) (ok : α → Prop) (encode : α → List β) (script : Script ε β α) :
    Prop where
  codec : Reader.Codec eof ok encode (script.reader eof)
  starts : ∃ n next, script = .readExact (n + 1) next

variable {eof : ε} {ok : α → Prop} {encode : α → List β} {script : Script ε β α}
  {c c' : Channel ε β α} {sent more : List α} {n : ℕ} {closed : Bool}

/-- The messages `sent` have been written and the first `n` of them taken off. Of the rest, `part`
    has been read, unless the stream is closed and the rest is empty. -/
structure Carries (encode : α → List β) (script : Script ε β α) (closed : Bool) (sent : List α)
    (n : ℕ) (c : Channel ε β α) : Prop where
  le : n ≤ sent.length
  written : c.pipe.written = sent.flatMap encode
  reading : ∃ part output q, c.pipe.consumed = (sent.take n).flatMap encode ++ part ∧
    Steps script part output q ∧
      (c.reading = q ∨ (c.isEnded = true ∧ closed = true ∧ n = sent.length))

theorem Carries.start (encode : α → List β) (script : Script ε β α) :
    (start script).Carries encode script false [] 0 where
  le := le_rfl
  written := rfl
  reading := ⟨[], [], script, rfl, .refl _, .inl rfl⟩

/-! ### Where a message ends -/

variable {messages : List α} {part output rest : List β} {q : Script ε β α} {result : Except ε α}

/-- Reading is over at the end of the first message, -/
theorem Framing.done (hf : Framing eof ok encode script) (hok : ∀ a ∈ messages, ok a)
    (h : Steps script part output (.done result)) (hrest : part ++ rest = messages.flatMap encode) :
    ∃ a more, messages = a :: more ∧ result = .ok a ∧ part = encode a := by
  obtain ⟨k, next, hscript⟩ := hf.starts
  have hreader : script.reader eof (part ++ rest) = _ := h.reader rest
  cases messages with
  | nil =>
      obtain ⟨rfl, -⟩ := List.append_eq_nil_iff.1 hrest
      rw [hscript] at h
      rcases steps_readExact h with ⟨-, -, hdone⟩ | ⟨bs, input, hnil, hlen, -⟩
      · cases hdone
      · rw [(List.append_eq_nil_iff.1 hnil.symm).1] at hlen
        cases hlen
  | cons a more =>
      rw [hrest, List.flatMap_cons, hf.codec.read_write (hok a List.mem_cons_self)] at hreader
      cases result with
      | error e => cases hreader
      | ok a' =>
          have hpair := Except.ok.inj hreader
          have hmore : more.flatMap encode = rest := congrArg Prod.snd hpair
          rw [← hmore, List.flatMap_cons] at hrest
          exact ⟨a, more, rfl, congrArg (fun p => Except.ok p.1) hpair.symm,
            List.append_cancel_right hrest⟩

/-- and not starved before. -/
theorem Framing.short (hf : Framing eof ok encode script) (hok : ∀ a ∈ messages, ok a) {k : ℕ}
    {next : List β → Script ε β α} (h : Steps script part output (.readExact k next))
    (hrest : part ++ rest = messages.flatMap encode) (hshort : rest.length < k) :
    messages = [] := by
  cases messages with
  | nil => rfl
  | cons a more =>
      have hreader : script.reader eof (part ++ rest) = _ := h.reader rest
      rw [hrest, List.flatMap_cons, hf.codec.read_write (hok a List.mem_cons_self), Script.reader,
        Reader.bind_apply, Reader.readExact, if_neg (Nat.not_le_of_lt hshort)] at hreader
      cases hreader

/-! ### What each step leaves behind -/

/-- What has not been read of the messages. -/
theorem append_unread (hwritten : c.pipe.written = sent.flatMap encode)
    (hconsumed : c.pipe.consumed = (sent.take n).flatMap encode ++ part) :
    part ++ c.pipe.written.drop c.pipe.read = (sent.drop n).flatMap encode := by
  have hall : c.pipe.consumed ++ c.pipe.written.drop c.pipe.read = c.pipe.written :=
    List.take_append_drop _ _
  have hsplit : sent.flatMap encode
      = (sent.take n).flatMap encode ++ (sent.drop n).flatMap encode := by
    rw [← List.flatMap_append, List.take_append_drop]
  rw [hconsumed, List.append_assoc] at hall
  exact List.append_cancel_left (hall.trans (hwritten.trans hsplit))

theorem Carries.write (h : c.Carries encode script closed sent n)
    (hopen : closed = false ∨ more = []) :
    (c.write encode more).Carries encode script closed (sent ++ more) n where
  le := h.le.trans (List.length_append ▸ Nat.le_add_right _ _)
  written := by rw [Channel.write, Pipe.push_written, h.written, List.flatMap_append]
  reading := by
    obtain ⟨part, output, q, hconsumed, hsteps, hq⟩ := h.reading
    refine ⟨part, output, q, ?_, hsteps, hq.imp_right fun ⟨hended, hclosed, hn⟩ => ?_⟩
    · rw [Channel.write, Pipe.consumed_push, hconsumed, List.take_append_of_le_length h.le]
    · rcases hopen with hopen | rfl
      · rw [hopen] at hclosed
        cases hclosed
      · exact ⟨hended, hclosed, by rw [List.append_nil, hn]⟩

theorem Carries.close (h : c.Carries encode script closed sent n) :
    c.Carries encode script true sent n where
  le := h.le
  written := h.written
  reading := by
    obtain ⟨part, output, q, hconsumed, hsteps, hq⟩ := h.reading
    exact ⟨part, output, q, hconsumed, hsteps, hq.imp_right fun hend => ⟨hend.1, rfl, hend.2.2⟩⟩

theorem Carries.arrive (h : c.Carries encode script closed sent n) (harrive : c.arrive = some c') :
    c'.Carries encode script closed sent n := by
  obtain ⟨pipe, hpipe, rfl⟩ := Option.map_eq_some_iff.1 harrive
  obtain ⟨part, output, q, hconsumed, hsteps, hq⟩ := h.reading
  exact ⟨h.le, (Pipe.arrive_eq_some hpipe).2.1.trans h.written, part, output, q,
    (Pipe.consumed_arrive hpipe).trans hconsumed, hsteps, hq⟩

theorem Carries.read (hf : Framing eof ok encode script) (hok : ∀ a ∈ sent, ok a)
    (h : c.Carries encode script closed sent n) (hread : c.read eof closed = some c') :
    c'.Carries encode script closed sent n := by
  obtain ⟨⟨reading, pipe, out⟩, hstep, rfl⟩ := Option.map_eq_some_iff.1 hread
  have hmove := move_of_step hstep
  obtain ⟨part, output, q, hconsumed, hsteps, rfl | ⟨hended, -⟩⟩ := h.reading
  · have hwritten : pipe.written = sent.flatMap encode := hmove.frame.1.trans h.written
    rcases hmove.steps with ⟨input, out', hmore, hinp, -⟩ | ⟨hfail, hclosed, rfl, -, k, next, hq,
      hshort⟩
    · refine ⟨h.le, hwritten, part ++ input, output ++ out', reading, ?_, hsteps.trans hmore, .inl rfl⟩
      rw [hinp, hconsumed, List.append_assoc]
    · -- the stream ends where a message does
      rw [hq] at hsteps
      have hread := c.pipe.read_le.trans c.pipe.arrived_le
      have hnil := hf.short (fun a ha => hok a (List.mem_of_mem_drop ha)) hsteps
        (append_unread h.written hconsumed) (by rw [List.length_drop]; omega)
      refine ⟨h.le, hwritten, part, output, _, hconsumed, hsteps, .inr ⟨?_, hclosed, ?_⟩⟩
      · rw [hfail]
        rfl
      · exact Nat.le_antisymm h.le (List.drop_eq_nil_iff.1 hnil)
  · rw [isEnded, hmove.not_failed] at hended
    cases hended

/-- **In order.** What is taken off the stream is the next message. -/
theorem Carries.take (hf : Framing eof ok encode script) (hok : ∀ a ∈ sent, ok a)
    (h : c.Carries encode script closed sent n) {a : α} (htake : c.take script = some (a, c')) :
    sent[n]? = some a ∧ c'.Carries encode script closed sent (n + 1) := by
  unfold Channel.take at htake
  split at htake
  · next a' hdone =>
      cases htake
      obtain ⟨part, output, q, hconsumed, hsteps, rfl | ⟨hended, -⟩⟩ := h.reading
      · rw [hdone] at hsteps
        obtain ⟨a', more, hdrop, hresult, rfl⟩ := hf.done
          (fun a ha => hok a (List.mem_of_mem_drop ha)) hsteps (append_unread h.written hconsumed)
        cases hresult
        have hget : sent[n]? = some a := by
          rw [← List.head?_drop, hdrop]
          rfl
        refine ⟨hget, (List.getElem?_eq_some_iff.1 hget).1, h.written, [], [], script, ?_, .refl _,
          .inl rfl⟩
        rw [hconsumed, List.take_add_one, hget, List.flatMap_append, List.append_nil]
        simp
      · rw [isEnded, hdone] at hended
        cases hended
  · cases htake

/-- **No loss.** The reader gives up only behind the last message, when the stream is closed. -/
theorem Carries.ended (hf : Framing eof ok encode script) (hok : ∀ a ∈ sent, ok a)
    (h : c.Carries encode script closed sent n) (hended : c.isEnded = true) :
    closed = true ∧ n = sent.length := by
  obtain ⟨part, output, q, hconsumed, hsteps, rfl | ⟨-, hend⟩⟩ := h.reading
  · unfold isEnded isFailed at hended
    split at hended
    · next e hdone =>
        rw [hdone] at hsteps
        obtain ⟨a, more, -, hresult, -⟩ := hf.done
          (fun a ha => hok a (List.mem_of_mem_drop ha)) hsteps (append_unread h.written hconsumed)
        cases hresult
    · cases hended
  · exact hend

/-! ### Progress -/

/-- The channel by itself: symbols arrive, the reader reads and takes `messages` off. -/
inductive Leads (eof : ε) (closed : Bool) (script : Script ε β α) :
    Channel ε β α → List α → Channel ε β α → Prop
  | refl (c : Channel ε β α) : Leads eof closed script c [] c
  | arrive {c c₁ c' : Channel ε β α} {messages : List α} (h : c.arrive = some c₁)
      (hnext : Leads eof closed script c₁ messages c') : Leads eof closed script c messages c'
  | read {c c₁ c' : Channel ε β α} {messages : List α} (h : c.read eof closed = some c₁)
      (hnext : Leads eof closed script c₁ messages c') : Leads eof closed script c messages c'
  | take {c c₁ c' : Channel ε β α} {a : α} {messages : List α} (h : c.take script = some (a, c₁))
      (hnext : Leads eof closed script c₁ messages c') :
      Leads eof closed script c (a :: messages) c'

theorem Leads.trans {c'' : Channel ε β α} {messages' : List α}
    (h : c.Leads eof closed script messages c') (h' : c'.Leads eof closed script messages' c'') :
    c.Leads eof closed script (messages ++ messages') c'' := by
  induction h with
  | refl => exact h'
  | arrive harrive _ ih => exact .arrive harrive (ih h')
  | read hread _ ih => exact .read hread (ih h')
  | take htake _ ih => exact .take htake (ih h')

/-- Everything written has arrived. -/
def Arrived (c : Channel ε β α) : Prop :=
  c.pipe.arrived = c.pipe.written.length

variable (eof) in
theorem Carries.exists_arrived (h : c.Carries encode script closed sent n) :
    ∃ c', c.Leads eof closed script [] c' ∧ c'.Carries encode script closed sent n ∧ c'.Arrived := by
  induction hrest : c.pipe.written.length - c.pipe.arrived generalizing c with
  | zero =>
      have hle := c.pipe.arrived_le
      exact ⟨c, .refl c, h, by rw [Arrived]; omega⟩
  | succ k ih =>
      obtain ⟨pipe, hpipe⟩ := Pipe.exists_arrive (p := c.pipe) (by omega)
      obtain ⟨-, hwritten, harrived, -⟩ := Pipe.arrive_eq_some hpipe
      have harrive : c.arrive = some { c with pipe := pipe } := by rw [Channel.arrive, hpipe]; rfl
      obtain ⟨c', hleads, hc'⟩ := ih (h.arrive harrive) (by dsimp only; rw [hwritten]; omega)
      exact ⟨c', .arrive harrive hleads, hc'⟩

/-- The message that is being read comes to its end. -/
theorem Carries.exists_done (hf : Framing eof ok encode script) (hok : ∀ a ∈ sent, ok a)
    (h : c.Carries encode script closed sent n) (harrived : c.Arrived) (hlt : n < sent.length) :
    ∃ c' a, c.Leads eof closed script [] c' ∧ c'.Carries encode script closed sent n ∧ c'.Arrived ∧
      c'.reading = .done (.ok a) := by
  induction hreading : c.reading generalizing c with
  | done result =>
      cases result with
      | ok a => exact ⟨c, a, .refl c, h, harrived, hreading⟩
      | error e =>
          have hended : c.isEnded = true := by rw [isEnded, hreading]; rfl
          exact absurd (h.ended hf hok hended).2 (by omega)
  | write bs next ih =>
      have hread : c.read eof closed = some { c with reading := next } := by
        rw [Channel.read, hreading]
        rfl
      obtain ⟨c', a, hleads, hc'⟩ := ih (h.read hf hok hread) harrived rfl
      exact ⟨c', a, .read hread hleads, hc'⟩
  | readExact k next ih =>
      obtain ⟨part, output, q, hconsumed, hsteps, rfl | ⟨hended, -⟩⟩ := h.reading
      · rw [hreading] at hsteps
        have hle : c.pipe.read + k ≤ c.pipe.arrived := by
          by_contra hshort
          have hread := c.pipe.read_le
          have hnil := hf.short (fun a ha => hok a (List.mem_of_mem_drop ha)) hsteps
            (append_unread h.written hconsumed) (by rw [List.length_drop, ← harrived]; omega)
          exact absurd (List.drop_eq_nil_iff.1 hnil) (by omega)
        obtain ⟨pipe, hpipe⟩ := Pipe.exists_skip hle
        obtain ⟨-, hwritten, harrived', -⟩ := Pipe.skip_eq_some hpipe
        have hread : c.read eof closed = some ⟨pipe, next (c.pipe.front k)⟩ := by
          rw [Channel.read, hreading, Script.step, hpipe]
          rfl
        have hall : Arrived (⟨pipe, next (c.pipe.front k)⟩ : Channel ε β α) := by
          rw [Arrived, harrived', hwritten]
          exact harrived
        obtain ⟨c', a, hleads, hc'⟩ := ih _ (h.read hf hok hread) hall rfl
        exact ⟨c', a, .read hread hleads, hc'⟩
      · exact absurd (h.ended hf hok hended).2 (by omega)

/-- **Progress.** By itself the channel delivers the next message, -/
theorem Carries.exists_take (hf : Framing eof ok encode script) (hok : ∀ a ∈ sent, ok a)
    (h : c.Carries encode script closed sent n) {a : α} (ha : sent[n]? = some a) :
    ∃ c', c.Leads eof closed script [a] c' ∧ c'.Carries encode script closed sent (n + 1) := by
  obtain ⟨c₁, hleads₁, h₁, harrived⟩ := h.exists_arrived eof
  obtain ⟨c₂, a', hleads₂, h₂, -, hdone⟩ := h₁.exists_done hf hok harrived
    (List.getElem?_eq_some_iff.1 ha).1
  have htake : c₂.take script = some (a', { c₂ with reading := script }) := by
    rw [Channel.take, hdone]
  obtain ⟨hget, h₃⟩ := h₂.take hf hok htake
  rw [ha] at hget
  cases hget
  exact ⟨_, (hleads₁.trans hleads₂).trans (.take htake (.refl _)), h₃⟩

/-- so everything that has been written, -/
theorem Carries.drained (hf : Framing eof ok encode script) (hok : ∀ a ∈ sent, ok a)
    (h : c.Carries encode script closed sent n) :
    ∃ c', c.Leads eof closed script (sent.drop n) c' ∧
      c'.Carries encode script closed sent sent.length := by
  induction hrest : sent.length - n generalizing c n with
  | zero =>
      have hn : n = sent.length := Nat.le_antisymm h.le (by omega)
      subst hn
      rw [List.drop_length]
      exact ⟨c, .refl c, h⟩
  | succ k ih =>
      have hlt : n < sent.length := by omega
      obtain ⟨c₁, hleads₁, h₁⟩ := h.exists_take hf hok (List.getElem?_eq_getElem hlt)
      obtain ⟨c', hleads, hc'⟩ := ih h₁ (by omega)
      rw [List.drop_eq_getElem_cons hlt]
      exact ⟨c', hleads₁.trans hleads, hc'⟩

/-- and then the end of the stream, once it is closed. -/
theorem Carries.exists_ended (hf : Framing eof ok encode script)
    (h : c.Carries encode script true sent sent.length) :
    ∃ c', c.Leads eof true script [] c' ∧ c'.Carries encode script true sent sent.length ∧
      c'.isEnded = true := by
  obtain ⟨c₁, hleads, h₁, harrived⟩ := h.exists_arrived eof
  obtain ⟨part, output, q, hconsumed, hsteps, rfl | ⟨hended, -⟩⟩ := h₁.reading
  · obtain ⟨k, next, hscript⟩ := hf.starts
    have hrest := append_unread h₁.written hconsumed
    rw [List.drop_length, List.flatMap_nil] at hrest
    obtain ⟨rfl, hunread⟩ := List.append_eq_nil_iff.1 hrest
    have hreading : c₁.reading = .readExact (k + 1) next := by
      rw [hscript] at hsteps
      rcases steps_readExact hsteps with ⟨-, -, hq⟩ | ⟨bs, input, hnil, hlen, -⟩
      · exact hq
      · rw [(List.append_eq_nil_iff.1 hnil.symm).1] at hlen
        cases hlen
    have hskip : c₁.pipe.skip (k + 1) = none := by
      have hle := List.drop_eq_nil_iff.1 hunread
      exact dif_neg (by rw [harrived]; omega)
    have hread : c₁.read eof true = some ⟨c₁.pipe, fail eof⟩ := by
      rw [Channel.read, hreading, Script.step, hskip]
      exact congrArg (Option.map _) (if_pos ⟨rfl, harrived⟩)
    refine ⟨_, hleads.trans (.read hread (.refl _)), ?_, rfl⟩
    exact ⟨h₁.le, h₁.written, [], output, _, hconsumed, hsteps, .inr ⟨rfl, rfl, rfl⟩⟩
  · exact ⟨c₁, hleads, h₁, hended⟩

end Channel
