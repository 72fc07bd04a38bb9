import Mathlib.Data.List.Basic
import Mathlib.Data.List.Infix
import SecureTransfer.Lib.BigEndian

set_option autoImplicit false

/-! # Codecs on an undelimited stream

A `Reader` takes a value off the front of a stream or fails. It is `Stable` when only the end of the
stream makes its answer depend on what follows: a success stays the same in front of more symbols,
and so does every error but `eof`. `Codec` adds that it reads exactly what a writer writes. From
these laws alone follow those of a sequence of messages (`Codec.many`), and that a message cut short
is read as `eof` (`Codec.read_cut`). -/

/-- A reader of `α` from a stream of `β`. -/
abbrev Reader (ε β α : Type) := StateT (List β) (Except ε) α

namespace Reader

variable {ε β α γ : Type} {eof : ε}

theorem bind_apply (read : Reader ε β α) (next : α → Reader ε β γ) (s : List β) :
    (read >>= next) s = match read s with
      | .error e => .error e
      | .ok (a, rest) => next a rest := by
  cases hread : read s with
  | error e => simp [bind, StateT.bind, Except.bind, hread]
  | ok p => simp [bind, StateT.bind, Except.bind, hread]

theorem bind_of_ok {read : Reader ε β α} {s rest : List β} {a : α} (h : read s = .ok (a, rest))
    (next : α → Reader ε β γ) : (read >>= next) s = next a rest := by
  rw [bind_apply, h]

/-- Inversion of a composed reader. -/
theorem bind_eq_ok {read : Reader ε β α} {next : α → Reader ε β γ} {s rest : List β} {c : γ}
    (h : (read >>= next) s = .ok (c, rest)) :
    ∃ a mid, read s = .ok (a, mid) ∧ next a mid = .ok (c, rest) := by
  rw [bind_apply] at h
  cases hread : read s with
  | error e => rw [hread] at h; cases h
  | ok p =>
      rw [hread] at h
      exact ⟨p.1, p.2, rfl, h⟩

/-- Exactly `n` symbols (`read_exact`). -/
def readExact (eof : ε) (n : ℕ) : Reader ε β (List β) := fun s =>
  if n ≤ s.length then .ok (s.take n, s.drop n) else .error eof

theorem readExact_append {front : List β} {n : ℕ} (hlen : front.length = n) (rest : List β) :
    readExact eof n (front ++ rest) = .ok (front, rest) := by
  subst hlen
  simp [readExact]

theorem readExact_eq_ok {s front rest : List β} {n : ℕ}
    (h : readExact eof n s = .ok (front, rest)) : s = front ++ rest ∧ front.length = n := by
  unfold readExact at h
  split at h
  · next hle =>
      cases h
      exact ⟨(List.take_append_drop n s).symm, List.length_take_of_le hle⟩
  · cases h

/-- One value after the other, `n` times. -/
def many (read : Reader ε β α) : ℕ → Reader ε β (List α)
  | 0 => pure []
  | n + 1 => do
    let a ← read
    let as ← many read n
    pure (a :: as)

/-- The values up to the first error, `fuel` at most. -/
def untilError (read : Reader ε β α) : ℕ → List β → List α
  | 0, _ => []
  | fuel + 1, s =>
    match read s with
    | .error _ => []
    | .ok (a, rest) => a :: untilError read fuel rest

/-! ## Stability -/

/-- The answer does not depend on what follows, unless the stream ends too early. -/
structure Stable (eof : ε) (read : Reader ε β α) : Prop where
  ok : ∀ s a rest more, read s = .ok (a, rest) → read (s ++ more) = .ok (a, rest ++ more)
  error : ∀ s e more, read s = .error e → e = eof ∨ read (s ++ more) = .error e

theorem Stable.pure (a : α) : Stable eof (Pure.pure a : Reader ε β α) where
  ok := by
    intro s a' rest more h
    cases h
    rfl
  error := nofun

theorem Stable.throw (e : ε) : Stable eof (MonadExcept.throw e : Reader ε β α) where
  ok := nofun
  error := by
    intro s e' more h
    exact .inr (by cases h; rfl)

theorem Stable.readExact (n : ℕ) : Stable eof (Reader.readExact eof n : Reader ε β (List β)) where
  ok := by
    intro s front rest more h
    obtain ⟨rfl, hlen⟩ := readExact_eq_ok h
    rw [List.append_assoc, readExact_append hlen]
  error := by
    intro s e more h
    unfold Reader.readExact at h
    split at h
    · cases h
    · exact .inl (by cases h; rfl)

theorem Stable.bind {read : Reader ε β α} {next : α → Reader ε β γ} (hread : Stable eof read)
    (hnext : ∀ a, Stable eof (next a)) : Stable eof (read >>= next) where
  ok := by
    intro s c rest more h
    obtain ⟨a, mid, ha, hc⟩ := bind_eq_ok h
    rw [bind_of_ok (hread.ok s a mid more ha)]
    exact (hnext a).ok mid c rest more hc
  error := by
    intro s e more h
    rw [bind_apply] at h ⊢
    cases ha : read s with
    | error e' =>
        rw [ha] at h
        cases h
        rcases hread.error s e more ha with heof | hmore
        · exact .inl heof
        · exact .inr (by rw [hmore])
    | ok p =>
        rw [ha] at h
        rw [hread.ok s p.1 p.2 more ha]
        exact (hnext p.1).error p.2 e more h

/-! ## Readers that fail only at the end -/

/-- The stream can be too short, but it cannot be wrong. -/
def OnlyEof (eof : ε) (read : Reader ε β α) : Prop :=
  ∀ s e, read s = .error e → e = eof

theorem OnlyEof.pure (a : α) : OnlyEof eof (Pure.pure a : Reader ε β α) := nofun

theorem OnlyEof.readExact (n : ℕ) : OnlyEof eof (Reader.readExact eof n : Reader ε β (List β)) := by
  intro s e h
  unfold Reader.readExact at h
  split at h
  · cases h
  · cases h; rfl

theorem OnlyEof.bind {read : Reader ε β α} {next : α → Reader ε β γ} (hread : OnlyEof eof read)
    (hnext : ∀ a, OnlyEof eof (next a)) : OnlyEof eof (read >>= next) := by
  intro s e h
  rw [bind_apply] at h
  cases ha : read s with
  | error e' =>
      rw [ha] at h
      cases h
      exact hread s _ ha
  | ok p =>
      rw [ha] at h
      exact hnext p.1 p.2 e h

/-! ## Codecs -/

/-- `read` reads exactly what `write` writes of the values with `ok`. -/
structure Codec (eof : ε) (ok : α → Prop) (write : α → List β) (read : Reader ε β α) : Prop where
  stable : Stable eof read
  complete : ∀ a, ok a → read (write a) = .ok (a, [])
  sound : ∀ s a rest, read s = .ok (a, rest) → ok a ∧ s = write a ++ rest

variable {ok : α → Prop} {write : α → List β} {read : Reader ε β α}

theorem Codec.read_write (h : Codec eof ok write read) {a : α} (ha : ok a) (rest : List β) :
    read (write a ++ rest) = .ok (a, rest) := by
  have hread := h.stable.ok _ _ _ rest (h.complete a ha)
  rwa [List.nil_append] at hread

/-- **Cut short.** A stream that ends strictly inside a message is an early end. -/
theorem Codec.read_cut (h : Codec eof ok write read) {a : α} (ha : ok a) {s more : List β}
    (hcut : write a = s ++ more) (hmore : more ≠ []) : read s = .error eof := by
  have hwhole := h.complete a ha
  rw [hcut] at hwhole
  cases hread : read s with
  | ok p =>
      rw [h.stable.ok s p.1 p.2 more hread] at hwhole
      have hnil : p.2 ++ more = [] := congrArg Prod.snd (Except.ok.inj hwhole)
      exact absurd (List.append_eq_nil_iff.1 hnil).2 hmore
  | error e =>
      rcases h.stable.error s e more hread with rfl | herror
      · rfl
      · rw [herror] at hwhole
        cases hwhole

/-- A field of `n` symbols. -/
theorem Codec.field {n : ℕ} (encode : α → List β) (decode : List β → α)
    (hlen : ∀ a, (encode a).length = n) (hdecode : ∀ a, decode (encode a) = a)
    (hencode : ∀ front, front.length = n → encode (decode front) = front) :
    Codec eof (fun _ => True) encode (do let front ← readExact eof n; pure (decode front)) where
  stable := .bind (.readExact n) fun _ => .pure _
  complete := by
    intro a _
    have hread : readExact eof n _ = _ := readExact_append (hlen a) []
    rw [List.append_nil] at hread
    rw [bind_of_ok hread, hdecode]
    rfl
  sound := by
    intro s a rest h
    obtain ⟨front, mid, hfront, hpure⟩ := bind_eq_ok h
    obtain ⟨rfl, hfrontLen⟩ := readExact_eq_ok hfront
    cases hpure
    exact ⟨trivial, by rw [hencode front hfrontLen]⟩

/-- A number of `n` bytes, most significant first. -/
theorem Codec.bigEndian {n : ℕ} (toNat : α → ℕ) (ofNat : ℕ → α) (hlt : ∀ a, toNat a < 256 ^ n)
    (hofNat : ∀ a, ofNat (toNat a) = a) (htoNat : ∀ x < 256 ^ n, toNat (ofNat x) = x) :
    Codec eof (fun _ => True) (fun a => BigEndian.toBe n (toNat a))
      (do let buf ← readExact eof n; pure (ofNat (BigEndian.ofBe buf))) := by
  refine Codec.field _ (fun buf => ofNat (BigEndian.ofBe buf)) (fun a => BigEndian.length_toBe _ _)
    (fun a => ?_) fun front hlen => ?_
  · rw [BigEndian.ofBe_toBe_of_lt (hlt a), hofNat]
  · obtain ⟨x, hx, rfl⟩ := BigEndian.exists_toBe hlen
    rw [BigEndian.ofBe_toBe_of_lt hx, htoNat x hx]

/-- A sequence of values of known length. -/
theorem Codec.many (h : Codec eof ok write read) (n : ℕ) :
    Codec eof (fun as : List α => as.length = n ∧ ∀ a ∈ as, ok a) (List.flatMap write)
      (Reader.many read n) where
  stable := by
    induction n with
    | zero => exact .pure []
    | succ n ih => exact .bind h.stable fun a => .bind ih fun as => .pure _
  complete := by
    rintro as ⟨rfl, hok⟩
    induction as with
    | nil => rfl
    | cons a as ih =>
        have hrest := ih fun a' ha' => hok a' (List.mem_cons_of_mem _ ha')
        rw [List.length_cons, List.flatMap_cons, Reader.many,
          bind_of_ok (h.read_write (hok a List.mem_cons_self) _), bind_of_ok hrest]
        rfl
  sound := by
    intro s as rest hread
    induction n generalizing s as with
    | zero =>
        cases hread
        exact ⟨⟨rfl, nofun⟩, rfl⟩
    | succ n ih =>
        obtain ⟨a, mid, ha, hread⟩ := bind_eq_ok hread
        obtain ⟨as', last, has, hpure⟩ := bind_eq_ok hread
        cases hpure
        obtain ⟨hoka, rfl⟩ := h.sound s a mid ha
        obtain ⟨⟨hlen, hok⟩, rfl⟩ := ih mid as' has
        refine ⟨⟨by rw [List.length_cons, hlen], ?_⟩, ?_⟩
        · exact List.forall_mem_cons.2 ⟨hoka, hok⟩
        · rw [List.flatMap_cons, List.append_assoc]

/-- Reading on until an error returns what was written before it. -/
theorem Codec.untilError (h : Codec eof ok write read) {as : List α} (has : ∀ a ∈ as, ok a)
    {tail : List β} {e : ε} (htail : read tail = .error e) {fuel : ℕ}
    (hfuel : as.length < fuel) :
    Reader.untilError read fuel (as.flatMap write ++ tail) = as := by
  induction as generalizing fuel with
  | nil =>
      obtain ⟨fuel, rfl⟩ := Nat.exists_eq_succ_of_ne_zero (Nat.ne_of_gt hfuel)
      rw [List.flatMap_nil, List.nil_append, Reader.untilError, htail]
  | cons a as ih =>
      obtain ⟨fuel, rfl⟩ := Nat.exists_eq_succ_of_ne_zero (Nat.ne_of_gt (Nat.zero_lt_of_lt hfuel))
      have hrest := ih (fun a' ha' => has a' (List.mem_cons_of_mem _ ha'))
        (Nat.lt_of_succ_lt_succ hfuel)
      rw [List.flatMap_cons, List.append_assoc, Reader.untilError,
        h.read_write (has a List.mem_cons_self)]
      dsimp only
      rw [hrest]

end Reader
