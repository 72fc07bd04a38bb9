import SecureTransfer.Session.Results
import SecureTransfer.Transfer.FileTransfer

set_option autoImplicit false

/-! # How the handshake ends

Whatever the `rsa` crate returns, there is one end (`sessionEnd`) that every schedule of the two ends
and of the bytes between them comes to. With a crate that works it is the one where both know the
same key, nonce and sizes, and nothing is left on the connection in either direction. -/

namespace SecureTransfer.Session

open BigEndian Script

variable {rsa : Rsa} {sender : SenderSide rsa} {receiver : ReceiverSide rsa}
  {privateKey : rsa.PrivateKey} {publicKey : rsa.PublicKey} {bytes encrypted sessionKey : Bytes}

/-! ## Together -/

/-- The messages of the handshake are short enough for their length fields. -/
structure Rsa.Small (rsa : Rsa) : Prop where
  pem : ∀ publicKey pem, rsa.toPublicKeyPem publicKey = some pem →
    (stringBytes pem).length < 2 ^ 32
  encrypted : ∀ publicKey seed message encrypted,
    rsa.encrypt publicKey seed message = some encrypted → encrypted.length < 2 ^ 32

theorem Rsa.Small.encryptFor (h : rsa.Small) {pem : Bytes}
    (hencrypt : sender.encryptFor pem = .ok encrypted) : encrypted.length < 2 ^ 32 := by
  rw [SenderSide.encryptFor] at hencrypt
  cases hkey : publicKeyFromBytes rsa pem with
  | error e => rw [hkey] at hencrypt; cases hencrypt
  | ok publicKey =>
      rw [hkey] at hencrypt
      change encryptSessionKey rsa publicKey _ _ = _ at hencrypt
      rw [encryptSessionKey] at hencrypt
      split at hencrypt
      · next hsome => cases hencrypt; exact h.encrypted _ _ _ _ hsome
      · cases hencrypt

theorem plainRsa_small : plainRsa.Small where
  pem := by
    rintro publicKey pem ⟨⟩
    decide
  encrypted := by
    intro publicKey seed message encrypted h
    obtain ⟨hle, hsome⟩ := Option.ite_none_right_eq_some.1 h
    cases hsome
    exact Nat.lt_of_le_of_lt hle (by decide)

/-- The end of the handshake once the key is encrypted. -/
def replyEnd (sender : SenderSide rsa) (receiver : ReceiverSide rsa) (privateKey : rsa.PrivateKey)
    (toLeft : Pipe UInt8) (encrypted : Bytes) : Talk Abort UInt8 UInt32 Receiver.Setup :=
  match rsa.decrypt privateKey encrypted with
  | none =>
    ⟨.done sender.result, fail .decrypt, toLeft,
      .settled (framed encrypted) (sender.nonce.toList ++ sender.announcement)⟩
  | some sessionKey =>
    if sessionKey.length = 32 then
      match sender.metadata with
      | none =>
        ⟨fail .metadata, fail .unexpectedEof, toLeft,
          .settled (framed encrypted ++ sender.nonce.toList) []⟩
      | some fileSize =>
        ⟨pure (Sender.totalChunks fileSize),
          pure (receiver.setup (toArray 32 sessionKey) (sender.offer encrypted fileSize)), toLeft,
          .settled (sender.offer encrypted fileSize).bytes []⟩
    else
      ⟨.done sender.result, fail (.panicked "Invalid AES key length"), toLeft,
        .settled (framed encrypted) (sender.nonce.toList ++ sender.announcement)⟩

/-- The end of the handshake. -/
def sessionEnd (sender : SenderSide rsa) (receiver : ReceiverSide rsa) :
    Talk Abort UInt8 UInt32 Receiver.Setup :=
  match receiver.generated with
  | none => ⟨fail .unexpectedEof, fail .generateKey, .settled [] [], .settled [] []⟩
  | some privateKey =>
    match rsa.toPublicKeyPem (rsa.publicKey privateKey) with
    | none => ⟨fail .unexpectedEof, fail .toPublicKeyPem, .settled [] [], .settled [] []⟩
    | some pem =>
      let toLeft := Pipe.settled (framed (stringBytes pem)) []
      match sender.encryptFor (stringBytes pem) with
      | .error e => ⟨fail e, fail .unexpectedEof, toLeft, .settled [] []⟩
      | .ok encrypted => replyEnd sender receiver privateKey toLeft encrypted

/-- Both ends are over, and whatever has been written has arrived. -/
def Over (t : Talk Abort UInt8 UInt32 Receiver.Setup) : Prop :=
  ∃ result result' front back front' back',
    t = ⟨.done result, .done result', .settled front back, .settled front' back'⟩

theorem over_replyEnd (front : Bytes) :
    Over (replyEnd sender receiver privateKey (.settled front []) encrypted) := by
  rw [replyEnd]
  split
  · exact ⟨_, _, _, _, _, _, rfl⟩
  · split
    · split
      · exact ⟨_, _, _, _, _, _, rfl⟩
      · exact ⟨_, _, _, _, _, _, rfl⟩
    · exact ⟨_, _, _, _, _, _, rfl⟩

theorem over_sessionEnd (sender : SenderSide rsa) (receiver : ReceiverSide rsa) :
    Over (sessionEnd sender receiver) := by
  rw [sessionEnd]
  split
  · exact ⟨_, _, _, _, _, _, rfl⟩
  · split
    · exact ⟨_, _, _, _, _, _, rfl⟩
    · dsimp only
      split
      · exact ⟨_, _, _, _, _, _, rfl⟩
      · exact over_replyEnd _

/-- The sender starts with the length of the public key, -/
theorem exists_run_eq (sender : SenderSide rsa) : ∃ next, sender.run = .readExact 4 next :=
  ⟨_, rfl⟩

/-- and the receiver goes on with that of the encrypted key. -/
theorem exists_receive_eq (receiver : ReceiverSide rsa) (privateKey : rsa.PrivateKey) :
    ∃ next, receiver.receive privateKey = .readExact 4 next :=
  ⟨_, rfl⟩

/-- The receiver stops before it has sent its key. -/
theorem leads_silent {e : Abort} (hfail : receiver.run = fail e) :
    Talk.Leads .unexpectedEof (session sender receiver).init
      ⟨fail .unexpectedEof, fail e, .settled [] [], .settled [] []⟩ := by
  obtain ⟨next, hnext⟩ := exists_run_eq sender
  change Talk.Leads .unexpectedEof
    ⟨sender.run, receiver.run, .settled [] [], .settled [] []⟩ _
  rw [hfail, hnext]
  exact Talk.leads_left_eof rfl (by decide)

/-- From the sender's message on. -/
theorem leads_replyEnd (toLeft : Bytes) (hfits : encrypted.length < 2 ^ 32) :
    Talk.Leads .unexpectedEof
      ⟨.done sender.result, receiver.receive privateKey, .settled toLeft [],
        .settled [] (sender.message encrypted)⟩
      (replyEnd sender receiver privateKey (.settled toLeft []) encrypted) := by
  rw [replyEnd]
  split
  · next hdecrypt => exact leads_receive (steps_receive_none receiver hfits hdecrypt)
  · next sessionKey hdecrypt =>
      split
      · next hlen =>
          have hnonce := steps_receive_nonce receiver sender.nonce hfits hdecrypt hlen
          rw [SenderSide.message, ← List.append_assoc, SenderSide.announcement, SenderSide.result]
          cases sender.metadata with
          | none => exact (leads_receive hnonce).trans (Talk.leads_right_eof rfl (by decide))
          | some fileSize =>
              have hall := hnonce.trans
                (steps_sizes receiver sender.nonce (Sender.totalChunks fileSize) fileSize)
              rw [List.append_assoc] at hall ⊢
              rw [← List.append_nil (framed encrypted ++ _)]
              exact leads_receive hall
      · next hlen => exact leads_receive (steps_receive_panic receiver hfits hdecrypt hlen)

theorem leads_sessionEnd (hsmall : rsa.Small) :
    Talk.Leads .unexpectedEof (session sender receiver).init (sessionEnd sender receiver) := by
  rw [sessionEnd]
  split
  · next hgenerated => exact leads_silent (by rw [ReceiverSide.run, hgenerated]; rfl)
  · next privateKey hgenerated =>
      split
      · next hpem =>
          exact leads_silent (by rw [ReceiverSide.run, hgenerated, orFail, pure_bind, hpem]; rfl)
      · next pem hpem =>
          have hfits := hsmall.pem _ _ hpem
          have hkey : Talk.Leads _ (session sender receiver).init _ := leads_key hgenerated hpem
          dsimp only
          split
          · next e hencrypt =>
              obtain ⟨next, hnext⟩ := exists_receive_eq receiver privateKey
              rw [hnext] at hkey
              exact (hkey.trans (Talk.leads_left (steps_sender_error hfits hencrypt))).trans
                (Talk.leads_right_eof rfl (by decide))
          · next encrypted hencrypt =>
              exact (hkey.trans (Talk.leads_left (steps_sender hfits hencrypt))).trans
                (leads_replyEnd _ (hsmall.encryptFor hencrypt))

/-- Nothing on its way and nothing to be read. -/
def Clean (t : Talk Abort UInt8 UInt32 Receiver.Setup) : Prop :=
  (∃ front, t.toLeft = .settled front []) ∧ ∃ front, t.toRight = .settled front []

theorem replyEnd_ok {front : Bytes} {setup : Receiver.Setup}
    (h : (replyEnd sender receiver privateKey (.settled front []) encrypted).right = pure setup) :
    Clean (replyEnd sender receiver privateKey (.settled front []) encrypted) ∧
      ∃ fileSize, sender.metadata = some fileSize ∧
        (replyEnd sender receiver privateKey (.settled front []) encrypted).left
          = pure (Sender.totalChunks fileSize) ∧
        setup = receiver.setup setup.sessionKey (sender.offer encrypted fileSize) ∧
        rsa.decrypt privateKey encrypted = some setup.sessionKey.toList := by
  rw [replyEnd] at h ⊢
  cases hdecrypt : rsa.decrypt privateKey encrypted with
  | none => rw [hdecrypt] at h; cases h
  | some sessionKey =>
      rw [hdecrypt] at h
      dsimp only at h ⊢
      split at h
      · next hlen =>
          cases hmetadata : sender.metadata with
          | none => rw [hmetadata] at h; cases h
          | some fileSize =>
              rw [hmetadata] at h
              cases h
              rw [if_pos hlen]
              exact ⟨⟨⟨_, rfl⟩, _, rfl⟩, fileSize, rfl, rfl, rfl,
                congrArg some (toList_toArray hlen).symm⟩
      · cases h

/-- What it takes for the receiver to go on. -/
structure Agreed (sender : SenderSide rsa) (receiver : ReceiverSide rsa) (setup : Receiver.Setup)
    (fileSize : UInt64) : Prop where
  metadata : sender.metadata = some fileSize
  nonce : setup.nonce = sender.nonce
  expectedChunks : setup.expectedChunks = Sender.totalChunks fileSize
  expectedBytes : setup.expectedBytes = fileSize
  crates : setup.crates = receiver.crates
  overflowChecks : setup.overflowChecks = receiver.overflowChecks
  /-- The key is what the receiver makes of what the sender made of it. -/
  sessionKey : ∃ privateKey pem encrypted, receiver.Ready privateKey ∧
    sender.encryptFor pem = .ok encrypted ∧
    rsa.decrypt privateKey encrypted = some setup.sessionKey.toList

theorem sessionEnd_ok {setup : Receiver.Setup}
    (h : (sessionEnd sender receiver).right = pure setup) :
    Clean (sessionEnd sender receiver) ∧ ∃ fileSize,
      (sessionEnd sender receiver).left = pure (Sender.totalChunks fileSize) ∧
      Agreed sender receiver setup fileSize := by
  rw [sessionEnd] at h ⊢
  cases hgenerated : receiver.generated with
  | none => rw [hgenerated] at h; cases h
  | some privateKey =>
      rw [hgenerated] at h
      dsimp only at h ⊢
      cases hpem : rsa.toPublicKeyPem (rsa.publicKey privateKey) with
      | none => rw [hpem] at h; cases h
      | some pem =>
          rw [hpem] at h
          dsimp only at h ⊢
          cases hencrypt : sender.encryptFor (stringBytes pem) with
          | error e => rw [hencrypt] at h; cases h
          | ok encrypted =>
              rw [hencrypt] at h
              obtain ⟨hclean, fileSize, hmetadata, hleft, hsetup, hdecrypt⟩ := replyEnd_ok h
              refine ⟨hclean, fileSize, hleft, hmetadata, ?_, ?_, ?_, ?_, ?_, privateKey, _,
                encrypted, ⟨hgenerated, pem, hpem⟩, hencrypt, hdecrypt⟩
              all_goals rw [hsetup]; rfl

/-- **How the handshake ends.** Whatever the schedule, the handshake is over after a bounded number
    of steps, and always in the same way: from every state it comes to `sessionEnd`, and nowhere
    else does it come to a standstill. There both ends have returned or failed. If the receiver goes
    on to the transfer, so does the sender; they agree on everything but perhaps the key, which is
    what the receiver made of the sender's ciphertext; and in neither direction is a byte left on
    the connection. -/
theorem session_ends (sender : SenderSide rsa) (receiver : ReceiverSide rsa)
    (hsmall : rsa.Small) :
    (∃ bound, ∀ ls t, (session sender receiver).Reaches ls t → ls.length ≤ bound ∧
      Talk.Leads .unexpectedEof t (sessionEnd sender receiver) ∧
      ((session sender receiver).Stuck t → t = sessionEnd sender receiver)) ∧
    Over (sessionEnd sender receiver) ∧ ∀ setup, (sessionEnd sender receiver).right = pure setup →
      Clean (sessionEnd sender receiver) ∧ ∃ fileSize,
        (sessionEnd sender receiver).left = pure (Sender.totalChunks fileSize) ∧
        Agreed sender receiver setup fileSize := by
  refine ⟨?_, over_sessionEnd sender receiver, fun setup h => sessionEnd_ok h⟩
  obtain ⟨result, result', front, back, front', back', hover⟩ := over_sessionEnd sender receiver
  have hstuck : (session sender receiver).Stuck (sessionEnd sender receiver) := by
    rw [hover]
    exact Talk.stuck_of_done _ _
  exact Talk.exists_bound hstuck (leads_sessionEnd hsmall)

theorem session_ends_plain :
    Over (sessionEnd plainSender plainReceiver) ∧
      ∃ bound, ∀ ls t, (session plainSender plainReceiver).Reaches ls t → ls.length ≤ bound := by
  obtain ⟨⟨bound, hbound⟩, hover, -⟩ := session_ends plainSender plainReceiver plainRsa_small
  exact ⟨hover, bound, fun ls t hrun => (hbound ls t hrun).1⟩

/-! ## With a crate that works -/

/-- A public key survives the PEM encoding, and what is encrypted under it is decrypted. -/
structure Rsa.Correct (rsa : Rsa) : Prop extends Rsa.Small rsa where
  fromPem : ∀ publicKey pem, rsa.toPublicKeyPem publicKey = some pem →
    rsa.fromPublicKeyPem pem = some publicKey
  decrypt : ∀ privateKey seed message encrypted,
    rsa.encrypt (rsa.publicKey privateKey) seed message = some encrypted →
      rsa.decrypt privateKey encrypted = some message

theorem plainRsa_correct : plainRsa.Correct where
  toSmall := plainRsa_small
  fromPem := by
    rintro publicKey pem ⟨⟩
    rfl
  decrypt := by
    intro privateKey seed message encrypted h
    exact (Option.ite_none_right_eq_some.1 h).2.symm

/-- The sender of a file. -/
def senderOf (job : Transfer.FileTransfer) (seed : rsa.Seed) : SenderSide rsa where
  sessionKey := job.sessionKey
  nonce := job.nonce
  seed := seed
  metadata := some (UInt64.ofNat job.file.length)

/-- Its receiver, which has generated a key. -/
def receiverOf (job : Transfer.FileTransfer) (privateKey : rsa.PrivateKey) : ReceiverSide rsa where
  generated := some privateKey
  crates := job.crates
  overflowChecks := job.overflowChecks

/-- Both have come to the transfer of the file, and the connection is empty. -/
def transferStart (job : Transfer.FileTransfer) (pem encrypted : Bytes) :
    Talk Abort UInt8 UInt32 Receiver.Setup where
  left := pure job.setup.expectedChunks
  right := pure job.setup
  toLeft := .settled (framed pem) []
  toRight := .settled (Offer.bytes ⟨encrypted, job.nonce, job.setup.expectedChunks,
    job.setup.expectedBytes⟩) []

variable {job : Transfer.FileTransfer} {seed : rsa.Seed} {pem : String}

theorem Rsa.Correct.sessionEnd_eq (h : rsa.Correct)
    (hpem : rsa.toPublicKeyPem (rsa.publicKey privateKey) = some pem)
    (hencrypt : rsa.encrypt (rsa.publicKey privateKey) seed job.sessionKey.toList
      = some encrypted) :
    sessionEnd (senderOf job seed) (receiverOf job privateKey)
      = transferStart job (stringBytes pem) encrypted := by
  have hkey : publicKeyFromBytes rsa (stringBytes pem) = .ok (rsa.publicKey privateKey) := by
    rw [publicKeyFromBytes, fromUtf8_stringBytes]
    dsimp only
    rw [h.fromPem _ _ hpem]
  have hfor : (senderOf job seed).encryptFor (stringBytes pem) = .ok encrypted := by
    rw [SenderSide.encryptFor, hkey]
    change encryptSessionKey rsa (rsa.publicKey privateKey) seed job.sessionKey.toList = _
    rw [encryptSessionKey, hencrypt]
  have hdecrypt := h.decrypt _ _ _ _ hencrypt
  have hlen : job.sessionKey.toList.length = 32 := Vector.length_toList
  have hgenerated : (receiverOf job privateKey).generated = some privateKey := rfl
  rw [sessionEnd, hgenerated]
  dsimp only
  rw [hpem]
  dsimp only
  rw [hfor]
  dsimp only
  rw [replyEnd, hdecrypt]
  dsimp only
  rw [if_pos hlen, toArray_toList]
  rfl

/-- **Agreement.** With a crate that works, the handshake for the transfer of a file comes to its end
    from every state, whatever the schedule, within a bounded number of steps. Neither end ever
    stops with an error; the setup the receiver starts with is that of the transfer, and nothing is
    left on the connection, so that the first byte the ack relay reads is the first the ack manager
    writes. -/
theorem session_agrees (hcorrect : rsa.Correct) (job : Transfer.FileTransfer) (seed : rsa.Seed)
    (privateKey : rsa.PrivateKey)
    (hpem : rsa.toPublicKeyPem (rsa.publicKey privateKey) = some pem)
    (hencrypt : rsa.encrypt (rsa.publicKey privateKey) seed job.sessionKey.toList
      = some encrypted) :
    ∃ bound, ∀ ls t,
      (session (senderOf job seed) (receiverOf job privateKey)).Reaches ls t →
        ls.length ≤ bound ∧
        Talk.Leads .unexpectedEof t (transferStart job (stringBytes pem) encrypted) ∧
        ((session (senderOf job seed) (receiverOf job privateKey)).Stuck t →
          t = transferStart job (stringBytes pem) encrypted) ∧
        (∀ result, t.left = .done result → result = .ok job.setup.expectedChunks) ∧
        ∀ result, t.right = .done result → result = .ok job.setup := by
  have hend := hcorrect.sessionEnd_eq hpem hencrypt
  obtain ⟨⟨bound, hbound⟩, -, -⟩ := session_ends (senderOf job seed) (receiverOf job privateKey)
    hcorrect.toSmall
  rw [hend] at hbound
  refine ⟨bound, fun ls t hrun => ?_⟩
  obtain ⟨hle, hleads, hstuck⟩ := hbound ls t hrun
  refine ⟨hle, hleads, hstuck, fun result hdone => ?_, fun result hdone => ?_⟩
  · cases hleads.left_done hdone
    rfl
  · cases hleads.right_done hdone
    rfl

theorem session_agrees_threeBytes :
    ∃ bound, ∀ ls t, (session (senderOf Transfer.threeBytes () : SenderSide plainRsa)
        (receiverOf Transfer.threeBytes ())).Reaches ls t →
      ls.length ≤ bound ∧
        ∀ result, t.right = .done result → result = .ok Transfer.threeBytes.setup := by
  obtain ⟨bound, hbound⟩ := session_agrees plainRsa_correct Transfer.threeBytes () () rfl rfl
  exact ⟨bound, fun ls t hrun =>
    ⟨(hbound ls t hrun).1, (hbound ls t hrun).2.2.2.2⟩⟩

end SecureTransfer.Session
