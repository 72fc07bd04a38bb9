import SecureTransfer.Session.Messages

set_option autoImplicit false

/-! # What an end makes of its peer

Whatever the other end does (`peer` is any program), the receiver goes on to the transfer exactly
when what it is sent starts with an `Offer` whose session key it can decrypt to 32 bytes, and it
takes that offer off the stream and no byte more. The sender writes nothing before it has a public
key, and the session key only as encrypted under that key. -/

namespace SecureTransfer.Session

open BigEndian Script Reader

/-! ## Fields -/

theorem codec_recvU32 : Codec Abort.unexpectedEof (fun _ => True)
    (fun x : UInt32 => toBe 4 x.toNat) (recvU32.reader .unexpectedEof) :=
  .bigEndian UInt32.toNat UInt32.ofNat UInt32.toNat_lt (fun _ => UInt32.ofNat_toNat)
    fun _ hx => UInt32.toNat_ofNat_of_lt' hx

theorem codec_recvU64 : Codec Abort.unexpectedEof (fun _ => True)
    (fun x : UInt64 => toBe 8 x.toNat) (recvU64.reader .unexpectedEof) :=
  .bigEndian UInt64.toNat UInt64.ofNat UInt64.toNat_lt (fun _ => UInt64.ofNat_toNat)
    fun _ hx => UInt64.toNat_ofNat_of_lt' hx

theorem codec_recvFramed : Codec Abort.unexpectedEof (fun bytes => bytes.length < 2 ^ 32) framed
    (recvFramed.reader .unexpectedEof) where
  stable := by
    simp only [recvFramed, reader_bind, reader_recvExact]
    exact .bind codec_recvU32.stable fun len => .readExact _
  complete := by
    intro bytes hlt
    have hlen : (UInt32.ofNat bytes.length).toNat = bytes.length := UInt32.toNat_ofNat_of_lt' hlt
    have hread : Reader.readExact Abort.unexpectedEof bytes.length (bytes ++ []) = _ :=
      readExact_append rfl []
    rw [List.append_nil] at hread
    simp only [recvFramed, reader_bind, reader_recvExact]
    rw [framed, bind_of_ok (codec_recvU32.read_write trivial bytes), hlen]
    exact hread
  sound := by
    intro s bytes rest h
    simp only [recvFramed, reader_bind, reader_recvExact] at h
    obtain ⟨len, mid, hlen, hbuf⟩ := bind_eq_ok h
    obtain ⟨-, rfl⟩ := codec_recvU32.sound _ _ _ hlen
    obtain ⟨rfl, hlength⟩ := readExact_eq_ok hbuf
    refine ⟨hlength ▸ len.toNat_lt, ?_⟩
    rw [framed, hlength, UInt32.ofNat_toNat, List.append_assoc]

theorem onlyEof_recvU32 : OnlyEof Abort.unexpectedEof (recvU32.reader .unexpectedEof) :=
  .bind (.readExact 4) fun _ => .pure _

theorem onlyEof_recvU64 : OnlyEof Abort.unexpectedEof (recvU64.reader .unexpectedEof) :=
  .bind (.readExact 8) fun _ => .pure _

theorem onlyEof_recvFramed : OnlyEof Abort.unexpectedEof (recvFramed.reader .unexpectedEof) := by
  simp only [recvFramed, reader_bind, reader_recvExact]
  exact .bind onlyEof_recvU32 fun _ => .readExact _

theorem onlyEof_recvRest : OnlyEof Abort.unexpectedEof (recvRest.reader .unexpectedEof) := by
  simp only [recvRest, reader_bind, reader_recvExact]
  exact .bind (.readExact 16) fun _ => .bind onlyEof_recvU32 fun _ =>
    .bind onlyEof_recvU64 fun _ => .pure _

theorem recvRest_append (nonce : Nonce) (totalChunks : UInt32) (fileSize : UInt64) (more : Bytes) :
    recvRest.reader .unexpectedEof
        (nonce.toList ++ (toBe 4 totalChunks.toNat ++ (toBe 8 fileSize.toNat ++ more)))
      = .ok ((nonce, totalChunks, fileSize), more) := by
  simp only [recvRest, reader_bind, reader_recvExact]
  rw [bind_of_ok (readExact_append Vector.length_toList _),
    bind_of_ok (codec_recvU32.read_write trivial _), bind_of_ok (codec_recvU64.read_write trivial _),
    toArray_toList]
  rfl

theorem recvRest_eq_ok {s more : Bytes} {nonce : Nonce} {totalChunks : UInt32} {fileSize : UInt64}
    (h : recvRest.reader .unexpectedEof s = .ok ((nonce, totalChunks, fileSize), more)) :
    s = nonce.toList ++ (toBe 4 totalChunks.toNat ++ (toBe 8 fileSize.toNat ++ more)) := by
  simp only [recvRest, reader_bind, reader_recvExact] at h
  obtain ⟨buf, s₁, hbuf, hnext⟩ := bind_eq_ok h
  obtain ⟨chunks, s₂, hchunks, hlast⟩ := bind_eq_ok hnext
  obtain ⟨size, s₃, hsize, hpure⟩ := bind_eq_ok hlast
  obtain ⟨rfl, hlen⟩ := readExact_eq_ok hbuf
  obtain ⟨-, rfl⟩ := codec_recvU32.sound _ _ _ hchunks
  obtain ⟨-, rfl⟩ := codec_recvU64.sound _ _ _ hsize
  cases hpure
  rw [toList_toArray hlen]

/-! ## The receiver -/

variable {rsa : Rsa} {side : ReceiverSide rsa}

/-- Behind an encrypted key. -/
theorem receive_framed (side : ReceiverSide rsa) (privateKey : rsa.PrivateKey) {encrypted : Bytes}
    (hfits : encrypted.length < 2 ^ 32) (more : Bytes) :
    (side.receive privateKey).reader .unexpectedEof (framed encrypted ++ more)
      = match rsa.decrypt privateKey encrypted with
        | none => .error .decrypt
        | some sessionKey =>
          if sessionKey.length = 32 then
            (recvRest.reader .unexpectedEof more).map fun r =>
              (side.setup (toArray 32 sessionKey) ⟨encrypted, r.1.1, r.1.2.1, r.1.2.2⟩, r.2)
          else .error (.panicked "Invalid AES key length") := by
  rw [ReceiverSide.receive_eq, reader_bind, bind_of_ok (codec_recvFramed.read_write hfits more),
    reader_bind, bind_apply, decryptSessionKey]
  cases rsa.decrypt privateKey encrypted with
  | none => rfl
  | some sessionKey =>
      dsimp only
      change (intoSessionKey sessionKey >>= _ : Party Receiver.Setup).reader .unexpectedEof more = _
      rw [reader_bind, intoSessionKey]
      split
      · rw [bind_apply]
        change (recvRest >>= _ : Party Receiver.Setup).reader .unexpectedEof more = _
        rw [reader_bind, bind_apply]
        cases recvRest.reader .unexpectedEof more <;> rfl
      · rfl

/-- No encrypted key to be read. -/
theorem receive_short (side : ReceiverSide rsa) (privateKey : rsa.PrivateKey) {s : Bytes}
    (h : recvFramed.reader .unexpectedEof s = .error .unexpectedEof) :
    (side.receive privateKey).reader .unexpectedEof s = .error .unexpectedEof := by
  rw [ReceiverSide.receive_eq, reader_bind, bind_apply, h]

/-- A stream starts with a framed message or is too short for one. -/
theorem framed_or_short (s : Bytes) :
    (∃ bytes more, bytes.length < 2 ^ 32 ∧ s = framed bytes ++ more) ∨
      recvFramed.reader .unexpectedEof s = .error .unexpectedEof := by
  cases h : recvFramed.reader .unexpectedEof s with
  | error e => exact .inr (by rw [onlyEof_recvFramed s e h])
  | ok r =>
      obtain ⟨hfits, hs⟩ := codec_recvFramed.sound s r.1 r.2 h
      exact .inl ⟨r.1, r.2, hfits, hs⟩

/-- The receiver has its key and can send it. -/
def ReceiverSide.Ready (side : ReceiverSide rsa) (privateKey : rsa.PrivateKey) : Prop :=
  side.generated = some privateKey ∧
    ∃ pem, rsa.toPublicKeyPem (rsa.publicKey privateKey) = some pem

variable {privateKey : rsa.PrivateKey} {s more : Bytes}

theorem ReceiverSide.Ready.run_reader (h : side.Ready privateKey) :
    side.run.reader .unexpectedEof = (side.receive privateKey).reader .unexpectedEof := by
  obtain ⟨hgenerated, pem, hpem⟩ := h
  rw [ReceiverSide.run, hgenerated, orFail]
  change (orFail .toPublicKeyPem (rsa.toPublicKeyPem (rsa.publicKey privateKey)) >>= _
    : Party Receiver.Setup).reader _ = _
  rw [hpem]
  rfl

/-- The receiver can start the transfer with `setup` on the strength of `offer`. -/
structure ReceiverSide.Takes (side : ReceiverSide rsa) (privateKey : rsa.PrivateKey) (offer : Offer)
    (setup : Receiver.Setup) : Prop where
  fits : offer.Fits
  decrypt : rsa.decrypt privateKey offer.encrypted = some setup.sessionKey.toList
  setup_eq : setup = side.setup setup.sessionKey offer

theorem receive_ok {setup : Receiver.Setup} :
    (side.receive privateKey).reader .unexpectedEof s = .ok (setup, more) ↔
      ∃ offer, side.Takes privateKey offer setup ∧ s = offer.bytes ++ more := by
  constructor
  · intro h
    rcases framed_or_short s with ⟨encrypted, s', hfits, rfl⟩ | hshort
    · rw [receive_framed side privateKey hfits] at h
      split at h
      · cases h
      · next sessionKey hdecrypt =>
          split at h
          · next hlen =>
              cases hrest : recvRest.reader .unexpectedEof s' with
              | error e => rw [hrest] at h; cases h
              | ok r =>
                  rw [hrest] at h
                  cases h
                  refine ⟨⟨encrypted, r.1.1, r.1.2.1, r.1.2.2⟩, ⟨hfits, ?_, rfl⟩, ?_⟩
                  · rw [hdecrypt]
                    exact congrArg some (toList_toArray hlen).symm
                  · rw [recvRest_eq_ok hrest]
                    simp only [Offer.bytes, List.append_assoc]
          · cases h
    · rw [receive_short side privateKey hshort] at h
      cases h
  · rintro ⟨offer, ⟨hfits, hdecrypt, hsetup⟩, rfl⟩
    have hlen : setup.sessionKey.toList.length = 32 := Vector.length_toList
    rw [Offer.bytes, List.append_assoc, receive_framed side privateKey hfits, hdecrypt]
    simp only [hlen, if_pos, List.append_assoc]
    rw [recvRest_append, toArray_toList]
    exact congrArg (fun setup => Except.ok (setup, more)) hsetup.symm

theorem receive_panics {message : String} :
    (side.receive privateKey).reader .unexpectedEof s = .error (.panicked message) ↔
      message = "Invalid AES key length" ∧ ∃ encrypted sessionKey, encrypted.length < 2 ^ 32 ∧
        framed encrypted <+: s ∧ rsa.decrypt privateKey encrypted = some sessionKey ∧
        sessionKey.length ≠ 32 := by
  constructor
  · intro h
    rcases framed_or_short s with ⟨encrypted, s', hfits, rfl⟩ | hshort
    · rw [receive_framed side privateKey hfits] at h
      split at h
      · cases h
      · next sessionKey hdecrypt =>
          split at h
          · cases hrest : recvRest.reader .unexpectedEof s' with
            | error e =>
                rw [hrest, onlyEof_recvRest s' e hrest] at h
                cases h
            | ok r => rw [hrest] at h; cases h
          · next hlen =>
              cases h
              exact ⟨rfl, encrypted, sessionKey, hfits, List.prefix_append _ _, hdecrypt, hlen⟩
    · rw [receive_short side privateKey hshort] at h
      cases h
  · rintro ⟨rfl, encrypted, sessionKey, hfits, ⟨s', rfl⟩, hdecrypt, hlen⟩
    rw [receive_framed side privateKey hfits, hdecrypt]
    exact if_neg hlen

theorem receive_undecryptable :
    (side.receive privateKey).reader .unexpectedEof s = .error .decrypt ↔
      ∃ encrypted, encrypted.length < 2 ^ 32 ∧ framed encrypted <+: s ∧
        rsa.decrypt privateKey encrypted = none := by
  constructor
  · intro h
    rcases framed_or_short s with ⟨encrypted, s', hfits, rfl⟩ | hshort
    · rw [receive_framed side privateKey hfits] at h
      split at h
      · next hdecrypt => exact ⟨encrypted, hfits, List.prefix_append _ _, hdecrypt⟩
      · split at h
        · cases hrest : recvRest.reader .unexpectedEof s' with
          | error e =>
              rw [hrest, onlyEof_recvRest s' e hrest] at h
              cases h
          | ok r => rw [hrest] at h; cases h
        · cases h
    · rw [receive_short side privateKey hshort] at h
      cases h
  · rintro ⟨encrypted, hfits, ⟨s', rfl⟩, hdecrypt⟩
    rw [receive_framed side privateKey hfits, hdecrypt]

theorem receive_error {e : Abort}
    (h : (side.receive privateKey).reader .unexpectedEof s = .error e) :
    (∃ message, e = .panicked message) ∨ e = .decrypt ∨ e = .unexpectedEof := by
  rcases framed_or_short s with ⟨encrypted, s', hfits, rfl⟩ | hshort
  · rw [receive_framed side privateKey hfits] at h
    split at h
    · cases h
      exact .inr (.inl rfl)
    · split at h
      · cases hrest : recvRest.reader .unexpectedEof s' with
        | error e' =>
            rw [hrest, onlyEof_recvRest s' e' hrest] at h
            cases h
            exact .inr (.inr rfl)
        | ok r => rw [hrest] at h; cases h
      · cases h
        exact .inl ⟨_, rfl⟩
  · rw [receive_short side privateKey hshort] at h
    cases h
    exact .inr (.inr rfl)

/-- **The receiver against any peer.** When the receiver comes to an end of the handshake, its
    result is fixed by what its peer has written: a setup exactly when that starts with an offer
    whose key decrypts to 32 bytes, and then the bytes read are those of the offer; a panic exactly
    when it starts with a key that decrypts to another length; an error of the decryption exactly
    when it starts with one that does not decrypt; else the peer has closed the stream too early. -/
theorem receiver_result {α : Type} (peer : Party α) {ls : List Talk.Label}
    {t : Talk Abort UInt8 α Receiver.Setup} {result : Except Abort Receiver.Setup}
    (hready : side.Ready privateKey)
    (hrun : (Talk.talk .unexpectedEof peer side.run).Reaches ls t)
    (hdone : t.right = .done result) :
    (∀ setup, result = .ok setup ↔
      ∃ offer, side.Takes privateKey offer setup ∧ offer.bytes <+: t.toRight.written) ∧
    (∀ setup, result = .ok setup →
      ∃ offer, side.Takes privateKey offer setup ∧ t.toRight.consumed = offer.bytes) ∧
    (∀ message, result = .error (.panicked message) ↔
      message = "Invalid AES key length" ∧ ∃ encrypted sessionKey, encrypted.length < 2 ^ 32 ∧
        framed encrypted <+: t.toRight.written ∧
        rsa.decrypt privateKey encrypted = some sessionKey ∧ sessionKey.length ≠ 32) ∧
    (result = .error .decrypt ↔
      ∃ encrypted, encrypted.length < 2 ^ 32 ∧ framed encrypted <+: t.toRight.written ∧
        rsa.decrypt privateKey encrypted = none) ∧
    ((∃ setup, result = .ok setup) ∨ (∃ message, result = .error (.panicked message)) ∨
      result = .error .decrypt ∨ result = .error .unexpectedEof) := by
  have hreader := Talk.result_right hrun hdone
  rw [hready.run_reader] at hreader
  have herror (e : Abort) : result = .error e ↔
      (side.receive privateKey).reader .unexpectedEof t.toRight.written = .error e := by
    rw [hreader]
    cases result <;> simp [Except.map]
  have hok {setup : Receiver.Setup} (h : result = .ok setup) :
      ∃ offer, side.Takes privateKey offer setup ∧
        t.toRight.written = offer.bytes ++ t.toRight.written.drop t.toRight.read := by
    rw [h] at hreader
    exact receive_ok.1 hreader
  refine ⟨fun setup => ⟨fun h => ?_, ?_⟩, fun setup h => ?_, fun message => ?_, ?_, ?_⟩
  · obtain ⟨offer, htakes, hwritten⟩ := hok h
    exact ⟨offer, htakes, _, hwritten.symm⟩
  · rintro ⟨offer, htakes, more, hwritten⟩
    rw [receive_ok.2 ⟨offer, htakes, hwritten.symm⟩] at hreader
    cases result with
    | error e => cases hreader
    | ok setup' => exact congrArg (fun r => Except.ok r.1) (Except.ok.inj hreader).symm
  · obtain ⟨offer, htakes, hwritten⟩ := hok h
    have hsplit : t.toRight.consumed ++ t.toRight.written.drop t.toRight.read
        = offer.bytes ++ t.toRight.written.drop t.toRight.read := by
      rw [Pipe.consumed, List.take_append_drop]
      exact hwritten
    exact ⟨offer, htakes, List.append_cancel_right hsplit⟩
  · rw [herror, receive_panics]
  · rw [herror, receive_undecryptable]
  · cases result with
    | ok setup => exact .inl ⟨setup, rfl⟩
    | error e =>
        rcases receive_error ((herror e).1 rfl) with ⟨message, rfl⟩ | rfl | rfl
        · exact .inr (.inl ⟨message, rfl⟩)
        · exact .inr (.inr (.inl rfl))
        · exact .inr (.inr (.inr rfl))

theorem receiver_result_plain : ∃ ls, (session plainSender plainReceiver).Reaches ls plainEnd ∧
    ∃ offer, plainReceiver.Takes () offer Receiver.oneChunk ∧
      plainEnd.toRight.consumed = offer.bytes := by
  obtain ⟨ls, hrun⟩ := exists_plainEnd
  obtain ⟨-, hconsumed, -⟩ := receiver_result plainSender.run ⟨rfl, _, rfl⟩ hrun rfl
  exact ⟨ls, hrun, hconsumed Receiver.oneChunk rfl⟩

/-! ## The sender -/

/-- The public key `pem` stands for, and the session key encrypted under it. -/
structure SenderSide.Encrypts (side : SenderSide rsa) (pem : Bytes) (publicKey : rsa.PublicKey)
    (encrypted : Bytes) : Prop where
  key : publicKeyFromBytes rsa pem = .ok publicKey
  encrypt : encryptSessionKey rsa publicKey side.seed side.sessionKey.toList = .ok encrypted

variable {sender : SenderSide rsa} {pem encrypted input output : Bytes} {q : Party UInt32}

theorem emits_announcement (side : SenderSide rsa) :
    Emits (do
        let fileSize ← orFail Abort.metadata side.metadata
        writeAll (toBe 4 (Sender.totalChunks fileSize).toNat)
        writeAll (toBe 8 fileSize.toNat)
        pure (Sender.totalChunks fileSize))
      side.announcement fun n => side.metadata.map Sender.totalChunks = some n := by
  rw [SenderSide.announcement]
  cases side.metadata with
  | none => exact .fail _ _ _
  | some fileSize =>
      have hsize : Emits (writeAll (toBe 8 fileSize.toNat) >>= fun _ =>
          (pure (Sender.totalChunks fileSize) : Party UInt32)) (toBe 8 fileSize.toNat ++ [])
          fun n => (some fileSize).map Sender.totalChunks = some n := .writeAll _ (.pure rfl)
      rw [List.append_nil] at hsize
      exact .writeAll _ hsize

theorem emits_reply (side : SenderSide rsa) (encrypted : Bytes) :
    Emits (side.reply encrypted) (side.message encrypted)
      fun n => side.metadata.map Sender.totalChunks = some n := by
  rw [SenderSide.message, framed, List.append_assoc]
  exact .writeAll _ (.writeAll _ (.writeAll _ (emits_announcement side)))

/-- What the sender has read and written, at any point. -/
theorem steps_run (h : Steps sender.run input output q) :
    (output = [] ∧ ∀ n, q ≠ .done (.ok n)) ∨
    ∃ pem publicKey encrypted, sender.Encrypts pem publicKey encrypted ∧ input = framed pem ∧
      output <+: sender.message encrypted ∧ ∀ n, q = .done (.ok n) →
        output = sender.message encrypted ∧
          sender.metadata.map Sender.totalChunks = some n := by
  rw [SenderSide.run_eq] at h
  rcases steps_readExact h with ⟨-, hout, rfl⟩ | ⟨buf, input₁, rfl, hbuf, h₁⟩
  · exact .inl ⟨hout, nofun⟩
  rcases steps_readExact h₁ with ⟨-, hout, rfl⟩ | ⟨pem, input₂, rfl, hpem, h₂⟩
  · exact .inl ⟨hout, nofun⟩
  change Steps (orReturn (publicKeyFromBytes rsa pem) >>= _) input₂ output q at h₂
  cases hkey : publicKeyFromBytes rsa pem with
  | error e =>
      rw [hkey] at h₂
      obtain ⟨-, hout, rfl⟩ := steps_done h₂
      exact .inl ⟨hout, nofun⟩
  | ok publicKey =>
      rw [hkey] at h₂
      change Steps (orReturn (encryptSessionKey rsa publicKey _ _) >>= _) input₂ output q at h₂
      cases hencrypt : encryptSessionKey rsa publicKey sender.seed sender.sessionKey.toList with
      | error e =>
          rw [hencrypt] at h₂
          obtain ⟨-, hout, rfl⟩ := steps_done h₂
          exact .inl ⟨hout, nofun⟩
      | ok encrypted =>
          rw [hencrypt] at h₂
          obtain ⟨rfl, hprefix, hdone⟩ := emits_reply sender encrypted _ _ _ h₂
          refine .inr ⟨pem, publicKey, encrypted, ⟨hkey, hencrypt⟩, ?_, hprefix, hdone⟩
          obtain ⟨len, hlen, rfl⟩ := exists_toBe hbuf
          rw [ofBe_toBe_of_lt hlen, UInt32.toNat_ofNat_of_lt' hlen] at hpem
          rw [framed, hpem, UInt32.toNat_ofNat_of_lt' hlen, List.append_nil]

/-- **The sender against any peer.** Until it has read a public key and encrypted the session key
    under it, the sender writes nothing; from then on it has written the front of one message, in
    which the session key occurs as encrypted only. It goes on to the transfer only once all of the
    message is out. -/
theorem sender_written {α : Type} (peer : Party α) {ls : List Talk.Label}
    {t : Talk Abort UInt8 UInt32 α}
    (hrun : (Talk.talk .unexpectedEof sender.run peer).Reaches ls t) :
    (t.toRight.written = [] ∧ ∀ n, t.left ≠ .done (.ok n)) ∨
    ∃ pem publicKey encrypted, sender.Encrypts pem publicKey encrypted ∧
      t.toLeft.consumed = framed pem ∧ t.toRight.written <+: sender.message encrypted ∧
      ∀ n, t.left = .done (.ok n) → ∃ fileSize, sender.metadata = some fileSize ∧
        n = Sender.totalChunks fileSize ∧
        t.toRight.written = (sender.offer encrypted fileSize).bytes := by
  obtain ⟨q, hsteps, hleft⟩ := (Talk.faithful hrun).1
  have hdone {n : UInt32} (h : t.left = .done (.ok n)) : q = .done (.ok n) := by
    rcases hleft with hq | ⟨hfail, -⟩
    · rw [← hq, h]
    · rw [hfail] at h
      cases h
  rcases steps_run hsteps with ⟨hout, hnone⟩ | ⟨pem, publicKey, encrypted, hencrypts, hin, hprefix,
    hok⟩
  · exact .inl ⟨hout, fun n h => hnone n (hdone h)⟩
  · refine .inr ⟨pem, publicKey, encrypted, hencrypts, hin, hprefix, fun n h => ?_⟩
    obtain ⟨hout, hn⟩ := hok n (hdone h)
    obtain ⟨fileSize, hsize, rfl⟩ := Option.map_eq_some_iff.1 hn
    exact ⟨fileSize, hsize, rfl, hout.trans (SenderSide.message_eq hsize encrypted)⟩

theorem sender_written_plain : ∃ ls, (session plainSender plainReceiver).Reaches ls plainEnd ∧
    ∃ pem publicKey encrypted, plainSender.Encrypts pem publicKey encrypted ∧
      plainEnd.toLeft.consumed = framed pem ∧
      plainEnd.toRight.written = (plainSender.offer encrypted 3).bytes := by
  obtain ⟨ls, hrun⟩ := exists_plainEnd
  rcases sender_written plainReceiver.run hrun with ⟨-, hnone⟩ |
    ⟨pem, publicKey, encrypted, hencrypts, hconsumed, -, hdone⟩
  · exact absurd rfl (hnone 1)
  · obtain ⟨fileSize, hsize, -, hwritten⟩ := hdone 1 rfl
    cases hsize
    exact ⟨ls, hrun, pem, publicKey, encrypted, hencrypts, hconsumed, hwritten⟩

end SecureTransfer.Session
