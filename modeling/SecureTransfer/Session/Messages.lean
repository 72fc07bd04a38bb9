import SecureTransfer.Session.Handshake

set_option autoImplicit false

/-! # The messages of the handshake

The two `run`s again, message by message, and what each end does by itself when it is sent the
messages that it waits for. -/

namespace SecureTransfer.Session

open BigEndian Script

/-- What the sender sends: the encrypted session key, the nonce, the number of chunks and the size
    of the file. -/
structure Offer where
  encrypted : Bytes
  nonce : Nonce
  totalChunks : UInt32
  fileSize : UInt64

/-- The cast of the length to `u32` loses nothing. -/
def Offer.Fits (offer : Offer) : Prop :=
  offer.encrypted.length < 2 ^ 32

def Offer.bytes (offer : Offer) : Bytes :=
  framed offer.encrypted ++ (offer.nonce.toList ++
    (toBe 4 offer.totalChunks.toNat ++ toBe 8 offer.fileSize.toNat))

def recvFramed : Party Bytes := do
  let len ← recvU32
  recvExact len.toNat

/-- What follows the encrypted key. -/
def recvRest : Party (Nonce × UInt32 × UInt64) := do
  let nonce ← recvExact 16
  let expectedChunks ← recvU32
  let expectedBytes ← recvU64
  pure (toArray 16 nonce, expectedChunks, expectedBytes)

variable {rsa : Rsa}

/-! ## The receiver -/

/-- What the receiver starts the transfer with. -/
def ReceiverSide.setup {rsa : Rsa} (side : ReceiverSide rsa) (sessionKey : Key) (offer : Offer) :
    Receiver.Setup where
  crates := side.crates
  sessionKey := sessionKey
  nonce := offer.nonce
  expectedChunks := offer.totalChunks
  expectedBytes := offer.fileSize
  overflowChecks := side.overflowChecks

theorem ReceiverSide.receive_eq (side : ReceiverSide rsa) (privateKey : rsa.PrivateKey) :
    side.receive privateKey = (do
      let encrypted ← recvFramed
      let sessionKey ← orReturn (decryptSessionKey rsa privateKey encrypted)
      let sessionKey ← intoSessionKey sessionKey
      let (nonce, totalChunks, fileSize) ← recvRest
      pure (side.setup sessionKey ⟨encrypted, nonce, totalChunks, fileSize⟩)) := by
  simp only [← orFail_decrypt]
  refine congrArg (Script.readExact 4) (funext fun buf => ?_)
  refine congrArg (Script.readExact _) (funext fun encrypted => ?_)
  refine congrArg (orFail Abort.decrypt (rsa.decrypt privateKey encrypted)).bind
    (funext fun sessionKey => ?_)
  rw [intoSessionKey]
  split <;> rfl

theorem ReceiverSide.run_eq (side : ReceiverSide rsa) :
    side.run = (do
      let privateKey ← orFail .generateKey side.generated
      let pem ← orReturn (publicKeyToBytes rsa (rsa.publicKey privateKey))
      writeAll (toBe 4 (UInt32.ofNat pem.length).toNat)
      writeAll pem
      side.receive privateKey) := by
  simp only [← orFail_toPem]
  rfl

/-! ## The sender -/

/-- What the sender sends, if the encryption yields `encrypted`, for a file of size `fileSize`. -/
def SenderSide.offer (side : SenderSide rsa) (encrypted : Bytes) (fileSize : UInt64) : Offer where
  encrypted := encrypted
  nonce := side.nonce
  totalChunks := Sender.totalChunks fileSize
  fileSize := fileSize

/-- The sender after it has encrypted the key. -/
def SenderSide.reply (side : SenderSide rsa) (encrypted : Bytes) : Party UInt32 := do
  writeAll (toBe 4 (UInt32.ofNat encrypted.length).toNat)
  writeAll encrypted
  writeAll side.nonce.toList
  let fileSize ← orFail .metadata side.metadata
  writeAll (toBe 4 (Sender.totalChunks fileSize).toNat)
  writeAll (toBe 8 fileSize.toNat)
  pure (Sender.totalChunks fileSize)

theorem SenderSide.run_eq (side : SenderSide rsa) :
    side.run = (do
      let pem ← recvFramed
      let publicKey ← orReturn (publicKeyFromBytes rsa pem)
      let encrypted ← orReturn
        (encryptSessionKey rsa publicKey side.seed side.sessionKey.toList)
      side.reply encrypted) := by
  simp only [SenderSide.run, SenderSide.handshake, recvFramed, SenderSide.reply, bind_assoc,
    orFail_fromUtf8, orFail_encrypt]

/-- The sizes, when `metadata` gives them. -/
def SenderSide.announcement (side : SenderSide rsa) : Bytes :=
  match side.metadata with
  | some fileSize => toBe 4 (Sender.totalChunks fileSize).toNat ++ toBe 8 fileSize.toNat
  | none => []

/-- Everything the sender writes once it has encrypted the key. -/
def SenderSide.message (side : SenderSide rsa) (encrypted : Bytes) : Bytes :=
  framed encrypted ++ (side.nonce.toList ++ side.announcement)

theorem SenderSide.message_eq {side : SenderSide rsa} {fileSize : UInt64}
    (h : side.metadata = some fileSize) (encrypted : Bytes) :
    side.message encrypted = (side.offer encrypted fileSize).bytes := by
  rw [SenderSide.message, SenderSide.announcement, h]
  rfl

/-! ## Steps -/

variable {sender : SenderSide rsa} {receiver : ReceiverSide rsa} {privateKey : rsa.PrivateKey}
  {bytes encrypted sessionKey : Bytes}

theorem steps_recvU32 (x : UInt32) : Steps recvU32 (toBe 4 x.toNat) [] (pure x) := by
  have hread : Steps recvU32 (toBe 4 x.toNat ++ []) []
      (pure (UInt32.ofNat (ofBe (toBe 4 x.toNat)))) := .read (length_toBe _ _) (.refl _)
  rwa [List.append_nil, ofBe_toBe_of_lt x.toNat_lt, UInt32.ofNat_toNat] at hread

theorem steps_recvU64 (x : UInt64) : Steps recvU64 (toBe 8 x.toNat) [] (pure x) := by
  have hread : Steps recvU64 (toBe 8 x.toNat ++ []) []
      (pure (UInt64.ofNat (ofBe (toBe 8 x.toNat)))) := .read (length_toBe _ _) (.refl _)
  rwa [List.append_nil, ofBe_toBe_of_lt x.toNat_lt, UInt64.ofNat_toNat] at hread

theorem steps_recvFramed {α : Type} {next : Bytes → Party α} {q : Party α} {input output : Bytes}
    (hfits : bytes.length < 2 ^ 32) (h : Steps (next bytes) input output q) :
    Steps (recvFramed >>= next) (framed bytes ++ input) output q := by
  have hlen : (UInt32.ofNat bytes.length).toNat = bytes.length := UInt32.toNat_ofNat_of_lt' hfits
  have hbytes : Steps (recvExact (UInt32.ofNat bytes.length).toNat : Party Bytes) bytes []
      (pure bytes) := by
    rw [hlen]
    exact steps_recvExact bytes
  exact ((steps_recvU32 (UInt32.ofNat bytes.length)).recv hbytes).recv h

/-- What the sender returns once the message is out. -/
def SenderSide.result (side : SenderSide rsa) : Except Abort UInt32 :=
  match side.metadata with
  | some fileSize => .ok (Sender.totalChunks fileSize)
  | none => .error .metadata

theorem steps_reply (sender : SenderSide rsa) (encrypted : Bytes) :
    Steps (sender.reply encrypted) [] (sender.message encrypted) (.done sender.result) := by
  rw [SenderSide.message, framed, List.append_assoc]
  refine steps_writeAll _ (steps_writeAll _ (steps_writeAll _ ?_))
  rw [SenderSide.announcement, SenderSide.result]
  cases sender.metadata with
  | none => exact .refl _
  | some fileSize =>
      have hlast : Steps (writeAll (toBe 8 fileSize.toNat) >>= fun _ =>
          (pure (Sender.totalChunks fileSize) : Party UInt32)) [] (toBe 8 fileSize.toNat ++ [])
          (pure (Sender.totalChunks fileSize)) := steps_writeAll _ (.refl _)
      rw [List.append_nil] at hlast
      exact steps_writeAll _ hlast

/-- What the sender makes of the bytes of the public key. -/
def SenderSide.encryptFor (side : SenderSide rsa) (pem : Bytes) : Except Abort Bytes := do
  let publicKey ← publicKeyFromBytes rsa pem
  encryptSessionKey rsa publicKey side.seed side.sessionKey.toList

theorem SenderSide.orReturn_encryptFor (side : SenderSide rsa) (pem : Bytes) :
    (orReturn (side.encryptFor pem) >>= side.reply) = (do
      let publicKey ← orReturn (publicKeyFromBytes rsa pem)
      let encrypted ← orReturn (encryptSessionKey rsa publicKey side.seed side.sessionKey.toList)
      side.reply encrypted) := by
  rw [SenderSide.encryptFor]
  cases publicKeyFromBytes rsa pem <;> rfl

theorem steps_sender (hfits : bytes.length < 2 ^ 32)
    (hencrypt : sender.encryptFor bytes = .ok encrypted) :
    Steps sender.run (framed bytes) (sender.message encrypted) (.done sender.result) := by
  rw [SenderSide.run_eq, ← List.append_nil (framed bytes)]
  refine steps_recvFramed hfits ?_
  rw [← SenderSide.orReturn_encryptFor, hencrypt]
  exact steps_reply sender encrypted

theorem steps_sender_error {e : Abort} (hfits : bytes.length < 2 ^ 32)
    (hencrypt : sender.encryptFor bytes = .error e) :
    Steps sender.run (framed bytes) [] (fail e) := by
  rw [SenderSide.run_eq, ← List.append_nil (framed bytes)]
  refine steps_recvFramed hfits ?_
  rw [← SenderSide.orReturn_encryptFor, hencrypt]
  exact .refl _

/-- The receiver sends its key. -/
theorem steps_receiver_key {pem : String} (hgenerated : receiver.generated = some privateKey)
    (hpem : rsa.toPublicKeyPem (rsa.publicKey privateKey) = some pem) :
    Steps receiver.run [] (framed (stringBytes pem)) (receiver.receive privateKey) := by
  have hbytes : publicKeyToBytes rsa (rsa.publicKey privateKey) = .ok (stringBytes pem) := by
    rw [publicKeyToBytes, hpem]
  have hlast : Steps (writeAll (stringBytes pem) >>= fun _ => receiver.receive privateKey) []
      (stringBytes pem ++ []) (receiver.receive privateKey) := steps_writeAll _ (.refl _)
  rw [List.append_nil] at hlast
  rw [ReceiverSide.run_eq, hgenerated, orFail, pure_bind, hbytes, orReturn, pure_bind, framed]
  exact steps_writeAll _ hlast

/-- The receiver has read the encrypted key, which does not decrypt, -/
theorem steps_receive_none (receiver : ReceiverSide rsa) (hfits : encrypted.length < 2 ^ 32)
    (hdecrypt : rsa.decrypt privateKey encrypted = none) :
    Steps (receiver.receive privateKey) (framed encrypted) [] (fail .decrypt) := by
  rw [ReceiverSide.receive_eq, ← List.append_nil (framed encrypted)]
  refine steps_recvFramed hfits ?_
  rw [decryptSessionKey, hdecrypt]
  exact .refl _

/-- or not to a key, -/
theorem steps_receive_panic (receiver : ReceiverSide rsa) (hfits : encrypted.length < 2 ^ 32)
    (hdecrypt : rsa.decrypt privateKey encrypted = some sessionKey)
    (hlen : sessionKey.length ≠ 32) :
    Steps (receiver.receive privateKey) (framed encrypted) []
      (fail (.panicked "Invalid AES key length")) := by
  rw [ReceiverSide.receive_eq, ← List.append_nil (framed encrypted)]
  refine steps_recvFramed hfits ?_
  rw [decryptSessionKey, hdecrypt, orReturn, pure_bind, intoSessionKey, if_neg hlen]
  exact .refl _

/-- The receiver has the key and the nonce. -/
def ReceiverSide.sizes (side : ReceiverSide rsa) (sessionKey encrypted : Bytes) (nonce : Nonce) :
    Party Receiver.Setup := do
  let totalChunks ← recvU32
  let fileSize ← recvU64
  pure (side.setup (toArray 32 sessionKey) ⟨encrypted, nonce, totalChunks, fileSize⟩)

/-- or to a key: then it goes on to the sizes. -/
theorem steps_receive_nonce (receiver : ReceiverSide rsa) (nonce : Nonce)
    (hfits : encrypted.length < 2 ^ 32)
    (hdecrypt : rsa.decrypt privateKey encrypted = some sessionKey)
    (hlen : sessionKey.length = 32) :
    Steps (receiver.receive privateKey) (framed encrypted ++ nonce.toList) []
      (receiver.sizes sessionKey encrypted nonce) := by
  rw [ReceiverSide.receive_eq]
  refine steps_recvFramed hfits ?_
  rw [decryptSessionKey, hdecrypt, orReturn, pure_bind, intoSessionKey, if_pos hlen, pure_bind]
  have hnonce : Steps (recvExact 16 >>= fun buf => do
      let totalChunks ← recvU32
      let fileSize ← recvU64
      pure (receiver.setup (toArray 32 sessionKey)
        ⟨encrypted, toArray 16 buf, totalChunks, fileSize⟩)) (nonce.toList ++ []) []
      (receiver.sizes sessionKey encrypted (toArray 16 nonce.toList)) :=
    .read Vector.length_toList (.refl _)
  rw [List.append_nil, toArray_toList] at hnonce
  exact hnonce

theorem steps_sizes (receiver : ReceiverSide rsa) (nonce : Nonce) (totalChunks : UInt32)
    (fileSize : UInt64) :
    Steps (receiver.sizes sessionKey encrypted nonce)
      (toBe 4 totalChunks.toNat ++ toBe 8 fileSize.toNat) []
      (pure (receiver.setup (toArray 32 sessionKey)
        ⟨encrypted, nonce, totalChunks, fileSize⟩)) := by
  refine (steps_recvU32 totalChunks).recv ?_
  rw [← List.append_nil (toBe 8 fileSize.toNat)]
  exact (steps_recvU64 fileSize).recv (.refl _)

/-! ## Schedules -/

/-- The receiver sends its key. -/
theorem leads_key {pem : String} (hgenerated : receiver.generated = some privateKey)
    (hpem : rsa.toPublicKeyPem (rsa.publicKey privateKey) = some pem) :
    Talk.Leads .unexpectedEof (session sender receiver).init
      ⟨sender.run, receiver.receive privateKey, .settled [] (framed (stringBytes pem) ++ []),
        .settled [] []⟩ := by
  have hleads : Talk.Leads .unexpectedEof
      ⟨sender.run, receiver.run, .settled [] [], .settled [] ([] ++ [])⟩
      ⟨sender.run, receiver.receive privateKey, .settled [] ([] ++ framed (stringBytes pem)),
        .settled ([] ++ []) []⟩ := Talk.leads_right (steps_receiver_key hgenerated hpem)
  rw [List.append_nil (framed _)]
  exact hleads

/-- The receiver reads `input` off the sender's message. -/
theorem leads_receive {l : Party UInt32} {r r' : Party Receiver.Setup} {toLeft input back : Bytes}
    (h : Steps r input [] r') :
    Talk.Leads .unexpectedEof ⟨l, r, .settled toLeft [], .settled [] (input ++ back)⟩
      ⟨l, r', .settled toLeft [], .settled input back⟩ :=
  Talk.leads_right h

/-! ## A session -/

/-- A stand-in for the crate, which encrypts nothing. -/
def plainRsa : Rsa where
  PrivateKey := Unit
  PublicKey := Unit
  Seed := Unit
  publicKey := fun _ => ()
  toPublicKeyPem := fun _ => some "PUBLIC KEY"
  fromPublicKeyPem := fun pem => if pem = "PUBLIC KEY" then some () else none
  encrypt := fun _ _ message => if message.length ≤ 190 then some message else none
  decrypt := fun _ encrypted => some encrypted

/-- The sender of a file of three bytes, -/
def plainSender : SenderSide plainRsa where
  sessionKey := Receiver.oneChunk.sessionKey
  nonce := Receiver.oneChunk.nonce
  seed := ()
  metadata := some 3

/-- and its receiver. -/
def plainReceiver : ReceiverSide plainRsa where
  generated := some ()
  crates := Receiver.oneChunk.crates
  overflowChecks := Receiver.oneChunk.overflowChecks

def plainPem : Bytes :=
  stringBytes "PUBLIC KEY"

theorem encryptFor_plainPem :
    plainSender.encryptFor plainPem = .ok plainSender.sessionKey.toList := by
  rw [SenderSide.encryptFor, publicKeyFromBytes, plainPem, fromUtf8_stringBytes]
  rfl

/-- Where their handshake leads. -/
def plainEnd : Talk Abort UInt8 UInt32 Receiver.Setup where
  left := pure 1
  right := pure Receiver.oneChunk
  toLeft := .settled (framed plainPem) []
  toRight := .settled (plainSender.message plainSender.sessionKey.toList) []

theorem exists_plainEnd : ∃ ls, (session plainSender plainReceiver).Reaches ls plainEnd := by
  have hkey : Talk.Leads .unexpectedEof (session plainSender plainReceiver).init
      ⟨plainSender.run, plainReceiver.receive (), .settled [] (framed plainPem ++ []),
        .settled [] []⟩ := leads_key rfl rfl
  have hsender : Talk.Leads Abort.unexpectedEof
      ⟨plainSender.run, plainReceiver.receive (), .settled [] (framed plainPem ++ []),
        .settled [] []⟩
      ⟨pure 1, plainReceiver.receive (), .settled (framed plainPem) [],
        .settled [] (plainSender.message plainSender.sessionKey.toList)⟩ :=
    Talk.leads_left (steps_sender (by decide) encryptFor_plainPem)
  have hreceive : Steps (plainReceiver.receive ()) (plainSender.message
      plainSender.sessionKey.toList) [] (pure Receiver.oneChunk) := by
    have hnonce : Steps (plainReceiver.receive ()) (framed plainSender.sessionKey.toList ++ _) [] _ :=
      steps_receive_nonce plainReceiver plainSender.nonce (by decide) rfl rfl
    rw [SenderSide.message, ← List.append_assoc]
    exact hnonce.trans (steps_sizes plainReceiver plainSender.nonce 1 3)
  rw [← List.append_nil (plainSender.message _)] at hsender
  obtain ⟨ls, hls⟩ := (Talk.leads_iff_exec _ _).1 ((hkey.trans hsender).trans (leads_receive hreceive))
  exact ⟨ls, Lts.reaches_of_exec hls⟩

end SecureTransfer.Session
