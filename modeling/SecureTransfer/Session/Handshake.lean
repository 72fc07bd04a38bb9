import SecureTransfer.Lib.Dialogue
import SecureTransfer.Receiver.System
import SecureTransfer.Sender.Reader

set_option autoImplicit false

/-! # The handshake (`Sender::handshake`, the two `run`s, `handshake.rs`)

What the two ends of the TCP connection do before the transfer: the receiver sends its public key,
the sender answers with the encrypted session key, the nonce, the number of chunks and the size of
the file. Each end is a `Script`; a panic and every error that makes `run` return are ways to stop.
The `rsa` crate is a parameter (`Rsa`); what `OsRng` yields is an argument. I/O errors other than
the end of the stream are left out. -/

namespace SecureTransfer.Session

open BigEndian Script

/-- The functions of the `rsa` crate; encryption and decryption are with `Oaep::new::<Sha256>()`. -/
structure Rsa where
  PrivateKey : Type
  PublicKey : Type
  /-- What an encryption draws from `OsRng`. -/
  Seed : Type
  /-- `RsaPublicKey::from`. -/
  publicKey : PrivateKey → PublicKey
  toPublicKeyPem : PublicKey → Option String
  fromPublicKeyPem : String → Option PublicKey
  encrypt : PublicKey → Seed → Bytes → Option Bytes
  decrypt : PrivateKey → Bytes → Option Bytes

/-- How an end stops before the transfer. -/
inductive Abort
  | unexpectedEof
  | invalidUtf8
  | fromPublicKeyPem
  | toPublicKeyPem
  | generateKey
  | encrypt
  | decrypt
  | metadata
  | panicked (message : String)
deriving DecidableEq

/-! ## `handshake.rs` -/

/-- `as_bytes`, `into_bytes`. -/
def stringBytes (s : String) : Bytes :=
  s.toUTF8.data.toList

/-- `String::from_utf8`, `str::from_utf8`. -/
def fromUtf8 (bytes : Bytes) : Option String :=
  String.fromUTF8? ⟨bytes.toArray⟩

def publicKeyToBytes (rsa : Rsa) (publicKey : rsa.PublicKey) : Except Abort Bytes :=
  match rsa.toPublicKeyPem publicKey with
  | some pem => .ok (stringBytes pem)
  | none => .error .toPublicKeyPem

def publicKeyFromBytes (rsa : Rsa) (bytes : Bytes) : Except Abort rsa.PublicKey :=
  match fromUtf8 bytes with
  | some pem =>
    match rsa.fromPublicKeyPem pem with
    | some publicKey => .ok publicKey
    | none => .error .fromPublicKeyPem
  | none => .error .invalidUtf8

def encryptSessionKey (rsa : Rsa) (publicKey : rsa.PublicKey) (seed : rsa.Seed)
    (sessionKey : Bytes) : Except Abort Bytes :=
  match rsa.encrypt publicKey seed sessionKey with
  | some encrypted => .ok encrypted
  | none => .error .encrypt

def decryptSessionKey (rsa : Rsa) (privateKey : rsa.PrivateKey) (encrypted : Bytes) :
    Except Abort Bytes :=
  match rsa.decrypt privateKey encrypted with
  | some sessionKey => .ok sessionKey
  | none => .error .decrypt

/-! ## Fields -/

abbrev Party := Script Abort UInt8

/-- `?` on the result of a call. -/
def orReturn {α : Type} : Except Abort α → Party α
  | .ok a => pure a
  | .error e => fail e

/-- `[u8; n]` from a slice of that length. -/
def toArray (n : ℕ) (bytes : Bytes) : Vector UInt8 n :=
  Vector.ofFn fun i => bytes.getD i 0

def recvU32 : Party UInt32 := do
  let buf ← recvExact 4
  pure (UInt32.ofNat (ofBe buf))

def recvU64 : Party UInt64 := do
  let buf ← recvExact 8
  pure (UInt64.ofNat (ofBe buf))

/-- A message behind its length, which is cast to `u32`. -/
def framed (bytes : Bytes) : Bytes :=
  toBe 4 (UInt32.ofNat bytes.length).toNat ++ bytes

/-! ## The sender -/

/-- What `Sender::new` and the system provide: the key material, what `OsRng` yields to the
    encryption and what `metadata` says of the file. -/
structure SenderSide (rsa : Rsa) where
  sessionKey : Key
  nonce : Nonce
  seed : rsa.Seed
  metadata : Option UInt64

variable {rsa : Rsa}

def SenderSide.handshake (side : SenderSide rsa) : Party Unit := do
  let keyLen ← recvU32
  let pem ← recvExact keyLen.toNat
  let pem ← orFail .invalidUtf8 (fromUtf8 pem)
  let publicKey ← orFail .fromPublicKeyPem (rsa.fromPublicKeyPem pem)
  let encrypted ← orFail .encrypt (rsa.encrypt publicKey side.seed side.sessionKey.toList)
  writeAll (toBe 4 (UInt32.ofNat encrypted.length).toNat)
  writeAll encrypted
  writeAll side.nonce.toList

/-- `Sender::run` up to the call of `send_file`, with the argument of that call. -/
def SenderSide.run (side : SenderSide rsa) : Party UInt32 := do
  side.handshake
  let fileSize ← orFail .metadata side.metadata
  let totalChunks := Sender.totalChunks fileSize
  writeAll (toBe 4 totalChunks.toNat)
  writeAll (toBe 8 fileSize.toNat)
  pure totalChunks

/-! ## The receiver -/

/-- The key that `RsaPrivateKey::new` generates, and what the build fixes. -/
structure ReceiverSide (rsa : Rsa) where
  generated : Option rsa.PrivateKey
  crates : Crates
  overflowChecks : Bool

/-- `session_key_vec.try_into().expect(..)`. -/
def intoSessionKey (sessionKey : Bytes) : Party Key :=
  if sessionKey.length = 32 then pure (toArray 32 sessionKey)
  else fail (.panicked "Invalid AES key length")

/-- The receiver once its public key is out. -/
def ReceiverSide.receive (side : ReceiverSide rsa) (privateKey : rsa.PrivateKey) :
    Party Receiver.Setup := do
  let encLen ← recvU32
  let encrypted ← recvExact encLen.toNat
  let sessionKey ← orFail .decrypt (rsa.decrypt privateKey encrypted)
  let sessionKey ← intoSessionKey sessionKey
  let nonce ← recvExact 16
  let expectedChunks ← recvU32
  let expectedBytes ← recvU64
  pure
    { crates := side.crates
      sessionKey
      nonce := toArray 16 nonce
      expectedChunks
      expectedBytes
      overflowChecks := side.overflowChecks }

/-- `receiver::run` from the generation of the key to the channels. -/
def ReceiverSide.run (side : ReceiverSide rsa) : Party Receiver.Setup := do
  let privateKey ← orFail .generateKey side.generated
  let pem ← orFail .toPublicKeyPem (rsa.toPublicKeyPem (rsa.publicKey privateKey))
  writeAll (toBe 4 (UInt32.ofNat (stringBytes pem).length).toNat)
  writeAll (stringBytes pem)
  side.receive privateKey

/-- Both ends on their connection. -/
def session (sender : SenderSide rsa) (receiver : ReceiverSide rsa) :
    Lts (Talk Abort UInt8 UInt32 Receiver.Setup) Talk.Label :=
  Talk.talk .unexpectedEof sender.run receiver.run

/-! ## The functions of `handshake.rs`

`sender.rs` and `receiver.rs` spell out what these functions do. -/

theorem orFail_fromUtf8 {α : Type} (bytes : Bytes) (next : rsa.PublicKey → Party α) :
    (orFail .invalidUtf8 (fromUtf8 bytes) >>= fun pem =>
      orFail .fromPublicKeyPem (rsa.fromPublicKeyPem pem) >>= next)
      = orReturn (publicKeyFromBytes rsa bytes) >>= next := by
  rw [publicKeyFromBytes]
  cases fromUtf8 bytes with
  | none => rfl
  | some pem =>
      change orFail .fromPublicKeyPem (rsa.fromPublicKeyPem pem) >>= next = _
      dsimp only
      cases rsa.fromPublicKeyPem pem <;> rfl

theorem orFail_encrypt {α : Type} (publicKey : rsa.PublicKey) (seed : rsa.Seed)
    (sessionKey : Bytes) (next : Bytes → Party α) :
    (orFail .encrypt (rsa.encrypt publicKey seed sessionKey) >>= next)
      = orReturn (encryptSessionKey rsa publicKey seed sessionKey) >>= next := by
  rw [encryptSessionKey]
  cases rsa.encrypt publicKey seed sessionKey <;> rfl

theorem orFail_decrypt {α : Type} (privateKey : rsa.PrivateKey) (encrypted : Bytes)
    (next : Bytes → Party α) :
    (orFail .decrypt (rsa.decrypt privateKey encrypted) >>= next)
      = orReturn (decryptSessionKey rsa privateKey encrypted) >>= next := by
  rw [decryptSessionKey]
  cases rsa.decrypt privateKey encrypted <;> rfl

theorem orFail_toPem {α : Type} (publicKey : rsa.PublicKey) (next : Bytes → Party α) :
    (orFail .toPublicKeyPem (rsa.toPublicKeyPem publicKey) >>= fun pem => next (stringBytes pem))
      = orReturn (publicKeyToBytes rsa publicKey) >>= next := by
  rw [publicKeyToBytes]
  cases rsa.toPublicKeyPem publicKey <;> rfl

/-! ## Bytes -/

theorem fromUtf8_stringBytes (s : String) : fromUtf8 (stringBytes s) = some s := by
  rw [fromUtf8, stringBytes, Array.toArray_toList]
  exact dif_pos s.isValidUTF8

theorem toList_toArray {n : ℕ} {bytes : Bytes} (h : bytes.length = n) :
    (toArray n bytes).toList = bytes := by
  subst h
  refine List.ext_getElem (by simp [toArray]) fun i h₁ h₂ => ?_
  simp [toArray, List.getD_eq_getElem?_getD]

theorem toArray_toList {n : ℕ} (v : Vector UInt8 n) : toArray n v.toList = v := by
  rw [← Vector.toList_inj]
  exact toList_toArray Vector.length_toList

end SecureTransfer.Session
