import Messageries.Backend.Repository

namespace Messageries.Backend

open Text Relational Database Crypto Concurrency

variable [AesGcm]

structure EncryptedPayload where
  ciphertext : Bytes
  iv : Bytes
  tag : Bytes
  dekId : Utf16
  deriving DecidableEq

structure DataKey where
  keyId : Utf16
  plaintext : { b : Bytes // b.length = 32 }
  ciphertext : Bytes

def generateDataKey : App DataKey := do
  let kms : LocalKmsProvider ← perform .kms
  let plaintext : { b : Bytes // b.length = 32 } ← perform (.random 32)
  let iv : { b : Bytes // b.length = 12 } ← perform (.random 12)
  return ⟨kms.active, plaintext, LocalKmsProvider.wrap kms.activeKey iv.1 plaintext.1⟩

/-- `${keyId}::${wrappedDek.toString('base64')}` -/
def dekIdOf (keyId : Utf16) (wrapped : Bytes) : Utf16 :=
  keyId ++ colon :: colon :: toBase64 wrapped

def sealWith (keyId : Utf16) (dek iv wrapped : Bytes) (plaintext : Utf16) : EncryptedPayload :=
  let c := AesGcm.encrypt dek iv (toBytes (decode plaintext))
  ⟨c.1, iv, c.2, dekIdOf keyId wrapped⟩

def encrypt (plaintext : Utf16) : App EncryptedPayload := do
  let key ← generateDataKey
  let iv : { b : Bytes // b.length = 12 } ← perform (.random 12)
  return sealWith key.keyId key.plaintext.1 iv.1 key.ciphertext plaintext

def cacheTtlMs : Nat := 60000

def unwrapWithKms (dekId : Utf16) : App Bytes := do
  match splitColons dekId with
  | keyId :: b64 :: _ =>
    let kms : LocalKmsProvider ← perform .kms
    match kms.decryptDataKey keyId (ofBase64 b64) with
    | some dek =>
      let t ← now
      perform (.cachePut ⟨dekId, dek, t + cacheTtlMs⟩)
      return dek
    | none => throw .crypto
  | _ => throw .unexpected

def unwrap (dekId : Utf16) : App Bytes := do
  let cached : Option CachedDek ← perform (.cacheGet dekId)
  let t ← now
  match cached with
  | some c => if t < c.expires then return c.dek else unwrapWithKms dekId
  | none => unwrapWithKms dekId

def decrypt (payload : EncryptedPayload) : App Utf16 := do
  let dek ← unwrap payload.dekId
  match AesGcm.decrypt dek payload.iv payload.tag payload.ciphertext with
  | some pt => return encode (ofBytes pt)
  | none => throw .crypto

/-- The sealed body of a row, when none of its columns is empty. -/
def sealedBody (m : Message) : Option EncryptedPayload := do
  return ⟨← m.bodyCiphertext, ← m.bodyIv, ← m.bodyTag, ← m.bodyDekId⟩

end Messageries.Backend
