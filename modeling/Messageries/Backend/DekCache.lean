import Mathlib.Data.List.AList
import Messageries.Backend.Envelope

/-! The data keys of `EnvelopeCryptoService` as buffers that are shared by reference and zeroed
in place. -/

namespace Messageries.Backend.EnvelopeCryptoService

open Text Crypto Concurrency

/-- A key service makes data keys from random bytes. -/
structure KmsProvider where
  generateDataKey : (Nat → UInt8) → Option (Utf16 × Bytes × Bytes)
  decryptDataKey : (keyId : Utf16) → (ciphertext : Bytes) → Option Bytes

/-- A reference to a buffer. -/
abbrev Ref := Nat

structure Cached where
  dek : Ref
  expires : Nat

/-- What became of the buffer of a key. -/
inductive Entry
  | generated (dek : Ref)
  | decrypted (dek : Ref)
  | stored (dekId : Utf16) (dek : Ref) (time : Nat)
  | served (dekId : Utf16) (dek : Ref) (time : Nat)
  | used (dek : Ref)
  | wiped (dek : Ref)
  deriving DecidableEq

/-- The memory of the service; nothing reads `log`, where the last entry comes first. -/
structure Service where
  heap : Ref → Bytes
  allocated : Nat
  dekCache : AList fun _ : Utf16 => Cached
  clock : Nat
  log : List Entry

namespace Service

def record (e : Entry) (s : Service) : Service := { s with log := e :: s.log }

def write (dek : Ref) (b : Bytes) (s : Service) : Service :=
  { s with heap := Function.update s.heap dek b }

/-- A new buffer. -/
def allocate (b : Bytes) (s : Service) : Service :=
  { s.write s.allocated b with allocated := s.allocated + 1 }

/-- `dek.fill(0)` -/
def wipe (dek : Ref) (s : Service) : Service :=
  (s.write dek (List.replicate (s.heap dek).length 0)).record (.wiped dek)

/-- `dekCache.get`, for a key that has not expired. -/
def serve (dekId : Utf16) (s : Service) : Option Ref × Service :=
  match s.dekCache.lookup dekId with
  | some cached =>
    if s.clock < cached.expires then
      (some cached.dek, s.record (.served dekId cached.dek s.clock))
    else (none, s)
  | none => (none, s)

/-- `dekCache.set`, after `clear` on a cache that grew too large. -/
def store (dekId : Utf16) (dek : Ref) (s : Service) : Service :=
  let cache := if 5000 < s.dekCache.keys.length then ∅ else s.dekCache
  { s with dekCache := cache.insert dekId ⟨dek, s.clock + cacheTtlMs⟩ }.record
    (.stored dekId dek s.clock)

end Service

inductive CryptoOp
  | generateDataKey
  | random (n : Nat)
  | cipher (dek : Ref) (iv plaintext : Bytes)
  | wipe (dek : Ref)
  | serve (dekId : Utf16)
  | decryptDataKey (keyId : Utf16) (ciphertext : Bytes)
  | store (dekId : Utf16) (dek : Ref)
  | decipher (dek : Ref) (iv tag ciphertext : Bytes)

def CryptoOp.Res : CryptoOp → Type
  | .generateDataKey => Utf16 × Ref × Bytes
  | .random n => { b : Bytes // b.length = n }
  | .cipher _ _ _ => Bytes × Bytes
  | .serve _ => Option Ref
  | .decryptDataKey _ _ => Ref
  | .decipher _ _ _ _ => Bytes
  | _ => Unit

inductive CryptoErr
  | kms
  | cipher
  | typeError
  deriving DecidableEq

abbrev CryptoApp := Prog CryptoOp CryptoOp.Res CryptoErr

abbrev perform (o : CryptoOp) : CryptoApp o.Res := Prog.perform o

section Code

variable [AesGcm]

/-- The process is suspended before each operation; between the first one and the last one of
`unwrap` others take their turn. -/
def exec (kms : KmsProvider) (random : Nat → UInt8) :
    (o : CryptoOp) → Service → Except CryptoErr o.Res × Service
  | .generateDataKey, s =>
    match kms.generateDataKey random with
    | some (keyId, plaintext, ciphertext) =>
      (.ok (keyId, s.allocated, ciphertext),
        (s.allocate plaintext).record (.generated s.allocated))
    | none => (.error .kms, s)
  | .random n, s => (.ok ⟨(List.range n).map random, by simp⟩, s)
  | .cipher dek iv plaintext, s => (.ok (AesGcm.encrypt (s.heap dek) iv plaintext), s)
  | .wipe dek, s => (.ok (), s.wipe dek)
  | .serve dekId, s =>
    let (dek, s') := s.serve dekId
    (.ok dek, s')
  | .decryptDataKey keyId ciphertext, s =>
    match kms.decryptDataKey keyId ciphertext with
    | some dek => (.ok s.allocated, (s.allocate dek).record (.decrypted s.allocated))
    | none => (.error .kms, s)
  | .store dekId dek, s => (.ok (), s.store dekId dek)
  | .decipher dek iv tag ciphertext, s =>
    match AesGcm.decrypt (s.heap dek) iv tag ciphertext with
    | some pt => (.ok pt, s.record (.used dek))
    | none => (.error .cipher, s.record (.used dek))

def encrypt (plaintext : Utf16) : CryptoApp EncryptedPayload := do
  let (keyId, dek, wrappedDek) : Utf16 × Ref × Bytes ← perform .generateDataKey
  let iv : { b : Bytes // b.length = 12 } ← perform (.random 12)
  let c : Bytes × Bytes ← perform (.cipher dek iv.1 (toBytes (decode plaintext)))
  perform (.wipe dek)
  return ⟨c.1, iv.1, c.2, dekIdOf keyId wrappedDek⟩

/-- The call of the key service; `store` is what follows it. -/
def unwrapWithKms (dekId : Utf16) (store : Ref → CryptoApp Unit) : CryptoApp Ref :=
  match splitColons dekId with
  | keyId :: b64 :: _ => do
    let dek : Ref ← perform (.decryptDataKey keyId (ofBase64 b64))
    store dek
    return dek
  | _ => throw .typeError

def unwrap (dekId : Utf16) : CryptoApp Ref := do
  let cached : Option Ref ← perform (.serve dekId)
  match cached with
  | some dek => return dek
  | none => unwrapWithKms dekId fun dek => perform (.store dekId dek)

/-- `decrypt` once it has its key. -/
def openWith (payload : EncryptedPayload) (dek : Ref) : CryptoApp Utf16 := do
  let pt : Bytes ← perform (.decipher dek payload.iv payload.tag payload.ciphertext)
  return encode (ofBytes pt)

def decrypt (payload : EncryptedPayload) : CryptoApp Utf16 := do
  let dek ← unwrap payload.dekId
  openWith payload dek

/-- `decrypt` without the cache. -/
def decryptUncached (payload : EncryptedPayload) : CryptoApp Utf16 := do
  let dek ← unwrapWithKms payload.dekId fun _ => return ()
  openWith payload dek

inductive CryptoCall
  | encrypt (plaintext : Utf16)
  | decrypt (payload : EncryptedPayload)
  deriving DecidableEq

inductive CryptoResponse
  | sealed (payload : EncryptedPayload)
  | opened (plaintext : Utf16)

def code : CryptoCall → CryptoApp CryptoResponse
  | .encrypt plaintext => do
    return .sealed (← encrypt plaintext)
  | .decrypt payload => do
    return .opened (← decrypt payload)

/-- The service without the cache. -/
def codeUncached : CryptoCall → CryptoApp CryptoResponse
  | .encrypt plaintext => do
    return .sealed (← encrypt plaintext)
  | .decrypt payload => do
    return .opened (← decryptUncached payload)

/-- The calls under way in one process of the backend, while its clock advances. -/
def machine (kms : KmsProvider) :
    Machine CryptoOp CryptoOp.Res CryptoErr Service (Nat → UInt8) Nat CryptoCall CryptoResponse where
  exec := fun _ random o s => some (exec kms random o s)
  event := fun ms s => some { s with clock := s.clock + ms }
  enter := fun _ _ s => some s
  lose := fun _ s => s
  code := code

def localKms (kms : LocalKmsProvider) : KmsProvider where
  generateDataKey random :=
    let plaintext := (List.range 32).map random
    let iv := (List.range 12).map fun n => random (32 + n)
    some (kms.active, plaintext, LocalKmsProvider.wrap kms.activeKey iv plaintext)
  decryptDataKey := kms.decryptDataKey

end Code

end Messageries.Backend.EnvelopeCryptoService
