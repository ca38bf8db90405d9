import Messageries.Backend.Attachments
import Messageries.Backend.Messages
import Messageries.Backend.RefreshTokens

namespace Messageries.Backend

open Text Relational Database Crypto Concurrency Moderation

section Export

variable [AesGcm]

structure ExportedMessage where
  id : Nat
  conversationId : Nat
  sequence : Nat
  createdAt : Nat
  body : Utf16

structure ExportedUser where
  id : Nat
  email : Utf16
  role : Role
  displayName : Option Utf16
  createdAt : Nat

structure ExportedAttachment where
  id : Nat
  conversationId : Nat
  originalFilename : Utf16
  mimeType : Utf16
  sizeBytes : Int
  createdAt : Nat

structure UserExport where
  exportedAt : Nat
  user : ExportedUser
  conversations : List Nat
  messages : List ExportedMessage
  attachments : List ExportedAttachment

def decryptIfNeeded (m : Message) : App Utf16 :=
  match m.body with
  | some body => return body
  | none =>
    match sealedBody m with
    | none => return []
    | some payload =>
      try decrypt payload
      catch _ => pure []

def exportMessage (m : Message) : App ExportedMessage := do
  let body ← decryptIfNeeded m
  return ⟨m.id, m.conversationId, m.sequence, m.createdAt, body⟩

/-- The messages of a user who is in no conversation are not looked for. -/
def sentMessages (userId : Nat) (convIds : List Nat) : App (List Message) :=
  if convIds.isEmpty then return []
  else select .pool .messages fun m => m.senderId == userId && m.deletedAt.isNone

def setExportRequested (t : Nat) : schema.Assign .users :=
  ⟨fun (u : User) => { u with dataExportRequestedAt := some t }, fun _ => rfl⟩

def exportUserData (userId : Nat) : App UserExport := do
  match ← findOne .pool .users fun u => u.id == userId with
  | none => throw (.notFound "Not Found")
  | some user =>
    let participants ← select .pool .participants fun p => p.userId == userId
    let convIds := participants.map (·.conversationId)
    let messages ← sentMessages userId convIds
    let decrypted ← messages.mapM' exportMessage
    let userAttachments ← select .pool .attachments fun a => a.uploaderId == userId
    let t ← now
    let _ ← update .pool .users (fun u => u.id == userId) fun _ => setExportRequested t
    audit (some userId) "privacy.exported" "user" (some userId) []
    let t ← now
    return {
      exportedAt := t
      user := ⟨user.id, user.email, user.role, user.displayName, user.createdAt⟩
      conversations := convIds
      messages := decrypted
      attachments := userAttachments.map fun a =>
        ⟨a.id, a.conversationId, a.originalFilename, a.mimeType, a.sizeBytes, a.createdAt⟩ }

end Export

section Anonymize

def setAnonymized (userId t : Nat) : schema.Assign .users :=
  ⟨fun (u : User) =>
    { u with
      email := text s!"anon_{userId}@deleted.invalid"
      displayName := some (text "Utilisateur supprimé")
      passwordHash := text "INVALID"
      mfaSecret := none
      anonymizedAt := some t
      isSuspended := true },
    fun _ => rfl⟩

/-- The wipe of `UPDATE messages SET body = NULL, ...`. -/
def wiped (now : Nat) : schema.Assign .messages :=
  ⟨fun (m : Message) =>
    { m with body := none, bodyCiphertext := none, bodyIv := none, bodyTag := none,
             bodyDekId := none, bodyAlg := none, status := .deleted,
             deletedAt := some (m.deletedAt.getD now) },
    fun _ => rfl⟩

def anonymizeInTransaction (userId : Nat) : App Unit := do
  match ← findOne .tx .users fun u => u.id == userId with
  | none => throw (.notFound "Not Found")
  | some user =>
    if user.anonymizedAt.isSome then return ()
    else
      let t ← now
      let _ ← update .tx .users (fun u => u.id == userId) fun _ => setAnonymized userId t
      let _ ← update .tx .messages (fun m => m.senderId == userId) wiped
      revokeAllForUser userId "gdpr_anonymized"

def anonymizeUser (userId actorId : Nat) : App Unit := do
  transaction (anonymizeInTransaction userId)
  audit (some actorId) "privacy.anonymized" "user" (some userId) []

end Anonymize

end Messageries.Backend
