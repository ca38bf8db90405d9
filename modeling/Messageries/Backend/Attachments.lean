import Messageries.Backend.Conversations

namespace Messageries.Backend

open Text Relational Database Concurrency Moderation

def allowedMime : List Utf16 :=
  ["image/jpeg", "image/png", "image/webp", "application/pdf", "text/plain"].map text

/-- `name.replace(/[^\w.\-]+/g, '_').slice(0, 120)` -/
def sanitizeFilename (name : Utf16) : Utf16 :=
  let kept := fun u => isWord u || oneOf ".-" u
  (Regex.replace (fun _ => text "_") ((Regex.plus (.one fun u => !kept u)).pieces name)).take 120

def newAttachment (user : AuthUser) (conversationId : Nat) (objectKey filename mimeType : Utf16)
    (sizeBytes : Int) (scanStatus : ScanStatus) (id now : Nat) : Attachment :=
  { id, conversationId, uploaderId := user.sub, objectKey := sent objectKey,
    originalFilename := sent filename, mimeType := sent mimeType, sizeBytes, scanStatus,
    createdAt := now }

structure Presigned where
  attachmentId : Nat
  uploadUrl : Utf16
  objectKey : Utf16

/-- The name of an object: the conversation, random bytes, and the cleaned file name. -/
def objectKeyOf (conversationId : Nat) (uuid : Bytes) (filename : Utf16) : Utf16 :=
  text s!"conv/{conversationId}/" ++ uuid.map (fun b => b.toUInt16) ++ text "-" ++
    sanitizeFilename filename

def presignUpload (user : AuthUser) (conversationId : Nat) (filename mimeType : Utf16)
    (sizeBytes : Int) : App Presigned := do
  onlyIf (!allowedMime.contains mimeType) (throw (.badRequest "Type de fichier non autorisé"))
  let cfg ← settings
  let maxMb := cfg.maxAttachmentMb
  onlyIf (sizeBytes ≤ 0 ∨ (maxMb : Int) * 1024 * 1024 < sizeBytes)
    (throw (.badRequest s!"Taille max {maxMb} MB"))
  let _ ← assertCanAccess user conversationId
  let uuid : { b : Bytes // b.length = 16 } ← perform (.random 16)
  let objectKey := objectKeyOf conversationId uuid.1 filename
  let uploadUrl : Utf16 ← perform (.presign objectKey)
  let cfg ← settings
  let att ← insertOne .pool .attachments
    (newAttachment user conversationId objectKey filename mimeType sizeBytes
      (if cfg.clamavEnabled then .pending else .clean))
  return ⟨att.id, uploadUrl, objectKey⟩

/-- The checks on the stored object; every error of theirs gets one answer. -/
def checkUpload (att : Attachment) : App Unit := do
  try
    let realSize : Nat ← perform (.head att.objectKey)
    onlyIf (1024 < ((realSize : Int) - att.sizeBytes).natAbs) do
      perform (.deleteObject att.objectKey)
      let _ : Nat ← perform (.remove .attachments fun _ (a : Attachment) => a.id == att.id)
      throw (.badRequest "Taille déclarée incohérente")
  catch _ =>
    throw (.badRequest "Upload introuvable sur le stockage")

def finalize (attachmentId userId : Nat) : App Attachment := do
  match ← findOne .pool .attachments fun a => a.id == attachmentId with
  | none => throw (.notFound "Attachment introuvable")
  | some att =>
    onlyIf (att.uploaderId ≠ userId) (throw (.forbidden "Forbidden"))
    checkUpload att
    return att

def ScanStatus.name : ScanStatus → String
  | .pending => "pending"
  | .clean => "clean"
  | .infected => "infected"
  | .failed => "failed"

def getDownloadUrl (user : AuthUser) (attachmentId : Nat) : App Utf16 := do
  match ← findOne .pool .attachments fun a => a.id == attachmentId with
  | none => throw (.notFound "Not Found")
  | some att =>
    let scan := ScanStatus.name att.scanStatus
    onlyIf (att.scanStatus ≠ .clean) (throw (.forbidden s!"Fichier indisponible (scan={scan})"))
    let _ ← assertCanAccess user att.conversationId
    perform (.presign att.objectKey)

end Messageries.Backend
