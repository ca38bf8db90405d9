import Messageries.Backend.E2ee
import Messageries.Backend.Moderation
import Messageries.Backend.Outbox
import Messageries.Backend.Privacy

namespace Messageries.Backend

open Text Relational Database Crypto Concurrency

/-- What a request answers with. -/
inductive Response
  | done
  | conversation (c : Conversation)
  | detail (c : Conversation) (participants : List ConversationParticipant) (myRole : Role)
  | message (m : DecryptedMessage)
  | messages (ms : List DecryptedMessage)
  | report (r : MessageReport)
  | presigned (p : Presigned)
  | attachment (a : Attachment)
  | url (u : Utf16)
  | count (n : Nat)
  | keyPackage (k : MlsKeyPackage)
  | mlsSent (id sequence : Nat)
  | mlsMessages (ms : List MlsMessage)
  | export (e : UserExport)
  | token (t : IssuedToken)

/-- `RolesGuard` -/
def requireRole (user : AuthUser) (roles : List Role) : App Unit :=
  if user.role ∈ roles then return () else throw (.forbidden "Rôle insuffisant")

section Code

variable [AesGcm] [TokenHash]

/-- The code behind each call: the guards of its route, then the service. -/
def code : Call → App Response
  | .openByOrder user orderId => do
    return .conversation (← getOrCreateForOrder orderId user.sub)
  | .getOne user conversationId => do
    let (conversation, role) ← assertCanAccess user conversationId
    let participants ← listParticipants .pool conversation.id
    return .detail conversation participants role
  | .send user conversationId body idempotencyKey => do
    let _ ← assertCanAccess user conversationId
    return .message (← send ⟨conversationId, user.sub, body, idempotencyKey⟩)
  | .list user conversationId afterSequence beforeSequence limit => do
    let _ ← assertCanAccess user conversationId
    return .messages (← list conversationId afterSequence beforeSequence limit)
  | .markRead user conversationId uptoSequence => do
    let _ ← assertCanAccess user conversationId
    markRead conversationId user.sub uptoSequence
    return .done
  | .softDelete user conversationId messageId => do
    let _ ← assertCanAccess user conversationId
    softDelete messageId user.sub
    return .done
  | .report user messageId reason details => do
    return .report (← report messageId user.sub reason details)
  | .resolve user reportId action => do
    requireRole user [.support, .admin]
    return .report (← resolve reportId user.sub action)
  | .presign user conversationId filename mimeType sizeBytes => do
    return .presigned (← presignUpload user conversationId filename mimeType sizeBytes)
  | .finalize user attachmentId => do
    return .attachment (← finalize attachmentId user.sub)
  | .download user attachmentId => do
    return .url (← getDownloadUrl user attachmentId)
  | .publishKeyPackages user deviceId cipherSuite keyPackages ttlDays => do
    return .count (← publishKeyPackages user.sub deviceId cipherSuite keyPackages ttlDays)
  | .claimKeyPackage user targetUserId cipherSuite => do
    return .keyPackage (← claimKeyPackage targetUserId user.sub cipherSuite)
  | .countKeyPackages user cipherSuite => do
    return .count (← countAvailable user.sub cipherSuite)
  | .enableE2ee user conversationId groupIdMls cipherSuite welcomeMessages => do
    let _ ← assertCanAccess user conversationId
    return .count (← enableE2ee user conversationId groupIdMls cipherSuite welcomeMessages)
  | .sendMls user conversationId senderDeviceId kind epoch ciphertext targetUserId => do
    let _ ← assertCanAccess user conversationId
    let (id, sequence) ←
      sendMlsMessage user ⟨conversationId, senderDeviceId, kind, epoch, ciphertext, targetUserId⟩
    return .mlsSent id sequence
  | .listMls user conversationId afterSequence limit => do
    let _ ← assertCanAccess user conversationId
    return .mlsMessages (← listMlsMessages user conversationId afterSequence limit)
  | .enableSearch user conversationId => do
    let (conversation, _) ← assertCanAccess user conversationId
    enableIndexing user conversation.id
    return .done
  | .disableSearch user conversationId => do
    let (conversation, _) ← assertCanAccess user conversationId
    disableIndexing user conversation.id
    return .done
  | .exportData user => do
    return .export (← exportUserData user.sub)
  | .anonymize user userId => do
    onlyIf (userId ≠ user.sub) (requireRole user [.admin])
    anonymizeUser userId user.sub
    return .done
  | .login user => do
    return .token (← issue user.sub none)
  | .refresh token => do
    return .token (← refresh token)
  | .logout token => do
    revoke token "logout"
    return .done
  | .revokeAll userId => do
    revokeAllForUser userId "logout"
    return .done
  | .natsInit worker => do
    natsInit worker
    return .done
  | .processBatch worker batchSize => do
    return .count (← processBatch worker batchSize)

/-- The API processes and the outbox workers over one database. -/
def machine : Machine Op Op.Res Err World Input Event Call Response where
  exec := World.exec
  event := World.event
  enter := World.enter
  lose := World.lose
  code := code

end Code

end Messageries.Backend
