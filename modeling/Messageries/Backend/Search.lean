import Messageries.Backend.Messages

namespace Messageries.Backend

open Text Relational Database Crypto Concurrency

def setSearchIndexed (indexed : Bool) (at_ : Option Nat) : schema.Assign .conversations :=
  ⟨fun (c : Conversation) => { c with searchIndexed := indexed, searchIndexedAt := at_ },
    fun _ => rfl⟩

/-- The index does nothing while the service is off. -/
def indexMessage (d : Document) : App Unit := do
  let cfg ← settings
  if cfg.searchEnabled then perform (.index d)

def deleteByConversation (conversationId : Nat) : App Unit := do
  let cfg ← settings
  if cfg.searchEnabled then perform (.unindex conversationId)

section Backfill

variable [AesGcm]

/-- A body that cannot be read is indexed as the empty one. -/
def decryptOrEmpty (m : Message) : App Utf16 :=
  match truthy m.body with
  | some body => return body
  | none =>
    match sealedBody m with
    | none => return []
    | some payload =>
      try decrypt payload
      catch _ => pure []

def documentOf (m : Message) (content : Utf16) (participants : List Nat) : Document :=
  ⟨m.id, m.conversationId, m.sequence, m.senderId, m.createdAt, content, participants⟩

def backfill (participants : List Nat) (m : Message) : App Unit := do
  let content ← decryptOrEmpty m
  if content.isEmpty then return ()
  else indexMessage (documentOf m content participants)

def enableIndexing (user : AuthUser) (conversationId : Nat) : App Unit := do
  let (conversation, _) ← assertCanAccess user conversationId
  onlyIf conversation.searchIndexed (throw (.conflict "Déjà indexée"))
  let cfg ← settings
  onlyIf (!cfg.searchEnabled) (throw (.conflict "Recherche désactivée côté serveur"))
  let rows : List Message ← select .pool .messages (inConversation conversationId fun _ => true)
  let messages := rows.insertionSort fun a b => a.sequence ≤ b.sequence
  let participants ← listParticipants .pool conversationId
  messages.forM (backfill (participants.map (·.userId)))
  let t ← now
  let _ ← update .pool .conversations (fun c => c.id == conversationId) fun _ =>
    setSearchIndexed true (some t)
  audit (some user.sub) "search.enabled" "conversation" (some conversationId)
    [("backfilled", .number messages.length)]

end Backfill

def disableIndexing (user : AuthUser) (conversationId : Nat) : App Unit := do
  let _ ← assertCanAccess user conversationId
  let _ ← update .pool .conversations (fun c => c.id == conversationId) fun _ =>
    setSearchIndexed false none
  deleteByConversation conversationId
  audit (some user.sub) "search.disabled" "conversation" (some conversationId) []

def indexMessageIfEnabled (d : Document) : App Unit := do
  match ← findOne .pool .conversations fun c => c.id == d.conversationId with
  | none => return ()
  | some conv => if conv.searchIndexed then indexMessage d

end Messageries.Backend
