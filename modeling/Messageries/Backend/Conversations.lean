import Messageries.Backend.Repository

namespace Messageries.Backend

open Text Relational Database Concurrency Moderation

section Audit

/-- A failed audit entry never stops the request. -/
def audit (actorId : Option Nat) (action targetType : String) (targetId : Option Nat)
    (metadata : List (String × Json)) : App Unit := do
  try
    let _ ← insertOne .pool .audit fun id now =>
      { id, actorId, action, targetType, targetId, metadata, createdAt := now }
    pure ()
  catch _ =>
    pure ()

end Audit

section Orders

def findOrder (id : Nat) : App (Option Order) := findOne .pool .orders fun o => o.id == id

def getOrderOrThrow (id : Nat) : App Order := do
  match ← findOrder id with
  | some o => return o
  | none => throw (.notFound "Commande introuvable")

end Orders

section Participants

structure NewParticipant where
  conversationId : Nat
  userId : Nat
  role : Role

def NewParticipant.isRow (p : NewParticipant) (r : ConversationParticipant) : Bool :=
  p.conversationId == r.conversationId && p.userId == r.userId

def NewParticipant.row (p : NewParticipant) (_id now : Nat) : ConversationParticipant :=
  { conversationId := p.conversationId, userId := p.userId, role := p.role, joinedAt := now,
    leftAt := none, lastReadSequence := 0 }

def setRole (role : Role) : schema.Assign .participants :=
  ⟨fun (r : ConversationParticipant) => { r with role }, fun _ => rfl⟩

/-- `save` of new entities that name their whole primary key: it looks for their
rows, inserts the ones it does not find and updates the others. -/
def saveParticipants (c : Conn) (ps : List NewParticipant) : App Unit := do
  let stored ← select c .participants fun r => ps.any fun p => p.isRow r
  let fresh := ps.filter fun p => !stored.any p.isRow
  onlyIf (!fresh.isEmpty) do
    let _ ← insertAll c .participants (fresh.map NewParticipant.row)
  ps.forM fun p =>
    onlyIf (stored.any fun r => p.isRow r && r.role != p.role) do
      let _ ← update c .participants p.isRow fun _ => setRole p.role

end Participants

def newConversation (orderId : Nat) (order : Order) (id now : Nat) : Conversation :=
  { id, orderId, status := .opened, subject := some (text "Commande " ++ order.externalRef),
    lastMessageAt := none, lastSequence := 0, createdAt := now, searchIndexed := false,
    searchIndexedAt := none, e2eeEnabled := false, e2eeEnabledAt := none }

def parties (conv : Conversation) (order : Order) : List NewParticipant :=
  [⟨conv.id, order.customerId, .customer⟩, ⟨conv.id, order.sellerId, .seller⟩]

def createForOrder (orderId actorId : Nat) (order : Order) : App Conversation := do
  let conv ← insertOne .tx .conversations (newConversation orderId order)
  saveParticipants .tx (parties conv order)
  audit (some actorId) "conversation.created" "conversation" (some conv.id)
    [("orderId", .id orderId), ("externalRef", .string order.externalRef)]
  return conv

/-- The body of the transaction: the loser of a race reads the winner's row. -/
def createOrRecover (orderId actorId : Nat) (order : Order) : App Conversation := do
  try createForOrder orderId actorId order
  catch e =>
    if e = .sql .uniqueViolation then
      match ← findOne .tx .conversations fun c => c.orderId == orderId with
      | some c => pure c
      | none => throw e
    else throw e

def getOrCreateForOrder (orderId actorId : Nat) : App Conversation := do
  let order ← getOrderOrThrow orderId
  match ← findOne .pool .conversations fun c => c.orderId == orderId with
  | some existing => return existing
  | none => transaction (createOrRecover orderId actorId order)

def getByIdOrThrow (id : Nat) : App Conversation := do
  match ← findOne .pool .conversations fun c => c.id == id with
  | some c => return c
  | none => throw (.notFound "Conversation introuvable")

/-- Support and admin users join the conversation they look at. -/
def assertCanAccess (user : AuthUser) (conversationId : Nat) : App (Conversation × Role) := do
  let conv ← getByIdOrThrow conversationId
  match ← findOne .pool .participants fun p =>
      p.conversationId == conversationId && p.userId == user.sub && p.leftAt.isNone with
  | some participant => return (conv, participant.role)
  | none =>
    if user.role = .support ∨ user.role = .admin then
      saveParticipants .pool [⟨conversationId, user.sub, user.role⟩]
      audit (some user.sub) "conversation.support_joined" "conversation" (some conversationId)
        [("role", .role user.role)]
      return (conv, user.role)
    else throw (.forbidden "Vous n'êtes pas autorisé sur cette conversation")

def assertCanWrite (conversation : Conversation) : App Unit :=
  if conversation.status = .opened then return ()
  else throw (.conflict "Conversation fermée ou archivée")

def setLastMessage (sequence now : Nat) : schema.Assign .conversations :=
  ⟨fun (c : Conversation) => { c with lastMessageAt := some now, lastSequence := sequence },
    fun _ => rfl⟩

def bumpLastMessage (c : Conn) (conversationId sequence : Nat) : App Unit := do
  let _ ← update c .conversations (fun c => c.id == conversationId) (setLastMessage sequence)

def listParticipants (c : Conn) (conversationId : Nat) : App (List ConversationParticipant) :=
  select c .participants fun p => p.conversationId == conversationId

end Messageries.Backend
