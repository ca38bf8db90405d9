import Mathlib.Data.List.Sort
import Messageries.Backend.Conversations
import Messageries.Backend.Envelope

namespace Messageries.Backend

open Text Relational Database Crypto Concurrency Moderation

/-- A row without its ciphertext columns, with the body a reader sees. -/
structure DecryptedMessage where
  id : Nat
  conversationId : Nat
  senderId : Nat
  sequence : Nat
  body : Utf16
  bodyDekId : Option Utf16
  bodyAlg : Option String
  bodyFormat : String
  status : MessageStatus
  idempotencyKey : Option Utf16
  moderationFlags : Option (List Flag)
  moderationScore : Nat
  moderatedBy : Option Nat
  moderatedAt : Option Nat
  createdAt : Nat
  deletedAt : Option Nat
  deriving DecidableEq

section Realtime

/-- The API emits to the rooms itself unless the dedicated gateway does. -/
def broadcast (b : Broadcast) : App Unit := do
  let cfg ← settings
  if cfg.wsGatewayDedicated then return ()
  else perform (.emit b)

def publishMessageCreated (m : DecryptedMessage) : App Unit :=
  broadcast (.created m.id m.conversationId m.senderId m.sequence m.body m.createdAt)

def publishMessageDeleted (m : Message) : App Unit :=
  broadcast (.deleted m.id m.conversationId m.sequence)

def publishReadReceipt (conversationId userId : Nat) (uptoSequence : Utf16) : App Unit :=
  broadcast (.read conversationId userId uptoSequence)

end Realtime

section Decrypted

variable [AesGcm]

def hiddenText : Utf16 := text "[Message masqué par la modération]"

def bodyOf (m : Message) (knownPlain : Option Utf16) : App Utf16 :=
  if m.status = .deleted then return []
  else if m.status = .hidden then return hiddenText
  else
    match knownPlain with
    | some plain => return plain
    | none =>
      match m.body with
      | some body => return body
      | none =>
        match sealedBody m with
        | some payload => decrypt payload
        | none => return []

def withBody (m : Message) (body : Utf16) : DecryptedMessage :=
  { id := m.id, conversationId := m.conversationId, senderId := m.senderId, sequence := m.sequence,
    body, bodyDekId := m.bodyDekId, bodyAlg := m.bodyAlg, bodyFormat := m.bodyFormat,
    status := m.status, idempotencyKey := m.idempotencyKey, moderationFlags := m.moderationFlags,
    moderationScore := m.moderationScore, moderatedBy := m.moderatedBy,
    moderatedAt := m.moderatedAt, createdAt := m.createdAt, deletedAt := m.deletedAt }

def toDecrypted (m : Message) (knownPlain : Option Utf16) : App DecryptedMessage := do
  let body ← bodyOf m knownPlain
  return withBody m body

end Decrypted

section Send

variable [AesGcm]

structure SendMessageInput where
  conversationId : Nat
  senderId : Nat
  body : Utf16
  idempotencyKey : Option Utf16

/-- The columns that hold the text: in clear, or sealed. -/
structure BodyColumns where
  body : Option Utf16
  ciphertext : Option Bytes
  iv : Option Bytes
  tag : Option Bytes
  dekId : Option Utf16
  alg : Option String

def plainColumns (cleaned : Utf16) : BodyColumns :=
  ⟨some (sent cleaned), none, none, none, none, none⟩

def sealedColumns (e : EncryptedPayload) : BodyColumns :=
  ⟨none, some e.ciphertext, some e.iv, some e.tag, some e.dekId, some "aes-256-gcm"⟩

def bodyColumns (cfg : Settings) (cleaned : Utf16) : App BodyColumns := do
  if cfg.encryptMessageBody then
    let e ← encrypt cleaned
    return sealedColumns e
  else return plainColumns cleaned

def flagsColumn (scan : ScanResult) : Option (List Flag) :=
  if scan.flags.isEmpty then none else some scan.flags

def newMessage (input : SendMessageInput) (scan : ScanResult) (cols : BodyColumns)
    (sequence : Nat) (id now : Nat) : Message :=
  { id, conversationId := input.conversationId, senderId := input.senderId, sequence,
    body := cols.body, bodyCiphertext := cols.ciphertext, bodyDekId := cols.dekId,
    bodyAlg := cols.alg, bodyIv := cols.iv, bodyTag := cols.tag, bodyFormat := "plain_text",
    status := if 6 ≤ scan.score then .flagged else .sent,
    idempotencyKey := input.idempotencyKey.map sent, moderationFlags := flagsColumn scan,
    moderationScore := scan.score, moderatedBy := none, moderatedAt := none, createdAt := now,
    deletedAt := none }

def newReceipt (messageId userId : Nat) : MessageReceipt :=
  ⟨messageId, userId, none, none⟩

def saveReceipts (messageId : Nat) (users : List Nat) : App Unit := do
  onlyIf (!users.isEmpty) do
    let stored ← select .tx .receipts fun r => r.messageId == messageId && users.contains r.userId
    let fresh := users.filter fun u => !stored.any fun r => r.userId == u
    onlyIf (!fresh.isEmpty) do
      let _ ← insertAll .tx .receipts (fresh.map fun u _ _ => newReceipt messageId u)

def createdPayload (input : SendMessageInput) (scan : ScanResult) (msg : Message)
    (participants : List ConversationParticipant) : MessageCreated :=
  { messageId := msg.id, conversationId := input.conversationId, senderId := input.senderId,
    sequence := msg.sequence, createdAt := msg.createdAt, body := scan.cleaned,
    moderationFlags := flagsColumn scan,
    recipients := (participants.filter fun p => p.userId != input.senderId).map (·.userId) }

def newEvent (eventType : EventType) (aggregateId : Nat) (payload : Payload) (id now : Nat) :
    OutboxEvent :=
  { id, eventType, aggregateId, payload, processedAt := none, createdAt := now, attempts := 0,
    nextAttemptAt := now, lastError := none }

/-- The message a retry with the same key refers to. -/
def findExisting (input : SendMessageInput) : App (Option Message) :=
  match truthy input.idempotencyKey with
  | none => return none
  | some key => do
    onlyIf (key.contains 0) (parameter .tx (.error .badEncoding))
    findOne .tx .messages fun m =>
      m.conversationId == input.conversationId && m.senderId == input.senderId &&
        m.idempotencyKey == some (sent key)

/-- The statements of a send that stores a new message, under the lock of `conv`. -/
def storeMessage (input : SendMessageInput) (scan : ScanResult) (cols : BodyColumns)
    (conv : Conversation) : App Message := do
  let nextSeq := conv.lastSequence + 1
  let msg : Message ← insertOne .tx .messages (newMessage input scan cols nextSeq)
  let participants ← listParticipants .tx input.conversationId
  saveReceipts msg.id
    ((participants.filter fun p => p.userId != input.senderId && p.leftAt.isNone).map (·.userId))
  let _ ← insertOne .tx .outbox
    (newEvent .messageCreated input.conversationId
      (.created (createdPayload input scan msg participants)))
  bumpLastMessage .tx input.conversationId nextSeq
  onlyIf scan.hadSensitive
    (audit (some input.senderId) "message.sensitive_redacted" "message" (some msg.id)
      [("flags", .flags scan.flags), ("score", .number scan.score)])
  return msg

def sendInTransaction (input : SendMessageInput) (scan : ScanResult) (cols : BodyColumns) :
    App Message := do
  match (← lockRows .tx .conversations (fun _ c => c.id == input.conversationId) id).head? with
  | none => throw (.notFound "Conversation introuvable")
  | some conv =>
    onlyIf conv.e2eeEnabled (throw (.forbidden
      "Conversation E2EE : utiliser /e2ee/messages (le serveur ne déchiffre pas)"))
    assertCanWrite conv
    let part ← findOne .tx .participants fun p =>
      p.conversationId == input.conversationId && p.userId == input.senderId
    match part with
    | none => throw (.forbidden "Vous n'êtes pas participant")
    | some part =>
      onlyIf part.leftAt.isSome (throw (.forbidden "Vous n'êtes pas participant"))
      match ← findExisting input with
      | some existing => return existing
      | none => storeMessage input scan cols conv

def send (input : SendMessageInput) : App DecryptedMessage := do
  let cfg ← settings
  let trimmed := trim input.body
  onlyIf trimmed.isEmpty (throw (.forbidden "Message vide"))
  onlyIf (cfg.maxMessageLength < trimmed.length) (throw (.forbidden "Message trop long"))
  let scan := scan trimmed
  let cols ← bodyColumns cfg scan.cleaned
  let message ← transaction (sendInTransaction input scan cols)
  let decrypted ← toDecrypted message (some scan.cleaned)
  publishMessageCreated decrypted
  return decrypted

end Send

section List

variable [AesGcm]

/-- `parseInt(s, 10)`; `none` is NaN. -/
def parseInt (s : Utf16) : Option Int :=
  let s := s.dropWhile isSpace
  let (sign, rest) : Int × Utf16 :=
    match s with
    | 45 :: rest => (-1, rest)
    | 43 :: rest => (1, rest)
    | _ => (1, s)
  let digits := rest.takeWhile isDigit
  if digits.isEmpty then none else some (sign * digitsValue digits)

/-- The page a query asks for: TypeORM refuses NaN and leaves LIMIT 0 out, the
server refuses a negative LIMIT. -/
def page {α : Type} (limit : Option Int) (rows : List α) : Except Err (List α) :=
  match limit with
  | none => .error .unexpected
  | some n =>
    if n = 0 then .ok rows
    else if n < 0 then .error (.sql .invalidLimit)
    else .ok (rows.take n.toNat)

/-- `Math.min(limit ?? standard, most)` -/
def clamp (limit : Option Utf16) (standard most : Int) : Option Int :=
  match truthy limit with
  | none => some standard
  | some s => (parseInt s).map fun n => min n most

def orThrow {α : Type} : Except Err α → App α
  | .ok a => return a
  | .error e => throw e

def inConversation (conversationId : Nat) (p : Int → Bool) (m : Message) : Bool :=
  m.conversationId == conversationId && m.deletedAt.isNone && p m.sequence

def selectPage (conversationId : Nat) (p : Int → Bool) (descending : Bool) (limit : Option Int) :
    App (List Message) := do
  let rows : List Message ← select .pool .messages (inConversation conversationId p)
  let rows := rows.insertionSort fun a b => a.sequence ≤ b.sequence
  orThrow (page limit (if descending then rows.reverse else rows))

/-- `afterSequence` wins over `beforeSequence`. -/
def listRows (conversationId : Nat) (afterSequence beforeSequence : Option Utf16)
    (limit : Option Int) : App (List Message) :=
  match truthy afterSequence, truthy beforeSequence with
  | some s, _ => do
    let n ← parameter .pool (bigint s)
    selectPage conversationId (fun x => n < x) false limit
  | none, some s => do
    let n ← parameter .pool (bigint s)
    selectPage conversationId (fun x => x < n) true limit
  | none, none => selectPage conversationId (fun _ => true) true limit

def list (conversationId : Nat) (afterSequence beforeSequence limit : Option Utf16) :
    App (List DecryptedMessage) := do
  let rows ← listRows conversationId afterSequence beforeSequence (clamp limit 50 100)
  rows.mapM' fun m => toDecrypted m none

end List

section MarkRead

def setLastRead (n : Int) : schema.Assign .participants :=
  ⟨fun (r : ConversationParticipant) => { r with lastReadSequence := n }, fun _ => rfl⟩

def setRead (now : Nat) : schema.Assign .receipts :=
  ⟨fun (r : MessageReceipt) => { r with readAt := some now }, fun _ => rfl⟩

def unreadUpTo (conversationId userId : Nat) (n : Int) (db : Db) (r : MessageReceipt) : Bool :=
  r.userId == userId && r.readAt.isNone &&
    (db .messages).any fun (m : Message) =>
      m.id == r.messageId && m.conversationId == conversationId && (m.sequence : Int) ≤ n

def markRead (conversationId userId : Nat) (uptoSequence : Utf16) : App Unit := do
  transaction do
    let n ← parameter .tx (bigint uptoSequence)
    let _ ← update .tx .participants
      (fun p => p.conversationId == conversationId && p.userId == userId) fun _ => setLastRead n
    let _ ← updateWhere .tx .receipts (unreadUpTo conversationId userId n) setRead
    let _ ← insertOne .tx .outbox
      (newEvent .messageRead conversationId (.read conversationId userId uptoSequence))
  publishReadReceipt conversationId userId uptoSequence

end MarkRead

section SoftDelete

/-- `save(msg)` over the stored row. -/
def mergeMessage (entity stored : Message) : schema.Assign .messages :=
  ⟨fun (m : Message) =>
    { m with
      body := changed entity.body stored.body m.body
      bodyCiphertext := changed entity.bodyCiphertext stored.bodyCiphertext m.bodyCiphertext
      bodyDekId := changed entity.bodyDekId stored.bodyDekId m.bodyDekId
      bodyAlg := changed entity.bodyAlg stored.bodyAlg m.bodyAlg
      bodyIv := changed entity.bodyIv stored.bodyIv m.bodyIv
      bodyTag := changed entity.bodyTag stored.bodyTag m.bodyTag
      bodyFormat := changed entity.bodyFormat stored.bodyFormat m.bodyFormat
      status := changed entity.status stored.status m.status
      moderationFlags := changed entity.moderationFlags stored.moderationFlags m.moderationFlags
      moderationScore := changed entity.moderationScore stored.moderationScore m.moderationScore
      moderatedBy := changed entity.moderatedBy stored.moderatedBy m.moderatedBy
      moderatedAt := changed entity.moderatedAt stored.moderatedAt m.moderatedAt
      deletedAt := changed entity.deletedAt stored.deletedAt m.deletedAt },
    fun _ => rfl⟩

def saveMessage (entity : Message) : App Unit := do
  match ← findOne .pool .messages fun m => m.id == entity.id with
  | some stored =>
    let _ ← update .pool .messages (fun m => m.id == entity.id) fun _ => mergeMessage entity stored
  | none =>
    let _ ← insertAll .pool .messages [fun _ _ => entity]

def erased (m : Message) (t : Nat) : Message :=
  { m with status := .deleted, deletedAt := some t, body := none, bodyCiphertext := none,
           bodyIv := none, bodyTag := none, bodyDekId := none }

def softDelete (messageId actorId : Nat) : App Unit := do
  match ← findOne .pool .messages fun m => m.id == messageId with
  | none => throw (.notFound "Not Found")
  | some msg =>
    onlyIf (msg.senderId ≠ actorId)
      (throw (.forbidden "Vous ne pouvez supprimer que vos messages"))
    let t ← now
    let msg := erased msg t
    saveMessage msg
    audit (some actorId) "message.deleted" "message" (some messageId) []
    publishMessageDeleted msg

end SoftDelete

end Messageries.Backend
