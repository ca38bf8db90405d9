import Mathlib.Algebra.Group.Int.Defs
import Mathlib.Algebra.Group.Nat.Defs
import Messageries.Moderation.ContentScanner
import Messageries.Relational.Store
import Messageries.Text.Utf8

namespace Messageries.Database

open Text Relational Moderation

inductive SqlState
  | uniqueViolation
  | inFailedTransaction
  | noActiveTransaction
  | stringTooLong
  | badEncoding
  | badJson
  | invalidText
  | outOfRange
  | invalidLimit
  deriving DecidableEq

instance : ServerError SqlState := ⟨.uniqueViolation, .inFailedTransaction, .noActiveTransaction⟩

section Columns

/-- Text as the driver sends it: a surrogate without its partner is lost. -/
def sent (s : Utf16) : Utf16 := encode (decode s)

/-- A `text` column, or a `varchar(n)` one. -/
def checkText (limit : Option Nat) (s : Utf16) : Option SqlState :=
  if s.contains 0 then some .badEncoding
  else if limit.any fun n => n < (decode s).length then some .stringTooLong
  else none

/-- A string inside a `jsonb` column. -/
def checkJson (s : Utf16) : Option SqlState :=
  if s.contains 0 || !decide (WellFormed s) then some .badJson else none

def checkBigint (n : Int) : Option SqlState :=
  if -2 ^ 63 ≤ n ∧ n < 2 ^ 63 then none else some .outOfRange

def digitsValue (s : Utf16) : Nat := s.foldl (fun n u => 10 * n + (u.toNat - 48)) 0

/-- `$1::bigint` of a decimal string. -/
def bigint (s : Utf16) : Except SqlState Int :=
  let s := trim s
  let (sign, digits) : Int × Utf16 :=
    match s with
    | 45 :: rest => (-1, rest)
    | 43 :: rest => (1, rest)
    | _ => (1, s)
  if digits.isEmpty || !digits.all isDigit then .error .invalidText
  else
    let n := sign * digitsValue digits
    match checkBigint n with
    | some e => .error e
    | none => .ok n

end Columns

inductive Role
  | customer
  | seller
  | support
  | admin
  deriving DecidableEq

structure User where
  id : Nat
  email : Utf16
  passwordHash : Utf16
  role : Role
  displayName : Option Utf16
  mfaSecret : Option Utf16
  isSuspended : Bool
  anonymizedAt : Option Nat
  dataExportRequestedAt : Option Nat
  createdAt : Nat

structure Order where
  id : Nat
  externalRef : Utf16
  customerId : Nat
  sellerId : Nat

inductive ConversationStatus
  | opened
  | closed
  | archived
  deriving DecidableEq

structure Conversation where
  id : Nat
  orderId : Nat
  status : ConversationStatus
  subject : Option Utf16
  lastMessageAt : Option Nat
  lastSequence : Nat
  createdAt : Nat
  searchIndexed : Bool
  searchIndexedAt : Option Nat
  e2eeEnabled : Bool
  e2eeEnabledAt : Option Nat

structure ConversationParticipant where
  conversationId : Nat
  userId : Nat
  role : Role
  joinedAt : Nat
  leftAt : Option Nat
  lastReadSequence : Int

inductive MessageStatus
  | sent
  | deleted
  | hidden
  | flagged
  deriving DecidableEq

structure Message where
  id : Nat
  conversationId : Nat
  senderId : Nat
  sequence : Nat
  body : Option Utf16
  bodyCiphertext : Option Bytes
  bodyDekId : Option Utf16
  bodyAlg : Option String
  bodyIv : Option Bytes
  bodyTag : Option Bytes
  bodyFormat : String
  status : MessageStatus
  idempotencyKey : Option Utf16
  moderationFlags : Option (List Flag)
  moderationScore : Nat
  moderatedBy : Option Nat
  moderatedAt : Option Nat
  createdAt : Nat
  deletedAt : Option Nat
  deriving DecidableEq

structure MessageReceipt where
  messageId : Nat
  userId : Nat
  deliveredAt : Option Nat
  readAt : Option Nat

inductive EventType
  | messageCreated
  | messageRead
  deriving DecidableEq

structure MessageCreated where
  messageId : Nat
  conversationId : Nat
  senderId : Nat
  sequence : Nat
  createdAt : Nat
  body : Utf16
  moderationFlags : Option (List Flag)
  recipients : List Nat
  deriving DecidableEq

inductive Payload
  | created (m : MessageCreated)
  | read (conversationId userId : Nat) (uptoSequence : Utf16)
  deriving DecidableEq

structure OutboxEvent where
  id : Nat
  eventType : EventType
  aggregateId : Nat
  payload : Payload
  processedAt : Option Nat
  createdAt : Nat
  attempts : Nat
  nextAttemptAt : Nat
  lastError : Option String

inductive Json
  | null
  | number (n : Nat)
  | string (s : Utf16)
  | id (n : Nat)
  | role (r : Role)
  | flags (fs : List Flag)

structure AuditLog where
  id : Nat
  actorId : Option Nat
  action : String
  targetType : String
  targetId : Option Nat
  metadata : List (String × Json)
  createdAt : Nat

inductive ReportStatus
  | opened
  | dismissed
  | actioned
  deriving DecidableEq

structure MessageReport where
  id : Nat
  messageId : Nat
  reporterId : Nat
  reason : Utf16
  details : Option Utf16
  status : ReportStatus
  resolvedBy : Option Nat
  resolvedAt : Option Nat
  createdAt : Nat

inductive ScanStatus
  | pending
  | clean
  | infected
  | failed
  deriving DecidableEq

structure Attachment where
  id : Nat
  conversationId : Nat
  uploaderId : Nat
  objectKey : Utf16
  originalFilename : Utf16
  mimeType : Utf16
  sizeBytes : Int
  scanStatus : ScanStatus
  createdAt : Nat

structure EmailNotification where
  id : Nat
  userId : Nat
  conversationId : Option Nat
  kind : String
  sentAt : Nat
  dedupKey : String

structure MlsKeyPackage where
  id : Nat
  userId : Nat
  deviceId : Utf16
  cipherSuite : Utf16
  keyPackage : Bytes
  consumedAt : Option Nat
  consumedBy : Option Nat
  expiresAt : Nat
  createdAt : Nat

structure MlsGroup where
  id : Nat
  conversationId : Nat
  groupIdMls : Bytes
  cipherSuite : Utf16
  epoch : Nat
  createdBy : Nat
  createdAt : Nat

inductive MlsKind
  | welcome
  | commit
  | application
  | proposal
  | groupInfo
  deriving DecidableEq

structure MlsMessage where
  id : Nat
  groupId : Nat
  senderUserId : Nat
  senderDeviceId : Utf16
  kind : MlsKind
  epoch : Int
  sequence : Nat
  targetUserId : Option Nat
  ciphertext : Bytes
  createdAt : Nat

structure RefreshToken where
  id : Nat
  userId : Nat
  tokenHash : Bytes
  parentId : Option Nat
  expiresAt : Nat
  revokedAt : Option Nat
  revokedReason : Option String
  createdAt : Nat

inductive Table
  | users
  | orders
  | conversations
  | participants
  | messages
  | receipts
  | outbox
  | audit
  | reports
  | attachments
  | emails
  | keyPackages
  | groups
  | mlsMessages
  | refreshTokens
  deriving DecidableEq

inductive Key
  | id (n : Nat)
  | pair (a b : Nat)
  | order (n : Nat)
  | sequence (owner n : Nat)
  | idempotency (conversationId senderId : Nat) (key : Utf16)
  | dedup (key : String)
  | conversation (n : Nat)
  | hash (h : Bytes)
  deriving DecidableEq

@[reducible] def Table.Row : Table → Type
  | .users => User
  | .orders => Order
  | .conversations => Conversation
  | .participants => ConversationParticipant
  | .messages => Message
  | .receipts => MessageReceipt
  | .outbox => OutboxEvent
  | .audit => AuditLog
  | .reports => MessageReport
  | .attachments => Attachment
  | .emails => EmailNotification
  | .keyPackages => MlsKeyPackage
  | .groups => MlsGroup
  | .mlsMessages => MlsMessage
  | .refreshTokens => RefreshToken

def primaryKey : (t : Table) → t.Row → Key
  | .users, (r : User) => .id r.id
  | .orders, (r : Order) => .id r.id
  | .conversations, (r : Conversation) => .id r.id
  | .participants, (r : ConversationParticipant) => .pair r.conversationId r.userId
  | .messages, (r : Message) => .id r.id
  | .receipts, (r : MessageReceipt) => .pair r.messageId r.userId
  | .outbox, (r : OutboxEvent) => .id r.id
  | .audit, (r : AuditLog) => .id r.id
  | .reports, (r : MessageReport) => .id r.id
  | .attachments, (r : Attachment) => .id r.id
  | .emails, (r : EmailNotification) => .id r.id
  | .keyPackages, (r : MlsKeyPackage) => .id r.id
  | .groups, (r : MlsGroup) => .id r.id
  | .mlsMessages, (r : MlsMessage) => .id r.id
  | .refreshTokens, (r : RefreshToken) => .id r.id

/-- The keys of the unique indexes; idx_msg_idem leaves out the rows without a key. -/
def uniqueKeys : (t : Table) → t.Row → List Key
  | .conversations, (r : Conversation) => [.order r.orderId]
  | .messages, (r : Message) =>
    .sequence r.conversationId r.sequence ::
      (r.idempotencyKey.map (Key.idempotency r.conversationId r.senderId)).toList
  | .emails, (r : EmailNotification) => [.dedup r.dedupKey]
  | .groups, (r : MlsGroup) => [.conversation r.conversationId]
  | .mlsMessages, (r : MlsMessage) => [.sequence r.groupId r.sequence]
  | .refreshTokens, (r : RefreshToken) => [.hash r.tokenHash]
  | _, _ => []

def Payload.check : Payload → Option SqlState
  | .created m => checkJson m.body
  | .read _ _ upto => checkJson upto

def Json.check : Json → Option SqlState
  | .string s => checkJson s
  | _ => none

def checkRow : (t : Table) → t.Row → Option SqlState
  | .conversations, (r : Conversation) =>
    r.subject.bind (checkText (some 200)) <|> checkBigint r.lastSequence
  | .participants, (r : ConversationParticipant) => checkBigint r.lastReadSequence
  | .messages, (r : Message) =>
    checkBigint r.sequence <|> r.body.bind (checkText none) <|>
      r.bodyDekId.bind (checkText (some 128)) <|> r.idempotencyKey.bind (checkText (some 128))
  | .outbox, (r : OutboxEvent) => r.payload.check
  | .audit, (r : AuditLog) => r.metadata.findSome? fun p => p.2.check
  | .reports, (r : MessageReport) =>
    checkText (some 64) r.reason <|> r.details.bind (checkText none)
  | .attachments, (r : Attachment) =>
    checkText none r.objectKey <|> checkText (some 255) r.originalFilename <|>
      checkText (some 128) r.mimeType <|> checkBigint r.sizeBytes
  | .keyPackages, (r : MlsKeyPackage) =>
    checkText (some 64) r.deviceId <|> checkText (some 64) r.cipherSuite
  | .groups, (r : MlsGroup) => checkText (some 64) r.cipherSuite <|> checkBigint r.epoch
  | .mlsMessages, (r : MlsMessage) =>
    checkText (some 64) r.senderDeviceId <|> checkBigint r.epoch <|> checkBigint r.sequence
  | _, _ => none

/-- The tables after every migration. -/
abbrev schema : Schema Table Key SqlState where
  Row := Table.Row
  key := primaryKey
  others := uniqueKeys
  check := checkRow

abbrev Stmt := schema.Stmt

abbrev Db := schema.Db

end Messageries.Database
