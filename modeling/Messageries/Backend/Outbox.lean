import Messageries.Backend.Search

namespace Messageries.Backend

open Text Relational Database Crypto Concurrency Moderation

section Notifications

def dedupKey (messageId userId : Nat) : String := s!"new_message:{messageId}:{userId}"

def newNotification (messageId userId conversationId : Nat) (id now : Nat) : EmailNotification :=
  { id, userId, conversationId, kind := "new_message", sentAt := now,
    dedupKey := dedupKey messageId userId }

def newMessageMail (cfg : Settings) (user : User) (conv : Conversation) (messageId counted : Nat) :
    Mail :=
  let subject := conv.subject.getD (text "votre commande")
  { recipient := user.email
    subject := text "Nouveau message — " ++ subject
    text := text "Bonjour,\n\nVous avez reçu un nouveau message concernant " ++ subject ++
      text ".\nConnectez-vous : " ++ cfg.appUrl ++ text s!"/conversations/{conv.id}" ++
      text "\n\n— L'équipe"
    userId := user.id
    conversationId := conv.id
    messageId, counted }

/-- A user who already has the mail of this message does not stop the others. -/
def sendMail (messageId : Nat) (conv : Conversation) (user : User) (cfg : Settings)
    (counted : Nat) : App Unit := do
  try
    perform (.mail (newMessageMail cfg user conv messageId counted))
    let _ ← insertOne .pool .emails (newNotification messageId user.id conv.id)
  catch e =>
    if e = .sql .uniqueViolation then pure () else throw e

def notifyUser (messageId : Nat) (conv : Conversation) (user : User) : App Unit := do
  if user.isSuspended || user.anonymizedAt.isSome then return ()
  else
    let cfg ← settings
    let t ← now
    let recent ← select .pool .emails fun e =>
      e.userId == user.id && e.conversationId == conv.id && e.kind == "new_message" &&
        decide (t < e.sentAt + cfg.emailThrottleMinutes * 60000)
    onlyIf (recent.length = 0) (sendMail messageId conv user cfg t)

def notifyNewMessage (messageId conversationId : Nat) (recipientIds : List Nat) : App Unit := do
  let recipients ← select .pool .users fun u => recipientIds.contains u.id
  match ← findOne .pool .conversations fun c => c.id == conversationId with
  | none => return ()
  | some conv => recipients.forM (notifyUser messageId conv)

end Notifications

section Nats

/-- `ensureStream` -/
def ensureStream : App Unit := do
  try perform .streamInfo
  catch _ => perform .streamAdd

/-- `NatsService.onModuleInit` of a worker; a failure is only logged. -/
def natsInit (worker : Nat) : App Unit := do
  let cfg ← settings
  onlyIf cfg.natsEnabled do
    try
      perform (.connect worker)
      perform (.jetstreamManager worker)
      perform (.jetstream worker)
      ensureStream
    catch _ => pure ()

end Nats

section Worker

def onMessageCreated (m : MessageCreated) : App Unit := do
  if m.recipients.isEmpty then return ()
  else
    let online : List Nat ← perform (.areOnline m.recipients)
    let offline := m.recipients.filter fun r => !online.contains r
    onlyIf (!offline.isEmpty) (notifyNewMessage m.messageId m.conversationId offline)

def indexCreated (m : MessageCreated) : App Unit := do
  try
    indexMessageIfEnabled
      ⟨m.messageId, m.conversationId, m.sequence, m.senderId, m.createdAt, m.body,
        m.senderId :: m.recipients⟩
  catch _ => pure ()

def handle (worker outboxId : Nat) (type : EventType) (payload : Payload) : App Unit := do
  let enabled : Bool ← perform (.natsEnabled worker)
  onlyIf enabled (perform (.publish type payload outboxId))
  match payload with
  | .created m =>
    onMessageCreated m
    indexCreated m
  | .read _ _ _ => return ()

def setProcessed (now : Nat) : schema.Assign .outbox :=
  ⟨fun (e : OutboxEvent) => { e with processedAt := some now, lastError := none }, fun _ => rfl⟩

def setFailed (attempts backoffSec : Nat) (error : String) (now : Nat) : schema.Assign .outbox :=
  ⟨fun (e : OutboxEvent) =>
    { e with attempts, nextAttemptAt := now + backoffSec * 1000, lastError := some error },
    fun _ => rfl⟩

def Err.message : Err → String
  | .badRequest m | .unauthorized m | .forbidden m | .notFound m | .conflict m => m
  | .sql _ => "query failed"
  | .crypto => "Unsupported state or unable to authenticate data"
  | .unexpected => "TypeError"
  | .fault => "Connection terminated"

/-- The notes record what becomes of the event, and nothing reads them. -/
def handleRow (worker : Nat) (row : OutboxEvent) : App Unit := do
  try
    perform (.note row.id .began)
    handle worker row.id row.eventType row.payload
    perform (.note row.id .ended)
    let _ ← update .tx .outbox (fun e => e.id == row.id) setProcessed
  catch e =>
    perform (.note row.id .failed)
    let attempts := row.attempts + 1
    let backoffSec := min 3600 (2 ^ attempts)
    let _ ← update .tx .outbox (fun e => e.id == row.id) (setFailed attempts backoffSec e.message)

def due (now : Nat) (e : OutboxEvent) : Bool := e.processedAt.isNone && e.nextAttemptAt ≤ now

def firstCreated (batchSize : Nat) (es : List OutboxEvent) : List OutboxEvent :=
  (es.insertionSort fun a b => a.createdAt ≤ b.createdAt).take batchSize

def processBatch (worker batchSize : Nat) : App Nat :=
  transaction do
    let rows ← lockSkipLocked .tx .outbox due (firstCreated batchSize)
    rows.forM (handleRow worker)
    return rows.length

end Worker

end Messageries.Backend
