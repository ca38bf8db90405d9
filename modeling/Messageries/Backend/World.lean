import Messageries.Concurrency.Machine
import Messageries.Crypto.LocalKms
import Messageries.Database.Entities

namespace Messageries.Backend

open Text Relational Database Crypto Concurrency

inductive Err
  | badRequest (message : String)
  | unauthorized (message : String)
  | forbidden (message : String)
  | notFound (message : String)
  | conflict (message : String)
  | sql (code : SqlState)
  | crypto
  | unexpected
  | fault
  deriving DecidableEq

structure Settings where
  encryptMessageBody : Bool
  maxMessageLength : Nat
  natsEnabled : Bool
  searchEnabled : Bool
  wsGatewayDedicated : Bool
  clamavEnabled : Bool
  maxAttachmentMb : Nat
  emailThrottleMinutes : Nat
  appUrl : Utf16
  jwtRefreshTtl : Nat

structure AuthUser where
  sub : Nat
  role : Role
  deriving DecidableEq

structure Welcome where
  targetUserId : Nat
  ciphertext : Bytes
  senderDeviceId : Utf16
  deriving DecidableEq

inductive ResolveAction
  | dismiss
  | hideMessage
  deriving DecidableEq

/-- A request with its user, or a batch of the outbox worker. -/
inductive Call
  | openByOrder (user : AuthUser) (orderId : Nat)
  | getOne (user : AuthUser) (conversationId : Nat)
  | send (user : AuthUser) (conversationId : Nat) (body : Utf16) (idempotencyKey : Option Utf16)
  | list (user : AuthUser) (conversationId : Nat) (afterSequence beforeSequence limit : Option Utf16)
  | markRead (user : AuthUser) (conversationId : Nat) (uptoSequence : Utf16)
  | softDelete (user : AuthUser) (conversationId messageId : Nat)
  | report (user : AuthUser) (messageId : Nat) (reason : Utf16) (details : Option Utf16)
  | resolve (user : AuthUser) (reportId : Nat) (action : ResolveAction)
  | presign (user : AuthUser) (conversationId : Nat) (filename mimeType : Utf16) (sizeBytes : Int)
  | finalize (user : AuthUser) (attachmentId : Nat)
  | download (user : AuthUser) (attachmentId : Nat)
  | publishKeyPackages (user : AuthUser) (deviceId cipherSuite : Utf16) (keyPackages : List Bytes)
      (ttlDays : Option Nat)
  | claimKeyPackage (user : AuthUser) (targetUserId : Nat) (cipherSuite : Utf16)
  | countKeyPackages (user : AuthUser) (cipherSuite : Utf16)
  | enableE2ee (user : AuthUser) (conversationId : Nat) (groupIdMls : Bytes) (cipherSuite : Utf16)
      (welcomeMessages : List Welcome)
  | sendMls (user : AuthUser) (conversationId : Nat) (senderDeviceId : Utf16) (kind : MlsKind)
      (epoch : Utf16) (ciphertext : Bytes) (targetUserId : Option Nat)
  | listMls (user : AuthUser) (conversationId : Nat) (afterSequence limit : Option Utf16)
  | enableSearch (user : AuthUser) (conversationId : Nat)
  | disableSearch (user : AuthUser) (conversationId : Nat)
  | exportData (user : AuthUser)
  | anonymize (user : AuthUser) (userId : Nat)
  | login (user : AuthUser)
  | refresh (token : Bytes)
  | logout (token : Bytes)
  | revokeAll (userId : Nat)
  | natsInit (worker : Nat)
  | processBatch (worker batchSize : Nat)
  deriving DecidableEq

inductive Broadcast
  | created (id conversationId senderId sequence : Nat) (body : Utf16) (createdAt : Nat)
  | deleted (id conversationId sequence : Nat)
  | read (conversationId userId : Nat) (uptoSequence : Utf16)

/-- A document of the search index. -/
structure Document where
  messageId : Nat
  conversationId : Nat
  sequence : Nat
  senderId : Nat
  createdAt : Nat
  content : Utf16
  participants : List Nat

/-- A mail of `notifyNewMessage`. Whom and what it is about, and the time the earlier ones were
counted at, are ghosts. -/
structure Mail where
  recipient : Utf16
  subject : Utf16
  text : Utf16
  userId : Nat
  conversationId : Nat
  messageId : Nat
  counted : Nat

/-- A mail that was handed over, and when. -/
structure Mailed where
  mail : Mail
  time : Nat

structure CachedDek where
  dekId : Utf16
  dek : Bytes
  expires : Nat

/-- What `onModuleInit` has set of the NATS client of a worker. -/
structure NatsClient where
  nc : Bool
  jsm : Bool
  js : Bool

/-- A message of the stream and the time it was accepted. -/
structure Published where
  type : EventType
  payload : Payload
  msgId : Nat
  time : Nat

inductive Stage
  | began
  | ended
  | failed
  deriving DecidableEq

/-- A ghost entry: how far process `process` got with an event. -/
structure Note where
  process : Nat
  event : Nat
  stage : Stage
  time : Nat
  deriving DecidableEq

/-- Everything the requests share.  `keyLog` is the history of the active keys
of the key service, `calls` that of the requests, `arrived` the length of the log when
they came in, and `notes` that of the workers. -/
structure World where
  store : State schema
  clock : Nat
  settings : Settings
  kms : LocalKmsProvider
  keyLog : List (Utf16 × Bytes)
  dekCache : List CachedDek
  documents : List Document
  nats : Nat → NatsClient
  streamExists : Bool
  stream : List Published
  broadcasts : List Broadcast
  mails : List Mailed
  objects : List (Utf16 × Nat)
  calls : Nat → Option Call
  arrived : Nat → Nat
  notes : List Note

inductive Op
  | begin
  | commit
  | rollback
  | query (c : Conn) (s : Stmt)
  | remove (t : Table) (q : Db → t.Row → Bool)
  | now
  | random (n : Nat)
  | settings
  | kms
  | cacheGet (dekId : Utf16)
  | cachePut (d : CachedDek)
  | index (d : Document)
  | unindex (conversationId : Nat)
  | connect (worker : Nat)
  | jetstreamManager (worker : Nat)
  | jetstream (worker : Nat)
  | streamInfo
  | streamAdd
  | natsEnabled (worker : Nat)
  | publish (type : EventType) (payload : Payload) (msgId : Nat)
  | note (event : Nat) (stage : Stage)
  | areOnline (users : List Nat)
  | mail (m : Mail)
  | emit (b : Broadcast)
  | presign (objectKey : Utf16)
  | head (objectKey : Utf16)
  | deleteObject (objectKey : Utf16)

def Op.Res : Op → Type
  | .query _ s => s.Out
  | .remove _ _ => Nat
  | .now => Nat
  | .random n => { b : Bytes // b.length = n }
  | .settings => Settings
  | .kms => LocalKmsProvider
  | .cacheGet _ => Option CachedDek
  | .natsEnabled _ => Bool
  | .areOnline _ => List Nat
  | .presign _ => Utf16
  | .head _ => Nat
  | _ => Unit

abbrev App := Prog Op Op.Res Err

/-- An operation on another server is lost before it, or after it was done. -/
inductive Fault
  | none
  | before
  | after
  deriving DecidableEq

/-- What an operation gets from outside: the fault, random bytes, the users the
presence server knows, and a signed URL. -/
structure Input where
  fault : Fault
  bytes : Nat → UInt8
  online : Nat → Bool
  url : Utf16

def Input.random (i : Input) (n : Nat) : { b : Bytes // b.length = n } :=
  ⟨(List.range n).map i.bytes, by simp⟩

namespace World

/-- `dekCache.set`, after `clear` on a cache that grew too large. -/
def cachePut (d : CachedDek) (w : World) : World :=
  let cache := if 5000 < w.dekCache.length then [] else w.dekCache
  { w with dekCache := d :: cache.filter fun c => c.dekId != d.dekId }

/-- `client.index` replaces the document of the same message. -/
def index (d : Document) (w : World) : World :=
  { w with documents := w.documents.filter (fun c => c.messageId != d.messageId) ++ [d] }

def unindex (conversationId : Nat) (w : World) : World :=
  { w with documents := w.documents.filter fun c => c.conversationId != conversationId }

/-- `this.nc = ..`, `this.jsm = ..` or `this.js = ..` -/
def assignNats (worker : Nat) (f : NatsClient → NatsClient) (w : World) : World :=
  { w with nats := Function.update w.nats worker (f (w.nats worker)) }

/-- `duplicate_window` -/
def duplicateWindowMs : Nat := 120000

/-- JetStream drops a message whose identifier it accepted within the window. -/
def publish (type : EventType) (payload : Payload) (msgId : Nat) (w : World) : World :=
  if w.stream.any fun e => e.msgId == msgId && decide (w.clock ≤ e.time + duplicateWindowMs) then w
  else { w with stream := w.stream ++ [⟨type, payload, msgId, w.clock⟩] }

/-- What another server does with a request: its effect, unless it is lost, and
its answer, unless the answer is lost. -/
def remote {α : Type} (i : Input) (r : Except Err α) (w w' : World) :
    Option (Except Err α × World) :=
  match i.fault with
  | .none => some (r, w')
  | .before => some (.error .fault, w)
  | .after => some (.error .fault, w')

/-- A connection that is not made sets nothing. -/
def attempt (i : Input) (w w' : World) : Option (Except Err Unit × World) :=
  match i.fault with
  | .none => some (.ok (), w')
  | _ => some (.error .fault, w)

def withStore (w : World) (st : State schema) : World := { w with store := st }

/-- One statement: a fault inside a transaction aborts it. -/
def query (p : Nat) (i : Input) (c : Conn) (s : Stmt) (w : World) :
    Option (Except Err s.Out × World) :=
  match i.fault, c with
  | .none, c =>
    (w.store.query p c w.clock s).map fun (r, st) => (r.mapError Err.sql, w.withStore st)
  | _, .tx => some (.error .fault, w.withStore (w.store.fail p))
  | .before, .pool => some (.error .fault, w)
  | .after, .pool =>
    (w.store.query p .pool w.clock s).map fun (_, st) => (.error .fault, w.withStore st)

def commit (p : Nat) (i : Input) (w : World) : Option (Except Err Unit × World) :=
  match i.fault with
  | .none =>
    let (r, st) := w.store.commit p
    some (r.mapError Err.sql, w.withStore st)
  | .before => some (.error .fault, w.withStore (w.store.rollback p))
  | .after => some (.error .fault, w.withStore (w.store.commit p).2)

def exec (p : Nat) (i : Input) : (o : Op) → World → Option (Except Err o.Res × World)
  | .begin, w =>
    let (r, st) := w.store.begin p w.clock
    remote i (r.mapError Err.sql) w (w.withStore st)
  | .commit, w => w.commit p i
  | .rollback, w => some (.ok (), w.withStore (w.store.rollback p))
  | .query c s, w => w.query p i c s
  | .remove t q, w =>
    match w.store.remove p t q with
    | some (n, st) => remote i (.ok n) w (w.withStore st)
    | none => none
  | .now, w => some (.ok w.clock, w)
  | .random n, w => some (.ok (i.random n), w)
  | .settings, w => some (.ok w.settings, w)
  | .kms, w => some (.ok w.kms, w)
  | .cacheGet dekId, w => some (.ok (w.dekCache.find? fun c => c.dekId == dekId), w)
  | .cachePut d, w => some (.ok (), w.cachePut d)
  | .index d, w => remote i (.ok ()) w (w.index d)
  | .unindex c, w => remote i (.ok ()) w (w.unindex c)
  | .connect n, w => attempt i w (w.assignNats n fun c => { c with nc := true })
  | .jetstreamManager n, w => attempt i w (w.assignNats n fun c => { c with jsm := true })
  | .jetstream n, w => some (.ok (), w.assignNats n fun c => { c with js := true })
  | .streamInfo, w => if w.streamExists then remote i (.ok ()) w w else some (.error .fault, w)
  | .streamAdd, w => remote i (.ok ()) w { w with streamExists := true }
  | .natsEnabled n, w => some (.ok (w.settings.natsEnabled && (w.nats n).js), w)
  | .publish t m id, w =>
    if w.streamExists then remote i (.ok ()) w (w.publish t m id) else some (.error .fault, w)
  | .note e s, w => some (.ok (), { w with notes := w.notes ++ [⟨p, e, s, w.clock⟩] })
  | .areOnline users, w => remote i (.ok (users.filter i.online)) w w
  | .mail m, w => remote i (.ok ()) w { w with mails := w.mails ++ [⟨m, w.clock⟩] }
  | .emit b, w => some (.ok (), { w with broadcasts := w.broadcasts ++ [b] })
  | .presign _, w => some (.ok i.url, w)
  | .head key, w =>
    match w.objects.find? fun o => o.1 == key with
    | some o => remote i (.ok o.2) w w
    | none => some (.error .fault, w)
  | .deleteObject key, w =>
    remote i (.ok ()) w { w with objects := w.objects.filter fun o => o.1 != key }

end World

/-- What happens outside every request. -/
inductive Event
  | tick (ms : Nat)
  | configure (s : Settings)
  | rotateKeys (kms : LocalKmsProvider)
  | evict (dekIds : List Utf16)
  | upload (objectKey : Utf16) (size : Nat)

namespace World

/-- A new set of keys keeps every key that was active before. -/
def KeepsKeys (log : List (Utf16 × Bytes)) (kms : LocalKmsProvider) : Prop :=
  ∀ e ∈ log, lookup kms.keys e.1 = some e.2

instance (log : List (Utf16 × Bytes)) (kms : LocalKmsProvider) : Decidable (KeepsKeys log kms) :=
  inferInstanceAs (Decidable (∀ e ∈ log, _))

def event : Event → World → Option World
  | .tick ms, w => some { w with clock := w.clock + ms }
  | .configure s, w => some { w with settings := s }
  | .rotateKeys kms, w =>
    if KeepsKeys w.keyLog kms then
      some { w with
        kms := kms
        keyLog := if (kms.active, kms.activeKey) ∈ w.keyLog then w.keyLog
          else w.keyLog ++ [(kms.active, kms.activeKey)] }
    else none
  | .evict ids, w => some { w with dekCache := w.dekCache.filter fun c => !ids.contains c.dekId }
  | .upload key size, w =>
    some { w with objects := w.objects.filter (fun o => o.1 != key) ++ [(key, size)] }

/-- Every request has a number of its own. -/
def enter (p : Nat) (k : Call) (w : World) : Option World :=
  match w.calls p with
  | none => some { w with
      calls := Function.update w.calls p (some k)
      arrived := Function.update w.arrived p w.store.wal.length }
  | some _ => none

/-- A process that stops loses its connection, and its transaction with it. -/
def lose (p : Nat) (w : World) : World := w.withStore (w.store.rollback p)

end World

end Messageries.Backend
