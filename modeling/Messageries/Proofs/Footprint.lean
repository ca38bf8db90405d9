import Messageries.Proofs.Services

set_option linter.unusedSectionVars false

/-! What each call may journal, emit and index. -/

namespace Messageries.Proofs

open Text Relational Database Crypto Concurrency Backend Moderation

section Footprint

/-- The user who makes the call. -/
def caller : Call → Option AuthUser
  | .openByOrder u _ | .getOne u _ | .send u _ _ _ | .list u _ _ _ _ | .markRead u _ _
  | .softDelete u _ _ | .report u _ _ _ | .resolve u _ _ | .presign u _ _ _ _ | .finalize u _
  | .download u _ | .publishKeyPackages u _ _ _ _ | .claimKeyPackage u _ _
  | .countKeyPackages u _ | .enableE2ee u _ _ _ _ | .sendMls u _ _ _ _ _ _ | .listMls u _ _ _
  | .enableSearch u _ | .disableSearch u _ | .exportData u | .anonymize u _ | .login u => some u
  | .refresh _ | .logout _ | .revokeAll _ | .natsInit _ | .processBatch _ _ => none

/-- The calls that check the access to a conversation. -/
def Visiting : Call → Prop
  | .getOne _ _ | .send _ _ _ _ | .list _ _ _ _ _ | .markRead _ _ _ | .softDelete _ _ _
  | .presign _ _ _ _ _ | .download _ _ | .enableE2ee _ _ _ _ _ | .sendMls _ _ _ _ _ _ _
  | .listMls _ _ _ _ | .enableSearch _ _ | .disableSearch _ _ => True
  | _ => False

/-- The actions the call may journal. -/
inductive Logs : Call → String → Prop
  | opened {u : AuthUser} {order : Nat} : Logs (.openByOrder u order) "conversation.created"
  | joined {k : Call} {u : AuthUser} : caller k = some u → u.role = .support ∨ u.role = .admin →
      Visiting k → Logs k "conversation.support_joined"
  | redacted {u : AuthUser} {c : Nat} {body : Utf16} {key : Option Utf16} :
      Logs (.send u c body key) "message.sensitive_redacted"
  | deleted {u : AuthUser} {c m : Nat} : Logs (.softDelete u c m) "message.deleted"
  | reported {u : AuthUser} {m : Nat} {reason : Utf16} {details : Option Utf16} :
      Logs (.report u m reason details) "message.reported"
  | resolved {u : AuthUser} {r : Nat} {action : ResolveAction} :
      u.role = .support ∨ u.role = .admin → Logs (.resolve u r action) action.auditName
  | encrypted {u : AuthUser} {c : Nat} {gid : Bytes} {suite : Utf16} {ws : List Welcome} :
      Logs (.enableE2ee u c gid suite ws) "e2ee.enabled"
  | indexed {u : AuthUser} {c : Nat} : Logs (.enableSearch u c) "search.enabled"
  | unindexed {u : AuthUser} {c : Nat} : Logs (.disableSearch u c) "search.disabled"
  | exported {u : AuthUser} : Logs (.exportData u) "privacy.exported"
  | anonymized {u : AuthUser} {user : Nat} : user = u.sub ∨ u.role = .admin →
      Logs (.anonymize u user) "privacy.anonymized"

/-- The entry names the user of the call, and an action the call may journal. -/
def Entry (k : Call) (r : AuditLog) : Prop :=
  ∃ u, caller k = some u ∧ r.actorId = some u.sub ∧ Logs k r.action

/-- The call may emit this. -/
def Emits : Call → Broadcast → Prop
  | .send _ _ _ _, .created _ _ _ _ _ _ => True
  | .markRead u c n, b => b = .read c u.sub n
  | .softDelete _ _ _, .deleted _ _ _ => True
  | _, _ => False

/-- The calls that write to the index. -/
def MayIndex : Call → Prop
  | .enableSearch _ _ | .processBatch _ _ => True
  | _ => False

/-- The operations of the call. -/
def Footprint (k : Call) : Op → Prop
  | .query c (.insert .audit make) => c = .pool ∧ ∀ f ∈ make, ∀ id now, Entry k (f id now)
  | .index _ => MayIndex k
  | .emit b => Emits k b
  | _ => True

/-- Operations that neither journal, nor emit, nor index. -/
def Plain : Op → Prop
  | .query _ (.insert .audit _) => False
  | .index _ => False
  | .emit _ => False
  | _ => True

theorem Plain.footprint {o : Op} (h : Plain o) (k : Call) : Footprint k o := by
  unfold Plain at h
  unfold Footprint
  split at h
  · exact h.elim
  · exact h.elim
  · exact h.elim
  · trivial

end Footprint

section Plain

theorem plain_refuse {c : Prop} [Decidable c] {e : Err} : (onlyIf c (throw e)).Uses Plain :=
  any_onlyIf trivial

theorem plain_now : now.Uses Plain := (Prog.uses_perform _).2 trivial

theorem plain_settings : settings.Uses Plain := (Prog.uses_perform _).2 trivial

theorem plain_update {c : Conn} {t : Table} {q : t.Row → Bool} {f : Nat → schema.Assign t} :
    (update c t q f).Uses Plain :=
  (Prog.uses_perform _).2 trivial

theorem plain_random (n : Nat) : (perform (.random n)).Uses Plain := (Prog.uses_perform _).2 trivial

theorem any_transaction {P : Op → Prop} {α : Type} {x : App α} (hb : P .begin) (hc : P .commit)
    (hr : P .rollback) (hx : x.Uses P) : (transaction x).Uses P := by
  refine Prog.Uses.tryCatch (((Prog.uses_perform _).2 hb).bind fun _ => hx.bind fun _ => ?_)
    fun _ => ((Prog.uses_perform _).2 hr).bind fun _ => trivial
  exact ((Prog.uses_perform _).2 hc).bind fun _ => trivial

theorem plain_transaction {α : Type} {x : App α} (hx : x.Uses Plain) : (transaction x).Uses Plain :=
  any_transaction trivial trivial trivial hx

theorem plain_parameter {α : Type} (c : Conn) (x : Except SqlState α) :
    (parameter c x).Uses Plain := by
  cases x with
  | ok a => trivial
  | error e => exact ((Prog.uses_perform _).2 trivial).bind fun _ => trivial

theorem plain_orThrow {α : Type} (x : Except Err α) : (orThrow x).Uses Plain := by
  cases x <;> trivial

theorem plain_mapM {α β : Type} {xs : List α} {f : α → App β} (hf : ∀ x, (f x).Uses Plain) :
    (xs.mapM' f).Uses Plain := by
  induction xs with
  | nil => trivial
  | cons x xs ih => exact (hf x).bind fun _ => ih.bind fun _ => trivial

variable [AesGcm] [TokenHash]

theorem plain_unwrap (dekId : Utf16) : (unwrap dekId).Uses Plain := by
  have asks : (unwrapWithKms dekId).Uses Plain := by
    unfold unwrapWithKms
    split
    · refine ((Prog.uses_perform _).2 trivial).bind fun kms => ?_
      split
      · exact plain_now.bind fun _ => ((Prog.uses_perform _).2 trivial).bind fun _ => trivial
      · trivial
    · trivial
  refine ((Prog.uses_perform _).2 trivial).bind fun (cached : Option CachedDek) =>
    plain_now.bind fun t => ?_
  cases cached with
  | none => exact asks
  | some c => exact .ite (fun _ => trivial) fun _ => asks

theorem plain_decrypt (payload : EncryptedPayload) : (decrypt payload).Uses Plain := by
  refine (plain_unwrap _).bind fun dek => ?_
  cases AesGcm.decrypt dek payload.iv payload.tag payload.ciphertext <;> trivial

theorem plain_decryptOrEmpty (m : Message) : (decryptOrEmpty m).Uses Plain := by
  unfold decryptOrEmpty
  split
  · trivial
  · split
    · trivial
    · exact (plain_decrypt _).tryCatch fun _ => trivial

theorem plain_toDecrypted (m : Message) (knownPlain : Option Utf16) :
    (toDecrypted m knownPlain).Uses Plain := by
  refine Prog.Uses.bind (.ite (fun _ => trivial) fun _ => .ite (fun _ => trivial) fun _ => ?_)
    fun _ => trivial
  cases knownPlain with
  | some t => trivial
  | none =>
    dsimp only
    split
    · trivial
    · split
      · exact plain_decrypt _
      · trivial

theorem plain_list (conversationId : Nat) (afterSequence beforeSequence limit : Option Utf16) :
    (list conversationId afterSequence beforeSequence limit).Uses Plain := by
  have page : ∀ q d l, (selectPage conversationId q d l).Uses Plain := fun q d l =>
    (any_select trivial).bind fun _ => plain_orThrow _
  refine Prog.Uses.bind ?_ fun rows => plain_mapM fun m => plain_toDecrypted m none
  unfold listRows
  split
  · exact (plain_parameter ..).bind fun n => page _ _ _
  · exact (plain_parameter ..).bind fun n => page _ _ _
  · exact page _ _ _

theorem plain_bodyColumns (cfg : Settings) (t : Utf16) : (bodyColumns cfg t).Uses Plain := by
  refine .ite (fun _ => ?_) fun _ => trivial
  refine Prog.Uses.bind (Prog.Uses.bind ?_ fun _ => ?_) fun _ => trivial
  · exact ((Prog.uses_perform _).2 trivial).bind fun _ => (plain_random 32).bind fun _ =>
      (plain_random 12).bind fun _ => trivial
  · exact (plain_random 12).bind fun _ => trivial

theorem plain_findExisting (input : SendMessageInput) : (findExisting input).Uses Plain := by
  unfold findExisting
  split
  · trivial
  · exact (any_onlyIf (plain_parameter ..)).bind fun _ => any_findOne trivial

theorem plain_saveReceipts (messageId : Nat) (users : List Nat) :
    (saveReceipts messageId users).Uses Plain :=
  any_onlyIf ((any_select trivial).bind fun _ =>
    any_onlyIf (((Prog.uses_perform _).2 trivial).bind fun _ => trivial))

theorem plain_markReadInTransaction (conversationId userId : Nat) (uptoSequence : Utf16) :
    (transaction do
      let n ← parameter .tx (bigint uptoSequence)
      let _ ← update .tx .participants
        (fun p => p.conversationId == conversationId && p.userId == userId) fun _ => setLastRead n
      let _ ← updateWhere .tx .receipts (unreadUpTo conversationId userId n) setRead
      let _ ← insertOne .tx .outbox
        (newEvent .messageRead conversationId (.read conversationId userId uptoSequence)) :
      App Unit).Uses Plain :=
  plain_transaction ((plain_parameter ..).bind fun _ => plain_update.bind fun _ =>
    ((Prog.uses_perform _).2 trivial).bind fun _ => (any_insertOne trivial).bind fun _ => trivial)

theorem plain_saveMessage (m : Message) : (saveMessage m).Uses Plain := by
  refine (any_findOne trivial).bind fun o => ?_
  cases o with
  | none => exact ((Prog.uses_perform _).2 trivial).bind fun _ => trivial
  | some stored => exact plain_update.bind fun _ => trivial

theorem plain_saveReport (r : MessageReport) : (saveReport r).Uses Plain := by
  refine (any_findOne trivial).bind fun o => ?_
  cases o with
  | none => exact ((Prog.uses_perform _).2 trivial).bind fun _ => trivial
  | some stored => exact plain_update.bind fun _ => trivial

theorem plain_saveParticipants (c : Conn) (ps : List NewParticipant) :
    (saveParticipants c ps).Uses Plain := by
  refine (any_select trivial).bind fun stored => Prog.Uses.bind (any_onlyIf ?_) fun _ =>
    .forM fun n => any_onlyIf (plain_update.bind fun _ => trivial)
  exact ((Prog.uses_perform _).2 trivial).bind fun _ => trivial

theorem plain_revokeWhere (q : RefreshToken → Bool) (reason : String) :
    (revokeWhere q reason).Uses Plain :=
  plain_now.bind fun _ => plain_update.bind fun _ => trivial

theorem plain_issue (userId : Nat) (parentId : Option Nat) : (issue userId parentId).Uses Plain :=
  plain_settings.bind fun _ => (plain_random 48).bind fun _ => plain_now.bind fun _ =>
    (any_insertOne trivial).bind fun _ => trivial

theorem plain_saveToken (r : RefreshToken) : (saveToken r).Uses Plain := by
  refine (any_findOne trivial).bind fun o => ?_
  cases o with
  | none => exact ((Prog.uses_perform _).2 trivial).bind fun _ => trivial
  | some stored => exact plain_update.bind fun _ => trivial

theorem plain_rotate (token : Bytes) : (rotate token).Uses Plain := by
  refine (any_findOne trivial).bind fun o => ?_
  cases o with
  | none => trivial
  | some found =>
    have family : (revokeWhere (fun r => r.userId == found.userId) "family_compromise" >>=
        fun _ => throw (.forbidden "Session compromise — reconnexion requise") : App Unit).Uses
          Plain :=
      (plain_revokeWhere ..).bind fun _ => trivial
    exact (any_onlyIf family).bind fun _ => plain_now.bind fun t => plain_refuse.bind fun _ =>
      plain_now.bind fun t => (plain_saveToken _).bind fun _ =>
        (plain_issue ..).bind fun _ => trivial

theorem plain_refresh (token : Bytes) : (refresh token).Uses Plain := by
  refine (plain_rotate token).bind fun t => (any_findOne trivial).bind fun o => ?_
  cases o with
  | none => trivial
  | some user => exact plain_refuse.bind fun _ => trivial

theorem plain_exportMessage (m : Message) : (exportMessage m).Uses Plain := by
  refine Prog.Uses.bind ?_ fun _ => trivial
  unfold decryptIfNeeded
  split
  · trivial
  · split
    · trivial
    · exact (plain_decrypt _).tryCatch fun _ => trivial

theorem plain_anonymizeInTransaction (userId : Nat) :
    (anonymizeInTransaction userId).Uses Plain := by
  refine (any_findOne trivial).bind fun o => ?_
  cases o with
  | none => trivial
  | some user =>
    exact .ite (fun _ => trivial) fun _ => plain_now.bind fun _ => plain_update.bind fun _ =>
      plain_update.bind fun _ => plain_revokeWhere ..

theorem plain_checkUpload (att : Attachment) : (checkUpload att).Uses Plain := by
  refine Prog.Uses.tryCatch (((Prog.uses_perform _).2 trivial).bind fun (size : Nat) =>
    any_onlyIf ?_) fun _ => trivial
  exact ((Prog.uses_perform _).2 trivial).bind fun _ =>
    ((Prog.uses_perform _).2 trivial).bind fun _ => trivial

theorem plain_finalize (attachmentId userId : Nat) : (finalize attachmentId userId).Uses Plain := by
  refine (any_findOne trivial).bind fun o => ?_
  cases o with
  | none => trivial
  | some att => exact plain_refuse.bind fun _ => (plain_checkUpload att).bind fun _ => trivial

theorem plain_claimKeyPackage (targetUserId requesterId : Nat) (cipherSuite : Utf16) :
    (claimKeyPackage targetUserId requesterId cipherSuite).Uses Plain := by
  refine plain_transaction (((Prog.uses_perform _).2 trivial).bind
    fun (rows : List MlsKeyPackage) => ?_)
  cases rows.head? with
  | none => trivial
  | some kp => exact plain_now.bind fun _ => plain_update.bind fun _ => trivial

theorem plain_saveWelcomes (groupId actorId seq : Nat) (ws : List Welcome) :
    (saveWelcomes groupId actorId seq ws).Uses Plain := by
  induction ws generalizing seq with
  | nil => trivial
  | cons w ws ih => exact (any_insertOne trivial).bind fun _ => ih _

theorem plain_findGroup (conversationId : Nat) : (findGroup conversationId).Uses Plain := by
  refine (any_findOne trivial).bind fun o => ?_
  cases o <;> trivial

theorem plain_natsInit (worker : Nat) : (natsInit worker).Uses Plain := by
  refine plain_settings.bind fun cfg => any_onlyIf (Prog.Uses.tryCatch ?_ fun _ => trivial)
  refine ((Prog.uses_perform _).2 trivial).bind fun _ => ((Prog.uses_perform _).2 trivial).bind
    fun _ => ((Prog.uses_perform _).2 trivial).bind fun _ => Prog.Uses.tryCatch ?_ fun _ => ?_
  · exact (Prog.uses_perform _).2 trivial
  · exact (Prog.uses_perform _).2 trivial

theorem plain_sendMail (messageId : Nat) (conv : Conversation) (user : User) (cfg : Settings)
    (counted : Nat) : (sendMail messageId conv user cfg counted).Uses Plain := by
  refine Prog.Uses.tryCatch (((Prog.uses_perform _).2 trivial).bind fun _ => ?_)
    fun e => .ite (fun _ => trivial) fun _ => trivial
  exact (any_insertOne trivial).bind fun _ => trivial

theorem plain_notifyUser (messageId : Nat) (conv : Conversation) (user : User) :
    (notifyUser messageId conv user).Uses Plain :=
  .ite (fun _ => trivial) fun _ => plain_settings.bind fun _ => plain_now.bind fun _ =>
    (any_select trivial).bind fun _ => any_onlyIf (plain_sendMail ..)

theorem plain_onMessageCreated (m : MessageCreated) : (onMessageCreated m).Uses Plain := by
  refine .ite (fun _ => trivial) fun _ => ((Prog.uses_perform _).2 trivial).bind
    fun (online : List Nat) => any_onlyIf ?_
  refine (any_select trivial).bind fun us => (any_findOne trivial).bind fun o => ?_
  cases o with
  | none => trivial
  | some conv => exact .forM fun user => plain_notifyUser ..

end Plain

section Calls

variable [AesGcm] [TokenHash] {k : Call} {user : AuthUser}

theorem of_plain {α : Type} {x : App α} (hx : x.Uses Plain) : x.Uses (Footprint k) :=
  hx.mono fun _ h => h.footprint k

theorem footprint_audit {action targetType : String} {targetId : Option Nat}
    {metadata : List (String × Json)} (hu : caller k = some user) (hj : Logs k action) :
    (audit (some user.sub) action targetType targetId metadata).Uses (Footprint k) := by
  refine Prog.Uses.tryCatch ((any_insertOne ⟨rfl, fun f hf id now => ?_⟩).bind fun _ => trivial)
    fun _ => trivial
  obtain rfl := List.mem_singleton.1 hf
  exact ⟨user, hu, rfl, hj⟩

theorem footprint_broadcast {b : Broadcast} (hb : Emits k b) :
    (broadcast b).Uses (Footprint k) :=
  (of_plain plain_settings).bind fun _ => .ite (fun _ => trivial) fun _ =>
    (Prog.uses_perform _).2 hb

theorem footprint_indexMessage (d : Document) (hk : MayIndex k) :
    (indexMessage d).Uses (Footprint k) :=
  (of_plain plain_settings).bind fun _ => .ite (fun _ => (Prog.uses_perform _).2 hk)
    fun _ => trivial

theorem footprint_access {c : Nat} (hu : caller k = some user) (hv : Visiting k) :
    (assertCanAccess user c).Uses (Footprint k) := by
  refine Prog.Uses.bind ((any_findOne trivial).bind fun o => ?_) fun conv =>
    (any_findOne trivial).bind fun o => ?_
  · cases o <;> trivial
  · cases o with
    | some participant => trivial
    | none =>
      refine .ite (fun hs => ?_) fun _ => trivial
      exact (of_plain (plain_saveParticipants ..)).bind fun _ =>
        (footprint_audit hu (.joined hu hs hv)).bind fun _ => trivial

theorem footprint_getOrCreateForOrder {orderId : Nat} (hk : k = .openByOrder user orderId) :
    (getOrCreateForOrder orderId user.sub).Uses (Footprint k) := by
  subst hk
  refine Prog.Uses.bind ((any_findOne trivial).bind fun o => ?_) fun order =>
    (any_findOne trivial).bind fun o => ?_
  · cases o <;> trivial
  · cases o with
    | some c => trivial
    | none =>
      refine any_transaction trivial trivial trivial (Prog.Uses.tryCatch ?_
        fun e => .ite (fun _ => ?_) fun _ => trivial)
      · exact (any_insertOne trivial).bind fun conv => (of_plain (plain_saveParticipants ..)).bind
          fun _ => (footprint_audit rfl .opened).bind fun _ => trivial
      · exact (any_findOne trivial).bind fun o => by cases o <;> trivial

theorem footprint_storeMessage {c : Nat} {body : Utf16} {key : Option Utf16} (sc : ScanResult)
    (cols : BodyColumns) (conv : Conversation) :
    (storeMessage ⟨c, user.sub, body, key⟩ sc cols conv).Uses
      (Footprint (.send user c body key)) := by
  refine (any_insertOne trivial).bind fun m => (any_select trivial).bind fun ps => ?_
  refine (of_plain (plain_saveReceipts ..)).bind fun _ => (any_insertOne trivial).bind fun _ => ?_
  have bump : (bumpLastMessage .tx c (conv.lastSequence + 1)).Uses Plain :=
    plain_update.bind fun _ => trivial
  refine (of_plain bump).bind fun _ => Prog.Uses.bind (any_onlyIf ?_) fun _ => trivial
  exact footprint_audit rfl .redacted

theorem footprint_send {c : Nat} {body : Utf16} {key : Option Utf16}
    (hk : k = .send user c body key) :
    (send ⟨c, user.sub, body, key⟩).Uses (Footprint k) := by
  subst hk
  have told : ∀ d, (publishMessageCreated d).Uses (Footprint (.send user c body key)) :=
    fun _ => footprint_broadcast trivial
  refine (of_plain plain_settings).bind fun cfg => (of_plain plain_refuse).bind fun _ =>
    (of_plain plain_refuse).bind fun _ => (of_plain (plain_bodyColumns ..)).bind fun cols =>
      (any_transaction trivial trivial trivial ?_).bind fun m =>
        (of_plain (plain_toDecrypted ..)).bind fun d => (told d).bind fun _ => trivial
  refine ((Prog.uses_perform _).2 trivial).bind fun (rows : List Conversation) => ?_
  cases rows.head? with
  | none => trivial
  | some conv =>
    refine (of_plain plain_refuse).bind fun _ => Prog.Uses.bind
      (.ite (fun _ => trivial) fun _ => trivial) fun _ => (any_findOne trivial).bind fun part => ?_
    cases part with
    | none => trivial
    | some part =>
      refine (of_plain plain_refuse).bind fun _ =>
        (of_plain (plain_findExisting _)).bind fun existing => ?_
      cases existing with
      | some m => trivial
      | none => exact footprint_storeMessage ..

theorem footprint_markRead {c : Nat} {upto : Utf16} (hk : k = .markRead user c upto) :
    (markRead c user.sub upto).Uses (Footprint k) := by
  subst hk
  exact (of_plain (plain_markReadInTransaction ..)).bind fun _ => footprint_broadcast rfl

theorem footprint_softDelete {c m : Nat} (hk : k = .softDelete user c m) :
    (softDelete m user.sub).Uses (Footprint k) := by
  subst hk
  refine (any_findOne trivial).bind fun o => ?_
  cases o with
  | none => trivial
  | some msg =>
    exact (of_plain plain_refuse).bind fun _ => (of_plain plain_now).bind fun t =>
      (of_plain (plain_saveMessage _)).bind fun _ => (footprint_audit rfl .deleted).bind fun _ =>
        footprint_broadcast trivial

theorem footprint_report {m : Nat} {reason : Utf16} {details : Option Utf16}
    (hk : k = .report user m reason details) :
    (report m user.sub reason details).Uses (Footprint k) := by
  subst hk
  refine (any_findOne trivial).bind fun o => ?_
  cases o with
  | none => trivial
  | some msg =>
    exact (any_insertOne trivial).bind fun r => (footprint_audit rfl .reported).bind
      fun _ => trivial

theorem footprint_resolve {r : Nat} {action : ResolveAction} (hk : k = .resolve user r action)
    (hs : user.role = .support ∨ user.role = .admin) :
    (resolve r user.sub action).Uses (Footprint k) := by
  subst hk
  refine (any_findOne trivial).bind fun o => ?_
  cases o with
  | none => trivial
  | some r =>
    refine (of_plain plain_now).bind fun t => (of_plain (plain_saveReport _)).bind fun _ =>
      (of_plain (any_onlyIf (plain_now.bind fun t => ?_))).bind fun _ =>
        (footprint_audit rfl (.resolved hs)).bind fun _ => trivial
    exact plain_update.bind fun _ => trivial

theorem footprint_enableE2ee {c : Nat} {gid : Bytes} {suite : Utf16} {ws : List Welcome}
    (hk : k = .enableE2ee user c gid suite ws) :
    (enableE2ee user c gid suite ws).Uses (Footprint k) := by
  subst hk
  have access : (assertCanAccess user c).Uses (Footprint (.enableE2ee user c gid suite ws)) :=
    footprint_access rfl trivial
  refine access.bind fun conv => (of_plain plain_refuse).bind fun _ =>
    any_transaction trivial trivial trivial ?_
  exact (any_insertOne trivial).bind fun group => (of_plain (plain_saveWelcomes ..)).bind fun _ =>
    (of_plain plain_now).bind fun t => (of_plain plain_update).bind fun _ =>
      (footprint_audit rfl .encrypted).bind fun _ => trivial

theorem footprint_sendMls {input : MlsInput} (hu : caller k = some user) (hv : Visiting k) :
    (sendMlsMessage user input).Uses (Footprint k) := by
  refine (footprint_access hu hv).bind fun _ => (of_plain (plain_findGroup _)).bind fun group =>
    of_plain (plain_transaction (((Prog.uses_perform _).2 trivial).bind
      fun (rows : List MlsGroup) => ?_))
  cases rows.head? with
  | none => trivial
  | some g =>
    refine (any_select trivial).bind fun ms => (any_onlyIf ?_).bind fun _ =>
      (plain_parameter ..).bind fun _ => (any_insertOne trivial).bind fun _ => trivial
    exact plain_update.bind fun _ => trivial

theorem footprint_listMls {c : Nat} {after limit : Option Utf16} (hu : caller k = some user)
    (hv : Visiting k) : (listMlsMessages user c after limit).Uses (Footprint k) := by
  have optional : (optionalBigint after).Uses Plain := by
    unfold optionalBigint
    split
    · trivial
    · exact (plain_parameter ..).bind fun _ => trivial
  exact (footprint_access hu hv).bind fun _ => (of_plain (plain_findGroup _)).bind fun group =>
    (of_plain optional).bind fun _ => (any_select trivial).bind fun _ => of_plain (plain_orThrow _)

theorem footprint_presign {c : Nat} {filename mimeType : Utf16} {size : Int}
    (hu : caller k = some user) (hv : Visiting k) :
    (presignUpload user c filename mimeType size).Uses (Footprint k) :=
  (of_plain plain_refuse).bind fun _ => (of_plain plain_settings).bind fun _ =>
    (of_plain plain_refuse).bind fun _ => (footprint_access hu hv).bind fun _ =>
      (of_plain (plain_random 16)).bind fun _ => ((Prog.uses_perform _).2 trivial).bind fun _ =>
        (of_plain plain_settings).bind fun _ => (any_insertOne trivial).bind fun _ => trivial

theorem footprint_download {a : Nat} (hu : caller k = some user) (hv : Visiting k) :
    (getDownloadUrl user a).Uses (Footprint k) := by
  refine (any_findOne trivial).bind fun o => ?_
  cases o with
  | none => trivial
  | some att =>
    exact (of_plain plain_refuse).bind fun _ => (footprint_access hu hv).bind fun _ =>
      (Prog.uses_perform _).2 trivial

theorem footprint_enableIndexing {c : Nat} (hk : k = .enableSearch user c) (d : Nat) :
    (enableIndexing user d).Uses (Footprint k) := by
  subst hk
  have access : (assertCanAccess user d).Uses (Footprint (.enableSearch user c)) :=
    footprint_access rfl trivial
  refine access.bind fun conv => (of_plain plain_refuse).bind fun _ =>
    (of_plain plain_settings).bind fun _ => (of_plain plain_refuse).bind fun _ => ?_
  refine (any_select trivial).bind fun rows => (any_select trivial).bind fun participants => ?_
  refine Prog.Uses.bind (.forM fun m => ?_) fun _ => (of_plain plain_now).bind fun t =>
    (of_plain plain_update).bind fun _ => footprint_audit rfl .indexed
  exact (of_plain (plain_decryptOrEmpty m)).bind fun content => .ite (fun _ => trivial) fun _ =>
    footprint_indexMessage _ trivial

theorem footprint_disableIndexing {c : Nat} (hk : k = .disableSearch user c) (d : Nat) :
    (disableIndexing user d).Uses (Footprint k) := by
  subst hk
  have access : (assertCanAccess user d).Uses (Footprint (.disableSearch user c)) :=
    footprint_access rfl trivial
  refine access.bind fun _ => (of_plain plain_update).bind fun _ =>
    Prog.Uses.bind ((of_plain plain_settings).bind fun _ => .ite (fun _ => ?_) fun _ => trivial)
      fun _ => footprint_audit rfl .unindexed
  exact (Prog.uses_perform _).2 trivial

theorem footprint_exportUserData (hk : k = .exportData user) :
    (exportUserData user.sub).Uses (Footprint k) := by
  subst hk
  refine (any_findOne trivial).bind fun o => ?_
  cases o with
  | none => trivial
  | some u =>
    refine (any_select trivial).bind fun ps => Prog.Uses.bind (.ite (fun _ => trivial) fun _ =>
      any_select trivial) fun ms => (of_plain (plain_mapM plain_exportMessage)).bind fun _ => ?_
    exact (any_select trivial).bind fun _ => (of_plain plain_now).bind fun _ =>
      (of_plain plain_update).bind fun _ => (footprint_audit rfl .exported).bind fun _ =>
        (of_plain plain_now).bind fun _ => trivial

theorem footprint_anonymizeUser {u : Nat} (hk : k = .anonymize user u)
    (hu : u = user.sub ∨ user.role = .admin) :
    (anonymizeUser u user.sub).Uses (Footprint k) := by
  subst hk
  exact (of_plain (plain_transaction (plain_anonymizeInTransaction u))).bind fun _ =>
    footprint_audit rfl (.anonymized hu)

theorem footprint_processBatch {n size : Nat} (hk : k = .processBatch n size) :
    (processBatch n size).Uses (Footprint k) := by
  subst hk
  have indexed : ∀ m, (indexCreated m).Uses (Footprint (.processBatch n size)) := fun m =>
    Prog.Uses.tryCatch ((any_findOne trivial).bind fun o => by
      cases o with
      | none => trivial
      | some conv => exact .ite (fun _ => footprint_indexMessage _ trivial) fun _ => trivial)
      fun _ => trivial
  have note : ∀ e st, (perform (.note e st)).Uses (Footprint (.processBatch n size)) := fun _ _ =>
    (Prog.uses_perform _).2 trivial
  have handled : ∀ id type payload,
      (handle n id type payload).Uses (Footprint (.processBatch n size)) := by
    intro id type payload
    refine ((Prog.uses_perform _).2 trivial).bind fun (enabled : Bool) =>
      (any_onlyIf ((Prog.uses_perform _).2 trivial)).bind fun _ => ?_
    cases payload with
    | created m => exact (of_plain (plain_onMessageCreated m)).bind fun _ => indexed m
    | read c u upto => trivial
  refine any_transaction trivial trivial trivial (((Prog.uses_perform _).2 trivial).bind
    fun rows => (Prog.Uses.forM fun row => ?_).bind fun _ => trivial)
  refine Prog.Uses.tryCatch ((note ..).bind fun _ => (handled ..).bind fun _ => (note ..).bind
    fun _ => (of_plain plain_update).bind fun _ => trivial) fun e => ?_
  exact (note ..).bind fun _ => (of_plain plain_update).bind fun _ => trivial

/-- Code behind a role guard runs for users with one of the roles. -/
theorem uses_requireRole {P : Op → Prop} {roles : List Role} {α : Type} {f : Unit → App α}
    (hf : user.role ∈ roles → (f ()).Uses P) : (requireRole user roles >>= f).Uses P := by
  unfold requireRole
  split
  · exact hf ‹_›
  · trivial

/-- What the code of each call journals, emits and indexes. -/
theorem footprint_code (k : Call) : (code k).Uses (Footprint k) := by
  have access : ∀ {k u c}, caller k = some u → Visiting k →
      (assertCanAccess u c).Uses (Footprint k) := footprint_access
  cases k with
  | openByOrder user orderId => exact (footprint_getOrCreateForOrder rfl).bind fun _ => trivial
  | getOne user c =>
    exact Prog.Uses.bind (access rfl trivial) fun _ => (any_select trivial).bind fun _ => trivial
  | send user c body key =>
    exact Prog.Uses.bind (access rfl trivial) fun _ => (footprint_send rfl).bind fun _ => trivial
  | list user c after before limit =>
    exact Prog.Uses.bind (access rfl trivial) fun _ =>
      (of_plain (plain_list ..)).bind fun _ => trivial
  | markRead user c upto =>
    exact Prog.Uses.bind (access rfl trivial) fun _ =>
      (footprint_markRead rfl).bind fun _ => trivial
  | softDelete user c m =>
    exact Prog.Uses.bind (access rfl trivial) fun _ =>
      (footprint_softDelete rfl).bind fun _ => trivial
  | report user m reason details => exact (footprint_report rfl).bind fun _ => trivial
  | resolve user r action =>
    exact uses_requireRole fun hs => (footprint_resolve rfl (by simpa using hs)).bind
      fun _ => trivial
  | presign user c filename mimeType size =>
    exact Prog.Uses.bind (footprint_presign rfl trivial) fun _ => trivial
  | finalize user a => exact (of_plain (plain_finalize ..)).bind fun _ => trivial
  | download user a => exact Prog.Uses.bind (footprint_download rfl trivial) fun _ => trivial
  | publishKeyPackages user device suite packages ttl =>
    exact Prog.Uses.bind ((of_plain plain_refuse).bind fun _ => (of_plain plain_refuse).bind
      fun _ => (of_plain plain_now).bind fun _ => ((Prog.uses_perform _).2 trivial).bind
        fun _ => trivial) fun _ => trivial
  | claimKeyPackage user target suite =>
    exact (of_plain (plain_claimKeyPackage ..)).bind fun _ => trivial
  | countKeyPackages user suite =>
    exact Prog.Uses.bind ((of_plain plain_now).bind fun _ => (any_select trivial).bind
      fun _ => trivial) fun _ => trivial
  | enableE2ee user c gid suite welcomes =>
    exact Prog.Uses.bind (access rfl trivial) fun _ =>
      (footprint_enableE2ee rfl).bind fun _ => trivial
  | sendMls user c device kind epoch ciphertext target =>
    exact Prog.Uses.bind (access rfl trivial) fun _ =>
      .bind (footprint_sendMls rfl trivial) fun _ => trivial
  | listMls user c after limit =>
    exact Prog.Uses.bind (access rfl trivial) fun _ =>
      .bind (footprint_listMls rfl trivial) fun _ => trivial
  | enableSearch user c =>
    exact Prog.Uses.bind (access rfl trivial) fun _ =>
      (footprint_enableIndexing rfl _).bind fun _ => trivial
  | disableSearch user c =>
    exact Prog.Uses.bind (access rfl trivial) fun _ =>
      (footprint_disableIndexing rfl _).bind fun _ => trivial
  | exportData user => exact (footprint_exportUserData rfl).bind fun _ => trivial
  | anonymize user u =>
    by_cases hu : u = user.sub
    · exact Prog.Uses.bind (.ite (fun h => (h hu).elim) fun _ => trivial) fun _ =>
        (footprint_anonymizeUser rfl (.inl hu)).bind fun _ => trivial
    · show (onlyIf (u ≠ user.sub) (requireRole user [.admin]) >>= _).Uses _
      rw [onlyIf, if_pos hu]
      exact uses_requireRole fun hs => (footprint_anonymizeUser rfl (.inr (by simpa using hs))).bind
        fun _ => trivial
  | login user => exact (of_plain (plain_issue ..)).bind fun _ => trivial
  | refresh token => exact (of_plain (plain_refresh token)).bind fun _ => trivial
  | logout token => exact (of_plain (plain_revokeWhere ..)).bind fun _ => trivial
  | revokeAll u => exact (of_plain (plain_revokeWhere ..)).bind fun _ => trivial
  | natsInit n => exact (of_plain (plain_natsInit n)).bind fun _ => trivial
  | processBatch n size => exact (footprint_processBatch rfl).bind fun _ => trivial

end Calls

end Messageries.Proofs
