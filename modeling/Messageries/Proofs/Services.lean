import Messageries.Proofs.Spec

set_option linter.unusedSectionVars false

namespace Messageries.Proofs

open Text Relational Database Crypto Concurrency Backend Moderation

section Operations

variable {c : Conn} {t : Table} {P : Op → Prop}

theorem any_onlyIf {b : Prop} [Decidable b] {x : App Unit} (hx : x.Uses P) :
    (onlyIf b x).Uses P :=
  .ite (fun _ => hx) fun _ => trivial

theorem any_select {q : t.Row → Bool} (h : P (.query c (.select t fun _ _ => q))) :
    (select c t q).Uses P :=
  (Prog.uses_perform _).2 h

theorem any_findOne {q : t.Row → Bool} (h : P (.query c (.select t fun _ _ => q))) :
    (findOne c t q).Uses P :=
  (any_select h).bind fun _ => trivial

theorem any_insertOne {make : Nat → Nat → t.Row} (h : P (.query c (.insert t [make]))) :
    (insertOne c t make).Uses P := by
  refine ((Prog.uses_perform _).2 h).bind fun rows => ?_
  cases rows <;> trivial

theorem any_audit {actorId : Option Nat} {action targetType : String} {targetId : Option Nat}
    {metadata : List (String × Json)} (h : ∀ make, P (.query .pool (.insert .audit [make]))) :
    (audit actorId action targetType targetId metadata).Uses P :=
  Prog.Uses.tryCatch ((any_insertOne (h _)).bind fun _ => trivial) fun _ => trivial

end Operations

section Access

/-- What a check of access may do on its way. -/
inductive Visits (user : AuthUser) (conversationId : Nat) : Op → Prop
  | reads (t : Table) (q : Db → Nat → t.Row → Bool) :
      Visits user conversationId (.query .pool (.select t q))
  | joins (make : List (Nat → Nat → ConversationParticipant)) :
      (user.role = .support ∨ user.role = .admin) →
      (∀ f ∈ make, f = NewParticipant.row ⟨conversationId, user.sub, user.role⟩) →
      Visits user conversationId (.query .pool (.insert .participants make))
  | role (q : Db → Nat → ConversationParticipant → Bool) (role : Role) :
      Visits user conversationId (.query .pool (.update .participants q fun _ => setRole role))
  | logs (make : Nat → Nat → AuditLog) :
      Visits user conversationId (.query .pool (.insert .audit [make]))

theorem visits_assertCanAccess (user : AuthUser) (conversationId : Nat) :
    (assertCanAccess user conversationId).Uses (Visits user conversationId) := by
  have find : ∀ t q, (findOne .pool t q).Uses (Visits user conversationId) := fun t q =>
    any_findOne (.reads t _)
  refine Prog.Uses.bind ((find _ _).bind fun o => ?_) fun conv => (find _ _).bind fun o => ?_
  · cases o <;> trivial
  · cases o with
    | some r => trivial
    | none =>
      refine .ite (fun hs => ?_) fun _ => trivial
      refine Prog.Uses.bind ((any_select (.reads .participants _)).bind fun stored => ?_)
        fun _ => (any_audit .logs).bind fun _ => trivial
      refine (any_onlyIf ?_).bind fun _ => .forM fun n => any_onlyIf ?_
      · refine ((Prog.uses_perform _).2 (.joins _ hs fun f hf => ?_)).bind fun _ => trivial
        obtain ⟨n, hn, rfl⟩ := List.mem_map.1 hf
        rw [List.mem_singleton.1 (List.mem_filter.1 hn).1]
      · exact ((Prog.uses_perform _).2 (.role _ _)).bind fun _ => trivial

end Access

variable [AesGcm] [TokenHash] {k : Call} {c : Conn}

section Statements

variable {t : Table}

theorem uses_perform {o : Op} (h : QuietOp k o) : (perform o).Uses (QuietOp k) :=
  (Prog.uses_perform o).2 h

theorem uses_select (q : t.Row → Bool) : (select c t q).Uses (QuietOp k) := any_select trivial

theorem uses_findOne (q : t.Row → Bool) : (findOne c t q).Uses (QuietOp k) := any_findOne trivial

theorem uses_lockRows (q : Nat → t.Row → Bool) (pick : List t.Row → List t.Row) :
    (lockRows c t q pick).Uses (QuietOp k) := uses_perform trivial

theorem uses_lockSkipLocked (q : Nat → t.Row → Bool) (pick : List t.Row → List t.Row) :
    (lockSkipLocked c t q pick).Uses (QuietOp k) := uses_perform trivial

theorem uses_insertAll {makes : List (Nat → Nat → t.Row)} (ht : Free k c t)
    (h : ∀ f ∈ makes, ∀ id now, May k (.insert t (f id now)) ∧ Insertable t (f id now)) :
    (insertAll c t makes).Uses (QuietOp k) := uses_perform ⟨ht, h⟩

theorem uses_insertOne {make : Nat → Nat → t.Row} (ht : Free k c t)
    (h : ∀ id now, May k (.insert t (make id now)) ∧ Insertable t (make id now)) :
    (insertOne c t make).Uses (QuietOp k) :=
  any_insertOne ⟨ht, fun _ hf => List.mem_singleton.1 hf ▸ h⟩

theorem uses_updateWhere {q : Db → t.Row → Bool} {f : Nat → schema.Assign t} (ht : Free k c t)
    (h : ∀ now r, Still t r ((f now).set r))
    (hm : ∀ ks now, May k (.update t ks (f now))) :
    (updateWhere c t q f).Uses (QuietOp k) :=
  uses_perform ⟨⟨ht, hm⟩, h⟩

theorem uses_update {q : t.Row → Bool} {f : Nat → schema.Assign t} (ht : Free k c t)
    (h : ∀ now r, Still t r ((f now).set r))
    (hm : ∀ ks now, May k (.update t ks (f now))) :
    (update c t q f).Uses (QuietOp k) :=
  uses_updateWhere ht h hm

theorem uses_parameter {α : Type} (x : Except SqlState α) : (parameter c x).Uses (QuietOp k) := by
  cases x with
  | ok a => trivial
  | error e =>
    have : (perform (.query c (.reject e))).Uses (QuietOp k) := uses_perform trivial
    exact this.bind fun _ => trivial

/-- What follows a parameter runs on the value it parses to. -/
theorem uses_parsed {α β : Type} {x : Except SqlState α} {f : α → App β}
    (hf : ∀ a, x = .ok a → (f a).Uses (QuietOp k)) : (parameter c x >>= f).Uses (QuietOp k) := by
  cases x with
  | ok a => exact hf a rfl
  | error e =>
    -- the program stops there
    refine ⟨trivial, fun r => ?_⟩
    cases r <;> trivial

theorem uses_onlyIf {x : App Unit} {b : Prop} [Decidable b] (h : x.Uses (QuietOp k)) :
    (onlyIf b x).Uses (QuietOp k) :=
  any_onlyIf h

theorem uses_refuse {b : Prop} [Decidable b] {e : Err} :
    (onlyIf b (throw e)).Uses (QuietOp k) :=
  uses_onlyIf trivial

theorem uses_transaction {α : Type} {body : App α} (h : body.Uses (QuietOp k)) :
    (transaction body).Uses (QuietOp k) := by
  refine Prog.Uses.tryCatch ?_ fun e => ?_
  · have begin : (perform .begin).Uses (QuietOp k) := uses_perform trivial
    have commit : (perform .commit).Uses (QuietOp k) := uses_perform trivial
    exact begin.bind fun _ => h.bind fun a => commit.bind fun _ => trivial
  · have rollback : (perform .rollback).Uses (QuietOp k) := uses_perform trivial
    exact rollback.bind fun _ => trivial

theorem uses_now : now.Uses (QuietOp k) := uses_perform trivial

theorem uses_settings : settings.Uses (QuietOp k) := uses_perform trivial

theorem free_of {t : Table} (hs : ofSend t = false) (ht : ofPool t = false) : Free k c t :=
  ⟨fun h => Bool.noConfusion (hs.symm.trans h), fun h => Bool.noConfusion (ht.symm.trans h)⟩

theorem uses_audit (actorId : Option Nat) (action targetType : String) (targetId : Option Nat)
    (metadata : List (String × Json)) :
    (audit actorId action targetType targetId metadata).Uses (QuietOp k) :=
  any_audit fun _ => ⟨free_of rfl rfl, fun _ hf => List.mem_singleton.1 hf ▸ fun _ _ =>
    ⟨trivial, trivial⟩⟩

end Statements

section Realtime

theorem uses_broadcast (b : Broadcast) : (broadcast b).Uses (QuietOp k) :=
  uses_settings.bind fun _ => .ite (fun _ => trivial) fun _ => uses_perform trivial

end Realtime

section Messages

theorem uses_orThrow {α : Type} (x : Except Err α) : (orThrow x).Uses (QuietOp k) := by
  cases x <;> trivial

theorem uses_selectPage (conversationId : Nat) (q : Int → Bool) (descending : Bool)
    (limit : Option Int) : (selectPage conversationId q descending limit).Uses (QuietOp k) :=
  (uses_select _).bind fun _ => uses_orThrow _

theorem uses_markRead {user : AuthUser} {conversationId : Nat} {uptoSequence : Utf16}
    (hk : k = .markRead user conversationId uptoSequence) (userId : Nat) :
    (markRead conversationId userId uptoSequence).Uses (QuietOp k) := by
  subst hk
  have free : ∀ c t, ofPool t = false → Free (.markRead user conversationId uptoSequence) c t :=
    fun c t ht => ⟨fun _ => id, fun h => Bool.noConfusion (ht.symm.trans h)⟩
  refine Prog.Uses.bind (uses_transaction ?_) fun _ => uses_broadcast _
  refine uses_parsed fun n hn => ?_
  refine (uses_update (t := .participants) (free _ _ rfl)
    (fun _ _ => ⟨⟨rfl, rfl, rfl⟩, trivial⟩) fun _ _ => .inr ⟨n, hn, rfl⟩).bind fun _ => ?_
  refine (uses_updateWhere (t := .receipts) (free _ _ rfl)
    (fun _ _ => ⟨⟨rfl, rfl⟩, trivial⟩) fun _ t => ⟨t, rfl⟩).bind fun _ => ?_
  exact (uses_insertOne (t := .outbox) (free _ _ rfl)
    fun _ _ => ⟨⟨rfl, rfl, rfl⟩, rfl, _, _, _, rfl⟩).bind fun _ => trivial

end Messages

section Moderation

theorem uses_report (messageId reporterId : Nat) (reason : Utf16) (details : Option Utf16) :
    (report messageId reporterId reason details).Uses (QuietOp k) := by
  refine (uses_findOne _).bind fun m => ?_
  cases m with
  | none => trivial
  | some m =>
    refine Prog.Uses.bind (uses_insertOne (free_of rfl rfl)
      fun _ _ => ⟨.inr rfl, trivial⟩) fun r => ?_
    exact (uses_audit ..).bind fun _ => trivial

theorem uses_saveReport {user : AuthUser} {reportId : Nat} {action : ResolveAction}
    {entity : MessageReport} (hk : k = .resolve user reportId action)
    (hs : entity.status = action.status) : (saveReport entity).Uses (QuietOp k) := by
  subst hk
  refine (uses_findOne _).bind fun r => ?_
  cases r with
  | none =>
    exact Prog.Uses.bind (uses_insertAll (free_of rfl rfl)
      fun _ _ _ _ => ⟨.inl trivial, trivial⟩) fun _ => trivial
  | some stored =>
    exact Prog.Uses.bind (uses_update (free_of rfl rfl) (fun _ _ => ⟨trivial, trivial⟩)
      fun _ _ => ⟨entity, stored, hs, rfl⟩) fun _ => trivial

theorem still_setHidden (moderatorId t : Nat) (m : Message) :
    Still .messages m ((setHidden moderatorId t).set m) :=
  ⟨⟨rfl, rfl, rfl, rfl, rfl, rfl, fun _ => rfl, .inr rfl, .inr rfl, nofun⟩, trivial⟩

theorem uses_resolve {user : AuthUser} {reportId : Nat} {action : ResolveAction}
    (hk : k = .resolve user reportId action) :
    (resolve reportId user.sub action).Uses (QuietOp k) := by
  refine (uses_findOne _).bind fun r => ?_
  cases r with
  | none => trivial
  | some r =>
    refine uses_now.bind fun t => (uses_saveReport hk rfl).bind fun _ => ?_
    refine (uses_onlyIf (uses_now.bind fun t => ?_)).bind fun _ =>
      (uses_audit ..).bind fun _ => trivial
    subst hk
    exact Prog.Uses.bind (uses_update (t := .messages) ⟨fun _ => id, nofun⟩
      (fun _ m => still_setHidden user.sub t m) fun _ _ => ⟨t, rfl⟩) fun _ => trivial

end Moderation

section Search

theorem uses_indexMessage (d : Document) : (indexMessage d).Uses (QuietOp k) :=
  uses_settings.bind fun _ => .ite (fun _ => uses_perform trivial) fun _ => trivial

theorem uses_deleteByConversation (conversationId : Nat) :
    (deleteByConversation conversationId).Uses (QuietOp k) :=
  uses_settings.bind fun _ => .ite (fun _ => uses_perform trivial) fun _ => trivial

theorem still_setSearchIndexed (indexed : Bool) (at_ : Option Nat) (r : Conversation) :
    Still .conversations r ((setSearchIndexed indexed at_).set r) :=
  ⟨⟨rfl, rfl, fun h => h⟩, rfl⟩

theorem uses_indexMessageIfEnabled (d : Document) :
    (indexMessageIfEnabled d).Uses (QuietOp k) := by
  refine (uses_findOne _).bind fun conv => ?_
  cases conv with
  | none => trivial
  | some conv => exact .ite (fun _ => uses_indexMessage d) fun _ => trivial

end Search

section E2ee

theorem uses_publishKeyPackages {user : AuthUser} {deviceId cipherSuite : Utf16}
    {keyPackages : List Bytes} {ttlDays : Option Nat}
    (hk : k = .publishKeyPackages user deviceId cipherSuite keyPackages ttlDays) :
    (publishKeyPackages user.sub deviceId cipherSuite keyPackages ttlDays).Uses (QuietOp k) := by
  refine uses_refuse.bind fun _ => uses_refuse.bind fun _ => uses_now.bind fun t => ?_
  refine Prog.Uses.bind (uses_insertAll (t := .keyPackages) (free_of rfl rfl)
    fun f hf id at_ => ⟨?_, trivial⟩) fun _ => trivial
  obtain ⟨kp, -, rfl⟩ := List.mem_map.1 hf
  exact ⟨user, deviceId, cipherSuite, keyPackages, ttlDays, _, kp, id, at_, hk, rfl⟩

theorem uses_claimKeyPackage {user : AuthUser} {targetUserId : Nat} {cipherSuite : Utf16}
    (hk : k = .claimKeyPackage user targetUserId cipherSuite) :
    (claimKeyPackage targetUserId user.sub cipherSuite).Uses (QuietOp k) := by
  subst hk
  refine uses_transaction ((uses_lockRows ..).bind fun rows => ?_)
  cases rows.head? with
  | none => trivial
  | some kp =>
    refine uses_now.bind fun t => ?_
    exact Prog.Uses.bind (uses_update (free_of rfl rfl) (fun _ _ => ⟨trivial, trivial⟩)
      fun _ _ => ⟨t, rfl⟩) fun _ => trivial

theorem uses_countAvailable (userId : Nat) (cipherSuite : Utf16) :
    (countAvailable userId cipherSuite).Uses (QuietOp k) :=
  uses_now.bind fun _ => (uses_select _).bind fun _ => trivial

theorem uses_saveWelcomes {user : AuthUser} {c : Nat} {gid : Bytes} {suite : Utf16}
    {welcomes : List Welcome} (hk : k = .enableE2ee user c gid suite welcomes) (groupId seq : Nat)
    {ws : List Welcome} (hw : ∀ w ∈ ws, w ∈ welcomes) :
    (saveWelcomes groupId user.sub seq ws).Uses (QuietOp k) := by
  induction ws generalizing seq with
  | nil => trivial
  | cons w ws ih =>
    refine Prog.Uses.bind (uses_insertOne (t := .mlsMessages) (free_of rfl rfl)
      fun id now => ⟨.inl ⟨user, c, gid, suite, welcomes, w, groupId, _, id, now, hk,
        hw w (List.mem_cons_self ..), rfl⟩, trivial⟩) fun _ => ?_
    exact ih _ fun v hv => hw v (List.mem_cons_of_mem _ hv)

theorem still_setE2ee (t : Nat) (r : Conversation) : Still .conversations r ((setE2ee t).set r) :=
  ⟨⟨rfl, rfl, fun _ => rfl⟩, rfl⟩

theorem uses_findGroup (conversationId : Nat) : (findGroup conversationId).Uses (QuietOp k) := by
  refine (uses_findOne _).bind fun g => ?_
  cases g <;> trivial

end E2ee

section Attachments

theorem uses_checkUpload (att : Attachment) : (checkUpload att).Uses (QuietOp k) := by
  refine Prog.Uses.tryCatch ?_ fun _ => trivial
  have head : (perform (.head att.objectKey)).Uses (QuietOp k) := uses_perform trivial
  have deleteObject : (perform (.deleteObject att.objectKey)).Uses (QuietOp k) :=
    uses_perform trivial
  refine head.bind fun size => uses_onlyIf (deleteObject.bind fun _ => ?_)
  exact Prog.Uses.bind (uses_perform rfl) fun _ => trivial

theorem uses_finalize (attachmentId userId : Nat) :
    (finalize attachmentId userId).Uses (QuietOp k) := by
  refine (uses_findOne _).bind fun a => ?_
  cases a with
  | none => trivial
  | some att =>
    exact uses_refuse.bind fun _ => (uses_checkUpload att).bind fun _ => trivial

end Attachments

section RefreshTokens

theorem later_setRevoked (t : Nat) (reason : String) (r : RefreshToken) :
    TokenLater r ((setRevoked t reason).set r) :=
  ⟨rfl, rfl, rfl, rfl, fun _ => nofun⟩

theorem uses_revokeWhere (hk : ¬Rotates k) (q : RefreshToken → Bool) (reason : String) :
    (revokeWhere q reason).Uses (QuietOp k) := by
  refine uses_now.bind fun t => ?_
  exact Prog.Uses.bind (uses_update (t := .refreshTokens) ⟨nofun, fun _ => ⟨rfl, fun _ => hk⟩⟩
    (fun _ r => ⟨later_setRevoked t reason r, trivial⟩) fun _ _ => trivial) fun _ => trivial

theorem uses_issue (hk : ¬Rotates k) (userId : Nat) : (issue userId none).Uses (QuietOp k) := by
  have random : (perform (.random 48)).Uses (QuietOp k) := uses_perform trivial
  refine uses_settings.bind fun cfg => random.bind fun raw => uses_now.bind fun t => ?_
  exact Prog.Uses.bind (uses_insertOne (t := .refreshTokens) ⟨nofun, fun _ => ⟨rfl, fun _ => hk⟩⟩
    fun _ _ => ⟨trivial, rfl⟩) fun _ => trivial

end RefreshTokens

section Privacy

theorem still_wiped (t : Nat) (m : Message) : Still .messages m ((wiped t).set m) :=
  ⟨⟨rfl, rfl, rfl, rfl, rfl, rfl, fun _ => rfl, .inl rfl, .inl rfl, nofun⟩, trivial⟩

theorem uses_anonymizeUser {user : AuthUser} {userId : Nat} (hk : k = .anonymize user userId)
    (actorId : Nat) : (anonymizeUser userId actorId).Uses (QuietOp k) := by
  subst hk
  refine Prog.Uses.bind (uses_transaction ?_) fun _ => uses_audit ..
  refine (uses_findOne _).bind fun u => ?_
  cases u with
  | none => trivial
  | some user =>
    refine .ite (fun _ => trivial) fun _ => uses_now.bind fun t => ?_
    refine Prog.Uses.bind (uses_update (t := .users) (free_of rfl rfl)
      (fun _ _ => ⟨⟨rfl, fun _ => nofun⟩, trivial⟩) fun _ _ => .inl trivial) fun _ => ?_
    exact Prog.Uses.bind (uses_update (t := .messages) ⟨fun _ => id, nofun⟩
      (fun now m => still_wiped now m) fun _ now => ⟨now, rfl⟩) fun _ => uses_revokeWhere id ..

end Privacy

section Outbox

theorem uses_sendMail (hb : IsBatch k) (messageId : Nat) (conv : Conversation) (user : User)
    (cfg : Settings) (counted : Nat) :
    (sendMail messageId conv user cfg counted).Uses (QuietOp k) := by
  refine Prog.Uses.tryCatch ?_ fun e => .ite (fun _ => trivial) fun _ => trivial
  have mail : (perform (.mail (newMessageMail cfg user conv messageId counted))).Uses
      (QuietOp k) := uses_perform hb
  exact mail.bind fun _ => Prog.Uses.bind (uses_insertOne (t := .emails)
    ⟨nofun, fun _ => ⟨rfl, nofun⟩⟩ fun _ _ => ⟨hb, trivial⟩) fun _ => trivial

theorem uses_notifyUser (hb : IsBatch k) (messageId : Nat) (conv : Conversation) (user : User) :
    (notifyUser messageId conv user).Uses (QuietOp k) :=
  .ite (fun _ => trivial) fun _ => uses_settings.bind fun _ => uses_now.bind fun _ =>
    (uses_select _).bind fun _ => uses_onlyIf (uses_sendMail hb ..)

theorem uses_notifyNewMessage (hb : IsBatch k) (messageId conversationId : Nat)
    (recipientIds : List Nat) :
    (notifyNewMessage messageId conversationId recipientIds).Uses (QuietOp k) := by
  refine (uses_select _).bind fun recipients => (uses_findOne _).bind fun conv => ?_
  cases conv with
  | none => trivial
  | some conv => exact .forM fun user => uses_notifyUser hb messageId conv user

theorem uses_onMessageCreated (hb : IsBatch k) (m : MessageCreated) :
    (onMessageCreated m).Uses (QuietOp k) := by
  have areOnline : (perform (.areOnline m.recipients)).Uses (QuietOp k) := uses_perform trivial
  exact .ite (fun _ => trivial) fun _ => areOnline.bind fun online =>
    uses_onlyIf (uses_notifyNewMessage hb ..)

theorem uses_handle (hb : IsBatch k) (worker outboxId : Nat) (type : EventType)
    (payload : Payload) : (handle worker outboxId type payload).Uses (QuietOp k) := by
  have enabled : (perform (.natsEnabled worker)).Uses (QuietOp k) := uses_perform trivial
  have publish : (perform (.publish type payload outboxId)).Uses (QuietOp k) := uses_perform hb
  refine enabled.bind fun (b : Bool) => (uses_onlyIf publish).bind fun _ => ?_
  cases payload with
  | read c u s => trivial
  | created m =>
    exact (uses_onMessageCreated hb m).bind fun _ =>
      Prog.Uses.tryCatch (uses_indexMessageIfEnabled _) fun _ => trivial

theorem uses_handleRow (hk : ¬IsSend k) (hb : IsBatch k) (worker : Nat) (row : OutboxEvent) :
    (handleRow worker row).Uses (QuietOp k) := by
  have free : Free k .tx .outbox := ⟨fun _ => hk, nofun⟩
  have note : ∀ s, (perform (.note row.id s)).Uses (QuietOp k) := fun _ => uses_perform hb
  refine Prog.Uses.tryCatch ((note _).bind fun _ => (uses_handle hb ..).bind fun _ =>
    (note _).bind fun _ => ?_) fun e => (note _).bind fun _ => ?_
  · exact Prog.Uses.bind (uses_update (t := .outbox) free (fun _ _ => ⟨⟨rfl, rfl, rfl⟩, trivial⟩)
      fun _ now => ⟨hb, .inl ⟨now, rfl⟩⟩) fun _ => trivial
  · exact Prog.Uses.bind (uses_update (t := .outbox) free (fun _ _ => ⟨⟨rfl, rfl, rfl⟩, trivial⟩)
      fun _ now => ⟨hb, .inr ⟨_, _, _, now, rfl⟩⟩) fun _ => trivial

theorem uses_processBatch (hk : ¬IsSend k) (hb : IsBatch k) (worker batchSize : Nat) :
    (processBatch worker batchSize).Uses (QuietOp k) :=
  uses_transaction ((uses_lockSkipLocked ..).bind fun _ =>
    Prog.Uses.bind (.forM fun row => uses_handleRow hk hb worker row) fun _ => trivial)

theorem uses_natsInit (worker : Nat) : (natsInit worker).Uses (QuietOp k) := by
  have local_ : ∀ o : Op, QuietOp k o → (perform o).Uses (QuietOp k) := fun _ h => uses_perform h
  refine uses_settings.bind fun cfg => uses_onlyIf (Prog.Uses.tryCatch ?_ fun _ => trivial)
  refine (local_ (.connect worker) trivial).bind fun _ =>
    (local_ (.jetstreamManager worker) trivial).bind fun _ =>
      (local_ (.jetstream worker) trivial).bind fun _ => ?_
  exact Prog.Uses.tryCatch (local_ .streamInfo trivial) fun _ => local_ .streamAdd trivial

end Outbox

end Messageries.Proofs
