import Messageries.Concurrency.Following
import Messageries.Proofs.Extension

set_option linter.unusedSectionVars false

namespace Messageries.Proofs

open Text Relational Database Crypto Concurrency Backend Moderation

section Joining

/-- The row of a support or admin user. -/
def OfStaff (r : ConversationParticipant) : Prop := r.role = .support ∨ r.role = .admin

/-- The operation gives no support or admin user a seat. -/
def Unseated : Op → Prop
  | .query _ (.insert .participants make) => ∀ f ∈ make, ∀ id now, ¬OfStaff (f id now)
  | _ => True

/-- The INSERT of `assertCanAccess`. -/
def joining (n : NewParticipant) : Op := .query .pool (.insert .participants [n.row])

def joined (n : NewParticipant) (id now : Nat) : AuditLog :=
  { id, actorId := some n.userId, action := "conversation.support_joined",
    targetType := "conversation", targetId := some n.conversationId,
    metadata := [("role", .role n.role)], createdAt := now }

/-- The INSERT of `AuditService.log` after it. -/
def journalling (n : NewParticipant) : Op := .query .pool (.insert .audit [joined n])

/-- A user who joins is journalled next. -/
def Journals (o o' : Op) : Prop := ∃ n, o = joining n ∧ o' = journalling n

abbrev Journalling {α : Type} (x : App α) : Prop := x.Pairs Unseated Journals

/-- What `save` of one participant does once it has looked for the row. -/
def saveFound (stored : List ConversationParticipant) (n : NewParticipant) : App Unit :=
  onlyIf (!([n].filter fun p => !stored.any p.isRow).isEmpty)
      (insertAll .pool .participants (([n].filter fun p => !stored.any p.isRow).map
        NewParticipant.row) >>= fun _ => pure ()) >>= fun _ =>
    [n].forM fun p => onlyIf (stored.any fun r => p.isRow r && r.role != p.role)
      (update .pool .participants p.isRow (fun _ => setRole p.role) >>= fun _ => pure ())

/-- A row that was found is not inserted again. -/
theorem unseated_found {stored : List ConversationParticipant} {n : NewParticipant}
    (h : stored.any n.isRow = true) : (saveFound stored n).Uses Unseated := by
  refine Prog.Uses.bind (.ite (fun hn => ?_) fun _ => trivial) fun _ => .forM fun _ => any_onlyIf ?_
  · simp [h] at hn
  · exact ((Prog.uses_perform _).2 trivial).bind fun _ => trivial

theorem saveFound_new {stored : List ConversationParticipant} {n : NewParticipant}
    (h : stored.any n.isRow = false) :
    saveFound stored n = perform (joining n) >>= fun _ => pure () := by
  have fresh : ([n].filter fun p => !stored.any p.isRow) = [n] := by simp [h]
  have same : (stored.any fun r => n.isRow r && r.role != n.role) = false := by
    rw [List.any_eq_false] at h ⊢
    intro r hr
    simp [h r hr]
  have rest : ([n].forM fun p => onlyIf (stored.any fun r => p.isRow r && r.role != p.role)
      (update .pool .participants p.isRow (fun _ => setRole p.role) >>= fun _ => pure ())) =
        (pure () : App Unit) := by
    change (onlyIf (stored.any fun r => n.isRow r && r.role != n.role) _ >>= fun _ => pure ()) = _
    rw [same]
    rfl
  rw [saveFound, fresh, rest]
  refine congrArg (Prog.op _) (funext fun r => ?_)
  cases r <;> rfl

theorem pairs_save {α : Type} {n : NewParticipant} {f : Unit → App α} (hf : Journalling (f ()))
    (next : ∃ k, f () = .op (journalling n) k) :
    Journalling (saveParticipants .pool [n] >>= f) := by
  refine ⟨.inl trivial, fun r => ?_⟩
  cases r with
  | error e => trivial
  | ok stored =>
    change Journalling (saveFound stored n >>= f)
    cases old : List.any stored n.isRow with
    | true => exact .bind (.of_uses (unseated_found old)) fun _ => hf
    | false =>
      rw [saveFound_new old]
      refine ⟨.inr ⟨journalling n, ⟨n, rfl, rfl⟩, fun _ => next⟩, fun r => ?_⟩
      cases r with
      | error e => trivial
      | ok rows => exact hf

theorem journalling_assertCanAccess (user : AuthUser) (conversationId : Nat) :
    Journalling (assertCanAccess user conversationId) := by
  have find : ∀ t q, (findOne .pool t q).Uses Unseated := fun t q => any_findOne trivial
  refine Prog.Pairs.bind (.of_uses ((find _ _).bind fun o => ?_)) fun conv =>
    .bind (.of_uses (find _ _)) fun o => ?_
  · cases o <;> trivial
  · cases o with
    | some r => trivial
    | none =>
      refine .ite (fun hs => ?_) fun _ => trivial
      exact pairs_save (.bind (.of_uses (any_audit fun _ => trivial)) fun _ => trivial) ⟨_, rfl⟩

variable [AesGcm] [TokenHash] {k : Call}

section Seatless

theorem QuietOp.unseated {o : Op} (h : QuietOp k o) : Unseated o := by
  unfold Unseated
  split
  · exact fun f hf id now _ => (h.2 f hf id now).2
  · trivial

/-- What the other code of the calls gives nobody: a seat of staff. -/
theorem unseated_of {α : Type} {x : App α} (hx : x.Uses (QuietOp k)) : x.Uses Unseated :=
  hx.mono fun _ => QuietOp.unseated

theorem unseated_refuse {c : Prop} [Decidable c] {e : Err} :
    (onlyIf c (throw e)).Uses Unseated :=
  any_onlyIf trivial

theorem unseated_transaction {α : Type} {x : App α} (hx : x.Uses Unseated) :
    (transaction x).Uses Unseated := by
  refine Prog.Uses.tryCatch (((Prog.uses_perform _).2 trivial).bind fun _ => hx.bind fun _ => ?_)
    fun _ => ?_
  · exact ((Prog.uses_perform _).2 trivial).bind fun _ => trivial
  · exact ((Prog.uses_perform _).2 trivial).bind fun _ => trivial

theorem unseated_getOrCreateForOrder (orderId actorId : Nat) :
    (getOrCreateForOrder orderId actorId).Uses Unseated := by
  have find : ∀ c t q, (findOne c t q).Uses Unseated := fun _ _ _ => any_findOne trivial
  refine Prog.Uses.bind ((find _ _ _).bind fun o => by cases o <;> trivial) fun order => ?_
  refine (find _ _ _).bind fun o => ?_
  cases o with
  | some c => trivial
  | none =>
    refine unseated_transaction (Prog.Uses.tryCatch ?_ fun e => .ite (fun _ => ?_) fun _ => trivial)
    · refine (any_insertOne trivial).bind fun conv => Prog.Uses.bind ?_ fun _ =>
        (any_audit fun _ => trivial).bind fun _ => trivial
      refine (any_select trivial).bind fun stored => Prog.Uses.bind (any_onlyIf ?_) fun _ =>
        .forM fun n => any_onlyIf (((Prog.uses_perform _).2 trivial).bind fun _ => trivial)
      -- the two parties of an order are a customer and a seller
      refine Prog.Uses.bind ((Prog.uses_perform _).2 fun f hf id now h => ?_) fun _ => trivial
      obtain ⟨n, hn, rfl⟩ := List.mem_map.1 hf
      obtain ⟨hn, -⟩ := List.mem_filter.1 hn
      simp only [parties, List.mem_cons, List.not_mem_nil, or_false] at hn
      rcases hn with rfl | rfl <;> rcases h with h | h <;> cases h
    · exact (find _ _ _).bind fun o => by cases o <;> trivial

theorem unseated_decrypt (payload : EncryptedPayload) : (decrypt payload).Uses Unseated := by
  have asks : (unwrapWithKms payload.dekId).Uses Unseated := by
    unfold unwrapWithKms
    split
    · refine ((Prog.uses_perform _).2 trivial).bind fun kms => ?_
      split
      · exact ((Prog.uses_perform _).2 trivial).bind fun _ =>
          ((Prog.uses_perform _).2 trivial).bind fun _ => trivial
      · trivial
    · trivial
  refine Prog.Uses.bind (((Prog.uses_perform _).2 trivial).bind fun (cached : Option CachedDek) =>
    ((Prog.uses_perform _).2 trivial).bind fun (t : Nat) => ?_) fun dek => ?_
  · cases cached with
    | none => exact asks
    | some c => exact .ite (fun _ => trivial) fun _ => asks
  · cases AesGcm.decrypt dek payload.iv payload.tag payload.ciphertext <;> trivial

theorem unseated_toDecrypted (m : Message) (t : Option Utf16) :
    (toDecrypted m t).Uses Unseated := by
  refine Prog.Uses.bind (.ite (fun _ => trivial) fun _ => .ite (fun _ => trivial) fun _ => ?_)
    fun _ => trivial
  cases t with
  | some t => trivial
  | none =>
    dsimp only
    split
    · trivial
    · split
      · exact unseated_decrypt _
      · trivial

theorem unseated_mapM {α β : Type} {xs : List α} {f : α → App β} (hf : ∀ x, (f x).Uses Unseated) :
    (xs.mapM' f).Uses Unseated := by
  induction xs with
  | nil => trivial
  | cons x xs ih => exact (hf x).bind fun _ => ih.bind fun _ => trivial

theorem unseated_list (conversationId : Nat) (afterSequence beforeSequence limit : Option Utf16) :
    (list conversationId afterSequence beforeSequence limit).Uses Unseated := by
  have page : ∀ q d l, (selectPage conversationId q d l).Uses Unseated := fun q d l =>
    unseated_of (k := .natsInit 0) (uses_selectPage conversationId q d l)
  have parsed : ∀ s, (parameter .pool (bigint s)).Uses Unseated := fun s =>
    unseated_of (k := .natsInit 0) (uses_parameter _)
  refine Prog.Uses.bind ?_ fun rows => unseated_mapM fun m => unseated_toDecrypted m none
  unfold listRows
  split
  · exact (parsed _).bind fun n => page _ _ _
  · exact (parsed _).bind fun n => page _ _ _
  · exact page _ _ _

theorem unseated_storeMessage (input : SendMessageInput) (scan : ScanResult) (cols : BodyColumns)
    (conv : Conversation) : (storeMessage input scan cols conv).Uses Unseated := by
  refine (any_insertOne trivial).bind fun msg => (any_select trivial).bind fun ps => ?_
  refine Prog.Uses.bind (any_onlyIf ((any_select trivial).bind fun _ => any_onlyIf ?_)) fun _ => ?_
  · exact ((Prog.uses_perform _).2 trivial).bind fun _ => trivial
  · refine (any_insertOne trivial).bind fun _ => Prog.Uses.bind ?_ fun _ =>
      (any_onlyIf (any_audit fun _ => trivial)).bind fun _ => trivial
    exact ((Prog.uses_perform _).2 trivial).bind fun _ => trivial

theorem unseated_sendInTransaction (input : SendMessageInput) (scan : ScanResult)
    (cols : BodyColumns) : (sendInTransaction input scan cols).Uses Unseated := by
  refine ((Prog.uses_perform _).2 trivial).bind fun (rows : List Conversation) => ?_
  cases rows.head? with
  | none => trivial
  | some conv =>
    refine unseated_refuse.bind fun _ => Prog.Uses.bind
      (.ite (fun _ => trivial) fun _ => trivial) fun _ => (any_findOne trivial).bind fun part => ?_
    cases part with
    | none => trivial
    | some part =>
      refine unseated_refuse.bind fun _ => Prog.Uses.bind ?_ fun existing => ?_
      · unfold findExisting
        split
        · trivial
        · exact (any_onlyIf (unseated_of (k := .natsInit 0) (uses_parameter _))).bind fun _ =>
            any_findOne trivial
      · cases existing with
        | some m => trivial
        | none => exact unseated_storeMessage input scan cols conv

theorem unseated_send (input : SendMessageInput) : (send input).Uses Unseated := by
  refine ((Prog.uses_perform _).2 trivial).bind fun cfg => unseated_refuse.bind
    fun _ => unseated_refuse.bind fun _ => Prog.Uses.bind (.ite (fun _ => ?_) fun _ => trivial)
      fun cols => (unseated_transaction (unseated_sendInTransaction ..)).bind fun m =>
        (unseated_toDecrypted ..).bind fun d =>
          (unseated_of (k := .natsInit 0) (uses_broadcast _)).bind fun _ => trivial
  refine Prog.Uses.bind (Prog.Uses.bind ?_ fun _ => ?_) fun _ => trivial
  · exact ((Prog.uses_perform _).2 trivial).bind fun _ => ((Prog.uses_perform _).2 trivial).bind
      fun _ => ((Prog.uses_perform _).2 trivial).bind fun _ => trivial
  · exact ((Prog.uses_perform _).2 trivial).bind fun _ => trivial

theorem unseated_softDelete (messageId actorId : Nat) :
    (softDelete messageId actorId).Uses Unseated := by
  refine (any_findOne trivial).bind fun o => ?_
  cases o with
  | none => trivial
  | some m =>
    refine unseated_refuse.bind fun _ => ((Prog.uses_perform _).2 trivial).bind fun t =>
      Prog.Uses.bind ((any_findOne trivial).bind fun o => ?_) fun _ =>
        (any_audit fun _ => trivial).bind fun _ =>
          unseated_of (k := .natsInit 0) (uses_broadcast _)
    cases o with
    | none => exact ((Prog.uses_perform _).2 trivial).bind fun _ => trivial
    | some stored => exact ((Prog.uses_perform _).2 trivial).bind fun _ => trivial

theorem unseated_backfill (participants : List Nat) (m : Message) :
    (backfill participants m).Uses Unseated := by
  refine Prog.Uses.bind ?_ fun content => .ite (fun _ => trivial) fun _ =>
    unseated_of (k := .natsInit 0) (uses_indexMessage _)
  unfold decryptOrEmpty
  split
  · trivial
  · split
    · trivial
    · exact (unseated_decrypt _).tryCatch fun _ => trivial

theorem unseated_exportUserData (userId : Nat) : (exportUserData userId).Uses Unseated := by
  have export_ : ∀ m, (exportMessage m).Uses Unseated := by
    intro m
    refine Prog.Uses.bind ?_ fun _ => trivial
    unfold decryptIfNeeded
    split
    · trivial
    · split
      · trivial
      · exact (unseated_decrypt _).tryCatch fun _ => trivial
  refine (any_findOne trivial).bind fun o => ?_
  cases o with
  | none => trivial
  | some user =>
    refine (any_select trivial).bind fun ps => Prog.Uses.bind (.ite (fun _ => trivial) fun _ =>
      any_select trivial) fun ms => (unseated_mapM export_).bind fun _ => ?_
    exact (any_select trivial).bind fun _ => ((Prog.uses_perform _).2 trivial).bind fun t =>
      ((Prog.uses_perform _).2 trivial).bind fun _ => (any_audit fun _ => trivial).bind fun _ =>
        ((Prog.uses_perform _).2 trivial).bind fun _ => trivial

theorem unseated_revokeWhere (q : RefreshToken → Bool) (reason : String) :
    (revokeWhere q reason).Uses Unseated :=
  ((Prog.uses_perform _).2 trivial).bind fun _ => ((Prog.uses_perform _).2 trivial).bind fun _ => trivial

theorem unseated_refresh (token : Bytes) : (refresh token).Uses Unseated := by
  refine Prog.Uses.bind ((any_findOne trivial).bind fun o => ?_) fun t =>
    (any_findOne trivial).bind fun o => ?_
  · cases o with
    | none => trivial
    | some found =>
      have family : (revokeWhere (fun r => r.userId == found.userId) "family_compromise" >>=
          fun _ => throw (.forbidden "Session compromise — reconnexion requise") : App Unit).Uses
            Unseated :=
        (unseated_revokeWhere ..).bind fun _ => trivial
      refine (any_onlyIf family).bind fun _ =>
        ((Prog.uses_perform _).2 trivial).bind fun (t : Nat) => unseated_refuse.bind fun _ =>
          ((Prog.uses_perform _).2 trivial).bind fun (t : Nat) =>
            Prog.Uses.bind ((any_findOne trivial).bind fun o => ?_) fun _ =>
              Prog.Uses.bind ?_ fun _ => trivial
      · cases o with
        | none => exact ((Prog.uses_perform _).2 trivial).bind fun _ => trivial
        | some stored => exact ((Prog.uses_perform _).2 trivial).bind fun _ => trivial
      · exact ((Prog.uses_perform _).2 trivial).bind fun _ =>
          ((Prog.uses_perform _).2 trivial).bind fun _ => ((Prog.uses_perform _).2 trivial).bind
            fun _ => (any_insertOne trivial).bind fun _ => trivial
  · cases o with
    | none => trivial
    | some user => exact unseated_refuse.bind fun _ => trivial

/-- A call whose code gives nobody of the staff a seat, once access was checked. -/
theorem journalling_access {α : Type} (user : AuthUser) (conversationId : Nat)
    {f : Conversation × Role → App α} (hf : ∀ c, (f c).Uses Unseated) :
    Journalling (assertCanAccess user conversationId >>= f) :=
  (journalling_assertCanAccess user conversationId).bind fun c => .of_uses (hf c)

theorem journalling_presign (user : AuthUser) (conversationId : Nat) (filename mimeType : Utf16)
    (sizeBytes : Int) :
    Journalling (presignUpload user conversationId filename mimeType sizeBytes) := by
  refine .bind (.of_uses unseated_refuse) fun _ => .bind (.of_uses ((Prog.uses_perform _).2 trivial))
    fun cfg => .bind (.of_uses unseated_refuse) fun _ => journalling_access user conversationId
      fun _ => ?_
  exact ((Prog.uses_perform _).2 trivial).bind fun _ => ((Prog.uses_perform _).2 trivial).bind
    fun _ => ((Prog.uses_perform _).2 trivial).bind fun _ => (any_insertOne trivial).bind
      fun _ => trivial

theorem journalling_getDownloadUrl (user : AuthUser) (attachmentId : Nat) :
    Journalling (getDownloadUrl user attachmentId) := by
  refine .bind (.of_uses (any_findOne trivial)) fun o => ?_
  cases o with
  | none => trivial
  | some att =>
    exact .bind (.of_uses unseated_refuse) fun _ => journalling_access user att.conversationId
      fun _ => (Prog.uses_perform _).2 trivial

theorem journalling_enableIndexing (user : AuthUser) (conversationId : Nat) :
    Journalling (enableIndexing user conversationId) := by
  refine journalling_access user conversationId fun c => unseated_refuse.bind fun _ =>
    ((Prog.uses_perform _).2 trivial).bind fun cfg => unseated_refuse.bind fun _ => ?_
  refine (any_select trivial).bind fun rows => (any_select trivial).bind fun participants => ?_
  refine Prog.Uses.bind (.forM fun m => unseated_backfill _ m) fun _ => ?_
  exact ((Prog.uses_perform _).2 trivial).bind fun t => ((Prog.uses_perform _).2 trivial).bind
    fun _ => any_audit fun _ => trivial

theorem journalling_disableIndexing (user : AuthUser) (conversationId : Nat) :
    Journalling (disableIndexing user conversationId) :=
  journalling_access user conversationId fun _ => ((Prog.uses_perform _).2 trivial).bind fun _ =>
    (unseated_of (k := .natsInit 0) (uses_deleteByConversation _)).bind fun _ =>
      any_audit fun _ => trivial

/-- Every call journals the support and admin users it gives a seat. -/
theorem journalling_code (k : Call) : Journalling (code k) := by
  have quiet : ∀ {α : Type} {x : App α}, x.Uses (QuietOp k) → Journalling x := fun hx =>
    .of_uses (unseated_of hx)
  cases k with
  | openByOrder user orderId =>
    exact .of_uses ((unseated_getOrCreateForOrder orderId user.sub).bind fun _ => trivial)
  | getOne user c =>
    exact journalling_access user c fun _ => (any_select trivial).bind fun _ => trivial
  | send user c body key =>
    exact journalling_access user c fun _ => (unseated_send _).bind fun _ => trivial
  | list user c after before limit =>
    exact journalling_access user c fun _ => (unseated_list ..).bind fun _ => trivial
  | markRead user c upto =>
    exact journalling_access user c fun _ =>
      (unseated_of (uses_markRead (k := .markRead user c upto) rfl user.sub)).bind fun _ => trivial
  | softDelete user c m =>
    exact journalling_access user c fun _ => (unseated_softDelete ..).bind fun _ => trivial
  | report user m reason details =>
    exact quiet ((uses_report ..).bind fun _ => trivial)
  | resolve user r action =>
    exact quiet (Prog.Uses.bind (.ite (fun _ => trivial) fun _ => trivial) fun _ =>
      (uses_resolve rfl).bind fun _ => trivial)
  | presign user c filename mimeType size =>
    exact (journalling_presign ..).bind fun _ => trivial
  | finalize user a => exact quiet ((uses_finalize ..).bind fun _ => trivial)
  | download user a => exact (journalling_getDownloadUrl ..).bind fun _ => trivial
  | publishKeyPackages user device suite packages ttl =>
    exact quiet ((uses_publishKeyPackages rfl).bind fun _ => trivial)
  | claimKeyPackage user target suite => exact quiet ((uses_claimKeyPackage rfl).bind fun _ => trivial)
  | countKeyPackages user suite => exact quiet ((uses_countAvailable ..).bind fun _ => trivial)
  | enableE2ee user c gid suite welcomes =>
    exact (journalling_assertCanAccess user c).bind fun _ =>
      (journalling_access user c fun _ => unseated_of (uses_enabling rfl _)).bind fun _ => trivial
  | sendMls user c device kind epoch ciphertext target =>
    exact (journalling_assertCanAccess user c).bind fun _ =>
      (journalling_access user c fun _ => unseated_of (uses_sendMls rfl)).bind fun _ => trivial
  | listMls user c after limit =>
    refine (journalling_assertCanAccess user c).bind fun _ => .bind (journalling_access user c
      fun _ => ?_) fun _ => trivial
    exact (unseated_of (k := .natsInit 0) (uses_findGroup _)).bind fun _ =>
      (unseated_of (k := .natsInit 0) (uses_optionalBigint _)).bind fun _ =>
        (any_select trivial).bind fun _ => unseated_of (k := .natsInit 0) (uses_orThrow _)
  | enableSearch user c =>
    exact (journalling_assertCanAccess user c).bind fun _ =>
      (journalling_enableIndexing ..).bind fun _ => trivial
  | disableSearch user c =>
    exact (journalling_assertCanAccess user c).bind fun _ =>
      (journalling_disableIndexing ..).bind fun _ => trivial
  | exportData user => exact .of_uses ((unseated_exportUserData _).bind fun _ => trivial)
  | anonymize user u =>
    exact quiet (Prog.Uses.bind (uses_onlyIf (.ite (fun _ => trivial) fun _ => trivial)) fun _ =>
      (uses_anonymizeUser rfl _).bind fun _ => trivial)
  | login user => exact quiet ((uses_issue id _).bind fun _ => trivial)
  | refresh token => exact .of_uses ((unseated_refresh token).bind fun _ => trivial)
  | logout token => exact .of_uses ((unseated_revokeWhere ..).bind fun _ => trivial)
  | revokeAll u => exact .of_uses ((unseated_revokeWhere ..).bind fun _ => trivial)
  | natsInit n => exact quiet ((uses_natsInit n).bind fun _ => trivial)
  | processBatch n size =>
    have batch : (processBatch n size).Uses (QuietOp (.processBatch n size)) :=
      uses_processBatch (k := .processBatch n size) id trivial n size
    exact quiet (batch.bind fun _ => trivial)

end Seatless

end Joining

end Messageries.Proofs
