import Messageries.Proofs.Erasing
import Messageries.Proofs.Files
import Messageries.Proofs.Opening
import Messageries.Proofs.Sending
import Messageries.Proofs.Sessions

set_option linter.unusedSectionVars false

namespace Messageries.Proofs

open Text Relational Database Crypto Concurrency Backend

variable [AesGcm] [TokenHash]

section Endings

/-- The call runs only while its user has a seat where the message is. -/
def Vouched (g : Nat → Op → World → Prop) (user : AuthUser) (messageId : Nat) : Prop :=
  ∀ p o w, g p o w → (∃ reason details, w.calls p = some (.report user messageId reason details)) →
    ∀ m ∈ w.store.db .messages, (m : Message).id = messageId →
      Active w.store.db (m : Message).conversationId user.sub

/-- A process that has just come in. -/
structure Start (p : Nat) (k : Call) (w : World) : Prop where
  call : w.calls p = some k
  idle : w.store.tx p = none
  unwritten : ∀ x, (p, x) ∈ w.store.wal → writesTo x = .audit

/-- How process `p` ends its call. -/
def Post (db₀ : Db) (g : Nat → Op → World → Prop) (p : Nat) :
    Call → Except Err Response → World → Prop
  | .openByOrder user orderId, .ok r, w =>
    ∃ c, r = .conversation c ∧ OpenEnd g user orderId (.ok c) w
  | .openByOrder user orderId, .error e, w => OpenEnd g user orderId (.error e) w
  | .getOne user conversationId, .ok r, w =>
    Accessed user conversationId w ∧ ∃ c ps role, r = .detail c ps role ∧ c.id = conversationId
  | .send user conversationId _ key, .ok r, w =>
    Accessed user conversationId w ∧ ∃ d, r = .message d ∧ Returned user conversationId key d w
  | .list user conversationId afterSequence beforeSequence limit, .ok r, w =>
    Accessed user conversationId w ∧ ∃ ms, r = .messages ms ∧ Listed conversationId ms w ∧
      Snapshot db₀ p
        (Answered conversationId afterSequence beforeSequence (clamp limit 50 100) ms) w
  | .list _ _ _ _ _, .error e, _ => e ≠ .crypto
  | .markRead user conversationId _, .ok _, w => Accessed user conversationId w
  | .softDelete user _ messageId, .ok _, w =>
    ∃ m : Message, m.id = messageId ∧ m.senderId = user.sub ∧ Stored m w
  | .report user messageId _ _, .ok _, w =>
    ∃ m : Message, m.id = messageId ∧ Stored m w ∧
      (Vouched g user messageId → Active w.store.db m.conversationId user.sub)
  | .presign user conversationId _ _ _, .ok _, w => Accessed user conversationId w
  | .download user attachmentId, .ok _, w =>
    ∃ a : Attachment, a.id = attachmentId ∧ Read db₀ .attachments a w ∧
      Accessed user a.conversationId w
  | .enableE2ee user conversationId _ _ _, .ok _, w => Accessed user conversationId w
  | .sendMls user conversationId _ _ _ _ _, .ok _, w => Accessed user conversationId w
  | .listMls user conversationId _ _, .ok _, w => Accessed user conversationId w
  | .enableSearch user conversationId, .ok _, w => Accessed user conversationId w
  | .disableSearch user conversationId, .ok _, w => Accessed user conversationId w
  | .exportData user, .ok r, w =>
    ∃ x, r = .export x ∧ (∀ e ∈ x.messages, Exported e w) ∧
      Snapshot db₀ p (ExportOf user.sub x.messages) w
  | .refresh _, .ok _, w => ∃ f, Succeeded p f w
  | .refresh token, .error e, w => Rotation p token (.error e) w
  | .revokeAll userId, .ok _, w => Barred p userId w
  | _, _, _ => True

end Endings

section Calls

variable {db₀ : Db} {g : Nat → Op → World → Prop} {k : Call} {p : Nat} {φ : World → Prop}
  {α : Type}

theorem Start.base {w : World} (h : Start p k w) : Base k p w := by
  refine ⟨h.call, fun tx ht => ?_, fun _ r hr => ?_, fun _ => own_eq_nil.2 fun x hx => ?_⟩
  · rw [h.idle] at ht
    cases ht
  · exact nomatch h.unwritten _ hr
  · rw [h.unwritten x hx]
    rfl

theorem stable_start : (protocol db₀).Stable p (Start p k) := by
  intro a w w' ha _ _ hg h
  refine ⟨hg.calls p k h.call, (hg.frame.tx p ha).trans h.idle, fun x hx => ?_⟩
  rcases hg.author p x hx with hx | he | ht
  · exact h.unwritten x hx
  · exact (ha he).elim
  · exact ht

theorem persists_true : Persists db₀ fun _ => True := .const True

/-- The specification of a call, from its start to its answer. -/
theorem Spec.called {x : App Response} {Q : Except Err Response → World → Prop}
    (h : Spec db₀ g k p (fun _ => True) x Q)
    (hQ : ∀ r w, Inv db₀ w → Q r w → Post db₀ g p k r w) :
    Protocol.Valid machine g (protocol db₀) p (Start p k) x (Post db₀ g p k) :=
  (Protocol.Valid.pre h fun _ _ hs => ⟨hs.base, trivial⟩).post fun r w hi h => hQ r w hi h.2

theorem Spec.calledOk {x : App Response} {Q : Response → World → Prop}
    (h : Spec db₀ g k p (fun _ => True) x (onOk Q))
    (hQ : ∀ r w, Inv db₀ w → Q r w → Post db₀ g p k (.ok r) w)
    (he : ∀ e w, Post db₀ g p k (.error e) w) :
    Protocol.Valid machine g (protocol db₀) p (Start p k) x (Post db₀ g p k) :=
  h.called fun r w hi hw => by
    cases r with
    | ok a => exact hQ a w hi hw
    | error e => exact he e w

/-- A call whose answer says nothing of the state. -/
theorem valid_quiet {x : App Response} (hx : x.Uses (QuietOp k))
    (hP : ∀ r w, Post db₀ g p k r w) :
    Protocol.Valid machine g (protocol db₀) p (Start p k) x (Post db₀ g p k) :=
  (Spec.quiet hx persists_true).called fun r w _ _ => hP r w

/-- A call that checks the access of its user first. -/
theorem valid_accessed (user : AuthUser) (conversationId : Nat)
    {f : Conversation × Role → App Response} (hf : ∀ c, (f c).Uses (QuietOp k))
    (hP : ∀ r w, Accessed user conversationId w → Post db₀ g p k (.ok r) w)
    (he : ∀ e w, Post db₀ g p k (.error e) w) :
    Protocol.Valid machine g (protocol db₀) p (Start p k)
      (assertCanAccess user conversationId >>= f) (Post db₀ g p k) := by
  refine Spec.calledOk (Q := fun _ => Accessed user conversationId)
    ((spec_assertCanAccess user conversationId persists_true).seq fun c => ?_)
    (fun r w _ h => hP r w h) he
  exact (Spec.quiet_end (hf c) (.accessed user conversationId) fun _ _ _ h => h).pre
    fun _ _ h => h.2.2

end Calls

section Each

variable {db₀ : Db} {g : Nat → Op → World → Prop} {p : Nat}

/-- Code of the call `k` that ends as `Post` says. -/
abbrev Serves (db₀ : Db) (g : Nat → Op → World → Prop) (p : Nat) (k : Call) (x : App Response) :
    Prop :=
  Protocol.Valid machine g (protocol db₀) p (Start p k) x (Post db₀ g p k)

theorem serves_openByOrder (user : AuthUser) (orderId : Nat) :
    Serves db₀ g p (.openByOrder user orderId) (code (.openByOrder user orderId)) := by
  refine Protocol.Valid.bind (valid_open.pre fun w _ h => ⟨h.call, h.idle⟩) (fun c => ?_)
    fun _ _ _ h => h
  exact .pure fun w _ h => ⟨c, rfl, h⟩

theorem serves_getOne (user : AuthUser) (conversationId : Nat) :
    Serves db₀ g p (.getOne user conversationId) (code (.getOne user conversationId)) := by
  refine Spec.calledOk (Q := fun r w => Accessed user conversationId w ∧
    ∃ c ps role, r = .detail c ps role ∧ c.id = conversationId)
    ((spec_assertCanAccess user conversationId persists_true).seq fun c => ?_)
    (fun r w _ h => h) fun _ _ => trivial
  have hψ : Persists db₀ fun w => c.1.id = conversationId ∧ Accessed user conversationId w :=
    .and (.const _) (.accessed _ _)
  refine Spec.pre (φ := fun w => c.1.id = conversationId ∧ Accessed user conversationId w) ?_
    fun _ _ h => h.2
  exact Spec.quiet_seq (uses_select _) hψ
    (fun ps => .pure fun w _ h => ⟨h.2, c.1, ps, c.2, rfl, h.1⟩) fun _ _ _ _ => trivial

theorem serves_send (user : AuthUser) (conversationId : Nat) (body : Utf16) (key : Option Utf16) :
    Serves db₀ g p (.send user conversationId body key)
      (code (.send user conversationId body key)) := by
  refine ((asserts_code_send asserting_true persists_true).valid.pre fun w _ h =>
    ⟨h.base, trivial⟩).post fun r w _ h => ?_
  cases r with
  | ok r =>
    obtain ⟨ha, d, rfl, hd⟩ := h
    exact ⟨ha, d, rfl, hd.returned⟩
  | error e => trivial

theorem serves_list (user : AuthUser) (conversationId : Nat)
    (afterSequence beforeSequence limit : Option Utf16) :
    Serves db₀ g p (.list user conversationId afterSequence beforeSequence limit)
      (code (.list user conversationId afterSequence beforeSequence limit)) := by
  have body : Spec db₀ g (.list user conversationId afterSequence beforeSequence limit) p
      (fun _ => True) (code (.list user conversationId afterSequence beforeSequence limit))
      (ends (· ≠ .crypto) fun r w => Accessed user conversationId w ∧ ∃ ms, r = .messages ms ∧
        Listed conversationId ms w ∧ Snapshot db₀ p
          (Answered conversationId afterSequence beforeSequence (clamp limit 50 100) ms) w) := by
    refine (Spec.assertCanAccess persists_true).seq fun c => ?_
    refine Spec.seq ((spec_list conversationId afterSequence beforeSequence limit
      (.accessed user conversationId)).pre fun _ _ h => h.2.2) fun ms => ?_
    exact .pure fun w _ h => ⟨h.1.1, ms, rfl, h.1.2, h.2⟩
  exact body.called fun r w _ h => by
    cases r with
    | ok a => exact h
    | error e => exact h

theorem serves_softDelete (user : AuthUser) (conversationId messageId : Nat) :
    Serves db₀ g p (.softDelete user conversationId messageId)
      (code (.softDelete user conversationId messageId)) := by
  refine Spec.calledOk (Q := fun _ w =>
    ∃ m : Message, m.id = messageId ∧ m.senderId = user.sub ∧ Stored m w)
    ((spec_assertCanAccess user conversationId persists_true).seq fun c => ?_)
    (fun r w _ h => h) fun _ _ => trivial
  refine Spec.seq ((spec_softDelete rfl user.sub persists_true).pre
    fun _ _ _ => trivial) fun _ => ?_
  exact .pure fun w _ h => h.2

theorem spec_report {user : AuthUser} {messageId : Nat} {reason : Utf16} {details : Option Utf16} :
    Spec db₀ g (.report user messageId reason details) p (fun _ => True)
      (report messageId user.sub reason details)
      (onOk fun _ w => ∃ m : Message, m.id = messageId ∧ Stored m w ∧
        (Vouched g user messageId → Active w.store.db m.conversationId user.sub)) := by
  refine Spec.seq (Q := fun o w => ∀ m : Message, o = some m → m.id = messageId ∧ Stored m w ∧
    (Vouched g user messageId → Active w.store.db m.conversationId user.sub))
    (Spec.toOk (Spec.findOne (t := .messages) (fun w hi hb _ hg m hm => ?_) fun o => ?_))
    fun o => ?_
  · obtain ⟨hmem, hq⟩ := List.mem_filter.1 (List.mem_of_head? hm)
    have hid : (m : Message).id = messageId := by simpa using hq
    exact ⟨hid, .of_read hi (.of_mem hi hmem), fun hv => hv p _ w hg ⟨_, _, hb.1⟩ m hmem hid⟩
  · exact .forall fun m => .imp fun _ => .and (.const _)
      (.and (.stored m) (.imp fun _ => .active _ _))
  · cases o with
    | none => exact .throw fun _ _ _ => trivial
    | some m =>
      have hψ : Persists db₀ fun w => m.id = messageId ∧ Stored m w ∧
          (Vouched g user messageId → Active w.store.db m.conversationId user.sub) :=
        .and (.const _) (.and (.stored m) (.imp fun _ => .active _ _))
      refine Spec.pre (φ := fun w => m.id = messageId ∧ Stored m w ∧
        (Vouched g user messageId → Active w.store.db m.conversationId user.sub)) ?_
        fun _ _ h => h m rfl
      refine Spec.quiet_seq (uses_insertOne (t := .reports) (free_of rfl rfl)
        fun _ _ => ⟨.inr rfl, trivial⟩) hψ (fun r => ?_) fun _ _ _ _ => trivial
      exact Spec.quiet_seq (uses_audit ..) hψ (fun _ => .pure fun w _ h => ⟨m, h⟩)
        fun _ _ _ _ => trivial

theorem serves_report (user : AuthUser) (messageId : Nat) (reason : Utf16)
    (details : Option Utf16) :
    Serves db₀ g p (.report user messageId reason details)
      (code (.report user messageId reason details)) :=
  Spec.calledOk (Q := fun _ w => ∃ m : Message, m.id = messageId ∧ Stored m w ∧
      (Vouched g user messageId → Active w.store.db m.conversationId user.sub))
    (spec_report.seq fun _ => .pure fun _ _ h => h) (fun _ _ _ h => h) fun _ _ => trivial

theorem serves_presign (user : AuthUser) (conversationId : Nat) (filename mimeType : Utf16)
    (sizeBytes : Int) :
    Serves db₀ g p (.presign user conversationId filename mimeType sizeBytes)
      (code (.presign user conversationId filename mimeType sizeBytes)) :=
  Spec.calledOk (Q := fun _ => Accessed user conversationId)
    ((spec_presignUpload user conversationId filename mimeType sizeBytes persists_true).seq
      fun _ => .pure fun _ _ h => h.2) (fun _ _ _ h => h) fun _ _ => trivial

theorem serves_download (user : AuthUser) (attachmentId : Nat) :
    Serves db₀ g p (.download user attachmentId) (code (.download user attachmentId)) :=
  Spec.calledOk (Q := fun _ w => ∃ a : Attachment, a.id = attachmentId ∧
      Read db₀ .attachments a w ∧ Accessed user a.conversationId w)
    ((spec_getDownloadUrl user attachmentId persists_true).seq
    fun _ => .pure fun _ _ h => h.2) (fun _ _ _ h => h) fun _ _ => trivial

theorem serves_exportData (user : AuthUser) :
    Serves db₀ g p (.exportData user) (code (.exportData user)) :=
  Spec.calledOk (Q := fun r w => ∃ x, r = .export x ∧ (∀ e ∈ x.messages, Exported e w) ∧
      Snapshot db₀ p (ExportOf user.sub x.messages) w)
    ((spec_exportUserData user.sub persists_true).seq
      fun x => .pure fun _ _ h => ⟨x, rfl, h.2⟩) (fun _ _ _ h => h) fun _ _ => trivial

theorem serves_refresh (token : Bytes) :
    Serves db₀ g p (.refresh token) (code (.refresh token)) := by
  refine Protocol.Valid.bind (valid_refresh.pre fun w _ h => h.base) (fun next => ?_)
    fun _ _ _ h => h
  exact .pure fun w _ h => h

theorem serves_revokeAll (userId : Nat) :
    Serves db₀ g p (.revokeAll userId) (code (.revokeAll userId)) :=
  Spec.calledOk (Q := fun _ => Barred p userId)
    (spec_revokeAll.seq fun _ => .pure fun _ _ h => h) (fun _ _ _ h => h) fun _ _ => trivial

theorem serves_enableSearch (user : AuthUser) (conversationId : Nat) :
    Serves db₀ g p (.enableSearch user conversationId)
      (code (.enableSearch user conversationId)) := by
  refine Spec.calledOk (Q := fun _ => Accessed user conversationId)
    ((spec_assertCanAccess user conversationId persists_true).seq fun c => ?_)
    (fun _ _ _ h => h) fun _ _ => trivial
  have hψ : Persists db₀ fun w => c.1.id = conversationId ∧ Accessed user conversationId w :=
    .and (.const _) (.accessed _ _)
  refine Spec.seq ((spec_enableIndexing (k := .enableSearch user conversationId) id trivial user
    c.1.id hψ).pre fun _ _ h => h.2) fun _ => ?_
  exact .pure fun _ _ h => h.1.2

theorem serves_markRead (user : AuthUser) (conversationId : Nat) (uptoSequence : Utf16) :
    Serves db₀ g p (.markRead user conversationId uptoSequence)
      (code (.markRead user conversationId uptoSequence)) :=
  valid_accessed user conversationId
    (fun _ => (uses_markRead rfl user.sub).bind fun _ => trivial)
    (fun _ _ h => h) fun _ _ => trivial

/-- A call that checks the access of its user twice. -/
theorem valid_accessedTwice {k : Call} {user : AuthUser} {conversationId : Nat} {α : Type}
    {x : Conversation × Role → App α} {f : α → App Response}
    (hx : ∀ c, (x c).Uses (QuietOp k)) (hf : ∀ a, (f a).Uses (QuietOp k))
    (hP : ∀ r w, Accessed user conversationId w → Post db₀ g p k (.ok r) w)
    (he : ∀ e w, Post db₀ g p k (.error e) w) :
    Serves db₀ g p k (assertCanAccess user conversationId >>= fun _ =>
      (assertCanAccess user conversationId >>= x) >>= f) := by
  have access : Persists db₀ (Accessed user conversationId) := .accessed _ _
  refine Spec.calledOk (Q := fun _ => Accessed user conversationId)
    ((spec_assertCanAccess user conversationId persists_true).seq fun _ => ?_)
    (fun r w _ h => hP r w h) he
  refine Spec.seq (Q := fun _ => Accessed user conversationId)
    (Spec.seq ((spec_assertCanAccess user conversationId access).pre fun _ _ h => h.2.2)
      fun c => ?_) fun a => Spec.quiet_end (hf a) access fun _ _ _ h => h
  exact (Spec.quiet_end (hx c) access fun _ _ _ h => h).pre fun _ _ h => h.1

theorem uses_enabling {user : AuthUser} {conversationId : Nat} {groupIdMls : Bytes}
    {cipherSuite : Utf16} {welcomeMessages : List Welcome} {k : Call}
    (hk : k = .enableE2ee user conversationId groupIdMls cipherSuite welcomeMessages)
    (c : Conversation × Role) :
    (onlyIf c.1.e2eeEnabled (throw (.conflict "Déjà E2EE")) >>= fun _ => transaction do
      let group ← insertOne .tx .groups (newGroup conversationId groupIdMls cipherSuite user.sub)
      saveWelcomes group.id user.sub 0 welcomeMessages
      let t ← now
      let _ ← update .tx .conversations (fun c => c.id == conversationId) fun _ => setE2ee t
      audit (some user.sub) "e2ee.enabled" "conversation" (some conversationId)
        [("cipherSuite", .string cipherSuite), ("welcomes", .number welcomeMessages.length)]
      return group.id).Uses (QuietOp k) := by
  refine uses_refuse.bind fun _ => uses_transaction ?_
  refine (uses_insertOne (t := .groups) (free_of rfl rfl) fun _ _ =>
    ⟨⟨user, groupIdMls, cipherSuite, welcomeMessages, hk, rfl⟩, trivial⟩).bind fun group => ?_
  refine (uses_saveWelcomes hk group.id 0 fun _ h => h).bind fun _ => uses_now.bind fun t => ?_
  have enable : IsEnable k := hk ▸ trivial
  have hs : ¬IsSend k := hk ▸ id
  exact (uses_update (t := .conversations) ⟨fun _ => hs, nofun⟩ (fun _ r => still_setE2ee t r)
    fun _ _ => ⟨.inl enable, .inr fun _ => rfl, .inr fun _ => rfl⟩).bind fun _ =>
      (uses_audit ..).bind fun _ => trivial

theorem serves_enableE2ee (user : AuthUser) (conversationId : Nat) (groupIdMls : Bytes)
    (cipherSuite : Utf16) (welcomeMessages : List Welcome) :
    Serves db₀ g p (.enableE2ee user conversationId groupIdMls cipherSuite welcomeMessages)
      (code (.enableE2ee user conversationId groupIdMls cipherSuite welcomeMessages)) :=
  valid_accessedTwice (uses_enabling rfl) (fun _ => trivial) (fun _ _ h => h)
    fun _ _ => trivial

theorem uses_sendMls {user : AuthUser} {input : MlsInput} {k : Call}
    (hk : k = .sendMls user input.conversationId input.senderDeviceId input.kind input.epoch
      input.ciphertext input.targetUserId) :
    (findGroup input.conversationId >>= fun group => transaction do
      match (← lockRows .tx .groups (fun _ g => g.id == group.id) id).head? with
      | none => throw .unexpected
      | some g =>
        let rows ← select .tx .mlsMessages fun m => m.groupId == g.id
        let nextSeq := lastSequence rows + 1
        onlyIf (input.kind = .commit) do
          let _ ← update .tx .groups (fun x => x.id == g.id) fun _ => setEpoch (g.epoch + 1)
        let epoch ← parameter .tx (bigint input.epoch)
        let saved ← insertOne .tx .mlsMessages (newMlsMessage input g.id user.sub epoch nextSeq)
        return (saved.id, nextSeq)).Uses (QuietOp k) := by
  refine (uses_findGroup _).bind fun group => uses_transaction ?_
  refine (uses_lockRows (t := .groups) ..).bind fun rows => ?_
  cases rows.head? with
  | none => trivial
  | some g =>
    refine (uses_select (t := .mlsMessages) _).bind fun rows => ?_
    refine (uses_onlyIf ?_).bind fun _ => uses_parsed fun epoch he => ?_
    · have sends : IsSendMls k := hk ▸ trivial
      exact (uses_update (t := .groups) (free_of rfl rfl) (fun _ _ => ⟨trivial, trivial⟩)
        fun _ _ => ⟨sends, _, rfl⟩).bind fun _ => trivial
    · exact (uses_insertOne (t := .mlsMessages) (free_of rfl rfl) fun id now =>
        ⟨.inr ⟨user, _, _, _, _, _, _, g.id, epoch, _, id, now, hk, he, rfl⟩, trivial⟩).bind
          fun _ => trivial

theorem serves_sendMls (user : AuthUser) (conversationId : Nat) (senderDeviceId : Utf16)
    (kind : MlsKind) (epoch : Utf16) (ciphertext : Bytes) (targetUserId : Option Nat) :
    Serves db₀ g p
      (.sendMls user conversationId senderDeviceId kind epoch ciphertext targetUserId)
      (code (.sendMls user conversationId senderDeviceId kind epoch ciphertext targetUserId)) :=
  valid_accessedTwice (fun _ => uses_sendMls rfl) (fun _ => trivial) (fun _ _ h => h)
    fun _ _ => trivial

theorem uses_optionalBigint {k : Call} (s : Option Utf16) :
    (optionalBigint s).Uses (QuietOp k) := by
  unfold optionalBigint
  split
  · trivial
  · exact (uses_parameter _).bind fun _ => trivial

theorem serves_listMls (user : AuthUser) (conversationId : Nat)
    (afterSequence limit : Option Utf16) :
    Serves db₀ g p (.listMls user conversationId afterSequence limit)
      (code (.listMls user conversationId afterSequence limit)) :=
  valid_accessedTwice (fun _ => (uses_findGroup _).bind fun _ => (uses_optionalBigint _).bind
    fun _ => (uses_select _).bind fun _ => uses_orThrow _) (fun _ => trivial) (fun _ _ h => h)
    fun _ _ => trivial

theorem uses_disabling (user : AuthUser) (conversationId : Nat) {k : Call} (hs : ¬IsSend k)
    (hk : IsSearch k) :
    (update .pool .conversations (fun c => c.id == conversationId) (fun _ =>
      setSearchIndexed false none) >>= fun _ => deleteByConversation conversationId >>= fun _ =>
      audit (some user.sub) "search.disabled" "conversation" (some conversationId) []).Uses
      (QuietOp k) :=
  (uses_update (t := .conversations) ⟨fun _ => hs, nofun⟩
    (fun _ r => still_setSearchIndexed _ _ r)
    fun _ _ => ⟨.inr fun _ => rfl, .inl hk, .inr fun _ => rfl⟩).bind fun _ =>
    (uses_deleteByConversation _).bind fun _ => uses_audit ..

theorem serves_disableSearch (user : AuthUser) (conversationId : Nat) :
    Serves db₀ g p (.disableSearch user conversationId)
      (code (.disableSearch user conversationId)) := by
  have access : Persists db₀ (Accessed user conversationId) := .accessed _ _
  refine Spec.calledOk (Q := fun _ => Accessed user conversationId)
    ((spec_assertCanAccess user conversationId persists_true).seq fun c => ?_)
    (fun _ _ _ h => h) fun _ _ => trivial
  refine Spec.seq (Q := fun _ => Accessed user conversationId) (Spec.seq
    ((spec_assertCanAccess user c.1.id access).pre fun _ _ h => h.2.2) fun _ => ?_)
    fun _ => .pure fun _ _ h => h
  have disabling := uses_disabling user c.1.id (k := .disableSearch user conversationId)
    id trivial
  exact (Spec.quiet_end disabling access fun _ _ _ h => h).pre fun _ _ h => h.1

/-- Every call ends as its postcondition says. -/
theorem serves_code (k : Call) : Serves db₀ g p k (code k) := by
  cases k with
  | openByOrder user orderId => exact serves_openByOrder user orderId
  | getOne user conversationId => exact serves_getOne user conversationId
  | send user conversationId body key => exact serves_send user conversationId body key
  | list user conversationId after before limit =>
    exact serves_list user conversationId after before limit
  | markRead user conversationId upto => exact serves_markRead user conversationId upto
  | softDelete user conversationId messageId =>
    exact serves_softDelete user conversationId messageId
  | report user messageId reason details => exact serves_report user messageId reason details
  | presign user conversationId filename mimeType size =>
    exact serves_presign user conversationId filename mimeType size
  | download user attachmentId => exact serves_download user attachmentId
  | enableE2ee user conversationId groupIdMls cipherSuite welcomes =>
    exact serves_enableE2ee user conversationId groupIdMls cipherSuite welcomes
  | sendMls user conversationId device kind epoch ciphertext target =>
    exact serves_sendMls user conversationId device kind epoch ciphertext target
  | listMls user conversationId after limit => exact serves_listMls user conversationId after limit
  | enableSearch user conversationId => exact serves_enableSearch user conversationId
  | disableSearch user conversationId => exact serves_disableSearch user conversationId
  | exportData user => exact serves_exportData user
  | refresh token => exact serves_refresh token
  | revokeAll userId => exact serves_revokeAll userId
  | resolve user reportId action =>
    exact valid_quiet (Prog.Uses.bind (.ite (fun _ => trivial) fun _ => trivial) fun _ =>
      (uses_resolve rfl).bind fun _ => trivial) fun _ _ => trivial
  | finalize user attachmentId =>
    exact valid_quiet ((uses_finalize ..).bind fun _ => trivial) fun _ _ => trivial
  | publishKeyPackages user deviceId cipherSuite keyPackages ttlDays =>
    exact valid_quiet ((uses_publishKeyPackages rfl).bind fun _ => trivial) fun _ _ => trivial
  | claimKeyPackage user targetUserId cipherSuite =>
    exact valid_quiet ((uses_claimKeyPackage rfl).bind fun _ => trivial) fun _ _ => trivial
  | countKeyPackages user cipherSuite =>
    exact valid_quiet ((uses_countAvailable _ _).bind fun _ => trivial) fun _ _ => trivial
  | anonymize user userId =>
    have erase := uses_anonymizeUser (k := .anonymize user userId) rfl user.sub
    exact valid_quiet (Prog.Uses.bind (.ite (fun _ => .ite (fun _ => trivial) fun _ => trivial)
      fun _ => trivial) fun _ => erase.bind fun _ => trivial) fun _ _ => trivial
  | login user => exact valid_quiet ((uses_issue id _).bind fun _ => trivial) fun _ _ => trivial
  | logout token =>
    exact valid_quiet ((uses_revokeWhere id ..).bind fun _ => trivial) fun _ _ => trivial
  | natsInit worker =>
    exact valid_quiet ((uses_natsInit worker).bind fun _ => trivial) fun _ _ => trivial
  | processBatch worker batchSize =>
    have batch := uses_processBatch (k := .processBatch worker batchSize) id trivial worker batchSize
    exact valid_quiet (batch.bind fun _ => trivial) fun _ _ => trivial

end Each

section Runs

variable {db₀ : Db} {g : Nat → Op → World → Prop} {p : Nat} {k : Call} {w w' : World}

theorem event_step {x : Event} (hi : Inv db₀ w) (h : w.event x = some w') :
    Inv db₀ w' ∧ Guar none w w' := by
  have untouched : ∀ {settings objects}, Same w { w with settings, objects } :=
    ⟨⟨rfl, rfl, rfl, rfl, rfl, rfl, Nat.le_refl _⟩, rfl, rfl, rfl, rfl⟩
  cases x with
  | tick ms =>
    cases h
    have ticked : Same w { w with clock := w.clock + ms } :=
      ⟨⟨rfl, rfl, rfl, rfl, rfl, rfl, Nat.le_add_right _ _⟩, rfl, rfl, rfl, rfl⟩
    exact ⟨ticked.1.inv hi, ticked.guar none⟩
  | configure s =>
    cases h
    exact ⟨untouched.1.inv hi, untouched.guar none⟩
  | upload key size =>
    cases h
    exact ⟨untouched.1.inv hi, untouched.guar none⟩
  | evict ids =>
    cases h
    refine ⟨⟨hi.ok, hi.idle, hi.apart, hi.keys, hi.active, fun c hc => ?_, hi.arrived, hi.db⟩, ?_⟩
    · exact hi.cache c (List.mem_filter.1 hc).1
    · exact ⟨.refl none w.store, .refl _, fun _ _ h => h, fun _ _ _ => rfl, fun _ h => h,
        List.prefix_rfl, fun _ _ h => .inl h, .inl ⟨rfl, rfl, rfl⟩, Nat.le_refl _⟩
  | rotateKeys kms =>
    simp only [World.event] at h
    split at h
    · rename_i hk
      cases h
      have grows : w.keyLog ⊆ (if (kms.active, kms.activeKey) ∈ w.keyLog then w.keyLog
          else w.keyLog ++ [(kms.active, kms.activeKey)]) := by
        split
        · exact fun _ h => h
        · exact List.subset_append_left _ _
      refine ⟨⟨hi.ok, hi.idle, hi.apart, fun e he => ?_, ?_, fun c hc => (hi.cache c hc).mono grows,
        hi.arrived, hi.db.idle rfl rfl (fun _ _ h => h) (fun _ _ _ => rfl) grows (Nat.le_refl _)⟩,
        ⟨.refl none w.store, .refl _, fun _ _ h => h, fun _ _ _ => rfl, grows, List.prefix_rfl,
          fun _ _ h => .inl h, .inl ⟨rfl, rfl, rfl⟩, Nat.le_refl _⟩⟩
      · have he : e ∈ (if (kms.active, kms.activeKey) ∈ w.keyLog then w.keyLog
            else w.keyLog ++ [(kms.active, kms.activeKey)]) := he
        split at he
        · exact hk e he
        · rcases List.mem_append.1 he with he | he
          · exact hk e he
          · rw [List.mem_singleton.1 he]
            exact lookup_activeKey kms
      · change (kms.active, kms.activeKey) ∈ (if (kms.active, kms.activeKey) ∈ w.keyLog
          then w.keyLog else w.keyLog ++ [(kms.active, kms.activeKey)])
        split
        · assumption
        · exact List.mem_append_right _ (List.mem_singleton_self _)
    · cases h

theorem enter_step (hi : Inv db₀ w) (h : w.enter p k = some w') :
    Inv db₀ w' ∧ Guar (some p) w w' ∧ Start p k w' := by
  simp only [World.enter] at h
  split at h
  · rename_i hp
    cases h
    have calls : ∀ q k', w.calls q = some k' → Function.update w.calls p (some k) q = some k' := by
      intro q k' hq
      rw [Function.update_of_ne, hq]
      rintro rfl
      exact Option.some_ne_none k' (hq.symm.trans hp)
    have arrived : ∀ q k', w.calls q = some k' →
        Function.update w.arrived p w.store.wal.length q = w.arrived q := by
      intro q k' hq
      rw [Function.update_of_ne]
      rintro rfl
      exact Option.some_ne_none k' (hq.symm.trans hp)
    refine ⟨⟨hi.ok, fun q hq => hi.idle q ?_, hi.apart, hi.keys, hi.active, hi.cache, fun q => ?_,
      hi.db.idle rfl rfl calls arrived (fun _ h => h) (Nat.le_refl _)⟩,
      ⟨.refl _ w.store, .refl _, calls, arrived, fun _ h => h, List.prefix_rfl,
        fun _ _ h => .inl h, .inl ⟨rfl, rfl, rfl⟩, Nat.le_refl _⟩,
      Function.update_self .., hi.idle p hp, fun x hx => ?_⟩
    · cases hc : w.calls q with
      | none => rfl
      | some k' => exact (calls q k' hc).symm.trans hq
    · change Function.update w.arrived p w.store.wal.length q ≤ w.store.wal.length
      by_cases e : q = p
      · rw [e, Function.update_self]
      · rw [Function.update_of_ne e]
        exact hi.arrived q
    · -- a process that wrote had come in before
      obtain ⟨k', hk', -⟩ := hi.db.known p x hx
      exact (Option.some_ne_none k' (hk'.symm.trans hp)).elim
  · cases h

theorem lose_step (hi : Inv db₀ w) :
    Inv db₀ (w.lose p) ∧ Guar (some p) w (w.lose p) := by
  cases hk : w.calls p with
  | some k => exact rollback_step hi hk
  | none =>
    have idle : w.store.tx p = none := hi.idle p hk
    refine ⟨⟨hi.ok.rollback, fun q hq => ?_, fun q tx hq => ?_, hi.keys, hi.active, hi.cache,
      hi.arrived, hi.db.idle rfl rfl (fun _ _ h => h) (fun _ _ _ => rfl) (fun _ h => h)
        (Nat.le_refl _)⟩, State.frame_rollback, .refl _, fun _ _ h => h, fun _ _ _ => rfl,
      fun _ h => h, List.prefix_rfl, fun _ _ h => .inl h, .inl ⟨rfl, rfl, rfl⟩,
      Nat.le_refl _⟩
    · by_cases e : q = p
      · simp [World.lose, World.withStore, State.rollback, e]
      · have := hi.idle q hq
        simpa [World.lose, World.withStore, State.rollback, e] using this
    · by_cases e : q = p
      · simp [World.lose, World.withStore, State.rollback, e] at hq
      · refine hi.apart q tx ?_
        simpa [World.lose, World.withStore, State.rollback, e] using hq

/-- The runs that start from `w₀`. -/
abbrev From (w₀ : World) : World → Prop := fun w => Initial w₀ ∧ w = w₀

theorem sound (g : Nat → Op → World → Prop) (w₀ : World) :
    Protocol.Sound machine g (protocol w₀.store.db) (From w₀) Start (Post w₀.store.db g) where
  init := by
    rintro w ⟨hw, rfl⟩
    exact hw.inv
  event := fun _ _ _ hi h => event_step hi h
  enter := fun _ _ _ _ hi h => enter_step hi h
  lose := fun _ _ hi => lose_step hi
  start := fun _ _ => stable_start
  code := fun _ k => serves_code k

theorem initial_of_reach {w₀ : World} {P : Pool Op Op.Res Err World Call Response}
    (h : machine.Reach (From w₀) g P) : Initial w₀ := by
  induction h with
  | init hs => exact hs.1
  | step _ _ _ _ ih => exact ih

/-- What a send asserts holds at its operations, and it replies with its message. -/
theorem sends_assert {w₀ : World} {P : Pool Op Op.Res Err World Call Response}
    (h : machine.Reach (From w₀) g P) {user : AuthUser} {cid : Nat} {body : Utf16}
    {key : Option Utf16} {C : Op → World → Prop}
    (hC : Asserting w₀.store.db p user cid body key C) {x : App Response}
    (ht : P.threads p = some ⟨.send user cid body key, some x⟩) :
    (∀ o next, x = .op o next → C o P.shared) ∧
      ∀ r, x = .pure r → ∃ d, r = .message d ∧ Replies user cid body key d P.shared := by
  -- only this call of this process has something to assert
  have all : ∀ q k, Protocol.Asserts machine g (protocol w₀.store.db) q
      (fun o w => q = p → k = .send user cid body key → C o w) (Start q k) (code k)
      fun r w => q = p → k = .send user cid body key → ∀ a, r = .ok a →
        ∃ d, a = .message d ∧ Replies user cid body key d w := by
    intro q k
    by_cases e : q = p ∧ k = .send user cid body key
    · obtain ⟨rfl, rfl⟩ := e
      have lifted : Asserting w₀.store.db q user cid body key fun o w =>
          q = q → Call.send user cid body key = .send user cid body key → C o w :=
        ⟨fun o ho w _ _ => hC.mute o ho w, fun cols conv w hi hb hu hh _ _ =>
          hC.stores cols conv w hi hb hu hh, fun d w hi hr _ _ => hC.shows d w hi hr⟩
      refine ((asserts_code_send lifted persists_true).pre fun w _ h => ⟨h.base, trivial⟩).post
        fun r w _ hr _ _ a ha => ?_
      subst ha
      exact hr.2
    · refine ((serves_code k).asserts ((Prog.uses_true _).mono fun o _ w hq hk =>
        (e ⟨hq, hk⟩).elim)).post fun r w _ _ hq hk => (e ⟨hq, hk⟩).elim
  refine ⟨fun o next e => ?_, fun r e => ?_⟩
  · subst e
    exact (sound g w₀).asserts all h ht rfl rfl
  · subst e
    obtain ⟨φ, -, hφ, hv⟩ := (sound g w₀).holds_asserts all h ht
    cases hv with
    | pure hQ => exact hQ _ ((sound g w₀).inv h) hφ rfl rfl r rfl

/-- A thread serves the call its process came in with. -/
theorem call_of_thread {w₀ : World} {P : Pool Op Op.Res Err World Call Response}
    (h : machine.Reach (From w₀) g P) {t : Thread Op Op.Res Err Call Response}
    (ht : P.threads p = some t) : P.shared.calls p = some t.call := by
  induction h generalizing p t with
  | init _ => cases ht
  | @step P P' l hP hl hst ih =>
    have keep := ((sound g w₀).step ((sound g w₀).holds hP) hl hst).2
    obtain ⟨a, hg⟩ := keep
    have old : ∀ {q : Nat} {t : Thread Op Op.Res Err Call Response}, P.threads q = some t →
        P'.shared.calls q = some t.call := fun hq => hg.calls _ _ (ih hq)
    rcases Machine.step_cases hst with ⟨q, k, s, rfl, -, hx, rfl⟩ |
      ⟨q, i, k, o, next, r, s, rfl, hq, -, rfl⟩ | ⟨x, s, rfl, -, rfl⟩ | ⟨q, k, o, next, rfl, hq, rfl⟩
    · by_cases e : p = q
      · subst e
        rw [Pool.put_self] at ht
        cases ht
        exact (enter_step ((sound g w₀).inv hP) hx).2.2.call
      · rw [Pool.put_of_ne _ _ _ e] at ht
        exact old ht
    · by_cases e : p = q
      · subst e
        rw [Pool.put_self] at ht
        cases ht
        have known := ih hq
        exact hg.calls p k known
      · rw [Pool.put_of_ne _ _ _ e] at ht
        exact old ht
    · exact old ht
    · by_cases e : p = q
      · subst e
        rw [Pool.put_self] at ht
        cases ht
        have known := ih hq
        exact hg.calls p k known
      · rw [Pool.put_of_ne _ _ _ e] at ht
        exact old ht

end Runs

end Messageries.Proofs
