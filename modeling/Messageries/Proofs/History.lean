import Messageries.Backend.Api
import Messageries.Relational.Laws

namespace Messageries.Proofs

open Text Relational Database Concurrency Backend

abbrev Write := schema.Write

section Later

/-- A message that readers no longer get to see. -/
def gone (s : MessageStatus) : Bool := s == .deleted || s == .hidden

/-- `m'` is the row `m` at a later time. -/
structure MessageLater (m m' : Message) : Prop where
  id : m'.id = m.id
  conversationId : m'.conversationId = m.conversationId
  senderId : m'.senderId = m.senderId
  sequence : m'.sequence = m.sequence
  idempotencyKey : m'.idempotencyKey = m.idempotencyKey
  createdAt : m'.createdAt = m.createdAt
  stays : gone m.status = true → gone m'.status = true
  body : m'.body = none ∨ m'.body = m.body
  dekId : m'.bodyDekId = none ∨ m'.bodyDekId = m.bodyDekId
  content : gone m'.status = false → m'.status = m.status ∧ m'.body = m.body ∧
    sealedBody m' = sealedBody m

theorem MessageLater.refl (m : Message) : MessageLater m m :=
  ⟨rfl, rfl, rfl, rfl, rfl, rfl, fun h => h, .inr rfl, .inr rfl, fun _ => ⟨rfl, rfl, rfl⟩⟩

theorem MessageLater.trans {m m' m'' : Message} (h : MessageLater m m')
    (h' : MessageLater m' m'') : MessageLater m m'' := by
  refine ⟨h'.id.trans h.id, h'.conversationId.trans h.conversationId, h'.senderId.trans h.senderId,
    h'.sequence.trans h.sequence, h'.idempotencyKey.trans h.idempotencyKey,
    h'.createdAt.trans h.createdAt, fun hg => h'.stays (h.stays hg), ?_, ?_, fun hg => ?_⟩
  · rcases h'.body with e | e
    · exact .inl e
    · exact e ▸ h.body
  · rcases h'.dekId with e | e
    · exact .inl e
    · exact e ▸ h.dekId
  · obtain ⟨hs, hb, hc⟩ := h'.content hg
    obtain ⟨hs', hb', hc'⟩ := h.content (hs ▸ hg)
    exact ⟨hs.trans hs', hb.trans hb', hc.trans hc'⟩

/-- `r'` is the refresh token `r` at a later time. -/
structure TokenLater (r r' : RefreshToken) : Prop where
  id : r'.id = r.id
  userId : r'.userId = r.userId
  tokenHash : r'.tokenHash = r.tokenHash
  parentId : r'.parentId = r.parentId
  revoked : r.revokedAt ≠ none → r'.revokedAt ≠ none

theorem TokenLater.refl (r : RefreshToken) : TokenLater r r := ⟨rfl, rfl, rfl, rfl, fun h => h⟩

theorem TokenLater.trans {r r' r'' : RefreshToken} (h : TokenLater r r') (h' : TokenLater r' r'') :
    TokenLater r r'' :=
  ⟨h'.id.trans h.id, h'.userId.trans h.userId, h'.tokenHash.trans h.tokenHash,
    h'.parentId.trans h.parentId, fun hr => h'.revoked (h.revoked hr)⟩

/-- `c'` is the conversation `c` at a later time. -/
structure ConversationLater (c c' : Conversation) : Prop where
  id : c'.id = c.id
  orderId : c'.orderId = c.orderId
  e2ee : c.e2eeEnabled = true → c'.e2eeEnabled = true

theorem ConversationLater.refl (c : Conversation) : ConversationLater c c := ⟨rfl, rfl, fun h => h⟩

theorem ConversationLater.trans {c c' c'' : Conversation} (h : ConversationLater c c')
    (h' : ConversationLater c' c'') : ConversationLater c c'' :=
  ⟨h'.id.trans h.id, h'.orderId.trans h.orderId, fun he => h'.e2ee (h.e2ee he)⟩

/-- `u'` is the user `u` at a later time. -/
structure UserLater (u u' : User) : Prop where
  id : u'.id = u.id
  anonymized : u.anonymizedAt ≠ none → u'.anonymizedAt ≠ none

theorem UserLater.refl (u : User) : UserLater u u := ⟨rfl, fun h => h⟩

theorem UserLater.trans {u u' u'' : User} (h : UserLater u u') (h' : UserLater u' u'') :
    UserLater u u'' :=
  ⟨h'.id.trans h.id, fun ha => h'.anonymized (h.anonymized ha)⟩

/-- What every update keeps of a row. -/
def Later : (t : Table) → t.Row → t.Row → Prop
  | .messages, (m : Message), (m' : Message) => MessageLater m m'
  | .conversations, (c : Conversation), (c' : Conversation) => ConversationLater c c'
  | .users, (u : User), (u' : User) => UserLater u u'
  | .participants, (r : ConversationParticipant), (r' : ConversationParticipant) =>
    r'.conversationId = r.conversationId ∧ r'.userId = r.userId ∧ r'.leftAt = r.leftAt
  | .outbox, (e : OutboxEvent), (e' : OutboxEvent) =>
    e'.id = e.id ∧ e'.eventType = e.eventType ∧ e'.payload = e.payload
  | .orders, (o : Order), (o' : Order) => o' = o
  | .receipts, (r : MessageReceipt), (r' : MessageReceipt) =>
    r'.messageId = r.messageId ∧ r'.userId = r.userId
  | .attachments, (a : Attachment), (a' : Attachment) =>
    a'.id = a.id ∧ a'.conversationId = a.conversationId
  | .refreshTokens, (r : RefreshToken), (r' : RefreshToken) => TokenLater r r'
  | _, _, _ => True

theorem Later.refl (t : Table) (r : t.Row) : Later t r r := by
  cases t
  case messages => exact MessageLater.refl r
  case conversations => exact ConversationLater.refl r
  case users => exact UserLater.refl r
  case refreshTokens => exact TokenLater.refl r
  all_goals simp [Later]

theorem Later.trans {t : Table} {r r' r'' : t.Row} (h : Later t r r') (h' : Later t r' r'') :
    Later t r r'' := by
  cases t
  case messages => exact MessageLater.trans h h'
  case conversations => exact ConversationLater.trans h h'
  case users => exact UserLater.trans h h'
  case refreshTokens => exact TokenLater.trans h h'
  all_goals simp_all [Later]

/-- The rows of `db` are all in `db'`, at a later time. -/
def Kept (db db' : Db) : Prop :=
  ∀ t, t ≠ .attachments → ∀ r ∈ db t, ∃ r' ∈ db' t, Later t r r'

theorem Kept.refl (db : Db) : Kept db db := fun t _ r hr => ⟨r, hr, .refl t r⟩

theorem Kept.trans {db db' db'' : Db} (h : Kept db db') (h' : Kept db' db'') : Kept db db'' := by
  intro t ht r hr
  obtain ⟨r', hr', hl⟩ := h t ht r hr
  obtain ⟨r'', hr'', hl'⟩ := h' t ht r' hr'
  exact ⟨r'', hr'', hl.trans hl'⟩

end Later

section Lawful

/-- The write changes each row into a later one, and removes attachments only. -/
def Lawful (db : Db) : Write → Prop
  | .insert _ _ => True
  | .update t ks f => ∀ r ∈ db t, schema.key t r ∈ ks → Later t r (f.set r)
  | .delete t _ => t = .attachments

def LawfulAll : Db → List Write → Prop
  | _, [] => True
  | db, w :: ws => Lawful db w ∧ LawfulAll (w.apply db) ws

theorem kept_apply {db : Db} {w : Write} (h : Lawful db w) : Kept db (w.apply db) := by
  intro t ht r hr
  cases w with
  | insert t' r' =>
    refine ⟨r, ?_, .refl t r⟩
    by_cases e : t = t'
    · subst e
      rw [Schema.Write.apply_insert]
      exact List.mem_append_left _ hr
    · rw [Schema.Write.apply_insert_of_ne _ _ e]
      exact hr
  | update t' ks f =>
    by_cases e : t = t'
    · subst e
      rw [Schema.Write.apply_update]
      refine ⟨_, List.mem_map_of_mem hr, ?_⟩
      split
      · exact h r hr ‹_›
      · exact .refl t r
    · rw [Schema.Write.apply_update_of_ne _ _ _ e]
      exact ⟨r, hr, .refl t r⟩
  | delete t' ks =>
    have e : t ≠ t' := fun e => ht (e.trans h)
    rw [Schema.Write.apply_delete_of_ne _ _ e]
    exact ⟨r, hr, .refl t r⟩

theorem kept_applyAll {db : Db} {ws : List Write} (h : LawfulAll db ws) :
    Kept db (Schema.Write.applyAll ws db) := by
  induction ws generalizing db with
  | nil => exact .refl db
  | cons w ws ih => exact (kept_apply h.1).trans (ih h.2)

/-- Every row comes from one of `db`, or from an insert. -/
theorem origin_apply {db : Db} {w : Write} (h : Lawful db w) {t : Table} {r : t.Row}
    (hr : r ∈ w.apply db t) : (∃ r₀ ∈ db t, Later t r₀ r) ∨ w = .insert t r := by
  cases w with
  | insert t' r' =>
    by_cases e : t = t'
    · subst e
      rw [Schema.Write.apply_insert] at hr
      rcases List.mem_append.1 hr with hr | hr
      · exact .inl ⟨r, hr, .refl t r⟩
      · rw [List.mem_singleton.1 hr]
        exact .inr rfl
    · rw [Schema.Write.apply_insert_of_ne _ _ e] at hr
      exact .inl ⟨r, hr, .refl t r⟩
  | update t' ks f =>
    by_cases e : t = t'
    · subst e
      rw [Schema.Write.apply_update] at hr
      obtain ⟨r₀, hr₀, rfl⟩ := List.mem_map.1 hr
      refine .inl ⟨r₀, hr₀, ?_⟩
      split
      · exact h r₀ hr₀ ‹_›
      · exact .refl t r₀
    · rw [Schema.Write.apply_update_of_ne _ _ _ e] at hr
      exact .inl ⟨r, hr, .refl t r⟩
  | delete t' ks =>
    by_cases e : t = t'
    · subst e
      rw [Schema.Write.apply_delete] at hr
      exact .inl ⟨r, (List.mem_filter.1 hr).1, .refl t r⟩
    · rw [Schema.Write.apply_delete_of_ne _ _ e] at hr
      exact .inl ⟨r, hr, .refl t r⟩

theorem origin_applyAll {db : Db} {ws : List Write} (h : LawfulAll db ws) {t : Table} {r : t.Row}
    (hr : r ∈ Schema.Write.applyAll ws db t) :
    (∃ r₀ ∈ db t, Later t r₀ r) ∨ ∃ r₀, Schema.Write.insert t r₀ ∈ ws ∧ Later t r₀ r := by
  induction ws generalizing db with
  | nil => exact .inl ⟨r, hr, .refl t r⟩
  | cons w ws ih =>
    rcases ih h.2 hr with ⟨r₁, hr₁, hl⟩ | ⟨r₀, hr₀, hl⟩
    · rcases origin_apply h.1 hr₁ with ⟨r₀, hr₀, hl'⟩ | rfl
      · exact .inl ⟨r₀, hr₀, hl'.trans hl⟩
      · exact .inr ⟨r₁, List.mem_cons_self .., hl⟩
    · exact .inr ⟨r₀, List.mem_cons_of_mem _ hr₀, hl⟩

/-- An inserted row stays, at a later time. -/
theorem inserted_applyAll {db : Db} {ws : List Write} (h : LawfulAll db ws) {t : Table}
    (ht : t ≠ .attachments) {r : t.Row} (hr : Schema.Write.insert t r ∈ ws) :
    ∃ r' ∈ Schema.Write.applyAll ws db t, Later t r r' := by
  induction ws generalizing db with
  | nil => cases hr
  | cons w ws ih =>
    rcases List.mem_cons.1 hr with rfl | hr
    · have hmem : r ∈ (Schema.Write.insert t r).apply db t := by simp
      exact kept_applyAll h.2 t ht r hmem
    · exact ih h.2 hr

theorem LawfulAll.append {db : Db} {ws vs : List Write} (h : LawfulAll db ws)
    (h' : LawfulAll (Schema.Write.applyAll ws db) vs) : LawfulAll db (ws ++ vs) := by
  induction ws generalizing db with
  | nil => exact h'
  | cons w ws ih => exact ⟨h.1, ih h.2 h'⟩

theorem LawfulAll.of_forall {ws : List Write} (h : ∀ w ∈ ws, ∀ db, Lawful db w) (db : Db) :
    LawfulAll db ws := by
  induction ws generalizing db with
  | nil => trivial
  | cons w ws ih =>
    exact ⟨h w (List.mem_cons_self ..) db, ih (fun v hv => h v (List.mem_cons_of_mem _ hv)) _⟩

/-- The keys of a table record its inserts. -/
theorem keysOf_lawful {db : Db} {ws : List Write} (h : LawfulAll db ws) {t : Table}
    (ht : t ≠ .attachments) :
    schema.keysOf t (Schema.Write.applyAll ws db t) =
      schema.keysOf t (db t) ++ ws.flatMap (Schema.Write.newKeys t) := by
  induction ws generalizing db with
  | nil => simp
  | cons w ws ih =>
    have step : schema.keysOf t (w.apply db t) = schema.keysOf t (db t) ++ w.newKeys t := by
      cases w with
      | insert t' r => exact Schema.keysOf_apply (w := .insert t' r) trivial t db
      | update t' ks f => exact Schema.keysOf_apply (w := .update t' ks f) trivial t db
      | delete t' ks =>
        have e : t ≠ t' := fun e => ht (e.trans h.1)
        rw [Schema.Write.apply_delete_of_ne _ _ e, Schema.Write.newKeys, List.append_nil]
    rw [Schema.Write.applyAll_cons, ih h.2, step, List.flatMap_cons, List.append_assoc]

end Lawful

end Messageries.Proofs
