import Mathlib.Data.List.Range
import Messageries.Proofs.History

set_option linter.unusedSectionVars false

namespace Messageries.Proofs

open Text Relational Database Crypto Concurrency Backend Moderation

variable [AesGcm] [TokenHash]

section Keys

/-- A DEK wrapped by a key of the log. -/
def Genuine (log : List (Utf16 × Bytes)) (dekId : Utf16) (dek : Bytes) : Prop :=
  ∃ keyId kek iv, (keyId, kek) ∈ log ∧ colon ∉ keyId ∧ iv.length = 12 ∧ dek.length = 32 ∧
    dekId = dekIdOf keyId (LocalKmsProvider.wrap kek iv dek)

theorem Genuine.mono {log log' : List (Utf16 × Bytes)} (hl : log ⊆ log') {dekId : Utf16}
    {dek : Bytes} (h : Genuine log dekId dek) : Genuine log' dekId dek := by
  obtain ⟨keyId, kek, iv, hm, h⟩ := h
  exact ⟨keyId, kek, iv, hl hm, h⟩

/-- The text `dekIdOf` builds gives back the key's name and the wrapped key. -/
theorem splitColons_dekIdOf {keyId : Utf16} (h : colon ∉ keyId) (wrapped : Bytes) :
    splitColons (dekIdOf keyId wrapped) = [keyId, toBase64 wrapped] :=
  splitColons_append h fun hc => toBase64_ne wrapped colon hc rfl

/-- A service that kept its keys unwraps a genuine DEK. -/
theorem Genuine.decryptDataKey {log : List (Utf16 × Bytes)} {kms : LocalKmsProvider}
    (hk : World.KeepsKeys log kms) {dekId : Utf16} {dek : Bytes} (h : Genuine log dekId dek) :
    ∃ keyId b64, splitColons dekId = [keyId, b64] ∧
      kms.decryptDataKey keyId (ofBase64 b64) = some dek := by
  obtain ⟨keyId, kek, iv, hm, hc, hiv, -, rfl⟩ := h
  refine ⟨keyId, _, splitColons_dekIdOf hc _, ?_⟩
  rw [ofBase64_toBase64]
  exact LocalKmsProvider.decryptDataKey_wrap (hk _ hm) hiv dek

theorem Genuine.unique {log : List (Utf16 × Bytes)} {kms : LocalKmsProvider}
    (hk : World.KeepsKeys log kms) {dekId : Utf16} {dek dek' : Bytes} (h : Genuine log dekId dek)
    (h' : Genuine log dekId dek') : dek = dek' := by
  obtain ⟨keyId, b64, hs, hd⟩ := h.decryptDataKey hk
  obtain ⟨keyId', b64', hs', hd'⟩ := h'.decryptDataKey hk
  rw [hs] at hs'
  obtain ⟨rfl, rfl⟩ : keyId = keyId' ∧ b64 = b64' := by simpa using hs'
  exact Option.some.inj (hd.symm.trans hd')

/-- The sealed body opens to `t`. -/
def Opens (log : List (Utf16 × Bytes)) (e : EncryptedPayload) (t : Utf16) : Prop :=
  ∃ dek pt, Genuine log e.dekId dek ∧ AesGcm.decrypt dek e.iv e.tag e.ciphertext = some pt ∧
    encode (ofBytes pt) = t

theorem Opens.mono {log log' : List (Utf16 × Bytes)} (hl : log ⊆ log') {e : EncryptedPayload}
    {t : Utf16} (h : Opens log e t) : Opens log' e t := by
  obtain ⟨dek, pt, hg, h⟩ := h
  exact ⟨dek, pt, hg.mono hl, h⟩

/-- The columns of the row hold the text `t`. -/
inductive Readable (log : List (Utf16 × Bytes)) (m : Message) (t : Utf16) : Prop
  | plain : m.body = some t → m.bodyDekId = none → Readable log m t
  | sealed (e : EncryptedPayload) : m.body = none → sealedBody m = some e → Opens log e t →
      Readable log m t

theorem Readable.mono {log log' : List (Utf16 × Bytes)} (hl : log ⊆ log') {m : Message}
    {t : Utf16} (h : Readable log m t) : Readable log' m t := by
  cases h with
  | plain hb hd => exact .plain hb hd
  | «sealed» e hb hs ho => exact .sealed e hb hs (ho.mono hl)

end Keys

section Text

/-- The text a body is stored as. -/
def cleaned (body : Utf16) : Utf16 := (scan (trim body)).cleaned

end Text

section Database

def Active (db : Db) (conversationId userId : Nat) : Prop :=
  ∃ r ∈ db .participants, (r : ConversationParticipant).conversationId = conversationId ∧
    (r : ConversationParticipant).userId = userId ∧ (r : ConversationParticipant).leftAt = none

instance (db : Db) (c u : Nat) : Decidable (Active db c u) :=
  inferInstanceAs (Decidable (∃ r ∈ db .participants, _))

def Exists (db : Db) (conversationId : Nat) : Prop :=
  ∃ c ∈ db .conversations, (c : Conversation).id = conversationId

theorem Kept.active {db db' : Db} (h : Kept db db') {c u : Nat} (ha : Active db c u) :
    Active db' c u := by
  obtain ⟨r, hr, hc, hu, hl⟩ := ha
  obtain ⟨r', hr', hc', hu', hl'⟩ := h .participants nofun r hr
  exact ⟨r', hr', hc'.trans hc, hu'.trans hu, hl'.trans hl⟩

theorem Kept.exists {db db' : Db} (h : Kept db db') {c : Nat} (he : Exists db c) :
    Exists db' c := by
  obtain ⟨r, hr, hc⟩ := he
  obtain ⟨r', hr', hl⟩ := h .conversations nofun r hr
  exact ⟨r', hr', hl.id.trans hc⟩

def sequences (db : Db) (conversationId : Nat) : List Nat :=
  ((db .messages).filter fun (m : Message) => m.conversationId == conversationId).map
    fun (m : Message) => m.sequence

def Numbered (db : Db) : Prop :=
  ∀ c ∈ db .conversations,
    (sequences db (c : Conversation).id).Perm (List.range' 1 (c : Conversation).lastSequence)

abbrev Wal := List (Nat × Write)

/-- The event that announces the message. -/
def Announces (m : Message) (t : Utf16) (e : OutboxEvent) : Prop :=
  e.eventType = .messageCreated ∧ ∃ pl : MessageCreated, e.payload = .created pl ∧ pl.messageId = m.id ∧
    pl.conversationId = m.conversationId ∧ pl.senderId = m.senderId ∧ pl.sequence = m.sequence ∧
    pl.body = t

/-- What is known of a message that process `p` committed. -/
structure Sent (calls : Nat → Option Call) (log : List (Utf16 × Bytes)) (wal : Wal) (db : Db)
    (p : Nat) (m : Message) : Prop where
  call : ∃ user body key, calls p = some (.send user m.conversationId body key) ∧
    user.sub = m.senderId ∧ m.idempotencyKey = key.map sent ∧ Readable log m (cleaned body) ∧
    ∃ e, (p, Schema.Write.insert .outbox e) ∈ wal ∧ Announces m (cleaned body) e
  visible : gone m.status = false
  conversation : Exists db m.conversationId
  sender : Active db m.conversationId m.senderId

theorem Sent.mono {calls calls' : Nat → Option Call} {log log' : List (Utf16 × Bytes)}
    {wal wal' : Wal} {db db' : Db} {p : Nat} {m : Message} (h : Sent calls log wal db p m)
    (hcalls : ∀ p k, calls p = some k → calls' p = some k) (hlog : log ⊆ log') (hwal : wal ⊆ wal')
    (hdb : Kept db db') : Sent calls' log' wal' db' p m := by
  obtain ⟨user, body, key, hc, hu, hk, hr, e, he, ha⟩ := h.call
  exact ⟨⟨user, body, key, hcalls _ _ hc, hu, hk, hr.mono hlog, e, hwal he, ha⟩, h.visible,
    hdb.exists h.conversation, hdb.active h.sender⟩

/-- A conversation opened for an order starts with its customer and its seller. -/
def Founded (db : Db) (wal : Wal) (p : Nat) (c : Conversation) : Prop :=
  ∃ o ∈ db .orders, (o : Order).id = c.orderId ∧ ∃ before after at₁ at₂,
    wal = before ++
      [(p, Schema.Write.insert .conversations c),
        (p, .insert .participants (NewParticipant.row ⟨c.id, (o : Order).customerId, .customer⟩ 0 at₁)),
        (p, .insert .participants (NewParticipant.row ⟨c.id, (o : Order).sellerId, .seller⟩ 0 at₂))] ++
      after ∧
    ∀ q r, (q, Schema.Write.insert .participants r) ∈ before →
      (r : ConversationParticipant).conversationId ≠ c.id

theorem Founded.mono {db db' : Db} {wal : Wal} {p : Nat} {c : Conversation}
    (h : Founded db wal p c) (hk : Kept db db') (vs : Wal) : Founded db' (wal ++ vs) p c := by
  obtain ⟨o, ho, hc, before, after, at₁, at₂, rfl, hb⟩ := h
  obtain ⟨o', ho', rfl⟩ := hk .orders nofun o ho
  exact ⟨o', ho', hc, before, after ++ vs, at₁, at₂, by simp, hb⟩

/-- The tables a send writes to. -/
def ofSend : Table → Bool
  | .messages => true
  | .receipts => true
  | .outbox => true
  | .conversations => true
  | _ => false

def writesTo : Write → Table
  | .insert t _ => t
  | .update t _ _ => t
  | .delete t _ => t

theorem apply_apart {x : Write} {t : Table} (h : writesTo x ≠ t) (db : Db) : x.apply db t = db t := by
  cases x with
  | insert t' r => exact Schema.Write.apply_insert_of_ne r db h.symm
  | update t' ks f => exact Schema.Write.apply_update_of_ne ks f db h.symm
  | delete t' ks => exact Schema.Write.apply_delete_of_ne ks db h.symm

theorem applyAll_apart {ws : List Write} {t : Table} (h : ∀ x ∈ ws, writesTo x ≠ t) (db : Db) :
    Schema.Write.applyAll ws db t = db t := by
  induction ws generalizing db with
  | nil => rfl
  | cons x ws ih =>
    rw [Schema.Write.applyAll_cons, ih fun y hy => h y (List.mem_cons_of_mem _ hy)]
    exact apply_apart (h x (List.mem_cons_self ..)) db

def IsSend : Call → Prop
  | .send _ _ _ _ => True
  | _ => False

section Shapes

/-- The five columns that hold the text of a message. -/
def textColumns (m : Message) :
    Option Utf16 × Option Bytes × Option Bytes × Option Bytes × Option Utf16 :=
  (m.body, m.bodyCiphertext, m.bodyIv, m.bodyTag, m.bodyDekId)

def PlainRow (m : Message) : Prop := ∃ body, textColumns m = (some body, none, none, none, none)

def SealedRow (m : Message) : Prop :=
  ∃ ciphertext iv tag dekId, textColumns m = (none, some ciphertext, some iv, some tag, some dekId)

def WipedRow (m : Message) : Prop := textColumns m = (none, none, none, none, none)

end Shapes

section Permissions

def IsEnable : Call → Prop
  | .enableE2ee _ _ _ _ _ => True
  | _ => False

def IsSendMls : Call → Prop
  | .sendMls _ _ _ _ _ _ _ => True
  | _ => False

def IsBatch : Call → Prop
  | .processBatch _ _ => True
  | _ => False

def IsAnonymize : Call → Prop
  | .anonymize _ _ => True
  | _ => False

def IsResolve : Call → Prop
  | .resolve _ _ _ => True
  | _ => False

def IsSearch : Call → Prop
  | .enableSearch _ _ => True
  | .disableSearch _ _ => True
  | _ => False

/-- The call founds the group. -/
def Founds (k : Call) (r : MlsGroup) : Prop :=
  ∃ user gid suite welcomes, k = .enableE2ee user r.conversationId gid suite welcomes ∧ r.epoch = 0

/-- The row is a welcome of the call. -/
def Greets (k : Call) (r : MlsMessage) : Prop :=
  ∃ user c gid suite welcomes w groupId n id now, k = .enableE2ee user c gid suite welcomes ∧
    w ∈ welcomes ∧ r = newWelcome groupId user.sub n w id now

/-- The row holds the message of the call. -/
def Relays (k : Call) (r : MlsMessage) : Prop :=
  ∃ user c device kind epoch ciphertext target groupId e n id now,
    k = .sendMls user c device kind epoch ciphertext target ∧ bigint epoch = .ok e ∧
      r = newMlsMessage ⟨c, device, kind, epoch, ciphertext, target⟩ groupId user.sub e n id now

/-- The row is a key package of the call. -/
def Publishes (k : Call) (r : MlsKeyPackage) : Prop :=
  ∃ user device suite packages ttl expires kp id now,
    k = .publishKeyPackages user device suite packages ttl ∧
      r = newKeyPackage user.sub device suite expires kp id now

/-- The call changes messages in this way. -/
def Alters (f : schema.Assign .messages) : Call → Prop
  | .softDelete _ _ _ => ∃ m stored t, f = mergeMessage (erased m t) stored
  | .resolve user _ _ => ∃ t, f = setHidden user.sub t
  | .anonymize _ _ => ∃ t, f = wiped t
  | _ => False

/-- The call moves the cursor of a reader in this way. -/
def Advances (f : schema.Assign .participants) : Call → Prop
  | .markRead _ _ upto => ∃ n, bigint upto = .ok n ∧ f = setLastRead n
  | _ => False

/-- The call marks receipts in this way. -/
def Acknowledges (f : schema.Assign .receipts) : Call → Prop
  | .markRead _ _ _ => ∃ t, f = setRead t
  | _ => False

/-- The call decides on a report in this way. -/
def Decides (f : schema.Assign .reports) : Call → Prop
  | .resolve _ _ action => ∃ entity stored, entity.status = action.status ∧ f = mergeReport entity stored
  | _ => False

/-- The call takes key packages in this way. -/
def Claims (f : schema.Assign .keyPackages) : Call → Prop
  | .claimKeyPackage user _ _ => ∃ t, f = setConsumed user.sub t
  | _ => False

/-- No worker has come to the event. -/
def Untried (e : OutboxEvent) : Prop :=
  e.processedAt = none ∧ e.attempts = 0 ∧ e.nextAttemptAt = e.createdAt

/-- What the code of a call writes. -/
def May (k : Call) : Write → Prop
  | .insert .users _ => False
  | .insert .conversations c =>
    (c : Conversation).e2eeEnabled = false ∧ (c : Conversation).searchIndexed = false ∧
      (c : Conversation).lastMessageAt = none
  | .insert .participants r => (r : ConversationParticipant).lastReadSequence = 0
  | .insert .messages m => (m : Message).deletedAt = none ∧ (PlainRow m ∨ SealedRow m)
  | .insert .receipts r => (r : MessageReceipt).readAt = none
  | .insert .outbox e => Untried e
  | .insert .groups r => Founds k r
  | .insert .mlsMessages r => Greets k r ∨ Relays k r
  | .insert .keyPackages r => Publishes k r
  | .insert .reports r => IsResolve k ∨ (r : MessageReport).status = .opened
  | .insert .emails _ => IsBatch k
  | .update .emails _ _ => False
  | .update .audit _ _ => False
  | .update .groups _ f => IsSendMls k ∧ ∃ n, f = setEpoch n
  | .update .mlsMessages _ _ => False
  | .update .messages _ f => Alters f k
  | .update .receipts _ f => Acknowledges f k
  | .update .participants _ f => (∃ role, f = setRole role) ∨ Advances f k
  | .update .keyPackages _ f => Claims f k
  | .update .reports _ f => Decides f k
  | .update .outbox _ f => IsBatch k ∧
      ((∃ t, f = setProcessed t) ∨ ∃ n s e t, f = setFailed n s e t)
  | .update .conversations _ f =>
    (IsEnable k ∨ ∀ c : Conversation, (f.set c : Conversation).e2eeEnabled = c.e2eeEnabled) ∧
      (IsSearch k ∨ ∀ c : Conversation, (f.set c : Conversation).searchIndexed = c.searchIndexed) ∧
        (IsSend k ∨ ∀ c : Conversation, (f.set c : Conversation).lastMessageAt = c.lastMessageAt)
  | .update .users _ f => IsAnonymize k ∨
      ∀ u : User, (f.set u : User).anonymizedAt = u.anonymizedAt
  | .delete t _ => t = .attachments
  | _ => True

end Permissions

section Deliveries

/-- What process `p` wrote to the tables of a send. -/
def own (p : Nat) (wal : Wal) : List Write :=
  (wal.filter fun e => e.1 == p && ofSend (writesTo e.2)).map Prod.snd

@[simp] theorem own_nil (p : Nat) : own p [] = [] := rfl

@[simp] theorem own_append (p : Nat) (wal vs : Wal) : own p (wal ++ vs) = own p wal ++ own p vs := by
  simp [own]

theorem own_map_self (p : Nat) (ws : List Write) :
    own p (ws.map (p, ·)) = ws.filter fun x => ofSend (writesTo x) := by
  simp [own, List.filter_map, Function.comp_def]

theorem own_map_of_ne {p q : Nat} (h : q ≠ p) (ws : List Write) : own p (ws.map (q, ·)) = [] := by
  simp [own, List.filter_map, Function.comp_def, h]

theorem own_eq_nil {p : Nat} {wal : Wal} :
    own p wal = [] ↔ ∀ x, (p, x) ∈ wal → ofSend (writesTo x) = false := by
  simp only [own, List.map_eq_nil_iff, List.filter_eq_nil_iff]
  constructor
  · intro h x hx
    simpa using h _ hx
  · rintro h ⟨q, x⟩ hx
    by_cases e : q = p
    · subst e
      simp [h x hx]
    · simp [e]

theorem mem_own {p : Nat} {wal : Wal} {x : Write} (h : (p, x) ∈ wal)
    (hs : ofSend (writesTo x) = true) : x ∈ own p wal :=
  List.mem_map.2 ⟨(p, x), List.mem_filter.2 ⟨h, by simp [hs]⟩, rfl⟩

/-- The committed rows after the log `wal`. -/
def replay (db₀ : Db) (wal : Wal) : Db := Schema.Write.applyAll (wal.map Prod.snd) db₀

/-- The writes of a send that stores a message. -/
def delivery (m : Message) (users : List Nat) (e : OutboxEvent) (ks : List Key)
    (f : schema.Assign .conversations) : List Write :=
  .insert .messages m :: users.map (fun u => .insert .receipts (newReceipt m.id u)) ++
    [.insert .outbox e, .update .conversations ks f]

/-- The conversation took the message as its next one, and in clear. -/
def Takes (db : Db) (m : Message) : Prop :=
  ∃ c ∈ db .conversations, (c : Conversation).id = m.conversationId ∧
    (c : Conversation).e2eeEnabled = false ∧ (c : Conversation).status = .opened ∧
    m.sequence = (c : Conversation).lastSequence + 1

/-- The event goes to everybody the participants list, but the sender. -/
def Addresses (db : Db) (m : Message) (e : OutboxEvent) : Prop :=
  ∃ pl : MessageCreated, e.payload = .created pl ∧ ∀ u, u ∈ pl.recipients ↔ u ≠ m.senderId ∧
    ∃ r ∈ db .participants, (r : ConversationParticipant).conversationId = m.conversationId ∧
      (r : ConversationParticipant).userId = u

/-- Process `p`, which came in when the log had `n` entries, committed its message once, with
its event and a receipt for each other user who had a seat when it read the participants. -/
def Delivered (db₀ : Db) (n : Nat) (wal : Wal) (p : Nat) (m : Message) : Prop :=
  ∃ users e ks f before after, wal = before ++ (delivery m users e ks f).map (p, ·) ++ after ∧
    own p before = [] ∧ own p after = [] ∧ users.Nodup ∧ Takes (replay db₀ before) m ∧
    ∃ pre, pre <+: before ∧ n ≤ pre.length ∧ Takes (replay db₀ pre) m ∧
      (∀ u, u ∈ users ↔ u ≠ m.senderId ∧ Active (replay db₀ pre) m.conversationId u) ∧
      Addresses (replay db₀ pre) m e

theorem Delivered.mono {db₀ : Db} {n : Nat} {wal vs : Wal} {p : Nat} {m : Message}
    (h : Delivered db₀ n wal p m) (hv : own p vs = []) : Delivered db₀ n (wal ++ vs) p m := by
  obtain ⟨users, e, ks, f, before, after, rfl, hb, ha, h⟩ := h
  exact ⟨users, e, ks, f, before, after ++ vs, by simp, hb, by simp [ha, hv], h⟩

@[simp] theorem delivery_ofSend (m : Message) (users : List Nat) (e : OutboxEvent) (ks : List Key)
    (f : schema.Assign .conversations) :
    (delivery m users e ks f).filter (fun x => ofSend (writesTo x)) = delivery m users e ks f := by
  refine List.filter_eq_self.2 fun x hx => ?_
  simp only [delivery, List.cons_append, List.mem_cons, List.mem_append, List.mem_map,
    List.not_mem_nil, or_false] at hx
  rcases hx with rfl | ⟨u, -, rfl⟩ | rfl | rfl <;> rfl

theorem Delivered.own {db₀ : Db} {n : Nat} {wal : Wal} {p : Nat} {m : Message}
    (h : Delivered db₀ n wal p m) :
    ∃ users e ks f, own p wal = delivery m users e ks f := by
  obtain ⟨users, e, ks, f, before, after, rfl, hb, ha, -⟩ := h
  exact ⟨users, e, ks, f, by simp [own_map_self, hb, ha]⟩

/-- An event that announces no message. -/
def ReadEvent (e : OutboxEvent) : Prop :=
  e.eventType = .messageRead ∧ ∃ c u n, e.payload = .read c u n

end Deliveries

section Tokens

/-- The calls that end sessions or replace tokens. -/
def Rotates : Call → Prop
  | .refresh _ => True
  | .revokeAll _ => True
  | _ => False

/-- The write is an update of the token. -/
def Hits (id : Nat) (x : Write) : Prop :=
  ∃ ks f, x = .update .refreshTokens ks f ∧ Key.id id ∈ ks

def IsFamily (x : Write) : Prop :=
  ∃ ks f, x = .update .refreshTokens ks f ∧
    ∀ r : RefreshToken, (f.set r : RefreshToken).revokedReason = some "family_compromise"

/-- The write saves the token, and not as one of a family that is compromised. -/
def Saves (id : Nat) (x : Write) : Prop := Hits id x ∧ ¬IsFamily x

/-- The token was used up or revoked. -/
def Spent (db : Db) (f : Nat) : Prop :=
  ∃ t ∈ db .refreshTokens, (t : RefreshToken).id = f ∧ (t : RefreshToken).revokedAt ≠ none

theorem Spent.mono {db db' : Db} {f : Nat} (h : Spent db f) (hk : Kept db db') : Spent db' f := by
  obtain ⟨t, ht, hid, hr⟩ := h
  obtain ⟨t', ht', hl⟩ := hk .refreshTokens nofun t ht
  exact ⟨t', ht', hl.id.trans hid, hl.revoked hr⟩

/-- What is known of a token that process `p` issued in place of the token `f`. -/
def Rotated (calls : Nat → Option Call) (wal : Wal) (db : Db) (p : Nat) (r : RefreshToken)
    (f : Nat) : Prop :=
  Spent db f ∧ ∃ token, calls p = some (.refresh token) ∧ (∃ x, (p, x) ∈ wal ∧ Saves f x) ∧
    ∃ q t, (q, Schema.Write.insert .refreshTokens t) ∈ wal ∧ (t : RefreshToken).id = f ∧
      (t : RefreshToken).userId = r.userId ∧
      (t : RefreshToken).tokenHash = TokenHash.hash token

theorem Rotated.mono {calls calls' : Nat → Option Call} {wal wal' : Wal} {db db' : Db} {p : Nat}
    {r : RefreshToken} {f : Nat} (h : Rotated calls wal db p r f)
    (hcalls : ∀ p k, calls p = some k → calls' p = some k) (hwal : wal ⊆ wal')
    (hk : Kept db db') : Rotated calls' wal' db' p r f := by
  obtain ⟨hs, token, hc, ⟨x, hx, hh⟩, q, t, ht, h⟩ := h
  exact ⟨hs.mono hk, token, hcalls _ _ hc, ⟨x, hwal hx, hh⟩, q, t, hwal ht, h⟩

/-- The write, made after `pre`, revokes the tokens of user `u`: on request, or
because one of them was used again. -/
def Mass (calls : Nat → Option Call) (pre : Wal) (p : Nat) (x : Write) (u : Nat) : Prop :=
  writesTo x = .refreshTokens ∧
    (calls p = some (.revokeAll u) ∨
      ∃ token q t, calls p = some (.refresh token) ∧ IsFamily x ∧
        (q, Schema.Write.insert .refreshTokens t) ∈ pre ∧
        (t : RefreshToken).tokenHash = TokenHash.hash token ∧ (t : RefreshToken).userId = u)

theorem Mass.rotates {calls : Nat → Option Call} {pre : Wal} {p : Nat} {x : Write} {u : Nat}
    (h : Mass calls pre p x u) : ∃ k, calls p = some k ∧ Rotates k := by
  rcases h.2 with h | ⟨token, _, _, h, -⟩
  · exact ⟨_, h, trivial⟩
  · exact ⟨_, h, trivial⟩

theorem Mass.congr {calls calls' : Nat → Option Call} {pre : Wal} {p : Nat} {x : Write} {u : Nat}
    (h : Mass calls pre p x u) (hp : calls' p = calls p) : Mass calls' pre p x u := by
  simpa only [Mass, hp] using h

end Tokens

/-- What holds of the committed rows and of their history. -/
structure DbInv (db₀ : Db) (calls : Nat → Option Call) (arrived : Nat → Nat)
    (log : List (Utf16 × Bytes)) (st : State schema) : Prop where
  unsent : db₀ .messages = []
  unissued : db₀ .refreshTokens = []
  unannounced : db₀ .outbox = []
  undelivered : db₀ .receipts = []
  replay : st.db = Proofs.replay db₀ st.wal
  kept : Kept db₀ st.db
  inserted : ∀ t, t ≠ .attachments → schema.keysOf t (st.db t) =
    schema.keysOf t (db₀ t) ++ st.wal.flatMap fun e => e.2.newKeys t
  stored : ∀ p t, t ≠ .attachments → ∀ r, (p, Schema.Write.insert t r) ∈ st.wal →
    ∃ r' ∈ st.db t, Later t r r'
  origin : ∀ t, ∀ r ∈ st.db t, (∃ r₀ ∈ db₀ t, Later t r₀ r) ∨
    ∃ p r₀, (p, Schema.Write.insert t r₀) ∈ st.wal ∧ Later t r₀ r
  known : ∀ p x, (p, x) ∈ st.wal → ∃ k, calls p = some k ∧ May k x
  numbered : Numbered st.db
  seated : ∀ r ∈ st.db .participants, Exists st.db (r : ConversationParticipant).conversationId
  fresh : ∀ c ∈ st.db .conversations, (c : Conversation).id < st.nextId
  sends : ∀ p m, (p, Schema.Write.insert .messages m) ∈ st.wal → Sent calls log st.wal st.db p m
  attributed : ∀ p k, calls p = some k → IsSend k →
    (∃ x, (p, x) ∈ st.wal ∧ ofSend (writesTo x) = true) →
    ∃ m, (p, Schema.Write.insert .messages m) ∈ st.wal
  delivered : ∀ p m, (p, Schema.Write.insert .messages m) ∈ st.wal →
    Delivered db₀ (arrived p) st.wal p m
  events : ∀ p e, (p, Schema.Write.insert .outbox e) ∈ st.wal →
    ReadEvent e ∨ ∃ k, calls p = some k ∧ IsSend k
  receipts : ∀ p r, (p, Schema.Write.insert .receipts r) ∈ st.wal → ∃ k, calls p = some k ∧ IsSend k
  founded : ∀ p c, (p, Schema.Write.insert .conversations c) ∈ st.wal →
    Founded st.db st.wal p c
  uploads : ∀ p a, (p, Schema.Write.insert .attachments a) ∈ st.wal →
    (a : Attachment).id < st.nextId ∧
      ∀ q a', (q, Schema.Write.insert .attachments a') ∈ st.wal →
        (a' : Attachment).id = (a : Attachment).id → a' = a
  rotated : ∀ p r f, (p, Schema.Write.insert .refreshTokens r) ∈ st.wal →
    (r : RefreshToken).parentId = some f → Rotated calls st.wal st.db p r f
  single : ∀ p token, calls p = some (.refresh token) → ∀ r r',
    (p, Schema.Write.insert .refreshTokens r) ∈ st.wal →
    (p, Schema.Write.insert .refreshTokens r') ∈ st.wal → r = r'
  barrier : ∀ pre p x post u, st.wal = pre ++ (p, x) :: post → Mass calls pre p x u →
    ∀ q t, (q, Schema.Write.insert .refreshTokens t) ∈ pre → (t : RefreshToken).userId = u →
      ∃ t' ∈ st.db .refreshTokens, TokenLater t t' ∧ (t' : RefreshToken).revokedAt ≠ none

/-- Where a run may start: no message was ever sent, no token issued, no file uploaded and no
conversation encrypted, and each participant belongs to a conversation. -/
structure Initial (w : World) : Prop where
  ok : w.store.Ok
  idle : ∀ p, w.store.tx p = none
  wal : w.store.wal = []
  calls : ∀ p, w.calls p = none
  messages : w.store.db .messages = []
  outbox : w.store.db .outbox = []
  receipts : w.store.db .receipts = []
  refreshTokens : w.store.db .refreshTokens = []
  attachments : w.store.db .attachments = []
  groups : w.store.db .groups = []
  mlsMessages : w.store.db .mlsMessages = []
  plain : ∀ c ∈ w.store.db .conversations, (c : Conversation).e2eeEnabled = false
  unnumbered : ∀ c ∈ w.store.db .conversations, (c : Conversation).lastSequence = 0
  seated : ∀ r ∈ w.store.db .participants,
    Exists w.store.db (r : ConversationParticipant).conversationId
  fresh : ∀ c ∈ w.store.db .conversations, (c : Conversation).id < w.store.nextId
  keyLog : w.keyLog = [(w.kms.active, w.kms.activeKey)]
  cache : w.dekCache = []
  arrived : ∀ p, w.arrived p = 0
  stream : w.stream = []
  notes : w.notes = []
  mails : w.mails = []

/-- The invariant of every run that starts with the rows `db₀`. -/
structure Inv (db₀ : Db) (w : World) : Prop where
  ok : w.store.Ok
  idle : ∀ p, w.calls p = none → w.store.tx p = none
  apart : ∀ p tx, w.store.tx p = some tx → ∀ x ∈ tx.writes, writesTo x ≠ .refreshTokens
  keys : World.KeepsKeys w.keyLog w.kms
  active : (w.kms.active, w.kms.activeKey) ∈ w.keyLog
  cache : ∀ c ∈ w.dekCache, Genuine w.keyLog c.dekId c.dek
  arrived : ∀ p, w.arrived p ≤ w.store.wal.length
  db : DbInv db₀ w.calls w.arrived w.keyLog w.store

theorem Initial.db {w : World} (h : Initial w) :
    DbInv w.store.db w.calls w.arrived w.keyLog w.store where
  unsent := h.messages
  unissued := h.refreshTokens
  unannounced := h.outbox
  undelivered := h.receipts
  replay := by simp [replay, h.wal]
  kept := .refl _
  inserted := by simp [h.wal]
  stored := by simp [h.wal]
  origin := fun t r hr => .inl ⟨r, hr, .refl t r⟩
  known := by simp [h.wal]
  numbered := by
    intro c hc
    simp [sequences, h.messages, h.unnumbered c hc]
  seated := h.seated
  fresh := h.fresh
  sends := by simp [h.wal]
  attributed := by simp [h.calls]
  delivered := by simp [h.wal]
  events := by simp [h.wal]
  receipts := by simp [h.wal]
  founded := by simp [h.wal]
  uploads := by simp [h.wal]
  rotated := by simp [h.wal]
  single := by simp [h.calls]
  barrier := by simp [h.wal]

theorem lookup_activeKey (kms : LocalKmsProvider) :
    lookup kms.keys kms.active = some kms.activeKey :=
  (Option.some_get _).symm

theorem Initial.inv {w : World} (h : Initial w) : Inv w.store.db w where
  ok := h.ok
  idle := fun p _ => h.idle p
  apart := by simp [h.idle]
  keys := by
    intro e he
    rw [h.keyLog, List.mem_singleton] at he
    subst he
    exact lookup_activeKey w.kms
  active := by simp [h.keyLog]
  cache := by simp [h.cache]
  arrived := by simp [h.arrived]
  db := h.db

section Step

variable {db₀ : Db} {calls calls' : Nat → Option Call} {arrived arrived' : Nat → Nat}
  {log log' : List (Utf16 × Bytes)} {st st' : State schema} {p : Nat} {ws : List Write}

/-- What the writes of a step have to bring along. -/
structure Brings (db₀ : Db) (calls : Nat → Option Call) (arrived : Nat → Nat)
    (log : List (Utf16 × Bytes)) (p : Nat) (ws : List Write) (st st' : State schema) : Prop where
  lawful : LawfulAll st.db ws
  may : ∀ x ∈ ws, ∀ k, calls p = some k → May k x := by simp [May]
  numbered : Numbered st'.db
  seated : ∀ r, Schema.Write.insert .participants r ∈ ws →
    Exists st'.db (r : ConversationParticipant).conversationId := by simp
  fresh : ∀ c, Schema.Write.insert .conversations c ∈ ws →
    (c : Conversation).id < st'.nextId := by simp
  sends : ∀ m, Schema.Write.insert .messages m ∈ ws →
    Sent calls log st'.wal st'.db p m := by simp
  attributed : ∀ k, calls p = some k → IsSend k → (∃ x ∈ ws, ofSend (writesTo x) = true) →
    ∃ m, Schema.Write.insert .messages m ∈ ws := by simp [writesTo, ofSend]
  once : ∀ k, calls p = some k → IsSend k → (∃ x ∈ ws, ofSend (writesTo x) = true) →
    own p st.wal = [] := by simp [writesTo, ofSend]
  delivered : ∀ m, Schema.Write.insert .messages m ∈ ws →
    Delivered db₀ (arrived p) st'.wal p m := by simp
  events : ∀ e, Schema.Write.insert .outbox e ∈ ws →
    ReadEvent e ∨ ∃ k, calls p = some k ∧ IsSend k := by simp
  receipts : ∀ r, Schema.Write.insert .receipts r ∈ ws → ∃ k, calls p = some k ∧ IsSend k := by simp
  founded : ∀ c, Schema.Write.insert .conversations c ∈ ws → Founded st'.db st'.wal p c := by simp
  uploads : ∀ a, Schema.Write.insert .attachments a ∈ ws →
    ws = [.insert .attachments a] ∧ st.nextId ≤ (a : Attachment).id ∧
      (a : Attachment).id < st'.nextId := by simp
  rotated : ∀ r f, Schema.Write.insert .refreshTokens r ∈ ws →
    (r : RefreshToken).parentId = some f → Rotated calls st'.wal st'.db p r f := by simp
  alone : ∀ k, calls p = some k → Rotates k → ∀ x ∈ ws, writesTo x = .refreshTokens →
    ws = [x] := by simp [writesTo]
  single : ∀ token, calls p = some (.refresh token) → ∀ r,
    Schema.Write.insert .refreshTokens r ∈ ws →
    ∀ r', (p, Schema.Write.insert .refreshTokens r') ∉ st.wal := by simp
  barrier : ∀ x ∈ ws, ∀ u, Mass calls st.wal p x u →
    ∀ t ∈ st'.db .refreshTokens, (t : RefreshToken).userId = u →
      (t : RefreshToken).revokedAt ≠ none := by simp [Mass, writesTo]

/-- Where an entry of the log of a step stands: in the old log, or among the new entries. -/
theorem split_cases {wal : Wal} {pre post : Wal} {q : Nat} {x : Write}
    (h : wal ++ ws.map (p, ·) = pre ++ (q, x) :: post) :
    (∃ post', wal = pre ++ (q, x) :: post' ∧ post = post' ++ ws.map (p, ·)) ∨
      q = p ∧ ∃ before after, ws = before ++ x :: after ∧ pre = wal ++ before.map (p, ·) := by
  rcases List.append_eq_append_iff.1 h with ⟨as, rfl, has⟩ | ⟨bs, rfl, hbs⟩
  · obtain ⟨before, rest, rfl, rfl, hrest⟩ := List.map_eq_append_iff.1 has
    obtain ⟨y, after, rfl, he, -⟩ := List.map_eq_cons_iff.1 hrest
    cases he
    exact .inr ⟨rfl, before, after, rfl, rfl⟩
  · cases bs with
    | nil =>
      simp only [List.nil_append] at hbs
      obtain ⟨y, after, rfl, he, -⟩ := List.map_eq_cons_iff.1 hbs.symm
      cases he
      exact .inr ⟨rfl, [], after, rfl, by simp⟩
    | cons b bs =>
      simp only [List.cons_append, List.cons.injEq] at hbs
      obtain ⟨rfl, rfl⟩ := hbs
      exact .inl ⟨bs, rfl, rfl⟩

theorem DbInv.step (h : DbInv db₀ calls arrived log st) (hc : State.Commits p ws st st')
    (hb : Brings db₀ calls' arrived' log' p ws st st')
    (hcalls : ∀ p k, calls p = some k → calls' p = some k)
    (harr : ∀ p k, calls p = some k → arrived' p = arrived p) (hlog : log ⊆ log')
    (hid : st.nextId ≤ st'.nextId) (hp : ws = [] ∨ ∃ k, calls' p = some k) :
    DbInv db₀ calls' arrived' log' st' := by
  obtain ⟨hwal, hdb⟩ := hc
  have kept : Kept st.db st'.db := hdb ▸ kept_applyAll hb.lawful
  have old : st.wal ⊆ st'.wal := fun x hx => hwal ▸ List.mem_append_left _ hx
  have cases_wal : ∀ q x, (q, x) ∈ st'.wal → (q, x) ∈ st.wal ∨ (q = p ∧ x ∈ ws) := by
    intro q x hx
    rw [hwal] at hx
    rcases List.mem_append.1 hx with hx | hx
    · exact .inl hx
    · obtain ⟨y, hy, e⟩ := List.mem_map.1 hx
      cases e
      exact .inr ⟨rfl, hy⟩
  have cases_db : ∀ t, ∀ r ∈ st'.db t, (∃ r₀ ∈ st.db t, Later t r₀ r) ∨
      ∃ r₀, Schema.Write.insert t r₀ ∈ ws ∧ Later t r₀ r := fun t r hr =>
    origin_applyAll hb.lawful (hdb ▸ hr)
  have new : ∀ x ∈ ws, (p, x) ∈ st'.wal := fun x hx =>
    hwal ▸ List.mem_append_right _ (List.mem_map_of_mem hx)
  -- a process that wrote was already known
  have same : ∀ q x k, (q, x) ∈ st.wal → calls' q = some k → calls q = some k := by
    intro q x k hx hk
    obtain ⟨k', hk', -⟩ := h.known q x hx
    rw [hk', ← hk, hcalls q k' hk']
  have stored : ∀ q t, t ≠ .attachments → ∀ r, (q, Schema.Write.insert t r) ∈ st'.wal →
      ∃ r' ∈ st'.db t, Later t r r' := by
    intro q t ht r hr
    rcases cases_wal _ _ hr with hr | ⟨rfl, hr⟩
    · obtain ⟨r', hr', hl⟩ := h.stored q t ht r hr
      obtain ⟨r'', hr'', hl'⟩ := kept t ht r' hr'
      exact ⟨r'', hr'', hl.trans hl'⟩
    · exact hdb ▸ inserted_applyAll hb.lawful ht hr
  refine ⟨h.unsent, h.unissued, h.unannounced, h.undelivered, ?_, h.kept.trans kept,
    fun t ht => ?_, stored, fun t r hr => ?_, fun q x hx => ?_, hb.numbered, fun r hr => ?_,
    fun c hc => ?_, fun q m hm => ?_, fun q k hk hs hx => ?_, fun q m hm => ?_, fun q e he => ?_,
    fun q r hr => ?_, fun q c hc => ?_, fun q a ha => ?_, fun q r f hr hf => ?_,
    fun q token hk r r' hr hr' => ?_, fun pre q x post u hsplit hm q' t ht hu => ?_⟩
  · rw [hdb, h.replay, Proofs.replay, Proofs.replay, hwal, List.map_append, Schema.Write.applyAll_append]
    simp
  · rw [hdb, keysOf_lawful hb.lawful ht, h.inserted t ht, hwal, List.flatMap_append,
      List.append_assoc, List.flatMap_map]
  · rcases cases_db t r hr with ⟨r₀, hr₀, hl⟩ | ⟨r₀, hr₀, hl⟩
    · rcases h.origin t r₀ hr₀ with ⟨r₁, hr₁, hl'⟩ | ⟨q, r₁, hr₁, hl'⟩
      · exact .inl ⟨r₁, hr₁, hl'.trans hl⟩
      · exact .inr ⟨q, r₁, old hr₁, hl'.trans hl⟩
    · exact .inr ⟨p, r₀, new _ hr₀, hl⟩
  · rcases cases_wal q x hx with hx | ⟨rfl, hx⟩
    · obtain ⟨k, hk, hm⟩ := h.known q x hx
      exact ⟨k, hcalls q k hk, hm⟩
    · rcases hp with rfl | ⟨k, hk⟩
      · cases hx
      · exact ⟨k, hk, hb.may x hx k hk⟩
  · rcases cases_db .participants r hr with ⟨r₀, hr₀, hl⟩ | ⟨r₀, hr₀, hl⟩
    · exact hl.1 ▸ kept.exists (h.seated r₀ hr₀)
    · exact hl.1 ▸ hb.seated r₀ hr₀
  · rcases cases_db .conversations c hc with ⟨c₀, hc₀, hl⟩ | ⟨c₀, hc₀, hl⟩
    · exact hl.id ▸ Nat.lt_of_lt_of_le (h.fresh c₀ hc₀) hid
    · exact hl.id ▸ hb.fresh c₀ hc₀
  · rcases cases_wal _ _ hm with hm | ⟨rfl, hm⟩
    · exact (h.sends q m hm).mono hcalls hlog old kept
    · exact hb.sends m hm
  · obtain ⟨x, hx, hs'⟩ := hx
    rcases cases_wal q x hx with hx | ⟨rfl, hx⟩
    · obtain ⟨m, hm⟩ := h.attributed q k (same q x k hx hk) hs ⟨x, hx, hs'⟩
      exact ⟨m, old hm⟩
    · obtain ⟨m, hm⟩ := hb.attributed k hk hs ⟨x, hx, hs'⟩
      exact ⟨m, new _ hm⟩
  · rcases cases_wal _ _ hm with hm | ⟨rfl, hm⟩
    · obtain ⟨k, hk, -⟩ := h.known q _ hm
      rw [hwal, harr q k hk]
      refine (h.delivered q m hm).mono ?_
      by_cases e : p = q
      · -- a send commits its message once
        subst e
        rw [own_map_self, List.filter_eq_nil_iff]
        intro x hx hs
        obtain ⟨_, _, _, hc, -⟩ := ((h.sends p m hm).mono hcalls hlog old kept).call
        have hnil := hb.once _ hc trivial ⟨x, hx, hs⟩
        have := mem_own hm rfl
        rw [hnil] at this
        cases this
      · exact own_map_of_ne e ws
    · exact hb.delivered m hm
  · rcases cases_wal _ _ he with he | ⟨rfl, he⟩
    · exact (h.events q e he).imp_right fun ⟨k, hk, hs⟩ => ⟨k, hcalls q k hk, hs⟩
    · exact hb.events e he
  · rcases cases_wal _ _ hr with hr | ⟨rfl, hr⟩
    · obtain ⟨k, hk, hs⟩ := h.receipts q r hr
      exact ⟨k, hcalls q k hk, hs⟩
    · exact hb.receipts r hr
  · rcases cases_wal _ _ hc with hc | ⟨rfl, hc⟩
    · rw [hwal]
      exact (h.founded q c hc).mono kept _
    · exact hb.founded c hc
  · rcases cases_wal _ _ ha with ha | ⟨rfl, ha⟩
    · obtain ⟨hlt, hu⟩ := h.uploads q a ha
      refine ⟨Nat.lt_of_lt_of_le hlt hid, fun q' a' ha' e => ?_⟩
      rcases cases_wal _ _ ha' with ha' | ⟨rfl, ha'⟩
      · exact hu q' a' ha' e
      · have := (hb.uploads a' ha').2.1
        omega
    · obtain ⟨hws, hle, hlt⟩ := hb.uploads a ha
      refine ⟨hlt, fun q' a' ha' e => ?_⟩
      rcases cases_wal _ _ ha' with ha' | ⟨rfl, ha'⟩
      · have := (h.uploads q' a' ha').1
        omega
      · rw [hws, List.mem_singleton] at ha'
        cases ha'
        rfl
  · rcases cases_wal _ _ hr with hr | ⟨rfl, hr⟩
    · exact (h.rotated q r f hr hf).mono hcalls old kept
    · exact hb.rotated r f hr hf
  · rcases cases_wal _ _ hr with hr | ⟨rfl, hr⟩
    · rcases cases_wal _ _ hr' with hr' | ⟨rfl, hr'⟩
      · exact h.single q token (same _ _ _ hr hk) r r' hr hr'
      · exact (hb.single token hk r' hr' r hr).elim
    · rcases cases_wal _ _ hr' with hr' | ⟨-, hr'⟩
      · exact (hb.single token hk r hr r' hr').elim
      · have hws := hb.alone _ hk trivial _ hr rfl
        rw [hws, List.mem_singleton] at hr'
        cases hr'
        rfl
  · rw [hwal] at hsplit
    rcases split_cases hsplit with ⟨post', hw, -⟩ | ⟨rfl, before, after, hws, rfl⟩
    · have hq : (q, x) ∈ st.wal := by simp [hw]
      obtain ⟨k, hk, -⟩ := h.known q x hq
      obtain ⟨t', ht', hl, hr⟩ := h.barrier pre q x post' u hw
        (hm.congr (hk.trans (hcalls q k hk).symm)) q' t ht hu
      obtain ⟨t'', ht'', hl'⟩ := kept .refreshTokens nofun t' ht'
      exact ⟨t'', ht'', hl.trans hl', hl'.revoked hr⟩
    · obtain ⟨k, hk, hrot⟩ := hm.rotates
      have hx : x ∈ ws := by simp [hws]
      have one := hb.alone k hk hrot x hx hm.1
      obtain rfl : before = [] := by
        have := congrArg List.length (hws.symm.trans one)
        simp only [List.length_append, List.length_cons, List.length_nil] at this
        exact List.eq_nil_of_length_eq_zero (by omega)
      rw [List.map_nil, List.append_nil] at hm ht
      obtain ⟨t', ht', hl⟩ := stored q' .refreshTokens nofun t (old ht)
      exact ⟨t', ht', hl, hb.barrier x hx u hm t' ht' (hl.userId.trans hu)⟩

/-- A step that commits nothing. -/
theorem DbInv.idle (h : DbInv db₀ calls arrived log st) (hdb : st'.db = st.db)
    (hwal : st'.wal = st.wal) (hcalls : ∀ p k, calls p = some k → calls' p = some k)
    (harr : ∀ p k, calls p = some k → arrived' p = arrived p) (hlog : log ⊆ log')
    (hid : st.nextId ≤ st'.nextId) : DbInv db₀ calls' arrived' log' st' := by
  have nothing : State.Commits 0 [] st st' := .none hdb hwal
  exact h.step nothing { lawful := trivial, numbered := hdb ▸ h.numbered } hcalls harr hlog hid
    (.inl rfl)

/-- No message was sent to a conversation that is not there. -/
theorem DbInv.unsequenced (h : DbInv db₀ calls arrived log st) {c : Nat} (hc : ¬Exists st.db c) :
    sequences st.db c = [] := by
  refine List.map_eq_nil_iff.2 (List.filter_eq_nil_iff.2 fun m hm hq => hc ?_)
  have hq : (m : Message).conversationId = c := by simpa using hq
  rcases h.origin .messages m hm with ⟨m₀, hm₀, -⟩ | ⟨p, m₀, hm₀, hl⟩
  · rw [h.unsent] at hm₀
    cases hm₀
  · have hl : MessageLater m₀ m := hl
    exact hq ▸ hl.conversationId ▸ (h.sends p m₀ hm₀).conversation

/-- Two entries of the log that insert one key are the same entry. -/
theorem DbInv.same_entry (h : DbInv db₀ calls arrived log st) {t : Table} (ht : t ≠ .attachments)
    (hu : (schema.keysOf t (st.db t)).Nodup) {p q : Nat} {r r' : t.Row}
    (hr : (p, Schema.Write.insert t r) ∈ st.wal) (hr' : (q, Schema.Write.insert t r') ∈ st.wal)
    {k : Key} (hk : k ∈ schema.keys t r) (hk' : k ∈ schema.keys t r') : p = q ∧ r = r' := by
  rw [h.inserted t ht, List.nodup_append'] at hu
  have := Schema.eq_of_mem_flatMap hu.2.1 hr hr' (b := k) (by simpa [Schema.Write.newKeys] using hk)
    (by simpa [Schema.Write.newKeys] using hk')
  cases this
  exact ⟨rfl, rfl⟩

end Step

end Database

end Messageries.Proofs
