import Messageries.Proofs.Opening
import Messageries.Proofs.Reading

set_option linter.unusedSectionVars false

namespace Messageries.Proofs

open Text Relational Database Crypto Concurrency Backend Moderation

variable [AesGcm] [TokenHash] {db₀ : Db} {g : Nat → Op → World → Prop} {k : Call} {p : Nat}
  {φ : World → Prop}

section Columns

/-- The columns hold the text `t`, sealed under a key of the log or in clear. -/
inductive Fits (log : List (Utf16 × Bytes)) (t : Utf16) : BodyColumns → Prop
  | plain : Fits log t (plainColumns t)
  | sealed (e : EncryptedPayload) : Opens log e (sent t) → Fits log t (sealedColumns e)

theorem Fits.mono {log log' : List (Utf16 × Bytes)} (hl : log ⊆ log') {t : Utf16}
    {cols : BodyColumns} (h : Fits log t cols) : Fits log' t cols := by
  cases h with
  | plain => exact .plain
  | «sealed» e ho => exact .sealed e (ho.mono hl)

theorem Persists.fits (t : Utf16) (cols : BodyColumns) :
    Persists db₀ fun w => Fits w.keyLog t cols :=
  fun _ _ _ _ _ hg h => h.mono hg.log

theorem opens_sealWith {log : List (Utf16 × Bytes)} {keyId : Utf16} {dek iv wrapped : Bytes}
    (hg : Genuine log (dekIdOf keyId wrapped) dek) (hd : dek.length = 32) (hi : iv.length = 12)
    (t : Utf16) : Opens log (sealWith keyId dek iv wrapped t) (sent t) :=
  ⟨dek, toBytes (decode t), hg, AesGcm.decrypt_encrypt _ hd hi, by rw [ofBytes_toBytes]; rfl⟩

/-- The key a message is sealed with is wrapped by a key of the log. -/
theorem spec_generateDataKey (hφ : Persists db₀ φ) :
    Spec db₀ g k p φ generateDataKey (onOk fun key w => φ w ∧
      Genuine w.keyLog (dekIdOf key.keyId key.ciphertext) key.plaintext.1) := by
  have hk : ∀ e : Utf16 × Bytes, Persists db₀ fun w => φ w ∧ e ∈ w.keyLog := fun e =>
    hφ.and fun _ _ _ _ _ hg h => hg.log h
  refine Spec.seq (Q := fun (kms : LocalKmsProvider) w => φ w ∧ (kms.active, kms.activeKey) ∈ w.keyLog)
    (Spec.perform trivial (fun i w r w' hi _ hw _ hx _ _ => ?_) fun r =>
      .ends (fun kms => hk _) r) fun kms => ?_
  · cases hx
    exact ⟨hw, hi.active⟩
  · refine (Spec.random 32 (hk _)).seq fun dek => (Spec.random 12 (hk _)).seq fun iv => ?_
    exact .pure fun w _ h => ⟨h.1, _, _, _, h.2,
      (kms.wellFormed _ kms.activeKey_mem).1, iv.2, dek.2, rfl⟩

theorem spec_bodyColumns (cfg : Settings) (t : Utf16) (hφ : Persists db₀ φ) :
    Spec db₀ g k p φ (bodyColumns cfg t) (onOk fun cols w => φ w ∧ Fits w.keyLog t cols) := by
  refine .ite (fun _ => ?_) fun _ => .pure fun w _ h => ⟨h, .plain⟩
  refine Spec.seq (Q := fun e w => φ w ∧ Opens w.keyLog e (sent t)) ?_ fun e =>
    .pure fun w _ h => ⟨h.1, .sealed e h.2⟩
  refine (spec_generateDataKey hφ).seq fun key => ?_
  have hψ : Persists db₀ fun w => φ w ∧
      Genuine w.keyLog (dekIdOf key.keyId key.ciphertext) key.plaintext.1 :=
    hφ.and (.genuine _ _)
  refine (Spec.random 12 hψ).seq fun iv => .pure fun w _ h => ⟨h.1, ?_⟩
  exact opens_sealWith h.2 key.plaintext.2 iv.2 t

end Columns

section Mute

/-- The operation neither stores a message nor tells of one. -/
def Mute : Op → Prop
  | .query _ (.insert t _) => t ≠ .messages
  | .emit _ => False
  | _ => True

theorem mute_assertCanAccess (user : AuthUser) (conversationId : Nat) :
    (assertCanAccess user conversationId).Uses Mute := by
  refine (visits_assertCanAccess user conversationId).mono fun o ho => ?_
  cases ho with
  | reads t q => trivial
  | joins make => exact Table.noConfusion
  | role q role => trivial
  | logs make => exact Table.noConfusion

theorem mute_bodyColumns (cfg : Settings) (t : Utf16) : (bodyColumns cfg t).Uses Mute := by
  refine .ite (fun _ => ?_) fun _ => trivial
  have random : ∀ n, (perform (.random n)).Uses Mute := fun n => (Prog.uses_perform _).2 trivial
  refine Prog.Uses.bind (Prog.Uses.bind ?_ fun _ => (random _).bind fun _ => trivial) fun _ => trivial
  exact ((Prog.uses_perform _).2 trivial).bind fun _ => (random _).bind fun _ =>
    (random _).bind fun _ => trivial

theorem mute_findExisting (input : SendMessageInput) : (findExisting input).Uses Mute := by
  unfold findExisting
  split
  · trivial
  · refine (any_onlyIf ?_).bind fun _ => any_findOne trivial
    exact Prog.Uses.bind ((Prog.uses_perform _).2 trivial) fun _ => trivial

theorem mute_saveReceipts (messageId : Nat) (users : List Nat) :
    (saveReceipts messageId users).Uses Mute := by
  refine any_onlyIf ((any_select trivial).bind fun _ => any_onlyIf ?_)
  exact Prog.Uses.bind ((Prog.uses_perform _).2 nofun) fun _ => trivial

theorem mute_audit {actorId : Option Nat} {action targetType : String} {targetId : Option Nat}
    {metadata : List (String × Json)} : (audit actorId action targetType targetId metadata).Uses Mute :=
  any_audit fun _ => nofun

/-- The statements of a send after its message. -/
theorem mute_delivers {input : SendMessageInput} {sc : ScanResult} {n : Nat} {m : Message} : (do
      let participants ← listParticipants .tx input.conversationId
      saveReceipts m.id ((participants.filter fun p =>
        p.userId != input.senderId && p.leftAt.isNone).map (·.userId))
      let _ ← insertOne .tx .outbox (newEvent .messageCreated input.conversationId
        (.created (createdPayload input sc m participants)))
      bumpLastMessage .tx input.conversationId n
      onlyIf sc.hadSensitive
        (audit (some input.senderId) "message.sensitive_redacted" "message" (some m.id)
          [("flags", .flags sc.flags), ("score", .number sc.score)])
      return m : App Message).Uses Mute := by
  have bump : (bumpLastMessage .tx input.conversationId n).Uses Mute :=
    Prog.Uses.bind ((Prog.uses_perform _).2 trivial) fun _ => trivial
  refine Prog.Uses.bind (any_select trivial) fun rows => (mute_saveReceipts ..).bind fun _ => ?_
  refine (any_insertOne (t := .outbox) nofun).bind fun _ => bump.bind fun _ => ?_
  exact (any_onlyIf mute_audit).bind fun _ => trivial

end Mute

section Store

variable {user : AuthUser} {cid : Nat} {body : Utf16} {key : Option Utf16} {cols : BodyColumns}
  {conv : Conversation} {m : Message} {w : World} {ws : List Write}

/-- The input of a send. -/
abbrev inputOf (user : AuthUser) (cid : Nat) (body : Utf16) (key : Option Utf16) :
    SendMessageInput :=
  ⟨cid, user.sub, body, key⟩

/-- What a send knows once it holds the conversation and let its sender pass. -/
structure Boarded (p : Nat) (user : AuthUser) (cid : Nat) (body : Utf16) (key : Option Utf16)
    (cols : BodyColumns) (conv : Conversation) (w : World) : Prop where
  call : w.calls p = some (.send user cid body key)
  fits : Fits w.keyLog (cleaned body) cols
  silent : own p w.store.wal = []
  locked : Locked p .conversations conv w
  named : conv.id = cid
  plain : conv.e2eeEnabled = false
  opened : conv.status = .opened
  seat : Active w.store.db cid user.sub

theorem tame_boarded : Tame db₀ p (Boarded p user cid body key cols conv) := by
  have base : Tame db₀ p fun w => (w.calls p = some (.send user cid body key) ∧
      Fits w.keyLog (cleaned body) cols ∧ Active w.store.db cid user.sub) ∧
      own p w.store.wal = [] ∧ Locked p .conversations conv w :=
    ((Persists.call p _).and ((Persists.fits _ _).and (.active _ _))).tame.and
      (tame_silent.and (tame_locked .conversations conv))
  refine ⟨fun a w w' ha hi hi' hg h => ?_, fun hi hi' hg hs h => ?_⟩
  · obtain ⟨⟨hc, hf, ha⟩, hs, hl⟩ := base.stable a w w' ha hi hi' hg
      ⟨⟨h.call, h.fits, h.seat⟩, h.silent, h.locked⟩
    exact ⟨hc, hf, hs, hl, h.named, h.plain, h.opened, ha⟩
  · obtain ⟨⟨hc, hf, ha⟩, hs, hl⟩ := base.unwritten hi hi' hg hs
      ⟨⟨h.call, h.fits, h.seat⟩, h.silent, h.locked⟩
    exact ⟨hc, hf, hs, hl, h.named, h.plain, h.opened, ha⟩

/-- The row a send makes. -/
def Written (user : AuthUser) (cid : Nat) (body : Utf16) (key : Option Utf16) (cols : BodyColumns)
    (conv : Conversation) (m : Message) : Prop :=
  ∃ id now, m = newMessage (inputOf user cid body key) (scan (trim body)) cols
    (conv.lastSequence + 1) id now

/-- The users who get a receipt. -/
def invited (senderId : Nat) (rows : List ConversationParticipant) : List Nat :=
  (rows.filter fun r => r.userId != senderId && r.leftAt.isNone).map (·.userId)

/-- The users the event is for. -/
def addressed (senderId : Nat) (rows : List ConversationParticipant) : List Nat :=
  (rows.filter fun r => r.userId != senderId).map (·.userId)

/-- The participants when `p` read them: those who had a seat, and all of them. -/
def Invites (db₀ : Db) (p cid senderId : Nat) (conv : Conversation)
    (rows : List ConversationParticipant) (w : World) : Prop :=
  (invited senderId rows).Nodup ∧ ∃ pre, pre <+: w.store.wal ∧ w.arrived p ≤ pre.length ∧
    conv ∈ replay db₀ pre .conversations ∧
    (∀ u, u ∈ invited senderId rows ↔ u ≠ senderId ∧ Active (replay db₀ pre) cid u) ∧
    ∀ u, u ∈ addressed senderId rows ↔ u ≠ senderId ∧ ∃ r ∈ replay db₀ pre .participants,
      (r : ConversationParticipant).conversationId = cid ∧
        (r : ConversationParticipant).userId = u

theorem tame_invites (hk : ∀ w, φ w → w.calls p = some k) (cid senderId : Nat)
    (rows : List ConversationParticipant) (hφ : Tame db₀ p φ) :
    Tame db₀ p fun w => φ w ∧ Invites db₀ p cid senderId conv rows w :=
  ⟨fun a w w' ha hi hi' hg ⟨hw, hn, pre, hp, hle, h⟩ => ⟨hφ.stable a w w' ha hi hi' hg hw, hn, pre,
      hp.trans hg.wal, (hg.arrived p k (hk w hw)).trans_le hle, h⟩,
    fun hi hi' hg hs ⟨hw, hn, pre, hp, hle, h⟩ => ⟨hφ.unwritten hi hi' hg hs hw, hn, pre,
      hp.trans hg.wal, (hg.arrived p k (hk _ hw)).trans_le hle, h⟩⟩

theorem invites_of_read (hi : Inv db₀ w) (hc : conv ∈ w.store.db .conversations)
    (cid senderId : Nat) :
    Invites db₀ p cid senderId conv
      ((w.store.db .participants).filter fun r => r.conversationId == cid) w := by
  have hu := hi.ok.unique .participants
  refine ⟨?_, w.store.wal, List.prefix_rfl, hi.arrived p, hi.db.replay ▸ hc, fun u => ?_,
    fun u => ?_⟩
  · refine List.Nodup.map_on (fun r hr r' hr' e => ?_)
      (((Schema.nodup_of_keys hu).filter _).filter _)
    obtain ⟨hr, hc⟩ := List.mem_filter.1 (List.mem_filter.1 hr).1
    obtain ⟨hr', hc'⟩ := List.mem_filter.1 (List.mem_filter.1 hr').1
    refine Schema.eq_of_key hu hr hr' (k := .pair cid r.userId) ?_ ?_
    · rw [beq_iff_eq] at hc
      simp [Schema.keys, primaryKey, hc]
    · rw [beq_iff_eq] at hc'
      simp [Schema.keys, primaryKey, hc', e]
  · rw [← hi.db.replay]
    simp only [invited, Active, List.mem_map, List.mem_filter, Bool.and_eq_true, bne_iff_ne,
      Option.isNone_iff_eq_none, beq_iff_eq]
    constructor
    · rintro ⟨r, ⟨⟨hr, hc⟩, hne, hl⟩, rfl⟩
      exact ⟨hne, r, hr, hc, rfl, hl⟩
    · rintro ⟨hne, r, hr, hc, rfl, hl⟩
      exact ⟨r, ⟨⟨hr, hc⟩, hne, hl⟩, rfl⟩
  · rw [← hi.db.replay]
    simp only [addressed, List.mem_map, List.mem_filter, bne_iff_ne, beq_iff_eq]
    constructor
    · rintro ⟨r, ⟨⟨hr, hc⟩, hne⟩, rfl⟩
      exact ⟨hne, r, hr, hc, rfl⟩
    · rintro ⟨hne, r, hr, hc, rfl⟩
      exact ⟨r, ⟨⟨hr, hc⟩, hne⟩, rfl⟩

/-- A message that is not committed yet has no receipt. -/
theorem Held.unreceived (hi : Inv db₀ w) (h : Held p ws w)
    (hm : Schema.Write.insert .messages m ∈ ws) :
    ∀ r ∈ w.store.db .receipts, (r : MessageReceipt).messageId ≠ m.id := by
  intro r hr e
  rcases hi.db.origin .receipts r hr with ⟨r₀, hr₀, -⟩ | ⟨q, r₀, hr₀, hl⟩
  · rw [hi.db.undelivered] at hr₀
    cases hr₀
  · obtain ⟨k', hk', hs⟩ := hi.db.receipts q r₀ hr₀
    obtain ⟨m', hm'⟩ := hi.db.attributed q k' hk' hs ⟨_, hr₀, rfl⟩
    -- the receipt is one of those its send made
    obtain ⟨users, e', ks, f, hown⟩ := (hi.db.delivered q m' hm').own
    have hmem := mem_own hr₀ rfl
    rw [hown] at hmem
    simp only [delivery, List.cons_append, List.mem_cons, List.mem_append, List.mem_map,
      reduceCtorEq, false_or, or_false, List.not_mem_nil, Schema.Write.insert.injEq, heq_eq_eq,
      true_and, false_and] at hmem
    obtain ⟨u, -, rfl⟩ := hmem
    obtain ⟨m'', hm'', hl'⟩ := hi.db.stored q .messages (by decide) m' hm'
    have hl' : MessageLater m' m'' := hl'
    have hk : Key.id m.id ∈ schema.keys .messages m := by simp [Schema.keys, primaryKey]
    refine h.fresh hi hm hm'' hk ?_
    simp [Schema.keys, primaryKey, hl'.id, ← e, hl.1, newReceipt]

theorem valid_saveReceipts {users : List Nat} (hφ : Tame db₀ p φ)
    (hk : ∀ w, φ w → w.calls p = some k) :
    Protocol.Valid machine g (protocol db₀) p (fun w => φ w ∧ Held p [.insert .messages m] w)
      (saveReceipts m.id users) (onOk fun _ w => φ w ∧ Held p
        (.insert .messages m :: users.map fun u => .insert .receipts (newReceipt m.id u)) w) := by
  refine .ite (fun _ => ?_) fun h => .pure fun w _ hw => ⟨hw.1, ?_⟩
  · refine Protocol.Valid.bind (valid_view (Q := fun rows _ => rows = []) hφ hk
      (fun w hi _ hh => List.filter_eq_nil_iff.2 fun r hr hq => ?_)
      (fun _ => (Persists.const _).tame) (E := fun _ => True) trivial) (fun stored => ?_)
      fun _ _ _ _ => trivial
    · have e : Table.receipts ≠ .messages := nofun
      have hr : r ∈ w.store.db .receipts :=
        Schema.Write.apply_insert_of_ne (S := schema) m w.store.db e ▸ hr
      refine hh.unreceived hi (List.mem_cons_self ..) r hr ?_
      simp only [Bool.and_eq_true, beq_iff_eq] at hq
      exact hq.1
    · by_cases hs : stored = []
      · subst hs
        have fresh : users.filter (fun u => !([] : List MessageReceipt).any fun r => r.userId == u) =
            users := by simp
        rw [fresh]
        refine .ite (fun _ => ?_) fun h => ?_
        · refine Protocol.Valid.bind ((valid_insertAll (t := .receipts) (Q := fun rows =>
            rows = users.map fun u => newReceipt m.id u) (E := fun _ => True) nofun hφ hk
            (fun id now _ => ?_) (fun _ => trivial) trivial).pre fun w _ h => ⟨h.1.1, h.2⟩)
            (fun rows => .pure fun w _ h => ⟨h.1.1, ?_⟩) fun _ _ _ _ => trivial
          · refine List.mapIdx_eq_iff.2 fun i => ?_
            simp [Option.map_map, Function.comp_def]
          · have hh := h.2
            rw [h.1.2, List.map_map] at hh
            exact hh
        · exact (h ‹_›).elim
      · exact (Protocol.Valid.exists (ι := Empty) (φ := fun _ _ => False) nofun).pre
          fun _ _ h => (hs h.1.2).elim
  · have : users = [] := by simpa using h
    rw [this]
    exact hw.2

/-- What a send staged up to its event. -/
def Announced (user : AuthUser) (cid : Nat) (body : Utf16) (key : Option Utf16) (cols : BodyColumns)
    (conv : Conversation) (rows : List ConversationParticipant) (m : Message) (e : OutboxEvent) :
    Prop :=
  Written user cid body key cols conv m ∧ Announces m (cleaned body) e ∧
    WellFormed (cleaned body) ∧ Untried e ∧
    ∃ pl : MessageCreated, e.payload = .created pl ∧ pl.recipients = addressed user.sub rows

/-- What a send that stores its message has ready for COMMIT. -/
def Stowed (db₀ : Db) (p : Nat) (user : AuthUser) (cid : Nat) (body : Utf16) (key : Option Utf16)
    (cols : BodyColumns) (conv : Conversation) (m : Message) (ws : List Write) (w : World) : Prop :=
  Boarded p user cid body key cols conv w ∧ ∃ rows e ks now,
    ws = delivery m (invited user.sub rows) e ks (setLastMessage (conv.lastSequence + 1) now) ∧
    Invites db₀ p cid user.sub conv rows w ∧ Announced user cid body key cols conv rows m e ∧
    ∀ key, key ∈ ks ↔ key = .id cid

/-- An event that was inserted has a text that is well formed. -/
theorem wellFormed_of_event {input : SendMessageInput} {sc : ScanResult}
    {participants : List ConversationParticipant} {id now : Nat}
    (h : schema.check .outbox (newEvent .messageCreated input.conversationId
      (.created (createdPayload input sc m participants)) id now) = none) :
    WellFormed sc.cleaned := by
  have hj : checkJson sc.cleaned = none := h
  unfold checkJson at hj
  split at hj
  · cases hj
  · rename_i hb
    simp only [Bool.or_eq_true, Bool.not_eq_true', decide_eq_false_iff_not, not_or, not_not] at hb
    exact hb.2

theorem announces_newEvent {input : SendMessageInput} {sc : ScanResult} {seq id now id' now' : Nat}
    (participants : List ConversationParticipant) :
    Announces (newMessage input sc cols seq id now) sc.cleaned
      (newEvent .messageCreated input.conversationId
        (.created (createdPayload input sc (newMessage input sc cols seq id now) participants))
        id' now') :=
  ⟨rfl, _, rfl, rfl, rfl, rfl, rfl, rfl⟩

/-- The keys of the rows of the conversation. -/
theorem keys_of_conversation (h : Boarded p user cid body key cols conv w) :
    ∀ k, k ∈ ((w.store.db .conversations).filter fun c => c.id == cid).map
      (schema.key .conversations) ↔ k = .id cid := by
  intro k
  simp only [List.mem_map, List.mem_filter, beq_iff_eq]
  constructor
  · rintro ⟨c, ⟨-, rfl⟩, rfl⟩
    rfl
  · rintro rfl
    exact ⟨conv, ⟨h.locked.row, h.named⟩, congrArg Key.id h.named⟩

/-- What a send knows when only its counter is missing. -/
def Counted (db₀ : Db) (p : Nat) (user : AuthUser) (cid : Nat) (body : Utf16) (key : Option Utf16)
    (cols : BodyColumns) (conv : Conversation) (rows : List ConversationParticipant) (w : World) :
    Prop :=
  Boarded p user cid body key cols conv w ∧ Invites db₀ p cid user.sub conv rows w

theorem tame_counted {rows : List ConversationParticipant} :
    Tame db₀ p (Counted db₀ p user cid body key cols conv rows) :=
  tame_invites (k := .send user cid body key) (fun _ h => h.call) cid user.sub rows tame_boarded

theorem stable_stowed :
    (protocol db₀).Stable p fun w => ∃ ws, Held p ws w ∧
      Stowed db₀ p user cid body key cols conv m ws w := by
  rintro a w w' ha hi hi' hg ⟨ws, hh, hb, users, e, ks, now, hws, hinv, h⟩
  obtain ⟨hb', hinv'⟩ := tame_counted.stable a w w' ha hi hi' hg ⟨hb, hinv⟩
  exact ⟨ws, stable_held ws a w w' ha hi hi' hg hh, hb', users, e, ks, now, hws, hinv', h⟩

theorem valid_bump {rows : List ConversationParticipant} {e : OutboxEvent}
    (he : Announced user cid body key cols conv rows m e) :
    Protocol.Valid machine g (protocol db₀) p
      (fun w => Counted db₀ p user cid body key cols conv rows w ∧
        Held p (.insert .messages m :: (invited user.sub rows).map
          (fun u => .insert .receipts (newReceipt m.id u)) ++ [.insert .outbox e]) w)
      (bumpLastMessage .tx cid (conv.lastSequence + 1))
      (onOk fun _ w => ∃ ws, Held p ws w ∧ Stowed db₀ p user cid body key cols conv m ws w) := by
  refine Protocol.Valid.bind (valid_update (t := .conversations)
    (Q := fun _ ks => ∀ key, key ∈ ks ↔ key = .id cid) (E := fun _ => True) nofun tame_counted
    (fun w h => h.1.call) (fun w _ hi h hh => ?_) (fun _ => trivial) trivial)
    (fun _ => .pure fun w _ h => ?_) fun _ _ _ _ => trivial
  · rw [applyAll_apart (t := .conversations) fun x hx => ?_]
    · exact keys_of_conversation h.1
    · simp only [List.cons_append, List.mem_cons, List.mem_append, List.mem_map,
        List.not_mem_nil, or_false] at hx
      rcases hx with rfl | ⟨u, -, rfl⟩ | rfl <;> nofun
  · obtain ⟨hc, now, ks, hks, hh⟩ := h
    refine ⟨_, hh, hc.1, rows, e, ks, now, ?_, hc.2, he, hks⟩
    simp only [delivery, List.append_assoc, List.cons_append, List.nil_append]

/-- The participants are read under the lock of the conversation. -/
theorem valid_participants :
    Protocol.Valid machine g (protocol db₀) p
      (fun w => Boarded p user cid body key cols conv w ∧ Held p [.insert .messages m] w)
      (listParticipants .tx cid)
      (onOk fun rows w => Counted db₀ p user cid body key cols conv rows w ∧
        Held p [.insert .messages m] w) := by
  refine (valid_held (s := .select .participants fun _ _ r => r.conversationId == cid)
    (E := fun _ => True) (fun w h => ⟨h.1.call, h.2⟩) trivial
    (fun w w' a free now hi hi' hgu h hg ha hst => ?_) (fun _ _ _ _ _ _ _ he => nomatch he) trivial
    fun rows => tame_counted.stable.and (stable_held _)).post fun _ _ _ => ends_of_fails
  have e : Table.participants ≠ .messages := nofun
  have same : Schema.Write.applyAll [Schema.Write.insert (S := schema) .messages m] w.store.db
      .participants = w.store.db .participants :=
    Schema.Write.apply_insert_of_ne (S := schema) m w.store.db e
  obtain rfl := Except.ok.inj ha
  have hb := tame_boarded.staged hi hi' hgu hst h.1
  refine ⟨⟨hb, ?_⟩, ?_⟩
  · rw [same, ← hst.db]
    exact invites_of_read hi' hb.locked.row cid user.sub
  · have := hst.held
    rwa [planIn, Schema.Stmt.plan, List.append_nil] at this

/-- The message a call with this key stands for. -/
structure Keyed (cid senderId : Nat) (key : Option Utf16) (m : Message) : Prop where
  conversation : m.conversationId = cid
  sender : m.senderId = senderId
  key : ∀ s, truthy key = some s → m.idempotencyKey = some (sent s)

/-- The message that was stored for a call, by it or by an earlier one. -/
def Answers (user : AuthUser) (cid : Nat) (key : Option Utf16) (m : Message) (w : World) : Prop :=
  Stored m w ∧ Keyed cid user.sub key m

theorem Persists.answers : Persists db₀ (Answers user cid key m) := .and (.stored m) (.const _)

/-- The reply of a send: the message that was stored for it, with the text of the request. -/
def Replies (user : AuthUser) (cid : Nat) (body : Utf16) (key : Option Utf16) (d : DecryptedMessage)
    (w : World) : Prop :=
  ∃ m t, Answers user cid key m w ∧ d = withBody m t ∧ (gone m.status = false → t = cleaned body)

theorem Persists.replies (d : DecryptedMessage) : Persists db₀ (Replies user cid body key d) :=
  .exists fun _ => .exists fun _ => .and .answers (.const _)

/-- No message of the locked conversation was sent with the key, where the key counts. -/
structure Unused (p : Nat) (user : AuthUser) (cid : Nat) (key : Option Utf16) (conv : Conversation)
    (w : World) : Prop where
  locked : Locked p .conversations conv w
  named : conv.id = cid
  unused : ∀ s, truthy key = some s → ∀ m ∈ w.store.db .messages,
    (m : Message).conversationId = cid → (m : Message).senderId = user.sub →
      (m : Message).idempotencyKey ≠ some (sent s)

/-- While its row stays as it is, a conversation gets no message. -/
theorem Guar.no_message {a : Option Nat} {w' : World} (hi : Inv db₀ w) (hi' : Inv db₀ w')
    (hg : Guar a w w') (hc : conv ∈ w.store.db .conversations)
    (hc' : conv ∈ w'.store.db .conversations) {m' : Message} (hm' : m' ∈ w'.store.db .messages)
    (hcid : m'.conversationId = conv.id) : ∃ m ∈ w.store.db .messages, MessageLater m m' := by
  have number : m'.sequence ∈ sequences w.store.db conv.id := by
    rw [(hi.db.numbered conv hc).mem_iff, ← (hi'.db.numbered conv hc').mem_iff]
    exact List.mem_map.2 ⟨m', List.mem_filter.2 ⟨hm', by simp [hcid]⟩, rfl⟩
  obtain ⟨m, hm, hs⟩ := List.mem_map.1 number
  obtain ⟨hm, he⟩ := List.mem_filter.1 hm
  obtain ⟨m'', hm'', hl⟩ := hg.kept .messages nofun m hm
  have hl : MessageLater m m'' := hl
  -- the row of that number is the only one
  have key : ∀ x : Message, Key.sequence x.conversationId x.sequence ∈ schema.keys .messages x :=
    fun x => by simp [Schema.keys, uniqueKeys]
  have same : m'' = m' := Schema.eq_of_mem_flatMap (hi'.ok.unique .messages) hm'' hm' (key m'')
    (by
      have : m.conversationId = conv.id := by simpa using he
      rw [hl.conversationId, hl.sequence, this, hs, ← hcid]
      exact key m')
  exact ⟨m, hm, same ▸ hl⟩

theorem tame_unused : Tame db₀ p (Unused p user cid key conv) := by
  have keep : ∀ {a w w'}, Inv db₀ w → Inv db₀ w' → Guar a w w' → Unused p user cid key conv w →
      Locked p .conversations conv w' → Unused p user cid key conv w' := by
    rintro a w w' hi hi' hg h hl
    refine ⟨hl, h.named, fun s hs m' hm' hc hu e => ?_⟩
    obtain ⟨m, hm, later⟩ := hg.no_message hi hi' h.locked.row hl.row hm' (hc.trans h.named.symm)
    exact h.unused s hs m hm (later.conversationId.symm.trans hc) (later.senderId.symm.trans hu)
      (later.idempotencyKey.symm.trans e)
  exact ⟨fun a w w' ha hi hi' hg h =>
      keep hi hi' hg h ((tame_locked .conversations conv).stable a w w' ha hi hi' hg h.locked),
    fun hi hi' hg hs h =>
      keep hi hi' hg h ((tame_locked .conversations conv).unwritten hi hi' hg hs h.locked)⟩

variable {C : Op → World → Prop}

/-- What a send can assert: nothing of what is mute, of its insert what its lookup found, and of
its event that it shows the message. -/
structure Asserting (db₀ : Db) (p : Nat) (user : AuthUser) (cid : Nat) (body : Utf16)
    (key : Option Utf16) (C : Op → World → Prop) : Prop where
  mute : ∀ o, Mute o → ∀ w, C o w
  stores : ∀ cols conv w, Inv db₀ w → Boarded p user cid body key cols conv w →
    Unused p user cid key conv w → Held p [] w →
    C (.query .tx (.insert .messages [newMessage (inputOf user cid body key) (scan (trim body)) cols
      (conv.lastSequence + 1)])) w
  shows : ∀ d w, Inv db₀ w → Replies user cid body key d w →
    C (.emit (.created d.id d.conversationId d.senderId d.sequence d.body d.createdAt)) w

theorem asserts_insertMessage (hC : Asserting db₀ p user cid body key C) :
    Protocol.Asserts machine g (protocol db₀) p C
      (fun w => (Boarded p user cid body key cols conv w ∧ Unused p user cid key conv w) ∧
        Held p [] w)
      (insertOne .tx .messages (newMessage (inputOf user cid body key) (scan (trim body)) cols
        (conv.lastSequence + 1)))
      (onOk fun m w => (Boarded p user cid body key cols conv w ∧
        Written user cid body key cols conv m) ∧ Held p [.insert .messages m] w) := by
  have one : Protocol.Valid machine g (protocol db₀) p
      (fun w => Boarded p user cid body key cols conv w ∧ Held p [] w)
      (insertOne .tx .messages (newMessage (inputOf user cid body key) (scan (trim body)) cols
        (conv.lastSequence + 1))) _ :=
    valid_insertOne (Q := Written user cid body key cols conv) (E := fun _ => True) nofun
      tame_boarded (fun _ h => h.call) (fun id now _ => ⟨id, now, rfl⟩) (fun _ => trivial)
      trivial trivial
  refine (one.pre fun w _ h => ⟨h.1.1, h.2⟩).asserts_first
    (fun w hi h => hC.stores cols conv w hi h.1.1 h.1.2 h.2) fun r => ?_
  rcases r with e | (_ | ⟨_, _⟩) <;> trivial

theorem asserts_storeMessage (hC : Asserting db₀ p user cid body key C) :
    Protocol.Asserts machine g (protocol db₀) p C
      (fun w => (Boarded p user cid body key cols conv w ∧ Unused p user cid key conv w) ∧
        Held p [] w)
      (storeMessage (inputOf user cid body key) (scan (trim body)) cols conv)
      (onOk fun m w => ∃ ws, Held p ws w ∧ Stowed db₀ p user cid body key cols conv m ws w) := by
  have call : ∀ w, Boarded p user cid body key cols conv w →
      w.calls p = some (.send user cid body key) := fun _ h => h.call
  refine Protocol.Asserts.bind (asserts_insertMessage hC) (fun m => Protocol.Valid.asserts ?_
    (Prog.Uses.mono hC.mute ?_)) fun _ _ _ _ => trivial
  · refine (Protocol.Valid.exists (ι := Written user cid body key cols conv m) (φ := fun _ w =>
      Boarded p user cid body key cols conv w ∧ Held p [.insert .messages m] w) fun hm => ?_).pre
      fun w _ h => ⟨h.1.2, h.1.1, h.2⟩
    refine Protocol.Valid.bind (valid_participants (m := m)) (fun participants => ?_)
      fun _ _ _ _ => trivial
    have counted : Tame db₀ p (Counted db₀ p user cid body key cols conv participants) :=
      tame_counted
    refine Protocol.Valid.bind (valid_saveReceipts counted fun w h => call w h.1) (fun _ => ?_)
      fun _ _ _ _ => trivial
    obtain ⟨id, now, rfl⟩ := hm
    refine Protocol.Valid.bind (valid_insertOne (t := .outbox)
      (Q := Announced user cid body key cols conv participants _) (E := fun _ => True) nofun
      tame_counted
      (fun w h => call w h.1)
      (fun id' now' hc => ⟨⟨id, now, rfl⟩, announces_newEvent participants,
        wellFormed_of_event hc, ⟨rfl, rfl, rfl⟩, _, rfl, rfl⟩)
      (fun _ => trivial) trivial trivial) (fun e => ?_) fun _ _ _ _ => trivial
    refine Protocol.Valid.bind ((Protocol.Valid.exists
      (ι := Announced user cid body key cols conv participants _ e)
      fun he => valid_bump he).pre fun w _ h => ⟨h.1.2, h.1.1, h.2⟩) (fun _ => ?_)
      fun _ _ _ _ => trivial
    refine Protocol.Valid.bind (.ite (fun _ => valid_audit (E := fun _ => True)
      (k := .send user cid body key) (fun w ⟨ws, _, h⟩ => h.1.call) stable_stowed)
      fun _ => .pure fun _ _ h => h) (fun _ => .pure fun _ _ h => h) fun _ _ _ _ => trivial
  · exact mute_delivers

theorem valid_findExisting :
    Protocol.Valid machine g (protocol db₀) p
      (fun w => Boarded p user cid body key cols conv w ∧ Held p [] w)
      (findExisting (inputOf user cid body key))
      (onOk fun r w => (Boarded p user cid body key cols conv w ∧
        (∀ m, r = some m → Answers user cid key m w) ∧
          (r = none → Unused p user cid key conv w)) ∧ Held p [] w) := by
  unfold findExisting
  cases hk : truthy (inputOf user cid body key).idempotencyKey with
  | none =>
    refine .pure fun w _ h => ⟨⟨h.1, fun m hm => (Option.some_ne_none m hm.symm).elim, fun _ =>
      ⟨h.1.locked, h.1.named, fun s hs => ?_⟩⟩, h.2⟩
    exact nomatch hk.symm.trans hs
  | some s =>
    refine Protocol.Valid.bind (Q := onOk fun _ w => Boarded p user cid body key cols conv w ∧
      Held p [] w) (.ite (fun _ => ?_) fun _ => .pure fun _ _ h => h) (fun _ => ?_)
      fun _ _ _ _ => trivial
    · exact (valid_parameter (E := fun _ => True) (fun w h => ⟨h.1.call, h.2⟩) trivial trivial).post
        fun _ _ _ => ends_of_fails
    · refine (valid_viewOne (t := .messages) (E := fun _ => True)
        (Q := fun r w => (∀ m, r = some m → Answers user cid key m w) ∧
          (r = none → Unused p user cid key conv w)) tame_boarded
        (fun w h => h.call) (fun w hi hb _ => ⟨fun m hm => ?_, fun hn => ⟨hb.locked, hb.named,
          fun s' hs' m hm hc hu he => ?_⟩⟩)
        (fun r => (Persists.forall fun m => .imp fun _ => .answers).tame.and
          (.imp fun _ => tame_unused)) trivial).post
        fun _ _ _ => ends_of_fails
      · obtain ⟨hmem, hq⟩ := List.mem_filter.1 (List.mem_of_mem_head? hm)
        simp only [Bool.and_eq_true, beq_iff_eq] at hq
        refine ⟨.of_read hi (.of_mem hi hmem), hq.1.1, hq.1.2, fun s' hs' => ?_⟩
        cases hk.symm.trans hs'
        exact hq.2
      · cases hk.symm.trans hs'
        have nothing := List.head?_eq_none_iff.1 hn
        refine List.filter_eq_nil_iff.1 nothing m hm ?_
        simp [hc, hu, he]

/-- What a send has ready for COMMIT: nothing, or its message. -/
def Ready (db₀ : Db) (p : Nat) (user : AuthUser) (cid : Nat) (body : Utf16) (key : Option Utf16)
    (cols : BodyColumns) (m : Message) (ws : List Write) (w : World) : Prop :=
  (ws = [] ∧ Answers user cid key m w) ∨
    ∃ conv, Stowed db₀ p user cid body key cols conv m ws w

/-- What a send knows when its transaction starts. -/
structure Cleared (p : Nat) (user : AuthUser) (cid : Nat) (body : Utf16) (key : Option Utf16)
    (cols : BodyColumns) (w : World) : Prop where
  call : w.calls p = some (.send user cid body key)
  fits : Fits w.keyLog (cleaned body) cols
  silent : own p w.store.wal = []

theorem tame_cleared : Tame db₀ p (Cleared p user cid body key cols) := by
  have base : Tame db₀ p fun w => (w.calls p = some (.send user cid body key) ∧
      Fits w.keyLog (cleaned body) cols) ∧ own p w.store.wal = [] :=
    ((Persists.call p _).and (.fits _ _)).tame.and tame_silent
  refine ⟨fun a w w' ha hi hi' hg h => ?_, fun hi hi' hg hs h => ?_⟩
  · obtain ⟨h, hs⟩ := base.stable a w w' ha hi hi' hg ⟨⟨h.call, h.fits⟩, h.silent⟩
    exact ⟨h.1, h.2, hs⟩
  · obtain ⟨h, hs⟩ := base.unwritten hi hi' hg hs ⟨⟨h.call, h.fits⟩, h.silent⟩
    exact ⟨h.1, h.2, hs⟩

theorem asserts_assertCanWrite {α : Type} {f : Unit → App α} {R : Except Err α → World → Prop}
    (hf : conv.status = .opened → Protocol.Asserts machine g (protocol db₀) p C φ (f ()) R)
    (he : ∀ e w, Inv db₀ w → φ w → R (.error e) w) :
    Protocol.Asserts machine g (protocol db₀) p C φ (assertCanWrite conv >>= f) R := by
  unfold assertCanWrite
  split
  · exact hf ‹_›
  · exact .throw (he _)

/-- The conversation is locked first. -/
theorem valid_lockConversation :
    Protocol.Valid machine g (protocol db₀) p
      (fun w => Cleared p user cid body key cols w ∧ Held p [] w)
      (lockRows .tx .conversations (fun _ c => c.id == cid) id)
      (onOk fun rows w => (Cleared p user cid body key cols w ∧ ∀ c, rows.head? = some c →
        Locked p .conversations c w ∧ (c : Conversation).id = cid) ∧ Held p [] w) := by
  refine (valid_lockRows (t := .conversations) (E := fun _ => True)
    (Q := fun rows w => ∀ c, rows.head? = some c →
      Locked p .conversations c w ∧ (c : Conversation).id = cid) tame_cleared (fun _ h => h.call)
    (fun w rows _ _ hl ⟨now, hrows⟩ c hc => ?_) (fun rows => ?_) trivial).post
    fun _ _ _ => ends_of_fails
  · intro a w w' ha hi hi' hg h c hc
    exact ⟨stable_locked _ _ a w w' ha hi hi' hg (h c hc).1, (h c hc).2⟩
  · have hmem := List.mem_of_mem_head? hc
    refine ⟨hl c hmem, ?_⟩
    rw [hrows] at hmem
    simpa using (List.mem_filter.1 hmem).2

/-- The seat of the sender is read next. -/
theorem valid_seat :
    Protocol.Valid machine g (protocol db₀) p
      (fun w => (Cleared p user cid body key cols w ∧ Locked p .conversations conv w ∧
        conv.id = cid) ∧ Held p [] w)
      (findOne .tx .participants fun r => r.conversationId == cid && r.userId == user.sub)
      (onOk fun part w => ((Cleared p user cid body key cols w ∧ Locked p .conversations conv w ∧
        conv.id = cid) ∧ ∀ r, part = some r → r.leftAt = none → Active w.store.db cid user.sub) ∧
        Held p [] w) := by
  have tame : Tame db₀ p fun w => Cleared p user cid body key cols w ∧
      Locked p .conversations conv w ∧ conv.id = cid :=
    tame_cleared.and ((tame_locked _ _).and (Persists.const _).tame)
  refine (valid_viewOne (t := .participants) (E := fun _ => True)
    (Q := fun r w => ∀ part, r = some part → part.leftAt = none → Active w.store.db cid user.sub)
    tame (fun w h => h.1.call) (fun w _ _ _ part hp hl => ?_)
    (fun r => (Persists.forall fun part => .imp fun _ => .imp fun _ => .active _ _).tame)
    trivial).post fun _ _ _ => ends_of_fails
  obtain ⟨hmem, hq⟩ := List.mem_filter.1 (List.mem_of_mem_head? hp)
  simp only [Bool.and_eq_true, beq_iff_eq] at hq
  exact ⟨part, hmem, hq.1, hq.2, hl⟩

theorem asserts_sendInTransaction (hC : Asserting db₀ p user cid body key C) :
    Protocol.Asserts machine g (protocol db₀) p C
      (fun w => Cleared p user cid body key cols w ∧ Held p [] w)
      (sendInTransaction (inputOf user cid body key) (scan (trim body)) cols)
      (onOk fun m w => ∃ ws, Held p ws w ∧ Ready db₀ p user cid body key cols m ws w) := by
  have lock : (lockRows .tx .conversations (fun _ c => c.id == cid) id).Uses Mute :=
    (Prog.uses_perform _).2 trivial
  have seat : (findOne .tx .participants fun r =>
    r.conversationId == cid && r.userId == user.sub).Uses Mute := any_findOne trivial
  refine Protocol.Asserts.bind (valid_lockConversation.asserts (lock.mono hC.mute))
    (fun rows => ?_) fun _ _ _ _ => trivial
  cases hc : rows.head? with
  | none => exact .throw fun _ _ _ => trivial
  | some conv =>
    refine Protocol.Asserts.pre (φ := fun w => (Cleared p user cid body key cols w ∧
      Locked p .conversations conv w ∧ conv.id = cid) ∧ Held p [] w) ?_
      fun w _ h => ⟨⟨h.1.1, h.1.2 conv hc⟩, h.2⟩
    refine asserts_refuse (fun hplain => ?_) fun _ _ _ => trivial
    refine asserts_assertCanWrite (fun hopen => ?_) fun _ _ _ _ => trivial
    refine Protocol.Asserts.bind (valid_seat.asserts (seat.mono hC.mute)) (fun part => ?_)
      fun _ _ _ _ => trivial
    cases part with
    | none => exact .throw fun _ _ _ => trivial
    | some part =>
      refine asserts_refuse (fun hl => ?_) fun _ _ _ => trivial
      have hl : part.leftAt = none := by simpa using hl
      have hplain : conv.e2eeEnabled = false := by simpa using hplain
      refine Protocol.Asserts.bind ((valid_findExisting.pre fun w _ h => ⟨⟨h.1.1.1.call,
        h.1.1.1.fits, h.1.1.1.silent, h.1.1.2.1, h.1.1.2.2, hplain, hopen, h.1.2 part rfl hl⟩,
        h.2⟩).asserts ((mute_findExisting _).mono hC.mute)) (fun r => ?_) fun _ _ _ _ => trivial
      cases r with
      | some m => exact .pure fun w _ h => ⟨[], h.2, .inl ⟨rfl, h.1.2.1 m rfl⟩⟩
      | none =>
        refine ((asserts_storeMessage hC).pre fun w _ h => ⟨⟨h.1.1, h.1.2.2 rfl⟩, h.2⟩).post
          fun r w _ h => ?_
        cases r with
        | ok m =>
          obtain ⟨ws, hh, h⟩ := h
          exact ⟨ws, hh, .inr ⟨conv, h⟩⟩
        | error e => trivial

end Store

section Commit

variable {user : AuthUser} {cid : Nat} {body : Utf16} {key : Option Utf16} {cols : BodyColumns}
  {conv : Conversation} {m : Message} {w : World} {ws : List Write} {users : List Nat}
  {e : OutboxEvent} {ks : List Key} {f : schema.Assign .conversations} {st st' : State schema}

theorem mem_delivery {x : Write} : x ∈ delivery m users e ks f ↔
    x = .insert .messages m ∨ (∃ u ∈ users, .insert .receipts (newReceipt m.id u) = x) ∨
      x = .insert .outbox e ∨ x = .update .conversations ks f := by
  simp [delivery]

theorem delivery_messages (db : Db) :
    Schema.Write.applyAll (delivery m users e ks f) db .messages = db .messages ++ [m] := by
  have rest : ∀ x ∈ users.map (fun u => Schema.Write.insert (S := schema) .receipts
      (newReceipt m.id u)) ++ [.insert .outbox e, .update .conversations ks f],
      writesTo x ≠ .messages := by
    intro x hx
    simp only [List.mem_append, List.mem_map, List.mem_cons, List.not_mem_nil, or_false] at hx
    rcases hx with ⟨u, -, rfl⟩ | rfl | rfl <;> nofun
  rw [delivery, List.cons_append, Schema.Write.applyAll_cons, applyAll_apart rest,
    Schema.Write.apply_insert]

theorem delivery_conversations (db : Db) :
    Schema.Write.applyAll (delivery m users e ks f) db .conversations =
      (db .conversations).map fun c => if schema.key .conversations c ∈ ks then f.set c else c := by
  have rest : ∀ x ∈ Schema.Write.insert (S := schema) .messages m :: users.map (fun u =>
      .insert .receipts (newReceipt m.id u)) ++ [.insert .outbox e],
      writesTo x ≠ .conversations := by
    intro x hx
    simp only [List.cons_append, List.mem_cons, List.mem_append, List.mem_map,
      List.not_mem_nil, or_false] at hx
    rcases hx with rfl | ⟨u, -, rfl⟩ | rfl <;> nofun
  have split : delivery m users e ks f = (.insert .messages m :: users.map (fun u =>
      .insert .receipts (newReceipt m.id u)) ++ [.insert .outbox e]) ++
        [.update .conversations ks f] := by simp [delivery]
  rw [split, Schema.Write.applyAll_append, Schema.Write.applyAll_cons, Schema.Write.applyAll_nil,
    Schema.Write.apply_update, applyAll_apart rest]

theorem lawful_delivery (now n : Nat) (db : Db) :
    LawfulAll db (delivery m users e ks (setLastMessage n now)) := by
  refine .of_forall (fun x hx db => ?_) db
  rcases mem_delivery.1 hx with rfl | ⟨u, -, rfl⟩ | rfl | rfl
  · trivial
  · trivial
  · trivial
  · exact fun c _ _ => ⟨rfl, rfl, fun h => h⟩

/-- The next message of a conversation takes the next number. -/
theorem numbered_delivery {now : Nat} {db : Db} (hn : Numbered db)
    (hu : (schema.keysOf .conversations (db .conversations)).Nodup) (hc : conv ∈ db .conversations)
    (hid : conv.id = cid) (hm : m.conversationId = cid) (hs : m.sequence = conv.lastSequence + 1)
    (hks : ∀ key, key ∈ ks ↔ key = .id cid) :
    Numbered (Schema.Write.applyAll (delivery m users e ks
      (setLastMessage (conv.lastSequence + 1) now)) db) := by
  intro c' hc'
  rw [delivery_conversations] at hc'
  obtain ⟨c, hmem, rfl⟩ := List.mem_map.1 hc'
  have seqs : ∀ n, sequences (Schema.Write.applyAll (delivery m users e ks
      (setLastMessage (conv.lastSequence + 1) now)) db) n =
      sequences db n ++ if m.conversationId = n then [m.sequence] else [] := by
    intro n
    rw [sequences, delivery_messages, List.filter_append, List.map_append, sequences]
    by_cases h : m.conversationId = n <;> simp [h]
  by_cases e : c.id = cid
  · obtain rfl : conv = c := Schema.eq_of_key hu hc hmem (k := .id cid)
      (by simp [Schema.keys, primaryKey, hid]) (by simp [Schema.keys, primaryKey, e])
    have hin : schema.key .conversations conv ∈ ks := (hks _).2 (congrArg Key.id e)
    rw [if_pos hin, seqs]
    have hlast : (((setLastMessage (conv.lastSequence + 1) now).set conv : Conversation)).lastSequence =
        conv.lastSequence + 1 := rfl
    have hsame : (((setLastMessage (conv.lastSequence + 1) now).set conv : Conversation)).id =
        conv.id := rfl
    rw [hlast, hsame, if_pos (hm.trans e.symm), List.range'_concat, hs]
    have := hn conv hc
    rw [Nat.one_mul, Nat.add_comm 1]
    exact this.append_right _
  · have hnot : schema.key .conversations c ∉ ks := fun h => e (Key.id.inj ((hks _).1 h))
    rw [if_neg hnot, seqs, if_neg (fun h => e (h.symm.trans hm)), List.append_nil]
    exact hn c hmem

/-- The columns of a new row hold the cleaned text. -/
theorem readable_newMessage {log : List (Utf16 × Bytes)} {input : SendMessageInput}
    {sc : ScanResult} {seq id now : Nat} {t : Utf16} (hf : Fits log t cols) (ht : WellFormed t) :
    Readable log (newMessage input sc cols seq id now) t := by
  have clean : sent t = t := encode_decode ht
  cases hf with
  | plain => exact .plain (congrArg some clean) rfl
  | «sealed» e ho => exact .sealed e rfl rfl (clean ▸ ho)

theorem shape_newMessage {log : List (Utf16 × Bytes)} {input : SendMessageInput} {sc : ScanResult}
    {seq id now : Nat} {t : Utf16} (hf : Fits log t cols) :
    PlainRow (newMessage input sc cols seq id now) ∨
      SealedRow (newMessage input sc cols seq id now) := by
  cases hf with
  | plain => exact .inl ⟨_, rfl⟩
  | «sealed» e ho => exact .inr ⟨_, _, _, _, rfl⟩

theorem visible_newMessage (input : SendMessageInput) (sc : ScanResult) (cols : BodyColumns)
    (seq id now : Nat) : gone (newMessage input sc cols seq id now).status = false := by
  simp only [newMessage]
  split <;> rfl

/-- The message of a send is fit to be committed with its receipts and its event. -/
theorem Brings.delivery {st' : State schema} (hi : Inv db₀ w)
    (h : Stowed db₀ p user cid body key cols conv m ws w) (hc : State.Commits p ws w.store st') :
    Brings db₀ w.calls w.arrived w.keyLog p ws w.store st' := by
  obtain ⟨hb, rows, e, ks, now, rfl, hinv, ⟨hw, ha, hwf, hfresh, pl, hpl, hto⟩, hks⟩ := h
  generalize hus : invited user.sub rows = users
  rw [Invites, hus] at hinv
  rw [hus] at hc
  have lawful : LawfulAll w.store.db (Proofs.delivery m users e ks
    (setLastMessage (conv.lastSequence + 1) now)) := lawful_delivery now _ w.store.db
  have kept : Kept w.store.db st'.db := hc.2 ▸ kept_applyAll lawful
  have send : ∃ k, w.calls p = some k ∧ IsSend k := ⟨_, hb.call, trivial⟩
  obtain ⟨id, at_, hmsg⟩ := hw
  have hconv : m.conversationId = cid := by rw [hmsg]; rfl
  have hsender : m.senderId = user.sub := by rw [hmsg]; rfl
  have hseq : m.sequence = conv.lastSequence + 1 := by rw [hmsg]; rfl
  have only : ∀ m', Schema.Write.insert .messages m' ∈ delivery m users e ks
      (setLastMessage (conv.lastSequence + 1) now) → m' = m := by
    intro m' hm'
    rcases mem_delivery.1 hm' with hx | ⟨u, -, hx⟩ | hx | hx
    · cases hx
      rfl
    · cases hx
    · cases hx
    · cases hx
  have logged : ∀ x ∈ delivery m users e ks (setLastMessage (conv.lastSequence + 1) now),
      (p, x) ∈ st'.wal := fun x hx => hc.1 ▸ List.mem_append_right _ (List.mem_map_of_mem hx)
  have others : ∀ t, t ≠ .messages → t ≠ .receipts → t ≠ .outbox → ∀ r,
      Schema.Write.insert t r ∉ delivery m users e ks (setLastMessage (conv.lastSequence + 1) now) := by
    intro t h₁ h₂ h₃ r hx
    rcases mem_delivery.1 hx with hx | ⟨u, -, hx⟩ | hx | hx
    · cases hx
      exact h₁ rfl
    · cases hx
      exact h₂ rfl
    · cases hx
      exact h₃ rfl
    · cases hx
  have untokened : ∀ x ∈ delivery m users e ks (setLastMessage (conv.lastSequence + 1) now),
      writesTo x ≠ .refreshTokens := by
    intro x hx
    rcases mem_delivery.1 hx with rfl | ⟨u, -, rfl⟩ | rfl | rfl <;> nofun
  exact {
    lawful := lawful
    may := fun x hx k hk => by
      rcases mem_delivery.1 hx with rfl | ⟨u, -, rfl⟩ | rfl | rfl
      · exact hmsg ▸ ⟨rfl, shape_newMessage hb.fits⟩
      · rfl
      · exact hfresh
      · cases hb.call.symm.trans hk
        exact ⟨.inr fun _ => rfl, .inr fun _ => rfl, .inl trivial⟩
    numbered := hc.2 ▸ numbered_delivery hi.db.numbered (hi.ok.unique .conversations)
      hb.locked.row hb.named hconv hseq hks
    seated := fun r hr => (others .participants nofun nofun nofun r hr).elim
    fresh := fun c hr => (others .conversations nofun nofun nofun c hr).elim
    sends := fun m' hm' => by
      obtain rfl := only m' hm'
      refine ⟨⟨user, body, key, hconv ▸ hb.call, hsender.symm, ?_, ?_, e,
        logged _ (mem_delivery.2 (.inr (.inr (.inl rfl)))), ha⟩, ?_,
        hconv ▸ kept.exists ⟨conv, hb.locked.row, hb.named⟩, ?_⟩
      · rw [hmsg]
        rfl
      · rw [hmsg]
        exact readable_newMessage hb.fits hwf
      · rw [hmsg]
        exact visible_newMessage ..
      · rw [hconv, hsender]
        exact kept.active hb.seat
    attributed := fun _ _ _ _ => ⟨m, mem_delivery.2 (.inl rfl)⟩
    once := fun _ _ _ _ => hb.silent
    delivered := fun m' hm' => by
      obtain rfl := only m' hm'
      obtain ⟨hnd, pre, hpre, hle, hpc, hu, hall⟩ := hinv
      refine ⟨users, e, ks, setLastMessage (conv.lastSequence + 1) now, w.store.wal, [],
        by rw [hc.1, List.append_nil], hb.silent, rfl, hnd, ?_, pre, hpre, hle,
        ⟨conv, hpc, hb.named.trans hconv.symm, hb.plain, hb.opened, hseq⟩, fun u => ?_, pl, hpl,
        fun u => ?_⟩
      · rw [← hi.db.replay]
        exact ⟨conv, hb.locked.row, hb.named.trans hconv.symm, hb.plain, hb.opened, hseq⟩
      · rw [hu, hsender, hconv]
      · rw [hto, hall, hsender, hconv]
    events := fun _ _ => .inr send
    receipts := fun _ _ => send
    founded := fun c hr => (others .conversations nofun nofun nofun c hr).elim
    uploads := fun a hr => (others .attachments nofun nofun nofun a hr).elim
    rotated := fun r _ hr => (others .refreshTokens nofun nofun nofun r hr).elim
    alone := fun _ _ _ x hx ht => (untokened x hx ht).elim
    single := fun _ _ r hr => (others .refreshTokens nofun nofun nofun r hr).elim
    barrier := fun x hx u hm => (untokened x hx hm.1).elim }

end Commit

section Send

variable {user : AuthUser} {cid : Nat} {body : Utf16} {key : Option Utf16} {cols : BodyColumns}
  {m : Message} {w : World}

/-- What a send that returned says of its message. -/
structure Returned (user : AuthUser) (cid : Nat) (key : Option Utf16) (d : DecryptedMessage)
    (w : World) : Prop where
  stored : ∃ q m, (q, Schema.Write.insert .messages m) ∈ w.store.wal ∧ (m : Message).id = d.id ∧
    (m : Message).sequence = d.sequence ∧ Keyed cid user.sub key m

theorem Persists.returned (d : DecryptedMessage) : Persists db₀ (Returned user cid key d) := by
  rintro a w w' - - hg ⟨q, m, hm, h⟩
  exact ⟨q, m, hg.wal.subset hm, h⟩

theorem Answers.returned (h : Answers user cid key m w) (t : Utf16) :
    Returned user cid key (withBody m t) w := by
  obtain ⟨⟨⟨q, m₀, hm, hl, -⟩, -⟩, hk⟩ := h
  exact ⟨q, m₀, hm, hl.id.symm, hl.sequence.symm, hl.conversationId.symm.trans hk.conversation,
    hl.senderId.symm.trans hk.sender, fun s hs => hl.idempotencyKey.symm.trans (hk.key s hs)⟩

theorem answers_of_commit {conv : Conversation} {ws : List Write} {st' : State schema}
    (h : Stowed db₀ p user cid body key cols conv m ws w) (hc : State.Commits p ws w.store st')
    (hb : Brings db₀ w.calls w.arrived w.keyLog p ws w.store st') :
    Answers user cid key m (w.withStore st') := by
  obtain ⟨-, users, e, ks, now, rfl, -, ⟨⟨id, at_, hmsg⟩, -⟩, -⟩ := h
  have written : Schema.Write.insert .messages m ∈ delivery m (invited user.sub users) e ks
      (setLastMessage (conv.lastSequence + 1) now) := mem_delivery.2 (.inl rfl)
  refine ⟨⟨⟨p, m, ?_, .refl m, hb.sends m written⟩, ?_⟩, by rw [hmsg]; rfl, by rw [hmsg]; rfl,
    fun s hs => ?_⟩
  · have : (p, Schema.Write.insert .messages m) ∈ st'.wal :=
      hc.1 ▸ List.mem_append_right _ (List.mem_map_of_mem written)
    exact this
  · have : m ∈ st'.db .messages := by
      rw [hc.2, delivery_messages]
      exact List.mem_append_right _ (List.mem_singleton_self m)
    exact ⟨m, this, .refl m⟩
  · rw [hmsg, eq_of_truthy hs]
    rfl

variable {C : Op → World → Prop}

theorem asserts_sendTransaction (hC : Asserting db₀ p user cid body key C) :
    Protocol.Asserts machine g (protocol db₀) p C
      (fun w => Cleared p user cid body key cols w)
      (transaction (sendInTransaction (inputOf user cid body key) (scan (trim body)) cols))
      (onOk fun m w => Answers user cid key m w) := by
  have ends : ∀ w, C .begin w ∧ C .commit w ∧ C .rollback w := fun w =>
    ⟨hC.mute .begin trivial w, hC.mute .commit trivial w, hC.mute .rollback trivial w⟩
  refine ((asserts_transaction (E := fun _ => True) (Q := fun m => Answers user cid key m)
    tame_cleared ((asserts_sendInTransaction hC).pre fun w _ h => h.1)
    (fun m ws w st' hi hk hh hr hc _ => ?_) trivial (fun m => .answers) ends).pre
    fun w _ h => ⟨h.call, h, .inr trivial⟩).post fun r w _ h => h.2
  rcases hr with ⟨rfl, ha⟩ | ⟨conv, hs⟩
  · refine ⟨.nothing hi.db.numbered hc.2, ?_⟩
    obtain ⟨⟨⟨q, m₀, hm, hl, hsent⟩, hp⟩, hkey⟩ := ha
    have wal : w.store.wal ⊆ st'.wal := hc.1 ▸ List.subset_append_left ..
    have db : st'.db = w.store.db := hc.2
    refine ⟨⟨⟨q, m₀, wal hm, hl, ?_⟩, ?_⟩, hkey⟩
    · exact hsent.mono (fun _ _ h => h) (fun _ h => h) wal (db ▸ .refl _)
    · have : ∃ m' ∈ st'.db .messages, MessageLater m m' := db ▸ hp
      exact this
  · have brings := Brings.delivery hi hs hc
    exact ⟨brings, answers_of_commit hs hc brings⟩

theorem toDecrypted_known (m : Message) (t : Utf16) :
    ∃ b, toDecrypted m (some t) = Pure.pure (withBody m b) ∧ (gone m.status = false → b = t) := by
  unfold toDecrypted bodyOf
  split
  · rename_i hd
    exact ⟨_, rfl, fun hg => by simp [gone, hd] at hg⟩
  · split
    · rename_i hh
      exact ⟨_, rfl, fun hg => by simp [gone, hh] at hg⟩
    · exact ⟨_, rfl, fun _ => rfl⟩

/-- The message is shown to the rooms. -/
theorem asserts_publish (hC : Asserting db₀ p user cid body key C) (d : DecryptedMessage)
    (hφ : Persists db₀ φ) :
    Protocol.Asserts machine g (protocol db₀) p C (fun w => Replies user cid body key d w ∧ φ w)
      (publishMessageCreated d) (onOk fun _ w => Replies user cid body key d w ∧ φ w) := by
  have keep : Persists db₀ fun w => Replies user cid body key d w ∧ φ w :=
    (Persists.replies d).and hφ
  have settings : Backend.settings.Uses Local := (Prog.uses_perform _).2 trivial
  have mute : Backend.settings.Uses Mute := (Prog.uses_perform _).2 trivial
  refine Protocol.Asserts.bind ((valid_local settings keep).asserts (mute.mono hC.mute))
    (fun cfg => .ite (fun _ => .pure fun _ _ h => h) fun _ => ?_) fun _ _ _ _ => trivial
  have emit : (perform (.emit (.created d.id d.conversationId d.senderId d.sequence d.body
    d.createdAt))).Uses Local := (Prog.uses_perform _).2 trivial
  refine ((valid_local (g := g) (p := p) emit keep).asserts_first
    (fun w hi h => hC.shows d w hi h.1) fun r => ?_).post fun r w _ h => ?_
  · cases r <;> trivial
  · cases r with
    | ok _ => exact h
    | error e => trivial

theorem asserts_send (hC : Asserting db₀ p user cid body key C) (hφ : Persists db₀ φ) :
    Protocol.Asserts machine g (protocol db₀) p C
      (fun w => Base (.send user cid body key) p w ∧ φ w) (send (inputOf user cid body key))
      (onOk fun d w => Replies user cid body key d w ∧ φ w) := by
  have settings : Backend.settings.Uses Mute := (Prog.uses_perform _).2 trivial
  refine Protocol.Asserts.bind (Protocol.Valid.asserts (Spec.settings (E := fun _ => True) hφ)
    (settings.mono hC.mute)) (fun cfg => ?_) fun _ _ _ _ => trivial
  refine asserts_refuse (fun _ => asserts_refuse (fun _ => ?_) fun _ _ _ => trivial)
    fun _ _ _ => trivial
  refine Protocol.Asserts.bind (Protocol.Valid.asserts (spec_bodyColumns cfg (cleaned body) hφ)
    ((mute_bodyColumns ..).mono hC.mute)) (fun cols => ?_) fun _ _ _ _ => trivial
  refine Protocol.Asserts.bind (((asserts_sendTransaction hC).frame hφ).pre fun w _ h =>
    ⟨⟨h.1.1, h.2.2, h.1.2.silent trivial⟩, h.2.1⟩) (fun m => ?_) fun _ _ _ _ => trivial
  obtain ⟨b, hb, hbody⟩ := toDecrypted_known m (cleaned body)
  have known : toDecrypted m (some (scan (trim (inputOf user cid body key).body)).cleaned) =
      Pure.pure (withBody m b) := hb
  rw [known]
  change Protocol.Asserts machine g (protocol db₀) p C _
    (publishMessageCreated (withBody m b) >>= fun _ => Pure.pure (withBody m b)) _
  refine Protocol.Asserts.bind ((asserts_publish hC (withBody m b) hφ).pre fun w _ h =>
    ⟨⟨m, b, h.1, rfl, hbody⟩, h.2⟩) (fun _ => .pure fun _ _ h => h) fun _ _ _ _ => trivial

/-- The code of a send, with its check of access. -/
theorem asserts_code_send (hC : Asserting db₀ p user cid body key C) (hφ : Persists db₀ φ) :
    Protocol.Asserts machine g (protocol db₀) p C
      (fun w => Base (.send user cid body key) p w ∧ φ w) (code (.send user cid body key))
      (onOk fun r w => Accessed user cid w ∧ ∃ d, r = .message d ∧
        Replies user cid body key d w) := by
  have access : Spec db₀ g (.send user cid body key) p _ _ _ := spec_assertCanAccess user cid hφ
  refine Protocol.Asserts.bind (Protocol.Valid.asserts access
    ((mute_assertCanAccess ..).mono hC.mute)) (fun c => ?_) fun _ _ _ _ => trivial
  refine Protocol.Asserts.bind ((asserts_send hC (.accessed user cid)).pre
    fun w _ h => ⟨h.1, h.2.2.2⟩) (fun d => ?_) fun _ _ _ _ => trivial
  exact .pure fun w _ h => ⟨h.2, d, rfl, h.1⟩

theorem Replies.returned {d : DecryptedMessage} (h : Replies user cid body key d w) :
    Returned user cid key d w := by
  obtain ⟨m, t, ha, rfl, -⟩ := h
  exact ha.returned t

/-- Nothing need be asserted. -/
theorem asserting_true : Asserting db₀ p user cid body key fun _ _ => True :=
  ⟨fun _ _ _ => trivial, fun _ _ _ _ _ _ _ => trivial, fun _ _ _ _ => trivial⟩

end Send

end Messageries.Proofs
