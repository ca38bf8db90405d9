import Messageries.Proofs.Special

set_option linter.unusedSectionVars false

namespace Messageries.Proofs

open Text Relational Database Crypto Concurrency Backend

section Log

variable {m m' : Message} {users users' : List Nat} {e e' : OutboxEvent} {ks ks' : List Key}
  {f f' : schema.Assign .conversations}

/-- The write that ends the block of a send. -/
def isBump : Write → Bool
  | .update .conversations _ _ => true
  | _ => false

theorem countP_delivery : (delivery m users e ks f).countP isBump = 1 := by
  have receipts : (users.map fun u => Schema.Write.insert (S := schema) .receipts
      (newReceipt m.id u)).countP isBump = 0 := by
    simp [List.countP_eq_zero, isBump]
  rw [delivery, List.countP_append, List.countP_cons_of_neg (by simp [isBump]), receipts]
  rfl

/-- The block of a send is not the first part of another one. -/
theorem delivery_eq_append {rest : List Write}
    (h : delivery m users e ks f = delivery m' users' e' ks' f' ++ rest) : rest = [] := by
  by_contra hne
  have count := congrArg (List.countP isBump) h
  rw [List.countP_append, countP_delivery, countP_delivery] at count
  have last := congrArg List.getLast? h
  rw [List.getLast?_append_of_ne_nil _ hne] at last
  have bump : Schema.Write.update .conversations ks f ∈ rest := by
    refine List.mem_of_getLast? (last.symm.trans ?_)
    rw [delivery, List.getLast?_append_of_ne_nil _ (by simp)]
    rfl
  have := List.countP_pos_iff.2 ⟨_, bump, (rfl : isBump (.update .conversations ks f) = true)⟩
  omega

/-- Who has a seat keeps it, whatever the log writes. -/
theorem Active.replay {wal : Wal} (h : ∀ y ∈ wal, ∃ k, May k y.2) {db : Db} {c u : Nat}
    (ha : Active db c u) : Active (Proofs.replay db wal) c u := by
  induction wal generalizing db with
  | nil => exact ha
  | cons y wal ih =>
    rw [Proofs.replay, List.map_cons, Schema.Write.applyAll_cons]
    refine ih (fun z hz => h z (List.mem_cons_of_mem _ hz)) ?_
    obtain ⟨k, hk⟩ := h y (List.mem_cons_self ..)
    obtain ⟨r, hr, hc, hu, hl⟩ := ha
    obtain ⟨q, x⟩ := y
    have same : x.apply db .participants = db .participants → Active (x.apply db) c u :=
      fun e => ⟨r, e ▸ hr, hc, hu, hl⟩
    cases x with
    | insert t r' =>
      by_cases e : Table.participants = t
      · subst e
        exact ⟨r, by simp [hr], hc, hu, hl⟩
      · exact same (Schema.Write.apply_insert_of_ne r' db e)
    | update t ks f =>
      by_cases e : Table.participants = t
      · subst e
        have still : (f.set r : ConversationParticipant).conversationId = r.conversationId ∧
            (f.set r : ConversationParticipant).userId = r.userId ∧
            (f.set r : ConversationParticipant).leftAt = r.leftAt := by
          rcases hk with ⟨role, rfl⟩ | hk
          · exact ⟨rfl, rfl, rfl⟩
          · cases k <;> first | exact hk.elim | (obtain ⟨n, -, rfl⟩ := hk; exact ⟨rfl, rfl, rfl⟩)
        rw [Active, Schema.Write.apply_update]
        refine ⟨_, List.mem_map_of_mem hr, ?_⟩
        split
        · exact ⟨still.1.trans hc, still.2.1.trans hu, still.2.2.trans hl⟩
        · exact ⟨hc, hu, hl⟩
      · exact same (Schema.Write.apply_update_of_ne ks f db e)
    | delete t ks =>
      have e : Table.participants ≠ t := by
        intro e
        cases e.trans hk
      exact same (Schema.Write.apply_delete_of_ne ks db e)

end Log

variable [AesGcm] [TokenHash] {db₀ : Db} {g : Nat → Op → World → Prop} {k : Call} {p : Nat}
  {w w' : World}

section Receipts

/-- The message of a receipt is stored, and the reader has a seat in its conversation. -/
theorem receipt_seated (hi : Inv db₀ w) {t : MessageReceipt} (ht : t ∈ w.store.db .receipts) :
    ∃ m ∈ w.store.db .messages, (m : Message).id = t.messageId ∧
      Active w.store.db (m : Message).conversationId t.userId := by
  obtain ⟨p, m₀, users, e, ks, f, hm₀, hown, hid, hu⟩ := receipt_sent hi ht
  obtain ⟨m, hm, hl⟩ := hi.db.stored p .messages (by decide) m₀ hm₀
  have hl : MessageLater m₀ m := hl
  refine ⟨m, hm, hl.id.trans hid.symm, ?_⟩
  obtain ⟨users', e', ks', f', before, after, hw, hb, ha, -, -, pre, hpre, -, -, hus, -⟩ :=
    hi.db.delivered p m₀ hm₀
  have hown' : own p w.store.wal = delivery m₀ users' e' ks' f' := by
    simp [hw, own_map_self, hb, ha]
  obtain ⟨mid, rfl⟩ := hpre
  have mem : Schema.Write.insert .receipts (newReceipt m₀.id t.userId) ∈
      delivery m₀ users' e' ks' f' := by
    rw [← hown', hown]
    exact List.mem_cons_of_mem _ (List.mem_append_left _ (List.mem_map_of_mem hu))
  simp only [delivery, List.cons_append, List.mem_cons, List.mem_append, List.mem_map,
    reduceCtorEq, false_or, or_false, List.not_mem_nil, Schema.Write.insert.injEq, heq_eq_eq,
    true_and, false_and] at mem
  obtain ⟨v, hv, same⟩ := mem
  have hv : t.userId ∈ users' := (congrArg MessageReceipt.userId same : v = t.userId) ▸ hv
  have active := ((hus t.userId).1 hv).2
  have later : w.store.db = replay (replay db₀ pre)
      (mid ++ (delivery m₀ users' e' ks' f').map (p, ·) ++ after) := by
    rw [hi.db.replay, hw, replay, replay, replay, ← Schema.Write.applyAll_append, ← List.map_append]
    simp only [List.append_assoc]
  rw [later, hl.conversationId]
  refine active.replay fun y hy => ?_
  have logged : y ∈ w.store.wal := by
    rw [hw]
    simp only [List.append_assoc, List.mem_append] at hy ⊢
    exact .inr hy
  exact (hi.db.known y.1 y.2 logged).imp fun _ h => h.2

/-- A step that inserts a receipt inserts its message. -/
theorem receipt_new (hi : Inv db₀ w) (hi' : Inv db₀ w') {new : List Write}
    (hc : State.Commits p new w.store w'.store) {t : MessageReceipt}
    (ht : Schema.Write.insert .receipts t ∈ new) {m : Message} (hm : m ∈ w.store.db .messages) :
    m.id ≠ t.messageId := by
  intro hid
  have logged : (p, Schema.Write.insert .receipts t) ∈ w'.store.wal :=
    hc.1 ▸ List.mem_append_right _ (List.mem_map_of_mem ht)
  obtain ⟨k, hk, hs⟩ := hi'.db.receipts p t logged
  obtain ⟨m₀, hm₀⟩ := hi'.db.attributed p k hk hs ⟨_, logged, rfl⟩
  obtain ⟨users, e, ks, f, hown⟩ := (hi'.db.delivered p m₀ hm₀).own
  have hmem := hown ▸ mem_own logged rfl
  simp only [delivery, List.cons_append, List.mem_cons, List.mem_append, List.mem_map,
    reduceCtorEq, false_or, or_false, List.not_mem_nil, Schema.Write.insert.injEq, heq_eq_eq,
    true_and, false_and] at hmem
  obtain ⟨u, -, rfl⟩ := hmem
  -- else the message is of an earlier step, which wrote the whole block
  obtain ⟨q, m₁, hm₁, hl⟩ := inserted_message hi hm
  have old : (q, Schema.Write.insert .messages m₁) ∈ w'.store.wal := hc.1 ▸ List.mem_append_left _ hm₁
  obtain ⟨rfl, rfl⟩ := same_insert hi' old hm₀ (hl.id.symm.trans hid)
  obtain ⟨users', e', ks', f', hown'⟩ := (hi.db.delivered q m₁ hm₁).own
  rw [hc.1, own_append, own_map_self, hown'] at hown
  have none := delivery_eq_append hown.symm
  have some : Schema.Write.insert .receipts (newReceipt m₁.id u) ∈
      new.filter fun x => ofSend (writesTo x) := List.mem_filter.2 ⟨ht, rfl⟩
  rw [none] at some
  cases some

end Receipts

section Numbers

/-- A message whose number a conversation had reached was there. -/
theorem old_message (hi : Inv db₀ w) (hi' : Inv db₀ w') (hk : Kept w.store.db w'.store.db)
    {c : Conversation} (hc : c ∈ w.store.db .conversations) {m : Message}
    (hm : m ∈ w'.store.db .messages) (e : m.conversationId = c.id)
    (hle : m.sequence ≤ c.lastSequence) : ∃ m₀ ∈ w.store.db .messages, (m₀ : Message).id = m.id := by
  obtain ⟨c', hc', hl⟩ := hk .conversations nofun c hc
  have hl : ConversationLater c c' := hl
  have listed : m.sequence ∈ sequences w'.store.db c'.id :=
    List.mem_map.2 ⟨m, List.mem_filter.2 ⟨hm, beq_iff_eq.2 (e.trans hl.id.symm)⟩, rfl⟩
  have positive := (List.mem_range'_1.1 ((hi'.db.numbered c' hc').mem_iff.1 listed)).1
  have old : m.sequence ∈ sequences w.store.db c.id :=
    (hi.db.numbered c hc).mem_iff.2 (List.mem_range'_1.2 ⟨positive, by omega⟩)
  obtain ⟨m₀, hm₀, hs⟩ := List.mem_map.1 old
  obtain ⟨hmem, hq⟩ := List.mem_filter.1 hm₀
  obtain ⟨m₁, hm₁, hl₁⟩ := hk .messages nofun m₀ hmem
  have hl₁ : MessageLater m₀ m₁ := hl₁
  have key : ∀ m : Message, Key.sequence m.conversationId m.sequence ∈ schema.keys .messages m := by
    intro m
    simp [Schema.keys, uniqueKeys]
  have same : m₁ = m := Schema.eq_of_mem_flatMap (hi'.ok.unique .messages) hm₁ hm (key m₁) (by
    rw [hl₁.conversationId, hl₁.sequence, beq_iff_eq.1 hq, hs, ← e]
    exact key m)
  exact ⟨m₀, hmem, hl₁.id.symm.trans (congrArg _ same)⟩

theorem lastSequence_le (hi : Inv db₀ w) (hi' : Inv db₀ w') (hk : Kept w.store.db w'.store.db)
    {c c' : Conversation} (hc : c ∈ w.store.db .conversations)
    (hc' : c' ∈ w'.store.db .conversations) (e : c.id = c'.id) :
    c.lastSequence ≤ c'.lastSequence := by
  rcases Nat.eq_zero_or_pos c.lastSequence with h | h
  · omega
  have listed : c.lastSequence ∈ sequences w.store.db c.id :=
    (hi.db.numbered c hc).mem_iff.2 (List.mem_range'_1.2 ⟨h, by omega⟩)
  obtain ⟨m, hm, hs⟩ := List.mem_map.1 listed
  obtain ⟨hmem, hq⟩ := List.mem_filter.1 hm
  obtain ⟨m', hm', hl⟩ := hk .messages nofun m hmem
  have hl : MessageLater m m' := hl
  have listed' : c.lastSequence ∈ sequences w'.store.db c'.id := List.mem_map.2 ⟨m',
    List.mem_filter.2 ⟨hm', beq_iff_eq.2 (hl.conversationId.trans ((beq_iff_eq.1 hq).trans e))⟩,
    hl.sequence.trans hs⟩
  have := (List.mem_range'_1.1 ((hi'.db.numbered c' hc').mem_iff.1 listed')).2
  omega

/-- Messages are numbered from 1. -/
theorem sequence_pos (hi : Inv db₀ w) {m : Message} (hm : m ∈ w.store.db .messages) :
    0 < m.sequence := by
  obtain ⟨p, m₀, hm₀, hl⟩ := inserted_message hi hm
  obtain ⟨c, hc, hid⟩ := (hi.db.sends p m₀ hm₀).conversation
  have listed : m.sequence ∈ sequences w.store.db (c : Conversation).id := List.mem_map.2 ⟨m,
    List.mem_filter.2 ⟨hm, beq_iff_eq.2 (hl.conversationId.trans hid.symm)⟩, rfl⟩
  exact (List.mem_range'_1.1 ((hi.db.numbered c hc).mem_iff.1 listed)).1

end Numbers

section Extension

def IsMarkRead : Call → Prop
  | .markRead _ _ _ => True
  | _ => False

/-- The cursor of a reader is a number of the conversation, and the receipts up to it are read. -/
structure Coherent (db : Db) : Prop where
  bounded : ∀ r ∈ db .participants, ∀ c ∈ db .conversations,
    (c : Conversation).id = (r : ConversationParticipant).conversationId →
      (r : ConversationParticipant).lastReadSequence ≤ ((c : Conversation).lastSequence : Int)
  agree : ∀ t ∈ db .receipts, ∀ m ∈ db .messages, ∀ r ∈ db .participants,
    (m : Message).id = (t : MessageReceipt).messageId →
    (r : ConversationParticipant).conversationId = (m : Message).conversationId →
    (r : ConversationParticipant).userId = (t : MessageReceipt).userId →
      ((t : MessageReceipt).readAt ≠ none ↔
        ((m : Message).sequence : Int) ≤ (r : ConversationParticipant).lastReadSequence)

/-- The message comes after all the conversation had. -/
def Beyond (w w' : World) (messageId : Nat) : Prop :=
  ∀ m ∈ w'.store.db .messages, (m : Message).id = messageId → ∀ c ∈ w.store.db .conversations,
    (c : Conversation).id = (m : Message).conversationId →
      (c : Conversation).lastSequence < (m : Message).sequence

/-- Cursors go forward, receipts are never unread again, and new receipts are of new messages. -/
structure Forward (w w' : World) : Prop where
  cursors : ∀ r ∈ w.store.db .participants, ∃ r' ∈ w'.store.db .participants,
    (r' : ConversationParticipant).conversationId = (r : ConversationParticipant).conversationId ∧
      (r' : ConversationParticipant).userId = (r : ConversationParticipant).userId ∧
      (r : ConversationParticipant).lastReadSequence ≤ (r' : ConversationParticipant).lastReadSequence
  receipts : ∀ t' ∈ w'.store.db .receipts,
    (∃ t ∈ w.store.db .receipts, (t : MessageReceipt).messageId = (t' : MessageReceipt).messageId ∧
      (t : MessageReceipt).userId = (t' : MessageReceipt).userId ∧
      ((t' : MessageReceipt).readAt = none → (t : MessageReceipt).readAt = none)) ∨
    Beyond w w' (t' : MessageReceipt).messageId

/-- Writes that read nothing. -/
def Unreading : Write → Prop
  | .insert .participants r => (r : ConversationParticipant).lastReadSequence = 0
  | .insert .receipts t => (t : MessageReceipt).readAt = none
  | .update .participants _ f => ∃ role, f = setRole role
  | .update .receipts _ _ => False
  | .delete t _ => t = .attachments
  | _ => True

def cursors : Extension where
  inv w := Coherent w.store.db
  guar _ := Forward
  special := IsMarkRead
  plain := Unreading

/-- What a step that reads nothing makes of the cursors and the receipts. -/
theorem rows_of_unreading {new : List Write} (h : ∀ x ∈ new, Unreading x) (db : Db) :
    (∃ (F : ConversationParticipant → ConversationParticipant) (rows : List ConversationParticipant),
      Schema.Write.applyAll new db .participants = (db .participants).map F ++ rows ∧
        (∀ r, (F r).conversationId = r.conversationId ∧ (F r).userId = r.userId ∧
          (F r).lastReadSequence = r.lastReadSequence) ∧ ∀ r ∈ rows, r.lastReadSequence = 0) ∧
    ∃ rows : List MessageReceipt,
      Schema.Write.applyAll new db .receipts = db .receipts ++ rows ∧
        ∀ t ∈ rows, t.readAt = none ∧ Schema.Write.insert .receipts t ∈ new := by
  constructor
  · exact applyAll_split (t := .participants)
      (S := fun (r r' : ConversationParticipant) => r'.conversationId = r.conversationId ∧
        r'.userId = r.userId ∧ r'.lastReadSequence = r.lastReadSequence)
      (N := fun (r : ConversationParticipant) => r.lastReadSequence = 0) (fun _ => ⟨rfl, rfl, rfl⟩)
      (fun _ _ _ h h' => ⟨h'.1.trans h.1, h'.2.1.trans h.2.1, h'.2.2.trans h.2.2⟩)
      (fun _ _ h hn => h.2.2.trans hn) (fun r hr => h _ hr)
      (fun ks f hf r => by
        obtain ⟨role, rfl⟩ := h _ hf
        exact ⟨rfl, rfl, rfl⟩) (fun ks hk => nomatch h _ hk) db
  · obtain ⟨F, rows, hdb, hF, hrows⟩ := applyAll_split (t := .receipts)
      (S := fun (t t' : MessageReceipt) => t' = t)
      (N := fun (t : MessageReceipt) => t.readAt = none ∧ Schema.Write.insert .receipts t ∈ new)
      (fun _ => rfl) (fun _ _ _ h h' => h'.trans h) (fun _ _ h hn => h ▸ hn)
      (fun t ht => ⟨h _ ht, ht⟩) (fun ks f hf => (h _ hf).elim) (fun ks hk => nomatch h _ hk) db
    exact ⟨rows, hdb.trans (by rw [List.map_congr_left fun t _ => hF t, List.map_id']), hrows⟩

theorem keeps_cursors
    (h₀ : ∀ r ∈ db₀ .participants, (r : ConversationParticipant).lastReadSequence = 0) :
    cursors.Keeps db₀ where
  init := by
    rintro w hw rfl
    refine ⟨fun r hr c _ _ => ?_, fun t ht => ?_⟩
    · rw [h₀ r hr]
      exact Int.natCast_nonneg _
    · rw [hw.receipts] at ht
      cases ht
  plain := by
    rintro a w w' hi hi' hg ⟨⟨p, new, hc, hnew⟩, -⟩ hx
    obtain ⟨⟨F, rows, hp, hF, hrows⟩, rows', hr, hrows'⟩ := rows_of_unreading hnew w.store.db
    rw [← hc.2] at hp hr
    -- a new receipt is of a message beyond all cursors
    have beyond : ∀ t ∈ rows', Beyond w w' t.messageId := by
      intro t ht m hm hid c hcm hcid
      by_contra hle
      obtain ⟨m₀, hm₀, e⟩ := old_message hi hi' hg.kept hcm hm hcid.symm (not_lt.1 hle)
      exact receipt_new hi hi' hc (hrows' t ht).2 hm₀ (e.trans hid)
    have stays : ∀ r ∈ w.store.db .participants, F r ∈ w'.store.db .participants := fun r hr =>
      hp ▸ List.mem_append_left _ (List.mem_map_of_mem hr)
    refine ⟨⟨fun r' hr' c' hc' e => ?_, fun t ht m' hm' r' hr' hid hcid hu => ?_⟩,
      ⟨fun r hr => ⟨F r, stays r hr, (hF r).1, (hF r).2.1, (hF r).2.2.ge⟩, fun t ht => ?_⟩⟩
    · rw [hp] at hr'
      rcases List.mem_append.1 hr' with hr' | hr'
      · obtain ⟨r, hr, rfl⟩ := List.mem_map.1 hr'
        obtain ⟨c, hcm, hcid⟩ := hi.db.seated r hr
        have bound := hx.bounded r hr c hcm hcid
        have := lastSequence_le hi hi' hg.kept hcm hc' (hcid.trans ((hF r).1.symm.trans e.symm))
        rw [(hF r).2.2]
        omega
      · rw [hrows r' hr']
        exact Int.natCast_nonneg _
    · rw [hr] at ht
      rcases List.mem_append.1 ht with ht | ht
      · obtain ⟨m, hm, hmid, r, hrm, hrc, hru, -⟩ := receipt_seated hi ht
        obtain ⟨m₁, hm₁, hl⟩ := hg.kept .messages nofun m hm
        have hl : MessageLater m m₁ := hl
        obtain rfl : m₁ = m' := same_message hi' hm₁ hm' (hl.id.trans (hmid.trans hid.symm))
        have same : F r = r' := same_participant hi' (stays r hrm) hr'
          ((hF r).1.trans (hrc.trans (hl.conversationId.symm.trans hcid.symm)))
          ((hF r).2.1.trans (hru.trans hu.symm))
        rw [← same, (hF r).2.2, hl.sequence]
        exact hx.agree t ht m hm r hrm hmid hrc hru
      · refine iff_of_false (fun hne => hne (hrows' t ht).1) fun hle => ?_
        rw [hp] at hr'
        rcases List.mem_append.1 hr' with hr' | hr'
        · obtain ⟨r, hrm, rfl⟩ := List.mem_map.1 hr'
          obtain ⟨c, hcm, hcid'⟩ := hi.db.seated r hrm
          have bound := hx.bounded r hrm c hcm hcid'
          have new := beyond t ht m' hm' hid c hcm (hcid'.trans ((hF r).1.symm.trans hcid))
          rw [(hF r).2.2] at hle
          omega
        · rw [hrows r' hr'] at hle
          have := sequence_pos hi' hm'
          omega
    · rw [hr] at ht
      rcases List.mem_append.1 ht with ht | ht
      · exact .inl ⟨t, ht, rfl, rfl, id⟩
      · exact .inr (beyond t ht)

theorem cursors_may (k : Call) (x : Write) (hk : ¬cursors.special k) (hm : May k x) :
    cursors.plain x := by
  cases x with
  | insert t r => cases t <;> trivial
  | update t ks f =>
    cases t
    case participants =>
      refine hm.resolve_right fun h => ?_
      cases k <;> first | exact h.elim | exact hk trivial
    case receipts => cases k <;> first | exact hm.elim | exact (hk trivial).elim
    all_goals trivial
  | delete t ks => exact hm

theorem open_cursors : cursors.Open := ⟨fun _ _ _ => rfl, fun _ role => ⟨role, rfl⟩, fun _ => trivial⟩

end Extension

section MarkRead

variable {user : AuthUser} {c u : Nat} {n : Int} {upto : Utf16} {ks₁ ks₂ : List Key}

/-- A cursor goes forward, and to a number its conversation has. -/
def Onward (p : Nat) (o : Op) (w : World) : Prop :=
  match o, w.calls p with
  | .query .tx (.update .participants _ _), some (.markRead user c upto) =>
    ∀ n, bigint upto = .ok n →
      (∀ r ∈ w.store.db .participants, (r : ConversationParticipant).conversationId = c →
        (r : ConversationParticipant).userId = user.sub →
          (r : ConversationParticipant).lastReadSequence ≤ n) ∧
      ∀ conv ∈ w.store.db .conversations, (conv : Conversation).id = c →
        n ≤ (conv : Conversation).lastSequence
  | _, _ => True

/-- The conversation has come to the number. -/
def Counts (c : Nat) (n : Int) (w : World) : Prop :=
  ∃ conv ∈ w.store.db .conversations, (conv : Conversation).id = c ∧
    n ≤ (conv : Conversation).lastSequence

/-- The message is one the cursor `n` has passed. -/
def Passed (c : Nat) (n : Int) (w : World) (messageId : Nat) : Prop :=
  ∃ m ∈ w.store.db .messages, (m : Message).id = messageId ∧ (m : Message).conversationId = c ∧
    ((m : Message).sequence : Int) ≤ n

theorem lasts_counts (c : Nat) (n : Int) : cursors.Lasts db₀ (Counts c n) := by
  rintro a w w' hi hi' hg ⟨conv, hc, rfl, hn⟩
  obtain ⟨conv', hc', hl⟩ := hg.1.kept .conversations nofun conv hc
  have hl : ConversationLater conv conv' := hl
  have := lastSequence_le hi.1 hi'.1 hg.1.kept hc hc' hl.id.symm
  exact ⟨conv', hc', hl.id, by omega⟩

theorem Passed.later (hk : Kept w.store.db w'.store.db) {messageId : Nat}
    (h : Passed c n w messageId) : Passed c n w' messageId := by
  obtain ⟨m, hm, hid, hc, hle⟩ := h
  obtain ⟨m', hm', hl⟩ := hk .messages nofun m hm
  have hl : MessageLater m m' := hl
  exact ⟨m', hm', hl.id.trans hid, hl.conversationId.trans hc, by rwa [hl.sequence]⟩

/-- A receipt of a message that was passed already is not a new one. -/
theorem old_receipt (hi : Inv db₀ w) (hi' : Inv db₀ w') (hk : Kept w.store.db w'.store.db)
    (hf : Forward w w') (hcount : Counts c n w) {t' : MessageReceipt}
    (ht' : t' ∈ w'.store.db .receipts) (hp : Passed c n w' t'.messageId) :
    ∃ t ∈ w.store.db .receipts, (t : MessageReceipt).messageId = t'.messageId ∧
      (t : MessageReceipt).userId = t'.userId ∧
      (t'.readAt = none → (t : MessageReceipt).readAt = none) ∧
      Passed c n w (t : MessageReceipt).messageId := by
  obtain ⟨m', hm', hid, hc, hle⟩ := hp
  rcases hf.receipts t' ht' with ⟨t, ht, hmid, hu, hr⟩ | beyond
  · obtain ⟨m, hm, hmid', -⟩ := receipt_seated hi ht
    obtain ⟨m₁, hm₁, hl⟩ := hk .messages nofun m hm
    have hl : MessageLater m m₁ := hl
    obtain rfl : m₁ = m' := same_message hi' hm₁ hm' (hl.id.trans (hmid'.trans (hmid.trans hid.symm)))
    exact ⟨t, ht, hmid, hu, hr, m, hm, hmid', hl.conversationId.symm.trans hc,
      by rwa [hl.sequence] at hle⟩
  · obtain ⟨conv, hcm, rfl, hn⟩ := hcount
    have := beyond m' hm' hid conv hcm hc.symm
    omega

/-- The keys of the rows a cursor is moved in: the row of the reader, which is locked and behind,
or none. -/
def Aims (p c u : Nat) (n : Int) (ks : List Key) (w : World) : Prop :=
  (∃ r : ConversationParticipant, Locked p .participants r w ∧ r.conversationId = c ∧
    r.userId = u ∧ r.lastReadSequence ≤ n ∧ ∀ key, key ∈ ks ↔ key = .pair c u) ∨
  ks = [] ∧ ∀ t ∈ w.store.db .receipts, (t : MessageReceipt).userId = u →
    ¬Passed c n w (t : MessageReceipt).messageId

theorem firm_aims (c u : Nat) (n : Int) (ks : List Key) :
    cursors.Firm db₀ p fun w => Counts c n w ∧ Aims p c u n ks w := by
  have unsent : ∀ {a w w'}, (cursors.protocol db₀).inv w → (cursors.protocol db₀).inv w' →
      (cursors.protocol db₀).guar a w w' → Counts c n w →
      (∀ t ∈ w.store.db .receipts, (t : MessageReceipt).userId = u →
        ¬Passed c n w (t : MessageReceipt).messageId) →
      ∀ t ∈ w'.store.db .receipts, (t : MessageReceipt).userId = u →
        ¬Passed c n w' (t : MessageReceipt).messageId := by
    intro a w w' hi hi' hg hcount h t' ht' hu hp
    obtain ⟨t, ht, -, hu', -, hp'⟩ := old_receipt hi.1 hi'.1 hg.1.kept hg.2 hcount ht' hp
    exact h t ht (hu'.trans hu) hp'
  have locked : ∀ r : ConversationParticipant,
      cursors.Firm db₀ p (Locked p .participants r) := fun r =>
    Extension.Firm.of_tame (tame_locked .participants r)
  refine ⟨fun a w w' ha hi hi' hg ⟨hcount, h⟩ => ⟨lasts_counts c n a w w' hi hi' hg hcount, ?_⟩,
    fun {w w'} hi hi' hg hu ⟨hcount, h⟩ => ⟨lasts_counts c n _ w w' hi hi' hg hcount, ?_⟩⟩
  · rcases h with ⟨r, hl, h⟩ | ⟨hks, h⟩
    · exact .inl ⟨r, (locked r).stable a w w' ha hi hi' hg hl, h⟩
    · exact .inr ⟨hks, unsent hi hi' hg hcount h⟩
  · rcases h with ⟨r, hl, h⟩ | ⟨hks, h⟩
    · exact .inl ⟨r, (locked r).unwritten hi hi' hg hu hl, h⟩
    · exact .inr ⟨hks, unsent hi hi' hg hcount h⟩

/-- The keys of the receipts a cursor reads. -/
structure Selects (c u : Nat) (n : Int) (ks : List Key) (w : World) : Prop where
  sound : ∀ key ∈ ks, ∃ messageId, key = .pair messageId u ∧ Passed c n w messageId
  complete : ∀ t ∈ w.store.db .receipts, (t : MessageReceipt).userId = u →
    (t : MessageReceipt).readAt = none → Passed c n w (t : MessageReceipt).messageId →
      Key.pair (t : MessageReceipt).messageId u ∈ ks

theorem lasts_selects (c u : Nat) (n : Int) (ks : List Key) :
    cursors.Lasts db₀ fun w => Counts c n w ∧ Selects c u n ks w := by
  refine fun a w w' hi hi' hg ⟨hcount, h⟩ => ⟨lasts_counts c n a w w' hi hi' hg hcount,
    fun key hkey => ?_, fun t' ht' hu hr hp => ?_⟩
  · obtain ⟨messageId, rfl, hp⟩ := h.sound key hkey
    exact ⟨messageId, rfl, hp.later hg.1.kept⟩
  · obtain ⟨t, ht, hid, hu', hr', hp'⟩ := old_receipt hi.1 hi'.1 hg.1.kept hg.2 hcount ht' hp
    exact hid ▸ h.complete t ht (hu'.trans hu) (hr' hr) hp'

/-- The writes of a call. -/
def reading (ks₁ ks₂ : List Key) (n : Int) (t : Nat) (e : OutboxEvent) : List Write :=
  [.update .participants ks₁ (setLastRead n), .update .receipts ks₂ (setRead t), .insert .outbox e]

/-- The cursor as the call leaves it. -/
def advanced (ks : List Key) (n : Int) (r : ConversationParticipant) : ConversationParticipant :=
  if schema.key .participants r ∈ ks then { r with lastReadSequence := n } else r

/-- The receipt as the call leaves it. -/
def marked (ks : List Key) (t : Nat) (r : MessageReceipt) : MessageReceipt :=
  if schema.key .receipts r ∈ ks then { r with readAt := some t } else r

@[simp] theorem advanced_conversationId (ks : List Key) (n : Int) (r : ConversationParticipant) :
    (advanced ks n r).conversationId = r.conversationId := by
  unfold advanced
  split <;> rfl

@[simp] theorem advanced_userId (ks : List Key) (n : Int) (r : ConversationParticipant) :
    (advanced ks n r).userId = r.userId := by
  unfold advanced
  split <;> rfl

@[simp] theorem marked_messageId (ks : List Key) (t : Nat) (r : MessageReceipt) :
    (marked ks t r).messageId = r.messageId := by
  unfold marked
  split <;> rfl

@[simp] theorem marked_userId (ks : List Key) (t : Nat) (r : MessageReceipt) :
    (marked ks t r).userId = r.userId := by
  unfold marked
  split <;> rfl

theorem reading_participants {t : Nat} {e : OutboxEvent} {db : Db} :
    Schema.Write.applyAll (reading ks₁ ks₂ n t e) db .participants =
      (db .participants).map (advanced ks₁ n) := rfl

theorem reading_receipts {t : Nat} {e : OutboxEvent} {db : Db} :
    Schema.Write.applyAll (reading ks₁ ks₂ n t e) db .receipts =
      (db .receipts).map (marked ks₂ t) := rfl

/-- The cursor moves, forward and to a number of its conversation, or stays. -/
theorem Aims.advanced (hi : Inv db₀ w) (ha : Aims p c u n ks₁ w) {r : ConversationParticipant}
    (hr : r ∈ w.store.db .participants) :
    (r.conversationId = c ∧ r.userId = u ∧ r.lastReadSequence ≤ n ∧
      (Proofs.advanced ks₁ n r).lastReadSequence = n) ∨
    ((r.conversationId = c → r.userId = u → ∀ t ∈ w.store.db .receipts,
      (t : MessageReceipt).userId = u → ¬Passed c n w (t : MessageReceipt).messageId) ∧
      Proofs.advanced ks₁ n r = r) := by
  rcases ha with ⟨r₀, hl, rfl, rfl, hle, hks⟩ | ⟨rfl, h⟩
  · by_cases e : r.conversationId = r₀.conversationId ∧ r.userId = r₀.userId
    · obtain rfl := same_participant hi hr hl.row e.1 e.2
      have hk : schema.key .participants r ∈ ks₁ := (hks _).2 rfl
      refine .inl ⟨rfl, rfl, hle, ?_⟩
      rw [Proofs.advanced, if_pos hk]
    · refine .inr ⟨fun hc hu => (e ⟨hc, hu⟩).elim, if_neg fun hk => e ?_⟩
      exact Key.pair.inj ((hks _).1 hk)
  · exact .inr ⟨fun _ _ => h, if_neg (List.not_mem_nil)⟩

theorem coherent_reading {t : Nat} {e : OutboxEvent} (hi : (cursors.protocol db₀).inv w)
    (hcount : Counts c n w) (ha : Aims p c u n ks₁ w) (hs : Selects c u n ks₂ w) :
    Coherent (Schema.Write.applyAll (reading ks₁ ks₂ n t e) w.store.db) := by
  have passes : ∀ (t : MessageReceipt) (m : Message), m ∈ w.store.db .messages →
      m.id = t.messageId → Passed c n w t.messageId → m.conversationId = c ∧ (m.sequence : Int) ≤ n := by
    rintro t m hm hid ⟨m', hm', hid', hc, hle⟩
    obtain rfl := same_message hi.1 hm hm' (hid.trans hid'.symm)
    exact ⟨hc, hle⟩
  refine ⟨fun r' hr' conv hcm hcid => ?_, fun t' ht' m hm r' hr' hid hcid hu => ?_⟩
  · have hcm : conv ∈ w.store.db .conversations := hcm
    rw [reading_participants] at hr'
    obtain ⟨r, hr, rfl⟩ := List.mem_map.1 hr'
    rw [advanced_conversationId] at hcid
    rcases ha.advanced hi.1 hr with ⟨rfl, -, -, h⟩ | ⟨-, h⟩
    · obtain ⟨conv', hcm', hcid', hn⟩ := hcount
      obtain rfl := same_conversation hi.1 hcm hcm' (hcid.trans hcid'.symm)
      rwa [h]
    · rw [h]
      exact hi.2.bounded r hr conv hcm hcid
  · have hm : m ∈ w.store.db .messages := hm
    rw [reading_participants] at hr'
    rw [reading_receipts] at ht'
    obtain ⟨r, hr, rfl⟩ := List.mem_map.1 hr'
    obtain ⟨t, ht, rfl⟩ := List.mem_map.1 ht'
    rw [marked_messageId] at hid
    rw [advanced_conversationId] at hcid
    rw [advanced_userId, marked_userId] at hu
    have old := hi.2.agree t ht m hm r hr hid hcid hu
    by_cases hk : schema.key .receipts t ∈ ks₂
    · -- the receipt is of the reader whose cursor moves
      obtain ⟨messageId, e, hp⟩ := hs.sound _ hk
      obtain ⟨rfl, htu⟩ := Key.pair.inj e
      obtain ⟨hmc, hle⟩ := passes t m hm hid hp
      rcases ha.advanced hi.1 hr with ⟨-, -, -, h⟩ | ⟨h, -⟩
      · rw [h, marked, if_pos hk]
        exact iff_of_true (Option.some_ne_none _) hle
      · exact (h (hcid.trans hmc) (hu.trans htu) t ht htu hp).elim
    · rw [marked, if_neg hk]
      rcases ha.advanced hi.1 hr with ⟨hrc, hru, hle, h⟩ | ⟨-, h⟩
      · rw [h]
        refine ⟨fun hr => (old.1 hr).trans hle, fun hle hr => hk ?_⟩
        obtain rfl : t.userId = u := hu.symm.trans hru
        exact hs.complete t ht rfl hr ⟨m, hm, hid, hcid.symm.trans hrc, hle⟩
      · rw [h]
        exact old

theorem forward_reading {t : Nat} {e : OutboxEvent} {st' : State schema}
    (hi : (cursors.protocol db₀).inv w) (ha : Aims p c u n ks₁ w)
    (hc : State.Commits p (reading ks₁ ks₂ n t e) w.store st') : Forward w (w.withStore st') := by
  have hp : st'.db .participants = (w.store.db .participants).map (advanced ks₁ n) := by
    rw [hc.2, reading_participants]
  have hr : st'.db .receipts = (w.store.db .receipts).map (marked ks₂ t) := by
    rw [hc.2, reading_receipts]
  refine ⟨fun r hmem => ⟨advanced ks₁ n r, ?_, by simp, by simp, ?_⟩, fun t' ht' => .inl ?_⟩
  · change _ ∈ st'.db .participants
    rw [hp]
    exact List.mem_map_of_mem hmem
  · rcases ha.advanced hi.1 hmem with ⟨-, -, hle, h⟩ | ⟨-, h⟩
    · rwa [h]
    · rw [h]
  · have ht' : t' ∈ st'.db .receipts := ht'
    rw [hr] at ht'
    obtain ⟨t₀, ht₀, rfl⟩ := List.mem_map.1 ht'
    refine ⟨t₀, ht₀, by simp, by simp, fun hnone => ?_⟩
    unfold marked at hnone
    split at hnone
    · cases hnone
    · exact hnone

theorem seals_reading {t : Nat} {e : OutboxEvent} {st' : State schema}
    (hi : (cursors.protocol db₀).inv w) (hk : w.calls p = some (.markRead user c upto))
    (hn : bigint upto = .ok n) (he : ReadEvent e ∧ Untried e)
    (hcount : Counts c n w) (ha : Aims p c u n ks₁ w) (hs : Selects c u n ks₂ w)
    (hc : State.Commits p (reading ks₁ ks₂ n t e) w.store st') :
    cursors.Seals db₀ p (reading ks₁ ks₂ n t e) w st' := by
  have quiet : ∀ x ∈ reading ks₁ ks₂ n t e, Quiet (.markRead user c upto) .tx x := by
    have free : ∀ t, ofPool t = false → Free (.markRead user c upto) .tx t := fun t ht =>
      ⟨fun _ => id, fun h => Bool.noConfusion (ht.symm.trans h)⟩
    intro x hx
    simp only [reading, List.mem_cons, List.not_mem_nil, or_false] at hx
    rcases hx with rfl | rfl | rfl
    · exact ⟨⟨free _ rfl, .inr ⟨n, hn, rfl⟩⟩, fun _ => ⟨⟨rfl, rfl, rfl⟩, trivial⟩⟩
    · exact ⟨⟨free _ rfl, t, rfl⟩, fun _ => ⟨⟨rfl, rfl⟩, trivial⟩⟩
    · exact ⟨⟨free _ rfl, he.2⟩, he.1⟩
  refine ⟨.quiet (fun _ => hk) quiet hi.1.db.numbered hc.2, fun _ _ => ⟨?_, ?_⟩⟩
  · have := coherent_reading (t := t) (e := e) hi hcount ha hs
    rwa [← hc.2] at this
  · exact forward_reading hi ha hc

variable (h₀ : ∀ r ∈ db₀ .participants, (r : ConversationParticipant).lastReadSequence = 0)
include h₀

theorem valid_moveCursor (hn : bigint upto = .ok n) :
    Protocol.Valid machine Onward (cursors.protocol db₀) p
      (fun w => (w.calls p = some (.markRead user c upto) ∧ Exists w.store.db c) ∧ Held p [] w)
      (Backend.update .tx .participants
        (fun r => r.conversationId == c && r.userId == user.sub) fun _ => setLastRead n)
      (onOk fun _ w => ∃ ks, (w.calls p = some (.markRead user c upto) ∧
        Counts c n w ∧ Aims p c user.sub n ks w) ∧
        Held p [.update .participants ks (setLastRead n)] w) := by
  have called : cursors.Lasts db₀ fun w => w.calls p = some (.markRead user c upto) :=
    .of_persists (.call p _)
  refine (keeps_cursors h₀).held (fun w h => ⟨h.1.1, h.2⟩) nofun
    (fun w w' a free now hi hi' hgu hw hg _ ha hst => ?_) fun _ => .exists fun ks =>
      (called.stable.and (firm_aims c user.sub n ks).stable).and (Extension.stable_held _)
  obtain ⟨hws, hls, -⟩ := Schema.Stmt.plan_update ha
  obtain ⟨⟨hk, conv, hc, hcid⟩, -⟩ := hw
  have guard : (∀ r ∈ w.store.db .participants,
      (r : ConversationParticipant).conversationId = c →
        (r : ConversationParticipant).userId = user.sub →
          (r : ConversationParticipant).lastReadSequence ≤ n) ∧
      ∀ conv ∈ w.store.db .conversations, (conv : Conversation).id = c →
        n ≤ (conv : Conversation).lastSequence := by
    simp only [Onward, hk] at hg
    exact hg n hn
  have counts : Counts c n w := ⟨conv, hc, hcid, guard.2 conv hc hcid⟩
  have held := hst.held
  rw [planIn, hws, Schema.Write.applyAll_nil, List.nil_append] at held
  refine ⟨_, ⟨hgu.1.calls p _ hk, lasts_counts c n _ w w' hi hi' hgu counts, ?_⟩, held⟩
  by_cases seat : ∃ r ∈ w.store.db .participants,
      (r : ConversationParticipant).conversationId = c ∧
        (r : ConversationParticipant).userId = user.sub
  · obtain ⟨r, hr, hrc, hru⟩ := seat
    have hr' : (r : ConversationParticipant) ∈ w'.store.db .participants := hst.db ▸ hr
    have key : ∀ key, key ∈ ((w.store.db .participants).filter fun r =>
        r.conversationId == c && r.userId == user.sub).map (schema.key .participants) ↔
          key = .pair c user.sub := by
      intro key
      constructor
      · intro hk
        obtain ⟨r', hr', rfl⟩ := List.mem_map.1 hk
        have hq := (List.mem_filter.1 hr').2
        simp only [Bool.and_eq_true, beq_iff_eq] at hq
        exact congrArg₂ Key.pair hq.1 hq.2
      · rintro rfl
        exact List.mem_map.2 ⟨r, List.mem_filter.2 ⟨hr, by simp [hrc, hru]⟩,
          congrArg₂ Key.pair hrc hru⟩
    refine .inl ⟨r, ⟨hr', hst.takes (.participants, schema.key .participants r) ?_⟩, hrc, hru,
      guard.1 r hr hrc hru, key⟩
    rw [planIn, hls]
    exact List.mem_map_of_mem ((key _).2 (congrArg₂ Key.pair hrc hru))
  · refine .inr ⟨?_, fun t ht hu hp => seat ?_⟩
    · rw [List.map_eq_nil_iff, List.filter_eq_nil_iff]
      intro r hr hq
      simp only [Bool.and_eq_true, beq_iff_eq] at hq
      exact seat ⟨r, hr, hq⟩
    · -- a receipt comes with the seat of its reader
      have ht : t ∈ w.store.db .receipts := hst.db ▸ ht
      obtain ⟨m, hm, hid, r, hr, hrc, hru, -⟩ := receipt_seated hi.1 ht
      obtain ⟨m', hm', hid', hmc, -⟩ := hp
      have hm' : m' ∈ w.store.db .messages := hst.db ▸ hm'
      obtain rfl := same_message hi.1 hm hm' (hid.trans hid'.symm)
      exact ⟨r, hr, hrc.trans hmc, hru.trans hu⟩

theorem valid_readReceipts :
    Protocol.Valid machine Onward (cursors.protocol db₀) p
      (fun w => (w.calls p = some (.markRead user c upto) ∧ Counts c n w ∧
        Aims p c user.sub n ks₁ w) ∧ Held p [.update .participants ks₁ (setLastRead n)] w)
      (Backend.updateWhere .tx .receipts (unreadUpTo c user.sub n) setRead)
      (onOk fun _ w => ∃ ks₂ t, ((w.calls p = some (.markRead user c upto) ∧ Counts c n w ∧
        Aims p c user.sub n ks₁ w) ∧ Selects c user.sub n ks₂ w) ∧
        Held p [.update .participants ks₁ (setLastRead n), .update .receipts ks₂ (setRead t)] w) := by
  have untokened : Untokened (.update .receipts
      (fun db _ => unreadUpTo c user.sub n db) setRead) := nofun
  have called : cursors.Lasts db₀ fun w => w.calls p = some (.markRead user c upto) :=
    .of_persists (.call p _)
  have firm := called.firm.and (firm_aims (p := p) c user.sub n ks₁)
  refine ((keeps_cursors h₀).held (Q := fun _ w => ∃ ks₂ t,
    ((w.calls p = some (.markRead user c upto) ∧ Counts c n w ∧ Aims p c user.sub n ks₁ w) ∧
      Counts c n w ∧ Selects c user.sub n ks₂ w) ∧
    Held p [.update .participants ks₁ (setLastRead n), .update .receipts ks₂ (setRead t)] w)
    (fun w h => ⟨h.1.1, h.2⟩) untokened (fun w w' a free now hi hi' hgu hw _ _ ha hst => ?_)
    fun _ => .exists fun ks₂ => .exists fun t => (firm.stable.and
      (lasts_selects c user.sub n ks₂).stable).and (Extension.stable_held _)).post
    fun r w _ h => ?_
  · obtain ⟨hws, -⟩ := Schema.Stmt.plan_update ha
    have held := hst.held
    rw [planIn, hws] at held
    have selects : Selects c user.sub n (((w.store.db .receipts).filter
        (unreadUpTo c user.sub n w.store.db)).map (schema.key .receipts)) w := by
      refine ⟨fun key hk => ?_, fun t ht hu hr hp => ?_⟩
      · obtain ⟨t, ht, rfl⟩ := List.mem_map.1 hk
        obtain ⟨-, hq⟩ := List.mem_filter.1 ht
        simp only [unreadUpTo, Bool.and_eq_true, beq_iff_eq, List.any_eq_true,
          decide_eq_true_eq] at hq
        obtain ⟨⟨hu, -⟩, m, hm, ⟨hid, hc⟩, hle⟩ := hq
        exact ⟨_, congrArg₂ Key.pair rfl hu, m, hm, hid, hc, hle⟩
      · obtain ⟨m, hm, hid, hc, hle⟩ := hp
        refine List.mem_map.2 ⟨t, List.mem_filter.2 ⟨ht, ?_⟩, congrArg₂ Key.pair rfl hu⟩
        simp only [unreadUpTo, Bool.and_eq_true, beq_iff_eq, List.any_eq_true, decide_eq_true_eq,
          Option.isNone_iff_eq_none]
        exact ⟨⟨hu, hr⟩, m, hm, ⟨hid, hc⟩, hle⟩
    exact ⟨_, now, ⟨firm.unwritten hi hi' hgu hst.unwritten hw.1,
      lasts_selects c user.sub n _ _ w w' hi hi' hgu ⟨hw.1.2.1, selects⟩⟩, held⟩
  · cases r with
    | ok a =>
      obtain ⟨ks₂, t, ⟨hφ, -, hs⟩, hh⟩ := h
      exact ⟨ks₂, t, ⟨hφ, hs⟩, hh⟩
    | error e => trivial

theorem valid_markRead :
    Protocol.Valid machine Onward (cursors.protocol db₀) p
      (fun w => Extension.Idle (.markRead user c upto) p w ∧ Exists w.store.db c)
      (markRead c user.sub upto) fun _ _ => True := by
  have there : cursors.Lasts db₀ fun w => Exists w.store.db c := .of_persists (.conversation c)
  have called : cursors.Lasts db₀ fun w => w.calls p = some (.markRead user c upto) :=
    .of_persists (.call p _)
  have told : (publishReadReceipt c user.sub upto).Uses Local := Extension.local_broadcast _
  refine Protocol.Valid.bind ((keeps_cursors h₀).transaction (Q := fun _ _ => True)
    (R := fun _ ws w => ∃ n ks₁ ks₂ t e, ws = reading ks₁ ks₂ n t e ∧ bigint upto = .ok n ∧
      (ReadEvent e ∧ Untried e) ∧
      Counts c n w ∧ Aims p c user.sub n ks₁ w ∧ Selects c user.sub n ks₂ w) there.firm ?_
    (fun _ ws w st' hi hk hh hR _ hc => ?_) fun _ => .const _ _ _) (fun _ => ?_)
    fun _ _ _ _ => trivial
  · refine (keeps_cursors h₀).parsed (fun _ h => h.1) fun n hn => ?_
    refine Protocol.Valid.bind (valid_moveCursor h₀ hn) (fun _ => ?_) fun _ _ _ _ => trivial
    refine Protocol.Valid.exists fun ks₁ => ?_
    refine Protocol.Valid.bind (valid_readReceipts h₀) (fun _ => ?_) fun _ _ _ _ => trivial
    refine Protocol.Valid.exists fun ks₂ => Protocol.Valid.exists fun t => ?_
    have firm : cursors.Firm db₀ p fun w => (w.calls p = some (.markRead user c upto) ∧
        Counts c n w ∧ Aims p c user.sub n ks₁ w) ∧ Counts c n w ∧ Selects c user.sub n ks₂ w :=
      (called.firm.and (firm_aims c user.sub n ks₁)).and (lasts_selects c user.sub n ks₂).firm
    refine Protocol.Valid.bind (Protocol.Valid.pre ((keeps_cursors h₀).insertOne (t := .outbox)
      (Q := fun (e : OutboxEvent) => ReadEvent e ∧ Untried e) nofun firm
      (fun _ h => h.1.1) fun _ _ _ _ _ _ => ⟨⟨rfl, _, _, _, rfl⟩, rfl, rfl, rfl⟩)
      fun w _ h => ⟨⟨h.1.1, h.1.1.2.1, h.1.2⟩, h.2⟩) (fun e => ?_) fun _ _ _ _ => trivial
    refine .pure fun w _ ⟨⟨⟨hφ, _, hs⟩, he⟩, hh⟩ => ⟨_, hh, n, ks₁, ks₂, t, e, rfl, hn, he, hφ.2.1,
      hφ.2.2, hs⟩
  · obtain ⟨n, ks₁, ks₂, t, e, rfl, hn, he, hcount, ha, hs⟩ := hR
    exact ⟨seals_reading hi hk hn he hcount ha hs hc, fun _ => trivial⟩
  · exact (((keeps_cursors h₀).elsewhere told fun _ _ _ _ _ _ h => h).pre
      fun _ _ h => ⟨h.1, trivial⟩).post fun _ _ _ _ => trivial

theorem serves_cursors (hk : IsMarkRead k) :
    Protocol.Valid machine Onward (cursors.protocol db₀) p (Start p k) (code k)
      fun _ _ => True := by
  cases k
  case markRead user c upto =>
    refine Protocol.Valid.bind (Protocol.Valid.pre ((keeps_cursors h₀).access open_cursors id id
      user c) fun w _ h => ⟨h.call, h.idle⟩) (fun _ => ?_) fun _ _ _ _ => trivial
    exact Protocol.Valid.bind ((valid_markRead h₀).pre fun _ _ h => ⟨h.1, h.2.2.seen⟩)
      (fun _ => .pure fun _ _ _ => trivial) fun _ _ _ _ => trivial
  all_goals cases hk

end MarkRead

theorem sound_cursors {w₀ : World}
    (h₀ : ∀ r ∈ w₀.store.db .participants, (r : ConversationParticipant).lastReadSequence = 0) :
    Protocol.Sound machine Onward (cursors.protocol w₀.store.db) (From w₀) Start
      fun _ k _ _ => IsMarkRead k → True :=
  (keeps_cursors h₀).sound id cursors_may fun _ _ hk => serves_cursors h₀ hk

end Messageries.Proofs
