import Messageries.Proofs.Invariant

set_option linter.unusedSectionVars false

namespace Messageries.Proofs

open Text Relational Database Crypto Concurrency Backend

variable [AesGcm] [TokenHash] {db₀ : Db} {w : World} {p q : Nat}

section Keys

theorem message_key (m : Message) : Key.id m.id ∈ schema.keys .messages m := by
  simp [Schema.keys, primaryKey]

theorem event_key (e : OutboxEvent) : Key.id e.id ∈ schema.keys .outbox e := by
  simp [Schema.keys, primaryKey]

theorem receipt_key (r : MessageReceipt) : Key.pair r.messageId r.userId ∈ schema.keys .receipts r := by
  simp [Schema.keys, primaryKey]

theorem conversation_key (c : Conversation) : Key.id c.id ∈ schema.keys .conversations c := by
  simp [Schema.keys, primaryKey]

theorem participant_key (r : ConversationParticipant) :
    Key.pair r.conversationId r.userId ∈ schema.keys .participants r := by
  simp [Schema.keys, primaryKey]

theorem same_message (hi : Inv db₀ w) {m m' : Message} (hm : m ∈ w.store.db .messages)
    (hm' : m' ∈ w.store.db .messages) (e : m.id = m'.id) : m = m' :=
  Schema.eq_of_mem_flatMap (hi.ok.unique .messages) hm hm' (message_key m) (e ▸ message_key m')

theorem same_event (hi : Inv db₀ w) {e e' : OutboxEvent} (he : e ∈ w.store.db .outbox)
    (he' : e' ∈ w.store.db .outbox) (h : e.id = e'.id) : e = e' :=
  Schema.eq_of_mem_flatMap (hi.ok.unique .outbox) he he' (event_key e) (h ▸ event_key e')

/-- One id is inserted once. -/
theorem same_insert (hi : Inv db₀ w) {m m' : Message}
    (hm : (p, Schema.Write.insert .messages m) ∈ w.store.wal)
    (hm' : (q, Schema.Write.insert .messages m') ∈ w.store.wal) (e : m.id = m'.id) :
    p = q ∧ m = m' :=
  hi.db.same_entry (by decide) (hi.ok.unique .messages) hm hm' (message_key m) (e ▸ message_key m')

/-- Where a message comes from. -/
theorem inserted_message (hi : Inv db₀ w) {m : Message} (hm : m ∈ w.store.db .messages) :
    ∃ p m₀, (p, Schema.Write.insert .messages m₀) ∈ w.store.wal ∧ MessageLater m₀ m := by
  rcases hi.db.origin .messages m hm with ⟨m₀, hm₀, -⟩ | h
  · rw [hi.db.unsent] at hm₀
    cases hm₀
  · exact h

theorem same_participant (hi : Inv db₀ w) {r r' : ConversationParticipant}
    (hr : r ∈ w.store.db .participants) (hr' : r' ∈ w.store.db .participants)
    (hc : r.conversationId = r'.conversationId) (hu : r.userId = r'.userId) : r = r' :=
  Schema.eq_of_mem_flatMap (hi.ok.unique .participants) hr hr' (participant_key r)
    (hc ▸ hu ▸ participant_key r')

theorem same_conversation (hi : Inv db₀ w) {c d : Conversation}
    (hc : c ∈ w.store.db .conversations) (hd : d ∈ w.store.db .conversations) (h : c.id = d.id) :
    c = d :=
  Schema.eq_of_mem_flatMap (hi.ok.unique .conversations) hc hd
    (conversation_key c) (h ▸ conversation_key d)

/-- A receipt was inserted by the send of its message, for one of the users it read. -/
theorem receipt_sent (hi : Inv db₀ w) {r : MessageReceipt} (hr : r ∈ w.store.db .receipts) :
    ∃ p m₀ users e ks f, (p, Schema.Write.insert .messages m₀) ∈ w.store.wal ∧
      own p w.store.wal = delivery m₀ users e ks f ∧ r.messageId = m₀.id ∧ r.userId ∈ users := by
  rcases hi.db.origin .receipts r hr with ⟨r₀, hr₀, -⟩ | ⟨p, r₀, hr₀, hid, hu⟩
  · rw [hi.db.undelivered] at hr₀
    cases hr₀
  · obtain ⟨k, hk, hs⟩ := hi.db.receipts p r₀ hr₀
    obtain ⟨m₀, hm₀⟩ := hi.db.attributed p k hk hs ⟨_, hr₀, rfl⟩
    obtain ⟨users, e, ks, f, hown⟩ := (hi.db.delivered p m₀ hm₀).own
    have hmem := hown ▸ mem_own hr₀ rfl
    simp only [delivery, List.cons_append, List.mem_cons, List.mem_append, List.mem_map,
      reduceCtorEq, false_or, or_false, List.not_mem_nil, Schema.Write.insert.injEq, heq_eq_eq,
      true_and, false_and] at hmem
    obtain ⟨u, hmem, rfl⟩ := hmem
    exact ⟨p, m₀, users, e, ks, f, hm₀, hown, hid, hu ▸ hmem⟩

end Keys

end Messageries.Proofs
