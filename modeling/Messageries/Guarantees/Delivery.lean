import Mathlib.Logic.Equiv.Basic
import Messageries.Guarantees.Idempotency
import Messageries.Proofs.Identity

set_option linter.unusedSectionVars false

namespace Messageries.Guarantees

open Text Relational Database Crypto Concurrency Backend Moderation Proofs

section Announcements

variable [AesGcm] [TokenHash] {db₀ : Db} {w : World} {p : Nat}

/-- The event is the `message.created` of the message. -/
def Matches (m : Message) (e : OutboxEvent) : Prop :=
  ∃ pl : MessageCreated, e.payload = .created pl ∧ pl.messageId = m.id ∧
    pl.conversationId = m.conversationId ∧ pl.senderId = m.senderId ∧ pl.sequence = m.sequence

/-- A send that stored a message inserted one event. -/
theorem one_event (hi : Inv db₀ w) {m : Message}
    (hm : (p, Schema.Write.insert .messages m) ∈ w.store.wal) {e e' : OutboxEvent}
    (he : (p, Schema.Write.insert .outbox e) ∈ w.store.wal)
    (he' : (p, Schema.Write.insert .outbox e') ∈ w.store.wal) : e = e' := by
  obtain ⟨users, e₀, ks, f, hown⟩ := (hi.db.delivered p m hm).own
  have only : ∀ x, (p, Schema.Write.insert .outbox x) ∈ w.store.wal → x = e₀ := by
    intro x hx
    have hmem := hown ▸ mem_own hx rfl
    simpa [delivery] using hmem
  exact (only e he).trans (only e' he').symm

/-- The event of a send announces its message. -/
theorem announced (hi : Inv db₀ w) {e : OutboxEvent}
    (he : (p, Schema.Write.insert .outbox e) ∈ w.store.wal) (hc : e.eventType = .messageCreated) :
    ∃ m, (p, Schema.Write.insert .messages m) ∈ w.store.wal ∧ Matches m e := by
  rcases hi.db.events p e he with hr | ⟨k, hk, hs⟩
  · cases hc.symm.trans hr.1
  · obtain ⟨m, hm⟩ := hi.db.attributed p k hk hs ⟨_, he, rfl⟩
    obtain ⟨_, _, _, -, -, -, -, e', he', -, ha⟩ := (hi.db.sends p m hm).call
    obtain ⟨pl, hp, hid, hcid, hsender, hseq, -⟩ := ha
    exact ⟨m, hm, pl, one_event hi hm he he' ▸ hp, hid, hcid, hsender, hseq⟩

theorem Matches.later {m m' : Message} {e e' : OutboxEvent} (h : Matches m e)
    (hm : MessageLater m m') (he : e'.payload = e.payload) : Matches m' e' := by
  obtain ⟨pl, hp, hid, hc, hs, hn⟩ := h
  exact ⟨pl, he.trans hp, hid.trans hm.id.symm, hc.trans hm.conversationId.symm,
    hs.trans hm.senderId.symm, hn.trans hm.sequence.symm⟩

theorem Matches.messageId {m m' : Message} {e : OutboxEvent} (h : Matches m e)
    (h' : Matches m' e) : m.id = m'.id := by
  obtain ⟨pl, hp, hid, -⟩ := h
  obtain ⟨pl', hp', hid', -⟩ := h'
  cases hp.symm.trans hp'
  exact hid.symm.trans hid'

/-- Each `message.created` event announces a message. -/
theorem exists_message (hi : Inv db₀ w) {e : OutboxEvent} (he : e ∈ w.store.db .outbox)
    (hc : e.eventType = .messageCreated) : ∃ m ∈ w.store.db .messages, Matches m e := by
  rcases hi.db.origin .outbox e he with ⟨e₀, he₀, -⟩ | ⟨p, e₀, he₀, -, ht, hp⟩
  · rw [hi.db.unannounced] at he₀
    cases he₀
  · obtain ⟨m₀, hm₀, hmatch⟩ := announced hi he₀ (ht.symm.trans hc)
    obtain ⟨m, hm, hl⟩ := hi.db.stored p .messages (by decide) m₀ hm₀
    exact ⟨m, hm, hmatch.later hl hp⟩

/-- Each message is announced. -/
theorem exists_event (hi : Inv db₀ w) {m : Message} (hm : m ∈ w.store.db .messages) :
    ∃ e ∈ w.store.db .outbox, (e : OutboxEvent).eventType = .messageCreated ∧ Matches m e := by
  obtain ⟨p, m₀, hm₀, hl⟩ := inserted_message hi hm
  obtain ⟨_, _, _, -, -, -, -, e₀, he₀, hc, pl, hp, hid, hcid, hs, hn, -⟩ :=
    (hi.db.sends p m₀ hm₀).call
  obtain ⟨e, he, -, ht, hpl⟩ := hi.db.stored p .outbox (by decide) e₀ he₀
  have hmatch : Matches m₀ e₀ := ⟨pl, hp, hid, hcid, hs, hn⟩
  exact ⟨e, he, ht.trans hc, hmatch.later hl hpl⟩

/-- One message is announced once. -/
theorem event_unique (hi : Inv db₀ w) {m : Message} {e e' : OutboxEvent}
    (he : e ∈ w.store.db .outbox) (he' : e' ∈ w.store.db .outbox)
    (hc : e.eventType = .messageCreated) (hc' : e'.eventType = .messageCreated)
    (h : Matches m e) (h' : Matches m e') : e = e' := by
  rcases hi.db.origin .outbox e he with ⟨e₀, he₀, -⟩ | ⟨p, e₀, he₀, hid, ht, hp⟩
  · rw [hi.db.unannounced] at he₀
    cases he₀
  rcases hi.db.origin .outbox e' he' with ⟨e₁, he₁, -⟩ | ⟨q, e₁, he₁, hid', ht', hp'⟩
  · rw [hi.db.unannounced] at he₁
    cases he₁
  obtain ⟨m₀, hm₀, h₀⟩ := announced hi he₀ (ht.symm.trans hc)
  obtain ⟨m₁, hm₁, h₁⟩ := announced hi he₁ (ht'.symm.trans hc')
  have id₀ : m₀.id = m.id := (h₀.later (.refl m₀) hp).messageId h
  have id₁ : m₁.id = m.id := (h₁.later (.refl m₁) hp').messageId h'
  obtain ⟨rfl, rfl⟩ := same_insert hi hm₀ hm₁ (id₀.trans id₁.symm)
  have same : e₀ = e₁ := one_event hi hm₀ he₀ he₁
  exact same_event hi he he' (hid.trans (same ▸ hid'.symm))

end Announcements

section Receipts

variable [AesGcm] [TokenHash] {db₀ : Db} {w : World}

/-- The receipts of a message for a user. -/
def receiptsOf (messageId userId : Nat) (db : Db) : List MessageReceipt :=
  (db .receipts).filter fun (r : MessageReceipt) =>
    r.messageId == messageId && r.userId == userId

theorem mem_receiptsOf {messageId userId : Nat} {db : Db} {r : MessageReceipt} :
    r ∈ receiptsOf messageId userId db ↔
      r ∈ db .receipts ∧ r.messageId = messageId ∧ r.userId = userId := by
  simp [receiptsOf]

theorem receiptsOf_length (hi : Inv db₀ w) (messageId userId : Nat) :
    (receiptsOf messageId userId w.store.db).length ≤ 1 := by
  refine Schema.filter_length_le_one (hi.ok.unique .receipts) (k := .pair messageId userId)
    fun r h => ?_
  simp only [Bool.and_eq_true, beq_iff_eq] at h
  obtain ⟨rfl, rfl⟩ := h
  exact receipt_key r

end Receipts

section Delivery

variable [AesGcm] [TokenHash] {w₀ : World} {P : Run}

/-- When the log was `pre`, the send of process `p` had the conversation to itself and was to
store the message. -/
structure Turn (db₀ : Db) (P : Run) (p : Nat) (m : Message) (pre : Wal) : Prop where
  sent : (p, Schema.Write.insert .messages m) ∈ P.shared.store.wal
  log : pre <+: P.shared.store.wal
  arrived : P.shared.arrived p ≤ pre.length
  pending : own p pre = []
  next : Takes (replay db₀ pre) m

/-- The receipts of a message are those of the other participants its transaction read, and its
event is for all of them. -/
theorem lists_sent (hi : Inv w₀.store.db P.shared) {m : Message}
    (hm : m ∈ P.shared.store.db .messages) :
    ∃ p m₀ pre e₀, Turn w₀.store.db P p m₀ pre ∧ MessageLater m₀ m ∧
      (∀ u, (receiptsOf m.id u P.shared.store.db).length =
        if u ≠ m.senderId ∧ Active (replay w₀.store.db pre) m.conversationId u then 1 else 0) ∧
      (p, Schema.Write.insert .outbox e₀) ∈ P.shared.store.wal ∧
      Addresses (replay w₀.store.db pre) m e₀ := by
  obtain ⟨p, m₀, hm₀, hl⟩ := inserted_message hi hm
  obtain ⟨users, e, ks, f, before, after, hw, hb, ha, -, -, pre, hpre, harr, hn, hu, hto⟩ :=
    hi.db.delivered p m₀ hm₀
  have hown : own p P.shared.store.wal = delivery m₀ users e ks f := by
    simp [hw, own_map_self, hb, ha]
  have unwritten : own p pre = [] := by
    obtain ⟨rest, rfl⟩ := hpre
    rw [own_append] at hb
    exact (List.append_eq_nil_iff.1 hb).1
  have log : pre <+: P.shared.store.wal := by
    rw [hw, List.append_assoc]
    exact hpre.trans (List.prefix_append ..)
  have logged : (p, Schema.Write.insert .outbox e) ∈ P.shared.store.wal := by
    rw [hw]
    simp [delivery]
  refine ⟨p, m₀, pre, e, ⟨hm₀, log, harr, unwritten, hn⟩, hl, fun u => ?_, logged, ?_⟩
  rotate_left
  · rwa [Addresses, hl.senderId, hl.conversationId]
  rw [hl.senderId, hl.conversationId, hl.id]
  split
  · rename_i h
    have hmem : u ∈ users := (hu u).2 h
    have hins : (p, Schema.Write.insert .receipts (newReceipt m₀.id u)) ∈ P.shared.store.wal := by
      have hd : Schema.Write.insert .receipts (newReceipt m₀.id u) ∈ delivery m₀ users e ks f :=
        List.mem_cons_of_mem _ (List.mem_append_left _ (List.mem_map_of_mem hmem))
      rw [hw]
      exact List.mem_append_left _ (List.mem_append_right _ (List.mem_map_of_mem hd))
    obtain ⟨r, hr, hid, huser⟩ := hi.db.stored p .receipts (by decide) _ hins
    have one := receiptsOf_length hi m₀.id u
    have some := List.length_pos_of_mem (mem_receiptsOf.2 ⟨hr, hid, huser⟩)
    exact Nat.le_antisymm one some
  · rename_i h
    rw [List.length_eq_zero_iff, List.eq_nil_iff_forall_not_mem]
    intro r hr
    obtain ⟨stored, hid, huser⟩ := mem_receiptsOf.1 hr
    obtain ⟨q, m₁, users', e', ks', f', hm₁, hown', hid', hmem⟩ := receipt_sent hi stored
    -- the receipt is of the same send
    obtain ⟨rfl, rfl⟩ := same_insert hi hm₀ hm₁ (hid.symm.trans hid')
    have mem : Schema.Write.insert .receipts (newReceipt m₀.id r.userId) ∈
        delivery m₀ users e ks f := by
      rw [← hown, hown']
      exact List.mem_cons_of_mem _ (List.mem_append_left _ (List.mem_map_of_mem hmem))
    simp only [delivery, List.cons_append, List.mem_cons, List.mem_append, List.mem_map,
      reduceCtorEq, false_or, or_false, List.not_mem_nil, Schema.Write.insert.injEq, heq_eq_eq,
      true_and, false_and] at mem
    obtain ⟨v, hin, same⟩ := mem
    have hv : v = r.userId := congrArg MessageReceipt.userId same
    exact h ((hu u).1 (huser ▸ hv ▸ hin))

theorem receipts_sent (hi : Inv w₀.store.db P.shared) {m : Message}
    (hm : m ∈ P.shared.store.db .messages) :
    ∃ p m₀ pre, Turn w₀.store.db P p m₀ pre ∧ MessageLater m₀ m ∧ ∀ u,
      (receiptsOf m.id u P.shared.store.db).length =
        if u ≠ m.senderId ∧ Active (replay w₀.store.db pre) m.conversationId u then 1 else 0 := by
  obtain ⟨p, m₀, pre, _, ht, hl, hr, -, -⟩ := lists_sent hi hm
  exact ⟨p, m₀, pre, ht, hl, hr⟩

/-- Each message stands with its event, and with a receipt for each of the others who had a seat
when its transaction read them. -/
theorem outbox_complete (h : machine.Reachable (From w₀) P) :
    (P.shared.store.db .messages).Nodup ∧ (P.shared.store.db .outbox).Nodup ∧
    (∃ f : {m // m ∈ P.shared.store.db .messages} ≃
        {e // e ∈ P.shared.store.db .outbox ∧ (e : OutboxEvent).eventType = .messageCreated},
      ∀ m, Matches m.1 (f m).1) ∧
    (∀ m ∈ P.shared.store.db .messages, ∃ p m₀ pre, Turn w₀.store.db P p m₀ pre ∧
      MessageLater m₀ m ∧ ∀ u, (receiptsOf (m : Message).id u P.shared.store.db).length =
        if u ≠ (m : Message).senderId ∧
          Active (replay w₀.store.db pre) (m : Message).conversationId u then 1 else 0) ∧
    ∀ r ∈ P.shared.store.db .receipts, ∃ m ∈ P.shared.store.db .messages,
      (m : Message).id = (r : MessageReceipt).messageId := by
  have hi := reached h
  refine ⟨Schema.nodup_of_keys (hi.ok.unique _), Schema.nodup_of_keys (hi.ok.unique _), ?_,
    fun m hm => receipts_sent hi hm, fun r hr => ?_⟩
  · choose event hevent using fun m : {m // m ∈ P.shared.store.db .messages} =>
      exists_event hi m.2
    let f (m : {m // m ∈ P.shared.store.db .messages}) :
        {e // e ∈ P.shared.store.db .outbox ∧ (e : OutboxEvent).eventType = .messageCreated} :=
      ⟨event m, (hevent m).1, (hevent m).2.1⟩
    have injective : Function.Injective f := by
      intro m m' hf
      have same : event m = event m' := congrArg (fun e => e.1) hf
      exact Subtype.ext (same_message hi m.2 m'.2
        ((hevent m).2.2.messageId (same ▸ (hevent m').2.2)))
    have surjective : Function.Surjective f := by
      rintro ⟨e, he, hc⟩
      obtain ⟨m, hm, hmatch⟩ := exists_message hi he hc
      exact ⟨⟨m, hm⟩, Subtype.ext (event_unique hi (hevent ⟨m, hm⟩).1 he (hevent ⟨m, hm⟩).2.1 hc
        (hevent ⟨m, hm⟩).2.2 hmatch)⟩
    exact ⟨.ofBijective f ⟨injective, surjective⟩, fun m => (hevent m).2.2⟩
  · obtain ⟨p, m₀, _, _, _, _, hm₀, -, hid, -⟩ := receipt_sent hi hr
    obtain ⟨m, hm, hl⟩ := hi.db.stored p .messages (by decide) m₀ hm₀
    have hl : MessageLater m₀ m := hl
    exact ⟨m, hm, hl.id.trans hid.symm⟩

/-- The event of a message is for the users who have a receipt of it. -/
def ListsAgree (db : Db) (m : Message) (pl : MessageCreated) : Prop :=
  ∀ u, u ∈ pl.recipients ↔ ∃ r ∈ db .receipts, (r : MessageReceipt).messageId = m.id ∧
    (r : MessageReceipt).userId = u

/-- The other participants of the conversation all have a seat. -/
def NobodyLeft (db : Db) (m : Message) : Prop :=
  ∀ r ∈ db .participants, (r : ConversationParticipant).conversationId = m.conversationId →
    (r : ConversationParticipant).userId ≠ m.senderId →
      Active db m.conversationId (r : ConversationParticipant).userId

/-- The two lists of a message agree exactly when none of the other participants had left, at
the time its transaction read them. -/
theorem recipients_agree_iff (h : machine.Reachable (From w₀) P) :
    ∀ m ∈ P.shared.store.db .messages, ∃ p m₀ pre, Turn w₀.store.db P p m₀ pre ∧
      MessageLater m₀ m ∧
      ∀ e ∈ P.shared.store.db .outbox, (e : OutboxEvent).eventType = .messageCreated →
        Matches m e → ∀ pl, (e : OutboxEvent).payload = .created pl →
          (ListsAgree P.shared.store.db m pl ↔ NobodyLeft (replay w₀.store.db pre) m) := by
  intro m hm
  have hi := reached h
  obtain ⟨p, m₀, pre, e₀, ht, hl, hr, he₀, pl₀, hp₀, hto⟩ := lists_sent hi hm
  refine ⟨p, m₀, pre, ht, hl, fun e he hc hme pl hpl => ?_⟩
  have sent : e.payload = e₀.payload := by
    rcases hi.db.origin .outbox e he with ⟨e₁, he₁, -⟩ | ⟨q, e₁, he₁, -, hty, hpe⟩
    · rw [hi.db.unannounced] at he₁
      cases he₁
    · obtain ⟨m₁, hm₁, hme₁⟩ := announced hi he₁ (hty.symm.trans hc)
      have ids : m₀.id = m₁.id :=
        hl.id.symm.trans (hme.messageId (hme₁.later (.refl m₁) hpe))
      obtain ⟨rfl, rfl⟩ := same_insert hi ht.sent hm₁ ids
      rw [hpe, one_event hi hm₁ he₁ he₀]
  obtain rfl : pl = pl₀ := Payload.created.inj (hpl.symm.trans (sent.trans hp₀))
  have receipt : ∀ u, (∃ r ∈ P.shared.store.db .receipts,
      (r : MessageReceipt).messageId = m.id ∧ (r : MessageReceipt).userId = u) ↔
        u ≠ m.senderId ∧ Active (replay w₀.store.db pre) m.conversationId u := by
    intro u
    have hu := hr u
    constructor
    · rintro ⟨r, hr, hid, huser⟩
      have pos := List.length_pos_of_mem (mem_receiptsOf.2 ⟨hr, hid, huser⟩)
      by_contra hn
      rw [hu, if_neg hn] at pos
      exact Nat.lt_irrefl 0 pos
    · intro hin
      rw [if_pos hin] at hu
      obtain ⟨r, hr⟩ := List.exists_mem_of_length_pos (hu ▸ Nat.one_pos)
      exact ⟨r, mem_receiptsOf.1 hr⟩
  constructor
  · intro same r hr hcid hne
    exact ((receipt _).1 ((same _).1 ((hto _).2 ⟨hne, r, hr, hcid, rfl⟩))).2
  · intro all u
    rw [hto, receipt]
    refine and_congr_right fun hne => ⟨?_, fun ⟨r, hr, hcid, huser, _⟩ => ⟨r, hr, hcid, huser⟩⟩
    rintro ⟨r, hr, hcid, rfl⟩
    exact all r hr hcid hne

end Delivery

section Example

theorem outbox_complete_example :
    ∃ P, runFrom exampleWorld (serve 0 exampleSend 15 ++ serve 1 exampleSend 15) = some P ∧
      sequences P.shared.store.db 10 = [1, 2] ∧
      ∃ f : {m // m ∈ P.shared.store.db .messages} ≃
          {e // e ∈ P.shared.store.db .outbox ∧ (e : OutboxEvent).eventType = .messageCreated},
        ∀ m, Matches m.1 (f m).1 := by
  obtain ⟨P, hP, hs⟩ := sendTwice
  have all := @outbox_complete exampleCipher exampleHash _ _ (reachable_runFrom initial_example hP)
  exact ⟨P, hP, hs, all.2.2.1⟩

/-- What is in the outbox and among the receipts. -/
def lists (P : Run) : List (List Nat) × List Nat :=
  ((P.shared.store.db .outbox).filterMap fun (e : OutboxEvent) =>
    match e.eventType, e.payload with
    | .messageCreated, .created pl => some pl.recipients
    | _, _ => none,
  (P.shared.store.db .receipts).map fun (r : MessageReceipt) => r.userId)

def sendOnce : Ran (runFrom exampleWorld (serve 0 exampleSend 15)) lists ([[3]], [3]) :=
  .of (by decide +kernel)

theorem recipients_agree_example :
    ∃ P, runFrom exampleWorld (serve 0 exampleSend 15) = some P ∧ lists P = ([[3]], [3]) ∧
      ∀ m ∈ P.shared.store.db .messages, ∃ p m₀ pre, Turn exampleDb P p m₀ pre ∧
        MessageLater m₀ m ∧
        ∀ e ∈ P.shared.store.db .outbox, (e : OutboxEvent).eventType = .messageCreated →
          Matches m e → ∀ pl, (e : OutboxEvent).payload = .created pl →
            (ListsAgree P.shared.store.db m pl ↔ NobodyLeft (replay exampleDb pre) m) := by
  obtain ⟨P, hP, hs⟩ := sendOnce
  exact ⟨P, hP, hs, @recipients_agree_iff exampleCipher exampleHash _ _
    (reachable_runFrom initial_example hP)⟩

/-- The conversation of `exampleDb` with a customer who left. -/
def leftDb : Db
  | .users => exampleDb .users ++ [exampleUser 4 .customer]
  | .participants => exampleDb .participants ++ [⟨10, 4, .customer, 0, some 0, 0⟩]
  | t => exampleDb t

theorem initial_leftDb : Initial (worldOf leftDb exampleSettings) := by
  refine initial_worldOf (fun t => by cases t <;> decide +kernel) (fun t h => ?_)
    (by decide +kernel) fun r hr => ⟨exampleConversation, List.mem_singleton_self _, ?_⟩
  · cases t
    case messages | outbox | receipts | refreshTokens | attachments | groups | mlsMessages => rfl
    all_goals cases h
  · revert r
    decide +kernel

def sendPastLeft : Ran (runFrom (worldOf leftDb exampleSettings) (serve 0 exampleSend 15)) lists
    ([[3, 4]], [3]) :=
  .of (by decide +kernel)

/-- A user who left gets no receipt, and the event is for him all the same. -/
theorem event_for_a_user_who_left : ∃ w₀ P m e pl, Initial w₀ ∧
    exampleMachine.Reachable (From w₀) P ∧ m ∈ P.shared.store.db .messages ∧
      e ∈ P.shared.store.db .outbox ∧ (e : OutboxEvent).payload = .created pl ∧
        Matches m e ∧ ¬ListsAgree P.shared.store.db m pl := by
  obtain ⟨P, hP, hs⟩ := sendPastLeft
  have hr := reachable_runFrom initial_leftDb hP
  obtain ⟨houtbox, hreceipts⟩ := Prod.mk.inj hs
  have mem : [3, 4] ∈ (lists P).1 := by simp [houtbox, lists]
  obtain ⟨e, he, hm⟩ := List.mem_filterMap.1 mem
  split at hm
  · rename_i pl hc hp
    have hto : pl.recipients = [3, 4] := Option.some.inj hm
    obtain ⟨m, hm, hme⟩ := @exists_message exampleCipher exampleHash _ _
      (@reached exampleCipher exampleHash _ _ _ hr) e he hc
    refine ⟨_, P, m, e, pl, initial_leftDb, hr, hm, he, hp, hme, fun same => ?_⟩
    obtain ⟨r, hr, -, hu⟩ := (same 4).1 (by simp [hto])
    have user : (r : MessageReceipt).userId ∈ [3] := hreceipts ▸ List.mem_map_of_mem hr
    rw [hu] at user
    simp at user
  · cases hm

end Example

end Messageries.Guarantees
