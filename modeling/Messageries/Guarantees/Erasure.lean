import Messageries.Guarantees.Numbering

set_option linter.unusedSectionVars false

namespace Messageries.Guarantees

open Text Relational Database Crypto Concurrency Backend Moderation Proofs

section Erasure

variable [AesGcm] [TokenHash] {w₀ : World} {P : Run} {p : Nat}

/-- No store holds the text of the message, nor the key it was sealed with. -/
structure Erased (messageId : Nat) (w : World) : Prop where
  messages : ∀ t, Says messageId t w → ∀ m ∈ w.store.db .messages, (m : Message).id = messageId →
    (m : Message).body ≠ some t ∧ (m : Message).bodyDekId = none
  outbox : ∀ t, Says messageId t w → ∀ e ∈ w.store.db .outbox, ∀ pl,
    (e : OutboxEvent).payload = .created pl → pl.messageId = messageId → pl.body ≠ t
  documents : ∀ t, Says messageId t w → ∀ d ∈ w.documents, d.messageId = messageId → d.content ≠ t

/-- The call erased the message and has returned. -/
def Erases (P : Run) (p messageId : Nat) : Prop :=
  (∃ user c r, P.threads p = some ⟨.softDelete user c messageId, some (.pure r)⟩) ∨
    ∃ user u r, P.threads p = some ⟨.anonymize user u, some (.pure r)⟩ ∧
      ∃ m ∈ P.shared.store.db .messages, (m : Message).id = messageId ∧ (m : Message).senderId = u

/-- The event of a message that was sent stays, with its text. -/
theorem text_kept {db₀ : Db} {w : World} (hi : Inv db₀ w) {q : Nat} {m : Message}
    (hm : (q, Schema.Write.insert .messages m) ∈ w.store.wal) : ¬Erased m.id w := by
  intro he
  obtain ⟨user, body, key, hc, -, -, -, e, hev, -, pl, hpl, hid, -, -, -, hb⟩ :=
    (hi.db.sends q m hm).call
  obtain ⟨e', he', hl⟩ := hi.db.stored q .outbox nofun e hev
  exact he.outbox (cleaned body) ⟨q, m, user, body, key, hm, rfl, hc, rfl⟩ e' he' pl
    (hl.2.2.trans hpl) hid hb

/-- No message is erased by a call that erases it: its event keeps the text for ever. -/
theorem erasure_incomplete (h : machine.Reachable (From w₀) P) {messageId : Nat}
    (he : Erases P p messageId) : ¬Erased messageId P.shared := by
  have hi := reached h
  rcases he with ⟨user, c, r, ht⟩ | ⟨user, u, r, ht, m, hm, rfl, -⟩
  · obtain ⟨m, rfl, -, hs⟩ := (sound _ w₀).returned h ht
    obtain ⟨q, m₀, hm₀, hl, -⟩ := hs.sent
    exact hl.id ▸ text_kept hi hm₀
  · obtain ⟨q, m₀, hm₀, hl, -⟩ := (Stored.of_read hi (.of_mem hi hm)).sent
    exact hl.id ▸ text_kept hi hm₀

end Erasure

section Example

def exampleDelete : Call := .softDelete ⟨2, .customer⟩ 10 100

def eventBody (e : OutboxEvent) : Option (Nat × Utf16) :=
  match e.payload with
  | .created pl => some (pl.messageId, pl.body)
  | .read _ _ _ => none

def sendThenDelete : Ran (runFrom exampleWorld (serve 0 exampleSend 15 ++ serve 1 exampleDelete 9))
    (fun P => callOf P 1 == some exampleDelete && (answer P 1).isSome &&
      (P.shared.store.db .outbox).map eventBody == [some (100, text "a")] &&
      (sentBy 0 P.shared.store.wal).map (fun m => m.id) == [100]) true :=
  .of (by decide +kernel)

theorem deleted_text_kept :
    ∃ P r, runFrom exampleWorld (serve 0 exampleSend 15 ++ serve 1 exampleDelete 9) = some P ∧
      P.threads 1 = some ⟨exampleDelete, some (.pure r)⟩ ∧ ¬Erased 100 P.shared ∧
      (P.shared.store.db .outbox).map eventBody = [some (100, text "a")] := by
  obtain ⟨P, hP, hv⟩ := sendThenDelete
  simp only [Bool.and_eq_true, beq_iff_eq] at hv
  obtain ⟨⟨⟨hk, ha⟩, ho⟩, hs⟩ := hv
  obtain ⟨r, hr⟩ := Option.isSome_iff_exists.1 ha
  obtain ⟨m, hm, hid⟩ := List.map_eq_singleton_iff.1 hs
  have h := reachable_runFrom initial_example hP
  have kept := @text_kept exampleCipher exampleHash _ _ (@reached exampleCipher exampleHash _ _ _ h) 0 m
    (mem_sentBy (hm ▸ List.mem_singleton_self m))
  exact ⟨P, r, hP, thread_of_answer hk hr, hid ▸ kept, ho⟩

theorem erasure_incomplete_example :
    ∃ P r, runFrom exampleWorld (serve 0 exampleSend 15 ++ serve 1 exampleDelete 9) = some P ∧
      P.threads 1 = some ⟨exampleDelete, some (.pure r)⟩ ∧ ¬Erased 100 P.shared := by
  obtain ⟨P, hP, hv⟩ := sendThenDelete
  simp only [Bool.and_eq_true, beq_iff_eq] at hv
  obtain ⟨⟨⟨hk, ha⟩, -⟩, -⟩ := hv
  obtain ⟨r, hr⟩ := Option.isSome_iff_exists.1 ha
  have ht := thread_of_answer hk hr
  exact ⟨P, r, hP, ht, @erasure_incomplete exampleCipher exampleHash _ _ 1
    (reachable_runFrom initial_example hP) 100 (.inl ⟨_, _, r, ht⟩)⟩

end Example

end Messageries.Guarantees
