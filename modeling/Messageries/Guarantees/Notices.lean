import Messageries.Guarantees.Publication
import Messageries.Proofs.Indexing
import Messageries.Proofs.Mails

set_option linter.unusedSectionVars false

namespace Messageries.Guarantees

open Text Relational Database Crypto Concurrency Backend Moderation Proofs

section Announcement

variable [AesGcm] [TokenHash] {db₀ : Db} {w : World}

/-- What an event says of its message is so. -/
structure Credible (m : MessageCreated) (w : World) : Prop where
  message : ∃ r ∈ w.store.db .messages, (r : Message).id = m.messageId ∧
    (r : Message).conversationId = m.conversationId ∧ (r : Message).sequence = m.sequence ∧
      (r : Message).senderId = m.senderId
  body : Says m.messageId m.body w
  sender : Seated w.store.db m.conversationId m.senderId
  recipients : ∀ u ∈ m.recipients, u ≠ m.senderId ∧ Seated w.store.db m.conversationId u

/-- Who had a seat when a part of the log was written, has it. -/
theorem seated_of_prefix (hi : Inv db₀ w) {pre : Wal} (hp : pre <+: w.store.wal) {c u : Nat}
    (h : Seated (replay db₀ pre) c u) : Seated w.store.db c u := by
  obtain ⟨rest, hw⟩ := hp
  rw [hi.db.replay, ← hw, replay, List.map_append, Schema.Write.applyAll_append]
  refine h.replay fun y hy => ?_
  obtain ⟨k, -, hk⟩ := hi.db.known y.1 y.2 (hw ▸ List.mem_append_right _ hy)
  exact ⟨k, hk⟩

theorem credible_of_event (hi : Inv db₀ w) {e : OutboxEvent} (he : e ∈ w.store.db .outbox)
    {m : MessageCreated} (hp : e.payload = .created m) : Credible m w := by
  rcases hi.db.origin .outbox e he with ⟨e₀, he₀, -⟩ | ⟨p, e₀, he₀, -, -, hpl⟩
  · rw [hi.db.unannounced] at he₀
    cases he₀
  have created : e₀.payload = .created m := hpl.symm.trans hp
  rcases hi.db.events p e₀ he₀ with ⟨-, c, u, n, hr⟩ | ⟨k, hk, hs⟩
  · cases hr.symm.trans created
  obtain ⟨m₀, hm₀⟩ := hi.db.attributed p k hk hs ⟨_, he₀, rfl⟩
  have sent := hi.db.sends p m₀ hm₀
  obtain ⟨user, body, key, hc, -, -, -, e₁, he₁, -, pl, hpl₁, hid, hcid, hsender, hseq, hbody⟩ :=
    sent.call
  obtain rfl := one_event hi hm₀ he₀ he₁
  obtain rfl : pl = m := Payload.created.inj (hpl₁.symm.trans created)
  obtain ⟨r, hr, hl⟩ := hi.db.stored p .messages (by decide) m₀ hm₀
  have hl : MessageLater m₀ r := hl
  obtain ⟨r', hr', hc', hu', -⟩ := sent.sender
  refine ⟨⟨r, hr, hl.id.trans hid.symm, hl.conversationId.trans hcid.symm,
    hl.sequence.trans hseq.symm, hl.senderId.trans hsender.symm⟩,
    ⟨p, m₀, user, body, key, hm₀, hid.symm, hc, hbody⟩,
    ⟨r', hr', hc'.trans hcid.symm, hu'.trans hsender.symm⟩, fun u hu => ?_⟩
  -- the transaction of the send had read who has a seat
  obtain ⟨users, e₂, ks, f, before, after, hw, -, -, -, -, pre, hpre, -, -, -, pl', hpl', hto⟩ :=
    hi.db.delivered p m₀ hm₀
  have logged : (p, Schema.Write.insert .outbox e₂) ∈ w.store.wal := by
    rw [hw]
    simp [delivery]
  obtain rfl := one_event hi hm₀ he₀ logged
  obtain rfl : pl = pl' := Payload.created.inj (created.symm.trans hpl')
  obtain ⟨hne, seat⟩ := (hto u).1 hu
  have log : pre <+: w.store.wal := by
    rw [hw, List.append_assoc]
    exact hpre.trans (List.prefix_append ..)
  rw [hsender, hcid]
  exact ⟨hne, seated_of_prefix hi log seat⟩

end Announcement

section Mails

variable [AesGcm] [TokenHash] {w₀ : World} {P : Run}

/-- The mail is about a message of another user, and for somebody who has a seat. -/
def Addressed (x : Mail) (w : World) : Prop :=
  ∃ m ∈ w.store.db .messages, (m : Message).id = x.messageId ∧
    (m : Message).conversationId = x.conversationId ∧ x.userId ≠ (m : Message).senderId ∧
      Seated w.store.db x.conversationId x.userId

theorem Persists.addressed {db₀ : Db} (x : Mail) : Persists db₀ (Addressed x) := by
  rintro a w w' - - hg ⟨m, hm, hid, hc, hne, hs⟩
  obtain ⟨m', hm', hl⟩ := hg.kept .messages nofun m hm
  have hl : MessageLater m m' := hl
  exact ⟨m', hm', hl.id.trans hid, hl.conversationId.trans hc, hl.senderId ▸ hne,
    hg.kept.seated hs⟩

theorem Concerns.addressed {w : World} {m : MessageCreated} (h : Credible m w) {x : Mail}
    (hx : Concerns m x) : Addressed x w := by
  obtain ⟨hid, hc, hu⟩ := hx
  obtain ⟨r, hr, hrid, hrc, -, hrs⟩ := h.message
  obtain ⟨hne, hs⟩ := h.recipients _ hu
  exact ⟨r, hr, hrid.trans hid.symm, hrc.trans hc.symm, hrs ▸ hne, hc ▸ hs⟩

/-- The only mail a step hands over is the one its operation is for. -/
theorem exec_mailed {p : Nat} {w w' : World} {i : Input} {o : Op} {r : Except Err o.Res}
    (h : World.exec p i o w = some (r, w')) : ∀ s ∈ w'.mails, s ∈ w.mails ∨ o = .mail s.mail := by
  intro s hs
  by_cases ho : ∀ m, o ≠ .mail m
  · exact .inl (exec_mails h ho ▸ hs)
  obtain ⟨m, rfl⟩ := Classical.not_forall_not.1 ho
  refine of_remote (S := fun w w' => ∀ s ∈ w'.mails, s ∈ w.mails ∨ Op.mail m = .mail s.mail)
    (fun _ hs => .inl hs) (fun s hs => ?_) h s hs
  rcases List.mem_append.1 hs with hs | hs
  · exact .inl hs
  · exact .inr (by rw [List.mem_singleton.1 hs])

/-- The workers mail nobody but the other participants of the conversation of a message. -/
theorem mails_addressed (h : machine.Reachable (From w₀) P) :
    ∀ s ∈ P.shared.mails, Addressed s.mail P.shared := by
  induction h with
  | init hw =>
    obtain ⟨hw, rfl⟩ := hw
    rw [hw.mails]
    exact fun _ hs => nomatch hs
  | @step P P' l hP hl hst ih =>
    have hi := reached hP
    have hi' := reached (.step l hP hl hst)
    have later : ∀ {x : Mail} {a}, Guar a P.shared P'.shared → Addressed x P.shared →
        Addressed x P'.shared := fun guar => Persists.addressed _ _ _ _ hi hi' guar
    obtain ⟨a, guar⟩ := ((sound _ w₀).step ((sound _ w₀).holds hP) hl hst).2
    rcases step_feeds hst with same | ⟨p, i, k, o, next, r, ht, hx⟩
    · rw [same.mails]
      exact fun s hs => later guar (ih s hs)
    have guar := Protocol.Sound.exec ((sound _ w₀).holds hP) ht trivial hx
    rcases guar.worker with ⟨-, -, same⟩ | ⟨q, k', hq, hk, hb⟩
    · rw [same]
      exact fun s hs => later guar (ih s hs)
    cases hq
    cases (call_of_thread hP ht).symm.trans hk
    intro s hs
    rcases exec_mailed hx s hs with hs | rfl
    · exact later guar (ih s hs)
    · obtain ⟨e, he, m, hm, hc⟩ := (busy_reach hP .lax ht hb).2
      exact later guar (Concerns.addressed (credible_of_event hi he hm) hc)

end Mails

section Example

def mailedOne : Ran (runFrom exampleWorld (serve 0 exampleSend 15 ++ serve 1 (.processBatch 0 20) 16))
    (fun P => P.shared.mails.map fun s => (s.mail.messageId, s.mail.userId)) [(100, 3)] :=
  .of (by decide +kernel)

theorem mails_addressed_example :
    ∃ P, runFrom exampleWorld (serve 0 exampleSend 15 ++ serve 1 (.processBatch 0 20) 16) = some P ∧
      (P.shared.mails.map fun s => (s.mail.messageId, s.mail.userId)) = [(100, 3)] ∧
      ∀ s ∈ P.shared.mails, Addressed s.mail P.shared := by
  obtain ⟨P, hP, hs⟩ := mailedOne
  exact ⟨P, hP, hs, @mails_addressed exampleCipher exampleHash _ _
    (reachable_runFrom initial_example hP)⟩

end Example

end Messageries.Guarantees
