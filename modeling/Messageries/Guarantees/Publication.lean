import Messageries.Concurrency.Gapless
import Messageries.Guarantees.Delivery
import Messageries.Guarantees.NoLoss
import Messageries.Proofs.Cursors
import Messageries.Proofs.Publishing
import Messageries.Proofs.Times

set_option linter.unusedSectionVars false

namespace Messageries.Guarantees

open Text Relational Database Crypto Concurrency Backend Moderation Proofs

section Truth

variable [AesGcm] [TokenHash] {db₀ : Db} {w w₀ : World} {P : Run}

/-- An event is a `message.created` with a message, or a `message.read`. -/
theorem event_cases (hi : Inv db₀ w) {e : OutboxEvent} (he : e ∈ w.store.db .outbox) :
    (e.eventType = .messageCreated ∧ ∃ m, e.payload = .created m) ∨ ReadEvent e := by
  rcases hi.db.origin .outbox e he with ⟨e₀, he₀, -⟩ | ⟨p, e₀, he₀, -, ht, hp⟩
  · rw [hi.db.unannounced] at he₀
    cases he₀
  rcases hi.db.events p e₀ he₀ with ⟨hr, c, u, n, hpl⟩ | ⟨k, hk, hs⟩
  · exact .inr ⟨ht.trans hr, c, u, n, hp.trans hpl⟩
  · obtain ⟨m₀, hm₀⟩ := hi.db.attributed p k hk hs ⟨_, he₀, rfl⟩
    obtain ⟨_, _, _, -, -, -, -, e₁, he₁, hc, m, hm, -⟩ := (hi.db.sends p m₀ hm₀).call
    obtain rfl := one_event hi hm₀ he₀ he₁
    exact .inl ⟨ht.trans hc, m, hp.trans hm⟩

theorem type_of_created (hi : Inv db₀ w) {e : OutboxEvent} (he : e ∈ w.store.db .outbox)
    {m : MessageCreated} (hp : e.payload = .created m) : e.eventType = .messageCreated := by
  rcases event_cases hi he with ⟨ht, -⟩ | ⟨-, c, u, n, hr⟩
  · exact ht
  · cases hp.symm.trans hr

/-- What the stream says is so: each of its messages is the event of the outbox with its
identifier, and a `message.created` announces a stored message. -/
theorem stream_truthful (h : machine.Reachable (From w₀) P) :
    ∀ x ∈ P.shared.stream, ∃ e ∈ P.shared.store.db .outbox, Carries e x ∧
      (∀ m, x.payload = .created m → x.type = .messageCreated ∧
        ∃ r ∈ P.shared.store.db .messages, Matches r e) ∧
      ∀ y ∈ P.shared.stream, y.msgId = x.msgId → y.type = x.type ∧ y.payload = x.payload := by
  intro x hx
  have hi := reached h
  obtain ⟨e, he, hc⟩ := carried_reach h x hx
  refine ⟨e, he, hc, fun m hm => ?_, fun y hy hid => ?_⟩
  · have type := type_of_created hi he (hc.payload.trans hm)
    exact ⟨hc.type.symm.trans type, exists_message hi he type⟩
  · obtain ⟨e', he', hc'⟩ := carried_reach h y hy
    obtain rfl := same_event hi he he' (hc.id.trans (hid.symm.trans hc'.id.symm))
    exact ⟨hc'.type.symm.trans hc.type, hc'.payload.symm.trans hc.payload⟩

end Truth

section Order

/-- The number of the message of conversation `c` that is announced. -/
def numberIn (c : Nat) (x : Published) : Option Nat :=
  match x.payload with
  | .created m => if m.conversationId = c then some m.sequence else none
  | .read _ _ _ => none

def publishedNumbers (c : Nat) (stream : List Published) : List Nat := stream.filterMap (numberIn c)

theorem numberIn_eq_some {c n : Nat} {x : Published} : numberIn c x = some n ↔
    ∃ m, x.payload = .created m ∧ m.conversationId = c ∧ m.sequence = n := by
  unfold numberIn
  split
  · rename_i m hm
    simp [hm]
  · rename_i hm
    simp [hm]

/-- The event announces an earlier message of the conversation. -/
def earlier (m : MessageCreated) (e : OutboxEvent) : Bool :=
  match e.payload with
  | .created m' => m'.conversationId == m.conversationId && decide (m'.sequence < m.sequence)
  | .read _ _ _ => false

/-- A worker is connected, and publishes a message only when its transaction sees that the earlier
ones of the conversation are processed. -/
def InTurn (p : Nat) (o : Op) (w : World) : Prop :=
  match o with
  | .natsEnabled worker => w.settings.natsEnabled = true ∧ (w.nats worker).js = true
  | .publish _ (.created m) _ => ∀ e ∈ w.store.view p .outbox, earlier m e = true →
    (e : OutboxEvent).processedAt ≠ none
  | _ => True

variable [AesGcm] [TokenHash] {db₀ : Db} {w w₀ : World} {P : Run}

/-- Each number below that of an announced message is that of another announced one. -/
theorem earlier_event (hi : Inv db₀ w) {e : OutboxEvent} (he : e ∈ w.store.db .outbox)
    {m : MessageCreated} (hp : e.payload = .created m) {j : Nat} (h0 : 0 < j)
    (hj : j < m.sequence) : ∃ e' ∈ w.store.db .outbox, ∃ m',
      (e' : OutboxEvent).payload = .created m' ∧ m'.conversationId = m.conversationId ∧
        m'.sequence = j := by
  obtain ⟨r, hr, pl, hpl, -, hc, -, hn⟩ := exists_message hi he (type_of_created hi he hp)
  obtain rfl : m = pl := Payload.created.inj (hp.symm.trans hpl)
  obtain ⟨c, hcm, hid⟩ := conversation_of_message hi hr
  have le := sequence_le hi.db.numbered hcm hr hid.symm
  have listed : j ∈ sequences w.store.db (c : Conversation).id :=
    (hi.db.numbered c hcm).mem_iff.2 (List.mem_range'_1.2 (by omega))
  obtain ⟨r', hr', hj'⟩ := List.mem_map.1 listed
  obtain ⟨hr', hc'⟩ := List.mem_filter.1 hr'
  obtain ⟨e', he', -, pl', hpl', -, hcid', -, hn'⟩ := exists_event hi hr'
  exact ⟨e', he', pl', hpl', hcid'.trans ((beq_iff_eq.1 hc').trans (hid.trans hc.symm)),
    hn'.trans hj'⟩

theorem published_gapless (h : machine.Reach (From w₀) InTurn P) (c : Nat) :
    Gapless 1 (publishedNumbers c P.shared.stream) := by
  have strict : Enabled True InTurn := fun _ _ _ _ hc => Bool.and_eq_true_iff.2 hc
  induction h with
  | init hw =>
    obtain ⟨hw, rfl⟩ := hw
    rw [hw.stream]
    exact .nil
  | @step P P' l hP hl hst ih =>
    rcases step_published hP strict hl hst with same |
      ⟨p, t, pl, e, turn, ⟨⟨row, hrow, -, -, rfl⟩, sees⟩, put⟩
    · rw [same]
      exact ih
    have hi := reached hP
    have numbers : publishedNumbers c P'.shared.stream = publishedNumbers c P.shared.stream ++
        (numberIn c ⟨t, row.payload, e, P.shared.clock⟩).toList := by
      rw [put, publishedNumbers, List.filterMap_append]
      cases hn : numberIn c ⟨t, row.payload, e, P.shared.clock⟩ <;>
        simp [publishedNumbers, hn]
    rw [numbers]
    cases hn : numberIn c ⟨t, row.payload, e, P.shared.clock⟩ with
    | none => simpa using ih
    | some n =>
      obtain ⟨m, hm, rfl, rfl⟩ := numberIn_eq_some.1 hn
      have hm : row.payload = .created m := hm
      obtain ⟨r, hr, pl, hpl, -, -, -, hseq⟩ :=
        exists_message hi hrow (type_of_created hi hrow hm)
      obtain rfl : m = pl := Payload.created.inj (hm.symm.trans hpl)
      refine .snoc ih (hseq ▸ sequence_pos hi hr) fun j h0 hj => ?_
      obtain ⟨e', he', m', hm', hc', rfl⟩ := earlier_event hi hrow hm h0 hj
      -- the worker saw this event as processed, so JetStream has it
      obtain ⟨seen, hseen, -, hpl', done⟩ := sees e' he'
      rw [hm] at turn
      have early : earlier m seen = true := by
        simp [earlier, hpl'.trans hm', hc', hj]
      obtain ⟨x, hx, hid⟩ := done (turn seen hseen early) trivial
      obtain ⟨e'', he'', carries⟩ := carried_reach hP x hx
      obtain rfl := same_event hi he'' he' (carries.id.trans hid)
      exact List.mem_filterMap.2 ⟨x, hx, numberIn_eq_some.2
        ⟨m', carries.payload.symm.trans hm', hc', rfl⟩⟩

/-- The messages of a conversation come into the stream in order: those that come for the first
time are numbered 1, 2, 3 and so on. -/
theorem published_in_order (h : machine.Reach (From w₀) InTurn P) :
    ∀ c, ∃ n, (publishedNumbers c P.shared.stream).eraseDups = List.range' 1 n :=
  fun c => (published_gapless h c).eraseDups

end Order

section Example

/-- A test that workers pass which publish in turn. -/
def inTurn (p : Nat) (o : Op) (w : World) : Bool :=
  match o with
  | .natsEnabled worker => w.settings.natsEnabled && (w.nats worker).js
  | .publish _ (.created m) _ => (w.store.view p .outbox).all fun (e : OutboxEvent) =>
      !earlier m e || e.processedAt.isSome
  | _ => true

theorem inTurn_sound (p : Nat) (o : Op) (w : World) (h : inTurn p o w = true) : InTurn p o w := by
  unfold InTurn
  split
  · simpa [inTurn] using h
  · rename_i m id
    intro e he hm
    simp only [inTurn, List.all_eq_true] at h
    have passed := h e he
    simpa [hm, Option.isSome_iff_ne_none] using passed
  · trivial

/-- A worker publishes the first of two messages and is lost. After the window for duplicates
another one publishes both. -/
def publishAnew : List (Label Input Event Call) :=
  serve 0 (.natsInit 0) 6 ++ serve 1 exampleSend 15 ++ serve 2 exampleSend 15 ++
    .enter 3 (.processBatch 0 20) :: List.replicate 5 (.exec 3 calm) ++
      .lose 3 :: .event (.tick 200000) :: serve 4 (.processBatch 0 20) 29

def publishedAnew : Ran (passFrom inTurn natsWorld publishAnew)
    (fun P => (P.shared.stream.map Published.msgId, publishedNumbers 10 P.shared.stream))
    ([102, 102, 105], [1, 1, 2]) :=
  .of (by decide +kernel)

theorem published_in_order_example :
    ∃ P, passFrom inTurn natsWorld publishAnew = some P ∧
      publishedNumbers 10 P.shared.stream = [1, 1, 2] ∧
      ∀ c, ∃ n, (publishedNumbers c P.shared.stream).eraseDups = List.range' 1 n := by
  obtain ⟨P, hP, hs⟩ := publishedAnew
  exact ⟨P, hP, congrArg Prod.snd hs, @published_in_order exampleCipher exampleHash _ _
    (reach_passFrom initial_example inTurn_sound hP)⟩

theorem stream_truthful_example :
    ∃ P, passFrom inTurn natsWorld publishAnew = some P ∧
      P.shared.stream.map Published.msgId = [102, 102, 105] ∧
      ∀ x ∈ P.shared.stream, ∃ e ∈ P.shared.store.db .outbox, Carries e x ∧
        (∀ m, x.payload = .created m → x.type = .messageCreated ∧
          ∃ r ∈ P.shared.store.db .messages, Matches r e) ∧
        ∀ y ∈ P.shared.stream, y.msgId = x.msgId → y.type = x.type ∧ y.payload = x.payload := by
  obtain ⟨P, hP, hs⟩ := publishedAnew
  exact ⟨P, hP, congrArg Prod.fst hs, @stream_truthful exampleCipher exampleHash _ _
    ((reach_passFrom initial_example inTurn_sound hP).mono fun _ _ _ _ => trivial)⟩

end Example

end Messageries.Guarantees
