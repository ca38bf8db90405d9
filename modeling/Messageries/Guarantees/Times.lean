import Messageries.Guarantees.Numbering
import Messageries.Proofs.Times

set_option linter.unusedSectionVars false

namespace Messageries.Guarantees

open Text Relational Database Crypto Concurrency Backend Moderation Proofs

section Times

variable [AesGcm] [TokenHash] {w₀ : World} {P P' : Run}

/-- A send commits after those whose transactions started earlier: no message of the
conversation is of a later time than its own transaction. -/
def Orderly (p : Nat) (o : Op) (w : World) : Prop :=
  o = .commit → ∀ tx, w.store.tx p = some tx → ∀ m, Schema.Write.insert .messages m ∈ tx.writes →
    ∀ m' ∈ w.store.db .messages,
      (m' : Message).conversationId = (m : Message).conversationId →
        (m' : Message).createdAt ≤ tx.now

/-- A statement on a connection of the pool stores no block. -/
theorem delivery_pooled {s : Stmt} {w : World} {m : Message} {users : List Nat} {e : OutboxEvent}
    {ks : List Key} {f : schema.Assign .conversations} :
    (pooled s w).filter (fun x => ofSend (writesTo x)) ≠ delivery m users e ks f := by
  intro h
  have mem : ∀ x ∈ delivery m users e ks f, x ∈ pooled s w := fun x hx =>
    List.mem_of_mem_filter (h ▸ hx)
  have insert := mem _ (mem_delivery.2 (.inl rfl))
  have update := mem _ (mem_delivery.2 (.inr (.inr (.inr rfl))))
  rcases pooled_cases s w with hp | ⟨t, rows, hp⟩ | ⟨t, ks', f', hp⟩
  · rw [hp] at insert
    cases insert
  · rw [hp] at update
    obtain ⟨row, -, he⟩ := List.mem_map.1 update
    cases he
  · rw [hp] at insert
    cases List.mem_singleton.1 insert

/-- What the commit of a send makes of the rows. -/
theorem sends_of_commit (hP : machine.Reach (From w₀) Orderly P) {p : Nat} {user : AuthUser} {c : Nat}
    {body : Utf16} {key : Option Utf16} {x : Option (App Response)} {tx : Tx schema} {m : Message}
    {users : List Nat} {e : OutboxEvent} {ks : List Key} {f : schema.Assign .conversations} {db' : Db}
    (ht : P.threads p = some ⟨.send user c body key, x⟩) (htx : P.shared.store.tx p = some tx)
    (hblock : tx.writes.filter (fun x => ofSend (writesTo x)) = delivery m users e ks f)
    (hconv : m.conversationId = c)
    (hdb : db' = Schema.Write.applyAll tx.writes P.shared.store.db) :
    m.createdAt = tx.now ∧ ∃ n, Sends P.shared.store.db db' m ks n := by
  have stamped : ∀ y ∈ delivery m users e ks f, Stamped c tx.now y := fun y hy =>
    stamped_reach hP ht htx y (List.mem_of_mem_filter (hblock ▸ hy))
  have time : m.createdAt = tx.now := stamped _ (mem_delivery.2 (.inl rfl))
  obtain ⟨⟨n, rfl⟩, hks⟩ := stamped _ (mem_delivery.2 (.inr (.inr (.inr rfl))))
  have table : ∀ t, ofSend t = true → db' t =
      Schema.Write.applyAll (delivery m users e ks (setLastMessage n tx.now)) P.shared.store.db t := by
    intro t ht
    rw [← hblock, applyAll_filter ht, hdb]
  refine ⟨time, n, ?_, ?_, fun key hkey => hconv ▸ hks key hkey⟩
  · rw [table .messages rfl, delivery_messages]
  · rw [table .conversations rfl, delivery_conversations, time]

theorem timed_step (hP : machine.Reach (From w₀) Orderly P) {l : Label Input Event Call}
    (hl : ∀ p i k o next, l = .exec p i → P.threads p = some ⟨k, some (.op o next)⟩ →
      Orderly p o P.shared)
    (hst : machine.step l P = some P') (h : Timed P.shared.store.db) :
    Timed P'.shared.store.db ∧ Advancing P.shared.store.db P'.shared.store.db := by
  have hi := reached hP
  have hi' := reached (.step l hP hl hst)
  rcases step_makes hP hl hst with ⟨hdb, hwal⟩ | ⟨p, k, o, next, new, ht, hg, hc, hm, hk, hcall⟩
  · exact timed_timeless hi hi' (p := 0) (State.Commits.none hdb hwal) (by simp) h
  by_cases hs : IsSend k ∧ ∃ x ∈ new, ofSend (writesTo x) = true
  · obtain ⟨hs, hx⟩ := hs
    obtain ⟨m, users, e, ks, f, hblock⟩ :=
      send_block hi hi' hc (call_of_thread hP ht) hcall hs hx
    have stored : Schema.Write.insert .messages m ∈ new :=
      List.mem_of_mem_filter (hblock ▸ mem_delivery.2 (.inl rfl))
    obtain ⟨user, body, key, hsend, -⟩ :=
      (hi'.db.sends p m (hc.1 ▸ List.mem_append_right _ (List.mem_map_of_mem stored))).call
    obtain rfl : k = .send user m.conversationId body key := Option.some.inj (hcall.symm.trans hsend)
    cases hm with
    | nothing => exact nomatch stored
    | @commit tx htx hf =>
      obtain ⟨time, n, hsends⟩ := sends_of_commit hP ht htx hblock rfl hc.2
      exact timed_sends hi hi' hsends (fun m' hm' hid => time ▸ hg rfl tx htx m stored m' hm' hid) h
    | query s => exact (delivery_pooled hblock).elim
    | remove t q ks' => exact nomatch List.mem_singleton.1 stored
  · refine timed_timeless hi hi' hc (fun x hx => ?_) h
    by_cases hsend : IsSend k
    · have apart : ofSend (writesTo x) ≠ true := fun ho => hs ⟨hsend, x, hx, ho⟩
      have may := hk x hx
      cases x with
      | insert t r =>
        cases t
        case messages => exact (apart rfl).elim
        case conversations => exact (apart rfl).elim
        all_goals trivial
      | update t ks f =>
        cases t
        case messages => exact ⟨k, may⟩
        case conversations => exact (apart rfl).elim
        all_goals trivial
      | delete t ks => exact may
    · refine timeless_may hsend (fun m e => ?_) (hk x hx)
      subst e
      obtain ⟨user, body, key, hcalls, -⟩ :=
        (hi'.db.sends p m (hc.1 ▸ List.mem_append_right _ (List.mem_map_of_mem hx))).call
      obtain rfl := Option.some.inj (hcall.symm.trans hcalls)
      exact hsend trivial

theorem timed_reach
    (h₀ : ∀ c ∈ w₀.store.db .conversations, (c : Conversation).lastMessageAt = none)
    (h : machine.Reach (From w₀) Orderly P) : Timed P.shared.store.db := by
  induction h with
  | init hs =>
    obtain ⟨hw, rfl⟩ := hs
    refine ⟨fun m hm => ?_, fun _ _ m hm => ?_, fun c hc t ht => nomatch (h₀ c hc).symm.trans ht⟩
    · rw [hw.messages] at hm
      cases hm
    · rw [hw.messages] at hm
      cases hm
  | step l hP hl hst ih => exact (timed_step hP hl hst ih).1

theorem advancing_leads
    (h₀ : ∀ c ∈ w₀.store.db .conversations, (c : Conversation).lastMessageAt = none)
    (h : machine.Reach (From w₀) Orderly P) (hl : machine.Leads Orderly P P') :
    Advancing P.shared.store.db P'.shared.store.db := by
  induction hl with
  | refl =>
    intro c hc c' hc' e t ht
    obtain rfl := same_conversation (reached h) hc hc' e.symm
    exact ⟨t, ht, le_rfl⟩
  | @step Q Q' l hQ hg hst ih =>
    have hreach := h.leads hQ
    have step := (timed_step hreach hg hst (timed_reach h₀ hreach)).2
    intro c hc c' hc' e t ht
    obtain ⟨d, hd, hid⟩ : ∃ d ∈ Q.shared.store.db .conversations, (d : Conversation).id = c.id := by
      have kept : Kept P.shared.store.db Q.shared.store.db :=
        Protocol.Sound.leads (sound Orderly w₀) (R := fun w w' => Kept w.store.db w'.store.db)
          (fun _ => .refl _) (fun _ _ _ h h' => h.trans h') (fun _ _ _ _ _ hg => hg.kept) h hQ
      obtain ⟨d, hd, later⟩ := kept .conversations nofun c hc
      have later : ConversationLater c d := later
      exact ⟨d, hd, later.id⟩
    obtain ⟨t₁, ht₁, hle⟩ := ih c hc d hd hid t ht
    obtain ⟨t₂, ht₂, hle'⟩ := step d hd c' hc' (e.trans hid.symm) t₁ ht₁
    exact ⟨t₂, ht₂, hle.trans hle'⟩

/-- Time follows sequence when sends commit in the order in which their transactions started. -/
theorem time_follows_sequence
    (h₀ : ∀ c ∈ w₀.store.db .conversations, (c : Conversation).lastMessageAt = none)
    (h : machine.Reach (From w₀) Orderly P) :
    (∀ m ∈ P.shared.store.db .messages, ∀ m' ∈ P.shared.store.db .messages,
      (m : Message).conversationId = (m' : Message).conversationId →
      (m : Message).sequence ≤ (m' : Message).sequence →
        (m : Message).createdAt ≤ (m' : Message).createdAt) ∧
    (∀ P', machine.Leads Orderly P P' → Advancing P.shared.store.db P'.shared.store.db) ∧
    ∀ c ∈ P.shared.store.db .conversations, ∀ m ∈ P.shared.store.db .messages,
      (m : Message).conversationId = (c : Conversation).id →
      (∀ m' ∈ P.shared.store.db .messages,
        (m' : Message).conversationId = (c : Conversation).id →
          (m' : Message).sequence ≤ (m : Message).sequence) →
        (c : Conversation).lastMessageAt = some (m : Message).createdAt := by
  have timed := timed_reach h₀ h
  refine ⟨timed.ordered, fun P' hl => advancing_leads h₀ h hl, fun c hc m hm e highest => ?_⟩
  have numbered := (reached h).db.numbered
  have le := sequence_le numbered hc hm e
  have pos := sequence_pos (reached h) hm
  have listed : (c : Conversation).lastSequence ∈ sequences P.shared.store.db (c : Conversation).id :=
    (numbered c hc).mem_iff.2 (List.mem_range'_1.2 (by omega))
  obtain ⟨m', hm', hs⟩ := List.mem_map.1 listed
  obtain ⟨hmem, hq⟩ := List.mem_filter.1 hm'
  have ge := highest m' hmem (beq_iff_eq.1 hq)
  exact timed.latest c hc m hm e (by omega)

end Times

section Example

/-- The times of the messages, by number, and of their conversations. -/
def times (P : Run) : List (Nat × Nat) × List (Option Nat) :=
  ((P.shared.store.db .messages).map fun (m : Message) => (m.sequence, m.createdAt),
    (P.shared.store.db .conversations).map fun (c : Conversation) => c.lastMessageAt)

/-- A send opens its transaction, and another one overtakes it. -/
def overtaken : List (Label Input Event Call) :=
  serve 0 exampleSend 4 ++ [.event (.tick 5)] ++ serve 1 exampleSend 15

def overtakenThenSent : List (Label Input Event Call) :=
  overtaken ++ List.replicate 11 (.exec 0 calm)

def overtook : Ran (runFrom exampleWorld overtaken) times ([(1, 5)], [some 5]) :=
  .of (by decide +kernel)

def wentBack : Ran (runFrom exampleWorld overtakenThenSent) times ([(1, 5), (2, 0)], [some 0]) :=
  .of (by decide +kernel)

theorem time_goes_back :
    (∃ P, runFrom exampleWorld overtaken = some P ∧ times P = ([(1, 5)], [some 5])) ∧
    ∃ P, runFrom exampleWorld overtakenThenSent = some P ∧
      times P = ([(1, 5), (2, 0)], [some 0]) :=
  ⟨⟨_, overtook.ran, overtook.sees⟩, _, wentBack.ran, wentBack.sees⟩

/-- A test that only orderly commits pass. -/
def orderly (p : Nat) (o : Op) (w : World) : Bool :=
  match o with
  | .commit => (w.store.tx p).all fun tx => tx.writes.all fun x =>
      match x with
      | .insert .messages m => (w.store.db .messages).all fun (m' : Message) =>
          m'.conversationId != (m : Message).conversationId || decide (m'.createdAt ≤ tx.now)
      | _ => true
  | _ => true

theorem orderly_sound (p : Nat) (o : Op) (w : World) (h : orderly p o w = true) : Orderly p o w := by
  rintro rfl tx ht m hm m' hm' e
  simp only [orderly, ht, Option.all_some, List.all_eq_true] at h
  have passed := h _ hm
  simp only [List.all_eq_true, Bool.or_eq_true, bne_iff_ne, decide_eq_true_eq] at passed
  exact (passed m' hm').resolve_left fun hne => hne e

def sendTickSend : List (Label Input Event Call) :=
  serve 0 exampleSend 15 ++ [.event (.tick 5)] ++ serve 1 exampleSend 15

def sentInOrder : Ran (passFrom orderly exampleWorld sendTickSend) times
    ([(1, 0), (2, 5)], [some 5]) :=
  .of (by decide +kernel)

theorem time_follows_sequence_example :
    ∃ P, passFrom orderly exampleWorld sendTickSend = some P ∧
      times P = ([(1, 0), (2, 5)], [some 5]) ∧
      ∀ m ∈ P.shared.store.db .messages, ∀ m' ∈ P.shared.store.db .messages,
        (m : Message).conversationId = (m' : Message).conversationId →
        (m : Message).sequence ≤ (m' : Message).sequence →
          (m : Message).createdAt ≤ (m' : Message).createdAt := by
  obtain ⟨P, hP, hs⟩ := sentInOrder
  exact ⟨P, hP, hs, (@time_follows_sequence exampleCipher exampleHash _ _ (by decide +kernel)
    (reach_passFrom initial_example orderly_sound hP)).1⟩

end Example

end Messageries.Guarantees
