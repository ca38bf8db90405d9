import Messageries.Guarantees.Numbering

set_option linter.unusedSectionVars false

namespace Messageries.Guarantees

open Text Relational Database Crypto Concurrency Backend Moderation Proofs

section Authorization

variable [AesGcm] [TokenHash] {w₀ w : World} {P : Run} {p : Nat} {user : AuthUser}

/-- The requests that reach a conversation, by the user who makes them. -/
def requester : Call → Option AuthUser
  | .openByOrder user _ | .getOne user _ | .send user _ _ _ | .list user _ _ _ _
  | .markRead user _ _ | .softDelete user _ _ | .report user _ _ _ | .presign user _ _ _ _
  | .download user _ | .enableE2ee user _ _ _ _ | .sendMls user _ _ _ _ _ _
  | .listMls user _ _ _ | .enableSearch user _ | .disableSearch user _ => some user
  | _ => none

/-- The request returned or changed data of the conversation `c`. -/
def Touches : Call → Response → World → Nat → Prop
  | .openByOrder _ _, .conversation conv, _, c => conv.id = c
  | .getOne _ _, .detail conv _ _, _, c => conv.id = c
  | .send _ _ _ _, .message d, w, c => MessageIn w.store.db d.id c
  | .list _ conversationId _ _ _, .messages ms, _, c =>
    conversationId = c ∨ ∃ d ∈ ms, d.conversationId = c
  | .markRead _ conversationId _, _, _, c => conversationId = c
  | .softDelete _ _ messageId, _, w, c => MessageIn w.store.db messageId c
  | .report _ messageId _ _, _, w, c => MessageIn w.store.db messageId c
  | .presign _ conversationId _ _ _, _, _, c => conversationId = c
  | .download _ attachmentId, _, w, c =>
    ∃ q a, (q, Schema.Write.insert .attachments a) ∈ w.store.wal ∧
      (a : Attachment).id = attachmentId ∧ (a : Attachment).conversationId = c
  | .enableE2ee _ conversationId _ _ _, _, _, c => conversationId = c
  | .sendMls _ conversationId _ _ _ _ _, _, _, c => conversationId = c
  | .listMls _ conversationId _ _, _, _, c => conversationId = c
  | .enableSearch _ conversationId, _, _, c => conversationId = c
  | .disableSearch _ conversationId, _, _, c => conversationId = c
  | _, _, _, _ => False

/-- A customer or a seller opens a conversation only by an order they are a party of, or whose
conversation they are in, and reports a message only from a conversation they are in. -/
def Rightful (p : Nat) (_ : Op) (w : World) : Prop :=
  (∀ user orderId, w.calls p = some (.openByOrder user orderId) → ¬Staff user →
    Entitled user orderId w) ∧
  ∀ user messageId reason details,
    w.calls p = some (.report user messageId reason details) → ¬Staff user →
    ∀ m ∈ w.store.db .messages, (m : Message).id = messageId →
      Active w.store.db (m : Message).conversationId user.sub

theorem trusted_rightful (hu : ¬Staff user) (orderId : Nat) : Trusted Rightful user orderId :=
  fun _ _ _ hg hc => hg.1 user orderId hc hu

theorem vouched_rightful (hu : ¬Staff user) (messageId : Nat) :
    Vouched Rightful user messageId :=
  fun _ _ _ hg ⟨reason, details, hc⟩ => hg.2 user messageId reason details hc hu

/-- When only the rightful open and report, a request of a customer or a seller that succeeds is
made by an active participant of the conversation whose data it returns or changes. -/
theorem only_participants (h : machine.Reach (From w₀) Rightful P) {k : Call} {r : Response}
    (ht : P.threads p = some ⟨k, some (.pure r)⟩) (hk : requester k = some user)
    (hu : user.role = .customer ∨ user.role = .seller) {c : Nat} (hc : Touches k r P.shared c) :
    Active P.shared.store.db c user.sub := by
  have hi := reached h
  have post := (sound _ w₀).returned h ht
  have staff : ¬Staff user := by
    rintro (hs | hs) <;> rcases hu with hu | hu <;> exact absurd (hs.symm.trans hu) nofun
  have seat : ∀ {c'}, Accessed user c' P.shared → c' = c → Active P.shared.store.db c user.sub := by
    rintro c' ha rfl
    exact ha.seat staff
  cases k with
  | openByOrder u orderId =>
    cases hk
    obtain ⟨conv, rfl, ho⟩ := post
    obtain rfl := hc
    exact ho.seat (trusted_rightful staff orderId)
  | getOne u cid =>
    cases hk
    obtain ⟨ha, conv, ps, role, rfl, hid⟩ := post
    exact seat ha (hid.symm.trans hc)
  | send u cid body key =>
    cases hk
    obtain ⟨ha, d, rfl, q, m, hm, hid, -, hkey⟩ := post
    obtain ⟨m', hm', hl⟩ := hi.db.stored q .messages nofun m hm
    have hs : Stored m P.shared := ⟨⟨q, m, hm, .refl m, hi.db.sends q m hm⟩, m', hm', hl⟩
    exact seat ha (hkey.conversation.symm.trans (hs.conversation hi (hid.symm ▸ hc)))
  | list u cid a b limit =>
    cases hk
    obtain ⟨ha, ms, rfl, hl, -⟩ := post
    rcases hc with hc | ⟨d, hd, hc⟩
    · exact seat ha hc
    · exact seat ha ((hl d hd).1.symm.trans hc)
  | softDelete u cid mid =>
    cases hk
    obtain ⟨m, rfl, hsender, hs⟩ := post
    have hc : MessageIn P.shared.store.db m.id c := hc
    exact hs.conversation hi hc ▸ hsender ▸ hs.sender
  | report u mid reason details =>
    cases hk
    obtain ⟨m, rfl, hs, ha⟩ := post
    have hc : MessageIn P.shared.store.db m.id c := hc
    exact hs.conversation hi hc ▸ ha (vouched_rightful staff m.id)
  | download u aid =>
    cases hk
    obtain ⟨a, rfl, hr, ha⟩ := post
    obtain ⟨q, a', ha', hid, hc⟩ := hc
    rcases hr.origin with ⟨a₀, ha₀, -⟩ | ⟨q₀, a₀, ha₀, hid₀, hc₀⟩
    · rw [(initial_of_reach h).attachments] at ha₀
      cases ha₀
    · have same : a' = a₀ := (hi.db.uploads q₀ a₀ ha₀).2 q a' ha' (hid.trans hid₀)
      exact seat ha (hc₀.trans (same ▸ hc))
  | markRead u cid upto =>
    cases hk
    exact seat post hc
  | presign u cid filename mime size =>
    cases hk
    exact seat post hc
  | enableE2ee u cid groupIdMls suite welcomes =>
    cases hk
    exact seat post hc
  | sendMls u cid device kind epoch ciphertext target =>
    cases hk
    exact seat post hc
  | listMls u cid a limit =>
    cases hk
    exact seat post hc
  | enableSearch u cid =>
    cases hk
    exact seat post hc
  | disableSearch u cid =>
    cases hk
    exact seat post hc
  | _ => cases hk

end Authorization

section Example

def exampleStranger : AuthUser := ⟨9, .customer⟩

def strangerOpens : Ran (runFrom exampleWorld (serve 0 (.openByOrder exampleStranger 1) 2))
    (fun P =>
      (match answer P 0 with
        | some (.conversation c) => decide (c.id = 10)
        | _ => false, decide (Active P.shared.store.db 10 9))) (true, false) :=
  .of (by decide +kernel)

/-- A customer who is no party of the order opens its conversation. -/
theorem stranger_opens :
    ∃ P conv, runFrom exampleWorld (serve 0 (.openByOrder exampleStranger 1) 2) = some P ∧
      answer P 0 = some (.conversation conv) ∧
      Touches (.openByOrder exampleStranger 1) (.conversation conv) P.shared 10 ∧
      ¬Active P.shared.store.db 10 exampleStranger.sub := by
  obtain ⟨P, hP, hv⟩ := strangerOpens
  obtain ⟨hc, ha⟩ := Prod.mk.inj hv
  split at hc
  · rename_i conv he
    have hid : conv.id = 10 := of_decide_eq_true hc
    exact ⟨P, conv, hP, he, hid, of_decide_eq_false ha⟩
  · cases hc

def exampleOpener : AuthUser := ⟨2, .customer⟩

def rightful (p : Nat) (_ : Op) (w : World) : Bool :=
  match w.calls p with
  | some (.openByOrder user orderId) =>
    (w.store.db .conversations).any (fun (c : Conversation) => c.orderId == orderId) &&
      (w.store.db .conversations).all fun (c : Conversation) =>
        decide (Active w.store.db c.id user.sub)
  | some (.report _ _ _ _) => false
  | _ => true

theorem rightful_sound (p : Nat) (o : Op) (w : World) (h : rightful p o w = true) :
    Rightful p o w := by
  refine ⟨fun user orderId hc _ => ?_, fun user messageId reason details hc => ?_⟩
  · simp only [rightful, hc, Bool.and_eq_true, List.any_eq_true, List.all_eq_true, beq_iff_eq,
      decide_eq_true_eq] at h
    obtain ⟨⟨c, hmem, ho⟩, hall⟩ := h
    exact ⟨fun c' hc' _ => hall c' hc', fun hun => (hun c hmem ho).elim⟩
  · simp [rightful, hc] at h

def partyOpens :
    Ran (passFrom rightful exampleWorld (serve 0 (.openByOrder exampleOpener 1) 2))
      (fun P => (callOf P 0, match answer P 0 with
        | some (.conversation c) => decide (c.id = 10)
        | _ => false)) (some (.openByOrder exampleOpener 1), true) :=
  .of (by decide +kernel)

theorem only_participants_example :
    ∃ P, passFrom rightful exampleWorld (serve 0 (.openByOrder exampleOpener 1) 2) = some P ∧
      Active P.shared.store.db 10 2 := by
  obtain ⟨P, hP, hv⟩ := partyOpens
  obtain ⟨hk, hc⟩ := Prod.mk.inj hv
  split at hc
  · rename_i conv he
    have hid : conv.id = 10 := of_decide_eq_true hc
    have ht := thread_of_answer hk he
    exact ⟨P, hP, @only_participants exampleCipher exampleHash _ _ _ _
      (reach_passFrom initial_example rightful_sound hP) _ _ ht rfl (.inl rfl) 10 hid⟩
  · cases hc

end Example

end Messageries.Guarantees
