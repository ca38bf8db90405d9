import Messageries.Guarantees.Numbering

set_option linter.unusedSectionVars false

namespace Messageries.Guarantees

open Text Relational Database Crypto Concurrency Backend Moderation Proofs

section Idempotency

variable [AesGcm] [TokenHash] {w₀ : World} {P : Run} {c u : Nat} {key : Utf16} {p q : Nat}

/-- The row was sent to the conversation by the user with the key. -/
def holdsKey (c u : Nat) (key : Utf16) (m : Message) : Bool :=
  m.conversationId == c && m.senderId == u && m.idempotencyKey == some (sent key)

theorem mem_keys_of_holdsKey {m : Message} (h : holdsKey c u key m = true) :
    Key.idempotency c u (sent key) ∈ schema.keys .messages m := by
  simp only [holdsKey, Bool.and_eq_true, beq_iff_eq] at h
  obtain ⟨⟨rfl, rfl⟩, hk⟩ := h
  simp [Schema.keys, uniqueKeys, hk]

/-- The message that holds the key was inserted once. -/
theorem same_of_holdsKey (hi : Inv w₀.store.db P.shared) {m m' : Message}
    (hm : (p, Schema.Write.insert .messages m) ∈ P.shared.store.wal)
    (hm' : (q, Schema.Write.insert .messages m') ∈ P.shared.store.wal)
    (hk : holdsKey c u key m = true) (hk' : holdsKey c u key m' = true) : p = q ∧ m = m' :=
  hi.db.same_entry (t := .messages) nofun (hi.ok.unique .messages) hm hm' (mem_keys_of_holdsKey hk)
    (mem_keys_of_holdsKey hk')

/-- A send whose key was committed by another one writes to none of its tables. -/
theorem send_writes_nothing (hi : Inv w₀.store.db P.shared) {user : AuthUser} {body : Utf16}
    (hc : P.shared.calls p = some (.send user c body (some key))) (hq : q ≠ p) {m : Message}
    (hm : (q, Schema.Write.insert .messages m) ∈ P.shared.store.wal)
    (hk : holdsKey c user.sub key m = true) :
    ∀ x, (p, x) ∈ P.shared.store.wal → ofSend (writesTo x) = false := by
  intro x hx
  by_contra ho
  obtain ⟨m', hm'⟩ := hi.db.attributed p _ hc trivial ⟨x, hx, by simpa using ho⟩
  obtain ⟨user', body', key', hc', hu, hkey, -⟩ := (hi.db.sends p m' hm').call
  have e := Option.some.inj (hc.symm.trans hc')
  obtain ⟨rfl, rfl, rfl, rfl⟩ : user = user' ∧ c = m'.conversationId ∧ body = body' ∧
      some key = key' := by simpa using e
  have hk' : holdsKey m'.conversationId user.sub key m' = true := by
    simp [holdsKey, hu, hkey]
  exact hq (same_of_holdsKey hi hm hm' hk hk').1

/-- At most one message holds a key, and a send that finds its key committed by another one
changes nothing and answers with the message that is there. -/
theorem send_idempotent (h : machine.Reachable (From w₀) P) :
    (∀ c u key, ((P.shared.store.db .messages).filter (holdsKey c u key)).length ≤ 1) ∧
    ∀ p user c body key code, P.threads p = some ⟨.send user c body (some key), code⟩ → key ≠ [] →
      ∀ q m, q ≠ p → (q, Schema.Write.insert .messages m) ∈ P.shared.store.wal →
        holdsKey c user.sub key m = true →
        (∀ x, (p, x) ∈ P.shared.store.wal → ofSend (writesTo x) = false) ∧
        ∀ r, code = some (.pure r) → ∃ d, r = .message d ∧ d.id = (m : Message).id ∧
          d.sequence = (m : Message).sequence := by
  have hi := reached h
  refine ⟨fun c u key => Schema.filter_length_le_one (hi.ok.unique .messages)
    fun _ => mem_keys_of_holdsKey, ?_⟩
  intro p user c body key code ht hkey q m hq hm hk
  refine ⟨send_writes_nothing hi (call_of_thread h ht) hq hm hk, ?_⟩
  rintro r rfl
  obtain ⟨-, d, rfl, hd⟩ := (sound _ w₀).returned h ht
  obtain ⟨q', m', hm', hid, hseq, hm'k⟩ := hd.stored
  have hk' : holdsKey c user.sub key m' = true := by
    simp [holdsKey, hm'k.conversation, hm'k.sender, hm'k.key key (truthy_some hkey)]
  obtain ⟨-, rfl⟩ := same_of_holdsKey hi hm' hm hk' hk
  exact ⟨d, rfl, hid.symm, hseq.symm⟩

end Idempotency

section Example

def exampleRetry : Call := .send ⟨2, .customer⟩ 10 (text "a") (some (text "k"))

def sendAndRetry :
    Ran (runFrom exampleWorld (serve 0 exampleRetry 16 ++ serve 1 exampleRetry 10))
      (fun P => (callOf P 1, (sentBy 0 P.shared.store.wal).map (holdsKey 10 2 (text "k"))))
      (some exampleRetry, [true]) :=
  .of (by decide +kernel)

theorem send_idempotent_example :
    ∃ P m, runFrom exampleWorld (serve 0 exampleRetry 16 ++ serve 1 exampleRetry 10) = some P ∧
      callOf P 1 = some exampleRetry ∧ sentBy 0 P.shared.store.wal = [m] ∧
      ((P.shared.store.db .messages).filter (holdsKey 10 2 (text "k"))).length ≤ 1 ∧
      ∀ x, (1, x) ∈ P.shared.store.wal → ofSend (writesTo x) = false := by
  obtain ⟨P, hP, hv⟩ := sendAndRetry
  obtain ⟨hcall, hsent⟩ := Prod.mk.inj hv
  obtain ⟨m, hm, hk⟩ := List.map_eq_singleton_iff.1 hsent
  obtain ⟨code, ht⟩ := thread_of_callOf hcall
  have all := @send_idempotent exampleCipher exampleHash _ _ (reachable_runFrom initial_example hP)
  have one := all.2 1 _ _ _ _ code ht (by decide +kernel) 0 m (by decide)
    (mem_sentBy (hm ▸ List.mem_singleton_self m)) hk
  exact ⟨P, m, hP, hcall, hm, all.1 _ _ _, one.1⟩

end Example

end Messageries.Guarantees
