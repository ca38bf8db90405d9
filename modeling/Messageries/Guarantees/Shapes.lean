import Messageries.Guarantees.Numbering
import Messageries.Proofs.Shapes

set_option linter.unusedSectionVars false

namespace Messageries.Guarantees

open Text Relational Database Crypto Concurrency Backend Moderation Proofs

section Shapes

variable [AesGcm] [TokenHash] {w₀ : World} {P : Run}

theorem not_sealed_of_plain {m : Message} (h : PlainRow m) : ¬SealedRow m := by
  rintro ⟨c, i, t, d, h'⟩
  obtain ⟨body, h⟩ := h
  cases h.symm.trans h'

theorem not_wiped_of_text {m : Message} (h : PlainRow m ∨ SealedRow m) : ¬WipedRow m := by
  intro h'
  rcases h with ⟨body, h⟩ | ⟨c, i, t, d, h⟩
  · cases h.symm.trans h'
  · cases h.symm.trans h'

/-- What a reader makes of a row that is not deleted. -/
theorem bodyOf_shaped {m : Message} (hs : m.status ≠ .deleted) (h : PlainRow m ∨ SealedRow m) :
    (m.status = .hidden ∧ bodyOf m none = return hiddenText) ∨
      (∃ body, m.body = some body ∧ bodyOf m none = return body) ∨
      ∃ e, sealedBody m = some e ∧ bodyOf m none = decrypt e := by
  by_cases hh : m.status = .hidden
  · exact .inl ⟨hh, by rw [bodyOf, if_neg hs, if_pos hh]⟩
  · rcases h with ⟨body, h⟩ | ⟨c, i, t, d, h⟩
    · obtain ⟨hb, -⟩ := Prod.mk.inj h
      exact .inr (.inl ⟨body, hb, by rw [bodyOf, if_neg hs, if_neg hh, hb]⟩)
    · simp only [textColumns, Prod.mk.injEq] at h
      obtain ⟨hb, hc, hi, ht, hd⟩ := h
      have whole : sealedBody m = some ⟨c, i, t, d⟩ := by
        rw [sealedBody, hc, hi, ht, hd]
        rfl
      exact .inr (.inr ⟨_, whole, by rw [bodyOf, if_neg hs, if_neg hh, hb, whole]⟩)

/-- Every message is in clear, sealed or wiped, and wiped when it is deleted; a reader finds a text
in each row of a page. -/
theorem message_shapes (h : machine.Reachable (From w₀) P) :
    (∀ m ∈ P.shared.store.db .messages,
      ((PlainRow m ∧ ¬SealedRow m ∧ ¬WipedRow m) ∨ (¬PlainRow m ∧ SealedRow m ∧ ¬WipedRow m) ∨
        (¬PlainRow m ∧ ¬SealedRow m ∧ WipedRow m)) ∧
      (WipedRow m ↔ (m : Message).deletedAt ≠ none)) ∧
    ∀ conversationId q, ∀ m ∈ (P.shared.store.db .messages).filter (inConversation conversationId q),
      (m.status = .hidden ∧ bodyOf m none = return hiddenText) ∨
        (∃ body, m.body = some body ∧ bodyOf m none = return body) ∨
        ∃ e, sealedBody m = some e ∧ bodyOf m none = decrypt e := by
  have shaped : ∀ m ∈ P.shared.store.db .messages, Shaped m := ((sound_shapes w₀).inv h).2
  refine ⟨fun m hm => ?_, fun c q m hm => ?_⟩
  · rcases shaped m hm with ⟨hd, -, hs⟩ | ⟨hd, hw⟩
    · have full := not_wiped_of_text hs
      refine ⟨?_, iff_of_false full fun h => h hd⟩
      rcases hs with hp | hs
      · exact .inl ⟨hp, not_sealed_of_plain hp, full⟩
      · exact .inr (.inl ⟨fun hp => not_sealed_of_plain hp hs, hs, full⟩)
    · refine ⟨.inr (.inr ⟨fun hp => ?_, fun hs => ?_, hw⟩), iff_of_true hw hd⟩
      · exact not_wiped_of_text (.inl hp) hw
      · exact not_wiped_of_text (.inr hs) hw
  · obtain ⟨hm, hq⟩ := List.mem_filter.1 hm
    have live : m.deletedAt = none := by
      simp only [inConversation, Bool.and_eq_true, Option.isNone_iff_eq_none] at hq
      exact hq.1.2
    rcases shaped m hm with ⟨-, hs, hrow⟩ | ⟨hd, -⟩
    · exact bodyOf_shaped hs hrow
    · exact (hd live).elim

end Shapes

section Example

/-- A message is sent in clear and deleted, and another is sent. -/
def sendDeleteSend : List (Label Input Event Call) :=
  serve 0 exampleSend 15 ++ serve 1 (.softDelete ⟨2, .customer⟩ 10 100) 9 ++ serve 2 exampleSend 15

def sentDeletedSent : Ran (runFrom exampleWorld sendDeleteSend)
    (fun P => (P.shared.store.db .messages).map fun (m : Message) =>
      (m.body.isSome, m.deletedAt.isSome)) [(false, true), (true, false)] :=
  .of (by decide +kernel)

theorem message_shapes_example :
    ∃ P, runFrom exampleWorld sendDeleteSend = some P ∧
      (P.shared.store.db .messages).length = 2 ∧
      ∀ m ∈ P.shared.store.db .messages, WipedRow m ↔ (m : Message).deletedAt ≠ none := by
  obtain ⟨P, hP, hv⟩ := sentDeletedSent
  refine ⟨P, hP, by simpa using congrArg List.length hv, fun m hm => ?_⟩
  exact ((@message_shapes exampleCipher exampleHash _ _
    (reachable_runFrom initial_example hP)).1 m hm).2

end Example

end Messageries.Guarantees
