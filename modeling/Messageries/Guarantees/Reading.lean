import Messageries.Guarantees.Numbering

set_option linter.unusedSectionVars false

namespace Messageries.Guarantees

open Text Relational Database Crypto Concurrency Backend Moderation Proofs

section Reading

variable [AesGcm] [TokenHash] {w₀ : World} {P : Run}

/-- Whatever the settings, the active key and the cache were, a list and an export show each
message that is neither deleted nor hidden as it was sent, and no list fails to decrypt one. -/
theorem read_what_was_sent (h : machine.Reachable (From w₀) P) :
    (∀ p user c after before limit r,
      P.threads p = some ⟨.list user c after before limit, some (.pure r)⟩ →
      ∃ ms, r = .messages ms ∧ ∀ d ∈ ms, gone d.status = false → Says d.id d.body P.shared) ∧
    (∀ p user c after before limit e,
      P.threads p = some ⟨.list user c after before limit, some (.throw e)⟩ → e ≠ .crypto) ∧
    ∀ p user r, P.threads p = some ⟨.exportData user, some (.pure r)⟩ →
      ∃ x, r = .export x ∧ ∀ e ∈ x.messages, Says e.id e.body P.shared ∨
        ∃ m ∈ P.shared.store.db .messages, (m : Message).id = e.id ∧
          gone (m : Message).status = true := by
  refine ⟨fun p user c after before limit r ht => ?_, fun p user c after before limit e ht => ?_,
    fun p user r ht => ?_⟩
  · obtain ⟨-, ms, rfl, hl, -⟩ := (sound _ w₀).returned h ht
    exact ⟨ms, rfl, fun d hd hv => (hl d hd).2 hv⟩
  · exact (sound _ w₀).threw h ht
  · obtain ⟨x, rfl, he, -⟩ := (sound _ w₀).returned h ht
    exact ⟨x, rfl, he⟩

end Reading

section Example

def sealedSettings : Settings := { exampleSettings with encryptMessageBody := true }

def exampleList : Call := .list ⟨3, .seller⟩ 10 none none none

def nextKms : LocalKmsProvider where
  keys := [(text "k1", List.replicate 32 0), (text "k2", List.replicate 32 1)]
  active := text "k2"
  wellFormed := by decide +kernel
  active_mem := by decide +kernel

/-- A message is sealed; the body encryption goes off, the active key changes and the cache is
emptied before it is read. -/
def sealThenList : List (Label Input Event Call) :=
  serve 0 exampleSend 19 ++ [.event (.configure exampleSettings), .event (.rotateKeys nextKms),
    .event (.evict [])] ++ serve 1 exampleList 8

def sealedThenListed : Ran (runFrom (worldOf exampleDb sealedSettings) sealThenList)
    (fun P => (callOf P 1, match answer P 1 with
      | some (.messages ms) => some (ms.map fun (d : DecryptedMessage) => d.body)
      | _ => none)) (some exampleList, some [text "a"]) :=
  .of (by decide +kernel)

theorem read_what_was_sent_example :
    ∃ P ms, runFrom (worldOf exampleDb sealedSettings) sealThenList = some P ∧
      answer P 1 = some (.messages ms) ∧ ms.map (fun d => d.body) = [text "a"] ∧
      ∀ d ∈ ms, gone d.status = false → Says d.id d.body P.shared := by
  obtain ⟨P, hP, hv⟩ := sealedThenListed
  obtain ⟨hk, hm⟩ := Prod.mk.inj hv
  split at hm
  · rename_i ms ha
    have h := reachable_runFrom initial_example hP
    obtain ⟨ms', hms, hs⟩ := (@read_what_was_sent exampleCipher exampleHash _ _ h).1 1 _ _ _ _ _ _
      (thread_of_answer hk ha)
    cases hms
    exact ⟨P, ms, hP, ha, Option.some.inj hm, hs⟩
  · cases hm

end Example

end Messageries.Guarantees
