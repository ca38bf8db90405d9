import Messageries.Guarantees.Numbering
import Messageries.Proofs.Worker

set_option linter.unusedSectionVars false

namespace Messageries.Guarantees

open Text Relational Database Crypto Concurrency Backend Moderation Proofs

section Outbox

variable [AesGcm] [TokenHash]

/-- Process `p` is running a batch and is at the event: it began with it, and `handle` neither
returned nor threw. -/
def Handles (P : Run) (p e : Nat) : Prop :=
  ∃ worker batchSize o next,
    P.threads p = some ⟨.processBatch worker batchSize, some (.op o next)⟩ ∧ Began p e P.shared

/-- What the workers do with the events of the outbox. -/
structure AtLeastOnce (P : Run) : Prop where
  handled : ∀ e ∈ P.shared.store.db .outbox, (e : OutboxEvent).processedAt ≠ none →
    ∃ p, Noted p (e : OutboxEvent).id .ended P.shared
  alone : ∀ p q e, Handles P p e → Handles P q e → p = q
  apart : ∀ p ks f, (p, Schema.Write.update .outbox ks f) ∈ P.shared.store.wal →
    ∃ e, (∀ k ∈ ks, k = .id e) ∧ Noted p e (if isFailure f then .failed else .ended) P.shared
  counted : ∀ e ∈ P.shared.store.db .outbox,
    (e : OutboxEvent).attempts = failures (e : OutboxEvent).id P.shared.store.wal
  again : ∀ e ∈ P.shared.store.db .outbox, (e : OutboxEvent).processedAt = none → ∀ t,
    ((e : OutboxEvent).attempts = 0 → (e : OutboxEvent).createdAt ≤ t) →
    (∀ n ∈ P.shared.notes, n.event = (e : OutboxEvent).id → n.stage = .failed →
      n.time + 3600000 ≤ t) → due t e = true
  kept : ∀ P', machine.Later P P' → ∀ e ∈ P.shared.store.db .outbox,
    ∃ e' ∈ P'.shared.store.db .outbox, (e' : OutboxEvent).id = (e : OutboxEvent).id ∧
      (e' : OutboxEvent).eventType = (e : OutboxEvent).eventType ∧
        (e' : OutboxEvent).payload = (e : OutboxEvent).payload

variable {w₀ : World} {P : Run}

theorem outbox_at_least_once (h : machine.Reachable (From w₀) P) : AtLeastOnce P := by
  have worked : Worked False P.shared := worked_reach h False.elim
  refine ⟨fun e he hp => ((worked.told e he).done hp).1, ?_, fun p ks f hx => ?_,
    fun e he => (worked.told e he).counted, fun e he hp t hfresh hfailed => ?_,
    fun P' hl e he => ?_⟩
  · rintro p q e ⟨_, _, _, _, hp, hbp⟩ ⟨_, _, _, _, hq, hbq⟩
    exact Option.some.inj ((sole_reach h hp hbp).symm.trans (sole_reach h hq hbq))
  · obtain ⟨e, -, hk, hn⟩ := worked.owned p _ hx ks f rfl
    exact ⟨e, hk, hn⟩
  · have soon : (e : OutboxEvent).nextAttemptAt ≤ t := by
      rcases (worked.told e he).due with ⟨ha, hd⟩ | ⟨n, hn, hid, hs, hle⟩
      · exact hd ▸ hfresh ha
      · exact hle.trans (hfailed n hn hid hs)
    simp [due, hp, soon]
  · exact (sound _ w₀).leads (R := fun w w' => Kept w.store.db w'.store.db) (fun _ => .refl _)
      (fun _ _ _ => .trans) (fun _ _ _ _ _ hg => hg.kept) h hl .outbox (by decide) e he

end Outbox

section Example

/-- A batch fails with the event, the next worker is lost on it, and another one is through. -/
def handleThrice : List (Label Input Event Call) :=
  serve 0 exampleSend 15 ++
    .enter 1 (.processBatch 0 20) :: List.replicate 4 (.exec 1 calm) ++
      .exec 1 { calm with fault := .before } :: List.replicate 3 (.exec 1 calm) ++
        .event (.tick 2000) :: .enter 2 (.processBatch 0 20) :: List.replicate 6 (.exec 2 calm) ++
          .lose 2 :: serve 3 (.processBatch 1 20) 16

def handledThrice : Ran (runFrom exampleWorld handleThrice)
    (fun P => (P.shared.notes.map fun n => (n.process, n.stage),
      (P.shared.store.db .outbox).map fun (e : OutboxEvent) => (e.attempts, e.processedAt)))
    ([(1, .began), (1, .failed), (2, .began), (3, .began), (3, .ended)], [(1, some 2000)]) :=
  .of (by decide +kernel)

theorem outbox_at_least_once_example :
    ∃ P, runFrom exampleWorld handleThrice = some P ∧
      (P.shared.notes.map fun n => (n.process, n.stage)) =
        [(1, .began), (1, .failed), (2, .began), (3, .began), (3, .ended)] ∧
      @AtLeastOnce exampleCipher exampleHash P := by
  obtain ⟨P, hP, hs⟩ := handledThrice
  exact ⟨P, hP, congrArg Prod.fst hs, @outbox_at_least_once exampleCipher exampleHash _ _
    (reachable_runFrom initial_example hP)⟩

end Example

end Messageries.Guarantees
