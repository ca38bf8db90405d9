import Messageries.Guarantees.Numbering
import Messageries.Proofs.Worker

set_option linter.unusedSectionVars false

namespace Messageries.Guarantees

open Text Relational Database Crypto Concurrency Backend Moderation Proofs

section NoLoss

variable [AesGcm] [TokenHash] {w₀ : World} {P : Run}

/-- A worker asks whether NATS is enabled only when `onModuleInit` got as far as `jetstream`. -/
def Connected (_p : Nat) (o : Op) (w : World) : Prop :=
  match o with
  | .natsEnabled worker => w.settings.natsEnabled = true ∧ (w.nats worker).js = true
  | _ => True

theorem processed_accepted (h : machine.Reach (From w₀) Connected P) :
    ∀ e ∈ P.shared.store.db .outbox, (e : OutboxEvent).processedAt ≠ none →
      Accepted (e : OutboxEvent).id P.shared := by
  intro e he hp
  have strict : True → ∀ p n w, Connected p (.natsEnabled n) w →
      (w.settings.natsEnabled && (w.nats n).js) = true :=
    fun _ _ _ _ hc => Bool.and_eq_true_iff.2 hc
  exact (((worked_reach h strict).told e he).done hp).2 trivial

end NoLoss

section Example

instance (p : Nat) (o : Op) (w : World) : Decidable (Connected p o w) := by
  unfold Connected
  split <;> infer_instance

abbrev natsWorld : World := worldOf exampleDb { exampleSettings with natsEnabled := true }

/-- The connection to NATS is not made, and a worker handles the event of a message. -/
def sendUnconnected : List (Label Input Event Call) :=
  .enter 0 (.natsInit 0) :: .exec 0 calm :: .exec 0 { calm with fault := .before } ::
    serve 1 exampleSend 15 ++ serve 2 (.processBatch 0 20) 16

def unconnected : Ran (runFrom natsWorld sendUnconnected)
    (fun P => (P.shared.settings.natsEnabled, P.shared.stream.length,
      (P.shared.store.db .outbox).map fun (e : OutboxEvent) => e.processedAt))
    (true, 0, [some 0]) :=
  .of (by decide +kernel)

theorem processed_unpublished :
    ∃ P, runFrom natsWorld sendUnconnected = some P ∧ P.shared.settings.natsEnabled = true ∧
      ∃ e ∈ P.shared.store.db .outbox, (e : OutboxEvent).processedAt ≠ none ∧
        ¬Accepted (e : OutboxEvent).id P.shared := by
  obtain ⟨P, hP, hs⟩ := unconnected
  obtain ⟨hn, hst, hr⟩ : P.shared.settings.natsEnabled = true ∧ P.shared.stream.length = 0 ∧
      (P.shared.store.db .outbox).map (fun (e : OutboxEvent) => e.processedAt) = [some 0] := by
    simpa using hs
  obtain ⟨e, he, hp⟩ : ∃ e ∈ P.shared.store.db .outbox, (e : OutboxEvent).processedAt = some 0 := by
    have mem : some 0 ∈ (P.shared.store.db .outbox).map fun (e : OutboxEvent) => e.processedAt :=
      hr ▸ List.mem_cons_self
    exact List.mem_map.1 mem
  refine ⟨P, hP, hn, e, he, fun hnone => (nomatch hnone.symm.trans hp), fun ⟨m, hm, _⟩ => ?_⟩
  rw [List.eq_nil_of_length_eq_zero hst] at hm
  cases hm

/-- The stream is missing at first, and a publication fails. -/
def sendConnected : List (Label Input Event Call) :=
  serve 0 (.natsInit 0) 6 ++ serve 1 exampleSend 15 ++
    .enter 2 (.processBatch 0 20) :: List.replicate 4 (.exec 2 calm) ++
      .exec 2 { calm with fault := .before } :: List.replicate 3 (.exec 2 calm) ++
        .event (.tick 2000) :: serve 3 (.processBatch 0 20) 17

def connected : Ran (passFrom (fun p o w => decide (Connected p o w)) natsWorld sendConnected)
    (fun P => (P.shared.stream.map Published.msgId,
      (P.shared.store.db .outbox).map fun (e : OutboxEvent) => (e.id, e.attempts, e.processedAt)))
    ([102], [(102, 1, some 2000)]) :=
  .of (by decide +kernel)

theorem processed_accepted_example :
    ∃ P, passFrom (fun p o w => decide (Connected p o w)) natsWorld sendConnected = some P ∧
      P.shared.stream.map Published.msgId = [102] ∧
      ∀ e ∈ P.shared.store.db .outbox, (e : OutboxEvent).processedAt ≠ none →
        Accepted (e : OutboxEvent).id P.shared := by
  obtain ⟨P, hP, hs⟩ := connected
  exact ⟨P, hP, congrArg Prod.fst hs, @processed_accepted exampleCipher exampleHash _ _
    (reach_passFrom initial_example (fun _ _ _ h => of_decide_eq_true h) hP)⟩

end Example

end Messageries.Guarantees
