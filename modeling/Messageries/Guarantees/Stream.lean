import Messageries.Guarantees.Numbering
import Messageries.Proofs.Special

set_option linter.unusedSectionVars false

namespace Messageries.Guarantees

open Text Relational Database Crypto Concurrency Backend Moderation Proofs

section Stream

variable [AesGcm] [TokenHash] {w₀ : World} {P : Run} {w w' : World}

/-- An event is published again only while the stream still knows its identifier. -/
def soonAgain (_p : Nat) (o : Op) (w : World) : Bool :=
  match o with
  | .publish _ _ msgId => w.stream.all fun e =>
      e.msgId != msgId || decide (w.clock ≤ e.time + World.duplicateWindowMs)
  | _ => true

/-- No event is in the stream twice. -/
def Single (w : World) : Prop := (w.stream.map Published.msgId).Nodup

theorem Single.congr (h : Single w) (hf : SameFeed w w') : Single w' := by
  rw [Single, hf.stream]
  exact h

theorem Single.publish (h : Single w) {type : EventType} {payload : Payload} {msgId : Nat}
    (hg : soonAgain 0 (.publish type payload msgId) w = true) :
    Single (w.publish type payload msgId) := by
  unfold World.publish
  split
  · exact h
  · rename_i hany
    have new : msgId ∉ w.stream.map Published.msgId := by
      intro hmem
      obtain ⟨e, he, rfl⟩ := List.mem_map.1 hmem
      refine hany (List.any_eq_true.2 ⟨e, he, ?_⟩)
      have recent := List.all_eq_true.1 hg e he
      simpa using recent
    rw [Single, List.map_append, List.nodup_append']
    exact ⟨h, List.nodup_singleton _, by simpa using new⟩

theorem Single.exec (h : Single w) {p : Nat} {i : Input} {o : Op} {r : Except Err o.Res}
    (hx : World.exec p i o w = some (r, w')) (hg : soonAgain p o w = true) : Single w' := by
  by_cases ho : Feeds o
  · cases o with
    | publish type payload msgId =>
      simp only [World.exec] at hx
      split at hx
      · exact of_remote (S := fun _ w' => Single w') h (h.publish hg) hx
      · cases hx
        exact h
    | note e s =>
      cases hx
      exact h
    | mail m =>
      refine of_remote (S := fun _ w' => Single w') h ?_ hx
      exact h
    | index d =>
      obtain ⟨ds, rfl⟩ := exec_indexes hx trivial
      exact h
    | unindex c =>
      obtain ⟨ds, rfl⟩ := exec_indexes hx trivial
      exact h
    | _ => exact ho.elim
  · exact h.congr (exec_feed hx ho)

end Stream

section Example

abbrev streamWorld : World := worldOf exampleDb { exampleSettings with natsEnabled := true }

/-- Process `p` runs a batch whose event is published, and then the presence lookup fails. -/
def failAfterPublish (p : Nat) : List (Label Input Event Call) :=
  .enter p (.processBatch 0 20) :: List.replicate 5 (.exec p calm) ++
    .exec p { calm with fault := .before } :: List.replicate 3 (.exec p calm)

/-- Six batches fail and each back-off is waited for, up to 126 s after the first publication. -/
def publishAgain : List (Label Input Event Call) :=
  serve 0 (.natsInit 0) 6 ++ serve 1 exampleSend 15 ++
    ((List.range 6).flatMap fun n =>
      failAfterPublish (n + 2) ++ [.event (.tick (1000 * 2 ^ (n + 1)))]) ++
    serve 8 (.processBatch 0 20) 17

def publishedAgain : Ran (runFrom streamWorld publishAgain)
    (·.shared.stream.map Published.msgId) [102, 102] :=
  .of (by decide +kernel)

/-- The batch is run again after one back-off. -/
def publishSoon : List (Label Input Event Call) :=
  serve 0 (.natsInit 0) 6 ++ serve 1 exampleSend 15 ++ failAfterPublish 2 ++
    .event (.tick 2000) :: serve 3 (.processBatch 0 20) 17

def publishedSoon : Ran (passFrom soonAgain streamWorld publishSoon)
    (fun P => (P.shared.stream.length,
      (P.shared.store.db .outbox).map fun (e : OutboxEvent) => (e.attempts, e.processedAt)))
    (1, [(1, some 2000)]) :=
  .of (by decide +kernel)

end Example

end Messageries.Guarantees
