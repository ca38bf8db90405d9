import Messageries.Guarantees.Erasure
import Messageries.Guarantees.Reports
import Messageries.Proofs.Telling

set_option linter.unusedSectionVars false

namespace Messageries.Guarantees

open Text Relational Database Crypto Concurrency Backend Moderation Proofs

section Register

variable [AesGcm] [TokenHash] {w₀ : World} {P P' : Run}

/-- The audit log is append-only, and each of its entries names the user of a call that was made,
with an action that call may journal. -/
theorem journal_authentic (h : machine.Reachable (From w₀) P) :
    (∀ r ∈ P.shared.store.db .audit, r ∈ w₀.store.db .audit ∨
      ∃ p k, P.shared.calls p = some k ∧ Entry k r) ∧
    ∀ P', machine.Later P P' → P.shared.store.db .audit <+: P'.shared.store.db .audit := by
  refine ⟨?_, fun P' hl => ?_⟩
  · induction h with
    | init hw =>
      obtain ⟨-, rfl⟩ := hw
      exact fun r hr => .inl hr
    | step l hP hl hst ih =>
      obtain ⟨a, guar⟩ := ((sound _ w₀).step ((sound _ w₀).holds hP) hl hst).2
      obtain ⟨rows, hdb, hrows⟩ := step_journal hP hl hst
      intro r hr
      rw [hdb] at hr
      rcases List.mem_append.1 hr with hr | hr
      · exact (ih r hr).imp_right fun ⟨p, k, hk, entry⟩ => ⟨p, k, guar.calls p k hk, entry⟩
      · obtain ⟨p, k, make, next, ht, hk, f, hf, id, now, rfl⟩ := hrows r hr
        exact .inr ⟨p, k, hk, entry_reach hP ht f hf id now⟩
  · induction hl with
    | refl => exact List.prefix_rfl
    | step l hl hg hst ih =>
      obtain ⟨rows, hdb, -⟩ := step_journal (h.leads hl) hg hst
      exact ih.trans (hdb ▸ List.prefix_append ..)

/-- What the audit log says of a deletion, of a report and of an anonymisation is so. -/
theorem journal_truthful (h : machine.Reachable (From w₀) P) :
    ∀ r ∈ P.shared.store.db .audit, r ∈ w₀.store.db .audit ∨ Warranted r P.shared := by
  induction h with
  | init hw =>
    obtain ⟨-, rfl⟩ := hw
    exact fun r hr => .inl hr
  | @step P P' l hP hl hst ih =>
    obtain ⟨a, guar⟩ := ((sound _ w₀).step ((sound _ w₀).holds hP) hl hst).2
    have later : ∀ {r}, Warranted r P.shared → Warranted r P'.shared := fun {r} =>
      Persists.warranted r _ _ _ (reached hP) (reached (.step l hP hl hst)) guar
    obtain ⟨rows, hdb, hrows⟩ := step_journal hP hl hst
    intro r hr
    rw [hdb] at hr
    rcases List.mem_append.1 hr with hr | hr
    · exact (ih r hr).imp_right later
    · obtain ⟨p, k, make, next, ht, -, f, hf, id, now, rfl⟩ := hrows r hr
      exact .inr (later (warranted_reach hP ht f hf id now))

end Register

section Owed

variable [AesGcm] [TokenHash] {w₀ : World} {P P' : Run} {p : Nat} {k : Call}

/-- The process wrote the row to the audit log. -/
structure Filed (p : Nat) (r : AuditLog) (w : World) : Prop where
  written : (p, Schema.Write.insert .audit r) ∈ w.store.wal
  kept : r ∈ w.store.db .audit

/-- What the operation writes to the audit log is there. -/
def Files (p : Nat) (o : Op) (w : World) : Prop :=
  ∀ make, o = logging make → ∀ f ∈ make, ∃ id now, Filed p (f id now) w

theorem Filed.step {r : AuditLog} (h : Filed p r P.shared) (hP : machine.Reachable (From w₀) P)
    {l : Label Input Event Call} (hst : machine.step l P = some P') : Filed p r P'.shared := by
  have hl : ∀ p i k o next, l = .exec p i → P.threads p = some ⟨k, some (.op o next)⟩ → True :=
    fun _ _ _ _ _ _ _ => trivial
  refine ⟨?_, ?_⟩
  · rcases step_makes hP hl hst with ⟨-, same⟩ | ⟨_, _, _, _, _, -, -, hc, -⟩
    · exact same ▸ h.written
    · exact hc.1 ▸ List.mem_append_left _ h.written
  · obtain ⟨rows, hdb, -⟩ := step_journal hP hl hst
    exact hdb ▸ List.mem_append_left _ h.kept

theorem filed_of_exec {w w' : World} {i : Input} {make : List (Nat → Nat → AuditLog)}
    {rows : (logging make).Res} {db₀ : Db} (hi : Inv db₀ w)
    (h : World.exec p i (logging make) w = some (.ok rows, w')) : Files p (logging make) w' := by
  intro make' e f hf
  cases e
  rcases exec_insert hi h with ⟨-, e, he, -⟩ | ⟨st', rows, hrows, rfl, -, -, -, -, hc, -⟩
  · cases he
  · obtain ⟨j, hj, rfl⟩ := List.mem_iff_getElem.1 hf
    have row : make[j] (w.store.nextId + j) w.clock ∈ rows := by
      rw [hrows]
      exact List.mem_mapIdx.2 ⟨j, hj, rfl⟩
    refine ⟨w.store.nextId + j, w.clock, ?_, ?_⟩
    · change _ ∈ st'.wal
      rw [hc.1]
      exact List.mem_append_right _ (List.mem_map_of_mem (List.mem_map_of_mem row))
    · change _ ∈ st'.db .audit
      rw [hc.2, Schema.applyAll_inserts]
      exact List.mem_append_right _ row

end Owed

section Example

/-- The entries of the audit log: who did what, to what. -/
def journalOf (P : Run) : List (Option Nat × String × Option Nat) :=
  (P.shared.store.db .audit).map fun (r : AuditLog) => (r.actorId, r.action, r.targetId)

/-- A message is reported, and its sender deletes it. -/
def reportThenDelete : List (Label Input Event Call) :=
  serve 0 exampleSend 15 ++ serve 1 exampleReport 3 ++ serve 2 exampleDelete 9

def journalled : Ran (runFrom exampleWorld reportThenDelete)
    (fun P => (journalOf P, callOf P 2, (answer P 2).isSome))
    ([(some 3, "message.reported", some 100), (some 2, "message.deleted", some 100)],
      some exampleDelete, true) :=
  .of (by decide +kernel)

theorem journal_authentic_example : ∃ P, runFrom exampleWorld reportThenDelete = some P ∧
    (∀ r ∈ P.shared.store.db .audit, r ∈ exampleWorld.store.db .audit ∨
      ∃ p k, P.shared.calls p = some k ∧ Entry k r) := by
  obtain ⟨P, hP, -⟩ := journalled
  exact ⟨P, hP, (@journal_authentic exampleCipher exampleHash _ _
    (reachable_runFrom initial_example hP)).1⟩

theorem journal_truthful_example : ∃ P, runFrom exampleWorld reportThenDelete = some P ∧
    journalOf P = [(some 3, "message.reported", some 100), (some 2, "message.deleted", some 100)] ∧
    ∀ r ∈ P.shared.store.db .audit, r ∈ exampleWorld.store.db .audit ∨ Warranted r P.shared := by
  obtain ⟨P, hP, hv⟩ := journalled
  exact ⟨P, hP, (Prod.mk.inj hv).1, @journal_truthful exampleCipher exampleHash _ _
    (reachable_runFrom initial_example hP)⟩

end Example

end Messageries.Guarantees
