import Messageries.Guarantees.Numbering

set_option linter.unusedSectionVars false

namespace Messageries.Guarantees

open Text Relational Database Crypto Concurrency Backend Moderation Proofs

section Export

variable [AesGcm] [TokenHash] {w₀ : World} {P : Run} {db₀ : Db} {w : World}

theorem sentRows_ids_nodup (hi : Inv db₀ w) (userId : Nat) :
    ((sentRows userId w.store.db).map fun m => m.id).Nodup := by
  refine List.Nodup.map_on (fun a ha b hb hid => ?_)
    ((Schema.nodup_of_keys (hi.ok.unique .messages)).filter _)
  have key : ∀ x : Message, Key.id x.id ∈ schema.keys .messages x := fun x => by
    simp [Schema.keys, primaryKey]
  exact Schema.eq_of_mem_flatMap (hi.ok.unique .messages) (List.mem_filter.1 ha).1
    (List.mem_filter.1 hb).1 (key a) (hid ▸ key b)

theorem ids_of_exportOf {userId : Nat} {es : List ExportedMessage} {db : Db}
    (h : ExportOf userId es db) :
    es.map (fun e => e.id) = (sentRows userId db).map fun m => m.id := by
  have same : List.Forall₂ (fun m e => m = e) ((sentRows userId db).map fun m => m.id)
      (es.map fun e => e.id) := by
    rw [List.forall₂_map_left_iff, List.forall₂_map_right_iff]
    refine List.Forall₂.imp (fun m e he => ?_) h
    obtain ⟨t, rfl⟩ := he
    rfl
  exact (List.forall₂_eq_eq_eq ▸ same).symm

/-- An export has one entry for each message that its user had sent and that was not deleted at a
moment since the request came in, in the order of the rows, and no other entry. -/
theorem export_complete (h : machine.Reachable (From w₀) P) {p : Nat} {user : AuthUser}
    {r : Response} (ht : P.threads p = some ⟨.exportData user, some (.pure r)⟩) :
    ∃ x, r = .export x ∧ (x.messages.map fun e => e.id).Nodup ∧
      ∃ pre, pre <+: P.shared.store.wal ∧ P.shared.arrived p ≤ pre.length ∧
        List.Forall₂ (fun m e => ∃ t, e = entry m t)
          ((replay w₀.store.db pre .messages).filter fun (m : Message) =>
            m.senderId == user.sub && m.deletedAt.isNone) x.messages := by
  obtain ⟨x, rfl, -, -, w, hi, hp, -, ha, hx⟩ := (sound _ w₀).returned h ht
  refine ⟨x, rfl, ?_, w.store.wal, hp, ha, ?_⟩
  · rw [ids_of_exportOf hx]
    exact sentRows_ids_nodup hi user.sub
  · rw [← hi.db.replay]
    exact hx

end Export

section Example

def exampleExport : Call := .exportData ⟨2, .customer⟩

/-- The customer sends two messages and deletes the first one. -/
def sendThenExport : List (Label Input Event Call) :=
  serve 0 exampleSend 15 ++ serve 1 (.softDelete ⟨2, .customer⟩ 10 100) 9 ++
    serve 2 exampleSend 15 ++ serve 3 exampleExport 8

def sentThenExported : Ran (runFrom exampleWorld sendThenExport)
    (fun P => (callOf P 3, match answer P 3 with
      | some (.export x) => some (x.messages.map fun (e : ExportedMessage) => (e.id, e.sequence))
      | _ => none)) (some exampleExport, some [(104, 2)]) :=
  .of (by decide +kernel)

theorem export_complete_example :
    ∃ P x pre, runFrom exampleWorld sendThenExport = some P ∧ answer P 3 = some (.export x) ∧
      x.messages.map (fun e => (e.id, e.sequence)) = [(104, 2)] ∧
      P.shared.arrived 3 ≤ pre.length ∧ List.Forall₂ (fun m e => ∃ t, e = entry m t)
        ((replay exampleWorld.store.db pre .messages).filter fun (m : Message) =>
          m.senderId == 2 && m.deletedAt.isNone) x.messages := by
  obtain ⟨P, hP, hv⟩ := sentThenExported
  obtain ⟨hk, hm⟩ := Prod.mk.inj hv
  split at hm
  · rename_i x ha
    obtain ⟨x', hx, -, pre, -, hpre, hf⟩ := @export_complete exampleCipher exampleHash _ _
      (reachable_runFrom initial_example hP) _ _ _ (thread_of_answer hk ha)
    cases hx
    exact ⟨P, x, pre, hP, ha, Option.some.inj hm, hpre, hf⟩
  · cases hm

end Example

end Messageries.Guarantees
