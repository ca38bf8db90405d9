import Messageries.Guarantees.Numbering
import Messageries.Proofs.Deletions

set_option linter.unusedSectionVars false

namespace Messageries.Guarantees

open Text Relational Database Crypto Concurrency Backend Moderation Proofs

section Deletion

variable [AesGcm] [TokenHash] {w₀ : World} {P : Run}

/-- Deletion is final, if no call deletes or hides a message that is deleted already. -/
theorem deletion_terminal (h : machine.Reach (From w₀) Spares P) :
    (∀ m ∈ P.shared.store.db .messages,
      (m : Message).status = .deleted ↔ (m : Message).deletedAt ≠ none) ∧
    ∀ P', machine.Leads Spares P P' → ∀ m ∈ P.shared.store.db .messages,
      (m : Message).status = .deleted → ∃ m' ∈ P'.shared.store.db .messages,
        (m' : Message).id = (m : Message).id ∧ (m' : Message).status = .deleted ∧
          (m' : Message).deletedAt = (m : Message).deletedAt := by
  have sound := sound_burial w₀
  refine ⟨(sound.inv h).2, fun P' hl m hm hd => ?_⟩
  have kept := sound.leads (R := fun w w' => ∀ m ∈ w.store.db .messages,
      ∃ m' ∈ w'.store.db .messages, Buried m m') (fun _ m hm => ⟨m, hm, .refl m⟩)
    (fun _ _ _ h h' m hm => by
      obtain ⟨m', hm', hb⟩ := h m hm
      obtain ⟨m'', hm'', hb'⟩ := h' m' hm'
      exact ⟨m'', hm'', hb.trans hb'⟩)
    (fun _ _ _ _ _ hg => hg.2) h hl
  obtain ⟨m', hm', hb⟩ := kept m hm
  exact ⟨m', hm', hb.id, hb.status hd, hb.deletedAt hd⟩

end Deletion

section Example

def exampleReport : Call := .report ⟨3, .seller⟩ 100 (text "spam") none

def exampleHide : Call := .resolve ⟨1, .admin⟩ 103 .hideMessage

def fates (P : Run) : List (Nat × MessageStatus × Option Nat) :=
  (P.shared.store.db .messages).map fun (m : Message) => (m.id, m.status, m.deletedAt)

def deleteReported : List (Label Input Event Call) :=
  serve 0 exampleSend 15 ++ serve 1 exampleReport 3 ++ serve 2 (.softDelete ⟨2, .customer⟩ 10 100) 9

/-- The message is deleted once more, and then the report of it is resolved. -/
def deleteAndHide : List (Label Input Event Call) :=
  .event (.tick 1000) :: serve 3 (.softDelete ⟨2, .customer⟩ 10 100) 9 ++ serve 4 exampleHide 7

def deletedReported : Ran (runFrom exampleWorld deleteReported) fates [(100, .deleted, some 0)] :=
  .of (by decide +kernel)

def deletedThenHidden : Ran (runFrom exampleWorld (deleteReported ++ deleteAndHide)) fates
    [(100, .hidden, some 1000)] :=
  .of (by decide +kernel)

theorem deleted_then_hidden :
    ∃ P P' m m', runFrom exampleWorld deleteReported = some P ∧
      exampleMachine.run deleteAndHide P = some P' ∧
      m ∈ P.shared.store.db .messages ∧ (m : Message).status = .deleted ∧
      m' ∈ P'.shared.store.db .messages ∧ (m' : Message).id = (m : Message).id ∧
      (m' : Message).status = .hidden ∧ (m' : Message).deletedAt ≠ (m : Message).deletedAt := by
  obtain ⟨P, hP, hv⟩ := deletedReported
  obtain ⟨P', hP', hv'⟩ := deletedThenHidden
  obtain ⟨m, hm, he⟩ := List.map_eq_singleton_iff.1 hv
  obtain ⟨m', hm', he'⟩ := List.map_eq_singleton_iff.1 hv'
  simp only [Prod.mk.injEq] at he he'
  rw [runFrom, Machine.run_append, ← runFrom, hP, Option.bind_some] at hP'
  refine ⟨P, P', m, m', hP, hP', hm ▸ List.mem_singleton_self m, he.2.1,
    hm' ▸ List.mem_singleton_self m', he'.1.trans he.1.symm, he'.2.1, ?_⟩
  rw [he.2.2, he'.2.2]
  decide

def spared (_p : Nat) (o : Op) (w : World) : Bool :=
  match o with
  | .query .pool (.update .messages q _) =>
    ((w.store.db .messages).filter (q w.store.db w.clock)).all fun (m : Message) =>
      m.status != .deleted
  | _ => true

theorem spared_sound (p : Nat) (o : Op) (w : World) (h : spared p o w = true) : Spares p o w := by
  unfold Spares
  split
  · intro m hm hq
    simp only [spared, List.all_eq_true] at h
    simpa using h m (List.mem_filter.2 ⟨hm, hq⟩)
  · trivial

/-- The message is hidden, and then its sender deletes it. -/
def hideThenDelete : List (Label Input Event Call) :=
  serve 0 exampleSend 15 ++ serve 1 exampleReport 3 ++ serve 2 exampleHide 7 ++
    serve 3 (.softDelete ⟨2, .customer⟩ 10 100) 9

/-- Later its sender is erased. -/
def eraseLater : List (Label Input Event Call) :=
  .event (.tick 1000) :: serve 4 (.anonymize ⟨2, .customer⟩ 2) 9

def hiddenThenDeleted : Ran (passFrom spared exampleWorld hideThenDelete) fates
    [(100, .deleted, some 0)] :=
  .of (by decide +kernel)

def deletedThenErased : Ran (passFrom spared exampleWorld (hideThenDelete ++ eraseLater)) fates
    [(100, .deleted, some 0)] :=
  .of (by decide +kernel)

theorem deletion_terminal_example :
    ∃ P P' m, passFrom spared exampleWorld hideThenDelete = some P ∧
      exampleMachine.passing spared eraseLater P = some P' ∧
      m ∈ P.shared.store.db .messages ∧ (m : Message).status = .deleted ∧
      ∃ m' ∈ P'.shared.store.db .messages, (m' : Message).id = (m : Message).id ∧
        (m' : Message).status = .deleted ∧ (m' : Message).deletedAt = (m : Message).deletedAt := by
  obtain ⟨P, hP, hv⟩ := hiddenThenDeleted
  obtain ⟨P', hP', -⟩ := deletedThenErased
  obtain ⟨m, hm, he⟩ := List.map_eq_singleton_iff.1 hv
  simp only [Prod.mk.injEq] at he
  rw [passFrom, Machine.passing_append, ← passFrom, hP, Option.bind_some] at hP'
  have hmem : m ∈ P.shared.store.db .messages := hm ▸ List.mem_singleton_self m
  exact ⟨P, P', m, hP, hP', hmem, he.2.1, (@deletion_terminal exampleCipher exampleHash _ _
    (reach_passFrom initial_example spared_sound hP)).2 P'
    (Machine.Leads.passing .refl spared_sound hP') m hmem he.2.1⟩

end Example

end Messageries.Guarantees
