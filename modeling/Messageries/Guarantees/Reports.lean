import Messageries.Guarantees.Deletion
import Messageries.Proofs.Reports

set_option linter.unusedSectionVars false

namespace Messageries.Guarantees

open Text Relational Database Crypto Concurrency Backend Moderation Proofs

section Reports

variable [AesGcm] [TokenHash] {w₀ w : World} {P P' : Run} {p : Nat}

/-- Every decision is made of a state that it leaves in agreement. -/
def Deliberate (_ : Nat) (o : Op) (w : World) : Prop :=
  ∀ s, o = .query .pool s → ∀ x ∈ pooled s w, Faithful w.store.db x

/-- What a statement that resolves a report writes. -/
theorem agree_resolved {new : List Write} {k : Call} (h : Agree w.store.db) (hr : IsResolve k)
    (hnew : new = [] ∨ (∃ t, ∃ rows : List (schema.Row t), new = rows.map (.insert t)) ∨
      ∃ t ks f, new = [.update t ks f])
    (hk : ∀ x ∈ new, May k x) (hn : ∀ m, Schema.Write.insert .messages m ∉ new)
    (hf : ∀ x ∈ new, Faithful w.store.db x) : Agree (Schema.Write.applyAll new w.store.db) := by
  rcases hnew with rfl | ⟨t, rows, rfl⟩ | ⟨t, ks, f, rfl⟩
  · exact h
  · by_cases e : t = .messages
    · subst e
      have none : rows = [] :=
        List.eq_nil_iff_forall_not_mem.2 fun m hm => hn m (List.mem_map_of_mem hm)
      rw [none]
      exact h
    · exact h.inserts e fun r hr => hf _ (List.mem_map_of_mem hr)
  · simp only [List.mem_singleton, forall_eq] at hk hf
    rw [Schema.Write.applyAll_cons, Schema.Write.applyAll_nil]
    by_cases e : t = .reports
    · subst e
      exact h.decided hk hf
    · by_cases e' : t = .messages
      · subst e'
        cases k
        case resolve user id action =>
          obtain ⟨t, rfl⟩ := hk
          exact h.hidden hf
        all_goals exact hr.elim
      · exact h.congr (Schema.Write.apply_update_of_ne _ _ _ (Ne.symm e))
          (Schema.Write.apply_update_of_ne _ _ _ (Ne.symm e'))

theorem agree_reach
    (h₀ : ∀ r ∈ w₀.store.db .reports, (r : MessageReport).status ≠ .actioned)
    (h : machine.Reach (From w₀) Deliberate P) : Agree P.shared.store.db := by
  induction h with
  | init hs =>
    obtain ⟨hw, rfl⟩ := hs
    refine ⟨fun r hr ha => (h₀ r hr ha).elim, fun m hm => ?_⟩
    rw [hw.messages] at hm
    cases hm
  | @step P P' l hP hl hst ih =>
    rcases step_makes hP hl hst with ⟨hdb, -⟩ | ⟨p, k, o, next, new, ht, hg, hc, hm, hk, hcall⟩
    · exact hdb ▸ ih
    have sent : ∀ m, Schema.Write.insert .messages m ∈ new →
        ∃ user c body key, k = .send user c body key ∧ (m : Message).status ≠ .hidden := by
      intro m hm
      have hs := (reached (.step l hP hl hst)).db.sends p m
        (hc.1 ▸ List.mem_append_right _ (List.mem_map_of_mem hm))
      obtain ⟨user, body, key, hsend, -⟩ := hs.call
      refine ⟨user, _, body, key, Option.some.inj (hcall.symm.trans hsend), fun hd => ?_⟩
      have visible := hs.visible
      rw [hd] at visible
      cases visible
    rw [hc.2]
    by_cases hr : IsResolve k
    · -- a decision is one statement on a connection of the pool
      have lone : Extension.Lone o := (hP.uses lone_resolve ht).1 hr
      cases hm with
      | nothing => exact ih
      | commit _ _ => exact lone.elim
      | query s =>
        refine agree_resolved ih hr (pooled_cases s _) hk (fun m hm => ?_) (hg s rfl)
        obtain ⟨_, _, _, _, rfl, -⟩ := sent m hm
        exact hr
      | remove t q ks =>
        obtain rfl : t = .attachments := hk _ (List.mem_singleton_self _)
        have other : ∀ t : Table, t ≠ .attachments →
            Schema.Write.applyAll [.delete .attachments ks] P.shared.store.db t =
              P.shared.store.db t := fun t ht => Schema.Write.apply_delete_of_ne ks _ ht
        exact ih.congr (other _ nofun) (other _ nofun)
    · exact ih.applyAll hk hr fun m hm => by
        obtain ⟨_, _, _, _, -, h⟩ := sent m hm
        exact h

/-- A report that was decided stays so. -/
theorem settled_later (h : machine.Reachable (From w₀) P) (hl : machine.Later P P') {id : Nat}
    (hs : ∃ r ∈ P.shared.store.db .reports, (r : MessageReport).id = id ∧
      (r : MessageReport).status ≠ .opened) :
    ∃ r ∈ P'.shared.store.db .reports, (r : MessageReport).id = id ∧
      (r : MessageReport).status ≠ .opened := by
  induction hl with
  | refl => exact hs
  | @step Q Q' l hQ hg hst ih =>
    obtain ⟨r, hr, rfl, ho⟩ := ih
    rcases step_makes (h.leads hQ) hg hst with ⟨hdb, -⟩ | ⟨p, k, o, next, new, -, -, hc, -, hk, -⟩
    · exact ⟨r, hdb ▸ hr, rfl, ho⟩
    · rw [hc.2]
      exact settled_applyAll hk hr ho

end Reports

section Example

def exampleResolve (action : ResolveAction) : Call := .resolve ⟨5, .support⟩ 103 action

/-- The reports and the messages, with their statuses. -/
def statuses (P : Run) : List (Nat × ReportStatus) × List (Nat × MessageStatus) :=
  ((P.shared.store.db .reports).map fun (r : MessageReport) => (r.messageId, r.status),
    (P.shared.store.db .messages).map fun (m : Message) => (m.id, m.status))

/-- A moderator is cut off between the report and its message. -/
def cutOff : List (Label Input Event Call) :=
  serve 0 exampleSend 15 ++ serve 1 exampleReport 3 ++ serve 2 (exampleResolve .hideMessage) 4 ++
    [.lose 2]

/-- A report is acted on, and then dismissed. -/
def secondThought : List (Label Input Event Call) :=
  serve 0 exampleSend 15 ++ serve 1 exampleReport 3 ++ serve 2 (exampleResolve .hideMessage) 7 ++
    serve 3 (exampleResolve .dismiss) 5

def leftVisible : Ran (runFrom exampleWorld cutOff) statuses ([(100, .actioned)], [(100, .sent)]) :=
  .of (by decide +kernel)

def leftHidden : Ran (runFrom exampleWorld secondThought) statuses
    ([(100, .dismissed)], [(100, .hidden)]) :=
  .of (by decide +kernel)

/-- A test that only decisions on messages that are gone pass. -/
def faithful (db : Db) : Write → Bool
  | .insert .reports r => (r : MessageReport).status != .actioned
  | .update .reports _ _ => (db .reports).all fun (r : MessageReport) =>
      r.status != .actioned && (db .messages).any fun (m : Message) =>
        m.id == r.messageId && gone m.status
  | .update .messages _ f => (db .messages).all fun (m : Message) =>
      (f.set m : Message).status != .hidden || (db .reports).any fun (r : MessageReport) =>
        r.messageId == m.id && r.status == .actioned
  | _ => true

theorem faithful_sound {db : Db} {x : Write} (h : faithful db x = true) : Faithful db x := by
  cases x with
  | insert t r =>
    cases t
    case reports =>
      intro ha
      simp only [faithful, bne_iff_ne] at h
      exact (h ha).elim
    all_goals trivial
  | update t ks f =>
    cases t
    case reports =>
      intro r hr _
      simp only [faithful, List.all_eq_true, Bool.and_eq_true, bne_iff_ne, List.any_eq_true,
        beq_iff_eq] at h
      obtain ⟨hn, m, hm, hg⟩ := h r hr
      exact ⟨fun _ => ⟨m, hm, hg⟩, fun ha => (hn ha).elim⟩
    case messages =>
      intro m hm _ _ hh
      simp only [faithful, List.all_eq_true, Bool.or_eq_true, bne_iff_ne, List.any_eq_true,
        Bool.and_eq_true, beq_iff_eq] at h
      exact (h m hm).resolve_left fun hn => hn hh
    all_goals trivial
  | delete t ks => trivial

def deliberate (_ : Nat) (o : Op) (w : World) : Bool :=
  match o with
  | .query .pool s => (pooled s w).all (faithful w.store.db)
  | _ => true

theorem deliberate_sound (p : Nat) (o : Op) (w : World) (h : deliberate p o w = true) :
    Deliberate p o w := by
  rintro s rfl x hx
  exact faithful_sound (List.all_eq_true.1 h x hx)

/-- A moderator acts on the report of a message that its sender has deleted. -/
def hideDeleted : List (Label Input Event Call) :=
  serve 0 exampleSend 15 ++ serve 1 exampleReport 3 ++
    serve 2 (.softDelete ⟨2, .customer⟩ 10 100) 9 ++ serve 3 (exampleResolve .hideMessage) 7

def hiddenDeleted : Ran (passFrom deliberate exampleWorld hideDeleted) statuses
    ([(100, .actioned)], [(100, .hidden)]) :=
  .of (by decide +kernel)

end Example

end Messageries.Guarantees
