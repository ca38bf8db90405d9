import Messageries.Guarantees.Numbering
import Messageries.Proofs.Joining
import Messageries.Proofs.Special

set_option linter.unusedSectionVars false

namespace Messageries.Guarantees

open Text Relational Database Crypto Concurrency Backend Moderation Proofs

section Journal

variable [AesGcm] [TokenHash] {w₀ : World} {P₀ P P' : Run} {p : Nat} {n : NewParticipant}

/-- The transactions give no support or admin user a seat. -/
theorem unseated_staged {g : Nat → Op → World → Prop} (h : machine.Reach (From w₀) g P) {k : Call}
    {x : Option (App Response)} {tx : Tx schema} (ht : P.threads p = some ⟨k, x⟩)
    (htx : P.shared.store.tx p = some tx) {r : ConversationParticipant}
    (hr : Schema.Write.insert .participants r ∈ tx.writes) : ¬OfStaff r := by
  refine staged_reach (T := fun _ _ y => ∀ r : ConversationParticipant,
    y = .insert .participants r → ¬OfStaff r) (fun k => ?_) h ht htx _ hr r rfl
  refine (journalling_code k).uses.mono fun o ho s hs v free id now y hy r hy' => ?_
  subst hs hy'
  rcases Schema.Stmt.mem_plan hy with ⟨t, make, rfl, f, hf, i, e⟩ | ⟨t, q, f, rfl, e⟩
  · cases e
    rcases ho with ho | ⟨o', n, e, -⟩
    · exact ho f hf i now
    · cases e
  · cases e

/-- An operation that gives a support or admin user a seat is the INSERT of `assertCanAccess`, and
that of the audit log comes next. -/
theorem joins_of_makes {g : Nat → Op → World → Prop} (h : machine.Reach (From w₀) g P) {k : Call}
    {o : Op} {next : Except Err o.Res → App Response} {new : List Write}
    (ht : P.threads p = some ⟨k, some (.op o next)⟩) (hm : Makes p P.shared o new)
    {r : ConversationParticipant} (hr : Schema.Write.insert .participants r ∈ new)
    (hs : OfStaff r) :
    o = joining ⟨r.conversationId, r.userId, r.role⟩ ∧
      ∀ a, ∃ rest, next (.ok a) = .op (journalling ⟨r.conversationId, r.userId, r.role⟩) rest := by
  have code : Journalling (.op o next) := h.residual (R := fun _ x => Journalling x)
    journalling_code (fun _ _ _ r hx => hx.2 r) ht
  cases hm with
  | nothing => cases hr
  | commit htx _ => exact (unseated_staged h ht htx hr hs).elim
  | remove t q ks => cases List.mem_singleton.1 hr
  | query s =>
    rcases Schema.Stmt.mem_plan hr with ⟨t, make, rfl, f, hf, i, e⟩ | ⟨t, q, f, rfl, e⟩
    · cases e
      rcases code.1 with hu | ⟨o', ⟨n, ho, rfl⟩, hnext⟩
      · exact (hu f hf i _ hs).elim
      · cases ho
        obtain rfl := List.mem_singleton.1 hf
        exact ⟨rfl, hnext⟩
    · cases e

/-- An INSERT into the audit log that succeeds. -/
theorem exec_journalling {db₀ : Db} {w w' : World} {i : Input} {rows : (journalling n).Res}
    (hi : Inv db₀ w) (h : World.exec p i (journalling n) w = some (.ok rows, w')) :
    ∃ id now, joined n id now ∈ w'.store.db .audit := by
  rcases exec_insert hi h with ⟨-, e, he, -⟩ | ⟨st', rows', hrows, rfl, -, -, -, -, hc, -⟩
  · cases he
  · refine ⟨w.store.nextId, w.clock, ?_⟩
    change _ ∈ st'.db .audit
    rw [hc.2, hrows]
    simp

/-- The entries of the audit log stay as they are. -/
theorem audit_kept {k : Call} {new : List Write} (hk : ∀ x ∈ new, May k x) {db : Db}
    {a : AuditLog} (h : a ∈ db .audit) : a ∈ Schema.Write.applyAll new db .audit :=
  kept_of_inserts (t := .audit) (fun _ _ hf => hk _ hf) (fun _ hd => nomatch hk _ hd) h

/-- What becomes of the entry that process `p` owes the audit log for a seat it took. -/
inductive Accounted (P₀ P : Run) (p : Nat) (n : NewParticipant) : Prop
  | logged (id now : Nat) : joined n id now ∈ P.shared.store.db .audit → Accounted P₀ P p n
  | next (k : Call) (rest : Except Err (journalling n).Res → App Response) :
      P.threads p = some ⟨k, some (.op (journalling n) rest)⟩ → Accounted P₀ P p n
  | lost (k : Call) : P.threads p = some ⟨k, none⟩ → Accounted P₀ P p n
  | unanswered : machine.Refused p (joining n) P₀ P → Accounted P₀ P p n
  | failed : machine.Refused p (journalling n) P₀ P → Accounted P₀ P p n

/-- A step leaves nothing unaccounted for. -/
theorem Accounted.step {l : Label Input Event Call} (h : Accounted P₀ P p n)
    (hl : machine.Later P₀ P) (hP : machine.Reachable (From w₀) P)
    (hst : machine.step l P = some P') : Accounted P₀ P' p n := by
  have more : machine.Later P P' := .step l .refl (fun _ _ _ _ _ _ _ => trivial) hst
  cases h with
  | logged id now ha =>
    refine .logged id now ?_
    rcases step_makes hP (fun _ _ _ _ _ _ _ => trivial) hst with ⟨hdb, -⟩ |
      ⟨q, k, o, next, new, -, -, hc, -, hk, -⟩
    · exact hdb ▸ ha
    · rw [hc.2]
      exact audit_kept hk ha
  | unanswered h => exact .unanswered (h.later more)
  | failed h => exact .failed (h.later more)
  | lost k ht =>
    refine .lost k ?_
    rcases Machine.step_cases hst with ⟨q, k', s, -, hn, -, rfl⟩ |
      ⟨q, i, k', o, next, r, s, -, hq, -, rfl⟩ | ⟨e, s, -, -, rfl⟩ | ⟨q, k', o, next, -, hq, rfl⟩
    · rw [Pool.put_of_ne _ _ _ fun e => by subst e; cases hn.symm.trans ht]
      exact ht
    · rw [Pool.put_of_ne _ _ _ fun e => by subst e; cases hq.symm.trans ht]
      exact ht
    · exact ht
    · rw [Pool.put_of_ne _ _ _ fun e => by subst e; cases hq.symm.trans ht]
      exact ht
  | next k rest ht =>
    rcases Machine.step_cases hst with ⟨q, k', s, -, hn, -, rfl⟩ |
      ⟨q, i, k', o, next, r, s, -, hq, hx, rfl⟩ | ⟨e, s, -, -, rfl⟩ | ⟨q, k', o, next, -, hq, rfl⟩
    · refine .next k rest ?_
      rw [Pool.put_of_ne _ _ _ fun e => by subst e; cases hn.symm.trans ht]
      exact ht
    · by_cases e : p = q
      · subst e
        cases hq.symm.trans ht
        cases r with
        | ok rows =>
          obtain ⟨id, now, ha⟩ := exec_journalling (reached hP) hx
          exact .logged id now ha
        | error e => exact .failed (hl.refused ht hx)
      · refine .next k rest ?_
        rw [Pool.put_of_ne _ _ _ e]
        exact ht
    · exact .next k rest ht
    · by_cases e : p = q
      · subst e
        exact .lost k' (Pool.put_self ..)
      · refine .next k rest ?_
        rw [Pool.put_of_ne _ _ _ e]
        exact ht

/-- A seat that `assertCanAccess` gave a support or admin user has its entry in the audit log,
unless the process has not come to the second INSERT or was lost, or one of the two INSERTs was
answered with an error. -/
theorem support_access_journalled (hw : Initial w₀) (h : machine.Later ⟨w₀, fun _ => none⟩ P)
    {r : ConversationParticipant}
    (hr : (p, Schema.Write.insert .participants r) ∈ P.shared.store.wal)
    (hs : r.role = .support ∨ r.role = .admin) :
    Accounted ⟨w₀, fun _ => none⟩ P p ⟨r.conversationId, r.userId, r.role⟩ := by
  induction h with
  | refl =>
    have hr : (p, Schema.Write.insert .participants r) ∈ w₀.store.wal := hr
    rw [hw.wal] at hr
    cases hr
  | @step P P' l hl _ hst ih =>
    have start : machine.Reachable (From w₀) ⟨w₀, fun _ => none⟩ := .init ⟨hw, rfl⟩
    have hP : machine.Reachable (From w₀) P := start.leads hl
    by_cases old : (p, Schema.Write.insert .participants r) ∈ P.shared.store.wal
    · exact (ih old).step hl hP hst
    -- the step wrote the row
    · rcases Machine.step_cases hst with ⟨q, k, s, -, -, hx, rfl⟩ |
        ⟨q, i, k, o, next, a, s, -, ht, hx, rfl⟩ | ⟨e, s, -, hx, rfl⟩ | ⟨q, k, o, next, -, -, rfl⟩
      · rw [Pool.put_shared, (Extension.enter_idle hx).1] at hr
        exact (old hr).elim
      · obtain ⟨new, hc, hm⟩ := exec_makes hx
        rw [Pool.put_shared, hc.1] at hr
        obtain ⟨x, hmem, e⟩ := List.mem_map.1 ((List.mem_append.1 hr).resolve_left old)
        cases e
        obtain ⟨rfl, hnext⟩ := joins_of_makes hP ht hm hmem hs
        cases a with
        | error e => exact .unanswered (hl.refused ht hx)
        | ok rows =>
          obtain ⟨rest, e⟩ := hnext rows
          exact .next k rest (e ▸ Pool.put_self ..)
      · have hr : (p, Schema.Write.insert .participants r) ∈ s.store.wal := hr
        rw [(Extension.event_idle hx).1] at hr
        exact (old hr).elim
      · exact (old hr).elim

end Journal

section Example

def exampleSupport : AuthUser := ⟨7, .support⟩

/-- The seats process `p` gave. -/
def seatsBy (p : Nat) (wal : Wal) : List ConversationParticipant :=
  wal.filterMap fun
    | (q, .insert .participants r) => if q = p then some r else none
    | _ => none

theorem mem_seatsBy {p : Nat} {wal : Wal} {r : ConversationParticipant} (h : r ∈ seatsBy p wal) :
    (p, Schema.Write.insert .participants r) ∈ wal := by
  obtain ⟨e, he, hr⟩ := List.mem_filterMap.1 h
  split at hr
  · split at hr
    · rename_i hq
      cases hr
      subst hq
      exact he
    · cases hr
  · cases hr

def supportJoins : Ran (runFrom exampleWorld (serve 0 (.getOne exampleSupport 10) 6))
    (fun P => ((seatsBy 0 P.shared.store.wal).map fun r => (r.userId, r.role),
      (P.shared.store.db .audit).map fun (a : AuditLog) => (a.actorId, a.action)))
    ([(7, .support)], [(some 7, "conversation.support_joined")]) :=
  .of (by decide +kernel)

theorem support_access_journalled_example :
    ∃ P r, runFrom exampleWorld (serve 0 (.getOne exampleSupport 10) 6) = some P ∧
      (0, Schema.Write.insert .participants r) ∈ P.shared.store.wal ∧
      @Accounted exampleCipher exampleHash ⟨exampleWorld, fun _ => none⟩ P 0
        ⟨r.conversationId, r.userId, r.role⟩ := by
  obtain ⟨P, hP, hv⟩ := supportJoins
  obtain ⟨r, hmem, hr⟩ := List.mem_map.1 ((Prod.mk.inj hv).1 ▸ List.mem_singleton_self _)
  refine ⟨P, r, hP, mem_seatsBy hmem, @support_access_journalled exampleCipher exampleHash _ _ _
    initial_example (Machine.Leads.run .refl hP) _ (mem_seatsBy hmem) (.inl (Prod.mk.inj hr).2)⟩

/-- The INSERT of the audit log fails, and the user comes back later. -/
def joinsUnseen : List (Label Input Event Call) :=
  serve 0 (.getOne exampleSupport 10) 4 ++ .exec 0 { calm with fault := .before } ::
    .exec 0 calm :: serve 1 (.getOne exampleSupport 10) 3

def supportUnseen : Ran (runFrom exampleWorld joinsUnseen)
    (fun P => ((seatsBy 0 P.shared.store.wal).map fun r => (r.userId, r.role),
      (P.shared.store.db .audit).length, (answer P 0).isSome && (answer P 1).isSome))
    ([(7, .support)], 0, true) :=
  .of (by decide +kernel)

/-- A support user who opens the conversation twice, and no entry. -/
theorem support_unjournalled :
    ∃ P r, runFrom exampleWorld joinsUnseen = some P ∧
      (0, Schema.Write.insert .participants r) ∈ P.shared.store.wal ∧ r.role = .support ∧
      (answer P 0).isSome ∧ (answer P 1).isSome ∧
      ∀ a ∈ P.shared.store.db .audit, (a : AuditLog).action ≠ "conversation.support_joined" := by
  obtain ⟨P, hP, hv⟩ := supportUnseen
  obtain ⟨hs, hrest⟩ := Prod.mk.inj hv
  obtain ⟨ha, hans⟩ := Prod.mk.inj hrest
  obtain ⟨r, hmem, hr⟩ := List.mem_map.1 (hs ▸ List.mem_singleton_self _)
  rw [Bool.and_eq_true] at hans
  refine ⟨P, r, hP, mem_seatsBy hmem, (Prod.mk.inj hr).2, hans.1, hans.2, ?_⟩
  rw [List.eq_nil_of_length_eq_zero ha]
  exact nofun

end Example

end Messageries.Guarantees
