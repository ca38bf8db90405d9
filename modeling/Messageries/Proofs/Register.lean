import Messageries.Concurrency.Settling
import Messageries.Proofs.Footprint
import Messageries.Proofs.Special

set_option linter.unusedSectionVars false

/-! What goes to the audit log. -/

namespace Messageries.Proofs

open Text Relational Database Crypto Concurrency Backend

section Register

/-- The audit log only grows. -/
theorem audit_appends {k : Call} {new : List Write} (may : ∀ x ∈ new, May k x) (db : Db) :
    ∃ rows, Schema.Write.applyAll new db .audit = db .audit ++ rows ∧
      ∀ r ∈ rows, Schema.Write.insert .audit r ∈ new := by
  obtain ⟨F, rows, hdb, hF, hrows⟩ := applyAll_split (t := .audit)
    (S := fun (r r' : AuditLog) => r' = r) (N := fun r => Schema.Write.insert .audit r ∈ new)
    (fun _ => rfl) (fun _ _ _ h h' => h'.trans h) (fun _ _ h hn => h ▸ hn) (fun _ hr => hr)
    (fun ks f hf => (may _ hf).elim) (fun ks hk => nomatch may _ hk) db
  have same : F = id := funext hF
  exact ⟨rows, by rw [hdb, same, List.map_id], hrows⟩

variable [AesGcm] [TokenHash] {g : Nat → Op → World → Prop} {w₀ : World}
  {P P' : Pool Op Op.Res Err World Call Response}

/-- No transaction writes to the audit log. -/
theorem unjournalled_reach (h : machine.Reach (From w₀) g P) {p : Nat} {k : Call}
    {x : Option (App Response)} {tx : Tx schema} (ht : P.threads p = some ⟨k, x⟩)
    (htx : P.shared.store.tx p = some tx) : ∀ r, Schema.Write.insert .audit r ∉ tx.writes := by
  intro r hr
  refine staged_reach (T := fun _ _ y => ∀ r, y ≠ Schema.Write.insert .audit r) (fun k => ?_)
    h ht htx _ hr r rfl
  refine (footprint_code k).mono fun o ho s hs v free id now y hy r hy' => ?_
  subst hs hy'
  rcases Schema.Stmt.mem_plan hy with ⟨t, make, rfl, f, hf, i, e⟩ | ⟨t, q, f, rfl, e⟩
  · cases e
    cases ho.1
  · cases e

/-- The operation that writes these rows to the audit log. -/
abbrev logging (make : List (Nat → Nat → AuditLog)) : Op := .query .pool (.insert .audit make)

/-- The rows a step writes to the audit log are those of the operation it performs. -/
theorem step_journal (h : machine.Reach (From w₀) g P) {l : Label Input Event Call}
    (hl : ∀ p i k o next, l = .exec p i → P.threads p = some ⟨k, some (.op o next)⟩ →
      g p o P.shared)
    (hst : machine.step l P = some P') :
    ∃ rows, P'.shared.store.db .audit = P.shared.store.db .audit ++ rows ∧
      ∀ r ∈ rows, ∃ p k make next, P.threads p = some ⟨k, some (.op (logging make) next)⟩ ∧
        P'.shared.calls p = some k ∧ ∃ f ∈ make, ∃ id now, r = f id now := by
  rcases step_makes h hl hst with ⟨same, -⟩ | ⟨p, k, o, next, new, ht, -, hc, hm, may, hk⟩
  · exact ⟨[], by rw [same, List.append_nil], fun _ hr => nomatch hr⟩
  obtain ⟨rows, hdb, hrows⟩ := audit_appends may P.shared.store.db
  refine ⟨rows, hc.2 ▸ hdb, fun r hr => ?_⟩
  have logged := hrows r hr
  cases hm with
  | nothing => cases logged
  | commit htx _ => exact (unjournalled_reach h ht htx r logged).elim
  | remove t q ks => cases List.mem_singleton.1 logged
  | query s =>
    rcases Schema.Stmt.mem_plan logged with ⟨t, make, rfl, f, hf, i, e⟩ | ⟨t, q, f, rfl, e⟩
    · cases e
      exact ⟨p, k, make, next, ht, hk, f, hf, i, _, rfl⟩
    · cases e

/-- What is written to the audit log is an entry of the call. -/
theorem entry_reach (h : machine.Reach (From w₀) g P) {p : Nat} {k : Call}
    {make : List (Nat → Nat → AuditLog)} {next : Except Err _ → App Response}
    (ht : P.threads p = some ⟨k, some (.op (logging make) next)⟩) :
    ∀ f ∈ make, ∀ id now, Entry k (f id now) :=
  ((h.uses footprint_code ht).1 : Footprint k (logging make)).2

end Register

section Owed

/-- The entry the call has to leave in the audit log. -/
def Owed : Call → AuditLog → Prop
  | .softDelete u _ m, r =>
    r.actorId = some u.sub ∧ r.action = "message.deleted" ∧ r.targetId = some m
  | .report u m _ _, r =>
    r.actorId = some u.sub ∧ r.action = "message.reported" ∧ r.targetId = some m
  | .resolve u _ action, r => r.actorId = some u.sub ∧ r.action = action.auditName
  | .enableE2ee u c _ _ _, r =>
    r.actorId = some u.sub ∧ r.action = "e2ee.enabled" ∧ r.targetId = some c
  | .enableSearch u _, r => r.actorId = some u.sub ∧ r.action = "search.enabled"
  | .disableSearch u _, r => r.actorId = some u.sub ∧ r.action = "search.disabled"
  | .exportData u, r =>
    r.actorId = some u.sub ∧ r.action = "privacy.exported" ∧ r.targetId = some u.sub
  | .anonymize u user, r =>
    r.actorId = some u.sub ∧ r.action = "privacy.anonymized" ∧ r.targetId = some user
  | _, _ => False

/-- The calls that leave an entry in the audit log whenever they return. -/
def Owing : Call → Prop
  | .softDelete _ _ _ | .report _ _ _ _ | .resolve _ _ _ | .enableE2ee _ _ _ _ _
  | .enableSearch _ _ | .disableSearch _ _ | .exportData _ | .anonymize _ _ => True
  | _ => False

/-- The operation writes the entry of the call. -/
def Pays (k : Call) (o : Op) : Prop :=
  ∃ make, o = logging make ∧ ∃ f ∈ make, ∀ id now, Owed k (f id now)

variable {k : Call} {α β : Type} {Q : β → Prop}

/-- Whatever its operations are answered with, the program performs one of `D` before it returns a
value without `Q`. -/
abbrev Comes (D : Op → Prop) (x : App β) (Q : β → Prop) : Prop := x.Passes D (fun _ _ => True) Q

theorem passes_audit {actorId : Option Nat} {action targetType : String} {targetId : Option Nat}
    {metadata : List (String × Json)}
    (h : ∀ id now, Owed k ⟨id, actorId, action, targetType, targetId, metadata, now⟩) :
    Comes (Pays k) (audit actorId action targetType targetId metadata) fun _ => False :=
  .inl ⟨_, rfl, _, List.mem_singleton_self _, h⟩

theorem passes_transaction {x : App β} (hx : Comes (Pays k) x fun _ => False) :
    Comes (Pays k) (transaction x) Q :=
  Prog.Passes.tryCatch (.seq fun _ => .bind hx) fun _ => .seq fun _ => trivial

theorem passes_found {t : Table} {q : t.Row → Bool} {f : Option t.Row → App β}
    (hf : ∀ r, Comes (Pays k) (f (some r)) Q) (hn : Comes (Pays k) (f none) Q) :
    Comes (Pays k) (findOne .pool t q >>= f) Q := by
  refine .seq fun o => ?_
  cases o with
  | some r => exact hf r
  | none => exact hn

variable [AesGcm] [TokenHash]

/-- A call that owes an entry returns nothing before it has written it. -/
theorem passes_code (hk : Owing k) : Comes (Pays k) (code k) fun _ => False := by
  cases k with
  | softDelete user c m =>
    exact .seq fun _ => .bind (passes_found (fun msg => .seq fun _ => .seq fun _ => .seq fun _ =>
      .bind (passes_audit fun _ _ => ⟨rfl, rfl, rfl⟩)) trivial)
  | report user m reason details =>
    exact .bind (passes_found (fun msg => .seq fun _ =>
      .bind (passes_audit fun _ _ => ⟨rfl, rfl, rfl⟩)) trivial)
  | resolve user r action =>
    exact .seq fun _ => .bind (passes_found (fun r => .seq fun _ => .seq fun _ => .seq fun _ =>
      .bind (passes_audit fun _ _ => ⟨rfl, rfl⟩)) trivial)
  | enableE2ee user c gid suite welcomes =>
    exact .seq fun _ => .bind (.seq fun _ => .seq fun _ => passes_transaction (.seq fun _ =>
      .seq fun _ => .seq fun _ => .seq fun _ => .bind (passes_audit fun _ _ => ⟨rfl, rfl, rfl⟩)))
  | enableSearch user c =>
    exact .seq fun _ => .bind (.seq fun _ => .seq fun _ => .seq fun _ => .seq fun _ =>
      .seq fun _ => .seq fun _ => .seq fun _ => .seq fun _ => .seq fun _ =>
        passes_audit fun _ _ => ⟨rfl, rfl⟩)
  | disableSearch user c =>
    exact .seq fun _ => .bind (.seq fun _ => .seq fun _ => .seq fun _ =>
      passes_audit fun _ _ => ⟨rfl, rfl⟩)
  | exportData user =>
    exact .bind (passes_found (fun u => .seq fun _ => .seq fun _ => .seq fun _ => .seq fun _ =>
      .seq fun _ => .seq fun _ => .bind (passes_audit fun _ _ => ⟨rfl, rfl, rfl⟩)) trivial)
  | anonymize user u =>
    exact .seq fun _ => .bind (.seq fun _ => passes_audit fun _ _ => ⟨rfl, rfl, rfl⟩)
  | _ => exact hk.elim

end Owed

end Messageries.Proofs
