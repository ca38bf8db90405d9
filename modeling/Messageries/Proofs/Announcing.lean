import Messageries.Concurrency.Settling
import Messageries.Proofs.Access

set_option linter.unusedSectionVars false

/-! What the API announces to its clients before it answers. -/

namespace Messageries.Proofs

open Text Relational Database Crypto Concurrency Backend

/-- What a call with this answer announces. -/
def Heralds : Call → Response → Broadcast → Prop
  | .send _ _ _ _, .message m, b =>
    b = .created m.id m.conversationId m.senderId m.sequence m.body m.createdAt
  | .markRead user c upto, _, b => b = .read c user.sub upto
  | .softDelete _ _ m, _, b => ∃ c n, b = .deleted m c n
  | _, _, _ => False

/-- The calls that announce what they did. -/
def Heralding : Call → Prop
  | .send _ _ _ _ | .markRead _ _ _ | .softDelete _ _ _ => True
  | _ => False

/-- The operation tells the clients what the call announces when it answers with `r`. -/
def Proclaims (k : Call) (r : Response) (o : Op) : Prop := ∃ b, o = .emit b ∧ Heralds k r b

/-- How the operations are answered while the API emits to the rooms itself. -/
def Admitted : (o : Op) → Except Err o.Res → Prop
  | .settings, r => ∀ cfg : Settings, r = .ok cfg → cfg.wsGatewayDedicated = false
  | .query .pool (.select t q), r => ∀ rows : List t.Row, r = .ok rows → ∀ x ∈ rows, ∃ v now,
      q v now x = true
  | _, _ => True

theorem admitted_exec [AesGcm] [TokenHash] {p : Nat} {i : Input} {o : Op} {r : Except Err o.Res}
    {w w' : World} (h : World.exec p i o w = some (r, w'))
    (hw : w.settings.wsGatewayDedicated = false) : Admitted o r := by
  unfold Admitted
  split
  · cases h
    rintro cfg ⟨⟩
    exact hw
  · obtain ⟨-, rfl | rfl⟩ := exec_select h
    · rintro rows ⟨⟩ x hx
      exact ⟨_, _, (List.mem_filter.1 hx).2⟩
    · rintro rows ⟨⟩
  · trivial

section Code

variable {D : Op → Prop} {α : Type} {Q : α → Prop}

theorem passes_broadcast {b : Broadcast} (h : D (.emit b)) :
    (broadcast b).Passes D Admitted fun _ => False := by
  refine .inr fun r hr => ?_
  cases r with
  | error e => trivial
  | ok cfg =>
    have own : (cfg : Settings).wsGatewayDedicated = false := hr cfg rfl
    change (if (cfg : Settings).wsGatewayDedicated then (return () : App Unit)
      else perform (.emit b)).Passes D Admitted fun _ => False
    rw [own]
    exact .inl h

theorem passes_read {t : Table} {q : t.Row → Bool} {f : Option t.Row → App α}
    (hf : ∀ r, q r = true → (f (some r)).Passes D Admitted Q)
    (hn : (f none).Passes D Admitted Q) : (findOne .pool t q >>= f).Passes D Admitted Q := by
  refine .chain (.inr fun r hr => ?_)
  cases r with
  | error e => trivial
  | ok rows =>
    change (f (rows : List t.Row).head?).Passes D Admitted Q
    cases hrows : (rows : List t.Row).head? with
    | none => exact hn
    | some x =>
      obtain ⟨v, now, hx⟩ := hr rows rfl x (List.mem_of_mem_head? hrows)
      exact hf x hx

variable [AesGcm] [TokenHash]

/-- A call that announces what it did answers nothing before. -/
theorem passes_heralding {k : Call} (hk : Heralding k) (r : Response) :
    (code k).Passes (Proclaims k r) Admitted (· ≠ r) := by
  cases k with
  | send user c body key =>
    refine .seq fun _ => .chain (.seq fun cfg => .seq fun _ => .seq fun _ => .seq fun cols =>
      .seq fun m => .seq fun d => ?_)
    by_cases hr : .message d = r
    · subst hr
      exact .bind (passes_broadcast ⟨_, rfl, rfl⟩)
    · exact .seq fun _ => hr
  | markRead user c upto =>
    exact .seq fun _ => .bind (.seq fun _ => passes_broadcast ⟨_, rfl, rfl⟩)
  | softDelete user c m =>
    refine .seq fun _ => .bind (passes_read (fun msg hm => .seq fun _ => .seq fun t =>
      .seq fun _ => .seq fun _ => passes_broadcast ⟨_, rfl, ?_⟩) trivial)
    obtain rfl : msg.id = m := beq_iff_eq.1 hm
    exact ⟨_, _, rfl⟩
  | _ => exact hk.elim

end Code

end Messageries.Proofs
