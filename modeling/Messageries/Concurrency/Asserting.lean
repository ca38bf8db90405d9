import Messageries.Concurrency.RelyGuarantee

/-! What holds of each operation of a process when it comes to it. -/

namespace Messageries.Concurrency.Protocol

variable {Op : Type} {Res : Op → Type} {Err σ Input Event Call α β : Type}
variable (M : Machine Op Res Err σ Input Event Call α) (g : Nat → Op → σ → Prop)
variable (L : Protocol σ) (p : Nat) (C : Op → σ → Prop)

/-- As `Valid`, and `C` holds of every operation the program comes to. -/
inductive Asserts {β : Type} :
    (σ → Prop) → Prog Op Res Err β → (Except Err β → σ → Prop) → Prop
  | pure {φ : σ → Prop} {a : β} {Q : Except Err β → σ → Prop} :
      (∀ s, L.inv s → φ s → Q (.ok a) s) → Asserts φ (.pure a) Q
  | throw {φ : σ → Prop} {e : Err} {Q : Except Err β → σ → Prop} :
      (∀ s, L.inv s → φ s → Q (.error e) s) → Asserts φ (.throw e) Q
  | op {φ : σ → Prop} {o : Op} {k : Except Err (Res o) → Prog Op Res Err β}
      {Q : Except Err β → σ → Prop} (ψ : Except Err (Res o) → σ → Prop) :
      (∀ s, L.inv s → φ s → C o s) →
      (∀ i s r s', L.inv s → φ s → g p o s → M.exec p i o s = some (r, s') →
        L.inv s' ∧ L.guar (some p) s s' ∧ ψ r s') →
      (∀ r, L.Stable p (ψ r)) → (∀ r, Asserts (ψ r) (k r) Q) → Asserts φ (.op o k) Q

variable {M g L p C}

/-- A program whose operations are all fine with `C`. -/
theorem Valid.asserts {φ : σ → Prop} {x : Prog Op Res Err β} {Q : Except Err β → σ → Prop}
    (h : Valid M g L p φ x Q) (hx : x.Uses fun o => ∀ s, C o s) : Asserts M g L p C φ x Q := by
  induction h with
  | pure h => exact .pure h
  | throw h => exact .throw h
  | op ψ h hst _ ih => exact .op ψ (fun s _ _ => hx.1 s) h hst fun r => ih r (hx.2 r)

/-- A program where only the first operation has something to assert. -/
theorem Valid.asserts_first {φ : σ → Prop} {o : Op} {k : Except Err (Res o) → Prog Op Res Err β}
    {Q : Except Err β → σ → Prop} (h : Valid M g L p φ (.op o k) Q)
    (hc : ∀ s, L.inv s → φ s → C o s) (hk : ∀ r, (k r).Uses fun o => ∀ s, C o s) :
    Asserts M g L p C φ (.op o k) Q := by
  cases h with
  | op ψ h hst hv => exact .op ψ hc h hst fun r => (hv r).asserts (hk r)

namespace Asserts

theorem valid {φ : σ → Prop} {x : Prog Op Res Err β} {Q : Except Err β → σ → Prop}
    (h : Asserts M g L p C φ x Q) : Valid M g L p φ x Q := by
  induction h with
  | pure h => exact .pure h
  | throw h => exact .throw h
  | op ψ _ h hst _ ih => exact .op ψ h hst ih

theorem imp {C' : Op → σ → Prop} {φ : σ → Prop} {x : Prog Op Res Err β}
    {Q : Except Err β → σ → Prop} (h : Asserts M g L p C φ x Q) (hC : ∀ o s, C o s → C' o s) :
    Asserts M g L p C' φ x Q := by
  induction h with
  | pure h => exact .pure h
  | throw h => exact .throw h
  | op ψ hc h hst _ ih => exact .op ψ (fun s hs h' => hC _ s (hc s hs h')) h hst ih

theorem pre {φ φ' : σ → Prop} {x : Prog Op Res Err β} {Q : Except Err β → σ → Prop}
    (h : Asserts M g L p C φ x Q) (hφ : ∀ s, L.inv s → φ' s → φ s) :
    Asserts M g L p C φ' x Q := by
  cases h with
  | pure h => exact .pure fun s hs h' => h s hs (hφ s hs h')
  | throw h => exact .throw fun s hs h' => h s hs (hφ s hs h')
  | op ψ hc h hst hk =>
    exact .op ψ (fun s hs h' => hc s hs (hφ s hs h'))
      (fun i s r s' hs h' => h i s r s' hs (hφ s hs h')) hst hk

theorem post {φ : σ → Prop} {x : Prog Op Res Err β} {Q Q' : Except Err β → σ → Prop}
    (h : Asserts M g L p C φ x Q) (hQ : ∀ r s, L.inv s → Q r s → Q' r s) :
    Asserts M g L p C φ x Q' := by
  induction h with
  | pure h => exact .pure fun s hs h' => hQ _ s hs (h s hs h')
  | throw h => exact .throw fun s hs h' => hQ _ s hs (h s hs h')
  | op ψ hc h hst _ ih => exact .op ψ hc h hst fun r => ih r hQ

theorem bind {φ : σ → Prop} {x : Prog Op Res Err β} {γ : Type} {f : β → Prog Op Res Err γ}
    {Q : Except Err β → σ → Prop} {R : Except Err γ → σ → Prop}
    (hx : Asserts M g L p C φ x Q) (hf : ∀ b, Asserts M g L p C (Q (.ok b)) (f b) R)
    (he : ∀ e s, L.inv s → Q (.error e) s → R (.error e) s) :
    Asserts M g L p C φ (x >>= f) R := by
  induction hx with
  | pure h => exact (hf _).pre h
  | throw h => exact .throw fun s hs h' => he _ s hs (h s hs h')
  | op ψ hc h hst _ ih => exact .op ψ hc h hst fun r => ih r hf he

theorem tryCatch {φ : σ → Prop} {x : Prog Op Res Err β} {f : Err → Prog Op Res Err β}
    {Q R : Except Err β → σ → Prop} (hx : Asserts M g L p C φ x Q)
    (hf : ∀ e, Asserts M g L p C (Q (.error e)) (f e) R)
    (ha : ∀ b s, L.inv s → Q (.ok b) s → R (.ok b) s) :
    Asserts M g L p C φ (MonadExcept.tryCatch x f) R := by
  induction hx with
  | pure h => exact .pure fun s hs h' => ha _ s hs (h s hs h')
  | throw h => exact (hf _).pre h
  | op ψ hc h hst _ ih => exact .op ψ hc h hst fun r => ih r hf ha

theorem ite {φ : σ → Prop} {c : Prop} [Decidable c] {x y : Prog Op Res Err β}
    {Q : Except Err β → σ → Prop} (hx : c → Asserts M g L p C φ x Q)
    (hy : ¬c → Asserts M g L p C φ y Q) : Asserts M g L p C φ (if c then x else y) Q := by
  split
  · exact hx ‹_›
  · exact hy ‹_›

theorem forM {φ : σ → Prop} {xs : List β} {f : β → Prog Op Res Err PUnit}
    (hf : ∀ x ∈ xs, Asserts M g L p C φ (f x) fun _ => φ) :
    Asserts M g L p C φ (xs.forM f) fun _ => φ := by
  induction xs with
  | nil => exact .pure fun _ _ h => h
  | cons x xs ih =>
    exact (hf x (List.mem_cons_self ..)).bind
      (fun _ => ih fun y hy => hf y (List.mem_cons_of_mem _ hy)) fun _ _ _ h => h

theorem absurd {φ : σ → Prop} {x : Prog Op Res Err β} {Q : Except Err β → σ → Prop}
    (h : ∀ s, ¬φ s) : Asserts M g L p C φ x Q := by
  induction x generalizing φ with
  | pure a => exact .pure fun s _ h' => (h s h').elim
  | throw e => exact .throw fun s _ h' => (h s h').elim
  | op o k ih =>
    exact .op (fun _ _ => False) (fun s _ h' => (h s h').elim) (fun _ s _ _ _ h' => (h s h').elim)
      (fun _ _ _ _ _ _ _ _ h => h) fun r => ih r fun _ h => h

/-- What holds whatever the state may be taken out of the precondition. -/
theorem given {A : Prop} {φ : σ → Prop} {x : Prog Op Res Err β} {Q : Except Err β → σ → Prop}
    (h : A → Asserts M g L p C φ x Q) : Asserts M g L p C (fun s => A ∧ φ s) x Q := by
  by_cases ha : A
  · exact (h ha).pre fun _ _ h' => h'.2
  · exact .absurd fun _ h' => ha h'.1

/-- An assertion that no step falsifies can be carried along. -/
theorem frame {φ χ : σ → Prop} {x : Prog Op Res Err β} {Q : Except Err β → σ → Prop}
    (h : Asserts M g L p C φ x Q)
    (hχ : ∀ a s s', L.inv s → L.inv s' → L.guar a s s' → χ s → χ s') :
    Asserts M g L p C (fun s => φ s ∧ χ s) x (fun r s => Q r s ∧ χ s) := by
  induction h with
  | pure h => exact .pure fun s hs h' => ⟨h s hs h'.1, h'.2⟩
  | throw h => exact .throw fun s hs h' => ⟨h s hs h'.1, h'.2⟩
  | op ψ hc h hst _ ih =>
    refine .op (fun r s => ψ r s ∧ χ s) (fun s hs h' => hc s hs h'.1) (fun i s r s' hs h' hg hx => ?_)
      (fun r => (hst r).and fun a s s' _ hs hs' hg' => hχ a s s' hs hs' hg') ih
    obtain ⟨hs', hgu, hψ⟩ := h i s r s' hs h'.1 hg hx
    exact ⟨hs', hgu, hψ, hχ _ s s' hs hs' hgu h'.2⟩

end Asserts

section Sound

variable {Init : σ → Prop} {Start : Nat → Call → σ → Prop}
  {Post Q : Nat → Call → Except Err α → σ → Prop} {C : Nat → Call → Op → σ → Prop}
  {P : Pool Op Res Err σ Call α} {p : Nat} {k : Call}

/-- Every thread is at a point of its proof, assertions included. -/
theorem Sound.holds_asserts (h : Sound M g L Init Start Post)
    (hc : ∀ p k, Asserts M g L p (C p k) (Start p k) (M.code k) (Q p k))
    (hP : M.Reach Init g P) {x : Prog Op Res Err α} (ht : P.threads p = some ⟨k, some x⟩) :
    ∃ φ, L.Stable p φ ∧ φ P.shared ∧ Asserts M g L p (C p k) φ x (Q p k) := by
  induction hP generalizing p k x with
  | init _ => cases ht
  | @step P P' l hP hl hst ih =>
    have held := h.holds hP
    -- a step of another actor
    have kept : ∀ {a s'}, a ≠ some p → L.inv s' → L.guar a P.shared s' →
        P.threads p = some ⟨k, some x⟩ →
        ∃ φ, L.Stable p φ ∧ φ s' ∧ Asserts M g L p (C p k) φ x (Q p k) := by
      intro a s' ha hs' hg ht
      obtain ⟨φ, hφ, hw, hv⟩ := ih ht
      exact ⟨φ, hφ, hφ a _ _ ha held.1 hs' hg hw, hv⟩
    have other : ∀ {q}, p ≠ q → some q ≠ some p := fun e h => e (Option.some.inj h).symm
    rcases Machine.step_cases hst with ⟨q, k', s, rfl, -, hx, rfl⟩ |
      ⟨q, i, k', o, next, r, s, rfl, hq, hx, rfl⟩ | ⟨e, s, rfl, hx, rfl⟩ |
      ⟨q, k', o, next, rfl, -, rfl⟩
    · obtain ⟨hi, hg, hS⟩ := h.enter q k' _ s held.1 hx
      by_cases e : p = q
      · subst e
        cases (Pool.put_self ..).symm.trans ht
        exact ⟨_, h.start p k, hS, hc p k⟩
      · rw [Pool.put_of_ne _ _ _ e] at ht
        exact kept (other e) hi hg ht
    · by_cases e : p = q
      · subst e
        cases (Pool.put_self ..).symm.trans ht
        obtain ⟨φ, -, hφ, hv⟩ := ih hq
        cases hv with
        | op ψ _ hop hψ hk =>
          obtain ⟨-, -, hr⟩ := hop i _ r s held.1 hφ (hl p i k o next rfl hq) hx
          exact ⟨ψ r, hψ r, hr, hk r⟩
      · rw [Pool.put_of_ne _ _ _ e] at ht
        have hg := Sound.exec held hq (hl q i k' o next rfl hq) hx
        exact kept (other e) (h.step held hl hst).1.1 hg ht
    · obtain ⟨hi, hg⟩ := h.event e _ s held.1 hx
      have outside : (none : Option Nat) ≠ some p := nofun
      exact kept outside hi hg ht
    · obtain ⟨hi, hg⟩ := h.lose q _ held.1
      by_cases e : p = q
      · subst e
        cases (Pool.put_self ..).symm.trans ht
      · rw [Pool.put_of_ne _ _ _ e] at ht
        exact kept (other e) hi hg ht

/-- What every call asserts, holds in every run at the operations of its process. -/
theorem Sound.asserts (h : Sound M g L Init Start Post)
    (hc : ∀ p k, Asserts M g L p (C p k) (Start p k) (M.code k) (Q p k))
    (hP : M.Reach Init g P) {o : Op} {next : Except Err (Res o) → Prog Op Res Err α}
    (ht : P.threads p = some ⟨k, some (.op o next)⟩) : C p k o P.shared := by
  obtain ⟨φ, -, hφ, hv⟩ := h.holds_asserts hc hP ht
  cases hv with
  | op ψ ho _ _ _ => exact ho _ (h.inv hP) hφ

end Sound

end Messageries.Concurrency.Protocol
