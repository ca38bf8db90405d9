import Messageries.Concurrency.Following

/-! Operations that a program cannot return without. -/

namespace Messageries.Concurrency

variable {Op : Type} {Res : Op → Type} {Err σ Input Event Call α β : Type}

namespace Prog

/-- The program performs an operation of `D` before it returns a value without `Q`, when its
operations are answered as `A` admits. -/
def Passes (D : Op → Prop) (A : (o : Op) → Except Err (Res o) → Prop) :
    Prog Op Res Err α → (α → Prop) → Prop
  | .pure a, Q => Q a
  | .throw _, _ => True
  | .op o k, Q => D o ∨ ∀ r, A o r → (k r).Passes D A Q

namespace Passes

variable {D : Op → Prop} {A : (o : Op) → Except Err (Res o) → Prop} {Q : β → Prop}

theorem chain {x : Prog Op Res Err α} {f : α → Prog Op Res Err β}
    (h : x.Passes D A fun a => (f a).Passes D A Q) : (x >>= f).Passes D A Q := by
  induction x with
  | pure a => exact h
  | throw e => trivial
  | op o k ih => exact h.imp_right fun h r hr => ih r (h r hr)

theorem mono {x : Prog Op Res Err β} {Q' : β → Prop} (h : x.Passes D A Q) (hQ : ∀ b, Q b → Q' b) :
    x.Passes D A Q' := by
  induction x with
  | pure b => exact hQ b h
  | throw e => trivial
  | op o k ih => exact h.imp_right fun h r hr => ih r (h r hr)

theorem free {x : Prog Op Res Err β} (hQ : ∀ b, Q b) : x.Passes D A Q := by
  induction x with
  | pure b => exact hQ b
  | throw e => trivial
  | op o k ih => exact .inr fun r _ => ih r

theorem bind {x : Prog Op Res Err α} {f : α → Prog Op Res Err β}
    (hx : x.Passes D A fun _ => False) : (x >>= f).Passes D A Q :=
  chain (hx.mono fun _ => False.elim)

theorem seq {x : Prog Op Res Err α} {f : α → Prog Op Res Err β}
    (hf : ∀ a, (f a).Passes D A Q) : (x >>= f).Passes D A Q :=
  chain (free hf)

theorem ite {c : Prop} [Decidable c] {x y : Prog Op Res Err β} (hx : c → x.Passes D A Q)
    (hy : ¬c → y.Passes D A Q) : (if c then x else y).Passes D A Q := by
  split
  · exact hx ‹_›
  · exact hy ‹_›

/-- What is caught before the operation has to come to it as well. -/
theorem tryCatch {x : Prog Op Res Err β} {f : Err → Prog Op Res Err β} (hx : x.Passes D A Q)
    (hf : ∀ e, (f e).Passes D A Q) : (MonadExcept.tryCatch x f).Passes D A Q := by
  induction x with
  | pure a => exact hx
  | throw e => exact hf e
  | op o k ih => exact hx.imp_right fun h r hr => ih r (h r hr)

end Passes

end Prog

namespace Machine

variable {M : Machine Op Res Err σ Input Event Call α} {P P' : Pool Op Res Err σ Call α}
  {l : Label Input Event Call} {p : Nat}

/-- A process serves the call it came in with. -/
theorem thread_stays (h : M.step l P = some P') {t : Thread Op Res Err Call α}
    (ht : P.threads p = some t) : ∃ t', P'.threads p = some t' ∧ t'.call = t.call := by
  have put : ∀ {s : σ} {q : Nat} {u : Thread Op Res Err Call α}, (q = p → u.call = t.call) →
      ∃ t', (P.put s q u).threads p = some t' ∧ t'.call = t.call := by
    intro s q u hu
    by_cases e : p = q
    · subst e
      exact ⟨u, Pool.put_self .., hu rfl⟩
    · exact ⟨t, (Pool.put_of_ne _ _ _ e).trans ht, rfl⟩
  rcases step_cases h with ⟨q, k, s, rfl, hq, -, rfl⟩ | ⟨q, i, k, o, next, r, s, rfl, hq, -, rfl⟩ |
    ⟨x, s, rfl, -, rfl⟩ | ⟨q, k, o, next, rfl, hq, rfl⟩
  · refine put fun e => ?_
    subst e
    cases hq.symm.trans ht
  · refine put fun e => ?_
    subst e
    cases hq.symm.trans ht
    rfl
  · exact ⟨t, ht, rfl⟩
  · refine put fun e => ?_
    subst e
    cases hq.symm.trans ht
    rfl

section Bound

variable {D : Call → Op → Prop} {A : (o : Op) → Except Err (Res o) → Prop} {O : Call → Prop}
  {Q : α → Prop}

/-- What process `p` still has to do, if it serves a call of `O`. -/
def Bound (O : Call → Prop) (D : Call → Op → Prop) (A : (o : Op) → Except Err (Res o) → Prop)
    (Q : α → Prop) (p : Nat) (P : Pool Op Res Err σ Call α) : Prop :=
  ∀ k x, P.threads p = some ⟨k, some x⟩ → O k → x.Passes (D k) A Q

/-- It performs an operation of `D` in this step, or still has to. -/
theorem Bound.step (h : Bound O D A Q p P) (hD : ∀ k, O k → (M.code k).Passes (D k) A Q)
    (hst : M.step l P = some P')
    (hA : ∀ i o r s, M.exec p i o P.shared = some (r, s) → A o r) :
    Bound O D A Q p P' ∨ ∃ i k o next r s, P.threads p = some ⟨k, some (.op o next)⟩ ∧ O k ∧
      D k o ∧ M.exec p i o P.shared = some (r, s) ∧ P' = P.put s p ⟨k, some (next r)⟩ := by
  have others {s : σ} {q : Nat} {t : Thread Op Res Err Call α} (e : p ≠ q) :
      Bound O D A Q p (P.put s q t) := by
    intro k x ht
    rw [Pool.put_of_ne _ _ _ e] at ht
    exact h k x ht
  rcases step_cases hst with ⟨q, k', s, -, -, -, rfl⟩ | ⟨q, i, k', o, next, r, s, -, hq, hx, rfl⟩ |
    ⟨e, s, -, -, rfl⟩ | ⟨q, k', o, next, -, -, rfl⟩
  · by_cases e : p = q
    · subst e
      refine .inl fun k x ht hk => ?_
      rw [Pool.put_self] at ht
      cases ht
      exact hD _ hk
    · exact .inl (others e)
  · by_cases e : p = q
    · subst e
      by_cases hk : O k'
      · rcases h k' _ hq hk with ho | rest
        · exact .inr ⟨i, k', o, next, r, s, hq, hk, ho, hx, rfl⟩
        · refine .inl fun k x ht _ => ?_
          rw [Pool.put_self] at ht
          cases ht
          exact rest r (hA i o r s hx)
      · refine .inl fun k x ht hk' => ?_
        rw [Pool.put_self] at ht
        cases ht
        exact (hk hk').elim
    · exact .inl (others e)
  · exact .inl h
  · by_cases e : p = q
    · subst e
      refine .inl fun k x ht => ?_
      rw [Pool.put_self] at ht
      cases ht
    · exact .inl (others e)

end Bound

variable {Init : σ → Prop} {R : Nat → Op → σ → Prop}

/-- The operation did what it is for in a run that began at `s`, or was answered with an error. -/
def Settled (M : Machine Op Res Err σ Input Event Call α) (R : Nat → Op → σ → Prop) (s : σ)
    (p : Nat) (P : Pool Op Res Err σ Call α) (o : Op) : Prop :=
  R p o P.shared ∨ M.Refused p o ⟨s, fun _ => none⟩ P

/-- A process returns nothing before an operation of `D` is settled, when what such an operation
does lasts. -/
theorem Reachable.passed {D : Call → Op → Prop} {O : Call → Prop}
    (hD : ∀ k, O k → (M.code k).Passes (D k) (fun _ _ => True) fun _ => False)
    (lasts : ∀ {P P' : Pool Op Res Err σ Call α} {l p o}, M.Reachable Init P →
      M.step l P = some P' → R p o P.shared → R p o P'.shared)
    (does : ∀ {P : Pool Op Res Err σ Call α} {p i k o next a s}, M.Reachable Init P →
      P.threads p = some ⟨k, some (.op o next)⟩ → D k o →
        M.exec p i o P.shared = some (.ok a, s) → R p o s)
    {s : σ} (h : M.Later ⟨s, fun _ => none⟩ P) (hs : Init s) {a : α} {k : Call}
    (ht : P.threads p = some ⟨k, some (.pure a)⟩) (hk : O k) :
    ∃ o, D k o ∧ M.Settled R s p P o := by
  suffices passed : Bound O D (fun _ _ => True) (fun _ => False) p P ∨
      ∃ t o, P.threads p = some t ∧ D t.call o ∧ M.Settled R s p P o by
    rcases passed with bound | ⟨t, o, ht', ho, settled⟩
    · exact (bound k _ ht hk).elim
    · cases ht.symm.trans ht'
      exact ⟨o, ho, settled⟩
  clear ht
  induction h with
  | refl => exact .inl fun _ _ ht => nomatch ht
  | @step P P' l hl _ hst ih =>
    have hP : M.Reachable Init P := (Reach.init hs).leads hl
    have more : M.Later P P' := .step l .refl (fun _ _ _ _ _ _ _ => trivial) hst
    rcases ih with bound | ⟨t, o, ht, ho, settled⟩
    · refine (bound.step hD hst fun _ _ _ _ _ => trivial).imp_right ?_
      rintro ⟨i, k, o, next, r, s, ht, -, ho, hx, rfl⟩
      refine ⟨_, o, Pool.put_self .., ho, ?_⟩
      cases r with
      | ok a => exact .inl (does hP ht ho hx)
      | error e => exact .inr (hl.refused ht hx)
    · obtain ⟨t', ht', same⟩ := thread_stays hst ht
      exact .inr ⟨t', o, ht', same ▸ ho, settled.imp (lasts hP hst) fun h => h.later more⟩

end Machine

end Messageries.Concurrency
