import Mathlib.Data.List.Infix
import Messageries.Concurrency.Prog

namespace Messageries.Concurrency.Prog

variable {Op : Type} {Res : Op → Type} {Err σ Input α β : Type}
  (exec : Input → (o : Op) → σ → Option (Except Err (Res o) × σ)) (R : σ → σ → Prop)

/-- The program run amid others, which change the state as `R` says before each operation.  The
list holds the states its operations found. -/
inductive Amid : Prog Op Res Err α → σ → List σ → Except Err α → σ → Prop
  | pure {a : α} {s : σ} : Amid (.pure a) s [] (.ok a) s
  | throw {e : Err} {s : σ} : Amid (.throw e) s [] (.error e) s
  | op {o : Op} {k : Except Err (Res o) → Prog Op Res Err α} {i : Input} {s s₁ s₂ s' : σ}
      {a : Except Err (Res o)} {tr : List σ} {r : Except Err α} :
      R s s₁ → exec i o s₁ = some (a, s₂) → Amid (k a) s₂ tr r s' →
      Amid (.op o k) s (s₁ :: tr) r s'

namespace Amid

variable {exec R} {x : Prog Op Res Err α} {s s' : σ} {tr : List σ}

theorem of_pure {a : α} {r : Except Err α} (h : Amid exec R (Pure.pure a) s tr r s') :
    tr = [] ∧ r = .ok a ∧ s' = s := by
  cases h
  exact ⟨rfl, rfl, rfl⟩

theorem of_throw {e : Err} {r : Except Err α} (h : Amid exec R (MonadExcept.throw e) s tr r s') :
    r = .error e := by
  cases h
  rfl

theorem of_perform {o : Op} {r : Except Err (Res o)} (h : Amid exec R (perform o) s tr r s') :
    ∃ s₁ i, tr = [s₁] ∧ R s s₁ ∧ exec i o s₁ = some (r, s') := by
  cases h with
  | @op _ _ i _ s₁ _ _ a _ _ hR hx hk =>
    refine ⟨s₁, i, ?_⟩
    cases a <;> cases hk <;> exact ⟨rfl, hR, hx⟩

theorem of_bind {f : α → Prog Op Res Err β} {r : Except Err β}
    (h : Amid exec R (x >>= f) s tr r s') :
    (∃ a s₁ tr₁ tr₂, tr = tr₁ ++ tr₂ ∧ Amid exec R x s tr₁ (.ok a) s₁ ∧
      Amid exec R (f a) s₁ tr₂ r s') ∨
    ∃ e, r = .error e ∧ Amid exec R x s tr (.error e) s' := by
  induction x generalizing s tr with
  | pure a => exact .inl ⟨a, s, [], tr, rfl, .pure, h⟩
  | throw e =>
    cases h
    exact .inr ⟨e, rfl, .throw⟩
  | op o k ih =>
    change Amid exec R (.op o fun a => k a >>= f) s tr r s' at h
    cases h with
    | op hR hx hk =>
      rcases ih _ hk with ⟨a, s₁, tr₁, tr₂, rfl, h₁, h₂⟩ | ⟨e, rfl, h₁⟩
      · exact .inl ⟨a, s₁, _ :: tr₁, tr₂, rfl, .op hR hx h₁, h₂⟩
      · exact .inr ⟨e, rfl, .op hR hx h₁⟩

/-- A sequence that returned a value. -/
theorem of_seq {f : α → Prog Op Res Err β} {b : β} (h : Amid exec R (x >>= f) s tr (.ok b) s') :
    ∃ a s₁ tr₁ tr₂, tr = tr₁ ++ tr₂ ∧ Amid exec R x s tr₁ (.ok a) s₁ ∧
      Amid exec R (f a) s₁ tr₂ (.ok b) s' :=
  h.of_bind.resolve_right fun ⟨_, he, _⟩ => nomatch he

theorem of_tryCatch {f : Err → Prog Op Res Err α} {r : Except Err α}
    (h : Amid exec R (MonadExcept.tryCatch x f) s tr r s') :
    (∃ a, r = .ok a ∧ Amid exec R x s tr (.ok a) s') ∨
    ∃ e s₁ tr₁ tr₂, tr = tr₁ ++ tr₂ ∧ Amid exec R x s tr₁ (.error e) s₁ ∧
      Amid exec R (f e) s₁ tr₂ r s' := by
  induction x generalizing s tr with
  | pure a =>
    cases h
    exact .inl ⟨a, rfl, .pure⟩
  | throw e => exact .inr ⟨e, s, [], tr, rfl, .throw, h⟩
  | op o k ih =>
    change Amid exec R (.op o fun a => MonadExcept.tryCatch (k a) f) s tr r s' at h
    cases h with
    | op hR hx hk =>
      rcases ih _ hk with ⟨a, rfl, h₁⟩ | ⟨e, s₁, tr₁, tr₂, rfl, h₁, h₂⟩
      · exact .inl ⟨a, rfl, .op hR hx h₁⟩
      · exact .inr ⟨e, s₁, _ :: tr₁, tr₂, rfl, .op hR hx h₁, h₂⟩

/-- Runs in sequence. -/
theorem bind {f : α → Prog Op Res Err β} {s₁ : σ} {a : α} {tr₁ tr₂ : List σ} {r : Except Err β}
    (h : Amid exec R x s tr₁ (.ok a) s₁) (h' : Amid exec R (f a) s₁ tr₂ r s') :
    Amid exec R (x >>= f) s (tr₁ ++ tr₂) r s' := by
  induction x generalizing s tr₁ with
  | pure b =>
    cases h
    exact h'
  | throw e => cases h
  | op o k ih =>
    cases h with
    | op hR hx hk => exact .op hR hx (ih _ hk)

/-- A loop that came to its end ran its body for each element. -/
theorem of_forM {f : α → Prog Op Res Err PUnit} {xs : List α} {a : α} {u : PUnit}
    (h : Amid exec R (xs.forM f) s tr (.ok u) s') (ha : a ∈ xs) :
    ∃ before after s₁ s₂ tr₁ tr₂ tr₃, tr = tr₁ ++ tr₂ ++ tr₃ ∧
      Amid exec R (List.forM before f) s tr₁ (.ok ⟨⟩) s₁ ∧
      Amid exec R (f a) s₁ tr₂ (.ok ⟨⟩) s₂ ∧
      Amid exec R (List.forM after f) s₂ tr₃ (.ok ⟨⟩) s' := by
  induction xs generalizing s tr with
  | nil => cases ha
  | cons b xs ih =>
    change Amid exec R (f b >>= fun _ => xs.forM f) s tr (.ok u) s' at h
    obtain ⟨_, s₁, tr₁, tr₂, rfl, hb, hxs⟩ := h.of_seq
    rcases List.mem_cons.1 ha with rfl | ha
    · exact ⟨[], xs, s, s₁, [], tr₁, tr₂, rfl, .pure, hb, hxs⟩
    · obtain ⟨before, after, s₂, s₃, t₁, t₂, t₃, rfl, h₁, h₂, h₃⟩ := ih hxs ha
      have first : Amid exec R (List.forM (b :: before) f) s (tr₁ ++ t₁) (.ok ⟨⟩) s₂ :=
        hb.bind h₁
      refine ⟨b :: before, after, s₂, s₃, tr₁ ++ t₁, t₂, t₃, ?_, first, h₂, h₃⟩
      simp only [List.append_assoc]

/-- What the others and the operations of the program keep. -/
theorem keeps {P : Op → Prop} {φ : σ → Prop} {r : Except Err α} (h : Amid exec R x s tr r s')
    (hx : x.Uses P) (hR : ∀ s s', φ s → R s s' → φ s')
    (hP : ∀ i o s r s', P o → φ s → exec i o s = some (r, s') → φ s') (hs : φ s) :
    φ s' ∧ ∀ t ∈ tr, φ t := by
  induction h with
  | pure => exact ⟨hs, nofun⟩
  | throw => exact ⟨hs, nofun⟩
  | op hr hex _ ih =>
    have found := hR _ _ hs hr
    obtain ⟨last, rest⟩ := ih (hx.2 _) (hP _ _ _ _ _ hx.1 found hex)
    exact ⟨last, List.forall_mem_cons.2 ⟨found, rest⟩⟩

/-- A program that runs alone runs amid others that do nothing. -/
theorem of_eval {i : Input} {r : Except Err α} (hR : ∀ s, R s s)
    (h : x.eval (exec i) s = some (r, s')) : ∃ tr, Amid exec R x s tr r s' := by
  induction x generalizing s with
  | pure a =>
    cases h
    exact ⟨[], .pure⟩
  | throw e =>
    cases h
    exact ⟨[], .throw⟩
  | op o k ih =>
    simp only [eval] at h
    split at h
    · rename_i a s₂ hx
      obtain ⟨tr, hk⟩ := ih a h
      exact ⟨s :: tr, .op (hR s) hx hk⟩
    · cases h

end Amid

end Messageries.Concurrency.Prog
