import Mathlib.Logic.Function.Basic

namespace Messageries.Concurrency

/-- A program cut at its primitive operations.  Between two operations of one
program any other program may run; an operation answers a value or an error. -/
inductive Prog (Op : Type) (Res : Op → Type) (Err : Type) (α : Type) : Type
  | pure : α → Prog Op Res Err α
  | throw : Err → Prog Op Res Err α
  | op : (o : Op) → (Except Err (Res o) → Prog Op Res Err α) → Prog Op Res Err α

namespace Prog

variable {Op : Type} {Res : Op → Type} {Err α β : Type}

def bind : Prog Op Res Err α → (α → Prog Op Res Err β) → Prog Op Res Err β
  | .pure a, f => f a
  | .throw e, _ => .throw e
  | .op o k, f => .op o fun r => (k r).bind f

/-- `catch` sees the errors thrown by the body, those of its operations included. -/
def tryCatch : Prog Op Res Err α → (Err → Prog Op Res Err α) → Prog Op Res Err α
  | .pure a, _ => .pure a
  | .throw e, h => h e
  | .op o k, h => .op o fun r => (k r).tryCatch h

def perform (o : Op) : Prog Op Res Err (Res o) :=
  .op o fun
    | .ok r => .pure r
    | .error e => .throw e

instance : Monad (Prog Op Res Err) where
  pure := .pure
  bind := bind

instance : MonadExcept Err (Prog Op Res Err) where
  throw := .throw
  tryCatch := tryCatch

/-- Every operation the program can come to satisfies `P`. -/
def Uses (P : Op → Prop) : Prog Op Res Err α → Prop
  | .pure _ => True
  | .throw _ => True
  | .op o k => P o ∧ ∀ r, (k r).Uses P

section Uses

variable {P : Op → Prop}

@[simp] theorem uses_pure (a : α) : (Pure.pure a : Prog Op Res Err α).Uses P := trivial

@[simp] theorem uses_throw (e : Err) : (MonadExcept.throw e : Prog Op Res Err α).Uses P := trivial

@[simp] theorem uses_perform (o : Op) : (perform o : Prog Op Res Err (Res o)).Uses P ↔ P o := by
  constructor
  · intro h
    exact h.1
  · intro h
    refine ⟨h, fun r => ?_⟩
    cases r <;> trivial

theorem uses_true (x : Prog Op Res Err α) : x.Uses fun _ => True := by
  induction x with
  | pure a => trivial
  | throw e => trivial
  | op o k ih => exact ⟨trivial, ih⟩

theorem Uses.bind {x : Prog Op Res Err α} {f : α → Prog Op Res Err β}
    (hx : x.Uses P) (hf : ∀ a, (f a).Uses P) : (x >>= f).Uses P := by
  induction x with
  | pure a => exact hf a
  | throw e => trivial
  | op o k ih => exact ⟨hx.1, fun r => ih r (hx.2 r)⟩

theorem Uses.of_bind {x : Prog Op Res Err α} {f : α → Prog Op Res Err β}
    (h : (x >>= f).Uses P) : x.Uses P := by
  induction x with
  | pure a => trivial
  | throw e => trivial
  | op o k ih => exact ⟨h.1, fun r => ih r (h.2 r)⟩

theorem Uses.tryCatch {x : Prog Op Res Err α} {h : Err → Prog Op Res Err α}
    (hx : x.Uses P) (hh : ∀ e, (h e).Uses P) : (MonadExcept.tryCatch x h).Uses P := by
  induction x with
  | pure a => trivial
  | throw e => exact hh e
  | op o k ih => exact ⟨hx.1, fun r => ih r (hx.2 r)⟩

theorem Uses.ite {c : Prop} [Decidable c] {x y : Prog Op Res Err α}
    (hx : c → x.Uses P) (hy : ¬c → y.Uses P) : (if c then x else y).Uses P := by
  split
  · exact hx ‹_›
  · exact hy ‹_›

theorem Uses.each {xs : List α} {f : α → Prog Op Res Err PUnit}
    (hf : ∀ x ∈ xs, (f x).Uses P) : (xs.forM f).Uses P := by
  induction xs with
  | nil => trivial
  | cons x xs ih =>
    exact (hf x List.mem_cons_self).bind fun _ => ih fun y hy => hf y (List.mem_cons_of_mem x hy)

theorem Uses.forM {xs : List α} {f : α → Prog Op Res Err PUnit}
    (hf : ∀ x, (f x).Uses P) : (xs.forM f).Uses P :=
  .each fun x _ => hf x

theorem Uses.mono {Q : Op → Prop} (h : ∀ o, P o → Q o) {x : Prog Op Res Err α}
    (hx : x.Uses P) : x.Uses Q := by
  induction x with
  | pure a => trivial
  | throw e => trivial
  | op o k ih => exact ⟨h o hx.1, fun r => ih r (hx.2 r)⟩

end Uses

/-- The program throws only errors of `P`, if its operations do. -/
def Throws (P : Err → Prop) : Prog Op Res Err α → Prop
  | .pure _ => True
  | .throw e => P e
  | .op _ k => ∀ r, (∀ e, r = .error e → P e) → (k r).Throws P

section Throws

variable {P : Err → Prop}

theorem throws_perform (o : Op) : (perform o : Prog Op Res Err (Res o)).Throws P := by
  intro r hr
  cases r with
  | ok a => trivial
  | error e => exact hr e rfl

theorem Throws.bind {x : Prog Op Res Err α} {f : α → Prog Op Res Err β}
    (hx : x.Throws P) (hf : ∀ a, (f a).Throws P) : (x >>= f).Throws P := by
  induction x with
  | pure a => exact hf a
  | throw e => exact hx
  | op o k ih => exact fun r hr => ih r (hx r hr)

theorem Throws.tryCatch {x : Prog Op Res Err α} {h : Err → Prog Op Res Err α}
    (hx : x.Throws P) (hh : ∀ e, P e → (h e).Throws P) :
    (MonadExcept.tryCatch x h).Throws P := by
  induction x with
  | pure a => trivial
  | throw e => exact hh e hx
  | op o k ih => exact fun r hr => ih r (hx r hr)

theorem Throws.ite {c : Prop} [Decidable c] {x y : Prog Op Res Err α}
    (hx : c → x.Throws P) (hy : ¬c → y.Throws P) : (if c then x else y).Throws P := by
  split
  · exact hx ‹_›
  · exact hy ‹_›

end Throws

/-- Every value the program returns satisfies `Q`, whatever its operations answer. -/
def Returns (Q : α → Prop) : Prog Op Res Err α → Prop
  | .pure a => Q a
  | .throw _ => True
  | .op _ k => ∀ r, (k r).Returns Q

section Returns

variable {Q : α → Prop} {R : β → Prop}

theorem returns_true (x : Prog Op Res Err α) : x.Returns fun _ => True := by
  induction x with
  | pure a => trivial
  | throw e => trivial
  | op o k ih => exact ih

theorem Returns.bind {x : Prog Op Res Err α} {f : α → Prog Op Res Err β}
    (hx : x.Returns Q) (hf : ∀ a, Q a → (f a).Returns R) : (x >>= f).Returns R := by
  induction x with
  | pure a => exact hf a hx
  | throw e => trivial
  | op o k ih => exact fun r => ih r (hx r)

theorem Returns.mono {Q' : α → Prop} {x : Prog Op Res Err α} (hx : x.Returns Q)
    (h : ∀ a, Q a → Q' a) : x.Returns Q' := by
  induction x with
  | pure a => exact h a hx
  | throw e => trivial
  | op o k ih => exact fun r => ih r (hx r)

/-- What follows returns it whatever the first part returns. -/
theorem Returns.seq {x : Prog Op Res Err α} {f : α → Prog Op Res Err β}
    (hf : ∀ a, (f a).Returns R) : (x >>= f).Returns R :=
  (returns_true x).bind fun a _ => hf a

end Returns

/-- The program run alone to its end: `exec` answers each operation, and `none`
is a program that waits for ever. -/
def eval {σ : Type} (exec : (o : Op) → σ → Option (Except Err (Res o) × σ)) :
    Prog Op Res Err α → σ → Option (Except Err α × σ)
  | .pure a, s => some (.ok a, s)
  | .throw e, s => some (.error e, s)
  | .op o k, s =>
    match exec o s with
    | some (r, s') => (k r).eval exec s'
    | none => none

section Eval

variable {σ : Type} (exec : (o : Op) → σ → Option (Except Err (Res o) × σ))

theorem eval_bind {x : Prog Op Res Err α} {f : α → Prog Op Res Err β} {s s' : σ}
    {r : Except Err α} : x.eval exec s = some (r, s') →
    (x >>= f).eval exec s = match r with
      | .ok a => (f a).eval exec s'
      | .error e => some (.error e, s') := by
  intro h
  induction x generalizing s with
  | pure a =>
    cases h
    rfl
  | throw e =>
    cases h
    rfl
  | op o k ih =>
    change eval exec (.op o fun r => k r >>= f) s = _
    simp only [eval] at h ⊢
    split at h
    · exact ih _ h
    · cases h

/-- Where the program ends when it runs alone from a state `φ` holds of. -/
def Ends (φ : σ → Prop) (x : Prog Op Res Err α) (Q : Except Err α → σ → Prop) : Prop :=
  ∀ s r s', φ s → x.eval exec s = some (r, s') → Q r s'

variable {exec}

theorem Ends.pure {φ : σ → Prop} {a : α} : Ends exec φ (Pure.pure a) fun r s => r = .ok a ∧ φ s := by
  intro s r s' hs h
  cases h
  exact ⟨rfl, hs⟩

theorem Ends.throw {φ : σ → Prop} {e : Err} :
    Ends exec φ (MonadExcept.throw e : Prog Op Res Err α) fun r s => r = .error e ∧ φ s := by
  intro s r s' hs h
  cases h
  exact ⟨rfl, hs⟩

theorem Ends.post {φ : σ → Prop} {x : Prog Op Res Err α} {Q Q' : Except Err α → σ → Prop}
    (h : Ends exec φ x Q) (hQ : ∀ r s, Q r s → Q' r s) : Ends exec φ x Q' :=
  fun s r s' hs he => hQ r s' (h s r s' hs he)

theorem Ends.pre {φ φ' : σ → Prop} {x : Prog Op Res Err α} {Q : Except Err α → σ → Prop}
    (h : Ends exec φ x Q) (hφ : ∀ s, φ' s → φ s) : Ends exec φ' x Q :=
  fun s r s' hs => h s r s' (hφ s hs)

theorem Ends.perform {φ : σ → Prop} {o : Op} {Q : Except Err (Res o) → σ → Prop}
    (h : ∀ s r s', φ s → exec o s = some (r, s') → Q r s') :
    Ends exec φ (Prog.perform o) Q := by
  intro s r s' hs he
  simp only [Prog.perform, eval] at he
  split at he
  · rename_i r₀ s₀ hx
    have done := h s r₀ s₀ hs hx
    cases r₀ with
    | ok a =>
      cases he
      exact done
    | error e =>
      cases he
      exact done
  · cases he

theorem Ends.bind {φ : σ → Prop} {x : Prog Op Res Err α} {f : α → Prog Op Res Err β}
    {Q : Except Err α → σ → Prop} {R : Except Err β → σ → Prop} (hx : Ends exec φ x Q)
    (hf : ∀ a, Ends exec (Q (.ok a)) (f a) R) (he : ∀ e s, Q (.error e) s → R (.error e) s) :
    Ends exec φ (x >>= f) R := by
  intro s r s' hs h
  replace hx := fun r s' => hx s r s' hs
  clear hs
  induction x generalizing s with
  | pure a => exact hf a s r s' (hx _ _ rfl) h
  | throw e =>
    cases h
    exact he e _ (hx _ _ rfl)
  | op o k ih =>
    change eval exec (.op o fun r => k r >>= f) s = some (r, s') at h
    simp only [eval] at h
    split at h
    · rename_i r₀ s₁ hr
      exact ih r₀ s₁ h fun r₁ s₂ h₂ => hx r₁ s₂ (by simpa only [eval, hr] using h₂)
    · cases h

theorem Ends.tryCatch {φ : σ → Prop} {x : Prog Op Res Err α} {f : Err → Prog Op Res Err α}
    {Q R : Except Err α → σ → Prop} (hx : Ends exec φ x Q)
    (hf : ∀ e, Ends exec (Q (.error e)) (f e) R) (ha : ∀ a s, Q (.ok a) s → R (.ok a) s) :
    Ends exec φ (MonadExcept.tryCatch x f) R := by
  intro s r s' hs h
  replace hx := fun r s' => hx s r s' hs
  clear hs
  induction x generalizing s with
  | pure a =>
    cases h
    exact ha a _ (hx _ _ rfl)
  | throw e => exact hf e s r s' (hx _ _ rfl) h
  | op o k ih =>
    change eval exec (.op o fun r => MonadExcept.tryCatch (k r) f) s = some (r, s') at h
    simp only [eval] at h
    split at h
    · rename_i r₀ s₁ hr
      exact ih r₀ s₁ h fun r₁ s₂ h₂ => hx r₁ s₂ (by simpa only [eval, hr] using h₂)
    · cases h

theorem Ends.ite {φ : σ → Prop} {c : Prop} [Decidable c] {x y : Prog Op Res Err α}
    {Q : Except Err α → σ → Prop} (hx : c → Ends exec φ x Q) (hy : ¬c → Ends exec φ y Q) :
    Ends exec φ (if c then x else y) Q := by
  split
  · exact hx ‹_›
  · exact hy ‹_›

theorem Ends.absurd {φ : σ → Prop} {x : Prog Op Res Err α} {Q : Except Err α → σ → Prop}
    (h : ∀ s, ¬φ s) : Ends exec φ x Q := fun s _ _ hs => (h s hs).elim

/-- A fact that the first states share. -/
theorem Ends.given {P : Prop} {φ : σ → Prop} {x : Prog Op Res Err α} {Q : Except Err α → σ → Prop}
    (h : ∀ s, φ s → P) (hx : P → Ends exec φ x Q) : Ends exec φ x Q :=
  fun s r s' hs he => hx (h s hs) s r s' hs he

/-- An assertion that the operations of the program keep. -/
theorem Ends.keeps {P : Op → Prop} {φ : σ → Prop} {x : Prog Op Res Err α} (hx : x.Uses P)
    (h : ∀ o s r s', P o → φ s → exec o s = some (r, s') → φ s') :
    Ends exec φ x fun _ => φ := by
  induction x with
  | pure a => exact Ends.pure.post fun _ _ h => h.2
  | throw e => exact Ends.throw.post fun _ _ h => h.2
  | op o k ih =>
    intro s r s' hs he
    simp only [eval] at he
    split at he
    · rename_i r₀ s₀ hr
      exact ih r₀ (hx.2 r₀) s₀ r s' (h o s r₀ s₀ hx.1 hs hr) he
    · cases he

end Eval

end Prog

end Messageries.Concurrency
