import Messageries.Concurrency.RelyGuarantee

/-! Machines whose calls are joined by calls that do the beginning of what one of theirs does. -/

namespace Messageries.Concurrency

variable {Op : Type} {Res : Op → Type} {Err σ Input Event Call Call' α β γ : Type}

namespace Prog

/-- `y` does what `x` does, until `x` ends. -/
def Begins : Prog Op Res Err α → Prog Op Res Err β → Prop
  | .pure _, _ => True
  | .throw _, _ => True
  | .op o k, y => ∃ k', y = .op o k' ∧ ∀ r, (k r).Begins (k' r)

theorem begins_self (x : Prog Op Res Err α) : x.Begins x := by
  induction x with
  | pure a => trivial
  | throw e => trivial
  | op o k ih => exact ⟨k, rfl, ih⟩

theorem Begins.bind {x : Prog Op Res Err γ} {f : γ → Prog Op Res Err α}
    {f' : γ → Prog Op Res Err β} (hf : ∀ a, (f a).Begins (f' a)) :
    (x >>= f).Begins (x >>= f') := by
  induction x with
  | pure a => exact hf a
  | throw e => trivial
  | op o k ih => exact ⟨fun r => k r >>= f', rfl, ih⟩

end Prog

namespace Machine

variable (M : Machine Op Res Err σ Input Event Call α)

/-- The machine with further calls, each of which comes in under a call of `M`. -/
def beside (tag : Call' → Call) (code : Call' → Prog Op Res Err α) :
    Machine Op Res Err σ Input Event (Call ⊕ Call') α where
  exec := M.exec
  event := M.event
  enter p k := M.enter p (k.elim id tag)
  lose := M.lose
  code := Sum.elim M.code code

variable {M} {tag : Call' → Call} {code : Call' → Prog Op Res Err α} {Init : σ → Prop}
  {g : Nat → Op → σ → Prop}

/-- The thread does the beginning of what the thread of `M` does. -/
structure Beginning (tag : Call' → Call) (t : Thread Op Res Err (Call ⊕ Call') α)
    (t' : Thread Op Res Err Call α) : Prop where
  call : t'.call = t.call.elim id tag
  lost : t.code = none → t'.code = none
  code : ∀ x, t.code = some x → ∃ y, t'.code = some y ∧ x.Begins y

/-- `Q` is the pool of `M` in which nothing but the beginnings has happened. -/
structure Mirrors (tag : Call' → Call) (P : Pool Op Res Err σ (Call ⊕ Call') α)
    (Q : Pool Op Res Err σ Call α) : Prop where
  shared : Q.shared = P.shared
  absent : ∀ p, P.threads p = none → Q.threads p = none
  present : ∀ p t, P.threads p = some t → ∃ t', Q.threads p = some t' ∧ Beginning tag t t'

theorem Mirrors.put {P : Pool Op Res Err σ (Call ⊕ Call') α} {Q : Pool Op Res Err σ Call α}
    (h : Mirrors tag P Q) (s : σ) (p : Nat) {t : Thread Op Res Err (Call ⊕ Call') α}
    {t' : Thread Op Res Err Call α} (ht : Beginning tag t t') :
    Mirrors tag (P.put s p t) (Q.put s p t') := by
  refine ⟨rfl, fun q hq => ?_, fun q u hq => ?_⟩
  · by_cases e : q = p
    · subst e
      rw [Pool.put_self] at hq
      cases hq
    · rw [Pool.put_of_ne _ _ _ e] at hq ⊢
      exact h.absent q hq
  · by_cases e : q = p
    · subst e
      rw [Pool.put_self] at hq
      cases hq
      exact ⟨t', Pool.put_self .., ht⟩
    · rw [Pool.put_of_ne _ _ _ e] at hq ⊢
      exact h.present q u hq

theorem Mirrors.op {P : Pool Op Res Err σ (Call ⊕ Call') α} {Q : Pool Op Res Err σ Call α}
    (h : Mirrors tag P Q) {p : Nat} {k : Call ⊕ Call'} {o : Op}
    {next : Except Err (Res o) → Prog Op Res Err α}
    (ht : P.threads p = some ⟨k, some (.op o next)⟩) :
    ∃ next', Q.threads p = some ⟨k.elim id tag, some (.op o next')⟩ ∧
      ∀ r, (next r).Begins (next' r) := by
  obtain ⟨⟨k', code'⟩, hq, hcall, -, hcode⟩ := h.present p _ ht
  obtain ⟨y, hy, next', rfl, hnext⟩ := hcode _ rfl
  cases hcall
  cases hy
  exact ⟨next', hq, hnext⟩

theorem Beginning.running {k : Call ⊕ Call'} {x y : Prog Op Res Err α} (h : x.Begins y) :
    Beginning tag ⟨k, some x⟩ ⟨k.elim id tag, some y⟩ := by
  refine ⟨rfl, fun hx => ?_, fun x' hx => ⟨y, rfl, ?_⟩⟩
  · cases hx
  · cases hx
    exact h

theorem Beginning.gone {k : Call ⊕ Call'} :
    Beginning tag (⟨k, none⟩ : Thread Op Res Err (Call ⊕ Call') α) ⟨k.elim id tag, none⟩ := by
  refine ⟨rfl, fun _ => rfl, fun x hx => ?_⟩
  cases hx

/-- A run of the larger machine is one of `M`. -/
theorem Reach.mirrored (hcode : ∀ v, (code v).Begins (M.code (tag v)))
    {P : Pool Op Res Err σ (Call ⊕ Call') α} (h : (M.beside tag code).Reach Init g P) :
    ∃ Q, M.Reach Init g Q ∧ Mirrors tag P Q := by
  induction h with
  | init hs =>
    refine ⟨⟨_, fun _ => none⟩, .init hs, rfl, fun _ _ => rfl, fun p t ht => ?_⟩
    cases ht
  | @step P P' l hP hl hst ih =>
    obtain ⟨Q, hQ, hm⟩ := ih
    rcases step_cases hst with ⟨p, k, s, rfl, hn, hx, rfl⟩ |
      ⟨p, i, k, o, next, r, s, rfl, ht, hx, rfl⟩ | ⟨x, s, rfl, hx, rfl⟩ |
      ⟨p, k, o, next, rfl, ht, rfl⟩
    · have begins : ((M.beside tag code).code k).Begins (M.code (k.elim id tag)) := by
        cases k with
        | inl k => exact Prog.begins_self _
        | inr v => exact hcode v
      refine ⟨_, .step (.enter p (k.elim id tag)) hQ (fun p i k o next e => ?_) ?_,
        hm.put s p (.running begins)⟩
      · cases e
      · have hx : M.enter p (k.elim id tag) P.shared = some s := hx
        simp [Machine.step, hm.absent p hn, hm.shared, hx]
    · obtain ⟨next', hq, hnext⟩ := hm.op ht
      have hx : M.exec p i o P.shared = some (r, s) := hx
      refine ⟨_, .step (.exec p i) hQ (fun p' i' k' o' n' e hq' => ?_) ?_,
        hm.put s p (.running (hnext r))⟩
      · cases e
        cases hq.symm.trans hq'
        exact hm.shared ▸ hl p i k o next rfl ht
      · simp [Machine.step, hq, hm.shared, hx]
    · have hx : M.event x P.shared = some s := hx
      refine ⟨⟨s, Q.threads⟩, .step (.event x) hQ (fun p i k o next e => ?_) ?_, rfl, hm.absent,
        hm.present⟩
      · cases e
      · simp [Machine.step, hm.shared, hx]
    · obtain ⟨next', hq, -⟩ := hm.op ht
      refine ⟨_, .step (.lose p) hQ (fun p i k o next e => ?_) ?_,
        hm.put (M.lose p P.shared) p .gone⟩
      · cases e
      · simp [Machine.step, hq, hm.shared]

end Machine

namespace Protocol

variable {M : Machine Op Res Err σ Input Event Call α} {g : Nat → Op → σ → Prop} {L : Protocol σ}

/-- What a program does depends on how the machine answers its operations alone. -/
theorem Valid.transfer {M' : Machine Op Res Err σ Input Event Call' β} {p : Nat} {φ : σ → Prop}
    {x : Prog Op Res Err γ} {Q : Except Err γ → σ → Prop} (h : Valid M g L p φ x Q)
    (hM : M'.exec = M.exec) : Valid M' g L p φ x Q := by
  induction h with
  | pure h => exact .pure h
  | throw h => exact .throw h
  | op ψ h hst _ ih => exact .op ψ (fun i s r s' => hM ▸ h i s r s') hst ih

variable {Init : σ → Prop} {Start : Nat → Call → σ → Prop}
  {Post : Nat → Call → Except Err α → σ → Prop} {tag : Call' → Call}
  {code : Call' → Prog Op Res Err α} {Post' : Nat → Call' → Except Err α → σ → Prop}

/-- The further calls start where those do under which they come in. -/
theorem Sound.beside (h : Sound M g L Init Start Post)
    (hcode : ∀ p v, Valid M g L p (Start p (tag v)) (code v) (Post' p v)) :
    Sound (M.beside tag code) g L Init (fun p k => Start p (k.elim id tag))
      fun p => Sum.elim (Post p) (Post' p) where
  init := h.init
  event := h.event
  enter p k := h.enter p (k.elim id tag)
  lose := h.lose
  start p k := h.start p (k.elim id tag)
  code p k := by
    cases k with
    | inl k => exact (h.code p k).transfer rfl
    | inr v => exact (hcode p v).transfer rfl

end Protocol

end Messageries.Concurrency
