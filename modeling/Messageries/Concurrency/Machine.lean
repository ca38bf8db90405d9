import Messageries.Concurrency.Prog

namespace Messageries.Concurrency

/-- How a shared state answers the operations of numbered processes.  `Input`
stands for what the process does not choose: random bytes, faults, replies of
other servers.  `Event` is what happens outside every process. -/
structure Machine (Op : Type) (Res : Op → Type) (Err σ Input Event Call α : Type) where
  exec : Nat → Input → (o : Op) → σ → Option (Except Err (Res o) × σ)
  event : Event → σ → Option σ
  enter : Nat → Call → σ → Option σ
  lose : Nat → σ → σ
  code : Call → Prog Op Res Err α

/-- A process with the call it serves; its code is gone once it was lost. -/
structure Thread (Op : Type) (Res : Op → Type) (Err Call α : Type) where
  call : Call
  code : Option (Prog Op Res Err α)

structure Pool (Op : Type) (Res : Op → Type) (Err σ Call α : Type) where
  shared : σ
  threads : Nat → Option (Thread Op Res Err Call α)

namespace Pool

variable {Op : Type} {Res : Op → Type} {Err σ Call α : Type}

/-- The pool after a step of process `p`. -/
def put (P : Pool Op Res Err σ Call α) (s : σ) (p : Nat) (t : Thread Op Res Err Call α) :
    Pool Op Res Err σ Call α :=
  ⟨s, Function.update P.threads p (some t)⟩

@[simp] theorem put_shared (P : Pool Op Res Err σ Call α) (s : σ) (p : Nat)
    (t : Thread Op Res Err Call α) : (P.put s p t).shared = s := rfl

@[simp] theorem put_self (P : Pool Op Res Err σ Call α) (s : σ) (p : Nat)
    (t : Thread Op Res Err Call α) : (P.put s p t).threads p = some t :=
  Function.update_self ..

theorem put_of_ne (P : Pool Op Res Err σ Call α) (s : σ) {p q : Nat}
    (t : Thread Op Res Err Call α) (h : q ≠ p) : (P.put s p t).threads q = P.threads q :=
  Function.update_of_ne h ..

end Pool

inductive Label (Input Event Call : Type)
  | enter (p : Nat) (k : Call)
  | exec (p : Nat) (i : Input)
  | event (x : Event)
  | lose (p : Nat)

namespace Machine

variable {Op : Type} {Res : Op → Type} {Err σ Input Event Call α : Type}
variable (M : Machine Op Res Err σ Input Event Call α)

/-- One step of one process, or of the environment. -/
def step : Label Input Event Call → Pool Op Res Err σ Call α → Option (Pool Op Res Err σ Call α)
  | .enter p k, P =>
    match P.threads p with
    | none => (M.enter p k P.shared).map fun s => P.put s p ⟨k, some (M.code k)⟩
    | some _ => none
  | .exec p i, P =>
    match P.threads p with
    | some ⟨k, some (.op o next)⟩ =>
      match M.exec p i o P.shared with
      | some (r, s) => some (P.put s p ⟨k, some (next r)⟩)
      | none => none
    | _ => none
  | .event x, P => (M.event x P.shared).map fun s => { P with shared := s }
  | .lose p, P =>
    match P.threads p with
    | some ⟨k, some (.op _ _)⟩ => some (P.put (M.lose p P.shared) p ⟨k, none⟩)
    | _ => none

def run : List (Label Input Event Call) → Pool Op Res Err σ Call α →
    Option (Pool Op Res Err σ Call α)
  | [], P => some P
  | l :: ls, P => (M.step l P).bind (run ls)

/-- The pools a run comes to, when every operation is taken in a state where
the guard `g` holds of it. -/
inductive Reach (Init : σ → Prop) (g : Nat → Op → σ → Prop) : Pool Op Res Err σ Call α → Prop
  | init {s : σ} : Init s → Reach Init g ⟨s, fun _ => none⟩
  | step {P P' : Pool Op Res Err σ Call α} (l : Label Input Event Call) : Reach Init g P →
      (∀ p i k o next, l = .exec p i → P.threads p = some ⟨k, some (.op o next)⟩ →
        g p o P.shared) →
      M.step l P = some P' → Reach Init g P'

/-- The unguarded runs. -/
abbrev Reachable (Init : σ → Prop) : Pool Op Res Err σ Call α → Prop :=
  M.Reach Init fun _ _ _ => True

variable {M}

/-- The pools a guarded run comes to from the pool `P`. -/
inductive Leads (M : Machine Op Res Err σ Input Event Call α) (g : Nat → Op → σ → Prop)
    (P : Pool Op Res Err σ Call α) : Pool Op Res Err σ Call α → Prop
  | refl : Leads M g P P
  | step {Q Q' : Pool Op Res Err σ Call α} (l : Label Input Event Call) : Leads M g P Q →
      (∀ p i k o next, l = .exec p i → Q.threads p = some ⟨k, some (.op o next)⟩ →
        g p o Q.shared) →
      M.step l Q = some Q' → Leads M g P Q'

theorem Reach.leads {Init : σ → Prop} {g : Nat → Op → σ → Prop} {P P' : Pool Op Res Err σ Call α}
    (h : M.Reach Init g P) (hl : M.Leads g P P') : M.Reach Init g P' := by
  induction hl with
  | refl => exact h
  | step l _ hg hst ih => exact .step l ih hg hst

theorem Leads.run {ls : List (Label Input Event Call)} {P Q Q' : Pool Op Res Err σ Call α}
    (h : M.Leads (fun _ _ _ => True) P Q) (hr : M.run ls Q = some Q') :
    M.Leads (fun _ _ _ => True) P Q' := by
  induction ls generalizing Q with
  | nil =>
    cases hr
    exact h
  | cons l ls ih =>
    simp only [Machine.run, Option.bind_eq_some_iff] at hr
    obtain ⟨R, hR, hr⟩ := hr
    exact ih (.step l h (fun _ _ _ _ _ _ _ => trivial) hR) hr

theorem Reachable.run {Init : σ → Prop} {ls : List (Label Input Event Call)}
    {P P' : Pool Op Res Err σ Call α} (h : M.Reachable Init P) (hr : M.run ls P = some P') :
    M.Reachable Init P' :=
  h.leads (Leads.run .refl hr)

/-- What one step does, by the kind of its label. -/
theorem step_cases {l : Label Input Event Call} {P P' : Pool Op Res Err σ Call α}
    (h : M.step l P = some P') :
    (∃ p k s, l = .enter p k ∧ P.threads p = none ∧ M.enter p k P.shared = some s ∧
      P' = P.put s p ⟨k, some (M.code k)⟩) ∨
    (∃ p i k o next r s, l = .exec p i ∧ P.threads p = some ⟨k, some (.op o next)⟩ ∧
      M.exec p i o P.shared = some (r, s) ∧
      P' = P.put s p ⟨k, some (next r)⟩) ∨
    (∃ x s, l = .event x ∧ M.event x P.shared = some s ∧ P' = { P with shared := s }) ∨
    (∃ p k o next, l = .lose p ∧ P.threads p = some ⟨k, some (.op o next)⟩ ∧
      P' = P.put (M.lose p P.shared) p ⟨k, none⟩) := by
  cases l with
  | enter p k =>
    simp only [step] at h
    split at h
    · rename_i ht
      simp only [Option.map_eq_some_iff] at h
      obtain ⟨s, hs, rfl⟩ := h
      exact .inl ⟨p, k, s, rfl, ht, hs, rfl⟩
    · cases h
  | exec p i =>
    simp only [step] at h
    split at h
    · rename_i k o next ht
      split at h
      · rename_i r s hx
        exact .inr (.inl ⟨p, i, k, o, next, r, s, rfl, ht, hx, (Option.some.inj h).symm⟩)
      · cases h
    · cases h
  | event x =>
    simp only [step, Option.map_eq_some_iff] at h
    obtain ⟨s, hs, rfl⟩ := h
    exact .inr (.inr (.inl ⟨x, s, rfl, hs, rfl⟩))
  | lose p =>
    simp only [step] at h
    split at h
    · rename_i k o next ht
      exact .inr (.inr (.inr ⟨p, k, o, next, rfl, ht, (Option.some.inj h).symm⟩))
    · cases h

/-- The pools an unguarded run comes to. -/
abbrev Later (M : Machine Op Res Err σ Input Event Call α) : Pool Op Res Err σ Call α →
    Pool Op Res Err σ Call α → Prop :=
  M.Leads fun _ _ _ => True

theorem Leads.trans {g : Nat → Op → σ → Prop} {P Q R : Pool Op Res Err σ Call α}
    (h : M.Leads g P Q) (h' : M.Leads g Q R) : M.Leads g P R := by
  induction h' with
  | refl => exact h
  | step l _ hg hst ih => exact .step l ih hg hst

section Meets

variable {p : Nat} {ψ : Op → σ → Prop} {P P' : Pool Op Res Err σ Call α}

/-- Process `p` never takes an operation where `ψ` holds of it. -/
def Avoids (p : Nat) (ψ : Op → σ → Prop) : Nat → Op → σ → Prop := fun q o s => q = p → ¬ψ o s

/-- On the way from `P` to `P'` process `p` comes to an operation where `ψ` holds of it. -/
def Meets (M : Machine Op Res Err σ Input Event Call α) (p : Nat) (ψ : Op → σ → Prop)
    (P P' : Pool Op Res Err σ Call α) : Prop :=
  ∃ Q k o next, M.Later P Q ∧ Q.threads p = some ⟨k, some (.op o next)⟩ ∧ ψ o Q.shared ∧
    M.Later Q P'

theorem Leads.avoids_or_meets (h : M.Later P P') :
    M.Leads (Avoids p ψ) P P' ∨ M.Meets p ψ P P' := by
  induction h with
  | refl => exact .inl .refl
  | @step Q Q' l hl _ hst ih =>
    have more : M.Later Q Q' := .step l .refl (fun _ _ _ _ _ _ _ => trivial) hst
    rcases ih with ih | ⟨R, k, o, next, hR, ht, hψ, hl'⟩
    · by_cases hg : ∀ i k o next, l = .exec p i → Q.threads p = some ⟨k, some (.op o next)⟩ →
          ¬ψ o Q.shared
      · refine .inl (.step l ih (fun q i k o next e ht hq => ?_) hst)
        subst hq
        exact hg i k o next e ht
      · simp only [not_forall, not_not] at hg
        obtain ⟨i, k, o, next, -, ht, hψ⟩ := hg
        exact .inr ⟨Q, k, o, next, hl, ht, hψ, more⟩
    · exact .inr ⟨R, k, o, next, hR, ht, hψ, hl'.trans more⟩

/-- A process that has not come in has taken no operation. -/
theorem Reachable.avoids {Init : σ → Prop} (h : M.Reachable Init P) (hp : P.threads p = none) :
    M.Reach Init (Avoids p ψ) P := by
  induction h with
  | init hs => exact .init hs
  | @step Q Q' l _ _ hst ih =>
    have before : Q.threads p = none := by
      rcases step_cases hst with ⟨q, k, s, -, -, -, rfl⟩ | ⟨q, i, k, o, next, r, s, -, -, -, rfl⟩ |
        ⟨x, s, -, -, rfl⟩ | ⟨q, k, o, next, -, -, rfl⟩
      all_goals first | exact hp | skip
      all_goals
        by_cases e : p = q
        · subst e
          rw [Pool.put_self] at hp
          cases hp
        · rwa [Pool.put_of_ne _ _ _ e] at hp
    refine .step l (ih before) (fun q i k o next _ ht hq => ?_) hst
    subst hq
    cases before.symm.trans ht

/-- What a process cannot end in unless it comes by `ψ`, it ends in after coming by `ψ`. -/
theorem Reachable.avoids_or_meets {Init : σ → Prop} (h : M.Reachable Init P)
    (hp : P.threads p = none) (hl : M.Later P P') :
    M.Reach Init (Avoids p ψ) P' ∨ M.Meets p ψ P P' :=
  hl.avoids_or_meets.imp_left fun hl => (h.avoids hp).leads hl

/-- A run has a start. -/
theorem Reachable.start {Init : σ → Prop} (h : M.Reachable Init P) :
    ∃ s, Init s ∧ M.Later ⟨s, fun _ => none⟩ P := by
  induction h with
  | init hs => exact ⟨_, hs, .refl⟩
  | step l _ hg hst ih =>
    obtain ⟨s, hs, hl⟩ := ih
    exact ⟨s, hs, .step l hl hg hst⟩

end Meets

theorem run_append {ls ls' : List (Label Input Event Call)} {P : Pool Op Res Err σ Call α} :
    M.run (ls ++ ls') P = (M.run ls P).bind (M.run ls') := by
  induction ls generalizing P with
  | nil => rfl
  | cons l ls ih =>
    rw [List.cons_append, run, run, Option.bind_assoc]
    exact congrArg _ (funext fun Q => ih)

/-- A process whose operations are answered in every state runs to its end. -/
theorem run_to_end {p : Nat} {i : Input} (total : ∀ o s, (M.exec p i o s).isSome)
    {P : Pool Op Res Err σ Call α} {k : Call} {x : Prog Op Res Err α}
    (ht : P.threads p = some ⟨k, some x⟩) :
    ∃ n P', M.run (List.replicate n (.exec p i)) P = some P' ∧
      ((∃ a, P'.threads p = some ⟨k, some (.pure a)⟩) ∨
        ∃ e, P'.threads p = some ⟨k, some (.throw e)⟩) := by
  induction x generalizing P with
  | pure a => exact ⟨0, P, rfl, .inl ⟨a, ht⟩⟩
  | throw e => exact ⟨0, P, rfl, .inr ⟨e, ht⟩⟩
  | op o next ih =>
    obtain ⟨⟨r, s⟩, hx⟩ := Option.isSome_iff_exists.1 (total o P.shared)
    obtain ⟨n, P', hr, he⟩ := ih r (P := P.put s p ⟨k, some (next r)⟩) (Pool.put_self ..)
    have first : M.step (.exec p i) P = some (P.put s p ⟨k, some (next r)⟩) := by
      simp [step, ht, hx]
    refine ⟨n + 1, P', ?_, he⟩
    rw [List.replicate_succ, Machine.run, first]
    exact hr

/-- What the code of a process returns when it runs alone, the process returns. -/
theorem run_of_eval {p : Nat} {i : Input} {P : Pool Op Res Err σ Call α} {k : Call}
    {x : Prog Op Res Err α} {a : α} {s : σ} (ht : P.threads p = some ⟨k, some x⟩)
    (he : x.eval (M.exec p i) P.shared = some (.ok a, s)) :
    ∃ n P', M.run (List.replicate n (.exec p i)) P = some P' ∧
      P'.threads p = some ⟨k, some (.pure a)⟩ := by
  induction x generalizing P with
  | pure b =>
    cases he
    exact ⟨0, P, rfl, ht⟩
  | throw e => cases he
  | op o next ih =>
    simp only [Prog.eval] at he
    cases hx : M.exec p i o P.shared with
    | none =>
      rw [hx] at he
      cases he
    | some y =>
      obtain ⟨r, s'⟩ := y
      rw [hx] at he
      obtain ⟨n, P', hr, hP'⟩ := ih r (P := P.put s' p ⟨k, some (next r)⟩) (Pool.put_self ..) he
      have first : M.step (.exec p i) P = some (P.put s' p ⟨k, some (next r)⟩) := by
        simp [step, ht, hx]
      refine ⟨n + 1, P', ?_, hP'⟩
      rw [List.replicate_succ, Machine.run, first]
      exact hr

section Passing

variable (M) (b : Nat → Op → σ → Bool)

def passes : Label Input Event Call → Pool Op Res Err σ Call α → Bool
  | .exec p _, P =>
    match P.threads p with
    | some ⟨_, some (.op o _)⟩ => b p o P.shared
    | _ => true
  | _, _ => true

/-- A run whose operations pass the test `b`. -/
def passing : List (Label Input Event Call) → Pool Op Res Err σ Call α →
    Option (Pool Op Res Err σ Call α)
  | [], P => some P
  | l :: ls, P => if passes b l P then (M.step l P).bind (passing ls) else none

variable {M b}

theorem Reach.passing {Init : σ → Prop} {g : Nat → Op → σ → Prop}
    {ls : List (Label Input Event Call)} {P P' : Pool Op Res Err σ Call α}
    (h : M.Reach Init g P) (hb : ∀ p o s, b p o s = true → g p o s)
    (hr : M.passing b ls P = some P') : M.Reach Init g P' := by
  induction ls generalizing P with
  | nil =>
    cases hr
    exact h
  | cons l ls ih =>
    simp only [Machine.passing] at hr
    split at hr
    · rename_i hp
      obtain ⟨Q, hQ, hr⟩ := Option.bind_eq_some_iff.1 hr
      refine ih (.step l h (fun p i k o next hl ht => hb _ _ _ ?_) hQ) hr
      subst hl
      simpa [passes, ht] using hp
    · cases hr

theorem Leads.passing {g : Nat → Op → σ → Prop} {ls : List (Label Input Event Call)}
    {P Q Q' : Pool Op Res Err σ Call α} (h : M.Leads g P Q) (hb : ∀ p o s, b p o s = true → g p o s)
    (hr : M.passing b ls Q = some Q') : M.Leads g P Q' := by
  induction ls generalizing Q with
  | nil =>
    cases hr
    exact h
  | cons l ls ih =>
    simp only [Machine.passing] at hr
    split at hr
    · rename_i hp
      obtain ⟨Q₁, hQ, hr⟩ := Option.bind_eq_some_iff.1 hr
      refine ih (.step l h (fun p i k o next hl ht => hb _ _ _ ?_) hQ) hr
      subst hl
      simpa [passes, ht] using hp
    · cases hr

theorem passing_append {ls ls' : List (Label Input Event Call)} {P : Pool Op Res Err σ Call α} :
    M.passing b (ls ++ ls') P = (M.passing b ls P).bind (M.passing b ls') := by
  induction ls generalizing P with
  | nil => rfl
  | cons l ls ih =>
    rw [List.cons_append, Machine.passing, Machine.passing]
    split
    · rw [Option.bind_assoc]
      exact congrArg _ (funext fun Q => ih)
    · rfl

end Passing

/-- What holds of the code of a call, and stays true when an operation is answered, holds of what
is left of it. -/
theorem Reach.residual {Init : σ → Prop} {g : Nat → Op → σ → Prop}
    {R : Call → Prog Op Res Err α → Prop} (hR : ∀ k, R k (M.code k))
    (hnext : ∀ k o next r, R k (.op o next) → R k (next r)) {P : Pool Op Res Err σ Call α}
    (h : M.Reach Init g P) {p : Nat} {k : Call} {x : Prog Op Res Err α}
    (ht : P.threads p = some ⟨k, some x⟩) : R k x := by
  induction h generalizing p k x with
  | init _ => cases ht
  | @step P P' l hP hl hst ih =>
    have put : ∀ {s : σ} {q : Nat} {k' : Call} {y : Option (Prog Op Res Err α)},
        (∀ x, y = some x → R k' x) →
        (P.put s q ⟨k', y⟩).threads p = some ⟨k, some x⟩ → R k x := by
      intro s q k' y hy ht
      by_cases e : p = q
      · subst e
        rw [Pool.put_self] at ht
        cases ht
        exact hy x rfl
      · rw [Pool.put_of_ne _ _ _ e] at ht
        exact ih ht
    rcases step_cases hst with ⟨q, k', s, -, -, -, rfl⟩ | ⟨q, i, k', o, next, r, s, -, hq, -, rfl⟩ |
      ⟨e, s, -, -, rfl⟩ | ⟨q, k', o, next, -, -, rfl⟩
    · exact put (fun y hy => by cases hy; exact hR k') ht
    · exact put (fun y hy => by cases hy; exact hnext k' o next r (ih hq)) ht
    · exact ih ht
    · exact put (fun y hy => by cases hy) ht

/-- What the code of a call uses, its process uses. -/
theorem Reach.uses {Init : σ → Prop} {g : Nat → Op → σ → Prop} {U : Call → Op → Prop}
    (hU : ∀ k, (M.code k).Uses (U k)) {P : Pool Op Res Err σ Call α} (h : M.Reach Init g P) {p : Nat}
    {k : Call} {x : Prog Op Res Err α} (ht : P.threads p = some ⟨k, some x⟩) : x.Uses (U k) :=
  h.residual (R := fun k x => x.Uses (U k)) hU (fun _ _ _ r hx => hx.2 r) ht

theorem Reach.mono {Init : σ → Prop} {g g' : Nat → Op → σ → Prop}
    (hg : ∀ p o s, g p o s → g' p o s) {P : Pool Op Res Err σ Call α}
    (h : M.Reach Init g P) : M.Reach Init g' P := by
  induction h with
  | init hs => exact .init hs
  | step l _ hl hst ih =>
    exact .step l ih (fun p i k o next e ht => hg _ _ _ (hl p i k o next e ht)) hst

end Machine

end Messageries.Concurrency
