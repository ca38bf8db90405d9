import Mathlib.Tactic.Choose
import Messageries.Concurrency.Machine

namespace Messageries.Concurrency

/-- An invariant of the shared state and, for each actor, what its steps do to
that state.  `none` is the environment. -/
structure Protocol (σ : Type) where
  inv : σ → Prop
  guar : Option Nat → σ → σ → Prop

namespace Protocol

variable {Op : Type} {Res : Op → Type} {Err σ Input Event Call α β : Type}

/-- No step of another actor falsifies `φ`. -/
def Stable (L : Protocol σ) (p : Nat) (φ : σ → Prop) : Prop :=
  ∀ a s s', a ≠ some p → L.inv s → L.inv s' → L.guar a s s' → φ s → φ s'

theorem Stable.and {L : Protocol σ} {p : Nat} {φ ψ : σ → Prop}
    (hφ : L.Stable p φ) (hψ : L.Stable p ψ) : L.Stable p fun s => φ s ∧ ψ s :=
  fun a s s' ha hs hs' hg h => ⟨hφ a s s' ha hs hs' hg h.1, hψ a s s' ha hs hs' hg h.2⟩

theorem Stable.const (L : Protocol σ) (p : Nat) (P : Prop) : L.Stable p fun _ => P :=
  fun _ _ _ _ _ _ _ h => h

theorem Stable.imp {L : Protocol σ} {p : Nat} {P : Prop} {φ : σ → Prop}
    (h : P → L.Stable p φ) : L.Stable p fun s => P → φ s :=
  fun a s s' ha hs hs' hg hφ hP => h hP a s s' ha hs hs' hg (hφ hP)

theorem Stable.exists {L : Protocol σ} {p : Nat} {ι : Sort*} {φ : ι → σ → Prop}
    (h : ∀ i, L.Stable p (φ i)) : L.Stable p fun s => ∃ i, φ i s :=
  fun a s s' ha hs hs' hg ⟨i, hi⟩ => ⟨i, h i a s s' ha hs hs' hg hi⟩

variable (M : Machine Op Res Err σ Input Event Call α) (g : Nat → Op → σ → Prop)
variable (L : Protocol σ) (p : Nat)

/-- From a state where `φ` holds, process `p` running the program keeps the
protocol at each operation and ends in `Q`, whatever the others do in between. -/
inductive Valid {β : Type} :
    (σ → Prop) → Prog Op Res Err β → (Except Err β → σ → Prop) → Prop
  | pure {φ : σ → Prop} {a : β} {Q : Except Err β → σ → Prop} :
      (∀ s, L.inv s → φ s → Q (.ok a) s) → Valid φ (.pure a) Q
  | throw {φ : σ → Prop} {e : Err} {Q : Except Err β → σ → Prop} :
      (∀ s, L.inv s → φ s → Q (.error e) s) → Valid φ (.throw e) Q
  | op {φ : σ → Prop} {o : Op} {k : Except Err (Res o) → Prog Op Res Err β}
      {Q : Except Err β → σ → Prop} (ψ : Except Err (Res o) → σ → Prop) :
      (∀ i s r s', L.inv s → φ s → g p o s → M.exec p i o s = some (r, s') →
        L.inv s' ∧ L.guar (some p) s s' ∧ ψ r s') →
      (∀ r, L.Stable p (ψ r)) → (∀ r, Valid (ψ r) (k r) Q) → Valid φ (.op o k) Q

namespace Valid

variable {M g L p}

theorem pre {φ φ' : σ → Prop} {x : Prog Op Res Err β} {Q : Except Err β → σ → Prop}
    (h : Valid M g L p φ x Q) (hφ : ∀ s, L.inv s → φ' s → φ s) : Valid M g L p φ' x Q := by
  cases h with
  | pure h => exact .pure fun s hs h' => h s hs (hφ s hs h')
  | throw h => exact .throw fun s hs h' => h s hs (hφ s hs h')
  | op ψ h hst hk => exact .op ψ (fun i s r s' hs h' => h i s r s' hs (hφ s hs h')) hst hk

theorem post {φ : σ → Prop} {x : Prog Op Res Err β} {Q Q' : Except Err β → σ → Prop}
    (h : Valid M g L p φ x Q) (hQ : ∀ r s, L.inv s → Q r s → Q' r s) : Valid M g L p φ x Q' := by
  induction h with
  | pure h => exact .pure fun s hs h' => hQ _ s hs (h s hs h')
  | throw h => exact .throw fun s hs h' => hQ _ s hs (h s hs h')
  | op ψ h hst _ ih => exact .op ψ h hst fun r => ih r hQ

theorem bind {φ : σ → Prop} {x : Prog Op Res Err β} {γ : Type} {f : β → Prog Op Res Err γ}
    {Q : Except Err β → σ → Prop} {R : Except Err γ → σ → Prop} (hx : Valid M g L p φ x Q)
    (hf : ∀ b, Valid M g L p (Q (.ok b)) (f b) R)
    (he : ∀ e s, L.inv s → Q (.error e) s → R (.error e) s) : Valid M g L p φ (x >>= f) R := by
  induction hx with
  | pure h => exact (hf _).pre h
  | throw h => exact .throw fun s hs h' => he _ s hs (h s hs h')
  | op ψ h hst _ ih => exact .op ψ h hst fun r => ih r hf he

theorem tryCatch {φ : σ → Prop} {x : Prog Op Res Err β} {f : Err → Prog Op Res Err β}
    {Q R : Except Err β → σ → Prop} (hx : Valid M g L p φ x Q)
    (hf : ∀ e, Valid M g L p (Q (.error e)) (f e) R)
    (ha : ∀ b s, L.inv s → Q (.ok b) s → R (.ok b) s) :
    Valid M g L p φ (MonadExcept.tryCatch x f) R := by
  induction hx with
  | pure h => exact .pure fun s hs h' => ha _ s hs (h s hs h')
  | throw h => exact (hf _).pre h
  | op ψ h hst _ ih => exact .op ψ h hst fun r => ih r hf ha

theorem perform {φ : σ → Prop} {o : Op} {Q : Except Err (Res o) → σ → Prop}
    (h : ∀ i s r s', L.inv s → φ s → g p o s → M.exec p i o s = some (r, s') →
      L.inv s' ∧ L.guar (some p) s s' ∧ Q r s')
    (hst : ∀ r, L.Stable p (Q r)) : Valid M g L p φ (Prog.perform o) Q := by
  refine .op Q h hst fun r => ?_
  cases r with
  | ok a => exact .pure fun _ _ h => h
  | error e => exact .throw fun _ _ h => h

theorem ite {φ : σ → Prop} {c : Prop} [Decidable c] {x y : Prog Op Res Err β}
    {Q : Except Err β → σ → Prop} (hx : c → Valid M g L p φ x Q)
    (hy : ¬c → Valid M g L p φ y Q) : Valid M g L p φ (if c then x else y) Q := by
  split
  · exact hx ‹_›
  · exact hy ‹_›

theorem forM {φ : σ → Prop} {xs : List β} {f : β → Prog Op Res Err PUnit}
    {Q : Except Err PUnit → σ → Prop} (hf : ∀ x, Valid M g L p φ (f x) Q)
    (hQ : ∀ s, L.inv s → Q (.ok ⟨⟩) s → φ s) (h0 : ∀ s, L.inv s → φ s → Q (.ok ⟨⟩) s) :
    Valid M g L p φ (xs.forM f) Q := by
  induction xs with
  | nil => exact .pure h0
  | cons x xs ih => exact (hf x).bind (fun _ => ih.pre hQ) fun _ _ _ h => h

/-- What holds of some `i` may be fixed before the program runs. -/
theorem «exists» {ι : Sort*} {φ : ι → σ → Prop} {x : Prog Op Res Err β}
    {Q : Except Err β → σ → Prop} (h : ∀ i, Valid M g L p (φ i) x Q) :
    Valid M g L p (fun s => ∃ i, φ i s) x Q := by
  induction x generalizing φ with
  | pure a =>
    refine .pure fun s hs ⟨i, hi⟩ => ?_
    cases h i with
    | pure h => exact h s hs hi
  | throw e =>
    refine .throw fun s hs ⟨i, hi⟩ => ?_
    cases h i with
    | throw h => exact h s hs hi
  | op o next ih =>
    have step : ∀ i, ∃ ψ : Except Err (Res o) → σ → Prop,
        (∀ j s r s', L.inv s → φ i s → g p o s → M.exec p j o s = some (r, s') →
          L.inv s' ∧ L.guar (some p) s s' ∧ ψ r s') ∧
        (∀ r, L.Stable p (ψ r)) ∧ ∀ r, Valid M g L p (ψ r) (next r) Q := by
      intro i
      cases h i with
      | op ψ h hst hk => exact ⟨ψ, h, hst, hk⟩
    choose ψ hψ hst hk using step
    refine .op (fun r s => ∃ i, ψ i r s) (fun j s r s' hs ⟨i, hi⟩ hg hx => ?_)
      (fun r => .exists fun i => hst i r) fun r => ih r fun i => hk i r
    obtain ⟨hs', hgu, hr⟩ := hψ i j s r s' hs hi hg hx
    exact ⟨hs', hgu, i, hr⟩

/-- What holds whatever the state may be taken out of the precondition. -/
theorem given {P : Prop} {φ : σ → Prop} {x : Prog Op Res Err β} {Q : Except Err β → σ → Prop}
    (h : P → Valid M g L p φ x Q) : Valid M g L p (fun s => P ∧ φ s) x Q :=
  (Valid.exists (φ := fun _ => φ) h).pre fun _ _ h => ⟨h.1, h.2⟩

/-- An assertion that no step falsifies, own steps included, can be carried
along any program. -/
theorem frame {φ χ : σ → Prop} {x : Prog Op Res Err β} {Q : Except Err β → σ → Prop}
    (h : Valid M g L p φ x Q)
    (hχ : ∀ a s s', L.inv s → L.inv s' → L.guar a s s' → χ s → χ s') :
    Valid M g L p (fun s => φ s ∧ χ s) x (fun r s => Q r s ∧ χ s) := by
  induction h with
  | pure h => exact .pure fun s hs h' => ⟨h s hs h'.1, h'.2⟩
  | throw h => exact .throw fun s hs h' => ⟨h s hs h'.1, h'.2⟩
  | op ψ h hst _ ih =>
    refine .op (fun r s => ψ r s ∧ χ s) (fun i s r s' hs h' hg hx => ?_)
      (fun r => (hst r).and fun a s s' _ hs hs' hg' => hχ a s s' hs hs' hg') ih
    obtain ⟨hs', hgu, hψ⟩ := h i s r s' hs h'.1 hg hx
    exact ⟨hs', hgu, hψ, hχ _ s s' hs hs' hgu h'.2⟩

/-- What the operations answer with bounds the errors the program throws. -/
theorem throws {P : Err → Prop} {φ : σ → Prop} {x : Prog Op Res Err β}
    {Q : Except Err β → σ → Prop} (h : Valid M g L p φ x Q) (hx : x.Throws P)
    (hM : ∀ i o s e s', M.exec p i o s = some (.error e, s') → P e) :
    Valid M g L p φ x fun r s => Q r s ∧ ∀ e, r = .error e → P e := by
  induction h with
  | pure h => exact .pure fun s hs h' => ⟨h s hs h', nofun⟩
  | throw h =>
    refine .throw fun s hs h' => ⟨h s hs h', fun e he => ?_⟩
    cases he
    exact hx
  | op ψ h hst _ ih =>
    refine .op (fun r s => (∀ e, r = .error e → P e) ∧ ψ r s) (fun i s r s' hs h' hg hr => ?_)
      (fun r => Stable.and (.const L p _) (hst r)) fun r => ?_
    · obtain ⟨hs', hgu, hψ⟩ := h i s r s' hs h' hg hr
      refine ⟨hs', hgu, fun e he => ?_, hψ⟩
      subst he
      exact hM _ _ _ _ _ hr
    · have rest := Valid.exists (ι := ∀ e, r = .error e → P e) (φ := fun _ => ψ r)
        fun hr => ih r (hx r hr)
      exact rest.pre fun _ _ h => ⟨h.1, h.2⟩

/-- A protocol that says more takes the place of `L` when the steps of the program keep it. -/
theorem lift {K : Protocol σ} {U : Op → Prop} {φ χ : σ → Prop} {x : Prog Op Res Err β}
    {Q : Except Err β → σ → Prop} (h : Valid M g L p φ x Q) (hx : x.Uses U)
    (hinv : ∀ s, K.inv s → L.inv s) (hguar : ∀ a s s', K.guar a s s' → L.guar a s s')
    (hχ : K.Stable p χ)
    (hstep : ∀ i o s r s', U o → g p o s → M.exec p i o s = some (r, s') → K.inv s → χ s → L.inv s' →
      L.guar (some p) s s' → K.inv s' ∧ K.guar (some p) s s' ∧ χ s') :
    Valid M g K p (fun s => φ s ∧ χ s) x fun r s => Q r s ∧ χ s := by
  induction h with
  | pure h => exact .pure fun s hs h' => ⟨h s (hinv s hs) h'.1, h'.2⟩
  | throw h => exact .throw fun s hs h' => ⟨h s (hinv s hs) h'.1, h'.2⟩
  | op ψ h hst _ ih =>
    have stable : ∀ r, K.Stable p (ψ r) := fun r a s s' ha hs hs' hg =>
      hst r a s s' ha (hinv s hs) (hinv s' hs') (hguar a s s' hg)
    refine .op (fun r s => ψ r s ∧ χ s) (fun i s r s' hs h' hg hex => ?_)
      (fun r => (stable r).and hχ) fun r => ih r (hx.2 r)
    obtain ⟨hi, hgu, hψ⟩ := h i s r s' (hinv s hs) h'.1 hg hex
    obtain ⟨hi', hgu', hc⟩ := hstep i _ s r s' hx.1 hg hex hs h'.2 hi hgu
    exact ⟨hi', hgu', hψ, hc⟩

end Valid

/-- What has to be shown once for each machine: its parts respect the protocol
and the code of every call is valid from `Start` to `Post`. -/
structure Sound (Init : σ → Prop) (Start : Nat → Call → σ → Prop)
    (Post : Nat → Call → Except Err α → σ → Prop) : Prop where
  init : ∀ s, Init s → L.inv s
  event : ∀ x s s', L.inv s → M.event x s = some s' → L.inv s' ∧ L.guar none s s'
  enter : ∀ p k s s', L.inv s → M.enter p k s = some s' →
    L.inv s' ∧ L.guar (some p) s s' ∧ Start p k s'
  lose : ∀ p s, L.inv s → L.inv (M.lose p s) ∧ L.guar (some p) s (M.lose p s)
  start : ∀ p k, L.Stable p (Start p k)
  code : ∀ p k, Valid M g L p (Start p k) (M.code k) (Post p k)

/-- Every thread of the pool is at a point of its proof. -/
def Holds (Post : Nat → Call → Except Err α → σ → Prop) (P : Pool Op Res Err σ Call α) : Prop :=
  L.inv P.shared ∧ ∀ p k x, P.threads p = some ⟨k, some x⟩ →
    ∃ φ, L.Stable p φ ∧ φ P.shared ∧ Valid M g L p φ x (Post p k)

namespace Sound

variable {M g L} {Init : σ → Prop} {Start : Nat → Call → σ → Prop}
  {Post : Nat → Call → Except Err α → σ → Prop}

/-- The other threads keep their place when an actor respects the protocol. -/
theorem others {P : Pool Op Res Err σ Call α} (hP : Holds M g L Post P) {a : Option Nat} {s' : σ}
    (hs' : L.inv s') (hg : L.guar a P.shared s') {q : Nat} {k : Call} {x : Prog Op Res Err α}
    (hq : a ≠ some q) (ht : P.threads q = some ⟨k, some x⟩) :
    ∃ φ, L.Stable q φ ∧ φ s' ∧ Valid M g L q φ x (Post q k) := by
  obtain ⟨φ, hst, hφ, hv⟩ := hP.2 q k x ht
  exact ⟨φ, hst, hst a _ _ hq hP.1 hs' hg hφ, hv⟩

theorem put {P : Pool Op Res Err σ Call α} (hP : Holds M g L Post P) {p : Nat} {s' : σ}
    (hs' : L.inv s') (hg : L.guar (some p) P.shared s') {t : Thread Op Res Err Call α}
    (ht : ∀ x, t.code = some x →
      ∃ φ, L.Stable p φ ∧ φ s' ∧ Valid M g L p φ x (Post p t.call)) :
    Holds M g L Post (P.put s' p t) := by
  refine ⟨hs', fun q k x hq => ?_⟩
  by_cases e : q = p
  · subst e
    simp only [Pool.put_self, Option.some.injEq] at hq
    subst hq
    exact ht x rfl
  · rw [Pool.put_of_ne _ _ _ e] at hq
    exact others hP hs' hg (fun h => e (Option.some.inj h).symm) hq

/-- What the other threads can rely on when thread `p` takes a step. -/
theorem exec {P : Pool Op Res Err σ Call α} (hP : Holds M g L Post P) {p : Nat} {i : Input}
    {k : Call} {o : Op} {next : Except Err (Res o) → Prog Op Res Err α} {r : Except Err (Res o)}
    {s : σ} (ht : P.threads p = some ⟨k, some (.op o next)⟩) (hg : g p o P.shared)
    (hx : M.exec p i o P.shared = some (r, s)) : L.guar (some p) P.shared s := by
  obtain ⟨φ, -, hφ, hv⟩ := hP.2 p k _ ht
  cases hv with
  | op ψ hop hψ hk => exact (hop i _ r s hP.1 hφ hg hx).2.1

theorem step (h : Sound M g L Init Start Post) {l : Label Input Event Call}
    {P P' : Pool Op Res Err σ Call α} (hP : Holds M g L Post P)
    (hl : ∀ p i k o next, l = .exec p i → P.threads p = some ⟨k, some (.op o next)⟩ →
      g p o P.shared)
    (hst : M.step l P = some P') :
    Holds M g L Post P' ∧ ∃ a, L.guar a P.shared P'.shared := by
  rcases Machine.step_cases hst with ⟨p, k, s, rfl, -, hx, rfl⟩ |
    ⟨p, i, k, o, next, r, s, rfl, ht, hx, rfl⟩ | ⟨x, s, rfl, hx, rfl⟩ |
    ⟨p, k, o, next, rfl, -, rfl⟩
  · obtain ⟨hi, hg, hS⟩ := h.enter p k _ s hP.1 hx
    refine ⟨put hP hi hg fun x hx => ?_, _, hg⟩
    cases hx
    exact ⟨_, h.start p k, hS, h.code p k⟩
  · obtain ⟨φ, -, hφ, hv⟩ := hP.2 p k _ ht
    cases hv with
    | op ψ hop hψ hk =>
      obtain ⟨hi, hg, hr⟩ := hop i _ r s hP.1 hφ (hl p i k o next rfl ht) hx
      refine ⟨put hP hi hg fun x hx => ?_, _, hg⟩
      cases hx
      exact ⟨ψ r, hψ r, hr, hk r⟩
  · obtain ⟨hi, hg⟩ := h.event x _ s hP.1 hx
    exact ⟨⟨hi, fun q k' x ht => others hP hi hg (by simp) ht⟩, _, hg⟩
  · obtain ⟨hi, hg⟩ := h.lose p _ hP.1
    exact ⟨put hP hi hg fun x hx => (nomatch hx), _, hg⟩

theorem holds (h : Sound M g L Init Start Post) {P : Pool Op Res Err σ Call α}
    (hP : M.Reach Init g P) : Holds M g L Post P := by
  induction hP with
  | init hs => exact ⟨h.init _ hs, fun _ _ _ ht => nomatch ht⟩
  | step l _ hl hst ih => exact (h.step ih hl hst).1

theorem inv (h : Sound M g L Init Start Post) {P : Pool Op Res Err σ Call α}
    (hP : M.Reach Init g P) : L.inv P.shared := (h.holds hP).1

/-- What every step respects, and what composes, holds from a state to the later ones. -/
theorem leads (h : Sound M g L Init Start Post) {R : σ → σ → Prop} (refl : ∀ s, R s s)
    (trans : ∀ s s' s'', R s s' → R s' s'' → R s s'')
    (guar : ∀ a s s', L.inv s → L.inv s' → L.guar a s s' → R s s')
    {P P' : Pool Op Res Err σ Call α} (hP : M.Reach Init g P) (hl : M.Leads g P P') :
    R P.shared P'.shared := by
  induction hl with
  | refl => exact refl _
  | step l hl hg hst ih =>
    have held := h.holds (hP.leads hl)
    obtain ⟨held', a, hgu⟩ := h.step held hg hst
    exact trans _ _ _ ih (guar a _ _ held.1 held'.1 hgu)

/-- A call that returned satisfies its postcondition, in the state in which it
returned and in every later one. -/
theorem returned (h : Sound M g L Init Start Post) {P : Pool Op Res Err σ Call α}
    (hP : M.Reach Init g P) {p : Nat} {k : Call} {a : α}
    (ht : P.threads p = some ⟨k, some (.pure a)⟩) : Post p k (.ok a) P.shared := by
  obtain ⟨hi, hT⟩ := h.holds hP
  obtain ⟨φ, -, hφ, hv⟩ := hT p k _ ht
  cases hv with
  | pure hQ => exact hQ _ hi hφ

theorem threw (h : Sound M g L Init Start Post) {P : Pool Op Res Err σ Call α}
    (hP : M.Reach Init g P) {p : Nat} {k : Call} {e : Err}
    (ht : P.threads p = some ⟨k, some (.throw e)⟩) : Post p k (.error e) P.shared := by
  obtain ⟨hi, hT⟩ := h.holds hP
  obtain ⟨φ, -, hφ, hv⟩ := hT p k _ ht
  cases hv with
  | throw hQ => exact hQ _ hi hφ

end Sound

end Protocol

end Messageries.Concurrency
