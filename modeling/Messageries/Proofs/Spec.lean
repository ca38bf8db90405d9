import Messageries.Proofs.Rules

set_option linter.unusedSectionVars false

namespace Messageries.Proofs

open Text Relational Database Crypto Concurrency Backend

variable [AesGcm] [TokenHash]

section Persists

/-- Once true, always true. -/
def Persists (db₀ : Db) (φ : World → Prop) : Prop :=
  ∀ a w w', Inv db₀ w → Inv db₀ w' → Guar a w w' → φ w → φ w'

variable {db₀ : Db} {φ ψ : World → Prop}

theorem Persists.const (P : Prop) : Persists db₀ fun _ => P := fun _ _ _ _ _ _ h => h

theorem Persists.and (hφ : Persists db₀ φ) (hψ : Persists db₀ ψ) :
    Persists db₀ fun w => φ w ∧ ψ w :=
  fun a w w' hi hi' hg h => ⟨hφ a w w' hi hi' hg h.1, hψ a w w' hi hi' hg h.2⟩

theorem Persists.or (hφ : Persists db₀ φ) (hψ : Persists db₀ ψ) :
    Persists db₀ fun w => φ w ∨ ψ w :=
  fun a w w' hi hi' hg h => h.imp (hφ a w w' hi hi' hg) (hψ a w w' hi hi' hg)

theorem Persists.exists {ι : Sort*} {φ : ι → World → Prop} (h : ∀ i, Persists db₀ (φ i)) :
    Persists db₀ fun w => ∃ i, φ i w :=
  fun a w w' hi hi' hg ⟨i, hx⟩ => ⟨i, h i a w w' hi hi' hg hx⟩

theorem Persists.forall {ι : Sort*} {φ : ι → World → Prop} (h : ∀ i, Persists db₀ (φ i)) :
    Persists db₀ fun w => ∀ i, φ i w :=
  fun a w w' hi hi' hg hx i => h i a w w' hi hi' hg (hx i)

theorem Persists.imp {P : Prop} (h : P → Persists db₀ φ) : Persists db₀ fun w => P → φ w :=
  fun a w w' hi hi' hg hx hP => h hP a w w' hi hi' hg (hx hP)

theorem Persists.stable (h : Persists db₀ φ) (p : Nat) : (protocol db₀).Stable p φ :=
  fun a w w' _ hi hi' hg hx => h a w w' hi hi' hg hx

theorem Persists.call (p : Nat) (k : Call) : Persists db₀ fun w => w.calls p = some k :=
  fun _ _ _ _ _ hg h => hg.calls p k h

theorem Persists.logged (e : Nat × Write) : Persists db₀ fun w => e ∈ w.store.wal :=
  fun _ _ _ _ _ hg h => hg.wal.subset h

theorem Persists.active (c u : Nat) : Persists db₀ fun w => Active w.store.db c u :=
  fun _ _ _ _ _ hg h => hg.kept.active h

theorem Persists.conversation (c : Nat) : Persists db₀ fun w => Exists w.store.db c :=
  fun _ _ _ _ _ hg h => hg.kept.exists h

theorem Persists.genuine (dekId : Utf16) (dek : Bytes) :
    Persists db₀ fun w => Genuine w.keyLog dekId dek :=
  fun _ _ _ _ _ hg h => h.mono hg.log

/-- Where a row that was read comes from, and what has become of it. -/
structure Read (db₀ : Db) (t : Table) (r : t.Row) (w : World) : Prop where
  origin : (∃ r₀ ∈ db₀ t, Later t r₀ r) ∨
    ∃ p r₀, (p, Schema.Write.insert t r₀) ∈ w.store.wal ∧ Later t r₀ r
  present : t ≠ .attachments → ∃ r' ∈ w.store.db t, Later t r r'

theorem Read.of_mem {t : Table} {r : t.Row} {w : World} (hi : Inv db₀ w)
    (hr : r ∈ w.store.db t) : Read db₀ t r w :=
  ⟨hi.db.origin t r hr, fun _ => ⟨r, hr, .refl t r⟩⟩

theorem Persists.read (t : Table) (r : t.Row) : Persists db₀ (Read db₀ t r) := by
  intro a w w' hi hi' hg h
  refine ⟨h.origin.imp_right fun ⟨p, r₀, hr, hl⟩ => ⟨p, r₀, hg.wal.subset hr, hl⟩, fun ht => ?_⟩
  obtain ⟨r', hr', hl⟩ := h.present ht
  obtain ⟨r'', hr'', hl'⟩ := hg.kept t ht r' hr'
  exact ⟨r'', hr'', hl.trans hl'⟩

/-- `P` held of the committed rows at a moment since process `p` came in. -/
def Snapshot (db₀ : Db) (p : Nat) (P : Db → Prop) (w : World) : Prop :=
  (∃ k, w.calls p = some k) ∧
    ∃ w₁, Inv db₀ w₁ ∧ w₁.store.wal <+: w.store.wal ∧ Kept w₁.store.db w.store.db ∧
      w.arrived p ≤ w₁.store.wal.length ∧ P w₁.store.db

theorem Persists.snapshot (p : Nat) (P : Db → Prop) : Persists db₀ (Snapshot db₀ p P) :=
  fun _ _ _ _ _ hg ⟨⟨k, hk⟩, w₁, hi, hp, hkept, hle, h⟩ =>
    ⟨⟨k, hg.calls p k hk⟩, w₁, hi, hp.trans hg.wal, hkept.trans hg.kept,
      (hg.arrived p k hk).trans_le hle, h⟩

theorem Snapshot.imp {p : Nat} {P Q : Db → Prop} {w : World} (h : Snapshot db₀ p P w)
    (hPQ : ∀ db, P db → Q db) : Snapshot db₀ p Q w := by
  obtain ⟨hk, w₁, hi, hp, hkept, hle, hP⟩ := h
  exact ⟨hk, w₁, hi, hp, hkept, hle, hPQ _ hP⟩

theorem Snapshot.now {p : Nat} {k : Call} {P : Db → Prop} {w : World} (hi : Inv db₀ w)
    (hk : w.calls p = some k) (h : P w.store.db) : Snapshot db₀ p P w :=
  ⟨⟨k, hk⟩, w, hi, List.prefix_rfl, .refl _, hi.arrived p, h⟩

end Persists

theorem exists_left {α β : Type} {R : α → β → Prop} {xs : List α} {ys : List β}
    (h : List.Forall₂ R xs ys) {y : β} (hy : y ∈ ys) : ∃ x ∈ xs, R x y := by
  induction h with
  | nil => cases hy
  | cons hr _ ih =>
    rcases List.mem_cons.1 hy with rfl | hy
    · exact ⟨_, List.mem_cons_self .., hr⟩
    · obtain ⟨x, hx, hr⟩ := ih hy
      exact ⟨x, List.mem_cons_of_mem _ hx, hr⟩

section Spec

variable (db₀ : Db) (g : Nat → Op → World → Prop) (k : Call) (p : Nat)

def Base (k : Call) (p : Nat) (w : World) : Prop := w.calls p = some k ∧ Steady k p w

/-- What process `p` does for the call `k` from `φ` on: it ends in `Q`. -/
def Spec {α : Type} (φ : World → Prop) (x : App α) (Q : Except Err α → World → Prop) : Prop :=
  Protocol.Valid machine g (protocol db₀) p (fun w => Base k p w ∧ φ w) x
    fun r w => Base k p w ∧ Q r w

/-- The postcondition of a program with the errors `E`. -/
def ends {α : Type} (E : Err → Prop) (Q : α → World → Prop) : Except Err α → World → Prop
  | .ok a, w => Q a w
  | .error e, _ => E e

/-- Nothing is said of the errors. -/
abbrev onOk {α : Type} (Q : α → World → Prop) : Except Err α → World → Prop :=
  ends (fun _ => True) Q

variable {db₀ g k p} {φ ψ : World → Prop} {α β : Type} {o : Op} {E : Err → Prop}

theorem Persists.ends {Q : α → World → Prop} (h : ∀ a, Persists db₀ (Q a)) (r : Except Err α) :
    Persists db₀ (ends E Q r) := by
  cases r with
  | ok a => exact h a
  | error e => exact .const (E e)

theorem stable_base : (protocol db₀).Stable p (Base k p) := by
  intro a w w' ha hi hi' hg h
  refine ⟨hg.calls p k h.1, fun tx ht => h.2.pending tx (hg.frame.tx p ha ▸ ht),
    fun hr r hmem => ?_, fun hs => own_eq_nil.2 fun x hx => ?_⟩
  · rcases hg.author p _ hmem with hmem | he | ht
    · exact h.2.unissued hr r hmem
    · exact (ha he).elim
    · cases ht
  · rcases hg.author p x hx with hx | he | ht
    · exact own_eq_nil.1 (h.2.silent hs) x hx
    · exact (ha he).elim
    · rw [ht]
      rfl

namespace Spec

theorem pre {x : App α} {Q : Except Err α → World → Prop} (h : Spec db₀ g k p φ x Q)
    (hφ : ∀ w, Inv db₀ w → ψ w → φ w) : Spec db₀ g k p ψ x Q :=
  Protocol.Valid.pre h fun w hi h => ⟨h.1, hφ w hi h.2⟩

theorem post {x : App α} {Q R : Except Err α → World → Prop} (h : Spec db₀ g k p φ x Q)
    (hQ : ∀ r w, Inv db₀ w → Q r w → R r w) : Spec db₀ g k p φ x R :=
  Protocol.Valid.post h fun r w hi h => ⟨h.1, hQ r w hi h.2⟩

/-- A process knows its call. -/
theorem known {x : App α} {Q : Except Err α → World → Prop} (h : Spec db₀ g k p φ x Q) :
    Spec db₀ g k p φ x fun r w => Q r w ∧ w.calls p = some k :=
  Protocol.Valid.post h fun _ _ _ h => ⟨h.1, h.2, h.1.1⟩

theorem pure {a : α} {Q : Except Err α → World → Prop} (h : ∀ w, Inv db₀ w → φ w → Q (.ok a) w) :
    Spec db₀ g k p φ (pure a) Q :=
  Protocol.Valid.pure fun w hi hw => ⟨hw.1, h w hi hw.2⟩

theorem throw {e : Err} {Q : Except Err α → World → Prop}
    (h : ∀ w, Inv db₀ w → φ w → Q (.error e) w) : Spec db₀ g k p φ (throw e) Q :=
  Protocol.Valid.throw fun w hi hw => ⟨hw.1, h w hi hw.2⟩

theorem bind {x : App α} {f : α → App β} {Q : Except Err α → World → Prop}
    {R : Except Err β → World → Prop} (hx : Spec db₀ g k p φ x Q)
    (hf : ∀ a, Spec db₀ g k p (Q (.ok a)) (f a) R)
    (he : ∀ e w, Inv db₀ w → Q (.error e) w → R (.error e) w) : Spec db₀ g k p φ (x >>= f) R :=
  Protocol.Valid.bind hx hf fun e w hi h => ⟨h.1, he e w hi h.2⟩

theorem seq {x : App α} {f : α → App β} {Q : α → World → Prop} {R : β → World → Prop}
    (hx : Spec db₀ g k p φ x (ends E Q)) (hf : ∀ a, Spec db₀ g k p (Q a) (f a) (ends E R)) :
    Spec db₀ g k p φ (x >>= f) (ends E R) :=
  hx.bind hf fun _ _ _ h => h

theorem imp {x : App α} {Q R : α → World → Prop} (h : Spec db₀ g k p φ x (ends E Q))
    (hQ : ∀ a w, Inv db₀ w → Q a w → R a w) : Spec db₀ g k p φ x (ends E R) :=
  h.post fun r w hi h => by
    cases r with
    | ok a => exact hQ a w hi h
    | error e => exact h

theorem weaken {x : App α} {Q : α → World → Prop} {E' : Err → Prop}
    (h : Spec db₀ g k p φ x (ends E Q)) (hE : ∀ e, E e → E' e) :
    Spec db₀ g k p φ x (ends E' Q) :=
  h.post fun r _ _ h => by
    cases r with
    | ok a => exact h
    | error e => exact hE e h

theorem toOk {x : App α} {Q : α → World → Prop} (h : Spec db₀ g k p φ x (ends E Q)) :
    Spec db₀ g k p φ x (onOk Q) :=
  h.weaken fun _ _ => trivial

theorem tryCatch {x : App α} {f : Err → App α} {Q R : Except Err α → World → Prop}
    (hx : Spec db₀ g k p φ x Q) (hf : ∀ e, Spec db₀ g k p (Q (.error e)) (f e) R)
    (ha : ∀ a w, Inv db₀ w → Q (.ok a) w → R (.ok a) w) :
    Spec db₀ g k p φ (tryCatch x f) R :=
  Protocol.Valid.tryCatch hx hf fun a w hi h => ⟨h.1, ha a w hi h.2⟩

theorem ite {c : Prop} [Decidable c] {x y : App α} {Q : Except Err α → World → Prop}
    (hx : c → Spec db₀ g k p φ x Q) (hy : ¬c → Spec db₀ g k p φ y Q) :
    Spec db₀ g k p φ (if c then x else y) Q :=
  Protocol.Valid.ite hx hy

theorem «exists» {ι : Sort*} {φ : ι → World → Prop} {x : App α} {Q : Except Err α → World → Prop}
    (h : ∀ i, Spec db₀ g k p (φ i) x Q) : Spec db₀ g k p (fun w => ∃ i, φ i w) x Q :=
  (Protocol.Valid.exists h).pre fun _ _ ⟨hb, i, hi⟩ => ⟨i, hb, hi⟩

/-- A case that cannot occur. -/
theorem absurd {x : App α} {Q : Except Err α → World → Prop} (hφ : ∀ w, Inv db₀ w → ¬φ w) :
    Spec db₀ g k p φ x Q :=
  (Spec.exists (ι := Empty) (φ := fun _ => φ) nofun).pre fun w hi hw => (hφ w hi hw).elim

theorem perform {Q : Except Err o.Res → World → Prop} (ho : QuietOp k o)
    (h : ∀ i w r w', Inv db₀ w → Base k p w → φ w → g p o w →
      World.exec p i o w = some (r, w') → Inv db₀ w' → Guar (some p) w w' → Q r w')
    (hQ : ∀ r, Persists db₀ (Q r)) : Spec db₀ g k p φ (Backend.perform o) Q := by
  refine Protocol.Valid.perform (fun i w r w' hi hw hg hx => ?_)
    fun r => stable_base.and ((hQ r).stable p)
  obtain ⟨hi', hgu, hp⟩ := exec_quiet hi hw.1.1 hw.1.2 ho hx
  exact ⟨hi', hgu, ⟨hgu.calls p k hw.1.1, hp⟩, h i w r w' hi hw.1 hw.2 hg hx hi' hgu⟩

/-- Quiet programs keep what persists. -/
theorem quiet {x : App α} (hx : x.Uses (QuietOp k)) (hφ : Persists db₀ φ) :
    Spec db₀ g k p φ x fun _ => φ := by
  induction x with
  | pure a => exact pure fun _ _ h => h
  | throw e => exact throw fun _ _ h => h
  | op o next ih =>
    refine .op (fun _ w => Base k p w ∧ φ w) (fun i w r w' hi hw _ hx' => ?_)
      (fun _ => stable_base.and (hφ.stable p)) fun r => ih r (hx.2 r)
    obtain ⟨hi', hg, hp⟩ := exec_quiet hi hw.1.1 hw.1.2 hx.1 hx'
    exact ⟨hi', hg, ⟨hg.calls p k hw.1.1, hp⟩, hφ _ w w' hi hi' hg hw.2⟩

/-- The rule of sequence after a quiet program. -/
theorem quiet_seq {x : App α} {f : α → App β} {R : Except Err β → World → Prop}
    (hx : x.Uses (QuietOp k)) (hφ : Persists db₀ φ) (hf : ∀ a, Spec db₀ g k p φ (f a) R)
    (he : ∀ e w, Inv db₀ w → φ w → R (.error e) w) : Spec db₀ g k p φ (x >>= f) R :=
  (quiet hx hφ).bind hf he

/-- A quiet program at the end of a function. -/
theorem quiet_end {x : App α} {R : α → World → Prop} (hx : x.Uses (QuietOp k))
    (hφ : Persists db₀ φ) (hR : ∀ a w, Inv db₀ w → φ w → R a w) : Spec db₀ g k p φ x (onOk R) :=
  (quiet hx hφ).post fun r w hi h => by
    cases r with
    | ok a => exact hR a w hi h
    | error e => trivial

/-- The rest of a function runs when its test let it pass. -/
theorem refuse {b : Prop} [Decidable b] {e : Err} {f : Unit → App β}
    {R : Except Err β → World → Prop} (hf : ¬b → Spec db₀ g k p φ (f ()) R)
    (he : ∀ w, Inv db₀ w → φ w → R (.error e) w) :
    Spec db₀ g k p φ (onlyIf b (MonadExcept.throw e) >>= f) R := by
  unfold onlyIf
  split
  · exact Spec.throw he
  · exact hf ‹_›

theorem frame {x : App α} {Q : Except Err α → World → Prop} {χ : World → Prop}
    (h : Spec db₀ g k p φ x Q) (hχ : Persists db₀ χ) :
    Spec db₀ g k p (fun w => φ w ∧ χ w) x fun r w => Q r w ∧ χ w :=
  ((Protocol.Valid.frame h hχ).pre fun _ _ h => ⟨⟨h.1, h.2.1⟩, h.2.2⟩).post
    fun _ _ _ h => ⟨h.1.1, h.1.2, h.2⟩

theorem forM {xs : List α} {f : α → App PUnit} (hf : ∀ x ∈ xs, Spec db₀ g k p φ (f x) fun _ => φ) :
    Spec db₀ g k p φ (xs.forM f) fun _ => φ := by
  induction xs with
  | nil => exact pure fun _ _ h => h
  | cons x xs ih =>
    exact (hf x (List.mem_cons_self ..)).bind
      (fun _ => ih fun y hy => hf y (List.mem_cons_of_mem _ hy)) fun _ _ _ h => h

/-- A map whose steps never fail. -/
theorem mapM {xs : List α} {f : α → App β} {R : α → β → World → Prop}
    (hf : ∀ x ∈ xs, Spec db₀ g k p φ (f x) fun r w => φ w ∧ ∃ b, r = .ok b ∧ R x b w)
    (hR : ∀ x b, Persists db₀ (R x b)) :
    Spec db₀ g k p φ (xs.mapM' f)
      fun r w => φ w ∧ ∃ bs, r = .ok bs ∧ List.Forall₂ (fun x b => R x b w) xs bs := by
  induction xs with
  | nil => exact pure fun w _ h => ⟨h, [], rfl, .nil⟩
  | cons x xs ih =>
    refine (hf x (List.mem_cons_self ..)).bind (fun b => ?_) fun e _ _ ⟨_, _, he, _⟩ => nomatch he
    have rest := (ih fun y hy => hf y (List.mem_cons_of_mem _ hy)).frame (hR x b)
    refine Spec.pre (φ := fun w => φ w ∧ R x b w) (rest.bind (fun bs => ?_)
      fun e _ _ ⟨⟨_, _, he, _⟩, _⟩ => nomatch he) fun w _ ⟨hw, _, hb, hr⟩ => ?_
    · refine pure fun w _ ⟨⟨hw, _, hbs, hr⟩, hx⟩ => ⟨hw, _, rfl, ?_⟩
      cases hbs
      exact .cons hx hr
    · cases hb
      exact ⟨hw, hr⟩

end Spec

end Spec

end Messageries.Proofs
