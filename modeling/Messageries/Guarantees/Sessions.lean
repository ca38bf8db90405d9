import Messageries.Guarantees.Numbering
import Messageries.Proofs.Tokens

set_option linter.unusedSectionVars false

namespace Messageries.Guarantees

open Text Relational Database Crypto Concurrency Backend Moderation Proofs

section SingleUse

variable [AesGcm] [TokenHash] {w₀ : World} {P : Run}

/-- Process `p` saved the token in a rotation. -/
def Rotator (w : World) (p id : Nat) : Prop :=
  (∃ token, w.calls p = some (.refresh token)) ∧ ∃ x, (p, x) ∈ w.store.wal ∧ Saves id x

/-- A rotation saves no token that another rotation has saved. -/
def Undisputed (p : Nat) (o : Op) (w : World) : Prop :=
  ∀ s token id, o = .query .pool s → w.calls p = some (.refresh token) →
    (∃ x ∈ pooled s w, Saves id x) → ∀ q, Rotator w q id → q = p

theorem one_rotator (h : machine.Reach (From w₀) Undisputed P) {p q id : Nat}
    (hp : Rotator P.shared p id) (hq : Rotator P.shared q id) : p = q := by
  refine token_rule (Ψ := fun w => ∀ p q id, Rotator w p id → Rotator w q id → p = q) h
    (fun w hw p q id hp _ => ?_) (fun a w w' r new hi _ hg hw hr hn ih p q id hp hq => ?_) p q id hp hq
  · obtain ⟨-, x, hx, -⟩ := hp
    simp [hw] at hx
  · -- a rotator of the later state is one already, or the process that took the step
    have split : ∀ {p}, Rotator w' p id → Rotator w p id ∨
        p = r ∧ ∀ q, Rotator w q id → q = r := by
      rintro p ⟨⟨token, hk⟩, x, hx, hs⟩
      rw [hw] at hx
      rcases List.mem_append.1 hx with hx | hx
      · obtain ⟨k, hk', -⟩ := hi.db.known p x hx
        exact .inl ⟨⟨token, by rw [hk', ← hk, hg.calls p k hk']⟩, x, hx, hs⟩
      · obtain ⟨y, hy, e⟩ := List.mem_map.1 hx
        cases e
        obtain ⟨s, hs', hy'⟩ := hs.pooled hn hy
        obtain ⟨k, hk'⟩ := hr.resolve_left (by rintro rfl; cases hy)
        have known : w.calls r = some (.refresh token) := by rw [hk', ← hk, hg.calls r k hk']
        exact .inr ⟨rfl, hs' s token id rfl known ⟨x, hy', hs⟩⟩
    rcases split hp with hp | ⟨rfl, hp⟩
    · rcases split hq with hq | ⟨rfl, hq⟩
      · exact ih p q id hp hq
      · exact hq p hp
    · rcases split hq with hq | ⟨rfl, -⟩
      · exact (hp q hq).symm
      · rfl

/-- When no rotation saves what another one saved, a token has at most one child and at most one
rotation of it succeeds. -/
theorem rotated_once (h : machine.Reach (From w₀) Undisputed P) :
    (∀ f, ∀ r ∈ P.shared.store.db .refreshTokens, ∀ r' ∈ P.shared.store.db .refreshTokens,
      (r : RefreshToken).parentId = some f → (r' : RefreshToken).parentId = some f → r = r') ∧
    ∀ p q token r r', P.threads p = some ⟨.refresh token, some (.pure r)⟩ →
      P.threads q = some ⟨.refresh token, some (.pure r')⟩ → p = q := by
  have hi := reached h
  have rotator : ∀ {p : Nat} {r : RefreshToken} {f : Nat},
      (p, Schema.Write.insert .refreshTokens r) ∈ P.shared.store.wal → r.parentId = some f →
      Rotator P.shared p f := by
    intro p r f hr hf
    obtain ⟨-, token, hk, hx, -⟩ := hi.db.rotated p r f hr hf
    exact ⟨⟨token, hk⟩, hx⟩
  refine ⟨fun f r hr r' hr' hf hf' => ?_, fun p q token r r' hp hq => ?_⟩
  · have inserted : ∀ r ∈ P.shared.store.db .refreshTokens, ∃ p r₀,
        (p, Schema.Write.insert .refreshTokens r₀) ∈ P.shared.store.wal ∧ TokenLater r₀ r := by
      intro r hr
      rcases hi.db.origin .refreshTokens r hr with ⟨r₀, hr₀, -⟩ | h
      · rw [hi.db.unissued] at hr₀
        cases hr₀
      · exact h
    obtain ⟨p, r₀, hr₀, hl⟩ := inserted r hr
    obtain ⟨q, r₁, hr₁, hl'⟩ := inserted r' hr'
    have hf₀ := hl.parentId.symm.trans hf
    have hf₁ := hl'.parentId.symm.trans hf'
    obtain rfl := one_rotator h (rotator hr₀ hf₀) (rotator hr₁ hf₁)
    obtain ⟨-, token, hk, -⟩ := hi.db.rotated p r₀ f hr₀ hf₀
    obtain rfl := hi.db.single p token hk r₀ r₁ hr₀ hr₁
    have key : ∀ x : RefreshToken, Key.id x.id ∈ schema.keys .refreshTokens x := fun x => by
      simp [Schema.keys, primaryKey]
    exact Schema.eq_of_mem_flatMap (hi.ok.unique .refreshTokens) hr hr' (key r)
      (hl.id.trans hl'.id.symm ▸ key r')
  · have succeeded : ∀ {p r}, P.threads p = some ⟨.refresh token, some (.pure r)⟩ →
        ∃ f, Rotator P.shared p f ∧
          ∃ o t, (o, Schema.Write.insert .refreshTokens t) ∈ P.shared.store.wal ∧
            (t : RefreshToken).id = f ∧ (t : RefreshToken).tokenHash = TokenHash.hash token := by
      intro p r ht
      obtain ⟨f, child, hc, hf⟩ := (sound _ w₀).returned h ht
      obtain ⟨-, token', hk, -, o, t, hm, hid, -, hh⟩ := hi.db.rotated p child f hc hf
      cases hk.symm.trans (call_of_thread h ht)
      exact ⟨f, rotator hc hf, o, t, hm, hid, hh⟩
    obtain ⟨f, hr, o, t, hm, rfl, hh⟩ := succeeded hp
    obtain ⟨f', hr', o', t', hm', rfl, hh'⟩ := succeeded hq
    obtain ⟨-, rfl⟩ := hash_entry hi hm hm' (hh.trans hh'.symm)
    exact one_rotator h hr hr'

end SingleUse

section Arrival

variable [AesGcm] [TokenHash] {w₀ : World} {g : Nat → Op → World → Prop} {P : Run}

/-- What a process wrote stands behind all that was in the log when it came in. -/
theorem written_after_arrival (h : machine.Reach (From w₀) g P) {pre post : Wal} {p : Nat} {x : Write}
    (hw : P.shared.store.wal = pre ++ (p, x) :: post) : P.shared.arrived p ≤ pre.length := by
  refine token_rule (Ψ := fun w => ∀ pre p x post, w.store.wal = pre ++ (p, x) :: post →
    w.arrived p ≤ pre.length) h (fun w hw => ?_)
    (fun a w w' q new hi _ hg hw hq _ ih => ?_) pre p x post hw
  · intro pre p x post e
    rw [hw] at e
    simp at e
  · intro pre p x post e
    rw [hw] at e
    rcases split_cases e with ⟨post', e, -⟩ | ⟨rfl, before, after, rfl, rfl⟩
    · obtain ⟨k, hk, -⟩ := hi.db.known p x (by simp [e])
      exact hg.arrived p k hk ▸ ih pre p x post' e
    · obtain ⟨k, hk⟩ := hq.resolve_left (by simp)
      rw [hg.arrived p k hk, List.length_append]
      exact Nat.le_trans (hi.arrived p) (Nat.le_add_right _ _)

end Arrival

section Barrier

variable [AesGcm] [TokenHash] {w₀ : World} {P : Run}

/-- A rotation issues no child of a token that was there when all tokens of its user were
revoked. -/
def Respectful (_ : Nat) (o : Op) (w : World) : Prop :=
  ∀ s c f, o = .query .pool s → Schema.Write.insert .refreshTokens c ∈ pooled s w →
    (c : RefreshToken).parentId = some f →
    ∀ pre r y post, w.store.wal = pre ++ (r, y) :: post →
      Mass w.calls pre r y (c : RefreshToken).userId →
      ∀ q t, (q, Schema.Write.insert .refreshTokens t) ∈ pre → (t : RefreshToken).id ≠ f

/-- No child was issued after the tokens of its user were revoked, its parent being one of them. -/
theorem no_late_child (h : machine.Reach (From w₀) Respectful P) {pre mid post : Wal} {r q : Nat}
    {y : Write} {c : RefreshToken} {f : Nat}
    (hw : P.shared.store.wal = pre ++ (r, y) :: (mid ++ (q, .insert .refreshTokens c) :: post))
    (hm : Mass P.shared.calls pre r y c.userId) (hf : c.parentId = some f) {q' : Nat}
    {t : RefreshToken} (ht : (q', Schema.Write.insert .refreshTokens t) ∈ pre) : t.id ≠ f := by
  refine token_rule (Ψ := fun w => ∀ pre r y mid q c post f q' t,
    w.store.wal = pre ++ (r, y) :: (mid ++ (q, .insert .refreshTokens c) :: post) →
    Mass w.calls pre r y (c : RefreshToken).userId → (c : RefreshToken).parentId = some f →
    (q', Schema.Write.insert .refreshTokens t) ∈ pre → (t : RefreshToken).id ≠ f) h
    (fun w hw => ?_) (fun a w w' p new hi hi' hgu hw hp hn ih => ?_) pre r y mid q c post f q' t hw hm
    hf ht
  · intro pre r y mid q c post f q' t e
    rw [hw] at e
    simp at e
  · intro pre r y mid q c post f q' t e hm hf ht
    -- the tokens of the user were revoked in the old log, whose process was known
    have old : ∀ {post'}, w.store.wal = pre ++ (r, y) :: post' →
        Mass w.calls pre r y c.userId := by
      intro post' e
      obtain ⟨k, hk, -⟩ := hi.db.known r y (by simp [e])
      exact hm.congr (hk.trans (hgu.calls r k hk).symm)
    rw [hw, ← List.cons_append, ← List.append_assoc] at e
    rcases split_cases e with ⟨post', e', -⟩ | ⟨rfl, before, after, rfl, e'⟩
    · rw [List.append_assoc, List.cons_append] at e'
      exact ih pre r y mid q c post' f q' t e' (old e') hf ht
    · have hx : Schema.Write.insert .refreshTokens c ∈ before ++ .insert .refreshTokens c :: after :=
        by simp
      obtain ⟨s, hg, hnew⟩ : ∃ s, Respectful q (.query .pool s) w ∧
          before ++ .insert .refreshTokens c :: after = pooled s w := by
        rcases hn _ hx rfl with ⟨ks, hd⟩ | h
        · cases hd
        · exact h
      rcases split_cases e'.symm with ⟨post', e, -⟩ | ⟨rfl, before', after', rfl, -⟩
      · exact hg s c f rfl (hnew ▸ hx) hf pre r y post' e (old e) q' t ht
      · -- a statement that issues a token revokes none
        obtain ⟨t', r', rfl⟩ := inserts_of_pooled (hnew ▸ hx) (x := y) (by simp [← hnew])
        have hq : (r, Schema.Write.insert .refreshTokens c) ∈ w'.store.wal := by simp [hw]
        obtain ⟨-, token, hk, -⟩ := hi'.db.rotated r c f hq hf
        rcases hm.2 with hcall | ⟨_, _, _, -, ⟨_, _, hx, -⟩, -⟩
        · cases hk.symm.trans hcall
        · cases hx

/-- The token was in the log `pre`, or was issued in place of one that stems from it. -/
inductive Stems (wal pre : Wal) : RefreshToken → Prop
  | old {q : Nat} {t : RefreshToken} : (q, Schema.Write.insert .refreshTokens t) ∈ pre →
      Stems wal pre t
  | child {q : Nat} {t c : RefreshToken} : Stems wal pre t →
      (q, Schema.Write.insert .refreshTokens c) ∈ wal → c.parentId = some t.id → Stems wal pre c

theorem Stems.mem {wal pre : Wal} {t : RefreshToken} (h : Stems wal pre t) (hp : pre ⊆ wal) :
    ∃ q, (q, Schema.Write.insert .refreshTokens t) ∈ wal := by
  cases h with
  | old hq => exact ⟨_, hp hq⟩
  | child _ hq _ => exact ⟨_, hq⟩

/-- The call revoked all tokens of the user, on request or because one was used again. -/
def Revokes (P : Run) (p u : Nat) : Prop :=
  (∃ r, P.threads p = some ⟨.revokeAll u, some (.pure r)⟩) ∨
    ∃ token, P.threads p = some ⟨.refresh token, some (.throw compromised)⟩ ∧
      ∃ q t, (q, Schema.Write.insert .refreshTokens t) ∈ P.shared.store.wal ∧
        (t : RefreshToken).tokenHash = TokenHash.hash token ∧ (t : RefreshToken).userId = u

/-- The token can be used. -/
def Usable (now : Nat) (t : RefreshToken) : Prop := t.revokedAt = none ∧ now ≤ t.expiresAt

theorem barred_of_revokes {g : Nat → Op → World → Prop} (h : machine.Reach (From w₀) g P) {p u : Nat}
    (hr : Revokes P p u) : Barred p u P.shared := by
  rcases hr with ⟨r, ht⟩ | ⟨token, ht, q, t, hm, hh, rfl⟩
  · exact (sound _ w₀).returned h ht
  · obtain ⟨q', t', hm', hh', hb⟩ := (sound _ w₀).threw h ht rfl
    obtain ⟨-, rfl⟩ := hash_entry (reached h) hm hm' (hh.trans hh'.symm)
    exact hb

/-- When no rotation issues a child of a revoked token late, no token of the user that was there
when the revoking call came in can be used once it is done, nor any that stems from one. -/
theorem revocation_barrier (h : machine.Reach (From w₀) Respectful P) {p u : Nat}
    (hr : Revokes P p u) {t : RefreshToken}
    (ht : Stems P.shared.store.wal (P.shared.store.wal.take (P.shared.arrived p)) t)
    (hu : t.userId = u) : ∀ t' ∈ P.shared.store.db .refreshTokens,
      (t' : RefreshToken).id = t.id → ¬Usable P.shared.clock t' := by
  have hi := reached h
  obtain ⟨pre, x, post, hw, hm⟩ := barred_of_revokes h hr
  have late := written_after_arrival h hw
  have key : ∀ x : RefreshToken, Key.id x.id ∈ schema.keys .refreshTokens x := fun x => by
    simp [Schema.keys, primaryKey]
  -- a token of the user that stems from an old one is in the log before the revocation
  have before : ∀ {t}, Stems P.shared.store.wal (P.shared.store.wal.take (P.shared.arrived p)) t →
      t.userId = u → ∃ q, (q, Schema.Write.insert .refreshTokens t) ∈ pre := by
    intro t ht
    induction ht with
    | @old q t hq =>
      intro _
      rw [hw, List.take_append_of_le_length late] at hq
      exact ⟨q, List.mem_of_mem_take hq⟩
    | @child q t c hs hc hp ih =>
      intro hu
      obtain ⟨-, token, hk, -, o, t₀, ht₀, hid, huser, -⟩ := hi.db.rotated q c t.id hc hp
      obtain ⟨o', ho'⟩ := hs.mem (List.take_subset _ _)
      obtain ⟨-, rfl⟩ := hi.db.same_entry (t := .refreshTokens) (by decide) (hi.ok.unique _) ht₀ ho'
        (key t₀) (hid ▸ key t)
      obtain ⟨q', hq'⟩ := ih (huser.trans hu)
      have hc' := hc
      rw [hw] at hc
      rcases List.mem_append.1 hc with hc | hc
      · exact ⟨q, hc⟩
      · rcases List.mem_cons.1 hc with e | hc
        · -- a token is issued by a rotation, and revoked by an update
          cases e
          rcases hm.2 with hcall | ⟨_, _, _, -, ⟨_, _, hx, -⟩, -⟩
          · cases hk.symm.trans hcall
          · cases hx
        · obtain ⟨mid, post', rfl⟩ := List.append_of_mem hc
          exact (no_late_child h hw (hu ▸ hm) hp hq' rfl).elim
  obtain ⟨q, hq⟩ := before ht hu
  obtain ⟨t₁, ht₁, hl, hrev⟩ := hi.db.barrier pre p x post u hw hm q t hq hu
  intro t' ht' hid hact
  have same : t' = t₁ := Schema.eq_of_mem_flatMap (hi.ok.unique .refreshTokens) ht' ht₁ (key t')
    (hid.trans hl.id.symm ▸ key t₁)
  exact hrev (same ▸ hact.1)

end Barrier

section Lineage

variable [AesGcm] [TokenHash] {w₀ : World} {P : Run}

/-- The token was issued in place of the token `f`. -/
def Parent (db : Db) (f t : RefreshToken) : Prop :=
  f ∈ db .refreshTokens ∧ t ∈ db .refreshTokens ∧ t.parentId = some f.id

theorem same_token (hi : Inv w₀.store.db P.shared) {t t' : RefreshToken}
    (ht : t ∈ P.shared.store.db .refreshTokens) (ht' : t' ∈ P.shared.store.db .refreshTokens)
    (e : t.id = t'.id) : t = t' := by
  have key : ∀ x : RefreshToken, Key.id x.id ∈ schema.keys .refreshTokens x := fun x => by
    simp [Schema.keys, primaryKey]
  exact Schema.eq_of_mem_flatMap (hi.ok.unique .refreshTokens) ht ht' (key t) (e ▸ key t')

theorem parent_spent (h : machine.Reachable (From w₀) P) {t : RefreshToken} {f : Nat}
    (ht : t ∈ P.shared.store.db .refreshTokens) (hf : t.parentId = some f) :
    Spent P.shared.store.db f := by
  have hi := reached h
  rcases hi.db.origin .refreshTokens t ht with ⟨t₀, ht₀, -⟩ | ⟨p, t₀, ht₀, hl⟩
  · rw [hi.db.unissued] at ht₀
    cases ht₀
  · have hl : TokenLater t₀ t := hl
    exact (hi.db.rotated p t₀ f ht₀ (hl.parentId.symm.trans hf)).1

/-- An ancestor is the parent of some token. -/
theorem ancestor_revoked (h : machine.Reachable (From w₀) P) {f t : RefreshToken}
    (hd : Relation.TransGen (Parent P.shared.store.db) f t) : f.revokedAt ≠ none := by
  obtain ⟨c, ⟨hf, hc, hp⟩, -⟩ := Relation.TransGen.head'_iff.1 hd
  obtain ⟨f', hf', hid, hr⟩ := parent_spent h hc hp
  exact same_token (reached h) hf' hf hid ▸ hr

theorem spent_later (h : machine.Reachable (From w₀) P) {P' : Run} (hl : machine.Later P P') {f : Nat}
    (hs : Spent P.shared.store.db f) : Spent P'.shared.store.db f :=
  (sound _ w₀).leads (R := fun w w' => Spent w.store.db f → Spent w'.store.db f) (fun _ h => h)
    (fun _ _ _ h h' hs => h' (h hs)) (fun _ _ _ _ _ hg hs => hs.mono hg.kept) h hl hs

/-- The parent of a token is revoked, and stays so: a token and one of its ancestors can never
both be used. -/
theorem lineage_revoked (h : machine.Reachable (From w₀) P) :
    (∀ t ∈ P.shared.store.db .refreshTokens, ∀ f, (t : RefreshToken).parentId = some f →
      ∃ f' ∈ P.shared.store.db .refreshTokens,
        (f' : RefreshToken).id = f ∧ (f' : RefreshToken).revokedAt ≠ none) ∧
    (∀ P', machine.Later P P' → ∀ t ∈ P.shared.store.db .refreshTokens,
      (t : RefreshToken).revokedAt ≠ none → ∀ t' ∈ P'.shared.store.db .refreshTokens,
        (t' : RefreshToken).id = (t : RefreshToken).id → (t' : RefreshToken).revokedAt ≠ none) ∧
    ∀ f t, Relation.TransGen (Parent P.shared.store.db) f t →
      ¬(Usable P.shared.clock f ∧ Usable P.shared.clock t) := by
  refine ⟨fun t ht f hf => parent_spent h ht hf, fun P' hl t ht hr t' ht' hid => ?_,
    fun f t hd hu => ancestor_revoked h hd hu.1.1⟩
  obtain ⟨t₁, ht₁, hid₁, hr₁⟩ := spent_later h hl ⟨t, ht, rfl, hr⟩
  have same : t₁ = t' := same_token (reached (h.leads hl)) ht₁ ht' (hid₁.trans hid.symm)
  exact same ▸ hr₁

end Lineage

section Example

def drawing (b : UInt8) : Input := { calm with bytes := fun _ => b }

def zeroToken : Bytes := List.replicate 48 0

def exampleLogin : Call := .login ⟨2, .customer⟩

def exampleRefresh : Call := .refresh zeroToken

/-- Two rotations of one token read it before either saved it. -/
def doubleRefresh : List (Label Input Event Call) :=
  serve 0 exampleLogin 4 ++ serve 1 exampleRefresh 1 ++ serve 2 exampleRefresh 1 ++
    List.replicate 9 (.exec 1 (drawing 1)) ++ List.replicate 9 (.exec 2 (drawing 2))

def childrenOf (f : Nat) (w : World) : List RefreshToken :=
  (w.store.db .refreshTokens).filter fun (r : RefreshToken) => r.parentId == some f

def refreshedTwice : Ran (runFrom exampleWorld doubleRefresh)
    (fun P => callOf P 1 == some exampleRefresh && (answer P 1).isSome &&
      (callOf P 2 == some exampleRefresh && (answer P 2).isSome) &&
      (childrenOf 100 P.shared).length == 2) true :=
  .of (by decide +kernel)

theorem token_rotated_twice :
    ∃ P r r', runFrom exampleWorld doubleRefresh = some P ∧
      P.threads 1 = some ⟨exampleRefresh, some (.pure r)⟩ ∧
      P.threads 2 = some ⟨exampleRefresh, some (.pure r')⟩ ∧
      (childrenOf 100 P.shared).length = 2 := by
  obtain ⟨P, hP, hv⟩ := refreshedTwice
  simp only [Bool.and_eq_true, beq_iff_eq] at hv
  obtain ⟨⟨⟨hk, ha⟩, hk', ha'⟩, hc⟩ := hv
  obtain ⟨r, hr⟩ := Option.isSome_iff_exists.1 ha
  obtain ⟨r', hr'⟩ := Option.isSome_iff_exists.1 ha'
  exact ⟨P, r, r', hP, thread_of_answer hk hr, thread_of_answer hk' hr', hc⟩

def isRefresh : Option Call → Bool
  | some (.refresh _) => true
  | _ => false

def hits (id : Nat) : Write → Bool
  | .update .refreshTokens ks _ => ks.contains (.id id)
  | _ => false

theorem hits_of_saves {id : Nat} {x : Write} (h : Saves id x) : hits id x = true := by
  obtain ⟨⟨ks, f, rfl, hk⟩, -⟩ := h
  simpa [hits] using hk

def undisputed (p : Nat) (o : Op) (w : World) : Bool :=
  match o, w.calls p with
  | .query .pool (.update .refreshTokens q _), some (.refresh _) =>
    ((w.store.db .refreshTokens).filter (q w.store.db w.clock)).all fun (r : RefreshToken) =>
      w.store.wal.all fun e => e.1 == p || !isRefresh (w.calls e.1) || !hits r.id e.2
  | _, _ => true

/-- What a statement on the pool saves are rows of its update. -/
theorem saved_row {s : Stmt} {w : World} {x : Write} {id : Nat} (hx : x ∈ pooled s w)
    (h : Saves id x) : ∃ q f, s = .update .refreshTokens q f ∧
      ∃ r ∈ (w.store.db .refreshTokens).filter (q w.store.db w.clock), (r : RefreshToken).id = id := by
  obtain ⟨⟨ks, f, rfl, hk⟩, -⟩ := h
  rcases Schema.Stmt.mem_plan hx with ⟨t, make, rfl, F, -, i, e⟩ | ⟨t, q, F, rfl, e⟩
  · cases e
  · cases e
    obtain ⟨r, hr, he⟩ := List.mem_map.1 hk
    exact ⟨q, F, rfl, r, hr, Key.id.inj he⟩

theorem undisputed_sound (p : Nat) (o : Op) (w : World) (h : undisputed p o w = true) :
    Undisputed p o w := by
  rintro s token id rfl hk ⟨x, hx, hs⟩ q ⟨⟨token', hq⟩, y, hy, hs'⟩
  obtain ⟨sel, f, rfl, r, hr, rfl⟩ := saved_row hx hs
  simp only [undisputed, hk, List.all_eq_true] at h
  have := h r hr (q, y) hy
  simpa [hq, isRefresh, hits_of_saves hs'] using this

def nextToken : Bytes := List.replicate 48 1

/-- A token is replaced, and then the token that replaced it. -/
def refreshTwice : List (Label Input Event Call) :=
  serve 0 exampleLogin 4 ++ .enter 1 exampleRefresh :: List.replicate 10 (.exec 1 (drawing 1)) ++
    .enter 2 (.refresh nextToken) :: List.replicate 10 (.exec 2 (drawing 2))

def replacedTwice : Ran (passFrom undisputed exampleWorld refreshTwice)
    (fun P => ((childrenOf 100 P.shared).length, (childrenOf 101 P.shared).length)) (1, 1) :=
  .of (by decide +kernel)

theorem rotated_once_example :
    ∃ P, passFrom undisputed exampleWorld refreshTwice = some P ∧
      (childrenOf 100 P.shared).length = 1 ∧ (childrenOf 101 P.shared).length = 1 ∧
      ∀ f, ∀ r ∈ P.shared.store.db .refreshTokens, ∀ r' ∈ P.shared.store.db .refreshTokens,
        (r : RefreshToken).parentId = some f → (r' : RefreshToken).parentId = some f → r = r' := by
  obtain ⟨P, hP, hv⟩ := replacedTwice
  obtain ⟨h₁, h₂⟩ := Prod.mk.inj hv
  exact ⟨P, hP, h₁, h₂, (@rotated_once exampleCipher exampleHash _ _
    (reach_passFrom initial_example undisputed_sound hP)).1⟩

theorem lineage_revoked_example :
    ∃ P, passFrom undisputed exampleWorld refreshTwice = some P ∧
      (∃ t ∈ P.shared.store.db .refreshTokens, (t : RefreshToken).parentId = some 100) ∧
      ∃ f ∈ P.shared.store.db .refreshTokens,
        (f : RefreshToken).id = 100 ∧ (f : RefreshToken).revokedAt ≠ none := by
  obtain ⟨P, hP, hv⟩ := replacedTwice
  obtain ⟨t, ht⟩ := List.length_eq_one_iff.1 (Prod.mk.inj hv).1
  obtain ⟨hm, hp⟩ := List.mem_filter.1 (ht ▸ List.mem_singleton_self t)
  have parent : t.parentId = some 100 := by simpa using hp
  have h : exampleMachine.Reachable (From exampleWorld) P :=
    (reach_passFrom initial_example undisputed_sound hP).mono fun _ _ _ _ => trivial
  exact ⟨P, hP, ⟨t, hm, parent⟩,
    (@lineage_revoked exampleCipher exampleHash _ _ h).1 t hm 100 parent⟩

/-- The tokens process `p` inserted. -/
def issuedBy (p : Nat) (wal : Wal) : List RefreshToken :=
  wal.filterMap fun
    | (q, .insert .refreshTokens r) => if q = p then some r else none
    | _ => none

theorem mem_issuedBy {p : Nat} {wal : Wal} {r : RefreshToken} (h : r ∈ issuedBy p wal) :
    (p, Schema.Write.insert .refreshTokens r) ∈ wal := by
  obtain ⟨e, he, hm⟩ := List.mem_filterMap.1 h
  split at hm
  · split at hm
    · rename_i hq
      cases hm
      subst hq
      exact he
    · cases hm
  · cases hm

/-- The tokens of a user are revoked while a rotation is about to issue one. -/
def lateChild : List (Label Input Event Call) :=
  serve 0 exampleLogin 4 ++ .enter 1 exampleRefresh :: List.replicate 8 (.exec 1 (drawing 1)) ++
    serve 2 (.revokeAll 2) 2 ++ List.replicate 2 (.exec 1 (drawing 1))

/-- The tokens that process `0` inserted before process `2` came in, and those of process `1`. -/
def issued (P : Run) : List (Nat × Nat) × List (Option Nat × Nat × Nat) :=
  ((issuedBy 0 (P.shared.store.wal.take (P.shared.arrived 2))).map fun t => (t.id, t.userId),
    (issuedBy 1 P.shared.store.wal).map fun t => (t.parentId, t.id, t.userId))

theorem stems_of_issued {P : Run} (h : issued P = ([(100, 2)], [(some 100, 101, 2)])) :
    ∃ c, Stems P.shared.store.wal (P.shared.store.wal.take (P.shared.arrived 2)) c ∧
      c.userId = 2 ∧ c.id = 101 := by
  obtain ⟨h₀, h₁⟩ := Prod.mk.inj h
  obtain ⟨t, ht, he⟩ := List.map_eq_singleton_iff.1 h₀
  obtain ⟨c, hc, he'⟩ := List.map_eq_singleton_iff.1 h₁
  simp only [Prod.mk.injEq] at he he'
  have old := mem_issuedBy (ht ▸ List.mem_singleton_self t)
  have new := mem_issuedBy (hc ▸ List.mem_singleton_self c)
  exact ⟨c, .child (.old old) new (he.1.symm ▸ he'.1), he'.2.2, he'.2.1⟩

def issuedLate : Ran (runFrom exampleWorld lateChild)
    (fun P => callOf P 2 == some (.revokeAll 2) && (answer P 2).isSome &&
      issued P == ([(100, 2)], [(some 100, 101, 2)]) &&
      (P.shared.store.db .refreshTokens).any fun (t : RefreshToken) =>
        t.id == 101 && (t.revokedAt == none && decide (P.shared.clock ≤ t.expiresAt))) true :=
  .of (by decide +kernel)

theorem late_child_usable :
    ∃ P t, runFrom exampleWorld lateChild = some P ∧ @Revokes exampleHash P 2 2 ∧
      Stems P.shared.store.wal (P.shared.store.wal.take (P.shared.arrived 2)) t ∧
      t.userId = 2 ∧ ∃ t' ∈ P.shared.store.db .refreshTokens,
        (t' : RefreshToken).id = t.id ∧ Usable P.shared.clock t' := by
  obtain ⟨P, hP, hv⟩ := issuedLate
  simp only [Bool.and_eq_true, beq_iff_eq, List.any_eq_true, decide_eq_true_eq] at hv
  obtain ⟨⟨⟨hk, ha⟩, hi⟩, t', ht', hid, hu⟩ := hv
  obtain ⟨r, hr⟩ := Option.isSome_iff_exists.1 ha
  obtain ⟨c, hc, huser, hcid⟩ := stems_of_issued hi
  exact ⟨P, c, hP, .inl ⟨r, thread_of_answer hk hr⟩, hc, huser, t', ht', hid.trans hcid.symm, hu⟩

def isFamily : Write → Bool
  | .update .refreshTokens _ f =>
    (f.set ⟨0, 0, [], none, 0, none, none, 0⟩ : RefreshToken).revokedReason == some "family_compromise"
  | _ => false

theorem isFamily_of {x : Write} (h : IsFamily x) : isFamily x = true := by
  obtain ⟨ks, f, rfl, hf⟩ := h
  exact beq_iff_eq.2 (hf _)

/-- The write may revoke the tokens of a user. -/
def mayRevoke (calls : Nat → Option Call) (e : Nat × Write) : Bool :=
  match calls e.1 with
  | some (.revokeAll _) => true
  | some (.refresh _) => isFamily e.2
  | _ => false

def respectful (_ : Nat) (o : Op) (w : World) : Bool :=
  match o with
  | .query .pool (.insert .refreshTokens _) => w.store.wal.all fun e => !mayRevoke w.calls e
  | _ => true

theorem respectful_sound (p : Nat) (o : Op) (w : World) (h : respectful p o w = true) :
    @Respectful exampleHash p o w := by
  rintro s c f rfl hc - pre r y post hw hm
  rcases Schema.Stmt.mem_plan hc with ⟨t, make, rfl, F, -, i, e⟩ | ⟨t, q, F, rfl, e⟩
  · cases e
    simp only [respectful, List.all_eq_true] at h
    have := h (r, y) (by simp [hw])
    rcases hm.2 with hk | ⟨token, _, _, hk, hf, -⟩
    · simp [mayRevoke, hk] at this
    · simp [mayRevoke, hk, isFamily_of hf] at this
  · cases e

/-- The tokens of a user are revoked after a rotation issued one. -/
def revokeAfter : List (Label Input Event Call) :=
  serve 0 exampleLogin 4 ++ .enter 1 exampleRefresh :: List.replicate 10 (.exec 1 (drawing 1)) ++
    serve 2 (.revokeAll 2) 2

def revokedAfter : Ran (passFrom respectful exampleWorld revokeAfter)
    (fun P => callOf P 2 == some (.revokeAll 2) && (answer P 2).isSome &&
      issued P == ([(100, 2)], [(some 100, 101, 2)])) true :=
  .of (by decide +kernel)

theorem revocation_barrier_example :
    ∃ P, passFrom respectful exampleWorld revokeAfter = some P ∧
      ∀ t' ∈ P.shared.store.db .refreshTokens, (t' : RefreshToken).id = 101 →
        ¬Usable P.shared.clock t' := by
  obtain ⟨P, hP, hv⟩ := revokedAfter
  simp only [Bool.and_eq_true, beq_iff_eq] at hv
  obtain ⟨⟨hk, ha⟩, hi⟩ := hv
  obtain ⟨r, hr⟩ := Option.isSome_iff_exists.1 ha
  obtain ⟨c, hc, huser, hcid⟩ := stems_of_issued hi
  exact ⟨P, hP, hcid ▸ @revocation_barrier exampleCipher exampleHash _ _
    (reach_passFrom initial_example respectful_sound hP) 2 2 (.inl ⟨r, thread_of_answer hk hr⟩) c hc
    huser⟩

end Example

end Messageries.Guarantees
