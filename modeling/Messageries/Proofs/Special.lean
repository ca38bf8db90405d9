import Messageries.Proofs.Extension

set_option linter.unusedSectionVars false

namespace Messageries.Proofs

open Text Relational Database Crypto Concurrency Backend

section Tables

/-- What the writes make of a table: the rows of old, each changed in some way, then new ones. -/
theorem applyAll_split {t : Table} {S : t.Row → t.Row → Prop} {N : t.Row → Prop} {ws : List Write}
    (refl : ∀ r, S r r) (trans : ∀ r r' r'', S r r' → S r' r'' → S r r'')
    (new : ∀ r r', S r r' → N r → N r') (insert : ∀ r, Schema.Write.insert t r ∈ ws → N r)
    (update : ∀ ks f, Schema.Write.update t ks f ∈ ws → ∀ r, S r (f.set r))
    (delete : ∀ ks, Schema.Write.delete t ks ∉ ws) (db : Db) :
    ∃ (F : t.Row → t.Row) (rows : List t.Row),
      Schema.Write.applyAll ws db t = (db t).map F ++ rows ∧ (∀ r, S r (F r)) ∧ ∀ r ∈ rows, N r := by
  induction ws generalizing db with
  | nil => exact ⟨id, [], by simp, refl, by simp⟩
  | cons x ws ih =>
    obtain ⟨F, rows, h, hF, hrows⟩ := ih (fun r hr => insert r (List.mem_cons_of_mem _ hr))
      (fun ks f hf => update ks f (List.mem_cons_of_mem _ hf))
      (fun ks hk => delete ks (List.mem_cons_of_mem _ hk)) (x.apply db)
    rw [Schema.Write.applyAll_cons, h]
    have same : x.apply db t = db t →
        ∃ (F' : t.Row → t.Row) (rows' : List t.Row),
          (x.apply db t).map F ++ rows = (db t).map F' ++ rows' ∧ (∀ r, S r (F' r)) ∧
            ∀ r ∈ rows', N r := fun e => ⟨F, rows, by rw [e], hF, hrows⟩
    cases x with
    | insert t' r =>
      by_cases e : t = t'
      · subst e
        refine ⟨F, F r :: rows, by simp, hF, fun r' hr' => ?_⟩
        rcases List.mem_cons.1 hr' with rfl | hr'
        · exact new r _ (hF r) (insert r (List.mem_cons_self ..))
        · exact hrows r' hr'
      · exact same (Schema.Write.apply_insert_of_ne r db e)
    | update t' ks f =>
      by_cases e : t = t'
      · subst e
        refine ⟨fun r => F (if schema.key t r ∈ ks then f.set r else r), rows,
          by simp [Function.comp_def], fun r => ?_, hrows⟩
        dsimp only
        split
        · exact trans _ _ _ (update ks f (List.mem_cons_self ..) r) (hF _)
        · exact hF r
      · exact same (Schema.Write.apply_update_of_ne ks f db e)
    | delete t' ks =>
      by_cases e : t = t'
      · subst e
        exact (delete ks (List.mem_cons_self ..)).elim
      · exact same (Schema.Write.apply_delete_of_ne ks db e)

/-- A table that is only inserted into keeps its rows. -/
theorem kept_of_inserts {t : Table} {ws : List Write}
    (update : ∀ ks f, Schema.Write.update t ks f ∉ ws) (delete : ∀ ks, Schema.Write.delete t ks ∉ ws)
    {db : Db} {r : t.Row} (h : r ∈ db t) : r ∈ Schema.Write.applyAll ws db t := by
  obtain ⟨F, rows, e, hF, -⟩ := applyAll_split (S := Eq) (N := fun _ => True)
    (fun _ => rfl) (fun _ _ _ => Eq.trans) (fun _ _ _ h => h) (fun _ _ => trivial)
    (fun ks f hf => (update ks f hf).elim) delete db
  rw [e]
  exact List.mem_append_left _ (List.mem_map.2 ⟨r, h, (hF r).symm⟩)

/-- A new row takes no key that was in use. -/
theorem fresh_key {t : Table} {rs rows : List t.Row} {F : t.Row → t.Row}
    (hu : (schema.keysOf t (rs.map F ++ rows)).Nodup) {r r' : t.Row} (hr : r ∈ rs) (hr' : r' ∈ rows)
    {k : Key} (hk : k ∈ schema.keys t (F r)) (hk' : k ∈ schema.keys t r') : False := by
  rw [Schema.keysOf_append] at hu
  exact (List.nodup_append'.1 hu).2.2 (List.mem_flatMap.2 ⟨F r, List.mem_map_of_mem hr, hk⟩)
    (List.mem_flatMap.2 ⟨r', hr', hk'⟩)

end Tables

variable [AesGcm] [TokenHash]

section Feeds

variable {p : Nat} {w w' : World} {i : Input}

/-- The operations that write to the stream, the notes, the index or the mails. -/
def Feeds : Op → Prop
  | .publish _ _ _ | .note _ _ | .index _ | .unindex _ | .mail _ => True
  | _ => False

theorem exec_feed {o : Op} {r : Except Err o.Res} (h : World.exec p i o w = some (r, w'))
    (ho : ¬Feeds o) : SameFeed w w' := by
  have stored : ∀ st : State schema, SameFeed w (w.withStore st) := fun _ => ⟨rfl, rfl, rfl, rfl⟩
  cases o
  case publish t m id => exact (ho trivial).elim
  case note e s => exact (ho trivial).elim
  case index d => exact (ho trivial).elim
  case unindex c => exact (ho trivial).elim
  case mail m => exact (ho trivial).elim
  case begin =>
    obtain ⟨r₀, st', -, ⟨-, rfl⟩ | ⟨-, rfl | rfl⟩⟩ := exec_begin h
    · exact stored _
    · exact .refl _
    · exact stored _
  case commit =>
    rcases exec_commit h with ⟨r₀, st', -, rfl, -⟩ | ⟨-, rfl⟩
    · exact stored _
    · exact stored _
  case rollback =>
    cases h
    exact stored _
  case query c s =>
    rcases exec_query h with ⟨r₀, st', -, rfl, -⟩ | ⟨-, rfl | ⟨-, rfl⟩⟩
    · exact stored _
    · exact .refl _
    · exact stored _
  case remove t q =>
    simp only [World.exec] at h
    split at h
    · exact of_remote (.refl w) (stored _) h
    · cases h
  case cachePut d =>
    cases h
    exact ⟨rfl, rfl, rfl, rfl⟩
  all_goals exact (exec_local h trivial).2

end Feeds

namespace Extension

variable {X : Extension} {db₀ : Db} {p : Nat} {w w' : World} {g : Nat → Op → World → Prop}
  {k : Call} {α β : Type}

section Assertions

variable (X db₀) in
/-- Once true, always true. -/
def Lasts (φ : World → Prop) : Prop :=
  ∀ a w w', (X.protocol db₀).inv w → (X.protocol db₀).inv w' → (X.protocol db₀).guar a w w' →
    φ w → φ w'

variable {φ ψ : World → Prop}

theorem Lasts.of_persists (h : Persists db₀ φ) : X.Lasts db₀ φ :=
  fun a w w' hi hi' hg => h a w w' hi.1 hi'.1 hg.1

theorem Lasts.stable (h : X.Lasts db₀ φ) : (X.protocol db₀).Stable p φ :=
  fun a w w' _ => h a w w'

theorem Lasts.and (hφ : X.Lasts db₀ φ) (hψ : X.Lasts db₀ ψ) : X.Lasts db₀ fun w => φ w ∧ ψ w :=
  fun a w w' hi hi' hg h => ⟨hφ a w w' hi hi' hg h.1, hψ a w w' hi hi' hg h.2⟩

theorem stable_of (h : (Proofs.protocol db₀).Stable p φ) : (X.protocol db₀).Stable p φ :=
  fun a w w' ha hi hi' hg => h a w w' ha hi.1 hi'.1 hg.1

/-- Process `p` serves the call and has no transaction open. -/
def Idle (k : Call) (p : Nat) (w : World) : Prop := w.calls p = some k ∧ w.store.tx p = none

theorem stable_idle : (X.protocol db₀).Stable p (Idle k p) :=
  fun _ _ _ ha _ _ hg h => ⟨hg.1.calls p k h.1, (hg.1.frame.tx p ha).trans h.2⟩

end Assertions

section Steps

/-- A step that commits nothing keeps the extension. -/
theorem Keeps.idle {a : Option Nat} (hX : X.Keeps db₀) (hi : (X.protocol db₀).inv w)
    (hi' : Inv db₀ w') (hg : Guar a w w') (hdb : w'.store.db = w.store.db)
    (hwal : w'.store.wal = w.store.wal) (hf : SameFeed w w') :
    (X.protocol db₀).inv w' ∧ (X.protocol db₀).guar a w w' := by
  obtain ⟨hx, hgx⟩ := hX.plain a w w' hi.1 hi' hg (.idle hdb hwal hf) hi.2
  exact ⟨⟨hi', hx⟩, hg, hgx⟩

/-- Operations outside a transaction that commit plain writes only. -/
def Pooled (X : Extension) : Op → Prop
  | .begin => False
  | .commit => False
  | .query .tx _ => False
  | .query .pool s => ∀ w, ∀ x ∈ pooled s w, X.plain x
  | .remove t _ => ∀ ks, X.plain (.delete t ks)
  | .publish _ _ _ | .note _ _ | .index _ | .unindex _ | .mail _ => False
  | _ => True

/-- The operations that neither open a transaction nor use one. -/
def Lone : Op → Prop
  | .begin | .commit | .query .tx _ => False
  | _ => True

theorem Lone.idle {i : Input} {o : Op} {r : Except Err o.Res} (ho : Lone o)
    (h : World.exec p i o w = some (r, w')) (ht : w.store.tx p = none) :
    w'.store.tx p = none := by
  cases o
  case begin => exact ho.elim
  case commit => exact ho.elim
  case publish t m id =>
    simp only [World.exec] at h
    split at h
    · refine of_remote (S := fun _ w' => w'.store.tx p = none) ht ?_ h
      unfold World.publish
      split <;> exact ht
    · cases h
      exact ht
  case note e s =>
    cases h
    exact ht
  case mail m =>
    refine of_remote (S := fun _ w' => w'.store.tx p = none) ht ?_ h
    exact ht
  case index d =>
    obtain ⟨ds, rfl⟩ := exec_indexes h trivial
    exact ht
  case unindex c =>
    obtain ⟨ds, rfl⟩ := exec_indexes h trivial
    exact ht
  case rollback =>
    cases h
    exact State.rollback_tx_self
  case query c s =>
    cases c with
    | tx => exact ho.elim
    | pool =>
      rcases exec_query h with ⟨r₀, st', hq, rfl, -⟩ | ⟨-, rfl | ⟨hc, -⟩⟩
      · rcases State.query_cases hq with ⟨e, -, rfl | ⟨hc, -⟩⟩ | ⟨tx, a, hc, -⟩ |
          ⟨a, -, -, -, -, rfl⟩
        · exact ht
        · cases hc
        · cases hc
        · exact ht
      · exact ht
      · cases hc
  case remove t q =>
    simp only [World.exec] at h
    split at h
    · rename_i n st' hr
      have gone : st'.tx p = none := by
        simp only [State.remove] at hr
        split at hr
        · cases hr
          exact ht
        · cases hr
      rcases remote_cases h with ⟨-, -, rfl⟩ | ⟨-, rfl | rfl⟩
      · exact gone
      · exact ht
      · exact gone
    · cases h
  case cachePut d =>
    cases h
    exact ht
  all_goals
    have hs : Same w w' := exec_local h trivial
    exact hs.1.store ▸ ht

/-- What was proved of a program outside a transaction holds beside an extension that each of its
steps keeps. -/
theorem lifted_of {φ : World → Prop} {x : App α} {Q : Except Err α → World → Prop} {U : Op → Prop}
    (h : Protocol.Valid machine g (Proofs.protocol db₀) p φ x Q) (hx : x.Uses U)
    (hU : ∀ o, U o → Lone o)
    (hstep : ∀ i o w r w', U o → g p o w → World.exec p i o w = some (r, w') →
      (X.protocol db₀).inv w → Idle k p w → Inv db₀ w' → Guar (some p) w w' →
      X.inv w' ∧ X.guar (some p) w w') :
    Protocol.Valid machine g (X.protocol db₀) p (fun w => φ w ∧ Idle k p w) x
      fun r w => Q r w ∧ Idle k p w := by
  refine h.lift hx (fun _ h => h.1) (fun _ _ _ h => h.1) stable_idle ?_
  intro i o w r w' ho hgo hex hi hidle hi' hg
  obtain ⟨hx', hgx⟩ := hstep i o w r w' ho hgo hex hi hidle hi' hg
  exact ⟨⟨hi', hx'⟩, ⟨hg, hgx⟩, hg.calls p k hidle.1, (hU o ho).idle hex hidle.2⟩

theorem lone_audit (actorId : Option Nat) (action targetType : String) (targetId : Option Nat)
    (metadata : List (String × Json)) :
    (audit actorId action targetType targetId metadata).Uses Lone :=
  any_audit fun _ => trivial

theorem Pooled.lone {o : Op} (ho : Pooled X o) : Lone o := by
  cases o
  case query c s => cases c <;> first | exact ho | trivial
  all_goals first | exact ho | trivial

/-- What was proved of a program outside a transaction holds beside the extension. -/
theorem Keeps.lifted (hX : X.Keeps db₀) {φ : World → Prop} {x : App α}
    {Q : Except Err α → World → Prop}
    (h : Protocol.Valid machine g (Proofs.protocol db₀) p φ x Q) (hx : x.Uses (Pooled X)) :
    Protocol.Valid machine g (X.protocol db₀) p (fun w => φ w ∧ Idle k p w) x
      fun r w => Q r w ∧ Idle k p w := by
  refine lifted_of h hx (fun _ => Pooled.lone) ?_
  intro i o w r w' ho _ hex hi hidle hi' hg
  obtain ⟨new, hc, hm⟩ := exec_makes hex
  have plain : ∀ x ∈ new, X.plain x := by
    cases hm with
    | nothing => exact fun _ hx => (List.not_mem_nil hx).elim
    | commit _ _ => exact ho.elim
    | query s => exact ho w
    | remove t q ks =>
      intro x hx
      rw [List.mem_singleton.1 hx]
      exact ho ks
  have feed : SameFeed w w' := exec_feed hex fun hf => by
    cases o with
    | publish t m id => exact ho
    | note e s => exact ho
    | index d => exact ho
    | unindex c => exact ho
    | mail m => exact ho
    | _ => exact hf
  exact hX.plain _ w w' hi.1 hi' hg ⟨⟨p, new, hc, plain⟩, fun _ => feed⟩ hi.2

end Steps

section Transactions

variable {φ : World → Prop}

variable (X db₀ p) in
/-- What neither another process nor the open transaction of `p` falsifies. -/
structure Firm (φ : World → Prop) : Prop where
  stable : (X.protocol db₀).Stable p φ
  unwritten : ∀ {w w' : World}, (X.protocol db₀).inv w → (X.protocol db₀).inv w' →
    (X.protocol db₀).guar (some p) w w' → Unwritten p w w' → φ w → φ w'

theorem Firm.of_tame (h : Tame db₀ p φ) : X.Firm db₀ p φ :=
  ⟨stable_of h.stable, fun hi hi' hg hu => h.unwritten hi.1 hi'.1 hg.1 hu⟩

theorem Lasts.firm (h : X.Lasts db₀ φ) : X.Firm db₀ p φ :=
  ⟨h.stable, fun hi hi' hg _ => h _ _ _ hi hi' hg⟩

theorem Firm.and {ψ : World → Prop} (hφ : X.Firm db₀ p φ) (hψ : X.Firm db₀ p ψ) :
    X.Firm db₀ p fun w => φ w ∧ ψ w :=
  ⟨hφ.stable.and hψ.stable, fun hi hi' hg hu h =>
    ⟨hφ.unwritten hi hi' hg hu h.1, hψ.unwritten hi hi' hg hu h.2⟩⟩

theorem stable_held (ws : List Write) : (X.protocol db₀).Stable p (Held p ws) :=
  stable_of (Proofs.stable_held ws)

/-- A statement of a transaction, by what it reads and writes. -/
theorem Keeps.held (hX : X.Keeps db₀) {s : Stmt} {ws : List Write} {Q : s.Out → World → Prop}
    (hφ : ∀ w, φ w → w.calls p = some k ∧ Held p ws w) (hs : Untokened s)
    (hok : ∀ w w' a free now, (X.protocol db₀).inv w → (X.protocol db₀).inv w' →
      (X.protocol db₀).guar (some p) w w' → φ w → g p (.query .tx s) w →
      w.store.tx p = some ⟨now, ws, false⟩ →
      (planIn ws w s free now).answer = .ok a → Staged p ws (planIn ws w s free now) w w' →
      Q a w')
    (hQ : ∀ a, (X.protocol db₀).Stable p (Q a)) :
    Protocol.Valid machine g (X.protocol db₀) p φ (perform (.query .tx s)) (onOk Q) := by
  refine Protocol.Valid.perform (fun i w r w' hi hw hg hx => ?_) fun r => ?_
  · have hx : World.exec p i (.query .tx s) w = some (r, w') := hx
    obtain ⟨hk, hh⟩ := hφ w hw
    obtain ⟨hi', hgu, h⟩ := exec_held hi.1 hk hh hs hx
    have feed : SameFeed w w' := exec_feed hx id
    have kept : (X.protocol db₀).inv w' ∧ (X.protocol db₀).guar (some p) w w' := by
      obtain ⟨new, hc, hm⟩ := exec_makes hx
      cases hm with
      | nothing => exact hX.idle hi hi' hgu hc.2 (by simpa using hc.1) feed
    refine ⟨kept.1, kept.2, ?_⟩
    rcases h with ⟨e, rfl, -⟩ | ⟨a, free, now, rfl, ht, ha, hst⟩
    · trivial
    · exact hok w w' a free now hi kept.1 kept.2 hw hg ht ha hst
  · cases r with
    | ok a => exact hQ a
    | error e => exact .const _ _ _

/-- An operation fails with an error of the database only. -/
theorem failing {L : Protocol World} {o : Op} {Q : o.Res → World → Prop}
    (h : Protocol.Valid machine g L p φ (perform o) (onOk Q)) :
    Protocol.Valid machine g L p φ (perform o) (ends StoreError Q) := by
  refine (h.throws (Prog.throws_perform o) fun _ _ _ _ _ => exec_error).post fun r w _ h => ?_
  cases r with
  | ok a => exact h.1
  | error e => exact h.2 e rfl

/-- A read of a transaction sees the committed rows under its own writes. -/
theorem Keeps.view (hX : X.Keeps db₀) {t : Table} {q : t.Row → Bool} {ws : List Write}
    {Q : List t.Row → World → Prop} (hk : ∀ w, φ w → w.calls p = some k)
    (h : ∀ w, (X.protocol db₀).inv w → φ w →
      Q ((Schema.Write.applyAll ws w.store.db t).filter q) w)
    (hQ : ∀ rows, X.Firm db₀ p fun w => φ w ∧ Q rows w) :
    Protocol.Valid machine g (X.protocol db₀) p (fun w => φ w ∧ Held p ws w) (select .tx t q)
      (onOk fun rows w => (φ w ∧ Q rows w) ∧ Held p ws w) := by
  refine hX.held (fun w h => ⟨hk w h.1, h.2⟩) trivial
    (fun w w' a free now hi hi' hgu hw _ _ ha hst => ?_) fun rows =>
      (hQ rows).stable.and (stable_held _)
  obtain rfl := Except.ok.inj ha
  refine ⟨(hQ _).unwritten hi hi' hgu hst.unwritten ⟨hw.1, h w hi hw.1⟩, ?_⟩
  have := hst.held
  rwa [planIn, Schema.Stmt.plan, List.append_nil] at this

/-- A locking read of a transaction that has written nothing yet. -/
theorem Keeps.lockRows (hX : X.Keeps db₀) {t : Table} {q : Nat → t.Row → Bool}
    {pick : List t.Row → List t.Row} {Q : List t.Row → World → Prop} (hφ : X.Firm db₀ p φ)
    (hk : ∀ w, φ w → w.calls p = some k) (hpick : ∀ rows, ∀ r ∈ pick rows, r ∈ rows)
    (h : ∀ w w' rows now, (X.protocol db₀).inv w → (X.protocol db₀).inv w' → φ w → φ w' →
      g p (.query .tx (.lock t (fun _ => q) pick false)) w →
      w.store.tx p = some ⟨now, [], false⟩ → (w'.store.tx p).map Tx.now = some now →
      rows = pick ((w.store.db t).filter (q now)) → (∀ r ∈ rows, Locked p t r w') → Q rows w')
    (hQ : ∀ rows, (X.protocol db₀).Stable p (Q rows)) :
    Protocol.Valid machine g (X.protocol db₀) p (fun w => φ w ∧ Held p [] w)
      (Backend.lockRows .tx t q pick) (onOk fun rows w => (φ w ∧ Q rows w) ∧ Held p [] w) := by
  refine hX.held (fun w h => ⟨hk w h.1, h.2⟩) trivial
    (fun w w' a free now hi hi' hgu hw hg ht ha hst => ?_)
    fun rows => (hφ.stable.and (hQ rows)).and (stable_held _)
  obtain rfl := Except.ok.inj ha
  have hw' := hφ.unwritten hi hi' hgu hst.unwritten hw.1
  refine ⟨⟨hw', h w w' _ now hi hi' hw.1 hw' hg ht (by rw [hst.now, ht]; rfl) ?_ fun r hr =>
    ⟨?_, hst.takes (t, schema.key t r) ?_⟩⟩, ?_⟩
  · simp
  · rw [hst.db]
    exact (List.mem_filter.1 (hpick _ r hr)).1
  · exact List.mem_map.2 ⟨r, hr, rfl⟩
  · have := hst.held
    rwa [planIn, Schema.Stmt.plan, List.append_nil] at this

/-- An insert of a transaction. -/
theorem Keeps.insertOne (hX : X.Keeps db₀) {t : Table} {make : Nat → Nat → t.Row}
    {ws : List Write} {Q : t.Row → Prop} (ht : t ≠ .refreshTokens) (hφ : X.Firm db₀ p φ)
    (hk : ∀ w, φ w → w.calls p = some k)
    (hQ : ∀ w id now, (X.protocol db₀).inv w → φ w → g p (.query .tx (.insert t [make])) w →
      Q (make id now)) :
    Protocol.Valid machine g (X.protocol db₀) p (fun w => φ w ∧ Held p ws w)
      (Backend.insertOne .tx t make)
      (onOk fun row w => (φ w ∧ Q row) ∧ Held p (ws ++ [.insert t row]) w) := by
  refine Protocol.Valid.bind (Q := onOk fun rows w => ∃ r, rows = [r] ∧ (φ w ∧ Q r) ∧
    Held p (ws ++ [.insert t r]) w) (hX.held (fun w h => ⟨hk w h.1, h.2⟩) ht
      (fun w w' a free now hi hi' hgu hw hg _ ha hst => ?_) fun rows => ?_) (fun rows => ?_)
    fun _ _ _ _ => trivial
  · obtain ⟨rfl, -, hws, -⟩ := Schema.Stmt.plan_insert ha
    refine ⟨make w.store.nextId now, rfl,
      ⟨hφ.unwritten hi hi' hgu hst.unwritten hw.1, hQ w _ _ hi hw.1 hg⟩, ?_⟩
    have := hst.held
    rwa [planIn, hws] at this
  · exact .exists fun r => .and (.const _ _ _) ((hφ.stable.and (.const _ _ _)).and (stable_held _))
  · cases rows with
    | nil => exact .throw fun _ _ _ => trivial
    | cons r rows =>
      refine .pure fun w _ h => ?_
      obtain ⟨r', hr, h⟩ := h
      cases hr
      exact h

/-- An update of a transaction. -/
theorem Keeps.update (hX : X.Keeps db₀) {t : Table} {q : t.Row → Bool}
    {f : Nat → schema.Assign t} {ws : List Write} (ht : t ≠ .refreshTokens)
    (hφ : X.Firm db₀ p φ) (hk : ∀ w, φ w → w.calls p = some k) :
    Protocol.Valid machine g (X.protocol db₀) p (fun w => φ w ∧ Held p ws w)
      (Backend.update .tx t q f)
      (onOk fun _ w => φ w ∧ ∃ now w₀, (φ w₀ ∧ (X.protocol db₀).inv w₀) ∧
        Held p (ws ++ [.update t (((Schema.Write.applyAll ws w₀.store.db t).filter q).map
          (schema.key t)) (f now)]) w) := by
  refine hX.held (fun w h => ⟨hk w h.1, h.2⟩) ht
    (fun w w' a free now hi hi' hgu hw _ _ ha hst => ?_) fun _ => hφ.stable.and
      (.exists fun _ => .exists fun _ => .and (.const _ _ _) (stable_held _))
  obtain ⟨hws, -⟩ := Schema.Stmt.plan_update ha
  refine ⟨hφ.unwritten hi hi' hgu hst.unwritten hw.1, now, w, ⟨hw.1, hi⟩, ?_⟩
  have := hst.held
  rwa [planIn, hws] at this

/-- What follows a parameter runs on the value it parses to. -/
theorem Keeps.parsed (hX : X.Keeps db₀) {x : Except SqlState α} {f : α → App β} {ws : List Write}
    {Q : β → World → Prop} (hk : ∀ w, φ w → w.calls p = some k)
    (hf : ∀ a, x = .ok a → Protocol.Valid machine g (X.protocol db₀) p
      (fun w => φ w ∧ Held p ws w) (f a) (onOk Q)) :
    Protocol.Valid machine g (X.protocol db₀) p (fun w => φ w ∧ Held p ws w)
      (parameter .tx x >>= f) (onOk Q) := by
  cases x with
  | ok a => exact hf a rfl
  | error e =>
    refine Protocol.Valid.bind (Q := onOk fun _ _ => False) ?_ (fun _ => ?_) fun _ _ _ _ => trivial
    · exact Protocol.Valid.bind (hX.held (s := .reject e) (Q := fun _ _ => False)
        (fun w h => ⟨hk w h.1, h.2⟩) trivial (fun _ _ _ _ _ _ _ _ _ _ _ ha _ => nomatch ha)
        fun _ => .const _ _ _) (fun _ => .throw fun _ _ _ => trivial) fun _ _ _ _ => trivial
    · exact (Protocol.Valid.exists (ι := Empty) (φ := fun _ _ => False) nofun).pre
        fun _ _ h => h.elim

/-- Operations on other servers leave the database alone. -/
theorem Keeps.apart (hX : X.Keeps db₀) {x : App α} (hx : x.Uses Local)
    (hst : (X.protocol db₀).Stable p φ)
    (hφ : ∀ w w', (X.protocol db₀).inv w → (X.protocol db₀).inv w' →
      (X.protocol db₀).guar (some p) w w' → Same w w' → φ w → φ w') :
    Protocol.Valid machine g (X.protocol db₀) p φ x fun _ => φ := by
  induction x with
  | pure a => exact .pure fun _ _ h => h
  | throw e => exact .throw fun _ _ h => h
  | op o next ih =>
    refine .op (fun _ => φ) (fun i w r w' hi hw _ hx' => ?_) (fun _ => hst) fun r => ih r (hx.2 r)
    have hs := exec_local hx' hx.1
    obtain ⟨hi', hg⟩ := hX.idle hi (hs.1.inv hi.1) (hs.guar (some p)) (by rw [hs.1.store])
      (by rw [hs.1.store]) hs.2
    exact ⟨hi', hg, hφ w w' hi hi' hg hs hw⟩

/-- Such operations outside a transaction. -/
theorem Keeps.elsewhere (hX : X.Keeps db₀) {x : App α} (hx : x.Uses Local) (hφ : X.Lasts db₀ φ) :
    Protocol.Valid machine g (X.protocol db₀) p (fun w => Idle k p w ∧ φ w) x
      fun _ w => Idle k p w ∧ φ w :=
  hX.apart hx (stable_idle.and hφ.stable) fun w w' hi hi' hg hs h =>
    ⟨⟨hg.1.calls p k h.1.1, hs.1.store ▸ h.1.2⟩, hφ _ w w' hi hi' hg h.2⟩

theorem local_broadcast (b : Broadcast) : (broadcast b).Uses Local :=
  ((Prog.uses_perform _).2 trivial).bind fun _ => .ite (fun _ => trivial)
    fun _ => (Prog.uses_perform _).2 trivial

/-- Such operations inside a transaction. -/
theorem Keeps.aside (hX : X.Keeps db₀) {x : App α} {ws : List Write} (hx : x.Uses Local)
    (hφ : X.Firm db₀ p φ) :
    Protocol.Valid machine g (X.protocol db₀) p (fun w => φ w ∧ Held p ws w) x
      fun _ w => φ w ∧ Held p ws w := by
  refine hX.apart hx (hφ.stable.and (stable_held ws)) fun w w' hi hi' hg hs h => ⟨?_, ?_⟩
  · exact hφ.unwritten hi hi' hg ⟨by rw [hs.1.store], by rw [hs.1.store], fun _ _ ho => by
      rwa [hs.1.store], fun _ ht => by rw [hs.1.store, ht]; rfl⟩ h.1
  · rw [Held, hs.1.store]
    exact h.2

theorem Keeps.audited (hX : X.Keeps db₀) (haudit : ∀ r, X.plain (.insert .audit r))
    {make : List (Nat → Nat → AuditLog)} {i : Input}
    {r : Except Err (Op.query .pool (.insert .audit make)).Res} (hi : (X.protocol db₀).inv w)
    (hk : w.calls p = some k)
    (h : World.exec p i (.query .pool (.insert .audit make)) w = some (r, w')) :
    (X.protocol db₀).inv w' ∧ (X.protocol db₀).guar none w w' ∧
      (X.protocol db₀).guar (some p) w w' := by
  obtain ⟨hi', hg⟩ := exec_audit hi.1 hk h
  obtain ⟨new, hc, hm⟩ := exec_makes h
  have plain : ∀ x ∈ new, X.plain x := by
    intro x hx
    cases hm with
    | nothing => exact (List.not_mem_nil hx).elim
    | query s =>
      obtain ⟨f, -, j, rfl⟩ := Schema.Stmt.mem_plan_insert hx
      exact haudit _
  have step : ∀ a, Guar a w w' → X.inv w' ∧ X.guar a w w' := fun a hg =>
    hX.plain a w w' hi.1 hi' hg ⟨⟨p, new, hc, plain⟩, fun _ => exec_feed h id⟩ hi.2
  exact ⟨⟨hi', (step none hg).1⟩, ⟨hg, (step none hg).2⟩, hg.weaken, (step _ hg.weaken).2⟩

/-- An audit entry goes another way than the transaction of its process. -/
theorem Keeps.audit (hX : X.Keeps db₀) (haudit : ∀ r, X.plain (.insert .audit r))
    {actorId : Option Nat} {action targetType : String} {targetId : Option Nat}
    {metadata : List (String × Json)} (hk : ∀ w, φ w → w.calls p = some k)
    (hφ : (X.protocol db₀).Stable p φ) :
    Protocol.Valid machine g (X.protocol db₀) p φ
      (Backend.audit actorId action targetType targetId metadata) (onOk fun _ => φ) := by
  refine Protocol.Valid.tryCatch (Q := fun _ => φ) ?_ (fun _ => .pure fun _ _ h => h)
    fun _ _ _ h => h
  refine Protocol.Valid.bind (Q := fun _ => φ) (Protocol.Valid.bind (Q := fun _ => φ)
    (Protocol.Valid.perform (fun i w r w' hi hw _ hx => ?_) fun _ => hφ) (fun rows => ?_)
    fun _ _ _ h => h) (fun _ => .pure fun _ _ h => h) fun _ _ _ h => h
  · obtain ⟨hi', hg, hgp⟩ := hX.audited haudit hi (hk w hw) hx
    exact ⟨hi', hgp, hφ none w w' nofun hi hi' hg hw⟩
  · cases rows with
    | nil => exact .throw fun _ _ h => h
    | cons row rows => exact .pure fun _ _ h => h

/-- What a COMMIT keeps. -/
structure Seals (X : Extension) (db₀ : Db) (p : Nat) (ws : List Write) (w : World)
    (st' : State schema) : Prop where
  brings : Brings db₀ w.calls w.arrived w.keyLog p ws w.store st'
  keeps : Inv db₀ (w.withStore st') → Guar (some p) w (w.withStore st') →
    X.inv (w.withStore st') ∧ X.guar (some p) w (w.withStore st')

theorem Keeps.commit (hX : X.Keeps db₀) {a : α} {R : α → List Write → World → Prop}
    {Q : α → World → Prop}
    (hcommit : ∀ ws w st', (X.protocol db₀).inv w → w.calls p = some k → Held p ws w → R a ws w →
      g p .commit w → State.Commits p ws w.store st' → X.Seals db₀ p ws w st' ∧
        ((X.protocol db₀).inv (w.withStore st') → Q a (w.withStore st')))
    (hQ : (X.protocol db₀).Stable p (Q a)) :
    Protocol.Valid machine g (X.protocol db₀) p
      (fun w => (∃ ws, Held p ws w ∧ R a ws w) ∧ w.calls p = some k) (perform .commit)
      fun r w => Idle k p w ∧ ends StoreError (fun _ => Q a) r w := by
  refine Protocol.Valid.perform (fun i w r w' hi ⟨⟨ws, hh, hR⟩, hk⟩ hg hx => ?_) fun r => ?_
  · have hx : World.exec p i .commit w = some (r, w') := hx
    have feed : SameFeed w w' := exec_feed hx id
    have done := fun st' hc => hcommit ws w st' hi hk hh hR hg hc
    obtain ⟨now, ht⟩ := hh
    rcases exec_commit hx with ⟨r₀, st', hc, rfl, hr⟩ | ⟨rfl, rfl⟩
    · obtain ⟨hok, hf⟩ := State.commit_ok hi.1.ok hc
      rcases State.commit_cases hc with ⟨hn, -⟩ | ⟨tx, htx, hfail, -⟩ | ⟨tx, htx, -, rfl⟩
      · cases hn.symm.trans ht
      · cases ht.symm.trans htx
        cases hfail
      · cases ht.symm.trans htx
        have hcm : State.Commits p ws w.store ((w.store.write p ws).rollback p) := ⟨rfl, rfl⟩
        obtain ⟨hs, hq⟩ := done _ hcm
        obtain ⟨hi', hgu⟩ := withStore_ok hi.1 hk hok hf (fun _ h => (Option.some.inj h).symm) hcm
          hs.brings (.inl rfl) (by simp)
        obtain ⟨hxi, hxg⟩ := hs.keeps hi' hgu
        refine ⟨⟨hi', hxi⟩, ⟨hgu, hxg⟩, ⟨hgu.calls p k hk, State.rollback_tx_self⟩, ?_⟩
        have hr₀ : r₀ = .ok () := by
          simp only [State.commit, ht, Prod.mk.injEq] at hc
          exact hc.1.symm
        rcases hr with rfl | rfl
        · rw [hr₀]
          exact hq ⟨hi', hxi⟩
        · exact .inl rfl
    · obtain ⟨hi', hgu⟩ := rollback_step hi.1 hk
      obtain ⟨hxi, hxg⟩ := hX.idle hi hi' hgu rfl rfl feed
      exact ⟨hxi, hxg, ⟨hgu.calls p k hk, State.rollback_tx_self⟩, .inl rfl⟩
  · refine .and stable_idle ?_
    cases r with
    | ok _ => exact hQ
    | error e => exact .const _ _ _

/-- A transaction that failed is rolled back. -/
theorem Keeps.rollback (hX : X.Keeps db₀) {E : Err → Prop} {e : Err} {Q : α → World → Prop} :
    Protocol.Valid machine g (X.protocol db₀) p (fun w => w.calls p = some k ∧ E e)
      (perform .rollback >>= fun _ => (throw e : App α)) fun r w => Idle k p w ∧ ends E Q r w := by
  refine Protocol.Valid.bind (Q := fun r w => (r = .ok () ∧ E e) ∧ Idle k p w)
    (Protocol.Valid.perform (fun i w r w' hi ⟨hk, he⟩ _ hx => ?_) fun _ =>
      .and (.const _ _ _) stable_idle)
    (fun _ => .throw fun _ _ h => ⟨h.2, h.1.2⟩) fun _ _ _ h => nomatch h.1.1
  have hx : World.exec p i .rollback w = some (r, w') := hx
  have feed : SameFeed w w' := exec_feed hx id
  cases hx
  obtain ⟨hi', hgu⟩ := rollback_step hi.1 hk
  obtain ⟨hxi, hxg⟩ := hX.idle hi hi' hgu rfl rfl feed
  exact ⟨hxi, hxg, ⟨rfl, he⟩, hgu.calls p k hk, State.rollback_tx_self⟩

/-- The transaction of `p` began at a time when its BEGIN was allowed. -/
def Opened (g : Nat → Op → World → Prop) (p : Nat) (w : World) : Prop :=
  ∃ w₀ : World, g p .begin w₀ ∧ w₀.clock ≤ w.clock ∧
    (w.store.tx p).map Tx.now = some w₀.clock

theorem firm_opened : X.Firm db₀ p (Opened g p) where
  stable := by
    rintro a w w' ha - - hg ⟨w₀, h₀, hle, ht⟩
    exact ⟨w₀, h₀, hle.trans hg.1.clock, by rw [hg.1.frame.tx p ha, ht]⟩
  unwritten := by
    rintro w w' - - hg hu ⟨w₀, h₀, hle, ht⟩
    obtain ⟨tx, htx, e⟩ := Option.map_eq_some_iff.1 ht
    exact ⟨w₀, h₀, hle.trans hg.1.clock, e ▸ hu.now tx htx⟩

theorem Keeps.begin (hX : X.Keeps db₀) (hφ : X.Firm db₀ p φ) :
    Protocol.Valid machine g (X.protocol db₀) p (fun w => Idle k p w ∧ φ w) (perform .begin)
      fun r w => w.calls p = some k ∧
        ends StoreError (fun _ w => (φ w ∧ Opened g p w) ∧ Held p [] w) r w := by
  refine Protocol.Valid.perform (fun i w r w' hi ⟨⟨hk, ht⟩, hw⟩ hg hx => ?_) fun r => ?_
  · have hx : World.exec p i .begin w = some (r, w') := hx
    have nothing := hX.idle hi hi.1 ((Same.refl w).guar (some p)) rfl rfl (.refl w)
    obtain ⟨r₀, st', hb, h⟩ := exec_begin hx
    obtain ⟨hok, hfr⟩ := State.begin_ok hi.1.ok hb
    rcases State.begin_cases hb with ⟨-, -, hopen⟩ | ⟨rfl, -, rfl⟩
    · exact (hopen ht).elim
    · have opened := withStore_idle hi.1 hk hok hfr rfl rfl fun tx htx x hx => by
        simp only [Function.update_self, Option.some.injEq] at htx
        simp [← htx] at hx
      obtain ⟨hxi, hxg⟩ := hX.idle hi opened.1 opened.2 rfl rfl ⟨rfl, rfl, rfl, rfl⟩
      rcases h with ⟨rfl, rfl⟩ | ⟨rfl, rfl | rfl⟩
      · have fresh : (Function.update w.store.tx p (some ⟨w.clock, [], false⟩) p : Option (Tx schema)) =
            some ⟨w.clock, [], false⟩ := Function.update_self ..
        refine ⟨hxi, hxg, hk, ⟨hφ.unwritten hi hxi hxg ⟨rfl, rfl, fun _ _ h => h, fun _ h =>
          nomatch ht.symm.trans h⟩ hw, w, hg, Nat.le_refl _, ?_⟩, w.clock, fresh⟩
        exact congrArg (Option.map Tx.now) fresh
      · exact ⟨nothing.1, nothing.2, hk, .inl rfl⟩
      · exact ⟨hxi, hxg, hk, .inl rfl⟩
  · refine .and (stable_of ((Persists.call p k).stable p)) ?_
    cases r with
    | ok _ => exact (hφ.stable.and firm_opened.stable).and (stable_held [])
    | error e => exact .const _ _ _

/-- The rule of a transaction: COMMIT writes what the body left. -/
theorem Keeps.transactionSince (hX : X.Keeps db₀) {body : App α} {R : α → List Write → World → Prop}
    {E : Err → Prop} {Q : α → World → Prop} (hE : ∀ e, StoreError e → E e) (hφ : X.Firm db₀ p φ)
    (hbody : Protocol.Valid machine g (X.protocol db₀) p
      (fun w => ((w.calls p = some k ∧ φ w) ∧ Opened g p w) ∧ Held p [] w) body
      (ends E fun a w => ∃ ws, Held p ws w ∧ R a ws w))
    (hcommit : ∀ a ws w st', (X.protocol db₀).inv w → w.calls p = some k → Held p ws w →
      R a ws w → g p .commit w → State.Commits p ws w.store st' → X.Seals db₀ p ws w st' ∧
        ((X.protocol db₀).inv (w.withStore st') → Q a (w.withStore st')))
    (hQ : ∀ a, (X.protocol db₀).Stable p (Q a)) :
    Protocol.Valid machine g (X.protocol db₀) p (fun w => Idle k p w ∧ φ w)
      (Backend.transaction body) fun r w => Idle k p w ∧ ends E Q r w := by
  have call : X.Lasts db₀ fun w => w.calls p = some k := .of_persists (.call p k)
  refine Protocol.Valid.tryCatch
    (Q := fun r w => w.calls p = some k ∧ ends E (fun a w => w.store.tx p = none ∧ Q a w) r w)
    ?_ (fun e => hX.rollback) fun a w _ h => ⟨⟨h.1, h.2.1⟩, h.2.2⟩
  refine Protocol.Valid.bind (hX.begin hφ) (fun _ => ?_) fun e _ _ h => ⟨h.1, hE e h.2⟩
  refine Protocol.Valid.bind ((hbody.frame call).pre fun w _ h =>
    ⟨⟨⟨⟨h.1, h.2.1.1⟩, h.2.1.2⟩, h.2.2⟩, h.1⟩) (fun a => ?_) fun _ _ _ h => ⟨h.2, h.1⟩
  exact Protocol.Valid.bind (hX.commit (hcommit a) (hQ a))
    (fun _ => .pure fun _ _ h => ⟨h.1.1, h.1.2, h.2⟩) fun e _ _ h => ⟨h.1.1, hE e h.2⟩

/-- The rule where neither the start of the transaction nor its errors matter. -/
theorem Keeps.transaction (hX : X.Keeps db₀) {body : App α} {R : α → List Write → World → Prop}
    {Q : α → World → Prop} (hφ : X.Firm db₀ p φ)
    (hbody : Protocol.Valid machine g (X.protocol db₀) p
      (fun w => (w.calls p = some k ∧ φ w) ∧ Held p [] w) body
      (onOk fun a w => ∃ ws, Held p ws w ∧ R a ws w))
    (hcommit : ∀ a ws w st', (X.protocol db₀).inv w → w.calls p = some k → Held p ws w →
      R a ws w → g p .commit w → State.Commits p ws w.store st' → X.Seals db₀ p ws w st' ∧
        ((X.protocol db₀).inv (w.withStore st') → Q a (w.withStore st')))
    (hQ : ∀ a, (X.protocol db₀).Stable p (Q a)) :
    Protocol.Valid machine g (X.protocol db₀) p (fun w => Idle k p w ∧ φ w)
      (Backend.transaction body) fun r w => Idle k p w ∧ onOk Q r w :=
  hX.transactionSince (fun _ _ => trivial) hφ (hbody.pre fun _ _ h => ⟨h.1.1, h.2⟩) hcommit hQ

end Transactions

section Pool

variable {c : Conn} {t : Table} {φ : World → Prop}

variable (X) in
/-- A statement that writes plain writes only. -/
def PlainStmt : Stmt → Prop
  | .insert t make => ∀ f ∈ make, ∀ id now, X.plain (.insert t (f id now))
  | .update t _ f => ∀ ks now, X.plain (.update t ks (f now))
  | _ => True

theorem PlainStmt.pooled {s : Stmt} (h : X.PlainStmt s) : X.Pooled (.query .pool s) := by
  intro w x hx
  rcases Schema.Stmt.mem_plan hx with ⟨t, make, rfl, f, hf, i, rfl⟩ | ⟨t, q, f, rfl, rfl⟩
  · exact h f hf _ _
  · exact h _ _

theorem uses_pooled {s : Stmt} (h : X.PlainStmt s) : (perform (.query .pool s)).Uses X.Pooled :=
  (Prog.uses_perform _).2 h.pooled

theorem pooled_select (q : t.Row → Bool) : (Backend.select .pool t q).Uses X.Pooled :=
  uses_pooled (s := .select t fun _ _ => q) trivial

theorem pooled_findOne (q : t.Row → Bool) : (Backend.findOne .pool t q).Uses X.Pooled :=
  (pooled_select q).bind fun _ => trivial

variable (X) in
/-- The extension does not speak of who joins a conversation. -/
structure Open : Prop where
  joins : ∀ (n : NewParticipant) id now, X.plain (.insert .participants (n.row id now))
  roles : ∀ ks role, X.plain (.update .participants ks (setRole role))
  audits : ∀ r, X.plain (.insert .audit r)

theorem Open.access (h : X.Open) (user : AuthUser) (conversationId : Nat) :
    (assertCanAccess user conversationId).Uses X.Pooled := by
  refine (visits_assertCanAccess user conversationId).mono fun o ho => ?_
  cases ho with
  | reads t q => exact PlainStmt.pooled (s := .select t q) trivial
  | joins make _ hm =>
    refine PlainStmt.pooled (s := .insert .participants make) fun f hf id now => ?_
    rw [hm f hf]
    exact h.joins _ id now
  | role q role =>
    exact PlainStmt.pooled (s := .update .participants q fun _ => setRole role)
      fun ks _ => h.roles ks role
  | logs make =>
    exact PlainStmt.pooled (s := .insert .audit [make]) fun _ _ _ _ => h.audits _

/-- A program of the pool, beside the extension. -/
theorem Keeps.called (hX : X.Keeps db₀) (hr : ¬Rotates k) (hs : ¬IsSend k) {x : App α}
    {Q : Except Err α → World → Prop} (h : Spec db₀ g k p (fun _ => True) x Q)
    (hx : x.Uses X.Pooled) :
    Protocol.Valid machine g (X.protocol db₀) p (Idle k p) x fun r w => Idle k p w ∧ Q r w :=
  ((hX.lifted (k := k) h hx).pre fun _ _ h => ⟨⟨base_of_idle hr hs h.1 h.2, trivial⟩, h⟩).post
    fun _ _ _ h => ⟨h.2, h.1.2⟩

/-- A program of which nothing is known but what it writes. -/
theorem Keeps.quiet (hX : X.Keeps db₀) (hr : ¬Rotates k) (hs : ¬IsSend k) {x : App α}
    (hq : x.Uses (QuietOp k)) (hx : x.Uses X.Pooled) :
    Protocol.Valid machine g (X.protocol db₀) p (Idle k p) x fun _ => Idle k p :=
  (hX.called hr hs (Spec.quiet hq (.const True)) hx).post fun _ _ _ h => h.1

/-- The check of access, beside the extension. -/
theorem Keeps.access (hX : X.Keeps db₀) (ho : X.Open) (hr : ¬Rotates k) (hs : ¬IsSend k)
    (user : AuthUser) (conversationId : Nat) :
    Protocol.Valid machine g (X.protocol db₀) p (Idle k p) (assertCanAccess user conversationId)
      fun r w => Idle k p w ∧
        onOk (fun conv w => conv.1.id = conversationId ∧ Accessed user conversationId w) r w := by
  refine (hX.called hr hs (spec_assertCanAccess user conversationId (.const True))
    (ho.access user conversationId)).post fun r w _ h => ⟨h.1, ?_⟩
  cases r with
  | ok conv => exact h.2.2
  | error e => trivial

/-- A parameter of the pool. -/
theorem Keeps.parameter (hX : X.Keeps db₀) (hr : ¬Rotates k) (hs : ¬IsSend k)
    (x : Except SqlState α) :
    Protocol.Valid machine g (X.protocol db₀) p (Idle k p) (Backend.parameter .pool x)
      fun r w => Idle k p w ∧ onOk (fun a _ => x = .ok a) r w := by
  refine (hX.called hr hs (spec_parsed (φ := fun _ => True) x (.const True)) ?_).post
    fun r w _ h => ⟨h.1, ?_⟩
  · cases x with
    | ok a => trivial
    | error e => exact (uses_pooled (s := .reject e) trivial).bind fun _ => trivial
  · cases r with
    | ok a => exact h.2.2
    | error e => trivial

/-- A read on a connection of the pool. -/
theorem Keeps.select (hX : X.Keeps db₀) {q : t.Row → Bool} {Q : List t.Row → World → Prop}
    (h : ∀ w, (X.protocol db₀).inv w → φ w → g p (.query .pool (.select t fun _ _ => q)) w →
      Q ((w.store.db t).filter q) w)
    (hQ : ∀ rows, (X.protocol db₀).Stable p (Q rows)) (hφ : (X.protocol db₀).Stable p φ) :
    Protocol.Valid machine g (X.protocol db₀) p φ (Backend.select .pool t q)
      fun r w => φ w ∧ onOk Q r w := by
  refine Protocol.Valid.perform (fun i w r w' hi hw hg hx => ?_) fun r => hφ.and ?_
  · obtain ⟨rfl, hr⟩ := exec_select hx
    have same := hX.idle hi hi.1 ((Same.refl w').guar (some p)) rfl rfl (.refl w')
    refine ⟨same.1, same.2, hw, ?_⟩
    rcases hr with rfl | rfl
    · exact h _ hi hw hg
    · trivial
  · cases r with
    | ok rows => exact hQ rows
    | error e => exact .const _ _ _

theorem Keeps.findOne (hX : X.Keeps db₀) {q : t.Row → Bool} {Q : Option t.Row → World → Prop}
    (h : ∀ w, (X.protocol db₀).inv w → φ w → Q ((w.store.db t).filter q).head? w)
    (hQ : ∀ r, (X.protocol db₀).Stable p (Q r)) (hφ : (X.protocol db₀).Stable p φ) :
    Protocol.Valid machine g (X.protocol db₀) p φ (Backend.findOne .pool t q)
      fun r w => φ w ∧ onOk Q r w :=
  Protocol.Valid.bind (hX.select (Q := fun rows => Q rows.head?) (fun w hi hw _ => h w hi hw)
    (fun _ => hQ _) hφ)
    (fun _ => .pure fun _ _ h => h) fun _ _ _ h => h

/-- An update on a connection of the pool that is calm on the rows it selects. -/
theorem Keeps.updateRows (hX : X.Keeps db₀) {q : t.Row → Bool}
    {f : Nat → schema.Assign t} (hfree : Free k .pool t)
    (hmay : ∀ ks now, May k (.update t ks (f now))) (hφ : X.Lasts db₀ φ)
    (h : ∀ w, (X.protocol db₀).inv w → φ w → ∀ r ∈ w.store.db t, q r = true →
      Still t r ((f w.clock).set r))
    (hkeeps : ∀ w st' ks, (X.protocol db₀).inv w → φ w →
      g p (.query .pool (.update t (fun _ _ => q) f)) w →
      ks = ((w.store.db t).filter q).map (schema.key t) →
      State.Commits p [.update t ks (f w.clock)] w.store st' → Inv db₀ (w.withStore st') →
      Guar (some p) w (w.withStore st') →
      X.inv (w.withStore st') ∧ X.guar (some p) w (w.withStore st')) :
    Protocol.Valid machine g (X.protocol db₀) p (fun w => Idle k p w ∧ φ w)
      (Backend.update .pool t q f) fun _ w => Idle k p w ∧ φ w := by
  refine Protocol.Valid.perform (fun i w r w' hi ⟨hidle, hw⟩ hg hx => ?_) fun _ =>
    stable_idle.and hφ.stable
  rcases exec_update hi.1 hx with ⟨rfl, -⟩ | ⟨st', ks, hks, rfl, -, hok, hf, htx, hc, -⟩
  · have same := hX.idle hi hi.1 ((Same.refl w').guar (some p)) rfl rfl (.refl w')
    exact ⟨same.1, same.2, hidle, hw⟩
  · have brings := brings_update hi.1 hidle.1 hfree (hmay ks w.clock) (h w hi hw) hks hc
    obtain ⟨hi', hgu⟩ := withStore_ok (a := some p) hi.1 hidle.1 hok hf.weaken
      (fun _ h => (Option.some.inj h).symm) hc brings (.inl rfl) (htx ▸ hi.1.apart p)
    obtain ⟨hxi, hxg⟩ := hkeeps w st' ks hi hw hg hks hc hi' hgu
    exact ⟨⟨hi', hxi⟩, ⟨hgu, hxg⟩, ⟨hgu.calls p k hidle.1, htx.trans hidle.2⟩,
      hφ (some p) w _ hi ⟨hi', hxi⟩ ⟨hgu, hxg⟩ hw⟩

end Pool

end Extension

end Messageries.Proofs
