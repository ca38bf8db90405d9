import Messageries.Concurrency.Asserting
import Messageries.Proofs.Access

set_option linter.unusedSectionVars false

namespace Messageries.Proofs

open Text Relational Database Crypto Concurrency Backend

variable [AesGcm] [TokenHash] {db₀ : Db} {g : Nat → Op → World → Prop} {k : Call} {p : Nat}
  {E : Err → Prop}

section Held

/-- The open transaction of `p` made the writes `ws`, and none of its statements failed. -/
def Held (p : Nat) (ws : List Write) (w : World) : Prop := ∃ t, w.store.tx p = some ⟨t, ws, false⟩

theorem stable_held (ws : List Write) : (protocol db₀).Stable p (Held p ws) :=
  fun _ _ _ ha _ _ hg ⟨t, ht⟩ => ⟨t, (hg.frame.tx p ha).trans ht⟩

/-- A statement of the transaction of `p` failed. -/
def Failed (p : Nat) (w : World) : Prop := ∃ tx, w.store.tx p = some tx ∧ tx.failed = true

theorem stable_failed : (protocol db₀).Stable p (Failed p) :=
  fun _ _ _ ha _ _ hg ⟨tx, ht, hf⟩ => ⟨tx, (hg.frame.tx p ha).trans ht, hf⟩

theorem Held.fail {ws : List Write} {w : World} (h : Held p ws w) :
    Failed p (w.withStore (w.store.fail p)) := by
  obtain ⟨t, ht⟩ := h
  exact ⟨⟨t, ws, true⟩, by simp [World.withStore, State.fail, ht], rfl⟩

/-- `p` read the row and keeps the others from writing it. -/
structure Locked (p : Nat) (t : Table) (r : t.Row) (w : World) : Prop where
  row : r ∈ w.store.db t
  owner : w.store.owner t (schema.key t r) = some p

theorem stable_locked (t : Table) (r : t.Row) : (protocol db₀).Stable p (Locked p t r) := by
  intro a w w' ha _ _ hg h
  refine ⟨?_, hg.frame.owner p ha _ _ h.owner⟩
  have hr : r ∈ schema.rowsAt t (schema.key t r) w.store.db := Schema.mem_rowsAt.2 ⟨h.row, rfl⟩
  rw [← hg.frame.row p ha _ _ h.owner] at hr
  exact (Schema.mem_rowsAt.1 hr).1

/-- What a statement leaves behind after the writes `ws`. -/
structure Staged {α : Type} (p : Nat) (ws : List Write) (pl : Plan schema α) (w w' : World) :
    Prop where
  held : Held p (ws ++ pl.writes) w'
  db : w'.store.db = w.store.db
  wal : w'.store.wal = w.store.wal
  nextId : w'.store.nextId = w.store.nextId + pl.fresh
  takes : ∀ l ∈ pl.locks, w'.store.owner l.1 l.2 = some p
  keeps : ∀ t key, w.store.owner t key = some p → w'.store.owner t key = some p
  now : (w'.store.tx p).map Tx.now = (w.store.tx p).map Tx.now

/-- What a statement reads and asks for after the writes `ws`. -/
def planIn (ws : List Write) (w : World) (s : Stmt) (free : Table → Key → Bool) (now : Nat) :
    Plan schema s.Out :=
  s.plan (Schema.Write.applyAll ws w.store.db) free w.store.nextId now

/-- Tokens are only written on connections of the pool. -/
def Untokened : Stmt → Prop
  | .insert t _ => t ≠ .refreshTokens
  | .update t _ _ => t ≠ .refreshTokens
  | _ => True

theorem Untokened.plan {s : Stmt} (h : Untokened s) (v : Db) (free : Table → Key → Bool)
    (id now : Nat) : ∀ x ∈ (s.plan v free id now).writes, writesTo x ≠ .refreshTokens := by
  intro x hx
  rcases Schema.Stmt.mem_plan hx with ⟨t, make, rfl, f, -, i, rfl⟩ | ⟨t, q, f, rfl, rfl⟩
  · exact h
  · exact h

/-- A statement on the connection of a transaction. -/
theorem exec_tx {s : Stmt} {i : Input} {w w' : World} {r : Except Err (Op.query .tx s).Res}
    (h : World.exec p i (.query .tx s) w = some (r, w')) :
    (∃ r₀ st', w.store.query p .tx w.clock s = some (r₀, st') ∧ r = r₀.mapError .sql ∧
      w' = w.withStore st') ∨
    (r = .error .fault ∧ w' = w.withStore (w.store.fail p)) := by
  simp only [World.exec, World.query] at h
  cases hf : i.fault with
  | none =>
    simp only [hf] at h
    obtain ⟨⟨r₀, st'⟩, hq, hx⟩ := Option.map_eq_some_iff.1 h
    cases hx
    exact .inl ⟨r₀, st', hq, rfl, rfl⟩
  | before =>
    simp only [hf] at h
    cases h
    exact .inr ⟨rfl, rfl⟩
  | after =>
    simp only [hf] at h
    cases h
    exact .inr ⟨rfl, rfl⟩

/-- A statement of an open transaction. -/
theorem exec_held {s : Stmt} {ws : List Write} {i : Input} {w w' : World}
    {r : Except Err (Op.query .tx s).Res} (hi : Inv db₀ w) (hk : w.calls p = some k)
    (hh : Held p ws w) (hs : Untokened s) (h : World.exec p i (.query .tx s) w = some (r, w')) :
    Inv db₀ w' ∧ Guar (some p) w w' ∧
      ((∃ e, r = .error e ∧ Failed p w' ∧
        (e = .fault ∨ ∃ c free now, e = .sql c ∧ (planIn ws w s free now).answer = .error c)) ∨
      ∃ a free now, r = .ok a ∧ w.store.tx p = some ⟨now, ws, false⟩ ∧
        (planIn ws w s free now).answer = .ok a ∧ Staged p ws (planIn ws w s free now) w w') := by
  have failed := fail_step hi hk
  have fails : Failed p (w.withStore (w.store.fail p)) := hh.fail
  obtain ⟨now, ht⟩ := hh
  have plan : planIn ws w s (w.store.free (some p)) now =
      s.plan (w.store.view p) (w.store.free (some p)) w.store.nextId now := by
    rw [planIn, ← State.view_of_some ht]
  rcases exec_tx h with ⟨r₀, st', hq, rfl, rfl⟩ | ⟨rfl, rfl⟩
  · obtain ⟨hok, hf⟩ := State.query_ok hi.ok hq
    rcases State.query_open ht rfl hq with ⟨e, rfl, ha, rfl⟩ | ⟨a, rfl, ha, hl, rfl⟩
    · exact ⟨failed.1, failed.2, .inl ⟨_, rfl, fails, .inr ⟨e, _, _, rfl, plan ▸ ha⟩⟩⟩
    · obtain ⟨hi', hg⟩ := withStore_idle hi hk hok hf rfl rfl
        (stage_apart (hi.apart p) ht fun x hx => hs.plan _ _ _ _ x hx)
      refine ⟨hi', hg, .inr ⟨a, w.store.free (some p), now, rfl, ht, plan ▸ ha, ?_⟩⟩
      rw [plan]
      refine ⟨⟨now, ?_⟩, rfl, rfl, rfl, fun l hl => ?_, fun t key ho => ?_, ?_⟩
      · simp [World.withStore, State.stage]
      · exact if_pos hl
      · simp [World.withStore, State.stage, ho]
      · simp [World.withStore, State.stage, ht]
  · exact ⟨failed.1, failed.2, .inl ⟨_, rfl, fails, .inl rfl⟩⟩

end Held

section Rules

variable {α : Type} {φ : World → Prop}

/-- The postcondition of a part of a transaction that fails with the transaction. -/
def fails {α : Type} (p : Nat) (E : Err → Prop) (Q : α → World → Prop) :
    Except Err α → World → Prop
  | .ok a, w => Q a w
  | .error e, w => Failed p w ∧ E e

theorem ends_of_fails {Q : α → World → Prop} {r : Except Err α} {w : World}
    (h : fails p E Q r w) : ends E Q r w := by
  cases r with
  | ok a => exact h
  | error e => exact h.2

/-- A statement of a transaction, by what it reads and writes. -/
theorem valid_held {s : Stmt} {ws : List Write} {Q : s.Out → World → Prop}
    (hφ : ∀ w, φ w → w.calls p = some k ∧ Held p ws w) (hs : Untokened s)
    (hok : ∀ w w' a free now, Inv db₀ w → Inv db₀ w' → Guar (some p) w w' → φ w →
      g p (.query .tx s) w → (planIn ws w s free now).answer = .ok a →
      Staged p ws (planIn ws w s free now) w w' →
      Q a w')
    (herr : ∀ w c free now, Inv db₀ w → φ w → g p (.query .tx s) w →
      (planIn ws w s free now).answer = .error c → E (.sql c))
    (hf : E .fault) (hQ : ∀ a, (protocol db₀).Stable p (Q a)) :
    Protocol.Valid machine g (protocol db₀) p φ (perform (.query .tx s)) (fails p E Q) := by
  refine Protocol.Valid.perform (fun i w r w' hi hw hg hx => ?_) fun r => ?_
  · obtain ⟨hi', hgu, h⟩ := exec_held hi (hφ w hw).1 (hφ w hw).2 hs hx
    refine ⟨hi', hgu, ?_⟩
    rcases h with ⟨e, rfl, hfail, rfl | ⟨c, free, now, rfl, ha⟩⟩ | ⟨a, free, now, rfl, -, ha, hst⟩
    · exact ⟨hfail, hf⟩
    · exact ⟨hfail, herr w c free now hi hw hg ha⟩
    · exact hok w w' a free now hi hi' hgu hw hg ha hst
  · cases r with
    | ok a => exact hQ a
    | error e => exact stable_failed.and (.const _ _ _)

/-- A step of `p` that commits nothing, gives no lock back and ends no transaction. -/
structure Unwritten (p : Nat) (w w' : World) : Prop where
  db : w'.store.db = w.store.db
  wal : w'.store.wal = w.store.wal
  keeps : ∀ t key, w.store.owner t key = some p → w'.store.owner t key = some p
  now : ∀ tx, w.store.tx p = some tx → (w'.store.tx p).map Tx.now = some tx.now

theorem Staged.unwritten {α : Type} {ws : List Write} {pl : Plan schema α} {w w' : World}
    (h : Staged p ws pl w w') : Unwritten p w w' :=
  ⟨h.db, h.wal, h.keeps, fun tx ht => by rw [h.now, ht]; rfl⟩

/-- What neither another process nor the open transaction of `p` falsifies. -/
structure Tame (db₀ : Db) (p : Nat) (φ : World → Prop) : Prop where
  stable : (protocol db₀).Stable p φ
  unwritten : ∀ {w w' : World}, Inv db₀ w → Inv db₀ w' → Guar (some p) w w' →
    Unwritten p w w' → φ w → φ w'

theorem Tame.staged {β : Type} {ws : List Write} {pl : Plan schema β} {w w' : World}
    (h : Tame db₀ p φ) (hi : Inv db₀ w) (hi' : Inv db₀ w') (hg : Guar (some p) w w')
    (hs : Staged p ws pl w w') (hw : φ w) : φ w' :=
  h.unwritten hi hi' hg hs.unwritten hw

theorem Persists.tame (h : Persists db₀ φ) : Tame db₀ p φ :=
  ⟨h.stable p, fun hi hi' hg _ hw => h _ _ _ hi hi' hg hw⟩

theorem Tame.and {ψ : World → Prop} (hφ : Tame db₀ p φ) (hψ : Tame db₀ p ψ) :
    Tame db₀ p fun w => φ w ∧ ψ w :=
  ⟨hφ.stable.and hψ.stable, fun hi hi' hg hs h =>
    ⟨hφ.unwritten hi hi' hg hs h.1, hψ.unwritten hi hi' hg hs h.2⟩⟩

theorem Tame.imp {P : Prop} (h : P → Tame db₀ p φ) : Tame db₀ p fun w => P → φ w :=
  ⟨.imp fun hP => (h hP).stable, fun hi hi' hg hs hw hP => (h hP).unwritten hi hi' hg hs (hw hP)⟩

theorem Tame.forall {ι : Sort*} {φ : ι → World → Prop} (h : ∀ i, Tame db₀ p (φ i)) :
    Tame db₀ p fun w => ∀ i, φ i w :=
  ⟨fun a w w' ha hi hi' hg hw i => (h i).stable a w w' ha hi hi' hg (hw i),
    fun hi hi' hg hs hw i => (h i).unwritten hi hi' hg hs (hw i)⟩

theorem tame_locked (t : Table) (r : t.Row) : Tame db₀ p (Locked p t r) :=
  ⟨stable_locked t r, fun _ _ _ hs h => ⟨hs.db ▸ h.row, hs.keeps _ _ h.owner⟩⟩

theorem tame_silent : Tame db₀ p fun w => own p w.store.wal = [] := by
  refine ⟨fun a w w' ha _ _ hg h => own_eq_nil.2 fun x hx => ?_, fun _ _ _ hs h => hs.wal ▸ h⟩
  rcases hg.author p x hx with hx | he | ht
  · exact own_eq_nil.1 h x hx
  · exact (ha he).elim
  · rw [ht]
    rfl

/-- A read of a transaction sees the committed rows under its own writes. -/
theorem valid_view {t : Table} {q : t.Row → Bool} {ws : List Write} {Q : List t.Row → World → Prop}
    (hφ : Tame db₀ p φ) (hk : ∀ w, φ w → w.calls p = some k)
    (h : ∀ w, Inv db₀ w → φ w → Held p ws w →
      Q ((Schema.Write.applyAll ws w.store.db t).filter q) w)
    (hQ : ∀ rows, Tame db₀ p (Q rows)) (hf : E .fault) :
    Protocol.Valid machine g (protocol db₀) p (fun w => φ w ∧ Held p ws w) (select .tx t q)
      (fails p E fun rows w => (φ w ∧ Q rows w) ∧ Held p ws w) := by
  refine valid_held (fun w h => ⟨hk w h.1, h.2⟩) trivial
    (fun w w' a free now hi hi' hgu hw hg ha hst => ?_) (fun w e free now hi hw hg he => nomatch he)
    hf fun rows => (hφ.stable.and (hQ rows).stable).and (stable_held _)
  obtain rfl := Except.ok.inj ha
  refine ⟨⟨hφ.staged hi hi' hgu hst hw.1, ?_⟩, ?_⟩
  · exact (hQ _).staged hi hi' hgu hst (h w hi hw.1 hw.2)
  · have := hst.held
    rwa [planIn, Schema.Stmt.plan, List.append_nil] at this

theorem valid_viewOne {t : Table} {q : t.Row → Bool} {ws : List Write}
    {Q : Option t.Row → World → Prop} (hφ : Tame db₀ p φ) (hk : ∀ w, φ w → w.calls p = some k)
    (h : ∀ w, Inv db₀ w → φ w → Held p ws w →
      Q ((Schema.Write.applyAll ws w.store.db t).filter q).head? w)
    (hQ : ∀ r, Tame db₀ p (Q r)) (hf : E .fault) :
    Protocol.Valid machine g (protocol db₀) p (fun w => φ w ∧ Held p ws w) (findOne .tx t q)
      (fails p E fun r w => (φ w ∧ Q r w) ∧ Held p ws w) :=
  Protocol.Valid.bind (valid_view (Q := fun rows => Q rows.head?) hφ hk h (fun _ => hQ _) hf)
    (fun _ => .pure fun _ _ h => h) fun _ _ _ h => h

/-- A locking read of a transaction that has written nothing yet. -/
theorem valid_lock {t : Table} {q : Nat → t.Row → Bool} {pick : List t.Row → List t.Row}
    {skip : Bool} {Q : List t.Row → World → Prop} (hφ : Tame db₀ p φ)
    (hk : ∀ w, φ w → w.calls p = some k)
    (hpick : ∀ rows, ∀ r ∈ pick rows, r ∈ rows)
    (h : ∀ w rows, Inv db₀ w → φ w → (∀ r ∈ rows, Locked p t r w) →
      (∃ (now : Nat) (free : t.Row → Bool),
        rows = pick ((w.store.db t).filter fun r => q now r && (!skip || free r))) →
      Q rows w)
    (hQ : ∀ rows, (protocol db₀).Stable p (Q rows)) (hf : E .fault) :
    Protocol.Valid machine g (protocol db₀) p (fun w => φ w ∧ Held p [] w)
      (perform (.query .tx (.lock t (fun _ => q) pick skip)))
      (fails p E fun (rows : List t.Row) w => (φ w ∧ Q rows w) ∧ Held p [] w) := by
  refine valid_held (fun w h => ⟨hk w h.1, h.2⟩) trivial
    (fun w w' a free now hi hi' hgu hw hg ha hst => ?_) (fun w e free now hi hw hg he => nomatch he)
    hf fun rows => (hφ.stable.and (hQ rows)).and (stable_held _)
  obtain rfl := Except.ok.inj ha
  have hw' := hφ.staged hi hi' hgu hst hw.1
  refine ⟨⟨hw', h w' _ hi' hw' (fun r hr => ⟨?_, hst.takes (t, schema.key t r) ?_⟩)
    ⟨now, fun r => free t (schema.key t r), ?_⟩⟩, ?_⟩
  · rw [hst.db]
    exact (List.mem_filter.1 (hpick _ r hr)).1
  · exact List.mem_map.2 ⟨r, hr, rfl⟩
  · rw [hst.db]
    rfl
  · have := hst.held
    rwa [planIn, Schema.Stmt.plan, List.append_nil] at this

theorem valid_lockRows {t : Table} {q : Nat → t.Row → Bool} {Q : List t.Row → World → Prop}
    (hφ : Tame db₀ p φ) (hk : ∀ w, φ w → w.calls p = some k)
    (h : ∀ w rows, Inv db₀ w → φ w → (∀ r ∈ rows, Locked p t r w) →
      (∃ now, rows = (w.store.db t).filter (q now)) → Q rows w)
    (hQ : ∀ rows, (protocol db₀).Stable p (Q rows)) (hf : E .fault) :
    Protocol.Valid machine g (protocol db₀) p (fun w => φ w ∧ Held p [] w) (lockRows .tx t q id)
      (fails p E fun (rows : List t.Row) w => (φ w ∧ Q rows w) ∧ Held p [] w) := by
  refine valid_lock hφ hk (fun _ _ hr => hr) (fun w rows hi hw hl ⟨now, free, hrows⟩ => ?_) hQ hf
  exact h w rows hi hw hl ⟨now, by simpa using hrows⟩

/-- An insert of a transaction. -/
theorem valid_insertAll {t : Table} {make : List (Nat → Nat → t.Row)} {ws : List Write}
    {Q : List t.Row → Prop} (ht : t ≠ .refreshTokens) (hφ : Tame db₀ p φ)
    (hk : ∀ w, φ w → w.calls p = some k)
    (hQ : ∀ id now, (make.mapIdx fun i f => f (id + i) now).findSome? (schema.check t) = none →
      Q (make.mapIdx fun i f => f (id + i) now))
    (herr : ∀ s, E (.sql s)) (hf : E .fault) :
    Protocol.Valid machine g (protocol db₀) p (fun w => φ w ∧ Held p ws w) (insertAll .tx t make)
      (fails p E fun rows w => (φ w ∧ Q rows) ∧
        Held p (ws ++ rows.map (Schema.Write.insert (S := schema) t)) w) := by
  refine valid_held (fun w h => ⟨hk w h.1, h.2⟩) ht
    (fun w w' a free now hi hi' hgu hw hg ha hst => ?_) (fun w e free now hi hw hg he => herr e)
    hf fun rows => (hφ.stable.and (.const _ _ _)).and (stable_held _)
  obtain ⟨rfl, hcheck, hws, -⟩ := Schema.Stmt.plan_insert ha
  refine ⟨⟨hφ.staged hi hi' hgu hst hw.1, hQ _ _ hcheck⟩, ?_⟩
  have := hst.held
  rwa [planIn, hws] at this

theorem valid_insertOne {t : Table} {make : Nat → Nat → t.Row} {ws : List Write}
    {Q : t.Row → Prop} (ht : t ≠ .refreshTokens) (hφ : Tame db₀ p φ)
    (hk : ∀ w, φ w → w.calls p = some k)
    (hQ : ∀ id now, schema.check t (make id now) = none → Q (make id now))
    (herr : ∀ s, E (.sql s)) (hf : E .fault) (hu : E .unexpected) :
    Protocol.Valid machine g (protocol db₀) p (fun w => φ w ∧ Held p ws w) (insertOne .tx t make)
      (ends E fun row w => (φ w ∧ Q row) ∧ Held p (ws ++ [.insert t row]) w) := by
  refine Protocol.Valid.bind (valid_insertAll (Q := fun rows => ∃ r, rows = [r] ∧ Q r) ht hφ hk
    (fun id now hc => ⟨make id now, rfl, hQ id now ?_⟩) herr hf) (fun rows => ?_)
    fun _ _ _ h => h.2
  · simpa using hc
  · cases rows with
    | nil => exact .throw fun _ _ _ => hu
    | cons r rows =>
      refine .pure fun w _ ⟨⟨hw, r', hr, hq⟩, hh⟩ => ?_
      cases hr
      exact ⟨⟨hw, hq⟩, hh⟩

/-- An update of a transaction. -/
theorem valid_update {t : Table} {q : t.Row → Bool} {f : Nat → schema.Assign t} {ws : List Write}
    {Q : Nat → List Key → Prop} (ht : t ≠ .refreshTokens) (hφ : Tame db₀ p φ)
    (hk : ∀ w, φ w → w.calls p = some k)
    (hQ : ∀ w now, Inv db₀ w → φ w → Held p ws w →
      Q now (((Schema.Write.applyAll ws w.store.db t).filter q).map (schema.key t)))
    (herr : ∀ s, E (.sql s)) (hf : E .fault) :
    Protocol.Valid machine g (protocol db₀) p (fun w => φ w ∧ Held p ws w) (update .tx t q f)
      (fails p E fun _ w => φ w ∧ ∃ now ks, Q now ks ∧ Held p (ws ++ [.update t ks (f now)]) w) := by
  refine valid_held (fun w h => ⟨hk w h.1, h.2⟩) ht
    (fun w w' a free now hi hi' hgu hw hg ha hst => ?_) (fun w e free now hi hw hg he => herr e)
    hf fun rows => hφ.stable.and (.exists fun _ => .exists fun _ => .and (.const _ _ _) (stable_held _))
  obtain ⟨hws, -⟩ := Schema.Stmt.plan_update ha
  refine ⟨hφ.staged hi hi' hgu hst hw.1, now, _, hQ w now hi hw.1 hw.2, ?_⟩
  have := hst.held
  rwa [planIn, hws] at this

/-- The rest of a function runs when its test let it pass. -/
theorem asserts_refuse {β : Type} {b : Prop} [Decidable b] {e : Err} {f : Unit → App β}
    {C : Op → World → Prop} {R : Except Err β → World → Prop}
    (hf : ¬b → Protocol.Asserts machine g (protocol db₀) p C φ (f ()) R)
    (he : ∀ w, Inv db₀ w → φ w → R (.error e) w) :
    Protocol.Asserts machine g (protocol db₀) p C φ (onlyIf b (throw e) >>= f) R := by
  unfold onlyIf
  split
  · exact .throw he
  · exact hf ‹_›

/-- A parameter that does not parse fails the transaction. -/
theorem valid_parameter {β : Type} {e : SqlState} {ws : List Write} {Q : β → World → Prop}
    (hφ : ∀ w, φ w → w.calls p = some k ∧ Held p ws w) (hf : E .fault) (he : E (.sql e)) :
    Protocol.Valid machine g (protocol db₀) p φ (parameter .tx (.error e)) (fails p E Q) := by
  refine Protocol.Valid.bind (Q := fails p E fun _ _ => False) (valid_held (s := .reject e) hφ
    trivial (fun w w' a free now _ _ _ _ _ ha _ => nomatch ha) (fun w c free now _ _ _ hc => ?_)
    hf fun _ => .const _ _ _) (fun _ => .throw fun _ _ h => h.elim) fun _ _ _ h => h
  cases hc
  exact he

/-- After a failure no statement is executed. -/
theorem valid_failed {s : Stmt} {Q : s.Out → World → Prop}
    (hφ : ∀ w, φ w → w.calls p = some k ∧ Failed p w) (hf : E .fault)
    (hE : E (.sql .inFailedTransaction)) :
    Protocol.Valid machine g (protocol db₀) p φ (perform (.query .tx s)) (fails p E Q) := by
  refine Protocol.Valid.post (Q := fails p E fun _ _ => False) (Protocol.Valid.perform
    (fun i w r w' hi hw _ hx => ?_) fun r => ?_) fun r w _ h => ?_
  · obtain ⟨hk, tx, ht, hfail⟩ := hφ w hw
    have failed := fail_step hi hk
    rcases exec_tx hx with ⟨r₀, st', hq, rfl, rfl⟩ | ⟨rfl, rfl⟩
    · simp only [State.query, ht, hfail, if_true, Option.some.injEq, Prod.mk.injEq] at hq
      obtain ⟨rfl, rfl⟩ := hq
      exact ⟨hi, (Same.refl w).guar _, ⟨tx, ht, hfail⟩, hE⟩
    · refine ⟨failed.1, failed.2, ⟨{ tx with failed := true }, ?_, rfl⟩, hf⟩
      simp [World.withStore, State.fail, ht]
  · cases r with
    | ok a => exact .const _ _ _
    | error e => exact stable_failed.and (.const _ _ _)
  · cases r with
    | ok a => exact h.elim
    | error e => exact h

/-- A read on a connection of the pool leaves everything as it is. -/
theorem valid_select {t : Table} {q : t.Row → Bool} {Q : List t.Row → World → Prop}
    (h : ∀ w, Inv db₀ w → φ w → g p (.query .pool (.select t fun _ _ => q)) w →
      Q ((w.store.db t).filter q) w)
    (hf : E .fault) (hQ : ∀ rows, (protocol db₀).Stable p (Q rows)) :
    Protocol.Valid machine g (protocol db₀) p φ (select .pool t q) (ends E Q) := by
  refine Protocol.Valid.perform (fun i w r w' hi hw hg hx => ?_) fun r => ?_
  · obtain ⟨rfl, rfl | rfl⟩ := exec_select hx
    · exact ⟨hi, (Same.refl _).guar _, h _ hi hw hg⟩
    · exact ⟨hi, (Same.refl _).guar _, hf⟩
  · cases r with
    | ok rows => exact hQ rows
    | error e => exact .const _ _ _

theorem valid_findOne {t : Table} {q : t.Row → Bool} {Q : Option t.Row → World → Prop}
    (h : ∀ w, Inv db₀ w → φ w → g p (.query .pool (.select t fun _ _ => q)) w →
      Q ((w.store.db t).filter q).head? w)
    (hf : E .fault) (hQ : ∀ r, (protocol db₀).Stable p (Q r)) :
    Protocol.Valid machine g (protocol db₀) p φ (findOne .pool t q) (ends E Q) :=
  Protocol.Valid.bind (valid_select (Q := fun rows => Q rows.head?) h hf fun _ => hQ _)
    (fun _ => .pure fun _ _ h => h) fun _ _ _ h => h

/-- Operations on other servers keep what persists. -/
theorem valid_local {β : Type} {x : App β} (hx : x.Uses Local) (hφ : Persists db₀ φ) :
    Protocol.Valid machine g (protocol db₀) p φ x fun _ => φ := by
  induction x with
  | pure a => exact .pure fun _ _ h => h
  | throw e => exact .throw fun _ _ h => h
  | op o next ih =>
    refine .op (fun _ => φ) (fun i w r w' hi hw _ hx' => ?_) (fun _ => hφ.stable p)
      fun r => ih r (hx.2 r)
    have hs := exec_local hx' hx.1
    exact ⟨hs.1.inv hi, hs.guar _, hφ _ w w' hi (hs.1.inv hi) (hs.guar none) hw⟩

/-- An audit entry inside a transaction goes another way. -/
theorem valid_audit {actorId : Option Nat} {action targetType : String} {targetId : Option Nat}
    {metadata : List (String × Json)} (hk : ∀ w, φ w → w.calls p = some k)
    (hφ : (protocol db₀).Stable p φ) :
    Protocol.Valid machine g (protocol db₀) p φ
      (audit actorId action targetType targetId metadata) (ends E fun _ => φ) := by
  refine Protocol.Valid.tryCatch (Q := fun _ => φ) ?_ (fun _ => .pure fun _ _ h => h)
    fun _ _ _ h => h
  refine Protocol.Valid.bind (Q := fun _ => φ) (Protocol.Valid.bind (Q := fun _ => φ)
    (Protocol.Valid.perform (fun i w r w' hi hw _ hx => ?_) fun _ => hφ) (fun rows => ?_)
    fun _ _ _ h => h) (fun _ => .pure fun _ _ h => h) fun _ _ _ h => h
  · obtain ⟨hi', hg⟩ := exec_audit hi (hk w hw) hx
    exact ⟨hi', hg.weaken, hφ none w w' nofun hi hi' hg hw⟩
  · cases rows with
    | nil => exact .throw fun _ _ h => h
    | cons row rows => exact .pure fun _ _ h => h

theorem exec_held_commit {ws : List Write} {i : Input} {w w' : World} {r : Except Err Unit}
    (hi : Inv db₀ w) (hk : w.calls p = some k) (hh : Held p ws w)
    (hb : ∀ st', State.Commits p ws w.store st' → st'.nextId = w.store.nextId →
      Brings db₀ w.calls w.arrived w.keyLog p ws w.store st')
    (h : World.exec p i .commit w = some (r, w')) :
    Inv db₀ w' ∧ Guar (some p) w w' ∧ w'.store.tx p = none ∧
      (r = .error .fault ∨
        r = .ok () ∧ ∃ st', w' = w.withStore st' ∧ State.Commits p ws w.store st' ∧
          st'.nextId = w.store.nextId) := by
  obtain ⟨now, ht⟩ := hh
  rcases exec_commit h with ⟨r₀, st', hc, rfl, hr⟩ | ⟨rfl, rfl⟩
  · obtain ⟨hok, hf⟩ := State.commit_ok hi.ok hc
    rcases State.commit_cases hc with ⟨hn, -⟩ | ⟨tx, htx, hfail, -⟩ | ⟨tx, htx, -, rfl⟩
    · cases hn.symm.trans ht
    · cases ht.symm.trans htx
      cases hfail
    · cases ht.symm.trans htx
      have hcm : State.Commits p ws w.store ((w.store.write p ws).rollback p) := ⟨rfl, rfl⟩
      obtain ⟨hi', hg⟩ := withStore_ok hi hk hok hf (fun _ h => (Option.some.inj h).symm) hcm
        (hb _ hcm rfl) (.inl rfl) (by simp)
      refine ⟨hi', hg, State.rollback_tx_self, ?_⟩
      have hr₀ : r₀ = .ok () := by
        simp only [State.commit, ht, Prod.mk.injEq] at hc
        exact hc.1.symm
      rcases hr with rfl | rfl
      · exact .inr ⟨by rw [hr₀]; rfl, _, rfl, hcm, rfl⟩
      · exact .inl rfl
  · obtain ⟨hi', hg⟩ := rollback_step hi hk
    exact ⟨hi', hg, State.rollback_tx_self, .inl rfl⟩

theorem base_of_idle {w : World} (hrot : ¬Rotates k) (hsend : ¬IsSend k)
    (hk : w.calls p = some k) (ht : w.store.tx p = none) : Base k p w :=
  ⟨hk, fun _ h => (nomatch ht.symm.trans h), fun h => (hrot h).elim, fun h => (hsend h).elim⟩

theorem stable_idle : (protocol db₀).Stable p fun w => w.store.tx p = none :=
  fun _ _ _ ha _ _ hg h => (hg.frame.tx p ha).trans h

theorem valid_begin (hφ : Tame db₀ p φ) (hf : E .fault) :
    Protocol.Valid machine g (protocol db₀) p
      (fun w => w.calls p = some k ∧ φ w ∧ (w.store.tx p = none ∨ E (.sql .inFailedTransaction)))
      (perform .begin)
      fun r w => w.calls p = some k ∧ ends E (fun _ w => φ w ∧ Held p [] w) r w := by
  refine Protocol.Valid.perform (fun i w r w' hi ⟨hk, hw, hidle⟩ _ hx => ?_) fun r => ?_
  · have nothing : Inv db₀ w ∧ Guar (some p) w w := ⟨hi, (Same.refl w).guar _⟩
    obtain ⟨r₀, st', hb, h⟩ := exec_begin hx
    obtain ⟨hok, hfr⟩ := State.begin_ok hi.ok hb
    rcases State.begin_cases hb with ⟨rfl, rfl, ht⟩ | ⟨rfl, ht, rfl⟩
    · rcases h with ⟨rfl, rfl⟩ | ⟨rfl, rfl | rfl⟩
      · exact ⟨nothing.1, nothing.2, hk, hidle.resolve_left ht⟩
      · exact ⟨nothing.1, nothing.2, hk, hf⟩
      · exact ⟨nothing.1, nothing.2, hk, hf⟩
    · have opened := withStore_idle hi hk hok hfr rfl rfl fun tx htx x hx => by
        simp only [Function.update_self, Option.some.injEq] at htx
        simp [← htx] at hx
      rcases h with ⟨rfl, rfl⟩ | ⟨rfl, rfl | rfl⟩
      · refine ⟨opened.1, opened.2, hk, hφ.unwritten hi opened.1 opened.2
          ⟨rfl, rfl, fun _ _ h => h, fun _ h => nomatch ht.symm.trans h⟩ hw, w.clock, ?_⟩
        exact Function.update_self ..
      · exact ⟨nothing.1, nothing.2, hk, hf⟩
      · exact ⟨opened.1, opened.2, hk, hf⟩
  · refine .and ((Persists.call p k).stable p) ?_
    cases r with
    | ok _ => exact hφ.stable.and (stable_held [])
    | error e => exact .const _ _ _

theorem valid_commit {a : α} {R : α → List Write → World → Prop} {Q : α → World → Prop}
    (hcommit : ∀ ws w st', Inv db₀ w → w.calls p = some k → Held p ws w → R a ws w →
      State.Commits p ws w.store st' → st'.nextId = w.store.nextId →
      Brings db₀ w.calls w.arrived w.keyLog p ws w.store st' ∧ Q a (w.withStore st'))
    (hf : E .fault) (hQ : Persists db₀ (Q a)) :
    Protocol.Valid machine g (protocol db₀) p
      (fun w => (∃ ws, Held p ws w ∧ R a ws w) ∧ w.calls p = some k) (perform .commit)
      fun r w => (w.calls p = some k ∧ w.store.tx p = none) ∧ ends E (fun _ => Q a) r w := by
  refine Protocol.Valid.perform (fun i w r w' hi ⟨⟨ws, hh, hR⟩, hk⟩ _ hx => ?_) fun r => ?_
  · obtain ⟨hi', hg, ht, h⟩ := exec_held_commit hi hk hh
      (fun st' hc hid => (hcommit ws w st' hi hk hh hR hc hid).1) hx
    refine ⟨hi', hg, ⟨hg.calls p k hk, ht⟩, ?_⟩
    rcases h with rfl | ⟨rfl, st', rfl, hc, hid⟩
    · exact hf
    · exact (hcommit ws w st' hi hk hh hR hc hid).2
  · refine .and (((Persists.call p k).stable p).and stable_idle) ?_
    cases r with
    | ok _ => exact hQ.stable p
    | error e => exact .const _ _ _

/-- A transaction that failed is rolled back. -/
theorem valid_rollback {e : Err} {Q : α → World → Prop} :
    Protocol.Valid machine g (protocol db₀) p (fun w => w.calls p = some k ∧ E e)
      (perform .rollback >>= fun _ => (throw e : App α))
      fun r w => (w.calls p = some k ∧ w.store.tx p = none) ∧ ends E Q r w := by
  refine Protocol.Valid.bind
    (Q := fun r w => r = .ok () ∧ (w.calls p = some k ∧ w.store.tx p = none) ∧ E e)
    (Protocol.Valid.perform (fun i w r w' hi ⟨hk, he⟩ _ hx => ?_) fun _ => .and (.const _ _ _)
      ((((Persists.call p k).stable p).and stable_idle).and (.const _ _ _)))
    (fun _ => .throw fun _ _ h => h.2) fun _ _ _ h => nomatch h.1
  cases hx
  obtain ⟨hi', hg⟩ := rollback_step hi hk
  exact ⟨hi', hg, rfl, ⟨hk, State.rollback_tx_self⟩, he⟩

section Transaction

variable {body : App α} {R : α → List Write → World → Prop} {Q : α → World → Prop}

/-- The rule of a transaction: COMMIT writes what the body left. -/
theorem asserts_transaction {C : Op → World → Prop} (hφ : Tame db₀ p φ)
    (hbody : Protocol.Asserts machine g (protocol db₀) p C
      (fun w => (φ w ∧ Held p [] w) ∧ w.calls p = some k) body
      (ends E fun a w => ∃ ws, Held p ws w ∧ R a ws w))
    (hcommit : ∀ a ws w st', Inv db₀ w → w.calls p = some k → Held p ws w → R a ws w →
      State.Commits p ws w.store st' → st'.nextId = w.store.nextId →
      Brings db₀ w.calls w.arrived w.keyLog p ws w.store st' ∧ Q a (w.withStore st'))
    (hf : E .fault) (hQ : ∀ a, Persists db₀ (Q a))
    (hC : ∀ w, C .begin w ∧ C .commit w ∧ C .rollback w) :
    Protocol.Asserts machine g (protocol db₀) p C
      (fun w => w.calls p = some k ∧ φ w ∧ (w.store.tx p = none ∨ E (.sql .inFailedTransaction)))
      (transaction body)
      fun r w => (w.calls p = some k ∧ w.store.tx p = none) ∧ ends E Q r w := by
  have begin : (perform .begin : App Unit).Uses fun o => ∀ w, C o w :=
    (Prog.uses_perform _).2 fun w => (hC w).1
  have commit : (perform .commit : App Unit).Uses fun o => ∀ w, C o w :=
    (Prog.uses_perform _).2 fun w => (hC w).2.1
  have rollback : (perform .rollback : App Unit).Uses fun o => ∀ w, C o w :=
    (Prog.uses_perform _).2 fun w => (hC w).2.2
  refine Protocol.Asserts.tryCatch
    (Q := fun r w => w.calls p = some k ∧ ends E (fun a w => w.store.tx p = none ∧ Q a w) r w)
    ?_ (fun e => valid_rollback.asserts (rollback.bind fun _ => trivial))
    fun a w _ h => ⟨⟨h.1, h.2.1⟩, h.2.2⟩
  refine Protocol.Asserts.bind ((valid_begin hφ hf).asserts begin) (fun _ => ?_) fun _ _ _ h => h
  refine Protocol.Asserts.bind ((hbody.frame (Persists.call p k)).pre
    fun w _ h => ⟨⟨h.2, h.1⟩, h.1⟩) (fun a => ?_) fun _ _ _ h => ⟨h.2, h.1⟩
  exact Protocol.Asserts.bind ((valid_commit (hcommit a) hf (hQ a)).asserts commit)
    (fun _ => .pure fun _ _ h => ⟨h.1.1, h.1.2, h.2⟩) fun _ _ _ h => ⟨h.1.1, h.2⟩

theorem valid_transaction (hφ : Tame db₀ p φ)
    (hbody : Protocol.Valid machine g (protocol db₀) p
      (fun w => (φ w ∧ Held p [] w) ∧ w.calls p = some k) body
      (ends E fun a w => ∃ ws, Held p ws w ∧ R a ws w))
    (hcommit : ∀ a ws w st', Inv db₀ w → w.calls p = some k → Held p ws w → R a ws w →
      State.Commits p ws w.store st' → st'.nextId = w.store.nextId →
      Brings db₀ w.calls w.arrived w.keyLog p ws w.store st' ∧ Q a (w.withStore st'))
    (hf : E .fault) (hQ : ∀ a, Persists db₀ (Q a)) :
    Protocol.Valid machine g (protocol db₀) p
      (fun w => w.calls p = some k ∧ φ w ∧ (w.store.tx p = none ∨ E (.sql .inFailedTransaction)))
      (transaction body)
      fun r w => (w.calls p = some k ∧ w.store.tx p = none) ∧ ends E Q r w :=
  (asserts_transaction (C := fun _ _ => True) hφ
    (hbody.asserts ((Prog.uses_true _).mono fun _ _ _ => trivial)) hcommit hf hQ
    fun _ => ⟨trivial, trivial, trivial⟩).valid

end Transaction

end Rules

end Messageries.Proofs
