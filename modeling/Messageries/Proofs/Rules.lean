import Messageries.Concurrency.RelyGuarantee
import Messageries.Proofs.Quiet

set_option linter.unusedSectionVars false

namespace Messageries.Proofs

open Text Relational Database Crypto Concurrency Backend

variable [AesGcm] [TokenHash]

section Protocol

/-- What a step of the actor `a` does to the state the others rely on. -/
structure Guar (a : Option Nat) (w w' : World) : Prop where
  frame : State.Frame a w.store w'.store
  kept : Kept w.store.db w'.store.db
  calls : ∀ p k, w.calls p = some k → w'.calls p = some k
  arrived : ∀ p k, w.calls p = some k → w'.arrived p = w.arrived p
  log : w.keyLog ⊆ w'.keyLog
  wal : w.store.wal <+: w'.store.wal
  author : ∀ q x, (q, x) ∈ w'.store.wal →
    (q, x) ∈ w.store.wal ∨ a = some q ∨ writesTo x = .audit
  worker : (w'.stream = w.stream ∧ w'.notes = w.notes ∧ w'.mails = w.mails) ∨
    ∃ p k, a = some p ∧ w.calls p = some k ∧ IsBatch k
  clock : w.clock ≤ w'.clock

theorem Guar.weaken {a : Option Nat} {w w' : World} (h : Guar none w w') : Guar a w w' :=
  ⟨h.frame.weaken, h.kept, h.calls, h.arrived, h.log, h.wal, fun q x hx =>
    (h.author q x hx).imp_right fun h => h.imp_left nofun, .inl (h.worker.resolve_right nofun),
    h.clock⟩

/-- The errors of the database, and of the way to it. -/
def StoreError (e : Err) : Prop := e = .fault ∨ ∃ s, e = .sql s

def protocol (db₀ : Db) : Protocol World := ⟨Inv db₀, Guar⟩

variable {db₀ : Db} {p : Nat} {k : Call} {w w' : World} {st' : State schema} {ws : List Write}

/-- The parts of the world the invariant speaks of are the same. -/
structure SameCore (w w' : World) : Prop where
  store : w'.store = w.store
  calls : w'.calls = w.calls
  arrived : w'.arrived = w.arrived
  keyLog : w'.keyLog = w.keyLog
  kms : w'.kms = w.kms
  dekCache : w'.dekCache = w.dekCache
  clock : w.clock ≤ w'.clock

theorem SameCore.refl (w : World) : SameCore w w := ⟨rfl, rfl, rfl, rfl, rfl, rfl, Nat.le_refl _⟩

theorem SameCore.inv (h : SameCore w w') (hi : Inv db₀ w) : Inv db₀ w' := by
  obtain ⟨hs, hc, ha, hl, hk, hd, -⟩ := h
  refine ⟨hs ▸ hi.ok, fun p hp => ?_, ?_, ?_, ?_, ?_, ?_, ?_⟩
  · rw [hs]
    exact hi.idle p (hc ▸ hp)
  · rw [hs]
    exact hi.apart
  · rw [hl, hk]
    exact hi.keys
  · rw [hl, hk]
    exact hi.active
  · rw [hl, hd]
    exact hi.cache
  · rw [ha, hs]
    exact hi.arrived
  · rw [hc, ha, hl, hs]
    exact hi.db

/-- What the workers write, and the index, are the same. -/
structure SameFeed (w w' : World) : Prop where
  stream : w'.stream = w.stream
  notes : w'.notes = w.notes
  documents : w'.documents = w.documents
  mails : w'.mails = w.mails

theorem SameFeed.refl (w : World) : SameFeed w w := ⟨rfl, rfl, rfl, rfl⟩

theorem SameCore.guarOf (h : SameCore w w') {a : Option Nat}
    (hw : (w'.stream = w.stream ∧ w'.notes = w.notes ∧ w'.mails = w.mails) ∨
      ∃ p k, a = some p ∧ w.calls p = some k ∧ IsBatch k) : Guar a w w' where
  frame := h.store ▸ .refl a w.store
  kept := h.store ▸ .refl _
  calls := fun _ _ hp => h.calls ▸ hp
  arrived := fun _ _ _ => h.arrived ▸ rfl
  log := fun _ hx => h.keyLog ▸ hx
  wal := h.store ▸ List.prefix_rfl
  author := fun _ _ hx => .inl (h.store ▸ hx)
  worker := hw
  clock := h.clock

theorem SameCore.guar (h : SameCore w w') (hf : SameFeed w w') (a : Option Nat) : Guar a w w' :=
  h.guarOf (.inl ⟨hf.stream, hf.notes, hf.mails⟩)

/-- A step on the store, by what it commits. -/
theorem withStore_ok {a : Option Nat} (hi : Inv db₀ w) (hk : w.calls p = some k)
    (hok : st'.Ok) (hf : State.Frame a w.store st') (ha : ∀ q, a = some q → q = p)
    (hc : State.Commits p ws w.store st')
    (hb : Brings db₀ w.calls w.arrived w.keyLog p ws w.store st')
    (hx : a = some p ∨ ∀ x ∈ ws, writesTo x = .audit)
    (ht : ∀ tx, st'.tx p = some tx → ∀ x ∈ tx.writes, writesTo x ≠ .refreshTokens) :
    Inv db₀ (w.withStore st') ∧ Guar a w (w.withStore st') := by
  refine ⟨⟨hok, fun q hq => ?_, fun q tx hq => ?_, hi.keys, hi.active, hi.cache, fun q => ?_, ?_⟩,
    hf, ?_, fun _ _ h => h, fun _ _ _ => rfl, fun _ h => h, ⟨_, hc.1.symm⟩, fun q x hq => ?_,
    .inl ⟨rfl, rfl, rfl⟩, Nat.le_refl _⟩
  · have hne : a ≠ some q := by
      rintro rfl
      obtain rfl := ha q rfl
      exact Option.some_ne_none k (hk.symm.trans hq)
    exact (hf.tx q hne).trans (hi.idle q hq)
  · by_cases e : q = p
    · subst e
      exact ht tx hq
    · have hne : a ≠ some q := fun h => e (ha q h)
      exact hi.apart q tx ((hf.tx q hne).symm.trans hq)
  · have hle : w.store.wal.length ≤ st'.wal.length := by
      rw [hc.1, List.length_append]
      exact Nat.le_add_right _ _
    exact Nat.le_trans (hi.arrived q) hle
  · exact hi.db.step hc hb (fun _ _ h => h) (fun _ _ _ => rfl) (fun _ h => h) hf.nextId
      (.inr ⟨k, hk⟩)
  · exact hc.2 ▸ kept_applyAll hb.lawful
  · have hq : (q, x) ∈ st'.wal := hq
    rw [hc.1] at hq
    rcases List.mem_append.1 hq with hq | hq
    · exact .inl hq
    · obtain ⟨y, hy, e⟩ := List.mem_map.1 hq
      cases e
      exact .inr (hx.imp_right fun h => h _ hy)

theorem Brings.nothing {calls : Nat → Option Call} {arrived : Nat → Nat}
    {log : List (Utf16 × Bytes)} {st : State schema} (hi : Numbered st.db) (hdb : st'.db = st.db) :
    Brings db₀ calls arrived log p [] st st' :=
  .quiet (k := .natsInit 0) (c := .pool) nofun (by simp) hi hdb

/-- A step on the store that commits nothing. -/
theorem withStore_idle (hi : Inv db₀ w) (hk : w.calls p = some k) (hok : st'.Ok)
    (hf : State.Frame (some p) w.store st') (hdb : st'.db = w.store.db)
    (hwal : st'.wal = w.store.wal)
    (ht : ∀ tx, st'.tx p = some tx → ∀ x ∈ tx.writes, writesTo x ≠ .refreshTokens) :
    Inv db₀ (w.withStore st') ∧ Guar (some p) w (w.withStore st') :=
  withStore_ok hi hk hok hf (fun _ h => (Option.some.inj h).symm) (.none hdb hwal)
    (.nothing hi.db.numbered hdb) (.inl rfl) ht

end Protocol

section Operations

variable {db₀ : Db} {p : Nat} {k : Call} {w w' : World} {i : Input} {o : Op}
  {r : Except Err o.Res}

/-- Operations on what the invariant does not speak of. -/
def Local : Op → Prop
  | .begin | .commit | .rollback | .query _ _ | .remove _ _ | .cachePut _ | .publish _ _ _
  | .note _ _ | .index _ | .unindex _ | .mail _ => False
  | _ => True

/-- Operations on the index. -/
def Indexes : Op → Prop
  | .index _ | .unindex _ => True
  | _ => False

theorem remote_cases {α : Type} {i : Input} {r r' : Except Err α} {w w₁ w' : World}
    (h : World.remote i r w w₁ = some (r', w')) :
    (i.fault = .none ∧ r' = r ∧ w' = w₁) ∨ (r' = .error .fault ∧ (w' = w ∨ w' = w₁)) := by
  unfold World.remote at h
  split at h
  · cases h
    exact .inl ⟨‹_›, rfl, rfl⟩
  · cases h
    exact .inr ⟨rfl, .inl rfl⟩
  · cases h
    exact .inr ⟨rfl, .inr rfl⟩

/-- A step that leaves alone all that the protocol speaks of. -/
def Same (w w' : World) : Prop := SameCore w w' ∧ SameFeed w w'

theorem Same.refl (w : World) : Same w w := ⟨.refl w, .refl w⟩

theorem Same.guar (h : Same w w') (a : Option Nat) : Guar a w w' := h.1.guar h.2 a

theorem of_remote {α : Type} {i : Input} {r r' : Except Err α} {w w₁ w' : World}
    {S : World → World → Prop} (hr : S w w) (hs : S w w₁)
    (h : World.remote i r w w₁ = some (r', w')) : S w w' := by
  rcases remote_cases h with ⟨-, -, rfl⟩ | ⟨-, rfl | rfl⟩
  · exact hs
  · exact hr
  · exact hs

theorem of_attempt {i : Input} {r : Except Err Unit} {w w₁ w' : World}
    {S : World → World → Prop} (hr : S w w) (hs : S w w₁)
    (h : World.attempt i w w₁ = some (r, w')) : S w w' := by
  unfold World.attempt at h
  split at h
  · cases h
    exact hs
  · cases h
    exact hr

theorem exec_local (h : World.exec p i o w = some (r, w')) (ho : Local o) : Same w w' := by
  have untouched : ∀ {nats streamExists broadcasts objects}, Same w
      { w with nats, streamExists, broadcasts, objects } :=
    ⟨⟨rfl, rfl, rfl, rfl, rfl, rfl, Nat.le_refl _⟩, rfl, rfl, rfl, rfl⟩
  cases o with
  | begin => exact ho.elim
  | commit => exact ho.elim
  | rollback => exact ho.elim
  | query c s => exact ho.elim
  | remove t q => exact ho.elim
  | cachePut d => exact ho.elim
  | publish t m id => exact ho.elim
  | note e s => exact ho.elim
  | index d => exact ho.elim
  | unindex c => exact ho.elim
  | now => cases h; exact .refl _
  | random n => cases h; exact .refl _
  | settings => cases h; exact .refl _
  | kms => cases h; exact .refl _
  | cacheGet d => cases h; exact .refl _
  | presign key => cases h; exact .refl _
  | natsEnabled n => cases h; exact .refl _
  | areOnline us => exact of_remote (.refl w) (.refl w) h
  | head key =>
    simp only [World.exec] at h
    split at h
    · exact of_remote (.refl w) (.refl w) h
    · cases h
      exact .refl _
  | streamInfo =>
    simp only [World.exec] at h
    split at h
    · exact of_remote (.refl w) (.refl w) h
    · cases h
      exact .refl _
  | emit b =>
    cases h
    exact untouched
  | jetstream n =>
    cases h
    exact untouched
  | connect n =>
    refine of_attempt (.refl w) ?_ h
    exact untouched
  | jetstreamManager n =>
    refine of_attempt (.refl w) ?_ h
    exact untouched
  | streamAdd =>
    refine of_remote (.refl w) ?_ h
    exact untouched
  | mail m => exact ho.elim
  | deleteObject key =>
    refine of_remote (.refl w) ?_ h
    exact untouched

theorem exec_indexes (h : World.exec p i o w = some (r, w')) (ho : Indexes o) :
    ∃ documents, w' = { w with documents } := by
  cases o with
  | index d =>
    exact of_remote (S := fun w w' => ∃ documents, w' = { w with documents }) ⟨_, rfl⟩ ⟨_, rfl⟩ h
  | unindex c =>
    exact of_remote (S := fun w w' => ∃ documents, w' = { w with documents }) ⟨_, rfl⟩ ⟨_, rfl⟩ h
  | _ => exact ho.elim

/-- What the protocol speaks of is the same whatever becomes of the index. -/
theorem sameCore_documents (w : World) (documents : List Document) :
    SameCore w { w with documents } :=
  ⟨rfl, rfl, rfl, rfl, rfl, rfl, Nat.le_refl _⟩

/-- A statement, and whether it was answered or lost. -/
theorem exec_query {c : Conn} {s : Stmt} {r : Except Err s.Out}
    (h : World.exec p i (.query c s) w = some (r, w')) :
    (∃ r₀ st', w.store.query p c w.clock s = some (r₀, st') ∧ w' = w.withStore st' ∧
      (r = r₀.mapError .sql ∨ r = .error .fault)) ∨
    (r = .error .fault ∧ (w' = w ∨ (c = .tx ∧ w' = w.withStore (w.store.fail p)))) := by
  simp only [World.exec, World.query] at h
  split at h
  · obtain ⟨⟨r₀, st'⟩, hq, hx⟩ := Option.map_eq_some_iff.1 h
    cases hx
    exact .inl ⟨r₀, st', hq, rfl, .inl rfl⟩
  · cases h
    exact .inr ⟨rfl, .inr ⟨rfl, rfl⟩⟩
  · cases h
    exact .inr ⟨rfl, .inl rfl⟩
  · obtain ⟨⟨r₀, st'⟩, hq, hx⟩ := Option.map_eq_some_iff.1 h
    cases hx
    exact .inl ⟨r₀, st', hq, rfl, .inr rfl⟩

theorem storeError {α : Type} {r₀ : Except SqlState α} {r : Except Err α} {e : Err}
    (hr : r = r₀.mapError .sql ∨ r = .error .fault) (he : r = .error e) : StoreError e := by
  rcases hr with rfl | rfl
  · cases r₀ with
    | ok a => cases he
    | error s =>
      cases he
      exact .inr ⟨s, rfl⟩
  · cases he
    exact .inl rfl

/-- COMMIT is done, or the transaction is rolled back. -/
theorem exec_commit {r : Except Err Unit} (h : World.exec p i .commit w = some (r, w')) :
    (∃ r₀ st', w.store.commit p = (r₀, st') ∧ w' = w.withStore st' ∧
      (r = r₀.mapError .sql ∨ r = .error .fault)) ∨
    (r = .error .fault ∧ w' = w.withStore (w.store.rollback p)) := by
  simp only [World.exec, World.commit] at h
  split at h
  · cases h
    exact .inl ⟨_, _, rfl, rfl, .inl rfl⟩
  · cases h
    exact .inr ⟨rfl, rfl⟩
  · cases h
    exact .inl ⟨_, _, rfl, rfl, .inr rfl⟩

theorem exec_begin {r : Except Err Unit} (h : World.exec p i .begin w = some (r, w')) :
    ∃ r₀ st', w.store.begin p w.clock = (r₀, st') ∧
      ((r = r₀.mapError .sql ∧ w' = w.withStore st') ∨
        (r = .error .fault ∧ (w' = w ∨ w' = w.withStore st'))) := by
  simp only [World.exec] at h
  cases hb : w.store.begin p w.clock with
  | mk r₀ st' =>
    rw [hb] at h
    refine ⟨r₀, st', rfl, ?_⟩
    rcases remote_cases h with ⟨-, rfl, rfl⟩ | ⟨rfl, hw⟩
    · exact .inl ⟨rfl, rfl⟩
    · exact .inr ⟨rfl, hw⟩

theorem remote_error {α : Type} {i : Input} {a : α} {e : Err} {w₁ : World}
    (h : World.remote i (.ok a) w w₁ = some (.error e, w')) : e = .fault := by
  rcases remote_cases h with ⟨-, he, -⟩ | ⟨he, -⟩
  · cases he
  · exact Except.error.inj he

theorem attempt_error {e : Err} {w₁ : World}
    (h : World.attempt i w w₁ = some (.error e, w')) : e = .fault := by
  unfold World.attempt at h
  split at h
  · cases h
  · cases h
    rfl

/-- An operation fails with an error of the database, or of the way to a server. -/
theorem exec_error {e : Err} (h : World.exec p i o w = some (.error e, w')) : StoreError e := by
  cases o with
  | begin =>
    obtain ⟨r₀, st', -, ⟨hr, -⟩ | ⟨hr, -⟩⟩ := exec_begin h
    · exact storeError (.inl hr) rfl
    · exact .inl (Except.error.inj hr)
  | commit =>
    rcases exec_commit h with ⟨r₀, st', -, -, hr⟩ | ⟨hr, -⟩
    · exact storeError hr rfl
    · exact .inl (Except.error.inj hr)
  | query c s =>
    rcases exec_query h with ⟨r₀, st', -, -, hr⟩ | ⟨hr, -⟩
    · exact storeError hr rfl
    · exact .inl (Except.error.inj hr)
  | remove t q =>
    simp only [World.exec] at h
    split at h
    · exact .inl (remote_error h)
    · cases h
  | head key =>
    simp only [World.exec] at h
    split at h
    · exact .inl (remote_error h)
    · cases h
      exact .inl rfl
  | streamInfo =>
    simp only [World.exec] at h
    split at h
    · exact .inl (remote_error h)
    · cases h
      exact .inl rfl
  | publish t m id =>
    simp only [World.exec] at h
    split at h
    · exact .inl (remote_error h)
    · cases h
      exact .inl rfl
  | rollback => cases h
  | now => cases h
  | random n => cases h
  | settings => cases h
  | kms => cases h
  | cacheGet d => cases h
  | cachePut d => cases h
  | presign key => cases h
  | natsEnabled n => cases h
  | note e s => cases h
  | emit b => cases h
  | jetstream n => cases h
  | connect n => exact .inl (attempt_error h)
  | jetstreamManager n => exact .inl (attempt_error h)
  | areOnline us => exact .inl (remote_error h)
  | index d => exact .inl (remote_error h)
  | unindex c => exact .inl (remote_error h)
  | streamAdd => exact .inl (remote_error h)
  | mail m => exact .inl (remote_error h)
  | deleteObject key => exact .inl (remote_error h)

end Operations

section Quiet

variable {db₀ : Db} {p : Nat} {k : Call} {w w' : World} {i : Input} {o : Op}
  {r : Except Err o.Res} {c : Conn}

def QuietStmt (k : Call) (c : Conn) : Stmt → Prop
  | .insert t make => Free k c t ∧
      ∀ f ∈ make, ∀ id now, May k (.insert t (f id now)) ∧ Insertable t (f id now)
  | .update t _ f => (Free k c t ∧ ∀ ks now, May k (.update t ks (f now))) ∧
      ∀ now r, Still t r ((f now).set r)
  | _ => True

theorem QuietStmt.plan {s : Stmt} (h : QuietStmt k c s) (v : Db) (free : Table → Key → Bool)
    (id now : Nat) : ∀ x ∈ (s.plan v free id now).writes, Quiet k c x := by
  intro x hx
  rcases Schema.Stmt.mem_plan hx with ⟨t, make, rfl, f, hf, i, rfl⟩ | ⟨t, q, f, rfl, rfl⟩
  · have made := h.2 f hf i now
    exact ⟨⟨h.1, made.1⟩, made.2⟩
  · exact ⟨⟨h.1.1, h.1.2 _ now⟩, h.2 now⟩

/-- Operations that need no proof of their own. -/
def QuietOp (k : Call) : Op → Prop
  | .query c s => QuietStmt k c s
  | .remove t _ => t = .attachments
  | .cachePut _ => False
  | .publish _ _ _ => IsBatch k
  | .note _ _ => IsBatch k
  | .mail _ => IsBatch k
  | _ => True

/-- Process `p` has only quiet writes to commit; it issued no token in place of another
one and sent no message yet. -/
structure Steady (k : Call) (p : Nat) (w : World) : Prop where
  pending : ∀ tx, w.store.tx p = some tx → ∀ x ∈ tx.writes, Quiet k .tx x
  unissued : Rotates k → ∀ r, (p, Schema.Write.insert .refreshTokens r) ∉ w.store.wal
  silent : IsSend k → own p w.store.wal = []

theorem Quiet.unpooled {x : Write} (h : Quiet k .tx x) : ofPool (writesTo x) = false := by
  by_contra hp
  exact nomatch (h.bland.free.2 (by simpa using hp)).1

theorem Quiet.apart {x : Write} (h : Quiet k .tx x) : writesTo x ≠ .refreshTokens :=
  fun ht => nomatch ht ▸ h.unpooled

theorem Steady.of_eq (hp : Steady k p w) (ht : w'.store.tx p = w.store.tx p)
    (hw : w'.store.wal = w.store.wal) : Steady k p w' :=
  ⟨fun tx h => hp.pending tx (ht ▸ h), fun hr => hw ▸ hp.unissued hr, fun hs => hw ▸ hp.silent hs⟩

theorem Steady.rollback (hp : Steady k p w) : Steady k p (w.withStore (w.store.rollback p)) := by
  refine ⟨fun tx ht => ?_, hp.unissued, hp.silent⟩
  simp [World.withStore] at ht

theorem Steady.fail (hp : Steady k p w) : Steady k p (w.withStore (w.store.fail p)) := by
  refine ⟨fun tx ht x hx => ?_, fun hr => ?_, fun hs => ?_⟩
  · obtain ⟨tx', ht', e⟩ := State.fail_tx_cases ht
    exact hp.pending tx' ht' x (e ▸ hx)
  · simpa [World.withStore] using hp.unissued hr
  · simpa [World.withStore] using hp.silent hs

theorem Steady.commits (hp : Steady k p w) {ws : List Write} {st' : State schema}
    (ht : st'.tx p = w.store.tx p ∨ st'.tx p = none) (hc : State.Commits p ws w.store st')
    (hx : Rotates k → ∀ r, Schema.Write.insert .refreshTokens r ∉ ws)
    (ho : IsSend k → ∀ x ∈ ws, ofSend (writesTo x) = false) :
    Steady k p (w.withStore st') := by
  refine ⟨fun tx h => ?_, fun hr r hmem => ?_, fun hs => ?_⟩
  · rcases ht with ht | ht
    · exact hp.pending tx (ht ▸ h)
    · cases ht.symm.trans h
  · have hmem : (p, Schema.Write.insert .refreshTokens r) ∈ st'.wal := hmem
    rw [hc.1] at hmem
    rcases List.mem_append.1 hmem with hmem | hmem
    · exact hp.unissued hr r hmem
    · obtain ⟨y, hy, e⟩ := List.mem_map.1 hmem
      cases e
      exact hx hr r hy
  · have e : (w.withStore st').store.wal = w.store.wal ++ ws.map (p, ·) := hc.1
    rw [e, own_append, hp.silent hs, own_map_self, List.nil_append, List.filter_eq_nil_iff]
    intro x hx'
    simp [ho hs x hx']

theorem Quiet.silent {ws : List Write} (h : ∀ x ∈ ws, Quiet k c x) (hs : IsSend k) :
    ∀ x ∈ ws, ofSend (writesTo x) = false := by
  intro x hx
  by_contra ho
  exact (h x hx).bland.free.1 (by simpa using ho) hs

theorem Quiet.unissued {ws : List Write} (h : ∀ x ∈ ws, Quiet k c x) (hr : Rotates k)
    (r : RefreshToken) : Schema.Write.insert .refreshTokens r ∉ ws :=
  fun hmem => ((h _ hmem).bland.free.2 rfl).2 rfl hr

theorem fail_step (hi : Inv db₀ w) (hk : w.calls p = some k) :
    Inv db₀ (w.withStore (w.store.fail p)) ∧ Guar (some p) w (w.withStore (w.store.fail p)) := by
  refine withStore_idle hi hk hi.ok.fail State.frame_fail State.fail_db State.fail_wal ?_
  intro tx ht x hx
  obtain ⟨tx', ht', e⟩ := State.fail_tx_cases ht
  exact hi.apart p tx' ht' x (e ▸ hx)

theorem rollback_step (hi : Inv db₀ w) (hk : w.calls p = some k) :
    Inv db₀ (w.withStore (w.store.rollback p)) ∧
      Guar (some p) w (w.withStore (w.store.rollback p)) :=
  withStore_idle hi hk hi.ok.rollback State.frame_rollback rfl rfl (by simp)

/-- Quiet writes that are committed. -/
theorem quiet_step {a : Option Nat} {ws : List Write} (hi : Inv db₀ w) (hk : w.calls p = some k)
    (ha : a = some p ∨ (a = none ∧ ∀ x ∈ ws, writesTo x = .audit))
    (hq : ∀ x ∈ ws, Quiet k c x) {st' : State schema} (hok : st'.Ok)
    (hf : State.Frame a w.store st') (hc : State.Commits p ws w.store st')
    (ht : ∀ tx, st'.tx p = some tx → ∀ x ∈ tx.writes, writesTo x ≠ .refreshTokens) :
    Inv db₀ (w.withStore st') ∧ Guar a w (w.withStore st') := by
  refine withStore_ok hi hk hok hf (fun q hq => ?_) hc
    (.quiet (fun _ => hk) hq hi.db.numbered hc.2) (ha.imp_right And.right) ht
  rcases ha with rfl | ⟨rfl, -⟩
  · exact (Option.some.inj hq).symm
  · cases hq

theorem stage_apart {tx : Tx schema} {α : Type} {pl : Plan schema α} {st : State schema}
    (hu : ∀ tx, st.tx p = some tx → ∀ x ∈ tx.writes, writesTo x ≠ .refreshTokens)
    (ht : st.tx p = some tx) (hq : ∀ x ∈ pl.writes, writesTo x ≠ .refreshTokens) (tx' : Tx schema)
    (ht' : (st.stage p tx pl).tx p = some tx') : ∀ x ∈ tx'.writes, writesTo x ≠ .refreshTokens := by
  obtain rfl : { tx with writes := tx.writes ++ pl.writes } = tx' := by
    simpa [State.stage] using ht'
  intro x hx
  rcases List.mem_append.1 hx with hx | hx
  · exact hu tx ht x hx
  · exact hq x hx

theorem Steady.stage {tx : Tx schema} {α : Type} {pl : Plan schema α} (hp : Steady k p w)
    (ht : w.store.tx p = some tx) (hq : ∀ x ∈ pl.writes, Quiet k .tx x) :
    Steady k p (w.withStore (w.store.stage p tx pl)) := by
  refine ⟨fun tx' ht' x hx => ?_, hp.unissued, hp.silent⟩
  obtain rfl : { tx with writes := tx.writes ++ pl.writes } = tx' := by
    simpa [World.withStore, State.stage] using ht'
  rcases List.mem_append.1 hx with hx | hx
  · exact hp.pending tx ht x hx
  · exact hq x hx

/-- A quiet statement that was executed. -/
theorem query_quiet {s : Stmt} {clock : Nat} {r : Except SqlState s.Out}
    {st' : State schema} (hi : Inv db₀ w) (hk : w.calls p = some k)
    (hp : Steady k p w) (hs : QuietStmt k c s)
    (h : w.store.query p c clock s = some (r, st')) :
    Inv db₀ (w.withStore st') ∧ Guar (some p) w (w.withStore st') ∧
      Steady k p (w.withStore st') := by
  obtain ⟨hok, hf⟩ := State.query_ok hi.ok h
  rcases State.query_cases h with ⟨e, -, rfl | ⟨rfl, rfl⟩⟩ | ⟨tx, a, rfl, ht, -, -, -, -, rfl⟩ |
    ⟨a, rfl, -, -, -, rfl⟩
  · exact ⟨hi, (Same.refl w).guar _, hp⟩
  · exact ⟨(fail_step hi hk).1, (fail_step hi hk).2, hp.fail⟩
  · have hq := hs.plan (w.store.view p) (w.store.free (some p)) w.store.nextId tx.now
    have := withStore_idle hi hk hok hf rfl rfl
      (stage_apart (hi.apart p) ht fun x hx => (hq x hx).apart)
    exact ⟨this.1, this.2, hp.stage ht hq⟩
  · have hq := hs.plan w.store.db (w.store.free none) w.store.nextId clock
    have := quiet_step hi hk (.inl rfl) hq hok hf.weaken ⟨rfl, rfl⟩ (hi.apart p)
    exact ⟨this.1, this.2, hp.commits (.inl rfl) ⟨rfl, rfl⟩ (Quiet.unissued hq)
      (Quiet.silent hq)⟩

theorem commit_quiet {r : Except SqlState Unit} {st' : State schema} (hi : Inv db₀ w)
    (hk : w.calls p = some k) (hp : Steady k p w)
    (h : w.store.commit p = (r, st')) :
    Inv db₀ (w.withStore st') ∧ Guar (some p) w (w.withStore st') ∧
      Steady k p (w.withStore st') := by
  obtain ⟨hok, hf⟩ := State.commit_ok hi.ok h
  rcases State.commit_cases h with ⟨-, rfl⟩ | ⟨tx, -, -, rfl⟩ | ⟨tx, ht, -, rfl⟩
  · exact ⟨hi, (Same.refl w).guar _, hp⟩
  · exact ⟨(rollback_step hi hk).1, (rollback_step hi hk).2, hp.rollback⟩
  · have := quiet_step hi hk (.inl rfl) (hp.pending tx ht) hok hf ⟨rfl, rfl⟩ (by simp)
    exact ⟨this.1, this.2, hp.commits (.inr (by simp)) ⟨rfl, rfl⟩
      (Quiet.unissued (hp.pending tx ht)) (Quiet.silent (hp.pending tx ht))⟩

theorem begin_quiet {now : Nat} {r : Except SqlState Unit} {st' : State schema} (hi : Inv db₀ w)
    (hk : w.calls p = some k) (hp : Steady k p w) (h : w.store.begin p now = (r, st')) :
    Inv db₀ (w.withStore st') ∧ Guar (some p) w (w.withStore st') ∧
      Steady k p (w.withStore st') := by
  obtain ⟨hok, hf⟩ := State.begin_ok hi.ok h
  rcases State.begin_cases h with ⟨rfl, -⟩ | ⟨-, -, rfl⟩
  · exact ⟨hi, (Same.refl w).guar _, hp⟩
  · have empty : ∀ tx, Function.update w.store.tx p (some ⟨now, [], false⟩) p = some tx →
        tx.writes = [] := by
      intro tx ht
      rw [Function.update_self] at ht
      exact Option.some.inj ht ▸ rfl
    have := withStore_idle hi hk hok hf rfl rfl fun tx ht x hx => by simp [empty tx ht] at hx
    exact ⟨this.1, this.2, fun tx ht x hx => by simp [empty tx ht] at hx, hp.unissued,
      hp.silent⟩

theorem exec_quiet (hi : Inv db₀ w) (hk : w.calls p = some k) (hp : Steady k p w)
    (ho : QuietOp k o) (h : World.exec p i o w = some (r, w')) :
    Inv db₀ w' ∧ Guar (some p) w w' ∧ Steady k p w' := by
  have nothing : Inv db₀ w ∧ Guar (some p) w w ∧ Steady k p w :=
    ⟨hi, (Same.refl w).guar _, hp⟩
  cases o
  case begin =>
    obtain ⟨r₀, st', hbeg, ⟨-, rfl⟩ | ⟨-, rfl | rfl⟩⟩ := exec_begin h
    · exact begin_quiet hi hk hp hbeg
    · exact nothing
    · exact begin_quiet hi hk hp hbeg
  case commit =>
    rcases exec_commit h with ⟨r₀, st', hc, rfl, -⟩ | ⟨-, rfl⟩
    · exact commit_quiet hi hk hp hc
    · exact ⟨(rollback_step hi hk).1, (rollback_step hi hk).2, hp.rollback⟩
  case rollback =>
    cases h
    exact ⟨(rollback_step hi hk).1, (rollback_step hi hk).2, hp.rollback⟩
  case query c s =>
    rcases exec_query h with ⟨r₀, st', hq, rfl, -⟩ | ⟨-, rfl | ⟨-, rfl⟩⟩
    · exact query_quiet hi hk hp ho hq
    · exact nothing
    · exact ⟨(fail_step hi hk).1, (fail_step hi hk).2, hp.fail⟩
  case remove t q =>
    simp only [World.exec] at h
    split at h
    · rename_i n st' hr
      obtain ⟨hok, hf, ks, hc⟩ := State.remove_ok hi.ok hr
      have htx : st'.tx p = w.store.tx p := hf.tx p nofun
      have quiet : ∀ x ∈ [Schema.Write.delete (S := schema) t ks], Quiet k .pool x := by
        intro x hx
        rw [List.mem_singleton.1 hx]
        exact ho
      have done := quiet_step hi hk (.inl rfl) quiet hok hf.weaken hc (htx ▸ hi.apart p)
      have steady : Steady k p (w.withStore st') := hp.commits (.inl htx) hc (by simp)
        fun _ x hx => by rw [List.mem_singleton.1 hx, writesTo, ho]; rfl
      rcases remote_cases h with ⟨-, -, rfl⟩ | ⟨-, rfl | rfl⟩
      · exact ⟨done.1, done.2, steady⟩
      · exact nothing
      · exact ⟨done.1, done.2, steady⟩
    · cases h
  case cachePut d => exact ho.elim
  case publish t m id =>
    have hs : SameCore w w' := by
      simp only [World.exec] at h
      split at h
      · refine of_remote (.refl w) ?_ h
        unfold World.publish
        split
        · exact .refl w
        · exact ⟨rfl, rfl, rfl, rfl, rfl, rfl, Nat.le_refl _⟩
      · cases h
        exact .refl w
    exact ⟨hs.inv hi, hs.guarOf (.inr ⟨p, k, rfl, hk, ho⟩),
      hp.of_eq (by rw [hs.store]) (by rw [hs.store])⟩
  case note e s =>
    cases h
    have hs : SameCore w { w with notes := w.notes ++ [⟨p, e, s, w.clock⟩] } :=
      ⟨rfl, rfl, rfl, rfl, rfl, rfl, Nat.le_refl _⟩
    exact ⟨hs.inv hi, hs.guarOf (.inr ⟨p, k, rfl, hk, ho⟩), hp.of_eq rfl rfl⟩
  case mail m =>
    have hs : SameCore w w' := by
      refine of_remote (.refl w) ?_ h
      exact ⟨rfl, rfl, rfl, rfl, rfl, rfl, Nat.le_refl _⟩
    exact ⟨hs.inv hi, hs.guarOf (.inr ⟨p, k, rfl, hk, ho⟩),
      hp.of_eq (by rw [hs.store]) (by rw [hs.store])⟩
  case index d =>
    obtain ⟨ds, rfl⟩ := exec_indexes h trivial
    have hs := sameCore_documents w ds
    exact ⟨hs.inv hi, hs.guarOf (.inl ⟨rfl, rfl, rfl⟩), hp.of_eq rfl rfl⟩
  case unindex c =>
    obtain ⟨ds, rfl⟩ := exec_indexes h trivial
    have hs := sameCore_documents w ds
    exact ⟨hs.inv hi, hs.guarOf (.inl ⟨rfl, rfl, rfl⟩), hp.of_eq rfl rfl⟩
  all_goals
    have hs : Same w w' := exec_local h trivial
    exact ⟨hs.1.inv hi, hs.guar _, hp.of_eq (by rw [hs.1.store]) (by rw [hs.1.store])⟩

/-- An audit entry leaves the open transaction of its process alone. -/
theorem exec_audit {make : List (Nat → Nat → AuditLog)}
    {r : Except Err (Op.query .pool (.insert .audit make)).Res} (hi : Inv db₀ w)
    (hk : w.calls p = some k)
    (h : World.exec p i (.query .pool (.insert .audit make)) w = some (r, w')) :
    Inv db₀ w' ∧ Guar none w w' := by
  have done : Inv db₀ w ∧ Guar none w w := ⟨hi, (Same.refl w).guar _⟩
  rcases exec_query h with ⟨r₀, st', hq, rfl, -⟩ | ⟨-, rfl | ⟨hc, -⟩⟩
  · obtain ⟨hok, hf⟩ := State.query_ok hi.ok hq
    rcases State.query_cases hq with ⟨e, -, rfl | ⟨hc, -⟩⟩ | ⟨tx, a, hc, -⟩ | ⟨a, -, -, -, -, rfl⟩
    · exact done
    · cases hc
    · cases hc
    · have quiet : QuietStmt k .pool (.insert .audit make) :=
        ⟨⟨nofun, nofun⟩, fun _ _ _ _ => ⟨trivial, trivial⟩⟩
      refine quiet_step hi hk (.inr ⟨rfl, fun x hx => ?_⟩) (quiet.plan _ _ _ _) hok hf ⟨rfl, rfl⟩
        (hi.apart p)
      obtain ⟨f, -, j, rfl⟩ := Schema.Stmt.mem_plan_insert hx
      rfl
  · exact done
  · cases hc

end Quiet

end Messageries.Proofs
