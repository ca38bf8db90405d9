import Messageries.Proofs.Calls
import Messageries.Proofs.Identity

set_option linter.unusedSectionVars false

namespace Messageries.Proofs

open Text Relational Database Crypto Concurrency Backend

variable [AesGcm] [TokenHash]

section Commits

variable {p : Nat} {w w' : World} {i : Input}

/-- What a statement writes on a connection of the pool. -/
def pooled (s : Stmt) (w : World) : List Write :=
  (s.plan w.store.db (w.store.free none) w.store.nextId w.clock).writes

/-- Such a statement writes nothing, new rows of one table, or one update. -/
theorem pooled_insert (t : Table) (make : List (Nat → Nat → t.Row)) (w : World) :
    ∃ rows : List (schema.Row t), pooled (.insert t make) w = rows.map (.insert t) := by
  simp only [pooled, Schema.Stmt.plan]
  split
  · exact ⟨[], rfl⟩
  · split
    · exact ⟨_, rfl⟩
    · exact ⟨[], rfl⟩

theorem pooled_cases (s : Stmt) (w : World) : pooled s w = [] ∨
    (∃ t, ∃ rows : List (schema.Row t), pooled s w = rows.map (.insert t)) ∨
    ∃ t ks f, pooled s w = [.update t ks f] := by
  cases s with
  | select t q => exact .inl rfl
  | lock t q pick skip => exact .inl rfl
  | reject e => exact .inl rfl
  | insert t make =>
    obtain ⟨rows, h⟩ := pooled_insert t make w
    exact .inr (.inl ⟨t, rows, h⟩)
  | update t q f =>
    simp only [pooled, Schema.Stmt.plan]
    split
    · exact .inl rfl
    · exact .inr (.inr ⟨t, _, _, rfl⟩)

/-- The operation commits the writes `new`. -/
inductive Makes (p : Nat) (w : World) : Op → List Write → Prop
  | nothing {o : Op} : Makes p w o []
  | commit {tx : Tx schema} : w.store.tx p = some tx → tx.failed = false →
      Makes p w .commit tx.writes
  | query (s : Stmt) : Makes p w (.query .pool s) (pooled s w)
  | remove (t : Table) (q : Db → t.Row → Bool) (ks : List Key) :
      Makes p w (.remove t q) [.delete t ks]

/-- Operations that leave the store alone. -/
def OffStore : Op → Prop
  | .begin | .commit | .rollback | .query _ _ | .remove _ _ => False
  | _ => True

theorem exec_offStore {o : Op} {r : Except Err o.Res} (h : World.exec p i o w = some (r, w'))
    (ho : OffStore o) : w'.store = w.store := by
  cases o
  case cachePut d =>
    cases h
    rfl
  case publish t m id =>
    simp only [World.exec] at h
    split at h
    · refine of_remote (S := fun w w' => w'.store = w.store) rfl ?_ h
      unfold World.publish
      split <;> rfl
    · cases h
      rfl
  case note e s =>
    cases h
    rfl
  case mail m =>
    refine of_remote (S := fun w w' => w'.store = w.store) rfl ?_ h
    rfl
  case index d =>
    obtain ⟨ds, rfl⟩ := exec_indexes h trivial
    rfl
  case unindex c =>
    obtain ⟨ds, rfl⟩ := exec_indexes h trivial
    rfl
  all_goals first
    | exact ho.elim
    | exact (exec_local h trivial).1.store

theorem exec_makes {o : Op} {r : Except Err o.Res} (h : World.exec p i o w = some (r, w')) :
    ∃ new, State.Commits p new w.store w'.store ∧ Makes p w o new := by
  have nothing : ∀ {st' : State schema}, st'.db = w.store.db → st'.wal = w.store.wal →
      ∃ new, State.Commits p new w.store st' ∧ Makes p w o new :=
    fun hdb hwal => ⟨[], .none hdb hwal, .nothing⟩
  cases o
  case begin =>
    obtain ⟨r₀, st', hb, hw⟩ := exec_begin h
    have e : st'.db = w.store.db ∧ st'.wal = w.store.wal := by
      rcases State.begin_cases hb with ⟨rfl, -⟩ | ⟨-, -, rfl⟩ <;> exact ⟨rfl, rfl⟩
    rcases hw with ⟨-, rfl⟩ | ⟨-, rfl | rfl⟩
    · exact nothing e.1 e.2
    · exact nothing rfl rfl
    · exact nothing e.1 e.2
  case commit =>
    rcases exec_commit h with ⟨r₀, st', hc, rfl, -⟩ | ⟨-, rfl⟩
    · rcases State.commit_cases hc with ⟨-, rfl⟩ | ⟨tx, -, -, rfl⟩ | ⟨tx, ht, hf, rfl⟩
      · exact nothing rfl rfl
      · exact nothing rfl rfl
      · exact ⟨tx.writes, ⟨rfl, rfl⟩, .commit ht hf⟩
    · exact nothing rfl rfl
  case rollback =>
    cases h
    exact nothing rfl rfl
  case query c s =>
    rcases exec_query h with ⟨r₀, st', hq, rfl, -⟩ | ⟨-, rfl | ⟨-, rfl⟩⟩
    · rcases State.query_cases hq with ⟨e, -, rfl | ⟨-, rfl⟩⟩ | ⟨tx, a, -, ht, -, -, -, -, rfl⟩ |
        ⟨a, rfl, -, -, -, rfl⟩
      · exact nothing rfl rfl
      · exact nothing State.fail_db State.fail_wal
      · exact nothing rfl rfl
      · exact ⟨pooled s w, ⟨rfl, rfl⟩, .query s⟩
    · exact nothing rfl rfl
    · exact nothing State.fail_db State.fail_wal
  case remove t q =>
    simp only [World.exec] at h
    split at h
    · rename_i n st' hr
      have gone : ∃ new, State.Commits p new w.store st' ∧ Makes p w (.remove t q) new := by
        simp only [State.remove] at hr
        split at hr
        · cases hr
          exact ⟨_, ⟨rfl, rfl⟩, .remove t q _⟩
        · cases hr
      rcases remote_cases h with ⟨-, -, rfl⟩ | ⟨-, rfl | rfl⟩
      · exact gone
      · exact nothing rfl rfl
      · exact gone
    · cases h
  all_goals
    have same : w'.store = w.store := exec_offStore h trivial
    exact nothing (by rw [same]) (by rw [same])

end Commits

section Extension

/-- What some calls, the special ones, keep beyond the protocol; `plain` are the writes it does
not speak of, and it may speak of the feeds. -/
structure Extension where
  inv : World → Prop
  guar : Option Nat → World → World → Prop
  special : Call → Prop
  plain : Write → Prop
  watches : Prop := False

namespace Extension

variable (X : Extension) (db₀ : Db)

def protocol : Protocol World :=
  ⟨fun w => Inv db₀ w ∧ X.inv w, fun a w w' => Guar a w w' ∧ X.guar a w w'⟩

/-- A step commits plain writes only, and leaves alone the feeds that are watched. -/
structure Plain (a : Option Nat) (w w' : World) : Prop where
  writes : ∃ p new, State.Commits p new w.store w'.store ∧ ∀ x ∈ new, X.plain x
  feeds : X.watches → SameFeed w w'

structure Keeps : Prop where
  init : ∀ w, Initial w → w.store.db = db₀ → X.inv w
  plain : ∀ a w w', Inv db₀ w → Inv db₀ w' → Guar a w w' → X.Plain a w w' → X.inv w →
    X.inv w' ∧ X.guar a w w'

variable {X db₀} {p : Nat} {w w' : World} {g : Nat → Op → World → Prop} {k : Call}

/-- A step that commits nothing. -/
theorem Plain.idle {a : Option Nat} (hdb : w'.store.db = w.store.db)
    (hwal : w'.store.wal = w.store.wal) (hf : SameFeed w w') : X.Plain a w w' :=
  ⟨⟨0, [], .none hdb hwal, by simp⟩, fun _ => hf⟩

theorem event_idle {x : Event} (h : w.event x = some w') : w'.store = w.store ∧ SameFeed w w' := by
  cases x with
  | tick ms => cases h; exact ⟨rfl, rfl, rfl, rfl, rfl⟩
  | configure s => cases h; exact ⟨rfl, rfl, rfl, rfl, rfl⟩
  | evict ids => cases h; exact ⟨rfl, rfl, rfl, rfl, rfl⟩
  | upload key size => cases h; exact ⟨rfl, rfl, rfl, rfl, rfl⟩
  | rotateKeys kms =>
    simp only [World.event] at h
    split at h
    · cases h
      exact ⟨rfl, rfl, rfl, rfl, rfl⟩
    · cases h

theorem enter_idle (h : w.enter p k = some w') : w'.store = w.store ∧ SameFeed w w' := by
  simp only [World.enter] at h
  split at h
  · cases h
    exact ⟨rfl, rfl, rfl, rfl, rfl⟩
  · cases h

/-- The special calls alone need a proof, when every step of another call keeps the extension;
they start where `S` holds, and `Q` is what they end in. -/
theorem soundFrom {w₀ : World} {S : Nat → World → Prop}
    (init : ∀ w, Initial w → w.store.db = w₀.store.db → X.inv w)
    (idle : ∀ a w w', Inv w₀.store.db w → Inv w₀.store.db w' → Guar a w w' → w'.store = w.store →
      SameFeed w w' → X.inv w → X.inv w' ∧ X.guar a w w')
    (lose : ∀ p w, Inv w₀.store.db w → Inv w₀.store.db (w.lose p) → Guar (some p) w (w.lose p) →
      X.inv w → X.inv (w.lose p) ∧ X.guar (some p) w (w.lose p))
    (enters : ∀ p k w w', X.inv w → w.enter p k = some w' → S p w')
    (stable : ∀ p, (X.protocol w₀.store.db).Stable p (S p))
    (hstep : ∀ p k i o w r w', ¬X.special k → w.calls p = some k → g p o w →
      World.exec p i o w = some (r, w') → Inv w₀.store.db w → Inv w₀.store.db w' →
      Guar (some p) w w' → X.inv w → X.inv w' ∧ X.guar (some p) w w')
    {Q : Nat → Call → Except Err Response → World → Prop}
    (hcode : ∀ p k, X.special k → Protocol.Valid machine g (X.protocol w₀.store.db) p
      (fun w => Start p k w ∧ S p w) (code k) (Q p k)) :
    Protocol.Sound machine g (X.protocol w₀.store.db) (From w₀) (fun p k w => Start p k w ∧ S p w)
      fun p k r w => X.special k → Q p k r w where
  init := by
    rintro w ⟨hw, rfl⟩
    exact ⟨hw.inv, init w hw rfl⟩
  event := by
    intro x w w' hi h
    obtain ⟨hi', hg⟩ := event_step hi.1 h
    obtain ⟨hs, hf⟩ := event_idle h
    obtain ⟨hx, hgx⟩ := idle _ _ _ hi.1 hi' hg hs hf hi.2
    exact ⟨⟨hi', hx⟩, hg, hgx⟩
  enter := by
    intro p k w w' hi h
    obtain ⟨hi', hg, hstart⟩ := enter_step hi.1 h
    obtain ⟨hs, hf⟩ := enter_idle h
    obtain ⟨hx, hgx⟩ := idle _ _ _ hi.1 hi' hg hs hf hi.2
    exact ⟨⟨hi', hx⟩, ⟨hg, hgx⟩, hstart, enters p k w w' hi.2 h⟩
  lose := by
    intro p w hi
    obtain ⟨hi', hg⟩ := lose_step (p := p) hi.1
    obtain ⟨hx, hgx⟩ := lose p w hi.1 hi' hg hi.2
    exact ⟨⟨hi', hx⟩, hg, hgx⟩
  start := fun p k a w w' ha hi hi' hg h =>
    ⟨stable_start a w w' ha hi.1 hi'.1 hg.1 h.1, stable p a w w' ha hi hi' hg h.2⟩
  code := by
    intro p k
    by_cases hk : X.special k
    · exact (hcode p k hk).post fun _ _ _ h _ => h
    · have lifted := Protocol.Valid.lift (K := X.protocol w₀.store.db)
        (χ := fun w => w.calls p = some k) (serves_code (g := g) (p := p) k) (Prog.uses_true _)
        (fun _ h => h.1) (fun _ _ _ h => h.1) (fun _ _ _ _ _ _ hg => hg.1.calls p k)
        fun i o w r w' _ hga hx hi hc hi' hg => by
          obtain ⟨hx', hgx⟩ := hstep p k i o w r w' hk hc hga hx hi.1 hi' hg hi.2
          exact ⟨⟨hi', hx'⟩, ⟨hg, hgx⟩, hg.calls p k hc⟩
      exact (lifted.pre fun w _ hs => ⟨hs.1, hs.1.call⟩).post fun _ _ _ _ hs => (hk hs).elim

/-- The same for an extension that plain steps keep. -/
theorem Keeps.soundOf {w₀ : World} (hX : X.Keeps w₀.store.db)
    (hstep : ∀ p k i o w r w', ¬X.special k → w.calls p = some k → g p o w →
      World.exec p i o w = some (r, w') → Inv w₀.store.db w → Inv w₀.store.db w' →
      Guar (some p) w w' → X.inv w → X.inv w' ∧ X.guar (some p) w w')
    {Q : Nat → Call → Except Err Response → World → Prop}
    (hcode : ∀ p k, X.special k → Protocol.Valid machine g (X.protocol w₀.store.db) p (Start p k)
      (code k) (Q p k)) :
    Protocol.Sound machine g (X.protocol w₀.store.db) (From w₀) Start
      fun p k r w => X.special k → Q p k r w := by
  have from_ := soundFrom (S := fun _ _ => True) hX.init
    (fun a w w' hi hi' hg hs hf hx => hX.plain a w w' hi hi' hg
      (.idle (by rw [hs]) (by rw [hs]) hf) hx)
    (fun p w hi hi' hg hx => hX.plain _ _ _ hi hi' hg (.idle rfl rfl ⟨rfl, rfl, rfl, rfl⟩) hx)
    (fun _ _ _ _ _ _ => trivial) (fun _ => .const _ _ _) hstep
    fun p k hk => (hcode p k hk).pre fun _ _ h => h.1
  exact ⟨from_.init, from_.event, fun p k w w' hi h => (from_.enter p k w w' hi h).imp_right
      fun h => h.imp_right And.left, from_.lose,
    fun p k a w w' ha hi hi' hg => stable_start a w w' ha hi.1 hi'.1 hg.1,
    fun p k => (from_.code p k).pre fun _ _ h => ⟨h, trivial⟩⟩

/-- The calls that are not special write what they may, and that is plain. -/
theorem Keeps.sound {w₀ : World} (hX : X.Keeps w₀.store.db)
    (hw : ¬X.watches) (hmay : ∀ k x, ¬X.special k → May k x → X.plain x)
    {Q : Nat → Call → Except Err Response → World → Prop}
    (hcode : ∀ p k, X.special k → Protocol.Valid machine g (X.protocol w₀.store.db) p (Start p k)
      (code k) (Q p k)) :
    Protocol.Sound machine g (X.protocol w₀.store.db) (From w₀) Start
      fun p k r w => X.special k → Q p k r w := by
  refine hX.soundOf (fun p k i o w r w' hk hc _ h hi hi' hg hx => ?_) hcode
  obtain ⟨new, hnew, -⟩ := exec_makes h
  refine hX.plain _ _ _ hi hi' hg ⟨⟨p, new, hnew, fun x hx => ?_⟩, fun h => (hw h).elim⟩ hx
  have logged : (p, x) ∈ w'.store.wal :=
    hnew.1 ▸ List.mem_append_right _ (List.mem_map_of_mem hx)
  obtain ⟨k', hk', hm⟩ := hi'.db.known p x logged
  cases hk'.symm.trans (hg.calls p k hc)
  exact hmay k x hk hm

end Extension

end Extension

section Transactions

variable {p : Nat} {w w' : World} {i : Input}

/-- The open transaction is the one of `w`, or it is empty. -/
def Grows (p : Nat) (w : World) (o : Op) (tx' : Tx schema) : Prop :=
  tx'.writes = [] ∨ ∃ tx, w.store.tx p = some tx ∧ tx'.now = tx.now ∧
    (tx'.writes = tx.writes ∨ ∃ s v free id, o = .query .tx s ∧
      tx'.writes = tx.writes ++ (s.plan v free id tx.now).writes)

theorem Grows.same {o : Op} {tx : Tx schema} (h : w.store.tx p = some tx) : Grows p w o tx :=
  .inr ⟨tx, h, rfl, .inl rfl⟩

theorem Grows.failed {o : Op} {tx' : Tx schema} (h : (w.store.fail p).tx p = some tx') :
    Grows p w o tx' := by
  simp only [State.fail] at h
  split at h
  · exact .same h
  · rename_i tx ht
    simp only [Function.update_self, Option.some.injEq] at h
    exact .inr ⟨tx, ht, h ▸ rfl, .inl (h ▸ rfl)⟩

theorem exec_grows {o : Op} {r : Except Err o.Res} (h : World.exec p i o w = some (r, w'))
    {tx' : Tx schema} (ht : w'.store.tx p = some tx') : Grows p w o tx' := by
  cases o
  case begin =>
    obtain ⟨r₀, st', hb, hw⟩ := exec_begin h
    have grown : ∀ {tx'}, st'.tx p = some tx' → Grows p w .begin tx' := by
      intro tx' ht
      rcases State.begin_cases hb with ⟨rfl, -⟩ | ⟨-, -, rfl⟩
      · exact .same ht
      · simp only [Function.update_self, Option.some.injEq] at ht
        exact .inl (ht ▸ rfl)
    rcases hw with ⟨-, rfl⟩ | ⟨-, rfl | rfl⟩
    · exact grown ht
    · exact .same ht
    · exact grown ht
  case commit =>
    rcases exec_commit h with ⟨r₀, st', hc, rfl, -⟩ | ⟨-, rfl⟩
    · rcases State.commit_cases hc with ⟨-, rfl⟩ | ⟨tx, -, -, rfl⟩ | ⟨tx, -, -, rfl⟩
      · exact .same ht
      · cases State.rollback_tx_self.symm.trans ht
      · cases State.rollback_tx_self.symm.trans ht
    · cases State.rollback_tx_self.symm.trans ht
  case rollback =>
    cases h
    cases State.rollback_tx_self.symm.trans ht
  case query c s =>
    rcases exec_query h with ⟨r₀, st', hq, rfl, -⟩ | ⟨-, rfl | ⟨-, rfl⟩⟩
    · rcases State.query_cases hq with ⟨e, -, rfl | ⟨-, rfl⟩⟩ | ⟨tx, a, rfl, htx, -, -, -, -, rfl⟩ |
        ⟨a, rfl, -, -, -, rfl⟩
      · exact .same ht
      · exact .failed ht
      · simp only [World.withStore, State.stage, Function.update_self, Option.some.injEq] at ht
        subst ht
        exact .inr ⟨tx, htx, rfl, .inr ⟨s, _, _, _, rfl, rfl⟩⟩
      · exact .same ht
    · exact .same ht
    · exact .failed ht
  case remove t q =>
    simp only [World.exec] at h
    split at h
    · rename_i n st' hr
      have same : st'.tx = w.store.tx := by
        simp only [State.remove] at hr
        split at hr
        · cases hr
          rfl
        · cases hr
      rcases remote_cases h with ⟨-, -, rfl⟩ | ⟨-, rfl | rfl⟩
      · exact .same (same ▸ ht)
      · exact .same ht
      · exact .same (same ▸ ht)
    · cases h
  all_goals
    have same : w'.store = w.store := exec_offStore h trivial
    exact .same (same ▸ ht)

end Transactions

section Steps

variable {w₀ : World} {g : Nat → Op → World → Prop} {P P' : Pool Op Op.Res Err World Call Response}
  {l : Label Input Event Call}

/-- A step of a run leaves the tables as they are, or commits what its call may write. -/
theorem step_makes (hP : machine.Reach (From w₀) g P)
    (hl : ∀ p i k o next, l = .exec p i → P.threads p = some ⟨k, some (.op o next)⟩ →
      g p o P.shared)
    (hst : machine.step l P = some P') :
    (P'.shared.store.db = P.shared.store.db ∧ P'.shared.store.wal = P.shared.store.wal) ∨
    ∃ p k o next new, P.threads p = some ⟨k, some (.op o next)⟩ ∧ g p o P.shared ∧
      State.Commits p new P.shared.store P'.shared.store ∧ Makes p P.shared o new ∧
      (∀ x ∈ new, May k x) ∧ P'.shared.calls p = some k := by
  have hP' : machine.Reach (From w₀) g P' := .step l hP hl hst
  have idle : ∀ {w : World}, w.store = P.shared.store →
      w.store.db = P.shared.store.db ∧ w.store.wal = P.shared.store.wal := fun e => by simp [e]
  rcases Machine.step_cases hst with ⟨p, k, s, rfl, -, hx, rfl⟩ |
    ⟨p, i, k, o, next, r, s, rfl, ht, hx, rfl⟩ | ⟨x, s, rfl, hx, rfl⟩ | ⟨p, k, o, next, rfl, -, rfl⟩
  · exact .inl (idle (Extension.enter_idle hx).1)
  · have hx : World.exec p i o P.shared = some (r, s) := hx
    obtain ⟨new, hc, hm⟩ := exec_makes hx
    have call : s.calls p = some k := call_of_thread hP' (Pool.put_self ..)
    refine .inr ⟨p, k, o, next, new, ht, hl p i k o next rfl ht, hc, hm, fun x hx => ?_, call⟩
    have logged : (p, x) ∈ s.store.wal :=
      hc.1 ▸ List.mem_append_right _ (List.mem_map_of_mem hx)
    obtain ⟨k', hk', hm⟩ := ((sound g w₀).inv hP').db.known p x logged
    cases call.symm.trans hk'
    exact hm
  · exact .inl (idle (Extension.event_idle hx).1)
  · exact .inl ⟨rfl, rfl⟩

/-- What the statements of a transaction write, when all the code of a call may come to agrees. -/
theorem staged_reach {T : Call → Nat → Write → Prop}
    (hT : ∀ k, (code k).Uses fun o => ∀ s, o = .query .tx s → ∀ v free id now,
      ∀ x ∈ (s.plan v free id now).writes, T k now x)
    (h : machine.Reach (From w₀) g P) {p : Nat} {k : Call} {x : Option (App Response)}
    {tx : Tx schema} (ht : P.threads p = some ⟨k, x⟩) (htx : P.shared.store.tx p = some tx) :
    ∀ y ∈ tx.writes, T k tx.now y := by
  induction h generalizing p k x tx with
  | init _ => cases ht
  | @step P P' l hP hl hst ih =>
    rcases Machine.step_cases hst with ⟨q, k', s, rfl, -, hx, rfl⟩ |
      ⟨q, i, k', o, next, r, s, rfl, hq, hx, rfl⟩ | ⟨e, s, rfl, hx, rfl⟩ |
      ⟨q, k', o, next, rfl, -, rfl⟩
    · have held : s.store.tx p = some tx := htx
      rw [(Extension.enter_idle hx).1] at held
      by_cases e : p = q
      · subst e
        have idle : P.shared.calls p = none := by
          have hx : P.shared.enter p k' = some s := hx
          simp only [World.enter] at hx
          split at hx
          · assumption
          · cases hx
        cases (((sound g w₀).inv hP).idle p idle).symm.trans held
      · rw [Pool.put_of_ne _ _ _ e] at ht
        exact ih ht held
    · have hx : World.exec q i o P.shared = some (r, s) := hx
      have held : s.store.tx p = some tx := htx
      by_cases e : p = q
      · subst e
        rw [Pool.put_self] at ht
        obtain ⟨rfl, -⟩ := Thread.mk.inj (Option.some.inj ht)
        have uses := (hP.uses hT hq).1
        rcases exec_grows hx held with he | ⟨tx₀, htx₀, hnow, hw | ⟨st, v, free, n, rfl, hw⟩⟩
        · simp [he]
        · rw [hw, hnow]
          exact ih hq htx₀
        · rw [hw, hnow]
          intro y hy
          rcases List.mem_append.1 hy with hy | hy
          · exact ih hq htx₀ y hy
          · exact uses st rfl v free n tx₀.now y hy
      · rw [Pool.put_of_ne _ _ _ e] at ht
        have frame := (Protocol.Sound.exec ((sound g w₀).holds hP) hq (hl q i k' o next rfl hq) hx).frame
        rw [frame.tx p fun h => e (Option.some.inj h).symm] at held
        exact ih ht held
    · have held : s.store.tx p = some tx := htx
      rw [(Extension.event_idle hx).1] at held
      exact ih ht held
    · have held : (P.shared.store.rollback q).tx p = some tx := htx
      by_cases e : p = q
      · subst e
        cases State.rollback_tx_self.symm.trans held
      · rw [State.rollback_tx_of_ne e] at held
        rw [Pool.put_of_ne _ _ _ e] at ht
        exact ih ht held

end Steps

end Messageries.Proofs
