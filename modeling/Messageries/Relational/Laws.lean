import Mathlib.Data.List.Flatten
import Mathlib.Data.List.Nodup
import Mathlib.Data.List.Pairwise
import Messageries.Relational.Store

set_option linter.unusedSectionVars false

namespace Messageries.Relational

variable {T K E : Type} {S : Schema T K E} [DecidableEq T] [DecidableEq K] [ServerError E]

namespace Schema

namespace Write

/-- The keys of table `t` a write brings into use. -/
def newKeys (t : T) : S.Write → List K
  | .insert t' r => if t' = t then S.keys t' r else []
  | .update _ _ _ => []
  | .delete _ _ => []

def Keeps : S.Write → Prop
  | .delete _ _ => False
  | _ => True

@[simp] theorem applyAll_nil (db : S.Db) : applyAll [] db = db := rfl

@[simp] theorem applyAll_cons (w : S.Write) (ws : List S.Write) (db : S.Db) :
    applyAll (w :: ws) db = applyAll ws (w.apply db) := rfl

theorem applyAll_append (ws vs : List S.Write) (db : S.Db) :
    applyAll (ws ++ vs) db = applyAll vs (applyAll ws db) :=
  List.foldl_append

@[simp] theorem apply_insert (t : T) (r : S.Row t) (db : S.Db) :
    (Write.insert t r).apply db t = db t ++ [r] := by
  simp [apply]

theorem apply_insert_of_ne {t t' : T} (r : S.Row t) (db : S.Db) (h : t' ≠ t) :
    (Write.insert t r).apply db t' = db t' := by
  simp [apply, h]

@[simp] theorem apply_update (t : T) (ks : List K) (f : S.Assign t) (db : S.Db) :
    (Write.update t ks f).apply db t =
      (db t).map fun r => if S.key t r ∈ ks then f.set r else r := by
  simp [apply]

theorem apply_update_of_ne {t t' : T} (ks : List K) (f : S.Assign t) (db : S.Db) (h : t' ≠ t) :
    (Write.update t ks f).apply db t' = db t' := by
  simp [apply, h]

@[simp] theorem apply_delete (t : T) (ks : List K) (db : S.Db) :
    (Write.delete t ks : S.Write).apply db t = (db t).filter fun r => S.key t r ∉ ks := by
  simp [apply]

theorem apply_delete_of_ne {t t' : T} (ks : List K) (db : S.Db) (h : t' ≠ t) :
    (Write.delete t ks : S.Write).apply db t' = db t' := by
  simp [apply, h]

end Write

theorem keysOf_append (t : T) (rs rs' : List (S.Row t)) :
    S.keysOf t (rs ++ rs') = S.keysOf t rs ++ S.keysOf t rs' :=
  List.flatMap_append

theorem key_mem_keysOf {t : T} {rs : List (S.Row t)} {r : S.Row t} (h : r ∈ rs) :
    S.key t r ∈ S.keysOf t rs :=
  List.mem_flatMap.2 ⟨r, h, List.mem_cons_self ..⟩

theorem Assign.key_set {t : T} (f : S.Assign t) (r : S.Row t) :
    S.key t (f.set r) = S.key t r :=
  (List.cons.inj (f.keys_set r)).1

theorem keysOf_update (t : T) (ks : List K) (f : S.Assign t) (rs : List (S.Row t)) :
    S.keysOf t (rs.map fun r => if S.key t r ∈ ks then f.set r else r) = S.keysOf t rs := by
  induction rs with
  | nil => rfl
  | cons r rs ih =>
    simp only [keysOf, List.map_cons, List.flatMap_cons] at ih ⊢
    rw [ih]
    split
    · rw [f.keys_set]
    · rfl

theorem keysOf_apply {w : S.Write} (hw : w.Keeps) (t : T) (db : S.Db) :
    S.keysOf t (w.apply db t) = S.keysOf t (db t) ++ w.newKeys t := by
  cases w with
  | insert t' r =>
    by_cases h : t' = t
    · subst h
      rw [Write.apply_insert, keysOf_append]
      simp [keysOf, Write.newKeys]
    · rw [Write.apply_insert_of_ne _ _ (Ne.symm h)]
      simp [Write.newKeys, h]
  | update t' ks f =>
    by_cases h : t' = t
    · subst h
      rw [Write.apply_update, keysOf_update]
      simp [Write.newKeys]
    · rw [Write.apply_update_of_ne _ _ _ (Ne.symm h)]
      simp [Write.newKeys]
  | delete t' ks => exact hw.elim

theorem keysOf_applyAll {ws : List S.Write} (hw : ∀ w ∈ ws, w.Keeps) (t : T) (db : S.Db) :
    S.keysOf t (Write.applyAll ws db t) = S.keysOf t (db t) ++ ws.flatMap (Write.newKeys t) := by
  induction ws generalizing db with
  | nil => simp
  | cons w ws ih =>
    rw [Write.applyAll_cons, ih fun w' h => hw w' (List.mem_cons_of_mem _ h),
      keysOf_apply (hw w (List.mem_cons_self ..)), List.flatMap_cons, List.append_assoc]

@[simp] theorem applyAll_inserts (t : T) (rs : List (S.Row t)) (db : S.Db) :
    Write.applyAll (rs.map (Write.insert t)) db t = db t ++ rs := by
  induction rs generalizing db with
  | nil => simp
  | cons r rs ih => simp [ih]

theorem applyAll_inserts_of_ne {t t' : T} (rs : List (S.Row t)) (db : S.Db) (h : t' ≠ t) :
    Write.applyAll (rs.map (Write.insert t)) db t' = db t' := by
  induction rs generalizing db with
  | nil => rfl
  | cons r rs ih => rw [List.map_cons, Write.applyAll_cons, ih, Write.apply_insert_of_ne _ _ h]

theorem newKeys_locks {w : S.Write} {t : T} {k : K} (h : k ∈ w.newKeys t) : (t, k) ∈ w.locks := by
  cases w with
  | insert t' r =>
    by_cases e : t' = t
    · subst e
      simpa [Write.newKeys, Write.locks] using h
    · simp [Write.newKeys, e] at h
  | update t' ks f => simp [Write.newKeys] at h
  | delete t' ks => simp [Write.newKeys] at h

/-- The row of a key. -/
def rowsAt (t : T) (k : K) (db : S.Db) : List (S.Row t) := (db t).filter fun r => S.key t r = k

theorem mem_rowsAt {t : T} {k : K} {db : S.Db} {r : S.Row t} :
    r ∈ S.rowsAt t k db ↔ r ∈ db t ∧ S.key t r = k := by
  simp [rowsAt]

theorem rowsAt_apply {w : S.Write} {t : T} {k : K} (h : (t, k) ∉ w.locks) (db : S.Db) :
    S.rowsAt t k (w.apply db) = S.rowsAt t k db := by
  cases w with
  | insert t' r =>
    by_cases e : t' = t
    · subst e
      have hk : S.key t' r ≠ k := by
        intro hk
        exact h (List.mem_map.2 ⟨k, hk ▸ List.mem_cons_self .., rfl⟩)
      simp [rowsAt, hk]
    · simp [rowsAt, Write.apply_insert_of_ne _ _ (Ne.symm e)]
  | update t' ks f =>
    by_cases e : t' = t
    · subst e
      have hk : k ∉ ks := fun hk => h (List.mem_map.2 ⟨k, hk, rfl⟩)
      simp only [rowsAt, Write.apply_update, List.filter_map]
      rw [List.filter_congr (q := fun r => decide (S.key t' r = k))]
      · refine (List.map_congr_left fun r hr => ?_).trans (List.map_id _)
        have hr : S.key t' r = k := by simpa using (List.mem_filter.1 hr).2
        simp [hr, hk]
      · intro r _
        simp only [Function.comp]
        split
        · rw [f.key_set]
        · rfl
    · simp [rowsAt, Write.apply_update_of_ne _ _ _ (Ne.symm e)]
  | delete t' ks =>
    by_cases e : t' = t
    · subst e
      have hk : k ∉ ks := fun hk => h (List.mem_map.2 ⟨k, hk, rfl⟩)
      simp only [rowsAt, Write.apply_delete, List.filter_filter]
      refine List.filter_congr fun r _ => ?_
      by_cases hr : S.key t' r = k
      · simp [hr, hk]
      · simp [hr]
    · simp [rowsAt, Write.apply_delete_of_ne _ _ (Ne.symm e)]

theorem rowsAt_applyAll {ws : List S.Write} {t : T} {k : K} (h : ∀ w ∈ ws, (t, k) ∉ w.locks)
    (db : S.Db) : S.rowsAt t k (Write.applyAll ws db) = S.rowsAt t k db := by
  induction ws generalizing db with
  | nil => rfl
  | cons w ws ih =>
    rw [Write.applyAll_cons, ih fun w' h' => h w' (List.mem_cons_of_mem _ h'),
      rowsAt_apply (h w (List.mem_cons_self ..))]

/-- An element of a list without duplicates comes from one place. -/
theorem eq_of_mem_flatMap {α β : Type} {f : α → List β} {xs : List α} (h : (xs.flatMap f).Nodup)
    {x y : α} (hx : x ∈ xs) (hy : y ∈ xs) {b : β} (hb : b ∈ f x) (hb' : b ∈ f y) : x = y := by
  by_contra hne
  have apart : (f x).Disjoint (f y) :=
    have : Std.Symm fun a b => (f a).Disjoint (f b) := ⟨fun _ _ h _ ha hb => h hb ha⟩
    (List.nodup_flatMap.1 h).2.forall hx hy hne
  exact apart hb hb'

/-- Two rows of a table with one key are the same row. -/
theorem eq_of_key {t : T} {rs : List (S.Row t)} (h : (S.keysOf t rs).Nodup) {r r' : S.Row t}
    (hr : r ∈ rs) (hr' : r' ∈ rs) {k : K} (hk : k ∈ S.keys t r) (hk' : k ∈ S.keys t r') :
    r = r' :=
  eq_of_mem_flatMap h hr hr' hk hk'

/-- A table whose keys are used once has no row twice. -/
theorem nodup_of_keys {t : T} {rs : List (S.Row t)} (h : (S.keysOf t rs).Nodup) : rs.Nodup := by
  refine (List.nodup_flatMap.1 h).2.imp fun {r r'} hd e => ?_
  subst e
  exact hd (List.mem_cons_self ..) (List.mem_cons_self ..)

/-- At most one row of a table has a key. -/
theorem filter_length_le_one {t : T} {rs : List (S.Row t)} (h : (S.keysOf t rs).Nodup)
    {q : S.Row t → Bool} {k : K} (hq : ∀ r, q r = true → k ∈ S.keys t r) :
    (rs.filter q).length ≤ 1 := by
  have distinct : (rs.filter q).Nodup := (nodup_of_keys h).filter q
  have same : ∀ r ∈ rs.filter q, ∀ r' ∈ rs.filter q, r = r' := by
    intro r hr r' hr'
    obtain ⟨hr, hk⟩ := List.mem_filter.1 hr
    obtain ⟨hr', hk'⟩ := List.mem_filter.1 hr'
    exact eq_of_key h hr hr' (hq r hk) (hq r' hk')
  cases e : rs.filter q with
  | nil => exact Nat.zero_le 1
  | cons r rest =>
    cases rest with
    | nil => exact Nat.le_refl 1
    | cons r' rest =>
      rw [e] at distinct same
      have hr : r = r' := same r (by simp) r' (by simp)
      simp [hr] at distinct

end Schema

open Schema

/-- What holds of the answer of every statement. -/
structure Plan.Fit {α : Type} (v : S.Db) (pl : Plan S α) : Prop where
  keeps : ∀ w ∈ pl.writes, w.Keeps
  locked : ∀ w ∈ pl.writes, ∀ l ∈ w.locks, l ∈ pl.locks
  fresh : ∀ t, (S.keysOf t (v t)).Nodup →
    (S.keysOf t (v t) ++ pl.writes.flatMap (Write.newKeys t)).Nodup

theorem Plan.Fit.of_no_writes {α : Type} {v : S.Db} {pl : Plan S α} (h : pl.writes = []) :
    pl.Fit v := by
  refine ⟨?_, ?_, ?_⟩ <;> simp [h]

theorem newKeys_inserts (t : T) (rs : List (S.Row t)) (t' : T) :
    (rs.map (Write.insert t)).flatMap (Write.newKeys t') =
      if t = t' then S.keysOf t rs else [] := by
  induction rs with
  | nil => simp [keysOf]
  | cons r rs ih =>
    rw [List.map_cons, List.flatMap_cons, ih]
    by_cases h : t = t' <;> simp [h, Write.newKeys, keysOf]

theorem Schema.Stmt.plan_fit (v : S.Db) (free : T → K → Bool) (id now : Nat) (s : S.Stmt) :
    (s.plan v free id now).Fit v := by
  cases s with
  | select t q => exact .of_no_writes rfl
  | lock t q pick skip => exact .of_no_writes rfl
  | reject e => exact .of_no_writes rfl
  | insert t make =>
    simp only [Stmt.plan]
    split
    · exact .of_no_writes rfl
    · split
      · rename_i hk
        refine ⟨?_, ?_, fun t' ht' => ?_⟩
        · intro w hw
          obtain ⟨r, -, rfl⟩ := List.mem_map.1 hw
          trivial
        · intro w hw l hl
          obtain ⟨r, hr, rfl⟩ := List.mem_map.1 hw
          obtain ⟨k, hk', rfl⟩ := List.mem_map.1 hl
          exact List.mem_map.2 ⟨k, List.mem_flatMap.2 ⟨r, hr, hk'⟩, rfl⟩
        · simp only [newKeys_inserts]
          split
          · rename_i e
            subst e
            exact ht'.append hk.1 fun k hv hn => hk.2 k hn hv
          · simpa using ht'
      · exact .of_no_writes rfl
  | update t q f =>
    simp only [Stmt.plan]
    split
    · exact .of_no_writes rfl
    · refine ⟨?_, ?_, fun t' ht' => ?_⟩
      · simp [Write.Keeps]
      · simp [Write.locks]
      · simpa [Write.newKeys] using ht'

/-- An INSERT that succeeds adds the rows it makes. -/
theorem Schema.Stmt.plan_insert {t : T} {make : List (Nat → Nat → S.Row t)} {v : S.Db}
    {free : T → K → Bool} {id now : Nat} {rows : List (S.Row t)}
    (h : ((Stmt.insert t make).plan v free id now).answer = .ok rows) :
    rows = make.mapIdx (fun i f => f (id + i) now) ∧ rows.findSome? (S.check t) = none ∧
      ((Stmt.insert t make).plan v free id now).writes = rows.map (.insert t) ∧
      ((Stmt.insert t make).plan v free id now).locks = (S.keysOf t rows).map (t, ·) ∧
      ((Stmt.insert t make).plan v free id now).fresh = make.length := by
  simp only [Stmt.plan] at h ⊢
  split at h
  · cases h
  · rename_i hn
    split at h
    · rename_i hu
      obtain rfl := Except.ok.inj h
      rw [hn, if_pos hu]
      simp
    · cases h

/-- Why an INSERT fails. -/
theorem Schema.Stmt.plan_insert_error {t : T} {make : List (Nat → Nat → S.Row t)} {v : S.Db}
    {free : T → K → Bool} {id now : Nat} {e : E}
    (h : ((Stmt.insert t make).plan v free id now).answer = .error e) :
    (∃ r ∈ make.mapIdx (fun i f => f (id + i) now), S.check t r = some e) ∨
    e = ServerError.uniqueViolation ∧
      ¬((S.keysOf t (make.mapIdx fun i f => f (id + i) now)).Nodup ∧
        ∀ k ∈ S.keysOf t (make.mapIdx fun i f => f (id + i) now), k ∉ S.keysOf t (v t)) := by
  simp only [Stmt.plan] at h
  split at h
  · rename_i hs
    obtain ⟨r, hr, hc⟩ := List.exists_of_findSome?_eq_some hs
    exact .inl ⟨r, hr, Except.error.inj h ▸ hc⟩
  · split at h
    · cases h
    · rename_i hu
      exact .inr ⟨(Except.error.inj h).symm, hu⟩

theorem Schema.Stmt.plan_update {t : T} {q : S.Db → Nat → S.Row t → Bool} {f : Nat → S.Assign t}
    {v : S.Db} {free : T → K → Bool} {id now n : Nat}
    (h : ((Stmt.update t q f).plan v free id now).answer = .ok n) :
    ((Stmt.update t q f).plan v free id now).writes =
        [.update t (((v t).filter (q v now)).map (S.key t)) (f now)] ∧
      ((Stmt.update t q f).plan v free id now).locks =
        (((v t).filter (q v now)).map (S.key t)).map (t, ·) ∧
      ((Stmt.update t q f).plan v free id now).fresh = 0 := by
  simp only [Stmt.plan] at h ⊢
  split at h
  · cases h
  · exact ⟨rfl, rfl, rfl⟩

/-- What one INSERT writes. -/
theorem Schema.Stmt.mem_plan_insert {t : T} {make : List (Nat → Nat → S.Row t)} {v : S.Db}
    {free : T → K → Bool} {id now : Nat} {x : S.Write}
    (h : x ∈ ((Stmt.insert t make).plan v free id now).writes) :
    ∃ f ∈ make, ∃ i, x = .insert t (f i now) := by
  simp only [Stmt.plan] at h
  split at h
  · cases h
  · split at h
    · obtain ⟨r, hr, rfl⟩ := List.mem_map.1 h
      obtain ⟨i, hi, rfl⟩ := List.mem_mapIdx.1 hr
      exact ⟨make[i], List.getElem_mem hi, id + i, rfl⟩
    · cases h

/-- What one UPDATE writes. -/
theorem Schema.Stmt.mem_plan_update {t : T} {q : S.Db → Nat → S.Row t → Bool}
    {f : Nat → S.Assign t} {v : S.Db} {free : T → K → Bool} {id now : Nat} {x : S.Write}
    (h : x ∈ ((Stmt.update t q f).plan v free id now).writes) :
    x = .update t (((v t).filter (q v now)).map (S.key t)) (f now) ∧
      ((Stmt.update t q f).plan v free id now).writes = [x] := by
  simp only [Stmt.plan] at h ⊢
  split at h
  · cases h
  · exact ⟨List.mem_singleton.1 h, by rw [List.mem_singleton.1 h]⟩

/-- A write comes from the INSERT that makes the row, or from the UPDATE that sets it. -/
theorem Schema.Stmt.mem_plan {s : S.Stmt} {v : S.Db} {free : T → K → Bool} {id now : Nat}
    {x : S.Write} (h : x ∈ (s.plan v free id now).writes) :
    (∃ t make, s = .insert t make ∧ ∃ f ∈ make, ∃ i, x = .insert t (f i now)) ∨
      ∃ t q f, s = .update t q f ∧
        x = .update t (((v t).filter (q v now)).map (S.key t)) (f now) := by
  cases s with
  | select t q => cases h
  | lock t q pick skip => cases h
  | reject e => cases h
  | insert t make => exact .inl ⟨t, make, rfl, mem_plan_insert h⟩
  | update t q f => exact .inr ⟨t, q, f, rfl, (mem_plan_update h).1⟩

namespace State

theorem free_eq {p : Option Nat} {st : State S} {t : T} {k : K} (h : st.free p t k = true)
    {q : Nat} (hq : st.owner t k = some q) : p = some q := by
  simpa [free, hq] using h

/-- What every reachable store satisfies: no key is used twice, not even by the
rows a transaction has not committed yet, and a transaction holds the keys of
its writes. -/
structure Ok (st : State S) : Prop where
  unique : ∀ t, (S.keysOf t (st.db t)).Nodup
  keeps : ∀ p tx, st.tx p = some tx → ∀ w ∈ tx.writes, w.Keeps
  pending : ∀ p tx, st.tx p = some tx → ∀ t,
    (S.keysOf t (st.db t) ++ tx.writes.flatMap (Write.newKeys t)).Nodup
  owned : ∀ p tx, st.tx p = some tx → ∀ w ∈ tx.writes, ∀ l ∈ w.locks, st.owner l.1 l.2 = some p

/-- What a step of the sessions in `a` leaves to the other sessions. -/
structure Frame (a : Option Nat) (st st' : State S) : Prop where
  tx : ∀ q, a ≠ some q → st'.tx q = st.tx q
  owner : ∀ q, a ≠ some q → ∀ t k, st.owner t k = some q → st'.owner t k = some q
  row : ∀ q, a ≠ some q → ∀ t k, st.owner t k = some q →
    S.rowsAt t k st'.db = S.rowsAt t k st.db
  nextId : st.nextId ≤ st'.nextId

theorem Frame.of_eq {a : Option Nat} {st st' : State S}
    (tx : ∀ q, a ≠ some q → st'.tx q = st.tx q)
    (owner : ∀ q, a ≠ some q → ∀ t k, st.owner t k = some q → st'.owner t k = some q)
    (db : st'.db = st.db) (nextId : st.nextId ≤ st'.nextId) : Frame a st st' :=
  ⟨tx, owner, fun _ _ _ _ _ => by rw [db], nextId⟩

theorem Frame.refl (a : Option Nat) (st : State S) : Frame a st st :=
  .of_eq (fun _ _ => rfl) (fun _ _ _ _ h => h) rfl (Nat.le_refl _)

theorem Frame.weaken {a : Option Nat} {st st' : State S} (h : Frame none st st') :
    Frame a st st' :=
  ⟨fun q _ => h.tx q nofun, fun q _ => h.owner q nofun, fun q _ => h.row q nofun, h.nextId⟩

/-- The committed writes of a step of session `p`. -/
def Commits (p : Nat) (ws : List S.Write) (st st' : State S) : Prop :=
  st'.wal = st.wal ++ ws.map (p, ·) ∧ st'.db = Write.applyAll ws st.db

theorem Commits.none {p : Nat} {st st' : State S} (db : st'.db = st.db) (wal : st'.wal = st.wal) :
    Commits p [] st st' := by
  simp [Commits, db, wal]

theorem view_of_none {p : Nat} {st : State S} (h : st.tx p = none) : st.view p = st.db := by
  simp [view, h]

theorem view_of_some {p : Nat} {st : State S} {tx : Tx S} (h : st.tx p = some tx) :
    st.view p = Write.applyAll tx.writes st.db := by
  simp [view, h]

section Rollback

variable {p : Nat} {st : State S}

@[simp] theorem rollback_db : (st.rollback p).db = st.db := rfl

@[simp] theorem rollback_wal : (st.rollback p).wal = st.wal := rfl

@[simp] theorem rollback_nextId : (st.rollback p).nextId = st.nextId := rfl

@[simp] theorem rollback_tx_self : (st.rollback p).tx p = none := Function.update_self ..

theorem rollback_tx_of_ne {q : Nat} (h : q ≠ p) : (st.rollback p).tx q = st.tx q :=
  Function.update_of_ne h ..

theorem rollback_owner_of_ne {q : Nat} (h : q ≠ p) {t : T} {k : K} (ho : st.owner t k = some q) :
    (st.rollback p).owner t k = some q := by
  simp [rollback, ho, h]

theorem frame_rollback : Frame (some p) st (st.rollback p) :=
  .of_eq (fun _ h => rollback_tx_of_ne fun e => h (congrArg some e.symm))
    (fun _ h _ _ ho => rollback_owner_of_ne (fun e => h (congrArg some e.symm)) ho) rfl (Nat.le_refl _)

theorem Ok.rollback (h : st.Ok) : (st.rollback p).Ok := by
  have open_ne : ∀ q tx, (st.rollback p).tx q = some tx → q ≠ p ∧ st.tx q = some tx := by
    intro q tx hq
    by_cases e : q = p
    · subst e
      simp at hq
    · rw [rollback_tx_of_ne e] at hq
      exact ⟨e, hq⟩
  refine ⟨h.unique, fun q tx hq => ?_, fun q tx hq => ?_, fun q tx hq w hw l hl => ?_⟩
  · exact h.keeps q tx (open_ne q tx hq).2
  · exact h.pending q tx (open_ne q tx hq).2
  · obtain ⟨hne, hq⟩ := open_ne q tx hq
    exact rollback_owner_of_ne hne (h.owned q tx hq w hw l hl)

end Rollback

section Write

variable {p : Nat} {st : State S} {ws : List S.Write}

/-- Session `q` holds none of the keys of the writes. -/
def Apart (q : Nat) (st : State S) (ws : List S.Write) : Prop :=
  ∀ w ∈ ws, ∀ l ∈ w.locks, st.owner l.1 l.2 ≠ some q

theorem frame_write {a : Option Nat} (hx : ∀ q, a ≠ some q → Apart q st ws) :
    Frame a st (st.write p ws) := by
  refine ⟨fun _ _ => rfl, fun _ _ _ _ h => h, fun q hq t k ho => ?_, Nat.le_refl _⟩
  exact rowsAt_applyAll (fun w hw hl => hx q hq w hw (t, k) hl ho) st.db

theorem pending_write (h : st.Ok) (hk : ∀ w ∈ ws, w.Keeps)
    (hn : ∀ t, (S.keysOf t (st.db t) ++ ws.flatMap (Write.newKeys t)).Nodup)
    {q : Nat} (hx : Apart q st ws) {tx : Tx S} (ht : st.tx q = some tx) (t : T) :
    (S.keysOf t (Write.applyAll ws st.db t) ++ tx.writes.flatMap (Write.newKeys t)).Nodup := by
  have hq := h.pending q tx ht t
  rw [keysOf_applyAll hk]
  refine (hn t).append (List.nodup_append'.1 hq).2.1 fun k hk₁ hk₂ => ?_
  obtain ⟨w, hw, hkw⟩ := List.mem_flatMap.1 hk₂
  have hown := h.owned q tx ht w hw _ (newKeys_locks hkw)
  rcases List.mem_append.1 hk₁ with hdb | hnew
  · exact (List.nodup_append'.1 hq).2.2 hdb hk₂
  · obtain ⟨w', hw', hkw'⟩ := List.mem_flatMap.1 hnew
    exact hx w' hw' _ (newKeys_locks hkw') hown

theorem unique_write (hk : ∀ w ∈ ws, w.Keeps)
    (hn : ∀ t, (S.keysOf t (st.db t) ++ ws.flatMap (Write.newKeys t)).Nodup) (t : T) :
    (S.keysOf t (Write.applyAll ws st.db t)).Nodup := by
  rw [keysOf_applyAll hk]
  exact hn t

/-- Writes on a connection of the pool, when no session holds their keys. -/
theorem Ok.write (h : st.Ok) (hx : ∀ q, Apart q st ws) (hk : ∀ w ∈ ws, w.Keeps)
    (hn : ∀ t, (S.keysOf t (st.db t) ++ ws.flatMap (Write.newKeys t)).Nodup) :
    (st.write p ws).Ok :=
  ⟨unique_write hk hn, h.keeps, fun q _ hq t => pending_write h hk hn (hx q) hq t, h.owned⟩

theorem Ok.commit (h : st.Ok) {tx : Tx S} (ht : st.tx p = some tx) :
    ((st.write p tx.writes).rollback p).Ok := by
  have hx : ∀ q, q ≠ p → Apart q st tx.writes := by
    intro q hq w hw l hl ho
    rw [h.owned p tx ht w hw l hl] at ho
    exact hq (Option.some.inj ho).symm
  have open_ne : ∀ q tx', ((st.write p tx.writes).rollback p).tx q = some tx' →
      q ≠ p ∧ st.tx q = some tx' := by
    intro q tx' hq
    by_cases e : q = p
    · subst e
      simp at hq
    · rw [rollback_tx_of_ne e] at hq
      exact ⟨e, hq⟩
  refine ⟨unique_write (h.keeps p tx ht) (h.pending p tx ht), fun q tx' hq => ?_,
    fun q tx' hq t => ?_, fun q tx' hq w hw l hl => ?_⟩
  · exact h.keeps q tx' (open_ne q tx' hq).2
  · obtain ⟨hne, hq⟩ := open_ne q tx' hq
    exact pending_write h (h.keeps p tx ht) (h.pending p tx ht) (hx q hne) hq t
  · obtain ⟨hne, hq⟩ := open_ne q tx' hq
    exact rollback_owner_of_ne hne (h.owned q tx' hq w hw l hl)

theorem frame_commit (h : st.Ok) {tx : Tx S} (ht : st.tx p = some tx) :
    Frame (some p) st ((st.write p tx.writes).rollback p) := by
  have hw : Frame (some p) st (st.write p tx.writes) := frame_write fun q hq w hw l hl ho => by
    rw [h.owned p tx ht w hw l hl] at ho
    exact hq ho
  have hr : Frame (some p) (st.write p tx.writes) ((st.write p tx.writes).rollback p) :=
    frame_rollback
  exact ⟨hr.tx, hr.owner, hw.row, hw.nextId⟩

theorem keysOf_delete_sublist (t t' : T) (ks : List K) (db : S.Db) :
    (S.keysOf t' ((Write.delete t ks : S.Write).apply db t')).Sublist (S.keysOf t' (db t')) := by
  by_cases e : t' = t
  · subst e
    rw [Write.apply_delete]
    exact List.filter_sublist.flatMap _
  · rw [Write.apply_delete_of_ne _ _ e]

theorem Ok.delete (h : st.Ok) (t : T) (ks : List K) : (st.write p [.delete t ks]).Ok := by
  refine ⟨fun t' => ?_, h.keeps, fun q tx hq t' => ?_, h.owned⟩
  · exact (h.unique t').sublist (keysOf_delete_sublist t t' ks st.db)
  · exact (h.pending q tx hq t').sublist ((keysOf_delete_sublist t t' ks st.db).append_right _)

end Write

section Stage

variable {p : Nat} {st : State S} {tx : Tx S} {α : Type} {pl : Plan S α}

theorem frame_stage (hfree : ∀ l ∈ pl.locks, st.free (some p) l.1 l.2 = true) :
    Frame (some p) st (st.stage p tx pl) := by
  refine .of_eq (fun q hq => Function.update_of_ne (fun e => hq (congrArg some e.symm)) ..)
    (fun q hq t k ho => ?_) rfl (Nat.le_add_right ..)
  have hl : (t, k) ∉ pl.locks := fun hl => hq (free_eq (hfree (t, k) hl) ho)
  simp [stage, hl, ho]

theorem Ok.stage (h : st.Ok) (ht : st.tx p = some tx) (hf : pl.Fit (st.view p))
    (hfree : ∀ l ∈ pl.locks, st.free (some p) l.1 l.2 = true) : (st.stage p tx pl).Ok := by
  have hs : Frame (some p) st (st.stage p tx pl) := frame_stage hfree
  have held : ∀ l : T × K, st.owner l.1 l.2 = some p → (st.stage p tx pl).owner l.1 l.2 = some p := by
    intro l hl
    simp [State.stage, hl]
  have open_cases : ∀ q tx', (st.stage p tx pl).tx q = some tx' →
      (q = p ∧ tx' = { tx with writes := tx.writes ++ pl.writes }) ∨
      (q ≠ p ∧ st.tx q = some tx') := by
    intro q tx' hq
    by_cases e : q = p
    · subst e
      simp only [State.stage, Function.update_self, Option.some.injEq] at hq
      exact .inl ⟨rfl, hq.symm⟩
    · rw [hs.tx q fun h => e (Option.some.inj h).symm] at hq
      exact .inr ⟨e, hq⟩
  refine ⟨h.unique, fun q tx' hq w hw => ?_, fun q tx' hq t => ?_, fun q tx' hq w hw l hl => ?_⟩
  · rcases open_cases q tx' hq with ⟨rfl, rfl⟩ | ⟨-, hq⟩
    · exact (List.mem_append.1 hw).elim (h.keeps _ tx ht w) (hf.keeps w)
    · exact h.keeps q tx' hq w hw
  · rcases open_cases q tx' hq with ⟨rfl, rfl⟩ | ⟨-, hq⟩
    · have view : S.keysOf t (st.view q t) =
          S.keysOf t (st.db t) ++ tx.writes.flatMap (Write.newKeys t) := by
        rw [view_of_some ht]
        exact keysOf_applyAll (h.keeps _ tx ht) t st.db
      have hnew := hf.fresh t (view ▸ h.pending _ tx ht t)
      rw [view, List.append_assoc] at hnew
      rw [List.flatMap_append]
      exact hnew
    · exact h.pending q tx' hq t
  · rcases open_cases q tx' hq with ⟨rfl, rfl⟩ | ⟨hne, hq⟩
    · rcases List.mem_append.1 hw with hw | hw
      · exact held l (h.owned _ tx ht w hw l hl)
      · simp [State.stage, hf.locked w hw l hl]
    · exact hs.owner q (fun h => hne (Option.some.inj h).symm) _ _ (h.owned q tx' hq w hw l hl)

theorem frame_fail : Frame (some p) st (st.fail p) := by
  unfold fail
  split
  · exact .refl _ st
  · exact .of_eq (fun q hq => Function.update_of_ne (fun e => hq (congrArg some e.symm)) ..)
      (fun _ _ _ _ h => h) rfl (Nat.le_refl _)

@[simp] theorem fail_db : (st.fail p).db = st.db := by
  unfold fail
  split <;> rfl

@[simp] theorem fail_wal : (st.fail p).wal = st.wal := by
  unfold fail
  split <;> rfl

@[simp] theorem fail_owner : (st.fail p).owner = st.owner := by
  unfold fail
  split <;> rfl

theorem fail_tx_cases {q : Nat} {tx' : Tx S} (hq : (st.fail p).tx q = some tx') :
    ∃ tx, st.tx q = some tx ∧ tx'.writes = tx.writes := by
  unfold fail at hq
  split at hq
  · exact ⟨tx', hq, rfl⟩
  · rename_i tx ht
    by_cases e : q = p
    · subst e
      simp only [Function.update_self, Option.some.injEq] at hq
      exact ⟨tx, ht, hq ▸ rfl⟩
    · simp only [Function.update_of_ne e] at hq
      exact ⟨tx', hq, rfl⟩

theorem Ok.fail (h : st.Ok) : (st.fail p).Ok := by
  refine ⟨fun t => ?_, fun q tx' hq w hw => ?_, fun q tx' hq t => ?_,
    fun q tx' hq w hw l hl => ?_⟩
  · rw [fail_db]
    exact h.unique t
  all_goals obtain ⟨tx, ht, e⟩ := fail_tx_cases hq
  · exact h.keeps q tx ht w (e ▸ hw)
  · rw [fail_db, e]
    exact h.pending q tx ht t
  · rw [fail_owner]
    exact h.owned q tx ht w (e ▸ hw) l hl

end Stage

/-- COMMIT, by the state of the transaction. -/
theorem commit_cases {p : Nat} {st st' : State S} {r : Except E Unit}
    (h : st.commit p = (r, st')) :
    (st.tx p = none ∧ st' = st) ∨
    (∃ tx, st.tx p = some tx ∧ tx.failed = true ∧ st' = st.rollback p) ∨
    (∃ tx, st.tx p = some tx ∧ tx.failed = false ∧ st' = (st.write p tx.writes).rollback p) := by
  unfold State.commit at h
  split at h
  · cases h
    exact .inl ⟨‹_›, rfl⟩
  · rename_i tx ht
    cases h
    cases hf : tx.failed with
    | true => exact .inr (.inl ⟨tx, ht, hf, by simp⟩)
    | false => exact .inr (.inr ⟨tx, ht, hf, by simp⟩)

/-- A statement, by its connection and its answer. -/
theorem query_cases {p : Nat} {c : Conn} {clock : Nat} {s : S.Stmt} {st st' : State S}
    {r : Except E s.Out} (h : st.query p c clock s = some (r, st')) :
    (∃ e, r = .error e ∧ (st' = st ∨ c = .tx ∧ st' = st.fail p)) ∨
    (∃ tx a, c = .tx ∧ st.tx p = some tx ∧ tx.failed = false ∧ r = .ok a ∧
      (s.plan (st.view p) (st.free (some p)) st.nextId tx.now).answer = .ok a ∧
      (∀ l ∈ (s.plan (st.view p) (st.free (some p)) st.nextId tx.now).locks,
        st.free (some p) l.1 l.2 = true) ∧
      st' = st.stage p tx (s.plan (st.view p) (st.free (some p)) st.nextId tx.now)) ∨
    (∃ a, c = .pool ∧ r = .ok a ∧
      (s.plan st.db (st.free none) st.nextId clock).answer = .ok a ∧
      (∀ l ∈ (s.plan st.db (st.free none) st.nextId clock).locks,
        st.free none l.1 l.2 = true) ∧
      st' = { st.write p (s.plan st.db (st.free none) st.nextId clock).writes with
        nextId := st.nextId + (s.plan st.db (st.free none) st.nextId clock).fresh }) := by
  cases c with
  | tx =>
    simp only [query] at h
    split at h
    · cases h
      exact .inl ⟨_, rfl, .inl rfl⟩
    · rename_i tx ht
      split at h
      · cases h
        exact .inl ⟨_, rfl, .inl rfl⟩
      · rename_i hf
        split at h
        · cases h
          exact .inl ⟨_, rfl, .inr ⟨rfl, rfl⟩⟩
        · rename_i a ha
          split at h
          · rename_i hl
            cases h
            exact .inr (.inl ⟨tx, a, rfl, ht, by simpa using hf, rfl, ha,
              List.all_eq_true.1 hl, rfl⟩)
          · cases h
  | pool =>
    simp only [query] at h
    split at h
    · cases h
      exact .inl ⟨_, rfl, .inl rfl⟩
    · rename_i a ha
      split at h
      · rename_i hl
        cases h
        exact .inr (.inr ⟨a, rfl, rfl, ha, List.all_eq_true.1 hl, rfl⟩)
      · cases h

/-- A statement of an open transaction. -/
theorem query_open {p clock : Nat} {s : S.Stmt} {st st' : State S} {r : Except E s.Out} {tx : Tx S}
    (ht : st.tx p = some tx) (hf : tx.failed = false)
    (h : st.query p .tx clock s = some (r, st')) :
    (∃ e, r = .error e ∧
      (s.plan (st.view p) (st.free (some p)) st.nextId tx.now).answer = .error e ∧
      st' = st.fail p) ∨
    ∃ a, r = .ok a ∧ (s.plan (st.view p) (st.free (some p)) st.nextId tx.now).answer = .ok a ∧
      (∀ l ∈ (s.plan (st.view p) (st.free (some p)) st.nextId tx.now).locks,
        st.free (some p) l.1 l.2 = true) ∧
      st' = st.stage p tx (s.plan (st.view p) (st.free (some p)) st.nextId tx.now) := by
  simp only [query, ht, hf] at h
  split at h
  · rename_i hfalse
    cases hfalse
  · split at h
    · rename_i e he
      cases h
      exact .inl ⟨e, rfl, he, rfl⟩
    · rename_i a ha
      split at h
      · rename_i hl
        cases h
        exact .inr ⟨a, rfl, ha, List.all_eq_true.1 hl, rfl⟩
      · cases h

/-- A statement on a connection of the pool. -/
theorem query_pool {p clock : Nat} {s : S.Stmt} {st st' : State S} {r : Except E s.Out}
    (h : st.query p .pool clock s = some (r, st')) :
    (∃ e, r = .error e ∧ (s.plan st.db (st.free none) st.nextId clock).answer = .error e ∧
      st' = st) ∨
    ∃ a, r = .ok a ∧ (s.plan st.db (st.free none) st.nextId clock).answer = .ok a ∧
      st' = { st.write p (s.plan st.db (st.free none) st.nextId clock).writes with
        nextId := st.nextId + (s.plan st.db (st.free none) st.nextId clock).fresh } := by
  simp only [query] at h
  split at h
  · rename_i e he
    cases h
    exact .inl ⟨e, rfl, he, rfl⟩
  · rename_i a ha
    split at h
    · cases h
      exact .inr ⟨a, rfl, ha, rfl⟩
    · cases h

theorem apart_of_free {st : State S} {ws : List S.Write} {ls : List (T × K)}
    (hl : ∀ l ∈ ls, st.free none l.1 l.2 = true) (hw : ∀ w ∈ ws, ∀ l ∈ w.locks, l ∈ ls) (q : Nat) :
    Apart q st ws := by
  intro w hw' l hl' ho
  cases free_eq (hl l (hw w hw' l hl')) ho

/-- A statement of session `p` keeps the store in order; on a connection of the
pool it leaves every open transaction alone, its own too. -/
theorem query_ok {p : Nat} {c : Conn} {clock : Nat} {s : S.Stmt} {st st' : State S}
    {r : Except E s.Out} (hs : st.Ok) (h : st.query p c clock s = some (r, st')) :
    st'.Ok ∧ Frame (match c with | .tx => some p | .pool => none) st st' := by
  rcases query_cases h with ⟨e, -, rfl | ⟨rfl, rfl⟩⟩ | ⟨tx, a, rfl, ht, -, -, -, hl, rfl⟩ |
    ⟨a, rfl, -, -, hl, rfl⟩
  · exact ⟨hs, .refl _ _⟩
  · exact ⟨hs.fail, frame_fail⟩
  · exact ⟨hs.stage ht (s.plan_fit ..) hl, frame_stage hl⟩
  · have fit := s.plan_fit st.db (st.free none) st.nextId clock
    have apart := apart_of_free hl fit.locked
    have ok : (st.write p (s.plan st.db (st.free none) st.nextId clock).writes).Ok :=
      hs.write apart fit.keeps fun t => fit.fresh t (hs.unique t)
    have frame := frame_write (p := p) (a := none) fun q _ => apart q
    exact ⟨⟨ok.unique, ok.keeps, ok.pending, ok.owned⟩, frame.tx, frame.owner, frame.row,
      Nat.le_add_right ..⟩

theorem commit_ok {p : Nat} {st st' : State S} {r : Except E Unit} (hs : st.Ok)
    (h : st.commit p = (r, st')) : st'.Ok ∧ Frame (some p) st st' := by
  rcases commit_cases h with ⟨-, rfl⟩ | ⟨tx, -, -, rfl⟩ | ⟨tx, ht, -, rfl⟩
  · exact ⟨hs, .refl _ _⟩
  · exact ⟨hs.rollback, frame_rollback⟩
  · exact ⟨hs.commit ht, frame_commit hs ht⟩

theorem begin_cases {p now : Nat} {st st' : State S} {r : Except E Unit}
    (h : st.begin p now = (r, st')) :
    (st' = st ∧ r = .error ServerError.inFailedTransaction ∧ st.tx p ≠ none) ∨
    (r = .ok () ∧ st.tx p = none ∧
      st' = { st with tx := Function.update st.tx p (some ⟨now, [], false⟩) }) := by
  unfold State.begin at h
  split at h
  · rename_i ht
    cases h
    exact .inl ⟨rfl, rfl, ht ▸ Option.some_ne_none _⟩
  · cases h
    exact .inr ⟨rfl, ‹_›, rfl⟩

theorem begin_ok {p now : Nat} {st st' : State S} {r : Except E Unit} (hs : st.Ok)
    (h : st.begin p now = (r, st')) : st'.Ok ∧ Frame (some p) st st' := by
  rcases begin_cases h with ⟨rfl, -⟩ | ⟨-, -, rfl⟩
  · exact ⟨hs, .refl _ _⟩
  · have open_cases : ∀ q tx, Function.update st.tx p (some ⟨now, [], false⟩) q = some tx →
        tx.writes = [] ∨ st.tx q = some tx := by
      intro q tx hq
      by_cases e : q = p
      · subst e
        simp only [Function.update_self, Option.some.injEq] at hq
        exact .inl (hq ▸ rfl)
      · rw [Function.update_of_ne e] at hq
        exact .inr hq
    refine ⟨⟨hs.unique, fun q tx hq w hw => ?_, fun q tx hq t => ?_, fun q tx hq w hw l hl => ?_⟩,
      .of_eq (fun q hq => Function.update_of_ne (fun e => hq (congrArg some e.symm)) ..)
        (fun _ _ _ _ h => h) rfl (Nat.le_refl _)⟩
    all_goals rcases open_cases q tx hq with e | hq
    · simp [e] at hw
    · exact hs.keeps q tx hq w hw
    · simpa [e] using hs.unique t
    · exact hs.pending q tx hq t
    · simp [e] at hw
    · exact hs.owned q tx hq w hw l hl

theorem remove_ok {p n : Nat} {t : T} {q : S.Db → S.Row t → Bool} {st st' : State S} (hs : st.Ok)
    (h : st.remove p t q = some (n, st')) :
    st'.Ok ∧ Frame none st st' ∧ ∃ ks, Commits p [.delete t ks] st st' := by
  simp only [remove] at h
  split at h
  · rename_i hk
    cases h
    refine ⟨hs.delete t _, frame_write fun q' _ w hw l hl ho => ?_, _, rfl, rfl⟩
    obtain rfl := List.mem_singleton.1 hw
    obtain ⟨k, hk', rfl⟩ := List.mem_map.1 hl
    cases free_eq (List.all_eq_true.1 hk k hk') ho
  · cases h

end State

end Messageries.Relational
