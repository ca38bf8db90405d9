import Mathlib.Logic.Function.Basic

/-! A store of tables under concurrent sessions, at the isolation level READ
COMMITTED: row locks, unique indexes, and transactions whose writes reach the
tables together at commit. -/

namespace Messageries.Relational

/-- A table has a primary key; a row also claims the keys of the other unique
indexes it belongs to. -/
structure Schema (T K E : Type) where
  Row : T → Type
  key : (t : T) → Row t → K
  others : (t : T) → Row t → List K
  check : (t : T) → Row t → Option E

namespace Schema

variable {T K E : Type} (S : Schema T K E)

def keys (t : T) (r : S.Row t) : List K := S.key t r :: S.others t r

abbrev Db := (t : T) → List (S.Row t)

/-- The keys in use in a table. -/
def keysOf (t : T) (rs : List (S.Row t)) : List K := rs.flatMap (S.keys t)

/-- What an UPDATE sets; the programs here never set an indexed column. -/
structure Assign (t : T) where
  set : S.Row t → S.Row t
  keys_set : ∀ r, S.keys t (set r) = S.keys t r

inductive Write : Type
  | insert (t : T) (r : S.Row t)
  | update (t : T) (ks : List K) (f : S.Assign t)
  | delete (t : T) (ks : List K)

/-- Statements read the tables and the current time; an inserted row gets a fresh
identifier and the time. -/
inductive Stmt : Type
  | select (t : T) (q : S.Db → Nat → S.Row t → Bool)
  | lock (t : T) (q : S.Db → Nat → S.Row t → Bool) (pick : List (S.Row t) → List (S.Row t))
      (skip : Bool)
  | insert (t : T) (make : List (Nat → Nat → S.Row t))
  | update (t : T) (q : S.Db → Nat → S.Row t → Bool) (f : Nat → S.Assign t)
  | reject (e : E)

variable {S}

def Stmt.Out : S.Stmt → Type
  | .select t _ => List (S.Row t)
  | .lock t _ _ _ => List (S.Row t)
  | .insert t _ => List (S.Row t)
  | .update _ _ _ => Nat
  | .reject _ => Unit

namespace Write

variable [DecidableEq T] [DecidableEq K]

def apply : S.Write → S.Db → S.Db
  | .insert t r, db => Function.update db t (db t ++ [r])
  | .update t ks f, db =>
    Function.update db t ((db t).map fun r => if S.key t r ∈ ks then f.set r else r)
  | .delete t ks, db => Function.update db t ((db t).filter fun r => S.key t r ∉ ks)

def applyAll (ws : List S.Write) (db : S.Db) : S.Db := ws.foldl (fun db w => w.apply db) db

/-- The keys a session holds to make this write. -/
def locks : S.Write → List (T × K)
  | .insert t r => (S.keys t r).map (t, ·)
  | .update t ks _ => ks.map (t, ·)
  | .delete t ks => ks.map (t, ·)

end Write

end Schema

/-- Errors of the server that do not depend on the schema. -/
class ServerError (E : Type) where
  uniqueViolation : E
  inFailedTransaction : E
  noActiveTransaction : E

/-- What one statement asks of the store: its answer, the locks it waits for,
the rows it writes and the identifiers it uses up. -/
structure Plan {T K E : Type} (S : Schema T K E) (α : Type) where
  answer : Except E α
  locks : List (T × K)
  writes : List S.Write
  fresh : Nat

namespace Schema

variable {T K E : Type} {S : Schema T K E} [DecidableEq T] [DecidableEq K] [ServerError E]

/-- `free` are the keys no other session holds. -/
def Stmt.plan (v : S.Db) (free : T → K → Bool) (nextId now : Nat) :
    (s : S.Stmt) → Plan S s.Out
  | .select t q => ⟨.ok ((v t).filter (q v now)), [], [], 0⟩
  | .lock t q pick skip =>
    let rows := pick ((v t).filter fun r => q v now r && (!skip || free t (S.key t r)))
    ⟨.ok rows, rows.map fun r => (t, S.key t r), [], 0⟩
  | .insert t make =>
    let rows := make.mapIdx fun i f => f (nextId + i) now
    let ks := S.keysOf t rows
    match rows.findSome? (S.check t) with
    | some e => ⟨.error e, [], [], 0⟩
    | none =>
      if ks.Nodup ∧ ∀ k ∈ ks, k ∉ S.keysOf t (v t) then
        ⟨.ok rows, ks.map (t, ·), rows.map (.insert t), make.length⟩
      else ⟨.error ServerError.uniqueViolation, [], [], 0⟩
  | .update t q f =>
    let rows := (v t).filter (q v now)
    let ks := rows.map (S.key t)
    match rows.findSome? fun r => S.check t ((f now).set r) with
    | some e => ⟨.error e, [], [], 0⟩
    | none => ⟨.ok rows.length, ks.map (t, ·), [.update t ks (f now)], 0⟩
  | .reject e => ⟨.error e, [], [], 0⟩

end Schema

inductive Conn
  | tx
  | pool

/-- An open transaction: the time it started, its own writes, and whether one
of its statements failed. -/
structure Tx {T K E : Type} (S : Schema T K E) where
  now : Nat
  writes : List S.Write
  failed : Bool

/-- The committed tables with the open transactions.  `wal` is the log of the
committed writes, each with the session that made it. -/
structure State {T K E : Type} (S : Schema T K E) where
  db : S.Db
  tx : Nat → Option (Tx S)
  owner : T → K → Option Nat
  wal : List (Nat × S.Write)
  nextId : Nat

namespace State

variable {T K E : Type} {S : Schema T K E} [DecidableEq T] [DecidableEq K] [ServerError E]

/-- What the statements of session `p` read: the committed rows under its own writes. -/
def view (p : Nat) (st : State S) : S.Db :=
  match st.tx p with
  | some tx => Schema.Write.applyAll tx.writes st.db
  | none => st.db

def free (p : Option Nat) (st : State S) (t : T) (k : K) : Bool :=
  match st.owner t k with
  | some q => p = some q
  | none => true

def begin (p now : Nat) (st : State S) : Except E Unit × State S :=
  match st.tx p with
  | some _ => (.error ServerError.inFailedTransaction, st)
  | none => (.ok (), { st with tx := Function.update st.tx p (some ⟨now, [], false⟩) })

/-- The session ends: its locks go, and its writes with them. -/
def rollback (p : Nat) (st : State S) : State S :=
  { st with
    tx := Function.update st.tx p none
    owner := fun t k => if st.owner t k = some p then none else st.owner t k }

def write (p : Nat) (ws : List S.Write) (st : State S) : State S :=
  { st with
    db := Schema.Write.applyAll ws st.db
    wal := st.wal ++ ws.map (p, ·) }

/-- COMMIT of a transaction that failed rolls it back, without an error. -/
def commit (p : Nat) (st : State S) : Except E Unit × State S :=
  match st.tx p with
  | none => (.error ServerError.noActiveTransaction, st)
  | some tx => (.ok (), (if tx.failed then st else st.write p tx.writes).rollback p)

def fail (p : Nat) (st : State S) : State S :=
  match st.tx p with
  | none => st
  | some tx => { st with tx := Function.update st.tx p (some { tx with failed := true }) }

/-- A statement that succeeded inside the transaction of `p`. -/
def stage {α : Type} (p : Nat) (tx : Tx S) (pl : Plan S α) (st : State S) : State S :=
  { st with
    tx := Function.update st.tx p (some { tx with writes := tx.writes ++ pl.writes })
    owner := fun t k => if (t, k) ∈ pl.locks then some p else st.owner t k
    nextId := st.nextId + pl.fresh }

/-- One statement of session `p`; `none` while it waits for a lock. -/
def query (p : Nat) (c : Conn) (clock : Nat) (s : S.Stmt) (st : State S) :
    Option (Except E s.Out × State S) :=
  match c with
  | .tx =>
    match st.tx p with
    | none => some (.error ServerError.noActiveTransaction, st)
    | some tx =>
      if tx.failed then some (.error ServerError.inFailedTransaction, st)
      else
        let pl := s.plan (st.view p) (st.free (some p)) st.nextId tx.now
        match pl.answer with
        | .error e => some (.error e, st.fail p)
        | .ok a =>
          if pl.locks.all fun l => st.free (some p) l.1 l.2 then some (.ok a, st.stage p tx pl)
          else none
  | .pool =>
    let pl := s.plan st.db (st.free none) st.nextId clock
    match pl.answer with
    | .error e => some (.error e, st)
    | .ok a =>
      if pl.locks.all fun l => st.free none l.1 l.2 then
        some (.ok a, { st.write p pl.writes with nextId := st.nextId + pl.fresh })
      else none

/-- DELETE on a connection of the pool. -/
def remove (p : Nat) (t : T) (q : S.Db → S.Row t → Bool) (st : State S) :
    Option (Nat × State S) :=
  let ks := ((st.db t).filter (q st.db)).map (S.key t)
  if ks.all (st.free none t) then some (ks.length, st.write p [.delete t ks]) else none

end State

end Messageries.Relational
