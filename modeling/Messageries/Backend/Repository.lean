import Messageries.Backend.World

namespace Messageries.Backend

open Text Relational Database Concurrency

abbrev perform (o : Op) : App o.Res := Prog.perform o

section Statements

variable (c : Conn) (t : Table)

def select (q : t.Row → Bool) : App (List t.Row) := perform (.query c (.select t fun _ _ => q))

def findOne (q : t.Row → Bool) : App (Option t.Row) := do
  let rows ← select c t q
  return rows.head?

/-- `setLock('pessimistic_write')` -/
def lockRows (q : Nat → t.Row → Bool) (pick : List t.Row → List t.Row) : App (List t.Row) :=
  perform (.query c (.lock t (fun _ => q) pick false))

def lockSkipLocked (q : Nat → t.Row → Bool) (pick : List t.Row → List t.Row) : App (List t.Row) :=
  perform (.query c (.lock t (fun _ => q) pick true))

def insertAll (makes : List (Nat → Nat → t.Row)) : App (List t.Row) :=
  perform (.query c (.insert t makes))

/-- The identifier and the time are columns the database fills in. -/
def insertOne (make : Nat → Nat → t.Row) : App t.Row := do
  match ← insertAll c t [make] with
  | row :: _ => return row
  | [] => throw .unexpected

def updateWhere (q : Db → t.Row → Bool) (f : Nat → schema.Assign t) : App Nat :=
  perform (.query c (.update t (fun db _ => q db) f))

def update (q : t.Row → Bool) (f : Nat → schema.Assign t) : App Nat :=
  updateWhere c t (fun _ => q) f

/-- A parameter that does not parse fails its statement. -/
def parameter {α : Type} : Except SqlState α → App α
  | .ok a => return a
  | .error e => do
    let _ ← perform (.query c (.reject e))
    throw (.sql e)

end Statements

/-- An `if` with no `else`. -/
def onlyIf (c : Prop) [Decidable c] (x : App Unit) : App Unit := if c then x else pure ()

/-- `dataSource.transaction` -/
def transaction {α : Type} (body : App α) : App α := do
  try
    perform .begin
    let result ← body
    perform .commit
    pure result
  catch e =>
    perform .rollback
    throw e

/-- `save` of a loaded entity writes the columns that differ from the stored row. -/
def changed {α : Type} [DecidableEq α] (entity stored current : α) : α :=
  if entity = stored then current else entity

def now : App Nat := perform .now

def settings : App Settings := perform .settings

/-- Whether a query string or an optional header is there and not empty. -/
def truthy : Option Utf16 → Option Utf16
  | some [] => none
  | s => s

theorem truthy_some {s : Utf16} (h : s ≠ []) : truthy (some s) = some s := by
  cases s with
  | nil => exact absurd rfl h
  | cons u s => rfl

theorem eq_of_truthy {o : Option Utf16} {s : Utf16} (h : truthy o = some s) : o = some s := by
  cases o with
  | none => cases h
  | some t =>
    cases t with
    | nil => cases h
    | cons u t => exact h

end Messageries.Backend
