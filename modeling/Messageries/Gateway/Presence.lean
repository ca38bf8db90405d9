import Mathlib.Data.Finset.Card
import Mathlib.Logic.Function.Basic

namespace Messageries.Gateway.Presence

/-- Where `handleConnection` of a socket stands: at one of its awaits, or at an end of it. The
command of `presence.connect` is under way (`adding`) until Redis takes it (`added`). -/
inductive Connection
  | unopened | verifying | joining | adding | added | rejected | established
deriving DecidableEq

/-- Where `handleDisconnect` of a socket stands. It returns at once (`skipped`) when no user is
recorded. -/
inductive Disconnection
  | up | skipped | removing | removed (remaining : Nat) | done
deriving DecidableEq

/-- A socket of one of the API processes; `beat` is a ghost, when Redis last heard of it. -/
structure Socket where
  connection : Connection
  disconnection : Disconnection
  user : Option Nat
  hbTimer : Bool
  beat : Nat
deriving DecidableEq

/-- A key of Redis. A set that loses its last member is no key. -/
structure Entry where
  members : Finset Nat
  expires : Nat
  nonempty : members.Nonempty

structure Hub where
  sockets : Nat → Socket
  keys : Nat → Option Entry
  clock : Nat

/-- What happens next: a step of the handlers of a socket, a command that Redis takes, or time.
`ok` says whether the awaited call returns or throws. -/
inductive Act
  | connection (socket : Nat)
  | verified (socket : Nat) (payload : Option Nat)
  | joined (socket : Nat) (ok : Bool)
  | connect (socket : Nat)
  | connected (socket : Nat) (ok : Bool)
  | drop (socket : Nat)
  | disconnect (socket : Nat)
  | disconnected (socket : Nat) (ok : Bool)
  | del (socket : Nat)
  | heartbeat (socket : Nat)
  | tick (ms : Nat)

/-- `PresenceService.ttl` -/
def ttl : Nat := 60 * 1000

namespace Hub

def start : Hub := ⟨fun _ => ⟨.unopened, .up, none, false, 0⟩, fun _ => none, 0⟩

/-- `PresenceService.isOnline` -/
def isOnline (user : Nat) (g : Hub) : Bool := (g.keys user).isSome

def members (user : Nat) (g : Hub) : Finset Nat := (g.keys user).elim ∅ Entry.members

def set (socket : Nat) (s : Socket) (g : Hub) : Hub :=
  { g with sockets := Function.update g.sockets socket s }

def setKey (user : Nat) (e : Option Entry) (g : Hub) : Hub :=
  { g with keys := Function.update g.keys user e }

/-- SADD and EXPIRE in one MULTI -/
def add (user socket : Nat) (g : Hub) : Hub :=
  g.setKey user (some
    ⟨insert socket (g.members user), g.clock + ttl, Finset.insert_nonempty socket _⟩)

def expire (user : Nat) (g : Hub) : Hub :=
  g.setKey user ((g.keys user).map fun e => { e with expires := g.clock + ttl })

def srem (user socket : Nat) (g : Hub) : Hub :=
  g.setKey user ((g.keys user).bind fun e =>
    if h : (e.members.erase socket).Nonempty then some ⟨e.members.erase socket, e.expires, h⟩
    else none)

def scard (user : Nat) (g : Hub) : Nat := (g.members user).card

def del (user : Nat) (g : Hub) : Hub := g.setKey user none

/-- Up to the first await of `handleDisconnect`. -/
def handleDisconnect (socket : Nat) (g : Hub) : Hub :=
  let s := g.sockets socket
  match s.disconnection with
  | .up =>
    g.set socket
      { s with hbTimer := false, disconnection := if s.user.isSome then .removing else .skipped }
  | _ => g

/-- The `catch` of `handleConnection`. A socket that is closed already stays so. -/
def reject (socket : Nat) (g : Hub) : Hub :=
  handleDisconnect socket (g.set socket { g.sockets socket with connection := .rejected })

def onVerified (socket : Nat) (payload : Option Nat) (g : Hub) : Hub :=
  match payload with
  | some sub => g.set socket { g.sockets socket with user := some sub, connection := .joining }
  | none => g.reject socket

def onJoined (socket : Nat) (ok : Bool) (g : Hub) : Hub :=
  if ok then g.set socket { g.sockets socket with connection := .adding } else g.reject socket

def onConnect (socket user : Nat) (g : Hub) : Hub :=
  (g.add user socket).set socket
    { g.sockets socket with connection := .added, beat := g.clock }

def onConnected (socket : Nat) (ok : Bool) (g : Hub) : Hub :=
  if ok then
    g.set socket { g.sockets socket with connection := .established, hbTimer := true }
  else g.reject socket

/-- SREM and SCARD in one MULTI -/
def onDisconnect (socket user : Nat) (g : Hub) : Hub :=
  let g' := g.srem user socket
  g'.set socket { g.sockets socket with disconnection := .removed (g'.scard user) }

def finish (socket : Nat) (g : Hub) : Hub :=
  g.set socket { g.sockets socket with disconnection := .done }

def onHeartbeat (socket user : Nat) (g : Hub) : Hub :=
  (g.expire user).set socket { g.sockets socket with beat := g.clock }

/-- Keys are gone once their time is over. -/
def onTick (ms : Nat) (g : Hub) : Hub :=
  { g with
    clock := g.clock + ms
    keys := fun user => (g.keys user).filter fun e => decide (g.clock + ms ≤ e.expires) }

/-- Commands of different sockets, and the replies to them, come in any order. A call that throws
may have been taken by Redis or not. -/
def step (g : Hub) : Act → Hub
  | .connection k =>
    match (g.sockets k).connection with
    | .unopened => g.set k { g.sockets k with connection := .verifying }
    | _ => g
  | .verified k payload =>
    match (g.sockets k).connection with
    | .verifying => g.onVerified k payload
    | _ => g
  | .joined k ok =>
    match (g.sockets k).connection with
    | .joining => g.onJoined k ok
    | _ => g
  | .connect k =>
    match (g.sockets k).connection, (g.sockets k).user with
    | .adding, some user => g.onConnect k user
    | _, _ => g
  | .connected k ok =>
    match (g.sockets k).connection with
    | .added => g.onConnected k ok
    | .adding => if ok then g else g.reject k
    | _ => g
  | .drop k =>
    match (g.sockets k).connection with
    | .unopened => g
    | _ => g.handleDisconnect k
  | .disconnect k =>
    match (g.sockets k).disconnection, (g.sockets k).user with
    | .removing, some user => g.onDisconnect k user
    | _, _ => g
  | .disconnected k ok =>
    match (g.sockets k).disconnection, ok with
    | .removing, false => g.finish k
    | .removed _, false => g.finish k
    | .removed (_ + 1), true => g.finish k
    | _, _ => g
  | .del k =>
    match (g.sockets k).disconnection, (g.sockets k).user with
    | .removed 0, some user => (g.del user).finish k
    | _, _ => g
  | .heartbeat k =>
    match (g.sockets k).user with
    | some user => g.onHeartbeat k user
    | none => g
  | .tick ms => g.onTick ms

section

variable {g : Hub} {k user : Nat} {s : Socket} {e : Option Entry}

@[simp] theorem set_self : (g.set k s).sockets k = s := Function.update_self ..

@[simp] theorem set_of_ne {k' : Nat} (h : k' ≠ k) : (g.set k s).sockets k' = g.sockets k' :=
  Function.update_of_ne h ..

@[simp] theorem set_keys : (g.set k s).keys = g.keys := rfl

@[simp] theorem set_clock : (g.set k s).clock = g.clock := rfl

@[simp] theorem set_members : (g.set k s).members user = g.members user := rfl

@[simp] theorem setKey_self : (g.setKey user e).keys user = e := Function.update_self ..

@[simp] theorem setKey_of_ne {user' : Nat} (h : user' ≠ user) :
    (g.setKey user e).keys user' = g.keys user' := Function.update_of_ne h ..

@[simp] theorem setKey_sockets : (g.setKey user e).sockets = g.sockets := rfl

@[simp] theorem setKey_clock : (g.setKey user e).clock = g.clock := rfl

@[simp] theorem setKey_members :
    (g.setKey user e).members user = e.elim ∅ Entry.members := by
  rw [members, setKey_self]

@[simp] theorem setKey_members_of_ne {user' : Nat} (h : user' ≠ user) :
    (g.setKey user e).members user' = g.members user' := by
  rw [members, setKey_of_ne h, members]

theorem mem_members : k ∈ g.members user ↔ ∃ e, g.keys user = some e ∧ k ∈ e.members := by
  unfold members
  cases g.keys user with
  | none => simp
  | some e => simp

theorem mem_add {k' user' : Nat} :
    k' ∈ (g.add user k).members user' ↔ user' = user ∧ k' = k ∨ k' ∈ g.members user' := by
  by_cases h : user' = user
  · subst h
    simp [add]
  · simp [add, h]

theorem mem_expire {user' : Nat} : k ∈ (g.expire user).members user' ↔ k ∈ g.members user' := by
  by_cases h : user' = user
  · subst h
    rw [expire, setKey_members, members]
    cases g.keys user' with
    | none => rfl
    | some e => rfl
  · rw [expire, setKey_members_of_ne h]

theorem mem_srem {k' user' : Nat} :
    k' ∈ (g.srem user k).members user' ↔ k' ∈ g.members user' ∧ ¬ (user' = user ∧ k' = k) := by
  by_cases h : user' = user
  · subst h
    rw [srem, setKey_members, members]
    cases g.keys user' with
    | none => simp
    | some e =>
      by_cases he : (e.members.erase k).Nonempty
      · simp [he, and_comm]
      · have last : ∀ x ∈ e.members, x = k := by
          simpa [Finset.not_nonempty_iff_eq_empty, Finset.eq_empty_iff_forall_notMem,
            imp.swap, not_imp_not] using he
        simpa [he] using last k'
  · simp [srem, h]

theorem mem_del {user' : Nat} :
    k ∈ (g.del user).members user' ↔ user' ≠ user ∧ k ∈ g.members user' := by
  by_cases h : user' = user
  · subst h
    simp [del]
  · simp [del, h]

theorem mem_of_onTick {ms : Nat} (h : k ∈ (g.onTick ms).members user) : k ∈ g.members user := by
  obtain ⟨e, he, hm⟩ := mem_members.1 h
  exact mem_members.2 ⟨e, (Option.filter_eq_some_iff.1 he).1, hm⟩

end

end Hub

end Messageries.Gateway.Presence
