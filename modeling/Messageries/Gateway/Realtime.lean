import Messageries.Backend.Api
import Messageries.Concurrency.Joint
import Messageries.Gateway.Server

/-! `RealtimeGateway`, the gateway within the API, and what `RealtimeService` has it emit. -/

namespace Messageries.Gateway

open Text Database Crypto Concurrency Backend

/-- What Postgres reads in a text that is to be an identifier. -/
class Identifiers where
  parse : Utf16 → Option Nat
  parse_idText : ∀ n, parse (idText n) = some n

/-- What a handler awaits: `assertCanAccess`, run by a process of its own. -/
structure Visit where
  user : AuthUser
  conversationId : Nat

def conversationOf : Broadcast → Nat
  | .created _ c _ _ _ _ | .deleted _ c _ | .read c _ _ => c

namespace RealtimeGateway

inductive Socket
  | unopened
  | opened (user : AuthUser)
  | closed

/-- What a handler does once the access is granted. -/
inductive Wish
  | join
  | typing (isTyping : Bool)

structure Handler where
  socket : Nat
  user : AuthUser
  conversationId : Utf16
  wish : Wish

inductive Packet
  | news (b : Broadcast)
  | typing (conversationId : Utf16) (userId : Nat) (isTyping : Bool)

structure Delivery where
  socket : Nat
  user : AuthUser
  packet : Packet

end RealtimeGateway

/-- The sockets, the rooms with their sockets, the handlers that await a process, the counters of
`rateLimitOk` by user and minute, and what was delivered. -/
structure RealtimeGateway where
  wsLimit : Nat
  sockets : Nat → RealtimeGateway.Socket
  rooms : List (Utf16 × Nat)
  handlers : Nat → Option RealtimeGateway.Handler
  counts : Nat × Nat → Nat
  delivered : List RealtimeGateway.Delivery

namespace RealtimeGateway

def start (wsLimit : Nat) : RealtimeGateway :=
  ⟨wsLimit, fun _ => .unopened, [], fun _ => none, fun _ => 0, []⟩

def joinRoom (room : Utf16) (socket : Nat) (g : RealtimeGateway) : RealtimeGateway :=
  if g.rooms.contains (room, socket) then g else { g with rooms := g.rooms ++ [(room, socket)] }

def leaveRoom (room : Utf16) (socket : Nat) (g : RealtimeGateway) : RealtimeGateway :=
  { g with rooms := g.rooms.filter fun e => e != (room, socket) }

/-- What a packet to the room comes to at this member of it. A closed socket may still be one. -/
def deliver (g : RealtimeGateway) (room : Utf16) (skip : Option Nat) (packet : Packet)
    (e : Utf16 × Nat) : Option Delivery :=
  if e.1 = room ∧ skip ≠ some e.2 then
    match g.sockets e.2 with
    | .opened user => some ⟨e.2, user, packet⟩
    | _ => none
  else none

/-- `to(room).emit`, without the socket `skip` -/
def emit (room : Utf16) (skip : Option Nat) (packet : Packet) (g : RealtimeGateway) :
    RealtimeGateway :=
  { g with delivered := g.delivered ++ g.rooms.filterMap (g.deliver room skip packet) }

/-- Once `verifyAccess` has returned the payload. -/
def handleConnection (socket : Nat) (user : AuthUser) (g : RealtimeGateway) : RealtimeGateway :=
  joinRoom (roomForUser user.sub) socket
    { g with sockets := Function.update g.sockets socket (.opened user) }

/-- A socket that closes leaves every room. -/
def handleDisconnect (socket : Nat) (g : RealtimeGateway) : RealtimeGateway :=
  { g with
    sockets := Function.update g.sockets socket .closed
    rooms := g.rooms.filter fun e => e.2 != socket }

def rateLimitOk (user clock : Nat) (g : RealtimeGateway) : Bool × RealtimeGateway :=
  let key := (user, clock / 60000)
  let count := g.counts key + 1
  (decide (count ≤ g.wsLimit), { g with counts := Function.update g.counts key count })

def await (process : Nat) (h : Handler) (g : RealtimeGateway) : RealtimeGateway :=
  { g with handlers := Function.update g.handlers process (some h) }

/-- `client.to(room)` and `client.join`, when the access was granted. -/
def granted (h : Handler) (g : RealtimeGateway) : RealtimeGateway :=
  match h.wish with
  | .join => g.joinRoom (roomForConversation h.conversationId) h.socket
  | .typing isTyping =>
    g.emit (roomForConversation h.conversationId) (some h.socket)
      (.typing h.conversationId h.user.sub isTyping)

def settle (process : Nat) (g : RealtimeGateway) : RealtimeGateway :=
  { g with handlers := Function.update g.handlers process none }

def onLeave (socket : Nat) (body : Body) (g : RealtimeGateway) : RealtimeGateway :=
  match body.conversationId with
  | .string s => if s.isEmpty then g else g.leaveRoom (roomForConversation s) socket
  | .other true printed => g.leaveRoom (roomForConversation printed) socket
  | _ => g

/-- What `RealtimeService` hands over. -/
def publish (bs : List Broadcast) (g : RealtimeGateway) : RealtimeGateway :=
  bs.foldl (fun g b => g.emit (roomForConversation (idText (conversationOf b))) none (.news b)) g

variable [Identifiers]

/-- A handler up to `assertCanAccess`. No value but a string is the text of an identifier. -/
def request (wish : Wish) (process clock socket : Nat) (user : AuthUser) (body : Body)
    (g : RealtimeGateway) : RealtimeGateway × Option Visit :=
  let (allowed, g) := g.rateLimitOk user.sub clock
  if allowed then
    match body.conversationId with
    | .string s =>
      if s.isEmpty then (g, none)
      else
        match Identifiers.parse s with
        | some c => (g.await process ⟨socket, user, s, wish⟩, some ⟨user, c⟩)
        | none => (g, none)
    | _ => (g, none)
  else (g, none)

def onJoin (process clock socket : Nat) (user : AuthUser) (body : Body) :
    RealtimeGateway → RealtimeGateway × Option Visit :=
  request .join process clock socket user body

def onTyping (process clock socket : Nat) (user : AuthUser) (body : Body) :
    RealtimeGateway → RealtimeGateway × Option Visit :=
  request (.typing body.isTyping) process clock socket user body

end RealtimeGateway

/-- The API with its gateway. -/
structure Embedded where
  pool : Pool Op Op.Res Err World (Call ⊕ Visit) Response
  gateway : RealtimeGateway

inductive Signal
  | api (l : Label Input Event (Call ⊕ Visit))
  | connect (socket : Nat) (user : AuthUser)
  | disconnect (socket : Nat)
  | join (process socket : Nat) (body : Body)
  | leave (socket : Nat) (body : Body)
  | typing (process socket : Nat) (body : Body)
  | resume (process : Nat)

namespace Embedded

def start (wsLimit : Nat) (w : World) : Embedded := ⟨⟨w, fun _ => none⟩, .start wsLimit⟩

variable [AesGcm] [TokenHash] [Identifiers]

/-- The processes of the API, with those that handlers of the gateway await. -/
def machine : Machine Op Op.Res Err World Input Event (Call ⊕ Visit) Response :=
  Backend.machine.beside (fun v => .getOne v.user v.conversationId) fun v => do
    let _ ← assertCanAccess v.user v.conversationId
    return .done

/-- The gateway emits what the API newly told it. -/
def perform (l : Label Input Event (Call ⊕ Visit)) (E : Embedded) : Option Embedded :=
  (machine.step l E.pool).map fun P =>
    ⟨P, E.gateway.publish (P.shared.broadcasts.drop E.pool.shared.broadcasts.length)⟩

def serve (process socket : Nat)
    (handle : AuthUser → RealtimeGateway → RealtimeGateway × Option Visit) (E : Embedded) :
    Option Embedded :=
  match E.gateway.sockets socket with
  | .opened user =>
    match handle user E.gateway with
    | (gateway, none) => some { E with gateway }
    | (gateway, some v) =>
      (machine.step (.enter process (.inr v)) E.pool).map fun pool => ⟨pool, gateway⟩
  | _ => none

/-- The handler goes on once the check has returned, or ends when it has thrown. -/
def resume (process : Nat) (E : Embedded) : Option Embedded :=
  match E.gateway.handlers process, E.pool.threads process with
  | some h, some ⟨_, some (.pure _)⟩ =>
    some { E with gateway := (E.gateway.settle process).granted h }
  | some _, some ⟨_, some (.throw _)⟩ => some { E with gateway := E.gateway.settle process }
  | _, _ => none

def step (E : Embedded) : Signal → Option Embedded
  | .api (.enter _ (.inr _)) => none
  | .api l => E.perform l
  | .connect socket user =>
    match E.gateway.sockets socket with
    | .unopened => some { E with gateway := E.gateway.handleConnection socket user }
    | _ => none
  | .disconnect socket => some { E with gateway := E.gateway.handleDisconnect socket }
  | .join process socket body =>
    E.serve process socket fun user =>
      RealtimeGateway.onJoin process E.pool.shared.clock socket user body
  | .leave socket body => some { E with gateway := E.gateway.onLeave socket body }
  | .typing process socket body =>
    E.serve process socket fun user =>
      RealtimeGateway.onTyping process E.pool.shared.clock socket user body
  | .resume process => E.resume process

/-- The states of the runs that start in a world with `Init`. -/
inductive Reach (Init : World → Prop) : Embedded → Prop
  | start {w : World} (wsLimit : Nat) : Init w → Reach Init (.start wsLimit w)
  | step {E E' : Embedded} (t : Signal) : Reach Init E → E.step t = some E' → Reach Init E'

def run : List Signal → Embedded → Option Embedded
  | [], E => some E
  | t :: ts, E => (E.step t).bind (run ts)

theorem Reach.run {Init : World → Prop} {ts : List Signal} {E E' : Embedded} (h : Reach Init E)
    (hr : run ts E = some E') : Reach Init E' := by
  induction ts generalizing E with
  | nil =>
    cases hr
    exact h
  | cons t ts ih =>
    obtain ⟨F, hF, hr⟩ := Option.bind_eq_some_iff.1 hr
    exact ih (.step t h hF) hr

end Embedded

end Messageries.Gateway
