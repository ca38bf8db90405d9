import Mathlib.Logic.Function.Basic
import Messageries.Database.Entities
import Messageries.Moderation.ContentScanner

namespace Messageries.Gateway

open Text Database Moderation

/-- A field of the JSON of a client. `other` is a value that is not a string, with how it prints
in a template. -/
inductive Field
  | absent
  | string (s : Utf16)
  | other (truthy : Bool) (printed : Utf16)

structure Body where
  conversationId : Field
  isTyping : Bool

/-- What the stream hands to `onEvent`. -/
inductive StreamEvent
  | created (m : MessageCreated)
  | deleted (messageId conversationId sequence : Nat)
  | read (conversationId userId : Nat) (uptoSequence : Utf16)
  | unknown

inductive Request
  | connect (socket user : Nat)
  | disconnect (socket : Nat)
  | join (socket : Nat) (body : Body)
  | leave (socket : Nat) (body : Body)
  | typing (socket : Nat) (body : Body)
  | event (e : StreamEvent)
  | tick (ms : Nat)

inductive Packet
  | created (id conversationId senderId sequence : Nat) (body : Utf16) (createdAt : Nat)
      (moderationFlags : Option (List Flag))
  | deleted (id conversationId sequence : Nat)
  | read (conversationId userId : Nat) (uptoSequence : Utf16)
  | typing (conversationId : Utf16) (userId : Nat) (isTyping : Bool)

/-- A packet on its way to a socket; `cause` is a ghost. -/
structure Delivery where
  cause : Request
  socket : Nat
  user : Nat
  packet : Packet

/-- The sockets with their users, the rooms with their sockets, the counters of the rate limiter
by user and minute, what was emitted to rooms, and what of it was delivered. -/
structure Server where
  sockets : Nat → Option Nat
  rooms : List (Utf16 × Nat)
  counts : Nat × Nat → Nat
  clock : Nat
  emitted : List Packet
  delivered : List Delivery

def Server.start : Server := ⟨fun _ => none, [], fun _ => 0, 0, [], []⟩

/-- An identifier as it stands in JSON. -/
def idText (n : Nat) : Utf16 := encode (Nat.toDigits 10 n)

theorem idText_inj {m n : Nat} (h : idText m = idText n) : m = n := by
  have decoded := congrArg decode h
  rw [idText, idText, decode_encode, decode_encode] at decoded
  have digits := congrArg (Nat.ofDigitChars 10 · 0) decoded
  rwa [Nat.ofDigitChars_ten_toDigits, Nat.ofDigitChars_ten_toDigits] at digits

def roomForConversation (conversationId : Utf16) : Utf16 := text "conv:" ++ conversationId

def roomForUser (user : Nat) : Utf16 := text "user:" ++ idText user

def limitPerMinute : Nat := 120

namespace Server

/-- `RedisRateLimiter.check` -/
def check (user : Nat) (g : Server) : Bool × Server :=
  let key := (user, g.clock / 60000)
  let c := g.counts key + 1
  (decide (c ≤ limitPerMinute), { g with counts := Function.update g.counts key c })

def joinRoom (room : Utf16) (socket : Nat) (g : Server) : Server :=
  if (room, socket) ∈ g.rooms then g else { g with rooms := g.rooms ++ [(room, socket)] }

def leaveRoom (room : Utf16) (socket : Nat) (g : Server) : Server :=
  { g with rooms := g.rooms.filter fun e => e != (room, socket) }

/-- `to(room).emit`, without the socket `skip` -/
def emit (cause : Request) (room : Utf16) (skip : Option Nat) (packet : Packet) (g : Server) :
    Server :=
  { g with
    emitted := g.emitted ++ [packet]
    delivered := g.delivered ++ g.rooms.filterMap fun e =>
      if e.1 = room ∧ skip ≠ some e.2 then
        (g.sockets e.2).map fun user => ⟨cause, e.2, user, packet⟩
      else none }

def onJoin (socket user : Nat) (body : Body) (g : Server) : Server :=
  let (allowed, g) := g.check user
  if allowed then
    match body.conversationId with
    | .string s => if 64 < s.length then g else g.joinRoom (roomForConversation s) socket
    | _ => g
  else g

def onLeave (socket : Nat) (body : Body) (g : Server) : Server :=
  match body.conversationId with
  | .string s => if s.isEmpty then g else g.leaveRoom (roomForConversation s) socket
  | .other true printed => g.leaveRoom (roomForConversation printed) socket
  | _ => g

def onTyping (cause : Request) (socket user : Nat) (body : Body) (g : Server) : Server :=
  let (allowed, g) := g.check user
  if allowed then
    match body.conversationId with
    | .string s =>
      g.emit cause (roomForConversation s) (some socket) (.typing s user body.isTyping)
    | _ => g
  else g

def onEvent (e : StreamEvent) (g : Server) : Server :=
  match e with
  | .created m =>
    g.emit (.event e) (roomForConversation (idText m.conversationId)) none
      (.created m.messageId m.conversationId m.senderId m.sequence m.body m.createdAt
        m.moderationFlags)
  | .deleted id c n =>
    g.emit (.event e) (roomForConversation (idText c)) none (.deleted id c n)
  | .read c u s => g.emit (.event e) (roomForConversation (idText c)) none (.read c u s)
  | .unknown => g

/-- A socket that closes leaves every room. -/
def onDisconnect (socket : Nat) (g : Server) : Server :=
  { g with
    sockets := Function.update g.sockets socket none
    rooms := g.rooms.filter fun e => e.2 != socket }

def onConnection (socket user : Nat) (g : Server) : Server :=
  joinRoom (roomForUser user) socket
    { g with sockets := Function.update g.sockets socket (some user) }

/-- Requests come from sockets that are connected, under numbers of their own. -/
def step (g : Server) (r : Request) : Server :=
  match r with
  | .connect socket user =>
    match g.sockets socket with
    | some _ => g
    | none => g.onConnection socket user
  | .disconnect socket => g.onDisconnect socket
  | .join socket body =>
    match g.sockets socket with
    | some user => g.onJoin socket user body
    | none => g
  | .leave socket body =>
    match g.sockets socket with
    | some _ => g.onLeave socket body
    | none => g
  | .typing socket body =>
    match g.sockets socket with
    | some user => g.onTyping r socket user body
    | none => g
  | .event e => g.onEvent e
  | .tick ms => { g with clock := g.clock + ms }

/-- The states of a run whose steps meet the condition `ok`. -/
inductive Reach (ok : Server → Request → Prop) : Server → Prop
  | start : Reach ok .start
  | step {g : Server} (r : Request) : Reach ok g → ok g r → Reach ok (g.step r)

end Server

end Messageries.Gateway
