import Messageries.Backend.Api
import Messageries.Concurrency.Redelivery
import Messageries.Gateway.Server

/-! `NatsConsumer` of the ws-gateway, between the stream of the backend and the rooms. -/

namespace Messageries.Gateway

open Text Database Crypto Concurrency Backend

/-- The durable consumer that `NatsConsumer.start` adds, and the delay of `nak`. -/
def policy : Policy where
  maxDeliver := 10
  ackWait := 30 * 1000
  nakDelay := 2000

/-- What `onEvent` gets: the subject without its prefix, and the payload. -/
def eventOf (x : Published) : StreamEvent :=
  match x.type, x.payload with
  | .messageCreated, .created m => .created m
  | .messageRead, .read c u n => .read c u n
  | _, _ => .unknown

/-- The backend, the consumer once it was added, and the gateways, which share their rooms. -/
structure Pipeline where
  pool : Pool Op Op.Res Err World Call Response
  consumer : Option Consumer
  server : Server

inductive Move
  | backend (l : Label Input Event Call)
  | ensureConsumer
  | consume (a : Consumer.Act)
  | request (r : Request)

namespace Pipeline

def start (w : World) : Pipeline := ⟨⟨w, fun _ => none⟩, none, .start⟩

/-- `consumers.info`, or else `consumers.add` with `DeliverPolicy.New` -/
def ensureConsumer (P : Pipeline) : Pipeline :=
  match P.consumer with
  | some _ => P
  | none => { P with consumer := some (.new P.pool.shared.stream.length) }

/-- `onEvent` on the message with this index -/
def onMessage (index : Nat) (P : Pipeline) : Pipeline :=
  match P.pool.shared.stream[index]? with
  | some x => { P with server := P.server.step (.event (eventOf x)) }
  | none => P

def consume (a : Consumer.Act) (P : Pipeline) : Option Pipeline :=
  match P.consumer with
  | none => none
  | some c =>
    match c.step policy P.pool.shared.stream.length P.pool.shared.clock a with
    | none => none
    | some (c, none) => some { P with consumer := some c }
    | some (c, some index) => some ({ P with consumer := some c }.onMessage index)

variable [AesGcm] [TokenHash]

/-- Sockets make requests of their own, and the events come from the consumer. -/
def step (P : Pipeline) : Move → Option Pipeline
  | .backend l => (machine.step l P.pool).map fun pool => { P with pool }
  | .ensureConsumer => some P.ensureConsumer
  | .consume a => P.consume a
  | .request (.event _) => none
  | .request r => some { P with server := P.server.step r }

/-- The operations of the backend meet `g`, and the steps of the consumer `ok`. -/
def Meets (g : Nat → Op → World → Prop) (ok : Consumer.Act → Prop) (P : Pipeline) : Move → Prop
  | .backend l => ∀ p i k o next, l = .exec p i → P.pool.threads p = some ⟨k, some (.op o next)⟩ →
    g p o P.pool.shared
  | .consume a => ok a
  | _ => True

/-- The states of the guarded runs that start in a world with `Init`. -/
inductive Reach (Init : World → Prop) (g : Nat → Op → World → Prop) (ok : Consumer.Act → Prop) :
    Pipeline → Prop
  | start {w : World} : Init w → Reach Init g ok (.start w)
  | step {P P' : Pipeline} (t : Move) : Reach Init g ok P → P.Meets g ok t →
      P.step t = some P' → Reach Init g ok P'

def passes (b : Nat → Op → World → Bool) (ok : Consumer.Act → Bool) (P : Pipeline) : Move → Bool
  | .backend l => Machine.passes b l P.pool
  | .consume a => ok a
  | _ => true

/-- A run whose operations pass the test `b`, and its steps of the consumer `ok`. -/
def passing (b : Nat → Op → World → Bool) (ok : Consumer.Act → Bool) :
    List Move → Pipeline → Option Pipeline
  | [], P => some P
  | t :: ts, P => if passes b ok P t then (P.step t).bind (passing b ok ts) else none

theorem Reach.passing {Init : World → Prop} {g : Nat → Op → World → Prop}
    {meets : Consumer.Act → Prop} {b : Nat → Op → World → Bool} {ok : Consumer.Act → Bool}
    {ts : List Move} {P P' : Pipeline} (h : Reach Init g meets P)
    (hb : ∀ p o w, b p o w = true → g p o w) (hok : ∀ a, ok a = true → meets a)
    (hr : passing b ok ts P = some P') : Reach Init g meets P' := by
  induction ts generalizing P with
  | nil =>
    cases hr
    exact h
  | cons t ts ih =>
    simp only [Pipeline.passing] at hr
    split at hr
    · rename_i hp
      obtain ⟨Q, hQ, hr⟩ := Option.bind_eq_some_iff.1 hr
      refine ih (.step t h ?_ hQ) hr
      cases t with
      | backend l =>
        intro p i k o next hl ht
        subst hl
        exact hb _ _ _ (by simpa [passes, Machine.passes, ht] using hp)
      | consume a => exact hok a hp
      | ensureConsumer => trivial
      | request r => trivial
    · cases hr

end Pipeline

end Messageries.Gateway
