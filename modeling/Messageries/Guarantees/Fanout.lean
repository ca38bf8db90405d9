import Messageries.Gateway.NatsConsumer
import Messageries.Guarantees.Publication

set_option linter.unusedSectionVars false

namespace Messageries.Guarantees

open Text Relational Database Crypto Concurrency Backend Gateway Proofs

section Packets

/-- What the gateway emits of an event. -/
def packetOf : StreamEvent → Option Packet
  | .created m => some (.created m.messageId m.conversationId m.senderId m.sequence m.body
    m.createdAt m.moderationFlags)
  | .deleted id c n => some (.deleted id c n)
  | .read c u n => some (.read c u n)
  | .unknown => none

/-- The packet is no sign that somebody types. -/
def isNews : Packet → Bool
  | .typing _ _ _ => false
  | _ => true

/-- What was emitted of the events. -/
def news (g : Server) : List Packet := g.emitted.filter isNews

variable {g : Server}

theorem news_event (e : StreamEvent) :
    news (g.step (.event e)) = news g ++ (packetOf e).toList := by
  cases e with
  | created m => simp [news, Server.step, Server.onEvent, Server.emit, packetOf, isNews]
  | deleted id c n => simp [news, Server.step, Server.onEvent, Server.emit, packetOf, isNews]
  | read c u n => simp [news, Server.step, Server.onEvent, Server.emit, packetOf, isNews]
  | unknown => simp [news, Server.step, Server.onEvent, packetOf]

theorem emitted_joinRoom (room : Utf16) (socket : Nat) :
    (g.joinRoom room socket).emitted = g.emitted := by
  unfold Server.joinRoom
  split <;> rfl

theorem news_onTyping (cause : Request) (socket user : Nat) (body : Body) :
    news (g.onTyping cause socket user body) = news g := by
  simp only [Server.onTyping]
  split
  · split
    · simp [news, Server.emit, Server.check, isNews]
    · rfl
  · rfl

theorem news_request {r : Request} (hr : ∀ e, r ≠ .event e) : news (g.step r) = news g := by
  cases r with
  | connect socket user =>
    simp only [Server.step]
    split
    · rfl
    · exact congrArg (List.filter isNews) (emitted_joinRoom ..)
  | disconnect socket => rfl
  | join socket body =>
    simp only [Server.step]
    split
    · refine congrArg (List.filter isNews) ?_
      simp only [Server.onJoin]
      split
      · split
        · split
          · rfl
          · exact emitted_joinRoom ..
        · rfl
      · rfl
    · rfl
  | leave socket body =>
    simp only [Server.step]
    split
    · refine congrArg (List.filter isNews) ?_
      simp only [Server.onLeave]
      split
      · split <;> rfl
      · rfl
      · rfl
    · rfl
  | typing socket body =>
    simp only [Server.step]
    split
    · exact news_onTyping ..
    · rfl
  | event e => exact (hr e rfl).elim
  | tick ms => rfl

end Packets

section Flow

variable [AesGcm] [TokenHash] {Init : World → Prop} {g : Nat → Op → World → Prop}
  {ok : Consumer.Act → Prop} {P P' : Pipeline}

theorem pool_reach (h : Pipeline.Reach Init g ok P) : machine.Reach Init g P.pool := by
  induction h with
  | start hw => exact .init hw
  | @step P P' t _ hm hst ih =>
    cases t with
    | backend l =>
      obtain ⟨pool, hl, rfl⟩ := Option.map_eq_some_iff.1 hst
      exact .step l ih hm hl
    | ensureConsumer =>
      cases hst
      unfold Pipeline.ensureConsumer
      split <;> exact ih
    | consume a =>
      simp only [Pipeline.step, Pipeline.consume, Pipeline.onMessage] at hst
      split at hst
      · cases hst
      · split at hst
        · cases hst
        · cases hst
          exact ih
        · cases hst
          split <;> exact ih
    | request r =>
      cases r <;> cases hst <;> exact ih

/-- The indices that were handed to `onEvent`, in the order. -/
def handled (P : Pipeline) : List Nat := (P.consumer.map Consumer.handled).getD []

/-- What the gateway emits of the message with this index. -/
def packetAt (stream : List Published) (index : Nat) : Option Packet :=
  stream[index]?.bind fun x => packetOf (eventOf x)

theorem packetAt_grow {stream stream' : List Published} (h : stream <+: stream') {i : Nat}
    (hi : i < stream.length) : packetAt stream' i = packetAt stream i := by
  obtain ⟨rest, rfl⟩ := h
  rw [packetAt, packetAt, List.getElem?_append_left hi]

/-- What the gateway emitted of the events is what the consumer handed to it. -/
structure Flowing (P : Pipeline) : Prop where
  ok : ∀ c, P.consumer = some c → c.Ok policy P.pool.shared.stream.length
  news : news P.server = (handled P).filterMap (packetAt P.pool.shared.stream)

theorem Flowing.lt (h : Flowing P) : ∀ i ∈ handled P, i < P.pool.shared.stream.length := by
  intro i hi
  unfold handled at hi
  cases hc : P.consumer with
  | none => simp [hc] at hi
  | some c =>
    rw [hc] at hi
    have hok := h.ok c hc
    exact Nat.lt_of_lt_of_le (hok.handed hi).2 hok.next

theorem Flowing.onMessage {c c' : Consumer} {i : Nat} (h : Flowing P) (hc : P.consumer = some c)
    (hok : c'.Ok policy P.pool.shared.stream.length) (hh : c'.handled = c.handled ++ [i]) :
    Flowing ({ P with consumer := some c' }.onMessage i) := by
  have lt : i < P.pool.shared.stream.length :=
    Nat.lt_of_lt_of_le (hok.handed (hh ▸ List.mem_append_right _ List.mem_cons_self)).2 hok.next
  have news := h.news
  rw [handled, hc] at news
  have last : [i].filterMap (packetAt P.pool.shared.stream) =
      (packetOf (eventOf P.pool.shared.stream[i])).toList := by
    rw [List.filterMap_cons, packetAt, List.getElem?_eq_getElem lt, Option.bind_some]
    split <;> simp [*]
  simp only [Pipeline.onMessage, List.getElem?_eq_getElem lt]
  refine ⟨fun c'' hc'' => Option.some.inj hc'' ▸ hok, ?_⟩
  simp only [handled, Option.map_some, Option.getD_some, hh, List.filterMap_append]
  rw [news_event, news, last, Option.map_some, Option.getD_some]

theorem Flowing.consume {a : Consumer.Act} (h : Flowing P) (hst : P.consume a = some P') :
    Flowing P' := by
  simp only [Pipeline.consume] at hst
  split at hst
  · cases hst
  · rename_i c hc
    have pos : 0 < policy.maxDeliver := by decide
    split at hst
    · cases hst
    · rename_i c' hs
      cases hst
      obtain ⟨hok, -, hh⟩ := (h.ok c hc).step pos hs
      have news := h.news
      rw [handled, hc] at news
      refine ⟨fun c'' hc'' => Option.some.inj hc'' ▸ hok, news.trans ?_⟩
      simp [handled, hh]
    · rename_i c' i hs
      cases hst
      obtain ⟨hok, -, hh⟩ := (h.ok c hc).step pos hs
      exact h.onMessage hc hok hh

theorem flowing_reach {w₀ : World} (h : Pipeline.Reach (From w₀) g ok P) : Flowing P := by
  induction h with
  | start hw => exact ⟨fun c hc => (nomatch hc), rfl⟩
  | @step P P' t hP hm hst ih =>
    cases t with
    | backend l =>
      obtain ⟨pool, hl, rfl⟩ := Option.map_eq_some_iff.1 hst
      have grows := stream_grows (pool_reach hP) hm hl
      refine ⟨fun c hc => (ih.ok c hc).grow grows.length_le, ih.news.trans ?_⟩
      exact List.filterMap_congr fun i hi => (packetAt_grow grows (ih.lt i hi)).symm
    | ensureConsumer =>
      cases hst
      unfold Pipeline.ensureConsumer
      split
      · exact ih
      · rename_i hc
        have news := ih.news
        rw [handled, hc] at news
        exact ⟨fun c hc' => Option.some.inj hc' ▸ .new _, news⟩
    | consume a => exact ih.consume hst
    | request r =>
      have quiet : ∀ {P' : Pipeline}, (∀ e, r ≠ .event e) →
          some { P with server := P.server.step r } = some P' → Flowing P' := by
        rintro P' hr ⟨⟩
        exact ⟨ih.ok, (news_request hr).trans ih.news⟩
      cases r with
      | event e => cases hst
      | _ => exact quiet nofun hst

end Flow

section Fanout

variable [AesGcm] [TokenHash] {db₀ : Db} {w w₀ : World} {g : Nat → Op → World → Prop}
  {ok : Consumer.Act → Prop} {P P' : Pipeline}

/-- What the gateway is to emit of an event. -/
def packetFor : Payload → Packet
  | .created m => .created m.messageId m.conversationId m.senderId m.sequence m.body m.createdAt
    m.moderationFlags
  | .read c u n => .read c u n

/-- The packet is that of an event, and about a stored message if it announces one. -/
def Tells (db : Db) (packet : Packet) : Prop :=
  ∃ e ∈ db .outbox, packetFor (e : OutboxEvent).payload = packet ∧
    ∀ m, (e : OutboxEvent).payload = .created m → ∃ r ∈ db .messages, Matches r e

/-- What comes out of the stream is what went into the outbox. -/
theorem packet_carried (hi : Inv db₀ w) {e : OutboxEvent} (he : e ∈ w.store.db .outbox)
    {x : Published} (hc : Carries e x) : packetOf (eventOf x) = some (packetFor e.payload) := by
  rcases event_cases hi he with ⟨ht, m, hm⟩ | ⟨ht, c, u, n, hr⟩
  · simp only [eventOf, ← hc.type, ht, ← hc.payload, hm, packetOf, packetFor]
  · simp only [eventOf, ← hc.type, ht, ← hc.payload, hr, packetOf, packetFor]

/-- The number of the message of conversation `c` that is emitted. -/
def emittedNumber (c : Nat) : Packet → Option Nat
  | .created _ d _ n _ _ _ => if d = c then some n else none
  | _ => none

def emittedNumbers (c : Nat) (g : Server) : List Nat := g.emitted.filterMap (emittedNumber c)

theorem emittedNumbers_news (c : Nat) (s : Server) :
    emittedNumbers c s = (news s).filterMap (emittedNumber c) := by
  rw [emittedNumbers, news, List.filterMap_filter]
  refine List.filterMap_congr fun packet _ => ?_
  cases packet <;> rfl

/-- The consumer serves one gateway, which does not fail, in the order of the stream. -/
theorem serial_reach {process : Nat} (h : Pipeline.Reach (From w₀) g (Consumer.Act.Smooth process) P)
    {c : Consumer} (hc : P.consumer = some c) : c.Serial process := by
  induction h generalizing c with
  | start _ => cases hc
  | @step P P' t hP hm hst ih =>
    cases t with
    | backend l =>
      obtain ⟨pool, hl, rfl⟩ := Option.map_eq_some_iff.1 hst
      exact ih hc
    | ensureConsumer =>
      cases hst
      unfold Pipeline.ensureConsumer at hc
      split at hc
      · exact ih hc
      · cases hc
        exact .new _
    | consume a =>
      simp only [Pipeline.step, Pipeline.consume, Pipeline.onMessage] at hst
      split at hst
      · cases hst
      rename_i c₀ hc₀
      have serial := ih hc₀
      have hok := (flowing_reach hP).ok c₀ hc₀
      split at hst
      · cases hst
      · rename_i hs
        cases hst
        cases hc
        exact serial.step hok hm hs
      · rename_i hs
        cases hst
        split at hc <;> cases hc <;> exact serial.step hok hm hs
    | request r => cases r <;> cases hst <;> exact ih hc

theorem number_carried (hi : Inv db₀ w) {e : OutboxEvent} (he : e ∈ w.store.db .outbox)
    {x : Published} (hc : Carries e x) (c : Nat) :
    (packetOf (eventOf x)).bind (emittedNumber c) = numberIn c x := by
  rw [packet_carried hi he hc, Option.bind_some, hc.payload, numberIn]
  cases x.payload <;> rfl

end Fanout

section Example

theorem InTurn.connected {p : Nat} {o : Op} {w : World} (h : InTurn p o w) : Connected p o w := by
  cases o with
  | natsEnabled worker => exact h
  | _ => trivial

instance (process : Nat) (a : Consumer.Act) : Decidable (a.Smooth process) := by
  unfold Consumer.Act.Smooth
  split <;> infer_instance

/-- Two messages are published and handed to a gateway. The first acknowledgement is lost. -/
def fanTwice : List Move :=
  .ensureConsumer :: .request (.connect 7 3) ::
    .request (.join 7 ⟨.string (idText 10), false⟩) ::
      (serve 0 (.natsInit 0) 6 ++ serve 1 exampleSend 15 ++ serve 2 exampleSend 15 ++
        serve 3 (.processBatch 0 20) 29).map .backend ++
      [.consume (.deliver 0), .consume (.take 0 true false), .consume (.deliver 0),
        .backend (.event (.tick 30000)), .consume (.take 0 true true),
        .consume (.redeliver 0 0), .consume (.take 0 true true)]

/-- The state the moves lead to, in runs that publish in turn to one gateway. -/
abbrev fannedFrom (ts : List Move) : Option Pipeline :=
  @Pipeline.passing exampleCipher exampleHash inTurn (fun a => decide (a.Smooth 0)) ts
    (.start natsWorld)

theorem reach_fannedFrom {g : Nat → Op → World → Prop} {ok : Consumer.Act → Prop} {ts : List Move}
    {P : Pipeline} (hg : ∀ p o w, InTurn p o w → g p o w)
    (hok : ∀ a : Consumer.Act, a.Smooth 0 → ok a) (h : fannedFrom ts = some P) :
    @Pipeline.Reach exampleCipher exampleHash (From natsWorld) g ok P :=
  @Pipeline.Reach.passing exampleCipher exampleHash _ _ _ _ _ _ _ _
    (@Pipeline.Reach.start exampleCipher exampleHash _ _ _ _ ⟨initial_example, rfl⟩)
    (fun p o w hb => hg p o w (inTurn_sound p o w hb)) (fun _ ha => hok _ (of_decide_eq_true ha)) h

/-- What is acknowledged, what was emitted and to whom it was delivered. -/
def fanned (P : Pipeline) : List (Nat × List Bool) × List Nat × List Nat :=
  (P.consumer.toList.map fun c =>
      (c.start, (List.range P.pool.shared.stream.length).map c.acked),
    emittedNumbers 10 P.server, P.server.delivered.map Delivery.user)

theorem fannedTwice :
    (fannedFrom fanTwice).map fanned = some ([(0, [true, true])], [1, 2, 1], [3, 3, 3]) := by
  decide +kernel

end Example

end Messageries.Guarantees
