import Messageries.Guarantees.Realtime
import Messageries.Proofs.Announcing

set_option linter.unusedSectionVars false

namespace Messageries.Guarantees

open Text Relational Database Crypto Concurrency Backend Moderation Gateway Proofs

section Rooms

variable {g : RealtimeGateway} {socket c : Nat} {user : AuthUser}

/-- What a delivery tells the socket of the conversation. -/
def newsFor (socket c : Nat) (d : RealtimeGateway.Delivery) : Option Broadcast :=
  match d.packet with
  | .news b => if d.socket = socket ∧ conversationOf b = c then some b else none
  | .typing _ _ _ => none

/-- What the socket was told of the conversation, in its order. -/
def told (socket c : Nat) (g : RealtimeGateway) : List Broadcast :=
  g.delivered.filterMap (newsFor socket c)

/-- What of it is about the conversation. -/
def about (c : Nat) (bs : List Broadcast) : List Broadcast :=
  bs.filter fun b => conversationOf b == c

/-- The socket is open, and once in the room of the conversation. -/
structure Attending (socket c : Nat) (user : AuthUser) (g : RealtimeGateway) : Prop where
  opened : g.sockets socket = .opened user
  room : (roomForConversation (idText c), socket) ∈ g.rooms
  once : g.rooms.Nodup

/-- A list without duplicates in which one entry counts. -/
theorem filterMap_single {α β : Type} {f : α → Option β} {l : List α} {a : α} {b : β}
    (hl : l.Nodup) (ha : a ∈ l) (hf : f a = some b) (hn : ∀ x, x ≠ a → f x = none) :
    l.filterMap f = [b] := by
  obtain ⟨l₁, l₂, rfl⟩ := List.mem_iff_append.1 ha
  have apart := (List.nodup_middle.1 hl).notMem
  have none_of {l : List α} (h : a ∉ l) : l.filterMap f = [] :=
    List.filterMap_eq_nil_iff.2 fun x hx => hn x fun e => h (e ▸ hx)
  rw [List.filterMap_append, List.filterMap_cons_some hf,
    none_of fun h => apart (List.mem_append_left _ h),
    none_of fun h => apart (List.mem_append_right _ h), List.nil_append]

theorem told_emit (room : Utf16) (skip : Option Nat) (packet : RealtimeGateway.Packet) :
    told socket c (g.emit room skip packet) = told socket c g ++
      g.rooms.filterMap fun e => (g.deliver room skip packet e).bind (newsFor socket c) := by
  rw [told, RealtimeGateway.emit, List.filterMap_append, List.filterMap_filterMap]
  rfl

theorem told_typing (room s : Utf16) (skip : Option Nat) (u : Nat) (isTyping : Bool) :
    told socket c (g.emit room skip (.typing s u isTyping)) = told socket c g := by
  rw [told_emit, List.filterMap_eq_nil_iff.2, List.append_nil]
  intro e _
  unfold RealtimeGateway.deliver
  split
  · split <;> rfl
  · rfl

theorem Attending.emit (h : Attending socket c user g) (room : Utf16) (skip : Option Nat)
    (packet : RealtimeGateway.Packet) : Attending socket c user (g.emit room skip packet) :=
  ⟨h.opened, h.room, h.once⟩

theorem Attending.told_news (h : Attending socket c user g) (b : Broadcast) :
    told socket c (g.emit (roomForConversation (idText (conversationOf b))) none (.news b)) =
      told socket c g ++ about c [b] := by
  rw [told_emit]
  congr 1
  by_cases hb : conversationOf b = c
  · subst hb
    rw [about, List.filter_cons_of_pos (by simp), List.filter_nil]
    refine filterMap_single h.once h.room ?_ fun e he => ?_
    · simp [RealtimeGateway.deliver, h.opened, newsFor]
    · by_cases hr : e.1 = roomForConversation (idText (conversationOf b))
      · have other : e.2 ≠ socket := fun hs => he (Prod.ext hr hs)
        simp only [RealtimeGateway.deliver, hr]
        split
        · split
          · simp [newsFor, other]
          · rfl
        · rfl
      · simp [RealtimeGateway.deliver, hr]
  · rw [about, List.filter_cons_of_neg (by simp [hb]), List.filter_nil, List.filterMap_eq_nil_iff]
    intro e _
    unfold RealtimeGateway.deliver
    split
    · split
      · simp [newsFor, hb]
      · rfl
    · rfl

/-- A member of the room is told everything about its conversation, once and in order. -/
theorem Attending.publish (h : Attending socket c user g) (bs : List Broadcast) :
    Attending socket c user (g.publish bs) ∧
      told socket c (g.publish bs) = told socket c g ++ about c bs := by
  induction bs generalizing g with
  | nil => exact ⟨h, (List.append_nil _).symm⟩
  | cons b bs ih =>
    obtain ⟨stays, later⟩ := ih (h.emit (roomForConversation (idText (conversationOf b))) none
      (.news b))
    refine ⟨stays, later.trans ?_⟩
    rw [h.told_news, List.append_assoc, about, about, about, ← List.filter_append,
      List.singleton_append]

theorem nodup_joinRoom (h : g.rooms.Nodup) (room : Utf16) (k : Nat) :
    (g.joinRoom room k).rooms.Nodup := by
  unfold RealtimeGateway.joinRoom
  split
  · exact h
  · rename_i absent
    exact List.nodup_append.2 ⟨h, List.nodup_singleton _, by
      rintro e he _ hm rfl
      obtain rfl := List.mem_singleton.1 hm
      exact absent (by simpa using he)⟩

theorem mem_joinRoom {e : Utf16 × Nat} (h : e ∈ g.rooms) (room : Utf16) (k : Nat) :
    e ∈ (g.joinRoom room k).rooms := by
  unfold RealtimeGateway.joinRoom
  split
  · exact h
  · exact List.mem_append_left _ h

theorem told_joinRoom (room : Utf16) (k : Nat) :
    told socket c (g.joinRoom room k) = told socket c g := by
  unfold RealtimeGateway.joinRoom
  split <;> rfl

theorem Attending.joinRoom (h : Attending socket c user g) (room : Utf16) (k : Nat) :
    Attending socket c user (g.joinRoom room k) := by
  refine ⟨?_, mem_joinRoom h.room room k, nodup_joinRoom h.once room k⟩
  unfold RealtimeGateway.joinRoom
  split <;> exact h.opened

theorem Attending.leaveRoom (h : Attending socket c user g) {room : Utf16} {k : Nat}
    (hk : k = socket → room ≠ roomForConversation (idText c)) :
    Attending socket c user (g.leaveRoom room k) := by
  refine ⟨h.opened, List.mem_filter.2 ⟨h.room, ?_⟩, h.once.filter _⟩
  simpa [bne_iff_ne] using fun e hs => hk hs.symm e.symm

theorem Attending.onLeave (h : Attending socket c user g) {k : Nat} {body : Body}
    (hk : k = socket → ∀ b, body.conversationId ≠ .string (idText c) ∧
      body.conversationId ≠ .other b (idText c)) :
    Attending socket c user (g.onLeave k body) := by
  unfold RealtimeGateway.onLeave
  split
  · rename_i s e
    split
    · exact h
    · exact h.leaveRoom fun hs hr => (hk hs true).1 (room_inj hr ▸ e)
  · rename_i s e
    exact h.leaveRoom fun hs hr => (hk hs true).2 (room_inj hr ▸ e)
  · exact h

theorem told_onLeave (k : Nat) (body : Body) :
    told socket c (g.onLeave k body) = told socket c g := by
  unfold RealtimeGateway.onLeave
  split
  · split <;> rfl
  · rfl
  · rfl

theorem Attending.handleConnection (h : Attending socket c user g) {k : Nat}
    (hk : g.sockets k = .unopened) (u : AuthUser) :
    Attending socket c user (g.handleConnection k u) := by
  have other : socket ≠ k := by
    rintro rfl
    cases hk.symm.trans h.opened
  have opened : Attending socket c user
      { g with sockets := Function.update g.sockets k (.opened u) } :=
    ⟨(Function.update_of_ne other ..).trans h.opened, h.room, h.once⟩
  exact opened.joinRoom ..

theorem Attending.handleDisconnect (h : Attending socket c user g) {k : Nat} (hk : k ≠ socket) :
    Attending socket c user (g.handleDisconnect k) := by
  refine ⟨(Function.update_of_ne hk.symm ..).trans h.opened, List.mem_filter.2 ⟨h.room, ?_⟩,
    h.once.filter _⟩
  simpa using hk.symm

theorem Attending.granted (h : Attending socket c user g) (handler : RealtimeGateway.Handler) :
    Attending socket c user (g.granted handler) ∧
      told socket c (g.granted handler) = told socket c g := by
  unfold RealtimeGateway.granted
  split
  · exact ⟨h.joinRoom .., told_joinRoom ..⟩
  · exact ⟨h.emit .., told_typing ..⟩

/-- What a handler leaves alone before it awaits the check. -/
structure Unmoved (g g' : RealtimeGateway) : Prop where
  sockets : g'.sockets = g.sockets
  rooms : g'.rooms = g.rooms
  delivered : g'.delivered = g.delivered

theorem Attending.unmoved {g' : RealtimeGateway} (h : Attending socket c user g)
    (ha : Unmoved g g') : Attending socket c user g' ∧ told socket c g' = told socket c g := by
  refine ⟨⟨ha.sockets ▸ h.opened, ha.rooms ▸ h.room, ha.rooms ▸ h.once⟩, ?_⟩
  rw [told, ha.delivered]
  rfl

variable [Identifiers]

theorem unmoved_request {wish : RealtimeGateway.Wish} {p clock k : Nat} {u : AuthUser} {body : Body}
    {g' : RealtimeGateway} {v : Option Visit}
    (h : g.request wish p clock k u body = (g', v)) : Unmoved g g' := by
  simp only [RealtimeGateway.request] at h
  split at h
  · split at h
    · split at h
      · cases h
        exact ⟨rfl, rfl, rfl⟩
      · split at h
        · cases h
          exact ⟨rfl, rfl, rfl⟩
        · cases h
          exact ⟨rfl, rfl, rfl⟩
    · cases h
      exact ⟨rfl, rfl, rfl⟩
  · cases h
    exact ⟨rfl, rfl, rfl⟩

end Rooms

section Audience

variable [AesGcm] [TokenHash] [Identifiers] {Init : World → Prop} {E E' : Embedded}
  {socket c : Nat} {user : AuthUser}

/-- No room has a socket twice. -/
theorem nodup_reach (h : Embedded.Reach Init E) : E.gateway.rooms.Nodup := by
  induction h with
  | start wsLimit hw => exact List.nodup_nil
  | @step E E' t _ hst ih =>
    cases proceeds_of_step hst with
    | api l P hP =>
      have same (bs : List Broadcast) (g : RealtimeGateway) : (g.publish bs).rooms = g.rooms := by
        induction bs generalizing g with
        | nil => rfl
        | cons b bs ih => exact ih _
      exact (same _ _).symm ▸ ih
    | connect k u hk =>
      refine nodup_joinRoom ?_ _ _
      exact ih
    | disconnect k => exact ih.filter _
    | leave k body =>
      unfold RealtimeGateway.onLeave
      split
      · split
        · exact ih
        · exact ih.filter _
      · exact ih.filter _
      · exact ih
    | refuse wish p clock k u body g hs hr => exact (unmoved_request hr).rooms ▸ ih
    | visit wish p clock k u body g v P hs hr hP => exact (unmoved_request hr).rooms ▸ ih
    | granted p handler k r hp ht =>
      unfold RealtimeGateway.granted
      split
      · refine nodup_joinRoom ?_ _ _
        exact ih
      · exact ih
    | denied p => exact ih

/-- The socket neither closes nor leaves the room. -/
def Stays (socket c : Nat) : Signal → Prop
  | .disconnect k => k ≠ socket
  | .leave k body => k = socket → ∀ b, body.conversationId ≠ .string (idText c) ∧
      body.conversationId ≠ .other b (idText c)
  | _ => True

/-- The runs in which the socket stays, and the API emits to the rooms itself. -/
inductive Listens (socket c : Nat) (E : Embedded) : Embedded → Prop
  | refl : Listens socket c E E
  | step {F F' : Embedded} (t : Signal) : Listens socket c E F → Stays socket c t →
      F.pool.shared.settings.wsGatewayDedicated = false → F.step t = some F' →
        Listens socket c E F'

theorem api_broadcasts {l : Label Input Event (Call ⊕ Visit)}
    {P P' : Pool Op Op.Res Err World (Call ⊕ Visit) Response}
    (h : Embedded.machine.step l P = some P') :
    P'.shared.broadcasts = P.shared.broadcasts ∨
      ∃ b, P'.shared.broadcasts = P.shared.broadcasts ++ [b] := by
  rcases Machine.step_cases h with ⟨p, k, s, rfl, -, hx, rfl⟩ |
    ⟨p, i, k, o, next, r, s, rfl, -, hx, rfl⟩ | ⟨x, s, rfl, hx, rfl⟩ | ⟨p, k, o, next, rfl, -, rfl⟩
  · exact .inl (enter_broadcasts hx)
  · exact (exec_broadcasts hx).imp_right fun ⟨b, _, e⟩ => ⟨b, e⟩
  · exact .inl (event_broadcasts hx)
  · exact .inl rfl

/-- What one signal brings: the news that the API hands over, to the socket as to everyone. -/
theorem attends_step (h : Attending socket c user E.gateway) {t : Signal}
    (hs : Stays socket c t) (hst : E.step t = some E') :
    Attending socket c user E'.gateway ∧ ∃ bs,
      E'.pool.shared.broadcasts = E.pool.shared.broadcasts ++ bs ∧
        told socket c E'.gateway = told socket c E.gateway ++ about c bs ∧
          (E'.pool = E.pool ∨ ∃ l, Embedded.machine.step l E.pool = some E'.pool) := by
  have still {g : RealtimeGateway} (ha : Attending socket c user g)
      (hg : told socket c g = told socket c E.gateway) : Attending socket c user g ∧ ∃ bs,
      E.pool.shared.broadcasts = E.pool.shared.broadcasts ++ bs ∧
        told socket c g = told socket c E.gateway ++ about c bs ∧
          (E.pool = E.pool ∨ ∃ l, Embedded.machine.step l E.pool = some E.pool) :=
    ⟨ha, [], (List.append_nil _).symm, hg.trans (List.append_nil _).symm, .inl rfl⟩
  cases proceeds_of_step hst with
  | api l P hP =>
    obtain ⟨stays, tells⟩ := h.publish (P.shared.broadcasts.drop E.pool.shared.broadcasts.length)
    refine ⟨stays, _, ?_, tells, .inr ⟨l, hP⟩⟩
    rcases api_broadcasts hP with e | ⟨b, e⟩
    · rw [e, List.drop_length, List.append_nil]
    · rw [e, List.drop_left]
  | connect k u hk => exact still (h.handleConnection hk u) (told_joinRoom ..)
  | disconnect k => exact still (h.handleDisconnect hs) rfl
  | leave k body => exact still (h.onLeave hs) (told_onLeave k body)
  | refuse wish p clock k u body g hu hr =>
    obtain ⟨stays, same⟩ := h.unmoved (unmoved_request hr)
    exact still stays same
  | visit wish p clock k u body g v P hu hr hP =>
    obtain ⟨stays, same⟩ := h.unmoved (unmoved_request hr)
    refine ⟨stays, [], ?_, same.trans (List.append_nil _).symm, .inr ⟨_, hP⟩⟩
    rcases Machine.step_cases hP with ⟨_, _, s, -, -, hx, rfl⟩ | ⟨_, _, _, _, _, _, _, e, -⟩ |
      ⟨_, _, e, -⟩ | ⟨_, _, _, _, e, -⟩
    · exact (enter_broadcasts hx).trans (List.append_nil _).symm
    all_goals cases e
  | granted p handler k r hp ht =>
    obtain ⟨stays, same⟩ := Attending.granted (g := E.gateway.settle p)
      ⟨h.opened, h.room, h.once⟩ handler
    exact still stays same
  | denied p => exact still ⟨h.opened, h.room, h.once⟩ rfl

/-- The calls among the processes that announce what they did. -/
def Client : Call ⊕ Visit → Prop
  | .inl k => Heralding k
  | .inr _ => False

/-- The operation tells the clients what the call announces when it answers with `r`. -/
def Word (r : Response) : Call ⊕ Visit → Op → Prop
  | .inl k => Proclaims k r
  | .inr _ => fun _ => False

/-- The process has its word still before it, or it is among these. -/
def Spoken (r : Response) (p : Nat) (bs : List Broadcast)
    (P : Pool Op Op.Res Err World (Call ⊕ Visit) Response) : Prop :=
  Machine.Bound Client (Word r) Admitted (· ≠ r) p P ∨
    ∃ k x, P.threads p = some ⟨.inl k, x⟩ ∧ ∃ b ∈ bs, Heralds k r b

theorem Spoken.step {r : Response} {p : Nat} {bs new : List Broadcast}
    {l : Label Input Event (Call ⊕ Visit)}
    {P P' : Pool Op Op.Res Err World (Call ⊕ Visit) Response} (h : Spoken r p bs P)
    (hst : Embedded.machine.step l P = some P')
    (hw : P.shared.settings.wsGatewayDedicated = false)
    (hn : P'.shared.broadcasts = P.shared.broadcasts ++ new) : Spoken r p (bs ++ new) P' := by
  rcases h with bound | ⟨k, x, ht, b, hb, heralds⟩
  · have passes : ∀ k, Client k →
        (Embedded.machine.code k).Passes (Word r k) Admitted (· ≠ r) := by
      rintro (k | v) hk
      · exact passes_heralding hk r
      · exact hk.elim
    refine (bound.step passes hst fun i o a s hx => admitted_exec hx hw).imp_right ?_
    rintro ⟨i, k | v, o, next, a, s, ht, hk, word, hx, rfl⟩
    · obtain ⟨b, rfl, heralds⟩ := word
      have told : World.exec p i (.emit b) P.shared = some (a, s) := hx
      cases told
      obtain rfl : new = [b] := List.append_cancel_left hn.symm
      exact ⟨k, _, Pool.put_self .., b, by simp, heralds⟩
    · exact hk.elim
  · obtain ⟨⟨k', x'⟩, ht', same⟩ := Machine.thread_stays hst ht
    cases same
    exact .inr ⟨k, x', ht', b, List.mem_append_left _ hb, heralds⟩

end Audience

section Example

/-- A test that signals pass at which the socket stays. -/
def stays (socket : Nat) : Signal → Bool
  | .disconnect k | .leave k _ => k != socket
  | _ => true

theorem stays_sound {socket c : Nat} {t : Signal} (h : stays socket t = true) :
    Stays socket c t := by
  cases t with
  | disconnect k => exact bne_iff_ne.1 h
  | leave k body => exact fun e => absurd e (bne_iff_ne.1 h)
  | _ => trivial

/-- A run in which they pass it, while the API emits to the rooms itself. -/
def attentive [AesGcm] [TokenHash] [Identifiers] (socket : Nat) :
    List Signal → Embedded → Option Embedded
  | [], E => some E
  | t :: ts, E =>
    if stays socket t && !E.pool.shared.settings.wsGatewayDedicated then
      (E.step t).bind (attentive socket ts)
    else none

theorem Listens.attentive [AesGcm] [TokenHash] [Identifiers] {socket c : Nat} {E F E' : Embedded}
    {ts : List Signal} (h : Listens socket c E F) (hr : attentive socket ts F = some E') :
    Listens socket c E E' := by
  induction ts generalizing F with
  | nil =>
    cases hr
    exact h
  | cons t ts ih =>
    simp only [Guarantees.attentive, Bool.and_eq_true, Bool.not_eq_true'] at hr
    split at hr
    · rename_i passed
      obtain ⟨F', hF, hr⟩ := Option.bind_eq_some_iff.1 hr
      exact ih (h.step t (stays_sound passed.1) passed.2 hF) hr
    · cases hr

/-- The seller joins the room of conversation 10. -/
def joinTen : List Signal :=
  [.connect 1 ⟨3, .seller⟩, .join 0 1 ⟨.string (idText 10), false⟩, .api (.exec 0 calm),
    .api (.exec 0 calm), .resume 0]

/-- The customer writes to it, and deletes the message. -/
def writeThenDelete : List Signal :=
  .api (.enter 1 (.inl exampleSend)) :: List.replicate 15 (.api (.exec 1 calm)) ++
    .api (.enter 2 (.inl exampleDelete)) :: List.replicate 9 (.api (.exec 2 calm))

abbrev attentiveRun (E : Embedded) : Option Embedded :=
  @attentive exampleCipher exampleHash exampleIdentifiers 1 writeThenDelete E

/-- Which messages the socket was told of, and whether they were new. -/
def toldOf (E : Embedded) : List (Nat × Bool) :=
  (told 1 10 E.gateway).map fun b =>
    match b with
    | .created id _ _ _ _ _ => (id, true)
    | .deleted id _ _ => (id, false)
    | .read _ _ _ => (0, false)

/-- The seller is in the room with socket 1. -/
def inside (E : Embedded) : Bool :=
  (match E.gateway.sockets 1 with
    | .opened user => user == ⟨3, .seller⟩
    | _ => false) && E.gateway.rooms.contains (roomForConversation (idText 10), 1)

theorem inside_sound {E : Embedded} (h : inside E = true) :
    E.gateway.sockets 1 = .opened ⟨3, .seller⟩ ∧
      (roomForConversation (idText 10), 1) ∈ E.gateway.rooms := by
  simp only [inside, Bool.and_eq_true, List.contains_iff_mem] at h
  obtain ⟨opened, room⟩ := h
  refine ⟨?_, room⟩
  split at opened
  · rename_i user e
    rw [e, eq_of_beq opened]
  · cases opened

theorem joinedTen : (embeddedFrom joinTen).map inside = some true := by
  decide +kernel

theorem toldBoth : ((embeddedFrom joinTen).bind attentiveRun).map toldOf =
    some [(100, true), (100, false)] := by
  decide +kernel

end Example

end Messageries.Guarantees
