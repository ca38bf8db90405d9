import Messageries.Gateway.Realtime
import Messageries.Guarantees.Broadcasts
import Messageries.Guarantees.Isolation

set_option linter.unusedSectionVars false

namespace Messageries.Guarantees

open Text Relational Database Crypto Concurrency Backend Moderation Gateway Proofs

section Rooms

variable [Identifiers] {w : World} {g : RealtimeGateway}

/-- The text names a conversation that the user has access to. -/
def Allowed (s : Utf16) (user : AuthUser) (w : World) : Prop :=
  ∃ c, Identifiers.parse s = some c ∧ Accessed user c w

/-- Who gets the packet may get it, what it says is so, and who is said to type may write. -/
def Permitted (d : RealtimeGateway.Delivery) (w : World) : Prop :=
  match d.packet with
  | .news b => Accessed d.user (conversationOf b) w ∧ Heard w b
  | .typing s u _ => Allowed s d.user w ∧ ∃ user, user.sub = u ∧ Allowed s user w

/-- The rooms of the conversations are for those who have access to them. -/
structure Screened (w : World) (g : RealtimeGateway) : Prop where
  rooms : ∀ s socket user, (roomForConversation s, socket) ∈ g.rooms →
    g.sockets socket = .opened user → Allowed s user w
  present : ∀ room socket, (room, socket) ∈ g.rooms → g.sockets socket ≠ .unopened
  waiting : ∀ p h, g.handlers p = some h → g.sockets h.socket ≠ .unopened ∧
    ∀ user, g.sockets h.socket = .opened user → h.user = user
  delivered : ∀ d ∈ g.delivered, Permitted d w

namespace Screened

/-- Nobody loses an access, and what was so stays so. -/
theorem later {w' : World} (h : Screened w g) (ha : ∀ s user, Allowed s user w → Allowed s user w')
    (hp : ∀ d, Permitted d w → Permitted d w') : Screened w' g :=
  ⟨fun s socket user hr hu => ha s user (h.rooms s socket user hr hu), h.present, h.waiting,
    fun d hd => hp d (h.delivered d hd)⟩

theorem emit (h : Screened w g) {room : Utf16} {skip : Option Nat}
    {packet : RealtimeGateway.Packet}
    (hp : ∀ socket user, (room, socket) ∈ g.rooms → g.sockets socket = .opened user →
      Permitted ⟨socket, user, packet⟩ w) : Screened w (g.emit room skip packet) := by
  refine ⟨h.rooms, h.present, h.waiting, fun d hd => ?_⟩
  rcases List.mem_append.1 hd with hd | hd
  · exact h.delivered d hd
  · obtain ⟨⟨r, socket⟩, he, hd⟩ := List.mem_filterMap.1 hd
    unfold RealtimeGateway.deliver at hd
    split at hd
    · rename_i hc
      split at hd
      · rename_i user hu
        cases hd
        exact hp socket user (hc.1 ▸ he) hu
      · cases hd
    · cases hd

theorem publish (h : Screened w g) {bs : List Broadcast} (hb : ∀ b ∈ bs, Heard w b) :
    Screened w (g.publish bs) := by
  induction bs generalizing g with
  | nil => exact h
  | cons b bs ih =>
    refine ih (h.emit fun socket user hr hu => ?_) fun b hm => hb b (List.mem_cons_of_mem _ hm)
    obtain ⟨c, hc, ha⟩ := h.rooms _ socket user hr hu
    rw [Identifiers.parse_idText] at hc
    cases hc
    exact ⟨ha, hb b List.mem_cons_self⟩

theorem joinRoom (h : Screened w g) {room : Utf16} {socket : Nat}
    (hs : g.sockets socket ≠ .unopened)
    (hr : ∀ s user, room = roomForConversation s → g.sockets socket = .opened user →
      Allowed s user w) : Screened w (g.joinRoom room socket) := by
  unfold RealtimeGateway.joinRoom
  split
  · exact h
  · refine ⟨fun s k user hm hu => ?_, fun r k hm => ?_, h.waiting, h.delivered⟩
    · rcases List.mem_append.1 hm with hm | hm
      · exact h.rooms s k user hm hu
      · cases List.mem_singleton.1 hm
        exact hr s user rfl hu
    · rcases List.mem_append.1 hm with hm | hm
      · exact h.present r k hm
      · cases List.mem_singleton.1 hm
        exact hs

theorem leaveRoom (h : Screened w g) (room : Utf16) (socket : Nat) :
    Screened w (g.leaveRoom room socket) :=
  ⟨fun s k user hm => h.rooms s k user (List.mem_filter.1 hm).1,
    fun r k hm => h.present r k (List.mem_filter.1 hm).1, h.waiting, h.delivered⟩

theorem onLeave (h : Screened w g) (socket : Nat) (body : Body) :
    Screened w (g.onLeave socket body) := by
  unfold RealtimeGateway.onLeave
  split
  · split
    · exact h
    · exact h.leaveRoom ..
  · exact h.leaveRoom ..
  · exact h

theorem handleConnection (h : Screened w g) {socket : Nat} (hs : g.sockets socket = .unopened)
    (user : AuthUser) : Screened w (g.handleConnection socket user) := by
  have same : ∀ {k}, g.sockets k ≠ .unopened →
      Function.update g.sockets socket (.opened user) k = g.sockets k := fun {k} hk =>
    Function.update_of_ne (fun e : k = socket => hk (e ▸ hs)) ..
  have new : Function.update g.sockets socket (.opened user) socket = .opened user :=
    Function.update_self ..
  have opened : Screened w
      { g with sockets := Function.update g.sockets socket (.opened user) } := by
    refine ⟨fun s k u hm hu => ?_, fun r k hm => ?_, fun p handler hp => ?_, h.delivered⟩
    · exact h.rooms s k u hm ((same (h.present _ k hm)).symm.trans hu)
    · exact fun hn => h.present r k hm ((same (h.present r k hm)).symm.trans hn)
    · obtain ⟨there, who⟩ := h.waiting p handler hp
      exact ⟨fun hn => there ((same there).symm.trans hn),
        fun u hu => who u ((same there).symm.trans hu)⟩
  exact opened.joinRoom (fun hn => nomatch new.symm.trans hn) fun s _ he _ =>
    (room_ne s user.sub he).elim

theorem handleDisconnect (h : Screened w g) (socket : Nat) :
    Screened w (g.handleDisconnect socket) := by
  have other : ∀ {k u}, Function.update g.sockets socket .closed k = .opened u →
      g.sockets k = .opened u := by
    intro k u hu
    by_cases e : k = socket
    · subst e
      rw [Function.update_self] at hu
      cases hu
    · rwa [Function.update_of_ne e] at hu
  have there : ∀ {k}, g.sockets k ≠ .unopened →
      Function.update g.sockets socket .closed k ≠ .unopened := by
    intro k hk
    by_cases e : k = socket
    · subst e
      rw [Function.update_self]
      nofun
    · rwa [Function.update_of_ne e]
  refine ⟨fun s k u hm hu => ?_, fun r k hm => ?_, fun p handler hp => ?_, h.delivered⟩
  · exact h.rooms s k u (List.mem_filter.1 hm).1 (other hu)
  · exact there (h.present r k (List.mem_filter.1 hm).1)
  · obtain ⟨ht, who⟩ := h.waiting p handler hp
    exact ⟨there ht, fun u hu => who u (other hu)⟩

theorem settle (h : Screened w g) (p : Nat) : Screened w (g.settle p) := by
  refine ⟨h.rooms, h.present, fun q handler hq => ?_, h.delivered⟩
  by_cases e : q = p
  · subst e
    simp [RealtimeGateway.settle] at hq
  · exact h.waiting q handler (by simpa [RealtimeGateway.settle, e] using hq)

theorem await (h : Screened w g) {p : Nat} {handler : RealtimeGateway.Handler}
    (hs : g.sockets handler.socket = .opened handler.user) : Screened w (g.await p handler) := by
  refine ⟨h.rooms, h.present, fun q handler' hq => ?_, h.delivered⟩
  by_cases e : q = p
  · subst e
    have same : handler = handler' := by simpa [RealtimeGateway.await] using hq
    subst same
    exact ⟨fun hn => (nomatch hs.symm.trans hn), fun user hu =>
      RealtimeGateway.Socket.opened.inj (hs.symm.trans hu)⟩
  · exact h.waiting q handler' (by simpa [RealtimeGateway.await, e] using hq)

theorem rateLimitOk (h : Screened w g) (user clock : Nat) :
    Screened w (g.rateLimitOk user clock).2 :=
  ⟨h.rooms, h.present, h.waiting, h.delivered⟩

theorem request (h : Screened w g) (wish : RealtimeGateway.Wish) (p clock : Nat) {socket : Nat}
    {user : AuthUser} (body : Body) (hs : g.sockets socket = .opened user) :
    Screened w (g.request wish p clock socket user body).1 := by
  have limited := h.rateLimitOk user.sub clock
  simp only [RealtimeGateway.request]
  split
  · split
    · split
      · exact limited
      · split
        · exact limited.await hs
        · exact limited
    · exact limited
  · exact limited

/-- A handler whose user was granted access goes on. -/
theorem granted (h : Screened w g) {p : Nat} {handler : RealtimeGateway.Handler}
    (hp : g.handlers p = some handler)
    (ha : Allowed handler.conversationId handler.user w) :
    Screened w ((g.settle p).granted handler) := by
  obtain ⟨there, who⟩ := h.waiting p handler hp
  have settled := h.settle p
  unfold RealtimeGateway.granted
  split
  · refine settled.joinRoom there fun s user e hu => ?_
    obtain rfl := room_inj e
    exact who user hu ▸ ha
  · exact settled.emit fun socket user hr hu =>
      ⟨settled.rooms _ socket user hr hu, handler.user, rfl, ha⟩

end Screened

theorem screened_start (wsLimit : Nat) : Screened w (.start wsLimit) :=
  ⟨fun _ _ _ hm => (nomatch hm), fun _ _ hm => (nomatch hm), fun _ _ hp => (nomatch hp),
    fun _ hd => nomatch hd⟩

end Rooms

section Embedded

variable [AesGcm] [TokenHash] [Identifiers] {w₀ : World} {E E' : Embedded}

/-- What the system does at a signal. -/
inductive Proceeds (E : Embedded) : Signal → Embedded → Prop
  | api (l : Label Input Event (Call ⊕ Visit))
      (P : Pool Op Op.Res Err World (Call ⊕ Visit) Response) :
      Embedded.machine.step l E.pool = some P → Proceeds E (.api l) ⟨P, E.gateway.publish
        (P.shared.broadcasts.drop E.pool.shared.broadcasts.length)⟩
  | connect (socket : Nat) (user : AuthUser) : E.gateway.sockets socket = .unopened →
      Proceeds E (.connect socket user) ⟨E.pool, E.gateway.handleConnection socket user⟩
  | disconnect (socket : Nat) :
      Proceeds E (.disconnect socket) ⟨E.pool, E.gateway.handleDisconnect socket⟩
  | leave (socket : Nat) (body : Body) :
      Proceeds E (.leave socket body) ⟨E.pool, E.gateway.onLeave socket body⟩
  | refuse {t : Signal} (wish : RealtimeGateway.Wish) (p clock socket : Nat) (user : AuthUser)
      (body : Body) (g : RealtimeGateway) : E.gateway.sockets socket = .opened user →
      E.gateway.request wish p clock socket user body = (g, none) → Proceeds E t ⟨E.pool, g⟩
  | visit {t : Signal} (wish : RealtimeGateway.Wish) (p clock socket : Nat) (user : AuthUser)
      (body : Body) (g : RealtimeGateway) (v : Visit)
      (P : Pool Op Op.Res Err World (Call ⊕ Visit) Response) :
      E.gateway.sockets socket = .opened user →
      E.gateway.request wish p clock socket user body = (g, some v) →
      Embedded.machine.step (.enter p (.inr v)) E.pool = some P → Proceeds E t ⟨P, g⟩
  | granted {t : Signal} (p : Nat) (h : RealtimeGateway.Handler) (k : Call ⊕ Visit) (r : Response) :
      E.gateway.handlers p = some h → E.pool.threads p = some ⟨k, some (.pure r)⟩ →
      Proceeds E t ⟨E.pool, (E.gateway.settle p).granted h⟩
  | denied {t : Signal} (p : Nat) : Proceeds E t ⟨E.pool, E.gateway.settle p⟩

theorem proceeds_serve {t : Signal} {wish : RealtimeGateway.Wish} {p clock socket : Nat}
    {body : Body}
    (h : E.serve p socket (fun user => RealtimeGateway.request wish p clock socket user body) =
      some E') : Proceeds E t E' := by
  unfold Embedded.serve at h
  split at h
  · rename_i user hs
    split at h
    · cases h
      exact .refuse wish p clock socket user body _ hs ‹_›
    · obtain ⟨P, hP, rfl⟩ := Option.map_eq_some_iff.1 h
      exact .visit wish p clock socket user body _ _ P hs ‹_› hP
  · cases h

theorem proceeds_of_step {t : Signal} (h : E.step t = some E') : Proceeds E t E' := by
  have api : ∀ {l}, E.perform l = some E' → Proceeds E (.api l) E' := by
    intro l h
    obtain ⟨P, hP, rfl⟩ := Option.map_eq_some_iff.1 h
    exact .api l P hP
  cases t with
  | api l =>
    cases l with
    | enter p k =>
      cases k with
      | inl k => exact api h
      | inr v => cases h
    | _ => exact api h
  | connect socket user =>
    simp only [Embedded.step] at h
    split at h
    · cases h
      exact .connect socket user ‹_›
    · cases h
  | disconnect socket =>
    cases h
    exact .disconnect socket
  | leave socket body =>
    cases h
    exact .leave socket body
  | join p socket body => exact proceeds_serve h
  | typing p socket body => exact proceeds_serve h
  | resume p =>
    simp only [Embedded.step, Embedded.resume] at h
    split at h
    · cases h
      exact .granted p _ _ _ ‹_› ‹_›
    · cases h
      exact .denied p
    · cases h

theorem embedded_reach (h : Embedded.Reach (From w₀) E) :
    Embedded.machine.Reachable (From w₀) E.pool := by
  induction h with
  | start wsLimit hw => exact .init hw
  | step t _ hst ih =>
    cases proceeds_of_step hst with
    | api l P hP => exact .step l ih (fun _ _ _ _ _ _ _ => trivial) hP
    | visit _ p _ _ _ _ _ v P _ _ hP =>
      exact .step (.enter p (.inr v)) ih (fun _ _ _ _ _ _ _ => trivial) hP
    | _ => exact ih

/-- A run of the API with its gateway is a run of the API, as far as the world goes. -/
theorem embedded_mirrored (h : Embedded.machine.Reachable (From w₀) E.pool) :
    ∃ P : Run, machine.Reachable (From w₀) P ∧ P.shared = E.pool.shared := by
  have begins (v : Visit) : Prog.Begins (α := Response)
      (do let _ ← assertCanAccess v.user v.conversationId; return .done)
      (code (.getOne v.user v.conversationId)) := Prog.Begins.bind fun _ => trivial
  obtain ⟨P, hP, mirrors⟩ := Machine.Reach.mirrored begins h
  exact ⟨P, hP, mirrors.shared⟩

/-- A visit that returns was granted. -/
def Granted (_ : Nat) (v : Visit) : Except Err Response → World → Prop
  | .ok _, w => Accessed v.user v.conversationId w
  | .error _, _ => True

theorem sound_embedded (w₀ : World) :
    Protocol.Sound Embedded.machine (fun _ _ _ => True) (protocol w₀.store.db) (From w₀)
      (fun p k => Start p (k.elim id fun v => .getOne v.user v.conversationId))
      fun p => Sum.elim (Post w₀.store.db (fun _ _ _ => True) p) (Granted p) := by
  refine (sound _ w₀).beside fun p v => ?_
  have access : Spec w₀.store.db (fun _ _ _ => True) (.getOne v.user v.conversationId) p
      (fun _ => True) (assertCanAccess v.user v.conversationId) _ :=
    spec_assertCanAccess v.user v.conversationId persists_true
  refine (Protocol.Valid.bind access (fun _ => .pure fun w _ h => h.2.2.2)
    fun _ _ _ _ => trivial).pre fun w _ h => ⟨h.base, trivial⟩

theorem Persists.allowed {db₀ : Db} (s : Utf16) (user : AuthUser) :
    Persists db₀ (Allowed s user) :=
  .exists fun c => .and (.const _) (.accessed user c)

theorem Persists.permitted {db₀ : Db} (d : RealtimeGateway.Delivery) :
    Persists db₀ (Permitted d) := by
  obtain ⟨socket, user, packet⟩ := d
  cases packet with
  | news b => exact .and (.accessed user _) (.heard b)
  | typing s u _ =>
    exact .and (Persists.allowed s user)
      (.exists fun user => .and (.const _) (Persists.allowed s user))

/-- A handler awaits a process that checks the access it asks for. -/
def Awaiting (E : Embedded) : Prop :=
  ∀ p h, E.gateway.handlers p = some h → ∃ v code, E.pool.threads p = some ⟨.inr v, code⟩ ∧
    v.user = h.user ∧ Identifiers.parse h.conversationId = some v.conversationId

theorem handlers_publish (bs : List Broadcast) (g : RealtimeGateway) :
    (g.publish bs).handlers = g.handlers := by
  induction bs generalizing g with
  | nil => rfl
  | cons b bs ih => exact ih _

theorem handlers_joinRoom (room : Utf16) (socket : Nat) (g : RealtimeGateway) :
    (g.joinRoom room socket).handlers = g.handlers := by
  unfold RealtimeGateway.joinRoom
  split <;> rfl

theorem handlers_handleConnection (socket : Nat) (user : AuthUser) (g : RealtimeGateway) :
    (g.handleConnection socket user).handlers = g.handlers :=
  handlers_joinRoom ..

theorem handlers_onLeave (socket : Nat) (body : Body) (g : RealtimeGateway) :
    (g.onLeave socket body).handlers = g.handlers := by
  unfold RealtimeGateway.onLeave
  split
  · split <;> rfl
  · rfl
  · rfl

theorem handlers_granted (h : RealtimeGateway.Handler) (g : RealtimeGateway) :
    (g.granted h).handlers = g.handlers := by
  unfold RealtimeGateway.granted
  split
  · exact handlers_joinRoom ..
  · rfl

theorem handlers_request {wish : RealtimeGateway.Wish} {p clock socket : Nat} {user : AuthUser}
    {body : Body} {g g' : RealtimeGateway} {v : Option Visit}
    (h : g.request wish p clock socket user body = (g', v)) :
    (v = none ∧ g'.handlers = g.handlers) ∨ ∃ c s, v = some ⟨user, c⟩ ∧
      g'.handlers = Function.update g.handlers p (some ⟨socket, user, s, wish⟩) ∧
        Identifiers.parse s = some c := by
  simp only [RealtimeGateway.request] at h
  split at h
  · split at h
    · rename_i s _
      split at h
      · cases h
        exact .inl ⟨rfl, rfl⟩
      · split at h
        · cases h
          exact .inr ⟨_, s, rfl, rfl, ‹_›⟩
        · cases h
          exact .inl ⟨rfl, rfl⟩
    · cases h
      exact .inl ⟨rfl, rfl⟩
  · cases h
    exact .inl ⟨rfl, rfl⟩

theorem Awaiting.step {t : Signal} (ha : Awaiting E) (hst : E.step t = some E') : Awaiting E' := by
  -- a process serves the visit it came in with
  have stays {l P} (hP : Embedded.machine.step l E.pool = some P) : Awaiting ⟨P, E.gateway⟩ := by
    intro p h hp
    obtain ⟨v, code, ht, hv⟩ := ha p h hp
    obtain ⟨⟨k, code'⟩, ht', rfl⟩ := Machine.thread_stays hP ht
    exact ⟨v, code', ht', hv⟩
  have settled (p : Nat) : Awaiting ⟨E.pool, E.gateway.settle p⟩ := by
    intro q h hq
    by_cases e : q = p
    · subst e
      simp [RealtimeGateway.settle] at hq
    · exact ha q h (by simpa [RealtimeGateway.settle, e] using hq)
  cases proceeds_of_step hst with
  | api l P hP => exact fun p h hp => stays hP p h (by rwa [handlers_publish] at hp)
  | connect socket user hs =>
    exact fun p h hp => ha p h (by rwa [handlers_handleConnection] at hp)
  | disconnect socket => exact ha
  | leave socket body => exact fun p h hp => ha p h (by rwa [handlers_onLeave] at hp)
  | refuse wish p clock socket user body g hs hr =>
    rcases handlers_request hr with ⟨-, same⟩ | ⟨c, s, e, -⟩
    · exact fun q h hq => ha q h (same ▸ hq)
    · cases e
  | visit wish p clock socket user body g v P hs hr hP =>
    rcases handlers_request hr with ⟨e, -⟩ | ⟨c, s, e, hg, hc⟩
    · cases e
    cases e
    intro q h hq
    by_cases e : q = p
    · subst e
      rw [hg, Function.update_self] at hq
      cases hq
      rcases Machine.step_cases hP with ⟨p, k, s', e, -, -, rfl⟩ | ⟨_, _, _, _, _, _, _, e, -⟩ |
        ⟨_, _, e, -⟩ | ⟨_, _, _, _, e, -⟩
      all_goals cases e
      exact ⟨_, _, Pool.put_self .., rfl, hc⟩
    · rw [hg, Function.update_of_ne e] at hq
      exact stays hP q h hq
  | granted p h k r hp ht =>
    exact fun q h' hq => settled p q h' (by rwa [handlers_granted] at hq)
  | denied p => exact settled p

/-- The gateway tells a user of a conversation only what is so, and only when the user has access
to it, and so has whoever is said to type. -/
theorem realtime_isolated (h : Embedded.Reach (From w₀) E) (empty : w₀.broadcasts = []) :
    ∀ d ∈ E.gateway.delivered, Permitted d E.pool.shared := by
  suffices screened : Screened E.pool.shared E.gateway ∧ Awaiting E from screened.1.delivered
  induction h with
  | start wsLimit hw => exact ⟨screened_start wsLimit, fun _ _ hp => nomatch hp⟩
  | @step E E' t hE hst ih =>
    obtain ⟨screened, awaiting⟩ := ih
    refine ⟨?_, awaiting.step hst⟩
    have hP := embedded_reach hE
    -- what a step of the API leaves of what the gateway relies on
    have later {l P} (hl : Embedded.machine.step l E.pool = some P) {g : RealtimeGateway}
        (hs : Screened E.pool.shared g) : Screened P.shared g := by
      obtain ⟨held, a, guar⟩ := (sound_embedded w₀).step ((sound_embedded w₀).holds hP)
        (fun _ _ _ _ _ _ _ => trivial) hl
      have hi := (sound_embedded w₀).inv hP
      exact hs.later (fun s user => Persists.allowed s user _ _ _ hi held.1 guar)
        fun d => Persists.permitted d _ _ _ hi held.1 guar
    cases proceeds_of_step hst with
    | api l P hl =>
      refine (later hl screened).publish fun b hb => ?_
      obtain ⟨Q, hQ, same⟩ := embedded_mirrored (E := ⟨P, E.gateway⟩)
        (.step l hP (fun _ _ _ _ _ _ _ => trivial) hl)
      have told := told_reach hQ b (same ▸ List.mem_of_mem_drop hb)
      exact same ▸ told.resolve_left (empty ▸ List.not_mem_nil)
    | connect socket user hs => exact screened.handleConnection hs user
    | disconnect socket => exact screened.handleDisconnect socket
    | leave socket body => exact screened.onLeave socket body
    | refuse wish p clock socket user body g hs hr =>
      have served := screened.request wish p clock body hs
      rwa [hr] at served
    | visit wish p clock socket user body g v P hs hr hl =>
      have served := screened.request wish p clock body hs
      rw [hr] at served
      exact later hl served
    | granted p h k r hp ht =>
      refine screened.granted hp ?_
      obtain ⟨v, code, hv, hu, hc⟩ := awaiting p h hp
      cases ht.symm.trans hv
      have granted : Accessed v.user v.conversationId E.pool.shared :=
        (sound_embedded w₀).returned hP ht
      exact ⟨v.conversationId, hc, hu ▸ granted⟩
    | denied p => exact screened.settle p

end Embedded

section Example

@[reducible] def exampleIdentifiers : Identifiers where
  parse s :=
    let n := Nat.ofDigitChars 10 (decode s) 0
    if idText n = s then some n else none
  parse_idText n := by
    have decoded : Nat.ofDigitChars 10 (decode (idText n)) 0 = n := by
      rw [idText, decode_encode, Nat.ofDigitChars_ten_toDigits]
    rw [decoded, if_pos rfl]

/-- The seller and a stranger ask for the room of conversation 10, and the customer writes to it. -/
def joinThenSend : List Signal :=
  [.connect 1 ⟨3, .seller⟩, .connect 2 ⟨9, .customer⟩,
    .join 0 1 ⟨.string (idText 10), false⟩, .join 1 2 ⟨.string (idText 10), false⟩] ++
    [0, 0, 1, 1].map (fun p => .api (.exec p calm)) ++ [.resume 0, .resume 1] ++
    .api (.enter 2 (.inl exampleSend)) :: List.replicate 15 (.api (.exec 2 calm))

abbrev embeddedFrom (ts : List Signal) : Option Embedded :=
  @Embedded.run exampleCipher exampleHash exampleIdentifiers ts (.start 120 exampleWorld)

/-- Who got a packet, at which socket. -/
def reachedUsers (E : Embedded) : List (Nat × Nat) :=
  E.gateway.delivered.map fun d => (d.socket, d.user.sub)

theorem joinedThenSent : (embeddedFrom joinThenSend).map reachedUsers = some [(1, 3)] := by
  decide +kernel

theorem realtime_isolated_example : ∃ E, embeddedFrom joinThenSend = some E ∧
    reachedUsers E = [(1, 3)] ∧
    ∀ d ∈ E.gateway.delivered, @Permitted exampleIdentifiers d E.pool.shared := by
  obtain ⟨E, hE, hs⟩ := Option.map_eq_some_iff.1 joinedThenSent
  exact ⟨E, hE, hs, @realtime_isolated exampleCipher exampleHash exampleIdentifiers _ _
    (@Embedded.Reach.run exampleCipher exampleHash exampleIdentifiers _ _ _ _
      (@Embedded.Reach.start exampleCipher exampleHash exampleIdentifiers _ _ 120
        ⟨initial_example, rfl⟩) hE) rfl⟩

end Example

end Messageries.Guarantees
