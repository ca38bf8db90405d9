import Messageries.Gateway.Server

namespace Messageries.Guarantees

open Text Database Gateway Moderation

section Isolation

variable {seat : Nat → Nat → Prop} {g : Server}

/-- The user has a seat in the conversation the text names, if it names one. -/
def Named (seat : Nat → Nat → Prop) (s : Utf16) (user : Nat) : Prop :=
  ∀ c, s = idText c → seat c user

/-- Joins and typing come from participants, and the event of a message names every participant
as its sender or a recipient. -/
def Checked (seat : Nat → Nat → Prop) (g : Server) : Request → Prop
  | .join socket body | .typing socket body =>
    ∀ user s, g.sockets socket = some user → body.conversationId = .string s → Named seat s user
  | .event (.created m) =>
    ∀ user, seat m.conversationId user → user = m.senderId ∨ user ∈ m.recipients
  | _ => True

/-- What the gateway must not deliver to others. -/
def Isolated (seat : Nat → Nat → Prop) (d : Delivery) : Prop :=
  match d.cause, d.packet with
  | .event (.created m), _ => d.user = m.senderId ∨ d.user ∈ m.recipients
  | _, .typing s user _ => Named seat s user
  | _, _ => True

structure Walled (seat : Nat → Nat → Prop) (g : Server) : Prop where
  rooms : ∀ s socket user, (roomForConversation s, socket) ∈ g.rooms →
    g.sockets socket = some user → Named seat s user
  present : ∀ room socket, (room, socket) ∈ g.rooms → g.sockets socket ≠ none
  delivered : ∀ d ∈ g.delivered, Isolated seat d

theorem Walled.emit (h : Walled seat g) {cause : Request} {room : Utf16} {skip : Option Nat}
    {packet : Packet} (hd : ∀ socket user, (room, socket) ∈ g.rooms → g.sockets socket = some user →
      skip ≠ some socket → Isolated seat ⟨cause, socket, user, packet⟩) :
    Walled seat (g.emit cause room skip packet) := by
  refine ⟨h.rooms, h.present, fun d hm => ?_⟩
  rcases List.mem_append.1 hm with hm | hm
  · exact h.delivered d hm
  · obtain ⟨⟨r, socket⟩, he, hd'⟩ := List.mem_filterMap.1 hm
    split at hd'
    · rename_i hc
      obtain ⟨user, hu, rfl⟩ := Option.map_eq_some_iff.1 hd'
      exact hd socket user (hc.1 ▸ he) hu hc.2
    · cases hd'

theorem Walled.check (h : Walled seat g) (user : Nat) : Walled seat (g.check user).2 :=
  ⟨h.rooms, h.present, h.delivered⟩

theorem Walled.joinRoom (h : Walled seat g) {room : Utf16} {socket : Nat}
    (hs : g.sockets socket ≠ none)
    (hr : ∀ s user, room = roomForConversation s → g.sockets socket = some user →
      Named seat s user) : Walled seat (g.joinRoom room socket) := by
  unfold Server.joinRoom
  split
  · exact h
  · refine ⟨fun s k user hm hu => ?_, fun r k hm => ?_, h.delivered⟩
    · rcases List.mem_append.1 hm with hm | hm
      · exact h.rooms s k user hm hu
      · cases List.mem_singleton.1 hm
        exact hr s user rfl hu
    · rcases List.mem_append.1 hm with hm | hm
      · exact h.present r k hm
      · cases List.mem_singleton.1 hm
        exact hs

theorem Walled.leaveRoom (h : Walled seat g) (room : Utf16) (socket : Nat) :
    Walled seat (g.leaveRoom room socket) :=
  ⟨fun s k user hm hu => h.rooms s k user (List.mem_filter.1 hm).1 hu,
    fun r k hm => h.present r k (List.mem_filter.1 hm).1, h.delivered⟩

theorem room_ne (s : Utf16) (user : Nat) : roomForUser user ≠ roomForConversation s := by
  have hu : text "user:" = [117, 115, 101, 114, 58] := by decide
  have hc : text "conv:" = [99, 111, 110, 118, 58] := by decide
  simp [roomForUser, roomForConversation, hu, hc]

theorem room_inj {s t : Utf16} (h : roomForConversation s = roomForConversation t) : s = t :=
  List.append_cancel_left h

theorem Walled.connect (h : Walled seat g) {socket : Nat} (hs : g.sockets socket = none)
    (user : Nat) : Walled seat (g.onConnection socket user) := by
  -- the new socket is in no room yet
  have other : ∀ room k, (room, k) ∈ g.rooms → k ≠ socket := by
    rintro room k hm rfl
    exact h.present room k hm hs
  have same : ∀ k, k ≠ socket → Function.update g.sockets socket (some user) k = g.sockets k :=
    fun k hk => Function.update_of_ne hk ..
  have opened : Walled seat { g with sockets := Function.update g.sockets socket (some user) } :=
    ⟨fun s k v hm hv => h.rooms s k v hm ((same k (other _ k hm)).symm.trans hv),
      fun room k hm hn => h.present room k hm ((same k (other _ k hm)).symm.trans hn), h.delivered⟩
  have new : Function.update g.sockets socket (some user) socket = some user :=
    Function.update_self ..
  exact opened.joinRoom (fun hn => nomatch new.symm.trans hn) fun s _ he _ =>
    (room_ne s user he).elim

theorem Walled.disconnect (h : Walled seat g) (socket : Nat) : Walled seat (g.onDisconnect socket) := by
  have stays : ∀ {room : Utf16} {k : Nat},
      (room, k) ∈ g.rooms.filter (fun e => e.2 != socket) → (room, k) ∈ g.rooms ∧ k ≠ socket := by
    intro room k hm
    simpa using List.mem_filter.1 hm
  have same : ∀ k, k ≠ socket → Function.update g.sockets socket none k = g.sockets k :=
    fun k hk => Function.update_of_ne hk ..
  refine ⟨fun s k user hm hu => ?_, fun room k hm hn => ?_, h.delivered⟩
  · obtain ⟨hm, hk⟩ := stays hm
    exact h.rooms s k user hm ((same k hk).symm.trans hu)
  · obtain ⟨hm, hk⟩ := stays hm
    exact h.present room k hm ((same k hk).symm.trans hn)

theorem Walled.join (h : Walled seat g) {socket user : Nat} (hs : g.sockets socket = some user)
    {body : Body} (hb : ∀ s, body.conversationId = .string s → Named seat s user) :
    Walled seat (g.onJoin socket user body) := by
  simp only [Server.onJoin]
  split
  · split
    · rename_i s he
      split
      · exact h.check user
      · refine (h.check user).joinRoom (fun hn => nomatch hs.symm.trans hn) fun t v hr hv => ?_
        cases hs.symm.trans hv
        exact room_inj hr ▸ hb s he
    · exact h.check user
  · exact h.check user

theorem Walled.leave (h : Walled seat g) (socket : Nat) (body : Body) :
    Walled seat (g.onLeave socket body) := by
  unfold Server.onLeave
  split
  · split
    · exact h
    · exact h.leaveRoom _ _
  · exact h.leaveRoom _ _
  · exact h

theorem Walled.typing (h : Walled seat g) {socket user : Nat} {body : Body}
    (hb : ∀ s, body.conversationId = .string s → Named seat s user) :
    Walled seat (g.onTyping (.typing socket body) socket user body) := by
  simp only [Server.onTyping]
  split
  · split
    · rename_i s he
      exact (h.check user).emit fun _ _ _ _ _ => hb s he
    · exact h.check user
  · exact h.check user

theorem Walled.event (h : Walled seat g) {e : StreamEvent} (he : Checked seat g (.event e)) :
    Walled seat (g.onEvent e) := by
  cases e with
  | created m =>
    refine h.emit fun socket user hm hu _ => he user ?_
    exact h.rooms _ socket user hm hu m.conversationId rfl
  | deleted id c n => exact h.emit fun _ _ _ _ _ => trivial
  | read c u s => exact h.emit fun _ _ _ _ _ => trivial
  | unknown => exact h

theorem Walled.step (h : Walled seat g) {r : Request} (hr : Checked seat g r) :
    Walled seat (g.step r) := by
  cases r with
  | connect socket user =>
    simp only [Server.step]
    split
    · exact h
    · exact h.connect ‹_› user
  | disconnect socket => exact h.disconnect socket
  | join socket body =>
    simp only [Server.step]
    split
    · exact h.join ‹_› fun s => hr _ s ‹_›
    · exact h
  | leave socket body =>
    simp only [Server.step]
    split
    · exact h.leave socket body
    · exact h
  | typing socket body =>
    simp only [Server.step]
    split
    · exact h.typing fun s => hr _ s ‹_›
    · exact h
  | event e => exact h.event hr
  | tick ms => exact ⟨h.rooms, h.present, h.delivered⟩

/-- When joins and typing come from participants, and events name all of them, the messages go to
their senders and recipients and typing to the others of its conversation only. -/
theorem gateway_isolated (h : Server.Reach (Checked seat) g) :
    ∀ d ∈ g.delivered, Isolated seat d := by
  have kept : Walled seat g := by
    induction h with
    | start => exact ⟨nofun, nofun, nofun⟩
    | step r _ hr ih => exact ih.step hr
  exact kept.delivered

end Isolation

section Example

/-- Customer `2` and seller `3` have the seats of conversation `10`. -/
def exampleSeat (c user : Nat) : Prop := c = 10 ∧ (user = 2 ∨ user = 3)

def exampleEvent : MessageCreated := ⟨100, 10, 2, 1, 0, text "a", none, [3]⟩

def exampleBody : Body := ⟨.string (idText 10), true⟩

def runServer (rs : List Request) : Server := rs.foldl Server.step .start

/-- The sockets that got the body of the event. -/
def readers (g : Server) : List (Nat × Nat) :=
  g.delivered.filterMap fun d =>
    match d.packet with
    | .created _ _ _ _ _ _ _ => some (d.socket, d.user)
    | _ => none

/-- Who typed, and for whom to see. -/
def typists (g : Server) : List (Nat × Nat) :=
  g.delivered.filterMap fun d =>
    match d.packet with
    | .typing _ user _ => some (user, d.user)
    | _ => none

/-- User `9` joins the room, reads the message and types in it. -/
def strangerListens : List Request :=
  [.connect 0 9, .join 0 exampleBody, .connect 1 3, .join 1 exampleBody,
    .event (.created exampleEvent), .typing 0 exampleBody]

theorem stranger_listens :
    readers (runServer strangerListens) = [(0, 9), (1, 3)] ∧
      typists (runServer strangerListens) = [(9, 3)] ∧ 9 ≠ exampleEvent.senderId ∧
      9 ∉ exampleEvent.recipients ∧ ¬exampleSeat 10 9 := by
  refine ⟨by decide, by decide, by decide, by decide, ?_⟩
  simp [exampleSeat]

theorem gateway_isolated_example :
    (runServer [.connect 1 3, .join 1 exampleBody, .event (.created exampleEvent)]).delivered.length
        = 1 ∧
      ∀ d ∈ (runServer
        [.connect 1 3, .join 1 exampleBody, .event (.created exampleEvent)]).delivered,
        Isolated exampleSeat d := by
  have named : Named exampleSeat (idText 10) 3 := fun c hc => ⟨(idText_inj hc).symm, .inr rfl⟩
  have connected : Server.Reach (Checked exampleSeat) (Server.start.step (.connect 1 3)) :=
    .step _ .start trivial
  have joined : Server.Reach (Checked exampleSeat)
      ((Server.start.step (.connect 1 3)).step (.join 1 exampleBody)) := by
    refine connected.step _ ?_
    rintro user s hu hs
    cases hs
    cases hu
    exact named
  refine ⟨by decide, gateway_isolated (joined.step (.event (.created exampleEvent)) ?_)⟩
  rintro user ⟨-, rfl | rfl⟩
  · exact .inl rfl
  · exact .inr (List.mem_singleton_self 3)

end Example

end Messageries.Guarantees
