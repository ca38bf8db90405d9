import Messageries.Concurrency.Runs
import Messageries.Gateway.Presence

namespace Messageries.Guarantees

open Concurrency Gateway.Presence

section Presence

variable {g : Hub} {k user : Nat} {s : Socket} {e : Option Entry}

/-- Redis has taken the `connect` of the socket, and its `disconnect` has not begun. -/
structure Present (user : Nat) (s : Socket) : Prop where
  user : s.user = some user
  added : s.connection = .added ∨ s.connection = .established
  up : s.disconnection = .up ∨ s.disconnection = .skipped

/-- Heartbeats come before the TTL lapses. -/
def Beating (g : Hub) : Act → Prop
  | .tick ms => ∀ k user, Present user (g.sockets k) → g.clock + ms ≤ (g.sockets k).beat + ttl
  | _ => True

/-- A DEL comes when no socket of the user counts. -/
def Spared (g : Hub) : Act → Prop
  | .del k => ∀ k' user, (g.sockets k).user = some user → ¬ Present user (g.sockets k')
  | _ => True

def Lists (k beat : Nat) (e : Option Entry) : Prop :=
  ∃ e', e = some e' ∧ k ∈ e'.members ∧ beat + ttl ≤ e'.expires

structure Tended (g : Hub) : Prop where
  beat : ∀ k, (g.sockets k).beat ≤ g.clock
  key : ∀ k user, Present user (g.sockets k) → Lists k (g.sockets k).beat (g.keys user)

theorem Tended.set (h : Tended g) (hb : s.beat ≤ g.clock)
    (hc : ∀ user, Present user s → Lists k s.beat (g.keys user)) : Tended (g.set k s) := by
  refine ⟨fun k' => ?_, fun k' user hk' => ?_⟩
  · by_cases hk : k' = k
    · subst hk
      simpa using hb
    · simpa [hk] using h.beat k'
  · by_cases hk : k' = k
    · subst hk
      rw [Hub.set_self] at hk' ⊢
      exact hc user hk'
    · rw [Hub.set_of_ne hk] at hk' ⊢
      exact h.key k' user hk'

/-- Most steps of a socket only make it count less. -/
theorem Tended.still (h : Tended g) (hb : s.beat = (g.sockets k).beat)
    (hc : ∀ user, Present user s → Present user (g.sockets k)) : Tended (g.set k s) := by
  refine h.set (hb ▸ h.beat k) fun user hs => ?_
  rw [hb]
  exact h.key k user (hc user hs)

theorem Tended.setKey (h : Tended g)
    (he : ∀ k, Present user (g.sockets k) → Lists k (g.sockets k).beat e) :
    Tended (g.setKey user e) := by
  refine ⟨h.beat, fun k user' hk => ?_⟩
  by_cases hu : user' = user
  · subst hu
    rw [Hub.setKey_self]
    exact he k hk
  · rw [Hub.setKey_of_ne hu]
    exact h.key k user' hk

theorem not_counted (h : s.disconnection = .removing ∨ s.disconnection = .done) :
    ¬ Present user s := fun hc => by
  rcases hc.up with hu | hu <;> rcases h with h | h <;> cases hu.symm.trans h

theorem not_added (ha : s.connection ≠ .added) (he : s.connection ≠ .established) :
    ¬ Present user s := fun hc => hc.added.elim ha he

theorem Tended.handleDisconnect (h : Tended g) (k : Nat) : Tended (g.handleDisconnect k) := by
  unfold Hub.handleDisconnect
  dsimp only
  split
  · rename_i hd
    exact h.still rfl fun user hc => ⟨hc.user, hc.added, .inl hd⟩
  · exact h

theorem Tended.reject (h : Tended g) (k : Nat) : Tended (g.reject k) := by
  have rejected : Tended (g.set k { g.sockets k with connection := .rejected }) :=
    h.still rfl fun _ hc => (not_added (by simp) (by simp) hc).elim
  exact rejected.handleDisconnect k

theorem Tended.onConnect (h : Tended g) (hu : (g.sockets k).user = some user) :
    Tended (g.onConnect k user) := by
  have added : Tended (g.add user k) := h.setKey fun k' hc => by
    obtain ⟨e, he, hm, -⟩ := h.key k' user hc
    refine ⟨_, rfl, ?_, Nat.add_le_add_right (h.beat k') ttl⟩
    exact Finset.mem_insert_of_mem (Hub.mem_members.2 ⟨e, he, hm⟩)
  refine added.set (Nat.le_refl _) fun user' hc => ?_
  cases Option.some.inj (hu.symm.trans hc.user)
  exact ⟨_, Hub.setKey_self, Finset.mem_insert_self k _, Nat.le_refl _⟩

theorem Tended.onDisconnect (h : Tended g) (hd : (g.sockets k).disconnection = .removing) :
    Tended (g.onDisconnect k user) := by
  have removed : Tended (g.srem user k) := h.setKey fun k' hc => by
    obtain ⟨e, he, hm, ht⟩ := h.key k' user hc
    have hne : k' ≠ k := fun hk => not_counted (.inl (hk ▸ hd)) hc
    have hin : k' ∈ e.members.erase k := Finset.mem_erase.2 ⟨hne, hm⟩
    have hs : (e.members.erase k).Nonempty := ⟨k', hin⟩
    exact ⟨⟨_, e.expires, hs⟩, by simp [he, hs], hin, ht⟩
  refine removed.still rfl fun user' hc => ?_
  rcases hc.up with hu | hu <;> cases hu

theorem Tended.finish (h : Tended g) (k : Nat) : Tended (g.finish k) :=
  h.still rfl fun _ hc => (not_counted (.inr rfl) hc).elim

theorem Tended.del (h : Tended g) (hs : ∀ k, ¬ Present user (g.sockets k)) : Tended (g.del user) :=
  h.setKey fun k hc => (hs k hc).elim

theorem Tended.onHeartbeat (h : Tended g) (hu : (g.sockets k).user = some user) :
    Tended (g.onHeartbeat k user) := by
  have renewed : Tended (g.expire user) := h.setKey fun k' hc => by
    obtain ⟨e, he, hm, -⟩ := h.key k' user hc
    exact ⟨{ e with expires := g.clock + ttl }, by rw [he]; rfl, hm,
      Nat.add_le_add_right (h.beat k') ttl⟩
  refine renewed.set (Nat.le_refl _) fun user' hc => ?_
  have hk : Present user' (g.sockets k) := ⟨hc.user, hc.added, hc.up⟩
  cases Option.some.inj (hu.symm.trans hk.user)
  obtain ⟨e, he, hm, -⟩ := h.key k user hk
  exact ⟨{ e with expires := g.clock + ttl }, by rw [Hub.expire, Hub.setKey_self, he]; rfl, hm,
    Nat.le_refl _⟩

theorem Tended.onTick (h : Tended g) {ms : Nat}
    (ht : ∀ k user, Present user (g.sockets k) → g.clock + ms ≤ (g.sockets k).beat + ttl) :
    Tended (g.onTick ms) := by
  refine ⟨fun k => Nat.le_trans (h.beat k) (Nat.le_add_right ..), fun k user hc => ?_⟩
  obtain ⟨e, he, hm, hx⟩ := h.key k user hc
  have alive : g.clock + ms ≤ e.expires := Nat.le_trans (ht k user hc) hx
  exact ⟨e, by simp [Hub.onTick, he, Option.filter, alive], hm, hx⟩

theorem Tended.step (h : Tended g) {r : Act} (hb : Beating g r) (hs : Spared g r) :
    Tended (g.step r) := by
  cases r with
  | connection k =>
    dsimp only [Hub.step]
    split
    · exact h.still rfl fun _ hc => (not_added (by simp) (by simp) hc).elim
    · exact h
  | verified k payload =>
    dsimp only [Hub.step]
    split
    · cases payload with
      | some sub => exact h.still rfl fun _ hc => (not_added (by simp) (by simp) hc).elim
      | none => exact h.reject k
    · exact h
  | joined k ok =>
    dsimp only [Hub.step]
    split
    · cases ok with
      | true => exact h.still rfl fun _ hc => (not_added (by simp) (by simp) hc).elim
      | false => exact h.reject k
    · exact h
  | connect k =>
    dsimp only [Hub.step]
    split
    · rename_i hu
      exact h.onConnect hu
    · exact h
  | connected k ok =>
    dsimp only [Hub.step]
    split
    · rename_i ha
      cases ok with
      | true => exact h.still rfl fun user hc => ⟨hc.user, .inl ha, hc.up⟩
      | false => exact h.reject k
    · cases ok with
      | true => exact h
      | false => exact h.reject k
    · exact h
  | drop k =>
    dsimp only [Hub.step]
    split
    · exact h
    · exact h.handleDisconnect k
  | disconnect k =>
    dsimp only [Hub.step]
    split
    · rename_i hd hu
      exact h.onDisconnect hd
    · exact h
  | disconnected k ok =>
    dsimp only [Hub.step]
    split
    · exact h.finish k
    · exact h.finish k
    · exact h.finish k
    · exact h
  | del k =>
    dsimp only [Hub.step]
    split
    · rename_i hd hu
      exact (h.del fun k' => hs k' _ hu).finish k
    · exact h
  | heartbeat k =>
    dsimp only [Hub.step]
    split
    · rename_i hu
      exact h.onHeartbeat hu
    · exact h
  | tick ms => exact h.onTick hb

theorem tended_start : Tended .start :=
  ⟨fun _ => Nat.le_refl _, fun _ _ hc => by cases hc.user⟩

theorem connected_online
    (hr : Runs Hub.step (fun g r => Beating g r ∧ Spared g r) .start g)
    (hu : (g.sockets k).user = some user) (hc : (g.sockets k).connection = .established)
    (hd : (g.sockets k).disconnection = .up ∨ (g.sockets k).disconnection = .skipped) :
    g.isOnline user = true := by
  have kept : Tended g := hr.invariant tended_start fun _ _ h ok => h.step ok.1 ok.2
  obtain ⟨e, he, -⟩ := kept.key k user ⟨hu, .inr hc, hd⟩
  rw [Hub.isOnline, he]
  rfl

/-- `handleConnection` of a socket of user 7, to its end. -/
def tab (k : Nat) : List Act :=
  [.connection k, .verified k (some 7), .joined k true, .connect k, .connected k true]

/-- Two tabs, one of which goes away. -/
theorem connected_online_example :
    ((tab 1 ++ tab 2 ++ [Act.drop 1, .disconnect 1, .disconnected 1 true]).foldl Hub.step
      .start).isOnline 7 = true := by
  refine connected_online (.of_list _ ?_) (k := 2) ?_ ?_ ?_
  · simp [tab, Beating, Spared]
  · decide +kernel
  · decide +kernel
  · decide +kernel

/-- A second tab connects between the SREM and the DEL of the first. -/
theorem connected_offline : ∃ g : Hub, Runs Hub.step Beating .start g ∧
    (g.sockets 2).user = some 7 ∧ (g.sockets 2).connection = .established ∧
    (g.sockets 2).disconnection = .up ∧ g.isOnline 7 = false := by
  refine ⟨_, .of_list (tab 1 ++ [.drop 1, .disconnect 1] ++ tab 2 ++ [.del 1]) ?_, ?_⟩
  · simp [tab, Beating]
  · decide +kernel

end Presence

section Ghosts

variable {g g' : Hub} {k user : Nat} {s : Socket}

/-- The SADD of a socket does not come behind its SREM, `handleConnection` does not start a timer
for a socket that is down, and no SREM of an id that is in the set is refused. -/
def Attended (g : Hub) : Act → Prop
  | .connect k =>
    (g.sockets k).disconnection = .up ∨ (g.sockets k).disconnection = .removing
  | .connected k true => (g.sockets k).disconnection = .up
  | .disconnected k false => ∀ user, k ∉ g.members user
  | _ => True

structure Linked (user : Nat) (s : Socket) : Prop where
  user : s.user = some user
  sent : s.connection = .added ∨ s.connection = .rejected ∨ s.connection = .established
  up : s.disconnection = .up ∨ s.disconnection = .removing

structure Tidy (g : Hub) : Prop where
  member : ∀ k user, k ∈ g.members user → Linked user (g.sockets k)
  timer : ∀ k, (g.sockets k).hbTimer = true → (g.sockets k).disconnection = .up

theorem Tidy.update (h : Tidy g) (hg : g'.sockets = g.sockets)
    (hm : ∀ k' user, k' ≠ k → k' ∈ g'.members user → k' ∈ g.members user)
    (hk : ∀ user, k ∈ g'.members user → Linked user s)
    (ht : s.hbTimer = true → s.disconnection = .up) : Tidy (g'.set k s) := by
  refine ⟨fun k' user hm' => ?_, fun k' ht' => ?_⟩
  · by_cases hk' : k' = k
    · subst hk'
      rw [Hub.set_self]
      exact hk user hm'
    · rw [Hub.set_of_ne hk', hg]
      exact h.member k' user (hm k' user hk' hm')
  · by_cases hk' : k' = k
    · subst hk'
      rw [Hub.set_self] at ht' ⊢
      exact ht ht'
    · rw [Hub.set_of_ne hk', hg] at ht' ⊢
      exact h.timer k' ht'

theorem Tidy.set (h : Tidy g) (hk : ∀ user, k ∈ g.members user → Linked user s)
    (ht : s.hbTimer = true → s.disconnection = .up) : Tidy (g.set k s) :=
  h.update rfl (fun _ _ _ hm => hm) hk ht

/-- A socket whose SADD is still to come is in no set. -/
theorem Tidy.absent (h : Tidy g)
    (hk : (g.sockets k).connection ∈ [.unopened, .verifying, .joining, .adding]) :
    k ∉ g.members user := fun hm => by
  rcases (h.member k user hm).sent with hc | hc | hc <;> simp [hc] at hk

theorem Tidy.removed (h : Tidy g) {n : Nat} (hd : (g.sockets k).disconnection = .removed n) :
    k ∉ g.members user := fun hm => by
  rcases (h.member k user hm).up with hu | hu <;> cases hd.symm.trans hu

theorem Tidy.handleDisconnect (h : Tidy g) (k : Nat) : Tidy (g.handleDisconnect k) := by
  unfold Hub.handleDisconnect
  dsimp only
  split
  · refine h.set (fun user hm => ?_) nofun
    obtain ⟨hu, hc, -⟩ := h.member k user hm
    exact ⟨hu, hc, .inr (by simp [hu])⟩
  · exact h

theorem Tidy.reject (h : Tidy g) (k : Nat) : Tidy (g.reject k) := by
  have rejected : Tidy (g.set k { g.sockets k with connection := .rejected }) :=
    h.set (fun user hm => ⟨(h.member k user hm).user, .inr (.inl rfl), (h.member k user hm).up⟩)
      (h.timer k)
  exact rejected.handleDisconnect k

theorem Tidy.onConnect (h : Tidy g) (hc : (g.sockets k).connection = .adding)
    (hu : (g.sockets k).user = some user)
    (hd : (g.sockets k).disconnection = .up ∨ (g.sockets k).disconnection = .removing) :
    Tidy (g.onConnect k user) := by
  refine h.update rfl (fun k' user' hk' hm => ?_) (fun user' hm => ?_) (h.timer k)
  · exact (Hub.mem_add.1 hm).resolve_left fun e => hk' e.2
  · rcases Hub.mem_add.1 hm with ⟨rfl, -⟩ | hm
    · exact ⟨hu, .inl rfl, hd⟩
    · exact (h.absent (by simp [hc]) hm).elim

theorem Tidy.onDisconnect (h : Tidy g) (hd : (g.sockets k).disconnection = .removing)
    (hu : (g.sockets k).user = some user) : Tidy (g.onDisconnect k user) := by
  refine h.update rfl (fun k' user' _ hm => (Hub.mem_srem.1 hm).1) (fun user' hm => ?_) fun ht => ?_
  · obtain ⟨hm, hn⟩ := Hub.mem_srem.1 hm
    exact (hn ⟨Option.some.inj ((h.member k user' hm).user.symm.trans hu), rfl⟩).elim
  · cases hd.symm.trans (h.timer k ht)

theorem Tidy.finish (h : Tidy g) (hk : ∀ user, k ∉ g.members user)
    (hd : (g.sockets k).disconnection ≠ .up) : Tidy (g.finish k) :=
  h.set (fun user hm => (hk user hm).elim) fun ht => (hd (h.timer k ht)).elim

theorem Tidy.step (h : Tidy g) {r : Act} (ha : Attended g r) : Tidy (g.step r) := by
  cases r with
  | connection k =>
    dsimp only [Hub.step]
    split
    · rename_i hc
      exact h.set (fun user hm => (h.absent (by simp [hc]) hm).elim) (h.timer k)
    · exact h
  | verified k payload =>
    dsimp only [Hub.step]
    split
    · rename_i hc
      cases payload with
      | some sub => exact h.set (fun user hm => (h.absent (by simp [hc]) hm).elim) (h.timer k)
      | none => exact h.reject k
    · exact h
  | joined k ok =>
    dsimp only [Hub.step]
    split
    · rename_i hc
      cases ok with
      | true => exact h.set (fun user hm => (h.absent (by simp [hc]) hm).elim) (h.timer k)
      | false => exact h.reject k
    · exact h
  | connect k =>
    dsimp only [Hub.step]
    split
    · rename_i hc hu
      exact h.onConnect hc hu ha
    · exact h
  | connected k ok =>
    dsimp only [Hub.step]
    split
    · cases ok with
      | true =>
        refine h.set (fun user hm => ?_) fun _ => ha
        exact ⟨(h.member k user hm).user, .inr (.inr rfl), .inl ha⟩
      | false => exact h.reject k
    · cases ok with
      | true => exact h
      | false => exact h.reject k
    · exact h
  | drop k =>
    dsimp only [Hub.step]
    split
    · exact h
    · exact h.handleDisconnect k
  | disconnect k =>
    dsimp only [Hub.step]
    split
    · rename_i hd hu
      exact h.onDisconnect hd hu
    · exact h
  | disconnected k ok =>
    dsimp only [Hub.step]
    split
    · rename_i hd
      exact h.finish ha (by simp [hd])
    · rename_i hd
      exact h.finish ha (by simp [hd])
    · rename_i hd
      exact h.finish (fun _ => h.removed hd) (by simp [hd])
    · exact h
  | del k =>
    dsimp only [Hub.step]
    split
    · rename_i hd hu
      refine h.update rfl (fun k' user' _ hm => (Hub.mem_del.1 hm).2) (fun user' hm => ?_) ?_
      · exact (h.removed hd (Hub.mem_del.1 hm).2).elim
      · exact fun ht => by cases hd.symm.trans (h.timer k ht)
    · exact h
  | heartbeat k =>
    dsimp only [Hub.step]
    split
    · refine h.update rfl (fun k' user' _ hm => Hub.mem_expire.1 hm) (fun user' hm => ?_)
        (h.timer k)
      obtain ⟨hu, hc, hd⟩ := h.member k user' (Hub.mem_expire.1 hm)
      exact ⟨hu, hc, hd⟩
    · exact h
  | tick ms =>
    exact ⟨fun k user hm => h.member k user (Hub.mem_of_onTick hm), h.timer⟩

theorem tidy_start : Tidy .start := ⟨nofun, nofun⟩

theorem no_ghosts (hr : Runs Hub.step Attended .start g)
    (hd : (g.sockets k).disconnection = .skipped ∨ (g.sockets k).disconnection = .done) :
    (g.sockets k).hbTimer = false ∧ ∀ user, k ∉ g.members user := by
  have tidy : Tidy g := hr.invariant tidy_start fun _ _ h ok => h.step ok
  refine ⟨?_, fun user hm => ?_⟩
  · by_contra ht
    have up := tidy.timer k (by simpa using ht)
    rcases hd with hd | hd <;> cases hd.symm.trans up
  · rcases (tidy.member k user hm).up with hu | hu <;> rcases hd with hd | hd <;>
      cases hd.symm.trans hu

theorem no_ghosts_example :
    let g := [.connect 1, .connected 1 true, .drop 1, .disconnect 1, .del 1].foldl Hub.step
      ([.connection 1, .verified 1 (some 7), .joined 1 true].foldl Hub.step .start)
    (g.sockets 1).hbTimer = false ∧ ∀ user, 1 ∉ g.members user := by
  have joined : Runs Hub.step Attended .start _ :=
    .of_list [.connection 1, .verified 1 (some 7), .joined 1 true] (by simp [Attended])
  have added := joined.step (Act.connect 1) (Or.inl (by decide +kernel))
  have established := added.step (Act.connected 1 true) (by show _ = _; decide +kernel)
  exact no_ghosts (established.append [.drop 1, .disconnect 1, .del 1] (by simp [Attended]))
    (by decide +kernel)

/-- The socket drops while its token is verified. -/
theorem ghost : ∃ g : Hub, Runs Hub.step (fun _ _ => True) .start g ∧
    (g.sockets 1).connection = .established ∧ (g.sockets 1).disconnection = .skipped ∧
    (g.sockets 1).hbTimer = true ∧ 1 ∈ g.members 7 := by
  refine ⟨_, .of_list [.connection 1, .drop 1, .verified 1 (some 7), .joined 1 true, .connect 1,
    .connected 1 true] fun _ _ _ => trivial, ?_⟩
  decide +kernel

end Ghosts

end Messageries.Guarantees
