import Messageries.Guarantees.Idempotency
import Messageries.Guarantees.Reading

set_option linter.unusedSectionVars false

namespace Messageries.Guarantees

open Text Relational Database Crypto Concurrency Backend Moderation Proofs

section Indexes

variable [AesGcm] [TokenHash] {w₀ : World} {P : Run} {p : Nat} {user : AuthUser} {cid : Nat}
  {body : Utf16} {key : Option Utf16}
  {make : List (Nat → Nat → Message)} {w : World}

/-- The rows an INSERT of process `p` makes. -/
def madeRows (p : Nat) (make : List (Nat → Nat → Message)) (w : World) : List Message :=
  match w.store.tx p with
  | some tx => make.mapIdx fun i f => f (w.store.nextId + i) tx.now
  | none => []

def Fitting (p : Nat) (make : List (Nat → Nat → Message)) (w : World) : Prop :=
  (madeRows p make w).findSome? (checkRow .messages) = none

/-- The columns take the rows of an INSERT, but one of the two unique indexes does not. -/
def Trips (p : Nat) (make : List (Nat → Nat → Message)) (w : World) : Prop :=
  Fitting p make w ∧ ∃ m ∈ madeRows p make w, ∃ k ∈ uniqueKeys .messages m,
    k ∈ schema.keysOf .messages (w.store.view p .messages)

instance (p : Nat) (make : List (Nat → Nat → Message)) (w : World) : Decidable (Fitting p make w) :=
  inferInstanceAs (Decidable (_ = none))

instance (p : Nat) (make : List (Nat → Nat → Message)) (w : World) : Decidable (Trips p make w) :=
  inferInstanceAs (Decidable (_ ∧ ∃ m ∈ madeRows p make w, ∃ k ∈ uniqueKeys .messages m, _))

/-- An INSERT that trips an index fails. -/
theorem Trips.fails {ws : List Write} {i : Input} (h : Trips p make w) (hh : Held p ws w)
    (hi : i.fault = .none) : ∃ w', World.exec p i (.query .tx (.insert .messages make)) w =
      some (.error (.sql .uniqueViolation), w') := by
  obtain ⟨now, ht⟩ := hh
  obtain ⟨hf, m, hm, k, hk, hin⟩ := h
  simp only [Fitting, madeRows, ht] at hf hm
  have taken : ¬((schema.keysOf .messages (make.mapIdx fun i f => f (w.store.nextId + i) now)).Nodup ∧
      ∀ k ∈ schema.keysOf .messages (make.mapIdx fun i f => f (w.store.nextId + i) now),
        k ∉ schema.keysOf .messages (w.store.view p .messages)) := fun h =>
    h.2 k (List.mem_flatMap.2 ⟨m, hm, List.mem_cons_of_mem _ hk⟩) hin
  refine ⟨w.withStore (w.store.fail p), ?_⟩
  simp only [World.exec, World.query, hi, State.query, ht, Bool.false_eq_true, if_false,
    Schema.Stmt.plan, hf, if_neg taken, Option.map_some]
  rfl

/-- What is known where a send inserts its message. -/
theorem send_inserts (h : machine.Reachable (From w₀) P) {next : Except Err _ → App Response}
    (ht : P.threads p = some ⟨.send user cid body key,
      some (.op (.query .tx (.insert .messages make)) next)⟩) :
    ∃ cols conv, Boarded p user cid body key cols conv P.shared ∧
      Unused p user cid key conv P.shared ∧ Held p [] P.shared ∧
      make = [newMessage (inputOf user cid body key) (scan (trim body)) cols
        (conv.lastSequence + 1)] := by
  refine (sends_assert (C := fun o w => ∀ make, o = .query .tx (.insert .messages make) →
    ∃ cols conv, Boarded p user cid body key cols conv w ∧ Unused p user cid key conv w ∧
      Held p [] w ∧ make = [newMessage (inputOf user cid body key) (scan (trim body)) cols
        (conv.lastSequence + 1)]) h ⟨?_, ?_, ?_⟩ ht).1 _ _ rfl make rfl
  · rintro o ho w make rfl
    exact (ho rfl).elim
  · intro cols conv w _ hb hu hh make e
    cases e
    exact ⟨cols, conv, hb, hu, hh, rfl⟩
  · exact fun _ _ _ _ _ e => nomatch e

/-- A send fails on a unique index of the messages for one reason only: its key is the empty
string, and its sender has a message with that key in the conversation. -/
theorem send_trips_iff (h : machine.Reachable (From w₀) P) {next : Except Err _ → App Response}
    (ht : P.threads p = some ⟨.send user cid body key,
      some (.op (.query .tx (.insert .messages make)) next)⟩) :
    Trips p make P.shared ↔ Fitting p make P.shared ∧ key = some [] ∧
      ∃ m ∈ P.shared.store.db .messages, holdsKey cid user.sub [] m = true := by
  have hi := reached h
  obtain ⟨cols, conv, hb, hu, ⟨now, htx⟩, rfl⟩ := send_inserts h ht
  refine and_congr_right fun _ => ?_
  have view : P.shared.store.view p = P.shared.store.db := by
    simp [State.view, htx, Schema.Write.applyAll]
  simp only [view, madeRows, htx, List.mapIdx_cons, List.mapIdx_nil, List.mem_singleton,
    exists_eq_left, Nat.add_zero]
  constructor
  · rintro ⟨k, hk, hin⟩
    obtain ⟨m, hm, hkm⟩ := List.mem_flatMap.1 hin
    simp only [uniqueKeys, newMessage, List.mem_cons, Option.mem_toList, Option.map_eq_some_iff] at hk
    rcases hk with rfl | ⟨s, ⟨t, rfl, rfl⟩, rfl⟩
    · -- the counter of the conversation is ahead of its messages
      simp only [Schema.keys, primaryKey, uniqueKeys, List.mem_cons, reduceCtorEq, false_or,
        Option.mem_toList, Option.map_eq_some_iff, and_false, exists_false, or_false,
        Key.sequence.injEq] at hkm
      have number : (m : Message).sequence ∈ sequences P.shared.store.db conv.id :=
        List.mem_map.2 ⟨m, List.mem_filter.2 ⟨hm, by simp [← hkm.1, hb.named]⟩, rfl⟩
      rw [(hi.db.numbered conv hb.locked.row).mem_iff, ← hkm.2] at number
      have := (List.mem_range'_1.1 number).2
      omega
    · simp only [Schema.keys, primaryKey, uniqueKeys, List.mem_cons, reduceCtorEq, false_or,
        Option.mem_toList, Option.map_eq_some_iff, Key.idempotency.injEq] at hkm
      obtain ⟨s, hs, hc, hu', rfl⟩ := hkm
      cases t with
      | nil => exact ⟨rfl, m, hm, by simp [holdsKey, hc, hu', hs]⟩
      | cons u t => exact (hu.unused (u :: t) rfl m hm hc hu' hs).elim
  · rintro ⟨rfl, m, hm, hk⟩
    refine ⟨.idempotency cid user.sub (sent []), ?_, List.mem_flatMap.2 ⟨m, hm, ?_⟩⟩
    · simp [uniqueKeys, newMessage]
    · exact mem_keys_of_holdsKey hk

end Indexes

section Texts

variable [AesGcm] [TokenHash] {w₀ : World} {P : Run} {p : Nat} {user : AuthUser} {cid : Nat}
  {body : Utf16} {key : Option Utf16}

/-- The program answers with the text, or is about to broadcast it. -/
inductive Shows : App Response → Utf16 → Prop
  | answer (d : DecryptedMessage) : Shows (.pure (.message d)) d.body
  | event (id c senderId n : Nat) (t : Utf16) (createdAt : Nat)
      (next : Except Err Unit → App Response) :
      Shows (.op (.emit (.created id c senderId n t createdAt)) next) t

/-- What a send shows is the text of a reply. -/
theorem replies_of_shows (h : machine.Reachable (From w₀) P) {x : App Response} {t : Utf16}
    (ht : P.threads p = some ⟨.send user cid body key, some x⟩) (hx : Shows x t) :
    ∃ d, Replies user cid body key d P.shared ∧ t = d.body := by
  have asserts := sends_assert (C := fun o w => ∀ id c s n t at',
    o = .emit (.created id c s n t at') → ∃ d, Replies user cid body key d w ∧ t = d.body) h
    ⟨?_, (fun _ _ _ _ _ _ _ _ _ _ _ _ _ e => nomatch e), fun d w _ hr id c s n t at' e => ?_⟩ ht
  · cases hx with
    | answer d =>
      obtain ⟨d', hd, hr⟩ := asserts.2 _ rfl
      cases hd
      exact ⟨d, hr, rfl⟩
    | event id c s n t at' next =>
      exact asserts.1 (.emit (.created id c s n t at')) next rfl id c s n t at' rfl
  · rintro o ho w id c s n t at' rfl
    exact ho.elim
  · cases e
    exact ⟨d, hr, rfl⟩

/-- The row that is there now was stored by the insert of its identifier. -/
theorem same_of_id (hi : Inv w₀.store.db P.shared) {q q' : Nat} {m m' : Message}
    (hm : (q, Schema.Write.insert .messages m) ∈ P.shared.store.wal)
    (hm' : (q', Schema.Write.insert .messages m') ∈ P.shared.store.wal) (hid : m.id = m'.id) :
    q = q' ∧ m = m' :=
  hi.db.same_entry (t := .messages) (k := .id m.id) nofun (hi.ok.unique .messages) hm hm'
    (by simp [Schema.keys, primaryKey]) (by simp [Schema.keys, primaryKey, hid])

/-- A send with the key of a message that is there shows the text of its own body, and a list
shows the one that was stored: they agree just when the two bodies are cleaned to one text. -/
theorem retry_shows_original_iff (h : machine.Reachable (From w₀) P) {key : Utf16} (hkey : key ≠ [])
    {x : App Response} {t : Utf16}
    (ht : P.threads p = some ⟨.send user cid body (some key), some x⟩) (hx : Shows x t)
    {q : Nat} {m₀ m : Message} (hm₀ : (q, Schema.Write.insert .messages m₀) ∈ P.shared.store.wal)
    (hk : holdsKey cid user.sub key m₀ = true) {user₀ : AuthUser} {body₀ : Utf16}
    {key₀ : Option Utf16} (hq : P.shared.calls q = some (.send user₀ cid body₀ key₀))
    (hm : m ∈ P.shared.store.db .messages) (hid : m.id = m₀.id) (hv : gone m.status = false)
    {r : Nat} {reader : AuthUser} {after before limit : Option Utf16} {ms : List DecryptedMessage}
    {d : DecryptedMessage} (hl : P.threads r =
      some ⟨.list reader cid after before limit, some (.pure (.messages ms))⟩)
    (hd : d ∈ ms) (hdid : d.id = m.id) :
    t = d.body ↔ cleaned body = cleaned body₀ := by
  have hi := reached h
  have key_id : ∀ y : Message, Key.id y.id ∈ schema.keys .messages y := fun y => by
    simp [Schema.keys, primaryKey]
  have row : ∀ y ∈ P.shared.store.db .messages, (y : Message).id = m.id → y = m := fun y hy e =>
    Schema.eq_of_mem_flatMap (hi.ok.unique .messages) hy hm (key_id y) (e ▸ key_id m)
  -- what the send shows
  have shown : t = cleaned body := by
    obtain ⟨e, ⟨m₁, t₁, ⟨⟨⟨q₁, m', hm', hl', -⟩, m'', hm'', hl''⟩, hkeyed⟩, rfl, htext⟩, rfl⟩ :=
      replies_of_shows h ht hx
    have holds : holdsKey cid user.sub key m' = true := by
      simp [holdsKey, ← hl'.conversationId, ← hl'.senderId, ← hl'.idempotencyKey,
        hkeyed.conversation, hkeyed.sender, hkeyed.key key (truthy_some hkey)]
    obtain ⟨-, rfl⟩ := same_of_holdsKey hi hm' hm₀ holds hk
    obtain rfl := row m'' hm'' (hl''.id.trans (hl'.id.trans hid.symm))
    exact htext (by
      by_contra hg
      exact Bool.noConfusion (hv.symm.trans (hl''.stays (by simpa using hg))))
  -- what the list shows
  have listed : d.body = cleaned body₀ := by
    obtain ⟨-, ms', hms, hall, hsnap⟩ := (sound _ w₀).returned h hl
    cases hms
    obtain ⟨-, w₁, -, -, hkept, -, rows, ⟨_, _, -, hpage⟩, hrows⟩ := hsnap
    have mem_page : ∀ y ∈ rows, y ∈ w₁.store.db .messages := fun y hy => (pageRows_mem hpage y hy).1
    obtain ⟨m₂, hm₂, t₂, rfl⟩ := exists_left hrows hd
    obtain ⟨m₃, hm₃, hl₃⟩ := hkept .messages (by decide) m₂ (mem_page m₂ hm₂)
    have hl₃ : MessageLater m₂ m₃ := hl₃
    obtain rfl := row m₃ hm₃ (hl₃.id.trans hdid)
    have visible : gone m₂.status = false := by
      by_contra hg
      exact Bool.noConfusion (hv.symm.trans (hl₃.stays (by simpa using hg)))
    obtain ⟨q₂, m', user', body', key', hm', hid', hc, he⟩ := (hall _ hd).2 visible
    obtain ⟨rfl, rfl⟩ := same_of_id hi hm' hm₀ (hid'.trans (hdid.trans hid))
    have same := Option.some.inj (hc.symm.trans hq)
    obtain ⟨-, -, rfl, -⟩ : user' = user₀ ∧ m'.conversationId = cid ∧ body' = body₀ ∧
      key' = key₀ := by simpa using same
    exact he
  rw [shown, listed]

end Texts

section Example

variable {P : Run} {p : Nat}

/-- The messages a process is about to insert, and its call. -/
def inserting (P : Run) (p : Nat) : Option (Call × List (Nat → Nat → Message)) :=
  match P.threads p with
  | some ⟨k, some (.op (.query .tx (.insert .messages make)) _)⟩ => some (k, make)
  | _ => none

theorem thread_of_inserting {k : Call} {make : List (Nat → Nat → Message)}
    (h : inserting P p = some (k, make)) : ∃ next,
      P.threads p = some ⟨k, some (.op (.query .tx (.insert .messages make)) next)⟩ := by
  unfold inserting at h
  split at h
  · rename_i next ht
    cases h
    exact ⟨next, ht⟩
  · cases h

def thrown (P : Run) (p : Nat) : Option Err :=
  match P.threads p with
  | some ⟨_, some (.throw e)⟩ => some e
  | _ => none

def exampleEmptyKey : Call := .send ⟨2, .customer⟩ 10 (text "a") (some [])

/-- A second send with the empty key, up to its INSERT. -/
def sendEmptyKeys : List (Label Input Event Call) :=
  serve 0 exampleEmptyKey 15 ++ serve 1 exampleEmptyKey 6

def insertingAgain : Ran (runFrom exampleWorld sendEmptyKeys)
    (fun P => ((inserting P 1).map Prod.fst, (inserting P 1).any fun e => decide (Trips 1 e.2 P.shared),
      decide (Active P.shared.store.db 10 2),
      (exampleMachine.run [.exec 1 calm, .exec 1 calm] P).bind fun P' => thrown P' 1))
    (some exampleEmptyKey, true, true, some (.sql .uniqueViolation)) :=
  .of (by decide +kernel)

theorem send_trips_example : ∃ P make, runFrom exampleWorld sendEmptyKeys = some P ∧
    inserting P 1 = some (exampleEmptyKey, make) ∧
    (Trips 1 make P.shared ↔ Fitting 1 make P.shared ∧ some ([] : Utf16) = some [] ∧
      ∃ m ∈ P.shared.store.db .messages, holdsKey 10 2 [] m = true) := by
  obtain ⟨P, hP, hs⟩ := insertingAgain
  obtain ⟨⟨k, make⟩, hm, hk⟩ := Option.map_eq_some_iff.1 (Prod.mk.inj hs).1
  have hk : k = exampleEmptyKey := hk
  subst hk
  obtain ⟨next, ht⟩ := thread_of_inserting hm
  exact ⟨P, make, hP, hm, @send_trips_iff exampleCipher exampleHash _ _ _ _ _ _ _ _
    (reachable_runFrom initial_example hP) _ ht⟩

/-- The second message a participant sends with the empty key is refused. -/
theorem empty_key_is_refused : ∃ P P' make, exampleMachine.Reachable (From exampleWorld) P ∧
    Active P.shared.store.db 10 2 ∧ inserting P 1 = some (exampleEmptyKey, make) ∧
    Trips 1 make P.shared ∧ exampleMachine.run [.exec 1 calm, .exec 1 calm] P = some P' ∧
    thrown P' 1 = some (.sql .uniqueViolation) := by
  obtain ⟨P, hP, hs⟩ := insertingAgain
  simp only [Prod.mk.injEq, decide_eq_true_eq] at hs
  obtain ⟨hk, htrips, hactive, hthrown⟩ := hs
  obtain ⟨⟨k, make⟩, hm, rfl⟩ := Option.map_eq_some_iff.1 hk
  obtain ⟨P', hP', he⟩ := Option.bind_eq_some_iff.1 hthrown
  rw [hm] at htrips
  exact ⟨P, P', make, reachable_runFrom initial_example hP, hactive, hm, by simpa using htrips, hP', he⟩

/-- A retry with another text. -/
def exampleReword : Call := .send ⟨2, .customer⟩ 10 (text "b") (some (text "k"))

def replied (P : Run) (p : Nat) : Option DecryptedMessage :=
  match answer P p with
  | some (.message d) => some d
  | _ => none

theorem answer_of_replied {d : DecryptedMessage} (h : replied P p = some d) :
    answer P p = some (.message d) := by
  unfold replied at h
  split at h
  · rename_i ha
    cases h
    exact ha
  · cases h

def listing (P : Run) (p : Nat) : Option (List DecryptedMessage) :=
  match answer P p with
  | some (.messages ms) => some ms
  | _ => none

theorem answer_of_listing {ms : List DecryptedMessage} (h : listing P p = some ms) :
    answer P p = some (.messages ms) := by
  unfold listing at h
  split at h
  · rename_i ha
    cases h
    exact ha
  · cases h

/-- A send, a retry of it with another text, and a list. -/
def rewordThenList : List (Label Input Event Call) :=
  serve 0 exampleRetry 16 ++ serve 1 exampleReword 10 ++ serve 2 exampleList 3

/-- What the retry and the list show, and the rows of the table and of the first send. -/
structure Texts where
  replied : Option Utf16
  listed : Option (List (Nat × Utf16))
  rows : List (Nat × Bool)
  sent : List (Nat × Bool)
  deriving DecidableEq

def textsOf (P : Run) : Texts where
  replied := (replied P 1).map fun d => d.body
  listed := (listing P 2).map fun ds => ds.map fun d => (d.id, d.body)
  rows := (P.shared.store.db .messages).map fun (m : Message) => (m.id, gone m.status)
  sent := (sentBy 0 P.shared.store.wal).map fun m => (m.id, holdsKey 10 2 (text "k") m)

def rewordedThenListed : Ran (runFrom exampleWorld rewordThenList)
    (fun P => ([callOf P 0, callOf P 1, callOf P 2], textsOf P))
    ([some exampleRetry, some exampleReword, some exampleList],
      ⟨some (text "b"), some [(100, text "a")], [(100, false)], [(100, true)]⟩) :=
  .of (by decide +kernel)

theorem reworded_texts : ∃ P d ds e m m₀, runFrom exampleWorld rewordThenList = some P ∧
    callOf P 0 = some exampleRetry ∧ callOf P 1 = some exampleReword ∧
    callOf P 2 = some exampleList ∧ answer P 1 = some (.message d) ∧ d.body = text "b" ∧
    answer P 2 = some (.messages ds) ∧ e ∈ ds ∧ e.id = 100 ∧ e.body = text "a" ∧
    m ∈ P.shared.store.db .messages ∧ (m : Message).id = 100 ∧ gone (m : Message).status = false ∧
    m₀ ∈ sentBy 0 P.shared.store.wal ∧ m₀.id = 100 ∧ holdsKey 10 2 (text "k") m₀ = true := by
  obtain ⟨P, hP, hs⟩ := rewordedThenListed
  simp only [textsOf, Prod.mk.injEq, Texts.mk.injEq, List.cons.injEq, and_true, Option.map_eq_some_iff,
    List.map_eq_singleton_iff] at hs
  obtain ⟨⟨h0, h1, h2⟩, ⟨d, hd, hdb⟩, ⟨ds, hds, e, he, hei, heb⟩, ⟨m, hm, hmi, hmg⟩, m₀, hm₀, hmi₀,
    hk⟩ := hs
  exact ⟨P, d, ds, e, m, m₀, hP, h0, h1, h2, answer_of_replied hd, hdb, answer_of_listing hds,
    he ▸ List.mem_singleton_self e, hei, heb, hm ▸ List.mem_singleton_self m, hmi, hmg,
    hm₀ ▸ List.mem_singleton_self m₀, hmi₀, hk⟩

theorem retry_shows_original_example : ∃ P d ds e, runFrom exampleWorld rewordThenList = some P ∧
    answer P 1 = some (.message d) ∧ answer P 2 = some (.messages ds) ∧ e ∈ ds ∧
    (d.body = e.body ↔ cleaned (text "b") = cleaned (text "a")) := by
  obtain ⟨P, d, ds, e, m, m₀, hP, h0, h1, h2, hd, -, hds, he, hei, -, hm, hmi, hmg, hm₀, hmi₀,
    hk⟩ := reworded_texts
  have h := reachable_runFrom initial_example hP
  obtain ⟨code, ht⟩ := thread_of_callOf h0
  exact ⟨P, d, ds, e, hP, hd, hds, he, @retry_shows_original_iff exampleCipher exampleHash _ _ _ _ _
    _ h (text "k") (by decide +kernel) _ _ (thread_of_answer h1 hd) (.answer d) _ _ _
    (mem_sentBy hm₀) hk _ _ _ (@call_of_thread exampleCipher exampleHash _ _ _ _ h _ ht) hm
    (hmi.trans hmi₀.symm) hmg _ _ _ _ _ _ _ (thread_of_answer h2 hds) he (hei.trans hmi.symm)⟩

/-- A retry with another text answers with a text that no list shows. -/
theorem retry_shows_another_text : ∃ P d ds e m, exampleMachine.Reachable (From exampleWorld) P ∧
    callOf P 1 = some exampleReword ∧ answer P 1 = some (.message d) ∧
    callOf P 2 = some exampleList ∧ answer P 2 = some (.messages ds) ∧ e ∈ ds ∧ e.id = m.id ∧
    m ∈ P.shared.store.db .messages ∧ gone (m : Message).status = false ∧ d.body ≠ e.body := by
  obtain ⟨P, d, ds, e, m, m₀, hP, -, h1, h2, hd, hdb, hds, he, hei, heb, hm, hmi, hmg, -⟩ :=
    reworded_texts
  refine ⟨P, d, ds, e, m, reachable_runFrom initial_example hP, h1, hd, h2, hds, he,
    hei.trans hmi.symm, hm, hmg, ?_⟩
  rw [hdb, heb]
  decide +kernel

end Example

end Messageries.Guarantees
