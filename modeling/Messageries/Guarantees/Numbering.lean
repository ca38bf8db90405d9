import Messageries.Proofs.Calls

set_option linter.unusedSectionVars false

namespace Messageries.Guarantees

open Text Relational Database Crypto Concurrency Backend Moderation Proofs

abbrev Run := Pool Op Op.Res Err World Call Response

section Numbering

variable [AesGcm] [TokenHash] {w₀ : World} {P : Run}

/-- The invariant of a run, in the state it came to. -/
theorem reached {g : Nat → Op → World → Prop} (h : machine.Reach (From w₀) g P) :
    Inv w₀.store.db P.shared :=
  (sound g w₀).inv h

/-- The messages of a conversation are numbered 1, 2, ... up to its counter. -/
theorem messages_numbered (h : machine.Reachable (From w₀) P) :
    ∀ c ∈ P.shared.store.db .conversations,
      (sequences P.shared.store.db (c : Conversation).id).Perm
        (List.range' 1 (c : Conversation).lastSequence) :=
  (reached h).db.numbered

end Numbering

section Example

/-- What AES-256-GCM adds to a text under the key and the vector of zero bytes. -/
def keystream : Bytes :=
  [206, 167, 64, 61, 77, 96, 107, 110, 7, 78, 197, 211, 186, 243, 157, 24, 114, 96, 3, 202, 55,
    166, 42, 116, 209, 162, 245, 142, 117, 6, 53, 142]

/-- Its tags of the texts `a`, `b` and of 32 zero bytes. -/
def exampleTag (ct : Bytes) : Bytes :=
  if ct = [175] then
    [82, 236, 111, 97, 213, 241, 52, 198, 28, 6, 73, 6, 133, 228, 88, 75]
  else if ct = [172] then
    [150, 152, 226, 102, 222, 83, 112, 80, 148, 249, 71, 224, 23, 67, 53, 14]
  else if ct = keystream then
    [209, 211, 8, 76, 153, 170, 138, 159, 218, 187, 62, 131, 235, 40, 193, 93]
  else List.replicate 16 0

theorem length_exampleTag (ct : Bytes) : (exampleTag ct).length = 16 := by
  unfold exampleTag
  split
  · rfl
  · split
    · rfl
    · split
      · rfl
      · rfl

def masked (pt : Bytes) : Bytes := pt.mapIdx fun i b => b ^^^ keystream.getD (i % 32) 0

theorem masked_masked (pt : Bytes) : masked (masked pt) = pt := by
  refine List.ext_getElem (by simp [masked]) fun i _ _ => ?_
  simp [masked, UInt8.xor_assoc]

/-- The cipher on the inputs of the runs below, which seal with zero bytes only. -/
@[reducible] def exampleCipher : AesGcm where
  encrypt _ _ pt := (masked pt, exampleTag (masked pt))
  decrypt _ _ tag ct := if tag = exampleTag ct then some (masked ct) else none
  decrypt_encrypt pt _ _ := by simp [masked_masked]
  tag_length _ _ pt := length_exampleTag (masked pt)

def exampleKms : LocalKmsProvider where
  keys := [(text "k1", List.replicate 32 0)]
  active := text "k1"
  wellFormed := by decide +kernel
  active_mem := by decide +kernel

def exampleSettings : Settings where
  encryptMessageBody := false
  maxMessageLength := 4000
  natsEnabled := false
  searchEnabled := false
  wsGatewayDedicated := false
  clamavEnabled := false
  maxAttachmentMb := 10
  emailThrottleMinutes := 15
  appUrl := text "http://localhost"
  jwtRefreshTtl := 3600

def exampleUser (id : Nat) (role : Role) : User :=
  ⟨id, text "u@example.org", text "hash", role, none, none, false, none, none, 0⟩

def exampleConversation : Conversation :=
  ⟨10, 1, .opened, none, none, 0, 0, false, none, false, none⟩

/-- A customer, a seller, their order and its conversation. -/
def exampleDb : Db
  | .users => [exampleUser 2 .customer, exampleUser 3 .seller]
  | .orders => [⟨1, text "A1", 2, 3⟩]
  | .conversations => [exampleConversation]
  | .participants => [⟨10, 2, .customer, 0, none, 0⟩, ⟨10, 3, .seller, 0, none, 0⟩]
  | _ => []

/-- A first state with the rows `db`. -/
def worldOf (db : Db) (cfg : Settings) : World where
  store := ⟨db, fun _ => none, fun _ _ => none, [], 100⟩
  clock := 0
  settings := cfg
  kms := exampleKms
  keyLog := [(exampleKms.active, exampleKms.activeKey)]
  dekCache := []
  documents := []
  nats := fun _ => ⟨false, false, false⟩
  streamExists := false
  stream := []
  broadcasts := []
  mails := []
  objects := []
  calls := fun _ => none
  arrived := fun _ => 0
  notes := []

def isVoid : Table → Bool
  | .messages | .outbox | .receipts | .refreshTokens | .attachments | .groups | .mlsMessages => true
  | _ => false

theorem initial_worldOf {db : Db} {cfg : Settings} (hu : ∀ t, (schema.keysOf t (db t)).Nodup)
    (hv : ∀ t, isVoid t = true → db t = [])
    (hc : ∀ c ∈ db .conversations, (c : Conversation).e2eeEnabled = false ∧
      (c : Conversation).lastSequence = 0 ∧ (c : Conversation).id < 100)
    (hs : ∀ r ∈ db .participants, Exists db (r : ConversationParticipant).conversationId) :
    Initial (worldOf db cfg) where
  ok := ⟨hu, nofun, nofun, nofun⟩
  idle := fun _ => rfl
  wal := rfl
  calls := fun _ => rfl
  messages := hv .messages rfl
  outbox := hv .outbox rfl
  receipts := hv .receipts rfl
  refreshTokens := hv .refreshTokens rfl
  attachments := hv .attachments rfl
  groups := hv .groups rfl
  mlsMessages := hv .mlsMessages rfl
  plain := fun c hm => (hc c hm).1
  unnumbered := fun c hm => (hc c hm).2.1
  seated := hs
  fresh := fun c hm => (hc c hm).2.2
  keyLog := rfl
  cache := rfl
  arrived := fun _ => rfl
  stream := rfl
  notes := rfl
  mails := rfl

abbrev exampleWorld : World := worldOf exampleDb exampleSettings

theorem void_exampleDb (t : Table) (h : isVoid t = true) : exampleDb t = [] := by
  cases t
  case messages | outbox | receipts | refreshTokens | attachments | groups | mlsMessages => rfl
  all_goals cases h

theorem initial_example {cfg : Settings} : Initial (worldOf exampleDb cfg) := by
  refine initial_worldOf (fun t => by cases t <;> decide +kernel) void_exampleDb
    (by decide +kernel) fun r hr => ⟨exampleConversation, List.mem_singleton_self _, ?_⟩
  revert r
  decide +kernel

/-- Nothing fails, and the random bytes are zero. -/
def calm : Input := ⟨.none, fun _ => 0, fun _ => false, []⟩

/-- Process `p` serves the call alone, in `n` steps. -/
def serve (p : Nat) (k : Call) (n : Nat) : List (Label Input Event Call) :=
  .enter p k :: List.replicate n (.exec p calm)

/-- What SHA-256 makes of the tokens of 48 zero bytes, of 48 ones and of 48 twos. -/
@[reducible] def exampleHash : TokenHash where
  hash token :=
    if token = List.replicate 48 0 then
      [213, 62, 218, 122, 99, 124, 153, 204, 127, 181, 102, 217, 110, 159, 161, 9, 191, 21,
       196, 120, 65, 10, 63, 94, 180, 212, 196, 226, 108, 208, 129, 246]
    else if token = List.replicate 48 1 then
      [128, 245, 63, 68, 140, 0, 2, 213, 43, 160, 4, 183, 140, 166, 87, 194, 120, 231, 53, 193,
       71, 172, 169, 183, 86, 104, 87, 206, 143, 57, 157, 17]
    else if token = List.replicate 48 2 then
      [103, 212, 225, 74, 188, 200, 133, 88, 46, 231, 172, 173, 135, 173, 16, 46, 96, 174, 214,
       243, 203, 175, 117, 235, 68, 157, 205, 88, 11, 8, 171, 83]
    else []

abbrev exampleMachine : Machine Op Op.Res Err World Input Event Call Response :=
  @machine exampleCipher exampleHash

abbrev runFrom (w : World) (ls : List (Label Input Event Call)) : Option Run :=
  exampleMachine.run ls ⟨w, fun _ => none⟩

theorem reachable_runFrom {w : World} {ls : List (Label Input Event Call)} {P : Run}
    (hw : Initial w) (h : runFrom w ls = some P) : exampleMachine.Reachable (From w) P := by
  have start : exampleMachine.Reachable (From w) ⟨w, fun _ => none⟩ := .init ⟨hw, rfl⟩
  exact Machine.Reachable.run start h

/-- What a call answered with, once it returned. -/
def answer (P : Run) (p : Nat) : Option Response :=
  match P.threads p with
  | some ⟨_, some (.pure r)⟩ => some r
  | _ => none

def callOf (P : Run) (p : Nat) : Option Call := (P.threads p).map Thread.call

theorem thread_of_callOf {P : Run} {p : Nat} {k : Call} (h : callOf P p = some k) :
    ∃ code, P.threads p = some ⟨k, code⟩ := by
  obtain ⟨⟨k', code⟩, ht, rfl⟩ := Option.map_eq_some_iff.1 h
  exact ⟨code, ht⟩

theorem thread_of_answer {P : Run} {p : Nat} {k : Call} {r : Response} (hk : callOf P p = some k)
    (hr : answer P p = some r) : P.threads p = some ⟨k, some (.pure r)⟩ := by
  obtain ⟨code, ht⟩ := thread_of_callOf hk
  rw [answer, ht] at hr
  split at hr
  · rename_i he
    cases hr
    cases he
    exact ht
  · cases hr

/-- The messages process `p` inserted. -/
def sentBy (p : Nat) (wal : Wal) : List Message :=
  wal.filterMap fun
    | (q, .insert .messages m) => if q = p then some m else none
    | _ => none

theorem mem_sentBy {p : Nat} {wal : Wal} {m : Message} (h : m ∈ sentBy p wal) :
    (p, Schema.Write.insert .messages m) ∈ wal := by
  obtain ⟨e, he, hm⟩ := List.mem_filterMap.1 h
  split at hm
  · split at hm
    · rename_i hq
      cases hm
      subst hq
      exact he
    · cases hm
  · cases hm

/-- A run that was made, and what is seen of its end. -/
structure Ran {α : Type} (o : Option Run) (f : Run → α) (a : α) where
  run : Run
  ran : o = some run
  sees : f run = a

def Ran.of {α : Type} {f : Run → α} {a : α} : {o : Option Run} → o.map f = some a → Ran o f a
  | some P, h => ⟨P, rfl, Option.some.inj h⟩

/-- A run whose operations pass the test `b`. -/
abbrev passFrom (b : Nat → Op → World → Bool) (w : World) (ls : List (Label Input Event Call)) :
    Option Run :=
  exampleMachine.passing b ls ⟨w, fun _ => none⟩

theorem reach_passFrom {b : Nat → Op → World → Bool} {g : Nat → Op → World → Prop} {w : World}
    {ls : List (Label Input Event Call)} {P : Run} (hw : Initial w)
    (hb : ∀ p o w, b p o w = true → g p o w) (h : passFrom b w ls = some P) :
    exampleMachine.Reach (From w) g P := by
  have start : exampleMachine.Reach (From w) g ⟨w, fun _ => none⟩ := .init ⟨hw, rfl⟩
  exact start.passing hb h

def exampleSend : Call := .send ⟨2, .customer⟩ 10 (text "a") none

def sendTwice : Ran (runFrom exampleWorld (serve 0 exampleSend 15 ++ serve 1 exampleSend 15))
    (fun P => sequences P.shared.store.db 10) [1, 2] :=
  .of (by decide +kernel)

theorem messages_numbered_example :
    ∃ P, runFrom exampleWorld (serve 0 exampleSend 15 ++ serve 1 exampleSend 15) = some P ∧
      sequences P.shared.store.db 10 = [1, 2] ∧
      ∀ c ∈ P.shared.store.db .conversations,
        (sequences P.shared.store.db (c : Conversation).id).Perm
          (List.range' 1 (c : Conversation).lastSequence) := by
  obtain ⟨P, hP, hs⟩ := sendTwice
  exact ⟨P, hP, hs, @messages_numbered exampleCipher exampleHash _ _
    (reachable_runFrom initial_example hP)⟩

end Example

end Messageries.Guarantees
