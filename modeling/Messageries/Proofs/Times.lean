import Messageries.Proofs.Cursors
import Messageries.Proofs.Extension

set_option linter.unusedSectionVars false

namespace Messageries.Proofs

open Text Relational Database Crypto Concurrency Backend Moderation

section Stamps

/-- A write of a send in conversation `c`, of a transaction that started at `now`. -/
def Stamped (c now : Nat) : Write → Prop
  | .insert .messages m => (m : Message).createdAt = now
  | .update .conversations ks f => (∃ n, f = setLastMessage n now) ∧ ∀ k ∈ ks, k = .id c
  | _ => True

/-- The transactions of a send in conversation `c` write with their own time. -/
def Stamps (c : Nat) : Op → Prop
  | .query .tx s => ∀ v free id now, ∀ x ∈ (s.plan v free id now).writes, Stamped c now x
  | _ => True

variable {c : Nat}

theorem stamps_select {cn : Conn} {t : Table} (q : t.Row → Bool) :
    (select cn t q).Uses (Stamps c) := by
  refine (Prog.uses_perform _).2 ?_
  cases cn with
  | tx => exact fun _ _ _ _ x hx => nomatch hx
  | pool => trivial

theorem stamps_findOne {cn : Conn} {t : Table} (q : t.Row → Bool) :
    (findOne cn t q).Uses (Stamps c) :=
  (stamps_select q).bind fun _ => trivial

theorem stamps_lockRows {t : Table} (q : Nat → t.Row → Bool) (pick : List t.Row → List t.Row) :
    (lockRows .tx t q pick).Uses (Stamps c) :=
  (Prog.uses_perform _).2 fun _ _ _ _ _ hx => nomatch hx

theorem stamps_insertAll {cn : Conn} {t : Table} {make : List (Nat → Nat → t.Row)}
    (h : ∀ f ∈ make, ∀ id now, Stamped c now (.insert t (f id now))) :
    (insertAll cn t make).Uses (Stamps c) := by
  refine (Prog.uses_perform _).2 ?_
  cases cn with
  | pool => trivial
  | tx =>
    intro v free id now x hx
    obtain ⟨f, hf, i, rfl⟩ := Schema.Stmt.mem_plan_insert hx
    exact h f hf _ _

theorem stamps_insertOne {cn : Conn} {t : Table} {make : Nat → Nat → t.Row}
    (h : ∀ id now, Stamped c now (.insert t (make id now))) :
    (insertOne cn t make).Uses (Stamps c) := by
  refine (stamps_insertAll fun f hf => ?_).bind fun rows => ?_
  · rw [List.mem_singleton.1 hf]
    exact h
  · cases rows <;> trivial

theorem stamps_bump (n : Nat) : (bumpLastMessage .tx c n).Uses (Stamps c) := by
  refine Prog.Uses.bind ((Prog.uses_perform _).2 fun v free id now x hx => ?_) fun _ => trivial
  obtain ⟨rfl, -⟩ := Schema.Stmt.mem_plan_update hx
  refine ⟨⟨n, rfl⟩, fun k hk => ?_⟩
  obtain ⟨row, hrow, rfl⟩ := List.mem_map.1 hk
  exact congrArg Key.id (by simpa using (List.mem_filter.1 hrow).2)

theorem stamps_audit (actorId : Option Nat) (action targetType : String) (targetId : Option Nat)
    (metadata : List (String × Json)) :
    (audit actorId action targetType targetId metadata).Uses (Stamps c) :=
  any_audit fun _ => trivial

theorem stamps_onlyIf {P : Prop} [Decidable P] {x : App Unit} (hx : x.Uses (Stamps c)) :
    (onlyIf P x).Uses (Stamps c) :=
  any_onlyIf hx

theorem stamps_refuse {P : Prop} [Decidable P] {e : Err} :
    (onlyIf P (throw e)).Uses (Stamps c) :=
  stamps_onlyIf trivial

theorem stamps_access (user : AuthUser) : (assertCanAccess user c).Uses (Stamps c) := by
  refine (visits_assertCanAccess user c).mono fun o ho => ?_
  cases ho <;> trivial

section Send

variable [AesGcm]

theorem stamps_saveReceipts (messageId : Nat) (users : List Nat) :
    (saveReceipts messageId users).Uses (Stamps c) := by
  refine stamps_onlyIf ((stamps_select _).bind fun _ => stamps_onlyIf ?_)
  refine (stamps_insertAll (t := .receipts) fun f hf id now => ?_).bind fun _ => trivial
  obtain ⟨u, -, rfl⟩ := List.mem_map.1 hf
  trivial

theorem stamps_sendInTransaction {input : SendMessageInput} {scan : ScanResult}
    {cols : BodyColumns} (hc : input.conversationId = c) :
    (sendInTransaction input scan cols).Uses (Stamps c) := by
  subst hc
  refine (stamps_lockRows ..).bind fun rows => ?_
  cases rows.head? with
  | none => trivial
  | some conv =>
    refine stamps_refuse.bind fun _ => Prog.Uses.bind
      (.ite (fun _ => trivial) fun _ => trivial) fun _ => (stamps_findOne _).bind fun part => ?_
    cases part with
    | none => trivial
    | some part =>
      refine stamps_refuse.bind fun _ => Prog.Uses.bind ?_ fun existing => ?_
      · unfold findExisting
        split
        · trivial
        · refine (stamps_onlyIf ?_).bind fun _ => stamps_findOne _
          exact Prog.Uses.bind ((Prog.uses_perform _).2 fun _ _ _ _ x hx => nomatch hx)
            fun _ => trivial
      · cases existing with
        | some m => trivial
        | none =>
          refine (stamps_insertOne (t := .messages) ?_).bind fun msg => ?_
          · exact fun _ _ => rfl
          refine (stamps_select _).bind fun ps => (stamps_saveReceipts ..).bind fun _ => ?_
          refine (stamps_insertOne (t := .outbox) fun _ _ => trivial).bind fun _ => ?_
          exact (stamps_bump _).bind fun _ => (stamps_onlyIf (stamps_audit ..)).bind fun _ => trivial

theorem stamps_bodyColumns (cfg : Settings) (t : Utf16) : (bodyColumns cfg t).Uses (Stamps c) := by
  refine .ite (fun _ => ?_) fun _ => trivial
  refine Prog.Uses.bind (Prog.Uses.bind ?_ fun _ => ?_) fun _ => trivial
  · exact ((Prog.uses_perform _).2 trivial).bind fun _ => ((Prog.uses_perform _).2 trivial).bind
      fun _ => ((Prog.uses_perform _).2 trivial).bind fun _ => trivial
  · exact ((Prog.uses_perform _).2 trivial).bind fun _ => trivial

theorem stamps_send (input : SendMessageInput) : (send input).Uses (Stamps input.conversationId) := by
  refine Prog.Uses.bind ((Prog.uses_perform _).2 trivial) fun cfg => ?_
  refine stamps_refuse.bind fun _ => stamps_refuse.bind fun _ => ?_
  refine (stamps_bodyColumns ..).bind fun cols => Prog.Uses.bind ?_ fun m => ?_
  · refine Prog.Uses.tryCatch (Prog.Uses.bind ((Prog.uses_perform _).2 trivial) fun _ =>
      (stamps_sendInTransaction rfl).bind fun _ => ?_) fun _ => ?_
    · exact Prog.Uses.bind ((Prog.uses_perform _).2 trivial) fun _ => trivial
    · exact Prog.Uses.bind ((Prog.uses_perform _).2 trivial) fun _ => trivial
  · refine Prog.Uses.bind ?_ fun d => Prog.Uses.bind ?_ fun _ => trivial
    · refine Prog.Uses.bind ?_ fun _ => trivial
      exact .ite (fun _ => trivial) fun _ => .ite (fun _ => trivial) fun _ => trivial
    · exact ((Prog.uses_perform _).2 trivial).bind fun _ => .ite (fun _ => trivial) fun _ =>
        (Prog.uses_perform _).2 trivial

end Send

end Stamps

variable [AesGcm] [TokenHash]

section Runs

variable {g : Nat → Op → World → Prop} {w₀ : World}
  {P P' : Pool Op Op.Res Err World Call Response}

theorem timed_code (k : Call) :
    (code k).Uses fun o => ∀ user c body key, k = .send user c body key → Stamps c o := by
  by_cases hk : ∃ user c body key, k = .send user c body key
  · obtain ⟨user, c, body, key, rfl⟩ := hk
    refine Prog.Uses.mono (P := Stamps c) (fun o ho _ _ _ _ e => by cases e; exact ho) ?_
    exact (stamps_access user).bind fun _ => (stamps_send ⟨c, user.sub, body, key⟩).bind fun _ => trivial
  · exact (Prog.uses_true _).mono fun _ _ user c body key e => (hk ⟨user, c, body, key, e⟩).elim

/-- The open transaction of a send writes with its own time. -/
theorem stamped_reach (h : machine.Reach (From w₀) g P) {p : Nat} {user : AuthUser} {c : Nat}
    {body : Utf16} {key : Option Utf16} {x : Option (App Response)} {tx : Tx schema}
    (ht : P.threads p = some ⟨.send user c body key, x⟩) (htx : P.shared.store.tx p = some tx) :
    ∀ y ∈ tx.writes, Stamped c tx.now y := by
  intro y hy
  refine staged_reach (T := fun k now y => ∀ user c body key, k = .send user c body key →
    Stamped c now y) (fun k => (timed_code k).mono fun o ho s hs v free id now y hy user c body key
      hk => ?_) h ht htx y hy user c body key rfl
  subst hs
  exact ho user c body key hk v free id now y hy

end Runs

section Rows

variable {db₀ : Db} {w w' : World} {p : Nat} {new : List Write} {k : Call} {m : Message}
  {ks : List Key} {n : Nat}

/-- The times of a conversation agree with the numbers of its messages. -/
structure Timed (db : Db) : Prop where
  ordered : ∀ m ∈ db .messages, ∀ m' ∈ db .messages,
    (m : Message).conversationId = (m' : Message).conversationId →
    (m : Message).sequence ≤ (m' : Message).sequence →
      (m : Message).createdAt ≤ (m' : Message).createdAt
  latest : ∀ c ∈ db .conversations, ∀ m ∈ db .messages,
    (m : Message).conversationId = (c : Conversation).id →
    (m : Message).sequence = (c : Conversation).lastSequence →
      (c : Conversation).lastMessageAt = some (m : Message).createdAt
  bumped : ∀ c ∈ db .conversations, ∀ t, (c : Conversation).lastMessageAt = some t →
    ∃ m ∈ db .messages, (m : Message).conversationId = (c : Conversation).id ∧
      (m : Message).sequence = (c : Conversation).lastSequence ∧ (m : Message).createdAt = t

/-- No conversation goes back in time. -/
def Advancing (db db' : Db) : Prop :=
  ∀ c ∈ db .conversations, ∀ c' ∈ db' .conversations,
    (c' : Conversation).id = (c : Conversation).id →
      ∀ t, (c : Conversation).lastMessageAt = some t →
        ∃ t', (c' : Conversation).lastMessageAt = some t' ∧ t ≤ t'

theorem length_sequences {db : Db} (h : Numbered db) {c : Conversation}
    (hc : c ∈ db .conversations) : (sequences db c.id).length = c.lastSequence := by
  rw [(h c hc).length_eq, List.length_range']

theorem sequence_le {db : Db} (h : Numbered db) {c : Conversation} (hc : c ∈ db .conversations)
    (hm : m ∈ db .messages) (e : m.conversationId = c.id) : m.sequence ≤ c.lastSequence := by
  have listed : m.sequence ∈ sequences db c.id :=
    List.mem_map.2 ⟨m, List.mem_filter.2 ⟨hm, beq_iff_eq.2 e⟩, rfl⟩
  have := (List.mem_range'_1.1 ((h c hc).mem_iff.1 listed)).2
  omega

/-- The conversation of a stored message is stored. -/
theorem conversation_of_message (hi : Inv db₀ w) (hm : m ∈ w.store.db .messages) :
    ∃ c ∈ w.store.db .conversations, (c : Conversation).id = m.conversationId := by
  obtain ⟨q, m₀, hm₀, hl⟩ := inserted_message hi hm
  obtain ⟨c, hc, hid⟩ := (hi.db.sends q m₀ hm₀).conversation
  exact ⟨c, hc, hid.trans hl.conversationId.symm⟩

/-- Writes that store no message and leave the times alone. -/
def Timeless : Write → Prop
  | .insert .messages _ => False
  | .insert .conversations c => (c : Conversation).lastMessageAt = none
  | .update .messages _ f => ∃ k, Alters f k
  | .update .conversations _ f =>
    ∀ c : Conversation, (f.set c : Conversation).lastMessageAt = c.lastMessageAt
  | .delete t _ => t = .attachments
  | _ => True

theorem timeless_may {x : Write} (hk : ¬IsSend k) (hx : ∀ m, x ≠ .insert .messages m)
    (hm : May k x) : Timeless x := by
  cases x with
  | insert t r =>
    cases t
    case messages => exact hx r rfl
    case conversations => exact hm.2.2
    all_goals trivial
  | update t ks f =>
    cases t
    case messages => exact ⟨k, hm⟩
    case conversations => exact hm.2.2.resolve_left hk
    all_goals trivial
  | delete t ks => exact hm

/-- The number and the time of a message are never changed. -/
theorem alters_fixed {f : schema.Assign .messages} (h : Alters f k) (m : Message) :
    (f.set m : Message).conversationId = m.conversationId ∧
      (f.set m : Message).sequence = m.sequence ∧ (f.set m : Message).createdAt = m.createdAt := by
  cases k
  case softDelete =>
    obtain ⟨msg, stored, t, rfl⟩ := h
    exact ⟨rfl, rfl, rfl⟩
  case resolve =>
    obtain ⟨t, rfl⟩ := h
    exact ⟨rfl, rfl, rfl⟩
  case anonymize =>
    obtain ⟨t, rfl⟩ := h
    exact ⟨rfl, rfl, rfl⟩
  all_goals exact h.elim

theorem rows_of_timeless (h : ∀ x ∈ new, Timeless x) (db : Db) :
    (∃ F : Message → Message, Schema.Write.applyAll new db .messages = (db .messages).map F ∧
      ∀ m, (F m).conversationId = m.conversationId ∧ (F m).sequence = m.sequence ∧
        (F m).createdAt = m.createdAt) ∧
    ∃ (F : Conversation → Conversation) (rows : List Conversation),
      Schema.Write.applyAll new db .conversations = (db .conversations).map F ++ rows ∧
        (∀ c, (F c).id = c.id ∧ (F c).lastMessageAt = c.lastMessageAt) ∧
        ∀ c ∈ rows, c.lastMessageAt = none := by
  constructor
  · obtain ⟨F, rows, hdb, hF, hrows⟩ := applyAll_split (t := .messages)
      (S := fun (m m' : Message) => m'.conversationId = m.conversationId ∧
        m'.sequence = m.sequence ∧ m'.createdAt = m.createdAt) (N := fun _ => False)
      (fun _ => ⟨rfl, rfl, rfl⟩)
      (fun _ _ _ h h' => ⟨h'.1.trans h.1, h'.2.1.trans h.2.1, h'.2.2.trans h.2.2⟩)
      (fun _ _ _ hn => hn) (fun r hr => h _ hr)
      (fun ks f hf r => alters_fixed (h _ hf).choose_spec r) (fun ks hk => nomatch h _ hk) db
    obtain rfl : rows = [] := List.eq_nil_iff_forall_not_mem.2 hrows
    exact ⟨F, by rw [hdb, List.append_nil], hF⟩
  · exact applyAll_split (t := .conversations)
      (S := fun (c c' : Conversation) => c'.id = c.id ∧ c'.lastMessageAt = c.lastMessageAt)
      (N := fun (c : Conversation) => c.lastMessageAt = none) (fun _ => ⟨rfl, rfl⟩)
      (fun _ _ _ h h' => ⟨h'.1.trans h.1, h'.2.trans h.2⟩) (fun _ _ h hn => h.2.trans hn)
      (fun _ hr => h _ hr) (fun ks f hf c => ⟨Key.id.inj (f.key_set c), h _ hf c⟩)
      (fun ks hk => nomatch h _ hk) db

theorem sequences_map {db db' : Db} {F : Message → Message}
    (hdb : db' .messages = (db .messages).map F)
    (hF : ∀ m, (F m).conversationId = m.conversationId ∧ (F m).sequence = m.sequence ∧
      (F m).createdAt = m.createdAt) (c : Nat) : sequences db' c = sequences db c := by
  simp [sequences, hdb, List.filter_map, Function.comp_def, hF]

theorem timed_timeless (hi : Inv db₀ w) (hi' : Inv db₀ w')
    (hc : State.Commits p new w.store w'.store) (hn : ∀ x ∈ new, Timeless x)
    (h : Timed w.store.db) : Timed w'.store.db ∧ Advancing w.store.db w'.store.db := by
  obtain ⟨⟨F, hm, hF⟩, G, rows, hcs, hG, hrows⟩ := rows_of_timeless hn w.store.db
  rw [← hc.2] at hm hcs
  have stays : ∀ c ∈ w.store.db .conversations, G c ∈ w'.store.db .conversations := fun c hcm =>
    hcs ▸ List.mem_append_left _ (List.mem_map_of_mem hcm)
  have numbers : ∀ c ∈ w.store.db .conversations,
      (G c).lastSequence = (c : Conversation).lastSequence := by
    intro c hcm
    rw [← length_sequences hi'.db.numbered (stays c hcm), ← length_sequences hi.db.numbered hcm,
      (hG c).1, sequences_map hm hF]
  have old : ∀ m' ∈ w'.store.db .messages, ∃ m ∈ w.store.db .messages, F m = m' := by
    intro m' hm'
    rw [hm] at hm'
    exact List.mem_map.1 hm'
  refine ⟨⟨fun m₁ h₁ m₂ h₂ e hle => ?_, fun c' hc' m' hm' e hs => ?_, fun c' hc' t ht => ?_⟩,
    fun c hcm c' hc' e t ht => ?_⟩
  · obtain ⟨a, ha, rfl⟩ := old m₁ h₁
    obtain ⟨b, hb, rfl⟩ := old m₂ h₂
    rw [(hF a).1, (hF b).1] at e
    rw [(hF a).2.1, (hF b).2.1] at hle
    rw [(hF a).2.2, (hF b).2.2]
    exact h.ordered a ha b hb e hle
  · obtain ⟨m, hmem, rfl⟩ := old m' hm'
    obtain ⟨c, hcm, hid⟩ := conversation_of_message hi hmem
    obtain rfl : G c = c' := same_conversation hi' (stays c hcm) hc'
      ((hG c).1.trans (hid.trans ((hF m).1.symm.trans e)))
    rw [(hG c).2, (hF m).2.2]
    refine h.latest c hcm m hmem hid.symm ?_
    rw [← (hF m).2.1, hs, numbers c hcm]
  · rw [hcs] at hc'
    rcases List.mem_append.1 hc' with hc' | hc'
    · obtain ⟨c, hcm, rfl⟩ := List.mem_map.1 hc'
      obtain ⟨m, hmem, e, hs, hat⟩ := h.bumped c hcm t ((hG c).2.symm.trans ht)
      exact ⟨F m, hm ▸ List.mem_map_of_mem hmem, (hF m).1.trans (e.trans (hG c).1.symm),
        (hF m).2.1.trans (hs.trans (numbers c hcm).symm), (hF m).2.2.trans hat⟩
    · cases (hrows c' hc').symm.trans ht
  · obtain rfl : G c = c' := same_conversation hi' (stays c hcm) hc' ((hG c).1.trans e.symm)
    exact ⟨t, (hG c).2.trans ht, le_rfl⟩

/-- What a send makes of the rows. -/
structure Sends (db db' : Db) (m : Message) (ks : List Key) (n : Nat) : Prop where
  messages : db' .messages = db .messages ++ [m]
  conversations : db' .conversations = (db .conversations).map fun c =>
    if schema.key .conversations c ∈ ks then (setLastMessage n m.createdAt).set c else c
  keys : ∀ key ∈ ks, key = .id m.conversationId

theorem Sends.sequences {db db' : Db} (h : Sends db db' m ks n) (c : Nat) :
    Proofs.sequences db' c =
      Proofs.sequences db c ++ if m.conversationId = c then [m.sequence] else [] := by
  rw [Proofs.sequences, h.messages, List.filter_append, List.map_append, Proofs.sequences]
  by_cases e : m.conversationId = c <;> simp [e]

/-- The conversation of the message takes its time and its number; the others stay. -/
theorem Sends.cases {db db' : Db} (h : Sends db db' m ks n) (hn : Numbered db)
    (hn' : Numbered db') {c' : Conversation} (hc' : c' ∈ db' .conversations) :
    ∃ c ∈ db .conversations, c'.id = (c : Conversation).id ∧
      ((c' = c ∧ m.conversationId ≠ (c : Conversation).id) ∨
        (m.conversationId = (c : Conversation).id ∧ c'.lastMessageAt = some m.createdAt ∧
          c'.lastSequence = m.sequence ∧ m.sequence = (c : Conversation).lastSequence + 1)) := by
  have hmem := hc'
  rw [h.conversations] at hmem
  obtain ⟨c, hc, rfl⟩ := List.mem_map.1 hmem
  have numbers := length_sequences hn hc
  have numbers' := length_sequences hn' hc'
  have perm' := hn' _ hc'
  refine ⟨c, hc, ?_⟩
  split
  · rename_i hin
    have named : m.conversationId = c.id := (Key.id.inj (h.keys _ hin)).symm
    have same : ((setLastMessage n m.createdAt).set c : Conversation).id = c.id := rfl
    have last : ((setLastMessage n m.createdAt).set c : Conversation).lastSequence = n := rfl
    rw [if_pos hin, same, h.sequences, if_pos named, last] at numbers' perm'
    have next : n = c.lastSequence + 1 := by simpa [numbers] using numbers'.symm
    subst next
    rw [List.range'_concat] at perm'
    have single := (List.perm_append_left_iff _).1
      (((hn c hc).append_right [m.sequence]).symm.trans perm')
    have seq : m.sequence = c.lastSequence + 1 := by
      have := List.singleton_perm_singleton.1 single
      omega
    exact ⟨rfl, .inr ⟨named, rfl, last.trans seq.symm, seq⟩⟩
  · rename_i hout
    refine ⟨rfl, .inl ⟨rfl, fun named => ?_⟩⟩
    rw [if_neg hout, h.sequences, if_pos named] at numbers'
    simp [numbers] at numbers'

theorem timed_sends (hi : Inv db₀ w) (hi' : Inv db₀ w')
    (hs : Sends w.store.db w'.store.db m ks n)
    (hle : ∀ m' ∈ w.store.db .messages, (m' : Message).conversationId = m.conversationId →
      (m' : Message).createdAt ≤ m.createdAt) (h : Timed w.store.db) :
    Timed w'.store.db ∧ Advancing w.store.db w'.store.db := by
  have stored : ∀ m' ∈ w'.store.db .messages, m' ∈ w.store.db .messages ∨ m' = m := by
    intro m' hm'
    rw [hs.messages] at hm'
    exact (List.mem_append.1 hm').imp_right List.mem_singleton.1
  have keeps : ∀ m' ∈ w.store.db .messages, m' ∈ w'.store.db .messages := fun m' hm' =>
    hs.messages ▸ List.mem_append_left _ hm'
  have here : m ∈ w'.store.db .messages :=
    hs.messages ▸ List.mem_append_right _ (List.mem_singleton_self _)
  -- the new message comes last
  have beyond : ∀ m' ∈ w.store.db .messages, (m' : Message).conversationId = m.conversationId →
      (m' : Message).sequence < m.sequence := by
    intro m' hm' e
    obtain ⟨c', hc', hid⟩ := conversation_of_message hi' here
    obtain ⟨c, hc, hid', ⟨-, hne⟩ | ⟨-, -, -, hseq⟩⟩ :=
      hs.cases hi.db.numbered hi'.db.numbered hc'
    · exact (hne (hid.symm.trans hid')).elim
    · have := sequence_le hi.db.numbered hc hm' (e.trans (hid.symm.trans hid'))
      omega
  refine ⟨⟨fun m₁ h₁ m₂ h₂ e hle' => ?_, fun c' hc' m' hm' e hseq => ?_, fun c' hc' t ht => ?_⟩,
    fun c hc c' hc' e t ht => ?_⟩
  · rcases stored m₁ h₁ with h₁ | rfl
    · rcases stored m₂ h₂ with h₂ | rfl
      · exact h.ordered m₁ h₁ m₂ h₂ e hle'
      · exact hle m₁ h₁ e
    · rcases stored m₂ h₂ with h₂ | rfl
      · exact absurd hle' (not_le.2 (beyond m₂ h₂ e.symm))
      · exact le_rfl
  · obtain ⟨c, hc, hid, ⟨rfl, hne⟩ | ⟨hin, hat, hlast, hnext⟩⟩ :=
      hs.cases hi.db.numbered hi'.db.numbered hc'
    · rcases stored m' hm' with hm' | rfl
      · exact h.latest c' hc m' hm' e hseq
      · exact (hne e).elim
    · rcases stored m' hm' with hm' | rfl
      · have := beyond m' hm' (e.trans (hid.trans hin.symm))
        omega
      · exact hat
  · obtain ⟨c, hc, hid, ⟨rfl, -⟩ | ⟨hin, hat, hlast, -⟩⟩ :=
      hs.cases hi.db.numbered hi'.db.numbered hc'
    · obtain ⟨m', hm', hm⟩ := h.bumped c' hc t ht
      exact ⟨m', keeps m' hm', hm⟩
    · exact ⟨m, here, hin.trans hid.symm, hlast.symm, Option.some.inj (hat.symm.trans ht)⟩
  · obtain ⟨c₁, hc₁, hid, hcase⟩ := hs.cases hi.db.numbered hi'.db.numbered hc'
    obtain rfl : c₁ = c := same_conversation hi hc₁ hc (hid.symm.trans e)
    rcases hcase with ⟨rfl, -⟩ | ⟨hin, hat, -, -⟩
    · exact ⟨t, ht, le_rfl⟩
    · obtain ⟨m', hm', hconv, -, rfl⟩ := h.bumped c₁ hc₁ t ht
      exact ⟨_, hat, hle m' hm' (hconv.trans hin.symm)⟩

end Rows

section Block

variable {db₀ : Db} {w w' : World} {p : Nat} {new : List Write} {k : Call}

/-- What is written to a table depends on its rows only. -/
theorem apply_congr (x : Write) {t : Table} {db db' : Db} (h : db t = db' t) :
    x.apply db t = x.apply db' t := by
  by_cases e : writesTo x = t
  · subst e
    cases x with
    | insert t r => simp [writesTo] at h ⊢; rw [h]
    | update t ks f => simp [writesTo] at h ⊢; rw [h]
    | delete t ks => simp [writesTo] at h ⊢; rw [h]
  · rw [apply_apart e, apply_apart e, h]

theorem applyAll_congr {ws : List Write} {t : Table} {db db' : Db} (h : db t = db' t) :
    Schema.Write.applyAll ws db t = Schema.Write.applyAll ws db' t := by
  induction ws generalizing db db' with
  | nil => exact h
  | cons x ws ih =>
    rw [Schema.Write.applyAll_cons, Schema.Write.applyAll_cons]
    exact ih (apply_congr x h)

theorem applyAll_filter {q : Table → Bool} {ws : List Write} {t : Table} (ht : q t = true)
    (db : Db) : Schema.Write.applyAll (ws.filter fun x => q (writesTo x)) db t =
      Schema.Write.applyAll ws db t := by
  induction ws generalizing db with
  | nil => rfl
  | cons x ws ih =>
    rw [List.filter_cons, Schema.Write.applyAll_cons]
    split
    · rw [Schema.Write.applyAll_cons, ih]
    · rename_i hx
      have apart : x.apply db t = db t := apply_apart (fun e => hx (by rw [e, ht])) db
      rw [← ih]
      exact applyAll_congr apart.symm

/-- What a step of a send writes to its tables is the block of one message. -/
theorem send_block (hi : Inv db₀ w) (hi' : Inv db₀ w')
    (hc : State.Commits p new w.store w'.store) (hk : w.calls p = some k)
    (hk' : w'.calls p = some k) (hs : IsSend k) (hx : ∃ x ∈ new, ofSend (writesTo x) = true) :
    ∃ m users e ks f, new.filter (fun x => ofSend (writesTo x)) = delivery m users e ks f := by
  obtain ⟨x, hxn, hxs⟩ := hx
  have logged : (p, x) ∈ w'.store.wal := hc.1 ▸ List.mem_append_right _ (List.mem_map_of_mem hxn)
  obtain ⟨m, hm⟩ := hi'.db.attributed p k hk' hs ⟨x, logged, hxs⟩
  obtain ⟨users, e, ks, f, hown⟩ := (hi'.db.delivered p m hm).own
  rw [hc.1, own_append, own_map_self] at hown
  have none : own p w.store.wal = [] := by
    by_contra hne
    have wrote : ∃ y, (p, y) ∈ w.store.wal ∧ ofSend (writesTo y) = true := by
      by_contra hno
      refine hne (own_eq_nil.2 fun y hy => ?_)
      exact Bool.eq_false_iff.2 fun hy' => hno ⟨y, hy, hy'⟩
    obtain ⟨m₀, hm₀⟩ := hi.db.attributed p k hk hs wrote
    obtain ⟨users₀, e₀, ks₀, f₀, hown₀⟩ := (hi.db.delivered p m₀ hm₀).own
    rw [hown₀] at hown
    have rest := delivery_eq_append hown.symm
    have mem : x ∈ new.filter fun x => ofSend (writesTo x) := List.mem_filter.2 ⟨hxn, hxs⟩
    rw [rest] at mem
    cases mem
  rw [none, List.nil_append] at hown
  exact ⟨m, users, e, ks, f, hown⟩

end Block

end Messageries.Proofs
