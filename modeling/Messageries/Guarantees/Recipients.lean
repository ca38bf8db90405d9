import Messageries.Concurrency.Amid
import Messageries.Guarantees.Numbering
import Messageries.Proofs.Special

set_option linter.unusedSectionVars false

namespace Messageries.Guarantees

open Text Relational Database Crypto Concurrency Backend Moderation Proofs

section Meanwhile

/-- No notification has an identifier that is still to be given. -/
def UnusedIds (w : World) : Prop :=
  ∀ e ∈ w.store.db .emails, (e : EmailNotification).id < w.store.nextId

/-- What stays while the notices of a message go out, whoever acts. -/
structure Meanwhile (w w' : World) : Prop where
  emails : ∀ e ∈ w.store.db .emails, e ∈ w'.store.db .emails
  conversations : ∀ c, Exists w.store.db c → Exists w'.store.db c
  unused : UnusedIds w → UnusedIds w'

theorem Meanwhile.refl (w : World) : Meanwhile w w := ⟨fun _ h => h, fun _ h => h, id⟩

theorem Meanwhile.trans {w w' w'' : World} (h : Meanwhile w w') (h' : Meanwhile w' w'') :
    Meanwhile w w'' :=
  ⟨fun e he => h'.emails e (h.emails e he), fun c hc => h'.conversations c (h.conversations c hc),
    fun hu => h'.unused (h.unused hu)⟩

variable {w w' : World} {p : Nat} {i : Input}

theorem Meanwhile.of_store (h : w'.store = w.store) : Meanwhile w w' := by
  refine ⟨fun e he => ?_, fun c hc => ?_, fun hu => ?_⟩
  · rwa [h]
  · rwa [h]
  · rwa [UnusedIds, h]

end Meanwhile

section Notices

variable [AesGcm] [TokenHash] {w w' : World} {p : Nat} {i : Input} {tr : List World}
  {messageId userId conversationId : Nat}

/-- A row with the key of the message and the user. -/
def KeyTaken (messageId userId : Nat) (w : World) : Prop :=
  ∃ e ∈ w.store.db .emails, (e : EmailNotification).dedupKey = dedupKey messageId userId

theorem mem_noticeKeys {n : EmailNotification} {k : Key} :
    k ∈ schema.keys .emails n ↔ k = .id n.id ∨ k = .dedup n.dedupKey := by
  simp [Schema.keys, primaryKey, uniqueKeys]

/-- A notice that hits a unique index finds its key in use. -/
theorem taken_of_violation {n : EmailNotification} (hn : n.id = w.store.nextId)
    (hk : n.dedupKey = dedupKey messageId userId) (hu : UnusedIds w)
    (h : ¬((schema.keysOf .emails [n]).Nodup ∧
      ∀ k ∈ schema.keysOf .emails [n], k ∉ schema.keysOf .emails (w.store.db .emails))) :
    KeyTaken messageId userId w := by
  by_contra hfree
  refine h ⟨by simp [Schema.keysOf, Schema.keys, primaryKey, uniqueKeys], fun k hin hin' => ?_⟩
  obtain ⟨e, he, hke⟩ := List.mem_flatMap.1 hin'
  rw [Schema.keysOf, List.flatMap_singleton, mem_noticeKeys] at hin
  rcases hin with rfl | rfl
  · rcases mem_noticeKeys.1 hke with hid | hid
    · have := hu e he
      rw [Key.id.injEq] at hid
      omega
    · cases hid
  · rcases mem_noticeKeys.1 hke with hid | hid
    · cases hid
    · rw [Key.dedup.injEq] at hid
      exact hfree ⟨e, he, hid.symm.trans hk⟩

/-- The store with one more notice. -/
def recorded (p : Nat) (n : EmailNotification) (st : State schema) : State schema :=
  { st.write p [.insert .emails n] with nextId := st.nextId + 1 }

theorem meanwhile_recorded {n : EmailNotification} (hn : n.id = w.store.nextId) :
    Meanwhile w (w.withStore (recorded p n w.store)) ∧ n ∈ (recorded p n w.store).db .emails := by
  have db : (recorded p n w.store).db =
    (Schema.Write.insert .emails n : Write).apply w.store.db := rfl
  have emails : (recorded p n w.store).db .emails = w.store.db .emails ++ [n] := by
    rw [db]
    exact Schema.Write.apply_insert ..
  have others : (recorded p n w.store).db .conversations = w.store.db .conversations := by
    rw [db]
    exact Schema.Write.apply_insert_of_ne _ _ nofun
  refine ⟨⟨fun e he => ?_, fun c hc => ?_, fun hu e he => ?_⟩, ?_⟩
  · exact emails ▸ List.mem_append_left _ he
  · exact hc.imp fun d hd => ⟨others ▸ hd.1, hd.2⟩
  · have he : e ∈ w.store.db .emails ++ [n] := emails ▸ he
    show (e : EmailNotification).id < w.store.nextId + 1
    rcases List.mem_append.1 he with he | he
    · exact Nat.lt_succ_of_lt (hu e he)
    · rw [List.mem_singleton.1 he, hn]
      exact Nat.lt_succ_self _
  · rw [emails]
    exact List.mem_append_right _ (List.mem_singleton_self n)

/-- The notice is recorded, or it is not, and then its key is in use if an index says so. -/
theorem exec_notice {r : Except Err (List EmailNotification)}
    (h : World.exec p i (.query .pool
      (.insert .emails [newNotification messageId userId conversationId])) w = some (r, w')) :
    Meanwhile w w' ∧ ((∃ rows, r = .ok rows) → KeyTaken messageId userId w') ∧
      (r = .error (.sql .uniqueViolation) → UnusedIds w → KeyTaken messageId userId w') := by
  rcases exec_query h with ⟨r₀, st', hq, rfl, hr⟩ | ⟨rfl, rfl | ⟨hc, -⟩⟩
  · rcases State.query_pool hq with ⟨e, rfl, he, rfl⟩ | ⟨rows, rfl, ha, rfl⟩
    · refine ⟨.refl w, fun ⟨rows, ho⟩ => ?_, fun ho hu => ?_⟩
      · rcases hr with rfl | rfl <;> cases ho
      · rcases Schema.Stmt.plan_insert_error he with ⟨n, -, hn⟩ | ⟨-, hn⟩
        · cases hn
        · exact taken_of_violation (n := newNotification messageId userId conversationId
            w.store.nextId w.clock) rfl rfl hu hn
    · obtain ⟨rfl, -, hw, -, hid⟩ := Schema.Stmt.plan_insert ha
      rw [hw, hid]
      obtain ⟨kept, added⟩ := meanwhile_recorded (p := p)
        (n := newNotification messageId userId conversationId w.store.nextId w.clock) rfl
      exact ⟨kept, fun _ => ⟨_, added, rfl⟩, fun _ _ => ⟨_, added, rfl⟩⟩
  · refine ⟨.refl _, nofun, nofun⟩
  · cases hc

/-- The operations that notify a user. -/
def Notifies : Op → Prop
  | .settings | .now | .mail _ | .query .pool (.select _ _) => True
  | .query .pool (.insert .emails make) =>
    ∃ messageId userId conversationId, make = [newNotification messageId userId conversationId]
  | _ => False

theorem step_notifies {o : Op} {r : Except Err o.Res} (ho : Notifies o)
    (h : World.exec p i o w = some (r, w')) : Meanwhile w w' := by
  cases o with
  | settings | now =>
    cases h
    exact .refl _
  | mail m =>
    refine of_remote (S := Meanwhile) (.refl w) ?_ h
    exact .of_store rfl
  | query c s =>
    cases c with
    | tx => exact ho.elim
    | pool =>
      cases s with
      | select t q => exact (exec_select h).1 ▸ .refl _
      | insert t make =>
        cases t with
        | emails =>
          obtain ⟨messageId, userId, conversationId, rfl⟩ := ho
          exact (exec_notice h).1
        | _ => exact ho.elim
      | _ => exact ho.elim
  | _ => exact ho.elim

/-- Amid others that keep the notices, a program that notifies keeps them. -/
theorem kept_amid {α : Type} {x : App α} {r : Except Err α}
    (h : Prog.Amid (World.exec p) Meanwhile x w tr r w') (hx : x.Uses Notifies) :
    Meanwhile w w' :=
  (h.keeps hx (fun _ _ => .trans) (fun _ _ _ _ _ ho hs he => hs.trans (step_notifies ho he))
    (.refl w)).1

theorem notifies_mail (conv : Conversation) (user : User) (cfg : Settings) (counted : Nat) :
    (sendMail messageId conv user cfg counted).Uses Notifies := by
  refine Prog.Uses.tryCatch ?_ fun e => .ite (fun _ => trivial) fun _ => trivial
  refine Prog.Uses.bind ((Prog.uses_perform _).2 trivial) fun _ => ?_
  refine Prog.Uses.bind (Prog.Uses.bind ((Prog.uses_perform _).2 ⟨_, _, _, rfl⟩) fun rows => ?_)
    fun _ => trivial
  cases rows <;> trivial

theorem notifies_user (conv : Conversation) (user : User) :
    (notifyUser messageId conv user).Uses Notifies := by
  refine .ite (fun _ => trivial) fun _ => ?_
  refine Prog.Uses.bind ((Prog.uses_perform _).2 trivial) fun cfg => ?_
  refine Prog.Uses.bind ((Prog.uses_perform _).2 trivial) fun t => ?_
  refine Prog.Uses.bind ((Prog.uses_perform _).2 trivial) fun recent => ?_
  exact .ite (fun _ => notifies_mail ..) fun _ => trivial

/-- Recording a notice, with what its errors tell. -/
theorem insert_notice {u : Except Err EmailNotification} (hu : UnusedIds w)
    (h : Prog.Amid (World.exec p) Meanwhile (insertOne .pool .emails
      (newNotification messageId userId conversationId)) w tr u w') :
    (u = .error (.sql .uniqueViolation) ∨ ∃ n, u = .ok n) → KeyTaken messageId userId w' := by
  intro hr
  rcases h.of_bind with ⟨rows, w₁, _, _, -, hi, he⟩ | ⟨e, rfl, hi⟩
  · obtain ⟨w₀, i, -, hw, hx⟩ := hi.of_perform
    have keyed : KeyTaken messageId userId w₁ := (exec_notice hx).2.1 ⟨rows, rfl⟩
    cases rows with
    | nil =>
      have thrown := he.of_throw
      rcases hr with rfl | ⟨n, rfl⟩ <;> cases thrown
    | cons n rows => exact he.of_pure.2.2 ▸ keyed
  · obtain ⟨w₀, i, -, hw, hx⟩ := hi.of_perform
    rcases hr with he | ⟨n, he⟩
    · cases he
      exact (exec_notice hx).2.2 rfl (hw.unused hu)
    · cases he

/-- A mail that was sent without an error leaves the key of its user in use. -/
theorem sent_mail {conv : Conversation} {user : User} {cfg : Settings} {counted : Nat}
    (hu : UnusedIds w) (h : Prog.Amid (World.exec p) Meanwhile
      (sendMail messageId conv user cfg counted) w tr (.ok ()) w') :
    KeyTaken messageId user.id w' := by
  have mailed : ∀ {m : Mail} {r : Except Err Unit} {w₁ : World} {t : List World},
      Prog.Amid (World.exec p) Meanwhile (perform (.mail m)) w t r w₁ →
      UnusedIds w₁ ∧ r ≠ .error (.sql .uniqueViolation) := by
    intro m r w₁ t hm
    obtain ⟨w₀, i, -, hw, hx⟩ := hm.of_perform
    have hx : World.exec p i (.mail m) w₀ = some (r, w₁) := hx
    refine ⟨(hw.trans (step_notifies (o := .mail m) trivial hx)).unused hu, ?_⟩
    rintro rfl
    rcases remote_cases hx with ⟨-, he, -⟩ | ⟨he, -⟩ <;> cases he
  rcases h.of_tryCatch with ⟨_, -, h⟩ | ⟨e, w₁, tr₁, tr₂, -, h, hc⟩
  · obtain ⟨_, w₁, _, _, -, hm, h⟩ := h.of_seq
    obtain ⟨n, w₂, _, _, -, h, he⟩ := h.of_seq
    rw [he.of_pure.2.2]
    exact insert_notice (mailed hm).1 h (.inr ⟨n, rfl⟩)
  · have violated : e = .sql .uniqueViolation ∧ w' = w₁ := by
      split at hc
      · rename_i he
        exact ⟨he, hc.of_pure.2.2⟩
      · cases hc.of_throw
    obtain ⟨rfl, rfl⟩ := violated
    rcases h.of_bind with ⟨_, w₂, _, _, -, hm, h⟩ | ⟨e, he, hm⟩
    · rcases h.of_bind with ⟨n, w₃, _, _, -, h, he⟩ | ⟨e, he, h⟩
      · cases he.of_pure.2.1
      · cases he
        exact insert_notice (mailed hm).1 h (.inl rfl)
    · cases he
      exact ((mailed hm).2 rfl).elim

/-- A notice of a new message in the conversation to the user. -/
def About (userId conversationId : Nat) (e : EmailNotification) : Prop :=
  e.userId = userId ∧ e.conversationId = some conversationId ∧ e.kind = "new_message"

/-- The row `e` was in the throttle window when the loop came to the user: the states are those
in which the minutes, the time and the rows were read. -/
def InWindow (p messageId : Nat) (user : User) (conversationId : Nat) (e : EmailNotification)
    (tr : List World) : Prop :=
  ∃ (conv : Conversation) (w₁ wₙ wₜ wₑ w₂ : World), conv.id = conversationId ∧
    [wₙ, wₜ, wₑ] <:+: tr ∧
    Prog.Amid (World.exec p) Meanwhile (notifyUser messageId conv user) w₁ [wₙ, wₜ, wₑ] (.ok ()) w₂ ∧
    e ∈ wₑ.store.db .emails ∧ wₜ.clock < e.sentAt + wₙ.settings.emailThrottleMinutes * 60000

theorem notified_user {conv : Conversation} {user : User} (hu : UnusedIds w)
    (hs : user.isSuspended = false) (ha : user.anonymizedAt = none)
    (h : Prog.Amid (World.exec p) Meanwhile (notifyUser messageId conv user) w tr (.ok ()) w') :
    KeyTaken messageId user.id w' ∨ ∃ e ∈ w'.store.db .emails, About user.id conv.id e ∧
      InWindow p messageId user conv.id e tr := by
  have whole := h
  unfold notifyUser at h
  rw [if_neg (by simp [hs, ha])] at h
  obtain ⟨cfg, w₁, _, _, rfl, hcfg, h⟩ := h.of_seq
  obtain ⟨t, w₂, _, _, rfl, ht, h⟩ := h.of_seq
  obtain ⟨recent, w₃, _, _, rfl, hrecent, h⟩ := h.of_seq
  obtain ⟨wₙ, i₁, rfl, hₙ, hx₁⟩ := hcfg.of_perform
  obtain ⟨wₜ, i₂, rfl, hₜ, hx₂⟩ := ht.of_perform
  obtain ⟨wₑ, i₃, rfl, hₑ, hx₃⟩ := hrecent.of_perform
  cases hx₁
  cases hx₂
  obtain ⟨rfl, hrows⟩ := exec_select hx₃
  obtain rfl := Except.ok.inj (hrows.resolve_right nofun)
  unfold onlyIf at h
  split at h
  · exact .inl (sent_mail (hₑ.unused (hₜ.unused (hₙ.unused hu))) h)
  · rename_i hlen
    obtain ⟨rfl, -, rfl⟩ := h.of_pure
    obtain ⟨e, he⟩ := List.exists_mem_of_ne_nil _ fun hn => hlen (List.length_eq_zero_iff.2 hn)
    obtain ⟨he, hq⟩ := List.mem_filter.1 he
    simp only [Bool.and_eq_true, beq_iff_eq, decide_eq_true_eq] at hq
    obtain ⟨⟨⟨hid, hc⟩, hk⟩, hlt⟩ := hq
    exact .inr ⟨e, he, ⟨hid, hc, hk⟩, conv, w, w₁, w₂, w', w', rfl, List.infix_rfl, whole, he, hlt⟩

theorem InWindow.within {user : User} {e : EmailNotification} {tr' : List World}
    (h : InWindow p messageId user conversationId e tr) (ht : tr <:+: tr') :
    InWindow p messageId user conversationId e tr' := by
  obtain ⟨conv, w₁, wₙ, wₜ, wₑ, w₂, hc, hin, rest⟩ := h
  exact ⟨conv, w₁, wₙ, wₜ, wₑ, w₂, hc, hin.trans ht, rest⟩

/-- The conversation is found, and each recipient that is found is gone through. -/
theorem notified_each {recipientIds : List Nat} (hc : Exists w.store.db conversationId)
    (h : Prog.Amid (World.exec p) Meanwhile
      (notifyNewMessage messageId conversationId recipientIds) w tr (.ok ()) w') :
    ∃ w₀ w₁ rest, tr = w₀ :: w₁ :: rest ∧ Meanwhile w w₁ ∧
      ∃ conv : Conversation, conv.id = conversationId ∧
        Prog.Amid (World.exec p) Meanwhile (List.forM ((w₀.store.db .users).filter
          fun u : User => recipientIds.contains u.id) (notifyUser messageId conv))
          w₁ rest (.ok ()) w' := by
  obtain ⟨users, _, _, _, rfl, husers, h⟩ := h.of_seq
  obtain ⟨found, _, _, rest, rfl, hfound, h⟩ := h.of_seq
  obtain ⟨w₀, _, rfl, h₀, hx₀⟩ := husers.of_perform
  obtain ⟨rows, _, _, _, rfl, hrows, hhead⟩ := hfound.of_seq
  obtain ⟨w₁, _, rfl, h₁, hx₁⟩ := hrows.of_perform
  obtain ⟨rfl, hu⟩ := exec_select hx₀
  obtain ⟨rfl, hr⟩ := exec_select hx₁
  obtain rfl := Except.ok.inj (hu.resolve_right nofun)
  obtain rfl := Except.ok.inj (hr.resolve_right nofun)
  obtain ⟨rfl, hfound, rfl⟩ := hhead.of_pure
  obtain rfl := Except.ok.inj hfound
  have early := h₀.trans h₁
  refine ⟨_, _, rest, rfl, early, ?_⟩
  split at h
  · rename_i hnone
    obtain ⟨c, hcm, hcid⟩ := early.conversations _ hc
    have none := List.filter_eq_nil_iff.1 (List.head?_eq_none_iff.1 hnone) c hcm
    exact (none (beq_iff_eq.2 hcid)).elim
  · rename_i conv hconv
    exact ⟨conv, beq_iff_eq.1 (List.mem_filter.1 (List.mem_of_mem_head? hconv)).2, h⟩

end Notices

section Steps

variable [AesGcm] [TokenHash] {w₀ : World} {P P' : Run} {l : Label Input Event Call}

end Steps

section Example

/-- A row without a conversation has the key of message 100 and user 3. -/
def takenDb : Db
  | .emails => [⟨50, 3, none, "new_message", 0, dedupKey 100 3⟩]
  | t => exampleDb t

abbrev takenWorld : World := worldOf takenDb exampleSettings

theorem initial_taken : Initial takenWorld := by
  refine initial_worldOf (fun t => by cases t <;> decide +kernel) (fun t ht => ?_)
    (by decide +kernel) fun r hr => ⟨exampleConversation, List.mem_singleton_self _, ?_⟩
  · cases t <;> first | rfl | cases ht
  · revert r
    decide +kernel

/-- What the notices of message 100 to `ids` come to, when nobody else acts. -/
def noticesOf (ids : List Nat) (w : World) :=
  (notifyNewMessage 100 10 ids).eval (World.exec 0 calm) w

theorem run_of_notices {R : World → World → Prop} (hR : ∀ w, R w w) (ids : List Nat) (w : World)
    {α : Type} (f : World → α) (a : α)
    (h : (noticesOf ids w).bind (fun x => x.1.toOption.map fun _ => f x.2) = some a) :
    ∃ w' tr, f w' = a ∧
      Prog.Amid (World.exec 0) R (notifyNewMessage 100 10 ids) w tr (.ok ()) w' := by
  obtain ⟨⟨r, w'⟩, hx, hf⟩ := Option.bind_eq_some_iff.1 h
  cases r with
  | error e => cases hf
  | ok u =>
    obtain ⟨tr, htr⟩ := Prog.Amid.of_eval hR hx
    exact ⟨w', tr, Option.some.inj hf, htr⟩

end Example

end Messageries.Guarantees
