import Messageries.Proofs.Special

set_option linter.unusedSectionVars false

namespace Messageries.Proofs

open Text Relational Database Crypto Concurrency Backend

variable [AesGcm] [TokenHash]

section Mails

variable {p : Nat} {k : Call} {w w' : World} {i : Input} {o : Op} {r : Except Err o.Res}
  {db₀ : Db}

/-- A write to the notifications records a new one, at the time of `w` or later. -/
def Dates (w : World) (x : Write) : Prop :=
  writesTo x = .emails →
    ∃ e : EmailNotification, x = .insert .emails e ∧ w.clock ≤ e.sentAt

theorem dated_emails {new : List Write} (h : ∀ x ∈ new, Dates w x) {db : Db}
    {e : EmailNotification} (he : e ∈ Schema.Write.applyAll new db .emails) :
    e ∈ db .emails ∨ w.clock ≤ e.sentAt := by
  induction new generalizing db with
  | nil => exact .inl he
  | cons x new ih =>
    rw [Schema.Write.applyAll_cons] at he
    refine (ih (fun y hy => h y (List.mem_cons_of_mem _ hy)) he).elim (fun he => ?_) .inr
    by_cases hx : writesTo x = .emails
    · obtain ⟨e', rfl, hle⟩ := h x List.mem_cons_self hx
      rw [Schema.Write.apply_insert] at he
      rcases List.mem_append.1 he with he | he
      · exact .inl he
      · exact .inr (List.mem_singleton.1 he ▸ hle)
    · exact .inl (apply_apart hx db ▸ he)

/-- Only a call of the worker hands a mail over. -/
theorem exec_mails (h : World.exec p i o w = some (r, w')) (ho : ∀ m, o ≠ .mail m) :
    w'.mails = w.mails := by
  by_cases hf : Feeds o
  · cases o with
    | publish t m id =>
      simp only [World.exec] at h
      split at h
      · refine of_remote (S := fun w w' => w'.mails = w.mails) rfl ?_ h
        unfold World.publish
        split <;> rfl
      · cases h
        rfl
    | note e s =>
      cases h
      rfl
    | index d =>
      obtain ⟨ds, rfl⟩ := exec_indexes h trivial
      rfl
    | unindex c =>
      obtain ⟨ds, rfl⟩ := exec_indexes h trivial
      rfl
    | mail m => exact (ho m rfl).elim
    | _ => exact hf.elim
  · exact (exec_feed h hf).mails

end Mails

section Throttle

/-- `R` tells when a mail, at a time, repeats an earlier one. -/
def throttle (R : Mail → Nat → Mailed → Prop) : Extension where
  inv w := w.mails.Pairwise fun a b => ¬R b.mail b.time a
  guar _ w w' := ∀ e ∈ w'.store.db .emails,
    e ∈ w.store.db .emails ∨ w.clock ≤ (e : EmailNotification).sentAt
  special := IsBatch
  plain x := writesTo x ≠ .emails
  watches := True

variable {R : Mail → Nat → Mailed → Prop} {p : Nat} {k : Call} {w w' : World} {i : Input} {o : Op}
  {r : Except Err o.Res} {db₀ : Db} {n : Nat}

theorem throttled {new : List Write} {a : Option Nat} (hm : w'.mails = w.mails)
    (hc : State.Commits p new w.store w'.store) (hn : ∀ x ∈ new, Dates w x)
    (h : (throttle R).inv w) : (throttle R).inv w' ∧ (throttle R).guar a w w' := by
  refine ⟨?_, fun e he => ?_⟩
  · show w'.mails.Pairwise _
    rw [hm]
    exact h
  · rw [hc.2] at he
    exact dated_emails hn he

theorem keeps_throttle : (throttle R).Keeps db₀ where
  init := by
    rintro w hw -
    show w.mails.Pairwise _
    rw [hw.mails]
    exact .nil
  plain := by
    rintro a w w' - - - ⟨⟨p, new, hc, hn⟩, hf⟩ h
    exact throttled (hf trivial).mails hc (fun x hx he => (hn x hx he).elim) h

theorem throttle_step (hk : ¬IsBatch k) (hc : w.calls p = some k)
    (h : World.exec p i o w = some (r, w')) (hi' : Inv db₀ w') (hg : Guar (some p) w w')
    (hx : (throttle R).inv w) : (throttle R).inv w' ∧ (throttle R).guar (some p) w w' := by
  obtain ⟨new, hnew, -⟩ := exec_makes h
  refine throttled ?_ hnew (fun x hx he => ?_) hx
  · refine (hg.worker.resolve_right ?_).2.2
    rintro ⟨q, k', hq, hk', hb⟩
    cases hq
    cases hc.symm.trans hk'
    exact hk hb
  · have logged : (p, x) ∈ w'.store.wal :=
      hnew.1 ▸ List.mem_append_right _ (List.mem_map_of_mem hx)
    obtain ⟨k', hk', hm⟩ := hi'.db.known p x logged
    cases hk'.symm.trans (hg.calls p k hc)
    cases x with
    | insert t row =>
      obtain rfl : t = .emails := he
      exact (hk hm).elim
    | update t ks f =>
      obtain rfl : t = .emails := he
      exact hm.elim
    | delete t ks =>
      obtain rfl : t = .emails := he
      cases hm

/-- Operations that hand no mail over and date what they record. -/
def Dated : Op → Prop
  | .mail _ => False
  | .query .pool s => ∀ w, ∀ x ∈ pooled s w, Dates w x
  | _ => True

theorem batch_step (ho : QuietOp k o) (hd : Dated o) (hi : ((throttle R).protocol db₀).inv w)
    (hw : Base k p w) (h : World.exec p i o w = some (r, w')) :
    ((throttle R).protocol db₀).inv w' ∧ ((throttle R).protocol db₀).guar (some p) w w' ∧
      Base k p w' := by
  obtain ⟨hi', hg, hs⟩ := exec_quiet hi.1 hw.1 hw.2 ho h
  obtain ⟨new, hc, hm⟩ := exec_makes h
  have dates : ∀ x ∈ new, Dates w x := by
    cases hm with
    | nothing => exact fun x hx => (List.not_mem_nil hx).elim
    | commit ht _ =>
      intro x hx he
      exact nomatch he ▸ (hw.2.pending _ ht x hx).unpooled
    | query s => exact hd w
    | remove t q ks =>
      intro x hx he
      cases List.mem_singleton.1 hx
      cases ho.symm.trans he
  have kept := throttled (a := some p) (exec_mails h fun m e => by subst e; exact hd) hc dates hi.2
  exact ⟨⟨hi', kept.1⟩, ⟨hg, kept.2⟩, hg.calls p k hw.1, hs⟩

variable {g : Nat → Op → World → Prop} {α β : Type}

/-- Code of the worker, whatever it returns. -/
abbrev Tends (R : Mail → Nat → Mailed → Prop) (db₀ : Db) (g : Nat → Op → World → Prop) (p : Nat)
    (k : Call) (x : App α) : Prop :=
  Protocol.Valid machine g ((throttle R).protocol db₀) p (Base k p) x fun _ => Base k p

theorem stable_based : ((throttle R).protocol db₀).Stable p (Base k p) :=
  Extension.stable_of stable_base

namespace Tends

theorem of_uses {x : App α} (hx : x.Uses (QuietOp k)) (hd : x.Uses Dated) :
    Tends R db₀ g p k x := by
  induction x with
  | pure a => exact .pure fun _ _ h => h
  | throw e => exact .throw fun _ _ h => h
  | op o next ih =>
    refine .op (fun _ => Base k p) (fun i w r w' hi hw _ h => ?_) (fun _ => stable_based)
      fun r => ih r (hx.2 r) (hd.2 r)
    exact batch_step hx.1 hd.1 hi hw h

theorem perform (ho : QuietOp k o) (hd : Dated o) : Tends R db₀ g p k (perform o) :=
  of_uses ((Prog.uses_perform o).2 ho) ((Prog.uses_perform o).2 hd)

theorem bind {x : App α} {f : α → App β} (hx : Tends R db₀ g p k x)
    (hf : ∀ a, Tends R db₀ g p k (f a)) : Tends R db₀ g p k (x >>= f) :=
  Protocol.Valid.bind hx hf fun _ _ _ h => h

theorem tryCatch {x : App α} {f : Err → App α} (hx : Tends R db₀ g p k x)
    (hf : ∀ e, Tends R db₀ g p k (f e)) : Tends R db₀ g p k (tryCatch x f) :=
  Protocol.Valid.tryCatch hx hf fun _ _ _ h => h

theorem onlyIf {b : Prop} [Decidable b] {x : App Unit} (hx : b → Tends R db₀ g p k x) :
    Tends R db₀ g p k (onlyIf b x) :=
  Protocol.Valid.ite hx fun _ => .pure fun _ _ h => h

theorem select {t : Table} (q : t.Row → Bool) : Tends R db₀ g p k (Backend.select .pool t q) :=
  perform (o := .query .pool (.select t fun _ _ => q)) trivial
    fun _ _ hx => (List.not_mem_nil hx).elim

end Tends

end Throttle

section Notices

/-- The code runs with the throttle of `n` minutes. A mail that repeats earlier ones is not sent
before each of these has its row, and the row was there, and recent, when they were counted. -/
def Noticed (n : Nat) (R : Mail → Nat → Mailed → Prop) (_p : Nat) (o : Op) (w : World) : Prop :=
  match o with
  | .settings => w.settings.emailThrottleMinutes = n
  | .mail m => ∀ s ∈ w.mails, R m w.clock s → ∃ e ∈ w.store.db .emails,
      (e : EmailNotification).userId = m.userId ∧
      (e : EmailNotification).conversationId = m.conversationId ∧
      (e : EmailNotification).kind = "new_message" ∧
      (e : EmailNotification).sentAt < m.counted ∧
      m.counted < (e : EmailNotification).sentAt + n * 60000
  | _ => True

variable {R : Mail → Nat → Mailed → Prop} {p : Nat} {k : Call} {w w' : World} {db₀ : Db} {n t : Nat}

/-- At time `t` no mail of the last `n` minutes to the user was on record. -/
def Quiets (n t userId conversationId : Nat) (w : World) : Prop :=
  t ≤ w.clock ∧ ∀ e ∈ w.store.db .emails, (e : EmailNotification).userId = userId →
    (e : EmailNotification).conversationId = conversationId →
    (e : EmailNotification).kind = "new_message" → (e : EmailNotification).sentAt < t →
    (e : EmailNotification).sentAt + n * 60000 ≤ t

theorem lasts_clock : (throttle R).Lasts db₀ fun w => t ≤ w.clock :=
  fun _ _ _ _ _ hg h => h.trans hg.1.clock

theorem lasts_quiets (userId conversationId : Nat) :
    (throttle R).Lasts db₀ (Quiets n t userId conversationId) := by
  rintro a w w' - - hg ⟨ht, hq⟩
  refine ⟨ht.trans hg.1.clock, fun e he hu hc hk hlt => ?_⟩
  rcases hg.2 e he with he | hle
  · exact hq e he hu hc hk hlt
  · exact absurd hlt (Nat.not_lt.2 (ht.trans hle))

theorem tends_mail (hk : IsBatch k) (m : Mail) :
    Protocol.Valid machine (Noticed n R) ((throttle R).protocol db₀) p
      (fun w => Base k p w ∧ Quiets n m.counted m.userId m.conversationId w)
      (perform (.mail m)) fun _ => Base k p := by
  refine Protocol.Valid.perform (fun i w r w' hi ⟨hb, _, hq⟩ hg hx => ?_) fun _ => stable_based
  have hx : World.exec p i (.mail m) w = some (r, w') := hx
  have quiet : QuietOp k (.mail m) := hk
  obtain ⟨hi', hgu, hs⟩ := exec_quiet hi.1 hb.1 hb.2 quiet hx
  have first : ∀ s ∈ w.mails, ¬R m w.clock s := by
    intro s hs hR
    obtain ⟨e, he, hu, hc, hk, hlt, hlt'⟩ := hg s hs hR
    exact absurd hlt' (Nat.not_lt.2 (hq e he hu hc hk hlt))
  have sent : (throttle R).inv w' ∧ (throttle R).guar (some p) w w' := by
    refine of_remote (S := fun w₀ w' => (throttle R).inv w' ∧ (throttle R).guar (some p) w w')
      ⟨hi.2, fun e he => .inl he⟩ ?_ hx
    refine ⟨?_, fun e he => .inl he⟩
    refine List.pairwise_append.2 ⟨hi.2, List.pairwise_singleton _ _, fun s hs b hb => ?_⟩
    rw [List.mem_singleton.1 hb]
    exact first s hs
  exact ⟨⟨hi', sent.1⟩, ⟨hgu, sent.2⟩, hgu.calls p k hb.1, hs⟩

/-- An operation with what its answer tells. -/
theorem tends_asks {g : Nat → Op → World → Prop} {o : Op} {φ : World → Prop}
    {Q : Except Err o.Res → World → Prop} (ho : QuietOp k o) (hd : Dated o)
    (hQ : ∀ r, (throttle R).Lasts db₀ (Q r))
    (h : ∀ i w r w', g p o w → World.exec p i o w = some (r, w') → Q r w') :
    Protocol.Valid machine g ((throttle R).protocol db₀) p (fun w => Base k p w ∧ φ w) (perform o)
      fun r w => Base k p w ∧ Q r w := by
  refine Protocol.Valid.perform (fun i w r w' hi hw hg hx => ?_) fun r =>
    stable_based.and (hQ r).stable
  obtain ⟨hi', hgu, hb⟩ := batch_step ho hd hi hw.1 hx
  exact ⟨hi', hgu, hb, h i w r w' hg hx⟩

theorem tends_sendMail (hk : IsBatch k) (messageId : Nat) (conv : Conversation) (user : User)
    (cfg : Settings) :
    Protocol.Valid machine (Noticed n R) ((throttle R).protocol db₀) p
      (fun w => Base k p w ∧ Quiets n t user.id conv.id w)
      (sendMail messageId conv user cfg t) fun _ => Base k p := by
  have recorded : Tends R db₀ (Noticed n R) p k
      (insertOne .pool .emails (newNotification messageId user.id conv.id)) := by
    refine .of_uses (uses_insertOne ⟨nofun, fun _ => ⟨rfl, nofun⟩⟩ fun _ _ => ⟨hk, trivial⟩) ?_
    refine Prog.Uses.bind ((Prog.uses_perform _).2 fun w x hx _ => ?_) fun rows => ?_
    · obtain ⟨f, hf, i, rfl⟩ := Schema.Stmt.mem_plan_insert hx
      obtain rfl := List.mem_singleton.1 hf
      exact ⟨_, rfl, Nat.le_refl _⟩
    · cases rows <;> trivial
  refine Protocol.Valid.tryCatch (Q := fun _ => Base k p) ?_ (fun e => ?_) fun _ _ _ h => h
  · refine Protocol.Valid.bind (Q := fun _ => Base k p)
      (tends_mail hk (newMessageMail cfg user conv messageId t)) (fun _ => ?_) fun _ _ _ h => h
    exact recorded.bind fun _ => .pure fun _ _ h => h
  · exact .ite (fun _ => .pure fun _ _ h => h) fun _ => .throw fun _ _ h => h

theorem tends_notifyUser (hk : IsBatch k) (messageId : Nat) (conv : Conversation) (user : User) :
    Tends R db₀ (Noticed n R) p k (notifyUser messageId conv user) := by
  refine Protocol.Valid.ite (fun _ => .pure fun _ _ h => h) fun _ => ?_
  have minutes : Protocol.Valid machine (Noticed n R) ((throttle R).protocol db₀) p
      (fun w => Base k p w ∧ True) settings
      fun r w => Base k p w ∧ onOk (fun cfg _ => cfg.emailThrottleMinutes = n) r w := by
    refine tends_asks (o := _) trivial trivial (fun r => ?_) fun i w r w' hg hx => ?_
    · cases r <;> exact fun _ _ _ _ _ _ h => h
    · cases hx
      exact hg
  have time : Protocol.Valid machine (Noticed n R) ((throttle R).protocol db₀) p
      (fun w => Base k p w ∧ True) now
      fun r w => Base k p w ∧ onOk (fun t w => t ≤ w.clock) r w := by
    refine tends_asks (o := _) trivial trivial (fun r => ?_) fun i w r w' hg hx => ?_
    · cases r with
      | ok t => exact lasts_clock
      | error e => exact fun _ _ _ _ _ _ h => h
    · cases hx
      exact Nat.le_refl _
  refine Protocol.Valid.bind (minutes.pre fun _ _ h => ⟨h, trivial⟩) (fun cfg => ?_)
    fun _ _ _ h => h.1
  refine Protocol.Valid.pre (φ := fun w => cfg.emailThrottleMinutes = n ∧ Base k p w) ?_
    fun _ _ h => ⟨h.2, h.1⟩
  refine Protocol.Valid.given fun hn => ?_
  refine Protocol.Valid.bind (time.pre fun _ _ h => ⟨h, trivial⟩) (fun t => ?_) fun _ _ _ h => h.1
  refine Protocol.Valid.bind (keeps_throttle.select
    (Q := fun recent w => recent.length = 0 → Quiets n t user.id conv.id w)
    (fun w _ hw _ hr => ⟨hw.2, fun e he hu hc hkind _ => ?_⟩) (fun rows => ?_)
    (stable_based.and lasts_clock.stable)) (fun recent => ?_) fun _ _ _ h => h.1.1
  · have counted := List.filter_eq_nil_iff.1 (List.eq_nil_of_length_eq_zero hr) e he
    simpa [hu, hc, hkind, hn] using counted
  · exact .imp fun _ => (lasts_quiets user.id conv.id).stable
  · refine Protocol.Valid.ite (fun hr => ?_) fun _ => .pure fun _ _ h => h.1.1
    exact (tends_sendMail hk messageId conv user cfg).pre fun _ _ h => ⟨h.1.1, h.2 hr⟩

theorem tends_notifyNewMessage (hk : IsBatch k) (messageId conversationId : Nat)
    (recipientIds : List Nat) :
    Tends R db₀ (Noticed n R) p k (notifyNewMessage messageId conversationId recipientIds) := by
  refine (Tends.select _).bind fun recipients => ?_
  refine ((Tends.select _).bind fun _ => .pure fun _ _ h => h).bind fun o => ?_
  cases o with
  | none => exact .pure fun _ _ h => h
  | some conv =>
    exact .forM (fun user => tends_notifyUser hk messageId conv user) (fun _ _ h => h)
      fun _ _ h => h

theorem tends_onMessageCreated (hk : IsBatch k) (m : MessageCreated) :
    Tends R db₀ (Noticed n R) p k (onMessageCreated m) := by
  refine Protocol.Valid.ite (fun _ => .pure fun _ _ h => h) fun _ => ?_
  have online : Tends R db₀ (Noticed n R) p k (perform (.areOnline m.recipients)) :=
    .perform trivial trivial
  exact online.bind fun _ => .onlyIf fun _ => tends_notifyNewMessage hk ..

/-- What any call may do hands no mail over. -/
theorem dated_of_quiet {x : App Unit} (hx : x.Uses (QuietOp (.natsInit 0))) : x.Uses Dated := by
  refine hx.mono fun o ho => ?_
  cases o with
  | mail m => exact ho
  | query c s =>
    cases c with
    | tx => trivial
    | pool =>
      intro w x hx he
      have may := (QuietStmt.plan ho _ _ _ _ x hx).bland.may
      cases x with
      | insert t row =>
        obtain rfl : t = .emails := he
        exact may.elim
      | update t ks f =>
        obtain rfl : t = .emails := he
        exact may.elim
      | delete t ks =>
        obtain rfl : t = .emails := he
        cases may
  | _ => trivial

theorem tends_handle (hk : IsBatch k) (worker outboxId : Nat) (type : EventType)
    (payload : Payload) : Tends R db₀ (Noticed n R) p k (handle worker outboxId type payload) := by
  have enabled : Tends R db₀ (Noticed n R) p k (perform (.natsEnabled worker)) :=
    .perform trivial trivial
  have publish : Tends R db₀ (Noticed n R) p k (perform (.publish type payload outboxId)) :=
    .perform hk trivial
  refine enabled.bind fun (b : Bool) => Tends.bind (.onlyIf fun _ => publish) fun _ => ?_
  cases payload with
  | read c u s => exact .pure fun _ _ h => h
  | created m =>
    refine (tends_onMessageCreated hk m).bind fun _ => .tryCatch ?_ fun _ => .pure fun _ _ h => h
    exact .of_uses (uses_indexMessageIfEnabled _) (dated_of_quiet (uses_indexMessageIfEnabled _))

theorem tends_handleRow (hs : ¬IsSend k) (hk : IsBatch k) (worker : Nat) (row : OutboxEvent) :
    Tends R db₀ (Noticed n R) p k (handleRow worker row) := by
  have note : ∀ s, Tends R db₀ (Noticed n R) p k (perform (.note row.id s)) :=
    fun _ => .perform hk trivial
  have free : Free k .tx .outbox := ⟨fun _ => hs, nofun⟩
  refine Tends.tryCatch ((note _).bind fun _ => (tends_handle hk ..).bind fun _ =>
    (note _).bind fun _ => ?_) fun e => (note _).bind fun _ => ?_
  · refine Tends.bind (.of_uses (uses_update free (fun _ _ => ⟨⟨rfl, rfl, rfl⟩, trivial⟩)
      fun _ now => ⟨hk, .inl ⟨now, rfl⟩⟩) ((Prog.uses_perform _).2 trivial)) fun _ => ?_
    exact .pure fun _ _ h => h
  · refine Tends.bind (.of_uses (uses_update free (fun _ _ => ⟨⟨rfl, rfl, rfl⟩, trivial⟩)
      fun _ now => ⟨hk, .inr ⟨_, _, _, now, rfl⟩⟩) ((Prog.uses_perform _).2 trivial)) fun _ => ?_
    exact .pure fun _ _ h => h

theorem tends_processBatch (hs : ¬IsSend k) (hk : IsBatch k) (worker batchSize : Nat) :
    Tends R db₀ (Noticed n R) p k (processBatch worker batchSize) := by
  refine Tends.tryCatch ?_ fun e => Tends.bind (.perform trivial trivial) fun _ =>
    .throw fun _ _ h => h
  refine Tends.bind (.perform trivial trivial) fun _ => Tends.bind (.bind (.perform trivial trivial)
    fun rows => ?_) fun _ => Tends.bind (.perform trivial trivial) fun _ => .pure fun _ _ h => h
  refine Tends.bind (Protocol.Valid.forM (fun row => tends_handleRow hs hk worker row)
    (fun _ _ h => h) fun _ _ h => h) fun _ => .pure fun _ _ h => h

theorem tends_code (hk : IsBatch k) : Tends R db₀ (Noticed n R) p k (code k) := by
  cases k with
  | processBatch worker batchSize =>
    have batch : IsBatch (.processBatch worker batchSize) := trivial
    exact (tends_processBatch id batch worker batchSize).bind fun _ => .pure fun _ _ h => h
  | _ => exact hk.elim

/-- No mail that is sent repeats an earlier one. -/
theorem unrepeated {w₀ : World} {P : Pool Op Op.Res Err World Call Response}
    (h : machine.Reach (From w₀) (Noticed n R) P) :
    P.shared.mails.Pairwise fun a b => ¬R b.mail b.time a := by
  have keeps : (throttle R).Keeps w₀.store.db := keeps_throttle
  have sound := keeps.soundOf (g := Noticed n R) (Q := fun p k _ => Base k p)
    (fun p k i o w r w' hk hc _ hx _ hi' hg hi => throttle_step hk hc hx hi' hg hi)
    fun p k hk => (tends_code hk).pre fun _ _ hs => hs.base
  exact (sound.inv h).2

end Notices

end Messageries.Proofs
