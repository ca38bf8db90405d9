import Messageries.Proofs.Erasing
import Messageries.Proofs.Indexing
import Messageries.Proofs.Register

set_option linter.unusedSectionVars false

/-! What the calls tell the clients, and the audit log. -/

namespace Messageries.Proofs

open Text Relational Database Crypto Concurrency Backend Moderation

section Facts

/-- What the clients are told is so. -/
def Heard (w : World) : Broadcast → Prop
  | .created id c s n t t' => ∃ m ∈ w.store.db .messages, (m : Message).id = id ∧
      (m : Message).conversationId = c ∧ (m : Message).senderId = s ∧ (m : Message).sequence = n ∧
        (m : Message).createdAt = t' ∧ (gone (m : Message).status = false →
          ∃ p user body key, w.calls p = some (.send user c body key) ∧ user.sub = s ∧
            t = cleaned body)
  | .deleted id c n => ∃ m ∈ w.store.db .messages, (m : Message).id = id ∧
      (m : Message).conversationId = c ∧ (m : Message).sequence = n ∧
        gone (m : Message).status = true
  | .read c u n => ∃ p user, w.calls p = some (.markRead user c n) ∧ user.sub = u ∧
      Accessed user c w

variable [AesGcm] [TokenHash] {db₀ : Db}

theorem Persists.heard (b : Broadcast) : Persists db₀ (Heard · b) := by
  intro a w w' hi hi' hg h
  cases b with
  | created id c s n t t' =>
    obtain ⟨m, hm, hid, hc, hs, hn, ht, hv⟩ := h
    obtain ⟨m', hm', hl⟩ := hg.kept .messages nofun m hm
    have hl : MessageLater m m' := hl
    refine ⟨m', hm', hl.id.trans hid, hl.conversationId.trans hc, hl.senderId.trans hs,
      hl.sequence.trans hn, hl.createdAt.trans ht, fun hv' => ?_⟩
    obtain ⟨p, user, body, key, hk, hu, e⟩ := hv ((hl.content hv').1 ▸ hv')
    exact ⟨p, user, body, key, hg.calls p _ hk, hu, e⟩
  | deleted id c n =>
    obtain ⟨m, hm, hid, hc, hn, hv⟩ := h
    obtain ⟨m', hm', hl⟩ := hg.kept .messages nofun m hm
    have hl : MessageLater m m' := hl
    exact ⟨m', hm', hl.id.trans hid, hl.conversationId.trans hc, hl.sequence.trans hn, hl.stays hv⟩
  | read c u n =>
    obtain ⟨p, user, hk, hu, ha⟩ := h
    exact ⟨p, user, hg.calls p _ hk, hu, Persists.accessed user c a w w' hi hi' hg ha⟩

/-- What is emitted is so. -/
def Airs (o : Op) (w : World) : Prop := ∀ b, o = .emit b → Heard w b

/-- What an entry of the audit log says is so: the message was sent by who deleted it and is gone,
the message that was reported is there, and the user is anonymised. -/
structure Warranted (r : AuditLog) (w : World) : Prop where
  deleted : r.action = "message.deleted" → ∃ m ∈ w.store.db .messages,
    r.targetId = some (m : Message).id ∧ r.actorId = some (m : Message).senderId ∧
      gone (m : Message).status = true
  reported : r.action = "message.reported" → ∃ m ∈ w.store.db .messages,
    r.targetId = some (m : Message).id
  anonymized : r.action = "privacy.anonymized" → ∃ u ∈ w.store.db .users,
    r.targetId = some (u : User).id ∧ (u : User).anonymizedAt ≠ none

theorem Warranted.of_deleted {r : AuditLog} {w : World} (hr : r.action = "message.deleted")
    (h : ∃ m ∈ w.store.db .messages, r.targetId = some (m : Message).id ∧
      r.actorId = some (m : Message).senderId ∧ gone (m : Message).status = true) : Warranted r w :=
  ⟨fun _ => h, fun e => absurd (hr.symm.trans e) (by decide),
    fun e => absurd (hr.symm.trans e) (by decide)⟩

theorem Warranted.of_reported {r : AuditLog} {w : World} (hr : r.action = "message.reported")
    (h : ∃ m ∈ w.store.db .messages, r.targetId = some (m : Message).id) : Warranted r w :=
  ⟨fun e => absurd (hr.symm.trans e) (by decide), fun _ => h,
    fun e => absurd (hr.symm.trans e) (by decide)⟩

theorem Warranted.of_anonymized {r : AuditLog} {w : World} (hr : r.action = "privacy.anonymized")
    (h : ∃ u ∈ w.store.db .users, r.targetId = some (u : User).id ∧
      (u : User).anonymizedAt ≠ none) : Warranted r w :=
  ⟨fun e => absurd (hr.symm.trans e) (by decide), fun e => absurd (hr.symm.trans e) (by decide),
    fun _ => h⟩

theorem Persists.warranted (r : AuditLog) : Persists db₀ (Warranted r) := by
  rintro a w w' - - hg h
  refine ⟨fun hr => ?_, fun hr => ?_, fun hr => ?_⟩
  · obtain ⟨m, hm, hid, hs, hv⟩ := h.deleted hr
    obtain ⟨m', hm', hl⟩ := hg.kept .messages nofun m hm
    have hl : MessageLater m m' := hl
    exact ⟨m', hm', hl.id ▸ hid, hl.senderId ▸ hs, hl.stays hv⟩
  · obtain ⟨m, hm, hid⟩ := h.reported hr
    obtain ⟨m', hm', hl⟩ := hg.kept .messages nofun m hm
    have hl : MessageLater m m' := hl
    exact ⟨m', hm', hl.id ▸ hid⟩
  · obtain ⟨u, hu, hid, ha⟩ := h.anonymized hr
    obtain ⟨u', hu', hl⟩ := hg.kept .users nofun u hu
    have hl : UserLater u u' := hl
    exact ⟨u', hu', hl.id ▸ hid, hl.anonymized ha⟩

/-- What is written to the audit log is so. -/
def Attests (o : Op) (w : World) : Prop :=
  ∀ make, o = logging make → ∀ f ∈ make, ∀ id now, Warranted (f id now) w

/-- What is emitted is so, and what is written to the audit log. -/
def Vouches (o : Op) (w : World) : Prop := Airs o w ∧ Attests o w

/-- The reply of a send, as it is emitted. -/
theorem Replies.heard {w : World} {p : Nat} {user : AuthUser} {c : Nat} {body : Utf16}
    {key : Option Utf16} (hk : w.calls p = some (.send user c body key)) {d : DecryptedMessage}
    (h : Replies user c body key d w) :
    Heard w (.created d.id d.conversationId d.senderId d.sequence d.body d.createdAt) := by
  obtain ⟨m, t, ⟨hm, hkeyed⟩, rfl, ht⟩ := h
  obtain ⟨m', hm', hl⟩ := hm.present
  refine ⟨m', hm', hl.id, hl.conversationId, hl.senderId, hl.sequence, hl.createdAt, fun hv => ?_⟩
  refine ⟨p, user, body, key, ?_, hkeyed.sender.symm, ht ((hl.content hv).1 ▸ hv)⟩
  change w.calls p = some (.send user m.conversationId body key)
  rwa [hkeyed.conversation]

end Facts

section Erasing

variable [AesGcm] [TokenHash] {db₀ : Db} {g : Nat → Op → World → Prop} {k : Call} {p : Nat}
  {φ : World → Prop} {user : AuthUser} {c messageId : Nat}

/-- The message is there, and nobody gets to see it any more. -/
def TakenDown (m : Message) (w : World) : Prop :=
  ∃ m' ∈ w.store.db .messages, MessageLater m m' ∧ gone (m' : Message).status = true

theorem Persists.takenDown (m : Message) : Persists db₀ (TakenDown m) := by
  rintro a w w' - - hg ⟨m', hm', hl, hv⟩
  obtain ⟨m'', hm'', hl'⟩ := hg.kept .messages nofun m' hm'
  have hl' : MessageLater m' m'' := hl'
  exact ⟨m'', hm'', hl.trans hl', hl'.stays hv⟩

theorem gone_mergeMessage {m msg stored : Message} (t : Nat)
    (h : stored.status = .deleted → gone m.status = true) :
    gone ((mergeMessage (erased msg t) stored).set m : Message).status = true := by
  change gone (changed .deleted stored.status m.status) = true
  rcases changed_cases .deleted stored.status m.status with ⟨e, hc⟩ | ⟨-, hc⟩
  · rw [hc]
    exact h e.symm
  · rw [hc]
    rfl

/-- The save leaves the stored row erased. -/
theorem spec_erase {m : Message} (hk : k = .softDelete user c messageId) (t : Nat)
    (hφ : Persists db₀ φ) (hm : ∀ w, φ w → Stored m w) :
    Spec db₀ g k p φ (saveMessage (erased m t)) (onOk fun _ w => φ w ∧ TakenDown m w) := by
  have read : Spec db₀ g k p φ (findOne .pool .messages fun r => r.id == (erased m t).id)
      (ends (· = .fault) fun o w => φ w ∧
        ∃ r : Message, o = some r ∧ r.id = m.id ∧ Stored r w) := by
    refine Spec.findOne (fun w hi _ hw _ => ⟨hw, ?_⟩) fun o =>
      hφ.and (.exists fun r => .and (.const _) (.and (.const _) (.stored r)))
    obtain ⟨m', hm', hl⟩ := (hm w hw).present
    cases hr : ((w.store.db .messages).filter fun r => r.id == (erased m t).id).head? with
    | none =>
      rw [List.head?_eq_none_iff, List.filter_eq_nil_iff] at hr
      exact (hr m' hm' (by simpa [erased] using hl.id)).elim
    | some r =>
      obtain ⟨hmem, hq⟩ := List.mem_filter.1 (List.mem_of_mem_head? hr)
      exact ⟨r, rfl, by simpa [erased] using hq, .of_read hi (.of_mem hi hmem)⟩
  refine read.toOk.seq fun o => ?_
  cases o with
  | none =>
    refine .absurd fun w _ h => ?_
    obtain ⟨-, r, e, -⟩ := h
    cases e
  | some stored =>
    have hψ : Persists db₀ fun w => φ w ∧ stored.id = m.id ∧ Stored stored w :=
      hφ.and (.and (.const _) (.stored stored))
    refine Spec.pre (φ := fun w => φ w ∧ stored.id = m.id ∧ Stored stored w) ?_ fun w _ h => ?_
    · subst hk
      have free : Free (.softDelete user c messageId) .pool .messages :=
        ⟨fun _ => id, fun h => absurd h (by decide)⟩
      -- what was read as deleted is gone
      have seen : ∀ w, Inv db₀ w → (φ w ∧ stored.id = m.id ∧ Stored stored w) →
          ∀ r ∈ w.store.db .messages, (r : Message).id = m.id → stored.status = .deleted →
            gone (r : Message).status = true := by
        intro w hi hw r hr hid hs
        obtain ⟨m', hm', hl⟩ := hw.2.2.present
        obtain rfl : m' = r := Schema.eq_of_key (hi.ok.unique .messages) hm' hr
          (k := .id m'.id) (List.mem_cons_self ..)
          (by simp [Schema.keys, primaryKey, hid, hl.id, hw.2.1])
        exact hl.stays (by simp [gone, hs])
      refine (Spec.updateWhere (t := .messages) (Q := TakenDown m) hψ False.elim
        (fun w st' ks hi hb hw _ hks hc => ⟨?_, ?_⟩) (.takenDown m)).bind (fun _ => ?_)
        fun _ _ _ _ => trivial
      · refine brings_update hi hb.1 free ⟨m, stored, t, rfl⟩ (fun r hr hq => ?_) hks hc
        exact still_mergeMessage t (seen w hi hw r hr (by simpa [erased] using hq))
      · obtain ⟨m₁, hm₁, hl⟩ := (hm w hw.1).present
        have hid : m₁.id = m.id := hl.id
        have later : MessageLater m₁ ((mergeMessage (erased m t) stored).set m₁) :=
          (still_mergeMessage t (seen w hi hw m₁ hm₁ hid)).1
        refine ⟨(mergeMessage (erased m t) stored).set m₁, ?_, hl.trans later,
          gone_mergeMessage t (seen w hi hw m₁ hm₁ hid)⟩
        have selected : schema.key .messages m₁ ∈ ks := by
          rw [hks]
          exact List.mem_map_of_mem (List.mem_filter.2 ⟨hm₁, by simpa [erased] using hid⟩)
        change _ ∈ st'.db .messages
        rw [hc.2, Schema.Write.applyAll_cons, Schema.Write.applyAll_nil, Schema.Write.apply_update]
        exact List.mem_map.2 ⟨m₁, hm₁, if_pos selected⟩
      · exact .pure fun _ _ h => ⟨h.1.1, h.2⟩
    · obtain ⟨hw, r, e, h⟩ := h
      cases e
      exact ⟨hw, h⟩

end Erasing

section Anonymizing

variable [AesGcm] [TokenHash] {db₀ : Db} {g : Nat → Op → World → Prop} {k : Call} {p : Nat}
  {φ : World → Prop} {user : AuthUser} {u : Nat}

/-- The user is anonymised. -/
def Anonymous (u : Nat) (db : Db) : Prop :=
  ∃ r ∈ db .users, (r : User).id = u ∧ (r : User).anonymizedAt ≠ none

theorem Kept.anonymous {db db' : Db} (h : Kept db db') (ha : Anonymous u db) : Anonymous u db' := by
  obtain ⟨r, hr, hid, hset⟩ := ha
  obtain ⟨r', hr', hl⟩ := h .users nofun r hr
  have hl : UserLater r r' := hl
  exact ⟨r', hr', hl.id.trans hid, hl.anonymized hset⟩

theorem Persists.anonymous (u : Nat) : Persists db₀ fun w => Anonymous u w.store.db :=
  fun _ _ _ _ _ hg h => hg.kept.anonymous h

/-- An update beside the transaction of the process. -/
theorem valid_beside {t : Table} {q : t.Row → Bool} {f : Nat → schema.Assign t} {ws : List Write}
    (hφ : Persists db₀ φ) (hfree : Free k .pool t) (hmay : ∀ ks now, May k (.update t ks (f now)))
    (hstill : ∀ now r, Still t r ((f now).set r)) :
    Protocol.Valid machine g (protocol db₀) p
      (fun w => (φ w ∧ Held p ws w) ∧ w.calls p = some k) (update .pool t q f)
      (ends (fun _ => True) fun _ w => (φ w ∧ Held p ws w) ∧ w.calls p = some k) := by
  have stable : (protocol db₀).Stable p fun w => (φ w ∧ Held p ws w) ∧ w.calls p = some k :=
    ((hφ.stable p).and (stable_held ws)).and ((Persists.call p k).stable p)
  refine Protocol.Valid.perform (fun i w r w' hi ⟨⟨hw, hh⟩, hk⟩ _ hx => ?_) fun r => ?_
  · rcases exec_update hi hx with ⟨rfl, e, rfl, -⟩ | ⟨st', ks, hks, rfl, hr, hok, hf, htx, hc, -⟩
    · exact ⟨hi, (Same.refl _).guar _, trivial⟩
    · have brings := brings_update hi hk hfree (hmay ks w.clock) (fun r _ _ => hstill _ r) hks hc
      obtain ⟨hi', hg⟩ := withStore_ok (a := some p) hi hk hok hf.weaken
        (fun _ h => (Option.some.inj h).symm) hc brings (.inl rfl) (htx ▸ hi.apart p)
      refine ⟨hi', hg, ?_⟩
      rcases hr with ⟨n, rfl⟩ | rfl
      · exact ⟨⟨hφ _ _ _ hi hi' hg hw, hh.imp fun _ h => htx.trans h⟩, hk⟩
      · trivial
  · cases r with
    | ok n => exact stable
    | error e => exact .const _ _ _

theorem valid_now (hφ : (protocol db₀).Stable p φ) :
    Protocol.Valid machine g (protocol db₀) p φ now fun _ => φ := by
  refine Protocol.Valid.perform (fun i w r w' hi hw _ hx => ?_) fun _ => hφ
  cases hx
  exact ⟨hi, (Same.refl _).guar _, hw⟩

/-- The writes of the transaction leave the user anonymised. -/
structure Anonymizes (k : Call) (u : Nat) (ws : List Write) (w : World) : Prop where
  quiet : ∀ x ∈ ws, Quiet k .tx x
  sets : Anonymous u w.store.db ∨ ∃ ks t rest, ws = .update .users ks (setAnonymized u t) :: rest ∧
    ∃ r ∈ w.store.db .users, (r : User).id = u ∧ Key.id u ∈ ks

theorem Anonymizes.commits {ws : List Write} {w : World} {st' : State schema}
    (h : Anonymizes k u ws w) (hc : State.Commits p ws w.store st') : Anonymous u st'.db := by
  have kept : ∀ ws', (∀ x ∈ ws', Quiet k .tx x) → ∀ db, Kept db (Schema.Write.applyAll ws' db) :=
    fun ws' hq db => kept_applyAll (.of_forall (fun x hx db => ((hq x hx).calm db).lawful) db)
  rw [hc.2]
  rcases h.sets with ha | ⟨ks, t, rest, rfl, r, hr, hid, hmem⟩
  · exact (kept ws h.quiet _).anonymous ha
  · rw [Schema.Write.applyAll_cons]
    refine (kept rest (fun x hx => h.quiet x (List.mem_cons_of_mem _ hx)) _).anonymous
      ⟨(setAnonymized u t).set r, ?_, hid, nofun⟩
    rw [Schema.Write.apply_update]
    exact List.mem_map.2 ⟨r, hr, if_pos (by simpa [schema, primaryKey, hid] using hmem)⟩

theorem quiet_anonymize {user : AuthUser} (ks : List Key) (t : Nat) :
    Quiet (.anonymize user u) .tx (.update .users ks (setAnonymized u t)) :=
  ⟨⟨free_of rfl rfl, .inl trivial⟩, fun _ => ⟨⟨rfl, fun _ => nofun⟩, trivial⟩⟩

theorem quiet_wipe {user : AuthUser} (ks : List Key) (t : Nat) :
    Quiet (.anonymize user u) .tx (.update .messages ks (wiped t)) :=
  ⟨⟨⟨fun _ => id, nofun⟩, ⟨t, rfl⟩⟩, fun m => still_wiped t m⟩

/-- The body of the transaction. -/
theorem valid_anonymizing (user : AuthUser) (u : Nat) :
    Protocol.Valid machine g (protocol db₀) p
      (fun w => (True ∧ Held p [] w) ∧ w.calls p = some (.anonymize user u))
      (anonymizeInTransaction u)
      (ends (fun _ => True) fun _ w => ∃ ws, Held p ws w ∧
        Anonymizes (.anonymize user u) u ws w) := by
  have call : Persists db₀ fun w => w.calls p = some (.anonymize user u) := .call p _
  have found : Persists db₀ fun w => ∃ r ∈ w.store.db .users, (r : User).id = u := by
    rintro a w w' - - hg ⟨r, hr, hid⟩
    obtain ⟨r', hr', hl⟩ := hg.kept .users nofun r hr
    exact ⟨r', hr', (UserLater.id hl).trans hid⟩
  refine Protocol.Valid.bind ((valid_viewOne (k := .anonymize user u) (E := fun _ => True)
    (Q := fun o w => ∀ r : User, o = some r → (∃ r ∈ w.store.db .users, (r : User).id = u) ∧
      (r.anonymizedAt ≠ none → Anonymous u w.store.db)) call.tame (fun _ h => h)
    (fun w hi hk hh r hr => ?_) (fun o => .forall fun r => .imp fun _ => ?_) trivial).pre
      fun w _ h => ⟨h.2, h.1.2⟩) (fun o => ?_) fun _ _ _ _ => trivial
  · obtain ⟨hmem, hid⟩ := List.mem_filter.1 (List.mem_of_head? hr)
    exact ⟨⟨r, hmem, beq_iff_eq.1 hid⟩, fun ha => ⟨r, hmem, beq_iff_eq.1 hid, ha⟩⟩
  · exact (found.and (.imp fun _ => .anonymous u)).tame
  cases o with
  | none => exact .throw fun _ _ _ => trivial
  | some r =>
    have hφ : Persists db₀ fun w => w.calls p = some (.anonymize user u) ∧
        (∃ r ∈ w.store.db .users, (r : User).id = u) ∧
          (r.anonymizedAt ≠ none → Anonymous u w.store.db) :=
      call.and (found.and (.imp fun _ => .anonymous u))
    refine Protocol.Valid.pre (φ := fun w => (w.calls p = some (.anonymize user u) ∧
      (∃ r ∈ w.store.db .users, (r : User).id = u) ∧
        (r.anonymizedAt ≠ none → Anonymous u w.store.db)) ∧ Held p [] w) ?_
      fun w _ h => ⟨⟨h.1.1, h.1.2 r rfl⟩, h.2⟩
    refine Protocol.Valid.ite (fun hs => ?_) fun _ => ?_
    · -- somebody anonymised the user before
      refine .pure fun w _ ⟨⟨_, _, ha⟩, hh⟩ => ?_
      have done : Anonymous u w.store.db := ha (Option.isSome_iff_ne_none.1 hs)
      exact ⟨[], hh, fun _ hx => (List.not_mem_nil hx).elim, .inl done⟩
    have kept (ws : List Write) : (protocol db₀).Stable p _ := (hφ.stable p).and (stable_held ws)
    refine Protocol.Valid.bind (valid_now (kept [])) (fun t => ?_) fun _ _ _ _ => trivial
    refine Protocol.Valid.bind (valid_update (t := .users) (k := .anonymize user u)
      (E := fun _ => True) (Q := fun _ ks => Key.id u ∈ ks) (by decide) hφ.tame (fun _ h => h.1)
      (fun w _ _ h _ => ?_) (fun _ => trivial) trivial) (fun _ => ?_) fun _ _ _ _ => trivial
    · obtain ⟨r', hr', hid⟩ := h.2.1
      exact List.mem_map.2 ⟨r', List.mem_filter.2 ⟨hr', beq_iff_eq.2 hid⟩, congrArg Key.id hid⟩
    refine Protocol.Valid.pre (φ := fun w => ∃ now ks, (w.calls p = some (.anonymize user u) ∧
      (∃ r ∈ w.store.db .users, (r : User).id = u) ∧ Key.id u ∈ ks) ∧
        Held p [.update .users ks (setAnonymized u now)] w) ?_
      fun w _ ⟨h, now, ks, hks, hh⟩ => ⟨t, ks, ⟨h.1, h.2.1, hks⟩, hh⟩
    refine .exists fun now => .exists fun ks => ?_
    have hψ : Persists db₀ fun w => w.calls p = some (.anonymize user u) ∧
        (∃ r ∈ w.store.db .users, (r : User).id = u) ∧ Key.id u ∈ ks :=
      call.and (found.and (.const _))
    refine Protocol.Valid.bind (valid_update (t := .messages) (k := .anonymize user u)
      (E := fun _ => True) (Q := fun _ _ => True) (by decide) hψ.tame (fun _ h => h.1)
      (fun _ _ _ _ _ => trivial) (fun _ => trivial) trivial) (fun _ => ?_) fun _ _ _ _ => trivial
    refine Protocol.Valid.pre (φ := fun w => ∃ t' ks', (w.calls p = some (.anonymize user u) ∧
      (∃ r ∈ w.store.db .users, (r : User).id = u) ∧ Key.id u ∈ ks) ∧
        Held p [.update .users ks (setAnonymized u now), .update .messages ks' (wiped t')] w) ?_
      fun w _ ⟨h, t', ks', _, hh⟩ => ⟨t', ks', h, hh⟩
    refine .exists fun t' => .exists fun ks' => ?_
    -- the tokens are revoked on another connection
    refine Protocol.Valid.bind (valid_now ((hψ.stable p).and (stable_held _))) (fun _ => ?_)
      fun _ _ _ _ => trivial
    have free : Free (.anonymize user u) .pool .refreshTokens :=
      ⟨nofun, fun _ => ⟨rfl, fun _ => id⟩⟩
    refine Protocol.Valid.bind ((valid_beside (t := .refreshTokens) (k := .anonymize user u) hψ
      free (fun _ _ => trivial) fun _ r => ⟨later_setRevoked _ _ r, trivial⟩).pre
        fun w _ h => ⟨h, h.1.1⟩) (fun _ => .pure fun w _ h => ?_) fun _ _ _ _ => trivial
    obtain ⟨⟨⟨-, ⟨r', hr', hid⟩, hks⟩, hh⟩, -⟩ := h
    refine ⟨_, hh, fun x hx => ?_, .inr ⟨ks, now, _, rfl, r', hr', hid, hks⟩⟩
    rcases List.mem_cons.1 hx with rfl | hx
    · exact quiet_anonymize ks now
    · rw [List.mem_singleton.1 hx]
      exact quiet_wipe ks' t'

end Anonymizing

section Vouching

variable [AesGcm] [TokenHash] {db₀ : Db} {g : Nat → Op → World → Prop} {k : Call} {p : Nat}
  {φ : World → Prop} {user : AuthUser} {c : Nat}

theorem Plain.vouches {o : Op} (h : Plain o) (w : World) : Vouches o w := by
  refine ⟨?_, ?_⟩
  · rintro b rfl
    exact h.elim
  · rintro make rfl
    exact h.elim

/-- The entries that say more than that the call was made. -/
def telling : List String := ["message.deleted", "message.reported", "privacy.anonymized"]

theorem warranted_of_not_telling {r : AuditLog} (h : r.action ∉ telling) (w : World) :
    Warranted r w := by
  refine ⟨fun hr => ?_, fun hr => ?_, fun hr => ?_⟩
  · exact (h (hr ▸ by decide)).elim
  · exact (h (hr ▸ by decide)).elim
  · exact (h (hr ▸ by decide)).elim

theorem Footprint.vouches {o : Op} (h : Footprint k o) (he : ∀ b, ¬Emits k b)
    (hk : ∀ action, Logs k action → action ∉ telling) (w : World) : Vouches o w := by
  refine ⟨?_, ?_⟩
  · rintro b rfl
    exact (he b h).elim
  · rintro make rfl f hf id t
    obtain ⟨u, -, -, logs⟩ := h.2 f hf id t
    exact warranted_of_not_telling (hk _ logs) w

/-- An entry that is so is written to the log. -/
theorem vouches_audit {actorId : Option Nat} {action targetType : String} {targetId : Option Nat}
    {metadata : List (String × Json)} (hφ : Persists db₀ φ)
    (h : ∀ w, φ w → ∀ id now,
      Warranted ⟨id, actorId, action, targetType, targetId, metadata, now⟩ w) :
    Assures Vouches db₀ g k p φ (audit actorId action targetType targetId metadata) fun _ => φ := by
  have logs : Spec db₀ g k p φ (audit actorId action targetType targetId metadata) fun _ => φ :=
    .quiet (uses_audit ..) hφ
  refine Protocol.Valid.asserts_first logs (fun w _ hw => ⟨nofun, fun make e f hf id t => ?_⟩)
    fun r => ?_
  · cases e
    obtain rfl := List.mem_singleton.1 hf
    exact h w hw.2 id t
  · rcases r with e | (_ | ⟨_, _⟩) <;> trivial

theorem vouches_broadcast {b : Broadcast} (hφ : Persists db₀ φ) (hb : ∀ w, φ w → Heard w b) :
    Assures Vouches db₀ g k p φ (broadcast b) fun _ => φ := by
  have settings : Assures Vouches db₀ g k p φ settings fun _ => φ :=
    (Spec.quiet uses_settings hφ).assures (plain_settings.mono fun _ h => h.vouches)
  refine Protocol.Asserts.bind settings
    (fun cfg => .ite (fun _ => .pure fun _ _ h => h) fun _ => ?_) fun _ _ _ h => h
  have emit : Spec db₀ g k p φ (perform (.emit b)) fun _ => φ := .quiet (uses_perform trivial) hφ
  refine Protocol.Valid.asserts_first emit (fun w _ h => ⟨fun b' e => ?_, nofun⟩) fun r => ?_
  · cases e
    exact hb w h.2
  · cases r <;> trivial

theorem vouches_access {f : Conversation × Role → App Response}
    (hf : ∀ conv, Assures Vouches db₀ g k p (Accessed user c) (f conv) fun _ _ => True) :
    Assures Vouches db₀ g k p (fun _ => True) (assertCanAccess user c >>= f) fun _ _ => True := by
  have joined : ∀ action, Logs (.getOne user c) action → action ∉ telling := by
    intro action h
    cases h
    decide
  have access : (assertCanAccess user c).Uses fun o => ∀ w, Vouches o w :=
    (footprint_access (k := .getOne user c) rfl trivial).mono fun _ h =>
      h.vouches (fun _ h => h) joined
  refine Protocol.Asserts.bind ((spec_assertCanAccess user c persists_true).assures access)
    (fun conv => ?_) fun _ _ _ h => ⟨h.1, trivial⟩
  exact (hf conv).pre fun _ _ h => ⟨h.1, h.2.2.2⟩

theorem vouches_markRead {upto : Utf16} :
    Assures Vouches db₀ g (.markRead user c upto) p (fun _ => True) (code (.markRead user c upto))
      fun _ _ => True := by
  refine vouches_access fun conv => ?_
  have hφ : Persists db₀ fun w => Accessed user c w ∧
      w.calls p = some (.markRead user c upto) := .and (.accessed user c) (.call p _)
  have marks : Assures Vouches db₀ g (.markRead user c upto) p _ _ fun _ => _ :=
    (Spec.quiet (uses_markRead rfl user.sub).of_bind hφ).assures
      ((plain_markReadInTransaction c user.sub upto).mono fun _ h => h.vouches)
  have told : Assures Vouches db₀ g (.markRead user c upto) p _ _ fun _ => _ :=
    vouches_broadcast (b := .read c user.sub upto) hφ fun w h => ⟨p, user, h.2, rfl, h.1⟩
  refine Protocol.Asserts.bind ((Protocol.Asserts.bind marks (fun _ => told)
    fun _ _ _ h => h).pre fun _ _ h => ⟨h.1, h.2, h.1.1⟩) (fun _ => ?_)
      fun _ _ _ h => ⟨h.1, trivial⟩
  exact .pure fun _ _ h => ⟨h.1, trivial⟩

theorem vouches_softDelete {m : Nat} :
    Assures Vouches db₀ g (.softDelete user c m) p (fun _ => True) (code (.softDelete user c m))
      fun _ _ => True := by
  refine vouches_access fun conv => ?_
  have quietly {β : Type} {x : App β} {ψ : World → Prop} : x.Uses (QuietOp _) → x.Uses Plain →
      Persists db₀ ψ → Assures Vouches db₀ g (.softDelete user c m) p ψ x fun _ => ψ :=
    fun hq hx hψ => (Spec.quiet hq hψ).assures (hx.mono fun _ h => h.vouches)
  have deletes : Assures Vouches db₀ g (.softDelete user c m) p (fun _ => True)
      (softDelete m user.sub) fun _ _ => True := by
    have found : Spec db₀ g (.softDelete user c m) p (fun _ => True) _ _ :=
      Spec.row (t := .messages) (fun r => r.id == m) persists_true
    refine Protocol.Asserts.bind (found.assures (any_findOne fun _ => ⟨nofun, nofun⟩)) (fun o => ?_)
      fun _ _ _ h => ⟨h.1, trivial⟩
    cases o with
    | none => exact .throw fun _ _ h => ⟨h.1, trivial⟩
    | some msg =>
      refine asserts_refuse (fun hs => ?_) fun _ _ h => ⟨h.1, trivial⟩
      have hψ : Persists db₀ fun w => msg.id = m ∧ msg.senderId = user.sub ∧ Stored msg w :=
        .and (.const _) (.and (.const _) (.stored msg))
      refine Protocol.Asserts.bind ((quietly uses_now plain_now hψ).pre fun w hi h => ⟨h.1,
        by simpa using (h.2.2 msg rfl).1, not_not.1 hs, .of_read hi (h.2.2 msg rfl).2⟩)
        (fun t => ?_) fun _ _ _ h => ⟨h.1, trivial⟩
      refine Protocol.Asserts.bind ((spec_erase rfl t hψ fun _ h => h.2.2).assures
        ((plain_saveMessage _).mono fun _ h => h.vouches)) (fun _ => ?_)
          fun _ _ _ h => ⟨h.1, trivial⟩
      have hR : Persists db₀ fun w => (msg.id = m ∧ msg.senderId = user.sub ∧ Stored msg w) ∧
          TakenDown msg w := hψ.and (.takenDown msg)
      refine Protocol.Asserts.bind (vouches_audit hR fun w h id t => .of_deleted rfl ?_)
        (fun _ => ?_) fun _ _ _ h => ⟨h.1, trivial⟩
      · obtain ⟨⟨hid, hsender, -⟩, m', hm', hl, hv⟩ := h
        exact ⟨m', hm', congrArg some (hid.symm.trans hl.id.symm),
          congrArg some (hsender.symm.trans hl.senderId.symm), hv⟩
      · refine (vouches_broadcast hR fun w h => ?_).post fun _ _ _ h => ⟨h.1, trivial⟩
        obtain ⟨-, m', hm', hl, hv⟩ := h
        exact ⟨m', hm', hl.id, hl.conversationId, hl.sequence, hv⟩
  refine Protocol.Asserts.bind (deletes.pre fun _ _ h => ⟨h.1, trivial⟩) (fun _ => ?_)
    fun _ _ _ h => h
  exact .pure fun _ _ h => h

theorem vouches_report {m : Nat} {reason : Utf16} {details : Option Utf16} :
    Assures Vouches db₀ g (.report user m reason details) p (fun _ => True)
      (code (.report user m reason details)) fun _ _ => True := by
  have reports : Assures Vouches db₀ g (.report user m reason details) p (fun _ => True)
      (report m user.sub reason details) fun _ _ => True := by
    have found : Spec db₀ g (.report user m reason details) p (fun _ => True) _ _ :=
      Spec.row (t := .messages) (fun r => r.id == m) persists_true
    refine Protocol.Asserts.bind (found.assures (any_findOne fun _ => ⟨nofun, nofun⟩)) (fun o => ?_)
      fun _ _ _ h => ⟨h.1, trivial⟩
    cases o with
    | none => exact .throw fun _ _ h => ⟨h.1, trivial⟩
    | some msg =>
      have hψ : Persists db₀ fun w => msg.id = m ∧ Stored msg w := .and (.const _) (.stored msg)
      have inserts : Assures Vouches db₀ g (.report user m reason details) p _
          (insertOne .pool .reports (newReport m user.sub reason details)) fun _ => _ :=
        (Spec.quiet (uses_insertOne (t := .reports) (free_of rfl rfl)
          fun _ _ => ⟨.inr rfl, trivial⟩) hψ).assures (any_insertOne fun _ => ⟨nofun, nofun⟩)
      refine Protocol.Asserts.bind (inserts.pre fun w hi h => ⟨h.1,
        by simpa using (h.2.2 msg rfl).1, .of_read hi (h.2.2 msg rfl).2⟩) (fun r => ?_)
        fun _ _ _ h => ⟨h.1, trivial⟩
      refine Protocol.Asserts.bind (vouches_audit hψ fun w h id t => .of_reported rfl ?_)
        (fun _ => .pure fun _ _ h => ⟨h.1, trivial⟩) fun _ _ _ h => ⟨h.1, trivial⟩
      obtain ⟨hid, stored⟩ := h
      obtain ⟨m', hm', hl⟩ := stored.present
      exact ⟨m', hm', congrArg some (hid.symm.trans hl.id.symm)⟩
  refine Protocol.Asserts.bind reports (fun _ => ?_) fun _ _ _ h => h
  exact .pure fun _ _ h => h

theorem vouches_anonymizing {u : Nat} :
    Assures Vouches db₀ g (.anonymize user u) p (fun _ => True) (anonymizeUser u user.sub)
      fun _ _ => True := by
  have body := Protocol.Valid.asserts
    (valid_anonymizing user u : Protocol.Valid machine g (protocol db₀) p _ _ _)
    ((plain_anonymizeInTransaction u).mono fun _ h => h.vouches)
  have erases := asserts_transaction (E := fun _ => True) (φ := fun _ => True) (C := Vouches)
    (R := fun _ ws w => Anonymizes (.anonymize user u) u ws w)
    (Q := fun _ w => Anonymous u w.store.db) persists_true.tame body
    (fun _ ws w st' hi hk _ ha hc _ => ⟨.quiet (fun _ => hk) ha.quiet hi.db.numbered hc.2,
      ha.commits hc⟩) trivial (fun _ => .anonymous u)
    fun w => ⟨⟨nofun, nofun⟩, ⟨nofun, nofun⟩, ⟨nofun, nofun⟩⟩
  refine Protocol.Asserts.bind (erases.pre fun w _ h => ⟨h.1.1, trivial, .inr trivial⟩)
    (fun _ => ?_) fun _ _ _ h => ⟨base_of_idle id id h.1.1 h.1.2, trivial⟩
  have tells : Assures Vouches db₀ g (.anonymize user u) p (fun w => Anonymous u w.store.db)
      (audit (some user.sub) "privacy.anonymized" "user" (some u) []) fun _ w =>
        Anonymous u w.store.db := by
    refine vouches_audit (.anonymous u) fun w h id t => .of_anonymized rfl ?_
    obtain ⟨r, hr, hid, ha⟩ := h
    exact ⟨r, hr, congrArg some hid.symm, ha⟩
  exact (tells.pre fun _ _ h => ⟨base_of_idle id id h.1.1 h.1.2, h.2⟩).post
    fun _ _ _ h => ⟨h.1, trivial⟩

theorem vouches_anonymize {u : Nat} :
    Assures Vouches db₀ g (.anonymize user u) p (fun _ => True) (code (.anonymize user u))
      fun _ _ => True := by
  have guarded : Spec db₀ g (.anonymize user u) p (fun _ => True)
      (onlyIf (u ≠ user.sub) (requireRole user [.admin])) fun _ _ => True :=
    .quiet (.ite (fun _ => .ite (fun _ => trivial) fun _ => trivial) fun _ => trivial) persists_true
  refine Protocol.Asserts.bind (guarded.assures (.ite (fun _ => .ite (fun _ => trivial)
    fun _ => trivial) fun _ => trivial)) (fun _ => ?_) fun _ _ _ h => h
  exact Protocol.Asserts.bind vouches_anonymizing (fun _ => .pure fun _ _ h => h) fun _ _ _ h => h

/-- What a call that is no send tells is so. -/
theorem vouching_code (hk : ¬IsSend k) :
    Protocol.Asserts machine g (protocol db₀) p Vouches (Start p k) (code k) fun _ _ => True := by
  -- the calls that neither emit nor journal anything but that they were made
  have others (he : ∀ b, ¬Emits k b) (hl : ∀ action, Logs k action → action ∉ telling) :
      Protocol.Asserts machine g (protocol db₀) p Vouches (Start p k) (code k) fun _ _ => True :=
    ((serves_code k).asserts ((footprint_code k).mono fun _ ho => ho.vouches he hl)).post
      fun _ _ _ _ => trivial
  have telling {Q : Except Err Response → World → Prop}
      (h : Assures Vouches db₀ g k p (fun _ => True) (code k) Q) :
      Protocol.Asserts machine g (protocol db₀) p Vouches (Start p k) (code k) fun _ _ => True :=
    (h.pre fun _ _ h => ⟨h.base, trivial⟩).post fun _ _ _ _ => trivial
  cases k with
  | send user c body key => exact (hk trivial).elim
  | markRead user c upto => exact telling vouches_markRead
  | softDelete user c m => exact telling vouches_softDelete
  | report user m reason details => exact telling vouches_report
  | anonymize user u => exact telling vouches_anonymize
  | resolve user r action =>
    refine others (fun _ h => h) fun _ h => ?_
    cases h with
    | joined hu _ hv => exact hv.elim
    | resolved _ => cases action <;> decide
  | _ => exact others (fun _ h => h) fun _ h => by cases h <;> decide

end Vouching

section Runs

variable [AesGcm] [TokenHash] {g : Nat → Op → World → Prop} {w₀ : World} {k : Call} {p : Nat}
  {P : Pool Op Op.Res Err World Call Response}

theorem vouches_reach (h : machine.Reach (From w₀) g P) (hk : ¬IsSend k) {o : Op}
    {next : Except Err o.Res → App Response} (ht : P.threads p = some ⟨k, some (.op o next)⟩) :
    Vouches o P.shared := by
  have all : ∀ q k', Protocol.Asserts machine g (protocol w₀.store.db) q
      (fun o w => ¬IsSend k' → Vouches o w) (Start q k') (code k') fun _ _ => True := by
    intro q k'
    by_cases hs : IsSend k'
    · exact ((serves_code k').asserts ((Prog.uses_true _).mono fun _ _ _ hn => (hn hs).elim)).post
        fun _ _ _ _ => trivial
    · exact (vouching_code hs).imp fun _ _ ho _ => ho
  exact (sound g w₀).asserts all h ht hk

/-- What a call emits is so. -/
theorem heard_reach (h : machine.Reach (From w₀) g P) {b : Broadcast}
    {next : Except Err _ → App Response}
    (ht : P.threads p = some ⟨k, some (.op (.emit b) next)⟩) : Heard P.shared b := by
  by_cases hs : IsSend k
  · cases k with
    | send user c body key =>
      have call := call_of_thread h ht
      refine (sends_assert (C := fun o w => w.calls p = some (.send user c body key) → Airs o w) h
        ⟨fun o ho w _ b e => ?_, fun cols conv w _ _ _ _ _ b e => (nomatch e),
          fun d w _ hr hc b e => ?_⟩
        ht).1 _ _ rfl call b rfl
      · subst e
        exact ho.elim
      · cases e
        exact hr.heard hc
    | _ => exact hs.elim
  · exact (vouches_reach h hs ht).1 b rfl

/-- What a call writes to the audit log is so. -/
theorem warranted_reach (h : machine.Reach (From w₀) g P)
    {make : List (Nat → Nat → AuditLog)} {next : Except Err _ → App Response}
    (ht : P.threads p = some ⟨k, some (.op (logging make) next)⟩) :
    ∀ f ∈ make, ∀ id now, Warranted (f id now) P.shared := by
  by_cases hs : IsSend k
  · intro f hf id now
    obtain ⟨u, -, -, logs⟩ := entry_reach h ht f hf id now
    refine warranted_of_not_telling ?_ P.shared
    cases k with
    | send user c body key =>
      generalize (f id now).action = action at logs
      cases logs <;> decide
    | _ => exact hs.elim
  · exact (vouches_reach h hs ht).2 make rfl

end Runs

end Messageries.Proofs
