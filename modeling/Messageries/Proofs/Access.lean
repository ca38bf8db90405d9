import Messageries.Proofs.Services

set_option linter.unusedSectionVars false

namespace Messageries.Proofs

open Text Relational Database Crypto Concurrency Backend Moderation

variable [AesGcm] [TokenHash] {db₀ : Db} {g : Nat → Op → World → Prop} {k : Call} {p : Nat}
  {φ : World → Prop}

section Select

variable {t : Table} {i : Input} {w w' : World}

theorem exec_select {q : Db → Nat → t.Row → Bool}
    {r : Except Err (Op.query .pool (.select t q)).Res}
    (h : World.exec p i (.query .pool (.select t q)) w = some (r, w')) :
    w' = w ∧ (r = .ok ((w.store.db t).filter (q w.store.db w.clock)) ∨ r = .error .fault) := by
  rcases exec_query h with ⟨r₀, st', hq, rfl, hr⟩ | ⟨rfl, rfl | ⟨hc, -⟩⟩
  · have e : st' = w.store ∧ r₀ = .ok ((w.store.db t).filter (q w.store.db w.clock)) := by
      simp only [State.query, Schema.Stmt.plan, List.all_nil, ↓reduceIte, Option.some.injEq,
        Prod.mk.injEq] at hq
      exact ⟨by simp [← hq.2, State.write], hq.1.symm⟩
    obtain ⟨rfl, rfl⟩ := e
    exact ⟨rfl, hr⟩
  · exact ⟨rfl, .inr rfl⟩
  · cases hc

namespace Spec

/-- An operation that never fails. -/
theorem sure {o : Op} {E : Err → Prop} (ho : QuietOp k o)
    (h : ∀ i w r w', World.exec p i o w = some (r, w') → ∃ a, r = .ok a) (hφ : Persists db₀ φ) :
    Spec db₀ g k p φ (Backend.perform o) (ends E fun _ => φ) := by
  refine Spec.perform ho (fun i w r w' hi _ hw _ hx hi' hg => ?_) fun r => .ends (fun _ => hφ) r
  obtain ⟨a, rfl⟩ := h i w r w' hx
  exact hφ _ w w' hi hi' hg hw

theorem now {E : Err → Prop} (hφ : Persists db₀ φ) :
    Spec db₀ g k p φ Backend.now (ends E fun _ => φ) :=
  sure trivial (fun _ _ _ _ h => by cases h; exact ⟨_, rfl⟩) hφ

theorem settings {E : Err → Prop} (hφ : Persists db₀ φ) :
    Spec db₀ g k p φ Backend.settings (ends E fun _ => φ) :=
  sure trivial (fun _ _ _ _ h => by cases h; exact ⟨_, rfl⟩) hφ

theorem random {E : Err → Prop} (n : Nat) (hφ : Persists db₀ φ) :
    Spec db₀ g k p φ (Backend.perform (.random n)) (ends E fun _ => φ) :=
  sure trivial (fun _ _ _ _ h => by cases h; exact ⟨_, rfl⟩) hφ

theorem select {q : t.Row → Bool} {Q : List t.Row → World → Prop}
    (h : ∀ w, Inv db₀ w → Base k p w → φ w → g p (.query .pool (.select t fun _ _ => q)) w →
      Q ((w.store.db t).filter q) w)
    (hQ : ∀ rows, Persists db₀ (Q rows)) :
    Spec db₀ g k p φ (Backend.select .pool t q) (ends (· = .fault) Q) := by
  refine Spec.perform trivial (fun i w r w' hi hb hφ hg hx _ _ => ?_) fun r => .ends hQ r
  obtain ⟨rfl, rfl | rfl⟩ := exec_select hx
  · exact (h _ hi hb hφ hg)
  · exact rfl

theorem findOne {q : t.Row → Bool} {Q : Option t.Row → World → Prop}
    (h : ∀ w, Inv db₀ w → Base k p w → φ w → g p (.query .pool (.select t fun _ _ => q)) w →
      Q ((w.store.db t).filter q).head? w)
    (hQ : ∀ r, Persists db₀ (Q r)) :
    Spec db₀ g k p φ (Backend.findOne .pool t q) (ends (· = .fault) Q) :=
  (select (Q := fun rows => Q rows.head?) h fun _ => hQ _).seq fun _ =>
    Spec.pure fun _ _ h => h

/-- What a reader knows of the rows it selected. -/
theorem rows (q : t.Row → Bool) (hφ : Persists db₀ φ) :
    Spec db₀ g k p φ (Backend.select .pool t q)
      (ends (· = .fault) fun rows w => φ w ∧ ∀ r ∈ rows, q r = true ∧ Read db₀ t r w) := by
  refine select (fun w hi _ hw _ => ⟨hw, fun r hr => ?_⟩) fun rows =>
    hφ.and (.forall fun r => .imp fun _ => .and (.const _) (.read t r))
  obtain ⟨hr, hq⟩ := List.mem_filter.1 hr
  exact ⟨hq, .of_mem hi hr⟩

theorem row (q : t.Row → Bool) (hφ : Persists db₀ φ) :
    Spec db₀ g k p φ (Backend.findOne .pool t q)
      (ends (· = .fault) fun o w => φ w ∧ ∀ r, o = some r → q r = true ∧ Read db₀ t r w) :=
  (rows q hφ).seq fun _ => Spec.pure fun _ _ h => ⟨h.1, fun r hr =>
    h.2 r (List.mem_of_mem_head? hr)⟩

end Spec

end Select

section Insert

variable {t : Table} {i : Input} {w w' : World}

/-- An insert on a connection of the pool. -/
theorem exec_insert {make : List (Nat → Nat → t.Row)}
    {r : Except Err (Op.query .pool (.insert t make)).Res} (hi : Inv db₀ w)
    (h : World.exec p i (.query .pool (.insert t make)) w = some (r, w')) :
    (w' = w ∧ ∃ e, r = .error e ∧ StoreError e) ∨
    ∃ st' rows, rows = make.mapIdx (fun j f => f (w.store.nextId + j) w.clock) ∧
      w' = w.withStore st' ∧ (r = .ok rows ∨ r = .error .fault) ∧ st'.Ok ∧
      State.Frame none w.store st' ∧ st'.tx p = w.store.tx p ∧
      State.Commits p (rows.map (.insert t)) w.store st' ∧
      st'.nextId = w.store.nextId + make.length := by
  rcases exec_query h with ⟨r₀, st', hq, rfl, hr⟩ | ⟨rfl, rfl | ⟨hc, -⟩⟩
  · obtain ⟨hok, hf⟩ := State.query_ok hi.ok hq
    rcases State.query_cases hq with ⟨e, rfl, rfl | ⟨hc, -⟩⟩ | ⟨tx, a, hc, -⟩ |
      ⟨a, -, rfl, ha, -, rfl⟩
    · rcases hr with rfl | rfl
      · exact .inl ⟨rfl, _, rfl, .inr ⟨e, rfl⟩⟩
      · exact .inl ⟨rfl, _, rfl, .inl rfl⟩
    · cases hc
    · cases hc
    · obtain ⟨hrows, -, hw, -, hid⟩ := Schema.Stmt.plan_insert ha
      exact .inr ⟨_, a, hrows, rfl, hr, hok, hf, rfl, hw ▸ ⟨rfl, rfl⟩,
        congrArg (w.store.nextId + ·) hid⟩
  · exact .inl ⟨rfl, _, rfl, .inl rfl⟩
  · cases hc

theorem numbered_of_eq {db db' : Db} (h : Numbered db) (hm : db' .messages = db .messages)
    (hc : db' .conversations = db .conversations) : Numbered db' := by
  intro c hc'
  rw [hc] at hc'
  have := h c hc'
  rwa [sequences, ← hm] at this

namespace Spec

/-- An insert on a connection of the pool, by what its rows bring along. -/
theorem insertAll {make : List (Nat → Nat → t.Row)} {Q : List t.Row → World → Prop}
    (hφ : Persists db₀ φ) (hk : Rotates k → t ≠ .refreshTokens) (hs : IsSend k → ofSend t = false)
    (h : ∀ w st' rows, Inv db₀ w → Base k p w → φ w → g p (.query .pool (.insert t make)) w →
      rows = make.mapIdx (fun j f => f (w.store.nextId + j) w.clock) →
      State.Commits p (rows.map (.insert t)) w.store st' →
      st'.nextId = w.store.nextId + make.length →
      Brings db₀ w.calls w.arrived w.keyLog p (rows.map (.insert t)) w.store st' ∧
        Q rows (w.withStore st'))
    (hQ : ∀ rows, Persists db₀ (Q rows)) :
    Spec db₀ g k p φ (Backend.insertAll .pool t make) fun r w => φ w ∧ ends StoreError Q r w := by
  refine Protocol.Valid.perform (fun i w r w' hi hw hg hx => ?_) fun r =>
    stable_base.and ((hφ.and (.ends hQ r)).stable p)
  rcases exec_insert hi hx with ⟨rfl, e, rfl, he⟩ |
    ⟨st', rows, hrows, rfl, hr, hok, hf, htx, hc, hid⟩
  · exact ⟨hi, (Same.refl _).guar _, hw.1, hw.2, he⟩
  · obtain ⟨hb, hQ⟩ := h w st' rows hi hw.1 hw.2 hg hrows hc hid
    obtain ⟨hi', hg'⟩ := withStore_ok (a := some p) hi hw.1.1 hok hf.weaken
      (fun _ h => (Option.some.inj h).symm) hc hb (.inl rfl) (htx ▸ hi.apart p)
    have steady : Steady k p (w.withStore st') := by
      refine hw.1.2.commits (.inl htx) hc (fun hrot _ hmem => ?_) fun hsend x hmem => ?_
      · obtain ⟨r', -, e⟩ := List.mem_map.1 hmem
        cases e
        exact hk hrot rfl
      · obtain ⟨r', -, rfl⟩ := List.mem_map.1 hmem
        exact hs hsend
    refine ⟨hi', hg', ⟨hg'.calls p k hw.1.1, steady⟩, hφ _ _ _ hi hi' hg' hw.2, ?_⟩
    rcases hr with rfl | rfl
    · exact hQ
    · exact .inl rfl

theorem insertOne {make : Nat → Nat → t.Row} {Q : t.Row → World → Prop} (hφ : Persists db₀ φ)
    (hk : Rotates k → t ≠ .refreshTokens) (hs : IsSend k → ofSend t = false)
    (h : ∀ w st', Inv db₀ w → Base k p w → φ w → g p (.query .pool (.insert t [make])) w →
      State.Commits p [.insert t (make w.store.nextId w.clock)] w.store st' →
      st'.nextId = w.store.nextId + 1 →
      Brings db₀ w.calls w.arrived w.keyLog p [.insert t (make w.store.nextId w.clock)] w.store st' ∧
        Q (make w.store.nextId w.clock) (w.withStore st'))
    (hQ : ∀ r, Persists db₀ (Q r)) :
    Spec db₀ g k p φ (Backend.insertOne .pool t make) fun r w => φ w ∧ onOk Q r w := by
  refine (insertAll (Q := fun rows w => ∀ r, rows.head? = some r → Q r w) hφ hk hs
    (fun w st' rows hi hb hw hg hrows hc hid => ?_)
    fun rows => .forall fun r => .imp fun _ => hQ r).bind (fun rows => ?_)
    fun _ _ _ h => ⟨h.1, trivial⟩
  · obtain rfl : rows = [make w.store.nextId w.clock] := hrows
    refine (h w st' hi hb hw hg hc hid).imp_right fun hQ r hr => ?_
    cases hr
    exact hQ
  · cases rows with
    | nil => exact .throw fun _ _ h => ⟨h.1, trivial⟩
    | cons r rows => exact .pure fun _ _ h => ⟨h.1, (h.2 r rfl)⟩

end Spec

end Insert

section Update

variable {t : Table} {i : Input} {w w' : World}

/-- An update on a connection of the pool. -/
theorem exec_update {q : Db → Nat → t.Row → Bool} {f : Nat → schema.Assign t}
    {r : Except Err (Op.query .pool (.update t q f)).Res} (hi : Inv db₀ w)
    (h : World.exec p i (.query .pool (.update t q f)) w = some (r, w')) :
    (w' = w ∧ ∃ e, r = .error e ∧ StoreError e) ∨
    ∃ st' ks, ks = ((w.store.db t).filter (q w.store.db w.clock)).map (schema.key t) ∧
      w' = w.withStore st' ∧ ((∃ n, r = .ok n) ∨ r = .error .fault) ∧ st'.Ok ∧
      State.Frame none w.store st' ∧ st'.tx p = w.store.tx p ∧
      State.Commits p [.update t ks (f w.clock)] w.store st' ∧
      st'.nextId = w.store.nextId := by
  rcases exec_query h with ⟨r₀, st', hq, rfl, hr⟩ | ⟨rfl, rfl | ⟨hc, -⟩⟩
  · obtain ⟨hok, hf⟩ := State.query_ok hi.ok hq
    rcases State.query_cases hq with ⟨e, rfl, rfl | ⟨hc, -⟩⟩ | ⟨tx, a, hc, -⟩ |
      ⟨a, -, rfl, ha, -, rfl⟩
    · rcases hr with rfl | rfl
      · exact .inl ⟨rfl, _, rfl, .inr ⟨e, rfl⟩⟩
      · exact .inl ⟨rfl, _, rfl, .inl rfl⟩
    · cases hc
    · cases hc
    · obtain ⟨hw, -, hid⟩ := Schema.Stmt.plan_update ha
      exact .inr ⟨_, _, rfl, rfl, hr.imp_left fun h => ⟨a, h⟩, hok, hf, rfl, hw ▸ ⟨rfl, rfl⟩,
        congrArg (w.store.nextId + ·) hid⟩
  · exact .inl ⟨rfl, _, rfl, .inl rfl⟩
  · cases hc

/-- What an update brings along that is calm on the rows it selects. -/
theorem brings_update {c : Conn} {st' : State schema} {q : t.Row → Bool} {f : schema.Assign t}
    {ks : List Key} (hi : Inv db₀ w) (hk : w.calls p = some k) (hfree : Free k c t)
    (hmay : May k (.update t ks f))
    (h : ∀ r ∈ w.store.db t, q r = true → Still t r (f.set r))
    (hks : ks = ((w.store.db t).filter q).map (schema.key t))
    (hc : State.Commits p [.update t ks f] w.store st') :
    Brings db₀ w.calls w.arrived w.keyLog p [.update t ks f] w.store st' := by
  have calm : Calm w.store.db (.update t ks f) := by
    intro r hr hk
    rw [hks, List.mem_map] at hk
    obtain ⟨r', hr', hk⟩ := hk
    obtain ⟨hmem, hq⟩ := List.mem_filter.1 hr'
    obtain rfl : r' = r := Schema.eq_of_key (hi.ok.unique t) hmem hr (k := schema.key t r)
      (hk ▸ List.mem_cons_self ..) (List.mem_cons_self ..)
    exact h r' hmem hq
  refine .bland (c := c) (fun _ => hk) (fun x hx => ?_) ⟨calm.lawful, trivial⟩
    (hc.2 ▸ calm.numbered hi.db.numbered)
  rw [List.mem_singleton.1 hx]
  exact ⟨hfree, hmay⟩

namespace Spec

/-- An update on a connection of the pool, by what it brings along. -/
theorem updateWhere {q : Db → t.Row → Bool} {f : Nat → schema.Assign t} {Q : World → Prop}
    (hφ : Persists db₀ φ) (hs : IsSend k → ofSend t = false)
    (h : ∀ w st' ks, Inv db₀ w → Base k p w → φ w →
      g p (.query .pool (.update t (fun db _ => q db) f)) w →
      ks = ((w.store.db t).filter (q w.store.db)).map (schema.key t) →
      State.Commits p [.update t ks (f w.clock)] w.store st' →
      Brings db₀ w.calls w.arrived w.keyLog p [.update t ks (f w.clock)] w.store st' ∧
        Q (w.withStore st'))
    (hQ : Persists db₀ Q) :
    Spec db₀ g k p φ (Backend.updateWhere .pool t q f)
      fun r w => φ w ∧ ends StoreError (fun _ => Q) r w := by
  refine Protocol.Valid.perform (fun i w r w' hi hw hg hx => ?_) fun r =>
    stable_base.and ((hφ.and (.ends (fun _ => hQ) r)).stable p)
  rcases exec_update hi hx with ⟨rfl, e, rfl, he⟩ | ⟨st', ks, hks, rfl, hr, hok, hf, htx, hc, hid⟩
  · exact ⟨hi, (Same.refl _).guar _, hw.1, hw.2, he⟩
  · obtain ⟨hb, hQ⟩ := h w st' ks hi hw.1 hw.2 hg hks hc
    obtain ⟨hi', hg'⟩ := withStore_ok (a := some p) hi hw.1.1 hok hf.weaken
      (fun _ h => (Option.some.inj h).symm) hc hb (.inl rfl) (htx ▸ hi.apart p)
    refine ⟨hi', hg', ⟨hg'.calls p k hw.1.1, ?_⟩, hφ _ _ _ hi hi' hg' hw.2, ?_⟩
    · refine hw.1.2.commits (.inl htx) hc (by simp) fun hsend x hx => ?_
      rw [List.mem_singleton.1 hx]
      exact hs hsend
    · rcases hr with ⟨n, rfl⟩ | rfl
      · exact hQ
      · exact .inl rfl

/-- An update that is calm on the rows it selects. -/
theorem updateRows {q : t.Row → Bool} {f : Nat → schema.Assign t} (hφ : Persists db₀ φ)
    (hfree : Free k .pool t) (hmay : ∀ ks now, May k (.update t ks (f now)))
    (h : ∀ w, Inv db₀ w → φ w → ∀ r ∈ w.store.db t, q r = true → Still t r ((f w.clock).set r)) :
    Spec db₀ g k p φ (Backend.update .pool t q f) fun _ => φ := by
  have hs : IsSend k → ofSend t = false := fun hk => by
    by_contra ho
    exact hfree.1 (by simpa using ho) hk
  refine (updateWhere (Q := fun _ => True) hφ hs (fun w st' ks hi hb hw _ hks hc => ⟨?_, trivial⟩)
    (.const _)).post fun _ _ _ h => h.1
  exact brings_update hi hb.1 hfree (hmay _ _) (h w hi hw) hks hc

end Spec

end Update

section Participants

variable {calls : Nat → Option Call} {arrived : Nat → Nat} {log : List (Utf16 × Bytes)}
  {st st' : State schema}

/-- Rows of a table the invariant says nothing of but that its participants are seated. -/
theorem Brings.seats {rows : List (schema.Row .participants)} (hn : Numbered st.db)
    (hc : State.Commits p (rows.map (.insert .participants)) st st')
    (hs : ∀ r ∈ rows, Exists st.db (r : ConversationParticipant).conversationId)
    (hr : ∀ r ∈ rows, (r : ConversationParticipant).lastReadSequence = 0) :
    Brings db₀ calls arrived log p (rows.map (.insert .participants)) st st' := by
  have only : ∀ x ∈ rows.map (Schema.Write.insert (S := schema) .participants),
      ∃ r ∈ rows, x = .insert .participants r := by
    intro x hx
    obtain ⟨r, hr, rfl⟩ := List.mem_map.1 hx
    exact ⟨r, hr, rfl⟩
  have same : ∀ t, t ≠ .participants → st'.db t = st.db t := fun t ht => by
    rw [hc.2]
    exact Schema.applyAll_inserts_of_ne (S := schema) rows st.db ht
  exact {
    lawful := .of_forall (fun x hx _ => by obtain ⟨r, -, rfl⟩ := only x hx; trivial) _
    may := fun x hx _ _ => by
      obtain ⟨r, hmem, rfl⟩ := only x hx
      exact hr r hmem
    numbered := numbered_of_eq hn (same _ nofun) (same _ nofun)
    seated := fun r hr => by
      obtain ⟨r', hr', e⟩ := only _ hr
      cases e
      rw [Exists, same .conversations nofun]
      exact hs r hr' }

theorem spec_saveParticipants {ps : List NewParticipant} (hφ : Persists db₀ φ)
    (hs : ∀ w, φ w → ∀ n ∈ ps, Exists w.store.db n.conversationId) :
    Spec db₀ g k p φ (saveParticipants .pool ps) fun _ => φ := by
  refine Spec.quiet_seq (uses_select _) hφ (fun stored => ?_) fun _ _ _ h => h
  refine Spec.bind (Q := fun _ => φ) (.ite (fun _ => ?_) fun _ => .pure fun _ _ h => h)
    (fun _ => ?_) fun _ _ _ h => h
  · refine (Spec.insertAll (t := .participants) (Q := fun _ _ => True) hφ nofun (fun _ => rfl)
      (fun w st' rows hi hb hw _ hrows hc _ => ?_)
      fun _ => .const _).bind (fun _ => .pure fun _ _ h => h.1) fun _ _ _ h => h.1
    refine ⟨.seats hi.db.numbered hc (fun r hr => ?_) fun r hr => ?_, trivial⟩
    · obtain ⟨j, hj, rfl⟩ := List.mem_mapIdx.1 (hrows ▸ hr)
      simp only [List.getElem_map]
      have hmem := List.getElem_mem (l := ps.filter fun n => !stored.any n.isRow) (by simpa using hj)
      exact hs w hw _ (List.mem_filter.1 hmem).1
    · obtain ⟨j, hj, rfl⟩ := List.mem_mapIdx.1 (hrows ▸ hr)
      simp only [List.getElem_map]
      rfl
  · refine Spec.quiet (Prog.Uses.forM fun n => uses_onlyIf ?_) hφ
    exact Prog.Uses.bind (uses_update (t := .participants) (free_of rfl rfl)
      (fun _ _ => ⟨⟨rfl, rfl, rfl⟩, trivial⟩) fun _ _ => .inl ⟨_, rfl⟩) fun _ => trivial

end Participants

section Access

/-- The users whose access is never checked. -/
def Staff (user : AuthUser) : Prop := user.role = .support ∨ user.role = .admin

/-- What a call knows once `assertCanAccess` let it pass. -/
structure Accessed (user : AuthUser) (conversationId : Nat) (w : World) : Prop where
  seen : Exists w.store.db conversationId
  seat : ¬Staff user → Active w.store.db conversationId user.sub

theorem Persists.accessed (user : AuthUser) (conversationId : Nat) :
    Persists db₀ (Accessed user conversationId) := fun _ _ _ _ _ hg h =>
  ⟨hg.kept.exists h.seen, fun hs => hg.kept.active (h.seat hs)⟩

theorem spec_getByIdOrThrow (conversationId : Nat) (hφ : Persists db₀ φ) :
    Spec db₀ g k p φ (getByIdOrThrow conversationId)
      (onOk fun c w => φ w ∧ c.id = conversationId ∧ Exists w.store.db conversationId) := by
  refine (Spec.row _ hφ).toOk.seq fun o => ?_
  cases o with
  | none => exact .throw fun _ _ _ => trivial
  | some c =>
    refine .pure fun w _ h => ⟨h.1, ?_⟩
    obtain ⟨hq, hr⟩ := h.2 c rfl
    have hid : c.id = conversationId := by simpa using hq
    obtain ⟨c', hc', hl⟩ := hr.present nofun
    exact ⟨hid, c', hc', hl.id.trans hid⟩

theorem spec_assertCanAccess (user : AuthUser) (conversationId : Nat) (hφ : Persists db₀ φ) :
    Spec db₀ g k p φ (assertCanAccess user conversationId)
      (onOk fun c w => φ w ∧ c.1.id = conversationId ∧ Accessed user conversationId w) := by
  refine (spec_getByIdOrThrow conversationId hφ).seq fun conv => ?_
  have hψ : Persists db₀ fun w => φ w ∧ conv.id = conversationId ∧ Exists w.store.db conversationId :=
    hφ.and (.and (.const _) (.conversation _))
  refine (Spec.row _ hψ).toOk.seq fun o => ?_
  cases o with
  | some r =>
    refine .pure fun w _ h => ⟨h.1.1, h.1.2.1, h.1.2.2, fun _ => ?_⟩
    obtain ⟨hq, hr⟩ := h.2 r rfl
    simp only [Bool.and_eq_true, beq_iff_eq, Option.isNone_iff_eq_none] at hq
    obtain ⟨r', hr', hc, hu, hl⟩ := hr.present nofun
    exact ⟨r', hr', hc.trans hq.1.1, hu.trans hq.1.2, hl.trans hq.2⟩
  | none =>
    refine Spec.ite (fun hs => ?_) fun _ => .throw fun _ _ _ => trivial
    refine Spec.pre (φ := fun w => φ w ∧ conv.id = conversationId ∧
      Exists w.store.db conversationId) ?_ fun _ _ h => h.1
    refine (spec_saveParticipants hψ fun w hw n hn => ?_).bind (fun _ => ?_)
      fun _ _ _ _ => trivial
    · rw [List.mem_singleton.1 hn]
      exact hw.2.2
    · exact Spec.quiet_seq (uses_audit ..) hψ (fun _ => .pure fun w _ h =>
        ⟨h.1, h.2.1, h.2.2, fun hns => (hns hs).elim⟩) fun _ _ _ _ => trivial

section Errors

variable {c : Conn} {t : Table}

theorem StoreError.ne_crypto {e : Err} (h : StoreError e) : e ≠ .crypto := by
  rcases h with rfl | ⟨s, rfl⟩
  · nofun
  · nofun

theorem throws_findOne {q : t.Row → Bool} : (findOne c t q).Throws (· ≠ .crypto) :=
  (Prog.throws_perform _).bind fun _ => trivial

theorem throws_saveParticipants {ps : List NewParticipant} :
    (saveParticipants c ps).Throws (· ≠ .crypto) := by
  refine (Prog.throws_perform _).bind fun (stored : List ConversationParticipant) => ?_
  refine Prog.Throws.bind (.ite (fun _ => ?_) fun _ => trivial) fun _ => ?_
  · exact (Prog.throws_perform _).bind fun _ => trivial
  · induction ps with
    | nil => trivial
    | cons n ps ih =>
      refine Prog.Throws.bind (.ite (fun _ => ?_) fun _ => trivial) fun _ => ih
      exact (Prog.throws_perform _).bind fun _ => trivial

/-- A check of access decrypts nothing. -/
theorem throws_assertCanAccess (user : AuthUser) (conversationId : Nat) :
    (assertCanAccess user conversationId).Throws (· ≠ .crypto) := by
  refine Prog.Throws.bind (throws_findOne.bind fun o => ?_) fun conv => throws_findOne.bind fun r => ?_
  · cases o with
    | none => exact Err.noConfusion
    | some c => trivial
  · cases r with
    | some r => trivial
    | none =>
      refine .ite (fun _ => throws_saveParticipants.bind fun _ => ?_) fun _ => Err.noConfusion
      exact Prog.Throws.bind (Prog.Throws.tryCatch (P := (· ≠ Err.crypto))
        (((Prog.throws_perform _).bind fun rows => by
          cases rows with
          | nil => exact Err.noConfusion
          | cons r rs => trivial).bind fun _ => trivial) fun _ _ => trivial) fun _ => trivial

theorem Spec.assertCanAccess {user : AuthUser} {conversationId : Nat} (hφ : Persists db₀ φ) :
    Spec db₀ g k p φ (Backend.assertCanAccess user conversationId)
      (ends (· ≠ .crypto) fun c w => φ w ∧ c.1.id = conversationId ∧
        Accessed user conversationId w) := by
  refine Protocol.Valid.post (Protocol.Valid.throws (spec_assertCanAccess user conversationId hφ)
    (throws_assertCanAccess user conversationId) fun _ _ _ _ _ h => (exec_error h).ne_crypto)
    fun r w _ h => ⟨h.1.1, ?_⟩
  cases r with
  | ok c => exact h.1.2
  | error e => exact h.2 e rfl

end Errors

end Access

end Messageries.Proofs
