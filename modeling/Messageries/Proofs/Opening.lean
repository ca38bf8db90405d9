import Messageries.Proofs.Transactions

set_option linter.unusedSectionVars false

namespace Messageries.Proofs

open Text Relational Database Crypto Concurrency Backend

variable [AesGcm] [TokenHash] {db₀ : Db} {g : Nat → Op → World → Prop} {k : Call} {p : Nat}
  {E : Err → Prop} {w w' : World} {ws : List Write}

section Fresh

/-- No committed row has a key of a row that a transaction inserted. -/
theorem Held.fresh (hi : Inv db₀ w) (h : Held p ws w) {t : Table} {r r' : t.Row}
    (hr : Schema.Write.insert t r ∈ ws) (hr' : r' ∈ w.store.db t) {key : Key}
    (hk : key ∈ schema.keys t r) : key ∉ schema.keys t r' := by
  intro hk'
  obtain ⟨_, ht⟩ := h
  have hn := hi.ok.pending p _ ht t
  refine (List.nodup_append'.1 hn).2.2 (List.mem_flatMap.2 ⟨r', hr', hk'⟩) ?_
  exact List.mem_flatMap.2 ⟨_, hr, by simpa [Schema.Write.newKeys] using hk⟩

/-- A conversation that is not committed yet is in no committed row. -/
theorem Held.unseen (hi : Inv db₀ w) (h : Held p ws w) {c : Conversation}
    (hc : Schema.Write.insert .conversations c ∈ ws) : ¬Exists w.store.db c.id := by
  rintro ⟨c', hc', hid⟩
  have hk : Key.id c.id ∈ schema.keys .conversations c := by simp [Schema.keys, primaryKey]
  refine h.fresh hi hc hc' hk ?_
  simp [Schema.keys, primaryKey, hid]

theorem Held.unopened (hi : Inv db₀ w) (h : Held p ws w) {c : Conversation}
    (hc : Schema.Write.insert .conversations c ∈ ws) :
    ∀ c' ∈ w.store.db .conversations, (c' : Conversation).orderId ≠ c.orderId := by
  intro c' hc' ho
  have hk : Key.order c.orderId ∈ schema.keys .conversations c := by simp [Schema.keys, uniqueKeys]
  refine h.fresh hi hc hc' hk ?_
  simp [Schema.keys, uniqueKeys, ho]

end Fresh

section Guards

/-- No conversation of the order is committed. -/
def Unopened (orderId : Nat) (w : World) : Prop :=
  ∀ c ∈ w.store.db .conversations, (c : Conversation).orderId ≠ orderId

/-- The calls for the order insert a conversation only while none is committed. -/
def Alone (g : Nat → Op → World → Prop) (orderId : Nat) : Prop :=
  ∀ p w make, g p (.query .tx (.insert .conversations make)) w →
    (∃ user, w.calls p = some (.openByOrder user orderId)) → Unopened orderId w

/-- The user has a seat in the conversation of the order, or is to get one. -/
structure Entitled (user : AuthUser) (orderId : Nat) (w : World) : Prop where
  seated : ∀ c ∈ w.store.db .conversations, (c : Conversation).orderId = orderId →
    Active w.store.db (c : Conversation).id user.sub
  party : Unopened orderId w → ∀ o ∈ w.store.db .orders, (o : Order).id = orderId →
    user.sub = (o : Order).customerId ∨ user.sub = (o : Order).sellerId

/-- The call runs only while its user is entitled to its conversation. -/
def Trusted (g : Nat → Op → World → Prop) (user : AuthUser) (orderId : Nat) : Prop :=
  ∀ p o w, g p o w → w.calls p = some (.openByOrder user orderId) → Entitled user orderId w

/-- The errors that come from a race of two calls. -/
def RaceError (e : Err) : Prop := e = .sql .uniqueViolation ∨ e = .sql .inFailedTransaction

end Guards

section Checks

/-- The check of a value fails with an error of its own. -/
def Checks (c : Option SqlState) : Prop := ∀ s, c = some s → ¬RaceError (.sql s)

theorem Checks.none : Checks none := nofun

theorem Checks.some {s : SqlState} (h : ¬RaceError (.sql s)) : Checks (some s) := fun _ hs => by
  cases hs
  exact h

theorem Checks.orElse {c d : Option SqlState} (hc : Checks c) (hd : Checks d) :
    Checks (c <|> d) := by
  cases c with
  | none => exact hd
  | some s => exact hc

theorem Checks.bind {α : Type} {x : Option α} {f : α → Option SqlState} (h : ∀ a, Checks (f a)) :
    Checks (x.bind f) := by
  cases x with
  | none => exact .none
  | some a => exact h a

theorem checks_text (limit : Option Nat) (s : Utf16) : Checks (checkText limit s) := by
  unfold checkText
  split
  · exact .some (by simp [RaceError])
  · split
    · exact .some (by simp [RaceError])
    · exact .none

theorem checks_json (s : Utf16) : Checks (checkJson s) := by
  unfold checkJson
  split
  · exact .some (by simp [RaceError])
  · exact .none

theorem checks_bigint (n : Int) : Checks (checkBigint n) := by
  unfold checkBigint
  split
  · exact .none
  · exact .some (by simp [RaceError])

theorem checks_row (t : Table) (r : t.Row) : Checks (schema.check t r) := by
  cases t with
  | conversations => exact .orElse (.bind fun _ => checks_text _ _) (checks_bigint _)
  | participants => exact checks_bigint (r : ConversationParticipant).lastReadSequence
  | messages =>
    exact .orElse (checks_bigint _) (.orElse (.bind fun _ => checks_text _ _)
      (.orElse (.bind fun _ => checks_text _ _) (.bind fun _ => checks_text _ _)))
  | outbox =>
    intro s hs
    have hs : Payload.check (r : OutboxEvent).payload = some s := hs
    cases hp : (r : OutboxEvent).payload with
    | created m =>
      rw [hp] at hs
      exact checks_json _ s hs
    | read c u n =>
      rw [hp] at hs
      exact checks_json _ s hs
  | audit =>
    intro s hs
    obtain ⟨⟨key, j⟩, -, hj⟩ := List.exists_of_findSome?_eq_some hs
    cases j with
    | string t => exact checks_json _ s hj
    | _ => cases hj
  | reports => exact .orElse (checks_text _ _) (.bind fun _ => checks_text _ _)
  | attachments =>
    exact .orElse (checks_text _ _) (.orElse (checks_text _ _) (.orElse (checks_text _ _)
      (checks_bigint _)))
  | keyPackages => exact .orElse (checks_text _ _) (checks_text _ _)
  | groups => exact .orElse (checks_text _ _) (checks_bigint _)
  | mlsMessages => exact .orElse (checks_text _ _) (.orElse (checks_bigint _) (checks_bigint _))
  | _ => exact .none

end Checks

section Create

variable {user : AuthUser} {orderId : Nat} {o : Order} {c : Conversation}

/-- The errors of a call for the order: none of a race, when it is alone. -/
def Contested (g : Nat → Op → World → Prop) (orderId : Nat) (o : Order) (e : Err) : Prop :=
  Alone g orderId → o.customerId ≠ o.sellerId → ¬RaceError e

theorem contested_fault : Contested g orderId o .fault := fun _ _ h => by
  rcases h with h | h <;> cases h

/-- The order that a call found. -/
def Ordered (orderId : Nat) (o : Order) (w : World) : Prop :=
  o ∈ w.store.db .orders ∧ o.id = orderId

theorem Persists.ordered (orderId : Nat) (o : Order) : Persists db₀ (Ordered orderId o) := by
  rintro a w w' - - hg ⟨ho, hid⟩
  obtain ⟨o', ho', rfl⟩ := hg.kept .orders nofun o ho
  exact ⟨ho', hid⟩

/-- What a call knows of the conversation it is to open. -/
structure Drafted (g : Nat → Op → World → Prop) (user : AuthUser) (orderId : Nat) (o : Order)
    (c : Conversation) (w : World) : Prop where
  ordered : Ordered orderId o w
  opens : c.orderId = orderId
  empty : c.lastSequence = 0
  plain : c.e2eeEnabled = false ∧ c.searchIndexed = false ∧ c.lastMessageAt = none
  fresh : c.id < w.store.nextId
  party : Trusted g user orderId → user.sub = o.customerId ∨ user.sub = o.sellerId

theorem Persists.drafted : Persists db₀ (Drafted g user orderId o c) := by
  intro a w w' hi hi' hg h
  exact ⟨Persists.ordered orderId o a w w' hi hi' hg h.ordered, h.opens, h.empty, h.plain,
    Nat.lt_of_lt_of_le h.fresh hg.frame.nextId, h.party⟩

/-- What is known between the conversation and its participants. -/
def Between (g : Nat → Op → World → Prop) (p : Nat) (user : AuthUser) (orderId : Nat) (o : Order)
    (c : Conversation) (w : World) : Prop :=
  w.calls p = some (.openByOrder user orderId) ∧ Drafted g user orderId o c w

theorem Persists.between : Persists db₀ (Between g p user orderId o c) :=
  .and (.call p _) .drafted

theorem valid_insertConversation :
    Protocol.Valid machine g (protocol db₀) p
      (fun w => (w.calls p = some (.openByOrder user orderId) ∧ Ordered orderId o w) ∧ Held p [] w)
      (insertAll .tx .conversations [newConversation orderId o])
      (fails p (Contested g orderId o) fun rows w => ∃ c, rows = [c] ∧
        Between g p user orderId o c w ∧ Held p [.insert .conversations c] w) := by
  have held : ∀ w, (w.calls p = some (.openByOrder user orderId) ∧ Ordered orderId o w) ∧
      Held p [] w → w.calls p = some (.openByOrder user orderId) ∧ Held p [] w :=
    fun w h => ⟨h.1.1, h.2⟩
  refine valid_held held nofun
    (fun w w' a free now hi hi' hgu h hg ha hst => ?_) (fun w e free now hi h hg he => ?_)
    contested_fault fun rows => ?_
  · obtain ⟨hrows, -, hw, -, hid⟩ := Schema.Stmt.plan_insert ha
    obtain rfl : a = [newConversation orderId o w.store.nextId now] := hrows
    have held : Held p [.insert .conversations (newConversation orderId o w.store.nextId now)] w' := by
      have := hst.held
      rwa [planIn, hw] at this
    refine ⟨_, rfl, ⟨hgu.calls p _ h.1.1, Persists.ordered orderId o _ w w' hi hi' hgu h.1.2,
      rfl, rfl, ⟨rfl, rfl, rfl⟩, ?_, fun ht => ?_⟩, held⟩
    · rw [hst.nextId, planIn, hid]
      exact Nat.lt_succ_self _
    · refine (ht p _ w hg h.1.1).party (fun c hc => ?_) o h.1.2.1 h.1.2.2
      exact held.unopened hi' (List.mem_cons_self ..) c (hst.db ▸ hc)
  · rcases Schema.Stmt.plan_insert_error he with ⟨r, -, hr⟩ | ⟨-, hn⟩
    · exact fun _ _ => checks_row .conversations r e hr
    · refine fun alone _ => (hn ⟨?_, fun key hkey hold => ?_⟩).elim
      · simp [Schema.keysOf, Schema.keys, primaryKey, uniqueKeys]
      · obtain ⟨c, hc, hk⟩ := List.mem_flatMap.1 hold
        have hc : c ∈ w.store.db .conversations := hc
        have hfresh := hi.db.fresh c hc
        have hopen := alone p w _ hg ⟨user, h.1.1⟩ c hc
        simp only [Schema.keysOf, Schema.keys, primaryKey, uniqueKeys, newConversation,
          List.mapIdx_cons, List.mapIdx_nil, List.flatMap_cons, List.flatMap_nil, Nat.add_zero,
          List.append_nil, List.mem_cons, List.not_mem_nil, or_false] at hkey hk
        rcases hkey with rfl | rfl
        · simp only [Key.id.injEq, reduceCtorEq, or_false] at hk
          omega
        · simp only [Key.order.injEq, reduceCtorEq, false_or] at hk
          exact hopen hk.symm
  · exact .exists fun c => .and (.const _ _ _) (.and (Persists.between.stable p) (stable_held _))

/-- The seat of one of the two parties. -/
abbrev seat (c : Conversation) (userId : Nat) (role : Role) (t : Nat) : Write :=
  .insert .participants (NewParticipant.row ⟨c.id, userId, role⟩ 0 t)

/-- The writes that open the conversation of an order. -/
abbrev opening (c : Conversation) (o : Order) (t : Nat) : List Write :=
  [.insert .conversations c, seat c o.customerId .customer t, seat c o.sellerId .seller t]

theorem Held.unseated (hi : Inv db₀ w) (h : Held p ws w)
    (hc : Schema.Write.insert .conversations c ∈ ws) :
    ∀ r ∈ w.store.db .participants, (r : ConversationParticipant).conversationId ≠ c.id :=
  fun r hr e => h.unseen hi hc (e ▸ hi.db.seated r hr)

theorem participants_draft (c : Conversation) (db : Db) :
    Schema.Write.applyAll [Schema.Write.insert (S := schema) .conversations c] db .participants =
      db .participants := by
  have e : Table.participants ≠ .conversations := nofun
  exact Schema.Write.apply_insert_of_ne (S := schema) c db e

theorem valid_noParties :
    Protocol.Valid machine g (protocol db₀) p
      (fun w => Between g p user orderId o c w ∧ Held p [.insert .conversations c] w)
      (select .tx .participants fun r => (parties c o).any fun n => n.isRow r)
      (fails p (Contested g orderId o) fun stored w => stored = [] ∧
        Between g p user orderId o c w ∧ Held p [.insert .conversations c] w) := by
  refine valid_held (k := .openByOrder user orderId) (fun w h => ⟨h.1.1, h.2⟩) trivial
    (fun w w' a free now hi hi' hgu h hg ha hst => ?_) (fun w e free now hi h hg he => nomatch he)
    contested_fault fun rows => .and (.const _ _ _) ((Persists.between.stable p).and (stable_held _))
  refine ⟨?_, Persists.between _ _ _ hi hi' hgu h.1, hst.held⟩
  obtain rfl := Except.ok.inj ha
  refine List.filter_eq_nil_iff.2 fun r hr hq => ?_
  have hr : r ∈ w.store.db .participants := participants_draft c w.store.db ▸ hr
  refine h.2.unseated hi (List.mem_cons_self ..) r hr ?_
  simp only [parties, NewParticipant.isRow, List.any_cons, List.any_nil, Bool.or_false,
    Bool.or_eq_true, Bool.and_eq_true, beq_iff_eq] at hq
  rcases hq with h | h
  · exact h.1.symm
  · exact h.1.symm

theorem valid_insertParties :
    Protocol.Valid machine g (protocol db₀) p
      (fun w => Between g p user orderId o c w ∧ Held p [.insert .conversations c] w)
      (insertAll .tx .participants ((parties c o).map NewParticipant.row))
      (fails p (Contested g orderId o) fun _ w => Between g p user orderId o c w ∧
        ∃ t, Held p (opening c o t) w) := by
  refine valid_held (k := .openByOrder user orderId) (fun w h => ⟨h.1.1, h.2⟩) nofun
    (fun w w' a free now hi hi' hgu h hg ha hst => ?_) (fun w e free now hi h hg he => ?_)
    contested_fault fun rows => (Persists.between.stable p).and (.exists fun _ => stable_held _)
  · refine ⟨Persists.between _ _ _ hi hi' hgu h.1, now, ?_⟩
    obtain ⟨rfl, -, hw, -⟩ := Schema.Stmt.plan_insert ha
    have := hst.held
    rwa [planIn, hw] at this
  · rcases Schema.Stmt.plan_insert_error he with ⟨r, -, hr⟩ | ⟨-, hn⟩
    · exact fun _ _ => checks_row .participants r e hr
    · refine fun _ hne => (hn ⟨?_, fun key hkey hold => ?_⟩).elim
      · simp [Schema.keysOf, Schema.keys, primaryKey, uniqueKeys, parties, NewParticipant.row, hne]
      · obtain ⟨r, hr, hk⟩ := List.mem_flatMap.1 hold
        have hr : r ∈ w.store.db .participants := participants_draft c w.store.db ▸ hr
        have hne := h.2.unseated hi (List.mem_cons_self ..) r hr
        simp only [Schema.keysOf, Schema.keys, primaryKey, uniqueKeys, parties, List.map_cons,
          List.map_nil, List.mapIdx_cons, List.mapIdx_nil, List.flatMap_cons, List.flatMap_nil,
          List.append_nil, List.mem_cons, List.not_mem_nil, or_false, List.mem_append,
          NewParticipant.row] at hkey hk
        rcases hkey with rfl | rfl
        · exact hne (Key.pair.inj hk).1.symm
        · exact hne (Key.pair.inj hk).1.symm

/-- What is known once both parties have their seats. -/
def Prepared (g : Nat → Op → World → Prop) (p : Nat) (user : AuthUser) (orderId : Nat) (o : Order)
    (c : Conversation) (w : World) : Prop :=
  Between g p user orderId o c w ∧ ∃ t, Held p (opening c o t) w

theorem stable_prepared : (protocol db₀).Stable p (Prepared g p user orderId o c) :=
  (Persists.between.stable p).and (.exists fun _ => stable_held _)

theorem valid_saveParties :
    Protocol.Valid machine g (protocol db₀) p
      (fun w => Between g p user orderId o c w ∧ Held p [.insert .conversations c] w)
      (saveParticipants .tx (parties c o))
      (fails p (Contested g orderId o) fun _ => Prepared g p user orderId o c) := by
  refine Protocol.Valid.bind valid_noParties (fun stored => ?_) fun _ _ _ h => h
  by_cases hs : stored = []
  · subst hs
    have fresh : (parties c o).filter (fun n => !([] : List ConversationParticipant).any n.isRow) =
        parties c o := by simp
    rw [fresh]
    refine Protocol.Valid.bind
      (Q := fails p (Contested g orderId o) fun _ => Prepared g p user orderId o c)
      (.ite (fun _ => ?_) fun h => (h rfl).elim) (fun _ => ?_) fun _ _ _ h => h
    · exact Protocol.Valid.bind (Protocol.Valid.pre valid_insertParties fun _ _ h => h.2)
        (fun _ => .pure fun _ _ h => h) fun _ _ _ h => h
    · exact .pure fun _ _ h => h
  · exact (Protocol.Valid.exists (ι := Empty) (φ := fun _ _ => False) nofun).pre
      fun _ _ h => (hs h.1).elim

theorem valid_createForOrder :
    Protocol.Valid machine g (protocol db₀) p
      (fun w => (w.calls p = some (.openByOrder user orderId) ∧ Ordered orderId o w) ∧ Held p [] w)
      (createForOrder orderId user.sub o)
      (fails p (Contested g orderId o) fun c => Prepared g p user orderId o c) := by
  refine Protocol.Valid.bind (Q := fails p (Contested g orderId o) fun c w =>
    Between g p user orderId o c w ∧ Held p [.insert .conversations c] w) ?_ (fun c => ?_)
    fun _ _ _ h => h
  · refine Protocol.Valid.bind valid_insertConversation (fun rows => ?_) fun _ _ _ h => h
    cases rows with
    | nil => exact .exists fun c => (Protocol.Valid.exists (ι := Empty) (φ := fun _ _ => False)
        nofun).pre fun _ _ h => nomatch h.1
    | cons c' rows =>
      refine .pure fun w _ ⟨c, hc, h⟩ => ?_
      cases hc
      exact h
  · refine Protocol.Valid.bind valid_saveParties (fun _ => ?_) fun _ _ _ h => h
    refine Protocol.Valid.bind (valid_audit (E := fun _ => False)
      (k := .openByOrder user orderId) (fun _ h => h.1.1) stable_prepared)
      (fun _ => .pure fun _ _ h => h) fun _ _ _ h => h.elim

/-- After a failure the transaction answers nothing, so the winner's row is not found. -/
theorem valid_recover {e : Err} (he : Contested g orderId o e) :
    Protocol.Valid machine g (protocol db₀) p
      (fun w => w.calls p = some (.openByOrder user orderId) ∧ Failed p w)
      (if e = .sql .uniqueViolation then do
        match ← findOne .tx .conversations fun c => c.orderId == orderId with
        | some c => Pure.pure c
        | none => throw e
      else throw e) (ends (α := Conversation) (Contested g orderId o) fun _ _ => False) := by
  refine .ite (fun h => ?_) fun _ => .throw fun _ _ _ => he
  have never : ∀ e', Contested g orderId o e' := fun _ halone hne =>
    (he halone hne (.inl h)).elim
  refine Protocol.Valid.bind (Q := ends (Contested g orderId o) fun _ _ => False)
    (Protocol.Valid.bind (Q := ends (Contested g orderId o) fun _ _ => False)
      ((valid_failed (fun _ h => h) (never _) (never _)).post fun _ _ _ => ends_of_fails)
      (fun _ => .pure fun _ _ h => h.elim) fun _ _ _ h => h) (fun c => ?_) fun _ _ _ h => h
  cases c with
  | some c => exact .pure fun _ _ h => h.elim
  | none => exact .throw fun _ _ h => h.elim

theorem valid_createOrRecover :
    Protocol.Valid machine g (protocol db₀) p
      (fun w => (w.calls p = some (.openByOrder user orderId) ∧ Ordered orderId o w) ∧ Held p [] w)
      (createOrRecover orderId user.sub o)
      (ends (Contested g orderId o) fun c => Prepared g p user orderId o c) := by
  refine Protocol.Valid.tryCatch ((valid_createForOrder.frame
    (Persists.call p (.openByOrder user orderId))).pre fun w _ h => ⟨h, h.1.1⟩) (fun e => ?_)
    fun _ _ _ h => h.1
  refine (Protocol.Valid.exists (ι := Contested g orderId o e) (φ := fun _ w =>
    w.calls p = some (.openByOrder user orderId) ∧ Failed p w) fun he => ?_).pre
    fun w _ h => ⟨h.1.2, h.2, h.1.1⟩
  exact (valid_recover he).post fun r w _ h => by
    cases r with
    | ok c => exact h.elim
    | error e => exact h

end Create

section Commit

variable {user : AuthUser} {orderId : Nat} {o : Order} {c : Conversation} {t : Nat}

theorem opening_db {st st' : State schema} (hc : State.Commits p (opening c o t) st st') :
    st'.db .messages = st.db .messages ∧ st'.db .conversations = st.db .conversations ++ [c] := by
  rw [hc.2]
  constructor <;> rfl

/-- The conversation is fit to be committed with its participants. -/
theorem Brings.opening {st' : State schema} (hi : Inv db₀ w) (hh : Held p (opening c o t) w)
    (hk : w.calls p = some (.openByOrder user orderId)) (hd : Drafted g user orderId o c w)
    (hc : State.Commits p (opening c o t) w.store st') (hid : st'.nextId = w.store.nextId) :
    Brings db₀ w.calls w.arrived w.keyLog p (opening c o t) w.store st' := by
  obtain ⟨hm, hcs⟩ := opening_db hc
  have lawful : LawfulAll w.store.db (Proofs.opening c o t) := ⟨trivial, trivial, trivial, trivial⟩
  have kept : Kept w.store.db st'.db := hc.2 ▸ kept_applyAll lawful
  have unseen : ¬Exists w.store.db c.id := hh.unseen hi (List.mem_cons_self ..)
  have here : Exists st'.db c.id := ⟨c, hcs ▸ List.mem_append_right _ (List.mem_singleton.2 rfl), rfl⟩
  have other : ∀ k', w.calls p = some k' → ¬IsSend k' := by
    intro k' hk' hs
    cases hk.symm.trans hk'
    exact hs
  exact {
    lawful := lawful
    may := fun x hx _ _ => by
      rcases List.mem_cons.1 hx with rfl | hx
      · exact hd.plain
      · rcases List.mem_cons.1 hx with rfl | hx
        · rfl
        · rw [List.mem_singleton.1 hx]
          rfl
    numbered := fun c' hc' => by
      have same : sequences st'.db (c' : Conversation).id =
          sequences w.store.db (c' : Conversation).id := by
        rw [sequences, hm, sequences]
      rw [hcs] at hc'
      rw [same]
      rcases List.mem_append.1 hc' with hc' | hc'
      · exact hi.db.numbered c' hc'
      · -- no message was sent to a conversation that is not there
        obtain rfl : c' = c := List.mem_singleton.1 hc'
        rw [hd.empty, hi.db.unsequenced unseen]
        rfl
    seated := fun r hr => by
      simp only [List.mem_cons, reduceCtorEq, List.not_mem_nil, false_or, or_false,
        Schema.Write.insert.injEq, heq_eq_eq, true_and, false_and] at hr
      rcases hr with rfl | rfl
      · exact here
      · exact here
    fresh := fun c' hc' => by
      simp only [List.mem_cons, reduceCtorEq, List.not_mem_nil, or_false,
        Schema.Write.insert.injEq, heq_eq_eq, true_and, false_and] at hc'
      rw [hid, hc']
      exact hd.fresh
    attributed := fun k' hk' hs _ => (other k' hk' hs).elim
    once := fun k' hk' hs _ => (other k' hk' hs).elim
    founded := fun c' hc' => by
      simp only [List.mem_cons, reduceCtorEq, List.not_mem_nil, or_false,
        Schema.Write.insert.injEq, heq_eq_eq, true_and, false_and] at hc'
      subst hc'
      obtain ⟨o', ho', rfl⟩ := kept .orders (by decide) o hd.ordered.1
      refine ⟨o', ho', hd.ordered.2.trans hd.opens.symm, w.store.wal, [], t, t, ?_, fun q r hr => ?_⟩
      · rw [hc.1, List.append_nil]
        rfl
      · obtain ⟨r', hr', hl⟩ := hi.db.stored q .participants (by decide) r hr
        exact hl.1 ▸ hh.unseated hi (List.mem_cons_self ..) r' hr' }

end Commit

section Open

variable {user : AuthUser} {orderId : Nat} {o : Order} {c : Conversation}

/-- What a call that returned a conversation knows of it. -/
structure Opened (g : Nat → Op → World → Prop) (user : AuthUser) (orderId : Nat)
    (c : Conversation) (w : World) : Prop where
  opens : c.orderId = orderId
  stored : ∃ c' ∈ w.store.db .conversations, (c' : Conversation).id = c.id ∧
    (c' : Conversation).orderId = c.orderId
  seat : Trusted g user orderId → Active w.store.db c.id user.sub

theorem Persists.opened : Persists db₀ (Opened g user orderId c) := by
  rintro a w w' - - hg ⟨ho, ⟨c', hc', hid, hor⟩, hs⟩
  obtain ⟨c'', hc'', hid', hor', -⟩ := hg.kept .conversations nofun c' hc'
  exact ⟨ho, ⟨c'', hc'', hid'.trans hid, hor'.trans hor⟩, fun ht => hg.kept.active (hs ht)⟩

/-- How a call for the order ends. -/
def OpenEnd (g : Nat → Op → World → Prop) (user : AuthUser) (orderId : Nat) :
    Except Err Conversation → World → Prop
  | .ok c, w => Opened g user orderId c w
  | .error e, w => Alone g orderId →
      (∀ o ∈ w.store.db .orders, (o : Order).id = orderId →
        (o : Order).customerId ≠ (o : Order).sellerId) → ¬RaceError e

theorem Opened.of_committed {t : Nat} {st' : State schema} (hd : Drafted g user orderId o c w)
    (hc : State.Commits p (opening c o t) w.store st') :
    Opened g user orderId c (w.withStore st') := by
  have new : ∀ r, Schema.Write.insert .participants r ∈ opening c o t →
      r ∈ st'.db .participants := by
    intro r hr
    rw [hc.2]
    simp only [List.mem_cons, reduceCtorEq, List.not_mem_nil, false_or, or_false,
      Schema.Write.insert.injEq, heq_eq_eq, true_and, false_and] at hr
    rcases hr with rfl | rfl
    · exact List.mem_append_left _ (List.mem_append_right _ (List.mem_singleton.2 rfl))
    · exact List.mem_append_right _ (List.mem_singleton.2 rfl)
  refine ⟨hd.opens, ⟨c, ?_, rfl, rfl⟩, fun ht => ?_⟩
  · have := (opening_db hc).2
    exact this ▸ List.mem_append_right _ (List.mem_singleton.2 rfl)
  · rcases hd.party ht with hu | hu
    · exact ⟨_, new _ (List.mem_cons_of_mem _ (List.mem_cons_self ..)), rfl, hu.symm, rfl⟩
    · exact ⟨_, new _ (List.mem_cons_of_mem _ (List.mem_cons_of_mem _ (List.mem_cons_self ..))),
        rfl, hu.symm, rfl⟩

theorem valid_create :
    Protocol.Valid machine g (protocol db₀) p
      (fun w => (w.calls p = some (.openByOrder user orderId) ∧ Ordered orderId o w) ∧
        w.store.tx p = none)
      (transaction (createOrRecover orderId user.sub o))
      (ends (Contested g orderId o) fun c => Opened g user orderId c) := by
  have body : Protocol.Valid machine g (protocol db₀) p
      (fun w => (Ordered orderId o w ∧ Held p [] w) ∧ w.calls p = some (.openByOrder user orderId))
      (createOrRecover orderId user.sub o) (ends (Contested g orderId o) fun c w => ∃ ws,
        Held p ws w ∧ Between g p user orderId o c w ∧ ∃ t, ws = opening c o t) := by
    refine (valid_createOrRecover.pre fun w _ h => ⟨⟨h.2, h.1.1⟩, h.1.2⟩).post fun r w _ h => ?_
    cases r with
    | ok c =>
      obtain ⟨hb, t, hh⟩ := h
      exact ⟨_, hh, hb, t, rfl⟩
    | error e => exact h
  refine ((valid_transaction (Q := fun c => Opened g user orderId c) (Persists.ordered orderId o).tame
    body (fun c ws w st' hi hk hh hb hc hid => ?_) contested_fault
    fun c => Persists.opened).pre fun w _ h => ⟨h.1.1, h.1.2, .inl h.2⟩).post fun _ _ _ h => h.2
  obtain ⟨hb, t, rfl⟩ := hb
  exact ⟨.opening hi hh hk hb.2 hc hid, .of_committed hb.2 hc⟩

theorem valid_open :
    Protocol.Valid machine g (protocol db₀) p
      (fun w => w.calls p = some (.openByOrder user orderId) ∧ w.store.tx p = none)
      (getOrCreateForOrder orderId user.sub) (OpenEnd g user orderId) := by
  have idle : (protocol db₀).Stable p fun w =>
      w.calls p = some (.openByOrder user orderId) ∧ w.store.tx p = none :=
    ((Persists.call p _).stable p).and stable_idle
  refine Protocol.Valid.bind (Q := ends (fun e => ¬RaceError e) fun o w =>
    (w.calls p = some (.openByOrder user orderId) ∧ w.store.tx p = none) ∧ Ordered orderId o w)
    ?_ (fun o => ?_) fun _ _ _ h _ _ => h
  · refine Protocol.Valid.bind (valid_findOne (t := .orders) (E := fun e => ¬RaceError e)
      (Q := fun r w => (w.calls p = some (.openByOrder user orderId) ∧ w.store.tx p = none) ∧
        ∀ o, r = some o → Ordered orderId o w)
      (fun w hi hw _ => ⟨hw, fun o ho => ?_⟩) (by simp [RaceError]) fun r => idle.and
        ((Persists.forall fun o => .imp fun _ => .ordered orderId o).stable p)) (fun r => ?_)
      fun _ _ _ h => h
    · obtain ⟨hmem, hq⟩ := List.mem_filter.1 (List.mem_of_mem_head? ho)
      exact ⟨hmem, by simpa using hq⟩
    · cases r with
      | none => exact .throw fun _ _ _ => by simp [ends, RaceError]
      | some o => exact .pure fun _ _ h => ⟨h.1, h.2 o rfl⟩
  · -- the order names its two parties from here on
    refine ((Protocol.Valid.frame (L := protocol db₀) (Q := fun r => ends (Contested g orderId o)
      (fun c => Opened g user orderId c) r) ?_ (Persists.ordered orderId o)).pre
      fun w _ h => ⟨h, h.2⟩).post fun r w _ h => ?_
    · refine Protocol.Valid.bind (valid_findOne (t := .conversations)
        (E := Contested g orderId o) (Q := fun r w =>
          ((w.calls p = some (.openByOrder user orderId) ∧ w.store.tx p = none) ∧
            Ordered orderId o w) ∧ ∀ c, r = some c → Opened g user orderId c w)
        (fun w hi hw hg => ⟨hw, fun c hc => ?_⟩) contested_fault fun r => ?_) (fun r => ?_)
        fun _ _ _ h => h
      · obtain ⟨hmem, hq⟩ := List.mem_filter.1 (List.mem_of_mem_head? hc)
        have hq : c.orderId = orderId := by simpa using hq
        exact ⟨hq, ⟨c, hmem, rfl, rfl⟩, fun ht => (ht p _ w hg hw.1.1).seated c hmem hq⟩
      · exact (idle.and ((Persists.ordered orderId o).stable p)).and
          ((Persists.forall fun c => .imp fun _ => .opened).stable p)
      · cases r with
        | some c => exact .pure fun _ _ h => h.2 c rfl
        | none => exact valid_create.pre fun _ _ h => ⟨⟨h.1.1.1, h.1.2⟩, h.1.1.2⟩
    · cases r with
      | ok c => exact h.1
      | error e => exact fun halone hparties => h.1 halone (hparties o h.2.1 h.2.2)

end Open

end Messageries.Proofs
