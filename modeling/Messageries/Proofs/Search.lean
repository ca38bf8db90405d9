import Messageries.Proofs.Special

set_option linter.unusedSectionVars false

namespace Messageries.Proofs

open Text Relational Database Crypto Concurrency Backend

variable [AesGcm] [TokenHash] {db₀ : Db} {k : Call} {p c : Nat} {w w' : World} {user : AuthUser}

section Flags

/-- The conversation is opted in. -/
def Flagged (c : Nat) (w : World) : Prop :=
  ∃ r ∈ w.store.db .conversations, (r : Conversation).id = c ∧ r.searchIndexed = true

/-- Someone asked for the conversation to be opted out. -/
def Leaving (c : Nat) (w : World) : Prop :=
  ∃ p user, w.calls p = some (.disableSearch user c)

/-- The process serves a request to opt in. -/
def Enabling (p : Nat) (w : World) : Prop := ∃ user c, w.calls p = some (.enableSearch user c)

/-- The write opts no conversation in. -/
def Unflagging : Write → Prop
  | .insert .conversations r => (r : Conversation).searchIndexed = false
  | .update .conversations _ f =>
    ∀ r : Conversation, (f.set r : Conversation).searchIndexed = true → r.searchIndexed = true
  | .delete t _ => t ≠ .conversations
  | _ => True

theorem unflagging_may {x : Write} (hk : ¬IsSearch k) (hm : May k x) : Unflagging x := by
  cases x with
  | insert t r =>
    cases t
    case conversations => exact hm.2.1
    all_goals trivial
  | update t ks f =>
    cases t
    case conversations => exact fun r hr => (hm.2.1.resolve_left hk r).symm.trans hr
    all_goals trivial
  | delete t ks =>
    obtain rfl : t = .attachments := hm
    nofun

/-- What is opted in after such writes was before them. -/
theorem flagged_applyAll {ws : List Write} (h : ∀ x ∈ ws, Unflagging x) {db : Db} {r' : Conversation}
    (hr' : r' ∈ Schema.Write.applyAll ws db .conversations) (hf : r'.searchIndexed = true) :
    ∃ r ∈ db .conversations, (r : Conversation).id = r'.id ∧ r.searchIndexed = true := by
  obtain ⟨F, rows, hdb, hF, hrows⟩ := applyAll_split (t := .conversations)
    (S := fun (r r' : Conversation) =>
      r'.id = r.id ∧ (r'.searchIndexed = true → r.searchIndexed = true))
    (N := fun (r : Conversation) => r.searchIndexed = false)
    (fun _ => ⟨rfl, id⟩) (fun _ _ _ h h' => ⟨h'.1.trans h.1, fun hf => h.2 (h'.2 hf)⟩)
    (fun r r' h hn => Bool.eq_false_iff.2 fun hf => Bool.eq_false_iff.1 hn (h.2 hf))
    (fun _ hr => h _ hr) (fun ks f hf r => ⟨Key.id.inj (f.key_set r), h _ hf r⟩)
    (fun _ hk => h _ hk rfl) db
  rw [hdb] at hr'
  rcases List.mem_append.1 hr' with hr' | hr'
  · obtain ⟨r, hr, rfl⟩ := List.mem_map.1 hr'
    exact ⟨r, hr, (hF r).1.symm, (hF r).2 hf⟩
  · exact nomatch (hrows _ hr').symm.trans hf

end Flags

section Extension

/-- A conversation that is opted out stays so, and the index gets no document of it. -/
def Closing (w w' : World) : Prop :=
  ∀ c, Leaving c w → ¬Flagged c w →
    ¬Flagged c w' ∧ ∀ d ∈ w'.documents, d.conversationId = c → d ∈ w.documents

def closing : Extension where
  inv := fun _ => True
  guar := fun _ => Closing
  special := IsSearch
  plain := Unflagging
  watches := True

/-- The flag of a document's conversation is still set when the document goes to the index, no
conversation is opted in while it is opted out, and what is in the index can be taken out. -/
def OptsOut (p : Nat) : Op → World → Prop
  | .index d, w => Flagged d.conversationId w ∨ Enabling p w ∧ ¬Leaving d.conversationId w
  | .query .pool (.update .conversations q _), w => Enabling p w →
    ∀ r ∈ w.store.db .conversations, q w.store.db w.clock r = true → ¬Leaving (r : Conversation).id w
  | .settings, w => ∀ user c, w.calls p = some (.disableSearch user c) →
    w.settings.searchEnabled = true ∨ ∀ d ∈ w.documents, d.conversationId ≠ c
  | _, _ => True

theorem keeps_closing : closing.Keeps db₀ where
  init := fun _ _ _ => trivial
  plain := by
    rintro a w w' _ _ _ ⟨⟨q, new, hc, hnew⟩, hf⟩ _
    refine ⟨trivial, fun c _ hoff => ⟨?_, fun d hd _ => (hf trivial).documents ▸ hd⟩⟩
    rintro ⟨r', hr', rfl, hr⟩
    rw [hc.2] at hr'
    obtain ⟨r, hr, hid, hs⟩ := flagged_applyAll hnew hr' hr
    exact hoff ⟨r, hr, hid, hs⟩

theorem open_closing : closing.Open :=
  ⟨fun _ _ _ => trivial, fun _ _ => trivial, fun _ => trivial⟩

/-- The only document a step adds is the one it sends to the index. -/
theorem exec_documents {i : Input} {o : Op} {r : Except Err o.Res}
    (h : World.exec p i o w = some (r, w')) :
    ∀ d ∈ w'.documents, d ∈ w.documents ∨ o = .index d := by
  have same : w'.documents = w.documents → ∀ d ∈ w'.documents, d ∈ w.documents ∨ o = .index d :=
    fun e d hd => .inl (e ▸ hd)
  by_cases hf : Feeds o
  · cases o
    case publish t m id =>
      refine same ?_
      simp only [World.exec] at h
      split at h
      · refine of_remote (S := fun w w' => w'.documents = w.documents) rfl ?_ h
        unfold World.publish
        split <;> rfl
      · cases h
        rfl
    case note e s =>
      cases h
      exact same rfl
    case mail m =>
      refine same ?_
      refine of_remote (S := fun w w' => w'.documents = w.documents) rfl ?_ h
      rfl
    case index d =>
      refine of_remote (S := fun w w' => ∀ e ∈ w'.documents, e ∈ w.documents ∨ Op.index d = .index e)
        (fun _ he => .inl he) (fun e he => ?_) h
      rcases List.mem_append.1 he with he | he
      · exact .inl (List.mem_filter.1 he).1
      · exact .inr (by rw [List.mem_singleton.1 he])
    case unindex c =>
      refine of_remote (S := fun w w' => ∀ e ∈ w'.documents, e ∈ w.documents ∨ Op.unindex c = .index e)
        (fun _ he => .inl he) (fun e he => .inl (List.mem_filter.1 he).1) h
    all_goals exact hf.elim
  · exact same (exec_feed h hf).documents

/-- What the guard is for. -/
theorem closed_documents {i : Input} {o : Op} {r : Except Err o.Res} (hg : OptsOut p o w)
    (h : World.exec p i o w = some (r, w')) (hl : Leaving c w) (hoff : ¬Flagged c w) :
    ∀ d ∈ w'.documents, d.conversationId = c → d ∈ w.documents := by
  rintro d hd rfl
  rcases exec_documents h d hd with hd | rfl
  · exact hd
  · rcases hg with hg | hg
    · exact (hoff hg).elim
    · exact (hg.2 hl).elim

/-- No call but those on the index opts a conversation in. -/
theorem closing_step {i : Input} {o : Op} {r : Except Err o.Res} (hk : ¬IsSearch k)
    (hc : w.calls p = some k) (hg : OptsOut p o w) (h : World.exec p i o w = some (r, w'))
    (hi' : Inv db₀ w') (hgu : Guar (some p) w w') : Closing w w' := by
  intro c hl hoff
  refine ⟨?_, closed_documents hg h hl hoff⟩
  obtain ⟨new, hnew, -⟩ := exec_makes h
  have plain : ∀ x ∈ new, Unflagging x := by
    intro x hx
    have logged : (p, x) ∈ w'.store.wal :=
      hnew.1 ▸ List.mem_append_right _ (List.mem_map_of_mem hx)
    obtain ⟨k', hk', hm⟩ := hi'.db.known p x logged
    cases hk'.symm.trans (hgu.calls p k hc)
    exact unflagging_may hk hm
  rintro ⟨r', hr', rfl, hs⟩
  rw [hnew.2] at hr'
  obtain ⟨r, hr, hid, hs⟩ := flagged_applyAll plain hr' hs
  exact hoff ⟨r, hr, hid, hs⟩

end Extension

section Enabling

theorem unflagging_or {x : Write} (hm : May k x) :
    Unflagging x ∨ ∃ ks f, x = .update .conversations ks f := by
  cases x with
  | insert t r =>
    cases t
    case conversations => exact .inl hm.2.1
    all_goals exact .inl trivial
  | update t ks f =>
    cases t
    case conversations => exact .inr ⟨ks, f, rfl⟩
    all_goals exact .inl trivial
  | delete t ks =>
    obtain rfl : t = .attachments := hm
    exact .inl nofun

/-- An update comes from the statement that selects its rows. -/
theorem pooled_update {s : Stmt} {t : Table} {ks : List Key} {f : schema.Assign t}
    (h : Schema.Write.update t ks f ∈ pooled s w) :
    ∃ q F, s = .update t q F ∧
      ks = ((w.store.db t).filter (q w.store.db w.clock)).map (schema.key t) ∧
      pooled s w = [.update t ks f] := by
  rcases Schema.Stmt.mem_plan h with ⟨t', make, rfl, F, -, i, e⟩ | ⟨t', q, F, rfl, e⟩
  · cases e
  · cases e
    exact ⟨q, F, rfl, rfl, (Schema.Stmt.mem_plan_update h).2⟩

/-- A step outside a transaction opts in only what nobody opts out. -/
theorem enabling_step {i : Input} {o : Op} {r : Except Err o.Res} (ho : Extension.Lone o)
    (he : Enabling p w) (hg : OptsOut p o w) (h : World.exec p i o w = some (r, w'))
    (hi' : Inv db₀ w') : Closing w w' := by
  intro c hl hoff
  refine ⟨?_, closed_documents hg h hl hoff⟩
  obtain ⟨new, hnew, hm⟩ := exec_makes h
  rintro ⟨r', hr', rfl, hs⟩
  rw [hnew.2] at hr'
  by_cases plain : ∀ x ∈ new, Unflagging x
  · obtain ⟨r, hr, hid, hs⟩ := flagged_applyAll plain hr' hs
    exact hoff ⟨r, hr, hid, hs⟩
  obtain ⟨x, hx, hflag⟩ : ∃ x ∈ new, ¬Unflagging x := by
    by_contra none
    exact plain fun x hx => not_not.1 fun hflag => none ⟨x, hx, hflag⟩
  obtain ⟨k, -, hk⟩ := hi'.db.known p x (hnew.1 ▸ List.mem_append_right _ (List.mem_map_of_mem hx))
  obtain ⟨ks, f, rfl⟩ := (unflagging_or hk).resolve_left hflag
  cases hm with
  | nothing => cases hx
  | commit => exact ho.elim
  | remove t q ks => cases List.mem_singleton.1 hx
  | query s =>
    obtain ⟨q, F, rfl, rfl, e⟩ := pooled_update hx
    rw [e, Schema.Write.applyAll, List.foldl_cons, List.foldl_nil, Schema.Write.apply_update] at hr'
    obtain ⟨r, hr, rfl⟩ := List.mem_map.1 hr'
    split at hs
    · rename_i sel
      obtain ⟨r₁, hr₁, hkey⟩ := List.mem_map.1 sel
      obtain ⟨hr₁, hq⟩ := List.mem_filter.1 hr₁
      rw [if_pos sel] at hl
      have hid : (r₁ : Conversation).id = (f.set r : Conversation).id :=
        (Key.id.inj hkey).trans (Key.id.inj (f.key_set r)).symm
      exact hg he r₁ hr₁ hq (hid ▸ hl)
    · rename_i out
      rw [if_neg out] at hoff
      exact hoff ⟨r, hr, rfl, hs⟩

theorem lone_select {t : Table} (q : t.Row → Bool) :
    (Backend.select .pool t q).Uses Extension.Lone :=
  (Extension.pooled_select (X := closing) q).mono fun _ => Extension.Pooled.lone

theorem lone_unwrap (dekId : Utf16) : (unwrap dekId).Uses Extension.Lone := by
  have asks : (unwrapWithKms dekId).Uses Extension.Lone := by
    unfold unwrapWithKms
    split
    · refine ((Prog.uses_perform _).2 trivial).bind fun kms => ?_
      split
      · exact ((Prog.uses_perform _).2 trivial).bind fun _ =>
          ((Prog.uses_perform _).2 trivial).bind fun _ => trivial
      · trivial
    · trivial
  refine ((Prog.uses_perform _).2 trivial).bind fun (cached : Option CachedDek) =>
    ((Prog.uses_perform _).2 trivial).bind fun (t : Nat) => ?_
  cases cached with
  | none => exact asks
  | some c => exact .ite (fun _ => trivial) fun _ => asks

theorem lone_decrypt (payload : EncryptedPayload) : (decrypt payload).Uses Extension.Lone := by
  refine (lone_unwrap _).bind fun dek => ?_
  cases AesGcm.decrypt dek payload.iv payload.tag payload.ciphertext <;> trivial

theorem lone_backfill (participants : List Nat) (m : Message) :
    (backfill participants m).Uses Extension.Lone := by
  refine Prog.Uses.bind ?_ fun content => .ite (fun _ => trivial) fun _ => ?_
  · unfold decryptOrEmpty
    split
    · trivial
    · split
      · trivial
      · exact (lone_decrypt _).tryCatch fun _ => trivial
  · exact ((Prog.uses_perform _).2 trivial).bind fun cfg =>
      .ite (fun _ => (Prog.uses_perform _).2 trivial) fun _ => trivial

theorem lone_access (user : AuthUser) (conversationId : Nat) :
    (assertCanAccess user conversationId).Uses Extension.Lone :=
  (open_closing.access user conversationId).mono fun _ => Extension.Pooled.lone

theorem lone_enableIndexing (user : AuthUser) (conversationId : Nat) :
    (enableIndexing user conversationId).Uses Extension.Lone := by
  refine (lone_access user conversationId).bind fun c => ?_
  refine Prog.Uses.bind (.ite (fun _ => trivial) fun _ => trivial) fun _ => ?_
  refine ((Prog.uses_perform _).2 trivial).bind fun cfg => ?_
  refine Prog.Uses.bind (.ite (fun _ => trivial) fun _ => trivial) fun _ => ?_
  refine (lone_select _).bind fun rows => (lone_select _).bind fun participants => ?_
  refine Prog.Uses.bind (.forM fun m => lone_backfill _ m) fun _ => ?_
  refine ((Prog.uses_perform _).2 trivial).bind fun t => ?_
  exact ((Prog.uses_perform _).2 trivial).bind fun _ => Extension.lone_audit ..

theorem valid_enableSearch (hk : k = .enableSearch user c) :
    Protocol.Valid machine OptsOut (closing.protocol db₀) p (Start p k) (code k) fun _ _ => True := by
  subst hk
  have lone : (code (.enableSearch user c)).Uses Extension.Lone :=
    (lone_access user c).bind fun conv => (lone_enableIndexing user conv.1.id).bind fun _ => trivial
  have serves : Serves db₀ OptsOut p (.enableSearch user c) (code (.enableSearch user c)) :=
    serves_enableSearch user c
  have lifted := Extension.lifted_of (X := closing) (k := .enableSearch user c) serves lone
    (fun _ h => h)
    fun i o w r w' ho hg h _ hidle hi' _ => ⟨trivial, enabling_step ho ⟨_, _, hidle.1⟩ hg h hi'⟩
  exact (lifted.pre fun w _ h => ⟨h, h.call, h.idle⟩).post fun _ _ _ _ => trivial

end Enabling

section Disabling

/-- The conversation is being opted out, and its flag is off. -/
def Shut (c : Nat) (w : World) : Prop := Leaving c w ∧ ¬Flagged c w

/-- And nothing of it is in the index. -/
def Emptied (c : Nat) (w : World) : Prop := Shut c w ∧ ∀ d ∈ w.documents, d.conversationId ≠ c

theorem lasts_shut : closing.Lasts db₀ (Shut c) := by
  rintro a w w' _ _ hg ⟨⟨q, user, hq⟩, hoff⟩
  exact ⟨⟨q, user, hg.1.calls q _ hq⟩, (hg.2 c ⟨q, user, hq⟩ hoff).1⟩

theorem lasts_emptied : closing.Lasts db₀ (Emptied c) := by
  rintro a w w' hi hi' hg ⟨hs, hd⟩
  exact ⟨lasts_shut a w w' hi hi' hg hs, fun d hd' e => hd d ((hg.2 c hs.1 hs.2).2 d hd' e) e⟩

theorem valid_unflag (hk : k = .disableSearch user c) :
    Protocol.Valid machine OptsOut (closing.protocol db₀) p (Extension.Idle k p)
      (update .pool .conversations (fun r => r.id == c) fun _ => setSearchIndexed false none)
      (onOk fun _ w => Extension.Idle k p w ∧ Shut c w) := by
  refine Protocol.Valid.perform (fun i w r w' hi hidle hg hx => ?_) fun r => ?_
  · rcases exec_update hi.1 hx with ⟨rfl, e, rfl, -⟩ | ⟨st', ks, hks, rfl, -, hok, hf, htx, hc, -⟩
    · have same := keeps_closing.idle hi hi.1 ((Same.refl w').guar (some p)) rfl rfl (.refl w')
      exact ⟨same.1, same.2, trivial⟩
    · have search : IsSearch k := hk ▸ trivial
      have send : ¬IsSend k := hk ▸ id
      have brings := brings_update hi.1 hidle.1 (⟨fun _ => send, nofun⟩ : Free k .pool .conversations)
        (⟨.inr fun _ => rfl, .inl search, .inr fun _ => rfl⟩ : May k (.update .conversations ks
          (setSearchIndexed false none)))
        (fun r _ _ => still_setSearchIndexed _ _ r) hks hc
      obtain ⟨hi', hgu⟩ := withStore_ok (a := some p) hi.1 hidle.1 hok hf.weaken
        (fun _ h => (Option.some.inj h).symm) hc brings (.inl rfl) (htx ▸ hi.1.apart p)
      have plain : ∀ x ∈ [Schema.Write.update .conversations ks (setSearchIndexed false none)],
          Unflagging x := by
        intro x hx
        rw [List.mem_singleton.1 hx]
        exact fun r hr => Bool.noConfusion hr
      obtain ⟨hxi, hxg⟩ := keeps_closing.plain _ w _ hi.1 hi' hgu
        ⟨⟨p, _, hc, plain⟩, fun _ => ⟨rfl, rfl, rfl, rfl⟩⟩ hi.2
      have call := hgu.calls p k hidle.1
      have shut : Shut c (w.withStore st') := by
        refine ⟨⟨p, user, hk ▸ call⟩, ?_⟩
        rintro ⟨r', hr', rfl, hs⟩
        have hr' : r' ∈ st'.db .conversations := hr'
        rw [hc.2, Schema.Write.applyAll, List.foldl_cons, List.foldl_nil,
          Schema.Write.apply_update] at hr'
        obtain ⟨r, hr, rfl⟩ := List.mem_map.1 hr'
        split at hs
        · cases hs
        · rename_i out
          refine out (hks ▸ List.mem_map_of_mem (List.mem_filter.2 ⟨hr, beq_iff_eq.2 ?_⟩))
          rw [if_neg out]
      refine ⟨⟨hi', hxi⟩, ⟨hgu, hxg⟩, ?_⟩
      cases r with
      | ok n => exact ⟨⟨call, htx.trans hidle.2⟩, shut⟩
      | error e => trivial
  · cases r with
    | ok n => exact Extension.stable_idle.and lasts_shut.stable
    | error e => exact .const _ _ _

theorem valid_unindex :
    Protocol.Valid machine OptsOut (closing.protocol db₀) p
      (fun w => Extension.Idle k p w ∧ Shut c w) (perform (.unindex c))
      (onOk fun _ w => Extension.Idle k p w ∧ Emptied c w) := by
  refine Protocol.Valid.perform (fun i w r w' hi hw hg hx => ?_) fun r => ?_
  · have hx : World.exec p i (.unindex c) w = some (r, w') := hx
    obtain ⟨ds, hds⟩ := exec_indexes hx trivial
    have core : SameCore w w' := hds ▸ sameCore_documents w ds
    have hgu : Guar (some p) w w' := core.guarOf (.inl (hds ▸ ⟨rfl, rfl, rfl⟩))
    have kept : (closing.protocol db₀).inv w' ∧ (closing.protocol db₀).guar (some p) w w' := by
      refine ⟨⟨core.inv hi.1, trivial⟩, hgu, fun c' _ h => ⟨hds ▸ h, fun d hd _ => ?_⟩⟩
      exact (exec_documents hx d hd).resolve_right nofun
    refine ⟨kept.1, kept.2, ?_⟩
    rcases remote_cases hx with ⟨-, rfl, rfl⟩ | ⟨rfl, -⟩
    · refine ⟨hw.1, lasts_shut _ w _ hi kept.1 kept.2 hw.2, fun d hd => ?_⟩
      simpa using (List.mem_filter.1 hd).2
    · trivial
  · cases r with
    | ok u => exact Extension.stable_idle.and lasts_emptied.stable
    | error e => exact .const _ _ _

theorem valid_purge (hk : k = .disableSearch user c) :
    Protocol.Valid machine OptsOut (closing.protocol db₀) p
      (fun w => Extension.Idle k p w ∧ Shut c w) (deleteByConversation c)
      (onOk fun _ w => Extension.Idle k p w ∧ Emptied c w) := by
  refine Protocol.Valid.bind (Q := onOk fun (cfg : Settings) w =>
    (Extension.Idle k p w ∧ Shut c w) ∧ (cfg.searchEnabled = true ∨ Emptied c w))
    (Protocol.Valid.perform (fun i w r w' hi hw hg hx => ?_) fun r => ?_)
    (fun (cfg : Settings) => .ite (fun _ => ?_) fun off => ?_) fun _ _ _ _ => trivial
  · have hx : World.exec p i .settings w = some (r, w') := hx
    cases hx
    have same := keeps_closing.idle hi hi.1 ((Same.refl w).guar (some p)) rfl rfl (.refl w)
    have hc : w.calls p = some (.disableSearch user c) := hk ▸ hw.1.1
    have hg : ∀ user c, w.calls p = some (.disableSearch user c) →
      w.settings.searchEnabled = true ∨ ∀ d ∈ w.documents, d.conversationId ≠ c := hg
    exact ⟨same.1, same.2, hw, (hg user c hc).imp_right fun h => ⟨hw.2, h⟩⟩
  · cases r with
    | ok cfg =>
      refine (Extension.stable_idle.and lasts_shut.stable).and ?_
      intro a w w' _ hi hi' hg h
      exact h.imp_right (lasts_emptied a w w' hi hi' hg)
    | error e => exact .const _ _ _
  · exact valid_unindex.pre fun _ _ h => h.1
  · exact .pure fun w _ h => ⟨h.1.1, h.2.resolve_left off⟩

theorem valid_disableIndexing (hk : k = .disableSearch user c) :
    Protocol.Valid machine OptsOut (closing.protocol db₀) p (Extension.Idle k p)
      (disableIndexing user c) (onOk fun _ w => Extension.Idle k p w ∧ Emptied c w) := by
  have rotate : ¬Rotates k := hk ▸ id
  have send : ¬IsSend k := hk ▸ id
  refine Protocol.Valid.bind (keeps_closing.access open_closing rotate send user c) (fun conv => ?_)
    fun _ _ _ _ => trivial
  refine Protocol.Valid.bind ((valid_unflag hk).pre fun _ _ h => h.1) (fun _ => ?_)
    fun _ _ _ _ => trivial
  refine Protocol.Valid.bind (valid_purge hk) (fun _ => ?_) fun _ _ _ _ => trivial
  exact keeps_closing.audit (fun _ => trivial) (fun _ h => h.1.1)
    (Extension.stable_idle.and lasts_emptied.stable)

theorem valid_disableSearch (hk : k = .disableSearch user c) :
    Protocol.Valid machine OptsOut (closing.protocol db₀) p (Start p k) (code k)
      (onOk fun _ => Emptied c) := by
  have rotate : ¬Rotates k := hk ▸ id
  have send : ¬IsSend k := hk ▸ id
  have keeps : closing.Keeps db₀ := keeps_closing
  have access := (keeps.access (g := OptsOut) (p := p) open_closing rotate send user c).pre
    fun w _ (h : Start p k w) => ⟨h.call, h.idle⟩
  rw [hk] at access ⊢
  refine Protocol.Valid.bind access (fun conv => ?_) fun _ _ _ _ => trivial
  refine (Protocol.Valid.given (P := conv.1.id = c) fun e => ?_).pre fun w _ h => ⟨h.2.1, h.1⟩
  obtain ⟨conv, role⟩ := conv
  obtain rfl : conv.id = c := e
  exact Protocol.Valid.bind (valid_disableIndexing rfl) (fun _ => .pure fun _ _ h => h.2)
    fun _ _ _ _ => trivial

end Disabling

/-- What an opt-out that was answered leaves. -/
def Purges (k : Call) (r : Except Err Response) (w : World) : Prop :=
  ∀ user c, k = .disableSearch user c → onOk (fun _ => Emptied c) r w

theorem sound_closing (w₀ : World) :
    Protocol.Sound machine OptsOut (closing.protocol w₀.store.db) (From w₀) Start
      fun _ k r w => IsSearch k → Purges k r w := by
  refine keeps_closing.soundOf (fun p k i o w r w' hk hc hg h _ hi' hgu _ =>
    ⟨trivial, closing_step hk hc hg h hi' hgu⟩) fun p k hk => ?_
  cases k
  case enableSearch user c => exact (valid_enableSearch rfl).post fun _ _ _ _ _ _ => nofun
  case disableSearch user c =>
    refine (valid_disableSearch rfl).post fun r w _ h user' c' e => ?_
    cases e
    exact h
  all_goals exact hk.elim

end Messageries.Proofs
