import Messageries.Proofs.Access

set_option linter.unusedSectionVars false

namespace Messageries.Proofs

open Text Relational Database Crypto Concurrency Backend Moderation

variable [AesGcm] [TokenHash] {db₀ : Db} {g : Nat → Op → World → Prop} {k : Call} {p : Nat}
  {φ : World → Prop}

section Stored

/-- The row of a message that was sent. -/
structure Stored (m : Message) (w : World) : Prop where
  sent : ∃ q m₀, (q, Schema.Write.insert .messages m₀) ∈ w.store.wal ∧ MessageLater m₀ m ∧
    Sent w.calls w.keyLog w.store.wal w.store.db q m₀
  present : ∃ m' ∈ w.store.db .messages, MessageLater m m'

theorem Persists.stored (m : Message) : Persists db₀ (Stored m) := by
  rintro a w w' - - hg ⟨⟨q, m₀, hm, hl, hs⟩, m', hm', hl'⟩
  obtain ⟨m'', hm'', hl''⟩ := hg.kept .messages nofun m' hm'
  exact ⟨⟨q, m₀, hg.wal.subset hm, hl, hs.mono hg.calls hg.log hg.wal.subset hg.kept⟩,
    m'', hm'', hl'.trans hl''⟩

theorem Stored.of_read {m : Message} {w : World} (hi : Inv db₀ w) (h : Read db₀ .messages m w) :
    Stored m w := by
  rcases h.origin with ⟨r₀, hr₀, -⟩ | ⟨q, m₀, hm, hl⟩
  · rw [hi.db.unsent] at hr₀
    cases hr₀
  · exact ⟨⟨q, m₀, hm, hl, hi.db.sends q m₀ hm⟩, h.present nofun⟩

def MessageIn (db : Db) (messageId c : Nat) : Prop :=
  ∃ m ∈ db .messages, (m : Message).id = messageId ∧ (m : Message).conversationId = c

/-- A message that was read is in one conversation. -/
theorem Stored.conversation {w : World} (hi : Inv db₀ w) {m : Message} (h : Stored m w) {c : Nat}
    (hc : MessageIn w.store.db m.id c) : m.conversationId = c := by
  obtain ⟨m', hm', hid, hc⟩ := hc
  obtain ⟨m'', hm'', hl⟩ := h.present
  have key : ∀ x : Message, Key.id x.id ∈ schema.keys .messages x := fun x => by
    simp [Schema.keys, primaryKey]
  have same : m'' = m' := Schema.eq_of_mem_flatMap (hi.ok.unique .messages) hm'' hm' (key m'')
    (hid.trans hl.id.symm ▸ key m')
  exact hl.conversationId.symm.trans (same ▸ hc)

/-- The sender of a message keeps a seat in its conversation. -/
theorem Stored.sender {m : Message} {w : World} (h : Stored m w) :
    Active w.store.db m.conversationId m.senderId := by
  obtain ⟨⟨q, m₀, -, hl, hs⟩, -⟩ := h
  exact hl.conversationId.symm ▸ hl.senderId.symm ▸ hs.sender

/-- The text is the one the message was sent with. -/
def Says (id : Nat) (t : Utf16) (w : World) : Prop :=
  ∃ q m user body key, (q, Schema.Write.insert .messages m) ∈ w.store.wal ∧
    (m : Message).id = id ∧
    w.calls q = some (.send user (m : Message).conversationId body key) ∧ t = cleaned body

theorem Persists.said (id : Nat) (t : Utf16) : Persists db₀ (Says id t) := by
  rintro a w w' - - hg ⟨q, m, user, body, key, hm, hid, hc, ht⟩
  exact ⟨q, m, user, body, key, hg.wal.subset hm, hid, hg.calls _ _ hc, ht⟩

theorem sealedBody_dekId {m : Message} {e : EncryptedPayload} (h : sealedBody m = some e) :
    m.bodyDekId = some e.dekId := by
  simp only [sealedBody, Option.bind_eq_bind, Option.pure_def, Option.bind_eq_some_iff,
    Option.some.injEq] at h
  obtain ⟨c, -, iv, -, tag, -, d, hd, rfl⟩ := h
  exact hd

theorem Stored.dek {m : Message} {w : World} (h : Stored m w) {dekId : Utf16}
    (hd : m.bodyDekId = some dekId) : ∃ dek, Genuine w.keyLog dekId dek := by
  obtain ⟨q, m₀, -, hl, hs⟩ := h.sent
  obtain ⟨_, _, _, -, -, -, hr, -⟩ := hs.call
  have hd₀ : m₀.bodyDekId = some dekId := by
    rcases hl.dekId with e | e
    · rw [hd] at e
      cases e
    · exact e.symm.trans hd
  cases hr with
  | plain _ hn =>
    rw [hn] at hd₀
    cases hd₀
  | «sealed» e _ hs ho =>
    rw [sealedBody_dekId hs] at hd₀
    obtain ⟨dek, _, hg, -⟩ := ho
    exact ⟨dek, Option.some.inj hd₀ ▸ hg⟩

/-- The columns of a visible message hold the text it was sent with. -/
theorem Stored.readable {m : Message} {w : World} (h : Stored m w) (hv : gone m.status = false) :
    ∃ t, Says m.id t w ∧ (m.body = some t ∨
      m.body = none ∧ ∃ e, sealedBody m = some e ∧ Opens w.keyLog e t) := by
  obtain ⟨q, m₀, hm, hl, hs⟩ := h.sent
  obtain ⟨user, body, key, hc, -, -, hr, -⟩ := hs.call
  obtain ⟨-, hb, hsb⟩ := hl.content hv
  refine ⟨cleaned body, ⟨q, m₀, user, body, key, hm, hl.id.symm, hc, rfl⟩, ?_⟩
  cases hr with
  | plain hp _ => exact .inl (hb.trans hp)
  | «sealed» e hn he ho => exact .inr ⟨hb.trans hn, e, hsb.trans he, ho⟩

theorem Stored.opens {m : Message} {w : World} (h : Stored m w) (hv : gone m.status = false)
    {e : EncryptedPayload} (he : sealedBody m = some e) :
    ∃ t, Says m.id t w ∧ Opens w.keyLog e t := by
  obtain ⟨q, m₀, hm, hl, hs⟩ := h.sent
  obtain ⟨user, body, key, hc, -, -, hr, -⟩ := hs.call
  obtain ⟨-, hb, hsb⟩ := hl.content hv
  refine ⟨cleaned body, ⟨q, m₀, user, body, key, hm, hl.id.symm, hc, rfl⟩, ?_⟩
  cases hr with
  | plain _ hn =>
    rw [sealedBody_dekId (hsb.symm.trans he)] at hn
    cases hn
  | «sealed» e' _ he' ho =>
    rw [hsb, he'] at he
    exact Option.some.inj he ▸ ho

end Stored

section Unwrap

theorem spec_cacheGet {dekId : Utf16} {dek : Bytes}
    (hφ : Persists db₀ φ) (hg : ∀ w, φ w → Genuine w.keyLog dekId dek) :
    Spec db₀ g k p φ (perform (.cacheGet dekId))
      fun r w => φ w ∧ ∃ o : Option CachedDek, r = .ok o ∧ ∀ c, o = some c → c.dek = dek := by
  refine Spec.perform trivial (fun i w r w' hi _ hw _ hx _ _ => ?_)
    fun r => hφ.and (.exists fun _ => .const _)
  cases hx
  refine ⟨hw, _, rfl, fun c hc => ?_⟩
  have hid : c.dekId = dekId := by simpa using List.find?_some hc
  have hgc := hi.cache c (List.mem_of_find?_eq_some hc)
  exact (hid ▸ hgc).unique hi.keys (hg w hw)

/-- The key service that answers still has the key. -/
theorem spec_kms {dekId : Utf16} {dek : Bytes} (hφ : Persists db₀ φ)
    (hg : ∀ w, φ w → Genuine w.keyLog dekId dek) :
    Spec db₀ g k p φ (perform .kms) fun r w => φ w ∧ ∃ kms : LocalKmsProvider, r = .ok kms ∧
      ∃ keyId b64, splitColons dekId = [keyId, b64] ∧
        kms.decryptDataKey keyId (ofBase64 b64) = some dek := by
  refine Spec.perform trivial (fun i w r w' hi _ hw _ hx _ _ => ?_)
    fun r => hφ.and (.exists fun _ => .const _)
  cases hx
  exact ⟨hw, _, rfl, (hg w hw).decryptDataKey hi.keys⟩

theorem cachePut_step {w : World} {d : CachedDek} (hi : Inv db₀ w)
    (hd : Genuine w.keyLog d.dekId d.dek) :
    Inv db₀ (w.cachePut d) ∧ Guar (some p) w (w.cachePut d) := by
  refine ⟨⟨hi.ok, hi.idle, hi.apart, hi.keys, hi.active, fun c hc => ?_, hi.arrived,
    hi.db⟩, ⟨.refl _ _, .refl _, fun _ _ h => h, fun _ _ _ => rfl, fun _ h => h, List.prefix_rfl,
      fun _ _ h => .inl h, .inl ⟨rfl, rfl, rfl⟩, Nat.le_refl _⟩⟩
  rcases List.mem_cons.1 hc with rfl | hc
  · exact hd
  · have hc := (List.mem_filter.1 hc).1
    split at hc
    · cases hc
    · exact hi.cache c hc

theorem spec_cachePut {d : CachedDek} (hφ : Persists db₀ φ)
    (hg : ∀ w, φ w → Genuine w.keyLog d.dekId d.dek) :
    Spec db₀ g k p φ (perform (.cachePut d)) fun r w => φ w ∧ r = .ok () := by
  refine Protocol.Valid.perform (fun i w r w' hi hw _ hx => ?_)
    fun r => stable_base.and ((hφ.and (.const _)).stable p)
  cases hx
  obtain ⟨hi', hgu⟩ := cachePut_step (p := p) hi (hg w hw.2)
  exact ⟨hi', hgu, ⟨hw.1.1, hw.1.2.of_eq rfl rfl⟩, hφ _ _ _ hi hi' hgu hw.2, rfl⟩

theorem spec_unwrapWithKms {dekId : Utf16} {dek : Bytes} (hφ : Persists db₀ φ)
    (hg : ∀ w, φ w → Genuine w.keyLog dekId dek) :
    Spec db₀ g k p φ (unwrapWithKms dekId) fun r w => φ w ∧ r = .ok dek := by
  unfold unwrapWithKms
  -- the name has two parts, whatever the state
  by_cases hs : ∃ keyId b64, splitColons dekId = [keyId, b64]
  · obtain ⟨keyId, b64, hs⟩ := hs
    rw [hs]
    refine (spec_kms hφ hg).bind (fun kms => ?_) fun _ _ _ ⟨_, _, h, _⟩ => nomatch h
    by_cases hd : kms.decryptDataKey keyId (ofBase64 b64) = some dek
    · simp only [hd]
      refine Spec.pre (φ := φ) ?_ fun _ _ h => h.1
      refine (Spec.now (E := fun _ => False) hφ).bind (fun t => ?_) fun _ _ _ h => h.elim
      refine (spec_cachePut hφ hg).bind (fun _ => ?_) fun _ _ _ ⟨_, h⟩ => nomatch h
      exact .pure fun _ _ h => ⟨h.1, rfl⟩
    · refine .absurd fun w _ ⟨_, _, hk, keyId', b64', hs', hd'⟩ => hd ?_
      cases hk
      rw [hs, List.cons.injEq, List.cons.injEq] at hs'
      rw [hs'.1, hs'.2.1]
      exact hd'
  · refine .absurd fun w hi hw => hs ?_
    obtain ⟨keyId, b64, h, -⟩ := (hg w hw).decryptDataKey hi.keys
    exact ⟨keyId, b64, h⟩

theorem spec_unwrap {dekId : Utf16} {dek : Bytes} (hφ : Persists db₀ φ)
    (hg : ∀ w, φ w → Genuine w.keyLog dekId dek) :
    Spec db₀ g k p φ (unwrap dekId) fun r w => φ w ∧ r = .ok dek := by
  have kms : Spec db₀ g k p φ (unwrapWithKms dekId) fun r w => φ w ∧ r = .ok dek :=
    spec_unwrapWithKms hφ hg
  refine (spec_cacheGet hφ hg).bind (fun cached => ?_) fun _ _ _ ⟨_, _, h, _⟩ => nomatch h
  by_cases hc : ∀ c, cached = some c → c.dek = dek
  · refine Spec.pre (φ := φ) ?_ fun _ _ h => h.1
    refine (Spec.now (E := fun _ => False) hφ).bind (fun t => ?_) fun _ _ _ h => h.elim
    cases cached with
    | none => exact kms
    | some c =>
      refine Spec.ite (fun _ => .pure fun _ _ h => ⟨h, ?_⟩) fun _ => kms
      rw [hc c rfl]
  · refine .absurd fun w _ ⟨_, o, ho, h⟩ => hc ?_
    cases ho
    exact h

/-- What a sealed body decrypts to under its key. -/
def opened (dek : Bytes) (e : EncryptedPayload) : Except Err Utf16 :=
  match AesGcm.decrypt dek e.iv e.tag e.ciphertext with
  | some pt => .ok (encode (ofBytes pt))
  | none => .error .crypto

theorem spec_decrypt {e : EncryptedPayload} {dek : Bytes} (hφ : Persists db₀ φ)
    (hg : ∀ w, φ w → Genuine w.keyLog e.dekId dek) :
    Spec db₀ g k p φ (decrypt e) fun r w => φ w ∧ r = opened dek e := by
  refine (spec_unwrap hφ hg).bind (fun dek' => ?_) fun _ _ _ ⟨_, h⟩ => nomatch h
  by_cases hd : dek' = dek
  · subst hd
    cases ho : AesGcm.decrypt dek' e.iv e.tag e.ciphertext with
    | some pt => exact .pure fun _ _ h => ⟨h.1, by rw [opened, ho]⟩
    | none => exact .throw fun _ _ h => ⟨h.1, by rw [opened, ho]⟩
  · refine .absurd fun w _ h => hd ?_
    cases h.2
    rfl

/-- A visible message decrypts to its text. -/
theorem spec_decrypt_stored {m : Message} {e : EncryptedPayload} (he : sealedBody m = some e)
    (hφ : Persists db₀ φ) (hm : ∀ w, φ w → Stored m w) :
    Spec db₀ g k p φ (decrypt e) fun r w => φ w ∧
      (gone m.status = false → ∃ t, r = .ok t ∧ Says m.id t w) := by
  refine Spec.pre (φ := fun w => ∃ dek, φ w ∧ Genuine w.keyLog e.dekId dek) ?_ fun w _ hw => ?_
  · refine Spec.exists fun dek => ?_
    refine (spec_decrypt (hφ.and (.genuine _ dek)) fun _ h => h.2).post fun r w hi h => ?_
    refine ⟨h.1.1, fun hv => ?_⟩
    obtain ⟨t, hs, dek', pt, hg, hd, ht⟩ := (hm w h.1.1).opens hv he
    obtain rfl := hg.unique hi.keys h.1.2
    exact ⟨t, by rw [h.2, opened, hd, ← ht], hs⟩
  · obtain ⟨dek, hg⟩ := (hm w hw).dek (sealedBody_dekId he)
    exact ⟨dek, hw, hg⟩

end Unwrap

section List

/-- What a reader gets of a message: its text, unless it is gone. -/
def Shown (m : Message) (t : Utf16) (w : World) : Prop := gone m.status = false → Says m.id t w

theorem Persists.shown (m : Message) (t : Utf16) : Persists db₀ (Shown m t) :=
  .imp fun _ => .said _ _

theorem shown_body {m : Message} {w : World} (hm : Stored m w) {t : Utf16} (hb : m.body = some t) :
    Shown m t w := by
  intro hv
  obtain ⟨t', hs, hb' | ⟨hb', -⟩⟩ := hm.readable hv
  · cases hb.symm.trans hb'
    exact hs
  · cases hb.symm.trans hb'

theorem shown_nothing {m : Message} {w : World} (hm : Stored m w) (hb : m.body = none)
    (he : sealedBody m = none) (t : Utf16) : Shown m t w := by
  intro hv
  obtain ⟨t', -, hb' | ⟨-, e, he', -⟩⟩ := hm.readable hv
  · cases hb.symm.trans hb'
  · cases he.symm.trans he'

theorem spec_bodyOf {m : Message} (hφ : Persists db₀ φ) (hm : ∀ w, φ w → Stored m w) :
    Spec db₀ g k p φ (bodyOf m none) fun r w => φ w ∧ ∃ t, r = .ok t ∧ Shown m t w := by
  have hidden : gone m.status = true → ∀ t w, Shown m t w := fun h t w hv =>
    Bool.noConfusion (hv.symm.trans h)
  refine Spec.ite (fun hd => .pure fun w _ hw => ⟨hw, _, rfl, hidden (by simp [hd, gone]) _ _⟩)
    fun hd => ?_
  refine Spec.ite (fun hh => .pure fun w _ hw => ⟨hw, _, rfl, hidden (by simp [hh, gone]) _ _⟩)
    fun hh => ?_
  have hv : gone m.status = false := by simp [gone, hd, hh]
  cases hb : m.body with
  | some t => exact .pure fun w _ hw => ⟨hw, t, rfl, shown_body (hm w hw) hb⟩
  | none =>
    cases he : sealedBody m with
    | none => exact .pure fun w _ hw => ⟨hw, [], rfl, shown_nothing (hm w hw) hb he _⟩
    | some e =>
      refine (spec_decrypt_stored he hφ hm).post fun r w _ h => ⟨h.1, ?_⟩
      obtain ⟨t, rfl, hs⟩ := h.2 hv
      exact ⟨t, rfl, fun _ => hs⟩

theorem spec_toDecrypted {m : Message} (hφ : Persists db₀ φ) (hm : ∀ w, φ w → Stored m w) :
    Spec db₀ g k p φ (toDecrypted m none)
      fun r w => φ w ∧ ∃ d, r = .ok d ∧ ∃ t, d = withBody m t ∧ Shown m t w := by
  refine (spec_bodyOf hφ hm).bind (fun t => ?_) fun _ _ _ ⟨_, _, h, _⟩ => nomatch h
  refine .pure fun w _ ⟨hw, t', ht, hs⟩ => ⟨hw, _, rfl, t, rfl, ?_⟩
  cases ht
  exact hs

theorem page_mem {α : Type} {limit : Option Int} {rows rows' : List α}
    (h : page limit rows = .ok rows') : ∀ r ∈ rows', r ∈ rows := by
  unfold page at h
  split at h
  · cases h
  · split at h
    · cases h
      exact fun _ h => h
    · split at h
      · cases h
      · cases h
        exact fun _ h => List.mem_of_mem_take h

theorem page_error {α : Type} {limit : Option Int} {rows : List α} {e : Err}
    (h : page limit rows = .error e) : e ≠ .crypto := by
  unfold page at h
  split at h
  · cases h
    nofun
  · split at h
    · cases h
    · split at h
      · cases h
        nofun
      · cases h

/-- The rows of a page were sent to the conversation. -/
def Paged (φ : World → Prop) (conversationId : Nat) (rows : List Message) (w : World) : Prop :=
  φ w ∧ ∀ m ∈ rows, m.conversationId = conversationId ∧ Stored m w

theorem Persists.paged (hφ : Persists db₀ φ) (conversationId : Nat) (rows : List Message) :
    Persists db₀ (Paged φ conversationId rows) :=
  hφ.and (.forall fun m => .imp fun _ => .and (.const _) (.stored m))

/-- The rows of a page over the tables `db`. -/
def pageRows (db : Db) (conversationId : Nat) (q : Int → Bool) (descending : Bool)
    (limit : Option Int) : Except Err (List Message) :=
  let rows := ((db .messages).filter (inConversation conversationId q)).insertionSort
    fun a b => a.sequence ≤ b.sequence
  page limit (if descending then rows.reverse else rows)

theorem pageRows_mem {db : Db} {conversationId : Nat} {q : Int → Bool} {descending : Bool}
    {limit : Option Int} {rows : List Message}
    (h : pageRows db conversationId q descending limit = .ok rows) :
    ∀ m ∈ rows, m ∈ db .messages ∧ m.conversationId = conversationId := by
  intro m hm
  have hm := page_mem h m hm
  have hm : m ∈ (db .messages).filter (inConversation conversationId q) := by
    split at hm
    · exact (List.mem_insertionSort _).1 (List.mem_reverse.1 hm)
    · exact (List.mem_insertionSort _).1 hm
  obtain ⟨hmem, hq⟩ := List.mem_filter.1 hm
  simp only [inConversation, Bool.and_eq_true, beq_iff_eq] at hq
  exact ⟨hmem, hq.1.1⟩

/-- The page was read at one moment. -/
def PageAt (conversationId : Nat) (q : Int → Bool) (descending : Bool) (limit : Option Int)
    (rows : List Message) (db : Db) : Prop :=
  pageRows db conversationId q descending limit = .ok rows

theorem spec_selectPage (conversationId : Nat) (q : Int → Bool) (descending : Bool)
    (limit : Option Int) (hφ : Persists db₀ φ) :
    Spec db₀ g k p φ (selectPage conversationId q descending limit)
      (ends (· ≠ .crypto) fun rows w => Paged φ conversationId rows w ∧
        Snapshot db₀ p (PageAt conversationId q descending limit rows) w) := by
  have tail : ∀ (rows : List Message), Persists db₀ fun w => ∀ rows',
      page limit (if descending then (rows.insertionSort fun a b => a.sequence ≤ b.sequence).reverse
        else rows.insertionSort fun a b => a.sequence ≤ b.sequence) = .ok rows' →
      Paged φ conversationId rows' w ∧
        Snapshot db₀ p (PageAt conversationId q descending limit rows') w :=
    fun rows => .forall fun _ => .imp fun _ => (hφ.paged _ _).and (.snapshot p _)
  refine ((Spec.select (t := .messages) (fun w hi hb hw _ rows' hp => ?_) tail).weaken
    (by rintro _ rfl; nofun)).seq fun rows => ?_
  · refine ⟨⟨hw, fun m hm => ?_⟩, .now hi hb.1 hp⟩
    have hp : pageRows w.store.db conversationId q descending limit = .ok _ := hp
    obtain ⟨hmem, hc⟩ := pageRows_mem hp m hm
    exact ⟨hc, .of_read hi (.of_mem hi hmem)⟩
  · change Spec db₀ g k p _ (orThrow (page limit (if descending then
      (rows.insertionSort fun a b => a.sequence ≤ b.sequence).reverse
      else rows.insertionSort fun a b => a.sequence ≤ b.sequence))) _
    cases hp : page limit (if descending then
      (rows.insertionSort fun a b => a.sequence ≤ b.sequence).reverse
      else rows.insertionSort fun a b => a.sequence ≤ b.sequence) with
    | error e => exact .throw fun _ _ _ => page_error hp
    | ok rows' => exact .pure fun w _ h => h rows' rfl

theorem spec_parsed {α : Type} (x : Except SqlState α) (hφ : Persists db₀ φ) :
    Spec db₀ g k p φ (parameter .pool x) (ends (· ≠ .crypto) fun a w => φ w ∧ x = .ok a) := by
  cases x with
  | ok a => exact .pure fun _ _ h => ⟨h, rfl⟩
  | error e =>
    refine Spec.seq (Q := fun _ => φ) ?_ fun _ => .throw fun _ _ _ => nofun
    refine Spec.perform trivial (fun i w r w' _ _ hw _ hx _ _ => ?_) fun r =>
      .ends (fun _ => hφ) r
    rcases exec_query hx with ⟨r₀, st', hq, -, hr⟩ | ⟨rfl, -⟩
    · have hr₀ : r₀ = .error e := by
        simp only [State.query, Schema.Stmt.plan, Option.some.injEq, Prod.mk.injEq] at hq
        exact hq.1.symm
      rcases hr with rfl | rfl
      · rw [hr₀]
        intro he
        cases he
      · intro he
        cases he
    · intro he
      cases he

/-- Which rows a query asks for, and whether the latest come first. -/
def cursorOf (afterSequence beforeSequence : Option Utf16) : Except SqlState ((Int → Bool) × Bool) :=
  match truthy afterSequence, truthy beforeSequence with
  | some s, _ => (bigint s).map fun n => (fun x => n < x, false)
  | none, some s => (bigint s).map fun n => (fun x => x < n, true)
  | none, none => .ok (fun _ => true, true)

/-- The page a query answers with was read at one moment. -/
def PageOf (conversationId : Nat) (afterSequence beforeSequence : Option Utf16)
    (limit : Option Int) (rows : List Message) (db : Db) : Prop :=
  ∃ q descending, cursorOf afterSequence beforeSequence = .ok (q, descending) ∧
    PageAt conversationId q descending limit rows db

theorem spec_listRows (conversationId : Nat) (afterSequence beforeSequence : Option Utf16)
    (limit : Option Int) (hφ : Persists db₀ φ) :
    Spec db₀ g k p φ (listRows conversationId afterSequence beforeSequence limit)
      (ends (· ≠ .crypto) fun rows w => Paged φ conversationId rows w ∧
        Snapshot db₀ p (PageOf conversationId afterSequence beforeSequence limit rows) w) := by
  have done : ∀ q descending, cursorOf afterSequence beforeSequence = .ok (q, descending) →
      Spec db₀ g k p φ (selectPage conversationId q descending limit)
        (ends (· ≠ .crypto) fun rows w => Paged φ conversationId rows w ∧
          Snapshot db₀ p (PageOf conversationId afterSequence beforeSequence limit rows) w) :=
    fun q descending hc => (spec_selectPage conversationId q descending limit hφ).imp
      fun rows w _ ⟨h, hs⟩ => ⟨h, hs.imp fun _ hr => ⟨q, descending, hc, hr⟩⟩
  unfold listRows
  unfold cursorOf at done
  split
  · rename_i s hs
    rw [hs] at done
    refine (spec_parsed (bigint s) hφ).seq fun n => ?_
    by_cases hn : bigint s = .ok n
    · exact (done _ _ (by simp only [hn]; rfl)).pre fun _ _ h => h.1
    · exact .absurd fun _ _ h => hn h.2
  · rename_i s hs hb
    rw [hs, hb] at done
    refine (spec_parsed (bigint s) hφ).seq fun n => ?_
    by_cases hn : bigint s = .ok n
    · exact (done _ _ (by simp only [hn]; rfl)).pre fun _ _ h => h.1
    · exact .absurd fun _ _ h => hn h.2
  · rename_i hs hb
    rw [hs, hb] at done
    exact done _ _ rfl

/-- What `list` answers with. -/
def Listed (conversationId : Nat) (ms : List DecryptedMessage) (w : World) : Prop :=
  ∀ d ∈ ms, d.conversationId = conversationId ∧ (gone d.status = false → Says d.id d.body w)

theorem Persists.listed (conversationId : Nat) (ms : List DecryptedMessage) :
    Persists db₀ (Listed conversationId ms) :=
  .forall fun _ => .imp fun _ => .and (.const _) (.imp fun _ => .said _ _)

/-- What `list` answers with, row by row. -/
def Answered (conversationId : Nat) (afterSequence beforeSequence : Option Utf16)
    (limit : Option Int) (ms : List DecryptedMessage) (db : Db) : Prop :=
  ∃ rows, PageOf conversationId afterSequence beforeSequence limit rows db ∧
    List.Forall₂ (fun m d => ∃ t, d = withBody m t) rows ms

theorem spec_list (conversationId : Nat) (afterSequence beforeSequence limit : Option Utf16)
    (hφ : Persists db₀ φ) :
    Spec db₀ g k p φ (list conversationId afterSequence beforeSequence limit)
      (ends (· ≠ .crypto) fun ms w => (φ w ∧ Listed conversationId ms w) ∧ Snapshot db₀ p
        (Answered conversationId afterSequence beforeSequence (clamp limit 50 100) ms) w) := by
  refine (spec_listRows conversationId _ _ _ hφ).seq fun rows => ?_
  have hψ := (hφ.paged conversationId rows).and (.snapshot p
    (PageOf conversationId afterSequence beforeSequence (clamp limit 50 100) rows))
  refine (Spec.mapM (R := fun m d w => ∃ t, d = withBody m t ∧ Shown m t w)
    (fun m hm => spec_toDecrypted hψ fun w h => (h.1.2 m hm).2)
    fun m _ => .exists fun t => .and (.const _) (.shown m t)).post fun r w _ ⟨hp, bs, hr, hf⟩ => ?_
  subst hr
  refine ⟨⟨hp.1.1, fun d hd => ?_⟩, ?_⟩
  · obtain ⟨m, hm, t, rfl, hs⟩ := exists_left hf hd
    exact ⟨(hp.1.2 m hm).1, hs⟩
  · exact hp.2.imp fun _ hpage => ⟨rows, hpage, hf.imp fun _ _ ⟨t, h, _⟩ => ⟨t, h⟩⟩

end List

section Export

theorem spec_decryptIfNeeded {m : Message} (hφ : Persists db₀ φ) (hm : ∀ w, φ w → Stored m w) :
    Spec db₀ g k p φ (decryptIfNeeded m) fun r w => φ w ∧ ∃ t, r = .ok t ∧ Shown m t w := by
  unfold decryptIfNeeded
  cases hb : m.body with
  | some t => exact .pure fun w _ hw => ⟨hw, t, rfl, shown_body (hm w hw) hb⟩
  | none =>
    cases he : sealedBody m with
    | none => exact .pure fun w _ hw => ⟨hw, [], rfl, shown_nothing (hm w hw) hb he _⟩
    | some e =>
      refine (spec_decrypt_stored he hφ hm).tryCatch (fun _ => ?_) fun t w _ h => ⟨h.1, t, rfl, ?_⟩
      · refine .pure fun w _ h => ⟨h.1, [], rfl, fun hv => ?_⟩
        obtain ⟨_, ht, -⟩ := h.2 hv
        cases ht
      · intro hv
        obtain ⟨_, ht, hs⟩ := h.2 hv
        cases ht
        exact hs

theorem spec_decryptOrEmpty {m : Message} (hφ : Persists db₀ φ) (hm : ∀ w, φ w → Stored m w) :
    Spec db₀ g k p φ (decryptOrEmpty m) fun _ => φ := by
  unfold decryptOrEmpty
  split
  · exact .pure fun _ _ h => h
  · split
    · exact .pure fun _ _ h => h
    · rename_i e he
      exact (spec_decrypt_stored he hφ hm).tryCatch (fun _ => .pure fun _ _ h => h.1)
        fun _ _ _ h => h.1

/-- What an entry of the export says, unless its message is gone. -/
def Exported (e : ExportedMessage) (w : World) : Prop :=
  Says e.id e.body w ∨
    ∃ m ∈ w.store.db .messages, (m : Message).id = e.id ∧ gone (m : Message).status = true

/-- The entry of a message with the text `t`. -/
def entry (m : Message) (t : Utf16) : ExportedMessage :=
  ⟨m.id, m.conversationId, m.sequence, m.createdAt, t⟩

theorem Persists.exported (e : ExportedMessage) : Persists db₀ (Exported e) := by
  refine (Persists.said _ _).or ?_
  rintro a w w' - - hg ⟨m, hm, hid, hv⟩
  obtain ⟨m', hm', hl⟩ := hg.kept .messages nofun m hm
  exact ⟨m', hm', hl.id.trans hid, hl.stays hv⟩

theorem spec_exportMessage {m : Message} (hφ : Persists db₀ φ) (hm : ∀ w, φ w → Stored m w) :
    Spec db₀ g k p φ (exportMessage m)
      fun r w => φ w ∧ ∃ e, r = .ok e ∧ Exported e w ∧ ∃ t, e = entry m t := by
  refine (spec_decryptIfNeeded hφ hm).bind (fun t => ?_)
    fun _ _ _ ⟨_, _, h, _⟩ => nomatch h
  refine .pure fun w _ ⟨hw, t', ht, hs⟩ => ⟨hw, _, rfl, ?_, t, rfl⟩
  cases ht
  cases hv : gone m.status with
  | false => exact .inl (hs hv)
  | true =>
    obtain ⟨m', hm', hl⟩ := (hm w hw).present
    exact .inr ⟨m', hm', hl.id, hl.stays hv⟩

/-- The messages an export reads. -/
def sentRows (userId : Nat) (db : Db) : List Message :=
  (db .messages).filter fun m => m.senderId == userId && m.deletedAt.isNone

/-- Whoever sent a message is in a conversation. -/
theorem sentRows_eq_nil {w : World} (hi : Inv db₀ w) {userId : Nat}
    (h : (w.store.db .participants).filter
      (fun r : ConversationParticipant => r.userId == userId) = []) :
    sentRows userId w.store.db = [] := by
  refine List.filter_eq_nil_iff.2 fun m hm hu => ?_
  have sender : m.senderId = userId := by
    rw [Bool.and_eq_true, beq_iff_eq] at hu
    exact hu.1
  obtain ⟨r, hr, -, hru, -⟩ := (Stored.of_read hi (.of_mem hi hm)).sender
  refine List.filter_eq_nil_iff.1 h r hr ?_
  rw [hru, sender, beq_self_eq_true]

/-- The seats of a user, and whether a user without any had sent nothing then. -/
def Seats (db₀ : Db) (p userId : Nat) (φ : World → Prop) (seats : List Nat) (w : World) : Prop :=
  φ w ∧ (seats = [] → Snapshot db₀ p (fun db => sentRows userId db = []) w)

theorem Persists.seats (hφ : Persists db₀ φ) (userId : Nat) (seats : List Nat) :
    Persists db₀ (Seats db₀ p userId φ seats) :=
  hφ.and (.imp fun _ => .snapshot p _)

theorem spec_seats (userId : Nat) (hφ : Persists db₀ φ) :
    Spec db₀ g k p φ (select .pool .participants fun r => r.userId == userId)
      (onOk fun rows => Seats db₀ p userId φ (rows.map (·.conversationId))) := by
  refine (Spec.select (t := .participants) (fun w hi hb hw _ => ⟨hw, fun h => ?_⟩)
    fun rows => hφ.seats userId (rows.map (·.conversationId))).toOk
  exact .now hi hb.1 (sentRows_eq_nil hi (List.map_eq_nil_iff.1 h))

theorem spec_sentMessages (userId : Nat) (convIds : List Nat) (hφ : Persists db₀ φ) :
    Spec db₀ g k p (Seats db₀ p userId φ convIds) (sentMessages userId convIds)
      (onOk fun rows w => (φ w ∧ ∀ m ∈ rows, Stored m w) ∧
        Snapshot db₀ p (fun db => sentRows userId db = rows) w) := by
  unfold sentMessages
  split
  · rename_i h
    obtain rfl := List.isEmpty_iff.1 h
    exact .pure fun w _ ⟨hw, hs⟩ => ⟨⟨hw, by simp⟩, hs rfl⟩
  refine (Spec.select (t := .messages) (fun w hi hb hw _ => ⟨⟨hw.1, fun m hm => ?_⟩, ?_⟩)
    fun rows => (hφ.and (.forall fun m => .imp fun _ => .stored m)).and (.snapshot p _)).toOk
  · exact .of_read hi (.of_mem hi (List.mem_filter.1 hm).1)
  · exact .now hi hb.1 rfl

/-- What an export holds of the messages, row by row. -/
def ExportOf (userId : Nat) (es : List ExportedMessage) (db : Db) : Prop :=
  List.Forall₂ (fun m e => ∃ t, e = entry m t) (sentRows userId db) es

theorem spec_exportUserData (userId : Nat) (hφ : Persists db₀ φ) :
    Spec db₀ g k p φ (exportUserData userId)
      (onOk fun x w => φ w ∧ (∀ e ∈ x.messages, Exported e w) ∧
        Snapshot db₀ p (ExportOf userId x.messages) w) := by
  refine (Spec.quiet (uses_findOne _) hφ).bind (fun user => ?_) fun _ _ _ _ => trivial
  cases user with
  | none => exact .throw fun _ _ _ => trivial
  | some user =>
    refine (spec_seats userId hφ).seq fun participants => ?_
    refine (spec_sentMessages userId _ hφ).seq fun rows => ?_
    have hR : Persists db₀ fun w => (φ w ∧ ∀ m ∈ rows, Stored m w) ∧
        Snapshot db₀ p (fun db => sentRows userId db = rows) w :=
      (hφ.and (.forall fun m => .imp fun _ => .stored m)).and (.snapshot p _)
    refine (Spec.mapM (R := fun m e w => Exported e w ∧ ∃ t, e = entry m t)
      (fun m hm => spec_exportMessage hR fun w h => h.1.2 m hm)
      fun _ e => .and (.exported e) (.const _)).bind (fun es => ?_) fun _ _ _ _ => trivial
    have hE : Persists db₀ fun w => φ w ∧ (∀ e ∈ es, Exported e w) ∧
        Snapshot db₀ p (ExportOf userId es) w :=
      hφ.and ((Persists.forall fun e => .imp fun _ => .exported e).and (.snapshot p _))
    refine Spec.pre (φ := fun w => φ w ∧ (∀ e ∈ es, Exported e w) ∧
      Snapshot db₀ p (ExportOf userId es) w) ?_ fun w _ ⟨h, _, he, hf⟩ => ?_
    · refine Spec.quiet_seq (uses_select _) hE (fun files => ?_)
        fun _ _ _ _ => trivial
      refine Spec.quiet_seq uses_now hE (fun t => ?_) fun _ _ _ _ => trivial
      refine Spec.quiet_seq (uses_update (t := .users) (free_of rfl rfl)
        (fun _ _ => ⟨⟨rfl, fun h => h⟩, trivial⟩) fun _ _ => .inr fun _ => rfl) hE (fun _ => ?_)
        fun _ _ _ _ => trivial
      refine Spec.quiet_seq (uses_audit ..) hE (fun _ => ?_)
        fun _ _ _ _ => trivial
      refine Spec.quiet_seq uses_now hE (fun _ => ?_) fun _ _ _ _ => trivial
      exact .pure fun _ _ h => h
    · cases he
      refine ⟨h.1.1, fun e he => (exists_left hf he).elim fun _ hx => hx.2.1, ?_⟩
      refine h.2.imp fun db hdb => ?_
      rw [ExportOf, hdb]
      exact hf.imp fun _ _ hx => hx.2

end Export

section Backfill

theorem spec_backfill {m : Message} (participants : List Nat) (hφ : Persists db₀ φ)
    (hm : ∀ w, φ w → Stored m w) :
    Spec db₀ g k p φ (backfill participants m) fun _ => φ := by
  refine (spec_decryptOrEmpty hφ hm).bind (fun t => ?_) fun _ _ _ h => h
  exact Spec.ite (fun _ => .pure fun _ _ h => h) fun _ => .quiet (uses_indexMessage _) hφ

theorem spec_enableIndexing (hk : ¬IsSend k) (hs : IsSearch k) (user : AuthUser)
    (conversationId : Nat) (hφ : Persists db₀ φ) :
    Spec db₀ g k p φ (enableIndexing user conversationId)
      (onOk fun _ w => φ w ∧ Accessed user conversationId w) := by
  refine (spec_assertCanAccess user conversationId hφ).seq fun c => ?_
  have hψ : Persists db₀ fun w => φ w ∧ Accessed user conversationId w :=
    hφ.and (.accessed user conversationId)
  refine Spec.pre (φ := fun w => φ w ∧ Accessed user conversationId w) ?_
    fun _ _ h => ⟨h.1, h.2.2⟩
  have err : ∀ e w, Inv db₀ w → (φ w ∧ Accessed user conversationId w) →
      onOk (fun (_ : Unit) w => φ w ∧ Accessed user conversationId w) (.error e) w :=
    fun _ _ _ _ => trivial
  refine Spec.quiet_seq uses_refuse hψ (fun _ => ?_) err
  refine Spec.quiet_seq uses_settings hψ (fun cfg => ?_) err
  refine Spec.quiet_seq uses_refuse hψ (fun _ => ?_) err
  refine (Spec.rows (t := .messages) _ hψ).toOk.seq fun rows => ?_
  refine Spec.pre (φ := fun w => (φ w ∧ Accessed user conversationId w) ∧ ∀ m ∈ rows, Stored m w) ?_
    fun w hi h => ⟨h.1, fun m hm => .of_read hi (h.2 m hm).2⟩
  have hR : Persists db₀ fun w => (φ w ∧ Accessed user conversationId w) ∧ ∀ m ∈ rows, Stored m w :=
    hψ.and (.forall fun m => .imp fun _ => .stored m)
  refine Spec.quiet_seq (uses_select _) hR (fun participants => ?_) fun e w hi h => err e w hi h.1
  refine (Spec.forM fun m hm => ?_).bind (fun _ => ?_) fun e w hi h => err e w hi h.1
  · exact spec_backfill _ hR fun w h => h.2 m ((List.mem_insertionSort _).1 hm)
  · refine Spec.quiet_seq uses_now hR (fun t => ?_) fun e w hi h => err e w hi h.1
    refine Spec.quiet_seq (uses_update (t := .conversations) ⟨fun _ => hk, nofun⟩
      (fun _ r => still_setSearchIndexed _ _ r)
      fun _ _ => ⟨.inr fun _ => rfl, .inl hs, .inr fun _ => rfl⟩) hR
      (fun _ => ?_) fun e w hi h => err e w hi h.1
    exact Spec.quiet_end (uses_audit ..) hR fun _ _ _ h => h.1

end Backfill

end Messageries.Proofs
