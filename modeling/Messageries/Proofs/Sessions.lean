import Messageries.Proofs.Transactions

set_option linter.unusedSectionVars false

namespace Messageries.Proofs

open Text Relational Database Crypto Concurrency Backend Moderation

variable [AesGcm] [TokenHash] {db₀ : Db} {g : Nat → Op → World → Prop} {k : Call} {p : Nat}
  {φ : World → Prop}

section Log

/-- The log of `w` has an entry of process `p` that `X` holds of, with what came before. -/
def Logged (p : Nat) (X : Wal → Write → Prop) (w : World) : Prop :=
  ∃ pre x post, w.store.wal = pre ++ (p, x) :: post ∧ X pre x

theorem Persists.wrote (p : Nat) (X : Wal → Write → Prop) : Persists db₀ (Logged p X) := by
  rintro a w w' - - hg ⟨pre, x, post, hw, hX⟩
  obtain ⟨new, hnew⟩ := hg.wal
  exact ⟨pre, x, post ++ new, by rw [← hnew, hw]; simp, hX⟩

theorem Logged.of_commits {X : Wal → Write → Prop} {x : Write} {w : World} {st' : State schema}
    (hc : State.Commits p [x] w.store st') (hX : X w.store.wal x) : Logged p X (w.withStore st') :=
  ⟨w.store.wal, x, [], hc.1, hX⟩

theorem Logged.mem {X : Wal → Write → Prop} {w : World} (h : Logged p X w) :
    ∃ x, (p, x) ∈ w.store.wal ∧ ∃ pre, X pre x := by
  obtain ⟨pre, x, post, hw, hX⟩ := h
  exact ⟨x, by simp [hw], pre, hX⟩

/-- A token that was read, with its row. -/
structure Issued (f : RefreshToken) (w : World) : Prop where
  inserted : ∃ q r, (q, Schema.Write.insert .refreshTokens r) ∈ w.store.wal ∧ TokenLater r f
  present : ∃ f' ∈ w.store.db .refreshTokens, TokenLater f f'

theorem Persists.issued (f : RefreshToken) : Persists db₀ (Issued f) := by
  rintro a w w' - - hg ⟨⟨q, r, hr, hl⟩, f', hf', hl'⟩
  obtain ⟨f'', hf'', hl''⟩ := hg.kept .refreshTokens nofun f' hf'
  exact ⟨⟨q, r, hg.wal.subset hr, hl⟩, f'', hf'', hl'.trans hl''⟩

theorem Issued.of_read {f : RefreshToken} {w : World} (hi : Inv db₀ w)
    (h : Read db₀ .refreshTokens f w) : Issued f w := by
  refine ⟨?_, h.present nofun⟩
  rcases h.origin with ⟨r₀, hr₀, -⟩ | h
  · rw [hi.db.unissued] at hr₀
    cases hr₀
  · exact h

/-- Two inserts of one hash are the same insert. -/
theorem hash_entry {w : World} (hi : Inv db₀ w) {q q' : Nat} {r r' : RefreshToken}
    (hr : (q, Schema.Write.insert .refreshTokens r) ∈ w.store.wal)
    (hr' : (q', Schema.Write.insert .refreshTokens r') ∈ w.store.wal)
    (h : r.tokenHash = r'.tokenHash) : q = q' ∧ r = r' :=
  hi.db.same_entry (t := .refreshTokens) nofun (hi.ok.unique _) hr hr' (k := .hash r.tokenHash)
    (by simp [Schema.keys, uniqueKeys]) (by simp [Schema.keys, uniqueKeys, h])

theorem Issued.userId {f : RefreshToken} {w : World} (hi : Inv db₀ w) (hf : Issued f w) {q : Nat}
    {t : RefreshToken} (ht : (q, Schema.Write.insert .refreshTokens t) ∈ w.store.wal)
    (h : t.tokenHash = f.tokenHash) : t.userId = f.userId := by
  obtain ⟨q', r, hr, hl⟩ := hf.inserted
  obtain ⟨-, rfl⟩ := hash_entry hi ht hr (h.trans hl.tokenHash)
  exact hl.userId.symm

end Log

section Revoke

/-- An update of the tokens. -/
theorem Brings.revision {calls : Nat → Option Call} {arrived : Nat → Nat}
    {log : List (Utf16 × Bytes)} {st st' : State schema} {ks : List Key}
    {f : schema.Assign .refreshTokens} (hn : Numbered st.db) (hc : State.Commits p [.update .refreshTokens ks f] st st')
    (hl : ∀ r : RefreshToken, TokenLater r (f.set r))
    (hb : ∀ u, Mass calls st.wal p (.update .refreshTokens ks f) u →
      ∀ t ∈ st'.db .refreshTokens, (t : RefreshToken).userId = u →
        (t : RefreshToken).revokedAt ≠ none) :
    Brings db₀ calls arrived log p [.update .refreshTokens ks f] st st' := by
  have calm : Calm st.db (.update .refreshTokens ks f) := fun r _ _ => ⟨hl r, trivial⟩
  exact {
    lawful := ⟨calm.lawful, trivial⟩
    numbered := hc.2 ▸ calm.numbered hn
    alone := fun _ _ _ x hx _ => by rw [List.mem_singleton.1 hx]
    barrier := fun x hx u hm => by
      rw [List.mem_singleton.1 hx] at hm
      exact hb u hm }

theorem later_mergeToken (entity stored r : RefreshToken) {t : Nat}
    (h : entity.revokedAt = some t) : TokenLater r ((mergeToken entity stored).set r) := by
  refine ⟨rfl, rfl, rfl, rfl, fun hr => ?_⟩
  simp only [mergeToken, changed, h]
  split
  · exact hr
  · nofun

/-- Every token of the user is revoked by the statement. -/
theorem revoked_of_update {st st' : State schema} {u t : Nat} {reason : String}
    (hc : State.Commits p [.update .refreshTokens
      (((st.db .refreshTokens).filter fun r => r.userId == u && r.revokedAt.isNone).map
        (schema.key .refreshTokens)) (setRevoked t reason)] st st') :
    ∀ r ∈ st'.db .refreshTokens, (r : RefreshToken).userId = u →
      (r : RefreshToken).revokedAt ≠ none := by
  intro r hr hu
  rw [hc.2, Schema.Write.applyAll_cons, Schema.Write.applyAll_nil, Schema.Write.apply_update] at hr
  obtain ⟨r₀, hr₀, rfl⟩ := List.mem_map.1 hr
  split at hu
  · rename_i hk
    rw [if_pos hk]
    nofun
  · rename_i hk
    rw [if_neg hk]
    intro hn
    refine hk (List.mem_map_of_mem (List.mem_filter.2 ⟨hr₀, ?_⟩))
    simp [hu, hn]

/-- A mass revocation leaves its entry in the log. -/
theorem spec_revokeUser {u : Nat} {reason : String} {R : Wal → Prop} (hφ : Persists db₀ φ)
    (hR : ∀ w, Inv db₀ w → φ w → R w.store.wal)
    (hu : ∀ w x u', Inv db₀ w → w.calls p = some k → φ w → Mass w.calls w.store.wal p x u' → u' = u) :
    Spec db₀ g k p φ (revokeWhere (fun r => r.userId == u) reason)
      (ends StoreError fun _ w => φ w ∧ Logged p (fun pre x => R pre ∧
        ∃ ks t, x = .update .refreshTokens ks (setRevoked t reason)) w) := by
  refine (Spec.now hφ).seq fun t => ?_
  refine (Spec.updateWhere (t := .refreshTokens) hφ (fun _ => rfl) (Q := Logged p fun pre x => R pre ∧
    ∃ ks t, x = .update .refreshTokens ks (setRevoked t reason))
    (fun w st' ks hi hb hw _ hks hc => ⟨?_, ?_⟩) (.wrote p _)).bind (fun _ => ?_) fun _ _ _ h => h.2
  · refine .revision hi.db.numbered hc (later_setRevoked t reason) fun u' hm => ?_
    obtain rfl := hu w _ u' hi hb.1 hw hm
    exact revoked_of_update (hks ▸ hc)
  · exact .of_commits hc ⟨hR w hi hw, ks, t, rfl⟩
  · exact .pure fun _ _ h => h

/-- The tokens of user `u` were revoked by process `p`. -/
def Barred (p u : Nat) (w : World) : Prop :=
  ∃ pre x post, w.store.wal = pre ++ (p, x) :: post ∧ Mass w.calls pre p x u

theorem Barred.of_logged {u : Nat} {w : World} {X : Wal → Write → Prop} (h : Logged p X w)
    (hX : ∀ pre x, X pre x → Mass w.calls pre p x u) : Barred p u w := by
  obtain ⟨pre, x, post, hw, hx⟩ := h
  exact ⟨pre, x, post, hw, hX pre x hx⟩

end Revoke

section Rotate

/-- A save never gives the reason of a mass revocation. -/
theorem not_family_mergeToken {entity : RefreshToken} (h : entity.revokedReason = some "rotated")
    (stored : RefreshToken) (ks : List Key) :
    ¬IsFamily (.update .refreshTokens ks (mergeToken entity stored)) := by
  rintro ⟨ks', f, hx, hall⟩
  cases hx
  have := hall { stored with revokedReason := none }
  simp only [mergeToken, changed, h] at this
  split at this
  · cases this
  · simp at this

/-- The row of the token that a save updates is revoked by it. -/
theorem spent_of_save {st st' : State schema} {entity stored r : RefreshToken} {t : Nat}
    (hrev : entity.revokedAt = some t) (hr : r ∈ st.db .refreshTokens) (hl : TokenLater stored r)
    (hid : r.id = entity.id)
    (hc : State.Commits p [.update .refreshTokens
      (((st.db .refreshTokens).filter fun r => r.id == entity.id).map (schema.key .refreshTokens))
      (mergeToken entity stored)] st st') : Spent st'.db entity.id := by
  refine ⟨(mergeToken entity stored).set r, ?_, hid, ?_⟩
  · rw [hc.2, Schema.Write.applyAll_cons, Schema.Write.applyAll_nil, Schema.Write.apply_update]
    refine List.mem_map.2 ⟨r, hr, if_pos ?_⟩
    exact List.mem_map_of_mem (List.mem_filter.2 ⟨hr, by simp [hid]⟩)
  · change changed entity.revokedAt stored.revokedAt r.revokedAt ≠ none
    rw [changed, hrev]
    split
    · exact hl.revoked (by simp [← ‹some t = stored.revokedAt›])
    · nofun

theorem Persists.spent (f : Nat) : Persists db₀ fun w => Spent w.store.db f :=
  fun _ _ _ _ _ hg h => h.mono hg.kept

/-- The row of a token that is saved is there. -/
theorem spec_saveToken {f : RefreshToken} {token : Bytes} {entity : RefreshToken} {t : Nat}
    (hid : entity.id = f.id) (hrev : entity.revokedAt = some t)
    (hreason : entity.revokedReason = some "rotated") (hφ : Persists db₀ φ)
    (hf : ∀ w, φ w → Issued f w) :
    Spec db₀ g (.refresh token) p φ (saveToken entity)
      (ends StoreError fun _ w => φ w ∧ Logged p (fun _ => Saves f.id) w ∧
        Spent w.store.db f.id) := by
  have read : Spec db₀ g (.refresh token) p φ
      (findOne .pool .refreshTokens fun r => r.id == entity.id)
      (ends (· = .fault) fun o w => φ w ∧ ∃ r : RefreshToken, o = some r ∧ r.id = entity.id ∧
        Read db₀ .refreshTokens r w) := by
    refine Spec.findOne (fun w hi _ hw _ => ⟨hw, ?_⟩) fun o =>
      hφ.and (.exists fun r => .and (.const _) (.and (.const _) (.read .refreshTokens r)))
    obtain ⟨f', hf', hl⟩ := (hf w hw).present
    cases hr : ((w.store.db .refreshTokens).filter fun r => r.id == entity.id).head? with
    | none =>
      rw [List.head?_eq_none_iff, List.filter_eq_nil_iff] at hr
      exact (hr f' hf' (by simp [hid, hl.id])).elim
    | some r =>
      obtain ⟨hr, hq⟩ := List.mem_filter.1 (List.mem_of_head? hr)
      exact ⟨r, rfl, by simpa using hq, .of_mem hi hr⟩
  refine (read.weaken fun _ h => .inl h).seq fun o => ?_
  cases o with
  | none => exact .absurd fun w _ ⟨_, _, h, _⟩ => nomatch h
  | some stored =>
    refine Spec.pre (φ := fun w => φ w ∧ stored.id = entity.id ∧ Read db₀ .refreshTokens stored w) ?_
      fun _ _ h => ⟨h.1, by obtain ⟨-, r, h, hr⟩ := h; cases h; exact hr⟩
    refine (Spec.updateWhere (t := .refreshTokens)
      (hφ.and (.and (.const _) (.read .refreshTokens stored))) (fun _ => rfl)
      (Q := fun w => Logged p (fun _ => Saves f.id) w ∧ Spent w.store.db f.id)
      (fun w st' ks hi hb hw _ hks hc => ⟨?_, ?_, ?_⟩) (.and (.wrote p _) (.spent _))).bind
      (fun _ => ?_) fun _ _ _ h => h.2
    · refine .revision hi.db.numbered hc (fun r => later_mergeToken entity stored r hrev)
        fun u hm => ?_
      rcases hm.2 with hcall | ⟨_, _, _, -, hfamily, -⟩
      · cases hb.1.symm.trans hcall
      · exact (not_family_mergeToken hreason stored ks hfamily).elim
    · refine .of_commits hc ⟨⟨ks, _, rfl, ?_⟩, not_family_mergeToken hreason stored ks⟩
      obtain ⟨f', hf', hl⟩ := (hf w hw.1).present
      rw [hks]
      exact List.mem_map.2 ⟨f', List.mem_filter.2 ⟨hf', by simp [hid, hl.id]⟩,
        congrArg Key.id hl.id⟩
    · obtain ⟨r, hr, hl⟩ := hw.2.2.present nofun
      have hl : TokenLater stored r := hl
      exact hid ▸ spent_of_save hrev hr hl (hl.id.trans hw.2.1) (hks ▸ hc)
    · exact .pure fun _ _ h => ⟨h.1.1, h.2⟩

/-- A token that is issued in place of the token `f`. -/
theorem Brings.successor {st st' : State schema} {log : List (Utf16 × Bytes)}
    {calls : Nat → Option Call} {arrived : Nat → Nat} {token : Bytes} {f : Nat} {r : RefreshToken}
    (hn : Numbered st.db) (hc : State.Commits p [.insert .refreshTokens r] st st') (hp : r.parentId = some f)
    (hk : calls p = some (.refresh token))
    (hu : ∀ r, (p, Schema.Write.insert .refreshTokens r) ∉ st.wal)
    (hr : Rotated calls st'.wal st'.db p r f) :
    Brings db₀ calls arrived log p [.insert .refreshTokens r] st st' := by
  have same : ∀ t, t ≠ .refreshTokens → st'.db t = st.db t := fun t ht => by
    rw [hc.2]
    exact Schema.Write.apply_insert_of_ne r st.db ht
  exact {
    lawful := ⟨trivial, trivial⟩
    numbered := numbered_of_eq hn (same _ nofun) (same _ nofun)
    rotated := fun r' f' hr' hf' => by
      cases List.mem_singleton.1 hr'
      cases hp.symm.trans hf'
      exact hr
    alone := fun _ _ _ x hx _ => by rw [List.mem_singleton.1 hx]
    single := fun _ _ _ _ r' => hu r'
    barrier := fun x hx u hm => by
      cases List.mem_singleton.1 hx
      rcases hm.2 with hcall | ⟨_, _, _, -, ⟨_, _, hx, -⟩, -⟩
      · cases hk.symm.trans hcall
      · cases hx }

theorem spent_insert {st st' : State schema} {r : RefreshToken} {f : Nat} (h : Spent st.db f)
    (hc : State.Commits p [.insert .refreshTokens r] st st') : Spent st'.db f := by
  obtain ⟨t, ht, h⟩ := h
  refine ⟨t, ?_, h⟩
  rw [hc.2, Schema.Write.applyAll_cons, Schema.Write.applyAll_nil, Schema.Write.apply_insert]
  exact List.mem_append_left _ ht

/-- Process `p` issued a token in place of the token `f`. -/
def Succeeded (p f : Nat) (w : World) : Prop :=
  ∃ child : RefreshToken, (p, Schema.Write.insert .refreshTokens child) ∈ w.store.wal ∧
    child.parentId = some f

theorem Persists.succeeded (p f : Nat) : Persists db₀ (Succeeded p f) :=
  .exists fun _ => .and (.logged _) (.const _)

theorem valid_insertChild {f : RefreshToken} {token hash : Bytes} {expires : Nat}
    (hφ : ∀ w, φ w → Issued f w ∧ f.tokenHash = TokenHash.hash token ∧
      Logged p (fun _ => Saves f.id) w ∧ Spent w.store.db f.id) :
    Protocol.Valid machine g (protocol db₀) p (fun w => Base (.refresh token) p w ∧ φ w)
      (insertAll .pool .refreshTokens [newToken f.userId (some f.id) hash expires])
      (ends StoreError fun _ => Succeeded p f.id) := by
  refine Protocol.Valid.perform (fun i w r w' hi hw _ hx => ?_) fun r =>
    (Persists.ends (fun _ => .succeeded p f.id) r).stable p
  rcases exec_insert hi hx with ⟨rfl, e, rfl, he⟩ | ⟨st', rows, hrows, rfl, hr, hok, hf, htx, hc, -⟩
  · exact ⟨hi, (Same.refl _).guar _, he⟩
  · obtain ⟨hissued, hhash, hlogged, hspent⟩ := hφ w hw.2
    obtain ⟨x, hx, -, hits⟩ := hlogged.mem
    obtain ⟨q, r₀, hr₀, hl⟩ := hissued.inserted
    obtain rfl : rows = [newToken f.userId (some f.id) hash expires w.store.nextId w.clock] := hrows
    have old : w.store.wal ⊆ st'.wal := hc.1 ▸ List.subset_append_left ..
    have brings : Brings db₀ w.calls w.arrived w.keyLog p _ w.store st' := .successor
      hi.db.numbered hc rfl hw.1.1 (hw.1.2.unissued trivial)
      ⟨spent_insert hspent hc, token, hw.1.1, ⟨x, old hx, hits⟩, q, r₀, old hr₀, hl.id.symm,
        hl.userId.symm, hl.tokenHash.symm.trans hhash⟩
    obtain ⟨hi', hg'⟩ := withStore_ok (a := some p) hi hw.1.1 hok hf.weaken
      (fun _ h => (Option.some.inj h).symm) hc brings (.inl rfl) (htx ▸ hi.apart p)
    refine ⟨hi', hg', ?_⟩
    rcases hr with rfl | rfl
    · refine ⟨newToken f.userId (some f.id) hash expires w.store.nextId w.clock, ?_, rfl⟩
      exact hc.1 ▸ List.mem_append_right _ (List.mem_singleton.2 rfl)
    · exact .inl rfl

/-- The error of a token that was used again. -/
def compromised : Err := .forbidden "Session compromise — reconnexion requise"

theorem StoreError.ne_compromised {e : Err} (h : StoreError e) : e ≠ compromised := by
  rcases h with rfl | ⟨s, rfl⟩ <;> nofun

theorem valid_issueChild {f : RefreshToken} {token : Bytes} (hφ : Persists db₀ φ)
    (hf : ∀ w, φ w → Issued f w ∧ f.tokenHash = TokenHash.hash token ∧
      Logged p (fun _ => Saves f.id) w ∧ Spent w.store.db f.id) :
    Protocol.Valid machine g (protocol db₀) p (fun w => Base (.refresh token) p w ∧ φ w)
      (issue f.userId (some f.id)) (ends (· ≠ compromised) fun _ => Succeeded p f.id) := by
  have store : ∀ e, StoreError e → e ≠ compromised := fun _ h => h.ne_compromised
  refine Protocol.Valid.bind (Spec.settings (E := StoreError) hφ) (fun cfg => ?_)
    fun e _ _ h => store e h.2
  refine Protocol.Valid.bind (Spec.random (E := StoreError) 48 hφ) (fun raw => ?_)
    fun e _ _ h => store e h.2
  refine Protocol.Valid.bind (Spec.now (E := StoreError) hφ) (fun t => ?_)
    fun e _ _ h => store e h.2
  refine Protocol.Valid.bind (Q := ends (· ≠ compromised) fun _ => Succeeded p f.id)
    (Protocol.Valid.bind (valid_insertChild hf) (fun rows => ?_) fun e _ _ h => store e h)
    (fun _ => .pure fun _ _ h => h) fun _ _ _ h => h
  cases rows with
  | nil => exact .throw fun _ _ _ => nofun
  | cons row rows => exact .pure fun _ _ h => h

/-- How a rotation ends: with a child of its token, or with all tokens of its user revoked. -/
def Rotation (p : Nat) (token : Bytes) : Except Err (Nat × IssuedToken) → World → Prop
  | .ok _, w => ∃ f, Succeeded p f w
  | .error e, w => e = compromised →
      ∃ (q : Nat) (t : RefreshToken), (q, Schema.Write.insert .refreshTokens t) ∈ w.store.wal ∧
        t.tokenHash = TokenHash.hash token ∧ Barred p t.userId w

theorem rotation_refused {p : Nat} {token : Bytes} {e : Err} (h : e ≠ compromised) (w : World) :
    Rotation p token (.error e) w :=
  fun he => (h he).elim

/-- The token that was found, and that it is the one of the request. -/
def Found (token : Bytes) (f : RefreshToken) (w : World) : Prop :=
  Issued f w ∧ f.tokenHash = TokenHash.hash token

theorem Persists.found (token : Bytes) (f : RefreshToken) : Persists db₀ (Found token f) :=
  .and (.issued f) (.const _)

/-- The sessions of a token that was used again end. -/
theorem spec_revokeFamily {token : Bytes} {f : RefreshToken} :
    Spec db₀ g (.refresh token) p (Found token f)
      (revokeWhere (fun r => r.userId == f.userId) "family_compromise")
      (ends StoreError fun _ w => ∃ (q : Nat) (t : RefreshToken),
        (q, Schema.Write.insert .refreshTokens t) ∈ w.store.wal ∧
          t.tokenHash = TokenHash.hash token ∧ Barred p t.userId w) := by
  refine (spec_revokeUser (R := fun pre => ∃ q r,
    (q, Schema.Write.insert .refreshTokens r) ∈ pre ∧ TokenLater r f) (.found token f)
    (fun w _ hw => hw.1.inserted) fun w x u' hi hk hw hm => ?_).known.post fun r w _ h => ?_
  · rcases hm.2 with hcall | ⟨token', q, t, hcall, -, ht, hh, hu⟩
    · cases hk.symm.trans hcall
    · cases hk.symm.trans hcall
      exact hu.symm.trans (hw.1.userId hi ht (hh.trans hw.2.symm))
  · obtain ⟨h, hk⟩ := h
    cases r with
    | error e => exact h
    | ok _ =>
      obtain ⟨q, r, hr, hl⟩ := h.1.1.inserted
      refine ⟨q, r, hr, hl.tokenHash.symm.trans h.1.2, .of_logged h.2 ?_⟩
      rintro pre _ ⟨⟨q', r', hr', hl'⟩, ks, t, rfl⟩
      refine ⟨rfl, .inr ⟨token, q', r', hk, ⟨ks, _, rfl, fun _ => rfl⟩, hr', ?_, ?_⟩⟩
      · exact hl'.tokenHash.symm.trans h.1.2
      · exact hl'.userId.symm.trans hl.userId

theorem valid_rotate {token : Bytes} :
    Protocol.Valid machine g (protocol db₀) p (Base (.refresh token) p) (rotate token)
      (Rotation p token) := by
  have read : Spec db₀ g (.refresh token) p (fun _ => True)
      (findOne .pool .refreshTokens fun r => r.tokenHash == TokenHash.hash token)
      (ends (· = .fault) fun o w => ∀ f, o = some f → Found token f w) :=
    (Spec.row (t := .refreshTokens) _ (.const True)).imp fun o w hi h f hf => by
      obtain ⟨hq, hr⟩ := h.2 f hf
      exact ⟨.of_read hi hr, by simpa using hq⟩
  refine Protocol.Valid.bind (Protocol.Valid.pre read fun _ _ h => ⟨h, trivial⟩) (fun o => ?_)
    fun e w _ h => rotation_refused (StoreError.ne_compromised (.inl h.2)) w
  cases o with
  | none => exact .throw fun w _ _ => rotation_refused (by simp [compromised]) w
  | some f =>
    refine Protocol.Valid.pre (φ := fun w => Base (.refresh token) p w ∧ Found token f w) ?_
      fun _ _ h => ⟨h.1, h.2 f rfl⟩
    refine Protocol.Valid.bind (Q := fun r w => match r with
      | .ok _ => Base (.refresh token) p w ∧ Found token f w
      | .error e => Rotation p token (.error e) w) (.ite (fun _ => ?_)
        fun _ => .pure fun _ _ h => h) (fun _ => ?_) fun _ _ _ h => h
    · exact Protocol.Valid.bind spec_revokeFamily (fun _ => .throw fun _ _ h _ => h.2)
        fun e w _ h => rotation_refused (StoreError.ne_compromised h.2) w
    have refused : ∀ (e : Err) w, Inv db₀ w → Base (.refresh token) p w ∧ StoreError e →
        Rotation p token (.error e) w := fun e w _ h => rotation_refused h.2.ne_compromised w
    refine Protocol.Valid.bind (Spec.now (.found token f)) (fun t => ?_) refused
    refine Protocol.Valid.bind (Q := fun r w => match r with
      | .ok _ => Base (.refresh token) p w ∧ Found token f w
      | .error e => Rotation p token (.error e) w) (.ite (fun _ => .throw fun w _ _ =>
        rotation_refused (by simp [compromised]) w) fun _ => .pure fun _ _ h => h) (fun _ => ?_)
        fun _ _ _ h => h
    refine Protocol.Valid.bind (Spec.now (.found token f)) (fun t => ?_) refused
    refine Protocol.Valid.bind (spec_saveToken (f := f) rfl rfl rfl (.found token f)
      fun _ h => h.1) (fun _ => ?_) refused
    refine Protocol.Valid.bind (valid_issueChild (f := f)
      ((Persists.found token f).and (.and (.wrote p _) (.spent _)))
      fun w h => ⟨h.1.1, h.1.2, h.2⟩)
      (fun next => .pure fun _ _ h => ⟨f.id, h⟩) fun e w _ h => rotation_refused h w

theorem valid_refresh {token : Bytes} :
    Protocol.Valid machine g (protocol db₀) p (Base (.refresh token) p) (refresh token)
      fun r w => match r with
        | .ok _ => ∃ f, Succeeded p f w
        | .error e => Rotation p token (.error e) w := by
  refine Protocol.Valid.bind valid_rotate (fun rotated => ?_) fun _ _ _ h => h
  -- the user is looked up with the token already rotated
  have rotated : Persists db₀ fun w => ∃ f, Succeeded p f w := .exists fun f => .succeeded p f
  refine Protocol.Valid.bind (valid_findOne (E := (· = .fault))
    (Q := fun _ w => ∃ f, Succeeded p f w) (fun _ _ h _ => h) rfl fun _ => rotated.stable p)
    (fun user => ?_) fun e w _ h => rotation_refused (StoreError.ne_compromised (.inl h)) w
  cases user with
  | none => exact .throw fun w _ _ => rotation_refused (by simp [compromised]) w
  | some user =>
    refine Protocol.Valid.bind (Q := fun r w => match r with
      | .ok _ => ∃ f, Succeeded p f w
      | .error e => Rotation p token (.error e) w) (.ite (fun _ => .throw fun w _ _ =>
        rotation_refused (by simp [compromised]) w) fun _ => .pure fun _ _ h => h)
      (fun _ => .pure fun _ _ h => h) fun _ _ _ h => h

end Rotate

section RevokeAll

theorem spec_revokeAll {u : Nat} {reason : String} :
    Spec db₀ g (.revokeAll u) p (fun _ => True) (revokeAllForUser u reason)
      (onOk fun _ => Barred p u) := by
  refine ((spec_revokeUser (R := fun _ => True) (.const True) (fun _ _ _ => trivial)
    fun w x u' _ hk _ hm => ?_).toOk.known).post fun r w _ h => ?_
  · rcases hm.2 with hcall | ⟨_, _, _, hcall, -⟩
    · cases hk.symm.trans hcall
      rfl
    · cases hk.symm.trans hcall
  · obtain ⟨h, hk⟩ := h
    cases r with
    | error e => trivial
    | ok _ =>
      refine .of_logged h.2 ?_
      rintro pre _ ⟨-, ks, t, rfl⟩
      exact ⟨rfl, .inl hk⟩

end RevokeAll

end Messageries.Proofs
