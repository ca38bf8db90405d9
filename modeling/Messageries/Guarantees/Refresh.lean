import Messageries.Guarantees.ReadOnly
import Messageries.Guarantees.Sessions

set_option linter.unusedSectionVars false

namespace Messageries.Guarantees

open Text Relational Database Crypto Concurrency Backend Moderation Proofs

section Statements

variable [AesGcm] [TokenHash] {p n : Nat} {inputs : Nat → Input} {w : World}

/-- A statement on the pool is lost before the server has it, or takes effect. -/
theorem exec_pooled {i : Input} {s : Stmt} {w' : World} {r : Except Err s.Out}
    (h : World.exec p i (.query .pool s) w = some (r, w')) :
    (i.fault = .before ∧ w' = w ∧ r = .error .fault) ∨
      ∃ r₀ st', w.store.query p .pool w.clock s = some (r₀, st') ∧ w' = w.withStore st' ∧
        (i.fault = .none ∧ r = r₀.mapError .sql ∨ i.fault = .after ∧ r = .error .fault) := by
  simp only [World.exec, World.query] at h
  cases hf : i.fault with
  | none =>
    rw [hf] at h
    obtain ⟨⟨r₀, st'⟩, hq, hx⟩ := Option.map_eq_some_iff.1 h
    cases hx
    exact .inr ⟨r₀, st', hq, rfl, .inl ⟨rfl, rfl⟩⟩
  | before =>
    rw [hf] at h
    cases h
    exact .inl ⟨rfl, rfl, rfl⟩
  | after =>
    rw [hf] at h
    obtain ⟨⟨r₀, st'⟩, hq, hx⟩ := Option.map_eq_some_iff.1 h
    cases hx
    exact .inr ⟨r₀, st', hq, rfl, .inr ⟨rfl, rfl⟩⟩

/-- A lookup answers what the table has, unless it is lost. -/
theorem ends_lookup {t : Table} (q : t.Row → Bool) :
    Prog.Ends (alone p inputs) (· = (w, n)) (findOne .pool t q) fun r s => s = (w, n + 1) ∧
      ((inputs n).fault = .none ∧ r = .ok ((w.store.db t).filter q).head? ∨
        (inputs n).fault ≠ .none ∧ r = .error .fault) := by
  refine Prog.Ends.bind (Q := fun r s => s = (w, n + 1) ∧
    ((inputs n).fault = .none ∧ r = .ok ((w.store.db t).filter q) ∨
      (inputs n).fault ≠ .none ∧ r = .error .fault)) (.perform ?_) (fun rows => ?_) ?_
  · rintro s r s' rfl h
    obtain ⟨⟨r₀, w₀⟩, hx, he⟩ := Option.map_eq_some_iff.1 h
    cases he
    obtain ⟨rfl, -⟩ := exec_select hx
    refine ⟨rfl, ?_⟩
    rcases exec_pooled hx with ⟨hf, -, hr⟩ | ⟨r₀, st', hq, -, ⟨hf, hr⟩ | ⟨hf, hr⟩⟩
    · exact .inr ⟨by simp [hf], hr⟩
    · simp only [State.query, Schema.Stmt.plan, List.all_nil, ↓reduceIte, Option.some.injEq,
        Prod.mk.injEq] at hq
      exact .inl ⟨hf, by rw [hr, ← hq.1]; rfl⟩
    · exact .inr ⟨by simp [hf], hr⟩
  · refine Prog.Ends.pure.post fun r s h => ?_
    obtain ⟨rfl, hs, ⟨hf, hr⟩ | ⟨-, hr⟩⟩ := h
    · cases hr
      exact ⟨hs, .inl ⟨hf, rfl⟩⟩
    · cases hr
  · rintro e s ⟨hs, ⟨-, hr⟩ | ⟨hf, hr⟩⟩
    · cases hr
    · cases hr
      exact ⟨hs, .inr ⟨hf, rfl⟩⟩

theorem ends_now :
    Prog.Ends (alone p inputs) (· = (w, n)) now fun r s => s = (w, n + 1) ∧ r = .ok w.clock := by
  refine .perform ?_
  rintro s r s' rfl h
  cases h
  exact ⟨rfl, rfl⟩

/-- What the table of the tokens has after an UPDATE that is not lost. -/
theorem ends_updateTokens {q : RefreshToken → Bool} {f : Nat → schema.Assign .refreshTokens} :
    Prog.Ends (alone p inputs) (· = (w, n)) (update .pool .refreshTokens q f) fun r s =>
      if (inputs n).fault = .before then s.1 = w ∧ r = .error .fault
      else State.Commits p [.update .refreshTokens (((w.store.db .refreshTokens).filter q).map
          (schema.key .refreshTokens)) (f w.clock)] w.store s.1.store ∧
        ((inputs n).fault = .none ∧ (∃ m, r = .ok m) ∨
          (inputs n).fault = .after ∧ r = .error .fault) := by
  refine .perform ?_
  rintro s r s' rfl h
  have checked : ∀ rows : List RefreshToken, rows.findSome? (fun x =>
      schema.check .refreshTokens ((f w.clock).set x)) = none := fun rows => by
    rw [List.findSome?_eq_none_iff]
    exact fun _ _ => rfl
  rcases exec_pooled (alone_cases h) with ⟨hf, hw, hr⟩ | ⟨r₀, st', hq, hw, hr⟩
  · rw [if_pos hf]
    exact ⟨hw, hr⟩
  · have sent : (inputs n).fault ≠ .before := by
      rcases hr with ⟨hf, -⟩ | ⟨hf, -⟩ <;> simp [hf]
    rw [if_neg sent]
    simp only [State.query, Schema.Stmt.plan, checked] at hq
    split at hq
    · cases hq
      rw [hw]
      exact ⟨⟨rfl, rfl⟩, hr.imp_left fun h => ⟨h.1, _, h.2⟩⟩
    · cases hq

end Statements

section Refresh

variable [AesGcm] [TokenHash] {p n : Nat} {inputs : Nat → Input} {w : World} {token : Bytes}
  {found : RefreshToken}

/-- The row with a key that the filter asks for is the first one it finds. -/
theorem head_of_unique {t : Table} {q : t.Row → Bool} {r : t.Row} (hok : w.store.Ok)
    (hr : r ∈ w.store.db t) (hq : q r = true)
    (hk : ∀ x, q x = true → ∃ k ∈ schema.keys t x, k ∈ schema.keys t r) :
    ((w.store.db t).filter q).head? = some r := by
  cases hx : ((w.store.db t).filter q).head? with
  | none =>
    rw [List.head?_eq_none_iff, List.filter_eq_nil_iff] at hx
    exact (hx r hr hq).elim
  | some x =>
    obtain ⟨hm, hqx⟩ := List.mem_filter.1 (List.mem_of_head? hx)
    obtain ⟨k, h, h'⟩ := hk x hqx
    exact congrArg some (Schema.eq_of_key (hok.unique t) hm hr h h')

/-- The tokens are as they were in `w`. -/
def Untouched (w : World) (s : World × Nat) : Prop :=
  s.1.store.db .refreshTokens = w.store.db .refreshTokens

theorem touched_of_spent {s : World × Nat} (hok : w.store.Ok)
    (hf : found ∈ w.store.db .refreshTokens) (hn : found.revokedAt = none)
    (hs : Spent s.1.store.db found.id) : ¬Untouched w s := by
  intro same
  obtain ⟨t, ht, hid, hr⟩ := hs
  obtain rfl : t = found := Schema.eq_of_key (hok.unique .refreshTokens) (same ▸ ht) hf
    (k := .id t.id) (List.mem_cons_self ..) (hid ▸ List.mem_cons_self ..)
  exact hr hn

/-- The save of the presented token takes two statements. -/
theorem ends_saveToken {entity : RefreshToken} {t : Nat} (hok : w.store.Ok)
    (hf : found ∈ w.store.db .refreshTokens) (hid : entity.id = found.id)
    (hrev : entity.revokedAt = some t) :
    Prog.Ends (alone p inputs) (· = (w, n)) (saveToken entity) fun r s =>
      if (inputs n).fault = .none ∧ (inputs (n + 1)).fault ≠ .before then
        Spent s.1.store.db found.id
      else s.1 = w ∧ ∀ a, r ≠ .ok a := by
  have stored : ((w.store.db .refreshTokens).filter fun r : RefreshToken => r.id == entity.id).head? =
      some found := head_of_unique (t := .refreshTokens) hok hf (by simp [hid]) fun x hx =>
    ⟨.id found.id, by simp_all [Schema.keys, primaryKey], List.mem_cons_self ..⟩
  have saved : Prog.Ends (alone p inputs) (· = (w, n + 1))
      (update .pool .refreshTokens (fun r : RefreshToken => r.id == entity.id) fun _ =>
        mergeToken entity found)
      fun r s => if (inputs (n + 1)).fault = .before then s.1 = w ∧ ∀ a, r ≠ .ok a
        else Spent s.1.store.db found.id := by
    refine ends_updateTokens.post fun r s h => ?_
    split at h
    · rename_i lost
      rw [if_pos lost]
      refine ⟨h.1, fun a ha => ?_⟩
      cases h.2.symm.trans ha
    · rename_i sent
      rw [if_neg sent]
      exact hid ▸ spent_of_save hrev hf (.refl found) hid.symm h.1
  refine Prog.Ends.bind (ends_lookup _) (fun o => ?_) fun e s h => ?_
  · refine .given (P := (inputs n).fault = .none ∧ o = some found) (fun s h => ?_) ?_
    · obtain ⟨-, ⟨hf, ho⟩ | ⟨-, ho⟩⟩ := h
      · exact ⟨hf, (Except.ok.inj ho).trans stored⟩
      · cases ho
    · rintro ⟨read, rfl⟩
      refine Prog.Ends.bind (Prog.Ends.pre saved fun s h => h.1) (fun _ => ?_) fun e s h => ?_
      · refine Prog.Ends.pure.post fun r s h => ?_
        obtain ⟨-, h⟩ := h
        split at h
        · exact (h.2 _ rfl).elim
        · rename_i sent
          rwa [if_pos ⟨read, sent⟩]
      · split at h
        · rename_i lost
          rw [if_neg fun c => c.2 lost]
          refine ⟨h.1, fun a ha => ?_⟩
          cases ha
        · rename_i sent
          rwa [if_pos ⟨read, sent⟩]
  · obtain ⟨rfl, ⟨-, he⟩ | ⟨lost, -⟩⟩ := h
    · cases he
    · rw [if_neg fun c => lost c.1]
      refine ⟨rfl, fun a ha => ?_⟩
      cases ha

/-- The tokens of a user that used one again are revoked, even where the answer is lost. -/
theorem ends_revokeFamily (u : Nat) :
    Prog.Ends (alone p inputs) (· = (w, n))
      (revokeWhere (fun r => r.userId == u) "family_compromise") fun r s =>
      (∃ a, r = .ok a) ∨ (Untouched w s ↔ ¬((inputs (n + 1)).fault = .after ∧
        ∃ t ∈ w.store.db .refreshTokens, (t : RefreshToken).userId = u ∧ t.revokedAt = none)) := by
  refine Prog.Ends.bind ends_now (fun t => ?_) fun e s h => nomatch h.2
  refine Prog.Ends.bind (Prog.Ends.pre ends_updateTokens fun s h => h.1)
    (fun _ => Prog.Ends.pure.post fun r s h => .inl ⟨_, h.1⟩) fun e s h => .inr ?_
  split at h
  · rename_i lost
    refine iff_of_true (congrArg (fun w : World => w.store.db .refreshTokens) h.1) fun c => ?_
    cases lost.symm.trans c.1
  · obtain ⟨hc, ⟨-, _, he⟩ | ⟨answer, -⟩⟩ := h
    · cases he
    · constructor
      · rintro same ⟨-, t', ht', hu, hn⟩
        exact revoked_of_update hc t' (same ▸ ht') hu hn
      · intro idle
        have empty : ((w.store.db .refreshTokens).filter fun r : RefreshToken =>
            r.userId == u && r.revokedAt.isNone) = [] :=
          List.filter_eq_nil_iff.2 fun t' ht' hq => idle ⟨answer, t', ht', by simpa using hq⟩
        change s.1.store.db .refreshTokens = _
        rw [hc.2, Schema.Write.applyAll_cons, Schema.Write.applyAll_nil,
          Schema.Write.apply_update, empty]
        simp

/-- Operations that leave every row of a table as it is. -/
def Adds : Op → Prop
  | .query .pool (.insert _ _) | .random _ | .now | .settings => True
  | _ => False

theorem spent_adds {f : Nat} {o : Op} {s s' : World × Nat} {r : Except Err o.Res} (ho : Adds o)
    (hs : Spent s.1.store.db f) (h : alone p inputs o s = some (r, s')) :
    Spent s'.1.store.db f := by
  obtain ⟨new, hc, hm⟩ := exec_makes (alone_cases h)
  rw [hc.2]
  cases hm with
  | nothing => exact hs
  | commit _ _ => exact ho.elim
  | remove t q ks => exact ho.elim
  | query st =>
    cases st with
    | insert t make =>
      obtain ⟨rows, he⟩ := pooled_insert t make s.1
      obtain ⟨x, hx, hq⟩ := hs
      refine ⟨x, ?_, hq⟩
      rw [he]
      by_cases ht : t = .refreshTokens
      · subst ht
        rw [Schema.applyAll_inserts]
        exact List.mem_append_left _ hx
      · rwa [Schema.applyAll_inserts_of_ne rows _ (Ne.symm ht)]
    | _ => exact ho.elim

theorem ends_issue (userId f : Nat) (parentId : Option Nat) :
    Prog.Ends (alone p inputs) (fun s => Spent s.1.store.db f) (issue userId parentId)
      fun _ s => Spent s.1.store.db f := by
  refine .keeps (P := Adds) ?_ fun o s r s' ho hs h => spent_adds ho hs h
  refine ((Prog.uses_perform _).2 trivial).bind fun cfg => ?_
  refine ((Prog.uses_perform _).2 trivial).bind fun raw => ?_
  refine ((Prog.uses_perform _).2 trivial).bind fun t => ?_
  exact (any_insertOne trivial).bind fun _ => trivial

/-- An UPDATE of the tokens reaches the server: the one that saves a live token as rotated, or
the one for a token used again, if its answer is lost and the user has a live token. -/
def Consumes (inputs : Nat → Input) (token : Bytes) (w : World) : Prop :=
  (inputs 0).fault = .none ∧ ∃ found ∈ w.store.db .refreshTokens,
    (found : RefreshToken).tokenHash = TokenHash.hash token ∧
    if found.revokedAt.isSome then (inputs 2).fault = .after ∧
      ∃ t ∈ w.store.db .refreshTokens, (t : RefreshToken).userId = found.userId ∧ t.revokedAt = none
    else w.clock ≤ found.expiresAt ∧ (inputs 3).fault = .none ∧ (inputs 4).fault ≠ .before

instance : Decidable (Consumes inputs token w) := inferInstanceAs (Decidable (_ ∧ _))

/-- The call ends in the error of a replay, or fails with the tokens as they were, unless it
wrote to them. -/
def Outcome {α : Type} (inputs : Nat → Input) (token : Bytes) (w : World) (r : Except Err α)
    (s : World × Nat) : Prop :=
  r = .error compromised ∨ Consumes inputs token w ∧ ¬Untouched w s ∨
    ¬Consumes inputs token w ∧ Untouched w s ∧ ∀ a, r ≠ .ok a

theorem consumes_iff (hok : w.store.Ok) (hf : found ∈ w.store.db .refreshTokens)
    (hh : found.tokenHash = TokenHash.hash token) (read : (inputs 0).fault = .none) :
    Consumes inputs token w ↔ if found.revokedAt.isSome then (inputs 2).fault = .after ∧
      ∃ t ∈ w.store.db .refreshTokens, (t : RefreshToken).userId = found.userId ∧ t.revokedAt = none
    else w.clock ≤ found.expiresAt ∧ (inputs 3).fault = .none ∧ (inputs 4).fault ≠ .before := by
  refine ⟨fun ⟨_, found', hf', hh', h⟩ => ?_, fun h => ⟨read, found, hf, hh, h⟩⟩
  obtain rfl : found' = found := Schema.eq_of_key (hok.unique .refreshTokens) hf' hf
    (k := .hash found.tokenHash) (by simp [Schema.keys, uniqueKeys, hh', hh])
    (by simp [Schema.keys, uniqueKeys])
  exact h

/-- A rotation once it has found the row of its token. -/
theorem ends_found (hok : w.store.Ok) (hf : found ∈ w.store.db .refreshTokens)
    (hh : found.tokenHash = TokenHash.hash token) (read : (inputs 0).fault = .none) :
    Prog.Ends (alone p inputs) (· = (w, 1)) (do
      onlyIf found.revokedAt.isSome do
        revokeWhere (fun r => r.userId == found.userId) "family_compromise"
        throw (.forbidden "Session compromise — reconnexion requise")
      let t ← now
      onlyIf (found.expiresAt < t) (throw (.forbidden "Refresh token expiré"))
      let t ← now
      saveToken { found with revokedAt := some t, revokedReason := some "rotated" }
      let next ← issue found.userId (some found.id)
      return (found.userId, next)) (Outcome inputs token w) := by
  by_cases hr : found.revokedAt.isSome = true
  · have family := consumes_iff hok hf hh read
    rw [if_pos hr] at family
    refine Prog.Ends.bind (Q := fun r s => ∃ e, r = .error e ∧
      Outcome inputs token w (.error e : Except Err (Nat × IssuedToken)) s) (.ite (fun _ => ?_)
        fun hn => (hn hr).elim) (fun _ => .absurd fun s h => ?_) fun e s h => ?_
    · refine Prog.Ends.bind (ends_revokeFamily found.userId) (fun _ => ?_) fun e s h => ?_
      · exact Prog.Ends.throw.post fun r s h => ⟨_, h.1, .inl rfl⟩
      · rcases h with ⟨a, ha⟩ | h
        · cases ha
        · refine ⟨e, rfl, .inr ?_⟩
          rw [← family] at h
          by_cases hc : Consumes inputs token w
          · exact .inl ⟨hc, fun same => h.1 same hc⟩
          · exact .inr ⟨hc, h.2 hc, nofun⟩
    · obtain ⟨e, he, -⟩ := h
      cases he
    · obtain ⟨e', he, h⟩ := h
      cases he
      exact h
  · have rotated := consumes_iff hok hf hh read
    rw [if_neg hr] at rotated
    have live : found.revokedAt = none := by simpa using hr
    have spent : ∀ {α : Type} (r : Except Err α) s, Consumes inputs token w →
        Spent s.1.store.db found.id → Outcome inputs token w r s := fun r s hc hs =>
      .inr (.inl ⟨hc, touched_of_spent hok hf live hs⟩)
    refine Prog.Ends.bind (Q := fun r s => r = .ok () ∧ s = (w, 1))
      (.ite (fun h => (hr h).elim) fun _ => .pure) (fun _ => ?_) fun e s h => nomatch h.1
    refine Prog.Ends.bind (Prog.Ends.pre ends_now fun s h => h.2) (fun t => ?_)
      fun e s h => nomatch h.2
    refine .given (P := t = w.clock) (fun s h => Except.ok.inj h.2) ?_
    rintro rfl
    refine Prog.Ends.bind (Q := fun r s => s = (w, 2) ∧ match r with
      | .ok _ => w.clock ≤ found.expiresAt
      | .error _ => found.expiresAt < w.clock) (.ite (fun hx => ?_) fun hx => ?_) (fun _ => ?_)
      fun e s h => ?_
    · refine Prog.Ends.throw.post fun r s h => ?_
      obtain ⟨rfl, hs, -⟩ := h
      exact ⟨hs, hx⟩
    · refine Prog.Ends.pure.post fun r s h => ?_
      obtain ⟨rfl, hs, -⟩ := h
      exact ⟨hs, by omega⟩
    · refine .given (P := w.clock ≤ found.expiresAt) (fun s h => h.2) fun hx => ?_
      refine Prog.Ends.bind (Prog.Ends.pre ends_now fun s h => h.1) (fun t => ?_)
        fun e s h => nomatch h.2
      refine Prog.Ends.bind (Prog.Ends.pre (ends_saveToken hok hf rfl rfl) fun s h => h.1)
        (fun _ => ?_) fun e s h => ?_
      · refine Prog.Ends.bind (Q := fun _ s => Consumes inputs token w ∧ Spent s.1.store.db found.id)
          (.given (P := Consumes inputs token w) (fun s h => ?_) fun hc => ?_)
          (fun next => Prog.Ends.pure.post fun r s h => spent _ s h.2.1 h.2.2)
          fun e s h => spent _ s h.1 h.2
        · split at h
          · exact rotated.2 ⟨hx, ‹_›⟩
          · exact (h.2 _ rfl).elim
        · refine Prog.Ends.pre ((ends_issue found.userId found.id _).post fun r s h => ⟨hc, h⟩)
            fun s h => ?_
          rwa [if_pos (rotated.1 hc).2] at h
      · split at h
        · exact spent _ s (rotated.2 ⟨hx, ‹_›⟩) h
        · rename_i lost
          exact .inr (.inr ⟨fun hc => lost (rotated.1 hc).2, congrArg (fun w : World =>
            w.store.db .refreshTokens) h.1, nofun⟩)
    · obtain ⟨rfl, hx⟩ := h
      exact .inr (.inr ⟨fun hc => absurd (rotated.1 hc).1 (by omega), rfl, nofun⟩)

theorem ends_rotate (hok : w.store.Ok) :
    Prog.Ends (alone p inputs) (· = (w, 0)) (rotate token) (Outcome inputs token w) := by
  refine Prog.Ends.bind (ends_lookup _) (fun o => ?_) fun e s h => ?_
  · refine .given (P := (inputs 0).fault = .none ∧ o = ((w.store.db .refreshTokens).filter
      fun r : RefreshToken => r.tokenHash == TokenHash.hash token).head?) (fun s h => ?_) ?_
    · obtain ⟨-, ⟨hf, ho⟩ | ⟨-, ho⟩⟩ := h
      · exact ⟨hf, Except.ok.inj ho⟩
      · cases ho
    rintro ⟨read, ho⟩
    cases o with
    | none =>
      refine Prog.Ends.throw.post fun r s h => ?_
      obtain ⟨rfl, rfl, -⟩ := h
      refine .inr (.inr ⟨?_, rfl, nofun⟩)
      rintro ⟨-, f, hf, hh, -⟩
      have := List.filter_eq_nil_iff.1 (List.head?_eq_none_iff.1 ho.symm) f hf
      exact this (by simp [hh])
    | some found =>
      obtain ⟨hf, hh⟩ := List.mem_filter.1 (List.mem_of_head? ho.symm)
      refine Prog.Ends.pre (ends_found hok hf (by simpa using hh) read) fun s h => h.1
  · obtain ⟨rfl, ⟨-, he⟩ | ⟨lost, -⟩⟩ := h
    · cases he
    · exact .inr (.inr ⟨fun c => lost c.1, rfl, nofun⟩)

theorem ends_refresh (hok : w.store.Ok) :
    Prog.Ends (alone p inputs) (· = (w, 0)) (refresh token) fun r s =>
      (∃ a, r = .ok a) ∨ Outcome inputs token w r s := by
  refine Prog.Ends.bind (ends_rotate hok) (fun rotated => ?_) fun e s h => .inr ?_
  · obtain ⟨userId, next⟩ := rotated
    -- the user is looked up once the tokens are written
    have written : ∀ s : World × Nat,
        Outcome inputs token w (.ok (userId, next) : Except Err (Nat × IssuedToken)) s →
          Consumes inputs token w ∧ ¬Untouched w s := by
      rintro s (h | h | ⟨-, -, h⟩)
      · cases h
      · exact h
      · exact (h _ rfl).elim
    refine .given (P := Consumes inputs token w) (fun s h => (written s h).1) fun hc => ?_
    have user : Prog.Ends (alone p inputs)
        (fun s => s.1.store.db .refreshTokens ≠ w.store.db .refreshTokens)
        (findOne .pool .users fun u => u.id == userId) _ :=
      ends_findOne (ξ := fun v => v.store.db .refreshTokens ≠ w.store.db .refreshTokens) _
    refine Prog.Ends.bind (Prog.Ends.pre user fun s h => (written s h).2) (fun o => ?_)
      fun e s h => .inr (.inr (.inl ⟨hc, h.1⟩))
    cases o with
    | none => exact Prog.Ends.throw.post fun r s h => .inr (.inr (.inl ⟨hc, h.2.1⟩))
    | some user =>
      refine Prog.Ends.bind (Q := fun r s => ¬Untouched w s)
        (.ite (fun _ => Prog.Ends.throw.post fun r s h => h.2.1)
          fun _ => Prog.Ends.pure.post fun r s h => h.2.1)
        (fun _ => Prog.Ends.pure.post fun r s h => .inl ⟨_, h.1⟩)
        fun e s h => .inr (.inr (.inl ⟨hc, h⟩))
  · rcases h with h | h | ⟨hc, hs, -⟩
    · cases h
      exact .inl rfl
    · exact .inr (.inl h)
    · exact .inr (.inr ⟨hc, hs, nofun⟩)

/-- A refresh that fails, other than for a token used again, leaves the tokens as they were
unless an UPDATE of them reached the server. -/
theorem failed_refresh_unchanged_iff {e : Err} {w' : World} (hok : w.store.Ok)
    (h : runAlone p inputs (refresh token) w = some (.error e, w')) (he : e ≠ compromised) :
    w'.store.db .refreshTokens = w.store.db .refreshTokens ↔ ¬Consumes inputs token w := by
  obtain ⟨n, ha | hr | ⟨hc, hn⟩ | ⟨hc, hs, -⟩⟩ :=
    runAlone_ends (φ := fun s => s = (w, 0)) rfl (ends_refresh hok) h
  · obtain ⟨a, ha⟩ := ha
    cases ha
  · exact (he (Except.error.inj hr)).elim
  · exact iff_of_false hn (not_not_intro hc)
  · exact iff_of_true hs hc

end Refresh

section Example

/-- A user was suspended since the login, and an expired token is left. -/
def suspendedDb : Db
  | .users => [{ exampleUser 2 .customer with isSuspended := true }]
  | .refreshTokens => [⟨5, 2, exampleHash.hash zeroToken, none, 1000, none, none, 0⟩,
      ⟨6, 2, exampleHash.hash nextToken, none, 0, none, none, 0⟩]
  | _ => []

abbrev suspendedWorld : World := { worldOf suspendedDb exampleSettings with clock := 10 }

theorem ok_suspendedWorld : suspendedWorld.store.Ok :=
  ⟨fun t => by cases t <;> decide +kernel, nofun, nofun, nofun⟩

def tokensOf (w : World) : List (Nat × Option Nat × Option Nat) :=
  (w.store.db .refreshTokens).map fun (t : RefreshToken) => (t.id, t.parentId, t.revokedAt)

/-- How a refresh from there ends, and the tokens it leaves. -/
def leaves (token : Bytes) : Option (Option Err × List (Nat × Option Nat × Option Nat)) :=
  (runAlone 0 (fun _ => drawing 2) (@refresh exampleHash token) suspendedWorld).map fun (r, w) =>
    (match r with
      | .ok _ => none
      | .error e => some e, tokensOf w)

theorem failed_of_leaves {token : Bytes} {e : Err} {l : List (Nat × Option Nat × Option Nat)}
    (h : leaves token = some (some e, l)) :
    ∃ w', runAlone 0 (fun _ => drawing 2) (@refresh exampleHash token) suspendedWorld =
      some (.error e, w') ∧ tokensOf w' = l := by
  obtain ⟨⟨r, w'⟩, hx, he⟩ := Option.map_eq_some_iff.1 h
  cases r with
  | ok a => cases he
  | error e' =>
    cases he
    exact ⟨w', hx, rfl⟩

theorem invalid_account_left :
    leaves zeroToken = some (some (.unauthorized "Compte invalide"),
      [(5, none, some 10), (6, none, none), (100, some 5, none)]) := by decide +kernel

/-- The refresh of a suspended user fails, uses its token up and leaves a new active one. -/
theorem failed_refresh_consumes :
    ∃ w', runAlone 0 (fun _ => drawing 2) (@refresh exampleHash zeroToken) suspendedWorld =
        some (.error (.unauthorized "Compte invalide"), w') ∧
      .unauthorized "Compte invalide" ≠ compromised ∧
      tokensOf suspendedWorld = [(5, none, none), (6, none, none)] ∧
      tokensOf w' = [(5, none, some 10), (6, none, none), (100, some 5, none)] ∧
      w'.store.db .refreshTokens ≠ suspendedWorld.store.db .refreshTokens := by
  obtain ⟨w', hx, ht⟩ := failed_of_leaves invalid_account_left
  refine ⟨w', hx, nofun, rfl, ht, fun same => ?_⟩
  have old : tokensOf w' = tokensOf suspendedWorld := by rw [tokensOf, same, tokensOf]
  exact absurd (ht.symm.trans old) (by decide)

/-- An expired token is refused, and is left as it was. -/
theorem failed_refresh_unchanged_example :
    ∃ w', runAlone 0 (fun _ => drawing 2) (@refresh exampleHash nextToken) suspendedWorld =
        some (.error (.forbidden "Refresh token expiré"), w') ∧
      w'.store.db .refreshTokens = suspendedWorld.store.db .refreshTokens := by
  have run : leaves nextToken = some (some (.forbidden "Refresh token expiré"),
      [(5, none, none), (6, none, none)]) := by decide +kernel
  obtain ⟨w', hx, -⟩ := failed_of_leaves run
  refine ⟨w', hx, (@failed_refresh_unchanged_iff exampleCipher exampleHash _ _ _ _ _ _
    ok_suspendedWorld hx (by simp [compromised])).2 ?_⟩
  decide +kernel

end Example

end Messageries.Guarantees
