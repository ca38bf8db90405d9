import Messageries.Proofs.Special

set_option linter.unusedSectionVars false

namespace Messageries.Proofs

open Text Relational Database Crypto Concurrency Backend

section Log

/-- The key packages that were taken, each with the process that took it. -/
def claimsIn (wal : Wal) : List (Nat × Key) := wal.flatMap fun e =>
  match e with
  | (p, .update .keyPackages ks _) => ks.map fun k => (p, k)
  | _ => []

/-- The write takes no key package. -/
def Untaken : Write → Prop
  | .insert .keyPackages r => (r : MlsKeyPackage).consumedAt = none
  | .update .keyPackages _ _ => False
  | .delete t _ => t ≠ .keyPackages
  | _ => True

theorem claimsIn_append (wal vs : Wal) : claimsIn (wal ++ vs) = claimsIn wal ++ claimsIn vs :=
  List.flatMap_append

theorem claimsIn_untaken {p : Nat} {ws : List Write} (h : ∀ x ∈ ws, Untaken x) :
    claimsIn (ws.map (p, ·)) = [] := by
  refine List.flatMap_eq_nil_iff.2 fun e he => ?_
  obtain ⟨x, hx, rfl⟩ := List.mem_map.1 he
  have hx := h x hx
  cases x with
  | insert t r => rfl
  | update t ks f =>
    cases t
    case keyPackages => exact hx.elim
    all_goals rfl
  | delete t ks => rfl

theorem mem_claimsIn {wal : Wal} {p : Nat} {key : Key} (h : (p, key) ∈ claimsIn wal) :
    ∃ ks f, (p, Schema.Write.update .keyPackages ks f) ∈ wal ∧ key ∈ ks := by
  obtain ⟨⟨q, x⟩, hx, hm⟩ := List.mem_flatMap.1 h
  cases x with
  | insert t r => cases hm
  | delete t ks => cases hm
  | update t ks f =>
    cases t
    case keyPackages =>
      obtain ⟨key', hk, e⟩ := List.mem_map.1 hm
      cases e
      exact ⟨ks, f, hx, hk⟩
    all_goals cases hm

end Log

section Rows

theorem available_iff {target : Nat} {suite : Utf16} {now : Nat} {r : MlsKeyPackage} :
    available target suite now r = true ↔
      (r.userId = target ∧ r.cipherSuite = sent suite ∧ r.consumedAt = none) ∧ now < r.expiresAt := by
  simp [available, and_assoc]

theorem available_mono {target : Nat} {suite : Utf16} {now now' : Nat} (h : now ≤ now')
    {r : MlsKeyPackage} (hr : available target suite now' r = true) :
    available target suite now r = true :=
  available_iff.2 ⟨(available_iff.1 hr).1, h.trans_lt (available_iff.1 hr).2⟩

theorem mem_oldest {rs : List MlsKeyPackage} {r : MlsKeyPackage} (h : r ∈ oldest rs) : r ∈ rs :=
  (List.mem_insertionSort _).1 (List.mem_of_mem_take h)

theorem oldest_eq_nil {rs : List MlsKeyPackage} (h : oldest rs = []) : rs = [] := by
  rcases List.take_eq_nil_iff.1 h with h | h
  · cases h
  · exact List.eq_nil_of_length_eq_zero (by
      rw [← List.length_insertionSort (fun (a b : MlsKeyPackage) => a.createdAt ≤ b.createdAt), h]
      rfl)

/-- The row after the claim of the package `id`. -/
def consume (id userId t : Nat) (r : MlsKeyPackage) : MlsKeyPackage :=
  if r.id = id then { r with consumedAt := some t, consumedBy := some userId } else r

@[simp] theorem consume_id (id userId t : Nat) (r : MlsKeyPackage) :
    (consume id userId t r).id = r.id := by
  unfold consume
  split <;> rfl

theorem consume_of_ne {id userId t : Nat} {r : MlsKeyPackage} (h : r.id ≠ id) :
    consume id userId t r = r := if_neg h

theorem consume_self (userId t : Nat) (r : MlsKeyPackage) :
    consume r.id userId t r = { r with consumedAt := some t, consumedBy := some userId } :=
  if_pos rfl

end Rows

variable [AesGcm] [TokenHash] {db₀ : Db} {g : Nat → Op → World → Prop} {k : Call} {p : Nat}
  {w w' : World}

theorem package_key (r : MlsKeyPackage) : Key.id r.id ∈ schema.keys .keyPackages r := by
  simp [Schema.keys, primaryKey]

theorem same_package (hi : Inv db₀ w) {r r' : MlsKeyPackage} (hr : r ∈ w.store.db .keyPackages)
    (hr' : r' ∈ w.store.db .keyPackages) (e : r.id = r'.id) : r = r' :=
  Schema.eq_of_mem_flatMap (hi.ok.unique .keyPackages) hr hr' (package_key r) (e ▸ package_key r')

theorem only_package (hi : Inv db₀ w) {r : MlsKeyPackage} (hr : r ∈ w.store.db .keyPackages) :
    (w.store.db .keyPackages).filter (fun (r' : MlsKeyPackage) => r'.id == r.id) = [r] := by
  have found : r ∈ (w.store.db .keyPackages).filter fun (r' : MlsKeyPackage) => r'.id == r.id :=
    List.mem_filter.2 ⟨hr, beq_self_eq_true r.id⟩
  have := Schema.filter_length_le_one (hi.ok.unique .keyPackages) (k := .id r.id)
    (q := fun (r' : MlsKeyPackage) => r'.id == r.id) fun r' h => beq_iff_eq.1 h ▸ package_key r'
  obtain ⟨r', h⟩ := List.length_eq_one_iff.1 (this.antisymm (List.length_pos_of_mem found))
  rw [h] at found ⊢
  rw [List.mem_singleton.1 found]

section Extension

def AtPackages : Call → Prop
  | .claimKeyPackage _ _ _ => True
  | .countKeyPackages _ _ => True
  | _ => False

/-- No package was taken twice, and no process took two. -/
structure OneTime (w : World) : Prop where
  once : ((claimsIn w.store.wal).map Prod.fst).Nodup
  distinct : ((claimsIn w.store.wal).map Prod.snd).Nodup
  taken : ∀ p key, (p, key) ∈ claimsIn w.store.wal → ∃ user suite,
    ∃ r ∈ w.store.db .keyPackages, key = .id (r : MlsKeyPackage).id ∧
      w.calls p = some (.claimKeyPackage user (r : MlsKeyPackage).userId suite) ∧
      (r : MlsKeyPackage).cipherSuite = sent suite ∧
      (r : MlsKeyPackage).consumedBy = some user.sub ∧ (r : MlsKeyPackage).consumedAt ≠ none

/-- A step brings new packages, or takes one that its transaction finds available. -/
inductive Moves (a : Option Nat) (w w' : World) : Prop
  | publish (rows : List MlsKeyPackage) :
      w'.store.db .keyPackages = w.store.db .keyPackages ++ rows →
      (∀ r ∈ rows, r.consumedAt = none) → claimsIn w'.store.wal = claimsIn w.store.wal →
      Moves a w w'
  | take (p : Nat) (user : AuthUser) (suite : Utf16) (r : MlsKeyPackage) (t now : Nat) :
      a = some p → w.calls p = some (.claimKeyPackage user r.userId suite) →
      r ∈ w.store.db .keyPackages → available r.userId suite now r = true →
      (w.store.tx p).map Tx.now = some now →
      w'.store.db .keyPackages = (w.store.db .keyPackages).map (consume r.id user.sub t) →
      claimsIn w'.store.wal = claimsIn w.store.wal ++ [(p, .id r.id)] → Moves a w w'

def packages : Extension where
  inv := OneTime
  guar := Moves
  special := AtPackages
  plain := Untaken

/-- A package that was taken stays as it is. -/
theorem Moves.consumed {a : Option Nat} (h : Moves a w w') (hi : Inv db₀ w) {r : MlsKeyPackage}
    (hr : r ∈ w.store.db .keyPackages) (hc : r.consumedAt ≠ none) :
    r ∈ w'.store.db .keyPackages := by
  cases h with
  | publish rows hdb _ _ => exact hdb ▸ List.mem_append_left _ hr
  | take p user suite r' t now _ _ hr' ha _ hdb _ =>
    have apart : r.id ≠ r'.id := by
      intro e
      obtain rfl := same_package hi hr hr' e
      exact hc (available_iff.1 ha).1.2.2
    exact hdb ▸ List.mem_map.2 ⟨r, hr, consume_of_ne apart⟩

theorem Moves.claims {a : Option Nat} (h : Moves a w w') :
    claimsIn w.store.wal <+: claimsIn w'.store.wal := by
  cases h with
  | publish _ _ _ hc => exact hc ▸ List.prefix_rfl
  | take _ _ _ _ _ _ _ _ _ _ _ _ hc => exact hc ▸ List.prefix_append ..

theorem keeps_packages : packages.Keeps db₀ where
  init := by
    intro w hw _
    have none : claimsIn w.store.wal = [] := by
      rw [hw.wal]
      rfl
    exact ⟨by simp [none], by simp [none], by simp [none]⟩
  plain := by
    rintro a w w' _ _ hg ⟨⟨p, new, hc, hnew⟩, -⟩ hx
    have log : claimsIn w'.store.wal = claimsIn w.store.wal := by
      rw [hc.1, claimsIn_append, claimsIn_untaken hnew, List.append_nil]
    obtain ⟨F, rows, hdb, hF, hrows⟩ := applyAll_split (t := .keyPackages)
      (S := fun r r' => r' = r) (N := fun (r : MlsKeyPackage) => r.consumedAt = none)
      (fun _ => rfl) (fun _ _ _ h h' => h'.trans h) (fun _ _ h hn => h ▸ hn)
      (fun r hr => hnew _ hr) (fun _ _ hf => (hnew _ hf).elim) (fun _ hk => hnew _ hk rfl)
      w.store.db
    rw [← hc.2, List.map_congr_left (fun r _ => hF r), List.map_id'] at hdb
    refine ⟨⟨log ▸ hx.once, log ▸ hx.distinct, fun q key hq => ?_⟩, .publish rows hdb hrows log⟩
    obtain ⟨user, suite, r, hr, hkey, hcall, rest⟩ := hx.taken q key (log ▸ hq)
    exact ⟨user, suite, r, hdb ▸ List.mem_append_left _ hr, hkey, hg.calls q _ hcall, rest⟩

theorem packages_may (k : Call) (x : Write) (hk : ¬AtPackages k) (hm : May k x) : Untaken x := by
  cases x with
  | insert t r =>
    cases t
    case keyPackages =>
      obtain ⟨_, _, _, _, _, _, _, _, _, -, rfl⟩ := hm
      rfl
    all_goals trivial
  | update t ks f =>
    cases t
    case keyPackages => cases k <;> first | exact hm | exact hk trivial
    all_goals trivial
  | delete t ks =>
    obtain rfl : t = .attachments := hm
    nofun

end Extension

section Claim

variable {user : AuthUser} {target : Nat} {suite : Utf16} {kp : MlsKeyPackage} {t : Nat}

/-- The process took no package. -/
def Empty (p : Nat) (w : World) : Prop := p ∉ (claimsIn w.store.wal).map Prod.fst

theorem firm_empty : packages.Firm db₀ p (Empty p) where
  stable := by
    rintro a w w' ha - - hg h
    cases hg.2 with
    | publish rows _ _ hc => exact fun hp => h (hc ▸ hp)
    | take q user suite r t now hq _ _ _ _ _ hc =>
      intro hp
      rw [hc, List.map_append] at hp
      rcases List.mem_append.1 hp with hp | hp
      · exact h hp
      · obtain rfl := List.mem_singleton.1 hp
        exact ha hq
  unwritten := by
    rintro w w' - - - hu h
    rwa [Empty, hu.wal]

/-- The package is locked, and was available when the transaction began. -/
structure Picked (g : Nat → Op → World → Prop) (p target : Nat) (suite : Utf16)
    (kp : MlsKeyPackage) (w : World) : Prop where
  locked : Locked p .keyPackages kp w
  opened : ∃ w₀ : World, g p .begin w₀ ∧ (w.store.tx p).map Tx.now = some w₀.clock ∧
    available target suite w₀.clock kp = true

theorem firm_picked : packages.Firm db₀ p (Picked g p target suite kp) where
  stable := by
    rintro a w w' ha hi hi' hg ⟨hl, w₀, h₀, ht, hv⟩
    exact ⟨stable_locked .keyPackages kp a w w' ha hi.1 hi'.1 hg.1 hl, w₀, h₀,
      by rw [hg.1.frame.tx p ha, ht], hv⟩
  unwritten := by
    rintro w w' hi hi' hg hu ⟨hl, w₀, h₀, ht, hv⟩
    obtain ⟨tx, htx, e⟩ := Option.map_eq_some_iff.1 ht
    exact ⟨(tame_locked .keyPackages kp).unwritten hi.1 hi'.1 hg.1 hu hl, w₀, h₀,
      e ▸ hu.now tx htx, hv⟩

/-- The locking read of a claim. -/
def lockAvailable (target : Nat) (suite : Utf16) : Op :=
  .query .tx (.lock .keyPackages (fun _ => available target suite) oldest false)

/-- When the process looked for a package, there was none. -/
def Starved (g : Nat → Op → World → Prop) (p target : Nat) (suite : Utf16) : Prop :=
  ∃ w₀ : World, g p (lockAvailable target suite) w₀ ∧
    ∀ r ∈ w₀.store.db .keyPackages, available target suite w₀.clock r = false

/-- What the locking read of a claim finds. -/
def Located (g : Nat → Op → World → Prop) (p target : Nat) (suite : Utf16) :
    Option MlsKeyPackage → World → Prop
  | none, _ => Starved g p target suite
  | some kp, w => Picked g p target suite kp w

/-- What a claim leaves of the package it answers with. -/
structure Given (g : Nat → Op → World → Prop) (p : Nat) (user : AuthUser) (target : Nat)
    (suite : Utf16) (kp : MlsKeyPackage) (w : World) : Prop where
  claimed : (p, .id kp.id) ∈ claimsIn w.store.wal
  own : kp.userId = target ∧ kp.cipherSuite = sent suite ∧ kp.consumedAt = none
  fresh : ∃ w₀ : World, g p .begin w₀ ∧ w₀.clock < kp.expiresAt
  consumed : ∃ t, { kp with consumedAt := some t, consumedBy := some user.sub } ∈
    w.store.db .keyPackages

theorem lasts_given : packages.Lasts db₀ (Given g p user target suite kp) := by
  rintro a w w' hi _ hg ⟨hc, ho, hf, t, ht⟩
  exact ⟨hg.2.claims.subset hc, ho, hf, t, hg.2.consumed hi.1 ht (Option.some_ne_none t)⟩

def takes (kp : MlsKeyPackage) (userId t : Nat) : List Write :=
  [.update .keyPackages [.id kp.id] (setConsumed userId t)]

theorem takes_rows (db : Db) (userId : Nat) :
    Schema.Write.applyAll (takes kp userId t) db .keyPackages =
      (db .keyPackages).map (consume kp.id userId t) := by
  have set : ∀ r : MlsKeyPackage, (if primaryKey .keyPackages r ∈ [Key.id kp.id] then
      (setConsumed userId t).set r else r) = consume kp.id userId t r := by
    intro r
    simp [primaryKey, consume, setConsumed]
  simp only [takes, Schema.Write.applyAll, List.foldl, Schema.Write.apply, Function.update_self]
  exact List.map_congr_left fun r _ => set r

theorem moves_take {st' : State schema} (hk : w.calls p = some (.claimKeyPackage user target suite))
    (hp : Picked g p target suite kp w) (hc : State.Commits p (takes kp user.sub t) w.store st') :
    Moves (some p) w (w.withStore st') := by
  obtain ⟨hl, w₀, -, ht, hv⟩ := hp
  obtain ⟨⟨rfl, hs, hn⟩, he⟩ := available_iff.1 hv
  refine .take p user suite kp t w₀.clock rfl hk hl.row hv ht ?_ ?_
  · exact hc.2 ▸ takes_rows w.store.db user.sub
  · change claimsIn st'.wal = _
    rw [hc.1, claimsIn_append]
    rfl

/-- What COMMIT keeps of a claim. -/
theorem seals_take {st' : State schema} (hi : (packages.protocol db₀).inv w)
    (hk : w.calls p = some (.claimKeyPackage user target suite))
    (he : Empty p w) (hp : Picked g p target suite kp w)
    (hc : State.Commits p (takes kp user.sub t) w.store st') :
    packages.Seals db₀ p (takes kp user.sub t) w st' := by
  have quiet : ∀ x ∈ takes kp user.sub t, Quiet (.claimKeyPackage user target suite) .tx x := by
    intro x hx
    rw [List.mem_singleton.1 hx]
    exact ⟨⟨⟨fun _ => id, nofun⟩, t, rfl⟩, fun _ => ⟨trivial, trivial⟩⟩
  have moves := moves_take hk hp hc
  refine ⟨.quiet (fun _ => hk) quiet hi.1.db.numbered hc.2, fun hi' hg => ⟨?_, moves⟩⟩
  obtain ⟨w₀, -, -, hv⟩ := hp.opened
  obtain ⟨⟨huser, hs, hn⟩, -⟩ := available_iff.1 hv
  have log : claimsIn (w.withStore st').store.wal =
      claimsIn w.store.wal ++ [(p, Key.id kp.id)] := by
    change claimsIn st'.wal = _
    rw [hc.1, claimsIn_append]
    rfl
  -- a package that was taken is not the one at hand
  have untaken : ∀ q, (q, Key.id kp.id) ∉ claimsIn w.store.wal := by
    intro q hq
    obtain ⟨_, _, r, hr, hkey, -, -, -, hr'⟩ := hi.2.taken q _ hq
    obtain rfl := same_package hi.1 hp.locked.row hr (Key.id.inj hkey)
    exact hr' hn
  refine ⟨?_, ?_, fun q key hq => ?_⟩
  · rw [log, List.map_append]
    exact hi.2.once.append (List.nodup_singleton _) (by simpa [Empty] using he)
  · rw [log, List.map_append]
    exact hi.2.distinct.append (List.nodup_singleton _) (by simpa using untaken)
  · rw [log] at hq
    rcases List.mem_append.1 hq with hq | hq
    · obtain ⟨u, s, r, hr, hkey, hcall, hsuite, hby, hat⟩ := hi.2.taken q key hq
      exact ⟨u, s, r, moves.consumed hi.1 hr hat, hkey, hcall, hsuite, hby, hat⟩
    · obtain ⟨rfl, rfl⟩ := Prod.mk.inj (List.mem_singleton.1 hq)
      refine ⟨user, suite, consume kp.id user.sub t kp, ?_, by simp, ?_, ?_, ?_, ?_⟩
      · change _ ∈ st'.db .keyPackages
        rw [hc.2, takes_rows]
        exact List.mem_map_of_mem hp.locked.row
      all_goals rw [consume_self]
      · exact huser ▸ hk
      · exact hs
      · exact Option.some_ne_none t

theorem given_take {st' : State schema} (hp : Picked g p target suite kp w)
    (hc : State.Commits p (takes kp user.sub t) w.store st') :
    Given g p user target suite kp (w.withStore st') := by
  obtain ⟨hl, w₀, h₀, -, hv⟩ := hp
  obtain ⟨own, fresh⟩ := available_iff.1 hv
  refine ⟨?_, own, ⟨w₀, h₀, fresh⟩, t, ?_⟩
  · change _ ∈ claimsIn st'.wal
    rw [hc.1, claimsIn_append]
    exact List.mem_append_right _ (List.mem_singleton_self _)
  · change _ ∈ st'.db .keyPackages
    rw [hc.2, takes_rows, ← consume_self]
    exact List.mem_map_of_mem hl.row

/-- What a claim fails with. -/
def Fails (g : Nat → Op → World → Prop) (p target : Nat) (suite : Utf16) (e : Err) : Prop :=
  ∀ m, e = .notFound m → Starved g p target suite

theorem fails_store {e : Err} (h : StoreError e) : Fails g p target suite e := by
  rintro m rfl
  rcases h with h | ⟨_, h⟩ <;> cases h

theorem valid_takePackage :
    Protocol.Valid machine g (packages.protocol db₀) p
      (fun w => (w.calls p = some k ∧ Empty p w ∧ Picked g p target suite kp w) ∧ Held p [] w)
      (do
        let t ← now
        let _ ← update .tx .keyPackages (fun r => r.id == kp.id) fun _ => setConsumed user.sub t
        return kp)
      (ends (Fails g p target suite) fun a w => ∃ ws, Held p ws w ∧ ∃ t, ws = takes a user.sub t ∧
        Empty p w ∧ Picked g p target suite a w) := by
  have firm : packages.Firm db₀ p fun w =>
      w.calls p = some k ∧ Empty p w ∧ Picked g p target suite kp w :=
    (Extension.Lasts.of_persists (.call p k)).firm.and (firm_empty.and firm_picked)
  have reads : (now : App Nat).Uses Local := (Prog.uses_perform _).2 trivial
  have clock : Protocol.Valid machine g (packages.protocol db₀) p
      (fun w => (w.calls p = some k ∧ Empty p w ∧ Picked g p target suite kp w) ∧ Held p [] w)
      (perform .now) (onOk fun _ w =>
        (w.calls p = some k ∧ Empty p w ∧ Picked g p target suite kp w) ∧ Held p [] w) :=
    (keeps_packages.aside reads firm).post fun r _ _ h => by
      cases r <;> first | exact h | trivial
  refine Protocol.Valid.bind (Extension.failing clock) (fun t => ?_) fun _ _ _ => fails_store
  refine Protocol.Valid.bind (Extension.failing (keeps_packages.update (t := .keyPackages)
    nofun firm fun _ h => h.1)) (fun _ => ?_) fun _ _ _ => fails_store
  refine .pure fun w _ ⟨⟨_, he, hp⟩, _, w₀, ⟨⟨_, _, hp₀⟩, hi₀⟩, hh⟩ => ⟨_, hh, t, ?_, he, hp⟩
  rw [List.nil_append, Schema.Write.applyAll, List.foldl_nil, only_package hi₀.1 hp₀.locked.row]
  rfl

theorem located_locked {now : Nat} {rows : List MlsKeyPackage} (ho : Extension.Opened g p w)
    (ho' : Extension.Opened g p w') (hg : g p (lockAvailable target suite) w)
    (ht : w.store.tx p = some ⟨now, [], false⟩) (ht' : (w'.store.tx p).map Tx.now = some now)
    (hrows : rows = oldest ((w.store.db .keyPackages).filter (available target suite now)))
    (hl : ∀ r ∈ rows, Locked p .keyPackages r w') :
    Located g p target suite rows.head? w' := by
  cases h : rows.head? with
  | none =>
    rw [List.head?_eq_none_iff.1 h] at hrows
    obtain ⟨w₀, -, hle, hw₀⟩ := ho
    rw [ht] at hw₀
    have hnow : now = w₀.clock := Option.some.inj hw₀
    refine ⟨w, hg, fun r hr => Bool.eq_false_iff.2 fun hv => ?_⟩
    have := List.filter_eq_nil_iff.1 (oldest_eq_nil hrows.symm) r hr
    exact this (available_mono (hnow ▸ hle) hv)
  | some kp =>
    have hmem := List.mem_of_mem_head? h
    obtain ⟨w₀, h₀, -, hw₀⟩ := ho'
    obtain rfl := Option.some.inj (ht'.symm.trans hw₀)
    refine ⟨hl kp hmem, w₀, h₀, ht', ?_⟩
    rw [hrows] at hmem
    exact (List.mem_filter.1 (mem_oldest hmem)).2

theorem valid_claimKeyPackage (hk : k = .claimKeyPackage user target suite) :
    Protocol.Valid machine g (packages.protocol db₀) p
      (fun w => Extension.Idle k p w ∧ Empty p w) (claimKeyPackage target user.sub suite)
      fun r w => Extension.Idle k p w ∧
        ends (Fails g p target suite) (fun kp => Given g p user target suite kp) r w := by
  refine keeps_packages.transactionSince (R := fun kp ws w => ∃ t, ws = takes kp user.sub t ∧
    Empty p w ∧ Picked g p target suite kp w) (fun _ => fails_store) firm_empty ?_
    (fun kp ws w st' hi hc hh hR _ hcm => ?_) fun _ => lasts_given.stable
  · have firm : packages.Firm db₀ p fun w => (w.calls p = some k ∧ Empty p w) ∧ Extension.Opened g p w :=
      ((Extension.Lasts.of_persists (.call p k)).firm.and firm_empty).and Extension.firm_opened
    refine Protocol.Valid.bind (Extension.failing (keeps_packages.lockRows (t := .keyPackages)
      (Q := fun (rows : List MlsKeyPackage) => Located g p target suite rows.head?) firm
      (fun _ h => h.1.1) (fun _ _ h => mem_oldest h)
      (fun w w' rows now _ _ hw hw' hg ht ht' hrows hl => ?_) fun rows => ?_)) (fun rows => ?_)
      fun _ _ _ => fails_store
    · exact located_locked hw.2 hw'.2 hg ht ht' hrows hl
    · cases rows.head? with
      | none => exact .const _ _ _
      | some kp => exact firm_picked.stable
    · cases hr : rows.head? with
      | none =>
        refine .throw fun w _ h _ _ => ?_
        have located : Located g p target suite rows.head? w := h.1.2
        rwa [hr] at located
      | some kp =>
        refine valid_takePackage.pre fun w _ h => ⟨⟨h.1.1.1.1, h.1.1.1.2, ?_⟩, h.2⟩
        have located : Located g p target suite rows.head? w := h.1.2
        rwa [hr] at located
  · obtain ⟨t, rfl, he, hp⟩ := hR
    exact ⟨seals_take hi (hk ▸ hc) he hp hcm, fun _ => given_take hp hcm⟩

end Claim

section Count

variable {user : AuthUser} {suite : Utf16}

/-- The read of a count that looked at the time first. -/
def readAvailable (userId : Nat) (suite : Utf16) (t : Nat) : Op :=
  .query .pool (.select .keyPackages fun _ _ => available userId suite t)

/-- The number is that of the packages available when the process read them. -/
def Tallied (g : Nat → Op → World → Prop) (p userId : Nat) (suite : Utf16) (n : Nat) : Prop :=
  ∃ w t, g p (readAvailable userId suite t) w ∧ t ≤ w.clock ∧
    n = ((w.store.db .keyPackages).filter (available userId suite t)).length

theorem valid_countAvailable (userId : Nat) :
    Protocol.Valid machine g (packages.protocol db₀) p (Extension.Idle k p)
      (countAvailable userId suite) (onOk fun n _ => Tallied g p userId suite n) := by
  have clock : Protocol.Valid machine g (packages.protocol db₀) p (Extension.Idle k p)
      (perform .now) (onOk fun (t : Nat) w => Extension.Idle k p w ∧ t ≤ w.clock) := by
    refine Protocol.Valid.perform (fun i w r w' hi hw _ hx => ?_) fun r => ?_
    · have hx : World.exec p i .now w = some (r, w') := hx
      cases hx
      have same := keeps_packages.idle hi hi.1 ((Same.refl w).guar (some p)) rfl rfl (.refl w)
      exact ⟨same.1, same.2, hw, Nat.le_refl _⟩
    · cases r with
      | ok t =>
        exact Extension.stable_idle.and fun a w w' _ _ _ hg h => Nat.le_trans h hg.1.clock
      | error e => exact .const _ _ _
  refine Protocol.Valid.bind clock (fun (t : Nat) => ?_) fun _ _ _ _ => trivial
  have older : (packages.protocol db₀).Stable p fun w => Extension.Idle k p w ∧ t ≤ w.clock :=
    Extension.stable_idle.and fun a w w' _ _ _ hg h => Nat.le_trans h hg.1.clock
  exact Protocol.Valid.bind (keeps_packages.select (Q := fun rows _ =>
    Tallied g p userId suite rows.length) (fun w _ hw hg => ⟨w, t, hg, hw.2, rfl⟩)
    (fun _ => .const _ _ _) older) (fun rows => .pure fun _ _ h => h.2) fun _ _ _ _ => trivial

end Count

section Calls

/-- What a claim and a count end in. -/
def Awards (g : Nat → Op → World → Prop) (p : Nat) :
    Call → Except Err Response → World → Prop
  | .claimKeyPackage user target suite, .ok a, w =>
    ∃ kp, a = .keyPackage kp ∧ Given g p user target suite kp w
  | .claimKeyPackage _ target suite, .error e, _ => Fails g p target suite e
  | .countKeyPackages user suite, .ok a, _ => ∃ n, a = .count n ∧ Tallied g p user.sub suite n
  | _, _, _ => True

theorem serves_packages (hk : AtPackages k) :
    Protocol.Valid machine g (packages.protocol db₀) p (Start p k) (code k) (Awards g p k) := by
  cases k
  case claimKeyPackage user target suite =>
    refine Protocol.Valid.bind ((valid_claimKeyPackage rfl).pre fun w _ h => ⟨⟨h.call, h.idle⟩, ?_⟩)
      (fun kp => .pure fun _ _ h => ⟨kp, rfl, h.2⟩) fun _ _ _ h => h.2
    intro hmem
    obtain ⟨⟨q, key⟩, hq, rfl⟩ := List.mem_map.1 hmem
    obtain ⟨ks, f, hw, -⟩ := mem_claimsIn hq
    exact nomatch h.unwritten _ hw
  case countKeyPackages user suite =>
    exact Protocol.Valid.bind ((valid_countAvailable user.sub).pre fun w _ h => ⟨h.call, h.idle⟩)
      (fun n => .pure fun _ _ h => ⟨n, rfl, h⟩) fun _ _ _ _ => trivial
  all_goals cases hk

theorem sound_packages (w₀ : World) :
    Protocol.Sound machine g (packages.protocol w₀.store.db) (From w₀) Start
      fun p k r w => AtPackages k → Awards g p k r w :=
  keeps_packages.sound id packages_may fun _ _ hk => serves_packages hk

end Calls

section Passage

/-- What becomes of the packages from one state to a later one. -/
structure Passage (w w' : World) : Prop where
  clock : w.clock ≤ w'.clock
  claims : claimsIn w.store.wal <+: claimsIn w'.store.wal
  rows : ∀ r ∈ w.store.db .keyPackages, r ∈ w'.store.db .keyPackages ∨
    (r : MlsKeyPackage).consumedAt = none ∧ ∃ p userId t, (p, Key.id r.id) ∈ claimsIn w'.store.wal ∧
      { r with consumedAt := some t, consumedBy := some userId } ∈ w'.store.db .keyPackages
  unconsumed : ∀ c ∈ claimsIn w'.store.wal, c ∈ claimsIn w.store.wal ∨
    ∀ r ∈ w.store.db .keyPackages, Key.id (r : MlsKeyPackage).id = c.2 → r.consumedAt = none

theorem Passage.consumed (h : Passage w w') {r : MlsKeyPackage}
    (hr : r ∈ w.store.db .keyPackages) (hc : r.consumedAt ≠ none) :
    r ∈ w'.store.db .keyPackages :=
  (h.rows r hr).resolve_right fun h => hc h.1

theorem Passage.refl (w : World) : Passage w w :=
  ⟨Nat.le_refl _, List.prefix_rfl, fun _ hr => .inl hr, fun _ hc => .inl hc⟩

theorem Passage.trans {w'' : World} (h : Passage w w') (h' : Passage w' w'') : Passage w w'' where
  clock := h.clock.trans h'.clock
  claims := h.claims.trans h'.claims
  rows := by
    intro r hr
    rcases h.rows r hr with hr' | ⟨hn, p, u, t, hc, hr'⟩
    · exact h'.rows r hr'
    · exact .inr ⟨hn, p, u, t, h'.claims.subset hc, h'.consumed hr' (Option.some_ne_none t)⟩
  unconsumed := by
    intro c hc
    rcases h'.unconsumed c hc with hc | hn
    · exact h.unconsumed c hc
    · refine .inr fun r hr e => ?_
      by_contra hr'
      exact hr' (hn r (h.consumed hr hr') e)

theorem passage_of_guar {a : Option Nat} (hi : Inv db₀ w) (hc : w.clock ≤ w'.clock)
    (h : Moves a w w') : Passage w w' := by
  have claims := h.claims
  cases h with
  | publish rows hdb _ hlog =>
    exact ⟨hc, claims, fun _ hr => .inl (hdb ▸ List.mem_append_left _ hr), fun _ hm => .inl (hlog ▸ hm)⟩
  | take p user suite r₁ t now _ _ hr₁ hv _ hdb hlog =>
    refine ⟨hc, claims, fun r hr => ?_, fun c hm => ?_⟩
    · by_cases e : r.id = r₁.id
      · obtain rfl := same_package hi hr hr₁ e
        refine .inr ⟨(available_iff.1 hv).1.2.2, p, user.sub, t,
          hlog ▸ List.mem_append_right _ (List.mem_singleton_self _), ?_⟩
        rw [hdb, ← consume_self]
        exact List.mem_map_of_mem hr
      · exact .inl (hdb ▸ List.mem_map.2 ⟨r, hr, consume_of_ne e⟩)
    · rw [hlog] at hm
      rcases List.mem_append.1 hm with hm | hm
      · exact .inl hm
      · refine .inr fun r hr e => ?_
        rw [List.mem_singleton.1 hm] at e
        obtain rfl := same_package hi hr hr₁ (Key.id.inj e)
        exact (available_iff.1 hv).1.2.2

theorem passage {w₀ : World} {P P' : Pool Op Op.Res Err World Call Response}
    (h : machine.Reach (From w₀) g P) (hl : machine.Leads g P P') : Passage P.shared P'.shared :=
  (sound_packages w₀).leads .refl (fun _ _ _ => .trans)
    (fun _ _ _ hi _ hg => passage_of_guar hi.1 hg.1.clock hg.2) h hl

variable {target t : Nat} {suite : Utf16}

/-- The packages a count that looked at the clock at `t` finds. -/
def stock (target : Nat) (suite : Utf16) (t : Nat) (w : World) : List MlsKeyPackage :=
  (w.store.db .keyPackages).filter (available target suite t)

/-- Every package of the user and the suite was there before. -/
def Unpublished (target : Nat) (suite : Utf16) (w w' : World) : Prop :=
  ∀ r' ∈ w'.store.db .keyPackages, (r' : MlsKeyPackage).userId = target →
    r'.cipherSuite = sent suite → ∃ r ∈ w.store.db .keyPackages, (r : MlsKeyPackage).id = r'.id

/-- A package that is available was so before. -/
theorem Passage.same (h : Passage w w') (hi' : Inv db₀ w') (hp : Unpublished target suite w w')
    {r : MlsKeyPackage} (hr : r ∈ w'.store.db .keyPackages) (hu : r.userId = target)
    (hs : r.cipherSuite = sent suite) (hn : r.consumedAt = none) :
    r ∈ w.store.db .keyPackages := by
  obtain ⟨r₀, hr₀, hid⟩ := hp r hr hu hs
  rcases h.rows r₀ hr₀ with hr' | ⟨-, p, u, t, -, hr'⟩
  · exact same_package hi' hr' hr hid ▸ hr₀
  · have e := same_package hi' hr' hr hid
    rw [← e] at hn
    cases hn

theorem nodup_packages (hi : Inv db₀ w) :
    ((w.store.db .keyPackages).map fun (r : MlsKeyPackage) => Key.id r.id).Nodup := by
  have keys : schema.keysOf .keyPackages (w.store.db .keyPackages) =
      (w.store.db .keyPackages).map fun (r : MlsKeyPackage) => Key.id r.id :=
    (List.map_eq_flatMap ..).symm
  exact keys ▸ hi.ok.unique .keyPackages

/-- The claims of the packages of the stock. -/
def takers (target : Nat) (suite : Utf16) (t : Nat) (w w' : World) : List (Nat × Key) :=
  (claimsIn w'.store.wal).filter fun c =>
    decide (c.2 ∈ (stock target suite t w).map fun r => Key.id r.id)

/-- What the stock has lost was taken. -/
theorem stock_taken (hi : Inv db₀ w) (hi' : Inv db₀ w') (hx' : OneTime w') (h : Passage w w')
    (ht : t ≤ w.clock) (hp : Unpublished target suite w w')
    (he : ∀ r ∈ stock target suite t w, w'.clock < r.expiresAt) :
    (takers target suite t w w').length + (stock target suite w'.clock w').length =
      (stock target suite t w).length := by
  have packages : ((stock target suite t w).map fun r => Key.id r.id).Nodup :=
    (nodup_packages hi).sublist (List.filter_sublist.map _)
  have left : ((stock target suite w'.clock w').map fun r => Key.id r.id).Nodup :=
    (nodup_packages hi').sublist (List.filter_sublist.map _)
  have gone : ((takers target suite t w w').map Prod.snd).Nodup :=
    hx'.distinct.sublist (List.filter_sublist.map _)
  have apart : ((takers target suite t w w').map Prod.snd).Disjoint
      ((stock target suite w'.clock w').map fun r => Key.id r.id) := by
    intro key hk hk'
    obtain ⟨⟨p, key⟩, hc, rfl⟩ := List.mem_map.1 hk
    obtain ⟨r', hr', hid⟩ := List.mem_map.1 hk'
    obtain ⟨hr', hv⟩ := List.mem_filter.1 hr'
    obtain ⟨_, _, r, hr, hkey, -, -, -, hat⟩ := hx'.taken p key (List.mem_filter.1 hc).1
    obtain rfl := same_package hi' hr hr' (Key.id.inj (hkey.symm.trans hid.symm))
    exact hat (available_iff.1 hv).1.2.2
  have same : ∀ key, key ∈ (takers target suite t w w').map Prod.snd ++
      (stock target suite w'.clock w').map (fun r => Key.id r.id) ↔
        key ∈ (stock target suite t w).map fun r => Key.id r.id := by
    intro key
    rw [List.mem_append]
    refine ⟨fun hk => ?_, fun hk => ?_⟩
    · rcases hk with hk | hk
      · obtain ⟨c, hc, rfl⟩ := List.mem_map.1 hk
        exact of_decide_eq_true (List.mem_filter.1 hc).2
      · obtain ⟨r, hr, rfl⟩ := List.mem_map.1 hk
        obtain ⟨hr, hv⟩ := List.mem_filter.1 hr
        obtain ⟨⟨hu, hs, hn⟩, -⟩ := available_iff.1 hv
        have before := h.same hi' hp hr hu hs hn
        exact List.mem_map.2 ⟨r, List.mem_filter.2
          ⟨before, available_mono (ht.trans h.clock) hv⟩, rfl⟩
    · obtain ⟨r, hr, rfl⟩ := List.mem_map.1 hk
      obtain ⟨hr₀, hv⟩ := List.mem_filter.1 hr
      rcases h.rows r hr₀ with hr' | ⟨-, p, u, t', hc, -⟩
      · refine .inr (List.mem_map.2 ⟨r, List.mem_filter.2 ⟨hr', ?_⟩, rfl⟩)
        exact available_iff.2 ⟨(available_iff.1 hv).1, he r hr⟩
      · exact .inl (List.mem_map.2 ⟨_, List.mem_filter.2 ⟨hc, decide_eq_true hk⟩, rfl⟩)
  have perm := (List.perm_ext_iff_of_nodup (gone.append left apart) packages).2 same
  simpa using perm.length_eq

end Passage

end Messageries.Proofs
