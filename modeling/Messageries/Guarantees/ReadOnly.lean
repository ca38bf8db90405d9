import Messageries.Guarantees.Confidentiality
import Messageries.Proofs.Access

set_option linter.unusedSectionVars false

namespace Messageries.Guarantees

open Text Relational Database Crypto Concurrency Backend Moderation Proofs

/-- The tables a call on a closed conversation must leave alone. -/
def isKept : Table → Bool
  | .messages | .mlsMessages | .groups | .attachments | .conversations => true
  | _ => false

/-- These tables are as in `db₀`. -/
def Intact (db₀ : Db) (s : World × Nat) : Prop := ∀ t, isKept t = true → s.1.store.db t = db₀ t

section Refusals

variable [AesGcm] [TokenHash] {p : Nat} {inputs : Nat → Input} {db₀ : Db} {α β : Type}
  {φ ψ : World × Nat → Prop}

/-- The tables a statement may write to. -/
def WritesAt (t : Table) : Stmt → Prop
  | .insert t' _ => t' = t
  | .update t' _ _ => t' = t
  | _ => False

theorem writesAt_plan {s : Stmt} {v : Db} {free : Table → Key → Bool} {id now : Nat} {x : Write}
    (h : x ∈ (s.plan v free id now).writes) : WritesAt (writesTo x) s := by
  rcases Schema.Stmt.mem_plan h with ⟨t, make, rfl, f, -, i, rfl⟩ | ⟨t, q, f, rfl, rfl⟩
  · rfl
  · rfl

/-- Operations that commit nothing to the kept tables. -/
def Aside : Op → Prop
  | .commit => False
  | .query .pool s => ∀ t, WritesAt t s → isKept t = false
  | .remove t _ => isKept t = false
  | _ => True

theorem exec_aside {w w' : World} {i : Input} {o : Op} {r : Except Err o.Res} (ho : Aside o)
    (h : World.exec p i o w = some (r, w')) {t : Table} (ht : isKept t = true) :
    w'.store.db t = w.store.db t := by
  obtain ⟨new, hc, hm⟩ := exec_makes h
  have apart : ∀ x ∈ new, writesTo x ≠ t := by
    rintro x hx rfl
    cases hm with
    | nothing => exact (List.not_mem_nil hx).elim
    | commit _ _ => exact ho.elim
    | query s => exact Bool.noConfusion (ht.symm.trans (ho _ (writesAt_plan hx)))
    | remove t' q ks =>
      cases List.mem_singleton.1 hx
      exact Bool.noConfusion (ht.symm.trans ho)
  rw [hc.2]
  exact applyAll_apart apart _

theorem ends_aside {x : App α} (hx : x.Uses Aside) :
    Prog.Ends (alone p inputs) (Intact db₀) x fun _ => Intact db₀ :=
  .keeps hx fun _ _ _ _ ho hs h t ht => (exec_aside ho (alone_cases h) ht).trans (hs t ht)

theorem Still.intact {s : World × Nat} (h : Still db₀ s) : Intact db₀ s := fun t _ => congrFun h t

/-- From `φ` on, the program returns nothing and leaves the kept tables alone. -/
abbrev Refuses (p : Nat) (inputs : Nat → Input) (db₀ : Db) (φ : World × Nat → Prop) (x : App α) :
    Prop :=
  Prog.Ends (alone p inputs) φ x fun r s => Intact db₀ s ∧ ∀ a, r ≠ .ok a

namespace Refuses

theorem throw {e : Err} (h : ∀ s, φ s → Intact db₀ s) :
    Refuses p inputs db₀ φ (throw e : App α) :=
  Prog.Ends.throw.post fun r s hr => ⟨h s hr.2, fun a ha => by cases hr.1.symm.trans ha⟩

theorem bind {x : App α} {f : α → App β} (hx : Refuses p inputs db₀ φ x) :
    Refuses p inputs db₀ φ (x >>= f) :=
  Prog.Ends.bind hx (fun a _ _ _ hs => (hs.2 a rfl).elim) fun _ _ hs => ⟨hs.1, nofun⟩

theorem after {x : App α} {f : α → App β} {Q : Except Err α → World × Nat → Prop}
    (hx : Prog.Ends (alone p inputs) φ x Q) (hf : ∀ a, Refuses p inputs db₀ (Q (.ok a)) (f a))
    (he : ∀ e s, Q (.error e) s → Intact db₀ s) : Refuses p inputs db₀ φ (x >>= f) :=
  Prog.Ends.bind hx hf fun e s hs => ⟨he e s hs, nofun⟩

/-- What comes later refuses whatever comes before, if that leaves the tables alone. -/
theorem later {x : App α} {f : α → App β} (hx : x.Uses Aside)
    (hf : ∀ a, Refuses p inputs db₀ (Intact db₀) (f a)) :
    Refuses p inputs db₀ (Intact db₀) (x >>= f) :=
  after (ends_aside hx) hf fun _ _ h => h

end Refuses

section Reads

variable {t : Table} {ξ : World → Prop}

theorem ends_select (q : t.Row → Bool) :
    Prog.Ends (alone p inputs) (fun s => ξ s.1) (select .pool t q)
      fun r s => ξ s.1 ∧ ∀ rows, r = .ok rows → rows = (s.1.store.db t).filter q := by
  refine .perform fun s r s' hs h => ?_
  obtain ⟨same, hr⟩ := exec_select (alone_cases h)
  rw [same]
  refine ⟨hs, ?_⟩
  rintro rows rfl
  rcases hr with hr | hr
  · exact Except.ok.inj hr
  · cases hr

theorem ends_findOne (q : t.Row → Bool) :
    Prog.Ends (alone p inputs) (fun s => ξ s.1) (findOne .pool t q)
      fun r s => ξ s.1 ∧ ∀ o, r = .ok o → o = ((s.1.store.db t).filter q).head? := by
  refine Prog.Ends.bind (ends_select q) (fun rows => ?_) fun e s h => ⟨h.1, nofun⟩
  refine Prog.Ends.pure.post fun r s h => ⟨h.2.1, ?_⟩
  rintro o ho
  cases h.1.symm.trans ho
  rw [h.2.2 rows rfl]

/-- A statement of a transaction that writes nothing sees the committed rows. -/
theorem ends_sees {st : Stmt} (hs : ∀ v free id now, (st.plan v free id now).writes = []) :
    Prog.Ends (alone p inputs) (fun s => Intact db₀ s ∧ Blank p s) (perform (.query .tx st))
      fun r s => (Intact db₀ s ∧ Blank p s) ∧ ∀ a, r = .ok a → ∃ free id now,
        (st.plan s.1.store.db free id now).answer = .ok a := by
  refine .perform fun s r s' h hx => ?_
  have hx := alone_cases hx
  have aside : Aside (.query .tx st) := trivial
  refine ⟨⟨fun t ht => (exec_aside aside hx ht).trans (h.1 t ht), exec_looks hs h.2 hx⟩, ?_⟩
  rintro a rfl
  rcases exec_query hx with ⟨r₀, st', hq, hw, hr | hr⟩ | ⟨hr, -⟩
  · obtain rfl : r₀ = .ok a := by
      cases r₀ with
      | ok b => exact congrArg _ (Except.ok.inj hr).symm
      | error e => cases hr
    rcases State.query_cases hq with ⟨e, he, -⟩ | ⟨tx, a, -, ht, -, ha, hp, -, hst⟩ | ⟨a, hc, -⟩
    · cases he
    · cases ha
      have view : s.1.store.view p = s'.1.store.db := by
        simp [State.view, ht, h.2 tx ht, Schema.Write.applyAll, hw, World.withStore, hst,
          State.stage]
      exact ⟨_, _, _, view ▸ hp⟩
    · cases hc
  · cases hr
  · cases hr

end Reads

section Access

variable {user : AuthUser} {c : Nat}

/-- `assertCanAccess` turns the user away. -/
def NotAdmitted (db : Db) (user : AuthUser) (c : Nat) : Prop :=
  ¬Exists db c ∨ (¬Active db c user.sub ∧ ¬Staff user)

theorem mem_of_head {t : Table} {db : Db} {q : t.Row → Bool} {r : t.Row}
    (h : some r = ((db t).filter q).head?) : r ∈ db t ∧ q r = true :=
  List.mem_filter.1 (List.mem_of_mem_head? h.symm)

theorem ends_getByIdOrThrow {ξ : World → Prop} :
    Prog.Ends (alone p inputs) (fun s => ξ s.1) (getByIdOrThrow c) fun r s => ξ s.1 ∧
      ∀ conv, r = .ok conv →
        some conv = ((s.1.store.db .conversations).filter fun x => x.id == c).head? := by
  refine Prog.Ends.bind (ends_findOne _) (fun o => ?_) fun e s h => ⟨h.1, nofun⟩
  cases o with
  | none => exact Prog.Ends.throw.post fun r s h => ⟨h.2.1, fun a ha => by cases h.1.symm.trans ha⟩
  | some conv =>
    refine Prog.Ends.pure.post fun r s h => ⟨h.2.1, fun a ha => ?_⟩
    cases h.1.symm.trans ha
    exact h.2.2 _ rfl

theorem refuses_access (h : NotAdmitted db₀ user c) :
    Refuses p inputs db₀ (Still db₀) (assertCanAccess user c) := by
  refine Refuses.after (ends_getByIdOrThrow (ξ := fun w => w.store.db = db₀)) (fun conv => ?_)
    fun e s h => Still.intact h.1
  refine Refuses.after (Prog.Ends.pre (ends_findOne (ξ := fun w => w.store.db = db₀ ∧
    some conv = ((w.store.db .conversations).filter fun x => x.id == c).head?) _)
    fun s h => ⟨h.1, h.2 _ rfl⟩) (fun o => ?_) fun e s h => Still.intact h.1.1
  have found : ∀ s : World × Nat, s.1.store.db = db₀ →
      some conv = ((s.1.store.db .conversations).filter fun x => x.id == c).head? →
      Exists db₀ c := by
    intro s hs hc
    obtain ⟨hm, hq⟩ := mem_of_head (t := .conversations) hc
    exact ⟨conv, hs ▸ hm, by simpa using hq⟩
  cases o with
  | none =>
    refine Prog.Ends.ite (fun hr => ?_) fun _ => Refuses.throw fun s h => Still.intact h.1.1
    refine Prog.Ends.absurd fun s hs => ?_
    rcases h with he | ⟨-, hn⟩
    · exact he (found s hs.1.1 hs.1.2)
    · exact hn hr
  | some r =>
    refine Prog.Ends.absurd fun s hs => ?_
    obtain ⟨hm, hq⟩ := mem_of_head (t := .participants) (hs.2 _ rfl)
    rcases h with he | ⟨ha, -⟩
    · exact he (found s hs.1.1 hs.1.2)
    · refine ha ⟨r, hs.1.1 ▸ hm, ?_⟩
      simpa [and_assoc] using hq

theorem aside_select {t : Table} (cn : Conn) (q : t.Row → Bool) : (select cn t q).Uses Aside := by
  refine (Prog.uses_perform _).2 ?_
  cases cn with
  | tx => trivial
  | pool => exact fun _ h => h.elim

theorem aside_findOne {t : Table} (cn : Conn) (q : t.Row → Bool) : (findOne cn t q).Uses Aside :=
  (aside_select cn q).bind fun _ => trivial

theorem aside_audit (actorId : Option Nat) (action targetType : String) (targetId : Option Nat)
    (metadata : List (String × Json)) :
    (audit actorId action targetType targetId metadata).Uses Aside := by
  refine any_audit fun make => ?_
  rintro t rfl
  rfl

theorem aside_saveParticipants {ps : List NewParticipant} :
    (saveParticipants .pool ps).Uses Aside := by
  refine (aside_select ..).bind fun stored => (any_onlyIf ?_).bind fun _ =>
    .forM fun n => any_onlyIf ?_
  · refine Prog.Uses.bind ((Prog.uses_perform _).2 ?_) fun _ => trivial
    rintro t rfl
    rfl
  · refine Prog.Uses.bind ((Prog.uses_perform _).2 ?_) fun _ => trivial
    rintro t rfl
    rfl

theorem aside_access : (assertCanAccess user c).Uses Aside := by
  refine (visits_assertCanAccess user c).mono fun o ho => ?_
  cases ho with
  | reads t q => exact fun t h => nomatch h
  | joins make => exact fun t h => h ▸ rfl
  | role q role => exact fun t h => h ▸ rfl
  | logs make => exact fun t h => h ▸ rfl

end Access

section Statements

variable {cn : Conn} {t : Table}

theorem refuses_query {st : Stmt} (hφ : ∀ s, φ s → Intact db₀ s)
    (hf : ∀ s, φ s → ∀ v, (v = s.1.store.view p ∨ v = s.1.store.db) →
      ∀ free id now a, (st.plan v free id now).answer ≠ .ok a) :
    Refuses p inputs db₀ φ (perform (.query cn st)) := by
  refine .perform fun s r s' hs h => ?_
  obtain ⟨hr, hdb⟩ := exec_refused (hf s hs) (alone_cases h)
  exact ⟨fun t ht => (congrFun hdb t).trans (hφ s hs t ht), hr⟩

/-- A row the server refuses. -/
theorem refuses_insert {make : Nat → Nat → t.Row} (hφ : ∀ s, φ s → Intact db₀ s)
    (hm : ∀ id now, checkRow t (make id now) ≠ none) :
    Refuses p inputs db₀ φ (insertOne cn t make) :=
  Refuses.bind (refuses_query hφ fun _ _ v _ => plan_refused hm v)

/-- A row with a key that is taken. -/
theorem refuses_taken {make : Nat → Nat → t.Row} {k : Key} (hφ : ∀ s, φ s → Intact db₀ s)
    (hk : ∀ id now, k ∈ schema.keys t (make id now))
    (ht : ∀ s, φ s → ∀ v, (v = s.1.store.view p ∨ v = s.1.store.db) → k ∈ schema.keysOf t (v t)) :
    Refuses p inputs db₀ φ (insertOne cn t make) := by
  refine Refuses.bind (refuses_query hφ fun s hs v hv free id now a ha => ?_)
  have taken := ht s hs v hv
  simp only [Schema.Stmt.plan] at ha
  split at ha
  · cases ha
  · split at ha
    · rename_i hu
      exact hu.2 k (by simpa [Schema.keysOf] using hk id now) taken
    · cases ha

/-- A row the server refuses to change so. -/
theorem refuses_update {q : t.Row → Bool} {f : Nat → schema.Assign t}
    (hφ : ∀ s, φ s → Intact db₀ s)
    (hf : ∀ s, φ s → ∀ v, (v = s.1.store.view p ∨ v = s.1.store.db) →
      ∃ r ∈ v t, q r = true ∧ ∀ now, checkRow t ((f now).set r) ≠ none) :
    Refuses p inputs db₀ φ (update cn t q f) := by
  refine refuses_query hφ fun s hs v hv free id now a ha => ?_
  obtain ⟨r, hr, hq, hc⟩ := hf s hs v hv
  simp only [Schema.Stmt.plan] at ha
  split at ha
  · cases ha
  · rename_i hn
    exact hc now (List.findSome?_eq_none_iff.1 hn r (List.mem_filter.2 ⟨hr, hq⟩))

theorem refuses_transaction {body : App α}
    (h : Refuses p inputs db₀ (fun s => Intact db₀ s ∧ Blank p s) body) :
    Refuses p inputs db₀ (Intact db₀) (transaction body) := by
  refine Prog.Ends.tryCatch (Q := fun r s => Intact db₀ s ∧ ∀ a, r ≠ .ok a) ?_ (fun e => ?_)
    fun _ _ h => h
  · refine Prog.Ends.bind (Q := fun r s => Intact db₀ s ∧ ∀ a, r = .ok a → Blank p s)
      (.perform fun s r s' hs hx => ?_) (fun _ => ?_) fun _ _ h => ⟨h.1, nofun⟩
    · have hx := alone_cases hx
      have aside : Aside .begin := trivial
      refine ⟨fun t ht => (exec_aside aside hx ht).trans (hs t ht), ?_⟩
      rintro a rfl
      exact begin_blank hx
    · exact Refuses.bind (h.pre fun s hs => ⟨hs.1, hs.2 _ rfl⟩)
  · have aside : (perform .rollback : App Unit).Uses Aside := (Prog.uses_perform _).2 trivial
    exact Prog.Ends.bind ((ends_aside aside).pre fun _ hs => hs.1)
      (fun _ => Refuses.throw fun _ hs => hs) fun _ _ hs => ⟨hs, nofun⟩

end Statements

theorem aside_inert {x : App α} (hx : x.Uses Inert) : x.Uses Aside := by
  refine hx.mono fun o ho => ?_
  cases o with
  | query cn s =>
    cases cn with
    | tx => trivial
    | pool => exact ho.elim
  | commit => exact ho.elim
  | remove t q => exact ho.elim
  | _ => trivial

/-- The rows a lock returns are committed rows. -/
theorem ends_lockRows {t : Table} (q : t.Row → Bool) :
    Prog.Ends (alone p inputs) (fun s => Intact db₀ s ∧ Blank p s) (lockRows .tx t (fun _ => q) id)
      fun r s => (Intact db₀ s ∧ Blank p s) ∧
        ∀ rows, r = .ok rows → rows = (s.1.store.db t).filter q := by
  refine (ends_sees fun _ _ _ _ => rfl).post fun r s hs => ⟨hs.1, fun rows hr => ?_⟩
  obtain ⟨free, n, t', ha⟩ := hs.2 rows hr
  have all : rows = (s.1.store.db t).filter fun r => q r && (!false || free t (primaryKey t r)) :=
    (Except.ok.inj ha).symm
  simpa using all

section Calls

variable {user : AuthUser} {c : Nat}

def Closed (db : Db) (c : Nat) : Prop :=
  ∀ conv ∈ db .conversations, (conv : Conversation).id = c → (conv : Conversation).status ≠ .opened

theorem refuses_sendInTransaction {input : SendMessageInput} {scan : ScanResult}
    {cols : BodyColumns} (hc : Closed db₀ input.conversationId) :
    Refuses p inputs db₀ (fun s => Intact db₀ s ∧ Blank p s) (sendInTransaction input scan cols) := by
  refine Refuses.after (ends_lockRows _) (fun rows => ?_) fun _ _ h => h.1.1
  cases hr : rows.head? with
  | none => exact Refuses.throw fun _ hs => hs.1.1
  | some conv =>
    refine Prog.Ends.given (P := Conversation.status conv ≠ .opened) (fun s hs => ?_) fun closed => ?_
    · obtain ⟨hm, hq⟩ := mem_of_head (t := .conversations) (hs.2 rows rfl ▸ hr).symm
      exact hc conv (hs.1.1 .conversations rfl ▸ hm) (by simpa using hq)
    · refine Prog.Ends.pre (φ := Intact db₀) ?_ fun s hs => hs.1.1
      refine Refuses.later (any_onlyIf trivial) fun _ => Refuses.bind ?_
      exact .ite (fun ho => (closed ho).elim) fun _ => Refuses.throw fun _ hs => hs

theorem refuses_send {input : SendMessageInput} (hc : Closed db₀ input.conversationId) :
    Refuses p inputs db₀ (Intact db₀) (send input) := by
  refine Refuses.later ((Prog.uses_perform _).2 trivial) fun cfg => ?_
  refine Refuses.later (any_onlyIf trivial) fun _ => Refuses.later (any_onlyIf trivial) fun _ => ?_
  refine Refuses.later (aside_inert (uses_bodyColumns ..)) fun cols => ?_
  exact Refuses.bind (refuses_transaction (refuses_sendInTransaction hc))

theorem Blank.view {s : World × Nat} (h : Blank p s) : s.1.store.view p = s.1.store.db := by
  cases ht : s.1.store.tx p with
  | none => exact State.view_of_none ht
  | some tx => simp [State.view_of_some ht, h tx ht, Schema.Write.applyAll]

theorem seen_eq {s : World × Nat} {v : Db} (h : Blank p s)
    (hv : v = s.1.store.view p ∨ v = s.1.store.db) : v = s.1.store.db :=
  hv.elim (fun e => e.trans h.view) fun e => e

theorem ends_access : Prog.Ends (alone p inputs) (Intact db₀) (assertCanAccess user c) fun r s =>
    Intact db₀ s ∧ ∀ conv role, r = .ok (conv, role) → conv ∈ db₀ .conversations ∧ conv.id = c := by
  refine Prog.Ends.bind
    (ends_getByIdOrThrow (ξ := fun w => ∀ t, isKept t = true → w.store.db t = db₀ t))
    (fun conv => ?_) fun e s h => ⟨h.1, nofun⟩
  refine Prog.Ends.given (P := conv ∈ db₀ .conversations ∧ conv.id = c) (fun s hs => ?_) fun hm => ?_
  · obtain ⟨hr, hq⟩ := mem_of_head (t := .conversations) (hs.2 conv rfl)
    exact ⟨hs.1 .conversations rfl ▸ hr, by simpa using hq⟩
  · refine Prog.Ends.pre (φ := Intact db₀) ?_ fun s hs => hs.1
    have found : ∀ role : Role, Prog.Ends (alone p inputs) (Intact db₀) (pure (conv, role) : App _)
        fun r s => Intact db₀ s ∧
          ∀ conv role, r = .ok (conv, role) → conv ∈ db₀ .conversations ∧ conv.id = c := by
      refine fun role => Prog.Ends.pure.post fun r s hs => ⟨hs.2, ?_⟩
      rintro _ _ hr
      cases hs.1.symm.trans hr
      exact hm
    refine Prog.Ends.bind (ends_aside (aside_findOne ..)) (fun o => ?_) fun _ _ hs => ⟨hs, nofun⟩
    cases o with
    | some r => exact found r.role
    | none =>
      refine .ite (fun _ => ?_) fun _ => Prog.Ends.throw.post fun r s hs => ⟨hs.2, ?_⟩
      · refine Prog.Ends.bind (ends_aside aside_saveParticipants) (fun _ => ?_)
          fun _ _ hs => ⟨hs, nofun⟩
        exact Prog.Ends.bind (ends_aside (aside_audit ..)) (fun _ => found _)
          fun _ _ hs => ⟨hs, nofun⟩
      · rintro _ _ hr
        cases hs.1.symm.trans hr

/-- What `presignUpload` does not take, from this user on this conversation. -/
def PresignRefused (w : World) (user : AuthUser) (c : Nat) (filename mimeType : Utf16)
    (sizeBytes : Int) : Prop :=
  mimeType ∉ allowedMime ∨ sizeBytes ≤ 0 ∨
    (w.settings.maxAttachmentMb : Int) * 1024 * 1024 < sizeBytes ∨ NotAdmitted w.store.db user c ∨
    checkText (some 255) (sent filename) ≠ none ∨ checkBigint sizeBytes ≠ none

def EnableRefused (db : Db) (c : Nat) (cipherSuite : Utf16) (welcomeMessages : List Welcome) :
    Prop :=
  (∀ conv ∈ db .conversations, (conv : Conversation).id = c → conv.e2eeEnabled = true) ∨
    (∃ g ∈ db .groups, (g : MlsGroup).conversationId = c) ∨
    checkText (some 64) (sent cipherSuite) ≠ none ∨
    ∃ wm ∈ welcomeMessages, checkText (some 64) (sent wm.senderDeviceId) ≠ none

/-- The last case counts a conversation with no group. -/
def MlsRefused (db : Db) (input : MlsInput) : Prop :=
  (∀ n, bigint input.epoch ≠ .ok n) ∨ checkText (some 64) (sent input.senderDeviceId) ≠ none ∨
    ∀ g ∈ db .groups, (g : MlsGroup).conversationId = input.conversationId →
      (input.kind = .commit ∧ checkBigint (g.epoch + 1) ≠ none) ∨
      checkBigint (lastSequence ((db .mlsMessages).filter
        fun (m : MlsMessage) => m.groupId == g.id) + 1 : Nat) ≠ none

theorem attachment_refused {objectKey filename mimeType : Utf16} {sizeBytes : Int}
    {scan : ScanStatus} {id t : Nat}
    (h : checkText (some 255) (sent filename) ≠ none ∨ checkBigint sizeBytes ≠ none) :
    checkRow .attachments (newAttachment user c objectKey filename mimeType sizeBytes scan id t) ≠
      none := by
  simp only [checkRow, newAttachment, Option.orElse_eq_orElse, Option.orElse_eq_or, ne_eq,
    Option.or_eq_none_iff, not_and_or]
  exact .inr (h.elim .inl fun h => .inr (.inr h))

theorem refuses_presign {w : World} {filename mimeType : Utf16} {sizeBytes : Int}
    (h : PresignRefused w user c filename mimeType sizeBytes) :
    Refuses p inputs w.store.db (fun s => s.1 = w)
      (presignUpload user c filename mimeType sizeBytes) := by
  have start : ∀ s : World × Nat, s.1 = w → Still w.store.db s := fun s hs => hs ▸ rfl
  by_cases hm : mimeType ∈ allowedMime
  swap
  · refine Refuses.bind (.ite (fun _ => Refuses.throw fun s hs => (start s hs).intact) fun hn => ?_)
    simp [hm] at hn
  refine Refuses.after (Q := fun _ s => s.1 = w)
    (.ite (fun hn => by simp [hm] at hn) fun _ => Prog.Ends.pure.post fun _ _ hs => hs.2)
    (fun _ => ?_) fun _ s hs => (start s hs).intact
  refine Refuses.after (Q := fun r s => s.1 = w ∧ ∀ cfg, r = .ok cfg → cfg = w.settings)
    (.perform fun s r s' hs hx => ?_) (fun cfg => ?_) fun _ s hs => (start s hs.1).intact
  · obtain ⟨rfl, hw⟩ := Prod.mk.inj (Option.some.inj (alone_cases hx))
    refine ⟨hw.symm.trans hs, fun cfg hc => ?_⟩
    rw [← hs]
    exact (Except.ok.inj hc).symm
  refine Prog.Ends.given (P := cfg = w.settings) (fun s hs => hs.2 cfg rfl) ?_
  rintro rfl
  refine Prog.Ends.pre (φ := Still w.store.db) ?_ fun s hs => start s hs.1
  by_cases hz : sizeBytes ≤ 0 ∨ (w.settings.maxAttachmentMb : Int) * 1024 * 1024 < sizeBytes
  · exact Refuses.bind (.ite (fun _ => Refuses.throw fun _ hs => hs.intact) fun hn => (hn hz).elim)
  refine Refuses.after (Q := fun _ => Still w.store.db)
    (.ite (fun hp => (hz hp).elim) fun _ => Prog.Ends.pure.post fun _ _ hs => hs.2)
    (fun _ => ?_) fun _ _ hs => hs.intact
  rcases h with h | h | h | h | h
  · exact (h hm).elim
  · exact (hz (.inl h)).elim
  · exact (hz (.inr h)).elim
  · exact Refuses.bind (refuses_access h)
  refine Refuses.later aside_access (fun _ => ?_) |>.pre fun _ hs => Still.intact hs
  refine Refuses.later ((Prog.uses_perform _).2 trivial) fun uuid => ?_
  refine Refuses.later ((Prog.uses_perform _).2 trivial) fun url => ?_
  refine Refuses.later ((Prog.uses_perform _).2 trivial) fun cfg => ?_
  refine Refuses.bind (refuses_insert (fun _ hs => hs) fun id t => ?_)
  exact attachment_refused h

theorem refuses_welcomes {groupId actor : Nat} {ws : List Welcome} {n : Nat}
    (h : ∃ wm ∈ ws, checkText (some 64) (sent wm.senderDeviceId) ≠ none) :
    Refuses p inputs db₀ (Intact db₀) (saveWelcomes groupId actor n ws) := by
  induction ws generalizing n with
  | nil => simp at h
  | cons wm ws ih =>
    by_cases hw : checkText (some 64) (sent wm.senderDeviceId) ≠ none
    · refine Refuses.bind (refuses_insert (fun _ hs => hs) fun id t => ?_)
      simp only [checkRow, newWelcome, Option.orElse_eq_orElse, Option.orElse_eq_or, ne_eq,
        Option.or_eq_none_iff, not_and_or]
      exact .inl hw
    · refine Refuses.later (aside_inert (any_insertOne trivial)) fun _ => ih ?_
      obtain ⟨wm', hm, hc⟩ := h
      rcases List.mem_cons.1 hm with rfl | hm
      · exact (hw hc).elim
      · exact ⟨wm', hm, hc⟩

theorem refuses_enable {groupIdMls : Bytes} {cipherSuite : Utf16} {ws : List Welcome}
    (h : EnableRefused db₀ c cipherSuite ws) :
    Refuses p inputs db₀ (Intact db₀) (enableE2ee user c groupIdMls cipherSuite ws) := by
  refine Refuses.after ends_access (fun found => ?_) fun _ _ hs => hs.1
  obtain ⟨conv, role⟩ := found
  refine Prog.Ends.given (P := conv ∈ db₀ .conversations ∧ conv.id = c)
    (fun s hs => hs.2 conv role rfl) fun hm => ?_
  refine Prog.Ends.pre (φ := Intact db₀) ?_ fun s hs => hs.1
  rcases h with h | h
  · refine Refuses.bind (.ite (fun _ => Refuses.throw fun _ hs => hs) fun hn => ?_)
    exact (hn (h conv hm.1 hm.2)).elim
  refine Refuses.later (any_onlyIf trivial) fun _ => refuses_transaction ?_
  rcases h with ⟨g, hg, hc⟩ | h | h
  · refine Refuses.bind (refuses_taken (k := .conversation c) (fun s hs => hs.1) (fun id t => ?_)
      fun s hs v hv => ?_)
    · exact List.mem_cons_of_mem _ (List.mem_singleton_self _)
    · rw [seen_eq hs.2 hv, hs.1 .groups rfl]
      exact List.mem_flatMap.2 ⟨g, hg, List.mem_cons_of_mem _ (hc ▸ List.mem_singleton_self _)⟩
  · refine Refuses.bind (refuses_insert (fun s hs => hs.1) fun id t => ?_)
    simp only [checkRow, newGroup, Option.orElse_eq_orElse, Option.orElse_eq_or, ne_eq,
      Option.or_eq_none_iff, not_and_or]
    exact .inl h
  · refine Prog.Ends.pre (φ := Intact db₀) ?_ fun s hs => hs.1
    refine Refuses.later (aside_inert (any_insertOne trivial)) fun g => ?_
    exact Refuses.bind (refuses_welcomes h)

theorem ends_findGroup : Prog.Ends (alone p inputs) (Intact db₀) (findGroup c) fun r s =>
    Intact db₀ s ∧ ∀ g, r = .ok g → g ∈ db₀ .groups ∧ (g : MlsGroup).conversationId = c := by
  refine Prog.Ends.bind (ends_findOne (ξ := fun w => ∀ t, isKept t = true → w.store.db t = db₀ t) _)
    (fun o => ?_) fun e s h => ⟨h.1, nofun⟩
  cases o with
  | none => exact Prog.Ends.throw.post fun r s h => ⟨h.2.1, fun a ha => by cases h.1.symm.trans ha⟩
  | some g =>
    refine Prog.Ends.pure.post fun r s h => ⟨h.2.1, fun a ha => ?_⟩
    cases h.1.symm.trans ha
    obtain ⟨hm, hq⟩ := mem_of_head (t := .groups) (h.2.2 _ rfl)
    exact ⟨h.2.1 .groups rfl ▸ hm, by simpa using hq⟩

theorem aside_parameter {γ : Type} (x : Except SqlState γ) : (parameter .tx x).Uses Aside := by
  cases x with
  | ok a => trivial
  | error e => exact Prog.Uses.bind ((Prog.uses_perform _).2 trivial) fun _ => trivial

theorem refuses_parameter {γ : Type} {x : Except SqlState γ} (h : ∀ a, x ≠ .ok a) :
    Refuses p inputs db₀ (Intact db₀) (parameter .tx x) := by
  cases x with
  | ok a => exact (h a rfl).elim
  | error e =>
    exact Refuses.later ((Prog.uses_perform _).2 trivial) fun _ => Refuses.throw fun _ hs => hs

/-- The statements after the lock of `g`. -/
theorem refuses_mlsMessage {input : MlsInput} {g : MlsGroup} (hg : g ∈ db₀ .groups)
    (h : (∀ n, bigint input.epoch ≠ .ok n) ∨
      checkText (some 64) (sent input.senderDeviceId) ≠ none ∨
      (input.kind = .commit ∧ checkBigint (g.epoch + 1) ≠ none) ∨
      checkBigint (lastSequence ((db₀ .mlsMessages).filter
        fun (m : MlsMessage) => m.groupId == g.id) + 1 : Nat) ≠ none) :
    Refuses p inputs db₀ (fun s => Intact db₀ s ∧ Blank p s) (do
      let rows ← select .tx .mlsMessages fun m => m.groupId == g.id
      let nextSeq := lastSequence rows + 1
      onlyIf (input.kind = .commit) do
        let _ ← update .tx .groups (fun x => x.id == g.id) fun _ => setEpoch (g.epoch + 1)
      let epoch ← parameter .tx (bigint input.epoch)
      let saved ← insertOne .tx .mlsMessages (newMlsMessage input g.id user.sub epoch nextSeq)
      return (saved.id, nextSeq)) := by
  refine Refuses.after (ends_sees fun _ _ _ _ => rfl) (fun rows => ?_) fun _ _ hs => hs.1.1
  refine Prog.Ends.given (P := rows = (db₀ .mlsMessages).filter
    fun (m : MlsMessage) => m.groupId == g.id) (fun s hs => ?_) ?_
  · obtain ⟨free, n, t, ha⟩ := hs.2 rows rfl
    rw [← hs.1.1 .mlsMessages rfl]
    exact (Except.ok.inj ha).symm
  rintro rfl
  refine Prog.Ends.pre (φ := fun s => Intact db₀ s ∧ Blank p s) ?_ fun s hs => hs.1
  by_cases hk : input.kind = .commit ∧ checkBigint (g.epoch + 1) ≠ none
  · refine Refuses.bind (.ite (fun _ => Refuses.bind ?_) fun hn => (hn hk.1).elim)
    refine refuses_update (fun s hs => hs.1) fun s hs v hv => ⟨g, ?_, by simp, fun _ => ?_⟩
    · rw [seen_eq hs.2 hv, hs.1 .groups rfl]
      exact hg
    · simp only [checkRow, setEpoch, Option.orElse_eq_orElse, Option.orElse_eq_or, ne_eq,
        Option.or_eq_none_iff, not_and_or]
      exact .inr hk.2
  refine Prog.Ends.pre (φ := Intact db₀) ?_ fun s hs => hs.1
  refine Refuses.later (any_onlyIf (.bind ((Prog.uses_perform _).2 trivial) fun _ => trivial))
    fun _ => ?_
  by_cases he : ∀ n, bigint input.epoch ≠ .ok n
  · exact Refuses.bind (refuses_parameter he)
  refine Refuses.later (aside_parameter _) fun epoch => Refuses.bind
    (refuses_insert (fun _ hs => hs) fun id t => ?_)
  simp only [checkRow, newMlsMessage, Option.orElse_eq_orElse, Option.orElse_eq_or, ne_eq,
    Option.or_eq_none_iff, not_and_or]
  rcases h with h | h | h | h
  · exact (he h).elim
  · exact .inl h
  · exact (hk h).elim
  · exact .inr (.inr h)

theorem refuses_sendMls {input : MlsInput} (hu : (schema.keysOf .groups (db₀ .groups)).Nodup)
    (h : MlsRefused db₀ input) :
    Refuses p inputs db₀ (Intact db₀) (sendMlsMessage user input) := by
  refine Refuses.later aside_access fun _ => ?_
  refine Refuses.after ends_findGroup (fun group => ?_) fun _ _ hs => hs.1
  refine Prog.Ends.given (P := group ∈ db₀ .groups ∧ group.conversationId = input.conversationId)
    (fun s hs => hs.2 group rfl) fun hg => ?_
  refine Prog.Ends.pre (φ := Intact db₀) (refuses_transaction ?_) fun s hs => hs.1
  refine Refuses.after (ends_lockRows _) (fun rows => ?_) fun _ _ hs => hs.1.1
  cases hr : rows.head? with
  | none => exact Refuses.throw fun _ hs => hs.1.1
  | some g =>
    refine Prog.Ends.given (P := g = group) (fun s hs => ?_) ?_
    · obtain ⟨hm, hq⟩ := mem_of_head (t := .groups) (hs.2 rows rfl ▸ hr).symm
      refine Schema.eq_of_key hu (k := .id group.id) (hs.1.1 .groups rfl ▸ hm) hg.1 ?_
        (List.mem_cons_self ..)
      have same : g.id = group.id := by simpa using hq
      exact same ▸ List.mem_cons_self ..
    · rintro rfl
      refine Prog.Ends.pre (refuses_mlsMessage hg.1 ?_) fun s hs => hs.1
      exact h.imp_right fun h => h.imp_right fun h => h g hg.1 hg.2

end Calls

end Refusals

section ReadOnly

variable [AesGcm] [TokenHash]

/-- The conversation a call writes to. -/
def writesIn : Call → Option Nat
  | .send _ c _ _ | .presign _ c _ _ _ | .enableE2ee _ c _ _ _ | .sendMls _ c _ _ _ _ _ => some c
  | _ => none

/-- The call fails and leaves the kept tables as they are, whatever fails on the way. -/
def ReadOnly (w : World) (k : Call) : Prop :=
  ∀ p inputs r w', runAlone p inputs (code k) w = some (r, w') →
    (∀ a, r ≠ .ok a) ∧ ∀ t, isKept t = true → w'.store.db t = w.store.db t

/-- Why the code turns a call down; only a send looks at the status of the conversation. -/
def TurnedDown (w : World) : Call → Prop
  | .send _ _ _ _ => True
  | .presign user c filename mimeType sizeBytes =>
    PresignRefused w user c filename mimeType sizeBytes
  | .enableE2ee user c _ cipherSuite ws =>
    NotAdmitted w.store.db user c ∨ EnableRefused w.store.db c cipherSuite ws
  | .sendMls user c device kind epoch ciphertext target =>
    NotAdmitted w.store.db user c ∨ MlsRefused w.store.db ⟨c, device, kind, epoch, ciphertext, target⟩
  | _ => False

end ReadOnly

section Example

/-- Two closed conversations; the second one has a group. -/
def closedDb : Db
  | .users => [exampleUser 2 .customer, exampleUser 3 .seller]
  | .orders => [⟨1, text "A1", 2, 3⟩, ⟨2, text "A2", 2, 3⟩]
  | .conversations => [{ exampleConversation with status := .closed },
      { exampleConversation with id := 11, orderId := 2, status := .archived }]
  | .participants => [⟨10, 2, .customer, 0, none, 0⟩, ⟨11, 2, .customer, 0, none, 0⟩]
  | .groups => [⟨20, 11, [1], text "s", 0, 2, 0⟩]
  | _ => []

theorem ok_closedWorld : (worldOf closedDb exampleSettings).store.Ok :=
  ⟨fun t => by cases t <;> decide +kernel, nofun, nofun, nofun⟩

/-- Nothing fails, and no random byte is zero. -/
def ones : Input := { calm with bytes := fun _ => 1 }

abbrev closedAlone (k : Call) : Option (Except Err Response × World) :=
  runAlone 0 (fun _ => ones) (@code exampleCipher exampleHash k) (worldOf closedDb exampleSettings)

def isDone {α : Type} : Except Err α → Bool
  | .ok _ => true
  | .error _ => false

theorem not_readOnly {k : Call} (h : (closedAlone k).any (fun r => isDone r.1) = true) :
    ¬@ReadOnly exampleCipher exampleHash (worldOf closedDb exampleSettings) k := by
  intro hro
  cases hx : closedAlone k with
  | none => simp [hx] at h
  | some x =>
    obtain ⟨r, w⟩ := x
    cases r with
    | ok a => exact (hro _ _ _ _ hx).1 a rfl
    | error e => simp [hx, isDone] at h

end Example

end Messageries.Guarantees
