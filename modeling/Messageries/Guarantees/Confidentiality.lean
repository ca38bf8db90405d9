import Messageries.Guarantees.Numbering
import Messageries.Proofs.Extension

set_option linter.unusedSectionVars false

namespace Messageries.Guarantees

open Text Relational Database Crypto Concurrency Backend Moderation Proofs

section Alone

variable [AesGcm] [TokenHash] {p : Nat} {inputs : Nat → Input} {db₀ : Db}

/-- The operations of a process that runs alone; the `n`-th one gets the `n`-th input. -/
def alone (p : Nat) (inputs : Nat → Input) (o : Op) (s : World × Nat) :
    Option (Except Err o.Res × (World × Nat)) :=
  (World.exec p (inputs s.2) o s.1).map fun (r, w) => (r, w, s.2 + 1)

def runAlone {α : Type} (p : Nat) (inputs : Nat → Input) (x : App α) (w : World) :
    Option (Except Err α × World) :=
  (x.eval (alone p inputs) (w, 0)).map fun (r, s) => (r, s.1)

/-- Operations that commit nothing. -/
def Inert : Op → Prop
  | .commit | .query .pool _ | .remove _ _ => False
  | _ => True

theorem exec_inert {w w' : World} {i : Input} {o : Op} {r : Except Err o.Res} (ho : Inert o)
    (h : World.exec p i o w = some (r, w')) : w'.store.db = w.store.db := by
  obtain ⟨new, hc, hm⟩ := exec_makes h
  cases hm with
  | nothing => exact hc.2
  | commit _ _ => exact ho.elim
  | query s => exact ho.elim
  | remove t q ks => exact ho.elim

def Still (db₀ : Db) (s : World × Nat) : Prop := s.1.store.db = db₀

theorem alone_cases {o : Op} {s s' : World × Nat} {r : Except Err o.Res}
    (h : alone p inputs o s = some (r, s')) : World.exec p (inputs s.2) o s.1 = some (r, s'.1) := by
  obtain ⟨⟨r₀, w⟩, hx, he⟩ := Option.map_eq_some_iff.1 h
  cases he
  exact hx

theorem ends_inert {α : Type} {x : App α} (hx : x.Uses Inert) :
    Prog.Ends (alone p inputs) (Still db₀) x fun _ => Still db₀ :=
  .keeps hx fun _ _ _ _ ho hs h => (exec_inert ho (alone_cases h)).trans hs

/-- The transaction of the process has nothing to commit. -/
def Blank (p : Nat) (s : World × Nat) : Prop :=
  ∀ tx, s.1.store.tx p = some tx → tx.writes = []

/-- Statements of a transaction that write nothing. -/
def Looks : Op → Prop
  | .query .tx (.select _ _) | .query .tx (.lock _ _ _ _) | .query .tx (.reject _) => True
  | _ => False

theorem exec_looks {w w' : World} {i : Input} {s : Stmt} {r : Except Err s.Out}
    (hs : ∀ v free id now, (s.plan v free id now).writes = [])
    (hb : ∀ tx, w.store.tx p = some tx → tx.writes = [])
    (h : World.exec p i (.query .tx s) w = some (r, w')) :
    ∀ tx, w'.store.tx p = some tx → tx.writes = [] := by
  have failed : ∀ tx, (w.store.fail p).tx p = some tx → tx.writes = [] := by
    intro tx ht
    obtain ⟨tx', ht', e⟩ := State.fail_tx_cases ht
    exact e ▸ hb tx' ht'
  rcases exec_query h with ⟨r₀, st', hq, rfl, -⟩ | ⟨-, rfl | ⟨-, rfl⟩⟩
  · rcases State.query_cases hq with ⟨e, -, rfl | ⟨-, rfl⟩⟩ | ⟨tx, a, -, ht, -, -, -, -, rfl⟩ |
      ⟨a, hc, -⟩
    · exact hb
    · exact failed
    · intro tx' ht'
      obtain rfl : { tx with writes := tx.writes ++ _ } = tx' := by
        simpa [World.withStore, State.stage] using ht'
      simp [hb tx ht, hs]
    · cases hc
  · exact hb
  · exact failed

theorem ends_looks {α : Type} {x : App α} (hx : x.Uses Looks) :
    Prog.Ends (alone p inputs) (fun s => Still db₀ s ∧ Blank p s) x
      fun _ s => Still db₀ s ∧ Blank p s := by
  refine .keeps hx fun o s r s' ho hs h => ?_
  have h := alone_cases h
  cases o with
  | query c st =>
    cases c with
    | tx =>
      refine ⟨(exec_inert (o := .query .tx st) trivial h).trans hs.1, ?_⟩
      cases st with
      | select t q => exact exec_looks (fun _ _ _ _ => rfl) hs.2 h
      | lock t q pick skip => exact exec_looks (fun _ _ _ _ => rfl) hs.2 h
      | reject e => exact exec_looks (fun _ _ _ _ => rfl) hs.2 h
      | insert t make => exact ho.elim
      | update t q f => exact ho.elim
    | pool => exact ho.elim
  | _ => exact ho.elim

/-- A statement whose answer is an error on the rows the session sees. -/
theorem exec_refused {w w' : World} {i : Input} {c : Conn} {s : Stmt} {r : Except Err s.Out}
    (hf : ∀ v, (v = w.store.view p ∨ v = w.store.db) →
      ∀ free id now a, (s.plan v free id now).answer ≠ .ok a)
    (h : World.exec p i (.query c s) w = some (r, w')) :
    (∀ a, r ≠ .ok a) ∧ w'.store.db = w.store.db := by
  have kept : (w.store.fail p).db = w.store.db := State.fail_db
  rcases exec_query h with ⟨r₀, st', hq, rfl, hr⟩ | ⟨rfl, rfl | ⟨-, rfl⟩⟩
  · rcases State.query_cases hq with ⟨e, rfl, hst⟩ | ⟨tx, a, -, -, -, -, ha, -⟩ | ⟨a, -, -, ha, -⟩
    · refine ⟨?_, ?_⟩
      · rintro a rfl
        rcases hr with hr | hr <;> cases hr
      · rcases hst with rfl | ⟨-, rfl⟩
        · rfl
        · exact kept
    · exact (hf _ (.inl rfl) _ _ _ a ha).elim
    · exact (hf _ (.inr rfl) _ _ _ a ha).elim
  · exact ⟨nofun, rfl⟩
  · exact ⟨nofun, kept⟩

theorem plan_refused {t : Table} {make : Nat → Nat → t.Row}
    (hm : ∀ id now, checkRow t (make id now) ≠ none) (v : Db) (free : Table → Key → Bool)
    (id now : Nat) (a : List t.Row) :
    ((Schema.Stmt.insert (S := schema) t [make]).plan v free id now).answer ≠ .ok a := by
  intro ha
  obtain ⟨rfl, hn, -⟩ := Schema.Stmt.plan_insert ha
  simp [hm] at hn

/-- A row the server refuses is not inserted. -/
theorem ends_refused {t : Table} {make : Nat → Nat → t.Row}
    (hm : ∀ id now, checkRow t (make id now) ≠ none) :
    Prog.Ends (alone p inputs) (Still db₀) (insertOne .tx t make)
      fun r s => Still db₀ s ∧ ∀ a, r ≠ .ok a := by
  refine Prog.Ends.bind (Q := fun r s => Still db₀ s ∧ ∀ a, r ≠ .ok a)
    (.perform fun s r s' hs h => ?_) (fun a s r s' hs _ => (hs.2 a rfl).elim)
    fun e s hs => ⟨hs.1, nofun⟩
  obtain ⟨hr, hdb⟩ := exec_refused (s := .insert t [make]) (fun v _ => plan_refused hm v)
    (alone_cases h)
  exact ⟨hdb.trans hs, hr⟩

theorem begin_blank {w w' : World} {i : Input} {a : Unit}
    (h : World.exec p i .begin w = some (.ok a, w')) :
    ∀ tx, w'.store.tx p = some tx → tx.writes = [] := by
  obtain ⟨r₀, st', hb, ⟨hr, hw⟩ | ⟨hr, -⟩⟩ := exec_begin h
  · rcases State.begin_cases hb with ⟨-, rfl, -⟩ | ⟨rfl, -, rfl⟩
    · cases hr
    · intro tx ht
      obtain rfl : (⟨w.clock, [], false⟩ : Tx schema) = tx := by
        simpa [hw, World.withStore] using ht
      rfl
  · cases hr

/-- The end of a transaction that wrote nothing, or was rolled back. -/
theorem ends_transaction {α : Type} {body : App α}
    (h : Prog.Ends (alone p inputs) (fun s => Still db₀ s ∧ Blank p s) body
      fun r s => Still db₀ s ∧ ∀ a, r = .ok a → Blank p s) :
    Prog.Ends (alone p inputs) (Still db₀) (transaction body) fun _ => Still db₀ := by
  refine Prog.Ends.tryCatch (Q := fun _ => Still db₀) ?_ (fun e => ?_) fun _ _ h => h
  · refine Prog.Ends.bind (Q := fun r s => Still db₀ s ∧ ∀ a, r = .ok a → Blank p s)
      (.perform fun s r s' hs h => ?_) (fun _ => ?_) fun _ _ h => h.1
    · have h := alone_cases h
      refine ⟨(exec_inert (o := .begin) trivial h).trans hs, ?_⟩
      rintro a rfl
      exact begin_blank h
    · refine Prog.Ends.bind (Prog.Ends.pre h fun s hs => ⟨hs.1, hs.2 _ rfl⟩) (fun a => ?_)
        fun _ _ h => h.1
      refine Prog.Ends.bind (Q := fun _ => Still db₀) (.perform fun s r s' hs h => ?_)
        (fun _ => Prog.Ends.pure.post fun _ _ h => h.2) fun _ _ h => h
      -- nothing is committed
      rcases exec_commit (alone_cases h) with ⟨r₀, st', hc, hw, -⟩ | ⟨-, hw⟩
      · have same : st'.db = s.1.store.db := by
          rcases State.commit_cases hc with ⟨-, rfl⟩ | ⟨tx, -, -, rfl⟩ | ⟨tx, ht, -, rfl⟩
          · rfl
          · rfl
          · simp [State.rollback, State.write, hs.2 _ rfl tx ht]
        exact (congrArg (fun w : World => w.store.db) hw).trans (same.trans hs.1)
      · exact (congrArg (fun w : World => w.store.db) hw).trans hs.1
  · exact Prog.Ends.bind (ends_inert ((Prog.uses_perform _).2 trivial))
      (fun _ => Prog.Ends.throw.post fun _ _ h => h.2) fun _ _ h => h

theorem uses_saveReceipts (messageId : Nat) (users : List Nat) :
    (saveReceipts messageId users).Uses Inert :=
  any_onlyIf ((any_select trivial).bind fun _ =>
    any_onlyIf (((Prog.uses_perform _).2 trivial).bind fun _ => trivial))

theorem ends_storeMessage {input : SendMessageInput} {scan : ScanResult} {cols : BodyColumns}
    {conv : Conversation} (hb : checkJson scan.cleaned ≠ none) :
    Prog.Ends (alone p inputs) (Still db₀) (storeMessage input scan cols conv)
      fun r s => Still db₀ s ∧ ∀ m, r ≠ .ok m := by
  have failed : ∀ (e : Err) (s : World × Nat), Still db₀ s →
      Still db₀ s ∧ ∀ m : Message, (Except.error e : Except Err Message) ≠ .ok m :=
    fun _ _ h => ⟨h, fun _ he => nomatch he⟩
  refine Prog.Ends.bind (ends_inert (any_insertOne trivial)) (fun msg => ?_) failed
  refine Prog.Ends.bind (ends_inert (any_select trivial)) (fun participants => ?_) failed
  refine Prog.Ends.bind (ends_inert (uses_saveReceipts ..)) (fun _ => ?_) failed
  have refused : ∀ id now, checkRow .outbox (newEvent .messageCreated input.conversationId
      (.created (createdPayload input scan msg participants)) id now) ≠ none := fun _ _ => hb
  exact Prog.Ends.bind (ends_refused refused)
    (fun e s r s' hs _ => (hs.2 e rfl).elim) fun e s h => failed e s h.1

theorem uses_findExisting (input : SendMessageInput) : (findExisting input).Uses Looks := by
  unfold findExisting
  split
  · trivial
  · refine (any_onlyIf ?_).bind fun _ => any_findOne trivial
    exact ((Prog.uses_perform _).2 trivial).bind fun _ => trivial

theorem ends_sendInTransaction {input : SendMessageInput} {scan : ScanResult}
    {cols : BodyColumns} (hb : checkJson scan.cleaned ≠ none) :
    Prog.Ends (alone p inputs) (fun s => Still db₀ s ∧ Blank p s)
      (sendInTransaction input scan cols)
      fun r s => Still db₀ s ∧ ∀ a, r = .ok a → Blank p s := by
  have failed : ∀ (e : Err) (s : World × Nat), Still db₀ s ∧ Blank p s →
      Still db₀ s ∧ ∀ a : Message, (Except.error e : Except Err Message) = .ok a → Blank p s :=
    fun _ _ h => ⟨h.1, fun _ he => nomatch he⟩
  refine Prog.Ends.bind (ends_looks ((Prog.uses_perform _).2 trivial)) (fun rows => ?_) failed
  cases rows.head? with
  | none => exact Prog.Ends.throw.post fun _ _ h => ⟨h.2.1, fun _ _ => h.2.2⟩
  | some conv =>
    refine Prog.Ends.bind (ends_looks (any_onlyIf trivial)) (fun _ => ?_) failed
    refine Prog.Ends.bind (ends_looks (.ite (fun _ => trivial) fun _ => trivial)) (fun _ => ?_)
      failed
    refine Prog.Ends.bind (ends_looks (any_findOne trivial)) (fun part => ?_) failed
    cases part with
    | none => exact Prog.Ends.throw.post fun _ _ h => ⟨h.2.1, fun _ _ => h.2.2⟩
    | some part =>
      refine Prog.Ends.bind (ends_looks (any_onlyIf trivial)) (fun _ => ?_) failed
      refine Prog.Ends.bind (ends_looks (uses_findExisting input)) (fun existing => ?_) failed
      cases existing with
      | some existing => exact Prog.Ends.pure.post fun _ _ h => ⟨h.2.1, fun _ _ => h.2.2⟩
      | none =>
        exact ((ends_storeMessage hb).pre fun _ h => h.1).post fun r s h =>
          ⟨h.1, fun a ha => (h.2 a ha).elim⟩

/-- The server can store the text of the body. -/
def Storable (body : Utf16) : Prop := trim body ≠ [] ∧ checkJson (cleaned body) = none

theorem uses_bodyColumns (cfg : Settings) (t : Utf16) : (bodyColumns cfg t).Uses Inert := by
  refine .ite (fun _ => ?_) fun _ => trivial
  refine Prog.Uses.bind (Prog.Uses.bind ?_ fun _ => ?_) fun _ => trivial
  · exact ((Prog.uses_perform _).2 trivial).bind fun _ => ((Prog.uses_perform _).2 trivial).bind
      fun _ => ((Prog.uses_perform _).2 trivial).bind fun _ => trivial
  · exact ((Prog.uses_perform _).2 trivial).bind fun _ => trivial

theorem uses_broadcast (b : Broadcast) : (broadcast b).Uses Inert :=
  ((Prog.uses_perform _).2 trivial).bind fun _ => .ite (fun _ => trivial) fun _ =>
    (Prog.uses_perform _).2 trivial

theorem uses_toDecrypted (m : Message) (t : Utf16) : (toDecrypted m (some t)).Uses Inert := by
  refine Prog.Uses.bind ?_ fun _ => trivial
  exact .ite (fun _ => trivial) fun _ => .ite (fun _ => trivial) fun _ => trivial

theorem ends_sendScanned {input : SendMessageInput} (cfg : Settings) {scan : ScanResult}
    (hb : checkJson scan.cleaned ≠ none) :
    Prog.Ends (alone p inputs) (Still db₀)
      (do
        let cols ← bodyColumns cfg scan.cleaned
        let message ← transaction (sendInTransaction input scan cols)
        let decrypted ← toDecrypted message (some scan.cleaned)
        publishMessageCreated decrypted
        return decrypted) fun _ => Still db₀ := by
  refine Prog.Ends.bind (ends_inert (uses_bodyColumns ..)) (fun cols => ?_) fun _ _ h => h
  refine Prog.Ends.bind (ends_transaction (ends_sendInTransaction hb)) (fun m => ?_) fun _ _ h => h
  refine Prog.Ends.bind (ends_inert (uses_toDecrypted ..)) (fun d => ?_) fun _ _ h => h
  exact Prog.Ends.bind (ends_inert (uses_broadcast _))
    (fun _ => Prog.Ends.pure.post fun _ _ h => h.2) fun _ _ h => h

/-- A send of a body that cannot be stored changes no row. -/
theorem ends_unstorable {input : SendMessageInput} (hb : ¬Storable input.body) :
    Prog.Ends (alone p inputs) (Still db₀) (send input) fun _ => Still db₀ := by
  refine Prog.Ends.bind (ends_inert ((Prog.uses_perform _).2 trivial)) (fun cfg => ?_)
    fun _ _ h => h
  by_cases he : trim input.body = []
  · refine Prog.Ends.bind (Q := fun r s => Still db₀ s ∧ ∀ a, r ≠ .ok a) ?_
      (fun a s r s' hs _ => (hs.2 a rfl).elim) fun _ _ h => h.1
    have empty : (trim input.body).isEmpty = true := by simp [he]
    simp only [onlyIf, empty]
    exact Prog.Ends.throw.post fun _ _ h => ⟨h.2, fun a ha => nomatch h.1.symm.trans ha⟩
  · refine Prog.Ends.bind (ends_inert (any_onlyIf trivial)) (fun _ => ?_) fun _ _ h => h
    refine Prog.Ends.bind (ends_inert (any_onlyIf trivial)) (fun _ => ?_) fun _ _ h => h
    exact ends_sendScanned cfg fun hj => hb ⟨he, hj⟩

end Alone

section Confidentiality

variable [AesGcm] [TokenHash]

/-- The row without the sealed text and its tag. -/
def veil (m : Message) : Message := { m with bodyCiphertext := none, bodyTag := none }

/-- The databases differ only in the sealed texts of messages and in their tags. -/
structure SameButSealed (db db' : Db) : Prop where
  messages : (db .messages).map veil = (db' .messages).map veil
  others : ∀ t, t ≠ .messages → db t = db' t

theorem SameButSealed.of_eq {db db' : Db} (h : db = db') : SameButSealed db db' :=
  h ▸ ⟨rfl, fun _ _ => rfl⟩

/-- With the encryption on, the two bodies leave the same database but for what is sealed. -/
def Confidential (body body' : Utf16) : Prop :=
  ∀ p inputs w c sender key r r' w₁ w₂, w.settings.encryptMessageBody = true →
    runAlone p inputs (send ⟨c, sender, body, key⟩) w = some (r, w₁) →
    runAlone p inputs (send ⟨c, sender, body', key⟩) w = some (r', w₂) →
    SameButSealed w₁.store.db w₂.store.db

theorem runAlone_ends {α : Type} {p : Nat} {inputs : Nat → Input} {x : App α} {w w' : World}
    {r : Except Err α} {φ : World × Nat → Prop} {Q : Except Err α → World × Nat → Prop}
    (hφ : φ (w, 0)) (hx : Prog.Ends (alone p inputs) φ x Q)
    (h : runAlone p inputs x w = some (r, w')) : ∃ n, Q r (w', n) := by
  obtain ⟨⟨r₀, s⟩, he, hs⟩ := Option.map_eq_some_iff.1 h
  cases hs
  exact ⟨s.2, hx (w, 0) r s hφ he⟩

/-- The program depends on its body by what the scanner makes of it and by its length only. -/
theorem send_congr {c sender : Nat} {body body' : Utf16} {key : Option Utf16}
    (hs : scan (trim body) = scan (trim body')) (hl : (trim body).length = (trim body').length) :
    send ⟨c, sender, body, key⟩ = send ⟨c, sender, body', key⟩ := by
  have he : (trim body).isEmpty = (trim body').isEmpty := by
    rw [Bool.eq_iff_iff, List.isEmpty_iff_length_eq_zero, List.isEmpty_iff_length_eq_zero, hl]
  have stored : ∀ s cols, sendInTransaction ⟨c, sender, body, key⟩ s cols =
      sendInTransaction ⟨c, sender, body', key⟩ s cols := fun _ _ => rfl
  simp only [send, he, hl, hs, stored]

end Confidentiality

section Example

abbrev sealedWorld : World := worldOf exampleDb { exampleSettings with encryptMessageBody := true }

abbrev sentAlone (body : Utf16) : Option (Except Err DecryptedMessage × World) :=
  runAlone 0 (fun _ => calm) (@send exampleCipher ⟨10, 2, body, none⟩) sealedWorld

/-- The texts in the events. -/
def leaked (db : Db) : List Utf16 :=
  (db .outbox).filterMap fun (e : OutboxEvent) =>
    match e.payload with
    | .created m => some m.body
    | .read _ _ _ => none

theorem leaked_sentAlone {body : Utf16} {ts : List Utf16}
    (h : (sentAlone body).map (fun r => leaked r.2.store.db) = some ts) :
    ∃ r w, sentAlone body = some (r, w) ∧ leaked w.store.db = ts := by
  obtain ⟨⟨r, w⟩, he, hl⟩ := Option.map_eq_some_iff.1 h
  exact ⟨r, w, he, hl⟩

end Example

end Messageries.Guarantees
