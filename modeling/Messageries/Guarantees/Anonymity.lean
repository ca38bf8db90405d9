import Messageries.Guarantees.Numbering
import Messageries.Proofs.Shapes

set_option linter.unusedSectionVars false

namespace Messageries.Guarantees

open Text Relational Database Crypto Concurrency Backend Moderation Proofs

section Rows

/-- Someone can get at the text of the row. -/
def Legible (m : Message) : Prop :=
  m.body ≠ none ∨ m.bodyCiphertext ≠ none ∧ m.bodyDekId ≠ none

/-- The row has neither a text nor the key of one. -/
def Bare (m : Message) : Prop := m.body = none ∧ m.bodyDekId = none

instance (m : Message) : Decidable (Bare m) := inferInstanceAs (Decidable (_ ∧ _))

theorem Bare.illegible {m : Message} (h : Bare m) : ¬Legible m :=
  fun hl => hl.elim (fun hb => hb h.1) fun hc => hc.2 h.2

/-- The user was anonymised. -/
def Anonymized (userId : Nat) (db : Db) : Prop :=
  ∃ u ∈ db .users, (u : User).id = userId ∧ (u : User).anonymizedAt ≠ none

instance (userId : Nat) (db : Db) : Decidable (Anonymized userId db) :=
  inferInstanceAs (Decidable (∃ u ∈ db .users, _))

variable {k : Call} {ws : List Write} {db : Db} {f : schema.Assign .messages}

theorem alters_bare (h : Alters f k) {m : Message} (hm : Bare m) : Bare (f.set m) := by
  cases k
  case softDelete =>
    obtain ⟨msg, stored, t, rfl⟩ := h
    exact ⟨changed_none fun _ => hm.1, changed_none fun _ => hm.2⟩
  case resolve =>
    obtain ⟨t, rfl⟩ := h
    exact hm
  case anonymize =>
    obtain ⟨t, rfl⟩ := h
    exact ⟨rfl, rfl⟩
  all_goals exact h.elim

theorem alters_wipes (h : Alters f k) (hk : IsAnonymize k) (m : Message) : Bare (f.set m) := by
  cases k
  case anonymize =>
    obtain ⟨t, rfl⟩ := h
    exact ⟨rfl, rfl⟩
  all_goals exact hk.elim

theorem alters_sender (h : Alters f k) (m : Message) : (f.set m : Message).senderId = m.senderId := by
  cases k
  case softDelete =>
    obtain ⟨msg, stored, t, rfl⟩ := h
    rfl
  case resolve =>
    obtain ⟨t, rfl⟩ := h
    rfl
  case anonymize =>
    obtain ⟨t, rfl⟩ := h
    rfl
  all_goals exact h.elim

/-- What the writes of a call make of a message. -/
theorem message_applyAll (hk : ∀ x ∈ ws, May k x) {m' : Message}
    (h : m' ∈ Schema.Write.applyAll ws db .messages) :
    (∃ m, Schema.Write.insert .messages m ∈ ws ∧ (m : Message).senderId = m'.senderId) ∨
    ∃ m ∈ db .messages, (m : Message).senderId = m'.senderId ∧ (Bare m → Bare m') ∧
      (IsAnonymize k →
        (∃ ks f, Schema.Write.update .messages ks f ∈ ws ∧ Key.id (m : Message).id ∈ ks) →
          Bare m') := by
  induction ws generalizing db with
  | nil => exact .inr ⟨m', h, rfl, fun hb => hb, fun _ ⟨_, _, hx, _⟩ => nomatch hx⟩
  | cons x ws ih =>
    rw [Schema.Write.applyAll_cons] at h
    rcases ih (fun y hy => hk y (List.mem_cons_of_mem _ hy)) h with ⟨m, hm, hs⟩ | ⟨m, hm, hs, hb, hw⟩
    · exact .inl ⟨m, List.mem_cons_of_mem _ hm, hs⟩
    -- where the row was before the first write
    have same : m ∈ db .messages → (∀ ks f, x ≠ .update .messages ks f) →
        ∃ m ∈ db .messages, (m : Message).senderId = m'.senderId ∧ (Bare m → Bare m') ∧
          (IsAnonymize k → (∃ ks f, Schema.Write.update .messages ks f ∈ x :: ws ∧
            Key.id (m : Message).id ∈ ks) → Bare m') := by
      refine fun hm hx => ⟨m, hm, hs, hb, fun hk ⟨ks, f, hf, hid⟩ => hw hk ⟨ks, f, ?_, hid⟩⟩
      exact (List.mem_cons.1 hf).resolve_left fun e => hx ks f e.symm
    have hx := hk x (List.mem_cons_self ..)
    cases x with
    | insert t r =>
      by_cases e : t = .messages
      · subst e
        rw [Schema.Write.apply_insert] at hm
        rcases List.mem_append.1 hm with hm | hm
        · exact .inr (same hm nofun)
        · exact .inl ⟨r, List.mem_cons_self .., List.mem_singleton.1 hm ▸ hs⟩
      · exact .inr (same (Schema.Write.apply_insert_of_ne r db (Ne.symm e) ▸ hm) nofun)
    | update t ks f =>
      by_cases e : t = .messages
      · subst e
        have alters : Alters f k := hx
        rw [Schema.Write.apply_update] at hm
        obtain ⟨m₀, hm₀, rfl⟩ := List.mem_map.1 hm
        split at hs
        · rename_i hin
          rw [if_pos hin] at hb
          exact .inr ⟨m₀, hm₀, (alters_sender alters m₀).symm.trans hs,
            fun h => hb (alters_bare alters h), fun hk _ => hb (alters_wipes alters hk m₀)⟩
        · rename_i hout
          rw [if_neg hout] at hb hw
          refine .inr ⟨m₀, hm₀, hs, hb, fun hk ⟨ks', f', hf, hid⟩ => ?_⟩
          rcases List.mem_cons.1 hf with hf | hf
          · cases hf
            exact (hout hid).elim
          · exact hw hk ⟨ks', f', hf, hid⟩
      · refine .inr (same (Schema.Write.apply_update_of_ne ks f db (Ne.symm e) ▸ hm) fun _ _ h => e ?_)
        cases h
        rfl
    | delete t ks =>
      obtain rfl : t = .attachments := hx
      have messages_ne : Table.messages ≠ .attachments := nofun
      exact .inr (same (Schema.Write.apply_delete_of_ne ks db messages_ne ▸ hm) nofun)

/-- Only `anonymizeUser` anonymises. -/
theorem anonymized_applyAll (hk : ∀ x ∈ ws, May k x) (hn : ¬IsAnonymize k) {userId : Nat}
    (h : Anonymized userId (Schema.Write.applyAll ws db)) : Anonymized userId db := by
  obtain ⟨u', hu', rfl, ha⟩ := h
  obtain ⟨F, rows, hdb, hF, hrows⟩ := applyAll_split (t := .users)
    (S := fun (u u' : User) => u'.id = u.id ∧ u'.anonymizedAt = u.anonymizedAt) (N := fun _ => False)
    (fun _ => ⟨rfl, rfl⟩) (fun _ _ _ h h' => ⟨h'.1.trans h.1, h'.2.trans h.2⟩) (fun _ _ _ h => h)
    (fun _ hr => hk _ hr) (fun ks f hf u => ⟨Key.id.inj (f.key_set u), (hk _ hf).resolve_left hn u⟩)
    (fun _ hd => nomatch hk _ hd) db
  rw [hdb] at hu'
  rcases List.mem_append.1 hu' with hu' | hu'
  · obtain ⟨u, hu, rfl⟩ := List.mem_map.1 hu'
    exact ⟨u, hu, (hF u).1.symm, (hF u).2 ▸ ha⟩
  · exact (hrows _ hu').elim

end Rows

section Anonymity

variable [AesGcm] [TokenHash] {w₀ w w' : World} {P : Run} {p u : Nat} {k : Call}

/-- Nobody who is anonymised commits a message, and the transaction that anonymises a user has
wiped all that is in the table by then. -/
def Shreds (p : Nat) (o : Op) (w : World) : Prop :=
  ∀ new, Makes p w o new →
    (∀ m, Schema.Write.insert .messages m ∈ new →
      ¬Anonymized (m : Message).senderId w.store.db) ∧
    ∀ u, ¬Anonymized u w.store.db → Anonymized u (Schema.Write.applyAll new w.store.db) →
      ∀ m ∈ w.store.db .messages, (m : Message).senderId = u → Bare m ∨
        ∃ ks f, Schema.Write.update .messages ks f ∈ new ∧ Key.id (m : Message).id ∈ ks

/-- The messages of those who are anonymised are bare. -/
def Shredded (w : World) : Prop :=
  ∀ m ∈ w.store.db .messages, Anonymized (m : Message).senderId w.store.db → Bare m

theorem Shredded.congr (h : Shredded w) (hs : w'.store.db = w.store.db) : Shredded w' := by
  unfold Shredded
  rw [hs]
  exact h

theorem Shredded.exec (h : Shredded w) {i : Input} {o : Op} {r : Except Err o.Res}
    (hx : World.exec p i o w = some (r, w')) (hg : Shreds p o w) {db₀ : Db} (hi' : Inv db₀ w')
    (hk : w'.calls p = some k) : Shredded w' := by
  obtain ⟨new, hc, hm⟩ := exec_makes hx
  obtain ⟨hsent, hwiped⟩ := hg new hm
  have logged : ∀ x ∈ new, (p, x) ∈ w'.store.wal := fun x hx =>
    hc.1 ▸ List.mem_append_right _ (List.mem_map_of_mem hx)
  have may : ∀ x ∈ new, May k x := by
    intro x hx
    obtain ⟨k', hk', hm⟩ := hi'.db.known p x (logged x hx)
    cases hk.symm.trans hk'
    exact hm
  intro m' hm' ha
  rw [hc.2] at hm' ha
  rcases message_applyAll may hm' with ⟨m, hins, hs⟩ | ⟨m, hmem, hs, hb, hw⟩
  · -- a call that sends does not anonymise
    obtain ⟨user, body, key, hsend, -⟩ := (hi'.db.sends p m (logged _ hins)).call
    cases hk.symm.trans hsend
    exact (hsent m hins (hs ▸ anonymized_applyAll may id ha)).elim
  · by_cases before : Anonymized m'.senderId w.store.db
    · exact hb (h m hmem (hs ▸ before))
    · have anonymize : IsAnonymize k := by_contra fun hn => before (anonymized_applyAll may hn ha)
      rcases hwiped m'.senderId before ha m hmem hs with hbare | hupdate
      · exact hb hbare
      · exact hw anonymize hupdate

theorem shredded_reach (h : machine.Reach (From w₀) Shreds P) : Shredded P.shared := by
  induction h with
  | init hs =>
    obtain ⟨hw, rfl⟩ := hs
    intro m hm
    rw [hw.messages] at hm
    cases hm
  | @step P P' l hP hl hst ih =>
    have hP' : machine.Reach (From w₀) Shreds P' := .step l hP hl hst
    rcases Machine.step_cases hst with ⟨p, k, s, rfl, -, hx, rfl⟩ |
      ⟨p, i, k, o, next, r, s, rfl, ht, hx, rfl⟩ | ⟨x, s, rfl, hx, rfl⟩ | ⟨p, k, o, next, rfl, -, rfl⟩
    · exact ih.congr (congrArg State.db (Extension.enter_idle hx).1)
    · exact ih.exec hx (hl p i k o next rfl ht) (reached hP')
        (call_of_thread hP' (Pool.put_self ..))
    · exact ih.congr (congrArg State.db (Extension.event_idle hx).1)
    · exact ih.congr rfl

/-- An anonymised user stays so. -/
theorem anonymized_later (h : machine.Reach (From w₀) Shreds P) {P' : Run}
    (hl : machine.Leads Shreds P P') (hu : Anonymized u P.shared.store.db) :
    Anonymized u P'.shared.store.db := by
  refine (sound Shreds w₀).leads (R := fun w w' => Anonymized u w.store.db →
    Anonymized u w'.store.db) (fun _ h => h) (fun _ _ _ h h' hu => h' (h hu)) ?_ h hl hu
  rintro a w w' - - hg ⟨r, hr, hid, ha⟩
  obtain ⟨r', hr', hlater⟩ := hg.kept .users nofun r hr
  exact ⟨r', hr', hlater.id.trans hid, hlater.anonymized ha⟩

end Anonymity

section Example

def exampleErasure : Call := .anonymize ⟨2, .customer⟩ 2

/-- The users who are anonymised, and the messages with a text. -/
def exposed (P : Run) : List Nat × List (Nat × Nat) :=
  (((P.shared.store.db .users).filter fun (u : User) => u.anonymizedAt.isSome).map fun u => u.id,
    ((P.shared.store.db .messages).filter fun (m : Message) => m.body.isSome).map fun m =>
      (m.id, m.senderId))

/-- A user sends a message, and is anonymised. -/
def sendThenErase : List (Label Input Event Call) :=
  serve 0 exampleSend 15 ++ serve 1 exampleErasure 9

def erasedSender : Ran (runFrom exampleWorld sendThenErase) exposed ([2], []) :=
  .of (by decide +kernel)

def sentAgain : Ran (runFrom exampleWorld (sendThenErase ++ serve 2 exampleSend 15)) exposed
    ([2], [(104, 2)]) :=
  .of (by decide +kernel)

/-- The writes an operation may commit. -/
def writes (p : Nat) (o : Op) (w : World) : List Write :=
  match o with
  | .commit => ((w.store.tx p).map fun tx => tx.writes).getD []
  | .query .pool s => pooled s w
  | _ => []

def shreds (p : Nat) (o : Op) (w : World) : Bool :=
  ((writes p o w).all fun
    | .insert .messages m => !decide (Anonymized (m : Message).senderId w.store.db)
    | _ => true) &&
  (Schema.Write.applyAll (writes p o w) w.store.db .users).all fun (u : User) =>
    u.anonymizedAt.isNone || decide (Anonymized u.id w.store.db) ||
      (w.store.db .messages).all fun (m : Message) => m.senderId != u.id || decide (Bare m) ||
        (writes p o w).any fun
          | .update .messages ks _ => ks.contains (.id m.id)
          | _ => false

theorem shreds_writes {p : Nat} {o : Op} {w : World} (h : shreds p o w = true) :
    (∀ m, Schema.Write.insert .messages m ∈ writes p o w →
      ¬Anonymized (m : Message).senderId w.store.db) ∧
    ∀ u, ¬Anonymized u w.store.db → Anonymized u (Schema.Write.applyAll (writes p o w) w.store.db) →
      ∀ m ∈ w.store.db .messages, (m : Message).senderId = u → Bare m ∨
        ∃ ks f, Schema.Write.update .messages ks f ∈ writes p o w ∧ Key.id (m : Message).id ∈ ks := by
  obtain ⟨hsent, hwiped⟩ := Bool.and_eq_true_iff.1 h
  refine ⟨fun m hm => ?_, fun u before hu m hm hs => ?_⟩
  · simpa using List.all_eq_true.1 hsent _ hm
  · obtain ⟨r, hr, rfl, ha⟩ := hu
    have row := List.all_eq_true.1 hwiped r hr
    simp only [Bool.or_eq_true, Option.isNone_iff_eq_none, decide_eq_true_eq, ha, before, false_or,
      List.all_eq_true] at row
    rcases row m hm with (hne | hb) | hany
    · simp [hs] at hne
    · exact .inl hb
    · obtain ⟨x, hx, hk⟩ := List.any_eq_true.1 hany
      split at hk
      · exact .inr ⟨_, _, hx, List.contains_iff_mem.1 hk⟩
      · cases hk

theorem shreds_sound (p : Nat) (o : Op) (w : World) (h : shreds p o w = true) : Shreds p o w := by
  intro new hm
  cases hm with
  | nothing =>
    refine ⟨fun _ hx => (List.not_mem_nil hx).elim, fun u before hu => ?_⟩
    rw [Schema.Write.applyAll_nil] at hu
    exact (before hu).elim
  | commit ht _ =>
    have whole := shreds_writes h
    simp only [writes, ht, Option.map_some, Option.getD_some] at whole
    exact whole
  | query s => exact shreds_writes h
  | remove t q ks =>
    refine ⟨fun m hx => (nomatch List.mem_singleton.1 hx), fun u before hu => (before ?_).elim⟩
    obtain ⟨r, hr, hid, ha⟩ := hu
    by_cases e : t = .users
    · subst e
      rw [Schema.Write.applyAll_cons, Schema.Write.applyAll_nil, Schema.Write.apply_delete] at hr
      exact ⟨r, (List.mem_filter.1 hr).1, hid, ha⟩
    · exact ⟨r, Schema.Write.apply_delete_of_ne ks w.store.db (Ne.symm e) ▸ hr, hid, ha⟩

/-- The user had sent a message, and is anonymised; another goes on writing. -/
def eraseThenOthers : List (Label Input Event Call) :=
  serve 2 (.send ⟨3, .seller⟩ 10 (text "b") none) 15

def erasedQuietly : Ran (passFrom shreds exampleWorld sendThenErase) exposed ([2], []) :=
  .of (by decide +kernel)

def othersSent : Ran (passFrom shreds exampleWorld (sendThenErase ++ eraseThenOthers)) exposed
    ([2], [(104, 3)]) :=
  .of (by decide +kernel)

end Example

end Messageries.Guarantees
