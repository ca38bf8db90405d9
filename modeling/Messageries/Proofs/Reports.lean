import Messageries.Proofs.Special

set_option linter.unusedSectionVars false

namespace Messageries.Proofs

open Text Relational Database Crypto Concurrency Backend Moderation

section Rows

variable {k : Call} {ws : List Write} {db : Db}

/-- A message that readers no longer get to see. -/
def Gone (db : Db) (messageId : Nat) : Prop :=
  ∃ m ∈ db .messages, (m : Message).id = messageId ∧ gone (m : Message).status = true

/-- A report of the message was acted on. -/
def ActedOn (db : Db) (messageId : Nat) : Prop :=
  ∃ r ∈ db .reports, (r : MessageReport).messageId = messageId ∧
    (r : MessageReport).status = .actioned

/-- Reports and messages agree. -/
structure Agree (db : Db) : Prop where
  upheld : ∀ r ∈ db .reports, (r : MessageReport).status = .actioned →
    Gone db (r : MessageReport).messageId
  grounded : ∀ m ∈ db .messages, (m : Message).status = .hidden → ActedOn db (m : Message).id

theorem Agree.congr {db' : Db} (h : Agree db) (hr : db' .reports = db .reports)
    (hm : db' .messages = db .messages) : Agree db' := by
  obtain ⟨hu, hg⟩ := h
  unfold Gone at hu
  unfold ActedOn at hg
  rw [← hr, ← hm] at hu
  rw [← hr, ← hm] at hg
  exact ⟨hu, hg⟩

/-- The report after a decision; it never opens again. -/
theorem decides_report {f : schema.Assign .reports} (h : Decides f k) (r : MessageReport) :
    (f.set r : MessageReport).messageId = r.messageId ∧
      (r.status ≠ .opened → (f.set r : MessageReport).status ≠ .opened) := by
  cases k
  case resolve user id action =>
    obtain ⟨entity, stored, hs, rfl⟩ := h
    refine ⟨rfl, fun hr => ?_⟩
    change changed entity.status stored.status r.status ≠ .opened
    unfold changed
    split
    · exact hr
    · rw [hs]
      cases action <;> nofun
  all_goals exact h.elim

/-- Whoever does not resolve a report leaves the status of a message, or deletes it. -/
theorem alters_status {f : schema.Assign .messages} (h : Alters f k) (hk : ¬IsResolve k)
    (m : Message) :
    (f.set m : Message).status = m.status ∨ (f.set m : Message).status = .deleted := by
  cases k
  case softDelete =>
    obtain ⟨msg, stored, t, rfl⟩ := h
    change changed .deleted stored.status m.status = _ ∨ changed .deleted stored.status m.status = _
    unfold changed
    split
    · exact .inl rfl
    · exact .inr rfl
  case resolve => exact (hk trivial).elim
  case anonymize =>
    obtain ⟨t, rfl⟩ := h
    exact .inr rfl
  all_goals exact h.elim

theorem message_id (f : schema.Assign .messages) (m : Message) :
    (f.set m : Message).id = m.id := Key.id.inj (f.key_set m)

theorem report_id (f : schema.Assign .reports) (r : MessageReport) :
    (f.set r : MessageReport).id = r.id := Key.id.inj (f.key_set r)

/-- Each report stays, and is not opened again. -/
theorem settled_applyAll (hk : ∀ x ∈ ws, May k x) {r : MessageReport} (hr : r ∈ db .reports)
    (hs : r.status ≠ .opened) :
    ∃ r' ∈ Schema.Write.applyAll ws db .reports, (r' : MessageReport).id = r.id ∧
      (r' : MessageReport).status ≠ .opened := by
  obtain ⟨F, rows, hdb, hF, -⟩ := applyAll_split (t := .reports)
    (S := fun (r r' : MessageReport) => r'.id = r.id ∧ (r.status ≠ .opened → r'.status ≠ .opened))
    (N := fun _ => True) (fun _ => ⟨rfl, id⟩)
    (fun _ _ _ h h' => ⟨h'.1.trans h.1, fun hs => h'.2 (h.2 hs)⟩) (fun _ _ _ _ => trivial) (fun _ _ => trivial)
    (fun _ f hf r => ⟨report_id f r, (decides_report (hk _ hf) r).2⟩) (fun _ hd => nomatch hk _ hd) db
  exact ⟨F r, hdb ▸ List.mem_append_left _ (List.mem_map_of_mem hr), (hF r).1, (hF r).2 hs⟩

/-- Whoever does not resolve reports keeps the agreement. -/
theorem Agree.applyAll (h : Agree db) (hk : ∀ x ∈ ws, May k x) (hn : ¬IsResolve k)
    (hsent : ∀ m, Schema.Write.insert .messages m ∈ ws → (m : Message).status ≠ .hidden) :
    Agree (Schema.Write.applyAll ws db) := by
  obtain ⟨F, rows, hr, hF, hrows⟩ := applyAll_split (t := .reports)
    (S := fun (r r' : MessageReport) => r' = r) (N := fun (r : MessageReport) => r.status = .opened)
    (fun _ => rfl) (fun _ _ _ h h' => h'.trans h) (fun _ _ h hr => h ▸ hr)
    (fun _ hx => (hk _ hx).resolve_left hn) (fun _ f hf _ => by
      have hd : Decides f k := hk _ hf
      cases k <;> first | exact hd.elim | exact (hn trivial).elim)
    (fun _ hd => nomatch hk _ hd) db
  obtain ⟨G, new, hm, hG, hnew⟩ := applyAll_split (t := .messages)
    (S := fun (m m' : Message) => m'.id = m.id ∧ (m'.status = m.status ∨ m'.status = .deleted))
    (N := fun (m : Message) => m.status ≠ .hidden) (fun _ => ⟨rfl, .inl rfl⟩)
    (fun _ _ _ h h' => ⟨h'.1.trans h.1, h'.2.elim (fun e => h.2.imp e.trans e.trans) .inr⟩)
    (fun _ _ h hm => by rcases h.2 with e | e <;> rw [e] <;> first | exact hm | nofun) hsent
    (fun _ f hf m => ⟨message_id f m, alters_status (hk _ hf) hn m⟩) (fun _ hd => nomatch hk _ hd) db
  have kept : db .reports = (db .reports).map F := by simp [funext hF]
  refine ⟨fun r hmem ha => ?_, fun m hmem hh => ?_⟩
  · rw [hr] at hmem
    rcases List.mem_append.1 hmem with hmem | hmem
    · obtain ⟨m, hm₀, hid, hg⟩ := h.upheld r (kept ▸ hmem) ha
      refine ⟨G m, hm ▸ List.mem_append_left _ (List.mem_map_of_mem hm₀), (hG m).1.trans hid, ?_⟩
      rcases (hG m).2 with e | e <;> rw [e]
      · exact hg
      · rfl
    · cases ha.symm.trans (hrows r hmem)
  · rw [hm] at hmem
    rcases List.mem_append.1 hmem with hmem | hmem
    · obtain ⟨m₀, hm₀, rfl⟩ := List.mem_map.1 hmem
      rcases (hG m₀).2 with e | e
      · obtain ⟨r, hr₀, hid, ha⟩ := h.grounded m₀ hm₀ (e ▸ hh)
        exact ⟨r, hr ▸ List.mem_append_left _ (kept ▸ hr₀), hid.trans (hG m₀).1.symm, ha⟩
      · cases hh.symm.trans e
    · exact (hnew m hmem hh).elim

end Rows

section Resolve

/-- What a decision makes of reports and messages: it acts on a report of a message that is gone,
leaves a hidden message another report that was acted on, and hides what was reported so. -/
def Faithful (db : Db) : Write → Prop
  | .insert .reports r => (r : MessageReport).status = .actioned →
      Gone db (r : MessageReport).messageId
  | .update .reports ks f => ∀ r ∈ db .reports, Key.id (r : MessageReport).id ∈ ks →
      ((f.set r : MessageReport).status = .actioned → Gone db (r : MessageReport).messageId) ∧
      ((r : MessageReport).status = .actioned → (f.set r : MessageReport).status ≠ .actioned →
        (∃ m ∈ db .messages, (m : Message).id = (r : MessageReport).messageId ∧
          (m : Message).status = .hidden) →
        ∃ r' ∈ db .reports, Key.id (r' : MessageReport).id ∉ ks ∧
          (r' : MessageReport).messageId = (r : MessageReport).messageId ∧
          (r' : MessageReport).status = .actioned)
  | .update .messages ks f => ∀ m ∈ db .messages, Key.id (m : Message).id ∈ ks →
      (m : Message).status ≠ .hidden → (f.set m : Message).status = .hidden →
        ActedOn db (m : Message).id
  | _ => True

variable {k : Call} {db : Db}

theorem Agree.decided (h : Agree db) {ks : List Key} {f : schema.Assign .reports}
    (hk : Decides f k) (hf : Faithful db (.update .reports ks f)) :
    Agree ((Schema.Write.update .reports ks f).apply db) := by
  have messages : (Schema.Write.update .reports ks f).apply db .messages = db .messages :=
    Schema.Write.apply_update_of_ne ks f db nofun
  have gone : ∀ {id}, Gone db id → Gone ((Schema.Write.update .reports ks f).apply db) id :=
    fun hg => by rwa [Gone, messages]
  refine ⟨fun r' hr' ha => ?_, fun m hm hh => ?_⟩
  · rw [Schema.Write.apply_update] at hr'
    obtain ⟨r, hr, rfl⟩ := List.mem_map.1 hr'
    split at ha
    · rename_i hin
      rw [if_pos hin, (decides_report hk r).1]
      exact gone ((hf r hr hin).1 ha)
    · rename_i hout
      rw [if_neg hout]
      exact gone (h.upheld r hr ha)
  · rw [messages] at hm
    obtain ⟨r, hr, hid, ha⟩ := h.grounded m hm hh
    have stays : ∀ r ∈ db .reports, Key.id (r : MessageReport).id ∉ ks →
        r ∈ (Schema.Write.update .reports ks f).apply db .reports := fun r hr hout => by
      rw [Schema.Write.apply_update]
      exact List.mem_map.2 ⟨r, hr, if_neg hout⟩
    by_cases hin : Key.id (r : MessageReport).id ∈ ks
    · by_cases hact : (f.set r : MessageReport).status = .actioned
      · refine ⟨f.set r, ?_, (decides_report hk r).1.trans hid, hact⟩
        rw [Schema.Write.apply_update]
        exact List.mem_map.2 ⟨r, hr, if_pos hin⟩
      · obtain ⟨r', hr', hout, hid', ha'⟩ := (hf r hr hin).2 ha hact ⟨m, hm, hid.symm, hh⟩
        exact ⟨r', stays r' hr' hout, hid'.trans hid, ha'⟩
    · exact ⟨r, stays r hr hin, hid, ha⟩

theorem Agree.hidden (h : Agree db) {ks : List Key} {moderatorId t : Nat}
    (hf : Faithful db (.update .messages ks (setHidden moderatorId t))) :
    Agree ((Schema.Write.update .messages ks (setHidden moderatorId t)).apply db) := by
  have reports : (Schema.Write.update .messages ks (setHidden moderatorId t)).apply db .reports =
      db .reports := Schema.Write.apply_update_of_ne ks _ db nofun
  refine ⟨fun r hr ha => ?_, fun m' hm' hh => ?_⟩
  · rw [reports] at hr
    obtain ⟨m, hm, hid, hg⟩ := h.upheld r hr ha
    rw [Gone, Schema.Write.apply_update]
    refine ⟨_, List.mem_map_of_mem hm, ?_⟩
    split
    · exact ⟨hid, rfl⟩
    · exact ⟨hid, hg⟩
  · have acted : ∀ {id}, ActedOn db id →
        ActedOn ((Schema.Write.update .messages ks (setHidden moderatorId t)).apply db) id :=
      fun ha => by rwa [ActedOn, reports]
    rw [Schema.Write.apply_update] at hm'
    obtain ⟨m, hm, rfl⟩ := List.mem_map.1 hm'
    by_cases hin : schema.key .messages m ∈ ks
    · rw [if_pos hin]
      refine acted ?_
      by_cases was : (m : Message).status = .hidden
      · exact h.grounded m hm was
      · exact hf m hm hin was rfl
    · rw [if_neg hin] at hh ⊢
      exact acted (h.grounded m hm hh)

/-- New reports, and rows of other tables. -/
theorem Agree.inserts {t : Table} {rows : List t.Row} (h : Agree db) (ht : t ≠ .messages)
    (hf : ∀ r ∈ rows, Faithful db (.insert t r)) :
    Agree (Schema.Write.applyAll (rows.map (.insert t)) db) := by
  have messages : Schema.Write.applyAll (rows.map (.insert t)) db .messages = db .messages :=
    Schema.applyAll_inserts_of_ne rows db ht.symm
  by_cases e : t = .reports
  · subst e
    have reports : Schema.Write.applyAll (rows.map (.insert .reports)) db .reports =
        db .reports ++ rows := Schema.applyAll_inserts .reports rows db
    refine ⟨fun r hr ha => ?_, fun m hm hh => ?_⟩
    · rw [reports] at hr
      have gone : Gone db (r : MessageReport).messageId :=
        (List.mem_append.1 hr).elim (fun hr => h.upheld r hr ha) fun hr => hf r hr ha
      rwa [Gone, messages]
    · rw [messages] at hm
      obtain ⟨r, hr, hid, ha⟩ := h.grounded m hm hh
      exact ⟨r, reports ▸ List.mem_append_left _ hr, hid, ha⟩
  · exact h.congr (Schema.applyAll_inserts_of_ne rows db (Ne.symm e)) messages

end Resolve

variable [AesGcm] [TokenHash]

section Calls

theorem lone_findOne {t : Table} (q : t.Row → Bool) :
    (findOne .pool t q).Uses Extension.Lone :=
  Prog.Uses.bind ((Prog.uses_perform _).2 trivial) fun _ => trivial

theorem lone_saveReport (entity : MessageReport) : (saveReport entity).Uses Extension.Lone := by
  refine (lone_findOne _).bind fun r => ?_
  cases r with
  | none => exact Prog.Uses.bind ((Prog.uses_perform _).2 trivial) fun _ => trivial
  | some stored => exact Prog.Uses.bind ((Prog.uses_perform _).2 trivial) fun _ => trivial

/-- A decision uses no transaction. -/
theorem lone_resolve (k : Call) : (code k).Uses fun o => IsResolve k → Extension.Lone o := by
  by_cases hk : IsResolve k
  · refine Prog.Uses.mono (P := Extension.Lone) (fun o ho _ => ho) ?_
    cases k
    case resolve user reportId action =>
      refine Prog.Uses.bind (.ite (fun _ => trivial) fun _ => trivial) fun _ => ?_
      refine Prog.Uses.bind ((lone_findOne _).bind fun r => ?_) fun _ => trivial
      cases r with
      | none => trivial
      | some r =>
        refine Prog.Uses.bind ((Prog.uses_perform _).2 trivial) fun t =>
          (lone_saveReport _).bind fun _ => Prog.Uses.bind (.ite (fun _ => ?_) fun _ => trivial)
            fun _ => (Extension.lone_audit ..).bind fun _ => trivial
        exact Prog.Uses.bind ((Prog.uses_perform _).2 trivial) fun t =>
          Prog.Uses.bind ((Prog.uses_perform _).2 trivial) fun _ => trivial
    all_goals exact hk.elim
  · exact (Prog.uses_true _).mono fun _ _ h => (hk h).elim

end Calls

end Messageries.Proofs
