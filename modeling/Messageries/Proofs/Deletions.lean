import Messageries.Proofs.Special

set_option linter.unusedSectionVars false

namespace Messageries.Proofs

open Text Relational Database Crypto Concurrency Backend Moderation

section Rows

/-- The status of a message agrees with its date of deletion. -/
def Settled (m : Message) : Prop := m.status = .deleted ↔ m.deletedAt ≠ none

instance (m : Message) : Decidable (Settled m) := inferInstanceAs (Decidable (_ ↔ _))

/-- A deleted message stays as it was deleted. -/
structure Buried (m m' : Message) : Prop where
  id : m'.id = m.id
  settled : Settled m → Settled m'
  status : m.status = .deleted → m'.status = .deleted
  deletedAt : m.status = .deleted → m'.deletedAt = m.deletedAt

theorem Buried.refl (m : Message) : Buried m m := ⟨rfl, fun h => h, fun h => h, fun _ => rfl⟩

theorem Buried.trans {m m' m'' : Message} (h : Buried m m') (h' : Buried m' m'') : Buried m m'' :=
  ⟨h'.id.trans h.id, fun hs => h'.settled (h.settled hs), fun hd => h'.status (h.status hd),
    fun hd => (h'.deletedAt (h.status hd)).trans (h.deletedAt hd)⟩

theorem Settled.wiped {m : Message} (h : Settled m) (t : Nat) : Buried m ((wiped t).set m) := by
  refine ⟨rfl, fun _ => iff_of_true rfl (Option.some_ne_none _), fun _ => rfl, fun hd => ?_⟩
  obtain ⟨t', ht⟩ := Option.ne_none_iff_exists'.1 (h.1 hd)
  simp [Backend.wiped, ht]

/-- What a message that is not deleted becomes says nothing of those that are. -/
theorem Buried.of_live {m m' : Message} (hid : m'.id = m.id) (hm : m.status ≠ .deleted)
    (h : Settled m → Settled m') : Buried m m' :=
  ⟨hid, h, fun hd => (hm hd).elim, fun hd => (hm hd).elim⟩

theorem buried_setHidden {m : Message} (hm : m.status ≠ .deleted) (moderatorId t : Nat) :
    Buried m ((setHidden moderatorId t).set m) := by
  refine .of_live rfl hm fun h => iff_of_false nofun fun hd => hm (h.2 ?_)
  exact hd

/-- The save of an erased message deletes the row, if it was not deleted when it was read. -/
theorem buried_mergeMessage {m msg stored : Message} (hm : m.status ≠ .deleted) (t : Nat)
    (hs : stored.status ≠ .deleted) (hd : stored.deletedAt = none) :
    Buried m ((mergeMessage (erased msg t) stored).set m) := by
  refine .of_live rfl hm fun _ => ?_
  have status : changed MessageStatus.deleted stored.status m.status = .deleted := if_neg hs.symm
  have deletedAt : changed (some t) stored.deletedAt m.deletedAt = some t :=
    if_neg (by simp [hd])
  simp [Settled, mergeMessage, erased, status, deletedAt]

end Rows

variable [AesGcm] [TokenHash] {db₀ : Db} {g : Nat → Op → World → Prop} {k : Call} {p : Nat}
  {w w' : World}

section Rowwise

/-- A property of messages, and how a message may change while it keeps it. -/
structure Turns (good : Message → Prop) (turn : Message → Message → Prop) : Prop where
  refl : ∀ m, turn m m
  trans : ∀ {m m' m''}, turn m m' → turn m' m'' → turn m m''
  keeps : ∀ {m m'}, turn m m' → good m → good m'
  id : ∀ {m m'}, turn m m' → m'.id = m.id

variable {good : Message → Prop} {turn : Message → Message → Prop} {special : Call → Prop}
  {plain : Write → Prop}

/-- Every message is good, and each changes by turns. -/
def rowwise (good : Message → Prop) (turn : Message → Message → Prop) (special : Call → Prop)
    (plain : Write → Prop) : Extension where
  inv w := ∀ m ∈ w.store.db .messages, good m
  guar _ w w' := ∀ m ∈ w.store.db .messages, ∃ m' ∈ w'.store.db .messages, turn m m'
  special := special
  plain := plain

theorem keeps_rowwise (ht : Turns good turn)
    (hinsert : ∀ w p m, Inv db₀ w → (p, Schema.Write.insert .messages m) ∈ w.store.wal →
      plain (.insert .messages m) → good m)
    (hupdate : ∀ ks f m, plain (.update .messages ks f) → good m → turn m (f.set m))
    (hdelete : ∀ ks, ¬plain (.delete .messages ks)) :
    (rowwise good turn special plain).Keeps db₀ where
  init := by
    intro w hw _ m hm
    rw [hw.messages] at hm
    cases hm
  plain := by
    rintro a w w' _ hi' _ ⟨⟨p, new, hc, hnew⟩, -⟩ hx
    have inserted : ∀ m, Schema.Write.insert .messages m ∈ new → good m := fun m hm =>
      hinsert w' p m hi' (hc.1 ▸ List.mem_append_right _ (List.mem_map_of_mem hm)) (hnew _ hm)
    obtain ⟨F, rows, hdb, hF, hrows⟩ := applyAll_split (t := .messages)
      (S := fun m m' => good m → turn m m') (N := good) (fun m _ => ht.refl m)
      (fun _ _ _ h h' hm => ht.trans (h hm) (h' (ht.keeps (h hm) hm)))
      (fun _ _ h hm => ht.keeps (h hm) hm) inserted (fun ks f hf m => hupdate ks f m (hnew _ hf))
      (fun ks hk => hdelete ks (hnew _ hk)) w.store.db
    rw [← hc.2] at hdb
    refine ⟨fun m hm => ?_, fun m hm => ⟨F m, ?_, hF m (hx m hm)⟩⟩
    · rw [hdb] at hm
      rcases List.mem_append.1 hm with hm | hm
      · obtain ⟨m₀, hm₀, rfl⟩ := List.mem_map.1 hm
        exact ht.keeps (hF m₀ (hx m₀ hm₀)) (hx m₀ hm₀)
      · exact hrows m hm
    · exact hdb ▸ List.mem_append_left _ (List.mem_map_of_mem hm)

/-- An update of messages, by what it makes of the rows it selects. -/
theorem rowwise_update (ht : Turns good turn) {q : Message → Bool} {f : schema.Assign .messages}
    {ks : List Key} {st' : State schema} {a : Option Nat}
    (hi : ((rowwise good turn special plain).protocol db₀).inv w)
    (hks : ks = ((w.store.db .messages).filter q).map (schema.key .messages))
    (hc : State.Commits p [.update .messages ks f] w.store st')
    (h : ∀ m ∈ w.store.db .messages, q m = true → turn m (f.set m)) :
    (rowwise good turn special plain).inv (w.withStore st') ∧
      (rowwise good turn special plain).guar a w (w.withStore st') := by
  have hdb : st'.db .messages = (w.store.db .messages).map fun m =>
      if schema.key .messages m ∈ ks then f.set m else m := by
    rw [hc.2, Schema.Write.applyAll_cons, Schema.Write.applyAll_nil, Schema.Write.apply_update]
  have turned : ∀ m ∈ w.store.db .messages,
      turn m (if schema.key .messages m ∈ ks then f.set m else m) := by
    intro m hm
    split
    · rename_i hk
      rw [hks, List.mem_map] at hk
      obtain ⟨m', hm', e⟩ := hk
      obtain ⟨hmem, hq⟩ := List.mem_filter.1 hm'
      obtain rfl : m' = m := same_message hi.1 hmem hm (Key.id.inj e)
      exact h m' hmem hq
    · exact ht.refl m
  refine ⟨fun m hm => ?_, fun m hm => ?_⟩
  · have hm : m ∈ st'.db .messages := hm
    rw [hdb] at hm
    obtain ⟨m₀, hm₀, rfl⟩ := List.mem_map.1 hm
    exact ht.keeps (turned m₀ hm₀) (hi.2 m₀ hm₀)
  · refine ⟨_, ?_, turned m hm⟩
    change _ ∈ st'.db .messages
    rw [hdb]
    exact List.mem_map_of_mem hm

/-- The message was read, and what became of it since is stored. -/
def Seen (good : Message → Prop) (turn : Message → Message → Prop) (m : Message) (w : World) : Prop :=
  good m ∧ ∃ m' ∈ w.store.db .messages, turn m m'

theorem lasts_seen (ht : Turns good turn) (m : Message) :
    (rowwise good turn special plain).Lasts db₀ (Seen good turn m) := by
  rintro a w w' - - hg ⟨hs, m', hm', hb⟩
  obtain ⟨m'', hm'', hb'⟩ := hg.2 m' hm'
  exact ⟨hs, m'', hm'', ht.trans hb hb'⟩

/-- The row of a message that was read. -/
theorem Seen.row (ht : Turns good turn) {m r : Message} (h : Seen good turn m w) (hi : Inv db₀ w)
    (hr : r ∈ w.store.db .messages) (e : r.id = m.id) : turn m r := by
  obtain ⟨-, m', hm', hb⟩ := h
  obtain rfl : m' = r := same_message hi hm' hr ((ht.id hb).trans e.symm)
  exact hb

theorem valid_seen (ht : Turns good turn) (hX : (rowwise good turn special plain).Keeps db₀)
    (messageId : Nat) :
    Protocol.Valid machine g ((rowwise good turn special plain).protocol db₀) p
      (Extension.Idle k p) (findOne .pool .messages fun m => m.id == messageId)
      fun r w => Extension.Idle k p w ∧
        onOk (fun o w => ∀ m : Message, o = some m → m.id = messageId ∧ Seen good turn m w) r w := by
  refine hX.findOne (t := .messages)
    (Q := fun (o : Option Message) w => ∀ m : Message, o = some m → m.id = messageId ∧
      Seen good turn m w) (fun w hi _ m hm => ?_)
    (fun o a w w' _ hi hi' hg h m e => ⟨(h m e).1, lasts_seen ht m a w w' hi hi' hg (h m e).2⟩)
    Extension.stable_idle
  obtain ⟨hmem, hq⟩ := List.mem_filter.1 (List.mem_of_head? hm)
  exact ⟨beq_iff_eq.1 hq, hi.2 m hmem, m, hmem, ht.refl m⟩

/-- The save of an erased message is an update of the row; `Allows` is what its guard says of the
rows it selects. -/
theorem valid_saveMessage (ht : Turns good turn) (hX : (rowwise good turn special plain).Keeps db₀)
    {Allows : Message → Prop} (hallows : ∀ w q f, g p (.query .pool (.update .messages q f)) w →
      ∀ r ∈ w.store.db .messages, q w.store.db w.clock r = true → Allows r)
    (hgone : ∀ {m m'}, turn m m' → m.status = .deleted → gone m'.status = true)
    (hmerge : ∀ msg stored m t, good stored → turn stored m → Allows m →
      turn m ((mergeMessage (erased msg t) stored).set m))
    {user : AuthUser} {c messageId : Nat} {m : Message} (t : Nat)
    (hk : k = .softDelete user c messageId) :
    Protocol.Valid machine g ((rowwise good turn special plain).protocol db₀) p
      (fun w => Extension.Idle k p w ∧ Seen good turn m w) (saveMessage (erased m t))
      (onOk fun _ => Extension.Idle k p) := by
  have found : Protocol.Valid machine g ((rowwise good turn special plain).protocol db₀) p
      (fun w => Extension.Idle k p w ∧ Seen good turn m w)
      (findOne .pool .messages fun r => r.id == (erased m t).id)
      fun r w => (Extension.Idle k p w ∧ Seen good turn m w) ∧
        onOk (fun o w => ∃ r : Message, o = some r ∧ r.id = m.id ∧ Seen good turn r w) r w := by
    refine hX.findOne (t := .messages)
      (Q := fun (o : Option Message) w => ∃ r : Message, o = some r ∧ r.id = m.id ∧
        Seen good turn r w) (fun w hi hw => ?_) (fun o => .exists fun r =>
        .and (.const _ _ _) (.and (.const _ _ _) (lasts_seen ht r).stable))
      (Extension.stable_idle.and (lasts_seen ht m).stable)
    obtain ⟨-, m', hm', hb⟩ := hw.2
    cases hr : ((w.store.db .messages).filter fun r => r.id == (erased m t).id).head? with
    | none =>
      rw [List.head?_eq_none_iff, List.filter_eq_nil_iff] at hr
      exact (hr m' hm' (by simpa [erased] using ht.id hb)).elim
    | some r =>
      obtain ⟨hmem, hq⟩ := List.mem_filter.1 (List.mem_of_mem_head? hr)
      exact ⟨r, rfl, by simpa [erased] using hq, hi.2 r hmem, r, hmem, ht.refl r⟩
  refine Protocol.Valid.bind found (fun o => ?_) fun _ _ _ _ => trivial
  have kept : ∀ w, (Extension.Idle k p w ∧ Seen good turn m w) ∧
      (∃ r : Message, o = some r ∧ r.id = m.id ∧ Seen good turn r w) →
      ∃ r : Message, (o = some r ∧ r.id = m.id) ∧ Extension.Idle k p w ∧ Seen good turn r w := by
    rintro w ⟨h, r, e, hid, hs⟩
    exact ⟨r, ⟨e, hid⟩, h.1, hs⟩
  refine Protocol.Valid.pre (Protocol.Valid.exists fun stored => Protocol.Valid.given fun same => ?_)
    fun w _ => kept w
  obtain ⟨ho, hid⟩ := same
  subst ho hk
  have free : Free (.softDelete user c messageId) .pool .messages := by
    refine ⟨fun _ => id, ?_⟩
    rintro ⟨⟩
  refine Protocol.Valid.bind (hX.updateRows (t := .messages) free
    (fun _ _ => ⟨m, stored, t, rfl⟩) (lasts_seen ht stored) (fun w hi hw r hr hq => ?_)
    fun w st' ks hi hw hg hks hc _ _ => ?_) (fun _ => .pure fun _ _ h => h.1) fun _ _ _ _ => trivial
  · have row := hw.row ht hi.1 hr (by simpa [erased, hid] using hq)
    exact still_mergeMessage t fun hs => hgone row hs
  · refine rowwise_update ht hi hks hc fun r hr hq => ?_
    have row := hw.row ht hi.1 hr (by simpa [erased, hid] using hq)
    exact hmerge m stored r t hw.1 row (hallows w _ _ hg r hr hq)

theorem valid_softDelete (ht : Turns good turn) (hX : (rowwise good turn special plain).Keeps db₀)
    {Allows : Message → Prop} (hallows : ∀ w q f, g p (.query .pool (.update .messages q f)) w →
      ∀ r ∈ w.store.db .messages, q w.store.db w.clock r = true → Allows r)
    (hgone : ∀ {m m'}, turn m m' → m.status = .deleted → gone m'.status = true)
    (hmerge : ∀ msg stored m t, good stored → turn stored m → Allows m →
      turn m ((mergeMessage (erased msg t) stored).set m))
    (haudit : ∀ r, plain (.insert .audit r)) {user : AuthUser} {c messageId : Nat} (actorId : Nat)
    (hk : k = .softDelete user c messageId) :
    Protocol.Valid machine g ((rowwise good turn special plain).protocol db₀) p
      (Extension.Idle k p) (softDelete messageId actorId) (onOk fun _ => Extension.Idle k p) := by
  refine Protocol.Valid.bind (valid_seen ht hX messageId) (fun o => ?_) fun _ _ _ _ => trivial
  cases o with
  | none => exact .throw fun _ _ _ => trivial
  | some m =>
    refine Protocol.Valid.bind (Q := onOk fun _ w => Extension.Idle k p w ∧ Seen good turn m w)
      (.ite (fun _ => .throw fun _ _ _ => trivial)
        fun _ => .pure fun w _ h => ⟨h.1, (h.2 m rfl).2⟩) (fun _ => ?_) fun _ _ _ _ => trivial
    refine Protocol.Valid.bind (hX.elsewhere ((Prog.uses_perform _).2 trivial) (lasts_seen ht m))
      (fun t => ?_) fun _ _ _ _ => trivial
    refine Protocol.Valid.bind (valid_saveMessage ht hX hallows hgone hmerge t hk) (fun _ => ?_)
      fun _ _ _ _ => trivial
    refine Protocol.Valid.bind (hX.audit haudit (fun _ h => h.1)
      Extension.stable_idle) (fun _ => ?_) fun _ _ _ _ => trivial
    have told : (publishMessageDeleted (erased m t)).Uses Local := Extension.local_broadcast _
    refine Protocol.Valid.post (Q := fun _ w => Extension.Idle k p w ∧ True)
      ((hX.elsewhere told fun _ _ _ _ _ _ h => h).pre fun _ _ h => ⟨h, trivial⟩)
      fun r _ _ h => ?_
    cases r with
    | ok a => exact h.1
    | error e => trivial

end Rowwise

section Burial

/-- The calls that delete or hide one message. -/
def Removes : Call → Prop
  | .softDelete _ _ _ => True
  | .resolve _ _ _ => True
  | _ => False

/-- No statement of the pool changes a message that is deleted already. -/
def Spares (_p : Nat) (o : Op) (w : World) : Prop :=
  match o with
  | .query .pool (.update .messages q _) =>
    ∀ m ∈ w.store.db .messages, q w.store.db w.clock m = true → (m : Message).status ≠ .deleted
  | _ => True

/-- Writes that delete messages for good, if they change them at all. -/
def Burying : Write → Prop
  | .insert .messages m => (m : Message).deletedAt = none
  | .update .messages _ f => ∃ t, f = wiped t
  | .delete t _ => t = .attachments
  | _ => True

def burial : Extension := rowwise Settled Buried Removes Burying

theorem turns_burial : Turns Settled Buried := ⟨.refl, .trans, Buried.settled, Buried.id⟩

theorem keeps_burial : burial.Keeps db₀ := by
  refine keeps_rowwise turns_burial (fun w p m hi hm hp => ?_) (fun ks f m hf hm => ?_) nofun
  · have visible := (hi.db.sends p m hm).visible
    refine iff_of_false (fun hd => ?_) fun hd => hd hp
    rw [hd] at visible
    cases visible
  · obtain ⟨t, rfl⟩ := hf
    exact hm.wiped t

theorem burial_may (k : Call) (x : Write) (hk : ¬Removes k) (hm : May k x) : Burying x := by
  cases x with
  | insert t r =>
    cases t
    case messages => exact hm.1
    all_goals trivial
  | update t ks f =>
    cases t
    case messages =>
      cases k
      case anonymize => exact hm
      case softDelete => exact (hk trivial).elim
      case resolve => exact (hk trivial).elim
      all_goals exact hm.elim
    all_goals trivial
  | delete t ks => exact hm

theorem open_burial : burial.Open := ⟨fun _ _ _ => trivial, fun _ _ => trivial, fun _ => trivial⟩

end Burial

section Calls

/-- The guard of the save of an erased message. -/
theorem spares_rows {w : World} {q : Db → Nat → Message → Bool} {f : Nat → schema.Assign .messages}
    (h : Spares p (.query .pool (.update .messages q f)) w) :
    ∀ r ∈ w.store.db .messages, q w.store.db w.clock r = true → (r : Message).status ≠ .deleted := h

theorem pooled_saveReport (entity : MessageReport) : (saveReport entity).Uses burial.Pooled := by
  refine (Extension.pooled_findOne _).bind fun r => ?_
  cases r with
  | none => exact Prog.Uses.bind (Extension.uses_pooled fun _ _ _ _ => trivial) fun _ => trivial
  | some stored => exact Prog.Uses.bind (Extension.uses_pooled fun _ _ => trivial) fun _ => trivial

theorem valid_resolve {user : AuthUser} {reportId : Nat} {action : ResolveAction}
    (hk : k = .resolve user reportId action) :
    Protocol.Valid machine Spares (burial.protocol db₀) p (Extension.Idle k p)
      (resolve reportId user.sub action) (onOk fun _ => Extension.Idle k p) := by
  have hr : ¬Rotates k := hk ▸ id
  have hs : ¬IsSend k := hk ▸ id
  have timed : Backend.now.Uses burial.Pooled := (Prog.uses_perform _).2 trivial
  refine Protocol.Valid.bind (keeps_burial.quiet hr hs (uses_findOne _)
    (Extension.pooled_findOne _)) (fun o => ?_) fun _ _ _ _ => trivial
  cases o with
  | none => exact .throw fun _ _ _ => trivial
  | some r =>
    refine Protocol.Valid.bind (keeps_burial.quiet hr hs uses_now timed) (fun t => ?_)
      fun _ _ _ _ => trivial
    refine Protocol.Valid.bind (keeps_burial.quiet hr hs (uses_saveReport hk rfl) (pooled_saveReport _))
      (fun _ => ?_) fun _ _ _ _ => trivial
    refine Protocol.Valid.bind (Q := onOk fun _ => Extension.Idle k p) (.ite (fun _ => ?_)
      fun _ => .pure fun _ _ h => h) (fun _ => ?_) fun _ _ _ _ => trivial
    · refine Protocol.Valid.bind (keeps_burial.quiet hr hs uses_now timed) (fun t => ?_)
        fun _ _ _ _ => trivial
      subst hk
      have free : Free (.resolve user reportId action) .pool .messages := ⟨fun _ => id, nofun⟩
      refine Protocol.Valid.bind ((keeps_burial.updateRows (t := .messages) (φ := fun _ => True) free
        (fun _ _ => ⟨t, rfl⟩) (fun _ _ _ _ _ _ h => h) (fun _ _ _ m _ _ => still_setHidden _ t m)
        fun w st' ks hi _ hg hks hc _ _ => ?_).pre fun _ _ h => ⟨h, trivial⟩)
        (fun _ => .pure fun _ _ h => h.1) fun _ _ _ _ => trivial
      exact rowwise_update turns_burial hi hks hc fun m hm hq => buried_setHidden (hg m hm hq) _ t
    · exact Protocol.Valid.bind (keeps_burial.audit (fun _ => trivial) (fun _ h => h.1)
        Extension.stable_idle) (fun _ => .pure fun _ _ h => h) fun _ _ _ _ => trivial

theorem serves_burial (hk : Removes k) :
    Protocol.Valid machine Spares (burial.protocol db₀) p (Start p k) (code k)
      fun _ _ => True := by
  have idle : ∀ w, Start p k w → Extension.Idle k p w := fun w h => ⟨h.call, h.idle⟩
  cases k
  case softDelete user c messageId =>
    refine Protocol.Valid.bind (Protocol.Valid.pre (keeps_burial.access open_burial id id user c)
      fun w _ h => idle w h) (fun _ => ?_) fun _ _ _ _ => trivial
    refine Protocol.Valid.bind ((valid_softDelete turns_burial keeps_burial (fun w q f => spares_rows)
      (fun hb hs => by rw [hb.status hs]; rfl) (fun msg stored m t hs hb live => ?_)
      (fun _ => trivial) user.sub rfl).pre fun _ _ h => h.1)
      (fun _ => .pure fun _ _ _ => trivial) fun _ _ _ _ => trivial
    have unread : stored.status ≠ .deleted := fun hd => live (hb.status hd)
    exact buried_mergeMessage live t unread (by_contra fun hd => unread (hs.2 hd))
  case resolve user reportId action =>
    refine Protocol.Valid.bind (Q := fun _ => Extension.Idle (.resolve user reportId action) p)
      (.ite (fun _ => .pure fun w _ h => idle w h) fun _ => .throw fun w _ h => idle w h)
      (fun _ => ?_) fun _ _ _ _ => trivial
    exact Protocol.Valid.bind (valid_resolve rfl) (fun _ => .pure fun _ _ _ => trivial)
      fun _ _ _ _ => trivial
  all_goals cases hk

theorem sound_burial (w₀ : World) :
    Protocol.Sound machine Spares (burial.protocol w₀.store.db) (From w₀) Start
      fun _ k _ _ => Removes k → True :=
  keeps_burial.sound id burial_may fun _ _ hk => serves_burial hk

end Calls

end Messageries.Proofs
