import Messageries.Proofs.Deletions

set_option linter.unusedSectionVars false

namespace Messageries.Proofs

open Text Relational Database Crypto Concurrency Backend Moderation

section Rows

/-- The text columns of a message agree with its date of deletion. -/
def Shaped (m : Message) : Prop :=
  (m.deletedAt = none ∧ m.status ≠ .deleted ∧ (PlainRow m ∨ SealedRow m)) ∨
    (m.deletedAt ≠ none ∧ WipedRow m)

/-- A message keeps its text until it is wiped. -/
structure Fades (m m' : Message) : Prop where
  id : m'.id = m.id
  shaped : Shaped m → Shaped m'
  deletedAt : m.deletedAt ≠ none → m'.deletedAt ≠ none
  columns : m'.deletedAt = none → textColumns m' = textColumns m
  stays : gone m.status = true → gone m'.status = true

theorem Fades.live {m m' : Message} (h : Fades m m') (hd : m'.deletedAt = none) :
    m.deletedAt = none :=
  by_contra fun hm => h.deletedAt hm hd

theorem turns_fades : Turns Shaped Fades where
  refl _ := ⟨rfl, id, id, fun _ => rfl, id⟩
  trans h h' := ⟨h'.id.trans h.id, fun hs => h'.shaped (h.shaped hs),
    fun hd => h'.deletedAt (h.deletedAt hd), fun hd => (h'.columns hd).trans (h.columns (h'.live hd)),
    fun hg => h'.stays (h.stays hg)⟩
  keeps h := h.shaped
  id h := h.id

/-- A row whose text columns are empty. -/
theorem Fades.of_wiped {m m' : Message} (hid : m'.id = m.id) (hd : m'.deletedAt ≠ none)
    (hw : WipedRow m') (hg : gone m'.status = true) : Fades m m' :=
  ⟨hid, fun _ => .inr ⟨hd, hw⟩, fun _ => hd, fun h => (hd h).elim, fun _ => hg⟩

theorem fades_wiped (m : Message) (t : Nat) : Fades m ((wiped t).set m) :=
  .of_wiped rfl (Option.some_ne_none _) rfl rfl

theorem fades_setHidden (m : Message) (moderatorId t : Nat) :
    Fades m ((setHidden moderatorId t).set m) := by
  refine ⟨rfl, fun h => ?_, fun h => h, fun _ => rfl, fun _ => rfl⟩
  rcases h with ⟨hd, -, hs⟩ | h
  · exact .inl ⟨hd, nofun, hs⟩
  · exact .inr h

theorem changed_none {α : Type} [DecidableEq α] {stored current : Option α}
    (h : stored = none → current = none) : changed none stored current = none := by
  unfold changed
  split
  · exact h (Eq.symm ‹_›)
  · rfl

/-- The save of an erased message empties every text column: one that was empty when it was read
is so still, and the others are written. -/
theorem fades_mergeMessage {m msg stored : Message} (t : Nat) (hs : Shaped stored)
    (hf : Fades stored m) : Fades m ((mergeMessage (erased msg t) stored).set m) := by
  have empty : m.deletedAt = none → textColumns m = textColumns stored := hf.columns
  have wiped : m.deletedAt ≠ none → WipedRow m := fun hd =>
    ((hf.shaped hs).resolve_left fun h => hd h.1).2
  have column : ∀ {α : Type} (f : Message → Option α), (∀ r, WipedRow r → f r = none) →
      (∀ r r', textColumns r = textColumns r' → f r = f r') → f stored = none → f m = none := by
    intro α f hw hc hn
    by_cases hd : m.deletedAt = none
    · exact (hc _ _ (empty hd)).trans hn
    · exact hw m (wiped hd)
  have status : gone (changed .deleted stored.status m.status) = true := by
    rcases changed_cases .deleted stored.status m.status with ⟨e, hc⟩ | ⟨-, hc⟩
    · rw [hc]
      exact hf.stays (by rw [← e]; rfl)
    · rw [hc]
      rfl
  refine .of_wiped rfl ?_ ?_ status
  · change changed (some t) stored.deletedAt m.deletedAt ≠ none
    unfold changed
    split
    · rename_i e
      exact hf.deletedAt (e ▸ Option.some_ne_none t)
    · exact Option.some_ne_none t
  · simp only [WipedRow, textColumns, Prod.mk.injEq]
    refine ⟨changed_none (column Message.body ?_ ?_), changed_none (column Message.bodyCiphertext ?_ ?_),
      changed_none (column Message.bodyIv ?_ ?_), changed_none (column Message.bodyTag ?_ ?_),
      changed_none (column Message.bodyDekId ?_ ?_)⟩
    all_goals simp +contextual [WipedRow, textColumns]

end Rows

variable [AesGcm] [TokenHash] {db₀ : Db} {g : Nat → Op → World → Prop} {k : Call} {p : Nat}
  {w w' : World}

section Calls

def Deletes : Call → Prop
  | .softDelete _ _ _ => True
  | _ => False

/-- Writes that shape messages as they are: new ones with a text, wiped ones without. -/
def Shaping : Write → Prop
  | .insert .messages m => (m : Message).deletedAt = none ∧ (PlainRow m ∨ SealedRow m)
  | .update .messages _ f => (∃ t, f = wiped t) ∨ ∃ moderatorId t, f = setHidden moderatorId t
  | .delete t _ => t = .attachments
  | _ => True

def shapes : Extension := rowwise Shaped Fades Deletes Shaping

theorem keeps_shapes : shapes.Keeps db₀ := by
  refine keeps_rowwise turns_fades (fun w p m hi hm hp => ?_) (fun ks f m hf _ => ?_) nofun
  · have visible := (hi.db.sends p m hm).visible
    refine .inl ⟨hp.1, fun hd => ?_, hp.2⟩
    rw [hd] at visible
    cases visible
  · rcases hf with ⟨t, rfl⟩ | ⟨moderatorId, t, rfl⟩
    · exact fades_wiped m t
    · exact fades_setHidden m moderatorId t

theorem shapes_may (k : Call) (x : Write) (hk : ¬Deletes k) (hm : May k x) : Shaping x := by
  cases x with
  | insert t r =>
    cases t
    case messages => exact hm
    all_goals trivial
  | update t ks f =>
    cases t
    case messages =>
      cases k
      case anonymize => exact .inl hm
      case resolve => exact .inr ⟨_, hm⟩
      case softDelete => exact (hk trivial).elim
      all_goals exact hm.elim
    all_goals trivial
  | delete t ks => exact hm

theorem open_shapes : shapes.Open := ⟨fun _ _ _ => trivial, fun _ _ => trivial, fun _ => trivial⟩

theorem serves_shapes (hk : Deletes k) :
    Protocol.Valid machine g (shapes.protocol db₀) p (Start p k) (code k) fun _ _ => True := by
  cases k
  case softDelete user c messageId =>
    refine Protocol.Valid.bind (Protocol.Valid.pre (keeps_shapes.access open_shapes id id user c)
      fun w _ h => ⟨h.call, h.idle⟩) (fun _ => ?_) fun _ _ _ _ => trivial
    exact Protocol.Valid.bind ((valid_softDelete turns_fades keeps_shapes
      (fun _ _ _ _ _ _ _ => trivial) (fun hf hs => hf.stays (by rw [hs]; rfl))
      (fun msg stored m t hs hf _ => fades_mergeMessage t hs hf)
      (fun _ => trivial) user.sub rfl).pre fun _ _ h => h.1)
      (fun _ => .pure fun _ _ _ => trivial) fun _ _ _ _ => trivial
  all_goals cases hk

theorem sound_shapes (w₀ : World) :
    Protocol.Sound machine g (shapes.protocol w₀.store.db) (From w₀) Start
      fun _ k _ _ => Deletes k → True :=
  keeps_shapes.sound id shapes_may fun _ _ hk => serves_shapes hk

end Calls

end Messageries.Proofs
