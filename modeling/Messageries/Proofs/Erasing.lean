import Messageries.Proofs.Reading

set_option linter.unusedSectionVars false

namespace Messageries.Proofs

open Text Relational Database Crypto Concurrency Backend Moderation

theorem changed_cases {α : Type} [DecidableEq α] (entity stored current : α) :
    (entity = stored ∧ changed entity stored current = current) ∨
      (entity ≠ stored ∧ changed entity stored current = entity) := by
  unfold changed
  split
  · exact .inl ⟨‹_›, rfl⟩
  · exact .inr ⟨‹_›, rfl⟩

variable [AesGcm] [TokenHash] {db₀ : Db} {g : Nat → Op → World → Prop} {k : Call} {p : Nat}
  {φ : World → Prop}

section SoftDelete

/-- The save of an erased message leaves a row that is gone; it may only find
itself erased already. -/
theorem still_mergeMessage {m msg stored : Message} (t : Nat)
    (h : stored.status = .deleted → gone m.status = true) :
    Still .messages m ((mergeMessage (erased msg t) stored).set m) := by
  have status : gone (changed .deleted stored.status m.status) = true := by
    rcases changed_cases .deleted stored.status m.status with ⟨e, hc⟩ | ⟨-, hc⟩
    · rw [hc]
      exact h e.symm
    · rw [hc]
      rfl
  refine ⟨⟨rfl, rfl, rfl, rfl, rfl, rfl, fun _ => status, ?_, ?_, fun hv => ?_⟩, trivial⟩
  · rcases changed_cases none stored.body m.body with ⟨-, hc⟩ | ⟨-, hc⟩
    · exact .inr hc
    · exact .inl hc
  · rcases changed_cases none stored.bodyDekId m.bodyDekId with ⟨-, hc⟩ | ⟨-, hc⟩
    · exact .inr hc
    · exact .inl hc
  · exact Bool.noConfusion (hv.symm.trans status)

/-- The row is stored, so that its save is an update. -/
theorem spec_saveMessage {user : AuthUser} {c messageId : Nat} {m : Message}
    (hk : k = .softDelete user c messageId) (t : Nat) (hφ : Persists db₀ φ)
    (hm : ∀ w, φ w → Stored m w) :
    Spec db₀ g k p φ (saveMessage (erased m t)) (onOk fun _ => φ) := by
  have read : Spec db₀ g k p φ (findOne .pool .messages fun r => r.id == (erased m t).id)
      (ends (· = .fault) fun o w => φ w ∧ ∃ r : Message, o = some r ∧ r.id = m.id ∧ Stored r w) := by
    refine Spec.findOne (fun w hi _ hw _ => ⟨hw, ?_⟩) fun o =>
      hφ.and (.exists fun r => .and (.const _) (.and (.const _) (.stored r)))
    obtain ⟨m', hm', hl⟩ := (hm w hw).present
    cases hr : ((w.store.db .messages).filter fun r => r.id == (erased m t).id).head? with
    | none =>
      rw [List.head?_eq_none_iff, List.filter_eq_nil_iff] at hr
      exact (hr m' hm' (by simpa [erased] using hl.id)).elim
    | some r =>
      obtain ⟨hmem, hq⟩ := List.mem_filter.1 (List.mem_of_mem_head? hr)
      exact ⟨r, rfl, by simpa [erased] using hq, .of_read hi (.of_mem hi hmem)⟩
  refine read.toOk.seq fun o => ?_
  cases o with
  | none => exact .absurd fun w _ ⟨_, _, h, _⟩ => nomatch h
  | some stored =>
    have hψ : Persists db₀ fun w => φ w ∧ stored.id = m.id ∧ Stored stored w :=
      hφ.and (.and (.const _) (.stored stored))
    refine Spec.pre (φ := fun w => φ w ∧ stored.id = m.id ∧ Stored stored w) ?_
      fun w _ ⟨hw, r, hr, h⟩ => ?_
    · subst hk
      have free : Free (.softDelete user c messageId) .pool .messages := ⟨fun _ => id, nofun⟩
      have may : ∀ ks (now : Nat), May (.softDelete user c messageId)
          (.update .messages ks (mergeMessage (erased m t) stored)) :=
        fun _ _ => ⟨m, stored, t, rfl⟩
      refine (Spec.updateRows (t := .messages) hψ free may fun w hi hw r hr hq => ?_).bind
        (fun _ => .pure fun _ _ h => h.1) fun _ _ _ _ => trivial
      refine still_mergeMessage t fun hs => ?_
      obtain ⟨m', hm', hl⟩ := hw.2.2.present
      have hid : (r : Message).id = m.id := by simpa [erased] using hq
      obtain rfl : m' = r := Schema.eq_of_key (hi.ok.unique .messages) hm' hr
        (k := .id m'.id) (List.mem_cons_self ..)
        (by simp [Schema.keys, primaryKey, hid, hl.id, hw.2.1])
      exact hl.stays (by simp [gone, hs])
    · cases hr
      exact ⟨hw, h⟩

theorem spec_softDelete {user : AuthUser} {c messageId : Nat}
    (hk : k = .softDelete user c messageId) (actorId : Nat) (hφ : Persists db₀ φ) :
    Spec db₀ g k p φ (softDelete messageId actorId) (onOk fun _ w => φ w ∧
      ∃ m : Message, m.id = messageId ∧ m.senderId = actorId ∧ Stored m w) := by
  refine (Spec.row (t := .messages) _ hφ).toOk.seq fun o => ?_
  cases o with
  | none => exact .throw fun _ _ _ => trivial
  | some m =>
    have hψ : Persists db₀ fun w => φ w ∧ m.id = messageId ∧ Stored m w :=
      hφ.and (.and (.const _) (.stored m))
    refine Spec.pre (φ := fun w => φ w ∧ m.id = messageId ∧ Stored m w) ?_ fun w hi h =>
      ⟨h.1, by simpa using (h.2 m rfl).1, .of_read hi (h.2 m rfl).2⟩
    refine Spec.refuse (fun hs => ?_) fun _ _ _ => trivial
    refine Spec.quiet_seq uses_now hψ (fun t => ?_) fun _ _ _ _ => trivial
    refine (spec_saveMessage hk t hψ fun _ h => h.2.2).seq fun _ => ?_
    refine Spec.quiet_seq (uses_audit ..) hψ (fun _ => ?_) fun _ _ _ _ => trivial
    exact Spec.quiet_end (uses_broadcast _) hψ fun _ _ _ h =>
      ⟨h.1, m, h.2.1, not_not.1 hs, h.2.2⟩

end SoftDelete

end Messageries.Proofs
