import Messageries.Proofs.Access

set_option linter.unusedSectionVars false

namespace Messageries.Proofs

open Text Relational Database Crypto Concurrency Backend Moderation

variable [AesGcm] [TokenHash] {db₀ : Db} {g : Nat → Op → World → Prop} {k : Call} {p : Nat}
  {φ : World → Prop}

section Upload

theorem Brings.upload {calls : Nat → Option Call} {arrived : Nat → Nat}
    {log : List (Utf16 × Bytes)} {st st' : State schema} {a : Attachment} (hn : Numbered st.db)
    (hc : State.Commits p [.insert .attachments a] st st') (ha : a.id = st.nextId)
    (hid : st'.nextId = st.nextId + 1) :
    Brings db₀ calls arrived log p [.insert .attachments a] st st' := by
  have same : ∀ t, t ≠ .attachments → st'.db t = st.db t := fun t ht => by
    rw [hc.2]
    exact Schema.Write.apply_insert_of_ne a st.db ht
  exact {
    lawful := ⟨trivial, trivial⟩
    numbered := numbered_of_eq hn (same _ nofun) (same _ nofun)
    uploads := fun a' ha' => by
      cases List.mem_singleton.1 ha'
      exact ⟨rfl, by omega, by omega⟩ }

theorem spec_presignUpload (user : AuthUser) (conversationId : Nat) (filename mimeType : Utf16)
    (sizeBytes : Int) (hφ : Persists db₀ φ) :
    Spec db₀ g k p φ (presignUpload user conversationId filename mimeType sizeBytes)
      (onOk fun _ w => φ w ∧ Accessed user conversationId w) := by
  refine Spec.refuse (fun _ => ?_) fun _ _ _ => trivial
  refine Spec.quiet_seq uses_settings hφ (fun cfg => ?_) fun _ _ _ _ => trivial
  refine Spec.refuse (fun _ => ?_) fun _ _ _ => trivial
  refine (spec_assertCanAccess user conversationId hφ).seq fun c => ?_
  have hψ : Persists db₀ fun w => φ w ∧ Accessed user conversationId w :=
    hφ.and (.accessed user conversationId)
  refine Spec.pre (φ := fun w => φ w ∧ Accessed user conversationId w) ?_ fun _ _ h => ⟨h.1, h.2.2⟩
  refine Spec.quiet_seq (uses_perform trivial) hψ (fun uuid => ?_)
    fun _ _ _ _ => trivial
  refine Spec.quiet_seq (uses_perform trivial) hψ (fun uploadUrl => ?_)
    fun _ _ _ _ => trivial
  refine Spec.quiet_seq uses_settings hψ (fun cfg => ?_) fun _ _ _ _ => trivial
  refine (Spec.insertOne (t := .attachments) (Q := fun _ _ => True) hψ nofun (fun _ => rfl)
    (fun w st' hi _ _ _ hc hid => ⟨.upload hi.db.numbered hc rfl hid, trivial⟩)
    fun _ => .const _).bind (fun att => ?_)
    fun _ _ _ _ => trivial
  exact .pure fun _ _ h => h.1

end Upload

section Download

theorem spec_getDownloadUrl (user : AuthUser) (attachmentId : Nat) (hφ : Persists db₀ φ) :
    Spec db₀ g k p φ (getDownloadUrl user attachmentId) (onOk fun _ w => φ w ∧
      ∃ a : Attachment, a.id = attachmentId ∧ Read db₀ .attachments a w ∧
        Accessed user a.conversationId w) := by
  refine (Spec.row (t := .attachments) _ hφ).toOk.seq fun o => ?_
  cases o with
  | none => exact .throw fun _ _ _ => trivial
  | some a =>
    have hψ : Persists db₀ fun w => φ w ∧ a.id = attachmentId ∧ Read db₀ .attachments a w :=
      hφ.and (.and (.const _) (.read .attachments a))
    refine Spec.pre (φ := fun w => φ w ∧ a.id = attachmentId ∧ Read db₀ .attachments a w) ?_
      fun w _ h => ⟨h.1, by simpa using (h.2 a rfl).1, (h.2 a rfl).2⟩
    refine Spec.refuse (fun _ => ?_) fun _ _ _ => trivial
    refine (spec_assertCanAccess user a.conversationId hψ).seq fun c => ?_
    have hχ := hψ.and (.accessed user a.conversationId)
    refine Spec.pre (φ := fun w => (φ w ∧ a.id = attachmentId ∧ Read db₀ .attachments a w) ∧
      Accessed user a.conversationId w) ?_ fun _ _ h => ⟨h.1, h.2.2⟩
    have presign : (perform (.presign a.objectKey)).Uses (QuietOp k) := uses_perform trivial
    exact Spec.quiet_end presign hχ fun _ _ _ h =>
      ⟨h.1.1, a, h.1.2.1, h.1.2.2, h.2⟩

end Download

end Messageries.Proofs
