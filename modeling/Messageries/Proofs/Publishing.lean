import Messageries.Proofs.Worker

set_option linter.unusedSectionVars false

namespace Messageries.Proofs

open Text Relational Database Crypto Concurrency Backend

variable [AesGcm] [TokenHash]

section Steps

variable {P P' : Pool Op Op.Res Err World Call Response}

/-- A step tells no other server anything, or a process is at the operation that does. -/
theorem step_feeds {l : Label Input Event Call} (hst : machine.step l P = some P') :
    SameFeed P.shared P'.shared ∨ ∃ p i k o next r, P.threads p = some ⟨k, some (.op o next)⟩ ∧
      World.exec p i o P.shared = some (r, P'.shared) := by
  rcases Machine.step_cases hst with ⟨p, k, s, rfl, -, hx, rfl⟩ |
    ⟨p, i, k, o, next, r, s, rfl, ht, hx, rfl⟩ | ⟨x, s, rfl, hx, rfl⟩ | ⟨p, k, o, next, rfl, -, rfl⟩
  · exact .inl (Extension.enter_idle hx).2
  · exact .inr ⟨p, i, k, o, next, r, ht, hx⟩
  · exact .inl (Extension.event_idle hx).2
  · exact .inl ⟨rfl, rfl, rfl, rfl⟩

end Steps

section Stream

variable {strict : Prop} {g : Nat → Op → World → Prop} {w₀ : World}
  {P P' : Pool Op Op.Res Err World Call Response}

/-- A step leaves the stream as it is, or a worker puts at its end what it offers. -/
theorem step_published (h : machine.Reach (From w₀) g P) (hg : Enabled strict g)
    {l : Label Input Event Call}
    (hl : ∀ p i k o next, l = .exec p i → P.threads p = some ⟨k, some (.op o next)⟩ →
      g p o P.shared)
    (hst : machine.step l P = some P') : P'.shared.stream = P.shared.stream ∨
      ∃ p t m e, g p (.publish t m e) P.shared ∧ Offers strict p (.publish t m e) P.shared ∧
        P'.shared.stream = P.shared.stream ++ [⟨t, m, e, P.shared.clock⟩] := by
  rcases Machine.step_cases hst with ⟨p, k, s, rfl, -, hx, rfl⟩ |
    ⟨p, i, k, o, next, r, s, rfl, ht, hx, rfl⟩ | ⟨x, s, rfl, hx, rfl⟩ | ⟨p, k, o, next, rfl, -, rfl⟩
  · exact .inl (Extension.enter_idle hx).2.stream
  · have guar := Protocol.Sound.exec ((sound g w₀).holds h) ht (hl p i k o next rfl ht) hx
    rcases guar.worker with ⟨same, -⟩ | ⟨q, k', hq, hk, hb⟩
    · exact .inl same
    cases hq
    cases (call_of_thread h ht).symm.trans hk
    rcases exec_published hx with same | ⟨t, m, e, rfl, put⟩
    · exact .inl same
    · exact .inr ⟨p, t, m, e, hl p i k _ next rfl ht, (busy_reach h hg ht hb).2, put⟩
  · exact .inl (Extension.event_idle hx).2.stream
  · exact .inl rfl

theorem stream_grows (h : machine.Reach (From w₀) g P) {l : Label Input Event Call}
    (hl : ∀ p i k o next, l = .exec p i → P.threads p = some ⟨k, some (.op o next)⟩ →
      g p o P.shared)
    (hst : machine.step l P = some P') : P.shared.stream <+: P'.shared.stream := by
  rcases step_published h .lax hl hst with same | ⟨_, _, _, _, -, -, put⟩
  · exact same ▸ List.prefix_rfl
  · exact put ▸ List.prefix_append _ _

/-- The message of the stream is this event. -/
structure Carries (e : OutboxEvent) (x : Published) : Prop where
  id : e.id = x.msgId
  type : e.eventType = x.type
  payload : e.payload = x.payload

/-- What is in the stream is in the outbox. -/
theorem carried_reach (h : machine.Reach (From w₀) g P) :
    ∀ x ∈ P.shared.stream, ∃ e ∈ P.shared.store.db .outbox, Carries e x := by
  induction h with
  | init hw =>
    obtain ⟨hw, rfl⟩ := hw
    intro x hx
    rw [hw.stream] at hx
    cases hx
  | @step P P' l hP hl hst ih =>
    obtain ⟨a, guar⟩ := ((sound g w₀).step ((sound g w₀).holds hP) hl hst).2
    -- an event stays in the outbox
    have kept : ∀ {e : OutboxEvent} {x}, e ∈ P.shared.store.db .outbox → Carries e x →
        ∃ e ∈ P'.shared.store.db .outbox, Carries e x := fun he hx => by
      obtain ⟨e', he', hid, ht, hp⟩ := guar.kept .outbox (by decide) _ he
      exact ⟨e', he', hid.trans hx.id, ht.trans hx.type, hp.trans hx.payload⟩
    rcases step_published hP .lax hl hst with same |
      ⟨p, t, m, e, -, ⟨⟨row, hrow, hid, ht, hm⟩, -⟩, put⟩
    · intro x hx
      obtain ⟨e, he, hc⟩ := ih x (same ▸ hx)
      exact kept he hc
    · intro x hx
      rw [put] at hx
      rcases List.mem_append.1 hx with hx | hx
      · obtain ⟨e, he, hc⟩ := ih x hx
        exact kept he hc
      · cases List.mem_singleton.1 hx
        exact kept hrow ⟨hid, ht, hm⟩

/-- JetStream has what is processed. -/
theorem accepted_reach (h : machine.Reach (From w₀) g P) (hg : Enabled True g) {e : OutboxEvent}
    (he : e ∈ P.shared.store.db .outbox) (hp : e.processedAt ≠ none) : Accepted e.id P.shared :=
  (((worked_reach h hg).told e he).done hp).2 trivial

end Stream

end Messageries.Proofs
