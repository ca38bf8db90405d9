import Messageries.Proofs.Invariant

set_option linter.unusedSectionVars false

namespace Messageries.Proofs

open Text Relational Database Crypto Concurrency Backend

variable [AesGcm] [TokenHash]

section Quiet

/-- A later row that keeps the counter of its conversation. -/
def Still (t : Table) (r r' : t.Row) : Prop :=
  Later t r r' ∧
    match t, r, r' with
    | .conversations, (c : Conversation), (c' : Conversation) => c'.lastSequence = c.lastSequence
    | _, _, _ => True

/-- The tables that no transaction writes to. -/
def ofPool : Table → Bool
  | .refreshTokens | .emails => true
  | _ => false

/-- Where the call may write without a proof of its own. -/
def Free (k : Call) (c : Conn) (t : Table) : Prop :=
  (ofSend t = true → ¬IsSend k) ∧ (ofPool t = true → c = .pool ∧ (t = .refreshTokens → ¬Rotates k))

/-- The rows any such call may insert. -/
def Insertable : (t : Table) → t.Row → Prop
  | .outbox, (e : OutboxEvent) => ReadEvent e
  | .audit, _ => True
  | .reports, _ => True
  | .emails, _ => True
  | .keyPackages, _ => True
  | .groups, _ => True
  | .mlsMessages, _ => True
  | .refreshTokens, (r : RefreshToken) => r.parentId = none
  | _, _ => False

/-- What the invariant asks of any such write. -/
def Bland (k : Call) (c : Conn) : Write → Prop
  | .insert t r => (Free k c t ∧ May k (.insert t r)) ∧ Insertable t r
  | .update t ks f => Free k c t ∧ May k (.update t ks f)
  | .delete t _ => t = .attachments

/-- The write leaves the numbers of the messages alone. -/
def Calm (db : Db) : Write → Prop
  | .insert t _ => t ≠ .messages ∧ t ≠ .conversations
  | .update t ks f => ∀ r ∈ db t, schema.key t r ∈ ks → Still t r (f.set r)
  | .delete t _ => t = .attachments

/-- The writes that number no message, open no conversation and replace no token. -/
def Quiet (k : Call) (c : Conn) : Write → Prop
  | .insert t r => (Free k c t ∧ May k (.insert t r)) ∧ Insertable t r
  | .update t ks f => (Free k c t ∧ May k (.update t ks f)) ∧ ∀ r, Still t r (f.set r)
  | .delete t _ => t = .attachments

variable {k : Call} {c : Conn} {w : Write} {db : Db}

theorem Quiet.bland (h : Quiet k c w) : Bland k c w := by
  cases w with
  | insert t r => exact h
  | update t ks f => exact h.1
  | delete t ks => exact h

theorem Quiet.calm (h : Quiet k c w) (db : Db) : Calm db w := by
  cases w with
  | insert t r =>
    constructor
    all_goals
      rintro rfl
      exact h.2
  | update t ks f => exact fun r _ _ => h.2 r
  | delete t ks => exact h

theorem Bland.free (h : Bland k c w) : Free k c (writesTo w) := by
  cases w with
  | insert t r => exact h.1.1
  | update t ks f => exact h.1
  | delete t ks =>
    obtain rfl := h
    exact ⟨nofun, nofun⟩

theorem Bland.may (h : Bland k c w) : May k w := by
  cases w with
  | insert t r => exact h.1.2
  | update t ks f => exact h.2
  | delete t ks => exact h

theorem Calm.lawful (h : Calm db w) : Lawful db w := by
  cases w with
  | insert t r => trivial
  | update t ks f => exact fun r hr hk => (h r hr hk).1
  | delete t ks => exact h

theorem Calm.sequences_apply (h : Calm db w) (n : Nat) :
    sequences (w.apply db) n = sequences db n := by
  have apart : (w.apply db) .messages = db .messages → sequences (w.apply db) n = sequences db n :=
    fun e => by rw [sequences, e, sequences]
  cases w with
  | insert t r => exact apart (Schema.Write.apply_insert_of_ne _ _ h.1.symm)
  | update t ks f =>
    by_cases e : t = .messages
    · subst e
      have still : ∀ m : Message, m ∈ db .messages → ∀ m' : Message,
          m' = (if schema.key .messages m ∈ ks then f.set m else m) →
          m'.conversationId = m.conversationId ∧ m'.sequence = m.sequence := by
        rintro m hm m' rfl
        split
        · have hl : MessageLater m (f.set m) := (h m hm ‹_›).1
          exact ⟨hl.conversationId, hl.sequence⟩
        · exact ⟨rfl, rfl⟩
      simp only [sequences, Schema.Write.apply_update]
      generalize db .messages = ms at still
      induction ms with
      | nil => rfl
      | cons m ms ih =>
        obtain ⟨hc, hs⟩ := still m (List.mem_cons_self ..) _ rfl
        have rest := ih fun m' hm' => still m' (List.mem_cons_of_mem _ hm')
        simp only [List.map_cons, List.filter_cons, hc]
        split
        · simp only [List.map_cons, hs]
          exact congrArg (_ :: ·) rest
        · exact rest
    · exact apart (Schema.Write.apply_update_of_ne _ _ _ (Ne.symm e))
  | delete t ks =>
    obtain rfl := h
    exact apart (Schema.Write.apply_delete_of_ne _ _ (by decide))

/-- Each conversation comes from one with the same name and the same counter. -/
theorem Calm.conversation (h : Calm db w) {r' : Conversation}
    (hc : r' ∈ w.apply db .conversations) :
    ∃ r ∈ db .conversations, r'.id = (r : Conversation).id ∧
      r'.lastSequence = (r : Conversation).lastSequence := by
  cases w with
  | insert t r =>
    rw [Schema.Write.apply_insert_of_ne _ _ h.2.symm] at hc
    exact ⟨r', hc, rfl, rfl⟩
  | update t ks f =>
    by_cases e : t = .conversations
    · subst e
      rw [Schema.Write.apply_update] at hc
      obtain ⟨r, hmem, rfl⟩ := List.mem_map.1 hc
      refine ⟨r, hmem, ?_⟩
      split
      · exact ⟨(h r hmem ‹_›).1.id, (h r hmem ‹_›).2⟩
      · exact ⟨rfl, rfl⟩
    · rw [Schema.Write.apply_update_of_ne _ _ _ (Ne.symm e)] at hc
      exact ⟨r', hc, rfl, rfl⟩
  | delete t ks =>
    obtain rfl := h
    have e : Table.conversations ≠ .attachments := nofun
    rw [Schema.Write.apply_delete_of_ne _ _ e] at hc
    exact ⟨r', hc, rfl, rfl⟩

theorem Calm.numbered (h : Calm db w) (hn : Numbered db) : Numbered (w.apply db) := by
  intro r' hr'
  obtain ⟨r, hr, hid, hl⟩ := h.conversation hr'
  rw [h.sequences_apply, hid, hl]
  exact hn r hr

theorem numbered_quiet {ws : List Write} (h : ∀ w ∈ ws, Quiet k c w) (hn : Numbered db) :
    Numbered (Schema.Write.applyAll ws db) := by
  induction ws generalizing db with
  | nil => exact hn
  | cons w ws ih =>
    exact ih (fun v hv => h v (List.mem_cons_of_mem _ hv))
      (((h w (List.mem_cons_self ..)).calm db).numbered hn)

theorem Brings.bland {db₀ : Db} {calls : Nat → Option Call} {arrived : Nat → Nat}
    {log : List (Utf16 × Bytes)} {p : Nat} {ws : List Write} {st st' : State schema} (hp : ws ≠ [] → calls p = some k)
    (h : ∀ w ∈ ws, Bland k c w) (hl : LawfulAll st.db ws) (hn : Numbered st'.db) :
    Brings db₀ calls arrived log p ws st st' := by
  have call : ∀ x ∈ ws, ∀ k', calls p = some k' → k' = k := fun x hx k' hk' =>
    Option.some.inj (hk'.symm.trans (hp (List.ne_nil_of_mem hx)))
  -- a call that replaces tokens has no such write of its tokens
  have still : ∀ x ∈ ws, writesTo x = .refreshTokens → ∀ k', calls p = some k' → ¬Rotates k' := by
    intro x hx ht k' hk' hr
    rw [call x hx k' hk'] at hr
    exact ((h x hx).free.2 (ht ▸ rfl)).2 ht hr
  have closed : ∀ x ∈ ws, ofSend (writesTo x) = true → ∀ k', calls p = some k' → ¬IsSend k' := by
    intro x hx ho k' hk' hs
    rw [call x hx k' hk'] at hs
    exact (h x hx).free.1 ho hs
  exact {
    lawful := hl
    may := fun x hx k' hk' => call x hx k' hk' ▸ (h x hx).may
    numbered := hn
    seated := fun _ hr => (h _ hr).2.elim
    fresh := fun _ hc => (h _ hc).2.elim
    sends := fun _ hm => (h _ hm).2.elim
    attributed := fun k' hk' hs ⟨x, hx, ho⟩ => (closed x hx ho k' hk' hs).elim
    once := fun k' hk' hs ⟨x, hx, ho⟩ => (closed x hx ho k' hk' hs).elim
    delivered := fun _ hm => (h _ hm).2.elim
    events := fun _ he => .inl (h _ he).2
    receipts := fun _ hr => (h _ hr).2.elim
    founded := fun _ hc => (h _ hc).2.elim
    uploads := fun _ ha => (h _ ha).2.elim
    rotated := fun r f hr hf => by
      have e : (r : RefreshToken).parentId = none := (h _ hr).2
      rw [e] at hf
      cases hf
    alone := fun k' hk' hr x hx ht => (still x hx ht k' hk' hr).elim
    single := fun token hk' r hr => (still _ hr rfl _ hk' trivial).elim
    barrier := fun x hx u hm => by
      obtain ⟨k', hk', hr⟩ := hm.rotates
      exact (still x hx hm.1 k' hk' hr).elim }

theorem Brings.quiet {db₀ : Db} {calls : Nat → Option Call} {arrived : Nat → Nat}
    {log : List (Utf16 × Bytes)} {p : Nat} {ws : List Write} {st st' : State schema} (hp : ws ≠ [] → calls p = some k)
    (h : ∀ w ∈ ws, Quiet k c w) (hn : Numbered st.db)
    (hdb : st'.db = Schema.Write.applyAll ws st.db) :
    Brings db₀ calls arrived log p ws st st' :=
  .bland hp (fun w hw => (h w hw).bland)
    (.of_forall (fun w hw db => ((h w hw).calm db).lawful) st.db) (hdb ▸ numbered_quiet h hn)

end Quiet

end Messageries.Proofs
