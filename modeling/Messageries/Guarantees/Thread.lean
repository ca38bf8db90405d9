import Mathlib.Data.List.Sort
import Messageries.Concurrency.Grows
import Messageries.Guarantees.Polling
import Messageries.Proofs.Identity

set_option linter.unusedSectionVars false

namespace Messageries.Guarantees

open Text Relational Database Crypto Concurrency Backend Moderation Proofs

section Thread

variable [AesGcm] [TokenHash] {db₀ : Db} {w w₀ : World} {P P' : Run} {c p : Nat}

/-- The messages of a conversation, in order. -/
def thread (c : Nat) (db : Db) : List Message :=
  ((db .messages).filter fun (m : Message) => m.conversationId == c).insertionSort
    fun a b => a.sequence ≤ b.sequence

theorem mem_thread {db : Db} {m : Message} :
    m ∈ thread c db ↔ m ∈ db .messages ∧ m.conversationId = c := by
  simp [thread, List.mem_insertionSort]

/-- The messages of a conversation are numbered in a row. -/
theorem thread_numbered (hi : Inv db₀ w) (c : Nat) :
    ∃ n, (thread c w.store.db).map Message.sequence = List.range' 1 n := by
  have perm : ((thread c w.store.db).map Message.sequence).Perm (sequences w.store.db c) :=
    (List.perm_insertionSort _ _).map _
  have sorted : ((thread c w.store.db).map Message.sequence).Pairwise (· ≤ ·) :=
    List.pairwise_map.2 (List.pairwise_insertionSort (fun a b : Message => a.sequence ≤ b.sequence) _)
  by_cases hc : ∃ d ∈ w.store.db .conversations, (d : Conversation).id = c
  · obtain ⟨d, hd, rfl⟩ := hc
    have numbers := perm.trans (hi.db.numbered d hd)
    refine ⟨d.lastSequence, numbers.eq_of_pairwise (fun _ _ _ _ => Nat.le_antisymm) sorted ?_⟩
    exact (List.pairwise_lt_range' 1).imp Nat.le_of_lt
  · -- no conversation, no messages
    refine ⟨0, List.map_eq_nil_iff.2 (List.eq_nil_iff_forall_not_mem.2 fun m hm => hc ?_)⟩
    obtain ⟨stored, rfl⟩ := mem_thread.1 hm
    obtain ⟨d, hd, hid, -⟩ := numbered_message hi stored
    exact ⟨d, hd, hid⟩

theorem thread_grows {w' : World} (hi : Inv db₀ w) (hi' : Inv db₀ w')
    (hk : Kept w.store.db w'.store.db) (c : Nat) :
    Grows MessageLater (thread c w.store.db) (thread c w'.store.db) := by
  obtain ⟨n, hn⟩ := thread_numbered hi c
  obtain ⟨n', hn'⟩ := thread_numbered hi' c
  refine .of_numbered hn hn' fun m hm => ?_
  obtain ⟨hm, hc⟩ := mem_thread.1 hm
  obtain ⟨m', hm', later⟩ := hk .messages (by decide) m hm
  have later : MessageLater m m' := later
  exact ⟨m', mem_thread.2 ⟨hm', later.conversationId.trans hc⟩, later.sequence, later⟩

/-- A process inserts one message. -/
theorem one_message (hi : Inv db₀ w) {m m' : Message}
    (hm : (p, Schema.Write.insert .messages m) ∈ w.store.wal)
    (hm' : (p, Schema.Write.insert .messages m') ∈ w.store.wal) : m' = m := by
  obtain ⟨users, e, ks, f, hown⟩ := (hi.db.delivered p m hm).own
  have mem := hown ▸ mem_own hm' rfl
  simpa [delivery] using mem

/-- What a step adds to the messages comes from one process. -/
theorem step_sends (hP : machine.Reachable (From w₀) P) {l : Label Input Event Call}
    (hst : machine.step l P = some P') :
    ∃ p, ∀ m ∈ P'.shared.store.db .messages, (∃ m₀ ∈ P.shared.store.db .messages,
        MessageLater m₀ m) ∨
      ∃ m₀, (p, Schema.Write.insert .messages m₀) ∈ P'.shared.store.wal ∧ MessageLater m₀ m := by
  have hP' : machine.Reachable (From w₀) P' := .step l hP (fun _ _ _ _ _ _ _ => trivial) hst
  obtain ⟨a, guar⟩ := ((sound _ w₀).step ((sound _ w₀).holds hP)
    (fun _ _ _ _ _ _ _ => trivial) hst).2
  -- the author of what is not in the log yet
  have author : ∃ p, ∀ q m₀, (q, Schema.Write.insert .messages m₀) ∈ P'.shared.store.wal →
      (q, Schema.Write.insert .messages m₀) ∈ P.shared.store.wal ∨ q = p := by
    cases a with
    | none =>
      exact ⟨0, fun q m₀ hm => .inl ((guar.author q _ hm).resolve_right fun h =>
        h.elim nofun nofun)⟩
    | some p =>
      refine ⟨p, fun q m₀ hm => ?_⟩
      rcases guar.author q _ hm with hm | e | e
      · exact .inl hm
      · exact .inr (Option.some.inj e).symm
      · cases e
  obtain ⟨p, author⟩ := author
  refine ⟨p, fun m hm => ?_⟩
  obtain ⟨q, m₀, hm₀, later⟩ := inserted_message (reached hP') hm
  rcases author q m₀ hm₀ with old | rfl
  · obtain ⟨r, hr, hl⟩ := (reached hP).db.stored q .messages (by decide) m₀ old
    obtain ⟨r', hr', hl'⟩ := guar.kept .messages (by decide) r hr
    have hl : MessageLater m₀ r := hl
    have hl' : MessageLater r r' := hl'
    have same : r' = m := same_message (reached hP') hr' hm
      (hl'.id.trans (hl.id.trans later.id.symm))
    exact .inl ⟨r, hr, same ▸ hl'⟩
  · exact .inr ⟨m₀, hm₀, later⟩

theorem thread_step (hP : machine.Reachable (From w₀) P) {l : Label Input Event Call}
    (hst : machine.step l P = some P') (c : Nat) :
    Appends MessageLater (thread c P.shared.store.db) (thread c P'.shared.store.db) := by
  have hP' : machine.Reachable (From w₀) P' := .step l hP (fun _ _ _ _ _ _ _ => trivial) hst
  have hi := reached hP
  have hi' := reached hP'
  obtain ⟨a, guar⟩ := ((sound _ w₀).step ((sound _ w₀).holds hP)
    (fun _ _ _ _ _ _ _ => trivial) hst).2
  obtain ⟨kept, added, hl, hk⟩ := thread_grows hi hi' guar.kept c
  refine ⟨kept, added, hl, hk, ?_⟩
  obtain ⟨n, hn⟩ := thread_numbered hi' c
  have distinct : (kept ++ added).Nodup :=
    .of_map Message.sequence (hl ▸ hn ▸ List.nodup_range')
  obtain ⟨p, sends⟩ := step_sends hP hst
  -- a new message is none of those that were there
  have fresh : ∀ m ∈ added, m ∈ P'.shared.store.db .messages ∧
      ∃ m₀, (p, Schema.Write.insert .messages m₀) ∈ P'.shared.store.wal ∧ MessageLater m₀ m := by
    intro m hm
    obtain ⟨stored, hc⟩ := mem_thread.1 (hl ▸ List.mem_append_right kept hm)
    refine ⟨stored, (sends m stored).resolve_left fun ⟨m₀, hm₀, later⟩ => ?_⟩
    obtain ⟨m', hm', later'⟩ :=
      Grows.exists_of_forall₂ hk (mem_thread.2 ⟨hm₀, later.conversationId.symm.trans hc⟩)
    have there := (mem_thread.1 (hl ▸ List.mem_append_left added hm')).1
    obtain rfl := same_message hi' there stored (later'.id.trans later.id.symm)
    exact (List.nodup_append'.1 distinct).2.2 hm' hm
  have single : ∀ m ∈ added, ∀ m' ∈ added, m = m' := by
    intro m hm m' hm'
    obtain ⟨stored, m₀, hm₀, later⟩ := fresh m hm
    obtain ⟨stored', m₁, hm₁, later'⟩ := fresh m' hm'
    obtain rfl := one_message hi' hm₀ hm₁
    exact same_message hi' stored stored' (later.id.trans later'.id.symm)
  rcases added with - | ⟨m, - | ⟨m', rest⟩⟩
  · exact Nat.zero_le 1
  · exact Nat.le_refl 1
  · have same := single m List.mem_cons_self m' (List.mem_cons_of_mem _ List.mem_cons_self)
    have twice := (List.nodup_append'.1 distinct).2.1
    rw [same] at twice
    exact ((List.nodup_cons.1 twice).1 List.mem_cons_self).elim

/-- A conversation is an append-only log: a step adds one message to its thread at most, and what is
there stays where it is, except that its text may be taken away. -/
theorem thread_append_only (h : machine.Reachable (From w₀) P) (c : Nat) :
    (∃ n, (thread c P.shared.store.db).map Message.sequence = List.range' 1 n) ∧
    (∀ l P', machine.step l P = some P' →
      Appends MessageLater (thread c P.shared.store.db) (thread c P'.shared.store.db)) ∧
    ∀ P', machine.Later P P' →
      Grows MessageLater (thread c P.shared.store.db) (thread c P'.shared.store.db) := by
  refine ⟨thread_numbered (reached h) c, fun l P' hst => thread_step h hst c, fun P' hl => ?_⟩
  induction hl with
  | refl => exact .refl .refl _
  | step l hQ hg hst ih =>
    exact ih.trans (fun _ _ _ => .trans) (thread_step (h.leads hQ) hst c).grows

end Thread

section Example

/-- The numbers of a thread, and which of its messages have a text. -/
def texts (P : Run) : List (Nat × Bool) :=
  (thread 10 P.shared.store.db).map fun m => (m.sequence, m.body.isSome)

/-- A second message comes in and the first one is deleted. -/
def sendAndDelete : List (Label Input Event Call) :=
  serve 1 exampleSend 15 ++ serve 2 (.softDelete ⟨2, .customer⟩ 10 100) 9

def sentFirst : Ran (runFrom exampleWorld (serve 0 exampleSend 15)) texts [(1, true)] :=
  .of (by decide +kernel)

def sentAndDeleted : Ran (runFrom exampleWorld (serve 0 exampleSend 15 ++ sendAndDelete)) texts
    [(1, false), (2, true)] :=
  .of (by decide +kernel)

theorem thread_append_only_example : ∃ P P', runFrom exampleWorld (serve 0 exampleSend 15) = some P ∧
    exampleMachine.run sendAndDelete P = some P' ∧ texts P = [(1, true)] ∧
    texts P' = [(1, false), (2, true)] ∧
    Grows MessageLater (thread 10 P.shared.store.db) (thread 10 P'.shared.store.db) := by
  obtain ⟨P, hP, hs⟩ := sentFirst
  obtain ⟨P', hP', hs'⟩ := sentAndDeleted
  rw [runFrom, Machine.run_append, ← runFrom, hP, Option.bind_some] at hP'
  exact ⟨P, P', hP, hP', hs, hs', (@thread_append_only exampleCipher exampleHash _ _
    (reachable_runFrom initial_example hP) 10).2.2 P' (Machine.Leads.run .refl hP')⟩

end Example

end Messageries.Guarantees
