import Messageries.Guarantees.Numbering
import Messageries.Proofs.Search

set_option linter.unusedSectionVars false

namespace Messageries.Guarantees

open Text Relational Database Crypto Concurrency Backend Moderation Proofs

section OptOut

variable [AesGcm] [TokenHash] {w₀ : World} {P : Run} {p c : Nat} {user : AuthUser}

end OptOut

section Example

abbrev searchWorld : World := worldOf exampleDb { exampleSettings with searchEnabled := true }

def exampleOptIn : Call := .enableSearch ⟨2, .customer⟩ 10

def exampleOptOut : Call := .disableSearch ⟨2, .customer⟩ 10

/-- A message is sent, its conversation is opted in, and a worker looks at the flag. -/
def flagSeen : List (Label Input Event Call) :=
  serve 0 exampleSend 15 ++ serve 1 exampleOptIn 12 ++ serve 2 (.processBatch 0 20) 13

/-- The conversation is opted out, and then the worker writes the document. -/
def writeLate : List (Label Input Event Call) :=
  serve 3 exampleOptOut 8 ++ List.replicate 5 (.exec 2 calm)

/-- The call of a process that was answered without a value. -/
def done (P : Run) (p : Nat) : Option Call :=
  match P.threads p with
  | some ⟨k, some (.pure .done)⟩ => some k
  | _ => none

theorem done_thread {P : Run} {p : Nat} {k : Call} (h : done P p = some k) :
    P.threads p = some ⟨k, some (.pure .done)⟩ := by
  unfold done at h
  split at h
  · rename_i k' ht
    cases h
    exact ht
  · cases h

theorem answered_thread {P : Run} {p : Nat} (h : (answer P p).isSome = true) :
    ∃ k a, P.threads p = some ⟨k, some (.pure a)⟩ := by
  unfold answer at h
  split at h
  · rename_i k a ht
    exact ⟨k, a, ht⟩
  · cases h

def sawFlag : Ran (runFrom searchWorld flagSeen) (fun P => (done P 1, P.shared.calls 3))
    (some exampleOptIn, none) :=
  .of (by decide +kernel)

def wroteLate : Ran (runFrom searchWorld (flagSeen ++ writeLate))
    (fun P => (done P 3, (List.range 4).all fun p => (answer P p).isSome,
      P.shared.documents.map (·.conversationId)))
    (some exampleOptOut, true, [10]) :=
  .of (by decide +kernel)

/-- The rows of the example, the conversation opted in. -/
def optedInDb : Db
  | .conversations => [{ exampleConversation with searchIndexed := true }]
  | t => exampleDb t

abbrev optedInWorld : World := worldOf optedInDb { exampleSettings with searchEnabled := true }

theorem initial_optedIn : Initial optedInWorld := by
  refine initial_worldOf (fun t => by cases t <;> decide +kernel) (fun t h => ?_)
    (by decide +kernel) fun r hr => ⟨_, List.mem_singleton_self _, ?_⟩
  · cases t
    case messages | outbox | receipts | refreshTokens | attachments | groups | mlsMessages => rfl
    all_goals cases h
  · revert r
    decide +kernel

def inTime (p : Nat) (o : Op) (w : World) : Bool :=
  match o with
  | .index d => (w.store.db .conversations).any fun (c : Conversation) =>
      c.id == d.conversationId && c.searchIndexed
  | .query .pool (.update .conversations _ _) =>
    match w.calls p with
    | some (.enableSearch _ _) => false
    | _ => true
  | .settings => w.settings.searchEnabled
  | _ => true

theorem inTime_sound (p : Nat) (o : Op) (w : World) (h : inTime p o w = true) : OptsOut p o w := by
  unfold OptsOut
  split
  · obtain ⟨c, hc, hb⟩ := List.any_eq_true.1 h
    obtain ⟨hid, hs⟩ := Bool.and_eq_true_iff.1 hb
    exact .inl ⟨c, hc, beq_iff_eq.1 hid, hs⟩
  · rintro ⟨user, c, hc⟩
    simp [inTime, hc] at h
  · exact fun _ _ _ => .inl h
  · trivial

/-- A message is sent and indexed by a worker, and its conversation is opted out. -/
def writeThenOptOut : List (Label Input Event Call) :=
  serve 0 exampleSend 15 ++ serve 1 (.processBatch 0 20) 15

def wroteInTime : Ran (passFrom inTime optedInWorld writeThenOptOut)
    (fun P => P.shared.documents.map (·.conversationId)) [10] :=
  .of (by decide +kernel)

def optedOut : Ran (passFrom inTime optedInWorld (writeThenOptOut ++ (List.replicate 3 (.exec 1 calm) ++
    serve 2 exampleOptOut 8))) (done · 2) (some exampleOptOut) :=
  .of (by decide +kernel)

end Example

end Messageries.Guarantees
