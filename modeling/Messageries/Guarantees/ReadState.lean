import Messageries.Guarantees.Numbering
import Messageries.Proofs.Cursors

set_option linter.unusedSectionVars false

namespace Messageries.Guarantees

open Text Relational Database Crypto Concurrency Backend Moderation Proofs

section ReadState

variable [AesGcm] [TokenHash] {w₀ : World} {P : Run}

end ReadState

section Example

def exampleRead (upto : String) : Call := .markRead ⟨3, .seller⟩ 10 (text upto)

def cursorRows (P : Run) : List (Nat × Nat × Int) :=
  (P.shared.store.db .participants).map fun (r : ConversationParticipant) =>
    (r.conversationId, r.userId, r.lastReadSequence)

def receiptRows (P : Run) : List (Nat × Nat × Option Nat) :=
  (P.shared.store.db .receipts).map fun (t : MessageReceipt) => (t.messageId, t.userId, t.readAt)

def messageRows (P : Run) : List (Nat × Nat × Nat) :=
  (P.shared.store.db .messages).map fun (m : Message) => (m.id, m.conversationId, m.sequence)

def readBoth : List (Label Input Event Call) :=
  serve 0 exampleSend 15 ++ serve 1 exampleSend 15 ++ serve 2 (exampleRead "2") 9

/-- A call that comes late names the first message only. -/
def readStale : List (Label Input Event Call) := serve 3 (exampleRead "1") 9

def bothRead : Ran (runFrom exampleWorld readBoth) cursorRows [(10, 2, 0), (10, 3, 2)] :=
  .of (by decide +kernel)

def staleRead : Ran (runFrom exampleWorld (readBoth ++ readStale))
    (fun P => cursorRows P == [(10, 2, 0), (10, 3, 1)] &&
      receiptRows P == [(100, 3, some 0), (103, 3, some 0)] &&
      messageRows P == [(100, 10, 1), (103, 10, 2)]) true :=
  .of (by decide +kernel)

def onward (p : Nat) (o : Op) (w : World) : Bool :=
  match o, w.calls p with
  | .query .tx (.update .participants _ _), some (.markRead user c upto) =>
    match bigint upto with
    | .ok n =>
      ((w.store.db .participants).all fun (r : ConversationParticipant) =>
        !(r.conversationId == c && r.userId == user.sub) || decide (r.lastReadSequence ≤ n)) &&
      (w.store.db .conversations).all fun (conv : Conversation) =>
        conv.id != c || decide (n ≤ conv.lastSequence)
    | .error _ => true
  | _, _ => true

theorem onward_sound (p : Nat) (o : Op) (w : World) (h : onward p o w = true) : Onward p o w := by
  unfold Onward
  split
  · rename_i c _ hc
    intro n hn
    simp only [onward, hc, hn, Bool.and_eq_true, List.all_eq_true, Bool.or_eq_true,
      Bool.not_eq_true', bne_iff_ne, decide_eq_true_eq] at h
    refine ⟨fun r hr hrc hru => (h.1 r hr).resolve_left ?_, fun conv hcm hcid =>
      (h.2 conv hcm).resolve_left (not_not.2 hcid)⟩
    simp [hrc, hru]
  · trivial

/-- The messages are read one after the other. -/
def readInTurn : List (Label Input Event Call) :=
  serve 0 exampleSend 15 ++ serve 1 (exampleRead "1") 9 ++ serve 2 exampleSend 15

def readLater : List (Label Input Event Call) := serve 3 (exampleRead "2") 9

def firstRead : Ran (passFrom onward exampleWorld readInTurn)
    (fun P => (cursorRows P, receiptRows P))
    ([(10, 2, 0), (10, 3, 1)], [(100, 3, some 0), (104, 3, none)]) :=
  .of (by decide +kernel)

def allRead : Ran (passFrom onward exampleWorld (readInTurn ++ readLater)) cursorRows
    [(10, 2, 0), (10, 3, 2)] :=
  .of (by decide +kernel)

end Example

end Messageries.Guarantees
