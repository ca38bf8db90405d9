import Messageries.Guarantees.Numbering
import Messageries.Proofs.Mails

set_option linter.unusedSectionVars false

namespace Messageries.Guarantees

open Text Relational Database Crypto Concurrency Backend Moderation Proofs

/-- A mail to the same user about the same conversation, less than `n` minutes old. -/
def SoonAgain (n : Nat) (m : Mail) (now : Nat) (s : Mailed) : Prop :=
  s.mail.userId = m.userId ∧ s.mail.conversationId = m.conversationId ∧ now < s.time + n * 60000

/-- A mail to the same user about the same message. -/
def SameNotice (m : Mail) (_now : Nat) (s : Mailed) : Prop :=
  s.mail.messageId = m.messageId ∧ s.mail.userId = m.userId

/-- Mails to one user about one conversation are `n` minutes apart. -/
def Throttled (n : Nat) (mails : List Mailed) : Prop :=
  mails.Pairwise fun a b => a.mail.userId = b.mail.userId →
    a.mail.conversationId = b.mail.conversationId → a.time + n * 60000 ≤ b.time

section Mails

variable [AesGcm] [TokenHash] {w₀ : World} {P : Run} {n : Nat}

end Mails

section Example

instance (n : Nat) (mails : List Mailed) : Decidable (Throttled n mails) :=
  inferInstanceAs (Decidable (mails.Pairwise _))

instance (n : Nat) (m : Mail) (now : Nat) (s : Mailed) : Decidable (SoonAgain n m now s) :=
  inferInstanceAs (Decidable (_ ∧ _))

instance (m : Mail) (now : Nat) (s : Mailed) : Decidable (SameNotice m now s) :=
  inferInstanceAs (Decidable (_ ∧ _))

def noticed (n : Nat) (R : Mail → Nat → Mailed → Prop) [∀ m now s, Decidable (R m now s)]
    (_p : Nat) (o : Op) (w : World) : Bool :=
  match o with
  | .settings => w.settings.emailThrottleMinutes == n
  | .mail m => w.mails.all fun s => !decide (R m w.clock s) ||
      (w.store.db .emails).any fun (e : EmailNotification) =>
        e.userId == m.userId && e.conversationId == m.conversationId && e.kind == "new_message" &&
          decide (e.sentAt < m.counted) && decide (m.counted < e.sentAt + n * 60000)
  | _ => true

theorem noticed_sound {n : Nat} {R : Mail → Nat → Mailed → Prop}
    [∀ m now s, Decidable (R m now s)] (p : Nat) (o : Op) (w : World)
    (h : noticed n R p o w = true) : Noticed n R p o w := by
  cases o with
  | settings => exact beq_iff_eq.1 h
  | mail m =>
    intro s hs hR
    have seen := List.all_eq_true.1 h s hs
    simp only [hR, decide_true, Bool.not_true, Bool.false_or, List.any_eq_true] at seen
    obtain ⟨e, he, hm⟩ := seen
    refine ⟨e, he, ?_⟩
    simpa [and_assoc] using hm
  | _ => trivial

/-- One worker has counted, and another counts for the next message before the first mail goes. -/
def mailTwice : List (Label Input Event Call) :=
  serve 0 exampleSend 15 ++ serve 1 (.processBatch 0 20) 10 ++
    serve 2 exampleSend 15 ++ serve 3 (.processBatch 1 20) 10 ++ [.exec 1 calm, .exec 3 calm]

def mailedTwice : Ran (runFrom exampleWorld mailTwice)
    (fun P => decide (Throttled 15 P.shared.mails)) false :=
  .of (by decide +kernel)

/-- The next message comes when the throttle is over. -/
def mailLater : List (Label Input Event Call) :=
  serve 0 exampleSend 15 ++ serve 1 (.processBatch 0 20) 16 ++ .event (.tick 900000) ::
    serve 2 exampleSend 15 ++ serve 3 (.processBatch 0 20) 16

def mailedLater : Ran (passFrom (noticed 15 (SoonAgain 15)) exampleWorld mailLater)
    (·.shared.mails.map Mailed.time) [0, 900000] :=
  .of (by decide +kernel)

/-- The row of a mail is not written, and the event is handled again. -/
def mailAgain : List (Label Input Event Call) :=
  serve 0 exampleSend 15 ++ serve 1 (.processBatch 0 20) 11 ++
    .exec 1 { calm with fault := .before } :: List.replicate 3 (.exec 1 calm) ++
      .event (.tick 2000) :: serve 2 (.processBatch 0 20) 16

def mailedAgain : Ran (runFrom exampleWorld mailAgain)
    (·.shared.mails.map fun s => (s.mail.messageId, s.mail.userId)) [(100, 3), (100, 3)] :=
  .of (by decide +kernel)

/-- The worker is lost after it recorded the mail, and the event is handled again. -/
def mailOnce : List (Label Input Event Call) :=
  serve 0 exampleSend 15 ++ serve 1 (.processBatch 0 20) 12 ++
    .lose 1 :: .event (.tick 2000) :: serve 2 (.processBatch 0 20) 14

def mailedOnce : Ran (passFrom (noticed 15 SameNotice) exampleWorld mailOnce)
    (fun P => (P.shared.mails.length,
      (P.shared.store.db .outbox).map fun (e : OutboxEvent) => e.processedAt))
    (1, [some 2000]) :=
  .of (by decide +kernel)

end Example

end Messageries.Guarantees
