import Messageries.Guarantees.Erasure
import Messageries.Proofs.Telling

set_option linter.unusedSectionVars false

namespace Messageries.Guarantees

open Text Relational Database Crypto Concurrency Backend Moderation Proofs

section Broadcasts

variable [AesGcm] [TokenHash] {w₀ : World} {P P' : Run}

/-- An operation tells the clients nothing but what it emits. -/
theorem exec_broadcasts {p : Nat} {w w' : World} {i : Input} {o : Op} {r : Except Err o.Res}
    (h : World.exec p i o w = some (r, w')) :
    w'.broadcasts = w.broadcasts ∨ ∃ b, o = .emit b ∧ w'.broadcasts = w.broadcasts ++ [b] := by
  have told : ∀ {α : Type} {r r' : Except Err α} {w₁ : World}, w₁.broadcasts = w.broadcasts →
      World.remote i r w w₁ = some (r', w') → w'.broadcasts = w.broadcasts := fun e h =>
    of_remote (S := fun w w' => w'.broadcasts = w.broadcasts) rfl e h
  cases o with
  | emit b =>
    cases h
    exact .inr ⟨b, rfl, rfl⟩
  | begin =>
    obtain ⟨r₀, st', -, ⟨-, rfl⟩ | ⟨-, rfl | rfl⟩⟩ := exec_begin h <;> exact .inl rfl
  | commit => rcases exec_commit h with ⟨r₀, st', -, rfl, -⟩ | ⟨-, rfl⟩ <;> exact .inl rfl
  | query c s =>
    rcases exec_query h with ⟨r₀, st', -, rfl, -⟩ | ⟨-, rfl | ⟨-, rfl⟩⟩ <;> exact .inl rfl
  | remove t q =>
    simp only [World.exec] at h
    split at h
    · exact .inl (told (by rfl) h)
    · cases h
  | publish t m id =>
    simp only [World.exec] at h
    split at h
    · refine .inl (told ?_ h)
      unfold World.publish
      split <;> rfl
    · cases h
      exact .inl rfl
  | streamInfo =>
    simp only [World.exec] at h
    split at h
    · exact .inl (told (by rfl) h)
    · cases h
      exact .inl rfl
  | head key =>
    simp only [World.exec] at h
    split at h
    · exact .inl (told (by rfl) h)
    · cases h
      exact .inl rfl
  | connect n | jetstreamManager n =>
    exact .inl (of_attempt (S := fun w w' => w'.broadcasts = w.broadcasts) rfl (by rfl) h)
  | index d => exact .inl (told (by rfl) h)
  | unindex c => exact .inl (told (by rfl) h)
  | streamAdd => exact .inl (told (by rfl) h)
  | areOnline users => exact .inl (told (by rfl) h)
  | mail m => exact .inl (told (by rfl) h)
  | deleteObject key => exact .inl (told (by rfl) h)
  | _ =>
    cases h
    exact .inl rfl

theorem enter_broadcasts {p : Nat} {k : Call} {w w' : World} (h : World.enter p k w = some w') :
    w'.broadcasts = w.broadcasts := by
  unfold World.enter at h
  split at h
  · cases h
    rfl
  · cases h

theorem event_broadcasts {x : Event} {w w' : World} (h : World.event x w = some w') :
    w'.broadcasts = w.broadcasts := by
  cases x with
  | rotateKeys kms =>
    simp only [World.event] at h
    split at h
    · cases h
      rfl
    · cases h
  | _ =>
    cases h
    rfl

theorem told_reach (h : machine.Reachable (From w₀) P) :
    ∀ b ∈ P.shared.broadcasts, b ∈ w₀.broadcasts ∨ Heard P.shared b := by
  induction h with
  | init hw =>
    obtain ⟨-, rfl⟩ := hw
    exact fun b hb => .inl hb
  | @step P P' l hP hl hst ih =>
    obtain ⟨a, guar⟩ := ((sound _ w₀).step ((sound _ w₀).holds hP) hl hst).2
    have later : ∀ {b}, Heard P.shared b → Heard P'.shared b := fun {b} =>
      Persists.heard b _ _ _ (reached hP) (reached (.step l hP hl hst)) guar
    have same : P'.shared.broadcasts = P.shared.broadcasts →
        ∀ b ∈ P'.shared.broadcasts, b ∈ w₀.broadcasts ∨ Heard P'.shared b := fun e b hb =>
      (ih b (e ▸ hb)).imp_right later
    rcases Machine.step_cases hst with ⟨p, k, s, rfl, -, hx, rfl⟩ |
      ⟨p, i, k, o, next, r, s, rfl, ht, hx, rfl⟩ | ⟨x, s, rfl, hx, rfl⟩ |
      ⟨p, k, o, next, rfl, -, rfl⟩
    · exact same (enter_broadcasts hx)
    · rcases exec_broadcasts hx with e | ⟨b, rfl, e⟩
      · exact same e
      · intro b' hb
        rcases List.mem_append.1 (show b' ∈ P.shared.broadcasts ++ [b] from e ▸ hb) with hb | hb
        · exact (ih b' hb).imp_right later
        · obtain rfl := List.mem_singleton.1 hb
          exact .inr (later (heard_reach hP ht))
    · exact same (event_broadcasts hx)
    · exact same rfl

/-- What the clients are told is so: a message that is announced was stored with this number and
this text, one that is said to be deleted is gone, and who read a conversation has access to it. -/
theorem broadcasts_truthful (h : machine.Reachable (From w₀) P) :
    ∀ b ∈ P.shared.broadcasts, b ∈ w₀.broadcasts ∨ Heard P.shared b :=
  told_reach h

end Broadcasts

section Example

/-- A message is sent, read and deleted. -/
def sendReadDelete : List (Label Input Event Call) :=
  serve 0 exampleSend 15 ++ serve 1 (.markRead ⟨3, .seller⟩ 10 (text "1")) 9 ++
    serve 2 exampleDelete 9

def broadcastAll : Ran (runFrom exampleWorld sendReadDelete)
    (fun P => P.shared.broadcasts.length) 3 :=
  .of (by decide +kernel)

theorem broadcasts_truthful_example : ∃ P, runFrom exampleWorld sendReadDelete = some P ∧
    P.shared.broadcasts.length = 3 ∧
    ∀ b ∈ P.shared.broadcasts, b ∈ exampleWorld.broadcasts ∨ Heard P.shared b := by
  obtain ⟨P, hP, hs⟩ := broadcastAll
  exact ⟨P, hP, hs, @broadcasts_truthful exampleCipher exampleHash _ _
    (reachable_runFrom initial_example hP)⟩

end Example

end Messageries.Guarantees
