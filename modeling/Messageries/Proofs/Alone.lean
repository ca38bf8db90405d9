import Messageries.Backend.Api

namespace Messageries.Proofs

open Text Relational Database Crypto Concurrency Backend

/-- The same world, where other calls came in. -/
def booked (calls : Nat → Option Call) (arrived : Nat → Nat) (w : World) : World :=
  { w with calls, arrived }

variable (c : Nat → Option Call) (a : Nat → Nat) (p : Nat) (i : Input)

/-- No operation reads which calls came in. -/
theorem exec_booked (o : Op) (w : World) :
    World.exec p i o (booked c a w) = (World.exec p i o w).map fun x => (x.1, booked c a x.2) := by
  have remote : ∀ {α : Type} (r : Except Err α) (w w' : World),
      World.remote i r (booked c a w) (booked c a w') =
        (World.remote i r w w').map fun x => (x.1, booked c a x.2) := by
    intro α r w w'
    unfold World.remote
    cases i.fault <;> rfl
  have attempt : ∀ w w' : World, World.attempt i (booked c a w) (booked c a w') =
      (World.attempt i w w').map fun x => (x.1, booked c a x.2) := by
    intro w w'
    unfold World.attempt
    cases i.fault <;> rfl
  cases o with
  | begin => exact remote _ w (w.withStore (w.store.begin p w.clock).2)
  | commit =>
    simp only [World.exec, World.commit]
    cases i.fault <;> rfl
  | query conn s =>
    have asked : ∀ conn', (booked c a w).store.query p conn' (booked c a w).clock s =
        w.store.query p conn' w.clock s := fun _ => rfl
    simp only [World.exec, World.query, asked]
    cases i.fault with
    | none =>
      dsimp only
      cases w.store.query p conn w.clock s <;> rfl
    | before => cases conn <;> rfl
    | after =>
      cases conn with
      | pool =>
        dsimp only
        cases w.store.query p .pool w.clock s <;> rfl
      | tx => rfl
  | remove t q =>
    have same : (booked c a w).store.remove p t q = w.store.remove p t q := rfl
    simp only [World.exec, same]
    cases w.store.remove p t q with
    | none => rfl
    | some x => exact remote (.ok x.1) w (w.withStore x.2)
  | index d => exact remote (.ok ()) w (w.index d)
  | unindex n => exact remote (.ok ()) w (w.unindex n)
  | connect n => exact attempt w (w.assignNats n fun c => { c with nc := true })
  | jetstreamManager n => exact attempt w (w.assignNats n fun c => { c with jsm := true })
  | streamInfo =>
    have same : (booked c a w).streamExists = w.streamExists := rfl
    simp only [World.exec, same]
    cases w.streamExists with
    | false => rfl
    | true => exact remote (.ok ()) w w
  | streamAdd => exact remote (.ok ()) w { w with streamExists := true }
  | publish t m id =>
    have same : (booked c a w).streamExists = w.streamExists := rfl
    have published : (booked c a w).publish t m id = booked c a (w.publish t m id) := by
      unfold World.publish
      split <;> split <;> first | rfl | contradiction
    simp only [World.exec, same, published]
    cases w.streamExists with
    | false => rfl
    | true => exact remote (.ok ()) w (w.publish t m id)
  | areOnline users => exact remote (.ok (users.filter i.online)) w w
  | mail m => exact remote (.ok ()) w { w with mails := w.mails ++ [⟨m, w.clock⟩] }
  | head key =>
    have same : (booked c a w).objects = w.objects := rfl
    simp only [World.exec, same]
    cases w.objects.find? fun o => o.1 == key with
    | none => rfl
    | some o => exact remote (.ok o.2) w w
  | deleteObject key =>
    exact remote (.ok ()) w { w with objects := w.objects.filter fun o => o.1 != key }
  | _ => rfl

theorem eval_booked {α : Type} (x : App α) (w : World) :
    x.eval (World.exec p i) (booked c a w) =
      (x.eval (World.exec p i) w).map fun y => (y.1, booked c a y.2) := by
  induction x generalizing w with
  | pure _ => rfl
  | throw _ => rfl
  | op o next ih =>
    simp only [Prog.eval, exec_booked]
    cases World.exec p i o w with
    | none => rfl
    | some y => exact ih y.1 y.2

variable [AesGcm] [TokenHash]

/-- What a request returns alone, some run of the processes returns. -/
theorem answers_alone {w w' : World} {k : Call} {r : Response} (hp : w.calls p = none)
    (h : (code k).eval (World.exec p i) w = some (.ok r, w')) :
    ∃ P, machine.Reachable (· = w) P ∧ P.threads p = some ⟨k, some (.pure r)⟩ := by
  have entered : machine.enter p k w = some (booked (Function.update w.calls p (some k))
      (Function.update w.arrived p w.store.wal.length) w) := by
    simp only [machine, World.enter, hp]
    rfl
  let P₀ : Pool Op Op.Res Err World Call Response := ⟨w, fun _ => none⟩
  have begun : machine.Reachable (· = w) (P₀.put _ p ⟨k, some (code k)⟩) :=
    .step (.enter p k) (.init rfl) (fun _ _ _ _ _ e => by cases e)
      (by simp only [Machine.step, P₀, entered]; rfl)
  have answered := eval_booked (Function.update w.calls p (some k))
    (Function.update w.arrived p w.store.wal.length) p i (code k) w
  rw [h] at answered
  obtain ⟨n, P, hr, hP⟩ := Machine.run_of_eval (M := machine) (Pool.put_self P₀ _ p _) answered
  exact ⟨P, begun.run hr, hP⟩

end Messageries.Proofs
