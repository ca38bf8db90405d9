import Messageries.Backend.OutboxWorker
import Messageries.Concurrency.Runs

namespace Messageries.Guarantees.WorkerLoop

open Concurrency Backend.OutboxWorker Backend.OutboxWorker.Worker

variable {g : Worker} {a : Act}

/-- A batch is in flight and no timer is pending, or the other way round. -/
def Ticking (g : Worker) : Prop :=
  (g.inFlight = 1 ∧ g.timers = []) ∨ (g.inFlight = 0 ∧ ∃ t, g.timers = [t])

/-- `onModuleDestroy` comes while no batch is in flight. -/
def Rested (g : Worker) (a : Act) : Prop := a = .destroy → g.inFlight = 0

/-- The flag says whether a batch is in flight, and the field holds the timer that is pending. -/
inductive Alive : Worker → Prop
  | busy {g : Worker} : g.running = true → g.inFlight = 1 → g.timers = [] → Alive g
  | waiting {g : Worker} (t : Timer) : g.running = false → g.inFlight = 0 → g.timers = [t] →
      g.timer = some t.id → Alive g

theorem Alive.ticking (h : Alive g) : Ticking g := by
  cases h with
  | busy _ hf ht => exact .inl ⟨hf, ht⟩
  | waiting t _ hf ht _ => exact .inr ⟨hf, t, ht⟩

theorem Alive.loop (hr : g.running = false) (hf : g.inFlight = 0) (ht : g.timers = []) :
    Alive g.loop := by
  rw [Worker.loop, hr]
  exact .busy rfl (congrArg (· + 1) hf) ht

theorem Alive.finish (hf : g.inFlight = 1) (ht : g.timers = []) (o : Ending) :
    Alive (g.finish o) := by
  have inFlight : g.inFlight - 1 = 0 := by rw [hf]
  cases o with
  | processed rows =>
    refine .waiting ⟨g.nextTimer, if rows = 0 then 1500 else 50⟩ rfl inFlight ?_ rfl
    exact congrArg (· ++ _) ht
  | failed =>
    refine .waiting ⟨g.nextTimer, 3000⟩ rfl inFlight ?_ rfl
    exact congrArg (· ++ _) ht

/-- Before its destruction the loop is alive. -/
def Living (g : Worker) : Prop := g.destroyed = false → Alive g ∧ g.late = 0

theorem living_started : Living started := fun _ => ⟨.busy rfl rfl rfl, rfl⟩

theorem step_destroyed (ha : a ≠ .destroy) : (g.step a).destroyed = g.destroyed := by
  cases a with
  | fire timer =>
    simp only [Worker.step, Worker.loop]
    split
    · split <;> rfl
    · rfl
  | finish o =>
    simp only [Worker.step]
    split
    · rfl
    · cases o <;> rfl
  | destroy => exact absurd rfl ha

theorem finish_late (o : Ending) : (g.finish o).late = g.late := by cases o <;> rfl

theorem Living.step (h : Living g) (a : Act) : Living (g.step a) := by
  intro hd
  cases a with
  | fire timer =>
    rw [step_destroyed Act.noConfusion] at hd
    obtain ⟨hg, hl⟩ := h hd
    simp only [Worker.step]
    split
    · rename_i pending
      cases hg with
      | busy _ _ ht => simp [ht] at pending
      | waiting t hr hf ht _ =>
        have cleared : (g.clearTimeout timer).timers = [] := by
          simpa [clearTimeout, ht] using pending
        refine ⟨.loop hr hf cleared, ?_⟩
        simp [Worker.loop, clearTimeout, hr, hl, hd]
    · exact ⟨hg, hl⟩
  | finish o =>
    rw [step_destroyed Act.noConfusion] at hd
    obtain ⟨hg, hl⟩ := h hd
    simp only [Worker.step]
    split
    · exact ⟨hg, hl⟩
    · rename_i flying
      cases hg with
      | busy _ hf ht => exact ⟨.finish hf ht o, (finish_late o).trans hl⟩
      | waiting _ _ hf _ _ => exact absurd hf flying
  | destroy => cases hd

/-- After its destruction nothing is left that would start a batch. -/
structure Stopped (g : Worker) : Prop where
  idle : g.inFlight = 0
  cleared : g.timers = []
  late : g.late = 0

theorem Stopped.destroy (h : Stopped g) : Stopped g.onModuleDestroy := by
  unfold onModuleDestroy
  cases g.timer with
  | none => exact ⟨h.idle, h.cleared, h.late⟩
  | some t => exact ⟨h.idle, by simp [clearTimeout, h.cleared], h.late⟩

theorem Stopped.step (h : Stopped g) (a : Act) : Stopped (g.step a) := by
  cases a with
  | fire timer => simpa [Worker.step, h.cleared] using h
  | finish o => simpa [Worker.step, h.idle] using h
  | destroy => exact h.destroy

theorem Stopped.steps (h : Stopped g) (acts : List Act) : Stopped (acts.foldl Worker.step g) := by
  induction acts generalizing g with
  | nil => exact h
  | cons a acts ih => exact ih (h.step a)

theorem Alive.stops (h : Alive g) (hl : g.late = 0) (hf : g.inFlight = 0) :
    Stopped g.onModuleDestroy := by
  cases h with
  | busy _ hf' _ => cases hf.symm.trans hf'
  | waiting t _ _ ht hid =>
    unfold onModuleDestroy
    rw [hid]
    exact ⟨hf, by simp [clearTimeout, ht], hl⟩

/-- A batch in flight sets a timer that nobody clears. -/
theorem Alive.survives (h : Alive g) (hl : g.late = 0) (hf : g.inFlight ≠ 0) :
    ([.finish (.processed 0), .fire g.nextTimer].foldl Worker.step g.onModuleDestroy).late = 1 := by
  cases h with
  | waiting _ _ hf' _ _ => exact absurd hf' hf
  | busy hr hf' ht =>
    have destroyed : g.onModuleDestroy.inFlight = 1 ∧ g.onModuleDestroy.timers = [] ∧
        g.onModuleDestroy.nextTimer = g.nextTimer ∧ g.onModuleDestroy.late = 0 ∧
          g.onModuleDestroy.destroyed = true := by
      unfold onModuleDestroy
      cases g.timer with
      | none => exact ⟨hf', ht, rfl, hl, rfl⟩
      | some t => exact ⟨hf', by simp [clearTimeout, ht], rfl, hl, rfl⟩
    obtain ⟨h₁, h₂, h₃, h₄, h₅⟩ := destroyed
    simp [Worker.step, Worker.finish, setTimeout, clearTimeout, Worker.loop, h₁, h₂, h₃, h₄, h₅]

theorem living (hr : Runs Worker.step (fun _ _ => True) started g) : Living g :=
  hr.invariant living_started fun _ a h _ => h.step a

/-- Before `onModuleDestroy` a batch is in flight or one timer is pending, not both; and no batch
starts after it, whatever happens, exactly when it comes while none is in flight. -/
theorem worker_loop_stops (g : Worker) :
    (Runs Worker.step (fun _ _ => True) started g → g.destroyed = false →
      Ticking g ∧ ((∀ acts : List Act, (acts.foldl Worker.step (g.step .destroy)).late = 0) ↔
        g.inFlight = 0)) ∧
    (Runs Worker.step Rested started g → g.late = 0) := by
  refine ⟨fun hr hd => ?_, fun hr => ?_⟩
  · obtain ⟨alive, hl⟩ := living hr hd
    refine ⟨alive.ticking, fun h => ?_, fun hf acts => ((alive.stops hl hf).steps acts).late⟩
    refine Decidable.byContradiction fun hf => ?_
    exact absurd ((h _).symm.trans (alive.survives hl hf)) (by decide)
  · have rested : (g.destroyed = true → Stopped g) ∧ Living g := by
      refine Runs.invariant (I := fun g => (g.destroyed = true → Stopped g) ∧ Living g) hr
        ⟨Bool.noConfusion, living_started⟩ fun g a h hok => ?_
      refine ⟨fun hd => ?_, h.2.step a⟩
      cases hg : g.destroyed with
      | true => exact (h.1 hg).step a
      | false =>
        by_cases ha : a = .destroy
        · subst ha
          obtain ⟨alive, hl⟩ := h.2 hg
          exact alive.stops hl (hok rfl)
        · rw [step_destroyed ha, hg] at hd
          cases hd
    cases hd : g.destroyed with
    | true => exact (rested.1 hd).late
    | false => exact (rested.2 hd).2

theorem worker_loop_stops_example :
    Ticking started ∧
      (¬ ∀ acts : List Act, (acts.foldl Worker.step (started.step .destroy)).late = 0) ∧
      ([.finish (.processed 0), .destroy, .fire 0].foldl Worker.step started).late = 0 := by
  obtain ⟨ticking, stops⟩ := (worker_loop_stops started).1 .start rfl
  have finished : Runs Worker.step Rested started (started.step (.finish (.processed 0))) :=
    .step _ .start Act.noConfusion
  have destroyed : Runs Worker.step Rested started
      ((started.step (.finish (.processed 0))).step .destroy) := .step _ finished fun _ => rfl
  have run : Runs Worker.step Rested started
      ([.finish (.processed 0), .destroy, .fire 0].foldl Worker.step started) :=
    Runs.step (Act.fire 0) destroyed Act.noConfusion
  exact ⟨ticking, fun h => absurd (stops.1 h) (by decide), (worker_loop_stops _).2 run⟩

/-- `onModuleDestroy` during a batch: the timer that the batch sets starts another one. -/
theorem batch_after_destroy :
    ¬ ∀ g, Runs Worker.step (fun _ _ => True) started g →
      (g.destroyed = false → Ticking g) ∧ g.late = 0 := by
  intro h
  have run : Runs Worker.step (fun _ _ => True) started
      ([.destroy, .finish (.processed 0), .fire 0].foldl Worker.step started) :=
    .of_list _ fun _ _ _ => trivial
  exact absurd (h _ run).2 (by decide)

end Messageries.Guarantees.WorkerLoop
