/-! The loop of `OutboxWorker`: the turns of the event loop that start and end its batches. -/

namespace Messageries.Backend.OutboxWorker

/-- How `processBatch` ends: with the number of rows, or with an exception. -/
inductive Ending
  | processed (rows : Nat)
  | failed

/-- A call of `setTimeout`. -/
structure Timer where
  id : Nat
  ms : Nat

/-- `timers` are those that neither fired nor were cleared, `inFlight` counts the calls of
`processBatch` that are awaited; `destroyed` and `late`, the batches that started after
`onModuleDestroy`, are ghosts. -/
structure Worker where
  running : Bool
  timer : Option Nat
  lagTimer : Bool
  timers : List Timer
  nextTimer : Nat
  inFlight : Nat
  destroyed : Bool
  late : Nat

inductive Act
  | fire (timer : Nat)
  | finish (o : Ending)
  | destroy

namespace Worker

def new : Worker := ⟨false, none, false, [], 0, 0, false, 0⟩

def setTimeout (ms : Nat) (g : Worker) : Worker :=
  { g with
    timer := some g.nextTimer
    timers := g.timers ++ [⟨g.nextTimer, ms⟩]
    nextTimer := g.nextTimer + 1 }

def clearTimeout (timer : Nat) (g : Worker) : Worker :=
  { g with timers := g.timers.filter fun t => t.id != timer }

/-- `tick` up to the await of `processBatch`. -/
def loop (g : Worker) : Worker :=
  if g.running then g
  else
    { g with
      running := true
      inFlight := g.inFlight + 1
      late := g.late + if g.destroyed then 1 else 0 }

/-- `tick` from there on. -/
def finish (o : Ending) (g : Worker) : Worker :=
  let g := { g with inFlight := g.inFlight - 1 }
  let g :=
    match o with
    | .processed rows => g.setTimeout (if rows = 0 then 1500 else 50)
    | .failed => g.setTimeout 3000
  { g with running := false }

def onModuleInit (enabled : Bool) (g : Worker) : Worker :=
  if enabled then { g.loop with lagTimer := true } else g

def onModuleDestroy (g : Worker) : Worker :=
  let g :=
    match g.timer with
    | some timer => g.clearTimeout timer
    | none => g
  { g with lagTimer := false, destroyed := true }

def step (g : Worker) : Act → Worker
  | .fire timer =>
    if g.timers.any fun t => t.id == timer then (g.clearTimeout timer).loop else g
  | .finish o => if g.inFlight = 0 then g else g.finish o
  | .destroy => g.onModuleDestroy

/-- A worker that `onModuleInit` started. -/
def started : Worker := new.onModuleInit true

end Worker

end Messageries.Backend.OutboxWorker
