/-
Module: OsPAs.Sched.Simulation
Purpose: The simulation framework of `sched.c`: forking, dispatching, acquiring
  and releasing on schedule, decommissioning, and the main loop around them.
Trusted boundary: none
Main exports: forkOnSchedule, exitProcess, retirePrev, dispatch,
  runCurrentAcquire, runCurrentRelease, execute, body, doSimulation
-/
import OsPAs.Lib.Loop
import OsPAs.Sched.Policies

namespace OsPAs.Sched

open Lib

variable {n : Nat}

/-! ### Fork and exit -/

/-- One pass of the loop in `__fork_on_schedule`. -/
def forkDue (s : Sim n) (p : Fin n) : Sim n :=
  if (s.procs p).startsAt ≤ s.ticks then
    (Sim.setStatus
      { s with
        forkqueue := s.forkqueue.erase p
        readyqueue := s.readyqueue ++ [p] }
      p .ready).print (.forked p)
  else s

/-- `__fork_on_schedule`. -/
def forkOnSchedule (s : Sim n) : Sim n := s.forkqueue.foldl forkDue s

/-- `__exit_process`.  The status `exit`, set by the caller, marks the freed
process from here on. -/
def exitProcess (p : Fin n) (s : Sim n) : Except Fault (Sim n) := do
  cAssert (s.detached p)
  cAssert ((s.procs p).resourcesHolding = [])
  cAssert ((s.procs p).resourcesToAcquire = [])
  return s.print (.exited p)

/-- What the main loop does with the process of the previous tick. -/
def retirePrev (prev : Option (Fin n)) (s : Sim n) : Except Fault (Sim n) :=
  match prev with
  | none => .ok s
  | some p =>
      let s := if (s.procs p).status = .running then s.setStatus p .ready else s
      if (s.procs p).age = (s.procs p).lifespan then
        exitProcess p (s.setStatus p .exit)
      else .ok s

/-- First half of the loop body: fork, ask the policy for the next process,
handle the previous one. -/
def dispatch (sched : Scheduler n) (s : Sim n) : Except Fault (Sim n) := do
  let s := forkOnSchedule s
  let prev := s.current
  let (next, s) ← sched.schedule s
  retirePrev prev { s with current := next }

/-! ### Acquiring and releasing on schedule -/

/-- The loop of `__run_current_acquire` over the entries still to visit.  It
returns whether all due entries were granted and the entries that stay in
`__resources_to_acquire`. -/
def acquireLoop (sched : Scheduler n) (c : Fin n) :
    List ResourceSchedule → Sim n →
      Except Fault (Bool × List ResourceSchedule × Sim n)
  | [], s => .ok (true, [], s)
  | rs :: rest, s =>
      if rs.atAge = (s.procs c).age then do
        let (granted, s) ← sched.acquire c rs.resourceId s
        if granted then
          let s := s.modify c fun p =>
            { p with resourcesHolding := p.resourcesHolding ++ [rs] }
          acquireLoop sched c rest (s.print (.acquired c rs.resourceId))
        else
          return (false, rs :: rest, s.print (.blocked c rs.resourceId))
      else do
        let (granted, kept, s) ← acquireLoop sched c rest s
        return (granted, rs :: kept, s)

/-- The entries left in `__resources_to_acquire`. -/
def Sim.setToAcquire (s : Sim n) (c : Fin n)
    (entries : List ResourceSchedule) : Sim n :=
  s.modify c fun p => { p with resourcesToAcquire := entries }

/-- The entries left in `__resources_holding`. -/
def Sim.setHolding (s : Sim n) (c : Fin n)
    (entries : List ResourceSchedule) : Sim n :=
  s.modify c fun p => { p with resourcesHolding := entries }

/-- `__run_current_acquire`. -/
def runCurrentAcquire (sched : Scheduler n) (c : Fin n) (s : Sim n) :
    Except Fault (Bool × Sim n) := do
  let (granted, kept, s) ←
    acquireLoop sched c (s.procs c).resourcesToAcquire s
  return (granted, s.setToAcquire c kept)

/-- The loop of `__run_current_release` over the entries still to visit.  It
returns the entries that stay in `__resources_holding`. -/
def releaseLoop (sched : Scheduler n) (c : Fin n) :
    List ResourceSchedule → Sim n →
      Except Fault (List ResourceSchedule × Sim n)
  | [], s => .ok ([], s)
  | rs :: rest, s =>
      if subUInt rs.duration 1 ≠ 0 then do
        let (kept, s) ← releaseLoop sched c rest s
        return ({ rs with duration := subUInt rs.duration 1 } :: kept, s)
      else do
        let s ← sched.release c rs.resourceId s
        releaseLoop sched c rest (s.print (.released c rs.resourceId))

/-- `__run_current_release`. -/
def runCurrentRelease (sched : Scheduler n) (c : Fin n) (s : Sim n) :
    Except Fault (Sim n) := do
  let (kept, s) ← releaseLoop sched c (s.procs c).resourcesHolding s
  return s.setHolding c kept

/-! ### The main loop -/

/-- `ticks++`. -/
def nextTick (s : Sim n) : Sim n := { s with ticks := toUInt (s.ticks + 1) }

/-- `current->age++`. -/
def growOlder (c : Fin n) (s : Sim n) : Sim n :=
  s.modify c fun p => { p with age := toUInt (p.age + 1) }

/-- Second half of the loop body: run the process that was chosen, or idle. -/
def execute (sched : Scheduler n) (s : Sim n) : Except Fault (Sim n) :=
  match s.current with
  | none => .ok (nextTick (s.print .idle))
  | some c =>
      -- the policy may have chosen a process that was freed just before
      if (s.procs c).status = .exit then .error .useAfterFree
      else do
        let s := s.setStatus c .running
        cAssert (s.detached c)
        let (granted, s) ← runCurrentAcquire sched c s
        if granted then
          let s ← runCurrentRelease sched c (growOlder c (s.print (.ran c)))
          return nextTick s
        else
          return nextTick s

/-- The `break` condition of the main loop, tested after `dispatch`. -/
def quits (s : Sim n) : Prop :=
  s.current = none ∧ s.readyqueue = [] ∧ s.forkqueue = []

instance (s : Sim n) : Decidable (quits s) :=
  inferInstanceAs (Decidable (_ ∧ _ ∧ _))

/-- Body of the `while (true)` of `__do_simulation`. -/
def body (sched : Scheduler n) (s : Sim n) :
    Except Fault (Pass (Sim n)) := do
  let s ← dispatch sched s
  if quits s then return .leave s
  else
    let s ← execute sched s
    return .again s

/-- `__do_simulation` after `k` passes through its loop. -/
def doSimulation (script : List ProcessBlock)
    (sched : Scheduler script.length) :
    Nat → Except Fault (Pass (Sim script.length)) :=
  iterate (body sched) (load script)

end OsPAs.Sched
