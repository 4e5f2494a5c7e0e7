/-
Module: OsPAs.Sched.Policies
Purpose: The eight scheduling policies of `pa2.c`: their `acquire`, `release`
  and `schedule` callbacks, function by function.
Trusted boundary: none
Main exports: Scheduler, fcfsAcquire, fcfsRelease, fifoSchedule, sjfSchedule,
  stcfSchedule, rrSchedule, prioSchedule, paSchedule, fifoScheduler,
  sjfScheduler, stcfScheduler, rrScheduler, prioScheduler, paScheduler,
  pcpScheduler, pipScheduler, Policy, statusAware
-/
import OsPAs.Lib.Scan
import OsPAs.Sched.State

namespace OsPAs.Sched

open Lib

variable {n : Nat}

/-- `struct scheduler`.  The framework calls `acquire` and `release` only while
`current` points to a process, which is handed to them here; the callbacks
`initialize`, `finalize`, `forked` and `exiting` are null or empty in all eight
schedulers. -/
structure Scheduler (n : Nat) where
  name : String
  schedule : Sim n → Except Fault (Option (Fin n) × Sim n)
  acquire : Fin n → Nat → Sim n → Except Fault (Bool × Sim n)
  release : Fin n → Nat → Sim n → Except Fault (Sim n)

/-- `assert(condition)`. -/
def cAssert (condition : Prop) [Decidable condition] : Except Fault Unit :=
  if condition then .ok () else .error .assertFailed

/-- `resources + resource_id`, which the callbacks go on to dereference. -/
def resource (resourceId : Nat) : Except Fault (Fin nrResources) :=
  if inside : resourceId < nrResources then .ok ⟨resourceId, inside⟩
  else .error .outOfRange

/-! ### Resource callbacks

The four acquire functions have one body and differ in what they do to
priorities when the resource is granted and when it is taken; the four release
functions differ in the same way and in the waiter they wake. -/

/-- Common body of the acquire callbacks: take a free resource, otherwise block
the current process at the tail of the resource's waitqueue. -/
def acquireWith (onGrant : Fin n → Sim n → Sim n)
    (onWait : Fin n → Fin n → Sim n → Sim n) (current : Fin n)
    (resourceId : Nat) (s : Sim n) : Except Fault (Bool × Sim n) := do
  let r ← resource resourceId
  match s.owner r with
  | none => return (true, onGrant current (s.setOwner r (some current)))
  | some owner =>
      let s := (onWait owner current s).setStatus current .blocked
      let s ← s.addTailWait r current
      return (false, s)

/-- Common body of the release callbacks: un-own the resource and move one of
its waiters, if there is any, to the tail of the ready queue. -/
def releaseWith (onRelease : Fin n → Sim n → Sim n)
    (choose : Sim n → Fin n → List (Fin n) → Fin n) (current : Fin n)
    (resourceId : Nat) (s : Sim n) : Except Fault (Sim n) := do
  let r ← resource resourceId
  cAssert (s.owner r = some current)
  let s := (onRelease current s).setOwner r none
  match s.waitqueue r with
  | [] => return s
  | first :: rest =>
      let waiter := choose s first (first :: rest)
      cAssert ((s.procs waiter).status = .blocked)
      let s := (s.delInitWait r waiter).setStatus waiter .ready
      s.addTailReady waiter

/-- `list_first_entry(&r->waitqueue, ...)`. -/
def firstWaiter (_ : Sim n) (first : Fin n) (_ : List (Fin n)) : Fin n := first

/-- `pos->prio > next->prio`. -/
def higherPrio (s : Sim n) (pos next : Fin n) : Prop :=
  (s.procs pos).prio > (s.procs next).prio

instance (s : Sim n) : DecidableRel (higherPrio s) :=
  fun _ _ => inferInstanceAs (Decidable (_ > _))

/-- The scan for the waiter of highest priority, the earliest among equals. -/
def highestPrio (s : Sim n) (first : Fin n) (queue : List (Fin n)) : Fin n :=
  scan (higherPrio s) first queue

/-- `current->prio = current->prio_orig`. -/
def restorePrio (current : Fin n) (s : Sim n) : Sim n :=
  s.setPrio current (s.procs current).prioOrig

/-- `if (r->owner->prio < current->prio) r->owner->prio = current->prio`. -/
def inheritPrio (owner current : Fin n) (s : Sim n) : Sim n :=
  if (s.procs owner).prio < (s.procs current).prio then
    s.setPrio owner (s.procs current).prio
  else s

def fcfsAcquire : Fin n → Nat → Sim n → Except Fault (Bool × Sim n) :=
  acquireWith (fun _ s => s) (fun _ _ s => s)

def fcfsRelease : Fin n → Nat → Sim n → Except Fault (Sim n) :=
  releaseWith (fun _ s => s) firstWaiter

def prioAcquire : Fin n → Nat → Sim n → Except Fault (Bool × Sim n) :=
  acquireWith (fun _ s => s) (fun _ _ s => s)

def prioRelease : Fin n → Nat → Sim n → Except Fault (Sim n) :=
  releaseWith (fun _ s => s) highestPrio

def pcpAcquire : Fin n → Nat → Sim n → Except Fault (Bool × Sim n) :=
  acquireWith (fun current s => s.setPrio current maxPrio) (fun _ _ s => s)

def pcpRelease : Fin n → Nat → Sim n → Except Fault (Sim n) :=
  releaseWith restorePrio highestPrio

def pipAcquire : Fin n → Nat → Sim n → Except Fault (Bool × Sim n) :=
  acquireWith (fun _ s => s) inheritPrio

def pipRelease : Fin n → Nat → Sim n → Except Fault (Sim n) :=
  releaseWith restorePrio highestPrio

/-! ### Schedule callbacks -/

/-- `current->status == PROCESS_BLOCKED`. -/
def isBlocked (s : Sim n) (p : Fin n) : Prop := (s.procs p).status = .blocked

/-- `current->age < current->lifespan`. -/
def unfinished (s : Sim n) (p : Fin n) : Prop :=
  (s.procs p).age < (s.procs p).lifespan

instance (s : Sim n) (p : Fin n) : Decidable (isBlocked s p) :=
  inferInstanceAs (Decidable (_ = _))

instance (s : Sim n) (p : Fin n) : Decidable (unfinished s p) :=
  inferInstanceAs (Decidable (_ < _))

/-- Opening tests of the non-preemptive policies: keep an unfinished current
process, otherwise go to `pick_next`. -/
def keepUnfinished (pickNext : Sim n → Except Fault (Option (Fin n) × Sim n))
    (s : Sim n) : Except Fault (Option (Fin n) × Sim n) :=
  match s.current with
  | none => pickNext s
  | some current =>
      if isBlocked s current then pickNext s
      else if unfinished s current then .ok (some current, s)
      else pickNext s

/-- Opening tests of the preemptive policies: keep an unfinished current
process if nobody else is ready, otherwise go to `pick_next`. -/
def keepAlone (pickNext : Sim n → Except Fault (Option (Fin n) × Sim n))
    (s : Sim n) : Except Fault (Option (Fin n) × Sim n) :=
  match s.current with
  | none => pickNext s
  | some current =>
      if isBlocked s current then pickNext s
      else if s.readyqueue = [] ∧ unfinished s current then
        .ok (some current, s)
      else pickNext s

/-- `if (current && current->lifespan > current->age)
list_add_tail(&current->list, &readyqueue)`. -/
def requeueUnfinished (s : Sim n) : Except Fault (Sim n) :=
  match s.current with
  | none => .ok s
  | some current =>
      if unfinished s current then s.addTailReady current else .ok s

def fifoSchedule : Sim n → Except Fault (Option (Fin n) × Sim n) :=
  keepUnfinished fun s =>
    match s.readyqueue with
    | [] => .ok (none, s)
    | next :: _ => .ok (some next, s.delInitReady next)

/-- `pos->lifespan < next->lifespan`. -/
def shorterJob (s : Sim n) (pos next : Fin n) : Prop :=
  (s.procs pos).lifespan < (s.procs next).lifespan

instance (s : Sim n) : DecidableRel (shorterJob s) :=
  fun _ _ => inferInstanceAs (Decidable (_ < _))

def sjfSchedule : Sim n → Except Fault (Option (Fin n) × Sim n) :=
  keepUnfinished fun s =>
    match s.readyqueue with
    | [] => .ok (none, s)
    | first :: rest =>
        let next := scan (shorterJob s) first (first :: rest)
        .ok (some next, s.delInitReady next)

/-- `MAX_TC` of `stcf_schedule`. -/
def maxTc : Nat := 100000000

/-- `pos->lifespan - pos->age`, computed on `unsigned int`. -/
def timeToComplete (s : Sim n) (p : Fin n) : Nat :=
  subUInt (s.procs p).lifespan (s.procs p).age

/-- The value of `cur_tc` on reaching `pick_next`. -/
def curTc (s : Sim n) : Nat :=
  match s.current with
  | none => maxTc
  | some current =>
      if isBlocked s current then maxTc
      else if unfinished s current then timeToComplete s current
      else maxTc

/-- The scan of `stcf_schedule`: the first process of least time to complete
among those below the bound. -/
def shortestTime (s : Sim n) (bound : Nat) (queue : List (Fin n)) :
    Option (Fin n) :=
  (scanBelow (timeToComplete s) bound queue).1

def stcfSchedule : Sim n → Except Fault (Option (Fin n) × Sim n) :=
  keepAlone fun s =>
    if s.readyqueue = [] then .ok (none, s)
    else
      match shortestTime s (curTc s) s.readyqueue with
      | none => .ok (s.current, s)
      | some next => do
          -- the blocked case has jumped here too, and is not excluded
          let s ← requeueUnfinished s
          return (some next, s.delInitReady next)

def rrSchedule : Sim n → Except Fault (Option (Fin n) × Sim n) :=
  keepAlone fun s =>
    match s.readyqueue with
    | [] => .ok (none, s)
    | next :: _ => do
        -- the blocked case has jumped here too, and is not excluded
        let s ← requeueUnfinished (s.delInitReady next)
        return (some next, s)

/-- End of the priority policies: current process and candidate `next` are
compared, and unless the current one stays, `next` leaves the ready queue. -/
def switchTo (onSwitch : Fin n → Sim n → Sim n) (next : Fin n) (s : Sim n) :
    Except Fault (Option (Fin n) × Sim n) :=
  let dequeue (s : Sim n) := (some next, (onSwitch next s).delInitReady next)
  match s.current with
  | none => .ok (dequeue s)
  | some current =>
      if isBlocked s current then .ok (dequeue s)
      else if higherPrio s current next ∧ unfinished s current then
        .ok (some current, s)
      else if (s.procs current).prio = (s.procs next).prio ∨
          (s.procs current).prio < (s.procs next).prio then do
        let s ← requeueUnfinished s
        return dequeue s
      else .ok (dequeue s)

def prioSchedule : Sim n → Except Fault (Option (Fin n) × Sim n) :=
  keepAlone fun s =>
    match s.readyqueue with
    | [] => .ok (none, s)
    | first :: rest =>
        switchTo (fun _ s => s) (scan (higherPrio s) first (first :: rest)) s

/-- The scan of `pa_schedule`: every ready process is boosted by one and then
compared with the best one so far. -/
def boostScan (s : Sim n) (first : Fin n) (queue : List (Fin n)) :
    Sim n × Fin n :=
  queue.foldl
    (fun scanned pos =>
      let s := scanned.1.setPrio pos (toUInt ((scanned.1.procs pos).prio + 1))
      (s, if higherPrio s pos scanned.2 then pos else scanned.2))
    (s, first)

def paSchedule : Sim n → Except Fault (Option (Fin n) × Sim n) :=
  keepAlone fun s =>
    match s.readyqueue with
    | [] => .ok (none, s)
    | first :: rest =>
        let scanned := boostScan s first (first :: rest)
        switchTo restorePrio scanned.2 scanned.1

/-! ### The scheduler tables -/

def fifoScheduler : Scheduler n :=
  { name := "FIFO", schedule := fifoSchedule
    acquire := fcfsAcquire, release := fcfsRelease }

def sjfScheduler : Scheduler n :=
  { name := "Shortest-Job First", schedule := sjfSchedule
    acquire := fcfsAcquire, release := fcfsRelease }

def stcfScheduler : Scheduler n :=
  { name := "Shortest Time-to-Complete First", schedule := stcfSchedule
    acquire := fcfsAcquire, release := fcfsRelease }

def rrScheduler : Scheduler n :=
  { name := "Round-Robin", schedule := rrSchedule
    acquire := fcfsAcquire, release := fcfsRelease }

def prioScheduler : Scheduler n :=
  { name := "Priority", schedule := prioSchedule
    acquire := prioAcquire, release := prioRelease }

def paScheduler : Scheduler n :=
  { name := "Priority + aging", schedule := paSchedule
    acquire := prioAcquire, release := prioRelease }

def pcpScheduler : Scheduler n :=
  { name := "Priority + PCP Protocol", schedule := prioSchedule
    acquire := pcpAcquire, release := pcpRelease }

def pipScheduler : Scheduler n :=
  { name := "Priority + PIP Protocol", schedule := prioSchedule
    acquire := pipAcquire, release := pipRelease }

/-- The scheduler options of `main`. -/
inductive Policy where
  | fifo
  | sjf
  | stcf
  | rr
  | prio
  | pa
  | pcp
  | pip
deriving DecidableEq, Repr

/-- The scheduler that `main` installs for an option. -/
def Policy.scheduler : Policy → Scheduler n
  | .fifo => fifoScheduler
  | .sjf => sjfScheduler
  | .stcf => stcfScheduler
  | .rr => rrScheduler
  | .prio => prioScheduler
  | .pa => paScheduler
  | .pcp => pcpScheduler
  | .pip => pipScheduler

/-- The six policies that look at the status of the current process before
they put it back into the ready queue. -/
def statusAware : List Policy := [.fifo, .sjf, .prio, .pa, .pcp, .pip]

end OsPAs.Sched
