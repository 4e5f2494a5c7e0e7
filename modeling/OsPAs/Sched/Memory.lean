/-
Module: OsPAs.Sched.Memory
Purpose: The simulator on its data structures: `struct process` and
  `struct resource_schedule` in memory that is allocated and freed, linked by the
  list heads inside them, and every access to a list through its pointers.
Trusted boundary: none
Main exports: Node, Fields, MemoryFault, Memory, InMemory.Scheduler,
  InMemory.Policy.scheduler, InMemory.dispatch, InMemory.execute, InMemory.body,
  InMemory.load, InMemory.doSimulation
-/
import OsPAs.Lib.Commands
import OsPAs.Lib.Rings
import OsPAs.Sched.Simulation

namespace OsPAs.Sched

open Lib

variable {n : Nat}

/-! ### Memory -/

/-- The list heads: three kinds of queues, three in each `struct process`, one in
each `struct resource_schedule`, here the one of the `i`th acquire line of `p`. -/
inductive Node (n : Nat) where
  | readyqueue
  | forkqueue
  | waitqueue (r : Fin nrResources)
  | list (p : Fin n)
  | resourcesToAcquire (p : Fin n)
  | resourcesHolding (p : Fin n)
  | schedule (p : Fin n) (i : Nat)
deriving DecidableEq, Repr

/-- `struct process`, without its list heads. -/
structure Fields where
  pid : Nat
  status : ProcessStatus
  age : Nat
  lifespan : Nat
  prio : Nat
  prioOrig : Nat
  startsAt : Nat
deriving DecidableEq, Repr

/-- Ways for a run in memory to end other than by leaving the main loop: a failed
`assert`, an access outside `resources[]`, a use of a structure that was freed, a
list pointer that leads nowhere or to something of another kind, a loop with more
passes than it has fuel. -/
inductive MemoryFault where
  | assertFailed
  | outOfRange
  | useAfterFree
  | strayPointer
  | endless
deriving DecidableEq, Repr

/-- The globals of `sched.c` and what is on the heap. -/
structure Memory (n : Nat) where
  links : Links (Node n)
  procs : Fin n → Option Fields
  schedules : Fin n → Nat → Option ResourceSchedule
  current : Option (Fin n)
  ticks : Nat
  owner : Fin nrResources → Option (Fin n)
  stderr : List (Nat × Event n)

namespace Memory

variable (m : Memory n)

/-- `*p`. -/
def process (p : Fin n) : Except MemoryFault Fields :=
  match m.procs p with
  | none => .error .useAfterFree
  | some fields => .ok fields

/-- Assign to the fields of one process. -/
def modify (p : Fin n) (change : Fields → Fields) :
    Except MemoryFault (Memory n) := do
  let fields ← m.process p
  return { m with procs := Function.update m.procs p (some (change fields)) }

def setStatus (p : Fin n) (status : ProcessStatus) :
    Except MemoryFault (Memory n) :=
  m.modify p fun fields => { fields with status := status }

def setPrio (p : Fin n) (prio : Nat) : Except MemoryFault (Memory n) :=
  m.modify p fun fields => { fields with prio := prio }

def setOwner (r : Fin nrResources) (owner : Option (Fin n)) : Memory n :=
  { m with owner := Function.update m.owner r owner }

/-- `*rs`. -/
def schedule (p : Fin n) (i : Nat) : Except MemoryFault ResourceSchedule :=
  match m.schedules p i with
  | none => .error .useAfterFree
  | some rs => .ok rs

/-- What is in the memory of a `struct resource_schedule` from now on. -/
def putSchedule (p : Fin n) (i : Nat) (content : Option ResourceSchedule) :
    Memory n :=
  { m with schedules := Function.update m.schedules p
            (Function.update (m.schedules p) i content) }

/-- `__print_event` and the `idle` line. -/
def print (event : Event n) : Memory n :=
  { m with stderr := m.stderr ++ [(m.ticks, event)] }

/-- An operation of `list_head.h`. -/
def onLinks (operation : Links (Node n) → Option (Links (Node n))) :
    Except MemoryFault (Memory n) :=
  match operation m.links with
  | none => .error .strayPointer
  | some links => .ok { m with links := links }

/-- `list_empty(head)`. -/
def isEmpty (head : Node n) : Except MemoryFault Bool :=
  match m.links.listEmpty head with
  | none => .error .strayPointer
  | some empty => .ok empty

end Memory

/-- `list_entry(node, struct process, list)`. -/
def Node.asProcess : Node n → Except MemoryFault (Fin n)
  | .list p => .ok p
  | _ => .error .strayPointer

/-- `list_entry(node, struct resource_schedule, list)`. -/
def Node.asSchedule : Node n → Except MemoryFault (Fin n × Nat)
  | .schedule p i => .ok (p, i)
  | _ => .error .strayPointer

/-- `list_first_entry(head, struct process, list)`. -/
def Memory.firstProcess (m : Memory n) (head : Node n) :
    Except MemoryFault (Fin n) :=
  match m.links.next head with
  | none => .error .strayPointer
  | some node => node.asProcess

namespace InMemory

/-! ### Loops over processes -/

/-- `list_for_each_entry_safe(pos, tmp, head, list)` for a `struct process`. -/
def forEachProcess {σ : Type} (fuel : Nat) (head : Node n)
    (links : σ → Links (Node n))
    (body : Fin n → σ → Except MemoryFault (Pass σ)) (s : σ) :
    Except MemoryFault σ := do
  let pass ← forEachSafe links .strayPointer .endless head
    (fun node s => do body (← node.asProcess) s) fuel s
  return pass.state

/-- The scan for the best process of a list. -/
def scanProcesses (better : Fields → Fields → Prop) [DecidableRel better]
    (fuel : Nat) (head : Node n) (first : Fin n) (m : Memory n) :
    Except MemoryFault (Fin n) :=
  forEachProcess fuel head (fun _ => m.links)
    (fun pos best => do
      if better (← m.process pos) (← m.process best) then return .again pos
      else return .again best)
    first

/-- `assert(condition)`. -/
def cAssert (condition : Prop) [Decidable condition] :
    Except MemoryFault Unit :=
  if condition then .ok () else .error .assertFailed

/-- `resources + resource_id`. -/
def resource (resourceId : Nat) : Except MemoryFault (Fin nrResources) :=
  if inside : resourceId < nrResources then .ok ⟨resourceId, inside⟩
  else .error .outOfRange

/-! ### Resource callbacks -/

/-- Common body of the acquire callbacks. -/
def acquireWith (onGrant : Fin n → Memory n → Except MemoryFault (Memory n))
    (onWait : Fin n → Fin n → Memory n → Except MemoryFault (Memory n))
    (current : Fin n) (resourceId : Nat) (m : Memory n) :
    Except MemoryFault (Bool × Memory n) := do
  let r ← resource resourceId
  match m.owner r with
  | none =>
      let m ← onGrant current (m.setOwner r (some current))
      return (true, m)
  | some owner =>
      let m ← onWait owner current m
      let m ← m.setStatus current .blocked
      let m ← m.onLinks (·.listAddTail (.list current) (.waitqueue r))
      return (false, m)

/-- Common body of the release callbacks. -/
def releaseWith (onRelease : Fin n → Memory n → Except MemoryFault (Memory n))
    (choose : Node n → Fin n → Memory n → Except MemoryFault (Fin n))
    (current : Fin n) (resourceId : Nat) (m : Memory n) :
    Except MemoryFault (Memory n) := do
  let r ← resource resourceId
  cAssert (m.owner r = some current)
  let m ← onRelease current m
  let m := m.setOwner r none
  if ← m.isEmpty (.waitqueue r) then return m
  else
    let waiter ← choose (.waitqueue r) (← m.firstProcess (.waitqueue r)) m
    cAssert ((← m.process waiter).status = .blocked)
    let m ← m.onLinks (·.listDelInit (.list waiter))
    let m ← m.setStatus waiter .ready
    m.onLinks (·.listAddTail (.list waiter) .readyqueue)

/-- Nothing is done to priorities. -/
def noPrio (m : Memory n) : Except MemoryFault (Memory n) := .ok m

def firstWaiter (_ : Node n) (first : Fin n) (_ : Memory n) :
    Except MemoryFault (Fin n) := .ok first

/-- `pos->prio > next->prio`. -/
def higherPrio (pos next : Fields) : Prop := pos.prio > next.prio

instance : DecidableRel higherPrio :=
  fun _ _ => inferInstanceAs (Decidable (_ > _))

def highestPrio (fuel : Nat) (head : Node n) (first : Fin n) (m : Memory n) :
    Except MemoryFault (Fin n) :=
  scanProcesses higherPrio fuel head first m

/-- `current->prio = current->prio_orig`. -/
def restorePrio (current : Fin n) (m : Memory n) :
    Except MemoryFault (Memory n) := do
  m.setPrio current (← m.process current).prioOrig

/-- `if (r->owner->prio < current->prio) r->owner->prio = current->prio`. -/
def inheritPrio (owner current : Fin n) (m : Memory n) :
    Except MemoryFault (Memory n) := do
  let prio := (← m.process current).prio
  if (← m.process owner).prio < prio then m.setPrio owner prio else return m

def fcfsAcquire : Fin n → Nat → Memory n → Except MemoryFault (Bool × Memory n) :=
  acquireWith (fun _ => noPrio) (fun _ _ => noPrio)

def fcfsRelease : Fin n → Nat → Memory n → Except MemoryFault (Memory n) :=
  releaseWith (fun _ => noPrio) firstWaiter

def prioAcquire : Fin n → Nat → Memory n → Except MemoryFault (Bool × Memory n) :=
  acquireWith (fun _ => noPrio) (fun _ _ => noPrio)

def prioRelease (fuel : Nat) :
    Fin n → Nat → Memory n → Except MemoryFault (Memory n) :=
  releaseWith (fun _ => noPrio) (highestPrio fuel)

def pcpAcquire : Fin n → Nat → Memory n → Except MemoryFault (Bool × Memory n) :=
  acquireWith (fun current m => m.setPrio current maxPrio) (fun _ _ => noPrio)

def pcpRelease (fuel : Nat) :
    Fin n → Nat → Memory n → Except MemoryFault (Memory n) :=
  releaseWith restorePrio (highestPrio fuel)

def pipAcquire : Fin n → Nat → Memory n → Except MemoryFault (Bool × Memory n) :=
  acquireWith (fun _ => noPrio) inheritPrio

def pipRelease (fuel : Nat) :
    Fin n → Nat → Memory n → Except MemoryFault (Memory n) :=
  releaseWith restorePrio (highestPrio fuel)

/-! ### Schedule callbacks -/

/-- What a `schedule` callback returns, and the memory it leaves. -/
abbrev Choice (n : Nat) := Except MemoryFault (Option (Fin n) × Memory n)

/-- Opening tests of the non-preemptive policies. -/
def keepUnfinished (pickNext : Memory n → Choice n) (m : Memory n) : Choice n :=
  match m.current with
  | none => pickNext m
  | some current => do
      let fields ← m.process current
      if fields.status = .blocked then pickNext m
      else if fields.age < fields.lifespan then return (some current, m)
      else pickNext m

/-- Opening tests of the preemptive policies. -/
def keepAlone (pickNext : Memory n → Choice n) (m : Memory n) : Choice n :=
  match m.current with
  | none => pickNext m
  | some current => do
      let fields ← m.process current
      if fields.status = .blocked then pickNext m
      else if (← m.isEmpty .readyqueue) = true ∧ fields.age < fields.lifespan then
        return (some current, m)
      else pickNext m

/-- `if (current && current->lifespan > current->age)
list_add_tail(&current->list, &readyqueue)`. -/
def requeueUnfinished (m : Memory n) : Except MemoryFault (Memory n) :=
  match m.current with
  | none => .ok m
  | some current => do
      let fields ← m.process current
      if fields.age < fields.lifespan then
        m.onLinks (·.listAddTail (.list current) .readyqueue)
      else return m

/-- `list_del_init(&next->list); return next`. -/
def dequeue (next : Fin n) (m : Memory n) : Choice n := do
  let m ← m.onLinks (·.listDelInit (.list next))
  return (some next, m)

def fifoSchedule : Memory n → Choice n :=
  keepUnfinished fun m => do
    if ← m.isEmpty .readyqueue then return (none, m)
    else dequeue (← m.firstProcess .readyqueue) m

/-- `pos->lifespan < next->lifespan`. -/
def shorterJob (pos next : Fields) : Prop := pos.lifespan < next.lifespan

instance : DecidableRel shorterJob :=
  fun _ _ => inferInstanceAs (Decidable (_ < _))

def sjfSchedule (fuel : Nat) : Memory n → Choice n :=
  keepUnfinished fun m => do
    if ← m.isEmpty .readyqueue then return (none, m)
    else
      let first ← m.firstProcess .readyqueue
      dequeue (← scanProcesses shorterJob fuel .readyqueue first m) m

/-- `p->lifespan - p->age`, computed on `unsigned int`. -/
def timeToComplete (fields : Fields) : Nat :=
  subUInt fields.lifespan fields.age

/-- The value of `cur_tc` on reaching `pick_next`. -/
def curTc (m : Memory n) : Except MemoryFault Nat :=
  match m.current with
  | none => .ok maxTc
  | some current => do
      let fields ← m.process current
      if fields.status = .blocked then return maxTc
      else if fields.age < fields.lifespan then return timeToComplete fields
      else return maxTc

/-- The scan of `stcf_schedule`. -/
def shortestTime (fuel bound : Nat) (m : Memory n) :
    Except MemoryFault (Option (Fin n) × Nat) :=
  forEachProcess fuel .readyqueue (fun _ => m.links)
    (fun pos best => do
      let posTc := timeToComplete (← m.process pos)
      if posTc < best.2 then return .again (some pos, posTc)
      else return .again best)
    (none, bound)

def stcfSchedule (fuel : Nat) : Memory n → Choice n :=
  keepAlone fun m => do
    if ← m.isEmpty .readyqueue then return (none, m)
    else
      match (← shortestTime fuel (← curTc m) m).1 with
      | none => return (m.current, m)
      | some next => dequeue next (← requeueUnfinished m)

def rrSchedule : Memory n → Choice n :=
  keepAlone fun m => do
    if ← m.isEmpty .readyqueue then return (none, m)
    else
      let next ← m.firstProcess .readyqueue
      let m ← m.onLinks (·.listDelInit (.list next))
      let m ← requeueUnfinished m
      return (some next, m)

/-- End of the priority policies. -/
def switchTo (onSwitch : Fin n → Memory n → Except MemoryFault (Memory n))
    (next : Fin n) (m : Memory n) : Choice n :=
  match m.current with
  | none => do dequeue next (← onSwitch next m)
  | some current => do
      let fields ← m.process current
      if fields.status = .blocked then dequeue next (← onSwitch next m)
      else
        let candidate ← m.process next
        if higherPrio fields candidate ∧ fields.age < fields.lifespan then
          return (some current, m)
        else if fields.prio = candidate.prio ∨ fields.prio < candidate.prio then
          let m ← requeueUnfinished m
          dequeue next (← onSwitch next m)
        else dequeue next (← onSwitch next m)

def prioSchedule (fuel : Nat) : Memory n → Choice n :=
  keepAlone fun m => do
    if ← m.isEmpty .readyqueue then return (none, m)
    else
      let first ← m.firstProcess .readyqueue
      let next ← scanProcesses higherPrio fuel .readyqueue first m
      switchTo (fun _ => noPrio) next m

/-- The scan of `pa_schedule`. -/
def boostScan (fuel : Nat) (first : Fin n) (m : Memory n) :
    Except MemoryFault (Memory n × Fin n) :=
  forEachProcess fuel .readyqueue (fun scanned => scanned.1.links)
    (fun pos scanned => do
      let m := scanned.1
      let m ← m.setPrio pos (toUInt ((← m.process pos).prio + 1))
      if higherPrio (← m.process pos) (← m.process scanned.2) then
        return .again (m, pos)
      else return .again (m, scanned.2))
    (m, first)

def paSchedule (fuel : Nat) : Memory n → Choice n :=
  keepAlone fun m => do
    if ← m.isEmpty .readyqueue then return (none, m)
    else
      let first ← m.firstProcess .readyqueue
      let (m, next) ← boostScan fuel first m
      switchTo restorePrio next m

/-! ### The scheduler tables -/

/-- `struct scheduler`. -/
structure Scheduler (n : Nat) where
  schedule : Memory n → Choice n
  acquire : Fin n → Nat → Memory n → Except MemoryFault (Bool × Memory n)
  release : Fin n → Nat → Memory n → Except MemoryFault (Memory n)

/-- The schedulers of `pa2.c`; `fuel` bounds the passes of each of their loops. -/
def scheduler (fuel : Nat) : Policy → Scheduler n
  | .fifo => ⟨fifoSchedule, fcfsAcquire, fcfsRelease⟩
  | .sjf => ⟨sjfSchedule fuel, fcfsAcquire, fcfsRelease⟩
  | .stcf => ⟨stcfSchedule fuel, fcfsAcquire, fcfsRelease⟩
  | .rr => ⟨rrSchedule, fcfsAcquire, fcfsRelease⟩
  | .prio => ⟨prioSchedule fuel, prioAcquire, prioRelease fuel⟩
  | .pa => ⟨paSchedule fuel, prioAcquire, prioRelease fuel⟩
  | .pcp => ⟨prioSchedule fuel, pcpAcquire, pcpRelease fuel⟩
  | .pip => ⟨prioSchedule fuel, pipAcquire, pipRelease fuel⟩

/-! ### Fork and exit -/

/-- `__fork_on_schedule`. -/
def forkOnSchedule (fuel : Nat) (m : Memory n) :
    Except MemoryFault (Memory n) :=
  forEachProcess fuel .forkqueue Memory.links
    (fun p m => do
      if (← m.process p).startsAt ≤ m.ticks then
        let m ← m.onLinks (·.listMoveTail (.list p) .readyqueue)
        let m ← m.setStatus p .ready
        return .again (m.print (.forked p))
      else return .again m)
    m

/-- `free(p)`. -/
def freeProcess (p : Fin n) (m : Memory n) : Memory n :=
  { m with
    procs := Function.update m.procs p none
    links := ((m.links.free (.list p)).free (.resourcesToAcquire p)).free
      (.resourcesHolding p) }

/-- `__exit_process`. -/
def exitProcess (p : Fin n) (m : Memory n) : Except MemoryFault (Memory n) := do
  cAssert ((← m.isEmpty (.list p)) = true)
  cAssert ((← m.isEmpty (.resourcesHolding p)) = true)
  cAssert ((← m.isEmpty (.resourcesToAcquire p)) = true)
  return freeProcess p (m.print (.exited p))

/-- What the main loop does with the process of the previous tick. -/
def retirePrev (prev : Option (Fin n)) (m : Memory n) :
    Except MemoryFault (Memory n) :=
  match prev with
  | none => .ok m
  | some p => do
      let fields ← m.process p
      let m ← if fields.status = .running then m.setStatus p .ready else .ok m
      if fields.age = fields.lifespan then
        exitProcess p (← m.setStatus p .exit)
      else return m

/-- First half of the loop body. -/
def dispatch (fuel : Nat) (sched : Scheduler n) (m : Memory n) :
    Except MemoryFault (Memory n) := do
  let m ← forkOnSchedule fuel m
  let prev := m.current
  let (next, m) ← sched.schedule m
  retirePrev prev { m with current := next }

/-! ### Acquiring and releasing on schedule -/

/-- One pass of the loop in `__run_current_acquire`. -/
def acquirePass (sched : Scheduler n) (c : Fin n) (node : Node n)
    (m : Memory n) : Except MemoryFault (Pass (Memory n)) := do
  let (p, i) ← node.asSchedule
  let rs ← m.schedule p i
  if rs.atAge = (← m.process c).age then
    let (granted, m) ← sched.acquire c rs.resourceId m
    if granted then
      let m ← m.onLinks (·.listMoveTail node (.resourcesHolding c))
      return .again (m.print (.acquired c rs.resourceId))
    else return .leave (m.print (.blocked c rs.resourceId))
  else return .again m

/-- `__run_current_acquire`. -/
def runCurrentAcquire (fuel : Nat) (sched : Scheduler n) (c : Fin n)
    (m : Memory n) : Except MemoryFault (Bool × Memory n) := do
  match ← forEachSafe Memory.links .strayPointer .endless
      (.resourcesToAcquire c) (acquirePass sched c) fuel m with
  | .again m => return (true, m)
  | .leave m => return (false, m)

/-- `free(rs)`. -/
def freeSchedule (p : Fin n) (i : Nat) (m : Memory n) : Memory n :=
  { m.putSchedule p i none with links := m.links.free (.schedule p i) }

/-- One pass of the loop in `__run_current_release`. -/
def releasePass (sched : Scheduler n) (c : Fin n) (node : Node n)
    (m : Memory n) : Except MemoryFault (Pass (Memory n)) := do
  let (p, i) ← node.asSchedule
  let rs ← m.schedule p i
  let duration := subUInt rs.duration 1
  let m := m.putSchedule p i (some { rs with duration := duration })
  if duration ≠ 0 then return .again m
  else
    let m ← sched.release c rs.resourceId m
    let m ← (m.print (.released c rs.resourceId)).onLinks (·.listDel node)
    return .again (freeSchedule p i m)

/-- `__run_current_release`. -/
def runCurrentRelease (fuel : Nat) (sched : Scheduler n) (c : Fin n)
    (m : Memory n) : Except MemoryFault (Memory n) := do
  let pass ← forEachSafe Memory.links .strayPointer .endless
    (.resourcesHolding c) (releasePass sched c) fuel m
  return pass.state

/-! ### The main loop -/

/-- `ticks++`. -/
def nextTick (m : Memory n) : Memory n := { m with ticks := toUInt (m.ticks + 1) }

/-- `current->age++`. -/
def growOlder (c : Fin n) (m : Memory n) : Except MemoryFault (Memory n) :=
  m.modify c fun fields => { fields with age := toUInt (fields.age + 1) }

/-- Second half of the loop body. -/
def execute (fuel : Nat) (sched : Scheduler n) (m : Memory n) :
    Except MemoryFault (Memory n) :=
  match m.current with
  | none => .ok (nextTick (m.print .idle))
  | some c => do
      let m ← m.setStatus c .running
      cAssert ((← m.isEmpty (.list c)) = true)
      let (granted, m) ← runCurrentAcquire fuel sched c m
      if granted then
        let m ← growOlder c (m.print (.ran c))
        return nextTick (← runCurrentRelease fuel sched c m)
      else return nextTick m

/-- The `break` condition of the main loop. -/
def quits (m : Memory n) : Except MemoryFault Bool := do
  if m.current = none then
    return (← m.isEmpty .readyqueue) && (← m.isEmpty .forkqueue)
  else return false

/-- Body of the `while (true)` of `__do_simulation`. -/
def body (fuel : Nat) (sched : Scheduler n) (m : Memory n) :
    Except MemoryFault (Pass (Memory n)) := do
  let m ← dispatch fuel sched m
  if ← quits m then return .leave m
  else return .again (← execute fuel sched m)

/-! ### The initial state -/

/-- The globals before `main`; nothing is on the heap.  What the list heads hold
is overwritten before it is read. -/
def globals : Memory n :=
  { links := fun node =>
      match node with
      | .readyqueue | .forkqueue | .waitqueue _ =>
          some { next := none, prev := none }
      | _ => none
    procs := fun _ => none
    schedules := fun _ _ => none
    current := none
    ticks := 0
    owner := fun _ => none
    stderr := [] }

/-- `__initialize`. -/
def initializeLists (m : Memory n) : Except MemoryFault (Memory n) := do
  let m ← m.onLinks (·.initListHead .readyqueue)
  let m ← (List.finRange nrResources).foldlM
    (fun m r => (m.setOwner r none).onLinks (·.initListHead (.waitqueue r))) m
  m.onLinks (·.initListHead .forkqueue)

/-- The fields that a block gives a `struct process`. -/
def fieldsOf (process : Process) : Fields :=
  { pid := process.pid
    status := process.status
    age := process.age
    lifespan := process.lifespan
    prio := process.prio
    prioOrig := process.prioOrig
    startsAt := process.startsAt }

/-- What `__load_script` does for the line `process`, with the fields that the
lines of the block assign. -/
def newProcess (p : Fin n) (block : ProcessBlock) (m : Memory n) :
    Except MemoryFault (Memory n) := do
  let m := { m with
    procs := Function.update m.procs p (some (fieldsOf block.process))
    links := ((m.links.alloc (.list p)).alloc (.resourcesToAcquire p)).alloc
      (.resourcesHolding p) }
  let m ← m.onLinks (·.initListHead (.list p))
  let m ← m.onLinks (·.initListHead (.resourcesToAcquire p))
  m.onLinks (·.initListHead (.resourcesHolding p))

/-- What `__load_script` does for the `i`th line `acquire` of `p`. -/
def newSchedule (p : Fin n) (m : Memory n) (line : AcquireLine × Nat) :
    Except MemoryFault (Memory n) :=
  let m := m.putSchedule p line.2 (some line.1.schedule)
  { m with links := m.links.alloc (.schedule p line.2) }.onLinks
    (·.listAddTail (.schedule p line.2) (.resourcesToAcquire p))

/-- What `__load_script` does for the block of `p`. -/
def loadBlock (block : Fin n → ProcessBlock) (m : Memory n) (p : Fin n) :
    Except MemoryFault (Memory n) := do
  let m ← newProcess p (block p) m
  let m ← (block p).acquires.zipIdx.foldlM (newSchedule p) m
  m.onLinks (·.listAddTail (.list p) .forkqueue)

/-- `__initialize` and `__load_script`. -/
def load (script : List ProcessBlock) :
    Except MemoryFault (Memory script.length) := do
  (List.finRange script.length).foldlM (loadBlock script.get)
    (← initializeLists globals)

/-- `__do_simulation` after `k` passes through its loop. -/
def doSimulation (fuel : Nat) (script : List ProcessBlock) (policy : Policy)
    (k : Nat) : Except MemoryFault (Pass (Memory script.length)) := do
  iterate (body fuel (scheduler fuel policy)) (← load script) k

end InMemory

end OsPAs.Sched
