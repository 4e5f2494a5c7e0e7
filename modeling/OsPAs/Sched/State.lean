/-
Module: OsPAs.Sched.State
Purpose: Data of the scheduler simulator (`process.h`, `resource.h`, the
  globals of `sched.c`) and the list operations its code performs on them.
Trusted boundary: none
Main exports: Process, ProcessBlock, Sim, Fault, Sim.modify, Sim.detached,
  Sim.addTailReady, Sim.addTailWait, load
-/
import Mathlib.Logic.Function.Basic
import Mathlib.Data.Fintype.Basic
import OsPAs.Lib.Unsigned

namespace OsPAs.Sched

open Lib

/-!
Processes live on the heap and are named by pointers; a script with `n`
process blocks gives `n` of them, so a pointer is a `Fin n`.  The intrusive
list node `p->list` is at any time either linked into one of the lists headed
by `__forkqueue`, `readyqueue` and the sixteen `waitqueue`s, or points at
itself.  A list is modelled by its members in order.  The one thing this leaves
out, linking a node that is still linked elsewhere and thereby tearing the other
list apart, is the fault `linkedTwice`.
-/

/-- `NR_RESOURCES` of `resource.h`. -/
def nrResources : Nat := 16

/-- `MAX_PRIO` of `process.h`. -/
def maxPrio : Nat := 64

/-- `enum process_status`. -/
inductive ProcessStatus where
  | ready
  | running
  | blocked
  | exit
deriving DecidableEq, Repr

/-- `struct resource_schedule`; `atAge` is the field `at`. -/
structure ResourceSchedule where
  resourceId : Nat
  atAge : Nat
  duration : Nat
deriving DecidableEq, Repr

/-- `struct process`, without the list node `list` (see the queues of `Sim`). -/
structure Process where
  pid : Nat
  status : ProcessStatus
  age : Nat
  lifespan : Nat
  prio : Nat
  prioOrig : Nat
  startsAt : Nat
  resourcesToAcquire : List ResourceSchedule
  resourcesHolding : List ResourceSchedule
deriving DecidableEq, Repr

/-- One `acquire` line of a script. -/
structure AcquireLine where
  resourceId : UInt32
  atAge : UInt32
  duration : UInt32
deriving DecidableEq, Repr

/-- The `resource_schedule` that `__load_script` makes of an `acquire` line. -/
def AcquireLine.schedule (line : AcquireLine) : ResourceSchedule :=
  { resourceId := line.resourceId.toNat
    atAge := line.atAge.toNat
    duration := line.duration.toNat }

/-- One `process ... end` block of a script; a missing line leaves the zero of
the `memset`. -/
structure ProcessBlock where
  pid : UInt32
  start : UInt32 := 0
  lifespan : UInt32 := 0
  prio : UInt32 := 0
  acquires : List AcquireLine := []
deriving DecidableEq, Repr

/-- The `struct process` that `__load_script` builds from a block. -/
def ProcessBlock.process (block : ProcessBlock) : Process :=
  { pid := block.pid.toNat
    status := .ready
    age := 0
    lifespan := block.lifespan.toNat
    prio := block.prio.toNat
    prioOrig := block.prio.toNat
    startsAt := block.start.toNat
    resourcesToAcquire := block.acquires.map AcquireLine.schedule
    resourcesHolding := [] }

/-- One line that `__print_event` or the idle branch writes to `stderr`. -/
inductive Event (n : Nat) where
  | forked (p : Fin n)
  | exited (p : Fin n)
  | blocked (p : Fin n) (resourceId : Nat)
  | acquired (p : Fin n) (resourceId : Nat)
  | released (p : Fin n) (resourceId : Nat)
  | ran (p : Fin n)
  | idle
deriving DecidableEq, Repr

/-- Ways for a run to end other than by leaving the main loop: a failed
`assert`, an access outside `resources[]`, a use of a process that was freed, a
list node linked while still linked. -/
inductive Fault where
  | assertFailed
  | outOfRange
  | useAfterFree
  | linkedTwice
deriving DecidableEq, Repr

/-- The globals of `sched.c`: `resources[]` is split into its `owner` and
`waitqueue` members, `stderr` collects the output with the tick of each line. -/
structure Sim (n : Nat) where
  procs : Fin n → Process
  current : Option (Fin n)
  ticks : Nat
  forkqueue : List (Fin n)
  readyqueue : List (Fin n)
  owner : Fin nrResources → Option (Fin n)
  waitqueue : Fin nrResources → List (Fin n)
  stderr : List (Nat × Event n)

variable {n : Nat}

/-! ### Field updates -/

namespace Sim

/-- Assign to the fields of one process. -/
def modify (s : Sim n) (p : Fin n) (change : Process → Process) : Sim n :=
  { s with procs := Function.update s.procs p (change (s.procs p)) }

/-- `__print_event` and the `idle` line. -/
def print (s : Sim n) (event : Event n) : Sim n :=
  { s with stderr := s.stderr ++ [(s.ticks, event)] }

def setStatus (s : Sim n) (p : Fin n) (status : ProcessStatus) : Sim n :=
  s.modify p fun process => { process with status := status }

def setPrio (s : Sim n) (p : Fin n) (prio : Nat) : Sim n :=
  s.modify p fun process => { process with prio := prio }

def setOwner (s : Sim n) (r : Fin nrResources) (owner : Option (Fin n)) :
    Sim n :=
  { s with owner := Function.update s.owner r owner }

/-- The same simulator state with other effective priorities: all that the
policies' own bookkeeping ever changes. -/
def withPrio (s : Sim n) (prio : Fin n → Nat) : Sim n :=
  { s with procs := fun p => { s.procs p with prio := prio p } }

/-! ### The lists of `list_head.h` -/

/-- `list_empty(&p->list)`: the node of `p` is in no list. -/
def detached (s : Sim n) (p : Fin n) : Prop :=
  p ∉ s.forkqueue ∧ p ∉ s.readyqueue ∧ ∀ r, p ∉ s.waitqueue r

instance (s : Sim n) (p : Fin n) : Decidable (s.detached p) :=
  inferInstanceAs (Decidable (_ ∧ _ ∧ _))

/-- `list_add_tail(&p->list, &readyqueue)`. -/
def addTailReady (s : Sim n) (p : Fin n) : Except Fault (Sim n) :=
  if s.detached p then .ok { s with readyqueue := s.readyqueue ++ [p] }
  else .error .linkedTwice

/-- `list_add_tail(&p->list, &resources[r].waitqueue)`. -/
def addTailWait (s : Sim n) (r : Fin nrResources) (p : Fin n) :
    Except Fault (Sim n) :=
  if s.detached p then
    .ok { s with
          waitqueue := Function.update s.waitqueue r (s.waitqueue r ++ [p]) }
  else .error .linkedTwice

/-- `list_del_init(&p->list)` for a member of `readyqueue`. -/
def delInitReady (s : Sim n) (p : Fin n) : Sim n :=
  { s with readyqueue := s.readyqueue.erase p }

/-- `list_del_init(&p->list)` for a member of `resources[r].waitqueue`. -/
def delInitWait (s : Sim n) (r : Fin nrResources) (p : Fin n) : Sim n :=
  { s with waitqueue := Function.update s.waitqueue r ((s.waitqueue r).erase p) }

/-! ### What an update leaves alone -/

section Frame

variable (s : Sim n) (p q : Fin n) (r : Fin nrResources)

theorem modify_procs (change : Process → Process) :
    (s.modify p change).procs q =
      if q = p then change (s.procs p) else s.procs q := by
  simp only [modify, Function.update_apply]

@[simp] theorem modify_self (change : Process → Process) :
    (s.modify p change).procs p = change (s.procs p) := by
  simp [modify_procs]

theorem modify_of_ne {p q : Fin n} (ne : q ≠ p) (change : Process → Process) :
    (s.modify p change).procs q = s.procs q := by
  simp [modify_procs, ne]

@[simp] theorem modify_current (change : Process → Process) :
    (s.modify p change).current = s.current := rfl
@[simp] theorem modify_ticks (change : Process → Process) :
    (s.modify p change).ticks = s.ticks := rfl
@[simp] theorem modify_forkqueue (change : Process → Process) :
    (s.modify p change).forkqueue = s.forkqueue := rfl
@[simp] theorem modify_readyqueue (change : Process → Process) :
    (s.modify p change).readyqueue = s.readyqueue := rfl
@[simp] theorem modify_owner (change : Process → Process) :
    (s.modify p change).owner = s.owner := rfl
@[simp] theorem modify_waitqueue (change : Process → Process) :
    (s.modify p change).waitqueue = s.waitqueue := rfl

@[simp] theorem print_procs (event : Event n) :
    (s.print event).procs = s.procs := rfl
@[simp] theorem print_current (event : Event n) :
    (s.print event).current = s.current := rfl
@[simp] theorem print_ticks (event : Event n) :
    (s.print event).ticks = s.ticks := rfl
@[simp] theorem print_forkqueue (event : Event n) :
    (s.print event).forkqueue = s.forkqueue := rfl
@[simp] theorem print_readyqueue (event : Event n) :
    (s.print event).readyqueue = s.readyqueue := rfl
@[simp] theorem print_owner (event : Event n) :
    (s.print event).owner = s.owner := rfl
@[simp] theorem print_waitqueue (event : Event n) :
    (s.print event).waitqueue = s.waitqueue := rfl

@[simp] theorem withPrio_current (prio : Fin n → Nat) :
    (s.withPrio prio).current = s.current := rfl
@[simp] theorem withPrio_ticks (prio : Fin n → Nat) :
    (s.withPrio prio).ticks = s.ticks := rfl
@[simp] theorem withPrio_forkqueue (prio : Fin n → Nat) :
    (s.withPrio prio).forkqueue = s.forkqueue := rfl
@[simp] theorem withPrio_readyqueue (prio : Fin n → Nat) :
    (s.withPrio prio).readyqueue = s.readyqueue := rfl
@[simp] theorem withPrio_owner (prio : Fin n → Nat) :
    (s.withPrio prio).owner = s.owner := rfl
@[simp] theorem withPrio_waitqueue (prio : Fin n → Nat) :
    (s.withPrio prio).waitqueue = s.waitqueue := rfl

/-- Reassigning the effective priorities touches no other field. -/
theorem withPrio_procs (prio : Fin n → Nat) :
    (s.withPrio prio).procs p = { s.procs p with prio := prio p } := rfl

theorem withPrio_self : s.withPrio (fun p => (s.procs p).prio) = s := rfl

theorem setPrio_eq_withPrio (prio : Nat) :
    s.setPrio p prio =
      s.withPrio (Function.update (fun q => (s.procs q).prio) p prio) := by
  simp only [setPrio, modify, withPrio, Sim.mk.injEq, and_true]
  funext q
  by_cases same : q = p
  · subst same; simp
  · simp [same]

end Frame

end Sim

/-! ### The initial state -/

/-- `__initialize` and `__load_script`: every process on `__forkqueue` in the
order of the script, nothing owned, no current process, tick 0. -/
def load (script : List ProcessBlock) : Sim script.length :=
  { procs := fun p => (script.get p).process
    current := none
    ticks := 0
    forkqueue := List.finRange script.length
    readyqueue := []
    owner := fun _ => none
    waitqueue := fun _ => []
    stderr := [] }

end OsPAs.Sched
