/-
Module: OsPAs.Sched.Decommission
Purpose: Nobody outlives its lifespan and nobody drops out of the simulation
  without `__exit_process`, under any of the eight policies, as long as every
  lifespan is at least one.  The exit test compares age and lifespan for
  equality after a tick, and a lifespan of zero is passed by in that tick.
Trusted boundary: none
Main exports: StateOf, Decommissioned, PlainJobs.exitsPrinted,
  decommissioned_in_time
-/
import OsPAs.Sched.Jobs

namespace OsPAs.Sched

open Lib

variable {n : Nat}

/-! ### The property -/

/-- The states of a run: between two ticks, between the two halves of a pass,
and when the loop has been left. -/
inductive StateOf (script : List ProcessBlock)
    (sched : Scheduler script.length) (k : Nat) : Sim script.length → Prop where
  | between {s : Sim script.length}
      (reached : doSimulation script sched k = .ok (.again s)) :
      StateOf script sched k s
  | dispatched {s mid : Sim script.length}
      (reached : doSimulation script sched k = .ok (.again s))
      (dispatchedEq : dispatch sched s = .ok mid) : StateOf script sched k mid
  | left {last : Sim script.length}
      (ended : doSimulation script sched k = .ok (.leave last)) :
      StateOf script sched k last

/-- Nobody is older than its lifespan, and everybody who has been forked and is
neither ready nor running has been through `__exit_process`. -/
structure Decommissioned (s : Sim n) : Prop where
  bounded : ∀ p, (s.procs p).age ≤ (s.procs p).lifespan
  exited : ∀ p, p ∉ s.forkqueue → p ∉ s.readyqueue → s.current ≠ some p →
    (s.procs p).status = .exit ∧ (printedAt s (.exited p)).length = 1

instance (s : Sim n) : Decidable (Decommissioned s) :=
  decidable_of_iff
    ((∀ p, (s.procs p).age ≤ (s.procs p).lifespan) ∧
      ∀ p, s.forkqueue.contains p = false → s.readyqueue.contains p = false →
        s.current ≠ some p →
          (s.procs p).status = .exit ∧ (printedAt s (.exited p)).length = 1)
    ⟨fun both => ⟨both.1, fun p forked ready =>
        both.2 p (by simpa using forked) (by simpa using ready)⟩,
      fun both => ⟨both.bounded, fun p forked ready =>
        both.exited p (by simpa using forked) (by simpa using ready)⟩⟩

/-- Where nobody waits for a resource, those who are nowhere have exited. -/
theorem Whole.decommissioned {s : Sim n} {run : Option (Fin n)}
    (whole : Whole s run) (nowhere : ∀ p r, p ∉ s.waitqueue r)
    (running : ∀ p, run = some p → s.current = some p)
    (printed : ExitsPrinted s) : Decommissioned s where
  bounded := whole.bounded
  exited := fun p forked notReady notCurrent => by
    have exited := whole.exited_of_absent (nowhere p) forked notReady
      fun isRun => notCurrent (running p isRun)
    exact ⟨exited, by rw [printed p, if_pos exited]⟩

/-! ### Whole runs -/

section Runs

variable {script : List ProcessBlock} {policy : Policy} {k : Nat}
  {s mid : Sim script.length}

/-- Between two ticks exactly the processes that have exited are printed as
exited. -/
theorem PlainJobs.exitsPrinted (plain : PlainJobs script)
    (reached : doSimulation script policy.scheduler k = .ok (.again s)) :
    ExitsPrinted s := by
  refine iterate_invariant (fun _ s => ExitsPrinted s) ?_ ?_ reached
  · intro p
    rfl
  · intro k s s' reached exits ran
    obtain ⟨settled, fitting, _⟩ := plain.settled policy reached
    have awake := settled.awake_forked plain.entries_eq
    obtain ⟨mid, dispatchedEq, dispatching, prepared, executedEq, _, _⟩ :=
      settled.again policy.contract_awake fitting awake ran
    have exitsMid := exits.dispatch policy.contract_awake settled.sound awake
      dispatchedEq dispatching
    exact exitsMid.execute prepared plain.entries_eq executedEq

theorem PlainJobs.decommissioned_between (plain : PlainJobs script)
    (reached : doSimulation script policy.scheduler k = .ok (.again s)) :
    Decommissioned s := by
  obtain ⟨settled, _⟩ := plain.settled policy reached
  exact settled.whole.decommissioned (settled.nowhere plain.entries_eq)
    (fun p isRunner => (runner_eq_some.mp isRunner).1)
    (plain.exitsPrinted reached)

theorem PlainJobs.decommissioned_dispatched (plain : PlainJobs script)
    (reached : doSimulation script policy.scheduler k = .ok (.again s))
    (dispatchedEq : dispatch policy.scheduler s = .ok mid) :
    Decommissioned mid := by
  obtain ⟨settled, fitting, _⟩ := plain.settled policy reached
  have awake := settled.awake_forked plain.entries_eq
  obtain ⟨_, eq, dispatching, whole, _⟩ :=
    settled.dispatched policy.contract_awake fitting awake
  obtain rfl := Except.ok.inj (dispatchedEq.symm.trans eq)
  refine whole.decommissioned (fun p r => ?_) (fun _ isCurrent => isCurrent)
    ((plain.exitsPrinted reached).dispatch policy.contract_awake settled.sound
      awake dispatchedEq dispatching)
  rw [dispatching.waitqueue]
  exact settled.nowhere plain.entries_eq p r

end Runs

/-- In every state of a run on a script without acquire lines whose lifespans are
all at least one, under each of the eight policies, nobody is older than its
lifespan, and whoever has been forked and is neither ready nor running has been
decommissioned. -/
theorem decommissioned_in_time (script : List ProcessBlock)
    (plain : PlainJobs script) (policy : Policy) (k : Nat)
    (s : Sim script.length) (state : StateOf script policy.scheduler k s) :
    Decommissioned s := by
  cases state with
  | between reached => exact plain.decommissioned_between reached
  | dispatched reached dispatchedEq =>
      exact plain.decommissioned_dispatched reached dispatchedEq
  | left ended =>
      obtain ⟨j, top, _, reached, left⟩ := iterate_leave ended
      exact plain.decommissioned_dispatched reached (body_leave left).1

/-- A process block without a `lifespan` line. -/
def withoutLifespan : List ProcessBlock := [{ pid := 1 }]

/-- Under every policy its process runs for one tick, is older than its
lifespan then, and is left out of everything without having exited. -/
theorem withoutLifespan_never_exits :
    (∀ block ∈ withoutLifespan, block.acquires = []) ∧ ∀ policy : Policy,
      (∃ s, StateOf withoutLifespan policy.scheduler 1 s ∧
        (∃ p, (s.procs p).lifespan < (s.procs p).age) ∧ ¬ Decommissioned s) ∧
      ∃ s, StateOf withoutLifespan policy.scheduler 2 s ∧
        (∃ p, p ∉ s.forkqueue ∧ p ∉ s.readyqueue ∧ s.current ≠ some p ∧
          (s.procs p).status ≠ .exit ∧ printedAt s (.exited p) = []) ∧
        ¬ Decommissioned s := by
  refine ⟨by decide, fun policy => ⟨?_, ?_⟩⟩
  · obtain ⟨s, reached, aged⟩ := exists_of_againWith
      (fun s => (∃ p, (s.procs p).lifespan < (s.procs p).age) ∧
        ¬ Decommissioned s)
      (doSimulation withoutLifespan policy.scheduler 1)
      (by cases policy <;> decide +kernel)
    exact ⟨s, .between reached, aged⟩
  · obtain ⟨s, ended, lost⟩ := exists_of_leaveWith
      (fun s => (∃ p, p ∉ s.forkqueue ∧ p ∉ s.readyqueue ∧ s.current ≠ some p ∧
          (s.procs p).status ≠ .exit ∧ printedAt s (.exited p) = []) ∧
        ¬ Decommissioned s)
      (doSimulation withoutLifespan policy.scheduler 2)
      (by cases policy <;> decide +kernel)
    exact ⟨s, .left ended, lost⟩

/-- Three processes with a gap under every policy: one has exited after five
passes. -/
theorem decommissioned_in_time_jobsWithGap :
    PlainJobs jobsWithGap ∧ ∀ policy : Policy, ∃ s,
      doSimulation jobsWithGap policy.scheduler 5 = .ok (.again s) ∧
        Decommissioned s := by
  refine ⟨by decide, fun policy => ?_⟩
  obtain ⟨s, reached, _⟩ := exists_of_againWith (fun _ => True)
    (doSimulation jobsWithGap policy.scheduler 5)
    (by cases policy <;> decide +kernel)
  exact ⟨s, reached, decommissioned_in_time jobsWithGap (by decide) policy 5 s
    (.between reached)⟩

end OsPAs.Sched
