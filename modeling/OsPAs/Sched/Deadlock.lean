/-
Module: OsPAs.Sched.Deadlock
Purpose: The main loop is left with processes alive only in a genuine deadlock:
  all of them wait, each for a resource of another one, around a cycle.
Trusted boundary: none
Main exports: WaitsForOwner, Settled.leave, only_genuine_deadlock
-/
import OsPAs.Lib.WaitsFor
import OsPAs.Sched.Bookkeeping

namespace OsPAs.Sched

open Lib

variable {n : Nat}

/-- Process `p` waits for a resource that process `q` owns. -/
def WaitsForOwner (s : Sim n) (p q : Fin n) : Prop :=
  ∃ r, p ∈ s.waitqueue r ∧ s.owner r = some q

/-- Everybody has exited and all resources are free. -/
def AllDone (s : Sim n) : Prop :=
  (∀ p, (s.procs p).status = .exit) ∧
    ∀ r, s.owner r = none ∧ s.waitqueue r = []

/-- Somebody has not exited, and everybody who has not is blocked, waits for a
resource whose owner has not exited either, and gets into a cycle by following
the owners. -/
def Deadlocked (s : Sim n) : Prop :=
  (∃ p, (s.procs p).status ≠ .exit) ∧
    ∀ p, (s.procs p).status ≠ .exit →
      isBlocked s p ∧
      (∃ r owner, p ∈ s.waitqueue r ∧ s.owner r = some owner ∧
        (s.procs owner).status ≠ .exit) ∧
      ∃ q, (s.procs q).status ≠ .exit ∧
        Relation.ReflTransGen (WaitsForOwner s) p q ∧
        OnCycle (WaitsForOwner s) q

section Leave

variable {all : Fin n → List ResourceSchedule} {s : Sim n}

/-- Who has exited has no entries left. -/
theorem Prepared.exited_empty (prepared : Prepared all s)
    (fitting : Fitting all s) {p : Fin n} (exited : (s.procs p).status = .exit) :
    (s.procs p).resourcesHolding = [] ∧ (s.procs p).resourcesToAcquire = [] :=
  (prepared.books.ledger p).finished fun rs member => by
    rw [prepared.whole.finished p exited]
    exact fitting.ended p rs member

/-- An owner has not exited: it would have had to give up its entries. -/
theorem Prepared.owner_present (prepared : Prepared all s)
    (fitting : Fitting all s) {r : Fin nrResources} {owner : Fin n}
    (owns : s.owner r = some owner) : (s.procs owner).status ≠ .exit := by
  intro exited
  have counted := prepared.books.owned owner r
  rw [(prepared.exited_empty fitting exited).1, if_pos owns] at counted
  simp [entriesFor] at counted

/-- Somebody who asks for a resource has not exited. -/
theorem Prepared.due_present (prepared : Prepared all s)
    (fitting : Fitting all s) {p : Fin n} {resourceId : Nat}
    (due : (s.procs p).firstDue = some resourceId) :
    (s.procs p).status ≠ .exit := by
  intro exited
  unfold Process.firstDue at due
  rw [(prepared.exited_empty fitting exited).2] at due
  simp at due

/-- When the loop is left, only waiting processes are left. -/
theorem Prepared.waits_of_quits (prepared : Prepared all s) (quit : quits s)
    {p : Fin n} (present : (s.procs p).status ≠ .exit) :
    ∃ r, p ∈ s.waitqueue r := by
  obtain ⟨noCurrent, noReady, noFork⟩ := quit
  have one := prepared.whole.accounted p present
  unfold tally at one
  rw [noCurrent, noReady, noFork] at one
  by_contra nowhere
  have zero := occurrences_eq_zero.mpr (not_exists.mp nowhere)
  simp [zero] at one

/-- No wakeup is lost: when the loop is left, the resource a process waits for
has an owner, who has not exited. -/
theorem Prepared.owner_of_quits (prepared : Prepared all s)
    (fitting : Fitting all s) (quit : quits s) {p : Fin n} {r : Fin nrResources}
    (isWaiting : p ∈ s.waitqueue r) :
    ∃ owner, s.owner r = some owner ∧ (s.procs owner).status ≠ .exit := by
  cases owns : s.owner r with
  | some owner => exact ⟨owner, rfl, prepared.owner_present fitting owns⟩
  | none =>
      -- somebody awake is about to ask for the resource, but nobody is awake
      exfalso
      obtain ⟨q, awake, due⟩ := prepared.waits.answered r p isWaiting owns
      obtain ⟨i, member⟩ :=
        prepared.waits_of_quits quit (prepared.due_present fitting due)
      exact awake (prepared.dispatched.linked.waiting q i member)

/-- The loop is left when everything is done or in a deadlock. -/
theorem Prepared.leave (prepared : Prepared all s) (fitting : Fitting all s)
    (quit : quits s) : AllDone s ∨ Deadlocked s := by
  have stuck (p : Fin n) (present : (s.procs p).status ≠ .exit) :
      ∃ q, (s.procs q).status ≠ .exit ∧ WaitsForOwner s p q := by
    obtain ⟨r, isWaiting⟩ := prepared.waits_of_quits quit present
    obtain ⟨owner, owns, ownerPresent⟩ :=
      prepared.owner_of_quits fitting quit isWaiting
    exact ⟨owner, ownerPresent, r, isWaiting, owns⟩
  by_cases somebody : ∃ p, (s.procs p).status ≠ .exit
  · refine Or.inr ⟨somebody, fun p present => ?_⟩
    obtain ⟨r, isWaiting⟩ := prepared.waits_of_quits quit present
    obtain ⟨owner, owns, ownerPresent⟩ :=
      prepared.owner_of_quits fitting quit isWaiting
    exact ⟨prepared.dispatched.linked.waiting p r isWaiting,
      ⟨r, owner, isWaiting, owns, ownerPresent⟩, reaches_cycle stuck present⟩
  · have exited : ∀ p, (s.procs p).status = .exit := by
      intro p
      by_contra present
      exact somebody ⟨p, present⟩
    refine Or.inl ⟨exited, fun r => ⟨?_, ?_⟩⟩
    · cases owns : s.owner r with
      | none => rfl
      | some owner =>
          exact absurd (exited owner) (prepared.owner_present fitting owns)
    · refine List.eq_nil_iff_forall_not_mem.mpr fun p isWaiting => ?_
      have asleep := prepared.dispatched.linked.waiting p r isWaiting
      unfold isBlocked at asleep
      simp [exited p] at asleep

end Leave

/-- The simulation loses processes only to a genuine deadlock.  When a
status-aware policy leaves the main loop on a well-formed script, everybody has
exited and all resources are free, or those who have not exited all wait, each
for a resource whose owner has not exited, and following the owners leads into a
cycle. -/
theorem only_genuine_deadlock (script : List ProcessBlock) (policy : Policy)
    (aware : policy ∈ statusAware) (wellFormed : WellFormed script) (k : Nat)
    (s : Sim script.length)
    (left : doSimulation script policy.scheduler k = .ok (.leave s)) :
    AllDone s ∨ Deadlocked s := by
  obtain ⟨j, top, _, reached, ran⟩ := iterate_leave left
  obtain ⟨dispatchedEq, quit⟩ := body_leave ran
  obtain ⟨settled, fitting⟩ := reached_settled aware wellFormed reached
  have contract := Policy.contract (n := script.length) aware
  obtain ⟨mid, eq, _, prepared⟩ := settled.dispatch contract fitting trivial
  obtain rfl := Except.ok.inj (dispatchedEq.symm.trans eq)
  exact prepared.leave (fitting.of_sameScript
    (.dispatched contract settled.sound trivial dispatchedEq)) quit

/-- Two processes that take resources 1 and 2 in opposite orders. -/
def oppositeOrders : List ProcessBlock :=
  [{ pid := 1, start := 0, lifespan := 4
     acquires := [⟨1, 0, 3⟩, ⟨2, 1, 2⟩] },
   { pid := 2, start := 1, lifespan := 4, prio := 5
     acquires := [⟨2, 0, 2⟩, ⟨1, 1, 1⟩] }]

/-- Under the priority policy the two end in a deadlock. -/
theorem only_genuine_deadlock_oppositeOrders :
    ∃ s, doSimulation oppositeOrders prioScheduler 5 = .ok (.leave s) ∧
      Deadlocked s := by
  obtain ⟨s, left, alive⟩ := exists_of_leaveWith
    (fun s : Sim oppositeOrders.length =>
      (s.procs ⟨0, by decide⟩).status ≠ .exit)
    (doSimulation oppositeOrders prioScheduler 5) (by decide +kernel)
  rcases only_genuine_deadlock oppositeOrders .prio (by decide) (by decide) 5 s
      left with done | deadlocked
  · exact absurd (done.1 _) alive
  · exact ⟨s, left, deadlocked⟩

end OsPAs.Sched
