/-
Module: OsPAs.Sched.FirstCome
Purpose: Requests for a resource are served in the order they came under the
  non-preemptive schedulers, and under the priority scheduler as long as free
  resources are handed over; a process that is ready when another is woken can
  break the order.
Trusted boundary: none
Main exports: highestPrio_keepsAhead, first_come_first_served,
  newcomer_overtakes
-/
import OsPAs.Sched.Grants
import OsPAs.Sched.NonPreemptive

namespace OsPAs.Sched

open Lib

variable {n : Nat}

/-- Of two waiters of the same priority `prio_release` wakes the first. -/
theorem highestPrio_keepsAhead {prio : Fin n → Nat} {p q : Fin n}
    (differ : p ≠ q) (equal : prio p = prio q) :
    KeepsAhead highestPrio prio p q := by
  intro s first rest same ahead isQ
  obtain ⟨front, back, split, worse, _⟩ := highestPrio_split s first rest
  rw [isQ] at split worse
  rw [split] at ahead
  have below := worse p (ahead.mem_front differ)
  rw [same, same, equal] at below
  exact Nat.lt_irrefl _ below

section Reached

variable {script : List ProcessBlock}

/-- Requests for a resource are served in the order they came.  Under FIFO and
SJF for any two processes, and under the priority scheduler for any two of the
same priority as long as every pass hands the resource over: whoever is refused
it before the other asks for the first time gets it before the other does. -/
theorem first_come_first_served (script : List ProcessBlock)
    (wellFormed : WellFormed script) (policy : Policy)
    (among : policy ∈ [Policy.fifo, .sjf, .prio]) (p q : Fin script.length)
    (differ : p ≠ q)
    (equal : policy = .prio → priorityOf script p = priorityOf script q)
    (r : Fin nrResources) (k : Nat) (s : Sim script.length)
    (reached : doSimulation script policy.scheduler k = .ok (.again s))
    (handed : policy = .prio → ∀ j < k, ∀ u,
      doSimulation script policy.scheduler j = .ok (.again u) →
        HandsOver policy.scheduler r u) :
    ServedInOrder s p q r := by
  have aware : ∀ policy ∈ [Policy.fifo, .sjf, .prio], policy ∈ statusAware := by
    decide
  have serves := Policy.serves (aware policy among) wellFormed
  have first := firstWaiter_picks (priorityOf script)
  have keepsFirst := firstWaiter_keepsAhead (priorityOf script) differ
  have cases : policy = .fifo ∨ policy = .sjf ∨ policy = .prio := by
    simpa using among
  rcases cases with rfl | rfl | rfl
  · apply fifoScheduler_plain.served serves first keepsFirst differ _ reached
    intro j _ u reachedU
    exact fifoScheduler_plain.handsOver fifoScheduler_nonPreemptive serves first
      reachedU r
  · apply sjfScheduler_plain.served serves first keepsFirst differ _ reached
    intro j _ u reachedU
    exact sjfScheduler_plain.handsOver sjfScheduler_nonPreemptive serves first
      reachedU r
  · exact prioScheduler_plain.served serves (highestPrio_picks _)
      (highestPrio_keepsAhead differ (equal rfl)) differ (handed rfl) reached

/-- Three processes of one priority; the third comes when the second was woken. -/
def oneAfterAnother : List ProcessBlock :=
  [{ pid := 1, start := 0, lifespan := 2, prio := 0
     acquires := [⟨1, 0, 2⟩] },
   { pid := 2, start := 0, lifespan := 1, prio := 0
     acquires := [⟨1, 0, 1⟩] },
   { pid := 3, start := 3, lifespan := 2, prio := 0
     acquires := [⟨1, 1, 1⟩] }]

/-- The second process, refused in the second tick, gets the resource before the
third, which asks for it in the sixth. -/
theorem first_come_first_served_oneAfterAnother :
    ∃ s, doSimulation oneAfterAnother prioScheduler 6 = .ok (.again s) ∧
      (1, .blocked ⟨1, by decide⟩ 1) ∈ s.stderr ∧
      (5, .acquired ⟨2, by decide⟩ 1) ∈ s.stderr ∧
      ServedInOrder s ⟨1, by decide⟩ ⟨2, by decide⟩ ⟨1, by decide⟩ := by
  let refusal : Nat × Event oneAfterAnother.length :=
    (1, .blocked ⟨1, by decide⟩ 1)
  let grant : Nat × Event oneAfterAnother.length :=
    (5, .acquired ⟨2, by decide⟩ 1)
  obtain ⟨s, reached, refused, granted⟩ := exists_of_againWith
    (fun s => refusal ∈ s.stderr ∧ grant ∈ s.stderr)
    (doSimulation oneAfterAnother prioScheduler 6) (by decide +kernel)
  have handed : ∀ j < 6, againAll (HandsOver prioScheduler ⟨1, by decide⟩)
      (doSimulation oneAfterAnother prioScheduler j) = true := by
    decide +kernel
  exact ⟨s, reached, refused, granted, first_come_first_served oneAfterAnother
    (by decide) .prio (by decide) ⟨1, by decide⟩ ⟨2, by decide⟩ (by decide)
    (fun _ => rfl) ⟨1, by decide⟩ 6 s reached
    (fun _ j lt => forall_of_againAll _ _ (handed j lt))⟩

/-- As before, but the third process is ready when the second is woken. -/
def readyNewcomer : List ProcessBlock :=
  [{ pid := 1, start := 0, lifespan := 2, prio := 0
     acquires := [⟨1, 0, 2⟩] },
   { pid := 2, start := 0, lifespan := 1, prio := 0
     acquires := [⟨1, 0, 1⟩] },
   { pid := 3, start := 0, lifespan := 2, prio := 0
     acquires := [⟨1, 1, 1⟩] }]

/-- The second process is refused in the second tick and woken in the fourth, and
the third, ready by then, asks for the resource in the fifth and gets it. -/
theorem newcomer_overtakes : WellFormed readyNewcomer ∧
    priorityOf readyNewcomer ⟨1, by decide⟩ =
      priorityOf readyNewcomer ⟨2, by decide⟩ ∧
    ∃ s, doSimulation readyNewcomer prioScheduler 5 = .ok (.again s) ∧
      ¬ ServedInOrder s ⟨1, by decide⟩ ⟨2, by decide⟩ ⟨1, by decide⟩ := by
  let owner : Fin readyNewcomer.length := ⟨0, by decide⟩
  let waiter : Fin readyNewcomer.length := ⟨1, by decide⟩
  let newcomer : Fin readyNewcomer.length := ⟨2, by decide⟩
  let before : List (Nat × Event readyNewcomer.length) :=
    [(0, .forked owner), (0, .forked waiter), (0, .forked newcomer),
     (0, .acquired owner 1), (0, .ran owner)]
  let middle : List (Nat × Event readyNewcomer.length) :=
    [(2, .ran newcomer), (3, .ran owner), (3, .released owner 1),
     (4, .exited owner)]
  obtain ⟨s, reached, printed⟩ := exists_of_againWith
    (fun s => s.stderr = before ++ (1, .blocked waiter 1) ::
      (middle ++ (4, .acquired newcomer 1) ::
        [(4, .ran newcomer), (4, .released newcomer 1)]))
    (doSimulation readyNewcomer prioScheduler 5) (by decide +kernel)
  refine ⟨by decide, rfl, s, reached, fun inOrder => ?_⟩
  obtain ⟨line, member, served⟩ := inOrder before (1, .blocked waiter 1) middle
    (4, .acquired newcomer 1) _ printed rfl (by
      simp [before, Asks, Grants, Refuses, owner, newcomer]) rfl
  simp [middle, Grants] at member served
  rcases member with rfl | rfl | rfl | rfl <;> simp at served

end Reached

end OsPAs.Sched
