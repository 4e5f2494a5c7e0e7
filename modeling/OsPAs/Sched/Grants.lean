/-
Module: OsPAs.Sched.Grants
Purpose: Under the priority scheduler no resource is granted past a more
  important process that waits for it or was woken to ask for it again.
Trusted boundary: none
Main exports: prioScheduler_plain, highestPrio_picks, no_grant_past_waiter
-/
import OsPAs.Sched.Requests
import OsPAs.Sched.StrictPriority

namespace OsPAs.Sched

open Lib

variable {n : Nat}

theorem prioScheduler_plain : Plain (n := n) highestPrio prioScheduler where
  schedule := fun _ _ _ scheduledEq => prioSchedule_prio scheduledEq
  acquire := rfl
  release := rfl

/-- The waiter that `prio_release` wakes is above nobody it leaves behind. -/
theorem highestPrio_picks (prio : Fin n → Nat) :
    Picks highestPrio prio (fun w q => prio q ≤ prio w) where
  mem := highestPrio_mem
  ranks := fun s first rest same q member => by
    have notBetter := not_better_scan (higherPrio s) (higherPrio_asymm s)
      (higherPrio_negTrans s) first (first :: rest) (Or.inr member)
    rw [← same, ← same]
    exact Nat.not_lt.mp notBetter
  ownerBlind := fun _ _ _ _ => rfl

section Reached

variable {script : List ProcessBlock} {k : Nat} {s mid : Sim script.length}

theorem prio_serves (wellFormed : WellFormed script) :
    Serves script (fun _ => True) prioScheduler :=
  Policy.serves (show Policy.prio ∈ statusAware by decide) wellFormed

/-- What is known at each call of `prio_acquire`. -/
theorem reached_requesting (wellFormed : WellFormed script)
    (reached : doSimulation script prioScheduler k = .ok (.again s))
    (dispatchedEq : dispatch prioScheduler s = .ok mid)
    {c : Fin script.length} (isCurrent : mid.current = some c)
    {rs : ResourceSchedule} {t : Sim script.length}
    (called : (rs, t) ∈ acquireCalls prioScheduler c
      (mid.procs c).resourcesToAcquire (mid.setStatus c .running)) :
    Busy t c ∧ rs.resourceId < nrResources ∧ ∃ rest,
      Requesting (fun w q => priorityOf script q ≤ priorityOf script w)
        (priorityOf script) mid c (rs :: rest) t := by
  have serves := prio_serves wellFormed
  have picks := highestPrio_picks (priorityOf script)
  have orderly := prioScheduler_plain.reached serves picks reached
  obtain ⟨mid', pass⟩ := serves.pass reached
  obtain rfl := Except.ok.inj (dispatchedEq.symm.trans pass.dispatchedEq)
  obtain ⟨orderlyMid, asks⟩ := prioScheduler_plain.dispatched serves.contract
    orderly (serves.settled reached).1.sound trivial dispatchedEq
    pass.dispatching
  rw [isCurrent] at orderlyMid
  obtain ⟨_, rest, busy, ⟨_, requesting⟩, _, inside⟩ :=
    (prioScheduler_plain.carries picks pass.prepared pass.fitting isCurrent
      orderlyMid (asks c)).call serves.contract pass.prepared.dispatched
      isCurrent called
  exact ⟨busy, inside, rest, requesting⟩

/-- No resource is granted past a more important waiter.  Whenever
`prio_acquire` grants a resource, the priority of the process that gets it is at
least that of everybody in the waitqueue of the resource and of everybody woken
from there who has not asked again. -/
theorem no_grant_past_waiter (script : List ProcessBlock)
    (wellFormed : WellFormed script) (k : Nat) (s mid t t' : Sim script.length)
    (c : Fin script.length) (rs : ResourceSchedule) (r : Fin nrResources)
    (reached : doSimulation script prioScheduler k = .ok (.again s))
    (dispatchedEq : dispatch prioScheduler s = .ok mid)
    (isCurrent : mid.current = some c)
    (called : (rs, t) ∈ acquireCalls prioScheduler c
      (mid.procs c).resourcesToAcquire (mid.setStatus c .running))
    (isR : rs.resourceId = r.val)
    (granted : prioScheduler.acquire c rs.resourceId t = .ok (true, t')) :
    (∀ q ∈ t.waitqueue r, (t.procs q).prio ≤ (t.procs c).prio) ∧
      ∀ q, WokenFrom t r q → (t.procs q).prio ≤ (t.procs c).prio := by
  obtain ⟨busy, inside, rest, orderly, asks, readyqueue⟩ :=
    reached_requesting wellFormed reached dispatchedEq isCurrent called
  obtain rfl : r = ⟨rs.resourceId, inside⟩ := Fin.ext isR.symm
  have preferred := reached_preferred wellFormed.known reached dispatchedEq
  rw [isCurrent] at preferred
  simp only [orderly.prio]
  have woken (q : Fin script.length)
      (wokenQ : WokenFrom t ⟨rs.resourceId, inside⟩ q) :
      priorityOf script q ≤ priorityOf script c := by
    by_cases isC : q = c
    · rw [isC]
    · obtain ⟨_, waits | isReady⟩ := orderly.told.refused _ q
        (fun same => isC (Option.some.inj same).symm) wokenQ.1
      · exact absurd waits wokenQ.2
      · rw [readyqueue] at isReady
        exact preferred.highest q isReady
  refine ⟨fun q waits => ?_, woken⟩
  obtain ⟨granted', _, acquired, move⟩ := prioScheduler_contract.acquire t c
    rs.resourceId inside busy.detached
  obtain ⟨rfl, rfl⟩ := Prod.mk.inj (Except.ok.inj (granted.symm.trans acquired))
  obtain ⟨w, wokenW, ranks⟩ :=
    orderly.answered _ move.free (List.ne_nil_of_mem waits)
  calc priorityOf script q
      ≤ priorityOf script w := ranks q waits
    _ ≤ priorityOf script c := woken w wokenW

/-- A process of priority 1 whose resource two more important ones come to ask
for. -/
def wokenAhead : List ProcessBlock :=
  [{ pid := 1, start := 0, lifespan := 5, prio := 1
     acquires := [⟨1, 0, 4⟩] },
   { pid := 2, start := 1, lifespan := 2, prio := 5
     acquires := [⟨1, 0, 2⟩] },
   { pid := 3, start := 2, lifespan := 2, prio := 3
     acquires := [⟨1, 0, 1⟩] }]

/-- In the seventh pass the process of priority 5, woken from the waitqueue,
gets the resource for which the one of priority 3 is waiting. -/
theorem no_grant_past_waiter_wokenAhead :
    ∃ s mid t t' c rs,
      doSimulation wokenAhead prioScheduler 6 = .ok (.again s) ∧
      dispatch prioScheduler s = .ok mid ∧ mid.current = some c ∧
      (rs, t) ∈ acquireCalls prioScheduler c (mid.procs c).resourcesToAcquire
        (mid.setStatus c .running) ∧
      prioScheduler.acquire c rs.resourceId t = .ok (true, t') ∧
      t.waitqueue ⟨1, by decide⟩ ≠ [] ∧ WokenFrom t ⟨1, by decide⟩ c ∧
      (∀ q ∈ t.waitqueue ⟨1, by decide⟩,
        (t.procs q).prio ≤ (t.procs c).prio) ∧
      ∀ q, WokenFrom t ⟨1, by decide⟩ q →
        (t.procs q).prio ≤ (t.procs c).prio := by
  let c : Fin wokenAhead.length := ⟨1, by decide⟩
  let calls (mid : Sim wokenAhead.length) := acquireCalls prioScheduler c
    (mid.procs c).resourcesToAcquire (mid.setStatus c .running)
  let takes (call : ResourceSchedule × Sim wokenAhead.length) : Bool :=
    call.1.resourceId = 1 ∧ call.2.waitqueue ⟨1, by decide⟩ ≠ [] ∧
      WokenFrom call.2 ⟨1, by decide⟩ c ∧ okWith (fun result =>
        result.1 = true) (prioScheduler.acquire c call.1.resourceId call.2)
  obtain ⟨s, reached, found⟩ := exists_of_againWith
    (fun s => okWith (fun mid => mid.current = some c ∧
      (calls mid).any takes = true) (dispatch prioScheduler s) = true)
    (doSimulation wokenAhead prioScheduler 6) (by decide +kernel)
  obtain ⟨mid, dispatchedEq, isCurrent, found⟩ := exists_of_okWith _ _ found
  obtain ⟨⟨rs, t⟩, called, found⟩ := List.any_eq_true.mp found
  obtain ⟨isR, waits, woken, found⟩ := of_decide_eq_true found
  obtain ⟨⟨_, t'⟩, granted, rfl⟩ := exists_of_okWith _ _ found
  exact ⟨s, mid, t, t', c, rs, reached, dispatchedEq, isCurrent, called, granted,
    waits, woken, no_grant_past_waiter wokenAhead (by decide) 6 s mid t t' c rs
      ⟨1, by decide⟩ reached dispatchedEq isCurrent called isR granted⟩

end Reached

end OsPAs.Sched
