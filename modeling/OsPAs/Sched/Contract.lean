/-
Module: OsPAs.Sched.Contract
Purpose: The contract of `sched.h`: what a policy's callbacks may do to the
  simulator, and which of the eight policies keep it.
Trusted boundary: none
Main exports: Chosen, Requested, Released, Contract, Policy.contract, Calm,
  InReach, rrScheduler_contract, stcfScheduler_contract
-/
import OsPAs.Sched.Simulation
import Mathlib.Data.List.Basic

namespace OsPAs.Sched

open Lib

variable {n : Nat}

/-!
`sched.h` tells a policy what its callbacks are for.  The relations below say
what they may do: `schedule` moves at most one process out of and one into the
ready queue, `acquire` takes a free resource or queues the current process,
`release` frees a resource and wakes at most one waiter.  Everything else they
may touch is the effective priorities, so every result has the form
`withPrio`.  A fact about runs that does not mention priorities is proved once,
for every policy under the contract.
-/

/-! ### Assertion and resource lookup -/

@[simp] theorem cAssert_of_true {condition : Prop} [Decidable condition]
    (holds : condition) : cAssert condition = .ok () := by
  simp [cAssert, holds]

@[simp] theorem cAssert_of_false {condition : Prop} [Decidable condition]
    (fails : ¬ condition) : cAssert condition = .error .assertFailed := by
  simp [cAssert, fails]

theorem resource_of_lt {resourceId : Nat} (inside : resourceId < nrResources) :
    resource resourceId = .ok ⟨resourceId, inside⟩ := by
  simp [resource, inside]

/-! ### The moves -/

/-- Take waiter `p` out of the waitqueue of `r` and put it, ready, at the tail
of the ready queue. -/
def Sim.wake (s : Sim n) (r : Fin nrResources) (p : Fin n) : Sim n :=
  { (s.delInitWait r p).setStatus p .ready with
    readyqueue := s.readyqueue ++ [p] }

/-- Block `p` at the tail of the waitqueue of `r`. -/
def Sim.sleep (s : Sim n) (r : Fin nrResources) (p : Fin n) : Sim n :=
  { s.setStatus p .blocked with
    waitqueue := Function.update s.waitqueue r (s.waitqueue r ++ [p]) }

/-- Outcome of `schedule`.  With `live` a kept process is unfinished and nobody
is ready when the processor idles. -/
inductive Chosen (live : Prop) (s : Sim n) : Option (Fin n) → Sim n → Prop where
  | keep {c : Fin n} (prio : Fin n → Nat) (isCurrent : s.current = some c)
      (awake : ¬ isBlocked s c) (alive : live → unfinished s c) :
      Chosen live s (some c) (s.withPrio prio)
  | idle (nobody : live → s.readyqueue = [])
      (done : ∀ c, s.current = some c → isBlocked s c ∨ ¬ unfinished s c) :
      Chosen live s none s
  | pick {next : Fin n} (prio : Fin n → Nat) (isReady : next ∈ s.readyqueue)
      (done : ∀ c, s.current = some c → isBlocked s c ∨ ¬ unfinished s c) :
      Chosen live s (some next) ((s.withPrio prio).delInitReady next)
  | preempt {c next : Fin n} (prio : Fin n → Nat)
      (isReady : next ∈ s.readyqueue) (isCurrent : s.current = some c)
      (awake : ¬ isBlocked s c) (alive : unfinished s c) :
      Chosen live s (some next)
        (({ s with readyqueue := s.readyqueue ++ [c] }.withPrio prio).delInitReady
          next)

/-- Outcome of `acquire` by the current process `c`. -/
inductive Requested (s : Sim n) (c : Fin n) (r : Fin nrResources) :
    Bool → Sim n → Prop where
  | granted (prio : Fin n → Nat) (free : s.owner r = none) :
      Requested s c r true ((s.setOwner r (some c)).withPrio prio)
  | refused {owner : Fin n} (prio : Fin n → Nat)
      (taken : s.owner r = some owner) :
      Requested s c r false ((s.sleep r c).withPrio prio)

/-- Outcome of a `release` that passes its assertions. -/
inductive Released (s : Sim n) (c : Fin n) (r : Fin nrResources) :
    Sim n → Prop where
  | quiet (prio : Fin n → Nat) (owned : s.owner r = some c)
      (nobody : s.waitqueue r = []) :
      Released s c r ((s.setOwner r none).withPrio prio)
  | wake {waiter : Fin n} (prio : Fin n → Nat) (owned : s.owner r = some c)
      (isWaiting : waiter ∈ s.waitqueue r)
      (asleep : isBlocked s waiter) :
      Released s c r (((s.setOwner r none).wake r waiter).withPrio prio)

/-- The current process is in a list only while it is blocked. -/
def CurrentLoose (s : Sim n) : Prop :=
  ∀ c, s.current = some c → ¬ isBlocked s c → s.detached c

/-- A waiter of `r` is in no other list. -/
def WaitersLoose (s : Sim n) (r : Fin nrResources) : Prop :=
  ∀ waiter ∈ s.waitqueue r, (s.delInitWait r waiter).detached waiter

/-- A policy whose callbacks keep to the moves above, in the states where the
guard holds for `schedule`. -/
structure Contract (live : Prop) (guard : Sim n → Prop) (sched : Scheduler n) :
    Prop where
  schedule : ∀ s, guard s → CurrentLoose s →
    ∃ next s', sched.schedule s = .ok (next, s') ∧ Chosen live s next s'
  acquire : ∀ s c resourceId (inside : resourceId < nrResources),
    s.detached c → ∃ granted s',
      sched.acquire c resourceId s = .ok (granted, s') ∧
        Requested s c ⟨resourceId, inside⟩ granted s'
  release : ∀ s c resourceId (inside : resourceId < nrResources),
    WaitersLoose s ⟨resourceId, inside⟩ →
      sched.release c resourceId s = .error .assertFailed ∨
        ∃ s', sched.release c resourceId s = .ok s' ∧
          Released s c ⟨resourceId, inside⟩ s'
  releaseOwned : ∀ s c resourceId (inside : resourceId < nrResources),
    WaitersLoose s ⟨resourceId, inside⟩ →
      s.owner ⟨resourceId, inside⟩ = some c →
      (∀ waiter ∈ s.waitqueue ⟨resourceId, inside⟩, isBlocked s waiter) →
      ∃ s', sched.release c resourceId s = .ok s' ∧
        Released s c ⟨resourceId, inside⟩ s'

/-! ### Resource callbacks keep the contract -/

/-- An update that only reassigns effective priorities. -/
def PrioOnly (change : Sim n → Sim n) : Prop :=
  ∀ s, ∃ prio, change s = s.withPrio prio

theorem prioOnly_id : PrioOnly (fun s : Sim n => s) :=
  fun s => ⟨_, (s.withPrio_self).symm⟩

theorem prioOnly_setPrio (p : Fin n) (prio : Sim n → Nat) :
    PrioOnly (fun s : Sim n => s.setPrio p (prio s)) :=
  fun s => ⟨_, s.setPrio_eq_withPrio p (prio s)⟩

theorem prioOnly_restorePrio (c : Fin n) : PrioOnly (restorePrio c) :=
  prioOnly_setPrio c fun s => (s.procs c).prioOrig

theorem prioOnly_inheritPrio (owner c : Fin n) :
    PrioOnly (inheritPrio owner c) := by
  intro s
  unfold inheritPrio
  split
  · exact ⟨_, s.setPrio_eq_withPrio owner _⟩
  · exact prioOnly_id s

theorem Sim.withPrio_setOwner (s : Sim n) (prio : Fin n → Nat)
    (r : Fin nrResources) (owner : Option (Fin n)) :
    (s.withPrio prio).setOwner r owner = (s.setOwner r owner).withPrio prio :=
  rfl

theorem Sim.withPrio_modify (s : Sim n) (prio : Fin n → Nat) (p : Fin n)
    {change : Process → Process}
    (commutes : ∀ process k, change { process with prio := k } =
      { change process with prio := k }) :
    (s.withPrio prio).modify p change = (s.modify p change).withPrio prio := by
  simp only [modify, withPrio, Sim.mk.injEq, and_true]
  funext q
  by_cases same : q = p
  · subst same; simpa using commutes (s.procs q) (prio q)
  · simp [same]

theorem Sim.withPrio_setStatus (s : Sim n) (prio : Fin n → Nat) (p : Fin n)
    (status : ProcessStatus) :
    (s.withPrio prio).setStatus p status =
      (s.setStatus p status).withPrio prio :=
  s.withPrio_modify prio p fun _ _ => rfl

theorem Sim.withPrio_sleep (s : Sim n) (prio : Fin n → Nat)
    (r : Fin nrResources) (p : Fin n) :
    { (s.withPrio prio).setStatus p .blocked with
      waitqueue :=
        Function.update s.waitqueue r (s.waitqueue r ++ [p]) } =
      (s.sleep r p).withPrio prio := by
  rw [withPrio_setStatus]
  rfl

theorem Sim.withPrio_wake (s : Sim n) (prio : Fin n → Nat)
    (r : Fin nrResources) (p : Fin n) :
    (s.withPrio prio).wake r p = (s.wake r p).withPrio prio := by
  have moved := Sim.withPrio_setStatus (s.delInitWait r p) prio p .ready
  unfold wake
  rw [show (s.withPrio prio).delInitWait r p =
    (s.delInitWait r p).withPrio prio from rfl, moved]
  rfl

/-- Every acquire callback takes a free resource or queues the process. -/
theorem acquireWith_requested {onGrant : Fin n → Sim n → Sim n}
    {onWait : Fin n → Fin n → Sim n → Sim n}
    (grantPrio : ∀ c, PrioOnly (onGrant c))
    (waitPrio : ∀ owner c, PrioOnly (onWait owner c))
    (s : Sim n) (c : Fin n) (resourceId : Nat)
    (inside : resourceId < nrResources) (loose : s.detached c) :
    ∃ granted s', acquireWith onGrant onWait c resourceId s = .ok (granted, s') ∧
      Requested s c ⟨resourceId, inside⟩ granted s' := by
  cases ownerEq : s.owner ⟨resourceId, inside⟩ with
  | none =>
      obtain ⟨prio, prioEq⟩ :=
        grantPrio c (s.setOwner ⟨resourceId, inside⟩ (some c))
      refine ⟨true, _, ?_, .granted prio ownerEq⟩
      simp [acquireWith, resource_of_lt inside, ownerEq, prioEq, bind,
        Except.bind, pure, Except.pure]
  | some owner =>
      obtain ⟨prio, prioEq⟩ := waitPrio owner c s
      refine ⟨false, _, ?_, .refused prio ownerEq⟩
      have looseNow :
          ((s.withPrio prio).setStatus c .blocked).detached c := loose
      simp only [acquireWith, resource_of_lt inside, ownerEq, prioEq, bind,
        Except.bind, pure, Except.pure, Sim.addTailWait, if_pos looseNow]
      rw [← Sim.withPrio_sleep]
      rfl

/-- What a release callback does once its two assertions hold. -/
theorem releaseWith_released {onRelease : Fin n → Sim n → Sim n}
    {choose : Sim n → Fin n → List (Fin n) → Fin n}
    (releasePrio : ∀ c, PrioOnly (onRelease c))
    (chooses : ∀ s first rest, choose s first (first :: rest) ∈ first :: rest)
    (s : Sim n) (c : Fin n) (resourceId : Nat)
    (inside : resourceId < nrResources)
    (loose : WaitersLoose s ⟨resourceId, inside⟩) :
    releaseWith onRelease choose c resourceId s = .error .assertFailed ∧
        (s.owner ⟨resourceId, inside⟩ ≠ some c ∨
          ∃ waiter ∈ s.waitqueue ⟨resourceId, inside⟩, ¬ isBlocked s waiter) ∨
      ∃ s', releaseWith onRelease choose c resourceId s = .ok s' ∧
        Released s c ⟨resourceId, inside⟩ s' := by
  set r : Fin nrResources := ⟨resourceId, inside⟩ with rEq
  by_cases owned : s.owner r = some c
  · obtain ⟨prio, prioEq⟩ := releasePrio c s
    cases waitersEq : s.waitqueue r with
    | nil =>
        refine Or.inr ⟨_, ?_, .quiet prio owned waitersEq⟩
        simp [releaseWith, resource_of_lt inside, ← rEq, owned, prioEq,
          waitersEq, Sim.setOwner, bind, Except.bind, pure, Except.pure]
        rfl
    | cons first rest =>
        have member := chooses ((s.withPrio prio).setOwner r none) first rest
        set waiter :=
          choose ((s.withPrio prio).setOwner r none) first (first :: rest)
          with waiterEq
        have waits : waiter ∈ s.waitqueue r := by rw [waitersEq]; exact member
        have queueEq :
            (((s.withPrio prio).setOwner r none).waitqueue r) = first :: rest :=
          waitersEq
        by_cases asleep : isBlocked s waiter
        · refine Or.inr ⟨_, ?_, .wake prio owned waits asleep⟩
          have looseNow :
              ((((s.withPrio prio).setOwner r none).delInitWait r
                waiter).setStatus waiter .ready).detached waiter :=
            loose waiter waits
          have asleepNow :
              (((s.withPrio prio).setOwner r none).procs waiter).status =
                .blocked := asleep
          rw [← Sim.withPrio_wake, ← Sim.withPrio_setOwner]
          simp only [releaseWith, resource_of_lt inside, ← rEq, bind,
            Except.bind, cAssert_of_true owned, prioEq, queueEq, ← waiterEq,
            cAssert_of_true asleepNow, Sim.addTailReady, if_pos looseNow]
          rfl
        · refine Or.inl ⟨?_, Or.inr ⟨waiter, by rw [← waitersEq]; exact waits,
            asleep⟩⟩
          have awakeNow :
              ¬ (((s.withPrio prio).setOwner r none).procs waiter).status =
                .blocked := asleep
          simp only [releaseWith, resource_of_lt inside, ← rEq, bind,
            Except.bind, cAssert_of_true owned, prioEq, queueEq, ← waiterEq,
            cAssert_of_false awakeNow]
  · refine Or.inl ⟨?_, Or.inl owned⟩
    simp only [releaseWith, resource_of_lt inside, ← rEq, bind, Except.bind,
      cAssert_of_false owned]

theorem releaseWith_owned {onRelease : Fin n → Sim n → Sim n}
    {choose : Sim n → Fin n → List (Fin n) → Fin n}
    (releasePrio : ∀ c, PrioOnly (onRelease c))
    (chooses : ∀ s first rest, choose s first (first :: rest) ∈ first :: rest)
    (s : Sim n) (c : Fin n) (resourceId : Nat)
    (inside : resourceId < nrResources)
    (loose : WaitersLoose s ⟨resourceId, inside⟩)
    (owned : s.owner ⟨resourceId, inside⟩ = some c)
    (asleep : ∀ waiter ∈ s.waitqueue ⟨resourceId, inside⟩, isBlocked s waiter) :
    ∃ s', releaseWith onRelease choose c resourceId s = .ok s' ∧
      Released s c ⟨resourceId, inside⟩ s' := by
  rcases releaseWith_released releasePrio chooses s c resourceId inside loose
    with ⟨_, notOwned | ⟨waiter, waits, awake⟩⟩ | done
  · exact absurd owned notOwned
  · exact absurd (asleep waiter waits) awake
  · exact done

theorem firstWaiter_mem (s : Sim n) (first : Fin n) (rest : List (Fin n)) :
    firstWaiter s first (first :: rest) ∈ first :: rest :=
  List.mem_cons_self

theorem highestPrio_mem (s : Sim n) (first : Fin n) (rest : List (Fin n)) :
    highestPrio s first (first :: rest) ∈ first :: rest :=
  scan_mem (higherPrio s) first rest

/-! ### Schedule callbacks keep the contract -/

/-- No current process is left to be scheduled on. -/
def CurrentDone (s : Sim n) : Prop :=
  ∀ c, s.current = some c → isBlocked s c ∨ ¬ unfinished s c

/-- Result of a `schedule` callback under the contract. -/
def Chooses (live : Prop) (s : Sim n)
    (result : Except Fault (Option (Fin n) × Sim n)) : Prop :=
  ∃ next s', result = .ok (next, s') ∧ Chosen live s next s'

theorem chooses_pick (live : Prop) {s : Sim n} {next : Fin n}
    (isReady : next ∈ s.readyqueue) (done : CurrentDone s) :
    Chooses live s (.ok (some next, s.delInitReady next)) :=
  ⟨_, _, rfl, .pick (fun p => (s.procs p).prio) isReady done⟩

theorem keepUnfinished_chooses {live : Prop}
    {pickNext : Sim n → Except Fault (Option (Fin n) × Sim n)} {s : Sim n}
    (picks : CurrentDone s → Chooses live s (pickNext s)) :
    Chooses live s (keepUnfinished pickNext s) := by
  unfold keepUnfinished
  cases currentEq : s.current with
  | none => exact picks fun c isCurrent => by simp [currentEq] at isCurrent
  | some c =>
      by_cases asleep : isBlocked s c
      · simp only [if_pos asleep]
        refine picks fun other isCurrent => Or.inl ?_
        obtain rfl : c = other := by simpa [currentEq] using isCurrent
        exact asleep
      · by_cases alive : unfinished s c
        · simp only [if_neg asleep, if_pos alive]
          exact ⟨_, _, rfl, .keep (fun p => (s.procs p).prio) currentEq asleep
            fun _ => alive⟩
        · simp only [if_neg asleep, if_neg alive]
          refine picks fun other isCurrent => Or.inr ?_
          obtain rfl : c = other := by simpa [currentEq] using isCurrent
          exact alive

/-- What `keepAlone` leaves to `pick_next`: an awake unfinished current process
comes with a non-empty ready queue. -/
def PickDuty (s : Sim n) : Prop :=
  ∀ c, s.current = some c → ¬ isBlocked s c → unfinished s c →
    s.readyqueue ≠ []

theorem PickDuty.done {s : Sim n} (duty : PickDuty s)
    (nobody : s.readyqueue = []) : CurrentDone s := by
  intro c isCurrent
  by_contra busy
  obtain ⟨awake, alive⟩ := not_or.mp busy
  exact duty c isCurrent awake (not_not.mp alive) nobody

theorem keepAlone_cases
    {pickNext : Sim n → Except Fault (Option (Fin n) × Sim n)} {s s' : Sim n}
    {chosen : Option (Fin n)}
    (scheduled : keepAlone pickNext s = .ok (chosen, s')) :
    (∃ c, chosen = some c ∧ s.current = some c ∧ ¬ isBlocked s c ∧
      unfinished s c ∧ s.readyqueue = [] ∧ s' = s) ∨
    PickDuty s ∧ pickNext s = .ok (chosen, s') := by
  unfold keepAlone at scheduled
  split at scheduled
  · rename_i nobody
    exact Or.inr ⟨fun c isCurrent => by simp [nobody] at isCurrent, scheduled⟩
  · rename_i c isCurrent
    have isC {other : Fin n} (isOther : s.current = some other) : c = other := by
      simpa [isCurrent] using isOther
    split at scheduled
    · rename_i asleep
      exact Or.inr ⟨fun other isOther awake =>
        absurd (isC isOther ▸ asleep) awake, scheduled⟩
    · rename_i awake
      split at scheduled
      · rename_i alone
        obtain ⟨rfl, rfl⟩ := Prod.mk.inj (Except.ok.inj scheduled)
        exact Or.inl ⟨c, rfl, isCurrent, awake, alone.2, alone.1, rfl⟩
      · rename_i notAlone
        exact Or.inr ⟨fun other isOther _ alive nobody =>
          notAlone ⟨nobody, isC isOther ▸ alive⟩, scheduled⟩

theorem keepAlone_chooses {live : Prop}
    {pickNext : Sim n → Except Fault (Option (Fin n) × Sim n)} {s : Sim n}
    (picks : PickDuty s → Chooses live s (pickNext s)) :
    Chooses live s (keepAlone pickNext s) := by
  unfold keepAlone
  cases currentEq : s.current with
  | none => exact picks fun c isCurrent => by simp [currentEq] at isCurrent
  | some c =>
      by_cases asleep : isBlocked s c
      · simp only [if_pos asleep]
        refine picks fun other isCurrent awake => absurd ?_ awake
        obtain rfl : c = other := by simpa [currentEq] using isCurrent
        exact asleep
      · by_cases alone : s.readyqueue = [] ∧ unfinished s c
        · simp only [if_neg asleep, if_pos alone]
          exact ⟨_, _, rfl, .keep (fun p => (s.procs p).prio) currentEq asleep
            fun _ => alone.2⟩
        · simp only [if_neg asleep, if_neg alone]
          refine picks fun other isCurrent _ alive nobody => alone ?_
          obtain rfl : c = other := by simpa [currentEq] using isCurrent
          exact ⟨nobody, alive⟩

theorem fifoSchedule_chooses (live : Prop) (s : Sim n) :
    Chooses live s (fifoSchedule s) := by
  refine keepUnfinished_chooses fun done => ?_
  cases queueEq : s.readyqueue with
  | nil => exact ⟨_, _, rfl, .idle (fun _ => queueEq) done⟩
  | cons next rest =>
      exact chooses_pick live (by rw [queueEq]; exact List.mem_cons_self) done

theorem sjfSchedule_chooses (live : Prop) (s : Sim n) :
    Chooses live s (sjfSchedule s) := by
  refine keepUnfinished_chooses fun done => ?_
  cases queueEq : s.readyqueue with
  | nil => exact ⟨_, _, rfl, .idle (fun _ => queueEq) done⟩
  | cons first rest =>
      exact chooses_pick live
        (by rw [queueEq]; exact scan_mem (shorterJob s) first rest) done

theorem addTailReady_of_detached {s : Sim n} {p : Fin n}
    (loose : s.detached p) :
    s.addTailReady p = .ok { s with readyqueue := s.readyqueue ++ [p] } :=
  if_pos loose

theorem requeueUnfinished_of_unfinished {s : Sim n} {c : Fin n}
    (isCurrent : s.current = some c) (alive : unfinished s c)
    (loose : s.detached c) :
    requeueUnfinished s = .ok { s with readyqueue := s.readyqueue ++ [c] } := by
  unfold requeueUnfinished
  split
  · simp_all
  · obtain rfl : c = _ := by simpa [isCurrent] using ‹s.current = some _›
    rw [if_pos alive, addTailReady_of_detached loose]

theorem requeueUnfinished_of_finished {s : Sim n} {c : Fin n}
    (isCurrent : s.current = some c) (finished : ¬ unfinished s c) :
    requeueUnfinished s = .ok s := by
  unfold requeueUnfinished
  rw [isCurrent]
  simp only [if_neg finished]

/-- The comparison that ends the priority policies chooses under the contract
whenever the state it works on differs from `s` in priorities only. -/
theorem switchTo_chooses (live : Prop) {onSwitch : Fin n → Sim n → Sim n}
    (switchPrio : ∀ p, PrioOnly (onSwitch p)) {s : Sim n} {next : Fin n}
    (prio : Fin n → Nat) (loose : CurrentLoose s)
    (isReady : next ∈ s.readyqueue) :
    Chooses live s (switchTo onSwitch next (s.withPrio prio)) := by
  have picked (done : CurrentDone s) :
      Chooses live s (.ok (some next,
        (onSwitch next (s.withPrio prio)).delInitReady next)) := by
    obtain ⟨prio', prioEq⟩ := switchPrio next (s.withPrio prio)
    rw [prioEq]
    exact ⟨_, _, rfl, .pick prio' isReady done⟩
  unfold switchTo
  cases currentEq : s.current with
  | none =>
      simp only [Sim.withPrio_current, currentEq]
      exact picked fun c isCurrent => by simp [currentEq] at isCurrent
  | some c =>
      have doneOf (why : isBlocked s c ∨ ¬ unfinished s c) : CurrentDone s := by
        intro other isCurrent
        obtain rfl : c = other := by simpa [currentEq] using isCurrent
        exact why
      have sameBlocked : isBlocked (s.withPrio prio) c ↔ isBlocked s c := Iff.rfl
      have sameUnfinished : unfinished (s.withPrio prio) c ↔ unfinished s c :=
        Iff.rfl
      simp only [Sim.withPrio_current, currentEq]
      by_cases asleep : isBlocked s c
      · rw [if_pos (sameBlocked.mpr asleep)]
        exact picked (doneOf (Or.inl asleep))
      · rw [if_neg (sameBlocked.not.mpr asleep)]
        by_cases alive : unfinished s c
        · split
          · exact ⟨_, _, rfl, .keep prio currentEq asleep fun _ => alive⟩
          · rename_i notHigher
            have notAbove :
                ¬ higherPrio (s.withPrio prio) c next :=
              fun above => notHigher ⟨above, sameUnfinished.mpr alive⟩
            have compare :
                ((s.withPrio prio).procs c).prio =
                    ((s.withPrio prio).procs next).prio ∨
                  ((s.withPrio prio).procs c).prio <
                    ((s.withPrio prio).procs next).prio := by
              unfold higherPrio at notAbove
              omega
            rw [if_pos compare]
            have looseNow : (s.withPrio prio).detached c :=
              loose c currentEq asleep
            obtain ⟨prio', prioEq⟩ :=
              switchPrio next
                { s.withPrio prio with readyqueue := s.readyqueue ++ [c] }
            refine ⟨some next, _, ?_,
              .preempt prio' isReady currentEq asleep alive⟩
            rw [requeueUnfinished_of_unfinished (s := s.withPrio prio) currentEq
              (sameUnfinished.mpr alive) looseNow]
            exact congrArg
              (fun t : Sim n => Except.ok (some next, t.delInitReady next)) prioEq
        · have finished : ¬ unfinished (s.withPrio prio) c := alive
          rw [if_neg fun both => finished both.2]
          split
          · rw [requeueUnfinished_of_finished (s := s.withPrio prio) currentEq
              finished]
            exact picked (doneOf (Or.inr alive))
          · exact picked (doneOf (Or.inr alive))

theorem prioSchedule_chooses (live : Prop) {s : Sim n}
    (loose : CurrentLoose s) : Chooses live s (prioSchedule s) := by
  refine keepAlone_chooses fun duty => ?_
  cases queueEq : s.readyqueue with
  | nil => exact ⟨_, _, rfl, .idle (fun _ => queueEq) (duty.done queueEq)⟩
  | cons first rest =>
      exact switchTo_chooses live (fun _ => prioOnly_id)
        (fun p => (s.procs p).prio) loose
        (by rw [queueEq]; exact scan_mem (higherPrio s) first rest)

theorem boostScan_prioOnly (s : Sim n) (first : Fin n) (queue : List (Fin n)) :
    ∃ prio, (boostScan s first queue).1 = s.withPrio prio := by
  unfold boostScan
  induction queue generalizing s first with
  | nil => exact prioOnly_id s
  | cons pos queue inductionHypothesis =>
      obtain ⟨prio, prioEq⟩ := inductionHypothesis
        (s.setPrio pos (toUInt ((s.procs pos).prio + 1)))
        (if higherPrio (s.setPrio pos (toUInt ((s.procs pos).prio + 1))) pos
          first then pos else first)
      refine ⟨prio, ?_⟩
      rw [List.foldl_cons, prioEq, Sim.setPrio_eq_withPrio]
      rfl

theorem boostScan_eq_or_mem (s : Sim n) (first : Fin n)
    (queue : List (Fin n)) :
    (boostScan s first queue).2 = first ∨
      (boostScan s first queue).2 ∈ queue := by
  unfold boostScan
  induction queue generalizing s first with
  | nil => exact Or.inl rfl
  | cons pos queue inductionHypothesis =>
      rw [List.foldl_cons]
      rcases inductionHypothesis
          (s.setPrio pos (toUInt ((s.procs pos).prio + 1)))
          (if higherPrio (s.setPrio pos (toUInt ((s.procs pos).prio + 1))) pos
            first then pos else first) with eq | mem
      · rw [eq]
        split
        · exact Or.inr List.mem_cons_self
        · exact Or.inl rfl
      · exact Or.inr (List.mem_cons_of_mem pos mem)

theorem paSchedule_chooses (live : Prop) {s : Sim n}
    (loose : CurrentLoose s) : Chooses live s (paSchedule s) := by
  refine keepAlone_chooses fun duty => ?_
  cases queueEq : s.readyqueue with
  | nil => exact ⟨_, _, rfl, .idle (fun _ => queueEq) (duty.done queueEq)⟩
  | cons first rest =>
      obtain ⟨prio, prioEq⟩ := boostScan_prioOnly s first (first :: rest)
      have member : (boostScan s first (first :: rest)).2 ∈ s.readyqueue := by
        rw [queueEq]
        rcases boostScan_eq_or_mem s first (first :: rest) with eq | mem
        · rw [eq]; exact List.mem_cons_self
        · exact mem
      have chooses := switchTo_chooses live prioOnly_restorePrio prio loose
        member
      rwa [← prioEq] at chooses

/-- The moment that `rr_schedule` and `stcf_schedule` do not provide for: a
blocked current process, not yet finished, while another process is ready. -/
def Calm (s : Sim n) : Prop :=
  ∀ c, s.current = some c → isBlocked s c →
    s.readyqueue = [] ∨ ¬ unfinished s c

instance (s : Sim n) : Decidable (Calm s) :=
  inferInstanceAs (Decidable (∀ c, s.current = some c → isBlocked s c →
    s.readyqueue = [] ∨ ¬ unfinished s c))

/-- Somebody ready is within reach of `MAX_TC` whenever the current process is
blocked. -/
def InReach (s : Sim n) : Prop :=
  ∀ c, s.current = some c → isBlocked s c → s.readyqueue ≠ [] →
    ∃ p ∈ s.readyqueue, timeToComplete s p < maxTc

instance (s : Sim n) : Decidable (InReach s) :=
  inferInstanceAs (Decidable (∀ c, s.current = some c → isBlocked s c →
    s.readyqueue ≠ [] → ∃ p ∈ s.readyqueue, timeToComplete s p < maxTc))

theorem detached_delInitReady {s : Sim n} {p q : Fin n}
    (loose : s.detached p) : (s.delInitReady q).detached p :=
  ⟨loose.1, fun member => loose.2.1 (List.mem_of_mem_erase member), loose.2.2⟩

theorem rrSchedule_chooses (live : Prop) {s : Sim n} (calm : Calm s)
    (loose : CurrentLoose s) : Chooses live s (rrSchedule s) := by
  refine keepAlone_chooses fun duty => ?_
  cases queueEq : s.readyqueue with
  | nil => exact ⟨_, _, rfl, .idle (fun _ => queueEq) (duty.done queueEq)⟩
  | cons next rest =>
      have isReady : next ∈ s.readyqueue := by
        rw [queueEq]; exact List.mem_cons_self
      cases currentEq : s.current with
      | none =>
          have skipped : requeueUnfinished (s.delInitReady next) =
              .ok (s.delInitReady next) := by
            simp [requeueUnfinished, Sim.delInitReady, currentEq]
          simp only [skipped, bind, Except.bind, pure, Except.pure]
          exact chooses_pick live isReady
            fun c isCurrent => by simp [currentEq] at isCurrent
      | some c =>
          by_cases alive : unfinished s c
          · have awake : ¬ isBlocked s c := by
              intro asleep
              rcases calm c currentEq asleep with nobody | finished
              · simp [queueEq] at nobody
              · exact finished alive
            have requeued := requeueUnfinished_of_unfinished
              (s := s.delInitReady next) currentEq alive
              (detached_delInitReady (loose c currentEq awake))
            simp only [requeued, bind, Except.bind, pure, Except.pure]
            refine ⟨_, _, rfl, ?_⟩
            have reordered :
                { s.delInitReady next with
                  readyqueue := (s.delInitReady next).readyqueue ++ [c] } =
                (({ s with readyqueue := s.readyqueue ++ [c] }.withPrio
                  fun p => (s.procs p).prio).delInitReady next) := by
              simp only [Sim.delInitReady, Sim.withPrio,
                List.erase_append_left _ isReady]
            rw [reordered]
            exact .preempt _ isReady currentEq awake alive
          · have skipped := requeueUnfinished_of_finished
              (s := s.delInitReady next) currentEq alive
            simp only [skipped, bind, Except.bind, pure, Except.pure]
            refine chooses_pick live isReady fun other isCurrent => Or.inr ?_
            obtain rfl : c = other := by simpa [currentEq] using isCurrent
            exact alive

theorem curTc_of_done {s : Sim n} (done : CurrentDone s) :
    curTc s = maxTc := by
  unfold curTc
  split
  · rfl
  · rename_i c isCurrent
    rcases done c isCurrent with asleep | finished
    · rw [if_pos asleep]
    · rw [if_neg finished, ite_self]

/-- `stcf_schedule` keeps the contract when it is not called in the moment that
`Calm` excludes, nor with a blocked current process while everybody ready is
out of reach of `MAX_TC`. -/
theorem stcfSchedule_chooses (live : Prop) {s : Sim n} (calm : Calm s)
    (inReach : InReach s)
    (short : live → ∀ p ∈ s.readyqueue, timeToComplete s p < maxTc)
    (loose : CurrentLoose s) : Chooses live s (stcfSchedule s) := by
  refine keepAlone_chooses fun duty => ?_
  by_cases nobody : s.readyqueue = []
  · rw [if_pos nobody]
    exact ⟨_, _, rfl, .idle (fun _ => nobody) (duty.done nobody)⟩
  · rw [if_neg nobody]
    cases foundEq : shortestTime s (curTc s) s.readyqueue with
    | none =>
        have above := scanBelow_none foundEq
        -- a bound of `MAX_TC` rules out that somebody ready is in reach
        have unreachable (done : CurrentDone s) :
            ∀ p ∈ s.readyqueue, ¬ timeToComplete s p < maxTc := by
          intro p member
          rw [← curTc_of_done done]
          exact Nat.not_lt.mpr (above p member)
        obtain ⟨p, member⟩ := List.exists_mem_of_ne_nil _ nobody
        cases currentEq : s.current with
        | none =>
            have done : CurrentDone s :=
              fun c isCurrent => by simp [currentEq] at isCurrent
            exact ⟨_, _, rfl, .idle (fun alive =>
              absurd (short alive p member) (unreachable done p member)) done⟩
        | some c =>
            have awake : ¬ isBlocked s c := by
              intro asleep
              obtain ⟨q, qMember, reached⟩ :=
                inReach c currentEq asleep nobody
              refine unreachable (fun other isCurrent => Or.inl ?_) q qMember
                reached
              obtain rfl : c = other := by simpa [currentEq] using isCurrent
              exact asleep
            refine ⟨_, _, rfl, .keep (fun p => (s.procs p).prio) currentEq awake
              fun alive => ?_⟩
            by_contra finished
            refine unreachable (fun other isCurrent => Or.inr ?_) p member
              (short alive p member)
            obtain rfl : c = other := by simpa [currentEq] using isCurrent
            exact finished
    | some next =>
        have isReady := (scanBelow_some foundEq).1
        cases currentEq : s.current with
        | none =>
            have skipped : requeueUnfinished s = .ok s := by
              simp [requeueUnfinished, currentEq]
            simp only [skipped, bind, Except.bind, pure, Except.pure]
            exact chooses_pick live isReady
              fun c isCurrent => by simp [currentEq] at isCurrent
        | some c =>
            by_cases alive : unfinished s c
            · have awake : ¬ isBlocked s c := by
                intro asleep
                rcases calm c currentEq asleep with empty | finished
                · exact nobody empty
                · exact finished alive
              have requeued := requeueUnfinished_of_unfinished currentEq alive
                (loose c currentEq awake)
              simp only [requeued, bind, Except.bind, pure, Except.pure]
              exact ⟨_, _, rfl, .preempt (fun p => (s.procs p).prio) isReady
                currentEq awake alive⟩
            · have skipped := requeueUnfinished_of_finished currentEq alive
              simp only [skipped, bind, Except.bind, pure, Except.pure]
              refine chooses_pick live isReady
                fun other isCurrent => Or.inr ?_
              obtain rfl : c = other := by simpa [currentEq] using isCurrent
              exact alive

/-! ### The policies under the contract -/

theorem contract_of_schedule {live : Prop} {guard : Sim n → Prop}
    {name : String} {schedule : Sim n → Except Fault (Option (Fin n) × Sim n)}
    {onGrant onRelease : Fin n → Sim n → Sim n}
    {onWait : Fin n → Fin n → Sim n → Sim n}
    {choose : Sim n → Fin n → List (Fin n) → Fin n}
    (schedules : ∀ s, guard s → CurrentLoose s → Chooses live s (schedule s))
    (grantPrio : ∀ c, PrioOnly (onGrant c))
    (waitPrio : ∀ owner c, PrioOnly (onWait owner c))
    (releasePrio : ∀ c, PrioOnly (onRelease c))
    (chooses : ∀ s first rest, choose s first (first :: rest) ∈ first :: rest) :
    Contract live guard
      { name := name, schedule := schedule
        acquire := acquireWith onGrant onWait
        release := releaseWith onRelease choose } where
  schedule := schedules
  acquire := acquireWith_requested grantPrio waitPrio
  release := fun s c resourceId inside loose =>
    (releaseWith_released releasePrio chooses s c resourceId inside loose).imp
      (fun failed => failed.1) id
  releaseOwned := fun s c resourceId inside loose =>
    releaseWith_owned releasePrio chooses s c resourceId inside loose

/-- The status-aware policies keep the contract in every state. -/
theorem Policy.contract {policy : Policy} (aware : policy ∈ statusAware) :
    Contract True (fun _ : Sim n => True) policy.scheduler := by
  have unchanged : ∀ _ : Fin n, PrioOnly (fun s : Sim n => s) :=
    fun _ => prioOnly_id
  have unchanged₂ : ∀ _ _ : Fin n, PrioOnly (fun s : Sim n => s) :=
    fun _ _ => prioOnly_id
  simp only [statusAware, List.mem_cons, List.not_mem_nil, or_false] at aware
  rcases aware with rfl | rfl | rfl | rfl | rfl | rfl
  · exact contract_of_schedule (fun s _ _ => fifoSchedule_chooses True s)
      unchanged unchanged₂ unchanged firstWaiter_mem
  · exact contract_of_schedule (fun s _ _ => sjfSchedule_chooses True s)
      unchanged unchanged₂ unchanged firstWaiter_mem
  · exact contract_of_schedule (fun s _ => prioSchedule_chooses True)
      unchanged unchanged₂ unchanged highestPrio_mem
  · exact contract_of_schedule (fun s _ => paSchedule_chooses True)
      unchanged unchanged₂ unchanged highestPrio_mem
  · exact contract_of_schedule (fun s _ => prioSchedule_chooses True)
      (fun c => prioOnly_setPrio c fun _ => maxPrio) unchanged₂
      prioOnly_restorePrio highestPrio_mem
  · exact contract_of_schedule (fun s _ => prioSchedule_chooses True)
      unchanged prioOnly_inheritPrio prioOnly_restorePrio highestPrio_mem

theorem rrScheduler_contract : Contract True (Calm (n := n)) rrScheduler :=
  contract_of_schedule (fun _ => rrSchedule_chooses True)
    (fun _ => prioOnly_id) (fun _ _ => prioOnly_id) (fun _ => prioOnly_id)
    firstWaiter_mem

theorem stcfScheduler_contract :
    Contract False (fun s : Sim n => Calm s ∧ InReach s) stcfScheduler :=
  contract_of_schedule
    (fun _ guard => stcfSchedule_chooses False guard.1 guard.2 False.elim)
    (fun _ => prioOnly_id) (fun _ _ => prioOnly_id) (fun _ => prioOnly_id)
    firstWaiter_mem

end OsPAs.Sched
