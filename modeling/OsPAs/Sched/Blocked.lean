/-
Module: OsPAs.Sched.Blocked
Purpose: Round-robin and STCF put a blocked current process back into play
  when somebody else is ready.  Exactly when blocked processes stay out of the
  ready queue under the two, along whole runs.
Trusted boundary: none
Main exports: BlockedStaysOut, rrSchedule_staysOut_iff,
  stcfSchedule_staysOut_iff, blocked_stays_out_iff
-/
import OsPAs.Sched.Conservation

namespace OsPAs.Sched

open Lib

variable {n : Nat}

/-- At the top of a pass every blocked process is in exactly one waitqueue, and
the `schedule` call of this pass neither moves it out, nor puts it into the
ready queue, nor returns it. -/
def BlockedStaysOut (sched : Scheduler n) (s : Sim n) : Prop :=
  (∀ p, isBlocked s p → ∃! r, p ∈ s.waitqueue r) ∧
    ∃ next s', sched.schedule (forkOnSchedule s) = .ok (next, s') ∧
      ∀ p, isBlocked s p →
        (∃! r, p ∈ s'.waitqueue r) ∧ p ∉ s'.readyqueue ∧ next ≠ some p

/-! ### Blocked processes under the contract -/

/-- A blocked process is in one waitqueue and in no other place. -/
theorem Linked.blocked_place {s : Sim n} {run : Option (Fin n)} {p : Fin n}
    (linked : Linked s run) (asleep : isBlocked s p) :
    (∃! r, p ∈ s.waitqueue r) ∧ p ∉ s.readyqueue ∧ run ≠ some p := by
  have bound := linked.once p
  obtain ⟨r, member⟩ := linked.blocked p asleep
  have somewhere := occurrences_pos member
  unfold tally at bound
  refine ⟨existsUnique_of_occurrences (by omega), fun ready => ?_, fun isRun => ?_⟩
  · have positive := List.count_pos_iff.mpr ready
    omega
  · rw [if_pos isRun] at bound
    omega

/-- Under the contract blocked processes stay out. -/
theorem Sound.blockedStaysOut {live : Prop} {guard : Sim n → Prop}
    {sched : Scheduler n} (contract : Contract live guard sched) {s : Sim n}
    (sound : Sound s) (guarded : guard (forkOnSchedule s)) :
    BlockedStaysOut sched s := by
  refine ⟨fun p asleep => (sound.linked.blocked_place asleep).1, ?_⟩
  obtain ⟨next, s', scheduled, choice, linked, _⟩ :=
    sound.schedules contract guarded
  refine ⟨next, s', scheduled, fun p asleep => ?_⟩
  obtain ⟨k, eq⟩ := choice.procs p
  have asleepNow : isBlocked { s' with current := next } p := by
    unfold isBlocked
    change (s'.procs p).status = .blocked
    rw [eq, sound.forked.procs]
    exact asleep
  exact linked.blocked_place asleepNow

/-! ### Outside the contract -/

theorem keepAlone_of_blocked {s : Sim n} {c : Fin n}
    (pickNext : Sim n → Except Fault (Option (Fin n) × Sim n))
    (isCurrent : s.current = some c) (asleep : isBlocked s c) :
    keepAlone pickNext s = pickNext s := by
  unfold keepAlone
  rw [isCurrent]
  simp only [if_pos asleep]

/-- Linking a blocked unfinished current process into the ready queue while it
is still linked into a waitqueue. -/
theorem requeueUnfinished_of_waiting {s : Sim n} {c : Fin n}
    {r : Fin nrResources} (isCurrent : s.current = some c)
    (alive : unfinished s c) (isWaiting : c ∈ s.waitqueue r) :
    requeueUnfinished s = .error .linkedTwice := by
  have linked : ¬ s.detached c := fun loose => loose.2.2 r isWaiting
  unfold requeueUnfinished
  rw [isCurrent]
  simp only [if_pos alive, Sim.addTailReady, if_neg linked]

/-- Called with a blocked unfinished current process while somebody is ready,
`rr_schedule` links the blocked process into the ready queue. -/
theorem rrSchedule_of_not_calm {s : Sim n} (notCalm : ¬ Calm s)
    (waits : ∀ p, isBlocked s p → ∃ r, p ∈ s.waitqueue r) :
    rrSchedule s = .error .linkedTwice := by
  unfold Calm at notCalm
  push Not at notCalm
  obtain ⟨c, isCurrent, asleep, somebody, alive⟩ := notCalm
  obtain ⟨r, isWaiting⟩ := waits c asleep
  unfold rrSchedule
  rw [keepAlone_of_blocked _ isCurrent asleep]
  cases queueEq : s.readyqueue with
  | nil => exact absurd queueEq somebody
  | cons next rest =>
      have failed := requeueUnfinished_of_waiting (s := s.delInitReady next)
        isCurrent alive isWaiting
      simp only [failed, bind, Except.bind]

theorem curTc_of_blocked {s : Sim n} {c : Fin n}
    (isCurrent : s.current = some c) (asleep : isBlocked s c) :
    curTc s = maxTc := by
  unfold curTc
  rw [isCurrent]
  simp only [if_pos asleep]

/-- Called with a blocked current process while everybody ready is out of reach
of `MAX_TC`, `stcf_schedule` returns the blocked process. -/
theorem stcfSchedule_of_not_inReach {s : Sim n} (notInReach : ¬ InReach s) :
    ∃ c, isBlocked s c ∧ stcfSchedule s = .ok (some c, s) := by
  unfold InReach at notInReach
  push Not at notInReach
  obtain ⟨c, isCurrent, asleep, somebody, unreachable⟩ := notInReach
  refine ⟨c, asleep, ?_⟩
  have nothing : shortestTime s (curTc s) s.readyqueue = none := by
    rw [curTc_of_blocked isCurrent asleep]
    cases found : shortestTime s maxTc s.readyqueue with
    | none => rfl
    | some next =>
        obtain ⟨isReady, below, _⟩ := scanBelow_some found
        exact absurd below (Nat.not_lt.mpr (unreachable next isReady))
  unfold stcfSchedule
  rw [keepAlone_of_blocked _ isCurrent asleep, if_neg somebody, nothing]
  simp only [isCurrent]

/-- Called with a blocked unfinished current process while somebody ready is
in reach of `MAX_TC`, `stcf_schedule` links the blocked process into the ready
queue. -/
theorem stcfSchedule_of_not_calm {s : Sim n} (notCalm : ¬ Calm s)
    (inReach : InReach s)
    (waits : ∀ p, isBlocked s p → ∃ r, p ∈ s.waitqueue r) :
    stcfSchedule s = .error .linkedTwice := by
  unfold Calm at notCalm
  push Not at notCalm
  obtain ⟨c, isCurrent, asleep, somebody, alive⟩ := notCalm
  obtain ⟨r, isWaiting⟩ := waits c asleep
  obtain ⟨p, isReady, reached⟩ := inReach c isCurrent asleep somebody
  have failed := requeueUnfinished_of_waiting isCurrent alive isWaiting
  unfold stcfSchedule
  rw [keepAlone_of_blocked _ isCurrent asleep, if_neg somebody]
  cases found : shortestTime s (curTc s) s.readyqueue with
  | none =>
      rw [curTc_of_blocked isCurrent asleep] at found
      exact absurd reached (Nat.not_lt.mpr (scanBelow_none found p isReady))
  | some next => simp only [failed, bind, Except.bind]

/-! ### Exactly when -/

theorem Sound.waits_forked {s : Sim n} (sound : Sound s) (p : Fin n)
    (asleep : isBlocked (forkOnSchedule s) p) :
    ∃ r, p ∈ (forkOnSchedule s).waitqueue r := by
  rw [sound.forked.waitqueue]
  exact sound.linked.blocked p ((sound.forked.isBlocked_iff p).mp asleep)

theorem rrSchedule_staysOut_iff {s : Sim n} (sound : Sound s) :
    BlockedStaysOut rrScheduler s ↔ Calm (forkOnSchedule s) := by
  constructor
  · rintro ⟨_, next, s', scheduled, _⟩
    by_contra notCalm
    have failed := rrSchedule_of_not_calm notCalm sound.waits_forked
    change rrSchedule (forkOnSchedule s) = _ at scheduled
    simp [failed] at scheduled
  · exact sound.blockedStaysOut rrScheduler_contract

theorem stcfSchedule_staysOut_iff {s : Sim n} (sound : Sound s) :
    BlockedStaysOut stcfScheduler s ↔
      Calm (forkOnSchedule s) ∧ InReach (forkOnSchedule s) := by
  constructor
  · rintro ⟨_, next, s', scheduled, out⟩
    change stcfSchedule (forkOnSchedule s) = _ at scheduled
    by_cases inReach : InReach (forkOnSchedule s)
    · refine ⟨?_, inReach⟩
      by_contra notCalm
      have failed :=
        stcfSchedule_of_not_calm notCalm inReach sound.waits_forked
      simp [failed] at scheduled
    · exfalso
      obtain ⟨c, asleep, returned⟩ := stcfSchedule_of_not_inReach inReach
      have sameResult := Except.ok.inj (returned.symm.trans scheduled)
      have isNext : some c = next := congrArg Prod.fst sameResult
      exact (out c ((sound.forked.isBlocked_iff c).mp asleep)).2.2 isNext.symm
  · exact sound.blockedStaysOut stcfScheduler_contract

/-- Along the run of a policy under the contract the property and the guard
stand or fall together, if they do so in every sound state. -/
theorem staysOut_run_iff {script : List ProcessBlock} {live : Prop}
    {guard : Sim script.length → Prop} {sched : Scheduler script.length}
    (contract : Contract live guard sched) (known : KnownScript script)
    (exact : ∀ s, Sound s → (BlockedStaysOut sched s ↔ guard (forkOnSchedule s)))
    (k : Nat) :
    (∀ j ≤ k, ∀ s, doSimulation script sched j = .ok (.again s) →
      BlockedStaysOut sched s) ↔
    ∀ j ≤ k, ∀ s, doSimulation script sched j = .ok (.again s) →
      guard (forkOnSchedule s) := by
  constructor
  · intro staysOut j le
    induction j using Nat.strongRecOn with
    | ind j inductionHypothesis =>
        intro s reached
        have sound := reached_sound contract known
          (fun i lt earlier earlierReached => inductionHypothesis i lt
            (Nat.le_trans (Nat.le_of_lt lt) le) earlier earlierReached) reached
        exact (exact s sound).mp (staysOut j le s reached)
  · intro guarded j le s reached
    have sound := reached_sound contract known
      (fun i lt earlier earlierReached => guarded i
        (Nat.le_trans (Nat.le_of_lt lt) le) earlier earlierReached) reached
    exact (exact s sound).mpr (guarded j le s reached)

/-- Up to any pass of a run, blocked processes stay out under round-robin
exactly if `rr_schedule` was never called with a blocked unfinished current
process while somebody was ready, and under STCF exactly if, besides,
`stcf_schedule` was never called with a blocked current process while everybody
ready had `MAX_TC` or more to go. -/
theorem blocked_stays_out_iff (script : List ProcessBlock)
    (known : KnownScript script) (k : Nat) :
    ((∀ j ≤ k, ∀ s, doSimulation script rrScheduler j = .ok (.again s) →
        BlockedStaysOut rrScheduler s) ↔
      ∀ j ≤ k, ∀ s, doSimulation script rrScheduler j = .ok (.again s) →
        Calm (forkOnSchedule s)) ∧
    ((∀ j ≤ k, ∀ s, doSimulation script stcfScheduler j = .ok (.again s) →
        BlockedStaysOut stcfScheduler s) ↔
      ∀ j ≤ k, ∀ s, doSimulation script stcfScheduler j = .ok (.again s) →
        Calm (forkOnSchedule s) ∧ InReach (forkOnSchedule s)) :=
  ⟨staysOut_run_iff rrScheduler_contract known
      (fun _ => rrSchedule_staysOut_iff) k,
    staysOut_run_iff stcfScheduler_contract known
      (fun _ => stcfSchedule_staysOut_iff) k⟩

/-- A process that asks once more for the resource it holds, and a later one. -/
def selfWaiter : List ProcessBlock :=
  [{ pid := 1, start := 0, lifespan := 3, acquires := [⟨1, 0, 3⟩, ⟨1, 1, 1⟩] },
   { pid := 2, start := 3, lifespan := 2 }]

/-- The first process waits for itself, and stays out while the second one runs. -/
theorem blocked_stays_out_iff_selfWaiter :
    (∃ s, doSimulation selfWaiter rrScheduler 4 = .ok (.again s) ∧
      isBlocked s ⟨0, by decide⟩) ∧
    (∀ j ≤ 4, ∀ s, doSimulation selfWaiter rrScheduler j = .ok (.again s) →
      BlockedStaysOut rrScheduler s) ∧
    ∀ j ≤ 4, ∀ s, doSimulation selfWaiter stcfScheduler j = .ok (.again s) →
      BlockedStaysOut stcfScheduler s := by
  obtain ⟨underRr, underStcf⟩ := blocked_stays_out_iff selfWaiter (by decide) 4
  have calm : ∀ j ≤ 4,
      againAll (fun s => Calm (forkOnSchedule s))
          (doSimulation selfWaiter rrScheduler j) ∧
        againAll (fun s => Calm (forkOnSchedule s) ∧ InReach (forkOnSchedule s))
          (doSimulation selfWaiter stcfScheduler j) := by
    decide +kernel
  refine ⟨exists_of_againWith _ _ (by decide +kernel), ?_, ?_⟩
  · exact underRr.mpr fun j le => forall_of_againAll _ _ (calm j le).1
  · exact underStcf.mpr fun j le => forall_of_againAll _ _ (calm j le).2

/-- The script of one process that keeps resource 1 for its four ticks, joined
at tick 1 by a shorter one that asks for it at once. -/
def shorterWaiter : List ProcessBlock :=
  [{ pid := 1, start := 0, lifespan := 4, acquires := [⟨1, 0, 4⟩] },
   { pid := 2, start := 1, lifespan := 2, acquires := [⟨1, 0, 1⟩] }]

/-- After two passes the shorter process is blocked and the owner is ready, and
the next call of either policy links the blocked process, still in its
waitqueue, into the ready queue. -/
theorem blocked_does_not_stay_out :
    KnownScript shorterWaiter ∧
      (∃ s, doSimulation shorterWaiter rrScheduler 2 = .ok (.again s) ∧
        rrSchedule (forkOnSchedule s) = .error .linkedTwice ∧
        ¬ BlockedStaysOut rrScheduler s) ∧
      ∃ s, doSimulation shorterWaiter stcfScheduler 2 = .ok (.again s) ∧
        stcfSchedule (forkOnSchedule s) = .error .linkedTwice ∧
        ¬ BlockedStaysOut stcfScheduler s := by
  have failsTwice {α : Type} {result : Except Fault α}
      (fails : result.map (fun _ => ()) = .error .linkedTwice) :
      result = .error .linkedTwice := by
    cases result with
    | error fault => simpa [Except.map] using fails
    | ok value => simp [Except.map] at fails
  refine ⟨by decide, ?_, ?_⟩
  · obtain ⟨s, reached, fails⟩ := exists_of_againWith
      (fun s => (rrSchedule (forkOnSchedule s)).map (fun _ => ()) =
        .error .linkedTwice)
      (doSimulation shorterWaiter rrScheduler 2) (by decide +kernel)
    refine ⟨s, reached, failsTwice fails, ?_⟩
    rintro ⟨_, next, s', scheduled, _⟩
    exact absurd ((failsTwice fails).symm.trans scheduled) (by simp)
  · obtain ⟨s, reached, fails⟩ := exists_of_againWith
      (fun s => (stcfSchedule (forkOnSchedule s)).map (fun _ => ()) =
        .error .linkedTwice)
      (doSimulation shorterWaiter stcfScheduler 2) (by decide +kernel)
    refine ⟨s, reached, failsTwice fails, ?_⟩
    rintro ⟨_, next, s', scheduled, _⟩
    exact absurd ((failsTwice fails).symm.trans scheduled) (by simp)

end OsPAs.Sched
