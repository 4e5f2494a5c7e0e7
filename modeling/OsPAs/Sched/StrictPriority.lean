/-
Module: OsPAs.Sched.StrictPriority
Purpose: The priority scheduler gives the processor to a process of highest
  priority, and takes those of equal priority in turns.
Trusted boundary: none
Main exports: Sound.preferred, Preferred.highest, Preferred.stays,
  Preferred.ahead, reached_prio, strict_priority_in_turns
-/
import OsPAs.Sched.Timing
import OsPAs.Sched.Preference

namespace OsPAs.Sched

open Lib

variable {n : Nat}

theorem prioScheduler_contract :
    Contract True (fun _ : Sim n => True) prioScheduler :=
  Policy.contract (show Policy.prio ∈ statusAware by decide)

/-! ### One pass -/

section Pass

variable {s mid : Sim n} {p q : Fin n}

/-- The first half of a pass under a policy that schedules with
`prio_schedule`, seen from the ready queue. -/
theorem Sound.preferred {sched : Scheduler n} {guard : Sim n → Prop}
    (contract : Contract True guard sched)
    (isPrio : sched.schedule = prioSchedule) (sound : Sound s)
    (guarded : guard (forkOnSchedule s))
    (dispatchedEq : OsPAs.Sched.dispatch sched s = .ok mid) :
    Preferred (fun p => (s.procs p).prio) (forkOnSchedule s) mid.current
      mid.readyqueue := by
  obtain ⟨next, chosen, scheduled, _, _, retired⟩ :=
    sound.dispatched_cases contract guarded dispatchedEq
  rw [isPrio] at scheduled
  have preferred := prioSchedule_preferred scheduled
  rw [sound.forked.procs] at preferred
  rw [retired.readyqueue, retired.current]
  exact preferred

/-- Nobody left in the ready queue is above the chosen process. -/
theorem Preferred.highest {prio : Fin n → Nat} {queue : List (Fin n)}
    (preferred : Preferred prio s (some p) queue) :
    ∀ q ∈ queue, prio q ≤ prio p := by
  intro q member
  cases preferred with
  | keep isCurrent awake alive above =>
      exact Nat.le_of_lt (above q member)
  | pick queueEq worse noBetter done =>
      rcases List.mem_append.mp member with inFront | inBack
      · exact Nat.le_of_lt (worse q inFront)
      · exact noBetter q inBack
  | preempt queueEq worse noBetter isCurrent awake alive notAbove =>
      rcases List.mem_append.mp member with member | isLast
      · rcases List.mem_append.mp member with inFront | inBack
        · exact Nat.le_of_lt (worse q inFront)
        · exact noBetter q inBack
      · rw [List.mem_singleton.mp isLast]
        exact notAbove

/-- A current process with work left that is above everybody ready goes on. -/
theorem Preferred.stays {prio : Fin n → Nat} {next : Option (Fin n)}
    {queue : List (Fin n)} (preferred : Preferred prio s next queue)
    (isCurrent : s.current = some p) (awake : ¬ isBlocked s p)
    (alive : unfinished s p) (above : ∀ q ∈ s.readyqueue, prio q < prio p) :
    next = some p := by
  have notDone : ¬ CurrentDone s := by
    intro done
    rcases done p isCurrent with asleep | finished
    · exact awake asleep
    · exact finished alive
  cases preferred with
  | keep isOther _ _ _ => exact isOther.symm.trans isCurrent
  | idle nobody done => exact absurd done notDone
  | pick queueEq worse noBetter done => exact absurd done notDone
  | preempt queueEq worse noBetter isOther busy left notAbove =>
      rename_i c x front back
      obtain rfl : c = p := by simpa [isCurrent] using isOther.symm
      have isReady : x ∈ s.readyqueue := by
        rw [queueEq]
        exact List.mem_append_right front List.mem_cons_self
      exact absurd (above x isReady) (Nat.not_lt.mpr notAbove)

/-- With `q` ahead of `p`, of the same priority, `p` is not chosen, and `q` is
or stays ahead. -/
theorem Preferred.ahead {prio : Fin n → Nat} {next : Option (Fin n)}
    {queue : List (Fin n)} (preferred : Preferred prio s next queue)
    (ahead : Ahead q p s.readyqueue) (differ : q ≠ p)
    (equal : prio q = prio p) :
    next ≠ some p ∧ (next = some q ∨ Ahead q p queue) := by
  -- the first process of highest priority is not the one behind
  have notBehind {x : Fin n} {front back : List (Fin n)}
      (queueEq : s.readyqueue = front ++ x :: back)
      (worse : ∀ y ∈ front, prio y < prio x) : x ≠ p := by
    rintro rfl
    rw [queueEq] at ahead
    exact absurd equal (Nat.ne_of_lt (worse q (ahead.mem_front differ)))
  have leaves {x : Fin n} {front back : List (Fin n)}
      (queueEq : s.readyqueue = front ++ x :: back)
      (worse : ∀ y ∈ front, prio y < prio x) (other : x ≠ q) :
      Ahead q p (front ++ back) := by
    have new : x ∉ front := fun member => Nat.lt_irrefl _ (worse x member)
    have erased := ahead.erase other
    rwa [queueEq, erase_of_split new] at erased
  cases preferred with
  | keep isCurrent awake alive above =>
      rename_i c
      have below := above q ahead.mem
      refine ⟨fun isP => ?_, Or.inr ahead⟩
      obtain rfl := Option.some.inj isP
      exact absurd equal (Nat.ne_of_lt below)
  | idle nobody done =>
      have isMember := ahead.mem
      simp [nobody] at isMember
  | pick queueEq worse noBetter done =>
      rename_i x front back
      refine ⟨fun isP => notBehind queueEq worse (Option.some.inj isP), ?_⟩
      by_cases isQ : x = q
      · exact Or.inl (congrArg some isQ)
      · exact Or.inr (leaves queueEq worse isQ)
  | preempt queueEq worse noBetter isCurrent awake alive notAbove =>
      rename_i c x front back
      refine ⟨fun isP => notBehind queueEq worse (Option.some.inj isP), ?_⟩
      by_cases isQ : x = q
      · exact Or.inl (congrArg some isQ)
      · exact Or.inr ((leaves queueEq worse isQ).append [c])

end Pass

/-! ### Whole runs -/

section Reached

variable {script : List ProcessBlock}

/-- Nothing ever changes a priority under the priority scheduler. -/
theorem reached_prio (known : KnownScript script) {k : Nat}
    {s : Sim script.length}
    (reached : doSimulation script prioScheduler k = .ok (.again s))
    (p : Fin script.length) : (s.procs p).prio = priorityOf script p := by
  apply sound_invariant prioScheduler_contract known
    (fun _ s => (s.procs p).prio = priorityOf script p) rfl _ reached
  intro k s mid s' _ sound same dispatchedEq dispatched executedEq
  calc (s'.procs p).prio
      = (mid.procs p).prio :=
        dispatched.prio prioScheduler_contract rfl rfl executedEq p
    _ = (s.procs p).prio :=
        (dispatch_samePriorities prioScheduler_contract rfl sound trivial
          dispatchedEq).prio p
    _ = priorityOf script p := same

/-- A pass that is reached has its first half between sound states. -/
theorem reached_preferred (known : KnownScript script) {k : Nat}
    {s mid : Sim script.length}
    (reached : doSimulation script prioScheduler k = .ok (.again s))
    (dispatchedEq : dispatch prioScheduler s = .ok mid) :
    Preferred (priorityOf script) (forkOnSchedule s) mid.current
      mid.readyqueue := by
  have sound := reached_sound prioScheduler_contract known
    (fun _ _ _ _ => trivial) reached
  have preferred := Sound.preferred prioScheduler_contract rfl sound trivial
    dispatchedEq
  rwa [funext (reached_prio known reached)] at preferred

/-- Forking puts nobody in front. -/
theorem Sound.ahead_forked {s : Sim n} {p q : Fin n} (sound : Sound s)
    (ahead : Ahead q p s.readyqueue) :
    Ahead q p (forkOnSchedule s).readyqueue := by
  rw [sound.forked.readyqueue]
  exact ahead.append _

/-- Once `p` was chosen with `q`, of the same priority, left in the ready queue,
`q` is ahead of `p` until it is chosen. -/
theorem ahead_until_chosen (known : KnownScript script) {start : Nat}
    {s mid : Sim script.length} {p q : Fin script.length}
    (reached : doSimulation script prioScheduler start = .ok (.again s))
    (dispatchedEq : dispatch prioScheduler s = .ok mid)
    (isChosen : mid.current = some p) (left : q ∈ mid.readyqueue)
    (equal : priorityOf script q = priorityOf script p) {k : Nat}
    {t : Sim script.length}
    (reachedThen : doSimulation script prioScheduler k = .ok (.again t))
    (later : start < k) :
    (∃ j, start < j ∧ j < k ∧ chosenAt script prioScheduler j = some q) ∨
      q ≠ p ∧ Ahead q p t.readyqueue := by
  revert later
  apply sound_invariant prioScheduler_contract known
    (fun k t => start < k →
      (∃ j, start < j ∧ j < k ∧ chosenAt script prioScheduler j = some q) ∨
        q ≠ p ∧ Ahead q p t.readyqueue) _ _ reachedThen
  · intro later
    exact absurd later (Nat.not_lt_zero start)
  · intro k t midThen t' reachedThen sound inv dispatchedThen dispatched
      executedEq later
    have ticking := dispatched.ticking prioScheduler_contract executedEq
    obtain ⟨woken, readyEq, _⟩ := ticking.readyqueue
    rw [readyEq]
    rcases Nat.eq_or_lt_of_le (Nat.le_of_lt_succ later) with rfl | earlier
    · obtain rfl : s = t := by simpa [reached] using reachedThen
      obtain rfl := Except.ok.inj (dispatchedEq.symm.trans dispatchedThen)
      have loose := dispatched.linked.detached_of_run isChosen
      have differ : q ≠ p := by
        rintro rfl
        exact loose.2.1 left
      exact Or.inr ⟨differ, (ahead_of_mem left loose.2.1).append woken⟩
    · rcases inv earlier with ⟨j, after, before, chosen⟩ | ⟨differ, ahead⟩
      · exact Or.inl ⟨j, after, Nat.lt_succ_of_lt before, chosen⟩
      · obtain ⟨_, isQ | stays⟩ :=
          (reached_preferred known reachedThen dispatchedThen).ahead
            (sound.ahead_forked ahead) differ equal
        · exact Or.inl ⟨k, earlier, Nat.lt_succ_self k,
            (chosenAt_of_dispatched reachedThen dispatchedThen).trans isQ⟩
        · exact Or.inr ⟨differ, stays.append woken⟩

/-- Strict priority with turns among equals.  The process chosen in a pass has
a priority at least that of everybody left in the ready queue, and where it
leaves a process of its own priority there, it is not chosen again before that
process has been. -/
theorem strict_priority_in_turns (script : List ProcessBlock)
    (known : KnownScript script) (k : Nat) (s mid : Sim script.length)
    (p q : Fin script.length)
    (reached : doSimulation script prioScheduler k = .ok (.again s))
    (dispatchedEq : dispatch prioScheduler s = .ok mid)
    (isChosen : mid.current = some p) (left : q ∈ mid.readyqueue) :
    (mid.procs q).prio ≤ (mid.procs p).prio ∧
      ((mid.procs q).prio = (mid.procs p).prio → ∀ later, k < later →
        chosenAt script prioScheduler later = some p →
        ∃ between, k < between ∧ between < later ∧
          chosenAt script prioScheduler between = some q) := by
  have sound := reached_sound prioScheduler_contract known
    (fun _ _ _ _ => trivial) reached
  have prioMid (p : Fin script.length) :
      (mid.procs p).prio = priorityOf script p :=
    ((dispatch_samePriorities prioScheduler_contract rfl sound trivial
      dispatchedEq).prio p).trans (reached_prio known reached p)
  have preferred := reached_preferred known reached dispatchedEq
  rw [isChosen] at preferred
  rw [prioMid, prioMid]
  refine ⟨preferred.highest q left, fun equal later after again => ?_⟩
  obtain ⟨t, midThen, reachedThen, dispatchedThen, isAgain⟩ :=
    dispatched_of_chosenAt again
  rcases ahead_until_chosen known reached dispatchedEq isChosen left equal
      reachedThen after with found | ⟨differ, ahead⟩
  · exact found
  · have soundThen := reached_sound prioScheduler_contract known
      (fun _ _ _ _ => trivial) reachedThen
    have notChosen := ((reached_preferred known reachedThen dispatchedThen).ahead
      (soundThen.ahead_forked ahead) differ equal).1
    exact absurd isAgain notChosen

/-- Two processes of priority 5, the first of which needs a resource that the
second one holds, and one of priority 9 that comes later. -/
def equalPair : List ProcessBlock :=
  [{ pid := 1, start := 0, lifespan := 3, prio := 5
     acquires := [⟨1, 1, 1⟩] },
   { pid := 2, start := 0, lifespan := 4, prio := 5
     acquires := [⟨1, 0, 3⟩] },
   { pid := 3, start := 2, lifespan := 2, prio := 9 }]

/-- The two processes of equal priority. -/
def equalFirst : Fin equalPair.length := ⟨0, by decide⟩
def equalSecond : Fin equalPair.length := ⟨1, by decide⟩

theorem strict_priority_in_turns_equalPair :
    ∃ s mid, doSimulation equalPair prioScheduler 0 = .ok (.again s) ∧
      dispatch prioScheduler s = .ok mid ∧
      (mid.procs equalSecond).prio ≤ (mid.procs equalFirst).prio ∧
      ((mid.procs equalSecond).prio = (mid.procs equalFirst).prio →
        ∀ later, 0 < later →
          chosenAt equalPair prioScheduler later = some equalFirst →
          ∃ between, 0 < between ∧ between < later ∧
            chosenAt equalPair prioScheduler between = some equalSecond) := by
  obtain ⟨mid, dispatchedEq, isChosen, left⟩ := exists_of_okWith
    (fun mid => mid.current = some equalFirst ∧ equalSecond ∈ mid.readyqueue)
    (dispatch prioScheduler (load equalPair)) (by decide +kernel)
  exact ⟨load equalPair, mid, rfl, dispatchedEq,
    strict_priority_in_turns equalPair (by decide) 0 (load equalPair) mid
      equalFirst equalSecond rfl dispatchedEq isChosen left⟩

end Reached

end OsPAs.Sched
