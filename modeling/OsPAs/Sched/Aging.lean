/-
Module: OsPAs.Sched.Aging
Purpose: Under priority scheduling with aging the priority of a ready process
  tells how often it has been passed over, and is bounded, so that nobody
  starves.
Trusted boundary: none
Main exports: passedOver, Aged, Aged.scheduled, aging_rules_out_starvation
-/
import OsPAs.Lib.Aging
import OsPAs.Sched.Blocked
import OsPAs.Sched.StrictPriority

namespace OsPAs.Sched

open Lib

variable {n : Nat}

/-- Number of `schedule` calls in a row, in the passes before pass `k`, that
found `p` in the ready queue and left it there. -/
def passedOver (script : List ProcessBlock) (sched : Scheduler script.length)
    (p : Fin script.length) : Nat → Nat
  | 0 => 0
  | k + 1 =>
      match doSimulation script sched k with
      | .ok (.again s) =>
          match sched.schedule (forkOnSchedule s) with
          | .ok (_, s') =>
              if p ∈ (forkOnSchedule s).readyqueue ∧ p ∈ s'.readyqueue then
                passedOver script sched p k + 1
              else 0
          | .error _ => 0
      | _ => 0

/-- Every priority is the original one plus the given number, which is zero
outside the ready queue, and high priorities are rare. -/
structure Aged (ceiling : Nat) (count : Fin n → Nat) (s : Sim n) : Prop where
  counted : ∀ p, (s.procs p).prio = (s.procs p).prioOrig + count p
  outside : ∀ p, p ∉ s.readyqueue → count p = 0
  low : ∀ p, (s.procs p).prioOrig ≤ ceiling
  sparse : Sparse ceiling n (fun p => (s.procs p).prio) s.readyqueue

/-! ### One pass -/

section Pass

variable {ceiling : Nat} {count : Fin n → Nat} {s s' : Sim n} {p : Fin n}

theorem Aged.rested (aged : Aged ceiling count s) (away : p ∉ s.readyqueue) :
    (s.procs p).prio = (s.procs p).prioOrig := by
  rw [aged.counted, aged.outside p away, Nat.add_zero]

theorem Aged.lt (aged : Aged ceiling count s) (isReady : p ∈ s.readyqueue) :
    (s.procs p).prio < ceiling + n :=
  aged.sparse.lt p.pos isReady

/-- Newcomers to the ready queue have their original priority. -/
theorem Aged.extended (aged : Aged ceiling count s) (newcomers : List (Fin n))
    (prio : ∀ p, (s'.procs p).prio = (s.procs p).prio)
    (prioOrig : ∀ p, (s'.procs p).prioOrig = (s.procs p).prioOrig)
    (queueEq : s'.readyqueue = s.readyqueue ++ newcomers)
    (nodup : s'.readyqueue.Nodup) : Aged ceiling count s' where
  counted := fun p => by rw [prio, prioOrig, aged.counted]
  outside := fun p away => aged.outside p fun member =>
    away (by rw [queueEq]; exact List.mem_append_left _ member)
  low := fun p => by rw [prioOrig]; exact aged.low p
  sparse := by
    rw [queueEq]
    rw [queueEq] at nodup
    apply Sparse.append
    · exact aged.sparse.congr fun p _ => prio p
    · intro p isNew
      have away : p ∉ s.readyqueue := fun member =>
        List.disjoint_of_nodup_append nodup member isNew
      simp only [prio, aged.rested away]
      exact aged.low p

/-- A ready process leaves the ready queue exactly if it is chosen. -/
theorem Preferred.mem_iff {prio : Fin n → Nat} {next : Option (Fin n)}
    {queue : List (Fin n)} (preferred : Preferred prio s next queue)
    (nodup : s.readyqueue.Nodup) (loose : CurrentLoose s)
    (isReady : p ∈ s.readyqueue) : p ∈ queue ↔ next ≠ some p := by
  cases preferred with
  | keep isCurrent awake alive above =>
      have away := (loose _ isCurrent awake).2.1
      simp only [isReady, true_iff]
      rintro same
      exact away (Option.some.inj same ▸ isReady)
  | idle nobody done => simp [isReady]
  | pick queueEq worse noBetter done =>
      rename_i x front back
      have erased : (front ++ x :: back).erase x = front ++ back :=
        erase_of_split fun member => Nat.lt_irrefl _ (worse x member)
      rw [← erased, ← queueEq, nodup.mem_erase_iff]
      simp [isReady, eq_comm]
  | preempt queueEq worse noBetter isCurrent awake alive notAbove =>
      rename_i c x front back
      have erased : (front ++ x :: back).erase x = front ++ back :=
        erase_of_split fun member => Nat.lt_irrefl _ (worse x member)
      have differ : p ≠ c := fun same =>
        (loose c isCurrent awake).2.1 (same ▸ isReady)
      rw [← erased, ← queueEq, List.mem_append, nodup.mem_erase_iff]
      simp [isReady, differ, eq_comm]

theorem Aged.boosted_ready (aged : Aged ceiling count s)
    (small : ceiling + n < 2 ^ 32) (isReady : p ∈ s.readyqueue) :
    boosted s p = (s.procs p).prio + 1 := by
  rw [boosted, if_pos isReady]
  exact toUInt_of_lt (Nat.lt_of_le_of_lt (aged.lt isReady) small)

theorem Aged.boosted_away (aged : Aged ceiling count s)
    (away : p ∉ s.readyqueue) : boosted s p = (s.procs p).prioOrig := by
  rw [boosted, if_neg away, aged.rested away]

/-- What the scan leaves of the ready queue is sparse again. -/
theorem Aged.sparse_boosted (aged : Aged ceiling count s)
    (small : ceiling + n < 2 ^ 32) (nodup : s.readyqueue.Nodup)
    (loose : CurrentLoose s) {next : Option (Fin n)} {queue : List (Fin n)}
    (preferred : Preferred (boosted s) s next queue) :
    Sparse ceiling n (boosted s) queue := by
  have short : s.readyqueue.length ≤ n := by
    simpa using nodup.length_le_card
  have lowCurrent {c : Fin n} (isCurrent : s.current = some c)
      (awake : ¬ isBlocked s c) : boosted s c ≤ ceiling := by
    rw [aged.boosted_away (loose c isCurrent awake).2.1]
    exact aged.low c
  have chosenLeaves {x : Fin n} {front back : List (Fin n)}
      (queueEq : s.readyqueue = front ++ x :: back)
      (worse : ∀ p ∈ front, boosted s p < boosted s x)
      (noBetter : ∀ p ∈ back, boosted s p ≤ boosted s x) :
      Sparse ceiling n (boosted s) (front ++ back) := by
    apply aged.sparse.aged short queueEq
    · intro a isReady
      exact aged.boosted_ready small isReady
    · intro a isReady
      rw [queueEq] at isReady
      rcases List.mem_append.mp isReady with inFront | inBack
      · exact Nat.le_of_lt (worse a inFront)
      · rcases List.mem_cons.mp inBack with rfl | inBack
        · exact Nat.le_refl _
        · exact noBetter a inBack
  cases preferred with
  | keep isCurrent awake alive above =>
      apply sparse_of_low
      intro a isReady
      exact Nat.le_trans (Nat.le_of_lt (above a isReady))
        (lowCurrent isCurrent awake)
  | idle nobody done =>
      apply sparse_of_low
      simp [nobody]
  | pick queueEq worse noBetter done =>
      exact chosenLeaves queueEq worse noBetter
  | preempt queueEq worse noBetter isCurrent awake alive notAbove =>
      apply (chosenLeaves queueEq worse noBetter).append
      intro a isLast
      rw [List.mem_singleton.mp isLast]
      exact lowCurrent isCurrent awake

/-- One `schedule` call: those it passes over get older, and the one it takes
out of the ready queue starts over. -/
theorem Aged.scheduled (aged : Aged ceiling count s)
    (small : ceiling + n < 2 ^ 32) (nodup : s.readyqueue.Nodup)
    (loose : CurrentLoose s) {live : Prop} {next : Option (Fin n)}
    (scheduledEq : paSchedule s = .ok (next, s'))
    (choice : Chosen live s next s') :
    Aged ceiling
      (fun p => if p ∈ s.readyqueue ∧ p ∈ s'.readyqueue then count p + 1 else 0)
      s' := by
  obtain ⟨preferred, prio⟩ := paSchedule_preferred nodup loose scheduledEq
  have prioOrig (p : Fin n) :
      (s'.procs p).prioOrig = (s.procs p).prioOrig := by
    obtain ⟨k, eq⟩ := choice.procs p
    rw [eq]
  constructor
  · intro p
    rw [prio, prioOrig]
    by_cases isReady : p ∈ s.readyqueue
    · have stays := preferred.mem_iff nodup loose isReady
      by_cases isNext : next = some p
      · have left : p ∉ s'.readyqueue := fun member => stays.mp member isNext
        simp [isReady, isNext, left]
      · simp only [isReady, isNext, stays.mpr isNext, and_false, and_self,
          if_false, if_true]
        rw [aged.boosted_ready small isReady, aged.counted, Nat.add_assoc]
    · simp [isReady, aged.boosted_away isReady]
  · intro p away
    exact if_neg fun both => away both.2
  · intro p
    rw [prioOrig]
    exact aged.low p
  · apply (aged.sparse_boosted small nodup loose preferred).congr
    intro p stays
    rw [prio, if_neg]
    rintro ⟨isReady, isNext⟩
    exact (preferred.mem_iff nodup loose isReady).mp stays isNext

end Pass

/-! ### Whole runs -/

section Reached

variable {script : List ProcessBlock} {ceiling k : Nat}
  {s : Sim script.length}

theorem paScheduler_contract :
    Contract True (fun _ : Sim n => True) paScheduler :=
  Policy.contract (show Policy.pa ∈ statusAware by decide)

theorem passedOver_succ {sched : Scheduler script.length}
    {next : Option (Fin script.length)} {s' : Sim script.length}
    (reached : doSimulation script sched k = .ok (.again s))
    (scheduledEq : sched.schedule (forkOnSchedule s) = .ok (next, s'))
    (p : Fin script.length) :
    passedOver script sched p (k + 1) =
      if p ∈ (forkOnSchedule s).readyqueue ∧ p ∈ s'.readyqueue then
        passedOver script sched p k + 1
      else 0 := by
  simp only [passedOver, reached, scheduledEq]

theorem Aged.forked {count : Fin n → Nat} {s : Sim n}
    (aged : Aged ceiling count s) (sound : Sound s) :
    Aged ceiling count (forkOnSchedule s) := by
  have forked := sound.forked
  apply aged.extended (s.forkqueue.filter fun p => due s p)
  · intro p
    rw [forked.procs]
  · intro p
    rw [forked.procs]
  · exact forked.readyqueue
  · exact sound.linked_forked.nodup_readyqueue

theorem load_aged (bounded : ∀ block ∈ script, block.prio.toNat ≤ ceiling) :
    Aged ceiling (fun p => passedOver script paScheduler p 0)
      (load script) where
  counted := fun p => rfl
  outside := fun p _ => rfl
  low := fun p => bounded _ (List.get_mem script p)
  sparse := by
    apply sparse_of_low
    simp [load]

/-- The states at the top of the passes are aged by the numbers of calls. -/
theorem reached_aged (known : KnownScript script)
    (bounded : ∀ block ∈ script, block.prio.toNat ≤ ceiling)
    (small : ceiling + script.length < 2 ^ 32)
    (reached : doSimulation script paScheduler k = .ok (.again s)) :
    Aged ceiling (fun p => passedOver script paScheduler p k) s := by
  apply sound_invariant paScheduler_contract known
    (fun k s => Aged ceiling (fun p => passedOver script paScheduler p k) s)
    (load_aged bounded) _ reached
  intro k s mid s' reached sound aged dispatchedEq dispatched executedEq
  obtain ⟨next, chosen, scheduledEq, choice, linked, retired⟩ :=
    sound.dispatched_cases paScheduler_contract trivial dispatchedEq
  have agedChosen := (aged.forked sound).scheduled small
    sound.linked_forked.nodup_readyqueue sound.loose_forked scheduledEq choice
  have agedMid : Aged ceiling
      (fun p => passedOver script paScheduler p (k + 1)) mid := by
    simp only [passedOver_succ reached scheduledEq]
    apply agedChosen.extended []
    · intro p
      obtain ⟨status, eq⟩ := retired.procs p
      rw [eq]
    · intro p
      obtain ⟨status, eq⟩ := retired.procs p
      rw [eq]
    · rw [retired.readyqueue, List.append_nil]
    · exact dispatched.linked.nodup_readyqueue
  obtain ⟨woken, readyEq, _⟩ :=
    (dispatched.ticking paScheduler_contract executedEq).readyqueue
  apply agedMid.extended woken
  · exact dispatched.prio paScheduler_contract rfl rfl executedEq
  · exact (SameScript.executed paScheduler_contract dispatched
      executedEq).prioOrig
  · exact readyEq
  · exact (dispatched.sound paScheduler_contract
      executedEq).linked.nodup_readyqueue

/-- Nobody is passed over often, also not in the last pass of a run. -/
theorem passedOver_le (known : KnownScript script)
    (bounded : ∀ block ∈ script, block.prio.toNat ≤ ceiling)
    (small : ceiling + script.length < 2 ^ 32) (p : Fin script.length)
    (k : Nat) : passedOver script paScheduler p k ≤
      ceiling - priorityOf script p + script.length := by
  cases k with
  | zero => exact Nat.zero_le _
  | succ k =>
      unfold passedOver
      split
      · rename_i s reached
        split
        · split
          · rename_i both
            have aged := reached_aged known bounded small reached
            have sound := reached_sound paScheduler_contract known
              (fun _ _ _ _ => trivial) reached
            have below := (aged.forked sound).lt both.1
            have orig : (s.procs p).prioOrig = priorityOf script p :=
              (reached_sameScript paScheduler_contract known
                reached).prioOrig p
            have low := aged.low p
            rw [(aged.forked sound).counted, sound.forked.procs] at below
            omega
          · exact Nat.zero_le _
        · exact Nat.zero_le _
      · exact Nat.zero_le _

/-- Aging rules out starvation.  Between two ticks the current process and the
blocked ones have their original priority, every ready process has it raised by
the number of calls that passed it over since it joined the ready queue, and
nobody is passed over more often in a row than its distance to the highest
original priority plus the number of processes. -/
theorem aging_rules_out_starvation (script : List ProcessBlock)
    (known : KnownScript script) (ceiling : Nat)
    (bounded : ∀ block ∈ script, block.prio.toNat ≤ ceiling)
    (small : ceiling + script.length < 2 ^ 32) (k : Nat) :
    (∀ s, doSimulation script paScheduler k = .ok (.again s) →
      (∀ c, s.current = some c → (s.procs c).prio = (s.procs c).prioOrig) ∧
      (∀ p, isBlocked s p → (s.procs p).prio = (s.procs p).prioOrig) ∧
      ∀ p ∈ s.readyqueue,
        (s.procs p).prio =
            (s.procs p).prioOrig + passedOver script paScheduler p k ∧
          (s.procs p).prio ≤ ceiling + script.length) ∧
    ∀ p, passedOver script paScheduler p k ≤
      ceiling - priorityOf script p + script.length := by
  refine ⟨fun s reached => ?_, fun p =>
    passedOver_le known bounded small p k⟩
  have aged := reached_aged known bounded small reached
  have sound := reached_sound paScheduler_contract known
    (fun _ _ _ _ => trivial) reached
  have blockedAway (p : Fin script.length) (asleep : isBlocked s p) :
      p ∉ s.readyqueue := (sound.linked.blocked_place asleep).2.1
  refine ⟨fun c isCurrent => ?_, fun p asleep => ?_, fun p isReady => ?_⟩
  · by_cases asleep : isBlocked s c
    · exact aged.rested (blockedAway c asleep)
    · exact aged.rested (sound.linked.detached_of_run
        (runner_eq_some.mpr ⟨isCurrent, asleep⟩)).2.1
  · exact aged.rested (blockedAway p asleep)
  · exact ⟨aged.counted p, Nat.le_of_lt (aged.lt isReady)⟩

/-- A process of priority 0 beside two of priority 3 that share a resource. -/
def lowBesideHigh : List ProcessBlock :=
  [{ pid := 1, start := 0, lifespan := 2, prio := 0 },
   { pid := 2, start := 0, lifespan := 5, prio := 3
     acquires := [⟨1, 0, 3⟩] },
   { pid := 3, start := 0, lifespan := 5, prio := 3
     acquires := [⟨1, 1, 2⟩] }]

/-- After three passes the process of priority 0 is at priority 3. -/
theorem aging_rules_out_starvation_lowBesideHigh :
    ∃ s, doSimulation lowBesideHigh paScheduler 3 = .ok (.again s) ∧
      (∃ p ∈ s.readyqueue,
        (s.procs p).prioOrig = 0 ∧ (s.procs p).prio = 3) ∧
      (∀ p ∈ s.readyqueue,
        (s.procs p).prio =
            (s.procs p).prioOrig + passedOver lowBesideHigh paScheduler p 3 ∧
          (s.procs p).prio ≤ 3 + lowBesideHigh.length) ∧
      ∀ p, passedOver lowBesideHigh paScheduler p 3 ≤
        3 - priorityOf lowBesideHigh p + lowBesideHigh.length := by
  obtain ⟨s, reached, aged⟩ := exists_of_againWith
    (fun s : Sim lowBesideHigh.length => ∃ p ∈ s.readyqueue,
      (s.procs p).prioOrig = 0 ∧ (s.procs p).prio = 3)
    (doSimulation lowBesideHigh paScheduler 3) (by decide +kernel)
  obtain ⟨inEveryState, inARow⟩ := aging_rules_out_starvation lowBesideHigh
    (by decide) 3 (by decide) (by decide) 3
  exact ⟨s, reached, aged, (inEveryState s reached).2.2, inARow⟩

end Reached

end OsPAs.Sched
