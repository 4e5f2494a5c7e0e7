/-
Module: OsPAs.Sched.Preference
Purpose: Whom `prio_schedule` and `pa_schedule` prefer: the first process of
  highest priority, unless the current one is above everybody ready, and what
  they leave of the ready queue.
Trusted boundary: none
Main exports: Preferred, prioSchedule_preferred, boosted, paSchedule_preferred,
  Dispatched.prio
-/
import OsPAs.Sched.Priorities

namespace OsPAs.Sched

open Lib

variable {n : Nat}

/-! ### The outcome -/

/-- Outcome of the two policies, as far as the ready queue goes, when the
priorities compared are `prio`. -/
inductive Preferred (prio : Fin n → Nat) (s : Sim n) :
    Option (Fin n) → List (Fin n) → Prop where
  | keep {c : Fin n} (isCurrent : s.current = some c)
      (awake : ¬ isBlocked s c) (alive : unfinished s c)
      (above : ∀ p ∈ s.readyqueue, prio p < prio c) :
      Preferred prio s (some c) s.readyqueue
  | idle (nobody : s.readyqueue = []) (done : CurrentDone s) :
      Preferred prio s none s.readyqueue
  | pick {next : Fin n} {front back : List (Fin n)}
      (queueEq : s.readyqueue = front ++ next :: back)
      (worse : ∀ p ∈ front, prio p < prio next)
      (noBetter : ∀ p ∈ back, prio p ≤ prio next) (done : CurrentDone s) :
      Preferred prio s (some next) (front ++ back)
  | preempt {c next : Fin n} {front back : List (Fin n)}
      (queueEq : s.readyqueue = front ++ next :: back)
      (worse : ∀ p ∈ front, prio p < prio next)
      (noBetter : ∀ p ∈ back, prio p ≤ prio next)
      (isCurrent : s.current = some c) (awake : ¬ isBlocked s c)
      (alive : unfinished s c) (notAbove : prio c ≤ prio next) :
      Preferred prio s (some next) (front ++ back ++ [c])

theorem higherPrio_asymm (s : Sim n) (p q : Fin n) (above : higherPrio s p q) :
    ¬ higherPrio s q p :=
  Nat.lt_asymm above

theorem higherPrio_negTrans (s : Sim n) (p q r : Fin n)
    (first : ¬ higherPrio s p q) (second : ¬ higherPrio s q r) :
    ¬ higherPrio s p r :=
  Nat.not_lt.mpr (Nat.le_trans (Nat.not_lt.mp first) (Nat.not_lt.mp second))

/-- The closing scan over the ready queue, split where it found the next
process. -/
theorem highestPrio_split (s : Sim n) (first : Fin n) (rest : List (Fin n)) :
    ∃ front back,
      first :: rest = front ++ highestPrio s first (first :: rest) :: back ∧
      (∀ p ∈ front, (s.procs p).prio <
        (s.procs (highestPrio s first (first :: rest))).prio) ∧
      ∀ p ∈ back, (s.procs p).prio ≤
        (s.procs (highestPrio s first (first :: rest))).prio := by
  obtain ⟨front, back, split, worse, noBetter⟩ := scan_split (higherPrio s)
    (higherPrio_asymm s) (higherPrio_negTrans s) first rest
  exact ⟨front, back, split, worse,
    fun p member => Nat.not_lt.mp (noBetter p member)⟩

/-- A process above the best one of the ready queue is above everybody. -/
theorem above_of_split {prio : Fin n → Nat} {queue front back : List (Fin n)}
    {c next : Fin n} (queueEq : queue = front ++ next :: back)
    (worse : ∀ p ∈ front, prio p < prio next)
    (noBetter : ∀ p ∈ back, prio p ≤ prio next) (higher : prio next < prio c) :
    ∀ p ∈ queue, prio p < prio c := by
  intro p member
  rw [queueEq] at member
  rcases List.mem_append.mp member with inFront | inBack
  · exact Nat.lt_trans (worse p inFront) higher
  · rcases List.mem_cons.mp inBack with rfl | inBack
    · exact higher
    · exact Nat.lt_of_le_of_lt (noBetter p inBack) higher

theorem Preferred.of_withPrio {prio assigned : Fin n → Nat} {s : Sim n}
    {chosen : Option (Fin n)} {queue : List (Fin n)}
    (preferred : Preferred prio (s.withPrio assigned) chosen queue) :
    Preferred prio s chosen queue := by
  cases preferred with
  | keep isCurrent awake alive above =>
      exact .keep isCurrent awake alive above
  | idle nobody done => exact .idle nobody done
  | pick queueEq worse noBetter done =>
      exact .pick queueEq worse noBetter done
  | preempt queueEq worse noBetter isCurrent awake alive notAbove =>
      exact .preempt queueEq worse noBetter isCurrent awake alive notAbove

/-- Nobody ready is above the process chosen, which is one of them, or the
current process and above them all. -/
theorem Preferred.le_chosen {prio : Fin n → Nat} {s : Sim n}
    {chosen : Option (Fin n)} {queue : List (Fin n)} {p : Fin n}
    (preferred : Preferred prio s chosen queue) (isReady : p ∈ s.readyqueue) :
    ∃ next, chosen = some next ∧ prio p ≤ prio next ∧
      (next ∈ s.readyqueue ∨ s.current = some next ∧ ¬ isBlocked s next ∧
        prio p < prio next) := by
  have fromSplit {next : Fin n} {front back : List (Fin n)}
      (queueEq : s.readyqueue = front ++ next :: back)
      (worse : ∀ p ∈ front, prio p < prio next)
      (noBetter : ∀ p ∈ back, prio p ≤ prio next) :
      prio p ≤ prio next ∧ next ∈ s.readyqueue := by
    rw [queueEq] at isReady ⊢
    refine ⟨?_, List.mem_append_right front List.mem_cons_self⟩
    rcases List.mem_append.mp isReady with inFront | inBack
    · exact Nat.le_of_lt (worse p inFront)
    · rcases List.mem_cons.mp inBack with rfl | inBack
      · exact Nat.le_refl _
      · exact noBetter p inBack
  cases preferred with
  | @keep c isCurrent awake _ above =>
      have higher := above p isReady
      exact ⟨c, rfl, Nat.le_of_lt higher, .inr ⟨isCurrent, awake, higher⟩⟩
  | idle nobody _ =>
      rw [nobody] at isReady
      simp at isReady
  | @pick next _ _ queueEq worse noBetter _ =>
      obtain ⟨bound, member⟩ := fromSplit queueEq worse noBetter
      exact ⟨next, rfl, bound, .inl member⟩
  | @preempt _ next _ _ queueEq worse noBetter _ _ _ _ =>
      obtain ⟨bound, member⟩ := fromSplit queueEq worse noBetter
      exact ⟨next, rfl, bound, .inl member⟩

/-! ### The closing test -/

/-- The state from which `next` is taken out of the ready queue. -/
inductive Yields (s : Sim n) (next : Fin n) : Sim n → Prop where
  | done (done : CurrentDone s) : Yields s next s
  | requeued {c : Fin n} (isCurrent : s.current = some c)
      (awake : ¬ isBlocked s c) (alive : unfinished s c)
      (notAbove : (s.procs c).prio ≤ (s.procs next).prio) :
      Yields s next { s with readyqueue := s.readyqueue ++ [c] }

theorem currentDone_of_current {s : Sim n} {c : Fin n}
    (isCurrent : s.current = some c)
    (why : isBlocked s c ∨ ¬ unfinished s c) : CurrentDone s := by
  intro other isOther
  obtain rfl : c = other := by simpa [isCurrent] using isOther
  exact why

theorem currentDone_of_none {s : Sim n} (nobody : s.current = none) :
    CurrentDone s :=
  fun c isCurrent => by simp [nobody] at isCurrent

theorem eq_of_requeueUnfinished {s s' : Sim n} {c : Fin n}
    (isCurrent : s.current = some c) (alive : unfinished s c)
    (requeuedEq : requeueUnfinished s = .ok s') :
    s' = { s with readyqueue := s.readyqueue ++ [c] } := by
  unfold requeueUnfinished at requeuedEq
  split at requeuedEq
  · simp_all
  · rename_i other isOther
    obtain rfl : c = other := by simpa [isCurrent] using isOther
    rw [if_pos alive, Sim.addTailReady] at requeuedEq
    split at requeuedEq
    · exact (Except.ok.inj requeuedEq).symm
    · simp at requeuedEq

theorem switchTo_cases {onSwitch : Fin n → Sim n → Sim n} {next : Fin n}
    {chosen : Option (Fin n)} {s s' : Sim n}
    (switched : switchTo onSwitch next s = .ok (chosen, s')) :
    (∃ c, chosen = some c ∧ s.current = some c ∧ ¬ isBlocked s c ∧
      unfinished s c ∧ higherPrio s c next ∧ s' = s) ∨
    ∃ t, chosen = some next ∧ Yields s next t ∧
      s' = (onSwitch next t).delInitReady next := by
  unfold switchTo at switched
  split at switched
  · rename_i nobody
    obtain ⟨rfl, rfl⟩ := Prod.mk.inj (Except.ok.inj switched)
    exact Or.inr ⟨s, rfl, .done (currentDone_of_none nobody), rfl⟩
  · rename_i c isCurrent
    split at switched
    · rename_i asleep
      obtain ⟨rfl, rfl⟩ := Prod.mk.inj (Except.ok.inj switched)
      exact Or.inr ⟨s, rfl,
        .done (currentDone_of_current isCurrent (Or.inl asleep)), rfl⟩
    · rename_i awake
      split at switched
      · rename_i above
        obtain ⟨rfl, rfl⟩ := Prod.mk.inj (Except.ok.inj switched)
        exact Or.inl ⟨c, rfl, isCurrent, awake, above.2, above.1, rfl⟩
      · rename_i notAbove
        by_cases alive : unfinished s c
        · have notHigher : ¬ higherPrio s c next :=
            fun higher => notAbove ⟨higher, alive⟩
          have le : (s.procs c).prio ≤ (s.procs next).prio :=
            Nat.not_lt.mp notHigher
          rw [if_pos (Nat.eq_or_lt_of_le le)] at switched
          simp only [bind, Except.bind] at switched
          split at switched
          · simp at switched
          · rename_i requeuedEq
            obtain rfl := eq_of_requeueUnfinished isCurrent alive requeuedEq
            obtain ⟨rfl, rfl⟩ := Prod.mk.inj (Except.ok.inj switched)
            exact Or.inr ⟨_, rfl, .requeued isCurrent awake alive le, rfl⟩
        · have done := currentDone_of_current isCurrent (Or.inr alive)
          rw [requeueUnfinished_of_finished isCurrent alive] at switched
          simp only [bind, Except.bind, pure, Except.pure, ite_self]
            at switched
          obtain ⟨rfl, rfl⟩ := Prod.mk.inj (Except.ok.inj switched)
          exact Or.inr ⟨s, rfl, .done done, rfl⟩

theorem erase_of_split {front back : List (Fin n)} {next : Fin n}
    (new : next ∉ front) :
    (front ++ next :: back).erase next = front ++ back := by
  rw [List.erase_append_right _ new, List.erase_cons_head]

theorem Yields.procs {s t : Sim n} {next : Fin n} (yields : Yields s next t) :
    t.procs = s.procs := by
  cases yields with
  | done => rfl
  | requeued => rfl

/-- Taking the best process of the ready queue out of it. -/
theorem Yields.preferred {s t : Sim n} {next : Fin n}
    {front back : List (Fin n)} (yields : Yields s next t)
    (queueEq : s.readyqueue = front ++ next :: back)
    (worse : ∀ p ∈ front, (s.procs p).prio < (s.procs next).prio)
    (noBetter : ∀ p ∈ back, (s.procs p).prio ≤ (s.procs next).prio) :
    Preferred (fun p => (s.procs p).prio) s (some next)
      (t.readyqueue.erase next) := by
  have new : next ∉ front := fun member =>
    Nat.lt_irrefl _ (worse next member)
  cases yields with
  | done done =>
      rw [queueEq, erase_of_split new]
      exact .pick queueEq worse noBetter done
  | requeued isCurrent awake alive notAbove =>
      have isMember : next ∈ front ++ next :: back := by simp
      rw [queueEq, List.erase_append_left _ isMember, erase_of_split new]
      exact .preempt queueEq worse noBetter isCurrent awake alive notAbove

/-! ### `prio_schedule` -/

theorem prioSchedule_preferred {chosen : Option (Fin n)} {s s' : Sim n}
    (scheduled : prioSchedule s = .ok (chosen, s')) :
    Preferred (fun p => (s.procs p).prio) s chosen s'.readyqueue := by
  rcases keepAlone_cases scheduled with
    ⟨c, rfl, isCurrent, awake, alive, nobody, rfl⟩ | ⟨duty, picked⟩
  · exact .keep isCurrent awake alive (by simp [nobody])
  · cases queueEq : s.readyqueue with
    | nil =>
        simp only [queueEq] at picked
        obtain ⟨rfl, rfl⟩ := Prod.mk.inj (Except.ok.inj picked)
        exact .idle queueEq (duty.done queueEq)
    | cons first rest =>
        simp only [queueEq] at picked
        obtain ⟨front, back, split, worse, noBetter⟩ :=
          highestPrio_split s first rest
        have found := queueEq.trans split
        rcases switchTo_cases picked with
          ⟨c, rfl, isCurrent, awake, alive, higher, rfl⟩ |
          ⟨t, rfl, yields, rfl⟩
        · exact .keep isCurrent awake alive
            (above_of_split found worse noBetter higher)
        · exact yields.preferred found worse noBetter

/-! ### `pa_schedule` -/

/-- The priorities after the scan of `pa_schedule`. -/
def boosted (s : Sim n) (p : Fin n) : Nat :=
  if p ∈ s.readyqueue then toUInt ((s.procs p).prio + 1) else (s.procs p).prio

/-- The scan of `pa_schedule` boosts the queue and then finds its best
process. -/
theorem foldl_boost (s : Sim n) (best : Fin n) (queue : List (Fin n))
    (nodup : queue.Nodup) (new : best ∉ queue.tail) :
    let t := s.withPrio fun p =>
      if p ∈ queue then toUInt ((s.procs p).prio + 1) else (s.procs p).prio
    boostScan s best queue = (t, scan (higherPrio t) best queue) := by
  induction queue generalizing s best with
  | nil =>
      simp only [List.not_mem_nil, if_false, Sim.withPrio_self]
      rfl
  | cons pos queue inductionHypothesis =>
      obtain ⟨posNew, nodup⟩ := List.nodup_cons.mp nodup
      change best ∉ queue at new
      set step := s.setPrio pos (toUInt ((s.procs pos).prio + 1)) with stepEq
      have stepPrio (p : Fin n) : (step.procs p).prio =
          if p = pos then toUInt ((s.procs p).prio + 1)
          else (s.procs p).prio := by
        rw [stepEq, Sim.setPrio, Sim.modify_procs]
        split
        · rename_i same
          rw [same]
        · rfl
      have winnerNew : (if higherPrio step pos best then pos else best)
          ∉ queue := by
        split
        · exact posNew
        · exact new
      have folded := inductionHypothesis step
        (if higherPrio step pos best then pos else best) nodup
        fun member => winnerNew (List.mem_of_mem_tail member)
      have unfolded : boostScan s best (pos :: queue) = boostScan step
          (if higherPrio step pos best then pos else best) queue := rfl
      have same : (step.withPrio fun p =>
            if p ∈ queue then toUInt ((step.procs p).prio + 1)
            else (step.procs p).prio) =
          s.withPrio fun p => if p ∈ pos :: queue then
            toUInt ((s.procs p).prio + 1) else (s.procs p).prio := by
        rw [stepEq, Sim.setPrio_eq_withPrio]
        change s.withPrio _ = s.withPrio _
        congr 1
        funext p
        have prioEq := stepPrio p
        rw [stepEq, Sim.setPrio_eq_withPrio] at prioEq
        rw [prioEq]
        by_cases isPos : p = pos
        · subst isPos
          simp [posNew]
        · simp [isPos]
      rw [same] at folded
      rw [unfolded, folded]
      -- the two processes compared are not boosted again
      have compared : higherPrio step pos best ↔ higherPrio (s.withPrio fun p =>
          if p ∈ pos :: queue then toUInt ((s.procs p).prio + 1)
          else (s.procs p).prio) pos best := by
        unfold higherPrio
        rw [stepPrio, stepPrio, Sim.withPrio_procs, Sim.withPrio_procs]
        simp [new]
      apply Prod.ext
      · rfl
      · rw [scan_cons]
        simp only [compared]

theorem boostScan_readyqueue {s : Sim n} {first : Fin n} {rest : List (Fin n)}
    (queueEq : s.readyqueue = first :: rest) (nodup : s.readyqueue.Nodup) :
    boostScan s first (first :: rest) = (s.withPrio (boosted s),
      highestPrio (s.withPrio (boosted s)) first (first :: rest)) := by
  rw [queueEq] at nodup
  have folded := foldl_boost s first (first :: rest) nodup
    (List.nodup_cons.mp nodup).1
  unfold boosted
  rw [queueEq]
  exact folded

/-- `pa_schedule` prefers by the boosted priorities, and the process that it
takes out of the ready queue gets back its original one. -/
theorem paSchedule_preferred {chosen : Option (Fin n)} {s s' : Sim n}
    (nodup : s.readyqueue.Nodup) (loose : CurrentLoose s)
    (scheduled : paSchedule s = .ok (chosen, s')) :
    Preferred (boosted s) s chosen s'.readyqueue ∧
      ∀ p, (s'.procs p).prio = if p ∈ s.readyqueue ∧ chosen = some p then
        (s.procs p).prioOrig else boosted s p := by
  have outside {c : Fin n} (isCurrent : s.current = some c)
      (awake : ¬ isBlocked s c) (p : Fin n) :
      ¬ (p ∈ s.readyqueue ∧ some c = some p) := by
    rintro ⟨member, same⟩
    obtain rfl := Option.some.inj same
    exact (loose c isCurrent awake).2.1 member
  rcases keepAlone_cases scheduled with
    ⟨c, rfl, isCurrent, awake, alive, nobody, rfl⟩ | ⟨duty, picked⟩
  · refine ⟨.keep isCurrent awake alive (by simp [nobody]), fun p => ?_⟩
    rw [if_neg (outside isCurrent awake p), boosted, nobody]
    simp
  · cases queueEq : s.readyqueue with
    | nil =>
        simp only [queueEq] at picked
        obtain ⟨rfl, rfl⟩ := Prod.mk.inj (Except.ok.inj picked)
        exact ⟨.idle queueEq (duty.done queueEq), fun p => by simp [boosted, queueEq]⟩
    | cons first rest =>
        simp only [queueEq, boostScan_readyqueue queueEq nodup] at picked
        obtain ⟨front, back, split, worse, noBetter⟩ :=
          highestPrio_split (s.withPrio (boosted s)) first rest
        set t := s.withPrio (boosted s) with tEq
        have found : t.readyqueue = _ := queueEq.trans split
        rw [← queueEq]
        rcases switchTo_cases picked with
          ⟨c, rfl, isCurrent, awake, alive, higher, rfl⟩ |
          ⟨u, rfl, yields, rfl⟩
        · refine ⟨.keep isCurrent awake alive ?_, fun p => ?_⟩
          · exact above_of_split found worse noBetter higher
          · rw [if_neg (outside isCurrent awake p)]
            rfl
        · refine ⟨(yields.preferred found worse noBetter).of_withPrio,
            fun p => ?_⟩
          have isReady : highestPrio t first (first :: rest) ∈ s.readyqueue := by
            change _ ∈ t.readyqueue
            rw [found]
            exact List.mem_append_right front List.mem_cons_self
          change ((restorePrio _ u).procs p).prio = _
          rw [restorePrio_prio, yields.procs]
          by_cases same : p = highestPrio t first (first :: rest)
          · rw [if_pos same, if_pos ⟨same ▸ isReady, congrArg some same.symm⟩,
              same]
            rfl
          · rw [if_neg same, if_neg fun both =>
              same (Option.some.inj both.2).symm]
            rfl

/-! ### A tick under callbacks without priority bookkeeping -/

section Tick

variable {sched : Scheduler n} {s s' : Sim n} {c : Fin n}

theorem prioAcquire_prio {resourceId : Nat} {granted : Bool}
    (acquired : prioAcquire c resourceId s = .ok (granted, s')) (p : Fin n) :
    (s'.procs p).prio = (s.procs p).prio := by
  cases granted with
  | true =>
      obtain ⟨r, _, rfl⟩ := acquireWith_granted acquired
      rfl
  | false =>
      obtain ⟨_, _, _, _, prio⟩ := acquireWith_refused acquired
      exact prio p

theorem prio_carries {choose : Sim n → Fin n → List (Fin n) → Fin n}
    (acquires : sched.acquire = prioAcquire)
    (releases : sched.release = releaseWith (fun _ s => s) choose) (s : Sim n)
    (c : Fin n) :
    Carries sched False s c
      (fun _ _ t => ∀ p, (t.procs p).prio = (s.procs p).prio)
      (fun _ t => ∀ p, (t.procs p).prio = (s.procs p).prio)
      (fun _ _ t => ∀ p, (t.procs p).prio = (s.procs p).prio) where
  start := (Steady.setStatus s c .running).prio
  skip := fun _ _ _ _ _ same _ => same
  grant := fun _ rs _ t _ t' _ same _ _ acquired _ p => by
    rw [acquires] at acquired
    exact ((Steady.hold t' c rs).prio p).trans
      ((prioAcquire_prio acquired p).trans (same p))
  refuse := fun _ _ _ t _ t' _ same _ _ acquired _ p => by
    rw [acquires] at acquired
    exact (prioAcquire_prio acquired p).trans (same p)
  turn := fun stay t _ same _ p =>
    ((Steady.growOlder _ c).prio p).trans
      (((Steady.setToAcquire t c stay).prio p).trans (same p))
  owns := fun _ _ _ _ _ _ _ => False.elim
  keep := fun _ _ _ _ _ same _ => same
  drop := fun _ _ _ _ _ _ _ same _ released _ p => by
    rw [releases] at released
    exact (releaseWith_prio released p).trans (same p)

/-- The second half of a pass changes no priority. -/
theorem Dispatched.prio {live : Prop} {guard : Sim n → Prop}
    {choose : Sim n → Fin n → List (Fin n) → Fin n}
    (contract : Contract live guard sched)
    (acquires : sched.acquire = prioAcquire)
    (releases : sched.release = releaseWith (fun _ s => s) choose)
    (dispatched : Dispatched s)
    (executedEq : OsPAs.Sched.execute sched s = .ok s') (p : Fin n) :
    (s'.procs p).prio = (s.procs p).prio := by
  cases isCurrent : s.current with
  | none =>
      obtain rfl := Except.ok.inj
        ((execute_of_idle sched isCurrent).symm.trans executedEq)
      rfl
  | some c =>
      obtain ⟨stay, t, ⟨rfl, _, same⟩ | ⟨rfl, _, same⟩⟩ :=
        (prio_carries acquires releases s c).executed contract dispatched
          isCurrent executedEq
      · exact ((Steady.setToAcquire t c stay).prio p).trans (same p)
      · exact ((Steady.setHolding t c stay).prio p).trans (same p)

end Tick

end OsPAs.Sched
