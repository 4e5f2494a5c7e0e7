/-
Module: OsPAs.Sched.Isolation
Purpose: Under the priority scheduler the processes of high priority do not
  notice the others: they run at the ticks at which they would run if the script
  had no blocks of lower priority.
Trusted boundary: none
Main exports: withoutBelow, placeIn, PartOf, Preferred.outcome,
  Shadows, Shadows.pass, lower_priorities_do_not_interfere
-/
import OsPAs.Sched.RoundRobin
import OsPAs.Sched.StrictPriority

namespace OsPAs.Sched

open Lib

/-! ### The choice -/

section Choice

variable {n : Nat} {prio : Fin n → Nat} {s : Sim n} {next : Option (Fin n)}
  {queue : List (Fin n)}

/-- What becomes of the ready queue: an unfinished current process that is above
everybody ready goes on, otherwise the first of the best is chosen and the
current process goes to the end. -/
theorem Preferred.outcome (preferred : Preferred prio s next queue)
    (awake : Awake s) :
    (s.readyqueue = [] ∧ next = (alive s).head? ∧ queue = []) ∨
      ∃ front best back, FirstBest prio s.readyqueue front best back ∧
        ((∃ c, alive s = [c] ∧ prio best < prio c ∧ next = some c ∧
            queue = s.readyqueue) ∨
          (∀ c ∈ alive s, prio c ≤ prio best) ∧ next = some best ∧
            queue = front ++ back ++ alive s) := by
  have done (finished : CurrentDone s) : alive s = [] := by
    cases isCurrent : s.current with
    | none => simp [alive, isCurrent]
    | some c =>
        rw [alive_of_current isCurrent, if_neg]
        exact (finished c isCurrent).resolve_left (awake c)
  cases preferred with
  | @keep c isCurrent _ unfin above =>
      have isAlive : alive s = [c] := by
        rw [alive_of_current isCurrent, if_pos unfin]
      by_cases nobody : s.readyqueue = []
      · exact Or.inl ⟨nobody, by rw [isAlive]; rfl, nobody⟩
      · obtain ⟨front, best, back, first⟩ := exists_firstBest prio nobody
        refine Or.inr ⟨front, best, back, first, Or.inl ⟨c, isAlive, ?_, rfl, rfl⟩⟩
        exact above best (by rw [first.queueEq]; simp)
  | idle nobody finished =>
      exact Or.inl ⟨nobody, by rw [done finished]; rfl, nobody⟩
  | @pick best front back queueEq worse noBetter finished =>
      refine Or.inr ⟨front, best, back, ⟨queueEq, worse, noBetter⟩, Or.inr ?_⟩
      rw [done finished, List.append_nil]
      exact ⟨fun c member => absurd member List.not_mem_nil, rfl, rfl⟩
  | @preempt c best front back queueEq worse noBetter isCurrent _ unfin notAbove =>
      refine Or.inr ⟨front, best, back, ⟨queueEq, worse, noBetter⟩, Or.inr ?_⟩
      rw [alive_of_current isCurrent, if_pos unfin]
      exact ⟨by simpa using notAbove, rfl, rfl⟩

end Choice

/-! ### Parts of a queue -/

section Parts

variable {n m : Nat} {prio : Fin n → Nat} {bar : Nat} {place : Fin m → Fin n}

/-- The second queue holds, under other numbers, those of the first that are at
or above the bar, in their order. -/
def PartOf (prio : Fin n → Nat) (bar : Nat) (place : Fin m → Fin n)
    (queue : List (Fin n)) (few : List (Fin m)) : Prop :=
  few.map place = queue.filter fun p => bar ≤ prio p

theorem PartOf.append {queue queue' : List (Fin n)} {few few' : List (Fin m)}
    (first : PartOf prio bar place queue few)
    (second : PartOf prio bar place queue' few') :
    PartOf prio bar place (queue ++ queue') (few ++ few') := by
  unfold PartOf at *
  rw [List.map_append, List.filter_append, first, second]

theorem PartOf.filter {queue : List (Fin n)} {few : List (Fin m)}
    (part : PartOf prio bar place queue few) {keep : Fin n → Bool}
    {keepFew : Fin m → Bool} (same : ∀ i, keepFew i = keep (place i)) :
    PartOf prio bar place (queue.filter keep) (few.filter keepFew) := by
  unfold PartOf at *
  rw [List.filter_filter, funext same, ← Function.comp_def keep place,
    ← List.filter_map, part, List.filter_filter]
  congr 1
  funext p
  exact Bool.and_comm _ _

/-- Nobody is below the bar who has a number among the few. -/
theorem PartOf.bar_le {queue : List (Fin n)} {few : List (Fin m)}
    (part : PartOf prio bar place queue few) {i : Fin m} (member : i ∈ few) :
    place i ∈ queue ∧ bar ≤ prio (place i) := by
  have isHigh := List.mem_map_of_mem (f := place) member
  rw [part, List.mem_filter] at isHigh
  exact ⟨isHigh.1, by simpa using isHigh.2⟩

theorem PartOf.eq_nil {queue : List (Fin n)} {few : List (Fin m)}
    (part : PartOf prio bar place queue few) (low : ∀ p ∈ queue, prio p < bar) :
    few = [] := by
  refine List.eq_nil_iff_forall_not_mem.mpr fun i member => ?_
  obtain ⟨inQueue, above⟩ := part.bar_le member
  have below := low _ inQueue
  omega

theorem partOf_nil {queue : List (Fin n)} (low : ∀ p ∈ queue, prio p < bar) :
    PartOf prio bar place queue [] := by
  refine (List.filter_eq_nil_iff.mpr fun p member => ?_).symm
  have below := low p member
  simp only [decide_eq_true_eq]
  omega

/-- At most one process is going on. -/
theorem alive_cases (s : Sim n) : alive s = [] ∨ ∃ c, alive s = [c] := by
  unfold alive
  cases s.current.filter fun c => unfinished s c with
  | none => exact Or.inl rfl
  | some c => exact Or.inr ⟨c, rfl⟩

/-- The one that is going on is at or above the bar, and goes on among the few
as well, or nobody does there. -/
theorem PartOf.alive_cases {S : Sim n} {T : Sim m} {c : Fin n}
    (running : PartOf prio bar place (alive S) (alive T))
    (isAlive : alive S = [c]) :
    (∃ i, place i = c ∧ alive T = [i]) ∨ prio c < bar ∧ alive T = [] := by
  rw [isAlive] at running
  by_cases above : bar ≤ prio c
  · unfold PartOf at running
    rw [List.filter_cons_of_pos (by simpa using above), List.filter_nil] at running
    obtain ⟨i, rest, eq, isC, nothing⟩ := List.map_eq_cons_iff.mp running
    exact Or.inl ⟨i, isC, by rw [eq, List.map_eq_nil_iff.mp nothing]⟩
  · exact Or.inr ⟨Nat.not_le.mp above,
      running.eq_nil (by simpa using Nat.not_le.mp above)⟩

/-- The same process is chosen, or one below the bar and nobody. -/
def SameChoice (prio : Fin n → Nat) (bar : Nat) (place : Fin m → Fin n) :
    Option (Fin n) → Option (Fin m) → Prop
  | next, some i => next = some (place i)
  | next, none => ∀ p, next = some p → prio p < bar

theorem SameChoice.iff {next : Option (Fin n)} {next' : Option (Fin m)}
    (same : SameChoice prio bar place next next')
    (injective : Function.Injective place) (high : ∀ i, bar ≤ prio (place i))
    (i : Fin m) : next = some (place i) ↔ next' = some i := by
  cases next' with
  | some j =>
      obtain rfl : next = some (place j) := same
      rw [Option.some_inj, Option.some_inj, injective.eq_iff]
  | none =>
      refine ⟨fun isPlace => ?_, fun absurd => by simp at absurd⟩
      have low := same _ isPlace
      have above := high i
      omega

/-- The choices made from a queue and from a part of it. -/
theorem PartOf.chosen {S : Sim n} {T : Sim m} {next : Option (Fin n)}
    {next' : Option (Fin m)} {queue : List (Fin n)} {queue' : List (Fin m)}
    (ready : PartOf prio bar place S.readyqueue T.readyqueue)
    (running : PartOf prio bar place (alive S) (alive T))
    (awake : Awake S) (awake' : Awake T)
    (chosen : Preferred prio S next queue)
    (chosen' : Preferred (fun i => prio (place i)) T next' queue') :
    SameChoice prio bar place next next' ∧
      PartOf prio bar place queue queue' := by
  rcases chosen.outcome awake with
    ⟨nobody, rfl, rfl⟩ | ⟨front, best, back, first, outcome⟩
  · have nobody' : T.readyqueue = [] := ready.eq_nil (by simp [nobody])
    rcases chosen'.outcome awake' with ⟨_, rfl, rfl⟩ | ⟨_, _, _, first', _⟩
    · refine ⟨?_, partOf_nil (by simp)⟩
      rcases OsPAs.Sched.alive_cases S with none | ⟨c, isAlive⟩
      · rw [none, running.eq_nil (by simp [none])]
        intro p absurd
        simp at absurd
      · rcases running.alive_cases isAlive with ⟨i, isC, isAlive'⟩ | ⟨low, none⟩
        · rw [isAlive, isAlive', ← isC]
          rfl
        · rw [isAlive, none]
          rintro p same
          exact Option.some.inj same ▸ low
    · exact absurd first'.queueEq (by simp [nobody'])
  rcases first.restrict ready with
    ⟨nobody', low⟩ | ⟨fewFront, fewBest, fewBack, rfl, firstFew, frontEq, backEq⟩
  · -- everybody ready is below the bar
    have allLow (p : Fin n) (member : p ∈ S.readyqueue) : prio p < bar :=
      Nat.lt_of_le_of_lt (first.le member) low
    rcases chosen'.outcome awake' with ⟨_, rfl, rfl⟩ | ⟨_, _, _, first', _⟩
    · rcases outcome with ⟨c, isAlive, above, rfl, rfl⟩ | ⟨notAbove, rfl, rfl⟩
      · refine ⟨?_, partOf_nil allLow⟩
        rcases running.alive_cases isAlive with ⟨i, isC, isAlive'⟩ | ⟨low, none⟩
        · rw [isAlive', ← isC]
          rfl
        · rw [none]
          rintro p same
          exact Option.some.inj same ▸ low
      · have below (c : Fin n) (isAlive : c ∈ alive S) : prio c < bar :=
          Nat.lt_of_le_of_lt (notAbove c isAlive) low
        refine ⟨?_, partOf_nil fun p member => ?_⟩
        · rw [running.eq_nil below]
          rintro p same
          exact Option.some.inj same ▸ low
        · rw [List.mem_append] at member
          rcases member with rest | isAlive
          · refine allLow p ?_
            rw [first.queueEq]
            simp only [List.mem_append, List.mem_cons] at rest ⊢
            tauto
          · exact below p isAlive
    · exact absurd first'.queueEq (by simp [nobody'])
  · rcases chosen'.outcome awake' with
      ⟨nobody', _, _⟩ | ⟨front', best', back', first', outcome'⟩
    · exact absurd firstFew.queueEq (by simp [nobody'])
    obtain ⟨rfl, rfl, rfl⟩ := firstFew.unique first'
    rcases outcome with ⟨c, isAlive, above, rfl, rfl⟩ | ⟨notAbove, rfl, rfl⟩
    · rcases outcome' with ⟨i, isAlive', _, rfl, rfl⟩ | ⟨notAbove', _, _⟩
      · rcases running.alive_cases isAlive with ⟨j, rfl, isOnly⟩ | ⟨_, none⟩
        · obtain rfl : j = i := by simpa [isOnly] using isAlive'
          exact ⟨rfl, ready⟩
        · simp [none] at isAlive'
      · exfalso
        rcases running.alive_cases isAlive with ⟨j, rfl, isOnly⟩ | ⟨low, _⟩
        · have below := notAbove' j (by simp [isOnly])
          omega
        · have isReady : fewBest ∈ T.readyqueue := by
            rw [firstFew.queueEq]
            simp
          have high := (ready.bar_le isReady).2
          omega
    · rcases outcome' with ⟨i, isAlive', above', _, _⟩ | ⟨_, rfl, rfl⟩
      · exfalso
        have isGoing := (running.bar_le (i := i) (by simp [isAlive'])).1
        have below := notAbove _ isGoing
        omega
      · refine ⟨rfl, (PartOf.append ?_ ?_).append running⟩
        · exact frontEq
        · exact backEq

end Parts

/-! ### Scripts without the less important processes -/

/-- The script without the blocks of priority below `bar`. -/
def withoutBelow (script : List ProcessBlock) (bar : Nat) : List ProcessBlock :=
  script.filter fun block => bar ≤ block.prio.toNat

/-- The processes of priority at least `bar`. -/
def atLeast (script : List ProcessBlock) (bar : Nat) :
    List (Fin script.length) :=
  (List.finRange script.length).filter fun p => bar ≤ priorityOf script p

theorem withoutBelow_eq (script : List ProcessBlock) (bar : Nat) :
    withoutBelow script bar = (atLeast script bar).map script.get := by
  conv_lhs => rw [withoutBelow, ← List.map_get_finRange script]
  rw [List.filter_map]
  rfl

theorem length_withoutBelow (script : List ProcessBlock) (bar : Nat) :
    (withoutBelow script bar).length = (atLeast script bar).length := by
  rw [withoutBelow_eq, List.length_map]

/-- The number that a process left in has in the whole script. -/
def placeIn (script : List ProcessBlock) (bar : Nat)
    (i : Fin (withoutBelow script bar).length) : Fin script.length :=
  (atLeast script bar).get (i.cast (length_withoutBelow script bar))

/-- The few blocks are those of priority at least `bar`, in their order. -/
structure IsPart (script few : List ProcessBlock) (bar : Nat)
    (place : Fin few.length → Fin script.length) : Prop where
  block : ∀ i, few.get i = script.get (place i)
  increasing : StrictMono place
  onto : ∀ p, bar ≤ priorityOf script p ↔ ∃ i, place i = p

theorem isPart_withoutBelow (script : List ProcessBlock) (bar : Nat) :
    IsPart script (withoutBelow script bar) bar (placeIn script bar) where
  block := fun i => by
    simp [placeIn, withoutBelow_eq]
  increasing := fun i j lt => by
    have sorted : (atLeast script bar).Pairwise (· < ·) :=
      (List.pairwise_lt_finRange script.length).filter _
    exact List.pairwise_iff_get.mp sorted _ _ lt
  onto := fun p => by
    constructor
    · intro high
      have member : p ∈ atLeast script bar := by
        simp [atLeast, high]
      obtain ⟨i, rfl⟩ := List.get_of_mem member
      exact ⟨i.cast (length_withoutBelow script bar).symm, rfl⟩
    · rintro ⟨i, rfl⟩
      have member := List.get_mem (atLeast script bar)
        (i.cast (length_withoutBelow script bar))
      exact of_decide_eq_true (List.mem_filter.mp member).2

section Runs

variable {script few : List ProcessBlock} {bar k : Nat}
  {place : Fin few.length → Fin script.length}
  {S S' : Sim script.length} {T T' : Sim few.length}

theorem IsPart.plain (part : IsPart script few bar place)
    (plain : PlainJobs script) : PlainJobs few := by
  intro block member
  obtain ⟨i, rfl⟩ := List.get_of_mem member
  rw [part.block]
  exact plain _ (List.get_mem script (place i))

theorem IsPart.high (part : IsPart script few bar place) (i : Fin few.length) :
    bar ≤ priorityOf script (place i) :=
  (part.onto _).mpr ⟨i, rfl⟩

theorem IsPart.start (part : IsPart script few bar place) (i : Fin few.length) :
    startOf few i = startOf script (place i) := by
  unfold startOf
  rw [part.block]

theorem IsPart.lifespan (part : IsPart script few bar place)
    (i : Fin few.length) : lifespanOf few i = lifespanOf script (place i) := by
  unfold lifespanOf
  rw [part.block]

theorem IsPart.priority (part : IsPart script few bar place) :
    priorityOf few = fun i => priorityOf script (place i) := by
  funext i
  unfold priorityOf
  rw [part.block]

theorem IsPart.finRange (part : IsPart script few bar place) :
    PartOf (priorityOf script) bar place (List.finRange script.length)
      (List.finRange few.length) := by
  refine List.Pairwise.eq_of_mem_iff (r := (· < ·)) ?_ ?_ fun p => ?_
  · exact (List.pairwise_lt_finRange few.length).map place
      fun i j lt => part.increasing lt
  · exact (List.pairwise_lt_finRange script.length).filter _
  · simp [part.onto p]

/-- At every tick so far the two runs have made the same choice. -/
def Agrees (script few : List ProcessBlock) (bar : Nat)
    (place : Fin few.length → Fin script.length) (k : Nat) : Prop :=
  ∀ j < k, SameChoice (priorityOf script) bar place
    (chosenAt script prioScheduler j) (chosenAt few prioScheduler j)

theorem Agrees.ran (agrees : Agrees script few bar place k)
    (part : IsPart script few bar place) (i : Fin few.length) :
    ran (chosenAt script prioScheduler) (place i) k =
      ran (chosenAt few prioScheduler) i k := by
  induction k with
  | zero => rfl
  | succ k inductionHypothesis =>
      have same := (agrees k (Nat.lt_succ_self k)).iff part.increasing.injective
        part.high i
      rw [ran_succ, ran_succ,
        inductionHypothesis fun j lt => agrees j (Nat.lt_succ_of_lt lt)]
      simp only [same]

/-- At the top of a pass the second run has, under other numbers, the part of
the first one that is at or above the bar. -/
structure Shadows (bar : Nat) (place : Fin few.length → Fin script.length)
    (S : Sim script.length) (T : Sim few.length) : Prop where
  forking : PartOf (priorityOf script) bar place S.forkqueue T.forkqueue
  ready : PartOf (priorityOf script) bar place S.readyqueue T.readyqueue
  running : PartOf (priorityOf script) bar place (alive S) (alive T)

theorem load_shadows (part : IsPart script few bar place) :
    Shadows bar place (load script) (load few) where
  forking := part.finRange
  ready := rfl
  running := rfl

theorem PlainJobs.serves_prio (plain : PlainJobs script) :
    Serves script (fun _ => True) prioScheduler :=
  Policy.serves (show Policy.prio ∈ statusAware by decide) plain.wellFormed

/-- The two choices of a pass that both runs reach. -/
theorem Shadows.chosen (shadows : Shadows bar place S T)
    (part : IsPart script few bar place) (plain : PlainJobs script)
    {mid : Sim script.length} {mid' : Sim few.length}
    (reached : doSimulation script prioScheduler k = .ok (.again S))
    (reached' : doSimulation few prioScheduler k = .ok (.again T))
    (pass : PassOf script prioScheduler k S mid)
    (pass' : PassOf few prioScheduler k T mid') :
    SameChoice (priorityOf script) bar place mid.current mid'.current ∧
      PartOf (priorityOf script) bar place mid.readyqueue mid'.readyqueue := by
  have plain' := part.plain plain
  have timed := plain.serves_prio.timed reached
  have timed' := plain'.serves_prio.timed reached'
  have forks := timed.settled.sound.forked
  have forks' := timed'.settled.sound.forked
  have chosen := reached_preferred plain.wellFormed.known reached
    pass.dispatchedEq
  have chosen' := reached_preferred plain'.wellFormed.known reached'
    pass'.dispatchedEq
  rw [part.priority] at chosen'
  refine PartOf.chosen ?_ ?_ (timed.settled.awake_forked plain.entries_eq)
    (timed'.settled.awake_forked plain'.entries_eq) chosen chosen'
  · rw [timed.readyqueue_forked, timed'.readyqueue_forked]
    refine shadows.ready.append (shadows.forking.filter fun i => ?_)
    rw [part.start]
  · rw [alive_congr forks.current forks.procs,
      alive_congr forks'.current forks'.procs]
    exact shadows.running

/-- Pass `k` leaves those in the fork queue that start later. -/
theorem forkqueue_dispatched {mid : Sim script.length}
    (pass : PassOf script prioScheduler k S mid) (timed : Timed script k S) :
    mid.forkqueue = S.forkqueue.filter fun p => ¬ startOf script p = k := by
  rw [pass.dispatching.forkqueue]
  refine List.filter_congr fun p waiting => ?_
  exact decide_eq_decide.mpr
    (not_congr (timed.due_iff ((timed.awaited p).mp waiting)))

/-- The tops of two passes that follow each other. -/
theorem Shadows.next (shadows : Shadows bar place S T)
    (part : IsPart script few bar place) (plain : PlainJobs script)
    (agrees : Agrees script few bar place (k + 1))
    {mid : Sim script.length} {mid' : Sim few.length}
    (reached : doSimulation script prioScheduler k = .ok (.again S))
    (reached' : doSimulation few prioScheduler k = .ok (.again T))
    (pass : PassOf script prioScheduler k S mid)
    (pass' : PassOf few prioScheduler k T mid')
    (executedEq : execute prioScheduler mid = .ok S')
    (executedEq' : execute prioScheduler mid' = .ok T')
    (next : doSimulation script prioScheduler (k + 1) = .ok (.again S'))
    (next' : doSimulation few prioScheduler (k + 1) = .ok (.again T')) :
    Shadows bar place S' T' := by
  have plain' := part.plain plain
  have serves := plain.serves_prio
  have serves' := plain'.serves_prio
  obtain ⟨choice, ready⟩ := shadows.chosen part plain reached reached' pass pass'
  have ticking := pass.prepared.dispatched.ticking serves.contract executedEq
  have ticking' := pass'.prepared.dispatched.ticking serves'.contract executedEq'
  constructor
  · rw [ticking.forkqueue, ticking'.forkqueue, forkqueue_dispatched pass
      (serves.timed reached), forkqueue_dispatched pass' (serves'.timed reached')]
    refine shadows.forking.filter fun i => ?_
    rw [part.start]
  · rw [pass.readyqueue_executed serves plain.entries_eq reached executedEq,
      pass'.readyqueue_executed serves' plain'.entries_eq reached' executedEq']
    exact ready
  · have going (i : Fin few.length) :
        unfinished S' (place i) ↔ unfinished T' i := by
      unfold unfinished
      rw [serves.ages plain.entries_eq next, serves'.ages plain'.entries_eq next',
        (serves.timed next).lifespan, (serves'.timed next').lifespan,
        part.lifespan, agrees.ran part]
    cases isCurrent' : mid'.current with
    | some i =>
        rw [isCurrent'] at choice
        have isCurrent : S'.current = some (place i) :=
          ticking.current.trans choice
        rw [alive_of_current isCurrent,
          alive_of_current (ticking'.current.trans isCurrent')]
        simp only [going]
        split
        · exact (by simp [PartOf, part.high i])
        · rfl
    | none =>
        rw [isCurrent'] at choice
        have nobody : alive T' = [] := by
          simp [alive, ticking'.current, isCurrent']
        rw [nobody]
        refine partOf_nil fun p member => choice p ?_
        rw [← ticking.current]
        unfold alive at member
        rw [Option.mem_toList, Option.filter_eq_some_iff] at member
        exact member.1

/-- As long as the two runs last they agree, and the second one shadows the
first. -/
theorem IsPart.agrees (part : IsPart script few bar place)
    (plain : PlainJobs script) (k : Nat) :
    Agrees script few bar place k ∧
      ∀ S T, doSimulation script prioScheduler k = .ok (.again S) →
        doSimulation few prioScheduler k = .ok (.again T) →
        Shadows bar place S T := by
  have plain' := part.plain plain
  have serves := plain.serves_prio
  have serves' := plain'.serves_prio
  have conserving := serves.workConserving plain.entries_eq
  have conserving' := serves'.workConserving plain'.entries_eq
  induction k with
  | zero =>
      refine ⟨fun j lt => absurd lt (Nat.not_lt_zero j), fun S T reached reached' => ?_⟩
      obtain rfl : load script = S := by simpa [doSimulation] using reached
      obtain rfl : load few = T := by simpa [doSimulation] using reached'
      exact load_shadows part
  | succ k inductionHypothesis =>
      obtain ⟨agrees, shadows⟩ := inductionHypothesis
      have now : SameChoice (priorityOf script) bar place
          (chosenAt script prioScheduler k) (chosenAt few prioScheduler k) := by
        rcases serves.timeline plain.entries_eq k with
          ⟨S, reached⟩ | ⟨⟨last, left⟩, all⟩
        · rcases serves'.timeline plain'.entries_eq k with
            ⟨T, reached'⟩ | ⟨⟨last, left⟩, all⟩
          · obtain ⟨mid, pass⟩ := serves.pass reached
            obtain ⟨mid', pass'⟩ := serves'.pass reached'
            rw [chosenAt_of_dispatched reached pass.dispatchedEq,
              chosenAt_of_dispatched reached' pass'.dispatchedEq]
            exact ((shadows S T reached reached').chosen part plain reached
              reached' pass pass').1
          · -- the few are done, so whoever runs is below the bar
            have nobody : chosenAt few prioScheduler k = none := by
              simp [chosenAt, left]
            rw [nobody]
            intro p chosen
            by_contra high
            obtain ⟨i, rfl⟩ := (part.onto p).mp (Nat.not_lt.mp high)
            have goesOn := conserving.unfinished k _ chosen
            rw [agrees.ran part, all i, part.lifespan] at goesOn
            exact Nat.lt_irrefl _ goesOn
        · -- everybody is done
          have nobody : chosenAt script prioScheduler k = none := by
            simp [chosenAt, left]
          cases chosen : chosenAt few prioScheduler k with
          | none =>
              rw [nobody]
              intro p absurd
              simp at absurd
          | some i =>
              have goesOn := conserving'.unfinished k i chosen
              rw [← agrees.ran part, all, part.lifespan] at goesOn
              exact absurd goesOn (Nat.lt_irrefl _)
      have further : Agrees script few bar place (k + 1) := by
        intro j lt
        rcases Nat.lt_succ_iff_lt_or_eq.mp lt with earlier | rfl
        · exact agrees j earlier
        · exact now
      refine ⟨further, fun S' T' next next' => ?_⟩
      obtain ⟨S, mid, reached, pass, executedEq⟩ := serves.before next
      obtain ⟨T, mid', reached', pass', executedEq'⟩ := serves'.before next'
      exact (shadows S T reached reached').next part plain further reached
        reached' pass pass' executedEq executedEq' next next'

end Runs

/-- Lower priorities do not interfere.  Take a script without acquire lines and
leave out all blocks of priority below `bar`.  Under the priority scheduler the
processes left run at the same ticks, and exit at the same ticks, as in the run
of the whole script. -/
theorem lower_priorities_do_not_interfere (script : List ProcessBlock)
    (plain : PlainJobs script) (bar : Nat)
    (i : Fin (withoutBelow script bar).length) (k : Nat) :
    (chosenAt script prioScheduler k = some (placeIn script bar i) ↔
      chosenAt (withoutBelow script bar) prioScheduler k = some i) ∧
    (ExitsAt script prioScheduler (placeIn script bar i) k ↔
      ExitsAt (withoutBelow script bar) prioScheduler i k) := by
  have part := isPart_withoutBelow script bar
  have plain' := part.plain plain
  have agrees (k : Nat) := (part.agrees plain k).1
  have same (k : Nat) := (agrees (k + 1) k (Nat.lt_succ_self k)).iff
    part.increasing.injective part.high i
  refine ⟨same k, ?_⟩
  rw [plain.serves_prio.exitsAt_iff plain.entries_eq,
    plain'.serves_prio.exitsAt_iff plain'.entries_eq]
  unfold CompletesAt
  simp only [same, (agrees _).ran part, part.lifespan]

/-- Two processes of priority 7, before and between which less important ones
come. -/
def mixedLevels : List ProcessBlock :=
  [{ pid := 1, start := 0, lifespan := 3, prio := 2 },
   { pid := 2, start := 1, lifespan := 2, prio := 7 },
   { pid := 3, start := 1, lifespan := 1, prio := 6 },
   { pid := 4, start := 1, lifespan := 2, prio := 7 }]

/-- The fourth process runs in tick 2 and exits in tick 5, with or without the
other two levels. -/
theorem lower_priorities_do_not_interfere_mixedLevels :
    placeIn mixedLevels 7 ⟨1, by decide⟩ = ⟨3, by decide⟩ ∧
      chosenAt mixedLevels prioScheduler 2 = some ⟨3, by decide⟩ ∧
      (ExitsAt mixedLevels prioScheduler ⟨3, by decide⟩ 5 ↔
        ExitsAt (withoutBelow mixedLevels 7) prioScheduler ⟨1, by decide⟩ 5) :=
  ⟨by decide,
    (lower_priorities_do_not_interfere mixedLevels (by decide) 7 ⟨1, by decide⟩
      2).1.mpr (by decide +kernel),
    (lower_priorities_do_not_interfere mixedLevels (by decide) 7 ⟨1, by decide⟩
      5).2⟩

end OsPAs.Sched
