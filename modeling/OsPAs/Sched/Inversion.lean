/-
Module: OsPAs.Sched.Inversion
Purpose: Priority inversion under PIP is bounded where no process holds two
  resources at once: inheritance is exact at all times, and while somebody
  waits, only processes of at least its priority run, or those that somebody of
  at least its priority is waiting for.
Trusted boundary: none
Main exports: yieldsTo, Outranks, Inheriting, Inheriting.executed,
  reached_inheriting, inversion_is_bounded
-/
import OsPAs.Sched.DisjointWindows
import OsPAs.Sched.Inheritance
import OsPAs.Sched.Grants
import OsPAs.Sched.Wakeups

namespace OsPAs.Sched

open Lib

variable {n : Nat}

/-- Process `p` may be made to wait for `q`. -/
def yieldsTo (s : Sim n) (p q : Fin n) : Prop :=
  (s.procs p).prio ≤ (s.procs q).prio

/-- Between ticks: priorities are inherited exactly, and whoever was woken for a
free resource is not below those it was woken ahead of. -/
structure Inheriting (s : Sim n) : Prop where
  exact : ∀ p, InheritsExactly s p
  roused : Roused (yieldsTo s) s

/-- Nobody forked and awake who is about to ask for a resource is above the
current process `c`. -/
def Outranks (s : Sim n) (c : Fin n) : Prop :=
  ∀ q, q ≠ c → ¬ isBlocked s q → q ∉ s.forkqueue →
    (s.procs q).firstDue ≠ none → (s.procs q).prio ≤ (s.procs c).prio

section Moves

variable {all : Fin n → List ResourceSchedule} {s s' t t' : Sim n}
  {p c : Fin n} {r : Fin nrResources} {kept rest stay : List ResourceSchedule}
  {rs : ResourceSchedule}

/-- Who asks for a resource holds none. -/
theorem Books.owns_nothing_of_due (books : Books all s)
    (lasting : ∀ rs ∈ all p, 1 ≤ rs.duration) (apart : (all p).Pairwise Apart)
    {resourceId : Nat} (due : (s.procs p).firstDue = some resourceId)
    (r : Fin nrResources) : s.owner r ≠ some p := by
  intro owns
  obtain ⟨wanted, found, _⟩ := Option.map_eq_some_iff.mp due
  have now : wanted.atAge = (s.procs p).age := by
    simpa using List.find?_some found
  have asks : 0 < (s.procs p).resourcesToAcquire.countP
      fun rs => rs.atAge = (s.procs p).age :=
    List.countP_pos_iff.mpr
      ⟨wanted, List.mem_of_find?_eq_some found, by simpa using now⟩
  have narrow := (books.ledger p).narrow lasting apart
  have nothing := List.length_eq_zero_iff.mp
    (show (s.procs p).resourcesHolding.length = 0 by omega)
  have counted := books.owned p r
  rw [nothing, if_pos owns] at counted
  simp [entriesFor] at counted

/-- With disjoint windows `pip_acquire` is always entered in a state that it can
handle. -/
theorem acquireKeepsExact_of_apart
    (books : Books all (t.setToAcquire c (kept ++ rs :: rest)))
    (waits : Waits (t.setToAcquire c (kept ++ rs :: rest)))
    (notDue : ∀ rs ∈ kept, rs.atAge ≠ (t.procs c).age)
    (now : rs.atAge = (t.procs c).age)
    (roused : Roused (yieldsTo t) (t.setToAcquire c (kept ++ rs :: rest)))
    (outranks : Outranks (t.setToAcquire c (kept ++ rs :: rest)) c)
    (lasting : ∀ p, ∀ rs ∈ all p, 1 ≤ rs.duration)
    (apart : ∀ p, (all p).Pairwise Apart) : AcquireKeepsExact t c rs := by
  have prioOf (q : Fin n) :
      ((t.setToAcquire c (kept ++ rs :: rest)).procs q).prio =
        (t.procs q).prio := by
    rw [setToAcquire_procs]
  have ownsNothing {q : Fin n} {resourceId : Nat}
      (due : ((t.setToAcquire c (kept ++ rs :: rest)).procs q).firstDue =
        some resourceId) (i : Fin nrResources) : t.owner i ≠ some q :=
    books.owns_nothing_of_due (lasting q) (apart q) due i
  intro r isR
  refine ⟨fun free => Or.inr fun w isWaiting => ?_, fun owner owns =>
    ⟨fun i w owned _ => ?_, Or.inr fun i next isWaiting _ _ => ?_⟩⟩
  · obtain ⟨q, awake, forked, due, below⟩ := roused r w isWaiting free
    by_cases isC : q = c
    · exact isC ▸ below
    · have above := outranks q isC awake forked (by simp [due])
      rw [prioOf, prioOf] at above
      exact Nat.le_trans below above
  · exact absurd owned (ownsNothing (firstDue_setToAcquire notDue now) i)
  · exact absurd owns (ownsNothing (waits.asks owner i isWaiting) r)

/-- With disjoint windows the releases of a tick are always entered in a state
that they can handle. -/
theorem releaseKeepsExact_of_narrow
    (narrow : (t.procs c).resourcesHolding.length ≤ 1) :
    ReleaseKeepsExact t c := by
  rintro ⟨ending, isEnding, done⟩ other isOther goesOn
  exfalso
  rcases holding : (t.procs c).resourcesHolding with _ | ⟨only, _ | ⟨_, _⟩⟩
  · simp [holding] at isEnding
  · rw [holding, List.mem_singleton] at isEnding isOther
    subst isEnding
    subst isOther
    exact goesOn done
  · simp [holding] at narrow

/-- `pip_release` is `prio_release` after the priority was restored. -/
theorem pipRelease_eq (c : Fin n) (resourceId : Nat) (s : Sim n) :
    pipRelease c resourceId s = prioRelease c resourceId (restorePrio c s) := rfl

/-- Nobody who is left waiting is above the one that `pip_release` wakes. -/
theorem pipRelease_wakes_highest {resourceId : Nat} {p w : Fin n}
    (released : pipRelease c resourceId t = .ok t') (move : Released t c r t')
    (isR : resourceId = r.val) (linked : Linked t (some c))
    (isLeft : p ∈ t'.waitqueue r) (wasWaiting : w ∈ t.waitqueue r)
    (awake : ¬ isBlocked t' w) : yieldsTo t' p w := by
  have prio (q : Fin n) := releaseWith_prio released q
  have isWaiting := move.waitqueue_subset r isLeft
  have asleep := linked.waiting w r wasWaiting
  rw [pipRelease_eq] at released
  obtain ⟨i, isI, _, ⟨nobody, _, _⟩ | ⟨first, rest, queueEq, _, ready⟩⟩ :=
    releaseWith_waiter released
  · obtain rfl : i = r := Fin.ext (isI.trans isR)
    change t.waitqueue i = [] at nobody
    simp [nobody] at wasWaiting
  · obtain rfl : i = r := Fin.ext (isI.trans isR)
    change t.waitqueue i = first :: rest at queueEq
    cases move with
    | quiet _ _ nobody => simp [nobody] at wasWaiting
    | @wake waiter _ _ _ _ =>
        -- the one that was woken is the one that was chosen
        obtain rfl : w = waiter := by
          by_contra other
          apply awake
          unfold isBlocked at asleep ⊢
          rw [Sim.withPrio_procs]
          simpa [Sim.wake, Sim.setStatus, Sim.modify_procs, other,
            Sim.delInitWait, Sim.setOwner] using asleep
        have chosen := (List.append_inj' ready rfl).2
        rw [List.singleton_inj] at chosen
        unfold yieldsTo
        rw [prio, prio, chosen]
        exact (highestPrio_picks
          (fun q => ((restorePrio c t).procs q).prio)).ranks _ first rest
            (fun _ => rfl) p (queueEq ▸ isWaiting)

/-- A waiter for a free resource stays below the one it was woken ahead of, when
the current process is refused and boosts an owner. -/
theorem yieldsTo_refused {owner : Fin n}
    (prio : ∀ q, (t'.procs q).prio = if q = owner then
      max (t.procs owner).prio (t.procs c).prio else (t.procs q).prio)
    (other : p ≠ owner) {q : Fin n} (yields : yieldsTo t p q) :
    yieldsTo t' p q := by
  unfold yieldsTo at yields ⊢
  rw [prio, prio, if_neg other]
  split
  · rename_i isOwner
    subst isOwner
    omega
  · exact yields

theorem Outranks.congr (outranks : Outranks s c)
    (forkqueue : s.forkqueue = s'.forkqueue)
    (prio : ∀ q, (s'.procs q).prio = (s.procs q).prio)
    (status : ∀ q, q ≠ c → (s'.procs q).status = (s.procs q).status)
    (dues : ∀ q, q ≠ c → (s'.procs q).firstDue = (s.procs q).firstDue) :
    Outranks s' c := by
  intro q other awake forked due
  unfold isBlocked at awake
  rw [status q other] at awake
  rw [← forkqueue] at forked
  rw [dues q other] at due
  rw [prio, prio]
  exact outranks q other awake forked due

theorem Outranks.started (outranks : Outranks s c) :
    Outranks ((s.setStatus c .running).setToAcquire c
      (s.procs c).resourcesToAcquire) c := by
  refine outranks.congr rfl (fun q => ?_) (fun q other => ?_) fun q other => ?_
  · rw [setToAcquire_procs, setStatus_procs]
  · rw [setToAcquire_procs, setStatus_procs]
    exact if_neg other
  · rw [setToAcquire_procs, setStatus_procs]
    simp only [Process.firstDue, if_neg other]

theorem Outranks.granted
    (outranks : Outranks (t.setToAcquire c (kept ++ rs :: rest)) c)
    (procs : t'.procs = t.procs) (move : Requested t c r true t')
    (event : Event n) :
    Outranks (((t'.hold c rs).print event).setToAcquire c (kept ++ rest)) c := by
  have forkqueue : t'.forkqueue = t.forkqueue := move.queues_granted.1
  refine outranks.congr forkqueue.symm (fun q => ?_) (fun q other => ?_)
    fun q other => ?_
  · rw [setToAcquire_procs, setToAcquire_procs, Sim.print_procs, hold_procs,
      procs]
  · rw [setToAcquire_procs, setToAcquire_procs, Sim.print_procs, hold_procs,
      procs]
  · rw [setToAcquire_procs, setToAcquire_procs, Sim.print_procs, hold_procs,
      procs]
    simp only [Process.firstDue, if_neg other]

end Moves

/-! ### Ticks and runs -/

section Ticks

variable {all : Fin n → List ResourceSchedule} {s s' mid : Sim n} {c : Fin n}

theorem Inheriting.congr (inheriting : Inheriting s) (same : SamePriorities s s')
    (forkqueue : s'.forkqueue ⊆ s.forkqueue)
    (dues : ∀ p, (s'.procs p).firstDue = (s.procs p).firstDue)
    (awake : ∀ p, ¬ isBlocked s p → ¬ isBlocked s' p) : Inheriting s' where
  exact := fun p => (inheriting.exact p).of_same same
  roused := inheriting.roused.congr same.owner same.waitqueue forkqueue dues awake
    fun _ p q _ _ yields => by
      unfold yieldsTo at yields ⊢
      rwa [same.prio, same.prio]

/-- The chosen process is above everybody who is about to ask. -/
theorem Prepared.ready_of_awake (prepared : Prepared all mid) {p : Fin n}
    (awake : ¬ isBlocked mid p) (forked : p ∉ mid.forkqueue)
    (present : (mid.procs p).status ≠ .exit) :
    p ∈ mid.readyqueue ∨ mid.current = some p := by
  have one := prepared.whole.accounted p present
  have nowhere : occurrences mid.waitqueue p = 0 :=
    occurrences_eq_zero.mpr fun r isWaiting =>
      awake (prepared.dispatched.linked.waiting p r isWaiting)
  unfold tally at one
  rw [List.count_eq_zero_of_not_mem forked, nowhere] at one
  by_contra neither
  obtain ⟨unready, notCurrent⟩ := not_or.mp neither
  rw [List.count_eq_zero_of_not_mem unready, if_neg notCurrent] at one
  omega

/-- What is carried through a tick of the chosen process under PIP. -/
theorem inheriting_carries (inheriting : Inheriting mid)
    (outranks : Outranks mid c) (prepared : Prepared all mid)
    (fitting : Fitting all mid) (apart : ∀ p, (all p).Pairwise Apart)
    (isCurrent : mid.current = some c) :
    Carries pipScheduler True mid c
      (fun kept todo t => Asking all mid c kept todo t ∧ AskingTurn t c ∧
        Roused (yieldsTo t) (t.setToAcquire c (kept ++ todo)) ∧
        Outranks (t.setToAcquire c (kept ++ todo)) c)
      (fun stay t => TurnedDown all c stay t ∧ (∀ p, InheritsExactly t p) ∧
        Roused (yieldsTo t) (t.setToAcquire c stay))
      (fun kept todo t => Releasing all mid c kept todo t ∧
        ReleasingTurn t c kept todo ∧
        Roused (fun p q => yieldsTo t p q ∧ q ≠ c) t) := by
  have keeps {kept rest : List ResourceSchedule} {rs : ResourceSchedule}
      {t : Sim n} (asking : Asking all mid c kept (rs :: rest) t)
      (roused : Roused (yieldsTo t) (t.setToAcquire c (kept ++ rs :: rest)))
      (above : Outranks (t.setToAcquire c (kept ++ rs :: rest)) c)
      (now : rs.atAge = (t.procs c).age) : AcquireKeepsExact t c rs := by
    obtain ⟨books, waits, notDue, _⟩ := asking
    exact acquireKeepsExact_of_apart books waits notDue now roused above
      fitting.lasting apart
  apply (prepared.carries pipScheduler fitting isCurrent).alongside
  · refine ⟨.start inheriting.exact (Steady.setStatus mid c .running).priorities,
      inheriting.roused.started c fun _ p q _ _ yields => ?_,
      outranks.started⟩
    unfold yieldsTo at yields ⊢
    rwa [(Steady.setStatus mid c .running).prio,
      (Steady.setStatus mid c .running).prio]
  · intro kept rs rest t _ _ before _
    rwa [← List.append_cons]
  · intro kept rs rest t inside t' busy asking before now _ acquired move
    obtain ⟨turn, roused, above⟩ := before
    have keepsNow := keeps asking roused above now
    obtain ⟨_, _, notDue, _⟩ := asking
    change pipAcquire c rs.resourceId t = .ok (true, t') at acquired
    have procs : t'.procs = t.procs := by
      obtain ⟨i, _, rfl⟩ := acquireWith_granted acquired
      rfl
    refine ⟨turn.granted keepsNow acquired move _,
      roused.granted notDue now move _ fun _ p q _ _ yields => ?_,
      above.granted procs move _⟩
    unfold yieldsTo at yields ⊢
    rwa [Sim.print_procs, hold_procs, hold_procs, procs]
  · intro kept rs rest t inside t' busy asking before now _ acquired move
    obtain ⟨turn, roused, above⟩ := before
    have keepsNow := keeps asking roused above now
    obtain ⟨books, waits, notDue, _⟩ := asking
    change pipAcquire c rs.resourceId t = .ok (false, t') at acquired
    obtain ⟨i, owner, isI, owns, prio⟩ := acquireWith_refused acquired
    refine ⟨fun p => (turn.refused keepsNow acquired move p).of_same
        (Steady.print _ _).priorities,
      roused.refused notDue now move _ fun j p q isWaiting _ yields => ?_⟩
    have prioOf (q : Fin n) := (prio q).trans (inheritPrio_prio owner c q t)
    refine yieldsTo_refused prioOf ?_ yields
    rintro rfl
    exact books.owns_nothing_of_due (fitting.lasting p) (apart p)
      (waits.asks p j isWaiting) i owns
  · intro stay t busy asking before acquired
    obtain ⟨turn, roused, _⟩ := before
    obtain ⟨books, _, notDue, _⟩ := asking
    rw [List.append_nil] at roused books
    have ledger := books.ledger c
    have narrow := ledger.narrow (fitting.lasting c) (apart c)
    have few : ((t.setToAcquire c stay).procs c).resourcesHolding.length ≤ 1 := by
      omega
    have asked : AskingTurn (t.setToAcquire c stay) c := turn.setToAcquire stay
    have started :=
      ReleasingTurn.start asked (releaseKeepsExact_of_narrow few)
    have nothing : ((t.setToAcquire c stay).procs c).firstDue = none := by
      apply firstDue_of_notDue
      rw [setToAcquire_procs]
      simpa using notDue
    have others := (roused.without nothing).growOlder (c := c) (by
      rw [setToAcquire_procs]
      simpa using notDue)
    rw [setToAcquire_procs] at started
    refine ⟨started.of_same
      ((Steady.print _ _).trans (.growOlder _ c)).priorities, ?_⟩
    refine others.congr rfl rfl (List.Subset.refl _) (fun _ => rfl) (fun _ => id)
      fun _ p q _ _ yields => ⟨?_, yields.2⟩
    have same := (((Steady.setToAcquire t c stay).trans
      (.print _ (.ran c))).trans (.growOlder _ c)).priorities
    have before := yields.1
    unfold yieldsTo at before ⊢
    rwa [same.prio, same.prio]
  · intro kept rs rest t _ _ before goesOn
    exact ⟨before.1.keep (subUInt_one_eq_zero.not.mp goesOn), before.2⟩
  · intro kept rs rest t inside t' busy releasing before last released move _
    obtain ⟨turn, roused⟩ := before
    have dropped := turn.drop (subUInt_one_eq_zero.mp last) busy.detached
      released move
    refine ⟨dropped.of_same (Steady.print _ _).priorities, ?_⟩
    have prio (q : Fin n) :=
      (releaseWith_prio released q).trans (restorePrio_prio c q t)
    have notC {i : Fin nrResources} {w : Fin n} (isWaiting : w ∈ t.waitqueue i) :
        w ≠ c := by
      rintro rfl
      exact busy.detached.2.2 i isWaiting
    have rousedNow : Roused (fun p q => yieldsTo t' p q ∧ q ≠ c) t' := by
      refine roused.released releasing.2 busy.linked move
        (fun i p q isWaiting _ yields => ⟨?_, yields.2⟩)
        fun p w isLeft wasWaiting awake => ⟨?_, notC wasWaiting⟩
      · unfold yieldsTo
        rw [prio, prio, if_neg (notC isWaiting), if_neg yields.2]
        exact yields.1
      · exact pipRelease_wakes_highest released move rfl busy.linked isLeft
          wasWaiting awake
    exact rousedNow

/-- The second half of a pass. -/
theorem Inheriting.executed (inheriting : Inheriting mid)
    (outranks : ∀ c, mid.current = some c → Outranks mid c)
    (prepared : Prepared all mid) (fitting : Fitting all mid)
    (apart : ∀ p, (all p).Pairwise Apart)
    (executedEq : execute pipScheduler mid = .ok s') : Inheriting s' := by
  have contract : Contract True (fun _ : Sim n => True) pipScheduler :=
    Policy.contract (show Policy.pip ∈ statusAware by decide)
  cases isCurrent : mid.current with
  | none =>
      obtain rfl := Except.ok.inj
        ((execute_of_idle pipScheduler isCurrent).symm.trans executedEq)
      exact inheriting.congr ((Steady.print mid .idle).trans (.nextTick _)).priorities
        (List.Subset.refl _) (fun _ => rfl) fun _ => id
  | some c =>
      obtain ⟨stay, t, ⟨rfl, _, _, exact, roused⟩ |
          ⟨rfl, _, releasing, turn, roused⟩⟩ :=
        (inheriting_carries inheriting (outranks c isCurrent) prepared fitting
          apart isCurrent).executed contract prepared.dispatched isCurrent
            executedEq
      · have same := ((Steady.setToAcquire t c stay).trans (.nextTick _)).priorities
        refine ⟨fun p => (exact p).of_same same, roused.congr rfl rfl
          (List.Subset.refl _) (fun _ => rfl) (fun _ => id)
          fun _ p q _ _ yields => ?_⟩
        unfold yieldsTo at yields ⊢
        rwa [same.prio, same.prio]
      · have same := ((Steady.setHolding t c stay).trans (.nextTick _)).priorities
        refine ⟨fun p => (turn.exact releasing.1 p).of_same same,
          roused.congr rfl rfl (List.Subset.refl _) (fun p => ?_)
            (fun p awake => ?_) fun _ p q _ _ yields => ?_⟩
        · change ((t.setHolding c stay).procs p).firstDue = _
          rw [setHolding_procs]
          rfl
        · unfold isBlocked at awake ⊢
          change ((t.setHolding c stay).procs p).status ≠ .blocked
          rw [setHolding_procs]
          exact awake
        · have before := yields.1
          unfold yieldsTo at before ⊢
          rwa [same.prio, same.prio]

end Ticks

section Reached

variable {script : List ProcessBlock} {k : Nat} {s mid : Sim script.length}

theorem pip_serves (wellFormed : WellFormed script) :
    Serves script (fun _ => True) pipScheduler :=
  Policy.serves (show Policy.pip ∈ statusAware by decide) wellFormed

/-- The first half of a pass that is reached, under PIP: nobody ready is above
the chosen process, and the processor does not idle while somebody is ready. -/
theorem PassOf.highest (wellFormed : WellFormed script)
    (reached : doSimulation script pipScheduler k = .ok (.again s))
    (pass : PassOf script pipScheduler k s mid) {q : Fin script.length}
    (ready : q ∈ mid.readyqueue ∨ mid.current = some q) :
    ∃ c, mid.current = some c ∧ (mid.procs q).prio ≤ (mid.procs c).prio := by
  have serves := pip_serves wellFormed
  obtain ⟨settled, _, _⟩ := serves.settled reached
  have same := dispatch_samePriorities serves.contract rfl settled.sound trivial
    pass.dispatchedEq
  cases isCurrent : mid.current with
  | none =>
      rw [isCurrent, pass.idle isCurrent] at ready
      simp at ready
  | some c =>
      refine ⟨c, rfl, ?_⟩
      rcases ready with isReady | isC
      · have preferred := settled.sound.preferred serves.contract rfl trivial
          pass.dispatchedEq
        rw [isCurrent] at preferred
        have above := preferred.highest q isReady
        rwa [same.prio, same.prio]
      · obtain rfl := Option.some.inj (isCurrent.symm.trans isC)
        exact Nat.le_refl _

theorem PassOf.inheriting (wellFormed : WellFormed script)
    (reached : doSimulation script pipScheduler k = .ok (.again s))
    (inheriting : Inheriting s) (pass : PassOf script pipScheduler k s mid) :
    Inheriting mid := by
  have serves := pip_serves wellFormed
  obtain ⟨settled, _, _⟩ := serves.settled reached
  have same := dispatch_samePriorities serves.contract rfl settled.sound trivial
    pass.dispatchedEq
  refine inheriting.congr same pass.dispatching.forkqueue_subset (fun p => ?_)
    pass.dispatching.awake
  have entries := pass.dispatching.entries p
  unfold Process.firstDue
  rw [entries.wants, entries.age]

theorem PassOf.prioOrig (wellFormed : WellFormed script)
    (reached : doSimulation script pipScheduler k = .ok (.again s))
    (pass : PassOf script pipScheduler k s mid) (p : Fin script.length) :
    (mid.procs p).prioOrig = priorityOf script p := by
  have serves := pip_serves wellFormed
  obtain ⟨settled, _, same⟩ := serves.settled reached
  have kept := dispatch_samePriorities serves.contract rfl settled.sound trivial
    pass.dispatchedEq
  exact (kept.prioOrig p).trans (same.prioOrig p)

/-- With disjoint windows the states between two ticks inherit exactly. -/
theorem reached_inheriting (wellFormed : WellFormed script)
    (apart : DisjointWindows script)
    (reached : doSimulation script pipScheduler k = .ok (.again s)) :
    Inheriting s := by
  have serves := pip_serves wellFormed
  apply serves.invariant (fun _ s => Inheriting s) _ _ reached
  · exact ⟨fun p => inheritsExactly_of_orig rfl fun r w owns => by
        simp [load] at owns,
      fun r p isWaiting => by simp [load] at isWaiting⟩
  · intro k s mid s' reached inheriting pass _ executedEq _
    refine (pass.inheriting wellFormed reached inheriting).executed
      (fun c isCurrent q _ awake forked due => ?_) pass.prepared pass.fitting
      apart.entries executedEq
    obtain ⟨resourceId, isDue⟩ := Option.ne_none_iff_exists'.mp due
    obtain ⟨c', isC', above⟩ := pass.highest wellFormed reached
      (pass.prepared.ready_of_awake awake forked
        (pass.prepared.due_present pass.fitting isDue))
    obtain rfl := Option.some.inj (isCurrent.symm.trans isC')
    exact above

/-- Somebody runs who has at least the priority of a waiting process. -/
theorem PassOf.runs_for_waiter (wellFormed : WellFormed script)
    (apart : DisjointWindows script)
    (reached : doSimulation script pipScheduler k = .ok (.again s))
    (pass : PassOf script pipScheduler k s mid) {w : Fin script.length}
    {r : Fin nrResources} (isWaiting : w ∈ mid.waitqueue r) :
    ∃ c, mid.current = some c ∧ (mid.procs w).prio ≤ (mid.procs c).prio := by
  have prepared := pass.prepared
  have inheriting := pass.inheriting wellFormed reached
    (reached_inheriting wellFormed apart reached)
  have forked := ((pip_serves wellFormed).roused reached).2.congr
    pass.dispatching.owner pass.dispatching.forkqueue_subset
  obtain ⟨q, ready, above⟩ : ∃ q, (q ∈ mid.readyqueue ∨ mid.current = some q) ∧
      (mid.procs w).prio ≤ (mid.procs q).prio := by
    cases owns : mid.owner r with
    | some owner =>
        refine ⟨owner, prepared.ready_of_awake (fun asleep => ?_)
          (forked r owner owns) (prepared.owner_present pass.fitting owns),
          (inheriting.exact owner).nobodyHigher r w owns isWaiting⟩
        -- an owner that waits would have to hold two resources
        obtain ⟨i, waits⟩ := prepared.dispatched.linked.blocked owner asleep
        exact prepared.books.owns_nothing_of_due (pass.fitting.lasting owner)
          (apart.entries owner) (prepared.waits.asks owner i waits) r owns
    | none =>
        obtain ⟨q, awake, isForked, due, above⟩ :=
          inheriting.roused r w isWaiting owns
        exact ⟨q, prepared.ready_of_awake awake isForked
          (prepared.due_present pass.fitting due), above⟩
  obtain ⟨c, isCurrent, highest⟩ := pass.highest wellFormed reached ready
  exact ⟨c, isCurrent, Nat.le_trans above highest⟩

/-- A process that waits has its original priority. -/
theorem PassOf.waiter_prio (wellFormed : WellFormed script)
    (apart : DisjointWindows script)
    (reached : doSimulation script pipScheduler k = .ok (.again s))
    (pass : PassOf script pipScheduler k s mid) {w : Fin script.length}
    {r : Fin nrResources} (isWaiting : w ∈ mid.waitqueue r) :
    (mid.procs w).prio = (mid.procs w).prioOrig := by
  have prepared := pass.prepared
  have inheriting := pass.inheriting wellFormed reached
    (reached_inheriting wellFormed apart reached)
  rcases (inheriting.exact w).1 with orig | ⟨i, _, owns, _, _⟩
  · exact orig
  · exact absurd owns (prepared.books.owns_nothing_of_due
      (pass.fitting.lasting w) (apart.entries w)
      (prepared.waits.asks w r isWaiting) i)

end Reached

/-- Priority inversion is bounded under PIP.  On a well-formed script in which
no process holds two resources at once, every priority between two ticks is the
greatest of the original one and those of the processes waiting for a resource
of the process; and in every tick in which process `w` waits, somebody runs, and
either it has at least the priority that the script gives to `w`, or it owns a
resource that somebody of at least that priority is waiting for. -/
theorem inversion_is_bounded (script : List ProcessBlock)
    (wellFormed : WellFormed script) (apart : DisjointWindows script) (k : Nat)
    (s mid : Sim script.length)
    (reached : doSimulation script pipScheduler k = .ok (.again s))
    (dispatchedEq : dispatch pipScheduler s = .ok mid) :
    (∀ p, IsGreatest (Boosts s p) (s.procs p).prio) ∧
    ∀ w r, w ∈ mid.waitqueue r → ∃ c, mid.current = some c ∧
      (priorityOf script w ≤ priorityOf script c ∨
        ∃ i next, mid.owner i = some c ∧ next ∈ mid.waitqueue i ∧
          priorityOf script w ≤ priorityOf script next) := by
  obtain ⟨mid', pass⟩ := (pip_serves wellFormed).pass reached
  obtain rfl := Except.ok.inj (pass.dispatchedEq.symm.trans dispatchedEq)
  have before := reached_inheriting wellFormed apart reached
  refine ⟨before.exact, fun w r isWaiting => ?_⟩
  have orig (p : Fin script.length) :
      (mid'.procs p).prioOrig = priorityOf script p :=
    pass.prioOrig wellFormed reached p
  obtain ⟨c, isCurrent, above⟩ :=
    pass.runs_for_waiter wellFormed apart reached isWaiting
  rw [pass.waiter_prio wellFormed apart reached isWaiting, orig] at above
  refine ⟨c, isCurrent, ?_⟩
  rcases ((pass.inheriting wellFormed reached before).exact c).1 with
    own | ⟨i, next, owns, isNext, inherited⟩
  · exact Or.inl (by rw [← orig c, ← own]; exact above)
  · refine Or.inr ⟨i, next, owns, isNext, ?_⟩
    rw [← orig next, ← pass.waiter_prio wellFormed apart reached isNext,
      ← inherited]
    exact above

/-- A process of priority 1 owns a resource, one of priority 9 comes to ask for
it, and one of priority 5, which needs nothing, comes in between. -/
def middleComer : List ProcessBlock :=
  [{ pid := 1, start := 0, lifespan := 6, prio := 1
     acquires := [⟨3, 0, 4⟩, ⟨4, 4, 1⟩] },
   { pid := 2, start := 1, lifespan := 3, prio := 9
     acquires := [⟨3, 1, 1⟩] },
   { pid := 3, start := 2, lifespan := 5, prio := 5 }]

/-- In the fourth pass the process of priority 9 waits, and the owner runs. -/
theorem inversion_is_bounded_middleComer :
    ∃ s mid, doSimulation middleComer pipScheduler 3 = .ok (.again s) ∧
      dispatch pipScheduler s = .ok mid ∧ (∃ w r, w ∈ mid.waitqueue r) ∧
      mid.readyqueue ≠ [] ∧
      (∀ p, IsGreatest (Boosts s p) (s.procs p).prio) ∧
      ∀ w r, w ∈ mid.waitqueue r → ∃ c, mid.current = some c ∧
        (priorityOf middleComer w ≤ priorityOf middleComer c ∨
          ∃ i next, mid.owner i = some c ∧ next ∈ mid.waitqueue i ∧
            priorityOf middleComer w ≤ priorityOf middleComer next) := by
  obtain ⟨s, reached, halfway⟩ := exists_of_againWith
    (fun s : Sim middleComer.length => okWith
      (fun mid => (∃ w r, w ∈ mid.waitqueue r) ∧ mid.readyqueue ≠ [])
      (dispatch pipScheduler s) = true)
    (doSimulation middleComer pipScheduler 3) (by decide +kernel)
  obtain ⟨mid, dispatchedEq, isWaiting, ready⟩ := exists_of_okWith _ _ halfway
  exact ⟨s, mid, reached, dispatchedEq, isWaiting, ready,
    inversion_is_bounded middleComer (by decide) (by decide) 3 s mid reached
      dispatchedEq⟩

end OsPAs.Sched
