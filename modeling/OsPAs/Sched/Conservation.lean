/-
Module: OsPAs.Sched.Conservation
Purpose: No process is lost, duplicated or queued twice.  `Whole` says that
  every process that has not exited is in exactly one place; it holds along all
  runs of the status-aware policies on scripts with positive lifespans.
Trusted boundary: none
Main exports: PositiveLifespans, KnownScript, Whole, reached_sound, chosenAt,
  sound_invariant, reached_whole, process_in_exactly_one_place
-/
import OsPAs.Sched.Runs

namespace OsPAs.Sched

open Lib

variable {n : Nat}

/-! ### Scripts -/

/-- Every lifespan of the script is at least one. -/
def PositiveLifespans (script : List ProcessBlock) : Prop :=
  ∀ block ∈ script, 1 ≤ block.lifespan.toNat

/-- Every acquire line of the script names one of the sixteen resources. -/
def KnownScript (script : List ProcessBlock) : Prop :=
  ∀ block ∈ script, ∀ line ∈ block.acquires,
    line.resourceId.toNat < nrResources

instance (script : List ProcessBlock) : Decidable (PositiveLifespans script) :=
  inferInstanceAs (Decidable (∀ block ∈ script, _))

instance (script : List ProcessBlock) : Decidable (KnownScript script) :=
  inferInstanceAs (Decidable (∀ block ∈ script, ∀ line ∈ block.acquires, _))

theorem load_tidy (script : List ProcessBlock) : Tidy (load script) where
  linked :=
    { once := fun p => by
        have once : (List.finRange script.length).count p = 1 :=
          List.count_eq_one_of_mem (List.nodup_finRange _)
            (List.mem_finRange p)
        simp [tally, load, runner, once, occurrences]
      forking := fun _ _ => rfl
      queued := by simp [load]
      waiting := by simp [load]
      blocked := fun p asleep => by
        simp [isBlocked, load, ProcessBlock.process] at asleep
      runs := by simp [load, runner] }
  current := by simp [load]

theorem load_sound {script : List ProcessBlock} (known : KnownScript script) :
    Sound (load script) where
  linked := (load_tidy script).linked
  active := fun p ran => by simp [load, ProcessBlock.process] at ran
  current := (load_tidy script).current
  known := fun p rs member => by
    simp only [load, ProcessBlock.process, List.append_nil] at member
    obtain ⟨line, lineMember, rfl⟩ := List.mem_map.mp member
    exact known _ (List.get_mem script p) line lineMember

/-! ### Sound states along a run -/

section Contract

variable {live : Prop} {script : List ProcessBlock}
  {guard : Sim script.length → Prop} {sched : Scheduler script.length}

/-- A sound state passes its pass of the loop on to a sound state. -/
theorem Sound.body (contract : Contract live guard sched)
    {s s' : Sim script.length} (sound : Sound s)
    (guarded : guard (forkOnSchedule s))
    (ran : body sched s = .ok (.again s')) : Sound s' := by
  obtain ⟨mid, dispatchedEq, _, executedEq⟩ := body_again ran
  rcases sound.dispatch contract guarded with failed | ⟨_, eq, dispatched⟩
  · simp [dispatchedEq] at failed
  · obtain rfl := Except.ok.inj (dispatchedEq.symm.trans eq)
    exact dispatched.sound contract executedEq

/-- The states at the top of the passes are sound, as long as the policy has
been called in states it can handle. -/
theorem reached_sound (contract : Contract live guard sched)
    (known : KnownScript script) {k : Nat} {s : Sim script.length}
    (guarded : ∀ j < k, ∀ earlier,
      doSimulation script sched j = .ok (.again earlier) →
        guard (forkOnSchedule earlier))
    (reached : doSimulation script sched k = .ok (.again s)) : Sound s := by
  induction k generalizing s with
  | zero =>
      obtain rfl : load script = s := by simpa [doSimulation] using reached
      exact load_sound known
  | succ k inductionHypothesis =>
      obtain ⟨before, beforeReached, ran⟩ := iterate_succ_again reached
      have sound := inductionHypothesis
        (fun j lt => guarded j (Nat.lt_succ_of_lt lt)) beforeReached
      exact sound.body contract
        (guarded k (Nat.lt_succ_self k) before beforeReached) ran

/-- The process that pass `k` gives the processor to, if there is such a
pass. -/
def chosenAt (script : List ProcessBlock) (sched : Scheduler script.length)
    (k : Nat) : Option (Fin script.length) :=
  match doSimulation script sched k with
  | .ok (.again s) =>
      match dispatch sched s with
      | .ok mid => mid.current
      | .error _ => none
  | _ => none

theorem chosenAt_of_dispatched {k : Nat} {s mid : Sim script.length}
    (reached : doSimulation script sched k = .ok (.again s))
    (dispatchedEq : dispatch sched s = .ok mid) :
    chosenAt script sched k = mid.current := by
  simp only [chosenAt, reached, dispatchedEq]

theorem dispatched_of_chosenAt {k : Nat} {p : Fin script.length}
    (chosen : chosenAt script sched k = some p) :
    ∃ s mid, doSimulation script sched k = .ok (.again s) ∧
      dispatch sched s = .ok mid ∧ mid.current = some p := by
  unfold chosenAt at chosen
  split at chosen
  · rename_i s reached
    split at chosen
    · rename_i mid dispatchedEq
      exact ⟨s, mid, reached, dispatchedEq, chosen⟩
    · simp at chosen
  · simp at chosen

/-- Run rule: what holds at the top of pass `0` and is carried by a pass from a
sound state holds at the top of every pass, under a policy that keeps the
contract in every state. -/
theorem sound_invariant
    (contract : Contract live (fun _ : Sim script.length => True) sched)
    (known : KnownScript script) (Inv : Nat → Sim script.length → Prop)
    (initially : Inv 0 (load script))
    (carried : ∀ k s mid s', doSimulation script sched k = .ok (.again s) →
      Sound s → Inv k s → dispatch sched s = .ok mid → Dispatched mid →
      execute sched mid = .ok s' → Inv (k + 1) s')
    {k : Nat} {s : Sim script.length}
    (reached : doSimulation script sched k = .ok (.again s)) : Inv k s := by
  apply iterate_invariant Inv initially _ reached
  intro j before after beforeReached inv ran
  have sound := reached_sound contract known (fun _ _ _ _ => trivial)
    beforeReached
  obtain ⟨mid, dispatchedEq, _, executedEq⟩ := body_again ran
  rcases sound.dispatch contract trivial with
    failed | ⟨mid', dispatchedEq', dispatched⟩
  · simp [failed] at dispatchedEq
  · obtain rfl := Except.ok.inj (dispatchedEq.symm.trans dispatchedEq')
    exact carried j before mid after beforeReached sound inv dispatchedEq
      dispatched executedEq

/-- What the script fixes is fixed along the whole run. -/
theorem reached_sameScript
    (contract : Contract live (fun _ : Sim script.length => True) sched)
    (known : KnownScript script) {k : Nat} {s : Sim script.length}
    (reached : doSimulation script sched k = .ok (.again s)) :
    SameScript (load script) s := by
  apply sound_invariant contract known
    (fun _ s => SameScript (load script) s) (SameScript.refl _) _ reached
  intro k s mid s' _ sound same dispatchedEq dispatched executedEq
  exact (same.trans (.dispatched contract sound trivial dispatchedEq)).trans
    (.executed contract dispatched executedEq)

end Contract

/-! ### Nobody is lost -/

/-- `run` is the process the processor is given to.  Every process that has not
exited is in exactly one place, those in a list have work left, and those who
have exited are finished. -/
structure Whole (s : Sim n) (run : Option (Fin n)) : Prop where
  accounted : ∀ p, (s.procs p).status ≠ .exit → tally s run p = 1
  young : ∀ p, ¬ s.detached p → unfinished s p
  finished : ∀ p, (s.procs p).status = .exit →
    (s.procs p).age = (s.procs p).lifespan
  bounded : ∀ p, (s.procs p).age ≤ (s.procs p).lifespan
  small : ∀ p, (s.procs p).lifespan < 2 ^ 32

/-- The part of a process that `Whole` reads, besides its places. -/
def SameClock (before after : Process) : Prop :=
  after.age = before.age ∧ after.lifespan = before.lifespan

namespace Whole

variable {s s' : Sim n} {run run' : Option (Fin n)} {c : Fin n}
  {r : Fin nrResources}

/-- `Whole` carries over when the places are the same and nobody enters or
leaves the status `exit`. -/
theorem congr (whole : Whole s run)
    (places : ∀ p, tally s' run' p = tally s run p)
    (lists : ∀ p, s.detached p → s'.detached p)
    (exits : ∀ p, (s'.procs p).status = .exit ↔ (s.procs p).status = .exit)
    (clock : ∀ p, SameClock (s.procs p) (s'.procs p)) : Whole s' run' where
  accounted := fun p alive => by
    rw [places]; exact whole.accounted p ((exits p).not.mp alive)
  young := fun p listed => by
    unfold unfinished
    rw [(clock p).1, (clock p).2]
    exact whole.young p fun loose => listed (lists p loose)
  finished := fun p exited => by
    rw [(clock p).1, (clock p).2]
    exact whole.finished p ((exits p).mp exited)
  bounded := fun p => by
    rw [(clock p).1, (clock p).2]; exact whole.bounded p
  small := fun p => by rw [(clock p).2]; exact whole.small p

theorem print (whole : Whole s run) (event : Event n) :
    Whole (s.print event) run :=
  whole.congr (fun _ => rfl) (fun _ => id) (fun _ => Iff.rfl)
    fun _ => ⟨rfl, rfl⟩

theorem nextTick (whole : Whole s run) : Whole (nextTick s) run :=
  whole.congr (fun _ => rfl) (fun _ => id) (fun _ => Iff.rfl)
    fun _ => ⟨rfl, rfl⟩

/-- An update of one process that keeps its status, age and lifespan. -/
theorem modify (whole : Whole s run) {p : Fin n} {change : Process → Process}
    (status : ∀ process, (change process).status = process.status)
    (clock : ∀ process, SameClock process (change process)) :
    Whole (s.modify p change) run := by
  refine whole.congr (fun _ => rfl) (fun _ => id) (fun q => ?_) fun q => ?_
  · rw [Sim.modify_procs]
    split
    · rename_i same; subst same; rw [status]
    · exact Iff.rfl
  · rw [Sim.modify_procs]
    split
    · rename_i same; subst same; exact clock _
    · exact ⟨rfl, rfl⟩

theorem hold (whole : Whole s run) (rs : ResourceSchedule) :
    Whole (s.hold c rs) run :=
  whole.modify (fun _ => rfl) fun _ => ⟨rfl, rfl⟩

theorem setToAcquire (whole : Whole s run) (stay : List ResourceSchedule) :
    Whole (s.setToAcquire c stay) run :=
  whole.modify (fun _ => rfl) fun _ => ⟨rfl, rfl⟩

theorem setHolding (whole : Whole s run) (stay : List ResourceSchedule) :
    Whole (s.setHolding c stay) run :=
  whole.modify (fun _ => rfl) fun _ => ⟨rfl, rfl⟩

theorem granted (whole : Whole s run) (move : Requested s c r true s') :
    Whole s' run := by
  have procs := move.procs_granted
  cases move with
  | granted prio =>
      exact whole.congr (fun _ => rfl) (fun _ => id) (fun _ => Iff.rfl)
        fun _ => ⟨rfl, rfl⟩

theorem refused (whole : Whole s (some c)) (alive : unfinished s c)
    (present : (s.procs c).status ≠ .exit)
    (move : Requested s c r false s') : Whole s' none := by
  have procs := move.procs_refused
  have places (p : Fin n) : tally s' none p = tally s (some c) p := by
    cases move with
    | refused prio =>
        rw [tally_run s (some c) p]
        change tally (s.sleep r c) none p = _
        rw [tally_sleep]
        simp only [Option.some.injEq, eq_comm (a := c)]
  have clock (p : Fin n) : SameClock (s.procs p) (s'.procs p) := by
    obtain ⟨k, eq⟩ := procs p
    rw [eq]; exact ⟨rfl, rfl⟩
  refine ⟨fun p stays => ?_, fun p listed => ?_, fun p exited => ?_,
    fun p => ?_, fun p => ?_⟩
  · rw [places]
    refine whole.accounted p fun exited => stays ?_
    obtain ⟨k, eq⟩ := procs p
    have other : p ≠ c := fun same => present (same ▸ exited)
    rw [eq]
    simpa [other] using exited
  · unfold unfinished
    rw [(clock p).1, (clock p).2]
    by_cases same : p = c
    · subst same; exact alive
    · refine whole.young p fun loose => listed ?_
      have zero := detached_iff_tally.mp loose
      rw [detached_iff_tally, places, tally_run, zero]
      simp [Ne.symm same]
  · rw [(clock p).1, (clock p).2]
    obtain ⟨k, eq⟩ := procs p
    rw [eq] at exited
    by_cases same : p = c
    · simp [same] at exited
    · simp only [if_neg same] at exited
      exact whole.finished p exited
  · rw [(clock p).1, (clock p).2]; exact whole.bounded p
  · rw [(clock p).2]; exact whole.small p

theorem released (whole : Whole s run) (move : Released s c r s') :
    Whole s' run := by
  have procs := move.procs
  have places (p : Fin n) : tally s' none p = tally s none p := by
    cases move with
    | quiet => rfl
    | @wake waiter prio owned isWaiting =>
        exact tally_wake (s := s.setOwner r none) isWaiting p
  refine whole.congr (fun p => ?_) (fun p loose => ?_) (fun p => ?_)
    fun p => ?_
  · rw [tally_run, places, ← tally_run]
  · rw [detached_iff_tally, places]
    exact detached_iff_tally.mp loose
  · obtain ⟨k, status, eq, same | ⟨asleep, woken⟩⟩ := procs p
    · rw [eq, same]
    · unfold isBlocked at asleep
      rw [eq, asleep, woken]
      simp
  · obtain ⟨k, status, eq, _⟩ := procs p
    rw [eq]; exact ⟨rfl, rfl⟩

/-- Running for one tick: the process is in no list, so only its own age
counts. -/
theorem growOlder (whole : Whole s run) (loose : s.detached c)
    (alive : unfinished s c) (present : (s.procs c).status ≠ .exit) :
    Whole (growOlder c s) run := by
  have small := whole.small c
  unfold unfinished at alive
  have aged : toUInt ((s.procs c).age + 1) = (s.procs c).age + 1 :=
    toUInt_of_lt (by omega)
  have procs (p : Fin n) : (OsPAs.Sched.growOlder c s).procs p =
      { s.procs p with
        age := if p = c then (s.procs c).age + 1 else (s.procs p).age } := by
    rw [OsPAs.Sched.growOlder, Sim.modify_procs]
    by_cases same : p = c
    · subst same; simp [aged]
    · simp [same]
  refine ⟨fun p stays => ?_, fun p listed => ?_, fun p exited => ?_,
    fun p => ?_, fun p => ?_⟩
  · rw [procs] at stays
    exact whole.accounted p stays
  · have other : p ≠ c := fun same => listed (same ▸ loose)
    unfold unfinished
    rw [procs]
    simp only [if_neg other]
    exact whole.young p listed
  · rw [procs] at exited ⊢
    have other : p ≠ c := fun same => present (same ▸ exited)
    simp only [if_neg other]
    exact whole.finished p exited
  · rw [procs]
    by_cases same : p = c
    · subst same
      simp only [if_true]
      omega
    · simp only [if_neg same]
      exact whole.bounded p
  · rw [procs]; exact whole.small p

theorem forked (whole : Whole s run)
    (moved : Forked s s' [] s.forkqueue) : Whole s' run := by
  refine whole.congr (fun p => ?_) (fun p loose => ?_) (fun p => ?_)
    fun p => ?_
  · rw [tally_run, tally_forked moved, ← tally_run]
  · rw [detached_iff_tally, tally_forked moved]
    exact detached_iff_tally.mp loose
  · rw [moved.procs]
  · rw [moved.procs]; exact ⟨rfl, rfl⟩

/-- What `schedule` chooses loses nobody but a current process that is
finished. -/
theorem chosen {live : Prop} {next : Option (Fin n)}
    (whole : Whole s (runner s)) (choice : Chosen live s next s') :
    (∀ p, (s.procs p).status ≠ .exit →
      (runner s = some p → unfinished s p) → tally s' next p = 1) ∧
    (∀ p, ¬ s'.detached p → unfinished s p) := by
  have idleRunner (done : CurrentDone s) (p : Fin n)
      (busy : runner s = some p → unfinished s p) : runner s ≠ some p := by
    intro isRunner
    obtain ⟨isCurrent, awake⟩ := runner_eq_some.mp isRunner
    rcases done p isCurrent with asleep | finished
    · exact awake asleep
    · exact finished (busy isRunner)
  have notRunner {p : Fin n} (present : (s.procs p).status ≠ .exit)
      (other : runner s ≠ some p) : tally s none p = 1 := by
    have all := whole.accounted p present
    rwa [tally_run, if_neg other, Nat.add_zero] at all
  cases choice with
  | @keep c prio isCurrent awake alive =>
      have isRunner := runner_eq_some.mpr ⟨isCurrent, awake⟩
      refine ⟨fun p present _ => ?_, fun p listed => whole.young p listed⟩
      have all := whole.accounted p present
      rw [isRunner] at all
      exact (tally_withPrio s prio (some c) p).trans all
  | idle nobody done =>
      exact ⟨fun p present busy => notRunner present (idleRunner done p busy),
        fun p listed => whole.young p listed⟩
  | @pick next prio isReady done =>
      refine ⟨fun p present busy => ?_, fun p listed => ?_⟩
      · have erased := tally_delInitReady isReady p
        have all := notRunner present (idleRunner done p busy)
        rw [tally_run]
        change tally (s.delInitReady next) none p + _ = 1
        simp only [Option.some.injEq, eq_comm (a := next)]
        omega
      · exact whole.young p fun loose => listed (detached_delInitReady loose)
  | @preempt c next prio isReady isCurrent awake alive =>
      have isRunner := runner_eq_some.mpr ⟨isCurrent, awake⟩
      have requeued := tally_requeue s c
      have stillReady : next ∈ s.readyqueue ++ [c] :=
        List.mem_append_left [c] isReady
      refine ⟨fun p present _ => ?_, fun p listed => ?_⟩
      · have erased := tally_delInitReady
          (s := { s with readyqueue := s.readyqueue ++ [c] }) stillReady p
        have all := whole.accounted p present
        rw [isRunner, tally_run] at all
        rw [requeued] at erased
        rw [tally_run]
        change tally
          (({ s with readyqueue := s.readyqueue ++ [c] } : Sim n).delInitReady
            next) none p + _ = 1
        simp only [Option.some.injEq, eq_comm (a := next),
          eq_comm (a := c)] at all ⊢
        omega
      · by_cases same : p = c
        · subst same; exact alive
        · refine whole.young p fun loose => listed ?_
          refine ⟨loose.1, fun member => ?_, loose.2.2⟩
          rcases List.mem_append.mp (List.mem_of_mem_erase member) with
            old | new
          · exact loose.2.1 old
          · exact same (by simpa using new)

/-- What `schedule` chooses has work left, unless it is a finished current
process that a policy without `live` returned once more. -/
theorem chosen_unfinished {live : Prop} {p : Fin n} (whole : Whole s run)
    (choice : Chosen live s (some p) s')
    (fresh : live ∨ s.current ≠ some p) : unfinished s p := by
  cases choice with
  | keep prio isCurrent awake alive =>
      exact fresh.elim alive fun other => absurd isCurrent other
  | pick prio isReady done =>
      exact whole.young p fun loose => loose.2.1 isReady
  | preempt prio isReady isCurrent awake alive =>
      exact whole.young p fun loose => loose.2.1 isReady

end Whole

/-! ### The two halves of a pass -/

theorem Retired.tally_eq {prev run : Option (Fin n)} {s s' : Sim n}
    (done : Retired s prev s') (p : Fin n) :
    tally s' run p = tally s run p := by
  cases done with
  | nobody => rfl
  | goesOn =>
      unfold Sim.rest
      split
      · rfl
      · rfl
  | exits => rfl

/-- Only a finished previous process exits. -/
theorem Retired.status_exit {prev : Option (Fin n)} {s s' : Sim n}
    (done : Retired s prev s') {p : Fin n}
    (exited : (s'.procs p).status = .exit) :
    (s.procs p).status = .exit ∨
      prev = some p ∧ (s.procs p).age = (s.procs p).lifespan := by
  cases done with
  | nobody => exact Or.inl exited
  | goesOn =>
      rw [rest_procs] at exited
      split at exited
      · simp at exited
      · exact Or.inl exited
  | @exits q finished =>
      rw [Sim.print_procs, setStatus_procs] at exited
      by_cases same : p = q
      · subst same
        exact Or.inr ⟨rfl, finished⟩
      · simp only [if_neg same] at exited
        exact Or.inl exited

/-- Nobody returns from the status `exit`, and a finished previous process gets
it. -/
theorem Retired.present {prev : Option (Fin n)} {s s' : Sim n}
    (done : Retired s prev s') {p : Fin n}
    (present : (s'.procs p).status ≠ .exit) :
    (s.procs p).status ≠ .exit ∧
      (prev = some p → (s.procs p).age ≠ (s.procs p).lifespan) := by
  cases done with
  | nobody => exact ⟨present, by simp⟩
  | @goesOn q going =>
      rw [rest_procs] at present
      refine ⟨fun exited => present ?_, fun isPrev => ?_⟩
      · have notRunning : ¬ (p = q ∧ (s.procs q).status = .running) := by
          rintro ⟨rfl, ran⟩
          simp [exited] at ran
        simp only [if_neg notRunning]
        exact exited
      · obtain rfl : q = p := Option.some.inj isPrev
        exact going
  | @exits q =>
      rw [Sim.print_procs, setStatus_procs] at present
      have other : p ≠ q := by
        intro same
        simp [same] at present
      simp only [if_neg other] at present
      exact ⟨present, fun isPrev => absurd (Option.some.inj isPrev).symm other⟩

/-- A policy never chooses a process that has exited. -/
theorem Chosen.present {live : Prop} {s s' : Sim n} {c : Fin n}
    (linked : Linked s (runner s))
    (current : ∀ c, s.current = some c → isBlocked s c ∨
      (s.procs c).status = .running)
    (choice : Chosen live s (some c) s') : (s.procs c).status ≠ .exit := by
  have queued (member : c ∈ s.readyqueue) : (s.procs c).status ≠ .exit := by
    rcases linked.queued c member with ready | running
    · simp [ready]
    · simp [running]
  cases choice with
  | keep prio isCurrent awake =>
      have running := (current c isCurrent).resolve_left awake
      simp [running]
  | pick prio isReady => exact queued isReady
  | preempt prio isReady => exact queued isReady

section Live

variable {guard : Sim n → Prop} {sched : Scheduler n}

/-- After the first half of a pass everybody who has not exited is in one
place, and the process that got the processor has work left, unless it has
exited: a policy without `live` may return a process that is freed right
after. -/
theorem Whole.dispatched {live : Prop} (contract : Contract live guard sched)
    {s s' : Sim n} (sound : Sound s) (whole : Whole s (runner s))
    (guarded : guard (forkOnSchedule s))
    (dispatchedEq : dispatch sched s = .ok s') :
    Whole s' s'.current ∧ ∀ c, s'.current = some c →
      ((s'.procs c).status ≠ .exit → unfinished s' c) ∧
        (live → (s'.procs c).status ≠ .exit) := by
  obtain ⟨next, s₁, _, choice, _, retired⟩ :=
    sound.dispatched_cases contract guarded dispatchedEq
  have forked := sound.forked
  have currentForked (c : Fin n) (isCurrent : (forkOnSchedule s).current = some c) :
      isBlocked (forkOnSchedule s) c ∨
        ((forkOnSchedule s).procs c).status = .running := by
    rw [forked.isBlocked_iff, forked.procs]
    exact sound.current c (forked.current ▸ isCurrent)
  have wholeForked : Whole (forkOnSchedule s) (runner (forkOnSchedule s)) := by
    rw [forked.runner]
    exact whole.forked forked
  obtain ⟨accounted, young⟩ := wholeForked.chosen choice
  have procs₁ (p : Fin n) : ∃ k, s₁.procs p = { s.procs p with prio := k } := by
    obtain ⟨k, eq⟩ := choice.procs p
    rw [forked.procs] at eq
    exact ⟨k, eq⟩
  have clock (p : Fin n) : SameClock (s.procs p) (s'.procs p) := by
    obtain ⟨status, eq⟩ := retired.procs p
    obtain ⟨k, eq₁⟩ := procs₁ p
    rw [eq]
    change SameClock _ { s₁.procs p with status := status }
    rw [eq₁]
    exact ⟨rfl, rfl⟩
  have aliveNow (p : Fin n) (aliveForked : unfinished (forkOnSchedule s) p) :
      unfinished s' p := by
    unfold unfinished at aliveForked ⊢
    rw [forked.procs] at aliveForked
    rwa [(clock p).1, (clock p).2]
  have places (p : Fin n) : tally s' next p = tally s₁ next p :=
    retired.tally_eq p
  have exitedBefore (p : Fin n) (exited : (s'.procs p).status = .exit) :
      (s.procs p).status = .exit ∨ (s.procs p).age = (s.procs p).lifespan := by
    obtain ⟨k, eq₁⟩ := procs₁ p
    have cases := retired.status_exit exited
    change (s₁.procs p).status = _ ∨
      _ ∧ (s₁.procs p).age = (s₁.procs p).lifespan at cases
    rw [eq₁] at cases
    exact cases.imp id And.right
  have isCurrent : s'.current = next := retired.current
  rw [isCurrent]
  refine ⟨⟨fun p present => ?_, fun p listed => ?_, fun p exited => ?_,
    fun p => ?_, fun p => ?_⟩, fun c isNext => ⟨fun present => ?_,
    fun alive exited => ?_⟩⟩
  · -- a finished previous process has exited, so a runner has work left
    obtain ⟨was, goingOn⟩ := retired.present present
    obtain ⟨k, eq₁⟩ := procs₁ p
    change (s₁.procs p).status ≠ _ at was
    change _ → (s₁.procs p).age ≠ (s₁.procs p).lifespan at goingOn
    rw [eq₁] at was goingOn
    rw [places]
    refine accounted p (by rw [forked.procs]; exact was) fun isRunner => ?_
    rw [forked.runner] at isRunner
    have bound := whole.bounded p
    have going := goingOn (runner_eq_some.mp isRunner).1
    unfold unfinished
    rw [forked.procs]
    exact Nat.lt_of_le_of_ne bound going
  · refine aliveNow p (young p fun loose => listed ?_)
    rw [detached_iff_tally] at loose ⊢
    rw [retired.tally_eq]
    exact loose
  · rw [(clock p).1, (clock p).2]
    rcases exitedBefore p exited with was | finished
    · exact whole.finished p was
    · exact finished
  · rw [(clock p).1, (clock p).2]; exact whole.bounded p
  · rw [(clock p).2]; exact whole.small p
  · subst isNext
    refine aliveNow c ?_
    by_cases again : (forkOnSchedule s).current = some c
    · -- returned once more, and not freed: then it was not finished
      obtain ⟨_, goingOn⟩ := retired.present present
      obtain ⟨k, eq₁⟩ := procs₁ c
      change _ → (s₁.procs c).age ≠ (s₁.procs c).lifespan at goingOn
      rw [eq₁] at goingOn
      unfold unfinished
      rw [forked.procs]
      exact Nat.lt_of_le_of_ne (whole.bounded c)
        (goingOn (forked.current.symm.trans again))
    · exact wholeForked.chosen_unfinished choice (.inr again)
  · subst isNext
    rcases exitedBefore c exited with was | finished
    · refine choice.present sound.linked_forked currentForked ?_
      rw [forked.procs]
      exact was
    · have work := wholeForked.chosen_unfinished choice (.inl alive)
      unfold unfinished at work
      rw [forked.procs] at work
      exact Nat.ne_of_lt work finished

/-- The process that got the processor has work left and is alive. -/
theorem Whole.dispatch (contract : Contract True guard sched) {s s' : Sim n}
    (sound : Sound s) (whole : Whole s (runner s))
    (guarded : guard (forkOnSchedule s))
    (dispatchedEq : dispatch sched s = .ok s') :
    Whole s' s'.current ∧ ∀ c, s'.current = some c →
      unfinished s' c ∧ (s'.procs c).status ≠ .exit := by
  obtain ⟨wholeMid, fit⟩ := whole.dispatched contract sound guarded dispatchedEq
  refine ⟨wholeMid, fun c isCurrent => ?_⟩
  have present := (fit c isCurrent).2 trivial
  exact ⟨(fit c isCurrent).1 present, present⟩

/-- What is carried through a tick of the chosen process so that nobody is
lost. -/
theorem Whole.carries {s : Sim n} {c : Fin n} (whole : Whole s (some c))
    (alive : unfinished s c) (present : (s.procs c).status ≠ .exit) :
    Carries sched False s c
      (fun _ _ t => Whole t (some c) ∧ unfinished t c)
      (fun _ t => Whole t none) (fun _ _ t => Whole t (some c)) where
  start := by
    refine ⟨whole.congr (fun _ => rfl) (fun _ => id) (fun p => ?_)
      fun p => ?_, ?_⟩
    · rw [setStatus_procs]
      by_cases same : p = c
      · subst same; simp [present]
      · simp only [if_neg same]
    · rw [setStatus_procs]; exact ⟨rfl, rfl⟩
    · unfold unfinished
      rw [setStatus_procs]
      exact alive
  skip := fun _ _ _ _ _ before _ => before
  grant := fun kept rs rest t inside t' busy before _ _ _ move => by
    obtain ⟨k, eq⟩ := move.procs_granted c
    refine ⟨((before.1.granted move).hold rs).print _, ?_⟩
    unfold unfinished
    rw [Sim.print_procs, hold_procs, eq]
    exact before.2
  refuse := fun kept rs rest t inside t' busy before _ _ _ move =>
    (before.1.refused before.2 (by simp [busy.running]) move).print _
  turn := fun stay t busy before _ => by
    have asked := before.1.setToAcquire (c := c) stay
    refine (asked.print (.ran c)).growOlder busy.detached ?_ ?_
    · unfold unfinished Sim.setToAcquire
      rw [Sim.print_procs, Sim.modify_self]
      exact before.2
    · simp [busy.running]
  owns := fun _ _ _ _ _ _ _ => False.elim
  keep := fun _ _ _ _ _ whole _ => whole
  drop := fun _ _ _ _ _ _ _ whole _ _ move => (whole.released move).print _

/-- Running the chosen process, or idling, loses nobody. -/
theorem Whole.execute {live : Prop} (contract : Contract live guard sched)
    {s s' : Sim n} (dispatched : Dispatched s) (whole : Whole s s.current)
    (fit : ∀ c, s.current = some c →
      unfinished s c ∧ (s.procs c).status ≠ .exit)
    (executedEq : execute sched s = .ok s') : Whole s' (runner s') := by
  cases isCurrent : s.current with
  | none =>
      obtain rfl := Except.ok.inj
        ((execute_of_idle sched isCurrent).symm.trans executedEq)
      rw [isCurrent] at whole
      rw [runner_of_idle isCurrent]
      exact (whole.print .idle).nextTick
  | some c =>
      obtain ⟨alive, present⟩ := fit c isCurrent
      rw [isCurrent] at whole
      obtain ⟨stay, t, ⟨rfl, refused, after⟩ | ⟨rfl, busy, inv⟩⟩ :=
        (whole.carries alive present).executed contract dispatched isCurrent
          executedEq
      · rw [refused.runner]
        exact (after.setToAcquire stay).nextTick
      · rw [busy.runner]
        exact (inv.setHolding stay).nextTick

end Live

/-! ### Whole runs -/

section Reached

variable {script : List ProcessBlock} {policy : Policy}

theorem load_whole (positive : PositiveLifespans script) :
    Whole (load script) (runner (load script)) where
  accounted := fun p _ => by
    have once : (List.finRange script.length).count p = 1 :=
      List.count_eq_one_of_mem (List.nodup_finRange _) (List.mem_finRange p)
    simp [tally, load, runner, once, occurrences]
  young := fun p _ => by
    have lives := positive _ (List.get_mem script p)
    unfold unfinished
    simp only [load, ProcessBlock.process]
    omega
  finished := fun p exited => by simp [load, ProcessBlock.process] at exited
  bounded := fun p => by simp [load, ProcessBlock.process]
  small := fun p => by
    simp only [load, ProcessBlock.process]
    exact (script.get p).lifespan.toNat_lt

/-- The states at the top of the passes of a status-aware policy are sound, and
nobody is lost in them. -/
theorem reached_whole (aware : policy ∈ statusAware)
    (positive : PositiveLifespans script) (known : KnownScript script) {k : Nat}
    {s : Sim script.length}
    (reached : doSimulation script policy.scheduler k = .ok (.again s)) :
    Sound s ∧ Whole s (runner s) := by
  have contract := Policy.contract (n := script.length) aware
  refine iterate_invariant (fun _ s => Sound s ∧ Whole s (runner s))
    ⟨load_sound known, load_whole positive⟩ ?_ reached
  rintro k s s' _ ⟨sound, whole⟩ ran
  obtain ⟨mid, dispatchedEq, _, executedEq⟩ := body_again ran
  obtain ⟨wholeMid, fit⟩ := whole.dispatch contract sound trivial dispatchedEq
  rcases sound.dispatch contract trivial with failed | ⟨_, eq, dispatched⟩
  · simp [dispatchedEq] at failed
  · obtain rfl := Except.ok.inj (dispatchedEq.symm.trans eq)
    exact ⟨sound.body contract trivial ran,
      wholeMid.execute contract dispatched fit executedEq⟩

/-- Right after the previous process was handled, every process is in exactly
one place: not yet forked, exited, given the processor, ready, or waiting. -/
theorem one_place_of_reached (policy : Policy)
    (aware : policy ∈ statusAware) (positive : PositiveLifespans script)
    (known : KnownScript script) {k : Nat} {s s' : Sim script.length}
    (reached : doSimulation script policy.scheduler k = .ok (.again s))
    (dispatchedEq : dispatch policy.scheduler s = .ok s')
    (p : Fin script.length) :
    s'.forkqueue.count p + (if (s'.procs p).status = .exit then 1 else 0) +
        (if s'.current = some p then 1 else 0) + s'.readyqueue.count p +
        ∑ r, (s'.waitqueue r).count p = 1 ∧
      (p ∈ s'.readyqueue → (s'.procs p).status = .ready) ∧
      (∀ r, p ∈ s'.waitqueue r → (s'.procs p).status = .blocked) := by
  have contract := Policy.contract (n := script.length) aware
  obtain ⟨sound, whole⟩ := reached_whole aware positive known reached
  obtain ⟨wholeMid, fit⟩ := whole.dispatch contract sound trivial dispatchedEq
  rcases sound.dispatch contract trivial with failed | ⟨_, eq, dispatched⟩
  · simp [dispatchedEq] at failed
  obtain rfl := Except.ok.inj (dispatchedEq.symm.trans eq)
  have linked := dispatched.linked
  refine ⟨?_, fun member => ?_, fun r member => linked.waiting p r member⟩
  · change _ + occurrences s'.waitqueue p = 1
    by_cases exited : (s'.procs p).status = .exit
    · have loose : s'.detached p := by
        refine ⟨fun member => ?_, fun member => ?_, fun r member => ?_⟩
        · simp [linked.forking p member] at exited
        · simpa [exited] using linked.queued p member
        · have asleep := linked.waiting p r member
          unfold isBlocked at asleep
          simp [asleep] at exited
      have notCurrent : s'.current ≠ some p :=
        fun isCurrent => (fit p isCurrent).2 exited
      have zero := detached_iff_tally.mp loose
      simp only [tally, reduceCtorEq, if_false] at zero
      rw [if_pos exited, if_neg notCurrent]
      omega
    · have one := wholeMid.accounted p exited
      unfold tally at one
      rw [if_neg exited]
      omega
  · exact (linked.queued p member).resolve_right (dispatched.resting p)

/-- Only a failed assertion can stop a run. -/
theorem fault_is_assertFailed (policy : Policy)
    (aware : policy ∈ statusAware) (positive : PositiveLifespans script)
    (known : KnownScript script) {k : Nat} {fault : Fault}
    (faulted : doSimulation script policy.scheduler k = .error fault) :
    fault = .assertFailed := by
  have contract := Policy.contract (n := script.length) aware
  obtain ⟨j, s, _, reached, failed⟩ := iterate_error faulted
  obtain ⟨sound, whole⟩ := reached_whole aware positive known reached
  rcases body_error failed with dispatchFailed |
    ⟨mid, dispatchedEq, _, executeFailed⟩
  · rcases sound.dispatch contract trivial with asserted | ⟨_, eq, _⟩
    · exact Except.error.inj (dispatchFailed.symm.trans asserted)
    · simp [dispatchFailed] at eq
  · obtain ⟨_, fit⟩ := whole.dispatch contract sound trivial dispatchedEq
    rcases sound.dispatch contract trivial with asserted | ⟨_, eq, dispatched⟩
    · simp [dispatchedEq] at asserted
    obtain rfl := Except.ok.inj (dispatchedEq.symm.trans eq)
    rcases dispatched.execute contract with ⟨_, ran, _⟩ | asserted |
      ⟨_, c, isCurrent, exited⟩
    · simp [executeFailed] at ran
    · exact Except.error.inj (executeFailed.symm.trans asserted)
    · exact absurd exited (fit c isCurrent).2

/-- No process is lost, duplicated or queued twice.  Nothing but a failed
assertion stops a run of a status-aware policy, and in every pass, right after
the previous process was handled, every process is in exactly one place: not
yet forked, exited, given the processor, ready, or waiting for one resource. -/
theorem process_in_exactly_one_place (script : List ProcessBlock)
    (policy : Policy) (aware : policy ∈ statusAware)
    (positive : PositiveLifespans script) (known : KnownScript script)
    (k : Nat) :
    (∀ fault, doSimulation script policy.scheduler k = .error fault →
      fault = .assertFailed) ∧
    ∀ s s', doSimulation script policy.scheduler k = .ok (.again s) →
      dispatch policy.scheduler s = .ok s' →
      ∀ p : Fin script.length,
        s'.forkqueue.count p + (if (s'.procs p).status = .exit then 1 else 0) +
            (if s'.current = some p then 1 else 0) + s'.readyqueue.count p +
            ∑ r, (s'.waitqueue r).count p = 1 ∧
          (p ∈ s'.readyqueue → (s'.procs p).status = .ready) ∧
          (∀ r, p ∈ s'.waitqueue r → (s'.procs p).status = .blocked) :=
  ⟨fun _ faulted => fault_is_assertFailed policy aware positive known faulted,
    fun _ _ reached dispatchedEq p =>
      one_place_of_reached policy aware positive known reached dispatchedEq p⟩

/-- The script `testcases/resources-basic`. -/
def resourcesBasic : List ProcessBlock :=
  [{ pid := 1, start := 0, lifespan := 10
     acquires := [⟨1, 2, 2⟩, ⟨1, 6, 2⟩] },
   { pid := 2, start := 0, lifespan := 10
     acquires := [⟨1, 2, 2⟩, ⟨1, 4, 2⟩, ⟨1, 6, 2⟩] },
   { pid := 3, start := 3, lifespan := 8, prio := 10
     acquires := [⟨1, 0, 2⟩, ⟨1, 4, 2⟩] }]

/-- After fourteen passes under the priority policy the second process waits
for the resource of the first one, and the third one has exited. -/
theorem process_in_exactly_one_place_resourcesBasic :
    ∃ s s', doSimulation resourcesBasic prioScheduler 14 = .ok (.again s) ∧
      dispatch prioScheduler s = .ok s' ∧
      ∀ p : Fin resourcesBasic.length,
        s'.forkqueue.count p + (if (s'.procs p).status = .exit then 1 else 0) +
            (if s'.current = some p then 1 else 0) + s'.readyqueue.count p +
            ∑ r, (s'.waitqueue r).count p = 1 ∧
          (p ∈ s'.readyqueue → (s'.procs p).status = .ready) ∧
          (∀ r, p ∈ s'.waitqueue r → (s'.procs p).status = .blocked) := by
  obtain ⟨s, reached, isOk⟩ := exists_of_againWith
    (fun s => (dispatch prioScheduler s).isOk = true)
    (doSimulation resourcesBasic prioScheduler 14) (by decide +kernel)
  obtain ⟨s', dispatchedEq⟩ := exists_of_isOk isOk
  exact ⟨s, s', reached, dispatchedEq,
    (process_in_exactly_one_place resourcesBasic .prio (by decide)
      (by decide) (by decide) 14).2 s s' reached dispatchedEq⟩

end Reached

end OsPAs.Sched
