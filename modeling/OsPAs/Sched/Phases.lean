/-
Module: OsPAs.Sched.Phases
Purpose: The phases of one pass through the main loop, each with the inversion
  or rule that later proofs use in place of its definition.
Trusted boundary: none
Main exports: forkOnSchedule_fields, Retired, retirePrev_cases,
  dispatch_eq, body_again, body_leave, body_error, acquireLoop_rule,
  releaseLoop_rule
-/
import OsPAs.Sched.Contract
import Mathlib.Data.List.Nodup

namespace OsPAs.Sched

open Lib

variable {n : Nat}

/-! ### Forking -/

/-- `p->__starts_at <= ticks`. -/
def due (s : Sim n) (p : Fin n) : Prop := (s.procs p).startsAt ≤ s.ticks

instance (s : Sim n) (p : Fin n) : Decidable (due s p) :=
  inferInstanceAs (Decidable (_ ≤ _))

/-- What `__fork_on_schedule` leaves behind, up to what it prints. -/
structure Forked (s s' : Sim n) (before todo : List (Fin n)) : Prop where
  procs : s'.procs = s.procs
  current : s'.current = s.current
  ticks : s'.ticks = s.ticks
  owner : s'.owner = s.owner
  waitqueue : s'.waitqueue = s.waitqueue
  forkqueue : s'.forkqueue = before ++ todo.filter fun p => ¬ due s p
  readyqueue : s'.readyqueue = s.readyqueue ++ todo.filter fun p => due s p

theorem setStatus_eq_self {s : Sim n} {p : Fin n} {status : ProcessStatus}
    (same : (s.procs p).status = status) : s.setStatus p status = s := by
  have unchanged :
      Function.update s.procs p { s.procs p with status := status } =
        s.procs := by
    rw [← same]
    exact Function.update_eq_self p s.procs
  simp only [Sim.setStatus, Sim.modify, unchanged]

private theorem foldl_forkDue (todo before : List (Fin n)) (s : Sim n)
    (queue : s.forkqueue = before ++ todo) (nodup : (before ++ todo).Nodup)
    (fresh : ∀ p ∈ todo, (s.procs p).status = .ready) :
    Forked s (todo.foldl forkDue s) before todo := by
  induction todo generalizing before s with
  | nil => exact ⟨rfl, rfl, rfl, rfl, rfl, by simpa using queue, by simp⟩
  | cons p todo inductionHypothesis =>
      rw [List.foldl_cons]
      by_cases isDue : due s p
      · have notBefore : p ∉ before := by
          intro member
          exact (List.nodup_append.mp nodup).2.2 p member p
            List.mem_cons_self rfl
        have erased : s.forkqueue.erase p = before ++ todo := by
          rw [queue, List.erase_append_right _ notBefore, List.erase_cons_head]
        -- the process is on `__forkqueue` with status ready already
        set s₁ : Sim n :=
          { s with
            forkqueue := s.forkqueue.erase p
            readyqueue := s.readyqueue ++ [p] } with s₁Eq
        have moved : forkDue s p = s₁.print (.forked p) := by
          have started : (s.procs p).startsAt ≤ s.ticks := isDue
          unfold forkDue
          rw [if_pos started,
            setStatus_eq_self (s := s₁) (fresh p List.mem_cons_self)]
        have step := inductionHypothesis before (s₁.print (.forked p)) erased
          (nodup.sublist
            (List.Sublist.append_left (List.sublist_cons_self p todo) before))
          fun q member => fresh q (List.mem_cons_of_mem p member)
        rw [moved]
        refine ⟨step.procs, step.current, step.ticks, step.owner,
          step.waitqueue, ?_, ?_⟩
        · rw [step.forkqueue,
            List.filter_cons_of_neg (by simpa using isDue)]
          rfl
        · rw [step.readyqueue, List.filter_cons_of_pos (by simpa using isDue)]
          exact List.append_assoc s.readyqueue [p] _
      · have stays : forkDue s p = s := if_neg isDue
        have step := inductionHypothesis (before ++ [p]) s
          (by rw [queue, List.append_assoc]; rfl)
          (by rw [List.append_assoc]; exact nodup)
          fun q member => fresh q (List.mem_cons_of_mem p member)
        rw [stays]
        refine ⟨step.procs, step.current, step.ticks, step.owner,
          step.waitqueue, ?_, ?_⟩
        · rw [step.forkqueue, List.append_assoc,
            List.filter_cons_of_pos (by simpa using isDue)]
          rfl
        · rw [step.readyqueue, List.filter_cons_of_neg (by simpa using isDue)]

/-- `__fork_on_schedule` moves exactly the due processes, in order, from
`__forkqueue` to the tail of the ready queue. -/
theorem forkOnSchedule_fields {s : Sim n} (nodup : s.forkqueue.Nodup)
    (fresh : ∀ p ∈ s.forkqueue, (s.procs p).status = .ready) :
    Forked s (forkOnSchedule s) [] s.forkqueue :=
  foldl_forkDue s.forkqueue [] s rfl nodup fresh

/-! ### Handling the previous process -/

/-- Status change of a process that was running and is not finished. -/
def Sim.rest (s : Sim n) (p : Fin n) : Sim n :=
  if (s.procs p).status = .running then s.setStatus p .ready else s

/-- Outcome of handling the process of the previous tick. -/
inductive Retired (s : Sim n) : Option (Fin n) → Sim n → Prop where
  | nobody : Retired s none s
  | goesOn {p : Fin n} (alive : (s.procs p).age ≠ (s.procs p).lifespan) :
      Retired s (some p) (s.rest p)
  | exits {p : Fin n} (finished : (s.procs p).age = (s.procs p).lifespan)
      (loose : s.detached p) (holdsNone : (s.procs p).resourcesHolding = [])
      (wantsNone : (s.procs p).resourcesToAcquire = []) :
      Retired s (some p) ((s.setStatus p .exit).print (.exited p))

theorem setStatus_setStatus (s : Sim n) (p : Fin n)
    (first second : ProcessStatus) :
    (s.setStatus p first).setStatus p second = s.setStatus p second := by
  simp [Sim.setStatus, Sim.modify]

/-- The assertions of `__exit_process`. -/
def MayExit (s : Sim n) (p : Fin n) : Prop :=
  s.detached p ∧ (s.procs p).resourcesHolding = [] ∧
    (s.procs p).resourcesToAcquire = []

theorem exitProcess_of_mayExit {s : Sim n} {p : Fin n} (may : MayExit s p) :
    exitProcess p s = .ok (s.print (.exited p)) := by
  obtain ⟨loose, holdsNone, wantsNone⟩ := may
  simp [exitProcess, cAssert_of_true loose, cAssert_of_true holdsNone,
    cAssert_of_true wantsNone, bind, Except.bind, pure, Except.pure]

theorem exitProcess_of_not_mayExit {s : Sim n} {p : Fin n}
    (mayNot : ¬ MayExit s p) : exitProcess p s = .error .assertFailed := by
  unfold exitProcess
  by_cases loose : s.detached p
  · by_cases holdsNone : (s.procs p).resourcesHolding = []
    · have wants : ¬ (s.procs p).resourcesToAcquire = [] :=
        fun wantsNone => mayNot ⟨loose, holdsNone, wantsNone⟩
      simp only [cAssert_of_true loose, cAssert_of_true holdsNone,
        cAssert_of_false wants, bind, Except.bind]
    · simp only [cAssert_of_true loose, cAssert_of_false holdsNone, bind,
        Except.bind]
  · simp only [cAssert_of_false loose, bind, Except.bind]

theorem retirePrev_eq (s : Sim n) (p : Fin n) :
    retirePrev (some p) s =
      if (s.procs p).age = (s.procs p).lifespan then
        exitProcess p (s.setStatus p .exit)
      else .ok (s.rest p) := by
  unfold retirePrev Sim.rest
  by_cases ran : (s.procs p).status = .running
  · have sameAge : ((s.setStatus p .ready).procs p).age = (s.procs p).age := by
      simp [Sim.setStatus]
    have sameLifespan :
        ((s.setStatus p .ready).procs p).lifespan = (s.procs p).lifespan := by
      simp [Sim.setStatus]
    simp only [if_pos ran, sameAge, sameLifespan, setStatus_setStatus]
  · simp only [if_neg ran]

theorem mayExit_setStatus {s : Sim n} {p : Fin n} :
    MayExit (s.setStatus p .exit) p ↔ MayExit s p := by
  simp [MayExit, Sim.setStatus, Sim.detached]

/-- Handling the previous process fails an assertion, or retires it. -/
theorem retirePrev_cases (s : Sim n) (prev : Option (Fin n)) :
    (∃ s', retirePrev prev s = .ok s' ∧ Retired s prev s') ∨
      retirePrev prev s = .error .assertFailed ∧
        ∃ p, prev = some p ∧ (s.procs p).age = (s.procs p).lifespan ∧
          ¬ MayExit s p := by
  cases prev with
  | none => exact Or.inl ⟨s, rfl, .nobody⟩
  | some p =>
      rw [retirePrev_eq]
      by_cases finished : (s.procs p).age = (s.procs p).lifespan
      · rw [if_pos finished]
        by_cases may : MayExit s p
        · exact Or.inl ⟨_, exitProcess_of_mayExit (mayExit_setStatus.mpr may),
            .exits finished may.1 may.2.1 may.2.2⟩
        · exact Or.inr
            ⟨exitProcess_of_not_mayExit (mayExit_setStatus.not.mpr may),
              p, rfl, finished, may⟩
      · rw [if_neg finished]
        exact Or.inl ⟨_, rfl, .goesOn finished⟩

/-! ### The dispatching half of the loop body -/

theorem forkDue_current (s : Sim n) (p : Fin n) :
    (forkDue s p).current = s.current := by
  unfold forkDue
  split
  · rfl
  · rfl

theorem forkOnSchedule_current (s : Sim n) :
    (forkOnSchedule s).current = s.current := by
  unfold forkOnSchedule
  generalize s.forkqueue = queue
  induction queue generalizing s with
  | nil => rfl
  | cons p queue inductionHypothesis =>
      rw [List.foldl_cons, inductionHypothesis, forkDue_current]

theorem dispatch_eq {sched : Scheduler n} {s s' : Sim n}
    {next : Option (Fin n)}
    (scheduled : sched.schedule (forkOnSchedule s) = .ok (next, s')) :
    dispatch sched s = retirePrev s.current { s' with current := next } := by
  simp only [dispatch, scheduled, forkOnSchedule_current, bind, Except.bind]

/-! ### The loop body as a whole -/

/-- A pass that reaches the bottom of the loop body. -/
theorem body_of_quits {sched : Scheduler n} {s mid : Sim n}
    (dispatchedEq : dispatch sched s = .ok mid) (ended : quits mid) :
    body sched s = .ok (.leave mid) := by
  simp [body, dispatchedEq, ended, bind, Except.bind, pure, Except.pure]

theorem body_of_executed {sched : Scheduler n} {s mid s' : Sim n}
    (dispatchedEq : dispatch sched s = .ok mid) (goesOn : ¬ quits mid)
    (executedEq : execute sched mid = .ok s') :
    body sched s = .ok (.again s') := by
  simp [body, dispatchedEq, goesOn, executedEq, bind, Except.bind, pure,
    Except.pure]

theorem body_again {sched : Scheduler n} {s s' : Sim n}
    (ran : body sched s = .ok (.again s')) :
    ∃ mid, dispatch sched s = .ok mid ∧ ¬ quits mid ∧
      execute sched mid = .ok s' := by
  cases dispatched : dispatch sched s with
  | error fault => simp [body, dispatched, bind, Except.bind] at ran
  | ok mid =>
      by_cases ended : quits mid
      · simp [body, dispatched, ended, bind, Except.bind, pure, Except.pure]
          at ran
      · cases executed : execute sched mid with
        | error fault =>
            simp [body, dispatched, ended, executed, bind, Except.bind] at ran
        | ok s₂ =>
            obtain rfl : s₂ = s' := by
              simpa [body, dispatched, ended, executed, bind, Except.bind, pure,
                Except.pure] using ran
            exact ⟨mid, rfl, ended, executed⟩

/-- A pass that breaks out of the loop. -/
theorem body_leave {sched : Scheduler n} {s s' : Sim n}
    (left : body sched s = .ok (.leave s')) :
    dispatch sched s = .ok s' ∧ quits s' := by
  cases dispatched : dispatch sched s with
  | error fault => simp [body, dispatched, bind, Except.bind] at left
  | ok mid =>
      by_cases ended : quits mid
      · obtain rfl : mid = s' := by
          simpa [body, dispatched, ended, bind, Except.bind, pure, Except.pure]
            using left
        exact ⟨rfl, ended⟩
      · cases executed : execute sched mid with
        | error fault =>
            simp [body, dispatched, ended, executed, bind, Except.bind] at left
        | ok s₂ =>
            simp [body, dispatched, ended, executed, bind, Except.bind, pure,
              Except.pure] at left

/-- A pass that faults does so in one of its two halves. -/
theorem body_error {sched : Scheduler n} {s : Sim n} {fault : Fault}
    (failed : body sched s = .error fault) :
    dispatch sched s = .error fault ∨
      ∃ mid, dispatch sched s = .ok mid ∧ ¬ quits mid ∧
        execute sched mid = .error fault := by
  cases dispatched : dispatch sched s with
  | error other =>
      obtain rfl : other = fault := by
        simpa [body, dispatched, bind, Except.bind] using failed
      exact Or.inl rfl
  | ok mid =>
      by_cases ended : quits mid
      · simp [body, dispatched, ended, bind, Except.bind, pure, Except.pure]
          at failed
      · cases executed : execute sched mid with
        | error other =>
            obtain rfl : other = fault := by
              simpa [body, dispatched, ended, executed, bind, Except.bind]
                using failed
            exact Or.inr ⟨mid, rfl, ended, executed⟩
        | ok s₂ =>
            simp [body, dispatched, ended, executed, bind, Except.bind, pure,
              Except.pure] at failed

/-! ### Rules for the two resource loops -/

/-- Link the entry `rs` into `__resources_holding`. -/
def Sim.hold (s : Sim n) (c : Fin n) (rs : ResourceSchedule) : Sim n :=
  s.modify c fun p => { p with resourcesHolding := p.resourcesHolding ++ [rs] }

/-- An entry after `--rs->duration`. -/
def ResourceSchedule.countDown (rs : ResourceSchedule) : ResourceSchedule :=
  { rs with duration := subUInt rs.duration 1 }

@[simp] theorem countDown_resourceId (rs : ResourceSchedule) :
    rs.countDown.resourceId = rs.resourceId := rfl
@[simp] theorem countDown_atAge (rs : ResourceSchedule) :
    rs.countDown.atAge = rs.atAge := rfl
@[simp] theorem countDown_duration (rs : ResourceSchedule) :
    rs.countDown.duration = subUInt rs.duration 1 := rfl

section Rules

variable {live : Prop} {guard : Sim n → Prop} {sched : Scheduler n} {c : Fin n}

/-- The entry asked for and the state at each call of the acquire callback
that `__run_current_acquire` makes for the entries still to visit. -/
def acquireCalls (sched : Scheduler n) (c : Fin n) :
    List ResourceSchedule → Sim n → List (ResourceSchedule × Sim n)
  | [], _ => []
  | rs :: rest, s =>
      if rs.atAge = (s.procs c).age then
        (rs, s) ::
          match sched.acquire c rs.resourceId s with
          | .ok (true, s) =>
              acquireCalls sched c rest
                ((s.hold c rs).print (.acquired c rs.resourceId))
          | _ => []
      else acquireCalls sched c rest s

/-- Rule for `__run_current_acquire`.  `Before kept todo` holds while the
entries `todo` are still to visit and `kept` were passed over; `After` holds
once a request was refused.  The obligations may use that the policy is called
in one of the states `calls`. -/
theorem acquireLoop_rule (contract : Contract live guard sched)
    (calls : List (ResourceSchedule × Sim n))
    (Before : List ResourceSchedule → List ResourceSchedule → Sim n → Prop)
    (After : List ResourceSchedule → Sim n → Prop)
    (prepared : ∀ kept rs rest s, Before kept (rs :: rest) s →
      rs.atAge = (s.procs c).age →
      s.detached c ∧ rs.resourceId < nrResources)
    (skip : ∀ kept rs rest s, Before kept (rs :: rest) s →
      rs.atAge ≠ (s.procs c).age → Before (kept ++ [rs]) rest s)
    (grant : ∀ kept rs rest s inside s', Before kept (rs :: rest) s →
      rs.atAge = (s.procs c).age → (rs, s) ∈ calls →
      sched.acquire c rs.resourceId s = .ok (true, s') →
      Requested s c ⟨rs.resourceId, inside⟩ true s' →
      Before kept rest ((s'.hold c rs).print (.acquired c rs.resourceId)))
    (refuse : ∀ kept rs rest s inside s', Before kept (rs :: rest) s →
      rs.atAge = (s.procs c).age → (rs, s) ∈ calls →
      sched.acquire c rs.resourceId s = .ok (false, s') →
      Requested s c ⟨rs.resourceId, inside⟩ false s' →
      After (kept ++ rs :: rest) (s'.print (.blocked c rs.resourceId)))
    (todo : List ResourceSchedule) :
    ∀ kept s, Before kept todo s → acquireCalls sched c todo s ⊆ calls →
      ∃ granted stay s',
        acquireLoop sched c todo s = .ok (granted, stay, s') ∧
        (granted = true → Before (kept ++ stay) [] s') ∧
        (granted = false → After (kept ++ stay) s') := by
  induction todo with
  | nil =>
      intro kept s before _
      exact ⟨true, [], s, rfl, by simpa using before, by simp⟩
  | cons rs rest inductionHypothesis =>
      intro kept s before within
      by_cases now : rs.atAge = (s.procs c).age
      · obtain ⟨loose, inside⟩ := prepared kept rs rest s before now
        obtain ⟨granted, s₁, acquired, requested⟩ :=
          contract.acquire s c rs.resourceId inside loose
        rw [acquireCalls, if_pos now] at within
        have called := within List.mem_cons_self
        cases granted with
        | true =>
            simp only [acquired] at within
            obtain ⟨granted', stay, s', ran, onGranted, onRefused⟩ :=
              inductionHypothesis kept _
                (grant kept rs rest s inside s₁ before now called acquired
                  requested)
                (List.subset_of_cons_subset within)
            refine ⟨granted', stay, s', ?_, onGranted, onRefused⟩
            rw [acquireLoop, if_pos now]
            simp only [acquired, bind, Except.bind, if_true]
            exact ran
        | false =>
            refine ⟨false, rs :: rest, _, ?_, by simp, fun _ =>
              refuse kept rs rest s inside s₁ before now called acquired
                requested⟩
            rw [acquireLoop, if_pos now]
            simp only [acquired, bind, Except.bind, pure, Except.pure]
            rfl
      · rw [acquireCalls, if_neg now] at within
        obtain ⟨granted, stay, s', ran, onGranted, onRefused⟩ :=
          inductionHypothesis (kept ++ [rs]) s
            (skip kept rs rest s before now) within
        refine ⟨granted, rs :: stay, s', ?_, ?_, ?_⟩
        · rw [acquireLoop, if_neg now]
          simp only [ran, bind, Except.bind, pure, Except.pure]
        · intro wasGranted
          simpa using onGranted wasGranted
        · intro wasRefused
          simpa using onRefused wasRefused

/-- What is carried through the loop of `__run_current_acquire` holds at each
call of the acquire callback. -/
theorem acquireCalls_rule (contract : Contract live guard sched)
    (calls : List (ResourceSchedule × Sim n))
    (Before : List ResourceSchedule → List ResourceSchedule → Sim n → Prop)
    (prepared : ∀ kept rs rest s, Before kept (rs :: rest) s →
      rs.atAge = (s.procs c).age →
      s.detached c ∧ rs.resourceId < nrResources)
    (skip : ∀ kept rs rest s, Before kept (rs :: rest) s →
      rs.atAge ≠ (s.procs c).age → Before (kept ++ [rs]) rest s)
    (grant : ∀ kept rs rest s inside s', Before kept (rs :: rest) s →
      rs.atAge = (s.procs c).age → (rs, s) ∈ calls →
      sched.acquire c rs.resourceId s = .ok (true, s') →
      Requested s c ⟨rs.resourceId, inside⟩ true s' →
      Before kept rest ((s'.hold c rs).print (.acquired c rs.resourceId)))
    (todo : List ResourceSchedule) :
    ∀ kept s, Before kept todo s → acquireCalls sched c todo s ⊆ calls →
      ∀ rs t, (rs, t) ∈ acquireCalls sched c todo s →
        ∃ kept rest, Before kept (rs :: rest) t ∧
          rs.atAge = (t.procs c).age := by
  induction todo with
  | nil =>
      intro kept s before within rs t called
      simp [acquireCalls] at called
  | cons first rest inductionHypothesis =>
      intro kept s before within rs t called
      by_cases now : first.atAge = (s.procs c).age
      · obtain ⟨loose, inside⟩ := prepared kept first rest s before now
        obtain ⟨granted, s₁, acquired, requested⟩ :=
          contract.acquire s c first.resourceId inside loose
        rw [acquireCalls, if_pos now] at within called
        rcases List.mem_cons.mp called with isFirst | called
        · obtain ⟨rfl, rfl⟩ := Prod.mk.inj isFirst
          exact ⟨kept, rest, before, now⟩
        · cases granted with
          | true =>
              simp only [acquired] at within called
              exact inductionHypothesis kept _
                (grant kept first rest s inside s₁ before now
                  (within List.mem_cons_self) acquired requested)
                (List.subset_of_cons_subset within) rs t called
          | false => simp [acquired] at called
      · rw [acquireCalls, if_neg now] at within called
        exact inductionHypothesis (kept ++ [first]) s
          (skip kept first rest s before now) within rs t called

/-- Rule for `__run_current_release`.  With `strict` the assertions in the
release callback are known to hold, without it they may end the run. -/
theorem releaseLoop_rule (contract : Contract live guard sched) (strict : Prop)
    (Inv : List ResourceSchedule → List ResourceSchedule → Sim n → Prop)
    (prepared : ∀ kept rs rest s, Inv kept (rs :: rest) s →
      subUInt rs.duration 1 = 0 →
      ∃ inside : rs.resourceId < nrResources,
        WaitersLoose s ⟨rs.resourceId, inside⟩ ∧
        (strict → s.owner ⟨rs.resourceId, inside⟩ = some c ∧
          ∀ waiter ∈ s.waitqueue ⟨rs.resourceId, inside⟩, isBlocked s waiter))
    (keep : ∀ kept rs rest s, Inv kept (rs :: rest) s →
      subUInt rs.duration 1 ≠ 0 → Inv (kept ++ [rs.countDown]) rest s)
    (drop : ∀ kept rs rest s inside s', Inv kept (rs :: rest) s →
      subUInt rs.duration 1 = 0 →
      sched.release c rs.resourceId s = .ok s' →
      Released s c ⟨rs.resourceId, inside⟩ s' →
      Inv kept rest (s'.print (.released c rs.resourceId)))
    (todo : List ResourceSchedule) :
    ∀ kept s, Inv kept todo s →
      (¬ strict ∧ releaseLoop sched c todo s = .error .assertFailed) ∨
      ∃ stay s', releaseLoop sched c todo s = .ok (stay, s') ∧
        Inv (kept ++ stay) [] s' := by
  induction todo with
  | nil =>
      intro kept s inv
      exact Or.inr ⟨[], s, rfl, by simpa using inv⟩
  | cons rs rest inductionHypothesis =>
      intro kept s inv
      by_cases ended : subUInt rs.duration 1 = 0
      · obtain ⟨inside, loose, owned⟩ := prepared kept rs rest s inv ended
        have result :
            (¬ strict ∧ sched.release c rs.resourceId s =
              .error .assertFailed) ∨
            ∃ s₁, sched.release c rs.resourceId s = .ok s₁ ∧
              Released s c ⟨rs.resourceId, inside⟩ s₁ := by
          by_cases isStrict : strict
          · exact Or.inr (contract.releaseOwned s c rs.resourceId inside loose
              (owned isStrict).1 (owned isStrict).2)
          · exact (contract.release s c rs.resourceId inside loose).imp
              (fun failed => ⟨isStrict, failed⟩) id
        rcases result with ⟨lax, failed⟩ | ⟨s₁, released, move⟩
        · refine Or.inl ⟨lax, ?_⟩
          rw [releaseLoop, if_neg (not_not.mpr ended)]
          simp only [failed, bind, Except.bind]
        · have unfoldOnce : releaseLoop sched c (rs :: rest) s =
              releaseLoop sched c rest
                (s₁.print (.released c rs.resourceId)) := by
            rw [releaseLoop, if_neg (not_not.mpr ended)]
            simp only [released, bind, Except.bind]
          rw [unfoldOnce]
          exact inductionHypothesis kept _
            (drop kept rs rest s inside s₁ inv ended released move)
      · rcases inductionHypothesis (kept ++ [rs.countDown]) s
          (keep kept rs rest s inv ended) with ⟨lax, failed⟩ | ⟨stay, s', ran, inv'⟩
        · refine Or.inl ⟨lax, ?_⟩
          rw [releaseLoop, if_pos ended]
          simp only [failed, bind, Except.bind]
        · refine Or.inr ⟨rs.countDown :: stay, s', ?_, by simpa using inv'⟩
          rw [releaseLoop, if_pos ended]
          simp only [ran, bind, Except.bind, pure, Except.pure]
          rfl

theorem runCurrentAcquire_of_loop {s s' : Sim n} {granted : Bool}
    {stay : List ResourceSchedule}
    (ran : acquireLoop sched c (s.procs c).resourcesToAcquire s =
      .ok (granted, stay, s')) :
    runCurrentAcquire sched c s = .ok (granted, s'.setToAcquire c stay) := by
  simp only [runCurrentAcquire, ran, bind, Except.bind, pure, Except.pure]

theorem runCurrentRelease_of_loop {s s' : Sim n}
    {stay : List ResourceSchedule}
    (ran : releaseLoop sched c (s.procs c).resourcesHolding s =
      .ok (stay, s')) :
    runCurrentRelease sched c s = .ok (s'.setHolding c stay) := by
  simp only [runCurrentRelease, ran, bind, Except.bind, pure, Except.pure]

theorem runCurrentRelease_of_loop_error {s : Sim n} {fault : Fault}
    (failed : releaseLoop sched c (s.procs c).resourcesHolding s =
      .error fault) :
    runCurrentRelease sched c s = .error fault := by
  simp only [runCurrentRelease, failed, bind, Except.bind]

end Rules

end OsPAs.Sched
