/-
Module: OsPAs.Sched.MemoryRuns
Purpose: One pass of the main loop in memory does what it does on the lists of
  `Sim`, if the callbacks of the scheduler do.
Trusted boundary: none
Main exports: Stands, Settles, Settles.forks, Settles.retiresPrev,
  Settles.dispatches, Settles.acquires, Settles.releases, Settles.executes, AtTop,
  body_refines
-/
import OsPAs.Sched.Phases
import OsPAs.Sched.Refinement

namespace OsPAs.Sched

open Lib

variable {n : Nat}

/-! ### Between two callbacks -/

/-- The memory stands for the state: what was freed has exited, whoever owns a
resource holds an entry for it, and no loop over entries runs out of fuel. -/
structure Stands (fuel : Nat) (layout : Layout n) (m : Memory n) (s : Sim n) :
    Prop where
  represents : Represents layout m s
  ended : ∀ p, layout.freed p = true ↔ (s.procs p).status = .exit
  backed : ∀ r p, s.owner r = some p →
    ∃ entry ∈ layout.holds p, entry.2.resourceId = r.val
  short : ∀ p, (layout.wants p).length + (layout.holds p).length < fuel

/-- The entries of `p` that are still to be acquired are those in memory. -/
def WantsListed (layout : Layout n) (s : Sim n) (p : Fin n) : Prop :=
  (s.procs p).resourcesToAcquire = (layout.wants p).map Prod.snd

/-- The entries that `p` holds are those in memory. -/
def HoldsListed (layout : Layout n) (s : Sim n) (p : Fin n) : Prop :=
  (s.procs p).resourcesHolding = (layout.holds p).map Prod.snd

/-- At the top of a pass, and before the chosen process runs. -/
structure Settles (fuel : Nat) (layout : Layout n) (m : Memory n) (s : Sim n) :
    Prop extends Stands fuel layout m s where
  wants : ∀ p, WantsListed layout s p
  holds : ∀ p, HoldsListed layout s p

section Framework

variable {fuel : Nat} {layout : Layout n} {m m' : Memory n} {s s' t : Sim n}
  {c p : Fin n} {owner : Fin nrResources → Option (Fin n)}
  {inMemory : InMemory.Scheduler n} {sched : Scheduler n}

theorem Stands.alive (stands : Stands fuel layout m s)
    (notEnded : (s.procs p).status ≠ .exit) : layout.freed p = false := by
  cases freed : layout.freed p with
  | true => exact absurd ((stands.ended p).mp freed) notEnded
  | false => rfl

theorem Stands.notEnded (stands : Stands fuel layout m s)
    (alive : layout.freed p = false) : (s.procs p).status ≠ .exit := by
  intro ended
  rw [(stands.ended p).mpr ended] at alive
  exact absurd alive (by decide)

/-- Without a change of the owners. -/
theorem Stands.step (stands : Stands fuel layout m s)
    (represents : Represents layout m' s')
    (ended : ∀ p, (s'.procs p).status = .exit ↔ (s.procs p).status = .exit)
    (ownerEq : s'.owner = s.owner) : Stands fuel layout m' s' where
  represents := represents
  ended p := (stands.ended p).trans (ended p).symm
  backed r p owns := stands.backed r p (by rwa [ownerEq] at owns)
  short := stands.short

theorem Settles.step (settles : Settles fuel layout m s)
    (represents : Represents layout m' s')
    (ended : ∀ p, (s'.procs p).status = .exit ↔ (s.procs p).status = .exit)
    (ownerEq : s'.owner = s.owner)
    (same : ∀ p, (s'.procs p).resourcesToAcquire =
        (s.procs p).resourcesToAcquire ∧
      (s'.procs p).resourcesHolding = (s.procs p).resourcesHolding) :
    Settles fuel layout m' s' where
  toStands := settles.toStands.step represents ended ownerEq
  wants p := (same p).1.trans (settles.wants p)
  holds p := (same p).2.trans (settles.holds p)

theorem Settles.kept (settles : Settles fuel layout m s)
    (kept : Kept layout s s.owner m' s') : Settles fuel layout m' s' :=
  settles.step kept.represents kept.ended kept.owner
    fun p => ⟨kept.wants p, kept.holds p⟩

/-- An assignment to fields other than the entries, by which nobody exits. -/
theorem Settles.modify (settles : Settles fuel layout m s)
    {change : Process → Process}
    (represents : Represents layout m' (s.modify p change))
    (notEnded : (s.procs p).status ≠ .exit)
    (stays : (change (s.procs p)).status ≠ .exit)
    (wants : (change (s.procs p)).resourcesToAcquire =
      (s.procs p).resourcesToAcquire)
    (holds : (change (s.procs p)).resourcesHolding =
      (s.procs p).resourcesHolding) :
    Settles fuel layout m' (s.modify p change) := by
  refine settles.step represents (fun q => ?_) rfl fun q => ?_
  · rw [Sim.modify_procs]
    split
    · rename_i isP
      subst isP
      exact iff_of_false stays notEnded
    · rfl
  · rw [Sim.modify_procs]
    split
    · rename_i isP
      subst isP
      exact ⟨wants, holds⟩
    · exact ⟨rfl, rfl⟩

theorem Settles.setStatus (settles : Settles fuel layout m s)
    (alive : layout.freed p = false) (status : ProcessStatus)
    (stays : status ≠ .exit) :
    ∃ m', m.setStatus p status = .ok m' ∧
      Settles fuel layout m' (s.setStatus p status) := by
  obtain ⟨m', done, represents⟩ := settles.represents.setStatus alive status
  exact ⟨m', done, settles.modify represents (settles.notEnded alive) stays rfl
    rfl⟩

theorem Settles.print (settles : Settles fuel layout m s) (event : Event n) :
    Settles fuel layout (m.print event) (s.print event) :=
  settles.step (settles.represents.print event) (fun _ => Iff.rfl) rfl
    fun _ => ⟨rfl, rfl⟩

theorem Settles.ticksOn (settles : Settles fuel layout m s) :
    Settles fuel layout (InMemory.nextTick m) (nextTick s) :=
  settles.step settles.represents.nextTick (fun _ => Iff.rfl) rfl
    fun _ => ⟨rfl, rfl⟩

/-! ### Fork -/

/-- One pass of the loop in `__fork_on_schedule`. -/
theorem Settles.forksOne (settles : Settles fuel layout m s)
    (isForking : p ∈ s.forkqueue) :
    ∃ m', (do
        if (← m.process p).startsAt ≤ m.ticks then
          let m ← m.onLinks (·.listMoveTail (.list p) .readyqueue)
          let m ← m.setStatus p .ready
          return .again (m.print (.forked p))
        else return .again m : Except MemoryFault (Pass (Memory n))) =
        .ok (.again m') ∧ Settles fuel layout m' (forkDue s p) := by
  have alive := settles.represents.alive (not_detached_of_forking isForking)
  have startsEq : (InMemory.fieldsOf (s.procs p)).startsAt =
      (s.procs p).startsAt := rfl
  simp only [settles.represents.process alive, bind, Except.bind, startsEq,
    settles.represents.ticks, forkDue]
  by_cases due : (s.procs p).startsAt ≤ s.ticks
  · obtain ⟨m₁, moved, represents₁⟩ := settles.represents.moveForked isForking
    have settles₁ := settles.step represents₁ (fun _ => Iff.rfl) rfl
      fun _ => ⟨rfl, rfl⟩
    obtain ⟨m₂, woken, settles₂⟩ :=
      settles₁.setStatus alive .ready (by decide)
    simp only [if_pos due, moved, woken]
    exact ⟨_, rfl, settles₂.print (.forked p)⟩
  · simp only [if_neg due]
    exact ⟨m, rfl, settles⟩

theorem forkDue_forkqueue (s : Sim n) (p : Fin n) {front rest : List (Fin n)}
    (nodup : s.forkqueue.Nodup) (queueEq : s.forkqueue = front ++ p :: rest) :
    ∃ front', (forkDue s p).forkqueue = front' ++ rest := by
  unfold forkDue
  split
  · refine ⟨front, ?_⟩
    have fresh : p ∉ front := by
      rw [queueEq] at nodup
      simp only [List.nodup_append, List.nodup_cons, List.mem_cons] at nodup
      grind
    show s.forkqueue.erase p = front ++ rest
    rw [queueEq, List.erase_append_right _ fresh, List.erase_cons_head]
  · exact ⟨front ++ [p], by simp [queueEq]⟩

/-- `__fork_on_schedule`. -/
theorem Settles.forks (settles : Settles fuel layout m s)
    (enough : n < fuel) :
    ∃ m', InMemory.forkOnSchedule fuel m = .ok m' ∧
      Settles fuel layout m' (forkOnSchedule s) := by
  have isRing : layout.rings s .forkqueue =
      some (s.forkqueue.map .list) := rfl
  -- the processes still to be visited lead to the same state
  refine forEachProcess_rule
    (fun rest m => ∃ t, Settles fuel layout m t ∧
      (∃ front, t.forkqueue = front ++ rest) ∧
      rest.foldl forkDue t = forkOnSchedule s)
    (fun result => ∃ m', result = .ok m' ∧
      Settles fuel layout m' (forkOnSchedule s))
    ?_ ?_ ?_ settles.represents.arranged isRing
    (Nat.lt_of_le_of_lt (settles.represents.length_le isRing) enough)
    ⟨s, settles, ⟨[], rfl⟩, rfl⟩
  · rintro rest m ⟨t, settles, ⟨front, queueEq⟩, _⟩
    exact ⟨layout.rings t, front, settles.represents.arranged, by
      rw [Layout.rings, queueEq]⟩
  · rintro m ⟨t, settles, _, rfl⟩
    exact ⟨m, rfl, settles⟩
  · rintro p rest m ⟨t, settles, ⟨front, queueEq⟩, same⟩
    obtain ⟨m', ran, settles'⟩ := settles.forksOne (p := p) (by simp [queueEq])
    have nodup := settles.represents.nodup .forkqueue rfl
    exact ⟨m', ran, _, settles', forkDue_forkqueue t p nodup queueEq, same⟩

/-! ### Exit -/

theorem scheduleNodes_eq_nil {entries : List (Nat × ResourceSchedule)} :
    scheduleNodes p entries = [] ↔ entries = [] := by
  simp [scheduleNodes]

theorem Represents.isEmpty_wants (represents : Represents layout m s)
    (alive : layout.freed p = false) :
    m.isEmpty (.resourcesToAcquire p) = .ok (decide (layout.wants p = [])) := by
  have isRing : layout.rings s (.resourcesToAcquire p) =
      some (scheduleNodes p (layout.wants p)) := by simp [Layout.rings, alive]
  rw [represents.isEmpty isRing]
  simp only [scheduleNodes_eq_nil]

theorem Represents.isEmpty_holds (represents : Represents layout m s)
    (alive : layout.freed p = false) :
    m.isEmpty (.resourcesHolding p) = .ok (decide (layout.holds p = [])) := by
  have isRing : layout.rings s (.resourcesHolding p) =
      some (scheduleNodes p (layout.holds p)) := by simp [Layout.rings, alive]
  rw [represents.isEmpty isRing]
  simp only [scheduleNodes_eq_nil]

/-- `__exit_process`, for a process that is marked as exited. -/
theorem Settles.exits (settles : Settles fuel layout m s)
    (alive : layout.freed p = false)
    (represents : Represents layout m' (s.setStatus p .exit)) :
    Refines seen (fun m' s' => ∃ layout', Settles fuel layout' m' s')
      (InMemory.exitProcess p m') (exitProcess p (s.setStatus p .exit)) := by
  have lists : (((s.setStatus p .exit).procs p).resourcesHolding = [] ↔
        layout.holds p = []) ∧
      (((s.setStatus p .exit).procs p).resourcesToAcquire = [] ↔
        layout.wants p = []) := by
    have wants := settles.wants p
    have holds := settles.holds p
    rw [WantsListed] at wants
    rw [HoldsListed] at holds
    simp [Sim.setStatus, wants, holds]
  simp only [InMemory.exitProcess, exitProcess, bind, Except.bind,
    represents.isEmpty_list alive, represents.isEmpty_holds alive,
    represents.isEmpty_wants alive, InMemory.cAssert, cAssert,
    decide_eq_true_eq, lists.1, lists.2]
  by_cases detached : (s.setStatus p .exit).detached p
  · by_cases noHolds : layout.holds p = []
    · by_cases noWants : layout.wants p = []
      · simp only [if_pos detached, if_pos noHolds, if_pos noWants]
        have ownsNothing (r : Fin nrResources) : s.owner r ≠ some p := by
          intro owns
          obtain ⟨entry, member, _⟩ := settles.backed r p owns
          simp [noHolds] at member
        have freed := (represents.print (.exited p)).freeProcess detached alive
          noWants noHolds ownsNothing
        refine refines_ok ⟨layout.without p, ⟨⟨freed, fun q => ?_,
          settles.backed, settles.short⟩, fun q => ?_, fun q => ?_⟩⟩
        · by_cases isP : q = p
          · subst isP
            simp [Layout.without, Sim.setStatus]
          · simp [Layout.without, isP, settles.ended q, Sim.setStatus,
              s.modify_of_ne isP]
        · by_cases isP : q = p
          · subst isP
            simpa [WantsListed, Layout.without, Sim.setStatus] using
              settles.wants q
          · simpa [WantsListed, Layout.without, Sim.setStatus,
              s.modify_of_ne isP] using settles.wants q
        · by_cases isP : q = p
          · subst isP
            simpa [HoldsListed, Layout.without, Sim.setStatus] using
              settles.holds q
          · simpa [HoldsListed, Layout.without, Sim.setStatus,
              s.modify_of_ne isP] using settles.holds q
      · simp only [if_pos detached, if_pos noHolds, if_neg noWants]
        exact refines_fault rfl
    · simp only [if_pos detached, if_neg noHolds]
      exact refines_fault rfl
  · simp only [if_neg detached]
    exact refines_fault rfl

/-- A process that does not run any more, and has exited if it is done. -/
theorem Settles.retires (settles : Settles fuel layout m s)
    (alive : layout.freed p = false) :
    Refines seen (fun m' s' => ∃ layout', Settles fuel layout' m' s')
      (if (s.procs p).age = (s.procs p).lifespan then
        (m.setStatus p .exit >>= fun m => InMemory.exitProcess p m) else .ok m)
      (if (s.procs p).age = (s.procs p).lifespan then
        exitProcess p (s.setStatus p .exit) else .ok s) := by
  split
  · obtain ⟨m', marked, represents⟩ := settles.represents.setStatus alive .exit
    rw [marked]
    exact settles.exits alive represents
  · exact refines_ok ⟨layout, settles⟩

/-- What the main loop does with the process of the previous tick. -/
theorem Settles.retiresPrev (settles : Settles fuel layout m s)
    {prev : Option (Fin n)} (alive : ∀ p, prev = some p → layout.freed p = false) :
    Refines seen (fun m' s' => ∃ layout', Settles fuel layout' m' s')
      (InMemory.retirePrev prev m) (retirePrev prev s) := by
  cases prev with
  | none => exact refines_ok ⟨layout, settles⟩
  | some p =>
      have alive := alive p rfl
      have statusEq : (InMemory.fieldsOf (s.procs p)).status =
        (s.procs p).status := rfl
      simp only [InMemory.retirePrev, retirePrev,
        settles.represents.process alive, bind, Except.bind, statusEq]
      by_cases running : (s.procs p).status = .running
      · obtain ⟨m', rested, settles'⟩ := settles.setStatus alive .ready (by decide)
        have same : (InMemory.fieldsOf (s.procs p)).age =
              ((s.setStatus p .ready).procs p).age ∧
            (InMemory.fieldsOf (s.procs p)).lifespan =
              ((s.setStatus p .ready).procs p).lifespan := by
          simp [InMemory.fieldsOf, Sim.setStatus]
        simp only [if_pos running, rested, same.1, same.2]
        exact settles'.retires alive
      · simp only [if_neg running]
        exact settles.retires alive

/-- First half of the loop body. -/
theorem Settles.dispatches (settles : Settles fuel layout m s) (enough : n < fuel)
    (current : CurrentAlive layout s) (faithful : Faithful inMemory sched) :
    Refines seen (fun m' s' => ∃ layout', Settles fuel layout' m' s')
      (InMemory.dispatch fuel inMemory m) (dispatch sched s) := by
  obtain ⟨m₁, forked, settles₁⟩ := settles.forks enough
  have currentEq : (forkOnSchedule s).current = s.current :=
    forkOnSchedule_current s
  have current₁ : CurrentAlive layout (forkOnSchedule s) := by
    rw [CurrentAlive, currentEq]
    exact current
  rw [InMemory.dispatch, dispatch, forked]
  refine (faithful.schedule layout m₁ _ settles₁.represents current₁).bind ?_
  rintro ⟨next, m₂⟩ ⟨next', s₂⟩ ⟨rfl, kept⟩
  rw [currentEq, settles₁.represents.current, currentEq]
  have settles₂ := settles₁.kept kept
  have settles₃ := settles₂.step (settles₂.represents.setCurrent next)
    (fun _ => Iff.rfl) rfl fun _ => ⟨rfl, rfl⟩
  exact settles₃.retiresPrev current

/-! ### Acquire -/

/-- In the loop of `__run_current_acquire`, where the entries of `c` that are
still to be acquired have moved in memory only. -/
structure InAcquire (fuel : Nat) (c : Fin n) (layout : Layout n) (m : Memory n)
    (s : Sim n) : Prop extends Stands fuel layout m s where
  alive : layout.freed c = false
  isCurrent : s.current = some c
  wants : ∀ p ≠ c, WantsListed layout s p
  holds : ∀ p, HoldsListed layout s p

variable {entry : Nat × ResourceSchedule}
  {kept later : List (Nat × ResourceSchedule)}

theorem Represents.schedule (represents : Represents layout m s)
    (member : entry ∈ layout.wants p ++ layout.holds p) :
    m.schedule p entry.1 = .ok entry.2 := by
  rw [Memory.schedule, (represents.entries p entry.1 entry.2).mpr member]

theorem InAcquire.step (inAcquire : InAcquire fuel c layout m s)
    (represents : Represents layout m' s')
    (ended : ∀ p, (s'.procs p).status = .exit ↔ (s.procs p).status = .exit)
    (ownerEq : s'.owner = s.owner) (currentEq : s'.current = s.current)
    (same : ∀ p, (s'.procs p).resourcesToAcquire =
        (s.procs p).resourcesToAcquire ∧
      (s'.procs p).resourcesHolding = (s.procs p).resourcesHolding) :
    InAcquire fuel c layout m' s' where
  toStands := inAcquire.toStands.step represents ended ownerEq
  alive := inAcquire.alive
  isCurrent := currentEq.trans inAcquire.isCurrent
  wants p ne := (same p).1.trans (inAcquire.wants p ne)
  holds p := (same p).2.trans (inAcquire.holds p)

theorem InAcquire.print (inAcquire : InAcquire fuel c layout m s)
    (event : Event n) :
    InAcquire fuel c layout (m.print event) (s.print event) :=
  inAcquire.step (inAcquire.represents.print event) (fun _ => Iff.rfl) rfl rfl
    fun _ => ⟨rfl, rfl⟩

/-- A granted entry moves from one list to the other. -/
theorem InAcquire.grants (inAcquire : InAcquire fuel c layout m s)
    (wantsEq : layout.wants c = kept ++ entry :: later) {r : Fin nrResources}
    (number : r.val = entry.2.resourceId)
    (granted : Kept layout s (Function.update s.owner r (some c)) m' s') :
    ∃ m'', m'.onLinks (·.listMoveTail (.schedule c entry.1)
        (.resourcesHolding c)) = .ok m'' ∧
      InAcquire fuel c (layout.withEntries c (kept ++ later)
          (layout.holds c ++ [entry])) m''
        (s'.modify c fun p =>
          { p with resourcesHolding := p.resourcesHolding ++ [entry.2] }) := by
  obtain ⟨m'', moved, represents⟩ :=
    granted.represents.moveSchedule inAcquire.alive wantsEq
  have fieldsSame (process : Process) :
      InMemory.fieldsOf { process with
        resourcesHolding := process.resourcesHolding ++ [entry.2] } =
        id (InMemory.fieldsOf process) := rfl
  have short := inAcquire.short c
  rw [wantsEq] at short
  refine ⟨m'', moved, ⟨⟨?_, fun p => ?_, fun r' p owns => ?_, fun p => ?_⟩,
    inAcquire.alive, granted.current.trans inAcquire.isCurrent,
    fun p ne => ?_, fun p => ?_⟩⟩
  · exact {
      fields := fun p => by
        rw [represents.fields p, Sim.modify_procs]
        by_cases isC : p = c
        · subst isC
          simp [fieldsSame]
        · simp [isC]
      entries := represents.entries
      current := represents.current
      ticks := represents.ticks
      owner := represents.owner
      stderr := represents.stderr
      arranged := represents.arranged
      linked := represents.linked
      owned := represents.owned }
  · rw [Sim.modify_procs]
    refine (inAcquire.ended p).trans ((granted.ended p).symm.trans ?_)
    split
    · rename_i isC
      rw [isC]
    · rfl
  · rw [Sim.modify_owner, granted.owner] at owns
    by_cases isR : r' = r
    · subst isR
      obtain rfl : c = p := by simpa using owns
      exact ⟨entry, by simp [Layout.withEntries], number.symm⟩
    · rw [Function.update_of_ne isR] at owns
      obtain ⟨held, member, same⟩ := inAcquire.backed r' p owns
      refine ⟨held, ?_, same⟩
      by_cases isC : p = c
      · subst isC
        simp [Layout.withEntries, member]
      · simpa [Layout.withEntries, isC] using member
  · by_cases isC : p = c
    · subst isC
      simp only [Layout.withEntries, Function.update_self, List.length_append,
        List.length_cons, List.length_nil] at short ⊢
      omega
    · simpa [Layout.withEntries, isC] using inAcquire.short p
  · have before := inAcquire.wants p ne
    rw [WantsListed] at before
    simpa [WantsListed, Layout.withEntries, ne, s'.modify_of_ne ne,
      granted.wants p] using before
  · have before := inAcquire.holds p
    rw [HoldsListed] at before
    by_cases isC : p = c
    · subst isC
      simp [HoldsListed, Layout.withEntries, granted.holds p, before]
    · simpa [HoldsListed, Layout.withEntries, isC, s'.modify_of_ne isC,
        granted.holds p] using before

/-- How the loop of `__run_current_acquire` ends: it has left if it was
refused. -/
def Acquires (fuel : Nat) (c : Fin n) (pass : Pass (Memory n))
    (result : Bool × List ResourceSchedule × Sim n) : Prop :=
  (match pass with
    | .again _ => result.1 = true
    | .leave _ => result.1 = false) ∧
  ∃ layout, InAcquire fuel c layout pass.state result.2.2 ∧
    result.2.1 = (layout.wants c).map Prod.snd

/-- The result of the loop with the entries in front that stay. -/
def keepInFront (front : List ResourceSchedule)
    (result : Bool × List ResourceSchedule × Sim n) :
    Bool × List ResourceSchedule × Sim n :=
  (result.1, front ++ result.2.1, result.2.2)

/-- One pass of the loop, with the entries `kept` behind it. -/
theorem InAcquire.pass (inAcquire : InAcquire fuel c layout m s)
    (faithful : Faithful inMemory sched)
    (wantsEq : layout.wants c = kept ++ entry :: later)
    {total : Except Fault (Bool × List ResourceSchedule × Sim n)}
    (totalEq : total = (keepInFront (kept.map Prod.snd) <$>
      acquireLoop sched c ((entry :: later).map Prod.snd) s)) :
    PassMeets
      (fun m' => ∃ layout' kept' s', layout'.wants c = kept' ++ later ∧
        InAcquire fuel c layout' m' s' ∧
        total = (keepInFront (kept'.map Prod.snd) <$>
          acquireLoop sched c (later.map Prod.snd) s'))
      (fun result => Refines seen (Acquires fuel c) result total)
      (InMemory.acquirePass inMemory c (.schedule c entry.1) m) := by
  have represents := inAcquire.represents
  have stored : m.schedule c entry.1 = .ok entry.2 :=
    represents.schedule (by simp [wantsEq])
  have ageEq : (InMemory.fieldsOf (s.procs c)).age = (s.procs c).age := rfl
  simp only [InMemory.acquirePass, Node.asSchedule, bind, Except.bind, stored,
    represents.process inAcquire.alive, ageEq]
  rw [List.map_cons, acquireLoop] at totalEq
  by_cases due : entry.2.atAge = (s.procs c).age
  · simp only [if_pos due, bind, Except.bind] at totalEq ⊢
    have asked := faithful.acquire layout m s c entry.2.resourceId represents
      inAcquire.alive (inAcquire.notEnded inAcquire.alive)
    generalize sched.acquire c entry.2.resourceId s = outcome at asked totalEq
    cases outcome with
    | error fault =>
        have failed : total = .error fault := totalEq
        cases sees : seen fault with
        | none => exact .any fun result => failed ▸ refines_unseen sees
        | some f =>
            rw [asked f sees]
            exact .fault (failed ▸ refines_fault sees)
    | ok answer =>
        obtain ⟨granted, s'⟩ := answer
        obtain ⟨⟨granted', m'⟩, ran, same, r, number, called⟩ := asked
        obtain rfl : granted' = granted := same
        rw [ran]
        cases granted' with
        | true =>
            obtain ⟨m'', moved, inAcquire'⟩ :=
              inAcquire.grants wantsEq number called
            simp only [if_true, moved]
            exact .again ⟨_, kept, _, by simp [Layout.withEntries],
              inAcquire'.print (.acquired c entry.2.resourceId), totalEq⟩
        | false =>
            have inAcquire' := inAcquire.step called.represents called.ended
              called.owner called.current
              fun p => ⟨called.wants p, called.holds p⟩
            refine .leave (totalEq ▸ refines_ok ⟨rfl, layout,
              inAcquire'.print (.blocked c entry.2.resourceId), ?_⟩)
            simp [keepInFront, wantsEq]
  · simp only [if_neg due] at totalEq ⊢
    refine .again ⟨layout, kept ++ [entry], s, by simp [wantsEq], inAcquire, ?_⟩
    rw [totalEq]
    cases acquireLoop sched c (later.map Prod.snd) s with
    | error fault => rfl
    | ok result =>
        simp [keepInFront, bind, Except.bind, pure, Except.pure, Functor.map,
          Except.map]

/-- The memory stands for a state that differs in the entries of `c` only. -/
theorem Stands.setEntries (stands : Stands fuel layout m s)
    {change : Process → Process}
    (same : ∀ process,
      InMemory.fieldsOf (change process) = InMemory.fieldsOf process) :
    Stands fuel layout m (s.modify c change) where
  represents := {
    fields := fun p => by
      rw [stands.represents.fields p, Sim.modify_procs]
      by_cases isC : p = c
      · subst isC
        simp [same]
      · simp [isC]
    entries := stands.represents.entries
    current := stands.represents.current
    ticks := stands.represents.ticks
    owner := stands.represents.owner
    stderr := stands.represents.stderr
    arranged := stands.represents.arranged
    linked := stands.represents.linked
    owned := stands.represents.owned }
  ended p := by
    rw [stands.ended p, Sim.modify_procs]
    split
    · rename_i isC
      have statusEq := congrArg Fields.status (same (s.procs c))
      rw [isC]
      exact iff_of_eq (congrArg (· = ProcessStatus.exit) statusEq.symm)
    · rfl
  backed := stands.backed
  short := stands.short

theorem InAcquire.settles (inAcquire : InAcquire fuel c layout m s) :
    Settles fuel layout m
      (s.setToAcquire c ((layout.wants c).map Prod.snd)) where
  toStands := inAcquire.toStands.setEntries fun _ => rfl
  wants p := by
    by_cases isC : p = c
    · subst isC
      simp [WantsListed, Sim.setToAcquire]
    · have before := inAcquire.wants p isC
      rw [WantsListed] at before
      simpa [WantsListed, Sim.setToAcquire, s.modify_of_ne isC] using before
  holds p := by
    have before := inAcquire.holds p
    rw [HoldsListed] at before
    by_cases isC : p = c
    · subst isC
      simpa [HoldsListed, Sim.setToAcquire] using before
    · simpa [HoldsListed, Sim.setToAcquire, s.modify_of_ne isC] using before

/-- `__run_current_acquire`. -/
theorem Settles.acquires (settles : Settles fuel layout m s)
    (alive : layout.freed c = false) (isCurrent : s.current = some c)
    (faithful : Faithful inMemory sched) :
    Refines seen (fun a b => a.1 = b.1 ∧ b.2.current = some c ∧ ∃ layout',
        Settles fuel layout' a.2 b.2 ∧ layout'.freed c = false)
      (InMemory.runCurrentAcquire fuel inMemory c m)
      (runCurrentAcquire sched c s) := by
  have isRing : layout.rings s (.resourcesToAcquire c) =
      some (scheduleNodes c (layout.wants c)) := by simp [Layout.rings, alive]
  have short : (scheduleNodes c (layout.wants c)).length < fuel := by
    rw [scheduleNodes, List.length_map]
    exact Nat.lt_of_le_of_lt (Nat.le_add_right _ _) (settles.short c)
  have wantsEq := settles.wants c
  rw [WantsListed] at wantsEq
  rw [InMemory.runCurrentAcquire, runCurrentAcquire, wantsEq]
  refine Refines.bind (?_ : Refines seen (Acquires fuel c) _ _) ?_
  · refine forEachSafe_rule
      (P := fun nodes m => ∃ later, nodes = scheduleNodes c later ∧
        ∃ layout' kept' s', layout'.wants c = kept' ++ later ∧
          InAcquire fuel c layout' m s' ∧
          acquireLoop sched c ((layout.wants c).map Prod.snd) s =
            (keepInFront (kept'.map Prod.snd) <$>
              acquireLoop sched c (later.map Prod.snd) s'))
      (Q := fun result => Refines seen (Acquires fuel c) result
        (acquireLoop sched c ((layout.wants c).map Prod.snd) s))
      ?_ ?_ ?_ settles.represents.arranged isRing short ?_
    · rintro nodes m ⟨later, rfl, layout', kept', s', wantsEq', inAcquire, _⟩
      refine ⟨layout'.rings s', scheduleNodes c kept',
        inAcquire.represents.arranged, ?_⟩
      simp [Layout.rings, inAcquire.alive, wantsEq', scheduleNodes]
    · rintro m ⟨later, noNodes, layout', kept', s', wantsEq', inAcquire, same⟩
      obtain rfl : later = [] := scheduleNodes_eq_nil.mp noNodes.symm
      rw [same]
      refine refines_ok ⟨rfl, layout', inAcquire, ?_⟩
      simp [keepInFront, wantsEq']
    · rintro node nodes m
        ⟨later, nodesEq, layout', kept', s', wantsEq', inAcquire, same⟩
      cases later with
      | nil => simp [scheduleNodes] at nodesEq
      | cons entry later =>
          obtain ⟨rfl, rfl⟩ := List.cons.inj nodesEq
          exact (inAcquire.pass faithful wantsEq' same).mono
            fun m' holds => ⟨later, rfl, holds⟩
    · refine ⟨_, rfl, layout, [], s, rfl, ⟨settles.toStands, alive, isCurrent,
        fun p _ => settles.wants p, settles.holds⟩, ?_⟩
      cases acquireLoop sched c ((layout.wants c).map Prod.snd) s with
      | error fault => rfl
      | ok result => rfl
  · rintro pass ⟨granted, kept, s'⟩ ⟨ends, layout', inAcquire, rfl⟩
    cases pass with
    | again m' =>
        obtain rfl : granted = true := ends
        exact refines_ok ⟨rfl, inAcquire.isCurrent, layout', inAcquire.settles,
          inAcquire.alive⟩
    | leave m' =>
        obtain rfl : granted = false := ends
        exact refines_ok ⟨rfl, inAcquire.isCurrent, layout', inAcquire.settles,
          inAcquire.alive⟩

/-! ### Release -/

/-- In the loop of `__run_current_release`, where the entries that `c` holds have
changed in memory only. -/
structure InRelease (fuel : Nat) (c : Fin n) (layout : Layout n) (m : Memory n)
    (s : Sim n) : Prop extends Stands fuel layout m s where
  alive : layout.freed c = false
  isCurrent : s.current = some c
  wants : ∀ p, WantsListed layout s p
  holds : ∀ p ≠ c, HoldsListed layout s p

/-- The duration of an entry is counted down. -/
theorem InRelease.counts (inRelease : InRelease fuel c layout m s)
    (holdsEq : layout.holds c = kept ++ entry :: later)
    (content : ResourceSchedule)
    (same : content.resourceId = entry.2.resourceId) :
    InRelease fuel c (layout.withEntries c (layout.wants c)
      (kept ++ (entry.1, content) :: later))
      (m.putSchedule c entry.1 (some content)) s where
  represents := inRelease.represents.putSchedule inRelease.alive holdsEq content
  ended := inRelease.ended
  backed := by
    intro r p owns
    obtain ⟨held, member, number⟩ := inRelease.backed r p owns
    by_cases isC : p = c
    · subst isC
      rw [holdsEq] at member
      simp only [Layout.withEntries, Function.update_self, List.mem_append,
        List.mem_cons] at member ⊢
      rcases member with inKept | isEntry | inLater
      · exact ⟨held, Or.inl inKept, number⟩
      · exact ⟨(entry.1, content), Or.inr (Or.inl rfl), by
          rw [same, ← isEntry, number]⟩
      · exact ⟨held, Or.inr (Or.inr inLater), number⟩
    · exact ⟨held, by simpa [Layout.withEntries, isC] using member, number⟩
  short := by
    intro p
    have short := inRelease.short p
    by_cases isC : p = c
    · subst isC
      rw [holdsEq] at short
      simpa [Layout.withEntries] using short
    · simpa [Layout.withEntries, isC] using short
  alive := inRelease.alive
  isCurrent := inRelease.isCurrent
  wants := by
    intro p
    have before := inRelease.wants p
    rw [WantsListed] at before
    by_cases isC : p = c
    · subst isC
      simpa [WantsListed, Layout.withEntries] using before
    · simpa [WantsListed, Layout.withEntries, isC] using before
  holds := by
    intro p ne
    have before := inRelease.holds p ne
    rw [HoldsListed] at before
    simpa [HoldsListed, Layout.withEntries, ne] using before

/-- An entry is freed whose resource has been released. -/
theorem InRelease.drops (inRelease : InRelease fuel c layout m s)
    (holdsEq : layout.holds c = kept ++ entry :: later) {r : Fin nrResources}
    (number : r.val = entry.2.resourceId)
    (released : Kept layout s (Function.update s.owner r none) m' s') :
    ∃ m'', m'.onLinks (·.listDel (.schedule c entry.1)) = .ok m'' ∧
      InRelease fuel c (layout.withEntries c (layout.wants c) (kept ++ later))
        (InMemory.freeSchedule c entry.1 m'') s' := by
  obtain ⟨m'', deleted, represents⟩ :=
    released.represents.dropSchedule inRelease.alive holdsEq
  refine ⟨m'', deleted, ⟨⟨represents, fun p => ?_, fun r' p owns => ?_,
    fun p => ?_⟩, inRelease.alive,
    released.current.trans inRelease.isCurrent, fun p => ?_, fun p ne => ?_⟩⟩
  · exact (inRelease.ended p).trans (released.ended p).symm
  · rw [released.owner] at owns
    have other : r' ≠ r := by
      rintro rfl
      simp at owns
    rw [Function.update_of_ne other] at owns
    obtain ⟨held, member, same⟩ := inRelease.backed r' p owns
    refine ⟨held, ?_, same⟩
    by_cases isC : p = c
    · subst isC
      have notEntry : held ≠ entry := by
        rintro rfl
        exact other (Fin.ext (same.symm.trans number.symm))
      rw [holdsEq] at member
      simp only [Layout.withEntries, Function.update_self, List.mem_append,
        List.mem_cons] at member ⊢
      tauto
    · simpa [Layout.withEntries, isC] using member
  · have short := inRelease.short p
    by_cases isC : p = c
    · subst isC
      rw [holdsEq] at short
      simp only [Layout.withEntries, Function.update_self, List.length_append,
        List.length_cons] at short ⊢
      omega
    · simpa [Layout.withEntries, isC] using short
  · have before := inRelease.wants p
    rw [WantsListed] at before
    by_cases isC : p = c
    · subst isC
      simpa [WantsListed, Layout.withEntries, released.wants p] using before
    · simpa [WantsListed, Layout.withEntries, isC, released.wants p] using before
  · have before := inRelease.holds p ne
    rw [HoldsListed] at before
    simpa [HoldsListed, Layout.withEntries, ne, released.holds p] using before

/-- How the loop of `__run_current_release` ends. -/
def Releases (fuel : Nat) (c : Fin n) (pass : Pass (Memory n))
    (result : List ResourceSchedule × Sim n) : Prop :=
  ∃ layout, InRelease fuel c layout pass.state result.2 ∧
    result.1 = (layout.holds c).map Prod.snd

/-- The result of the loop with the entries in front that stay. -/
def holdInFront (front : List ResourceSchedule)
    (result : List ResourceSchedule × Sim n) :
    List ResourceSchedule × Sim n :=
  (front ++ result.1, result.2)

theorem InRelease.print (inRelease : InRelease fuel c layout m s)
    (event : Event n) :
    InRelease fuel c layout (m.print event) (s.print event) where
  toStands := inRelease.toStands.step (inRelease.represents.print event)
    (fun _ => Iff.rfl) rfl
  alive := inRelease.alive
  isCurrent := inRelease.isCurrent
  wants := inRelease.wants
  holds := inRelease.holds

/-- One pass of the loop, with the entries `kept` behind it. -/
theorem InRelease.pass (inRelease : InRelease fuel c layout m s)
    (faithful : Faithful inMemory sched)
    (holdsEq : layout.holds c = kept ++ entry :: later)
    {total : Except Fault (List ResourceSchedule × Sim n)}
    (totalEq : total = (holdInFront (kept.map Prod.snd) <$>
      releaseLoop sched c ((entry :: later).map Prod.snd) s)) :
    PassMeets
      (fun m' => ∃ layout' kept' s', layout'.holds c = kept' ++ later ∧
        InRelease fuel c layout' m' s' ∧
        total = (holdInFront (kept'.map Prod.snd) <$>
          releaseLoop sched c (later.map Prod.snd) s'))
      (fun result => Refines seen (Releases fuel c) result total)
      (InMemory.releasePass inMemory c (.schedule c entry.1) m) := by
  have represents := inRelease.represents
  have stored : m.schedule c entry.1 = .ok entry.2 :=
    represents.schedule (by simp [holdsEq])
  let content := { entry.2 with duration := subUInt entry.2.duration 1 }
  have counted := inRelease.counts holdsEq content rfl
  simp only [InMemory.releasePass, Node.asSchedule, bind, Except.bind, stored]
  rw [List.map_cons, releaseLoop] at totalEq
  by_cases lasts : subUInt entry.2.duration 1 ≠ 0
  · simp only [if_pos lasts] at totalEq ⊢
    refine .again ⟨_, kept ++ [(entry.1, content)], s,
      by simp [Layout.withEntries], counted, ?_⟩
    rw [totalEq]
    cases releaseLoop sched c (later.map Prod.snd) s with
    | error fault => rfl
    | ok result =>
        simp [holdInFront, content, bind, Except.bind, pure, Except.pure,
          Functor.map, Except.map]
  · simp only [if_neg lasts, bind, Except.bind] at totalEq ⊢
    have asked := faithful.release _ _ s c entry.2.resourceId
      counted.represents counted.alive
    generalize sched.release c entry.2.resourceId s = outcome at asked totalEq
    cases outcome with
    | error fault =>
        have failed : total = .error fault := totalEq
        cases sees : seen fault with
        | none => exact .any fun result => failed ▸ refines_unseen sees
        | some f =>
            rw [asked f sees]
            exact .fault (failed ▸ refines_fault sees)
    | ok s' =>
        obtain ⟨m', ran, r, number, called⟩ := asked
        have printed : Kept _ s (Function.update s.owner r none)
            (m'.print (.released c entry.2.resourceId))
            (s'.print (.released c entry.2.resourceId)) :=
          ⟨called.represents.print _, called.wants, called.holds, called.ended,
            called.owner, called.current⟩
        have split : (layout.withEntries c (layout.wants c)
            (kept ++ (entry.1, content) :: later)).holds c =
              kept ++ (entry.1, content) :: later := by
          simp [Layout.withEntries]
        obtain ⟨m'', deleted, inRelease'⟩ := counted.drops split number printed
        rw [ran]
        simp only [deleted]
        exact .again ⟨_, kept, _, by simp [Layout.withEntries], inRelease',
          totalEq⟩

theorem InRelease.settles (inRelease : InRelease fuel c layout m s) :
    Settles fuel layout m (s.setHolding c ((layout.holds c).map Prod.snd)) where
  toStands := inRelease.toStands.setEntries fun _ => rfl
  wants p := by
    have before := inRelease.wants p
    rw [WantsListed] at before
    by_cases isC : p = c
    · subst isC
      simpa [WantsListed, Sim.setHolding] using before
    · simpa [WantsListed, Sim.setHolding, s.modify_of_ne isC] using before
  holds p := by
    by_cases isC : p = c
    · subst isC
      simp [HoldsListed, Sim.setHolding]
    · have before := inRelease.holds p isC
      rw [HoldsListed] at before
      simpa [HoldsListed, Sim.setHolding, s.modify_of_ne isC] using before

/-- `__run_current_release`. -/
theorem Settles.releases (settles : Settles fuel layout m s)
    (alive : layout.freed c = false) (isCurrent : s.current = some c)
    (faithful : Faithful inMemory sched) :
    Refines seen (fun m' s' => s'.current = some c ∧ ∃ layout',
        Settles fuel layout' m' s' ∧ layout'.freed c = false)
      (InMemory.runCurrentRelease fuel inMemory c m)
      (runCurrentRelease sched c s) := by
  have isRing : layout.rings s (.resourcesHolding c) =
      some (scheduleNodes c (layout.holds c)) := by simp [Layout.rings, alive]
  have short : (scheduleNodes c (layout.holds c)).length < fuel := by
    rw [scheduleNodes, List.length_map]
    exact Nat.lt_of_le_of_lt (Nat.le_add_left _ _) (settles.short c)
  have holdsEq := settles.holds c
  rw [HoldsListed] at holdsEq
  rw [InMemory.runCurrentRelease, runCurrentRelease, holdsEq]
  refine Refines.bind (?_ : Refines seen (Releases fuel c) _ _) ?_
  · refine forEachSafe_rule
      (P := fun nodes m => ∃ later, nodes = scheduleNodes c later ∧
        ∃ layout' kept' s', layout'.holds c = kept' ++ later ∧
          InRelease fuel c layout' m s' ∧
          releaseLoop sched c ((layout.holds c).map Prod.snd) s =
            (holdInFront (kept'.map Prod.snd) <$>
              releaseLoop sched c (later.map Prod.snd) s'))
      (Q := fun result => Refines seen (Releases fuel c) result
        (releaseLoop sched c ((layout.holds c).map Prod.snd) s))
      ?_ ?_ ?_ settles.represents.arranged isRing short ?_
    · rintro nodes m ⟨later, rfl, layout', kept', s', holdsEq', inRelease, _⟩
      refine ⟨layout'.rings s', scheduleNodes c kept',
        inRelease.represents.arranged, ?_⟩
      simp [Layout.rings, inRelease.alive, holdsEq', scheduleNodes]
    · rintro m ⟨later, noNodes, layout', kept', s', holdsEq', inRelease, same⟩
      obtain rfl : later = [] := scheduleNodes_eq_nil.mp noNodes.symm
      rw [same]
      refine refines_ok ⟨layout', inRelease, ?_⟩
      simp [holdInFront, holdsEq']
    · rintro node nodes m
        ⟨later, nodesEq, layout', kept', s', holdsEq', inRelease, same⟩
      cases later with
      | nil => simp [scheduleNodes] at nodesEq
      | cons entry later =>
          obtain ⟨rfl, rfl⟩ := List.cons.inj nodesEq
          exact (inRelease.pass faithful holdsEq' same).mono
            fun m' holds => ⟨later, rfl, holds⟩
    · refine ⟨_, rfl, layout, [], s, rfl, ⟨settles.toStands, alive, isCurrent,
        settles.wants, fun p _ => settles.holds p⟩, ?_⟩
      cases releaseLoop sched c ((layout.holds c).map Prod.snd) s with
      | error fault => rfl
      | ok result => rfl
  · rintro pass ⟨kept, s'⟩ ⟨layout', inRelease, rfl⟩
    exact refines_ok ⟨inRelease.isCurrent, layout', inRelease.settles,
      inRelease.alive⟩

/-! ### The main loop -/

/-- At the top of a pass the current process has not been freed. -/
def AtTop (fuel : Nat) (m : Memory n) (s : Sim n) : Prop :=
  ∃ layout, Settles fuel layout m s ∧ CurrentAlive layout s

theorem Settles.atTop (settles : Settles fuel layout m s)
    (isCurrent : s.current = some c) (alive : layout.freed c = false) :
    AtTop fuel m s := by
  refine ⟨layout, settles, fun p isP => ?_⟩
  obtain rfl : c = p := by simpa [isCurrent] using isP
  exact alive

theorem Settles.growsOlder (settles : Settles fuel layout m s)
    (alive : layout.freed c = false) :
    ∃ m', InMemory.growOlder c m = .ok m' ∧
      Settles fuel layout m' (growOlder c s) := by
  obtain ⟨m', done, represents⟩ := settles.represents.modify alive
    (fun fields => { fields with age := toUInt (fields.age + 1) })
    (fun process => { process with age := toUInt (process.age + 1) })
    fun _ => rfl
  exact ⟨m', done, settles.modify represents (settles.notEnded alive)
    (settles.notEnded alive) rfl rfl⟩

/-- Second half of the loop body. -/
theorem Settles.executes (settles : Settles fuel layout m s)
    (faithful : Faithful inMemory sched) :
    Refines seen (AtTop fuel) (InMemory.execute fuel inMemory m)
      (execute sched s) := by
  rw [InMemory.execute, execute, settles.represents.current]
  cases isCurrent : s.current with
  | none =>
      refine refines_ok ⟨layout, (settles.print .idle).ticksOn, fun p isP => ?_⟩
      have nobody : (nextTick (s.print .idle)).current = none := isCurrent
      rw [nobody] at isP
      exact absurd isP (by simp)
  | some c =>
      by_cases ended : (s.procs c).status = .exit
      · have freed := (settles.ended c).mpr ended
        simp only [if_pos ended, Memory.setStatus, Memory.modify,
          settles.represents.process_freed freed, bind, Except.bind]
        exact refines_fault rfl
      have alive := settles.alive ended
      obtain ⟨m₁, started, settles₁⟩ :=
        settles.setStatus alive .running (by decide)
      simp only [if_neg ended, started, bind, Except.bind,
        settles₁.represents.isEmpty_list alive, InMemory.cAssert, cAssert,
        decide_eq_true_eq]
      by_cases detached : (s.setStatus c .running).detached c
      · simp only [if_pos detached]
        refine (settles₁.acquires alive isCurrent faithful).bind ?_
        rintro ⟨granted, m₂⟩ ⟨granted', s₂⟩
          ⟨rfl, isCurrent₂, layout₂, settles₂, alive₂⟩
        cases granted with
        | false =>
            exact refines_ok (settles₂.ticksOn.atTop isCurrent₂ alive₂)
        | true =>
            obtain ⟨m₃, older, settles₃⟩ :=
              (settles₂.print (.ran c)).growsOlder alive₂
            simp only [if_true, older]
            refine (settles₃.releases alive₂ isCurrent₂ faithful).bind ?_
            rintro m₄ s₄ ⟨isCurrent₄, layout₄, settles₄, alive₄⟩
            exact refines_ok (settles₄.ticksOn.atTop isCurrent₄ alive₄)
      · simp only [if_neg detached]
        exact refines_fault rfl

theorem Represents.quits (represents : Represents layout m s) :
    InMemory.quits m = .ok (decide (quits s)) := by
  rw [InMemory.quits, represents.current]
  by_cases nobody : s.current = none
  · simp only [if_pos nobody, represents.isEmpty_ready,
      represents.isEmpty_forkqueue, bind, Except.bind]
    simp [Sched.quits, nobody, pure, Except.pure]
  · simp only [if_neg nobody]
    simp [Sched.quits, nobody, pure, Except.pure]

/-- The body of the main loop. -/
theorem body_refines (enough : n < fuel) (faithful : Faithful inMemory sched)
    (atTop : AtTop fuel m s) :
    Refines seen (Alike (AtTop fuel)) (InMemory.body fuel inMemory m)
      (body sched s) := by
  obtain ⟨layout, settles, current⟩ := atTop
  rw [InMemory.body, body]
  refine (settles.dispatches enough current faithful).bind ?_
  rintro m' s' ⟨layout', settles'⟩
  simp only [settles'.represents.quits, bind, Except.bind]
  by_cases quit : quits s'
  · simp only [quit, decide_true, if_true]
    refine refines_ok (.leave ⟨layout', settles', fun p isP => ?_⟩)
    rw [quit.1] at isP
    exact absurd isP (by simp)
  · simp only [quit, decide_false, Bool.false_eq_true, if_false]
    exact (settles'.executes faithful).bind fun m'' s'' later =>
      refines_ok (.again later)

end Framework

end OsPAs.Sched
