/-
Module: OsPAs.Sched.Termination
Purpose: Every run of a status-aware policy on a well-formed script ends, also
  in a deadlock, within a bound that the script gives.  Each tick is paid for:
  a tick that runs a process by the age it adds, a tick whose request is
  refused by the process that goes to sleep, which a release has to wake before
  it can be refused again, and an idle tick by the arrival it waits for.
Trusted boundary: none
Main exports: spent, entriesLeft, Prepared.progress, Serves.ticks_le,
  Serves.leaves, simulation_terminates
-/
import OsPAs.Sched.Deadlock
import OsPAs.Sched.Timing

namespace OsPAs.Sched

open Lib

variable {n : Nat}

/-! ### The account of a state -/

/-- What process `p` has paid: its age, and one while it is blocked. -/
def spentBy (s : Sim n) (p : Fin n) : Nat :=
  (s.procs p).age + if (s.procs p).status = .blocked then 1 else 0

/-- What all processes have paid. -/
def spent (s : Sim n) : Nat := ∑ p, spentBy s p

/-- Number of entries that process `p` still has to acquire or to release. -/
def entriesLeftOf (s : Sim n) (p : Fin n) : Nat :=
  (s.procs p).resourcesToAcquire.length + (s.procs p).resourcesHolding.length

/-- Number of entries not released yet. -/
def entriesLeft (s : Sim n) : Nat := ∑ p, entriesLeftOf s p

section Account

variable {s s' t : Sim n} {c : Fin n} {r : Fin nrResources}

theorem spent_congr (same : ∀ p, spentBy s' p = spentBy s p) :
    spent s' = spent s :=
  Finset.sum_congr rfl fun p _ => same p

theorem entriesLeft_congr (same : ∀ p, entriesLeftOf s' p = entriesLeftOf s p) :
    entriesLeft s' = entriesLeft s :=
  Finset.sum_congr rfl fun p _ => same p

/-- Updates that keep age and status cost nothing. -/
theorem spentBy_of_procs {p : Fin n} (age : (s'.procs p).age = (s.procs p).age)
    (status : (s'.procs p).status = (s.procs p).status) :
    spentBy s' p = spentBy s p := by
  simp only [spentBy, age, status]

theorem spent_granted (move : Requested s c r true s') : spent s' = spent s := by
  apply spent_congr
  intro p
  obtain ⟨k, eq⟩ := move.procs_granted p
  exact spentBy_of_procs (by rw [eq]) (by rw [eq])

theorem spent_hold (s : Sim n) (c : Fin n) (rs : ResourceSchedule) :
    spent (s.hold c rs) = spent s := by
  apply spent_congr
  intro p
  exact spentBy_of_procs (by rw [hold_procs]) (by rw [hold_procs])

/-- Falling asleep is paid for by the process that does. -/
theorem spent_refused (awake : ¬ isBlocked s c)
    (move : Requested s c r false s') : spent s' = spent s + 1 := by
  have paid (p : Fin n) :
      spentBy s' p = spentBy s p + if p = c then 1 else 0 := by
    obtain ⟨k, eq⟩ := move.procs_refused p
    unfold spentBy
    rw [eq]
    by_cases same : p = c
    · subst same
      unfold isBlocked at awake
      simp only [if_true, if_neg awake, Nat.add_zero]
    · simp only [if_neg same, Nat.add_zero]
  unfold spent
  simp only [paid, Finset.sum_add_distrib, Finset.sum_ite_eq', Finset.mem_univ,
    if_true]

/-- A release takes back what at most one process has paid. -/
theorem spent_released (move : Released s c r s') : spent s ≤ spent s' + 1 := by
  cases move with
  | quiet prio =>
      have same : spent ((s.setOwner r none).withPrio prio) = spent s :=
        spent_congr fun _ => rfl
      omega
  | @wake waiter prio owned isWaiting asleep =>
      have paid := sum_exchange (spentBy s)
        (spentBy (((s.setOwner r none).wake r waiter).withPrio prio)) waiter
        (by
          intro p other
          apply spentBy_of_procs
          · simp [Sim.withPrio, Sim.wake, Sim.setStatus, Sim.modify,
              Sim.delInitWait, Sim.setOwner, other]
          · simp [Sim.withPrio, Sim.wake, Sim.setStatus, Sim.modify,
              Sim.delInitWait, Sim.setOwner, other])
      have woken :
          spentBy (((s.setOwner r none).wake r waiter).withPrio prio) waiter =
            (s.procs waiter).age := by
        simp [spentBy, Sim.withPrio, Sim.wake, Sim.setStatus,
          Sim.modify, Sim.delInitWait, Sim.setOwner]
      have before : spentBy s waiter = (s.procs waiter).age + 1 := by
        unfold spentBy
        unfold isBlocked at asleep
        rw [if_pos asleep]
      unfold spent
      omega

/-- Growing older is paid for by the age it adds. -/
theorem spent_growOlder (small : (s.procs c).age + 1 < 2 ^ 32) :
    spent (growOlder c s) = spent s + 1 := by
  have paid (p : Fin n) :
      spentBy (growOlder c s) p = spentBy s p + if p = c then 1 else 0 := by
    unfold spentBy
    rw [growOlder_procs]
    by_cases same : p = c
    · subst same
      simp only [if_true, toUInt_of_lt small]
      omega
    · simp only [if_neg same, Nat.add_zero]
  unfold spent
  simp only [paid, Finset.sum_add_distrib, Finset.sum_ite_eq', Finset.mem_univ,
    if_true]

/-- The entries left once the current process has those given. -/
theorem entriesLeft_setToAcquire (s : Sim n) (c : Fin n)
    (stay : List ResourceSchedule) :
    entriesLeft (s.setToAcquire c stay) + (s.procs c).resourcesToAcquire.length =
      entriesLeft s + stay.length := by
  have exchanged := sum_exchange (entriesLeftOf (s.setToAcquire c stay))
    (entriesLeftOf s) c (by
      intro p other
      unfold entriesLeftOf
      rw [setToAcquire_procs]
      simp only [if_neg other])
  have own : entriesLeftOf (s.setToAcquire c stay) c =
      stay.length + (s.procs c).resourcesHolding.length := by
    unfold entriesLeftOf
    rw [setToAcquire_procs]
    simp only [if_true]
  unfold entriesLeft
  unfold entriesLeftOf at exchanged own ⊢
  omega

/-- The entries left once the current process holds those given. -/
theorem entriesLeft_setHolding (s : Sim n) (c : Fin n)
    (stay : List ResourceSchedule) :
    entriesLeft (s.setHolding c stay) + (s.procs c).resourcesHolding.length =
      entriesLeft s + stay.length := by
  have exchanged := sum_exchange (entriesLeftOf (s.setHolding c stay))
    (entriesLeftOf s) c (by
      intro p other
      unfold entriesLeftOf
      rw [setHolding_procs]
      simp only [if_neg other])
  have own : entriesLeftOf (s.setHolding c stay) c =
      (s.procs c).resourcesToAcquire.length + stay.length := by
    unfold entriesLeftOf
    rw [setHolding_procs]
    simp only [if_true]
  unfold entriesLeft
  unfold entriesLeftOf at exchanged own ⊢
  omega

/-- The entries left when one is linked into the held ones. -/
theorem entriesLeft_hold (s : Sim n) (c : Fin n) (rs : ResourceSchedule) :
    entriesLeft (s.hold c rs) = entriesLeft s + 1 := by
  have left (p : Fin n) :
      entriesLeftOf (s.hold c rs) p =
        entriesLeftOf s p + if p = c then 1 else 0 := by
    unfold entriesLeftOf
    rw [hold_procs]
    by_cases same : p = c
    · subst same
      simp only [if_true, List.length_append, List.length_singleton]
      omega
    · simp only [if_neg same, Nat.add_zero]
  unfold entriesLeft
  simp only [left, Finset.sum_add_distrib, Finset.sum_ite_eq', Finset.mem_univ,
    if_true]

/-- Updates that keep the entries leave their number alone. -/
theorem entriesLeft_of_sameEntries
    (same : ∀ p, SameEntries (s.procs p) (s'.procs p)) :
    entriesLeft s' = entriesLeft s := by
  apply entriesLeft_congr
  intro p
  unfold entriesLeftOf
  rw [(same p).wants, (same p).holds]

theorem Requested.entriesLeft_eq {granted : Bool}
    (move : Requested s c r granted s') : entriesLeft s' = entriesLeft s := by
  apply entriesLeft_of_sameEntries
  intro p
  cases granted with
  | true =>
      obtain ⟨k, eq⟩ := move.procs_granted p
      rw [eq]
      exact ⟨rfl, rfl, rfl⟩
  | false =>
      obtain ⟨k, eq⟩ := move.procs_refused p
      rw [eq]
      exact ⟨rfl, rfl, rfl⟩

theorem Released.entriesLeft_eq (move : Released s c r s') :
    entriesLeft s' = entriesLeft s := by
  apply entriesLeft_of_sameEntries
  intro p
  obtain ⟨k, status, eq, _⟩ := move.procs p
  rw [eq]
  exact ⟨rfl, rfl, rfl⟩

end Account

/-! ### One tick -/

section Tick

variable {all : Fin n → List ResourceSchedule} {guard : Sim n → Prop}
  {sched : Scheduler n} {s s' : Sim n} {c : Fin n}

/-- While process `c`, running from state `s`, visits its entries to acquire,
nothing is paid, and an entry only changes lists. -/
structure Unpaid (s : Sim n) (c : Fin n)
    (kept todo : List ResourceSchedule) (t : Sim n) : Prop where
  spent : spent t = spent s
  left : entriesLeft t + kept.length + todo.length =
    entriesLeft s + (t.procs c).resourcesToAcquire.length
  age : (t.procs c).age = (s.procs c).age

/-- After that the tick is paid for, and an entry that is given up pays for the
process it may wake. -/
def PaidFor (s : Sim n) (c : Fin n)
    (kept todo : List ResourceSchedule) (t : Sim n) : Prop :=
  spent s + entriesLeft t + kept.length + todo.length + 1 ≤
    spent t + entriesLeft s + (t.procs c).resourcesHolding.length

theorem Unpaid.granted {kept rest : List ResourceSchedule}
    {rs : ResourceSchedule} {t t' : Sim n} {r : Fin nrResources}
    (unpaid : Unpaid s c kept (rs :: rest) t)
    (move : Requested t c r true t') (event : Event n) :
    Unpaid s c kept rest ((t'.hold c rs).print event) := by
  obtain ⟨k, eq⟩ := move.procs_granted c
  refine ⟨?_, ?_, ?_⟩
  · exact ((spent_hold t' c rs).trans (spent_granted move)).trans unpaid.spent
  · have left := unpaid.left
    have held : entriesLeft ((t'.hold c rs).print event) = entriesLeft t + 1 :=
      (entriesLeft_hold t' c rs).trans (congrArg (· + 1) move.entriesLeft_eq)
    rw [held, Sim.print_procs, hold_procs, eq]
    simp only [List.length_cons] at left ⊢
    omega
  · rw [Sim.print_procs, hold_procs, eq]
    exact unpaid.age

theorem PaidFor.start {stay : List ResourceSchedule} {t : Sim n}
    (unpaid : Unpaid s c stay [] t)
    (small : (s.procs c).age + 1 < 2 ^ 32) (event : Event n) :
    PaidFor s c [] (t.procs c).resourcesHolding
      (growOlder c ((t.setToAcquire c stay).print event)) := by
  have left := entriesLeft_setToAcquire t c stay
  have before := unpaid.left
  have spentSame : spent ((t.setToAcquire c stay).print event) = spent t := by
    apply spent_congr
    intro p
    apply spentBy_of_procs
    · rw [Sim.print_procs, setToAcquire_procs]
    · rw [Sim.print_procs, setToAcquire_procs]
  have grown := spent_growOlder (s := (t.setToAcquire c stay).print event)
    (c := c) (by
      rw [Sim.print_procs, setToAcquire_procs, unpaid.age]
      exact small)
  have leftSame :
      entriesLeft (growOlder c ((t.setToAcquire c stay).print event)) =
        entriesLeft (t.setToAcquire c stay) := by
    apply entriesLeft_congr
    intro p
    unfold entriesLeftOf
    rw [growOlder_procs, Sim.print_procs]
  unfold PaidFor
  rw [leftSame, grown, spentSame, unpaid.spent, growOlder_procs,
    Sim.print_procs, setToAcquire_procs]
  simp only [List.length_nil] at before ⊢
  omega

theorem PaidFor.drop {kept rest : List ResourceSchedule}
    {rs : ResourceSchedule} {t t' : Sim n} {r : Fin nrResources}
    (paid : PaidFor s c kept (rs :: rest) t) (move : Released t c r t')
    (event : Event n) : PaidFor s c kept rest (t'.print event) := by
  obtain ⟨k, status, eq, _⟩ := move.procs c
  have left : entriesLeft (t'.print event) = entriesLeft t := move.entriesLeft_eq
  have printed : spent (t'.print event) = spent t' := spent_congr fun _ => rfl
  have woken := spent_released move
  unfold PaidFor at paid ⊢
  rw [left, Sim.print_procs, eq]
  simp only [List.length_cons] at paid ⊢
  omega

/-- What is carried through a tick of the chosen process, so that it is paid
for. -/
theorem account_carries (sched : Scheduler n) (prepared : Prepared all s)
    (isCurrent : s.current = some c) :
    Carries sched False s c (Unpaid s c)
      (fun stay t => spent t = spent s + 1 ∧ entriesLeft t + stay.length =
        entriesLeft s + (t.procs c).resourcesToAcquire.length)
      (PaidFor s c) where
  start := by
    have awake := prepared.dispatched.linked.runs c isCurrent
    refine ⟨?_, ?_, ?_⟩
    · apply spent_congr
      intro p
      unfold spentBy
      rw [setStatus_procs]
      unfold isBlocked at awake
      by_cases same : p = c
      · subst same
        simp only [if_true, reduceCtorEq, if_false, if_neg awake]
      · simp only [if_neg same]
    · have same : entriesLeft (s.setStatus c .running) = entriesLeft s := by
        apply entriesLeft_congr
        intro p
        unfold entriesLeftOf
        rw [setStatus_procs]
      rw [same, setStatus_procs]
      rfl
    · rw [setStatus_procs]
  skip := by
    intro kept rs rest t _ unpaid _
    refine ⟨unpaid.spent, ?_, unpaid.age⟩
    have left := unpaid.left
    simp only [List.length_append, List.length_cons, List.length_nil] at left ⊢
    omega
  grant := fun _ _ _ _ _ _ _ unpaid _ _ _ move => unpaid.granted move _
  refuse := by
    intro kept rs rest t inside t' busy unpaid _ _ _ move
    have awake : ¬ isBlocked t c := by
      unfold isBlocked
      rw [busy.running]
      simp
    obtain ⟨k, eq⟩ := move.procs_refused c
    have left := unpaid.left
    have same : entriesLeft (t'.print (.blocked c rs.resourceId)) =
        entriesLeft t := move.entriesLeft_eq
    refine ⟨?_, ?_⟩
    · exact (spent_refused awake move).trans (congrArg (· + 1) unpaid.spent)
    · rw [same, Sim.print_procs, eq, List.length_append]
      change entriesLeft t + _ = entriesLeft s +
        (t.procs c).resourcesToAcquire.length
      omega
  turn := by
    intro stay t _ unpaid _
    have alive := (prepared.fit c isCurrent).1
    have small := prepared.whole.small c
    unfold unfinished at alive
    exact PaidFor.start unpaid (by omega) _
  owns := fun _ _ _ _ _ _ _ => False.elim
  keep := by
    intro kept rs rest t _ paid _
    unfold PaidFor at paid ⊢
    simp only [List.length_append, List.length_cons, List.length_nil] at paid ⊢
    omega
  drop := fun _ _ _ _ _ _ _ paid _ _ move => paid.drop move _

/-- A tick of a process is paid for. -/
theorem Prepared.progress (contract : Contract True guard sched)
    (prepared : Prepared all s) (isCurrent : s.current = some c)
    (executedEq : OsPAs.Sched.execute sched s = .ok s') :
    spent s + entriesLeft s' + 1 ≤ spent s' + entriesLeft s := by
  obtain ⟨stay, t, ⟨rfl, _, after⟩ | ⟨rfl, _, paid⟩⟩ :=
    (account_carries sched prepared isCurrent).executed contract
      prepared.dispatched isCurrent executedEq
  · have left : entriesLeft (nextTick (t.setToAcquire c stay)) +
        (t.procs c).resourcesToAcquire.length = entriesLeft t + stay.length :=
      entriesLeft_setToAcquire t c stay
    have same : spent (nextTick (t.setToAcquire c stay)) = spent t := by
      apply spent_congr
      intro p
      exact spentBy_of_procs (by simp [nextTick, setToAcquire_procs])
        (by simp [nextTick, setToAcquire_procs])
    omega
  · have left : entriesLeft (nextTick (t.setHolding c stay)) +
        (t.procs c).resourcesHolding.length = entriesLeft t + stay.length :=
      entriesLeft_setHolding t c stay
    have same : spent (nextTick (t.setHolding c stay)) = spent t := by
      apply spent_congr
      intro p
      exact spentBy_of_procs (by simp [nextTick, setHolding_procs])
        (by simp [nextTick, setHolding_procs])
    unfold PaidFor at paid
    simp only [List.length_nil] at paid
    omega

/-- Dispatching costs nothing: the waiters stay blocked, and nobody else gets
blocked. -/
theorem dispatch_progress {mid : Sim n} (settled : Settled all s)
    (dispatching : Dispatching s mid) (prepared : Prepared all mid) :
    spent mid = spent s ∧ entriesLeft mid = entriesLeft s := by
  refine ⟨spent_congr fun p => ?_,
    entriesLeft_of_sameEntries dispatching.entries⟩
  have blocked : isBlocked mid p ↔ isBlocked s p := by
    constructor
    · intro asleep
      by_contra awake
      exact dispatching.awake p awake asleep
    · intro asleep
      obtain ⟨r, waits⟩ := settled.sound.linked.blocked p asleep
      rw [← dispatching.waitqueue] at waits
      exact prepared.dispatched.linked.waiting p r waits
  unfold isBlocked at blocked
  simp only [spentBy, (dispatching.entries p).age, blocked]

end Tick

/-! ### Whole runs -/

/-- Sum of all lifespans of the script. -/
def totalLifespan (script : List ProcessBlock) : Nat :=
  (script.map fun block => block.lifespan.toNat).sum

/-- Number of acquire lines of the script. -/
def acquireLines (script : List ProcessBlock) : Nat :=
  (script.map fun block => block.acquires.length).sum

section Runs

variable {script : List ProcessBlock} {guard : Sim script.length → Prop}
  {sched : Scheduler script.length} {k : Nat} {s mid : Sim script.length}

theorem sum_lifespanOf : ∑ p, lifespanOf script p = totalLifespan script :=
  Fin.sum_univ_fun_getElem script fun block => block.lifespan.toNat

theorem sum_entries_length :
    ∑ p, (entries script p).length = acquireLines script := by
  unfold acquireLines
  rw [← Fin.sum_univ_fun_getElem script fun block => block.acquires.length]
  apply Finset.sum_congr rfl
  intro p _
  exact List.length_map _

/-- Nobody has more entries left than the script gave it. -/
theorem Timed.entriesLeft_le (timed : Timed script k s) :
    entriesLeft s ≤ acquireLines script := by
  rw [← sum_entries_length]
  apply Finset.sum_le_sum
  intro p _
  have balanced := (timed.settled.books.ledger p).balance.length_eq
  have fewer := List.length_filter_le (pending (s.procs p).age) (entries script p)
  rw [List.length_append, List.length_map] at balanced
  unfold entriesLeftOf
  omega

/-- Nobody has paid more than its lifespan and one for being blocked. -/
theorem Timed.spent_le (timed : Timed script k s) :
    spent s ≤ totalLifespan script + script.length := by
  have each (p : Fin script.length) : spentBy s p ≤ lifespanOf script p + 1 := by
    have bounded := timed.settled.whole.bounded p
    rw [timed.lifespan] at bounded
    unfold spentBy
    split <;> omega
  calc spent s ≤ ∑ p, (lifespanOf script p + 1) :=
        Finset.sum_le_sum fun p _ => each p
    _ = totalLifespan script + script.length := by
        rw [Finset.sum_add_distrib, sum_lifespanOf, Finset.sum_const,
          Finset.card_univ, Fintype.card_fin, smul_eq_mul, Nat.mul_one]

/-- The processor idles only while somebody is still to be forked. -/
theorem PassOf.idle_before (pass : PassOf script sched k s mid)
    (timed : Timed script k s) (isIdle : mid.current = none)
    (goesOn : ¬ quits mid) : k < latestStart script := by
  have waiting : mid.forkqueue ≠ [] := fun forkedAll =>
    goesOn ⟨isIdle, pass.idle isIdle, forkedAll⟩
  obtain ⟨p, member⟩ := List.exists_mem_of_ne_nil _ waiting
  have ahead := (timed.awaited_dispatch pass.dispatching p).mp member
  have bound := startOf_le_latestStart p
  omega

/-- Every tick is paid for: up to the latest start by the ticks themselves,
after that by what the processes have paid. -/
theorem Serves.account (serves : Serves script guard sched)
    (reached : doSimulation script sched k = .ok (.again s)) :
    k + entriesLeft s ≤
      latestStart script + spent s + acquireLines script := by
  apply serves.invariant
    (fun k s => k + entriesLeft s ≤
      latestStart script + spent s + acquireLines script) _ _ reached
  · have start : Timed script 0 (load script) := serves.timed rfl
    have bound := start.entriesLeft_le
    omega
  · intro k s mid s' reached account pass goesOn executedEq next
    have timed := serves.timed reached
    obtain ⟨sameSpent, sameLeft⟩ :=
      dispatch_progress timed.settled pass.dispatching pass.prepared
    cases isCurrent : mid.current with
    | none =>
        have early := pass.idle_before timed isCurrent goesOn
        have bound := (serves.timed next).entriesLeft_le
        omega
    | some c =>
        have progress :=
          pass.prepared.progress serves.contract isCurrent executedEq
        omega

/-- A bound on the number of ticks that depends on the script only. -/
def tickBound (script : List ProcessBlock) : Nat :=
  latestStart script + totalLifespan script + script.length +
    acquireLines script

theorem Serves.ticks_le (serves : Serves script guard sched)
    (reached : doSimulation script sched k = .ok (.again s)) :
    k ≤ tickBound script := by
  have account := serves.account reached
  have paid := (serves.timed reached).spent_le
  unfold tickBound
  omega

/-- Every run ends, with all processes forked and nobody ready, in a pass
whose number is within the bound. -/
theorem Serves.leaves (serves : Serves script guard sched) :
    ∃ k ≤ tickBound script, ∃ s mid,
      doSimulation script sched k = .ok (.again s) ∧
        PassOf script sched k s mid ∧ quits mid ∧
        doSimulation script sched (k + 1) = .ok (.leave mid) := by
  by_contra never
  have goesOn (k : Nat) : ∃ s, doSimulation script sched k = .ok (.again s) := by
    induction k with
    | zero => exact ⟨load script, rfl⟩
    | succ k inductionHypothesis =>
        obtain ⟨s, reached⟩ := inductionHypothesis
        obtain ⟨mid, pass⟩ := serves.pass reached
        rcases pass.ends with ⟨ended, left⟩ | ⟨_, s', _, next⟩
        · exact absurd ⟨k, serves.ticks_le reached, s, mid, reached, pass, ended,
            left⟩ never
        · exact ⟨s', next⟩
  obtain ⟨s, reached⟩ := goesOn (tickBound script + 1)
  have bound := serves.ticks_le reached
  omega

end Runs

/-- Every run of a status-aware policy on a well-formed script ends, with or
without a deadlock, and at the `break` the tick counter is at most the latest
start tick plus the sum of all lifespans, the number of processes and the
number of acquire lines. -/
theorem simulation_terminates (script : List ProcessBlock) (policy : Policy)
    (aware : policy ∈ statusAware) (wellFormed : WellFormed script) :
    ∃ k s, doSimulation script policy.scheduler (k + 1) = .ok (.leave s) ∧
      s.ticks = toUInt k ∧
      k ≤ latestStart script + totalLifespan script + script.length +
        acquireLines script ∧
      s.ticks ≤ latestStart script + totalLifespan script + script.length +
        acquireLines script := by
  have serves := Policy.serves aware wellFormed
  obtain ⟨k, bound, s, mid, reached, pass, _, left⟩ := serves.leaves
  have ticks : mid.ticks = toUInt k :=
    pass.dispatching.ticks.trans (serves.timed reached).ticks
  refine ⟨k, mid, left, ticks, bound, ?_⟩
  rw [ticks]
  exact Nat.le_trans (Nat.mod_le k (2 ^ 32)) bound

/-- Also the run that ends in a deadlock ends within the bound. -/
theorem simulation_terminates_oppositeOrders :
    ∃ k s,
      doSimulation oppositeOrders prioScheduler (k + 1) = .ok (.leave s) ∧
      s.ticks = toUInt k ∧
      k ≤ latestStart oppositeOrders + totalLifespan oppositeOrders +
        oppositeOrders.length + acquireLines oppositeOrders ∧
      s.ticks ≤ latestStart oppositeOrders + totalLifespan oppositeOrders +
        oppositeOrders.length + acquireLines oppositeOrders :=
  simulation_terminates oppositeOrders .prio (by decide) (by decide)

end OsPAs.Sched
