/-
Module: OsPAs.Sched.MemorySafety
Purpose: Whole runs in memory: they do what the runs on lists do, and with the
  six policies that look at the status of the current process they follow no
  stray pointer, use nothing that was freed, and free everything but what a
  deadlock keeps.
Trusted boundary: none
Main exports: EnoughFuel, memory_refines_lists, memory_safe, jobs_leave_nothing
-/
import OsPAs.Sched.BusyTime
import OsPAs.Sched.MemoryLoad
import OsPAs.Sched.MemoryRuns

namespace OsPAs.Sched

open Lib

/-- The loops of a run on the script make fewer passes than there is fuel. -/
def EnoughFuel (script : List ProcessBlock) (fuel : Nat) : Prop :=
  script.length < fuel ∧ ∀ block ∈ script, block.acquires.length < fuel

instance (script : List ProcessBlock) (fuel : Nat) :
    Decidable (EnoughFuel script fuel) :=
  inferInstanceAs (Decidable (_ ∧ _))

section Runs

variable {script : List ProcessBlock} {fuel k : Nat}

theorem snd_numbered (block : ProcessBlock) :
    (numbered block).map Prod.snd = block.acquires.map AcquireLine.schedule := by
  rw [numbered, List.map_map]
  change (block.acquires.zipIdx.map (AcquireLine.schedule ∘ Prod.fst)) = _
  rw [← List.map_map, List.zipIdx_map_fst]

/-- What `__load_script` leaves is in order. -/
theorem load_atTop (enough : EnoughFuel script fuel) :
    ∃ m, InMemory.load script = .ok m ∧ AtTop fuel m (load script) := by
  obtain ⟨m, loaded, represents⟩ := load_represents script
  have wants (p : Fin script.length) :
      (Layout.loaded script (List.finRange script.length)).wants p =
        numbered (script.get p) := by simp [Layout.loaded]
  refine ⟨m, loaded, _, ⟨⟨represents, fun p => ?_, fun r p owns => ?_,
    fun p => ?_⟩, fun p => ?_, fun p => ?_⟩, fun c isCurrent => ?_⟩
  · simp [Layout.loaded, load, ProcessBlock.process]
  · simp [load] at owns
  · rw [wants]
    simpa [Layout.loaded, numbered] using
      enough.2 (script.get p) (List.get_mem script p)
  · rw [WantsListed, wants, snd_numbered]
    rfl
  · simp [HoldsListed, Layout.loaded, load, ProcessBlock.process]
  · simp [load] at isCurrent

end Runs

/-- For every script, each of the eight policies and every number of passes, the
run in memory ends as the run on lists does: at the top of a pass, or behind the
loop, with a memory that stands for the same state and the same output, or with
the same fault.  Only where a node is linked that is still in a list the lists say
nothing about the memory. -/
theorem memory_refines_lists (script : List ProcessBlock) (policy : Policy)
    (fuel : Nat) (enough : EnoughFuel script fuel) (k : Nat) :
    Refines seen (Alike (AtTop fuel))
      (InMemory.doSimulation fuel script policy k)
      (doSimulation script policy.scheduler k) := by
  obtain ⟨m, loaded, atTop⟩ := load_atTop enough
  rw [InMemory.doSimulation, loaded]
  exact refines_iterate (fun _ _ atTop =>
    body_refines enough.1 (scheduler_faithful enough.1 policy) atTop) atTop k

/-- Also the run in which the second process is blocked by the first. -/
theorem memory_refines_lists_oppositeOrders :
    Refines seen (Alike (AtTop 3))
      (InMemory.doSimulation 3 oppositeOrders .pip 9)
      (doSimulation oppositeOrders pipScheduler 9) :=
  memory_refines_lists oppositeOrders .pip 3 (by decide) 9

/-! ### Where the run on lists has no fault -/

section Served

variable {script : List ProcessBlock} {fuel k : Nat} {policy : Policy}
  {guard : Sim script.length → Prop} {mid : Sim script.length}

/-- A run that goes on on lists goes on in memory. -/
theorem Serves.runs_in_memory (serves : Serves script guard policy.scheduler)
    (enough : EnoughFuel script fuel) (k : Nat) :
    ∃ pass, InMemory.doSimulation fuel script policy k = .ok pass := by
  have refines := memory_refines_lists script policy fuel enough k
  cases outcome : doSimulation script policy.scheduler k with
  | error fault => exact absurd outcome (serves.never_faults k fault)
  | ok pass' =>
      rw [outcome] at refines
      obtain ⟨pass, ran, _⟩ := refines
      exact ⟨pass, ran⟩

/-- A run that is left on lists is left in memory. -/
theorem leaves_in_memory (enough : EnoughFuel script fuel)
    (left : doSimulation script policy.scheduler k = .ok (.leave mid)) :
    ∃ m, InMemory.doSimulation fuel script policy k = .ok (.leave m) ∧
      AtTop fuel m mid := by
  have refines := memory_refines_lists script policy fuel enough k
  rw [left] at refines
  obtain ⟨pass, ran, alike⟩ := refines
  cases alike with
  | leave atTop => exact ⟨_, ran, atTop⟩

end Served

section Left

variable {n : Nat} {all : Fin n → List ResourceSchedule} {fuel : Nat}
  {layout : Layout n} {m : Memory n} {s : Sim n} {p : Fin n}

/-- Nothing of the process is left in memory. -/
def Memory.released (m : Memory n) (p : Fin n) : Prop :=
  m.procs p = none ∧ ∀ i, m.schedules p i = none

/-- The process is blocked, and linked into the list of a resource. -/
def Memory.waiting (m : Memory n) (p : Fin n) : Prop :=
  (∃ fields, m.procs p = some fields ∧ fields.status = .blocked) ∧
    ∃ r xs, Ring m.links (.waitqueue r) xs ∧ .list p ∈ xs

theorem Settles.released (settles : Settles fuel layout m s)
    (prepared : Prepared all s) (fitting : Fitting all s)
    (exited : (s.procs p).status = .exit) : m.released p := by
  obtain ⟨noHolding, noneToAcquire⟩ := prepared.exited_empty fitting exited
  have noWants : layout.wants p = [] := by
    have listed := settles.wants p
    rw [WantsListed, noneToAcquire] at listed
    simpa using listed.symm
  have noHolds : layout.holds p = [] := by
    have listed := settles.holds p
    rw [HoldsListed, noHolding] at listed
    simpa using listed.symm
  constructor
  · rw [settles.represents.fields p, if_pos ((settles.ended p).mpr exited)]
  · intro i
    rw [Option.eq_none_iff_forall_ne_some]
    intro rs entry
    have member := (settles.represents.entries p i rs).mp entry
    simp [noWants, noHolds] at member

theorem Settles.waiting (settles : Settles fuel layout m s)
    (prepared : Prepared all s) {r : Fin nrResources}
    (waits : p ∈ s.waitqueue r) : m.waiting p := by
  have asleep : (s.procs p).status = .blocked :=
    prepared.dispatched.linked.waiting p r waits
  have alive := settles.alive (by rw [asleep]; decide)
  refine ⟨⟨InMemory.fieldsOf (s.procs p), ?_, asleep⟩, r, _,
    settles.represents.arranged.ring _ _ rfl, List.mem_map_of_mem waits⟩
  rw [settles.represents.fields p, alive]
  rfl

/-- When the loop is left. -/
theorem Settles.released_or_waiting (settles : Settles fuel layout m s)
    (prepared : Prepared all s) (fitting : Fitting all s) (quit : quits s)
    (p : Fin n) : m.released p ∨ m.waiting p := by
  by_cases exited : (s.procs p).status = .exit
  · exact Or.inl (settles.released prepared fitting exited)
  · obtain ⟨r, waits⟩ := prepared.waits_of_quits quit exited
    exact Or.inr (settles.waiting prepared waits)

end Left

/-- With the policies that look at the status of the current process, no run in
memory on a well-formed script fails an `assert`, follows a stray pointer, uses a
structure that was freed or loops for ever, and behind its loop every process has
been freed with all its `resource_schedule`s, or is blocked. -/
theorem memory_safe (script : List ProcessBlock) (policy : Policy)
    (aware : policy ∈ statusAware) (wellFormed : WellFormed script) (fuel : Nat)
    (enough : EnoughFuel script fuel) :
    (∀ k, ∃ pass, InMemory.doSimulation fuel script policy k = .ok pass) ∧
      ∃ k m, k ≤ tickBound script ∧
        InMemory.doSimulation fuel script policy (k + 1) = .ok (.leave m) ∧
        ∀ p, m.released p ∨ m.waiting p := by
  have serves := Policy.serves aware wellFormed
  refine ⟨serves.runs_in_memory enough, ?_⟩
  obtain ⟨k, bound, s, mid, _, pass, quit, left⟩ := serves.leaves
  obtain ⟨m, ran, layout, settles, _⟩ := leaves_in_memory enough left
  exact ⟨k, m, bound, ran,
    settles.released_or_waiting pass.prepared pass.fitting quit⟩

/-- The two processes of this script block each other under `prio`. -/
theorem memory_safe_oppositeOrders :
    (∀ k, ∃ pass,
        InMemory.doSimulation 3 oppositeOrders .prio k = .ok pass) ∧
      ∃ k m, k ≤ tickBound oppositeOrders ∧
        InMemory.doSimulation 3 oppositeOrders .prio (k + 1) = .ok (.leave m) ∧
        ∀ p, m.released p ∨ m.waiting p :=
  memory_safe oppositeOrders .prio (by decide) (by decide) 3 (by decide)

/-- On a script of jobs, whose lifespans are below the sentinel of STCF, all eight
policies run in memory without a fault and leave nothing of any process. -/
theorem jobs_leave_nothing (script : List ProcessBlock) (policy : Policy)
    (jobs : JobScript script) (fuel : Nat) (enough : EnoughFuel script fuel) :
    (∀ k, ∃ pass, InMemory.doSimulation fuel script policy k = .ok pass) ∧
      ∃ k m, k ≤ tickBound script ∧
        InMemory.doSimulation fuel script policy (k + 1) = .ok (.leave m) ∧
        ∀ p, m.released p := by
  have serves := jobs.serves policy
  refine ⟨serves.runs_in_memory enough, ?_⟩
  obtain ⟨k, bound, s, mid, reached, pass, quit, left⟩ := serves.leaves
  obtain ⟨m, ran, layout, settles, _⟩ := leaves_in_memory enough left
  refine ⟨k, m, bound, ran, fun p => ?_⟩
  have exited := pass.exited_of_idle (serves.timed reached).settled
    jobs.entries_eq quit.1 (p := p) (by simp [quit.2.2])
  exact settles.released pass.prepared pass.fitting exited

theorem jobs_leave_nothing_jobsWithGap :
    (∀ k, ∃ pass,
        InMemory.doSimulation 4 jobsWithGap .rr k = .ok pass) ∧
      ∃ k m, k ≤ tickBound jobsWithGap ∧
        InMemory.doSimulation 4 jobsWithGap .rr (k + 1) = .ok (.leave m) ∧
        ∀ p, m.released p :=
  jobs_leave_nothing jobsWithGap .rr (by decide) 4 (by decide)

end OsPAs.Sched
