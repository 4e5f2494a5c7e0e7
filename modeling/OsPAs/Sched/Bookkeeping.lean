/-
Module: OsPAs.Sched.Bookkeeping
Purpose: The two entry lists of every process, the owners of the resources and
  the ages stay in step, and no assertion fails, along all runs of the
  status-aware policies on well-formed scripts.
Trusted boundary: none
Main exports: WellFormed, Ledger, Books, Waits, Settled, Prepared,
  Settled.dispatch, Prepared.execute, reached_settled, bookkeeping_exact
-/
import OsPAs.Sched.Conservation
import Mathlib.Data.List.Perm.Basic

namespace OsPAs.Sched

open Lib

variable {n : Nat}

/-! ### Scripts -/

/-- Every lifespan is at least one, and every acquire line names one of the
sixteen resources, lasts at least one tick and is over by the end of the
process. -/
def WellFormed (script : List ProcessBlock) : Prop :=
  ∀ block ∈ script, 1 ≤ block.lifespan.toNat ∧ ∀ line ∈ block.acquires,
    line.resourceId.toNat < nrResources ∧ 1 ≤ line.duration.toNat ∧
      line.atAge.toNat + line.duration.toNat ≤ block.lifespan.toNat

instance (script : List ProcessBlock) : Decidable (WellFormed script) :=
  inferInstanceAs
    (Decidable (∀ block ∈ script, _ ∧ ∀ line ∈ block.acquires, _))

theorem WellFormed.positive {script : List ProcessBlock}
    (wellFormed : WellFormed script) : PositiveLifespans script :=
  fun block member => (wellFormed block member).1

theorem WellFormed.known {script : List ProcessBlock}
    (wellFormed : WellFormed script) : KnownScript script :=
  fun block member line lineMember =>
    ((wellFormed block member).2 line lineMember).1

/-- The acquire entries that the script gives to process `p`. -/
def entries (script : List ProcessBlock) (p : Fin script.length) :
    List ResourceSchedule :=
  (script.get p).acquires.map AcquireLine.schedule

/-! ### The ledger of one process -/

/-- The entry as it was acquired, recovered at the given age from what is left
of it. -/
def restored (age : Nat) (rs : ResourceSchedule) : ResourceSchedule :=
  { rs with duration := rs.duration + (age - rs.atAge) }

/-- The entry is not over at the given age. -/
def pending (age : Nat) (rs : ResourceSchedule) : Bool :=
  age < rs.atAge + rs.duration

/-- The two lists of a process hold exactly its pending entries: those to
acquire are not late, those being held have begun. -/
structure Ledger (all : List ResourceSchedule) (age : Nat)
    (wants holds : List ResourceSchedule) : Prop where
  balance : (wants ++ holds.map (restored age)).Perm (all.filter (pending age))
  ahead : ∀ rs ∈ wants, age ≤ rs.atAge
  begun : ∀ rs ∈ holds, rs.atAge ≤ age

/-- The ledger while the releases of a tick are under way: the entries `kept`
are counted down already, the entries `todo` are not. -/
structure Countdown (all : List ResourceSchedule) (age : Nat)
    (wants kept todo : List ResourceSchedule) : Prop where
  balance : (wants ++ (kept.map (restored (age + 1)) ++
    (todo.map (restored age)).filter (pending (age + 1)))).Perm
      (all.filter (pending (age + 1)))
  ahead : ∀ rs ∈ wants, age + 1 ≤ rs.atAge
  begun : ∀ rs ∈ kept ++ todo, rs.atAge ≤ age
  left : ∀ rs ∈ todo, 1 ≤ rs.duration

theorem restored_of_now {age : Nat} {rs : ResourceSchedule}
    (now : rs.atAge = age) : restored age rs = rs := by
  cases rs
  simp only [restored] at now ⊢
  simp [now]

theorem pending_restored {age : Nat} {rs : ResourceSchedule}
    (begun : rs.atAge ≤ age) :
    pending age (restored age rs) = true ↔ 1 ≤ rs.duration := by
  unfold pending restored
  rw [decide_eq_true_eq]
  change age < rs.atAge + (rs.duration + (age - rs.atAge)) ↔ _
  omega

theorem pending_next_restored {age : Nat} {rs : ResourceSchedule}
    (begun : rs.atAge ≤ age) :
    pending (age + 1) (restored age rs) = true ↔ 2 ≤ rs.duration := by
  unfold pending restored
  rw [decide_eq_true_eq]
  change age + 1 < rs.atAge + (rs.duration + (age - rs.atAge)) ↔ _
  omega

theorem restored_countDown {age : Nat} {rs : ResourceSchedule}
    (begun : rs.atAge ≤ age) (left : 1 ≤ rs.duration) :
    restored (age + 1) rs.countDown = restored age rs := by
  cases rs
  simp only [restored, ResourceSchedule.countDown, subUInt_of_le left,
    ResourceSchedule.mk.injEq, true_and]
  simp only at begun left
  omega

namespace Ledger

variable {all wants holds kept rest : List ResourceSchedule} {age : Nat}
  {rs : ResourceSchedule}

/-- At age zero everything is still to be acquired. -/
theorem initial (lasting : ∀ rs ∈ all, 1 ≤ rs.duration) :
    Ledger all 0 all [] where
  balance := by
    have everything : all.filter (pending 0) = all :=
      List.filter_eq_self.mpr fun rs member => by
        have lasts := lasting rs member
        simp only [pending, decide_eq_true_eq]
        omega
    rw [everything]
    simp
  ahead := fun _ _ => Nat.zero_le _
  begun := by simp

/-- A held entry has time left. -/
theorem left (ledger : Ledger all age wants holds) (member : rs ∈ holds) :
    1 ≤ rs.duration := by
  have restoredMember : restored age rs ∈ all.filter (pending age) :=
    ledger.balance.mem_iff.mp
      (List.mem_append_right _ (List.mem_map_of_mem member))
  exact (pending_restored (ledger.begun rs member)).mp
    (List.mem_filter.mp restoredMember).2

/-- Moving a due entry to the held ones. -/
theorem grant (ledger : Ledger all age (kept ++ rs :: rest) holds)
    (now : rs.atAge = age) : Ledger all age (kept ++ rest) (holds ++ [rs]) where
  balance := by
    have moved : (kept ++ rest ++ (holds.map (restored age) ++ [rs])).Perm
        (kept ++ rs :: rest ++ holds.map (restored age)) := by
      rw [← List.append_assoc]
      exact (List.perm_append_singleton rs _).trans
        (List.perm_middle.symm.append_right _)
    rw [List.map_append, List.map_singleton, restored_of_now now]
    exact moved.trans ledger.balance
  ahead := fun other member => ledger.ahead other (by
    rcases List.mem_append.mp member with old | new
    · exact List.mem_append_left _ old
    · exact List.mem_append_right _ (List.mem_cons_of_mem rs new))
  begun := fun other member => by
    rcases List.mem_append.mp member with old | new
    · exact ledger.begun other old
    · obtain rfl : other = rs := by simpa using new
      exact Nat.le_of_eq now

/-- Growing older once nothing is due any more. -/
theorem countdown (ledger : Ledger all age wants holds)
    (lasting : ∀ rs ∈ all, 1 ≤ rs.duration)
    (notDue : ∀ rs ∈ wants, rs.atAge ≠ age) :
    Countdown all age wants [] holds where
  balance := by
    have later (rs : ResourceSchedule) :
        (pending (age + 1) rs && pending age rs) = pending (age + 1) rs := by
      simp only [pending]
      by_cases next : age + 1 < rs.atAge + rs.duration
      · have now : age < rs.atAge + rs.duration := by omega
        simp [next, now]
      · simp [next]
    have stays : wants.filter (pending (age + 1)) = wants :=
      List.filter_eq_self.mpr fun rs member => by
        have listed := (List.mem_filter.mp
          (ledger.balance.mem_iff.mp (List.mem_append_left _ member))).1
        have lasts := lasting rs listed
        have ahead := ledger.ahead rs member
        have notNow := notDue rs member
        simp only [pending, decide_eq_true_eq]
        omega
    have filtered := ledger.balance.filter (pending (age + 1))
    rw [List.filter_filter, List.filter_append, stays] at filtered
    simp only [later] at filtered
    simpa using filtered
  ahead := fun rs member => Nat.lt_of_le_of_ne (ledger.ahead rs member)
    (notDue rs member).symm
  begun := by simpa using ledger.begun
  left := fun rs member => ledger.left member

/-- At the end of its life a process has nothing left in its lists. -/
theorem finished (ledger : Ledger all age wants holds)
    (ended : ∀ rs ∈ all, rs.atAge + rs.duration ≤ age) :
    holds = [] ∧ wants = [] := by
  have nothing : all.filter (pending age) = [] :=
    List.filter_eq_nil_iff.mpr fun rs member => by
      have ended := ended rs member
      simp only [pending, decide_eq_true_eq]
      omega
  have balance := ledger.balance
  rw [nothing, List.perm_nil, List.append_eq_nil_iff,
    List.map_eq_nil_iff] at balance
  exact ⟨balance.2, balance.1⟩

end Ledger

namespace Countdown

variable {all wants kept rest : List ResourceSchedule} {age : Nat}
  {rs : ResourceSchedule}

/-- An entry with more than one tick left is kept. -/
theorem keep (countdown : Countdown all age wants kept (rs :: rest))
    (goesOn : subUInt rs.duration 1 ≠ 0) :
    Countdown all age wants (kept ++ [rs.countDown]) rest where
  balance := by
    have begun := countdown.begun rs (by simp)
    have left := countdown.left rs List.mem_cons_self
    have long : 2 ≤ rs.duration := by
      rw [subUInt_of_le left] at goesOn
      omega
    have balance := countdown.balance
    rw [List.map_cons,
      List.filter_cons_of_pos ((pending_next_restored begun).mpr long)]
      at balance
    rw [List.map_append, List.map_singleton, restored_countDown begun left,
      List.append_assoc]
    exact balance
  ahead := countdown.ahead
  begun := fun other member => by
    have begun := countdown.begun rs (by simp)
    simp only [List.append_assoc, List.mem_append, List.mem_cons,
      List.not_mem_nil, or_false] at member
    rcases member with old | rfl | new
    · exact countdown.begun other (List.mem_append_left _ old)
    · exact begun
    · exact countdown.begun other
        (List.mem_append_right _ (List.mem_cons_of_mem rs new))
  left := fun other member =>
    countdown.left other (List.mem_cons_of_mem rs member)

/-- An entry in its last tick is released. -/
theorem drop (countdown : Countdown all age wants kept (rs :: rest))
    (ended : subUInt rs.duration 1 = 0) :
    Countdown all age wants kept rest where
  balance := by
    have begun := countdown.begun rs (by simp)
    have left := countdown.left rs List.mem_cons_self
    have last : ¬ 2 ≤ rs.duration := by
      rw [subUInt_of_le left] at ended
      omega
    have balance := countdown.balance
    rwa [List.map_cons, List.filter_cons_of_neg
      ((pending_next_restored begun).not.mpr last)] at balance
  ahead := countdown.ahead
  begun := fun other member => countdown.begun other (by
    rcases List.mem_append.mp member with old | new
    · exact List.mem_append_left _ old
    · exact List.mem_append_right _ (List.mem_cons_of_mem rs new))
  left := fun other member =>
    countdown.left other (List.mem_cons_of_mem rs member)

/-- After the releases the ledger is the one of the next age. -/
theorem ledger (countdown : Countdown all age wants kept []) :
    Ledger all (age + 1) wants kept where
  balance := by simpa using countdown.balance
  ahead := countdown.ahead
  begun := fun rs member =>
    Nat.le_succ_of_le (countdown.begun rs (by simpa using member))

end Countdown

/-! ### The books of the whole system -/

/-- Number of entries for resource `r`. -/
def entriesFor (r : Fin nrResources) (list : List ResourceSchedule) : Nat :=
  list.countP fun rs => rs.resourceId = r.val

/-- Every process keeps its ledger, and a process owns a resource exactly if it
holds an entry for it, and then it holds one. -/
structure Books (all : Fin n → List ResourceSchedule) (s : Sim n) : Prop where
  ledger : ∀ p, Ledger (all p) (s.procs p).age
    (s.procs p).resourcesToAcquire (s.procs p).resourcesHolding
  owned : ∀ p r, entriesFor r (s.procs p).resourcesHolding =
    if s.owner r = some p then 1 else 0

/-- The books while the current process `c`, having grown older than `age`, is
releasing: its entries are `kept` and `todo`. -/
structure OpenBooks (all : Fin n → List ResourceSchedule) (s : Sim n)
    (c : Fin n) (age : Nat) (kept todo : List ResourceSchedule) : Prop where
  others : ∀ p, p ≠ c → Ledger (all p) (s.procs p).age
    (s.procs p).resourcesToAcquire (s.procs p).resourcesHolding
  countdown : Countdown (all c) age (s.procs c).resourcesToAcquire kept todo
  isAge : (s.procs c).age = age + 1
  ownedOthers : ∀ p, p ≠ c → ∀ r, entriesFor r (s.procs p).resourcesHolding =
    if s.owner r = some p then 1 else 0
  owned : ∀ r, entriesFor r (kept ++ todo) =
    if s.owner r = some c then 1 else 0

/-- The resource that a process asks for next at its present age. -/
def Process.firstDue (p : Process) : Option Nat :=
  (p.resourcesToAcquire.find? fun rs => rs.atAge = p.age).map (·.resourceId)

/-- Every waiter asks for the resource it waits for, and a resource that has
waiters but no owner is about to be asked for by somebody who is not blocked. -/
structure Waits (s : Sim n) : Prop where
  asks : ∀ p r, p ∈ s.waitqueue r → (s.procs p).firstDue = some r.val
  answered : ∀ r p, p ∈ s.waitqueue r → s.owner r = none →
    ∃ q, ¬ isBlocked s q ∧ (s.procs q).firstDue = some r.val

section Moves

variable {all : Fin n → List ResourceSchedule} {s s' : Sim n} {c : Fin n}
  {r : Fin nrResources} {kept rest : List ResourceSchedule}
  {rs : ResourceSchedule}

/-- The parts of a process that the books and the waiting list read. -/
structure SameEntries (before after : Process) : Prop where
  age : after.age = before.age
  wants : after.resourcesToAcquire = before.resourcesToAcquire
  holds : after.resourcesHolding = before.resourcesHolding

theorem Books.congr (books : Books all s) (owner : s'.owner = s.owner)
    (same : ∀ p, SameEntries (s.procs p) (s'.procs p)) : Books all s' where
  ledger := fun p => by
    rw [(same p).age, (same p).wants, (same p).holds]
    exact books.ledger p
  owned := fun p r => by
    rw [(same p).holds, owner]
    exact books.owned p r

theorem Waits.of_firstDue (waits : Waits s) (owner : s'.owner = s.owner)
    (waitqueue : s'.waitqueue = s.waitqueue)
    (same : ∀ p, (s'.procs p).firstDue = (s.procs p).firstDue)
    (awake : ∀ p, ¬ isBlocked s p → ¬ isBlocked s' p) : Waits s' where
  asks := fun p r member => by
    rw [same]
    exact waits.asks p r (waitqueue ▸ member)
  answered := fun r p member free => by
    obtain ⟨q, isAwake, due⟩ :=
      waits.answered r p (waitqueue ▸ member) (owner ▸ free)
    exact ⟨q, awake q isAwake, by rw [same]; exact due⟩

theorem Waits.congr (waits : Waits s) (owner : s'.owner = s.owner)
    (waitqueue : s'.waitqueue = s.waitqueue)
    (same : ∀ p, SameEntries (s.procs p) (s'.procs p))
    (awake : ∀ p, ¬ isBlocked s p → ¬ isBlocked s' p) : Waits s' :=
  waits.of_firstDue owner waitqueue
    (fun p => by unfold Process.firstDue; rw [(same p).age, (same p).wants])
    awake

/-- Taking a free resource for a due entry. -/
theorem Books.granted (books : Books all (s.setToAcquire c (kept ++ rs :: rest)))
    (now : rs.atAge = (s.procs c).age) {inside : rs.resourceId < nrResources}
    (move : Requested s c ⟨rs.resourceId, inside⟩ true s') (event : Event n) :
    Books all (((s'.hold c rs).print event).setToAcquire c (kept ++ rest)) where
  ledger := fun p => by
    have before := books.ledger p
    obtain ⟨k, eq⟩ := move.procs_granted p
    rw [setToAcquire_procs] at before ⊢
    rw [Sim.print_procs, hold_procs, eq]
    by_cases same : p = c
    · subst same
      simp only [if_pos] at before ⊢
      exact before.grant now
    · simp only [if_neg same] at before ⊢
      exact before
  owned := fun p i => by
    have before := books.owned p i
    obtain ⟨k, eq⟩ := move.procs_granted p
    rw [setToAcquire_procs] at before ⊢
    rw [Sim.print_procs, hold_procs, eq]
    change entriesFor i (s.procs p).resourcesHolding =
      if s.owner i = some p then 1 else 0 at before
    cases move with
    | granted prio free =>
        change entriesFor i (if p = c then (s.procs p).resourcesHolding ++ [rs]
            else (s.procs p).resourcesHolding) =
          if Function.update s.owner ⟨rs.resourceId, inside⟩ (some c) i = some p
            then 1 else 0
        by_cases sameResource : i = ⟨rs.resourceId, inside⟩
        · subst sameResource
          rw [free] at before
          rw [Function.update_self]
          by_cases same : p = c
          · subst same
            simp only [entriesFor, reduceCtorEq, if_false] at before
            simp [entriesFor, List.countP_append, before]
          · simp only [if_neg same, Option.some.injEq, Ne.symm same, if_false]
            simpa using before
        · have other : rs.resourceId ≠ i.val := fun eq =>
            sameResource (Fin.ext eq.symm)
          rw [Function.update_of_ne sameResource, ← before]
          by_cases same : p = c
          · simp [same, entriesFor, List.countP_append, other]
          · rw [if_neg same]

/-- A refused request changes neither entries nor owners. -/
theorem Books.refused {stay : List ResourceSchedule}
    (books : Books all (s.setToAcquire c stay))
    (move : Requested s c r false s') (event : Event n) :
    Books all ((s'.print event).setToAcquire c stay) := by
  refine books.congr move.owner_refused fun p => ?_
  obtain ⟨k, eq⟩ := move.procs_refused p
  rw [setToAcquire_procs, setToAcquire_procs, Sim.print_procs, eq]
  exact ⟨rfl, rfl, rfl⟩

/-- Growing older opens the books of the current process. -/
theorem Books.opened {stay : List ResourceSchedule} {age : Nat}
    (books : Books all (s.setToAcquire c stay))
    (lasting : ∀ rs ∈ all c, 1 ≤ rs.duration)
    (notDue : ∀ rs ∈ stay, rs.atAge ≠ (s.procs c).age)
    (isAge : (s.procs c).age = age) (small : age + 1 < 2 ^ 32)
    (event : Event n) :
    OpenBooks all (growOlder c ((s.setToAcquire c stay).print event)) c age []
      (s.procs c).resourcesHolding where
  others := fun p other => by
    have before := books.ledger p
    rw [setToAcquire_procs] at before
    rw [growOlder_procs, Sim.print_procs, setToAcquire_procs]
    simp only [if_neg other] at before ⊢
    exact before
  countdown := by
    have before := books.ledger c
    rw [setToAcquire_procs] at before
    rw [growOlder_procs, Sim.print_procs, setToAcquire_procs]
    simp only [if_pos] at before ⊢
    rw [isAge] at before notDue
    exact before.countdown lasting notDue
  isAge := by
    rw [growOlder_procs, Sim.print_procs, setToAcquire_procs]
    simp only [if_pos, isAge]
    exact toUInt_of_lt small
  ownedOthers := fun p _ i => by
    have before := books.owned p i
    rw [setToAcquire_procs] at before
    rw [growOlder_procs, Sim.print_procs, setToAcquire_procs]
    exact before
  owned := fun i => by
    have before := books.owned c i
    rw [setToAcquire_procs] at before
    exact before

namespace OpenBooks

variable {age : Nat}

theorem owns {inside : rs.resourceId < nrResources}
    (books : OpenBooks all s c age kept (rs :: rest)) :
    s.owner ⟨rs.resourceId, inside⟩ = some c := by
  have counted := books.owned ⟨rs.resourceId, inside⟩
  by_contra other
  rw [if_neg other] at counted
  simp [entriesFor, List.countP_append] at counted

theorem keep (books : OpenBooks all s c age kept (rs :: rest))
    (goesOn : subUInt rs.duration 1 ≠ 0) :
    OpenBooks all s c age (kept ++ [rs.countDown]) rest where
  others := books.others
  countdown := books.countdown.keep goesOn
  isAge := books.isAge
  ownedOthers := books.ownedOthers
  owned := fun i => by
    rw [← books.owned i]
    have single : entriesFor i [rs.countDown] = entriesFor i [rs] := rfl
    have split : entriesFor i (kept ++ [rs.countDown] ++ rest) =
        entriesFor i kept + entriesFor i [rs.countDown] + entriesFor i rest := by
      simp only [entriesFor, List.countP_append]
    have joined : entriesFor i (kept ++ rs :: rest) =
        entriesFor i kept + entriesFor i [rs] + entriesFor i rest := by
      rw [List.append_cons]
      simp only [entriesFor, List.countP_append]
    rw [split, joined, single]

theorem drop (books : OpenBooks all s c age kept (rs :: rest))
    (ended : subUInt rs.duration 1 = 0) {inside : rs.resourceId < nrResources}
    (move : Released s c ⟨rs.resourceId, inside⟩ s') (event : Event n) :
    OpenBooks all (s'.print event) c age kept rest := by
  have owner (i : Fin nrResources) : s'.owner i =
      if i = ⟨rs.resourceId, inside⟩ then none else s.owner i := by
    rw [move.owner, Function.update_apply]
  have owned : s.owner ⟨rs.resourceId, inside⟩ = some c := books.owns
  have same (p : Fin n) : SameEntries (s.procs p) (s'.procs p) := by
    obtain ⟨k, status, eq, _⟩ := move.procs p
    rw [eq]
    exact ⟨rfl, rfl, rfl⟩
  refine
    { others := fun p other => ?_
      countdown := ?_
      isAge := ?_
      ownedOthers := fun p other i => ?_
      owned := fun i => ?_ }
  · rw [Sim.print_procs, (same p).age, (same p).wants, (same p).holds]
    exact books.others p other
  · rw [Sim.print_procs, (same c).wants]
    exact books.countdown.drop ended
  · rw [Sim.print_procs, (same c).age]
    exact books.isAge
  · rw [Sim.print_procs, Sim.print_owner, (same p).holds,
      books.ownedOthers p other i, owner]
    by_cases sameResource : i = ⟨rs.resourceId, inside⟩
    · subst sameResource
      simp [owned, Ne.symm other]
    · rw [if_neg sameResource]
  · have counted := books.owned i
    rw [Sim.print_owner, owner]
    by_cases sameResource : i = ⟨rs.resourceId, inside⟩
    · subst sameResource
      rw [if_pos owned] at counted
      simp only [entriesFor, List.countP_append, List.countP_cons,
        decide_true, if_true] at counted
      simp only [entriesFor, List.countP_append, if_true, reduceCtorEq,
        if_false]
      omega
    · have otherId : rs.resourceId ≠ i.val :=
        fun eq => sameResource (Fin.ext eq.symm)
      rw [if_neg sameResource, ← counted]
      simp [entriesFor, List.countP_append, otherId]

/-- After the releases the books are closed again. -/
theorem closed (books : OpenBooks all s c age kept []) :
    Books all (s.setHolding c kept) where
  ledger := fun p => by
    rw [setHolding_procs]
    by_cases same : p = c
    · subst same
      simp only [if_pos, books.isAge]
      exact books.countdown.ledger
    · simp only [if_neg same]
      exact books.others p same
  owned := fun p i => by
    rw [setHolding_procs]
    by_cases same : p = c
    · subst same
      have counted := books.owned i
      rw [List.append_nil] at counted
      simp only [if_pos]
      exact counted
    · simp only [if_neg same]
      exact books.ownedOthers p same i

end OpenBooks

/-! ### The waiting list -/

theorem firstDue_of_due {process : Process}
    (wants : process.resourcesToAcquire = kept ++ rs :: rest)
    (notDue : ∀ other ∈ kept, other.atAge ≠ process.age)
    (now : rs.atAge = process.age) :
    process.firstDue = some rs.resourceId := by
  have none : kept.find? (fun rs => decide (rs.atAge = process.age)) = none :=
    List.find?_eq_none.mpr fun other member => by
      simpa using notDue other member
  unfold Process.firstDue
  rw [wants, List.find?_append, none]
  simp [now]

theorem firstDue_of_notDue {process : Process}
    (notDue : ∀ rs ∈ process.resourcesToAcquire, rs.atAge ≠ process.age) :
    process.firstDue = none := by
  unfold Process.firstDue
  rw [List.find?_eq_none.mpr fun rs member => by simpa using notDue rs member]
  rfl

namespace Waits

/-- An owner is found for the resource asked for, and the next request of the
current process may be another one. -/
theorem granted (waits : Waits (s.setToAcquire c (kept ++ rs :: rest)))
    (loose : s.detached c) (notDue : ∀ rs ∈ kept, rs.atAge ≠ (s.procs c).age)
    (now : rs.atAge = (s.procs c).age) {inside : rs.resourceId < nrResources}
    (move : Requested s c ⟨rs.resourceId, inside⟩ true s') (event : Event n) :
    Waits (((s'.hold c rs).print event).setToAcquire c (kept ++ rest)) := by
  have dueOf (p : Fin n) (other : p ≠ c) :
      ((((s'.hold c rs).print event).setToAcquire c (kept ++ rest)).procs
        p).firstDue = ((s.setToAcquire c (kept ++ rs :: rest)).procs p).firstDue := by
    obtain ⟨k, eq⟩ := move.procs_granted p
    rw [setToAcquire_procs, setToAcquire_procs, Sim.print_procs, hold_procs, eq]
    simp only [if_neg other]
    rfl
  have dueNow : ((s.setToAcquire c (kept ++ rs :: rest)).procs c).firstDue =
      some rs.resourceId := by
    rw [setToAcquire_procs]
    exact firstDue_of_due (if_pos rfl) notDue now
  have owner (i : Fin nrResources) : s'.owner i =
      if i = ⟨rs.resourceId, inside⟩ then some c else s.owner i := by
    rw [move.owner_granted, Function.update_apply]
  constructor
  · intro p i member
    change p ∈ s'.waitqueue i at member
    rw [move.waitqueue_granted] at member
    have other : p ≠ c := fun same => loose.2.2 i (same ▸ member)
    rw [dueOf p other]
    exact waits.asks p i member
  · intro i p member free
    change p ∈ s'.waitqueue i at member
    change s'.owner i = none at free
    rw [move.waitqueue_granted] at member
    rw [owner] at free
    by_cases sameResource : i = ⟨rs.resourceId, inside⟩
    · simp [sameResource] at free
    · rw [if_neg sameResource] at free
      obtain ⟨q, awake, due⟩ := waits.answered i p member free
      have other : q ≠ c := by
        intro same
        rw [same, dueNow] at due
        exact sameResource (Fin.ext (Option.some.inj due).symm)
      refine ⟨q, fun asleep => awake ?_, by rw [dueOf q other]; exact due⟩
      obtain ⟨k, eq⟩ := move.procs_granted q
      unfold isBlocked at asleep ⊢
      rw [setToAcquire_procs, Sim.print_procs, hold_procs, eq] at asleep
      rw [setToAcquire_procs]
      exact asleep

/-- The current process joins the waiters of the resource it asks for. -/
theorem refused (waits : Waits (s.setToAcquire c (kept ++ rs :: rest)))
    (notDue : ∀ rs ∈ kept, rs.atAge ≠ (s.procs c).age)
    (now : rs.atAge = (s.procs c).age) {inside : rs.resourceId < nrResources}
    (move : Requested s c ⟨rs.resourceId, inside⟩ false s') (event : Event n) :
    Waits ((s'.print event).setToAcquire c (kept ++ rs :: rest)) := by
  have dueOf (p : Fin n) :
      (((s'.print event).setToAcquire c (kept ++ rs :: rest)).procs p).firstDue =
        ((s.setToAcquire c (kept ++ rs :: rest)).procs p).firstDue := by
    obtain ⟨k, eq⟩ := move.procs_refused p
    rw [setToAcquire_procs, setToAcquire_procs, Sim.print_procs, eq]
    rfl
  have dueNow : ((s.setToAcquire c (kept ++ rs :: rest)).procs c).firstDue =
      some rs.resourceId := by
    rw [setToAcquire_procs]
    exact firstDue_of_due (if_pos rfl) notDue now
  constructor
  · intro p i member
    rw [dueOf]
    rcases move.mem_waitqueue_refused.mp member with old | ⟨rfl, rfl⟩
    · exact waits.asks p i old
    · exact dueNow
  · intro i p member free
    change s'.owner i = none at free
    rw [move.owner_refused] at free
    have otherResource : i ≠ ⟨rs.resourceId, inside⟩ := by
      rintro rfl
      exact move.taken free
    have old := (move.mem_waitqueue_refused.mp member).resolve_right fun new =>
      otherResource new.1
    obtain ⟨q, awake, due⟩ := waits.answered i p old free
    have other : q ≠ c := by
      intro same
      rw [same, dueNow] at due
      exact otherResource (Fin.ext (Option.some.inj due).symm)
    refine ⟨q, fun asleep => awake ?_, by rw [dueOf]; exact due⟩
    obtain ⟨k, eq⟩ := move.procs_refused q
    unfold isBlocked at asleep ⊢
    rw [setToAcquire_procs, Sim.print_procs, eq] at asleep
    rw [setToAcquire_procs]
    simpa only [if_neg other] using asleep

/-- Growing older does not matter once nothing is due any more. -/
theorem growOlder (waits : Waits s) (loose : s.detached c)
    (notDue : ∀ rs ∈ (s.procs c).resourcesToAcquire,
      rs.atAge ≠ (s.procs c).age) : Waits (growOlder c s) := by
  have dueOf (p : Fin n) (other : p ≠ c) :
      ((OsPAs.Sched.growOlder c s).procs p).firstDue = (s.procs p).firstDue := by
    rw [growOlder_procs]
    simp only [if_neg other]
  constructor
  · intro p i member
    have other : p ≠ c := fun same => loose.2.2 i (same ▸ member)
    rw [dueOf p other]
    exact waits.asks p i member
  · intro i p member free
    obtain ⟨q, awake, due⟩ := waits.answered i p member free
    have other : q ≠ c := by
      rintro rfl
      rw [firstDue_of_notDue notDue] at due
      simp at due
    refine ⟨q, fun asleep => awake ?_, by rw [dueOf q other]; exact due⟩
    unfold isBlocked at asleep ⊢
    rwa [growOlder_procs] at asleep

/-- Releasing a resource hands its answer to the waiter that is woken. -/
theorem released (waits : Waits s) (move : Released s c r s') : Waits s' := by
  have dueOf (p : Fin n) : (s'.procs p).firstDue = (s.procs p).firstDue := by
    obtain ⟨k, status, eq, _⟩ := move.procs p
    rw [eq]
    rfl
  have awakeNow (p : Fin n) (awake : ¬ isBlocked s p) : ¬ isBlocked s' p := by
    obtain ⟨k, status, eq, same | ⟨asleep, _⟩⟩ := move.procs p
    · unfold isBlocked at awake ⊢
      rw [eq, same]
      exact awake
    · exact absurd asleep awake
  constructor
  · intro p i member
    rw [dueOf]
    exact waits.asks p i (move.waitqueue_subset i member)
  · intro i p member free
    have waited := move.waitqueue_subset i member
    by_cases sameResource : i = r
    · subst sameResource
      cases move with
      | quiet prio owned nobody =>
          rw [nobody] at waited
          simp at waited
      | @wake waiter prio owned isWaiting =>
          refine ⟨waiter, ?_, ?_⟩
          · simp [isBlocked, Sim.withPrio, Sim.wake, Sim.setStatus]
          · rw [dueOf]
            exact waits.asks waiter i isWaiting
    · rw [move.owner, Function.update_of_ne sameResource] at free
      obtain ⟨q, awake, due⟩ := waits.answered i p waited free
      exact ⟨q, awakeNow q awake, by rw [dueOf]; exact due⟩

end Waits

end Moves

/-! ### One pass -/

/-- What is known between two ticks of a run on a well-formed script. -/
structure Settled (all : Fin n → List ResourceSchedule) (s : Sim n) : Prop where
  sound : Sound s
  whole : Whole s (runner s)
  books : Books all s
  waits : Waits s

/-- What is known between the two halves of a pass. -/
structure Prepared (all : Fin n → List ResourceSchedule) (s : Sim n) :
    Prop where
  dispatched : Dispatched s
  whole : Whole s s.current
  fit : ∀ c, s.current = some c → unfinished s c ∧ (s.procs c).status ≠ .exit
  books : Books all s
  waits : Waits s

/-- The entries of every process last and are over by its end. -/
structure Fitting (all : Fin n → List ResourceSchedule) (s : Sim n) : Prop where
  lasting : ∀ p, ∀ rs ∈ all p, 1 ≤ rs.duration
  ended : ∀ p, ∀ rs ∈ all p, rs.atAge + rs.duration ≤ (s.procs p).lifespan

section Passes

variable {all : Fin n → List ResourceSchedule} {guard : Sim n → Prop}
  {sched : Scheduler n} {s s' : Sim n}

/-- An owner has work left. -/
theorem Books.owner_unfinished (books : Books all s) (fitting : Fitting all s)
    {p : Fin n} {r : Fin nrResources} (owns : s.owner r = some p) :
    unfinished s p := by
  have one := books.owned p r
  rw [if_pos owns] at one
  obtain ⟨rs, held, _⟩ := List.countP_pos_iff.mp (one ▸ Nat.one_pos)
  have ledger := books.ledger p
  have inBoth := ledger.balance.subset (List.mem_append_right
    (s.procs p).resourcesToAcquire
    (List.mem_map_of_mem (f := restored (s.procs p).age) held))
  obtain ⟨inAll, isPending⟩ := List.mem_filter.mp inBoth
  have ended := fitting.ended p _ inAll
  have goesOn := of_decide_eq_true isPending
  unfold unfinished
  omega

theorem Chosen.waiting {live : Prop} {next : Option (Fin n)}
    (choice : Chosen live s next s') :
    s'.owner = s.owner ∧ s'.waitqueue = s.waitqueue := by
  cases choice <;> exact ⟨rfl, rfl⟩

theorem Retired.waiting {prev : Option (Fin n)} (done : Retired s prev s') :
    s'.owner = s.owner ∧ s'.waitqueue = s.waitqueue := by
  cases done with
  | nobody => exact ⟨rfl, rfl⟩
  | goesOn =>
      unfold Sim.rest
      split
      · exact ⟨rfl, rfl⟩
      · exact ⟨rfl, rfl⟩
  | exits => exact ⟨rfl, rfl⟩

theorem Chosen.clock {live : Prop} {next : Option (Fin n)}
    (choice : Chosen live s next s') :
    s'.forkqueue = s.forkqueue ∧ s'.ticks = s.ticks := by
  cases choice <;> exact ⟨rfl, rfl⟩

theorem Retired.clock {prev : Option (Fin n)} (done : Retired s prev s') :
    s'.forkqueue = s.forkqueue ∧ s'.ticks = s.ticks := by
  cases done with
  | nobody => exact ⟨rfl, rfl⟩
  | goesOn =>
      unfold Sim.rest
      split
      · exact ⟨rfl, rfl⟩
      · exact ⟨rfl, rfl⟩
  | exits => exact ⟨rfl, rfl⟩

theorem Retired.awake {prev : Option (Fin n)} (done : Retired s prev s')
    {p : Fin n} (awake : ¬ isBlocked s p) : ¬ isBlocked s' p := by
  unfold isBlocked at awake ⊢
  cases done with
  | nobody => exact awake
  | goesOn =>
      rw [rest_procs]
      split
      · simp
      · exact awake
  | exits =>
      rw [Sim.print_procs, setStatus_procs]
      split
      · simp
      · exact awake

/-- What the first half of a pass leaves of the state it started from. -/
structure Dispatching (s s' : Sim n) : Prop where
  owner : s'.owner = s.owner
  waitqueue : s'.waitqueue = s.waitqueue
  entries : ∀ p, SameEntries (s.procs p) (s'.procs p)
  awake : ∀ p, ¬ isBlocked s p → ¬ isBlocked s' p
  exits : ∀ p, (s'.procs p).status = .exit ↔ (s.procs p).status = .exit ∨
    s.current = some p ∧ (s.procs p).age = (s.procs p).lifespan
  forkqueue : s'.forkqueue = s.forkqueue.filter fun p => ¬ due s p
  ticks : s'.ticks = s.ticks

theorem dispatching_of_phases {live : Prop} {forked chosen : Sim n}
    {next : Option (Fin n)} (forks : Forked s forked [] s.forkqueue)
    (choice : Chosen live forked next chosen)
    (done : Retired { chosen with current := next } s.current s') :
    Dispatching s s' := by
  have procs (p : Fin n) : ∃ k status,
      s'.procs p = { s.procs p with prio := k, status := status } := by
    obtain ⟨status, eq⟩ := done.procs p
    obtain ⟨k, eqChosen⟩ := choice.procs p
    change s'.procs p = { chosen.procs p with status := status } at eq
    rw [eqChosen, forks.procs] at eq
    exact ⟨k, status, eq⟩
  have before (p : Fin n) : ∃ k, chosen.procs p = { s.procs p with prio := k } := by
    obtain ⟨k, eq⟩ := choice.procs p
    exact ⟨k, by rw [eq, forks.procs]⟩
  refine ⟨?_, ?_, fun p => ?_, fun p awake => ?_, fun p => ?_, ?_, ?_⟩
  · rw [done.waiting.1]
    exact choice.waiting.1.trans forks.owner
  · rw [done.waiting.2]
    exact choice.waiting.2.trans forks.waitqueue
  · obtain ⟨k, status, eq⟩ := procs p
    rw [eq]
    exact ⟨rfl, rfl, rfl⟩
  · refine done.awake ?_
    obtain ⟨k, eq⟩ := before p
    unfold isBlocked at awake ⊢
    change (chosen.procs p).status ≠ .blocked
    rw [eq]
    exact awake
  · obtain ⟨k, eq⟩ := before p
    have status : (chosen.procs p).status = (s.procs p).status := by rw [eq]
    have clock : (chosen.procs p).age = (chosen.procs p).lifespan ↔
        (s.procs p).age = (s.procs p).lifespan := by rw [eq]
    constructor
    · intro exited
      rcases done.status_exit exited with was | ⟨isPrev, finished⟩
      · exact Or.inl (status.symm.trans was)
      · exact Or.inr ⟨isPrev, clock.mp finished⟩
    · intro either
      by_contra present
      obtain ⟨was, going⟩ := done.present present
      rcases either with exited | ⟨isPrev, finished⟩
      · exact was (status.trans exited)
      · exact going isPrev (clock.mpr finished)
  · rw [done.clock.1]
    exact choice.clock.1.trans forks.forkqueue
  · rw [done.clock.2]
    exact choice.clock.2.trans forks.ticks

theorem Settled.whole_forked (settled : Settled all s) :
    Whole (forkOnSchedule s) (runner (forkOnSchedule s)) := by
  rw [settled.sound.forked.runner]
  exact settled.whole.forked settled.sound.forked

/-- The first half of a pass never fails, and unless it hands the processor to
a process that was freed, it prepares the second half. -/
theorem Settled.dispatched {live : Prop} (contract : Contract live guard sched)
    (settled : Settled all s) (fitting : Fitting all s)
    (guarded : guard (forkOnSchedule s)) :
    ∃ s', dispatch sched s = .ok s' ∧ Dispatching s s' ∧
      Whole s' s'.current ∧
      (live ∨ (∀ c, s'.current = some c → (s'.procs c).status ≠ .exit) →
        Prepared all s') := by
  obtain ⟨next, s₁, scheduled, choice, linked, dispatchEq⟩ :=
    settled.sound.schedules contract guarded
  have forks := settled.sound.forked
  rcases retirePrev_cases { s₁ with current := next } s.current with
    ⟨s', retiredEq, retired⟩ | ⟨_, p, isPrev, finished, mayNot⟩
  · have ran := dispatchEq.trans retiredEq
    have dispatching := dispatching_of_phases forks choice retired
    obtain ⟨whole, fit⟩ :=
      settled.whole.dispatched contract settled.sound guarded ran
    rcases settled.sound.dispatch contract guarded with
      failed | ⟨_, eq, dispatched⟩
    · simp [ran] at failed
    · obtain rfl := Except.ok.inj (ran.symm.trans eq)
      refine ⟨s', ran, dispatching, whole, fun alive =>
        ⟨dispatched, whole, fun c isCurrent => ?_,
          settled.books.congr dispatching.owner dispatching.entries,
          settled.waits.congr dispatching.owner dispatching.waitqueue
            dispatching.entries dispatching.awake⟩⟩
      have present : (s'.procs c).status ≠ .exit :=
        alive.elim (fit c isCurrent).2 fun present => present c isCurrent
      exact ⟨(fit c isCurrent).1 present, present⟩
  · -- the previous process is finished, hence in no list and without entries
    exfalso
    obtain ⟨k, eq⟩ := choice.procs p
    change (s₁.procs p).age = (s₁.procs p).lifespan at finished
    rw [eq, forks.procs] at finished
    refine mayNot ⟨?_, ?_⟩
    · by_contra listed
      have young := (settled.whole_forked.chosen choice).2 p listed
      unfold unfinished at young
      rw [forks.procs] at young
      exact Nat.ne_of_lt young finished
    · change (s₁.procs p).resourcesHolding = [] ∧
        (s₁.procs p).resourcesToAcquire = []
      rw [eq, forks.procs]
      exact (settled.books.ledger p).finished fun rs member =>
        finished ▸ fitting.ended p rs member

theorem Settled.dispatch (contract : Contract True guard sched)
    (settled : Settled all s) (fitting : Fitting all s)
    (guarded : guard (forkOnSchedule s)) :
    ∃ s', dispatch sched s = .ok s' ∧ Dispatching s s' ∧ Prepared all s' := by
  obtain ⟨s', ran, dispatching, _, prepared⟩ :=
    settled.dispatched contract fitting guarded
  exact ⟨s', ran, dispatching, prepared (.inl trivial)⟩

/-- While process `c`, running from state `s`, visits its entries to acquire. -/
def Asking (all : Fin n → List ResourceSchedule) (s : Sim n) (c : Fin n)
    (kept todo : List ResourceSchedule) (t : Sim n) : Prop :=
  Books all (t.setToAcquire c (kept ++ todo)) ∧
    Waits (t.setToAcquire c (kept ++ todo)) ∧
    (∀ rs ∈ kept, rs.atAge ≠ (t.procs c).age) ∧
    (t.procs c).age = (s.procs c).age

/-- After a request of process `c` was refused. -/
def TurnedDown (all : Fin n → List ResourceSchedule) (c : Fin n)
    (stay : List ResourceSchedule) (t : Sim n) : Prop :=
  Books all (t.setToAcquire c stay) ∧ Waits (t.setToAcquire c stay)

/-- While process `c`, running from state `s`, visits the entries it holds. -/
def Releasing (all : Fin n → List ResourceSchedule) (s : Sim n) (c : Fin n)
    (kept todo : List ResourceSchedule) (t : Sim n) : Prop :=
  OpenBooks all t c (s.procs c).age kept todo ∧ Waits t

/-- What is carried through the tick of the chosen process. -/
theorem Prepared.carries (sched : Scheduler n) {c : Fin n}
    (prepared : Prepared all s) (fitting : Fitting all s)
    (isCurrent : s.current = some c) :
    Carries sched True s c (Asking all s c) (TurnedDown all c)
      (Releasing all s c) where
  start := by
    have same (p : Fin n) : SameEntries (s.procs p)
        (((s.setStatus c .running).setToAcquire c
          (s.procs c).resourcesToAcquire).procs p) := by
      rw [setToAcquire_procs, setStatus_procs]
      by_cases isC : p = c
      · subst isC; exact ⟨rfl, by simp, rfl⟩
      · exact ⟨rfl, by simp [isC], rfl⟩
    refine ⟨prepared.books.congr rfl same,
      prepared.waits.congr rfl rfl same fun p awake => ?_, by simp, ?_⟩
    · unfold isBlocked at awake ⊢
      rw [setToAcquire_procs, setStatus_procs]
      by_cases isC : p = c
      · simp [isC]
      · simpa [isC] using awake
    · rw [setStatus_procs]
  skip := fun kept rs rest t _ before later => by
    obtain ⟨books, waits, notDue, isAge⟩ := before
    unfold Asking
    rw [← List.append_cons]
    refine ⟨books, waits, fun other member => ?_, isAge⟩
    rcases List.mem_append.mp member with old | new
    · exact notDue other old
    · obtain rfl : other = rs := by simpa using new
      exact later
  grant := fun kept rs rest t inside t' busy before now _ _ move => by
    obtain ⟨books, waits, notDue, isAge⟩ := before
    obtain ⟨k, eq⟩ := move.procs_granted c
    refine ⟨books.granted now move _,
      waits.granted busy.detached notDue now move _, ?_, ?_⟩
    · rw [Sim.print_procs, hold_procs, eq]
      exact notDue
    · rw [Sim.print_procs, hold_procs, eq]
      exact isAge
  refuse := fun kept rs rest t inside t' busy before now _ _ move => by
    obtain ⟨books, waits, notDue, _⟩ := before
    exact ⟨books.refused move _, waits.refused notDue now move _⟩
  turn := fun stay t busy before _ => by
    obtain ⟨books, waits, notDue, isAge⟩ := before
    rw [List.append_nil] at books waits
    have alive := (prepared.fit c isCurrent).1
    have small := prepared.whole.small c
    unfold unfinished at alive
    refine ⟨books.opened (fitting.lasting c) notDue isAge (by omega) _, ?_⟩
    refine Waits.growOlder (waits.congr rfl rfl (fun _ => ⟨rfl, rfl, rfl⟩)
      fun _ => id) busy.detached ?_
    rw [Sim.print_procs, setToAcquire_procs]
    simpa using notDue
  owns := fun _ _ _ _ _ _ inv _ => inv.1.owns
  keep := fun _ _ _ _ _ inv goesOn => ⟨inv.1.keep goesOn, inv.2⟩
  drop := fun _ _ _ _ _ _ _ inv ended _ move =>
    ⟨inv.1.drop ended move _, (inv.2.released move).congr rfl rfl
      (fun _ => ⟨rfl, rfl, rfl⟩) fun _ => id⟩

/-- The second half of a pass never fails. -/
theorem Prepared.execute {live : Prop} (contract : Contract live guard sched)
    (prepared : Prepared all s) (fitting : Fitting all s) :
    ∃ s', execute sched s = .ok s' ∧ Settled all s' := by
  obtain ⟨s', ran, sound⟩ : ∃ s', OsPAs.Sched.execute sched s = .ok s' ∧
      Sound s' ∧ Books all s' ∧ Waits s' := by
    cases isCurrent : s.current with
    | none =>
        exact ⟨_, execute_of_idle sched isCurrent, prepared.dispatched.idle isCurrent,
          prepared.books.congr rfl fun _ => ⟨rfl, rfl, rfl⟩,
          prepared.waits.congr rfl rfl (fun _ => ⟨rfl, rfl, rfl⟩) fun _ => id⟩
    | some c =>
        rcases (prepared.carries sched fitting isCurrent).execute contract
            prepared.dispatched isCurrent (prepared.fit c isCurrent).2 with
          ⟨lax, _⟩ | ⟨stay, t, ⟨ran, refused, books, waits⟩ |
            ⟨ran, busy, books, waits⟩⟩
        · exact absurd trivial lax
        · exact ⟨_, ran, refused.sound,
            books.congr rfl fun _ => ⟨rfl, rfl, rfl⟩,
            waits.congr rfl rfl (fun _ => ⟨rfl, rfl, rfl⟩) fun _ => id⟩
        · refine ⟨_, ran, busy.sound,
            books.closed.congr rfl fun _ => ⟨rfl, rfl, rfl⟩, ?_⟩
          refine waits.of_firstDue rfl rfl (fun p => ?_) fun p awake => ?_
          · change ((t.setHolding c stay).procs p).firstDue = _
            rw [setHolding_procs]
            rfl
          · unfold isBlocked at awake ⊢
            change ((t.setHolding c stay).procs p).status ≠ .blocked
            rw [setHolding_procs]
            exact awake
  obtain ⟨sound, books, waits⟩ := sound
  exact ⟨s', ran, sound, prepared.whole.execute contract prepared.dispatched
    prepared.fit ran, books, waits⟩

end Passes

/-! ### Whole runs -/

section Reached

variable {script : List ProcessBlock} {policy : Policy}

theorem load_fitting (wellFormed : WellFormed script) :
    Fitting (entries script) (load script) where
  lasting := fun p rs member => by
    obtain ⟨line, lineMember, rfl⟩ := List.mem_map.mp member
    exact ((wellFormed _ (List.get_mem script p)).2 line lineMember).2.1
  ended := fun p rs member => by
    obtain ⟨line, lineMember, rfl⟩ := List.mem_map.mp member
    exact ((wellFormed _ (List.get_mem script p)).2 line lineMember).2.2

theorem Fitting.of_sameScript {all : Fin n → List ResourceSchedule}
    {s s' : Sim n} (fitting : Fitting all s) (same : SameScript s s') :
    Fitting all s' where
  lasting := fitting.lasting
  ended := fun p rs member => by
    rw [same.lifespan]; exact fitting.ended p rs member

theorem load_settled (wellFormed : WellFormed script) :
    Settled (entries script) (load script) where
  sound := load_sound wellFormed.known
  whole := load_whole wellFormed.positive
  books :=
    { ledger := fun p =>
        Ledger.initial ((load_fitting wellFormed).lasting p)
      owned := fun p r => by simp [load, ProcessBlock.process, entriesFor] }
  waits :=
    { asks := by simp [load]
      answered := by simp [load] }

/-- The two halves of a pass from a settled state. -/
theorem Settled.body {all : Fin n → List ResourceSchedule}
    {guard : Sim n → Prop} {sched : Scheduler n} {s : Sim n}
    (contract : Contract True guard sched) (settled : Settled all s)
    (fitting : Fitting all s) (guarded : guard (forkOnSchedule s)) :
    ∃ mid, OsPAs.Sched.dispatch sched s = .ok mid ∧ Dispatching s mid ∧
      Prepared all mid ∧ Fitting all mid ∧
      ∃ s', execute sched mid = .ok s' ∧ Settled all s' ∧ Fitting all s' := by
  obtain ⟨mid, dispatchedEq, dispatching, prepared⟩ :=
    settled.dispatch contract fitting guarded
  have fittingMid := fitting.of_sameScript
    (.dispatched contract settled.sound guarded dispatchedEq)
  obtain ⟨s', executedEq, settled'⟩ := prepared.execute contract fittingMid
  exact ⟨mid, dispatchedEq, dispatching, prepared, fittingMid, s', executedEq,
    settled', fittingMid.of_sameScript
      (.executed contract prepared.dispatched executedEq)⟩

/-- A pass from a settled state ends in a settled state, also under a policy
without `live`: where that hands the processor to a freed process, the pass
does not end. -/
theorem Settled.again {all : Fin n → List ResourceSchedule} {live : Prop}
    {guard : Sim n → Prop} {sched : Scheduler n} {s s' : Sim n}
    (contract : Contract live guard sched) (settled : Settled all s)
    (fitting : Fitting all s) (guarded : guard (forkOnSchedule s))
    (ran : OsPAs.Sched.body sched s = .ok (.again s')) :
    ∃ mid, OsPAs.Sched.dispatch sched s = .ok mid ∧ Dispatching s mid ∧
      Prepared all mid ∧ execute sched mid = .ok s' ∧ Settled all s' ∧
      SameScript s s' := by
  obtain ⟨mid, dispatchedEq, _, executedEq⟩ := body_again ran
  obtain ⟨_, eq, dispatching, _, prepared⟩ :=
    settled.dispatched contract fitting guarded
  obtain rfl := Except.ok.inj (dispatchedEq.symm.trans eq)
  have present (c : Fin n) (isCurrent : mid.current = some c) :
      (mid.procs c).status ≠ .exit := by
    intro freed
    simp [execute, isCurrent, freed] at executedEq
  have ready := prepared (.inr present)
  have same := SameScript.dispatched contract settled.sound guarded dispatchedEq
  obtain ⟨_, eq, settled'⟩ := ready.execute contract (fitting.of_sameScript same)
  obtain rfl := Except.ok.inj (executedEq.symm.trans eq)
  exact ⟨mid, dispatchedEq, dispatching, ready, executedEq, settled',
    same.trans (.executed contract ready.dispatched executedEq)⟩

/-- Run rule: under a contract whose guard holds in every settled state, the
states between two ticks are settled. -/
theorem settled_of_contract {live : Prop} {guard : Sim script.length → Prop}
    {sched : Scheduler script.length} (contract : Contract live guard sched)
    (wellFormed : WellFormed script)
    (guarded : ∀ s, Settled (entries script) s → Fitting (entries script) s →
      SameScript (load script) s → guard (forkOnSchedule s)) {k : Nat}
    {s : Sim script.length}
    (reached : doSimulation script sched k = .ok (.again s)) :
    Settled (entries script) s ∧ Fitting (entries script) s ∧
      SameScript (load script) s := by
  refine iterate_invariant
    (fun _ s => Settled (entries script) s ∧ Fitting (entries script) s ∧
      SameScript (load script) s)
    ⟨load_settled wellFormed, load_fitting wellFormed, .refl _⟩ ?_ reached
  rintro k s s' _ ⟨settled, fitting, same⟩ ran
  obtain ⟨_, _, _, _, _, settled', ticked⟩ :=
    settled.again contract fitting (guarded s settled fitting same) ran
  exact ⟨settled', fitting.of_sameScript ticked, same.trans ticked⟩

/-- The states between two ticks of a status-aware policy are settled. -/
theorem reached_settled (aware : policy ∈ statusAware)
    (wellFormed : WellFormed script) {k : Nat} {s : Sim script.length}
    (reached : doSimulation script policy.scheduler k = .ok (.again s)) :
    Settled (entries script) s ∧ Fitting (entries script) s := by
  obtain ⟨settled, fitting, _⟩ := settled_of_contract (Policy.contract aware)
    wellFormed (fun _ _ _ _ => trivial) reached
  exact ⟨settled, fitting⟩

/-- No assertion fails, and nothing else stops a run. -/
theorem never_faults_of_contract {guard : Sim script.length → Prop}
    {sched : Scheduler script.length} (contract : Contract True guard sched)
    (wellFormed : WellFormed script)
    (guarded : ∀ s, Settled (entries script) s → Fitting (entries script) s →
      SameScript (load script) s → guard (forkOnSchedule s)) (k : Nat)
    (fault : Fault) : doSimulation script sched k ≠ .error fault := by
  intro faulted
  obtain ⟨j, s, _, reached, failed⟩ := iterate_error faulted
  obtain ⟨settled, fitting, same⟩ :=
    settled_of_contract contract wellFormed guarded reached
  obtain ⟨mid, dispatchedEq, _, _, _, s', executedEq, _⟩ :=
    settled.body contract fitting (guarded s settled fitting same)
  rcases body_error failed with dispatchFailed | ⟨mid', eq, _, executeFailed⟩
  · simp [dispatchedEq] at dispatchFailed
  · obtain rfl := Except.ok.inj (dispatchedEq.symm.trans eq)
    simp [executedEq] at executeFailed

theorem never_faults (aware : policy ∈ statusAware)
    (wellFormed : WellFormed script) (k : Nat) (fault : Fault) :
    doSimulation script policy.scheduler k ≠ .error fault :=
  never_faults_of_contract (Policy.contract aware) wellFormed
    (fun _ _ _ _ => trivial) k fault

/-- Where an acquire entry of a process is, depending on the process's age. -/
structure EntryInPlace (process : Process) (rs : ResourceSchedule) : Prop where
  early : process.age < rs.atAge → rs ∈ process.resourcesToAcquire
  now : process.age = rs.atAge →
    rs ∈ process.resourcesToAcquire ∨ rs ∈ process.resourcesHolding
  during : rs.atAge < process.age → process.age < rs.atAge + rs.duration →
    { rs with duration := rs.duration - (process.age - rs.atAge) } ∈
      process.resourcesHolding
  ended : rs.atAge + rs.duration ≤ process.age →
    rs ∉ process.resourcesToAcquire ∧
      ∀ held ∈ process.resourcesHolding, restored process.age held ≠ rs

theorem Ledger.entryInPlace {process : Process} {all : List ResourceSchedule}
    (ledger : Ledger all process.age process.resourcesToAcquire
      process.resourcesHolding)
    (lasting : ∀ rs ∈ all, 1 ≤ rs.duration) {rs : ResourceSchedule}
    (member : rs ∈ all) : EntryInPlace process rs := by
  have lasts := lasting rs member
  have listed (isPending : process.age < rs.atAge + rs.duration) :
      rs ∈ process.resourcesToAcquire ∨
        ∃ held ∈ process.resourcesHolding, restored process.age held = rs := by
    have inBalance : rs ∈ process.resourcesToAcquire ++
        process.resourcesHolding.map (restored process.age) :=
      ledger.balance.mem_iff.mpr
        (List.mem_filter.mpr ⟨member, by simpa [pending] using isPending⟩)
    simpa using inBalance
  constructor
  · intro isEarly
    rcases listed (by omega) with wants | ⟨held, isHeld, rfl⟩
    · exact wants
    · have begun := ledger.begun held isHeld
      change process.age < held.atAge at isEarly
      omega
  · intro isNow
    rcases listed (by omega) with wants | ⟨held, isHeld, rfl⟩
    · exact Or.inl wants
    · refine Or.inr ?_
      have same : restored process.age held = held :=
        restored_of_now isNow.symm
      rwa [same]
  · intro isLate isPending
    rcases listed isPending with wants | ⟨held, isHeld, rfl⟩
    · have ahead := ledger.ahead rs wants
      omega
    · have counted : held.duration + (process.age - held.atAge) -
          (process.age - held.atAge) = held.duration := Nat.add_sub_cancel _ _
      simp only [restored, counted]
      exact isHeld
  · intro isOver
    have notListed : rs ∉ process.resourcesToAcquire ++
        process.resourcesHolding.map (restored process.age) := by
      intro inBalance
      have isPending :=
        (List.mem_filter.mp (ledger.balance.mem_iff.mp inBalance)).2
      simp only [pending, decide_eq_true_eq] at isPending
      omega
    exact ⟨fun wants => notListed (List.mem_append_left _ wants),
      fun held isHeld eq => notListed (List.mem_append_right _
        (List.mem_map.mpr ⟨held, isHeld, eq⟩))⟩

/-- Resource bookkeeping is exact.  No run of a status-aware policy on a
well-formed script faults, and between two ticks every acquire entry of every
process that has not exited is where its age says, the two lists hold nothing
else, and a process owns a resource exactly if it holds one, and only one,
entry for it. -/
theorem bookkeeping_exact (script : List ProcessBlock) (policy : Policy)
    (aware : policy ∈ statusAware) (wellFormed : WellFormed script) (k : Nat) :
    (∀ fault, doSimulation script policy.scheduler k ≠ .error fault) ∧
    ∀ s, doSimulation script policy.scheduler k = .ok (.again s) →
      (∀ p, (s.procs p).status ≠ .exit →
        (∀ rs ∈ entries script p, EntryInPlace (s.procs p) rs) ∧
        ((s.procs p).resourcesToAcquire ++
          (s.procs p).resourcesHolding.map (restored (s.procs p).age)).Perm
            ((entries script p).filter (pending (s.procs p).age))) ∧
      ∀ r p,
        (s.owner r = some p ↔
          entriesFor r (s.procs p).resourcesHolding = 1) ∧
        (s.owner r ≠ some p ↔
          entriesFor r (s.procs p).resourcesHolding = 0) := by
  refine ⟨never_faults aware wellFormed k, fun s reached => ?_⟩
  obtain ⟨settled, fitting⟩ := reached_settled aware wellFormed reached
  refine ⟨fun p _ => ⟨fun rs member => ?_, (settled.books.ledger p).balance⟩,
    fun r p => ?_⟩
  · exact (settled.books.ledger p).entryInPlace (fitting.lasting p) member
  · rw [settled.books.owned p r]
    by_cases owns : s.owner r = some p
    · simp [owns]
    · simp [owns]

/-- After fourteen passes under the priority policy the first process holds
resource 1 and the second one waits for it. -/
theorem bookkeeping_exact_resourcesBasic :
    ∃ s, doSimulation resourcesBasic prioScheduler 14 = .ok (.again s) ∧
      (∀ p, (s.procs p).status ≠ .exit →
        (∀ rs ∈ entries resourcesBasic p, EntryInPlace (s.procs p) rs) ∧
        ((s.procs p).resourcesToAcquire ++
          (s.procs p).resourcesHolding.map (restored (s.procs p).age)).Perm
            ((entries resourcesBasic p).filter (pending (s.procs p).age))) ∧
      ∀ r p,
        (s.owner r = some p ↔
          entriesFor r (s.procs p).resourcesHolding = 1) ∧
        (s.owner r ≠ some p ↔
          entriesFor r (s.procs p).resourcesHolding = 0) := by
  obtain ⟨s, reached, _⟩ := exists_of_againWith (fun _ => True)
    (doSimulation resourcesBasic prioScheduler 14) (by decide +kernel)
  exact ⟨s, reached, (bookkeeping_exact resourcesBasic .prio (by decide)
    (by decide) 14).2 s reached⟩

end Reached

end OsPAs.Sched
