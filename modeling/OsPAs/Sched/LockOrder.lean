/-
Module: OsPAs.Sched.LockOrder
Purpose: Ordered requests.  If the resources can be numbered so that every
  process that asks for a resource while it has others asks for a greater one,
  no cycle of waiting ever comes up and everybody gets through.
Trusted boundary: none
Main exports: Nested, OrderedRequests, InLine, Serves.inLine, rankAsked_rises,
  ordered_requests_get_through
-/
import OsPAs.Sched.Termination

namespace OsPAs.Sched

open Lib

variable {n : Nat}

/-! ### Scripts -/

/-- The request of `later` comes while what `earlier` asked for is held. -/
def Nested (earlier later : ResourceSchedule) : Prop :=
  earlier.atAge ≤ later.atAge ∧
    later.atAge < earlier.atAge + earlier.duration

/-- If `later` is asked for at a later age, while `earlier` is held, it has the
greater resource. -/
def Rises (rank : Nat → Nat) (earlier later : ResourceSchedule) : Prop :=
  earlier.atAge < later.atAge → Nested earlier later →
    rank earlier.resourceId < rank later.resourceId

/-- Of two acquire lines of a process, `first` standing above `second`, the one
that is asked for while the other is held has the greater resource; lines for
the same age are asked for from the top. -/
def RisesBelow (rank : Nat → Nat) (first second : ResourceSchedule) : Prop :=
  (Nested first second → rank first.resourceId < rank second.resourceId) ∧
    Rises rank second first

/-- Every process takes resources that it holds together in the order of their
ranks. -/
def OrderedRequests (rank : Nat → Nat) (script : List ProcessBlock) : Prop :=
  ∀ p, (entries script p).Pairwise (RisesBelow rank)

instance : DecidableRel Nested :=
  fun _ _ => inferInstanceAs (Decidable (_ ∧ _))

instance (rank : Nat → Nat) : DecidableRel (Rises rank) :=
  fun _ _ => inferInstanceAs (Decidable (_ → _ → _))

instance (rank : Nat → Nat) : DecidableRel (RisesBelow rank) :=
  fun _ _ => inferInstanceAs (Decidable ((_ → _) ∧ _))

instance (rank : Nat → Nat) (script : List ProcessBlock) :
    Decidable (OrderedRequests rank script) :=
  inferInstanceAs (Decidable (∀ p, (entries script p).Pairwise (RisesBelow rank)))

/-- Of two lines of a process with different ages the later one, if nested, has
the greater resource, wherever they stand. -/
theorem rises_of_ordered {rank : Nat → Nat} {all : List ResourceSchedule}
    (inOrder : all.Pairwise (RisesBelow rank)) {earlier later : ResourceSchedule}
    (isEarlier : earlier ∈ all) (isLater : later ∈ all) :
    Rises rank earlier later := by
  intro before
  have differ : earlier ≠ later := by
    rintro rfl
    exact Nat.lt_irrefl _ before
  obtain ⟨i, _, rfl⟩ := List.getElem_of_mem isEarlier
  obtain ⟨j, _, rfl⟩ := List.getElem_of_mem isLater
  rw [List.pairwise_iff_getElem] at inOrder
  rcases Nat.lt_trichotomy i j with lt | rfl | lt
  · exact (inOrder i j _ _ lt).1
  · exact absurd rfl differ
  · exact (inOrder j i _ _ lt).2 before

/-! ### Entries that come due together -/

/-- The entries of the list that come due at the given age. -/
def dueAt (age : Nat) (list : List ResourceSchedule) : List ResourceSchedule :=
  list.filter fun rs => rs.atAge = age

theorem dueAt_append (age : Nat) (list others : List ResourceSchedule) :
    dueAt age (list ++ others) = dueAt age list ++ dueAt age others :=
  List.filter_append ..

theorem dueAt_cons_of_eq {age : Nat} {rs : ResourceSchedule}
    (now : rs.atAge = age) (rest : List ResourceSchedule) :
    dueAt age (rs :: rest) = rs :: dueAt age rest := by
  simp [dueAt, now]

theorem dueAt_cons_of_ne {age : Nat} {rs : ResourceSchedule}
    (other : rs.atAge ≠ age) (rest : List ResourceSchedule) :
    dueAt age (rs :: rest) = dueAt age rest := by
  simp [dueAt, other]

theorem dueAt_eq_nil {age : Nat} {list : List ResourceSchedule}
    (none : ∀ rs ∈ list, rs.atAge ≠ age) : dueAt age list = [] := by
  simpa [dueAt, List.filter_eq_nil_iff] using none

/-- Of the entries that a process has for one age, now or to come, those held
and then those still to acquire are the ones of the script, in its order. -/
def InLine (all : Fin n → List ResourceSchedule) (s : Sim n) : Prop :=
  ∀ p age, (s.procs p).age ≤ age →
    dueAt age (s.procs p).resourcesHolding ++
      dueAt age (s.procs p).resourcesToAcquire = dueAt age (all p)

section Moves

variable {all : Fin n → List ResourceSchedule} {s s' : Sim n} {c : Fin n}
  {r : Fin nrResources} {kept rest : List ResourceSchedule}
  {rs : ResourceSchedule}

theorem InLine.congr (inLine : InLine all s)
    (same : ∀ p, SameEntries (s.procs p) (s'.procs p)) : InLine all s' := by
  intro p age notYet
  rw [(same p).holds, (same p).wants]
  exact inLine p age ((same p).age ▸ notYet)

theorem Requested.sameEntries {granted : Bool}
    (move : Requested s c r granted s') (p : Fin n) :
    SameEntries (s.procs p) (s'.procs p) := by
  cases granted with
  | true =>
      obtain ⟨k, eq⟩ := move.procs_granted p
      exact ⟨by rw [eq], by rw [eq], by rw [eq]⟩
  | false =>
      obtain ⟨k, eq⟩ := move.procs_refused p
      exact ⟨by rw [eq], by rw [eq], by rw [eq]⟩

theorem Released.sameEntries (move : Released s c r s') (p : Fin n) :
    SameEntries (s.procs p) (s'.procs p) := by
  obtain ⟨k, status, eq, _⟩ := move.procs p
  exact ⟨by rw [eq], by rw [eq], by rw [eq]⟩

/-- The entry that is granted is the first of those due: the ones before it have
been granted, too. -/
theorem InLine.granted (inLine : InLine all (s.setToAcquire c (kept ++ rs :: rest)))
    (notDue : ∀ other ∈ kept, other.atAge ≠ (s.procs c).age)
    (now : rs.atAge = (s.procs c).age) (move : Requested s c r true s')
    (event : Event n) :
    InLine all (((s'.hold c rs).print event).setToAcquire c (kept ++ rest)) := by
  intro p age notYet
  have before := inLine p age
  have same := move.sameEntries p
  rw [setToAcquire_procs, Sim.print_procs, hold_procs] at notYet ⊢
  rw [setToAcquire_procs] at before
  by_cases isC : p = c
  · subst isC
    simp only [if_true] at before notYet ⊢
    rw [same.holds]
    have isInLine := before (same.age ▸ notYet)
    by_cases isNow : age = (s.procs p).age
    · -- all entries kept so far come due at other ages
      subst isNow
      rw [dueAt_append, dueAt_append, dueAt_eq_nil notDue] at *
      rw [dueAt_cons_of_eq now] at isInLine ⊢
      simpa [dueAt] using isInLine
    · have other : rs.atAge ≠ age := fun eq => isNow (eq.symm.trans now)
      rw [dueAt_append, dueAt_cons_of_ne other] at isInLine
      rw [dueAt_append, dueAt_append, dueAt_cons_of_ne other]
      simpa [dueAt] using isInLine
  · simp only [if_neg isC] at before notYet ⊢
    rw [same.holds, same.wants]
    exact before (same.age ▸ notYet)

theorem InLine.grownOlder (inLine : InLine all s)
    (small : (s.procs c).age + 1 < 2 ^ 32) : InLine all (growOlder c s) := by
  intro p age notYet
  rw [growOlder_procs] at notYet ⊢
  refine inLine p age (Nat.le_trans ?_ notYet)
  by_cases isC : p = c
  · subst isC
    simp [toUInt_of_lt small]
  · simp [isC]

/-- Held entries have come due before: what becomes of one of them does not
matter. -/
theorem InLine.replaced {others : List ResourceSchedule}
    (inLine : InLine all (s.setHolding c (kept ++ rs :: rest)))
    (past : ∀ other ∈ rs :: others, other.atAge < (s.procs c).age) :
    InLine all (s.setHolding c (kept ++ (others ++ rest))) := by
  intro p age notYet
  have before := inLine p age
  rw [setHolding_procs] at notYet before ⊢
  by_cases isC : p = c
  · subst isC
    simp only [if_true] at before notYet ⊢
    have gone (other : ResourceSchedule) (member : other ∈ rs :: others) :
        other.atAge ≠ age :=
      Nat.ne_of_lt (Nat.lt_of_lt_of_le (past other member) notYet)
    have isInLine := before notYet
    rw [dueAt_append, dueAt_cons_of_ne (gone rs List.mem_cons_self)] at isInLine
    rw [dueAt_append, dueAt_append, dueAt_eq_nil fun other member =>
      gone other (List.mem_cons_of_mem rs member)]
    exact isInLine
  · simp only [if_neg isC] at before notYet ⊢
    exact before notYet

theorem InLine.released {stay : List ResourceSchedule}
    (inLine : InLine all (s.setHolding c stay)) (move : Released s c r s')
    (event : Event n) : InLine all ((s'.print event).setHolding c stay) := by
  refine inLine.congr fun p => ?_
  have same := move.sameEntries p
  rw [setHolding_procs, setHolding_procs, Sim.print_procs]
  exact ⟨same.age, same.wants, by simp only [same.holds]⟩

end Moves

/-! ### Ticks and runs -/

section Runs

variable {all : Fin n → List ResourceSchedule} {sched : Scheduler n}
  {s s' : Sim n} {c : Fin n}

/-- What is held has come due before. -/
theorem OpenBooks.past {age : Nat} {kept rest : List ResourceSchedule}
    {rs : ResourceSchedule} (books : OpenBooks all s c age kept (rs :: rest)) :
    rs.atAge < (s.procs c).age := by
  have begun := books.countdown.begun rs (by simp)
  have isAge := books.isAge
  omega

/-- What is carried through a tick of the chosen process besides the books. -/
theorem inLine_carries (sched : Scheduler n) (inLine : InLine all s)
    (prepared : Prepared all s) (fitting : Fitting all s)
    (isCurrent : s.current = some c) :
    Carries sched True s c
      (fun kept todo t => Asking all s c kept todo t ∧
        InLine all (t.setToAcquire c (kept ++ todo)))
      (fun stay t => TurnedDown all c stay t ∧ InLine all (t.setToAcquire c stay))
      (fun kept todo t => Releasing all s c kept todo t ∧
        InLine all (t.setHolding c (kept ++ todo))) := by
  apply (prepared.carries sched fitting isCurrent).alongside
  · refine inLine.congr fun p => ?_
    rw [setToAcquire_procs, setStatus_procs]
    by_cases isC : p = c
    · subst isC; exact ⟨rfl, by simp, rfl⟩
    · exact ⟨rfl, by simp [isC], rfl⟩
  · intro kept rs rest t _ _ isInLine _
    rwa [← List.append_cons]
  · intro kept rs rest t inside t' _ asking isInLine now _ _ move
    obtain ⟨_, _, notDue, _⟩ := asking
    exact isInLine.granted notDue now move _
  · intro kept rs rest t inside t' _ _ isInLine _ _ _ move
    refine isInLine.congr fun p => ?_
    have same := move.sameEntries p
    rw [setToAcquire_procs, setToAcquire_procs, Sim.print_procs]
    exact ⟨same.age, by simp only [same.wants], same.holds⟩
  · intro stay t busy asking isInLine _
    obtain ⟨_, _, _, isAge⟩ := asking
    rw [List.append_nil] at isInLine
    have alive := (prepared.fit c isCurrent).1
    have small := prepared.whole.small c
    unfold unfinished at alive
    have asked : InLine all ((t.setToAcquire c stay).print (.ran c)) :=
      isInLine.congr fun _ => ⟨rfl, rfl, rfl⟩
    have older := asked.grownOlder (c := c) (by
      rw [Sim.print_procs, setToAcquire_procs]
      change (t.procs c).age + 1 < 2 ^ 32
      omega)
    refine older.congr fun p => ?_
    rw [List.nil_append, setHolding_procs]
    by_cases isC : p = c
    · subst isC
      refine ⟨rfl, rfl, ?_⟩
      rw [growOlder_procs, Sim.print_procs, setToAcquire_procs]
      simp
    · exact ⟨rfl, rfl, by simp [isC]⟩
  · intro kept rs rest t _ releasing isInLine _
    have past := releasing.1.past
    rw [List.append_assoc]
    exact InLine.replaced isInLine (by simpa using past)
  · intro kept rs rest t inside t' _ releasing isInLine _ _ move _
    have past := releasing.1.past
    have shorter : InLine all (t.setHolding c (kept ++ ([] ++ rest))) :=
      isInLine.replaced (by simpa using past)
    exact shorter.released move _

/-- The second half of a pass keeps the entries in line. -/
theorem InLine.execute {live : Prop} {guard : Sim n → Prop}
    (contract : Contract live guard sched) (inLine : InLine all s)
    (prepared : Prepared all s) (fitting : Fitting all s)
    (executedEq : OsPAs.Sched.execute sched s = .ok s') : InLine all s' := by
  cases isCurrent : s.current with
  | none =>
      obtain rfl := Except.ok.inj
        ((execute_of_idle sched isCurrent).symm.trans executedEq)
      exact inLine.congr fun _ => ⟨rfl, rfl, rfl⟩
  | some c =>
      obtain ⟨stay, t, ⟨rfl, _, _, isInLine⟩ | ⟨rfl, _, _, isInLine⟩⟩ :=
        (inLine_carries sched inLine prepared fitting isCurrent).executed contract
          prepared.dispatched isCurrent executedEq
      · exact isInLine.congr fun _ => ⟨rfl, rfl, rfl⟩
      · rw [List.append_nil] at isInLine
        exact isInLine.congr fun _ => ⟨rfl, rfl, rfl⟩

end Runs

/-- Between ticks the entries are in line. -/
theorem Serves.inLine {script : List ProcessBlock}
    {guard : Sim script.length → Prop} {sched : Scheduler script.length}
    {k : Nat} {s : Sim script.length} (serves : Serves script guard sched)
    (reached : doSimulation script sched k = .ok (.again s)) :
    InLine (entries script) s := by
  apply serves.invariant (fun _ s => InLine (entries script) s) _ _ reached
  · intro p age _
    exact List.nil_append _
  · intro k s mid s' _ inLine pass _ executedEq _
    exact (inLine.congr pass.dispatching.entries).execute serves.contract
      pass.prepared pass.fitting executedEq

/-! ### No cycles -/

section Cycles

variable {all : Fin n → List ResourceSchedule} {rank : Nat → Nat} {s : Sim n}

/-- What a process has asked for and holds ranks below what it asks for now. -/
theorem Books.rank_lt_firstDue (books : Books all s) (inLine : InLine all s)
    (inOrder : ∀ p, (all p).Pairwise (RisesBelow rank)) {p : Fin n}
    {held : ResourceSchedule} (holds : held ∈ (s.procs p).resourcesHolding)
    {resourceId : Nat} (due : (s.procs p).firstDue = some resourceId) :
    rank held.resourceId < rank resourceId := by
  have ledger := books.ledger p
  obtain ⟨wanted, found, rfl⟩ := Option.map_eq_some_iff.mp due
  have wants := List.mem_of_find?_eq_some found
  have now : wanted.atAge = (s.procs p).age := by
    simpa using List.find?_some found
  have begun := ledger.begun held holds
  have entry {rs : ResourceSchedule}
      (member : rs ∈ (s.procs p).resourcesToAcquire ++
        (s.procs p).resourcesHolding.map (restored (s.procs p).age)) :
      rs ∈ all p :=
    (List.mem_filter.mp (ledger.balance.mem_iff.mp member)).1
  rcases Nat.lt_or_eq_of_le begun with earlier | today
  · -- asked for at an earlier age, and not over yet
    have left := ledger.left holds
    have rises : Rises rank (restored (s.procs p).age held) wanted :=
      rises_of_ordered (inOrder p)
        (entry (List.mem_append_right _ (List.mem_map_of_mem holds)))
        (entry (List.mem_append_left _ wants))
    refine rises (now ▸ earlier) ⟨now ▸ begun, ?_⟩
    unfold restored
    dsimp only
    omega
  · -- asked for in this very tick, hence above it in the script
    have together := (inOrder p).filter fun rs => rs.atAge = (s.procs p).age
    rw [← dueAt, ← inLine p _ (Nat.le_refl _), List.pairwise_append] at together
    have ordered := together.2.2 held (by simp [dueAt, holds, today]) wanted
      (by simp [dueAt, wants, now])
    have left := ledger.left holds
    exact ordered.1 ⟨by omega, by omega⟩

/-- The rank of the resource that process `p` asks for. -/
def rankAsked (rank : Nat → Nat) (s : Sim n) (p : Fin n) : Nat :=
  ((s.procs p).firstDue.map rank).getD 0

/-- Along a chain of waiting processes the ranks of what they wait for rise. -/
theorem rankAsked_rises (books : Books all s) (waits : Waits s)
    (inLine : InLine all s) (inOrder : ∀ p, (all p).Pairwise (RisesBelow rank))
    (p q next : Fin n) (first : WaitsForOwner s p q)
    (second : WaitsForOwner s q next) :
    rankAsked rank s p < rankAsked rank s q := by
  obtain ⟨r, isWaiting, owns⟩ := first
  obtain ⟨r', isWaiting', _⟩ := second
  have due := waits.asks q r' isWaiting'
  have counted := books.owned q r
  rw [if_pos owns] at counted
  obtain ⟨held, holds, names⟩ := List.countP_pos_iff.mp
    (show 0 < entriesFor r (s.procs q).resourcesHolding by omega)
  have below := books.rank_lt_firstDue inLine inOrder holds due
  rw [of_decide_eq_true names] at below
  simpa [rankAsked, waits.asks p r isWaiting, due] using below

end Cycles

/-- Ordered requests get through.  Number the resources in any way.  If every
process of a well-formed script that asks for a resource while it has others
asks for one with a greater number, then under the status-aware policies no
cycle of waiting comes up at any tick, and the run ends, within the bound for
all runs, with everybody having exited and all resources free. -/
theorem ordered_requests_get_through (script : List ProcessBlock)
    (policy : Policy) (aware : policy ∈ statusAware)
    (wellFormed : WellFormed script) (rank : Nat → Nat)
    (inOrder : OrderedRequests rank script) :
    (∀ k s, doSimulation script policy.scheduler k = .ok (.again s) →
      ∀ p, ¬ OnCycle (WaitsForOwner s) p) ∧
    ∃ k ≤ tickBound script, ∃ s,
      doSimulation script policy.scheduler (k + 1) = .ok (.leave s) ∧
        AllDone s := by
  have serves := Policy.serves aware wellFormed
  refine ⟨fun k s reached => ?_, ?_⟩
  · obtain ⟨settled, _, _⟩ := serves.settled reached
    exact not_onCycle_of_rank (rankAsked rank s) (rankAsked_rises settled.books
      settled.waits (serves.inLine reached) inOrder)
  · obtain ⟨k, bound, s, mid, reached, pass, quit, left⟩ := serves.leaves
    refine ⟨k, bound, mid, left, ?_⟩
    rcases pass.prepared.leave pass.fitting quit with done | deadlocked
    · exact done
    · obtain ⟨p, present⟩ := deadlocked.1
      obtain ⟨q, _, _, round⟩ := (deadlocked.2 p present).2.2
      have inLine := (serves.inLine reached).congr pass.dispatching.entries
      exact absurd round (not_onCycle_of_rank (rankAsked rank mid)
        (rankAsked_rises pass.prepared.books pass.prepared.waits inLine inOrder) q)

/-- Two processes that take resources 1 and 2 nested, both in the same order. -/
def sameOrder : List ProcessBlock :=
  [{ pid := 1, start := 0, lifespan := 4
     acquires := [⟨2, 1, 2⟩, ⟨1, 0, 3⟩] },
   { pid := 2, start := 1, lifespan := 4, prio := 5
     acquires := [⟨1, 0, 2⟩, ⟨2, 1, 1⟩] }]

theorem ordered_requests_get_through_sameOrder :
    (∀ k s, doSimulation sameOrder pipScheduler k = .ok (.again s) →
      ∀ p, ¬ OnCycle (WaitsForOwner s) p) ∧
    ∃ k ≤ tickBound sameOrder, ∃ s,
      doSimulation sameOrder pipScheduler (k + 1) = .ok (.leave s) ∧ AllDone s :=
  ordered_requests_get_through sameOrder .pip (by decide) (by decide) id
    (by decide)

end OsPAs.Sched
