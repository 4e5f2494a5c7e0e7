/-
Module: OsPAs.Sched.Inheritance
Purpose: Priority inheritance.  Between ticks a priority is the greatest of the
  original one and those of the waiters, as long as the three moments that
  `pip_acquire` and `pip_release` do not provide for are avoided.
Trusted boundary: none
Main exports: Boosts, InheritsExactly, AcquireKeepsExact, ReleaseKeepsExact,
  InheritanceTick, inheritance_exact
-/
import OsPAs.Sched.Priorities
import Mathlib.Order.Bounds.Basic

namespace OsPAs.Sched

open Lib

variable {n : Nat}

/-- The priorities that process `p` is entitled to: its original one, and the
current ones of the processes waiting for a resource it owns. -/
def Boosts (s : Sim n) (p : Fin n) : Set Nat :=
  {prio | prio = (s.procs p).prioOrig ∨
    ∃ r w, s.owner r = some p ∧ w ∈ s.waitqueue r ∧ prio = (s.procs w).prio}

/-- The priority of process `p` is the greatest it is entitled to. -/
def InheritsExactly (s : Sim n) (p : Fin n) : Prop :=
  IsGreatest (Boosts s p) (s.procs p).prio

/-- Nobody waits for process `p` with a higher priority. -/
def NobodyHigher (s : Sim n) (p : Fin n) : Prop :=
  ∀ r w, s.owner r = some p → w ∈ s.waitqueue r →
    (s.procs w).prio ≤ (s.procs p).prio

/-- A boost of process `p` to the priority of `c` is not one that the owner of
the resource `p` itself waits for would have to get as well. -/
def EndsChain (s : Sim n) (c p : Fin n) : Prop :=
  ∀ r next, p ∈ s.waitqueue r → s.owner r = some next → next ≠ p →
    (s.procs c).prio ≤ (s.procs next).prio

/-- A free resource that process `c` takes has no waiter of higher priority,
unless it is released in this very tick. -/
def GrantKeepsExact (s : Sim n) (c : Fin n) (r : Fin nrResources)
    (duration : Nat) : Prop :=
  s.owner r = none → duration = 1 ∨
    ∀ w ∈ s.waitqueue r, (s.procs w).prio ≤ (s.procs c).prio

/-- When process `c` has to wait for a resource, nobody waits for `c` with a
higher priority, and a boost of the owner ends the chain. -/
def RefusalKeepsExact (s : Sim n) (c : Fin n) (r : Fin nrResources) : Prop :=
  ∀ owner, s.owner r = some owner →
    NobodyHigher s c ∧
      ((s.procs c).prio ≤ (s.procs owner).prio ∨ EndsChain s c owner)

/-- The states in which `pip_acquire` does the right thing for the entry `rs`
of process `c`. -/
def AcquireKeepsExact (s : Sim n) (c : Fin n) (rs : ResourceSchedule) : Prop :=
  ∀ r : Fin nrResources, r.val = rs.resourceId →
    GrantKeepsExact s c r rs.duration ∧ RefusalKeepsExact s c r

/-- The states in which the releases of process `c` do the right thing: if
anything is released, nobody waits for what is kept with more than the original
priority of `c`. -/
def ReleaseKeepsExact (s : Sim n) (c : Fin n) : Prop :=
  (∃ rs ∈ (s.procs c).resourcesHolding, rs.duration = 1) →
    ∀ rs ∈ (s.procs c).resourcesHolding, rs.duration ≠ 1 →
      ∀ r : Fin nrResources, r.val = rs.resourceId →
        ∀ w ∈ s.waitqueue r, (s.procs w).prio ≤ (s.procs c).prioOrig

/-- In the tick that begins in state `s`, the callbacks are entered in states
that they can handle. -/
def InheritanceTick (s : Sim n) : Prop :=
  ∀ mid c, dispatch pipScheduler s = .ok mid → mid.current = some c →
    (∀ call ∈ acquireCalls pipScheduler c (mid.procs c).resourcesToAcquire
        (mid.setStatus c .running), AcquireKeepsExact call.2 c call.1) ∧
    ∀ t, runCurrentAcquire pipScheduler c (mid.setStatus c .running) =
      .ok (true, t) → ReleaseKeepsExact t c

instance (s : Sim n) (p : Fin n) : Decidable (NobodyHigher s p) :=
  inferInstanceAs (Decidable (∀ _ _, _ → _ → _))

instance (s : Sim n) (c p : Fin n) : Decidable (EndsChain s c p) :=
  inferInstanceAs (Decidable (∀ _ _, _ → _ → _ → _))

instance (s : Sim n) (c : Fin n) (r : Fin nrResources) (duration : Nat) :
    Decidable (GrantKeepsExact s c r duration) :=
  inferInstanceAs (Decidable (_ → _ ∨ _))

instance (s : Sim n) (c : Fin n) (r : Fin nrResources) :
    Decidable (RefusalKeepsExact s c r) :=
  inferInstanceAs (Decidable (∀ _, _ → _ ∧ (_ ∨ _)))

instance (s : Sim n) (c : Fin n) (rs : ResourceSchedule) :
    Decidable (AcquireKeepsExact s c rs) :=
  inferInstanceAs (Decidable (∀ _, _ → _ ∧ _))

instance (s : Sim n) (c : Fin n) : Decidable (ReleaseKeepsExact s c) :=
  inferInstanceAs (Decidable (_ → ∀ _ ∈ _, _ → ∀ _, _ → ∀ _ ∈ _, _))

instance (s : Sim n) : Decidable (InheritanceTick s) :=
  decidable_of_iff
    (∀ mid ∈ (dispatch pipScheduler s).toOption, ∀ c ∈ mid.current,
      (∀ call ∈ acquireCalls pipScheduler c (mid.procs c).resourcesToAcquire
        (mid.setStatus c .running), AcquireKeepsExact call.2 c call.1) ∧
      ∀ result ∈ (runCurrentAcquire pipScheduler c
        (mid.setStatus c .running)).toOption,
        result.1 = true → ReleaseKeepsExact result.2 c)
    (by
      constructor
      · intro all mid c dispatchedEq isCurrent
        obtain ⟨calls, releases⟩ :=
          all mid (mem_toOption.mpr dispatchedEq) c isCurrent
        exact ⟨calls, fun t acquired =>
          releases (true, t) (mem_toOption.mpr acquired) rfl⟩
      · intro tick mid isMid c isCurrent
        obtain ⟨calls, releases⟩ :=
          tick mid c (mem_toOption.mp isMid) isCurrent
        refine ⟨calls, fun result isResult granted => ?_⟩
        obtain ⟨_, t⟩ := result
        obtain rfl : _ = true := granted
        exact releases t (mem_toOption.mp isResult))

/-! ### Exactness -/

section Exactness

variable {s s' t : Sim n} {p c : Fin n} {r : Fin nrResources}

theorem boosts_of_same (same : SamePriorities s s') (p : Fin n) :
    Boosts s' p = Boosts s p := by
  ext prio
  simp only [Boosts, Set.mem_ofPred_eq, same.owner, same.waitqueue, same.prio,
    same.prioOrig]

/-- What a process is entitled to depends on the waiters for what it owns. -/
theorem boosts_congr (prioOrig : (s'.procs p).prioOrig = (s.procs p).prioOrig)
    (owner : ∀ j, s'.owner j = some p ↔ s.owner j = some p)
    (waitqueue : ∀ j, s.owner j = some p → s'.waitqueue j = s.waitqueue j)
    (prio : ∀ j, ∀ w ∈ s.waitqueue j, (s'.procs w).prio = (s.procs w).prio) :
    Boosts s' p = Boosts s p := by
  ext k
  simp only [Boosts, Set.mem_ofPred_eq, prioOrig, owner]
  constructor
  · rintro (orig | ⟨j, w, owns, isWaiting, eq⟩)
    · exact Or.inl orig
    · rw [waitqueue j owns] at isWaiting
      exact Or.inr ⟨j, w, owns, isWaiting, eq.trans (prio j w isWaiting)⟩
  · rintro (orig | ⟨j, w, owns, isWaiting, eq⟩)
    · exact Or.inl orig
    · refine Or.inr ⟨j, w, owns, ?_, eq.trans (prio j w isWaiting).symm⟩
      rw [waitqueue j owns]
      exact isWaiting

theorem InheritsExactly.of_same (exact : InheritsExactly s p)
    (same : SamePriorities s s') : InheritsExactly s' p := by
  unfold InheritsExactly
  rw [boosts_of_same same, same.prio]
  exact exact

theorem InheritsExactly.prioOrig_le (exact : InheritsExactly s p) :
    (s.procs p).prioOrig ≤ (s.procs p).prio :=
  exact.2 (Or.inl rfl)

theorem InheritsExactly.nobodyHigher (exact : InheritsExactly s p) :
    NobodyHigher s p :=
  fun r w owns isWaiting => exact.2 (Or.inr ⟨r, w, owns, isWaiting, rfl⟩)

theorem inheritsExactly_of (attained : (s.procs p).prio ∈ Boosts s p)
    (orig : (s.procs p).prioOrig ≤ (s.procs p).prio)
    (nobodyHigher : NobodyHigher s p) : InheritsExactly s p := by
  refine ⟨attained, ?_⟩
  rintro prio (rfl | ⟨r, w, owns, isWaiting, rfl⟩)
  · exact orig
  · exact nobodyHigher r w owns isWaiting

/-- Who owns nothing and has its original priority inherits exactly. -/
theorem inheritsExactly_of_orig (isOrig : (s.procs p).prio = (s.procs p).prioOrig)
    (nobodyHigher : NobodyHigher s p) : InheritsExactly s p :=
  inheritsExactly_of (Or.inl isOrig) (Nat.le_of_eq isOrig.symm) nobodyHigher

/-- While process `c` asks for resources, a waiter may be above it on a
resource that it is going to give back in the same tick. -/
structure AskingTurn (t : Sim n) (c : Fin n) : Prop where
  others : ∀ p, p ≠ c → InheritsExactly t p
  attained : (t.procs c).prio ∈ Boosts t c
  orig : (t.procs c).prioOrig ≤ (t.procs c).prio
  below : ∀ r w, t.owner r = some c → w ∈ t.waitqueue r →
    (t.procs w).prio ≤ (t.procs c).prio ∨
      ∃ rs ∈ (t.procs c).resourcesHolding,
        rs.resourceId = r.val ∧ rs.duration = 1

theorem AskingTurn.start (exact : ∀ p, InheritsExactly s p)
    (same : SamePriorities s t) : AskingTurn t c where
  others := fun p _ => (exact p).of_same same
  attained := ((exact c).of_same same).1
  orig := ((exact c).of_same same).prioOrig_le
  below := fun r w owns isWaiting =>
    Or.inl (((exact c).of_same same).nobodyHigher r w owns isWaiting)

theorem AskingTurn.setToAcquire (turn : AskingTurn t c)
    (stay : List ResourceSchedule) : AskingTurn (t.setToAcquire c stay) c := by
  have same := (Steady.setToAcquire t c stay).priorities
  constructor
  · exact fun p other => (turn.others p other).of_same same
  · rw [boosts_of_same same, same.prio]
    exact turn.attained
  · rw [same.prio, same.prioOrig]
    exact turn.orig
  · intro r w owns isWaiting
    rw [same.prio, same.prio, setToAcquire_procs]
    exact turn.below r w owns isWaiting

/-- `pip_acquire` of a free resource. -/
theorem AskingTurn.granted {rs : ResourceSchedule} (turn : AskingTurn s c)
    (keeps : AcquireKeepsExact s c rs)
    {inside : rs.resourceId < nrResources}
    (acquired : pipAcquire c rs.resourceId s = .ok (true, s'))
    (move : Requested s c ⟨rs.resourceId, inside⟩ true s') (event : Event n) :
    AskingTurn ((s'.hold c rs).print event) c := by
  have free := move.free
  obtain ⟨i, isId, rfl⟩ := acquireWith_granted acquired
  obtain rfl : i = ⟨rs.resourceId, inside⟩ := Fin.ext isId
  have same : SamePriorities (s.setOwner ⟨rs.resourceId, inside⟩ (some c))
      (((s.setOwner ⟨rs.resourceId, inside⟩ (some c)).hold c rs).print event) :=
    ((Steady.hold _ c rs).trans (.print _ _)).priorities
  have owner (j : Fin nrResources) :
      (s.setOwner ⟨rs.resourceId, inside⟩ (some c)).owner j =
        if j = ⟨rs.resourceId, inside⟩ then some c else s.owner j :=
    Function.update_apply s.owner _ (some c) j
  have holding : ((((s.setOwner ⟨rs.resourceId, inside⟩ (some c)).hold c
      rs).print event).procs c).resourcesHolding =
        (s.procs c).resourcesHolding ++ [rs] := by
    rw [Sim.print_procs, hold_procs]
    simp only [if_true]
    rfl
  constructor
  · intro p other
    -- the resource had no owner, so nobody else loses a waiter
    have unchanged :
        Boosts (s.setOwner ⟨rs.resourceId, inside⟩ (some c)) p = Boosts s p := by
      refine boosts_congr rfl (fun j => ?_) (fun _ _ => rfl) fun _ _ _ => rfl
      rw [owner]
      split
      · rename_i isNew
        simp [isNew, free, Ne.symm other]
      · exact Iff.rfl
    have exact : InheritsExactly
        (s.setOwner ⟨rs.resourceId, inside⟩ (some c)) p := by
      unfold InheritsExactly
      rw [unchanged]
      exact turn.others p other
    exact exact.of_same same
  · rw [boosts_of_same same, same.prio]
    rcases turn.attained with orig | ⟨j, w, owns, isWaiting, eq⟩
    · exact Or.inl orig
    · refine Or.inr ⟨j, w, ?_, isWaiting, eq⟩
      rw [owner]
      split
      · rfl
      · exact owns
  · rw [same.prio, same.prioOrig]
    exact turn.orig
  · intro j w owns isWaiting
    rw [same.owner, owner] at owns
    rw [same.waitqueue] at isWaiting
    rw [same.prio, same.prio, holding]
    by_cases isNew : j = ⟨rs.resourceId, inside⟩
    · subst isNew
      rcases (keeps ⟨rs.resourceId, inside⟩ rfl).1 free with oneTick | below
      · exact Or.inr ⟨rs, by simp, rfl, oneTick⟩
      · exact Or.inl (below w isWaiting)
    · rw [if_neg isNew] at owns
      rcases turn.below j w owns isWaiting with below | ⟨held, isHeld, why⟩
      · exact Or.inl below
      · exact Or.inr ⟨held, List.mem_append_left _ isHeld, why⟩

/-- Process `c` was refused resource `r`, and its priority went to the owner,
which stays below everybody it waits for itself. -/
structure Inherited (s s' : Sim n) (owner c : Fin n) (r : Fin nrResources) :
    Prop where
  exact : ∀ q, InheritsExactly s q
  taken : s.owner r = some owner
  move : Requested s c r false s'
  prio : ∀ q, (s'.procs q).prio =
    if q = owner then max (s.procs owner).prio (s.procs c).prio
    else (s.procs q).prio
  below : ∀ j q, s.owner j = some q → owner ∈ s.waitqueue j → q ≠ owner →
    max (s.procs owner).prio (s.procs c).prio ≤ (s.procs q).prio

namespace Inherited

variable {owner : Fin n}

theorem grows (inherited : Inherited s s' owner c r) (q : Fin n) :
    (s.procs q).prio ≤ (s'.procs q).prio := by
  rw [inherited.prio]
  split
  · rename_i same
    rw [same]
    exact Nat.le_max_left _ _
  · exact Nat.le_refl _

/-- A priority that did not change is inherited from the same process. -/
theorem attained_of_same (inherited : Inherited s s' owner c r)
    (isOld : (s'.procs p).prio = (s.procs p).prio) :
    (s'.procs p).prio ∈ Boosts s' p := by
  rcases (inherited.exact p).1 with orig | ⟨j, w, owns, isWaiting, eq⟩
  · refine Or.inl ?_
    rw [isOld, (SameScript.refused inherited.move).prioOrig]
    exact orig
  · have stillWaits : w ∈ s'.waitqueue j :=
      inherited.move.mem_waitqueue_refused.mpr (Or.inl isWaiting)
    rw [← inherited.move.owner_refused] at owns
    refine Or.inr ⟨j, w, owns, stillWaits, ?_⟩
    rw [isOld, eq, inherited.prio]
    split
    · rename_i isOwner
      subst isOwner
      rw [inherited.move.owner_refused] at owns
      by_cases same : p = w
      · subst same
        rw [inherited.prio, if_pos rfl] at isOld
        exact isOld.symm
      · have low := inherited.below j p owns isWaiting same
        omega
    · rfl

theorem attained (inherited : Inherited s s' owner c r) (p : Fin n) :
    (s'.procs p).prio ∈ Boosts s' p := by
  by_cases isOwner : p = owner
  · subst isOwner
    by_cases raised : (s.procs p).prio < (s.procs c).prio
    · have other : c ≠ p := by
        rintro rfl
        exact Nat.lt_irrefl _ raised
      have owns := inherited.taken
      rw [← inherited.move.owner_refused] at owns
      refine Or.inr ⟨r, c, owns,
        inherited.move.mem_waitqueue_refused.mpr (Or.inr ⟨rfl, rfl⟩), ?_⟩
      rw [inherited.prio, if_pos rfl, inherited.prio, if_neg other]
      omega
    · apply inherited.attained_of_same
      rw [inherited.prio, if_pos rfl]
      omega
  · apply inherited.attained_of_same
    rw [inherited.prio, if_neg isOwner]

theorem nobodyHigher (inherited : Inherited s s' owner c r) (p : Fin n) :
    NobodyHigher s' p := by
  intro j w owns isWaiting
  rw [inherited.move.owner_refused] at owns
  rcases inherited.move.mem_waitqueue_refused.mp isWaiting with old | ⟨rfl, rfl⟩
  · have before := (inherited.exact p).nobodyHigher j w owns old
    by_cases isOwner : w = owner
    · subst isOwner
      by_cases same : p = w
      · rw [same]
      · rw [inherited.prio w, if_pos rfl]
        exact Nat.le_trans (inherited.below j p owns old same)
          (inherited.grows p)
    · rw [inherited.prio w, if_neg isOwner]
      exact Nat.le_trans before (inherited.grows p)
  · obtain rfl : owner = p := Option.some.inj (inherited.taken.symm.trans owns)
    rw [inherited.prio w, inherited.prio owner, if_pos rfl]
    split
    · rename_i same
      rw [same]
    · exact Nat.le_max_right _ _

end Inherited

/-- `pip_acquire` of a taken resource: its owner is boosted. -/
theorem AskingTurn.refused {rs : ResourceSchedule} (turn : AskingTurn s c)
    (keeps : AcquireKeepsExact s c rs) {inside : rs.resourceId < nrResources}
    (acquired : pipAcquire c rs.resourceId s = .ok (false, s'))
    (move : Requested s c ⟨rs.resourceId, inside⟩ false s') (p : Fin n) :
    InheritsExactly s' p := by
  obtain ⟨i, owner, isId, taken, prioEq⟩ := acquireWith_refused acquired
  obtain rfl : i = ⟨rs.resourceId, inside⟩ := Fin.ext isId
  obtain ⟨nobodyHigher, boost⟩ :=
    (keeps ⟨rs.resourceId, inside⟩ rfl).2 owner taken
  have exact (q : Fin n) : InheritsExactly s q := by
    by_cases same : q = c
    · subst same
      exact inheritsExactly_of turn.attained turn.orig nobodyHigher
    · exact turn.others q same
  have inherited : Inherited s s' owner c ⟨rs.resourceId, inside⟩ := by
    refine ⟨exact, taken, move, fun q => ?_, fun j q owns isWaiting other => ?_⟩
    · rw [prioEq, inheritPrio_prio]
    · have below := (exact q).nobodyHigher j owner owns isWaiting
      rcases boost with low | chain
      · omega
      · have next := chain j q isWaiting owns other
        omega
  apply inheritsExactly_of (inherited.attained p) _ (inherited.nobodyHigher p)
  rw [(SameScript.refused move).prioOrig]
  exact Nat.le_trans (exact p).prioOrig_le (inherited.grows p)

/-! ### Releasing -/

/-- Nobody waits for the resource of the entry with more than the original
priority of process `c`. -/
def Low (t : Sim n) (c : Fin n) (rs : ResourceSchedule) : Prop :=
  ∀ r : Fin nrResources, r.val = rs.resourceId →
    ∀ w ∈ t.waitqueue r, (t.procs w).prio ≤ (t.procs c).prioOrig

/-- While process `c` releases: nothing is released at all, or `c` gets its
original priority and that is all it is entitled to in the end. -/
structure ReleasingTurn (t : Sim n) (c : Fin n)
    (kept todo : List ResourceSchedule) : Prop where
  others : ∀ p, p ≠ c → InheritsExactly t p
  current : InheritsExactly t c ∧ (∀ rs ∈ todo, rs.duration ≠ 1) ∨
    ((∃ rs ∈ todo, rs.duration = 1) ∨
        (t.procs c).prio = (t.procs c).prioOrig) ∧
      (∀ rs ∈ kept, Low t c rs) ∧
      ∀ rs ∈ todo, rs.duration ≠ 1 → Low t c rs

theorem Low.of_same {rs : ResourceSchedule} (low : Low s c rs)
    (same : SamePriorities s s') : Low s' c rs := by
  intro r isId w isWaiting
  rw [same.prio, same.prioOrig]
  exact low r isId w (same.waitqueue ▸ isWaiting)

theorem ReleasingTurn.of_same {kept todo : List ResourceSchedule}
    (turn : ReleasingTurn s c kept todo) (same : SamePriorities s s') :
    ReleasingTurn s' c kept todo where
  others := fun p other => (turn.others p other).of_same same
  current := by
    rcases turn.current with ⟨exact, never⟩ | ⟨reset, keptLow, todoLow⟩
    · exact Or.inl ⟨exact.of_same same, never⟩
    · refine Or.inr ⟨?_, fun rs member => (keptLow rs member).of_same same,
        fun rs member lasts => (todoLow rs member lasts).of_same same⟩
      rwa [same.prio, same.prioOrig]

theorem ReleasingTurn.start (turn : AskingTurn t c)
    (keeps : ReleaseKeepsExact t c) :
    ReleasingTurn t c [] (t.procs c).resourcesHolding where
  others := turn.others
  current := by
    by_cases releases : ∃ rs ∈ (t.procs c).resourcesHolding, rs.duration = 1
    · exact Or.inr ⟨Or.inl releases, by simp, keeps releases⟩
    · have never : ∀ rs ∈ (t.procs c).resourcesHolding, rs.duration ≠ 1 :=
        fun rs member last => releases ⟨rs, member, last⟩
      refine Or.inl ⟨inheritsExactly_of turn.attained turn.orig ?_, never⟩
      intro r w owns isWaiting
      rcases turn.below r w owns isWaiting with below | ⟨rs, member, _, last⟩
      · exact below
      · exact absurd last (never rs member)

theorem ReleasingTurn.keep {kept rest : List ResourceSchedule}
    {rs : ResourceSchedule} (turn : ReleasingTurn t c kept (rs :: rest))
    (goesOn : rs.duration ≠ 1) :
    ReleasingTurn t c (kept ++ [rs.countDown]) rest where
  others := turn.others
  current := by
    rcases turn.current with ⟨exact, never⟩ | ⟨reset, keptLow, todoLow⟩
    · exact Or.inl ⟨exact, fun other member =>
        never other (List.mem_cons_of_mem rs member)⟩
    · refine Or.inr ⟨?_, fun other member => ?_, fun other member =>
        todoLow other (List.mem_cons_of_mem rs member)⟩
      · refine reset.imp (fun releases => ?_) id
        obtain ⟨other, member, last⟩ := releases
        rcases List.mem_cons.mp member with rfl | member
        · exact absurd last goesOn
        · exact ⟨other, member, last⟩
      · rcases List.mem_append.mp member with old | new
        · exact keptLow other old
        · obtain rfl : other = rs.countDown := by simpa using new
          exact todoLow rs List.mem_cons_self goesOn

/-- `pip_release` drops the process to its original priority. -/
theorem ReleasingTurn.drop {kept rest : List ResourceSchedule}
    {rs : ResourceSchedule} (turn : ReleasingTurn t c kept (rs :: rest))
    (last : rs.duration = 1) (loose : t.detached c) {resourceId : Nat}
    (released : pipRelease c resourceId t = .ok s')
    (move : Released t c r s') : ReleasingTurn s' c kept rest := by
  have prio (p : Fin n) : (s'.procs p).prio =
      if p = c then (t.procs c).prioOrig else (t.procs p).prio := by
    rw [releaseWith_prio released, restorePrio_prio]
  have prioOrig := (SameScript.released move).prioOrig
  have waiterPrio (w : Fin n) (i : Fin nrResources) (member : w ∈ t.waitqueue i) :
      (s'.procs w).prio = (t.procs w).prio := by
    rw [prio, if_neg]
    rintro rfl
    exact loose.2.2 i member
  have low (other : ResourceSchedule) (isLow : Low t c other) :
      Low s' c other := by
    intro i isId w isWaiting
    have waited := move.waitqueue_subset i isWaiting
    rw [waiterPrio w i waited, prioOrig]
    exact isLow i isId w waited
  constructor
  · intro p other
    have otherResource (i : Fin nrResources) (owns : t.owner i = some p) :
        i ≠ r := by
      rintro rfl
      exact other (Option.some.inj (owns.symm.trans move.owned))
    have unchanged : Boosts s' p = Boosts t p := by
      apply boosts_congr (prioOrig p) _ _ fun i w => waiterPrio w i
      · intro i
        refine ⟨move.owner_of_owner, fun owns => ?_⟩
        rw [move.owner, Function.update_of_ne (otherResource i owns)]
        exact owns
      · exact fun i owns => move.waitqueue_of_ne (otherResource i owns)
    unfold InheritsExactly
    rw [unchanged, prio, if_neg other]
    exact turn.others p other
  · rcases turn.current with ⟨_, never⟩ | ⟨_, keptLow, todoLow⟩
    · exact absurd last (never rs List.mem_cons_self)
    · refine Or.inr ⟨Or.inr ?_, fun other member => low other (keptLow other member),
        fun other member lasts => low other
          (todoLow other (List.mem_cons_of_mem rs member) lasts)⟩
      rw [prio, if_pos rfl, prioOrig]

/-- After the releases all priorities are exact again. -/
theorem ReleasingTurn.exact {all : Fin n → List ResourceSchedule} {age : Nat}
    {kept : List ResourceSchedule} (turn : ReleasingTurn t c kept [])
    (books : OpenBooks all t c age kept []) (p : Fin n) :
    InheritsExactly t p := by
  by_cases same : p = c
  · subst same
    rcases turn.current with ⟨exact, _⟩ | ⟨reset, keptLow, _⟩
    · exact exact
    · have isOrig : (t.procs p).prio = (t.procs p).prioOrig := by
        rcases reset with ⟨rs, member, _⟩ | isOrig
        · simp at member
        · exact isOrig
      refine inheritsExactly_of_orig isOrig fun r w owns isWaiting => ?_
      have counted := books.owned r
      rw [if_pos owns, List.append_nil] at counted
      have positive : 0 < kept.countP fun rs => rs.resourceId = r.val := by
        unfold entriesFor at counted
        omega
      obtain ⟨rs, member, isId⟩ := List.countP_pos_iff.mp positive
      rw [isOrig]
      exact keptLow rs member r (of_decide_eq_true isId).symm w isWaiting
  · exact turn.others p same

end Exactness

/-! ### Ticks and runs -/

/-- What is carried through a tick of the chosen process under PIP. -/
theorem inheritance_carries {all : Fin n → List ResourceSchedule} {s : Sim n}
    {c : Fin n} (exact : ∀ p, InheritsExactly s p) (prepared : Prepared all s)
    (fitting : Fitting all s) (isCurrent : s.current = some c)
    (calls : ∀ call ∈ acquireCalls pipScheduler c
      (s.procs c).resourcesToAcquire (s.setStatus c .running),
      AcquireKeepsExact call.2 c call.1)
    (releases : ∀ t, runCurrentAcquire pipScheduler c (s.setStatus c .running) =
      .ok (true, t) → ReleaseKeepsExact t c) :
    Carries pipScheduler True s c
      (fun kept todo t => Asking all s c kept todo t ∧ AskingTurn t c)
      (fun stay t => TurnedDown all c stay t ∧ ∀ p, InheritsExactly t p)
      (fun kept todo t =>
        Releasing all s c kept todo t ∧ ReleasingTurn t c kept todo) := by
  apply (prepared.carries pipScheduler fitting isCurrent).alongside
  · exact .start exact (Steady.setStatus s c .running).priorities
  · intro kept rs rest t _ _ turn _
    exact turn
  · intro kept rs rest t inside t' _ _ turn _ called acquired move
    exact turn.granted (calls _ called) acquired move _
  · intro kept rs rest t inside t' _ _ turn _ called acquired move p
    have exactNow := turn.refused (calls _ called) acquired move p
    exact exactNow.of_same (Steady.print _ _).priorities
  · intro stay t _ _ turn acquired
    have asked : AskingTurn (t.setToAcquire c stay) c := turn.setToAcquire stay
    have started := ReleasingTurn.start asked (releases _ acquired)
    rw [setToAcquire_procs] at started
    exact started.of_same ((Steady.print _ _).trans (.growOlder _ c)).priorities
  · intro kept rs rest t _ _ turn goesOn
    exact turn.keep (subUInt_one_eq_zero.not.mp goesOn)
  · intro kept rs rest t inside t' busy _ turn last released move _
    have dropped := turn.drop (subUInt_one_eq_zero.mp last) busy.detached
      released move
    exact dropped.of_same (Steady.print _ _).priorities

/-- One pass under PIP keeps all priorities exact, if its callbacks are entered
in states that they can handle. -/
theorem inheritance_body {all : Fin n → List ResourceSchedule} {s s' : Sim n}
    (exact : ∀ p, InheritsExactly s p) (settled : Settled all s)
    (fitting : Fitting all s) (tick : InheritanceTick s)
    (ran : body pipScheduler s = .ok (.again s')) (p : Fin n) :
    InheritsExactly s' p := by
  have contract : Contract True (fun _ : Sim n => True) pipScheduler :=
    Policy.contract (show Policy.pip ∈ statusAware by decide)
  obtain ⟨mid, dispatchedEq, _, executedEq⟩ := body_again ran
  obtain ⟨mid', eq, _, prepared, fittingMid, _⟩ :=
    settled.body contract fitting trivial
  obtain rfl := Except.ok.inj (dispatchedEq.symm.trans eq)
  have exactMid (q : Fin n) : InheritsExactly mid q := (exact q).of_same
    (dispatch_samePriorities contract rfl settled.sound trivial dispatchedEq)
  cases isCurrent : mid.current with
  | none =>
      obtain rfl := Except.ok.inj
        ((execute_of_idle pipScheduler isCurrent).symm.trans executedEq)
      exact (exactMid p).of_same ((Steady.print _ _).trans (.nextTick _)).priorities
  | some c =>
      obtain ⟨calls, releases⟩ := tick mid c dispatchedEq isCurrent
      have carries := inheritance_carries exactMid prepared fittingMid isCurrent
        calls releases
      obtain ⟨stay, t, ⟨rfl, _, _, after⟩ | ⟨rfl, _, books, turn⟩⟩ :=
        carries.executed contract prepared.dispatched isCurrent executedEq
      · exact (after p).of_same
          ((Steady.setToAcquire t c stay).trans (.nextTick _)).priorities
      · exact (turn.exact books.1 p).of_same
          ((Steady.setHolding t c stay).trans (.nextTick _)).priorities

/-- As long as the PIP callbacks are entered in states that they can handle,
every priority between any two ticks is the greatest of the original one and
those of the processes waiting for a resource of the process. -/
theorem inheritance_exact (script : List ProcessBlock)
    (wellFormed : WellFormed script) (k : Nat)
    (ticks : ∀ j < k, ∀ s, doSimulation script pipScheduler j = .ok (.again s) →
      InheritanceTick s)
    (s : Sim script.length)
    (reached : doSimulation script pipScheduler k = .ok (.again s)) :
    ∀ p, IsGreatest (Boosts s p) (s.procs p).prio := by
  induction k generalizing s with
  | zero =>
      obtain rfl : load script = s := by simpa [doSimulation] using reached
      exact fun p => inheritsExactly_of_orig rfl
        fun r w owns => by simp [load] at owns
  | succ k inductionHypothesis =>
      obtain ⟨before, beforeReached, ran⟩ := iterate_succ_again reached
      have exact := inductionHypothesis
        (fun j lt => ticks j (Nat.lt_succ_of_lt lt)) before beforeReached
      obtain ⟨settled, fitting⟩ := reached_settled
        (show Policy.pip ∈ statusAware by decide) wellFormed beforeReached
      exact inheritance_body exact settled fitting
        (ticks k (Nat.lt_succ_self k) before beforeReached) ran

/-- A process that takes two resources, and a more important one that asks for
the second. -/
def waiterForSecond (firstDuration : UInt32) : List ProcessBlock :=
  [{ pid := 1, start := 0, lifespan := 4
     acquires := [⟨1, 0, firstDuration⟩, ⟨2, 0, 3⟩] },
   { pid := 2, start := 1, lifespan := 1, prio := 5, acquires := [⟨2, 0, 1⟩] }]

/-- The first process is boosted from tick 2 on. -/
theorem inheritance_exact_waiterForSecond :
    ∃ s, doSimulation (waiterForSecond 3) pipScheduler 3 = .ok (.again s) ∧
      (∃ p, (s.procs p).prio ≠ (s.procs p).prioOrig) ∧
      ∀ p, IsGreatest (Boosts s p) (s.procs p).prio := by
  obtain ⟨s, reached, boosted⟩ := exists_of_againWith
    (fun s => ∃ p, (s.procs p).prio ≠ (s.procs p).prioOrig)
    (doSimulation (waiterForSecond 3) pipScheduler 3) (by decide +kernel)
  have ticks : ∀ j < 3, againAll InheritanceTick
      (doSimulation (waiterForSecond 3) pipScheduler j) = true := by
    decide +kernel
  exact ⟨s, reached, boosted, inheritance_exact (waiterForSecond 3) (by decide) 3
    (fun j lt => forall_of_againAll InheritanceTick _ (ticks j lt)) s reached⟩

/-- If it returns the first resource a tick before the second, it loses the
boost that the waiter for the second one still justifies. -/
theorem inheritance_lost :
    WellFormed (waiterForSecond 2) ∧
      ∃ s, doSimulation (waiterForSecond 2) pipScheduler 3 = .ok (.again s) ∧
        ∃ p, (s.procs p).status ≠ .exit ∧
          ¬ IsGreatest (Boosts s p) (s.procs p).prio := by
  obtain ⟨s, reached, p, r, w, present, owns, isWaiting, below⟩ :=
    exists_of_againWith
      (fun s => ∃ p r w, (s.procs p).status ≠ .exit ∧ s.owner r = some p ∧
        w ∈ s.waitqueue r ∧ (s.procs p).prio < (s.procs w).prio)
      (doSimulation (waiterForSecond 2) pipScheduler 3) (by decide +kernel)
  refine ⟨by decide, s, reached, p, present, fun exact => ?_⟩
  have bound := exact.2 (Or.inr ⟨r, w, owns, isWaiting, rfl⟩)
  omega

end OsPAs.Sched
