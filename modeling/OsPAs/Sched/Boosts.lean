/-
Module: OsPAs.Sched.Boosts
Purpose: No boost leaks.  Under PIP and PCP a process has a priority other than
  its own only while it owns a resource, and never a lower one.
Trusted boundary: none
Main exports: NoLeak, BoostsOwners, pip_boostsOwners, pcp_boostsOwners,
  boosts_never_leak
-/
import OsPAs.Sched.Priorities
import OsPAs.Sched.Timing

namespace OsPAs.Sched

open Lib

variable {n : Nat}

/-- Only owners are boosted, and nobody is ever below the original priority. -/
structure NoLeak (s : Sim n) : Prop where
  restored : ∀ p, (∀ r, s.owner r ≠ some p) →
    (s.procs p).prio = (s.procs p).prioOrig
  floor : ∀ p, (s.procs p).prioOrig ≤ (s.procs p).prio

/-- Every original priority is at most the ceiling. -/
def UnderCeiling (s : Sim n) : Prop := ∀ p, (s.procs p).prioOrig ≤ maxPrio

theorem UnderCeiling.of_same {s s' : Sim n} (below : UnderCeiling s)
    (same : SameScript s s') : UnderCeiling s' := fun p =>
  (same.prioOrig p).trans_le (below p)

theorem load_noLeak (script : List ProcessBlock) : NoLeak (load script) where
  restored := fun _ _ => rfl
  floor := fun _ => Nat.le_refl _

/-! ### The callbacks -/

namespace NoLeak

variable {s s' : Sim n} {c : Fin n} {r : Fin nrResources} {resourceId : Nat}

theorem of_same (noLeak : NoLeak s) (same : SamePriorities s s') :
    NoLeak s' where
  restored := fun p ownsNothing => by
    rw [same.prio, same.prioOrig]
    exact noLeak.restored p fun r owns => ownsNothing r (same.owner ▸ owns)
  floor := fun p => by
    rw [same.prio, same.prioOrig]
    exact noLeak.floor p

/-- A granted request may raise the process that becomes an owner. -/
theorem granted (noLeak : NoLeak s) (move : Requested s c r true s')
    (others : ∀ p, p ≠ c → (s'.procs p).prio = (s.procs p).prio)
    (raised : (s.procs c).prioOrig ≤ (s'.procs c).prio) : NoLeak s' where
  restored := fun p ownsNothing => by
    have other : p ≠ c := by
      rintro rfl
      exact ownsNothing r (by rw [move.owner_granted, Function.update_self])
    rw [others p other, (SameScript.granted move).prioOrig]
    refine noLeak.restored p fun i owns => ownsNothing i ?_
    have taken : i ≠ r := by
      rintro rfl
      exact absurd (move.free.symm.trans owns) (by simp)
    rwa [move.owner_granted, Function.update_of_ne taken]
  floor := fun p => by
    rw [(SameScript.granted move).prioOrig]
    by_cases same : p = c
    · exact same ▸ raised
    · exact (others p same).symm ▸ noLeak.floor p

/-- A refused request may raise the owner of the resource. -/
theorem refused (noLeak : NoLeak s) (move : Requested s c r false s')
    {owner : Fin n} {i : Fin nrResources} (owned : s.owner i = some owner)
    (others : ∀ p, p ≠ owner → (s'.procs p).prio = (s.procs p).prio)
    (raised : (s.procs owner).prio ≤ (s'.procs owner).prio) : NoLeak s' where
  restored := fun p ownsNothing => by
    rw [move.owner_refused] at ownsNothing
    have other : p ≠ owner := by
      rintro rfl
      exact ownsNothing i owned
    rw [others p other, (SameScript.refused move).prioOrig]
    exact noLeak.restored p ownsNothing
  floor := fun p => by
    rw [(SameScript.refused move).prioOrig]
    by_cases same : p = owner
    · subst same
      exact (noLeak.floor p).trans raised
    · exact (others p same).symm ▸ noLeak.floor p

/-- A release gives the releasing process its own priority back. -/
theorem released (noLeak : NoLeak s) (move : Released s c r s')
    (prio : ∀ p, (s'.procs p).prio = ((restorePrio c s).procs p).prio) :
    NoLeak s' where
  restored := fun p ownsNothing => by
    rw [prio, restorePrio_prio, (SameScript.released move).prioOrig]
    split
    · rename_i same
      rw [same]
    · rename_i other
      refine noLeak.restored p fun i owns => ownsNothing i ?_
      have kept : i ≠ r := by
        rintro rfl
        exact other (Option.some.inj (owns.symm.trans move.owned))
      rwa [move.owner, Function.update_of_ne kept]
  floor := fun p => by
    rw [prio, restorePrio_prio, (SameScript.released move).prioOrig]
    split
    · rename_i same
      rw [same]
    · exact noLeak.floor p

end NoLeak

/-- The scheduler boosts nobody but owners, in states where `guard` holds. -/
structure BoostsOwners (guard : Sim n → Prop) (sched : Scheduler n) :
    Prop where
  isPrio : sched.schedule = prioSchedule
  stable : ∀ s s', SameScript s s' → guard s → guard s'
  granted : ∀ s s' c r resourceId, guard s → NoLeak s →
    sched.acquire c resourceId s = .ok (true, s') → Requested s c r true s' →
    NoLeak s'
  refused : ∀ s s' c r resourceId, NoLeak s →
    sched.acquire c resourceId s = .ok (false, s') →
    Requested s c r false s' → NoLeak s'
  released : ∀ s s' c r resourceId, NoLeak s →
    sched.release c resourceId s = .ok s' → Released s c r s' → NoLeak s'

/-- PIP boosts the owner that somebody of higher priority waits for. -/
theorem pip_boostsOwners :
    BoostsOwners (fun _ : Sim n => True) pipScheduler where
  isPrio := rfl
  stable := fun _ _ _ _ => trivial
  granted := by
    intro s s' c r resourceId _ noLeak acquired move
    change pipAcquire c resourceId s = _ at acquired
    obtain ⟨i, _, rfl⟩ := acquireWith_granted acquired
    exact noLeak.granted move (fun _ _ => rfl) (noLeak.floor c)
  refused := by
    intro s s' c r resourceId noLeak acquired move
    change pipAcquire c resourceId s = _ at acquired
    obtain ⟨i, owner, _, owned, prio⟩ := acquireWith_refused acquired
    refine noLeak.refused move owned (fun p other => ?_) ?_
    · rw [prio, inheritPrio_prio, if_neg other]
    · rw [prio, inheritPrio_prio, if_pos rfl]
      exact Nat.le_max_left _ _
  released := by
    intro s s' c r resourceId noLeak released move
    exact noLeak.released move (releaseWith_prio released)

/-- PCP boosts the new owner to the ceiling. -/
theorem pcp_boostsOwners : BoostsOwners (UnderCeiling (n := n)) pcpScheduler where
  isPrio := rfl
  stable := fun _ _ same below => below.of_same same
  granted := by
    intro s s' c r resourceId below noLeak acquired move
    change pcpAcquire c resourceId s = _ at acquired
    obtain ⟨i, _, rfl⟩ := acquireWith_granted acquired
    refine noLeak.granted move (fun p other => ?_) ?_
    · rw [Sim.setPrio, Sim.modify_of_ne _ other]
      rfl
    · rw [Sim.setPrio, Sim.modify_self]
      exact below c
  refused := by
    intro s s' c r resourceId noLeak acquired move
    change pcpAcquire c resourceId s = _ at acquired
    obtain ⟨i, owner, _, owned, prio⟩ := acquireWith_refused acquired
    exact noLeak.refused move owned (fun p _ => prio p) (prio owner).ge
  released := by
    intro s s' c r resourceId noLeak released move
    exact noLeak.released move (releaseWith_prio released)

/-! ### One pass -/

section Pass

variable {guard : Sim n → Prop} {sched : Scheduler n} {s s' : Sim n}

/-- What is carried through a tick of the chosen process, next to what the
script fixes. -/
theorem NoLeak.carries (boosts : BoostsOwners guard sched) (noLeak : NoLeak s)
    (guarded : guard s) (c : Fin n) :
    Carries sched False s c (fun _ _ t => SameScript s t ∧ NoLeak t)
      (fun _ t => SameScript s t ∧ NoLeak t)
      (fun _ _ t => SameScript s t ∧ NoLeak t) := by
  apply (SameScript.carries sched s c).alongside
  · exact noLeak.of_same (Steady.setStatus s c .running).priorities
  · intro kept rs rest t _ _ noLeak _
    exact noLeak
  · intro kept rs rest t inside t' _ same noLeak _ _ acquired move
    have granted := boosts.granted t t' c _ _ (boosts.stable s t same guarded)
      noLeak acquired move
    exact granted.of_same ((Steady.hold t' c rs).trans (.print _ _)).priorities
  · intro kept rs rest t inside t' _ _ noLeak _ _ acquired move
    exact (boosts.refused t t' c _ _ noLeak acquired move).of_same
      (Steady.print _ _).priorities
  · intro stay t _ _ noLeak _
    exact noLeak.of_same (((Steady.setToAcquire t c stay).trans (.print _ _)).trans
      (.growOlder _ c)).priorities
  · intro kept rs rest t _ _ noLeak _
    exact noLeak
  · intro kept rs rest t inside t' _ _ noLeak _ released move _
    exact (boosts.released t t' c _ _ noLeak released move).of_same
      (Steady.print _ _).priorities

/-- Running the chosen process, or idling, leaks no boost. -/
theorem NoLeak.execute {live : Prop} {calm : Sim n → Prop}
    (contract : Contract live calm sched) (boosts : BoostsOwners guard sched)
    (noLeak : NoLeak s) (guarded : guard s) (dispatched : Dispatched s)
    (executedEq : execute sched s = .ok s') : NoLeak s' := by
  cases isCurrent : s.current with
  | none =>
      obtain rfl := Except.ok.inj
        ((execute_of_idle sched isCurrent).symm.trans executedEq)
      exact noLeak.of_same ((Steady.print _ _).trans (.nextTick _)).priorities
  | some c =>
      obtain ⟨stay, t, ⟨rfl, _, _, after⟩ | ⟨rfl, _, _, after⟩⟩ :=
        (noLeak.carries boosts guarded c).executed contract dispatched
          isCurrent executedEq
      · exact after.of_same
          ((Steady.setToAcquire t c stay).trans (.nextTick _)).priorities
      · exact after.of_same
          ((Steady.setHolding t c stay).trans (.nextTick _)).priorities

end Pass

/-! ### Whole runs -/

section Reached

variable {script : List ProcessBlock}

/-- No state between two ticks has a boost that leaked. -/
theorem reached_noLeak {guard : Sim script.length → Prop} {policy : Policy}
    (aware : policy ∈ statusAware)
    (boosts : BoostsOwners guard policy.scheduler)
    (initially : guard (load script)) (known : KnownScript script) {k : Nat}
    {s : Sim script.length}
    (reached : doSimulation script policy.scheduler k = .ok (.again s)) :
    NoLeak s := by
  have contract := Policy.contract (n := script.length) aware
  apply sound_invariant contract known (fun _ s => NoLeak s)
    (load_noLeak script) _ reached
  intro k s mid s' reached sound noLeak dispatchedEq dispatched executedEq
  have same := (reached_sameScript contract known reached).trans
    (.dispatched contract sound trivial dispatchedEq)
  exact (noLeak.of_same (dispatch_samePriorities contract boosts.isPrio sound
    trivial dispatchedEq)).execute contract boosts
      (boosts.stable _ mid same initially) dispatched executedEq

/-- No boost leaks.  Under PIP, and under PCP if no original priority is above
the ceiling, between any two ticks a process that owns nothing has its original
priority, and nobody is below it. -/
theorem boosts_never_leak (script : List ProcessBlock)
    (wellFormed : WellFormed script) (policy : Policy)
    (boosting : policy = .pip ∨
      policy = .pcp ∧ ∀ block ∈ script, block.prio.toNat ≤ maxPrio)
    (k : Nat) (s : Sim script.length)
    (reached : doSimulation script policy.scheduler k = .ok (.again s)) :
    (∀ p, (s.procs p).status ≠ .exit → (∀ r, s.owner r ≠ some p) →
      (s.procs p).prio = (s.procs p).prioOrig) ∧
    ∀ p, (s.procs p).prioOrig ≤ (s.procs p).prio := by
  have noLeak : NoLeak s := by
    rcases boosting with rfl | ⟨rfl, below⟩
    · exact reached_noLeak (by decide) pip_boostsOwners trivial
        wellFormed.known reached
    · exact reached_noLeak (by decide) pcp_boostsOwners
        (fun p => below _ (List.get_mem script p)) wellFormed.known reached
  exact ⟨fun p _ => noLeak.restored p, noLeak.floor⟩

/-- A process of low priority owns what one of high priority asks for. -/
def lowOwnsFirst : List ProcessBlock :=
  [{ pid := 1, start := 0, lifespan := 4, prio := 1
     acquires := [⟨3, 0, 2⟩] },
   { pid := 2, start := 1, lifespan := 2, prio := 9
     acquires := [⟨3, 0, 1⟩] }]

/-- In the second tick the first process was boosted, and after the third one it
has given the boost back. -/
theorem boosts_never_leak_lowOwnsFirst :
    (∃ s, doSimulation lowOwnsFirst pipScheduler 2 = .ok (.again s) ∧
      (s.procs ⟨0, by decide⟩).prio = 9) ∧
    ∃ s, doSimulation lowOwnsFirst pipScheduler 3 = .ok (.again s) ∧
      (s.procs ⟨0, by decide⟩).prio = 1 ∧
      (∀ p, (s.procs p).status ≠ .exit → (∀ r, s.owner r ≠ some p) →
        (s.procs p).prio = (s.procs p).prioOrig) ∧
      ∀ p, (s.procs p).prioOrig ≤ (s.procs p).prio := by
  constructor
  · exact exists_of_againWith _ _ (by decide +kernel)
  · obtain ⟨s, reached, restored⟩ := exists_of_againWith
      (fun s : Sim lowOwnsFirst.length => (s.procs ⟨0, by decide⟩).prio = 1)
      (doSimulation lowOwnsFirst pipScheduler 3) (by decide +kernel)
    exact ⟨s, reached, restored, boosts_never_leak lowOwnsFirst (by decide)
      .pip (Or.inl rfl) 3 s reached⟩

end Reached

end OsPAs.Sched
