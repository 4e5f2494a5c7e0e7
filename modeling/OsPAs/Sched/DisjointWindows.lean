/-
Module: OsPAs.Sched.DisjointWindows
Purpose: The priority ceiling protocol on scripts in which no process holds two
  resources at once: an owner keeps the processor until it has released, so
  nobody ever waits.
Trusted boundary: none
Main exports: DisjointWindows, Ledger.narrow, Undisturbed,
  Undisturbed.dispatched, Undisturbed.executed, pcp_never_blocks
-/
import OsPAs.Sched.Ceiling
import OsPAs.Sched.StrictPriority
import OsPAs.Sched.Termination

namespace OsPAs.Sched

open Lib

variable {n : Nat}

theorem pcpScheduler_contract :
    Contract True (fun _ : Sim n => True) pcpScheduler :=
  Policy.contract (show Policy.pcp ∈ statusAware by decide)

/-! ### Scripts -/

/-- The holding windows of the two entries do not overlap. -/
def Apart (a b : ResourceSchedule) : Prop :=
  a.atAge + a.duration ≤ b.atAge ∨ b.atAge + b.duration ≤ a.atAge

instance : DecidableRel Apart :=
  fun _ _ => inferInstanceAs (Decidable (_ ∨ _))

/-- The holding windows of each single process are pairwise disjoint. -/
def DisjointWindows (script : List ProcessBlock) : Prop :=
  ∀ block ∈ script, (block.acquires.map AcquireLine.schedule).Pairwise Apart

instance (script : List ProcessBlock) : Decidable (DisjointWindows script) :=
  inferInstanceAs (Decidable (∀ block ∈ script, List.Pairwise _ _))

/-- Every original priority is below `MAX_PRIO`. -/
def BelowCeiling (script : List ProcessBlock) : Prop :=
  ∀ block ∈ script, block.prio.toNat < maxPrio

instance (script : List ProcessBlock) : Decidable (BelowCeiling script) :=
  inferInstanceAs (Decidable (∀ block ∈ script, _))

/-! ### The ledger of one process -/

/-- The holding window of the entry contains the age. -/
def covers (age : Nat) (rs : ResourceSchedule) : Bool :=
  rs.atAge ≤ age && age < rs.atAge + rs.duration

theorem covers_iff {age : Nat} {rs : ResourceSchedule} :
    covers age rs = true ↔
      rs.atAge ≤ age ∧ age < rs.atAge + rs.duration := by
  simp [covers]

/-- Disjoint windows: at any age there is at most one. -/
theorem countP_covers {all : List ResourceSchedule} (age : Nat)
    (apart : all.Pairwise Apart) : all.countP (covers age) ≤ 1 := by
  induction all with
  | nil => simp
  | cons first rest inductionHypothesis =>
      obtain ⟨apartFirst, apartRest⟩ := List.pairwise_cons.mp apart
      by_cases now : covers age first = true
      · have nobody : rest.countP (covers age) = 0 := by
          apply List.countP_eq_zero.mpr
          intro other member also
          have differ := apartFirst other member
          rw [covers_iff] at now also
          unfold Apart at differ
          omega
        rw [List.countP_cons_of_pos now, nobody]
      · rw [List.countP_cons_of_neg now]
        exact inductionHypothesis apartRest

/-- A process asks for something or holds something, but not two things. -/
theorem Ledger.narrow {all wants holds : List ResourceSchedule} {age : Nat}
    (ledger : Ledger all age wants holds)
    (lasting : ∀ rs ∈ all, 1 ≤ rs.duration) (apart : all.Pairwise Apart) :
    (wants.countP fun rs => rs.atAge = age) + holds.length ≤ 1 := by
  have wanted : (wants.countP fun rs => rs.atAge = age) ≤
      wants.countP (covers age) := by
    apply List.countP_mono_left
    intro rs member now
    have inAll : rs ∈ all := by
      have inBoth := ledger.balance.subset
        (List.mem_append_left (holds.map (restored age)) member)
      exact (List.mem_filter.mp inBoth).1
    have lasts := lasting rs inAll
    have isNow := of_decide_eq_true now
    rw [covers_iff]
    omega
  have held : (holds.map (restored age)).countP (covers age) =
      holds.length := by
    rw [List.countP_map, List.countP_eq_length]
    intro rs member
    have begun := ledger.begun rs member
    have left := ledger.left member
    rw [Function.comp_apply, covers_iff, restored]
    change rs.atAge ≤ age ∧ age < rs.atAge + (rs.duration + (age - rs.atAge))
    omega
  have balance := ledger.balance.countP_eq (covers age)
  have fewer : (all.filter (pending age)).countP (covers age) ≤
      all.countP (covers age) := List.filter_sublist.countP_le
  have one := countP_covers age apart
  rw [List.countP_append, held] at balance
  omega

/-! ### Nobody is disturbed -/

/-- Whoever owns a resource is the current process and at the ceiling,
everybody else has the original priority, and nobody waits. -/
structure Undisturbed (s : Sim n) : Prop where
  owners : ∀ r p, s.owner r = some p →
    s.current = some p ∧ (s.procs p).prio = maxPrio
  others : ∀ p, (∀ r, s.owner r ≠ some p) →
    (s.procs p).prio = (s.procs p).prioOrig
  nobody : ∀ r, s.waitqueue r = []

section Pass

variable {all : Fin n → List ResourceSchedule} {s s' mid : Sim n} {p c : Fin n}

theorem Undisturbed.of_same (undisturbed : Undisturbed s)
    (same : SamePriorities s s')
    (current : ∀ r p, s.owner r = some p → s'.current = some p) :
    Undisturbed s' where
  owners := fun r p owns => by
    rw [same.owner] at owns
    rw [same.prio]
    exact ⟨current r p owns, (undisturbed.owners r p owns).2⟩
  others := fun p owns => by
    rw [same.owner] at owns
    rw [same.prio, same.prioOrig]
    exact undisturbed.others p owns
  nobody := fun r => by
    rw [same.waitqueue]
    exact undisturbed.nobody r

theorem Undisturbed.awake (undisturbed : Undisturbed s)
    {run : Option (Fin n)} (linked : Linked s run) (p : Fin n) :
    ¬ isBlocked s p := by
  intro asleep
  obtain ⟨r, waits⟩ := linked.blocked p asleep
  simp [undisturbed.nobody r] at waits

/-- The first half of a pass leaves an owner the processor. -/
theorem Undisturbed.dispatched {guard : Sim n → Prop} {sched : Scheduler n}
    (contract : Contract True guard sched)
    (isPrio : sched.schedule = prioSchedule) (undisturbed : Undisturbed s)
    (low : ∀ p, (s.procs p).prioOrig < maxPrio) (settled : Settled all s)
    (fitting : Fitting all s) (guarded : guard (forkOnSchedule s))
    (dispatchedEq : dispatch sched s = .ok mid) : Undisturbed mid := by
  have sound := settled.sound
  apply undisturbed.of_same
    (dispatch_samePriorities contract isPrio sound guarded dispatchedEq)
  intro r p owns
  obtain ⟨isCurrent, atCeiling⟩ := undisturbed.owners r p owns
  have forked := sound.forked
  apply (Sound.preferred contract isPrio sound guarded dispatchedEq).stays
  · rw [forked.current]
    exact isCurrent
  · rw [forked.isBlocked_iff]
    exact undisturbed.awake sound.linked p
  · unfold unfinished
    rw [forked.procs]
    exact settled.books.owner_unfinished fitting owns
  · intro q isReady
    have differ : q ≠ p := by
      rintro rfl
      have awake : ¬ isBlocked (forkOnSchedule s) q := by
        rw [forked.isBlocked_iff]
        exact undisturbed.awake sound.linked q
      exact (sound.loose_forked q (by rw [forked.current]; exact isCurrent)
        awake).2.1 isReady
    have ownsNothing (i : Fin nrResources) : s.owner i ≠ some q := by
      intro alsoOwns
      have same := (undisturbed.owners i q alsoOwns).1.symm.trans isCurrent
      exact differ (Option.some.inj same)
    simp only [undisturbed.others q ownsNothing, atCeiling]
    exact low q

theorem Undisturbed.granted {t t' : Sim n} {resourceId : Nat}
    (undisturbed : Undisturbed t) (isCurrent : t.current = some c)
    (acquired : pcpAcquire c resourceId t = .ok (true, t')) :
    Undisturbed t' := by
  obtain ⟨i, _, rfl⟩ := acquireWith_granted acquired
  have ownerOf (r : Fin nrResources) (p : Fin n)
      (owns : Function.update t.owner i (some c) r = some p) : p = c := by
    rw [Function.update_apply] at owns
    split at owns
    · exact (Option.some.inj owns).symm
    · have isP := (undisturbed.owners r p owns).1
      exact Option.some.inj (isP.symm.trans isCurrent)
  constructor
  · intro r p owns
    obtain rfl := ownerOf r p owns
    refine ⟨isCurrent, ?_⟩
    rw [Sim.setPrio, Sim.modify_self]
  · intro p ownsNothing
    have differ : p ≠ c := by
      rintro rfl
      apply ownsNothing i
      change Function.update t.owner i (some p) i = some p
      rw [Function.update_self]
    rw [Sim.setPrio, Sim.modify_of_ne _ differ]
    apply undisturbed.others p
    intro r owns
    have isP := (undisturbed.owners r p owns).1
    exact differ (Option.some.inj (isP.symm.trans isCurrent))
  · exact undisturbed.nobody

/-- The resource of a due entry is free. -/
theorem Undisturbed.free {t : Sim n} {kept rest : List ResourceSchedule}
    {rs : ResourceSchedule} {r : Fin nrResources} {owner : Fin n}
    (undisturbed : Undisturbed t) (isCurrent : t.current = some c)
    (books : Books all (t.setToAcquire c (kept ++ rs :: rest)))
    (lasting : ∀ rs ∈ all c, 1 ≤ rs.duration) (apart : (all c).Pairwise Apart)
    (now : rs.atAge = (t.procs c).age) : t.owner r ≠ some owner := by
  intro taken
  have isOwner := (undisturbed.owners r owner taken).1
  obtain rfl : c = owner := by simpa [isCurrent] using isOwner
  have narrow := (books.ledger c).narrow lasting apart
  rw [setToAcquire_procs] at narrow
  simp only [if_pos] at narrow
  have isOwned : (t.setToAcquire c (kept ++ rs :: rest)).owner r = some c :=
    taken
  have held : entriesFor r (t.procs c).resourcesHolding = 1 := by
    have owned := books.owned c r
    rwa [setToAcquire_procs, if_pos isOwned] at owned
  have some_held : entriesFor r (t.procs c).resourcesHolding ≤
      (t.procs c).resourcesHolding.length := List.countP_le_length
  have due : 0 < (kept ++ rs :: rest).countP
      fun rs => rs.atAge = (t.procs c).age := by
    apply List.countP_pos_iff.mpr
    exact ⟨rs, by simp, decide_eq_true now⟩
  omega

/-- After its only entry is over, the process owns nothing and has its original
priority again. -/
theorem Undisturbed.released {t t' : Sim n} {rs : ResourceSchedule}
    {r : Fin nrResources} (undisturbed : Undisturbed t) (isCurrent : t.current = some c)
    (released : pcpRelease c rs.resourceId t = .ok t')
    (move : Released t c r t') (ownsNone : ∀ i, t'.owner i ≠ some c) :
    Undisturbed t' := by
  have isC {i : Fin nrResources} {p : Fin n} (owns : t.owner i = some p) :
      p = c := by
    have isP := (undisturbed.owners i p owns).1
    exact Option.some.inj (isP.symm.trans isCurrent)
  have prio := releaseWith_prio released
  have prioOrig := (SameScript.released move).prioOrig
  constructor
  · intro i p owns
    obtain rfl := isC (move.owner_of_owner owns)
    exact absurd owns (ownsNone i)
  · intro p _
    rw [prio, prioOrig, restorePrio_prio]
    split
    · rename_i same
      rw [same]
    · rename_i differ
      exact undisturbed.others p fun i owns => differ (isC owns)
  · intro i
    cases move with
    | quiet => exact undisturbed.nobody i
    | wake prio owned isWaiting asleep =>
        simp [undisturbed.nobody r] at isWaiting

/-- What is carried through a tick of the chosen process: no request of it is
refused, and it never holds more than one entry. -/
theorem Undisturbed.carries (undisturbed : Undisturbed mid)
    (prepared : Prepared all mid) (fitting : Fitting all mid)
    (apart : (all c).Pairwise Apart) (isCurrent : mid.current = some c) :
    Carries pcpScheduler True mid c
      (fun kept todo t => Asking all mid c kept todo t ∧ Undisturbed t)
      (fun stay t => TurnedDown all c stay t ∧ False)
      (fun kept todo t => Releasing all mid c kept todo t ∧
        Undisturbed t ∧ (kept ++ todo).length ≤ 1) := by
  apply (prepared.carries pcpScheduler fitting isCurrent).alongside
  · exact undisturbed.of_same (Steady.setStatus mid c .running).priorities
      fun r p owns => (undisturbed.owners r p owns).1
  · intro kept rs rest t _ _ calm _
    exact calm
  · intro kept rs rest t inside t' busy _ calm _ _ acquired _
    have calm' := calm.granted busy.isCurrent acquired
    have held := calm'.of_same (Steady.hold t' c rs).priorities
      fun r p owns => (calm'.owners r p owns).1
    exact held.of_same (Steady.print _ _).priorities
      fun r p owns => (held.owners r p owns).1
  · intro kept rs rest t inside t' busy asking calm now _ _ move
    cases move with
    | refused prio taken =>
        exact calm.free busy.isCurrent asking.1 (fitting.lasting c) apart now
          taken
  · intro stay t busy asking calm _
    constructor
    · have same := (((Steady.setToAcquire t c stay).trans
        (.print _ (.ran c))).trans (.growOlder _ c)).priorities
      exact calm.of_same same fun r p owns => (calm.owners r p owns).1
    · have narrow := (asking.1.ledger c).narrow (fitting.lasting c) apart
      rw [setToAcquire_procs] at narrow
      exact Nat.le_trans (Nat.le_add_left _ _) narrow
  · intro kept rs rest t _ _ inv _
    exact ⟨inv.1, by simpa using inv.2⟩
  · intro kept rs rest t inside t' busy _ inv last released move after
    obtain ⟨calm, short⟩ := inv
    rw [List.length_append, List.length_cons] at short
    obtain rfl : kept = [] := List.length_eq_zero_iff.mp (by omega)
    obtain rfl : rest = [] := List.length_eq_zero_iff.mp (by omega)
    have ownsNone (i : Fin nrResources) : t'.owner i ≠ some c := by
      intro owns
      have counted := after.1.owned i
      rw [if_pos (show (t'.print _).owner i = some c from owns)] at counted
      simp [entriesFor] at counted
    have calm' := calm.released busy.isCurrent released move ownsNone
    exact ⟨calm'.of_same (Steady.print _ _).priorities
      fun r p owns => (calm'.owners r p owns).1, by simp⟩

/-- The second half of a pass leaves nobody disturbed. -/
theorem Undisturbed.executed (undisturbed : Undisturbed mid)
    (prepared : Prepared all mid) (fitting : Fitting all mid)
    (apart : ∀ c, (all c).Pairwise Apart)
    (executedEq : execute pcpScheduler mid = .ok s') : Undisturbed s' := by
  cases isCurrent : mid.current with
  | none =>
      obtain rfl := Except.ok.inj
        ((execute_of_idle pcpScheduler isCurrent).symm.trans executedEq)
      exact undisturbed.of_same ((Steady.print mid .idle).trans
        (.nextTick _)).priorities fun r p owns => (undisturbed.owners r p owns).1
  | some c =>
      obtain ⟨stay, t, ⟨rfl, _, _, never⟩ | ⟨rfl, busy, _, calm, _⟩⟩ :=
        (undisturbed.carries prepared fitting (apart c) isCurrent).executed
          pcpScheduler_contract prepared.dispatched isCurrent executedEq
      · exact never.elim
      · exact calm.of_same ((Steady.setHolding t c stay).trans
          (.nextTick _)).priorities fun r p owns => (calm.owners r p owns).1

/-- Every call of `pcp_acquire` in a tick takes the resource. -/
theorem Undisturbed.acquires (undisturbed : Undisturbed mid)
    (prepared : Prepared all mid) (fitting : Fitting all mid)
    (apart : (all c).Pairwise Apart) (isCurrent : mid.current = some c)
    {rs : ResourceSchedule} {t : Sim n}
    (called : (rs, t) ∈ acquireCalls pcpScheduler c
      (mid.procs c).resourcesToAcquire (mid.setStatus c .running)) :
    ∃ t', pcpScheduler.acquire c rs.resourceId t = .ok (true, t') := by
  have carries := undisturbed.carries prepared fitting apart isCurrent
  obtain ⟨kept, rest, busy, ⟨asking, calm⟩, now, inside⟩ :=
    carries.call pcpScheduler_contract prepared.dispatched isCurrent called
  obtain ⟨granted, t', acquired, move⟩ := pcpScheduler_contract.acquire t c
    rs.resourceId inside busy.detached
  cases granted with
  | true => exact ⟨t', acquired⟩
  | false =>
      cases move with
      | refused prio taken =>
          exact absurd taken (calm.free busy.isCurrent asking.1
            (fitting.lasting c) apart now)

end Pass

/-! ### Whole runs -/

section Reached

variable {script : List ProcessBlock} {k : Nat} {s mid : Sim script.length}

theorem load_undisturbed : Undisturbed (load script) where
  owners := fun r p owns => by simp [load] at owns
  others := fun p _ => rfl
  nobody := fun r => rfl

theorem DisjointWindows.entries (apart : DisjointWindows script)
    (p : Fin script.length) : (entries script p).Pairwise Apart :=
  apart _ (List.get_mem script p)

theorem pcp_serves (wellFormed : WellFormed script) :
    Serves script (fun _ => True) pcpScheduler :=
  Policy.serves (show Policy.pcp ∈ statusAware by decide) wellFormed

/-- The first half of a pass that is reached. -/
theorem PassOf.undisturbed (wellFormed : WellFormed script)
    (below : BelowCeiling script) (undisturbed : Undisturbed s)
    (reached : doSimulation script pcpScheduler k = .ok (.again s))
    (pass : PassOf script pcpScheduler k s mid) : Undisturbed mid := by
  obtain ⟨settled, fitting, same⟩ := (pcp_serves wellFormed).settled reached
  apply undisturbed.dispatched pcpScheduler_contract rfl _ settled fitting
    trivial pass.dispatchedEq
  intro p
  rw [same.prioOrig]
  exact below _ (List.get_mem script p)

/-- The states between two ticks are undisturbed. -/
theorem reached_undisturbed (wellFormed : WellFormed script)
    (below : BelowCeiling script) (apart : DisjointWindows script)
    (reached : doSimulation script pcpScheduler k = .ok (.again s)) :
    Undisturbed s := by
  apply (pcp_serves wellFormed).invariant (fun _ s => Undisturbed s)
    load_undisturbed _ reached
  intro k s mid s' reached undisturbed pass _ executedEq _
  exact (pass.undisturbed wellFormed below undisturbed reached).executed
    pass.prepared pass.fitting apart.entries executedEq

/-- At the `break` of a run in which nobody waits everybody has exited. -/
theorem PassOf.all_exited {sched : Scheduler script.length}
    (pass : PassOf script sched k s mid) (ended : quits mid)
    (nobody : ∀ r, mid.waitqueue r = []) (p : Fin script.length) :
    (mid.procs p).status = .exit := by
  by_contra present
  have place := pass.prepared.whole.accounted p present
  obtain ⟨isIdle, noneReady, noneForking⟩ := ended
  have noneWaiting : occurrences mid.waitqueue p = 0 := by
    apply occurrences_eq_zero.mpr
    intro r
    simp [nobody r]
  simp [tally, isIdle, noneReady, noneForking, noneWaiting] at place

/-- PCP never blocks when holdings do not nest.  With disjoint holding windows
in each process and all original priorities below the ceiling, at the end of
every tick at most one process owns resources and nobody is blocked, every
request is granted at once, and every run ends with all processes exited. -/
theorem pcp_never_blocks (script : List ProcessBlock)
    (wellFormed : WellFormed script) (below : BelowCeiling script)
    (apart : DisjointWindows script) :
    (∀ k s, doSimulation script pcpScheduler k = .ok (.again s) →
      (∀ r r' p p', s.owner r = some p → s.owner r' = some p' → p = p') ∧
      (∀ p, ¬ isBlocked s p) ∧
      ∀ mid c, dispatch pcpScheduler s = .ok mid → mid.current = some c →
        ∀ rs t, (rs, t) ∈ acquireCalls pcpScheduler c
            (mid.procs c).resourcesToAcquire (mid.setStatus c .running) →
          ∃ t', pcpScheduler.acquire c rs.resourceId t = .ok (true, t')) ∧
    (∃ k s, doSimulation script pcpScheduler k = .ok (.leave s)) ∧
    ∀ k s, doSimulation script pcpScheduler k = .ok (.leave s) →
      ∀ p, (s.procs p).status = .exit := by
  have serves := pcp_serves wellFormed
  refine ⟨fun k s reached => ?_, ?_, fun k s left => ?_⟩
  · have undisturbed := reached_undisturbed wellFormed below apart reached
    refine ⟨fun r r' p p' owns owns' => ?_, ?_,
      fun mid c dispatchedEq isCurrent rs t called => ?_⟩
    · have isP := (undisturbed.owners r p owns).1
      have isP' := (undisturbed.owners r' p' owns').1
      exact Option.some.inj (isP.symm.trans isP')
    · exact undisturbed.awake (serves.settled reached).1.sound.linked
    · obtain ⟨mid', pass⟩ := serves.pass reached
      obtain rfl := Except.ok.inj (dispatchedEq.symm.trans pass.dispatchedEq)
      exact (pass.undisturbed wellFormed below undisturbed reached).acquires
        pass.prepared pass.fitting (apart.entries c) isCurrent called
  · obtain ⟨k, _, _, mid, _, _, _, left⟩ := serves.leaves
    exact ⟨k + 1, mid, left⟩
  · obtain ⟨j, before, _, reached, ran⟩ := iterate_leave left
    obtain ⟨mid, pass⟩ := serves.pass reached
    obtain ⟨dispatchedEq, ended⟩ := body_leave ran
    obtain rfl := Except.ok.inj (dispatchedEq.symm.trans pass.dispatchedEq)
    have undisturbed := pass.undisturbed wellFormed below
      (reached_undisturbed wellFormed below apart reached) reached
    exact pass.all_exited ended undisturbed.nobody

/-- Three processes of different priorities that arrive one after the other and
use two resources, one at a time. -/
def oneAtATime : List ProcessBlock :=
  [{ pid := 1, start := 0, lifespan := 5, prio := 2
     acquires := [⟨1, 0, 2⟩, ⟨2, 3, 2⟩] },
   { pid := 2, start := 1, lifespan := 3, prio := 9
     acquires := [⟨1, 0, 3⟩] },
   { pid := 3, start := 2, lifespan := 2, prio := 30
     acquires := [⟨2, 0, 1⟩, ⟨1, 1, 1⟩] }]

theorem pcp_never_blocks_oneAtATime :
    (∀ k s, doSimulation oneAtATime pcpScheduler k = .ok (.again s) →
      (∀ r r' p p', s.owner r = some p → s.owner r' = some p' → p = p') ∧
      (∀ p, ¬ isBlocked s p) ∧
      ∀ mid c, dispatch pcpScheduler s = .ok mid → mid.current = some c →
        ∀ rs t, (rs, t) ∈ acquireCalls pcpScheduler c
            (mid.procs c).resourcesToAcquire (mid.setStatus c .running) →
          ∃ t', pcpScheduler.acquire c rs.resourceId t = .ok (true, t')) ∧
    (∃ k s, doSimulation oneAtATime pcpScheduler k = .ok (.leave s)) ∧
    ∀ k s, doSimulation oneAtATime pcpScheduler k = .ok (.leave s) →
      ∀ p, (s.procs p).status = .exit :=
  pcp_never_blocks oneAtATime (by decide) (by decide) (by decide)

end Reached

end OsPAs.Sched
