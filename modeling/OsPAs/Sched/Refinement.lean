/-
Module: OsPAs.Sched.Refinement
Purpose: The callbacks of the eight schedulers do the same in memory as on the
  lists of `Sim`, as long as no list node is linked twice.
Trusted boundary: none
Main exports: seen, Kept, Repriced, acquireWith_refines, releaseWith_refines,
  scheduler_refines
-/
import OsPAs.Lib.Refines
import OsPAs.Sched.Contract
import OsPAs.Sched.Layout

namespace OsPAs.Sched

open Lib

variable {n : Nat}

/-- What the code notices of a fault.  That a node is linked twice it does not
notice. -/
def seen : Fault → Option MemoryFault
  | .assertFailed => some .assertFailed
  | .outOfRange => some .outOfRange
  | .useAfterFree => some .useAfterFree
  | .linkedTwice => none

/-- A callback has been called in state `s`: the memory is laid out as before,
and the entries have not been touched. -/
structure Kept (layout : Layout n) (s : Sim n)
    (owner : Fin nrResources → Option (Fin n)) (m' : Memory n) (s' : Sim n) :
    Prop where
  represents : Represents layout m' s'
  wants : ∀ p,
    (s'.procs p).resourcesToAcquire = (s.procs p).resourcesToAcquire
  holds : ∀ p, (s'.procs p).resourcesHolding = (s.procs p).resourcesHolding
  ended : ∀ p, (s'.procs p).status = .exit ↔ (s.procs p).status = .exit
  owner : s'.owner = owner
  current : s'.current = s.current

section Callbacks

variable {layout : Layout n} {m m' : Memory n} {s s' : Sim n} {c p : Fin n}
  {owner : Fin nrResources → Option (Fin n)}

theorem Kept.start (represents : Represents layout m s) :
    Kept layout s s.owner m s where
  represents := represents
  wants _ := rfl
  holds _ := rfl
  ended _ := Iff.rfl
  owner := rfl
  current := rfl

theorem Kept.withPrio {t : Sim n} (kept : Kept layout s owner m t)
    {prio : Fin n → Nat} (represents : Represents layout m' (t.withPrio prio)) :
    Kept layout s owner m' (t.withPrio prio) where
  represents := represents
  wants := kept.wants
  holds := kept.holds
  ended := kept.ended
  owner := kept.owner
  current := kept.current

theorem Kept.step {t : Sim n} (kept : Kept layout s owner m t)
    (represents : Represents layout m' s') (procs : s'.procs = t.procs)
    (current : s'.current = t.current) : Kept layout s s'.owner m' s' where
  represents := represents
  wants p := by rw [procs]; exact kept.wants p
  holds p := by rw [procs]; exact kept.holds p
  ended p := by rw [procs]; exact kept.ended p
  owner := rfl
  current := current.trans kept.current

theorem Kept.setStatus {t : Sim n} (kept : Kept layout s owner m t)
    (running : (t.procs p).status ≠ .exit) {status : ProcessStatus}
    (stays : status ≠ .exit)
    (represents : Represents layout m' (t.setStatus p status)) :
    Kept layout s owner m' (t.setStatus p status) where
  represents := represents
  wants q := by
    rw [← kept.wants q, Sim.setStatus, Sim.modify_procs]
    split
    · rename_i isP
      rw [isP]
    · rfl
  holds q := by
    rw [← kept.holds q, Sim.setStatus, Sim.modify_procs]
    split
    · rename_i isP
      rw [isP]
    · rfl
  ended q := by
    rw [← kept.ended q, Sim.setStatus, Sim.modify_procs]
    split
    · rename_i isP
      rw [isP]
      exact iff_of_false stays running
    · rfl
  owner := kept.owner
  current := kept.current

/-! ### Priorities -/

/-- In memory as in the state, only priorities change. -/
def Repriced (operation : Memory n → Except MemoryFault (Memory n))
    (operation' : Sim n → Sim n) (layout : Layout n) (s : Sim n) : Prop :=
  ∀ m, Represents layout m s → ∃ m' prio, operation m = .ok m' ∧
    operation' s = s.withPrio prio ∧ Represents layout m' (s.withPrio prio)

theorem repriced_noPrio : Repriced InMemory.noPrio (fun s => s) layout s :=
  fun m represents => ⟨m, _, rfl, s.withPrio_self.symm, represents⟩

theorem repriced_setPrio (alive : layout.freed p = false) (prio : Nat) :
    Repriced (fun m => m.setPrio p prio) (fun s => s.setPrio p prio) layout
      s := by
  intro m represents
  obtain ⟨m', done, represents'⟩ := represents.setPrio alive prio
  rw [s.setPrio_eq_withPrio] at represents'
  exact ⟨m', _, done, s.setPrio_eq_withPrio p prio, represents'⟩

theorem repriced_restorePrio (alive : layout.freed p = false) :
    Repriced (InMemory.restorePrio p) (restorePrio p) layout s := by
  intro m represents
  obtain ⟨m', prio, done, same, represents'⟩ :=
    repriced_setPrio alive (s.procs p).prioOrig m represents
  refine ⟨m', prio, ?_, same, represents'⟩
  rw [InMemory.restorePrio, represents.process alive]
  exact done

theorem repriced_inheritPrio (alive : layout.freed p = false)
    (alive' : layout.freed c = false) :
    Repriced (InMemory.inheritPrio p c) (inheritPrio p c) layout s := by
  intro m represents
  have read : InMemory.inheritPrio p c m =
      if (s.procs p).prio < (s.procs c).prio then
        m.setPrio p (s.procs c).prio else .ok m := by
    rw [InMemory.inheritPrio, represents.process alive,
      represents.process alive']
    rfl
  rw [read, inheritPrio]
  split
  · exact repriced_setPrio alive _ m represents
  · exact repriced_noPrio m represents

/-! ### Acquire and release -/

theorem acquireWith_refines (resourceId : Nat)
    (onGrant : Fin n → Memory n → Except MemoryFault (Memory n))
    (onGrant' : Fin n → Sim n → Sim n)
    (onWait : Fin n → Fin n → Memory n → Except MemoryFault (Memory n))
    (onWait' : Fin n → Fin n → Sim n → Sim n)
    (grants : ∀ s, Repriced (onGrant c) (onGrant' c) layout s)
    (waits : ∀ owner s, layout.freed owner = false →
      Repriced (onWait owner c) (onWait' owner c) layout s)
    (represents : Represents layout m s) (alive : layout.freed c = false)
    (running : (s.procs c).status ≠ .exit) :
    Refines seen (fun a b => a.1 = b.1 ∧ ∃ r : Fin nrResources,
        r.val = resourceId ∧ Kept layout s
          (if b.1 then Function.update s.owner r (some c) else s.owner) a.2 b.2)
      (InMemory.acquireWith onGrant onWait c resourceId m)
      (acquireWith onGrant' onWait' c resourceId s) := by
  unfold InMemory.acquireWith acquireWith InMemory.resource resource
  by_cases inside : resourceId < nrResources
  · rw [dif_pos inside, dif_pos inside]
    simp only [bind, Except.bind, represents.owner]
    cases ownerEq : s.owner ⟨resourceId, inside⟩ with
    | none =>
        have taken := represents.setOwner ⟨resourceId, inside⟩ (some c)
          fun p isC => Option.some.inj isC ▸ alive
        obtain ⟨m', prio, granted, same, represents'⟩ := grants _ _ taken
        rw [granted, same]
        exact refines_ok ⟨rfl, ⟨resourceId, inside⟩, rfl,
          ((Kept.start represents).step taken rfl rfl).withPrio represents'⟩
    | some owner =>
        obtain ⟨m₁, prio, waited, same, represents₁⟩ :=
          waits owner s (represents.owned _ _ ownerEq) m represents
        obtain ⟨m₂, blocked, represents₂⟩ :=
          represents₁.setStatus alive .blocked
        have kept := ((Kept.start represents).withPrio represents₁).setStatus
          running (by decide) represents₂
        simp only [waited, same, blocked]
        unfold Sim.addTailWait
        by_cases detached : ((s.withPrio prio).setStatus c .blocked).detached c
        · obtain ⟨m₃, linked, represents₃⟩ :=
            represents₂.linkWait detached alive ⟨resourceId, inside⟩
          rw [if_pos detached]
          simp only [linked]
          exact refines_ok ⟨rfl, ⟨resourceId, inside⟩, rfl,
            kept.step represents₃ rfl rfl⟩
        · rw [if_neg detached]
          exact refines_unseen rfl
  · rw [dif_neg inside, dif_neg inside]
    exact refines_fault rfl

/-- A choice among the waiters is the same in memory. -/
def ChoosesAlike (choose : Node n → Fin n → Memory n → Except MemoryFault (Fin n))
    (choose' : Sim n → Fin n → List (Fin n) → Fin n) : Prop :=
  ∀ {layout : Layout n} {m : Memory n} {s : Sim n} {head : Node n} {first rest},
    Represents layout m s →
      layout.rings s head = some ((first :: rest).map .list) →
        choose head first m = .ok (choose' s first (first :: rest)) ∧
          choose' s first (first :: rest) ∈ first :: rest

/-- A waiter that is taken out of its queue and put into the ready queue. -/
theorem Kept.wakes {t : Sim n} (kept : Kept layout s owner m t)
    {r : Fin nrResources} {waiter : Fin n} (isWaiting : waiter ∈ t.waitqueue r)
    (asleep : (t.procs waiter).status = .blocked) :
    ∃ m₁ m₂ m₃ t', m.onLinks (·.listDelInit (.list waiter)) = .ok m₁ ∧
      m₁.setStatus waiter .ready = .ok m₂ ∧
      m₂.onLinks (·.listAddTail (.list waiter) .readyqueue) = .ok m₃ ∧
      ((t.delInitWait r waiter).setStatus waiter .ready).addTailReady waiter =
        .ok t' ∧ Kept layout s owner m₃ t' := by
  have represents := kept.represents
  have alive := represents.alive (not_detached_of_waiting isWaiting)
  obtain ⟨m₁, unlinked, represents₁, loose⟩ := represents.unlinkWait isWaiting
  obtain ⟨m₂, woken, represents₂⟩ := represents₁.setStatus alive .ready
  obtain ⟨m₃, linked, represents₃⟩ := represents₂.linkReady loose alive
  have notEnded : ((t.delInitWait r waiter).procs waiter).status ≠ .exit := by
    show (t.procs waiter).status ≠ .exit
    rw [asleep]
    decide
  have kept₁ := kept.step represents₁ rfl rfl
  have kept₃ := (kept₁.setStatus notEnded (by decide) represents₂).step
    represents₃ rfl rfl
  have ownerEq := kept.owner
  have looseNow : ((t.delInitWait r waiter).setStatus waiter .ready).detached
      waiter := loose
  refine ⟨m₁, m₂, m₃, _, unlinked, woken, linked,
    by rw [Sim.addTailReady, if_pos looseNow], ?_⟩
  rw [← ownerEq]
  exact kept₃

theorem releaseWith_refines (resourceId : Nat)
    (onRelease : Fin n → Memory n → Except MemoryFault (Memory n))
    (onRelease' : Fin n → Sim n → Sim n)
    {choose : Node n → Fin n → Memory n → Except MemoryFault (Fin n)}
    {choose' : Sim n → Fin n → List (Fin n) → Fin n}
    (releases : ∀ s, Repriced (onRelease c) (onRelease' c) layout s)
    (chooses : ChoosesAlike choose choose')
    (represents : Represents layout m s) :
    Refines seen (fun m' s' => ∃ r : Fin nrResources, r.val = resourceId ∧
        Kept layout s (Function.update s.owner r none) m' s')
      (InMemory.releaseWith onRelease choose c resourceId m)
      (releaseWith onRelease' choose' c resourceId s) := by
  unfold InMemory.releaseWith releaseWith InMemory.resource resource
  by_cases inside : resourceId < nrResources
  · rw [dif_pos inside, dif_pos inside]
    generalize rEq : (⟨resourceId, inside⟩ : Fin nrResources) = r
    have number : r.val = resourceId := by rw [← rEq]
    simp only [bind, Except.bind, represents.owner, InMemory.cAssert, cAssert]
    by_cases owned : s.owner r = some c
    · obtain ⟨m₁, prio, released, same, represents₁⟩ := releases s m represents
      have represents₂ := represents₁.setOwner r none
        fun p isNone => by simp at isNone
      have kept :=
        ((Kept.start represents).withPrio represents₁).step represents₂ rfl rfl
      simp only [if_pos owned, released, same]
      change Kept layout s (Function.update s.owner r none) _ _ at kept
      generalize (s.withPrio prio).setOwner r none = t at represents₂ kept
      generalize m₁.setOwner r none = m₂ at represents₂ kept
      rw [represents₂.isEmpty_wait]
      cases waitersEq : t.waitqueue r with
      | nil => exact refines_ok ⟨r, number, kept⟩
      | cons first rest =>
          have isRing : layout.rings t (.waitqueue r) =
              some ((first :: rest).map .list) := by
            rw [Layout.rings, waitersEq]
          obtain ⟨chosen, member⟩ := chooses represents₂ isRing
          simp only [represents₂.firstProcess isRing, chosen]
          generalize choose' t first (first :: rest) = waiter at member
          have isWaiting : waiter ∈ t.waitqueue r := by
            rw [waitersEq]
            exact member
          have alive := represents₂.alive (not_detached_of_waiting isWaiting)
          have statusEq : (InMemory.fieldsOf (t.procs waiter)).status =
            (t.procs waiter).status := rfl
          simp only [represents₂.process alive, statusEq]
          by_cases asleep : (t.procs waiter).status = .blocked
          · obtain ⟨m₃, m₄, m₅, t', unlinked, woken, linked, moved, kept'⟩ :=
              kept.wakes isWaiting asleep
            simp only [if_pos asleep, unlinked, woken, linked, moved]
            exact refines_ok ⟨r, number, kept'⟩
          · simp only [if_neg asleep]
            exact refines_fault rfl
    · simp only [if_neg owned]
      exact refines_fault rfl
  · rw [dif_neg inside, dif_neg inside]
    exact refines_fault rfl

/-! ### Scans -/

/-- The rule of a loop over the processes in a queue, of whom `P rest` are still
to be visited. -/
theorem forEachProcess_rule {σ : Type} {links : σ → Links (Node n)}
    {head : Node n} {body : Fin n → σ → Except MemoryFault (Pass σ)}
    (P : List (Fin n) → σ → Prop) (Q : Except MemoryFault σ → Prop)
    (listed : ∀ rest a, P rest a → ∃ rings front, Arranged (links a) rings ∧
      rings head = some ((front ++ rest).map Node.list))
    (done : ∀ a, P [] a → Q (.ok a))
    (pass : ∀ p rest a, P (p :: rest) a →
      ∃ a', body p a = .ok (.again a') ∧ P rest a')
    {rings : Node n → Option (List (Node n))} {xs : List (Fin n)} {a : σ}
    (arranged : Arranged (links a) rings)
    (isRing : rings head = some (xs.map .list)) {fuel : Nat}
    (enough : xs.length < fuel) (holds : P xs a) :
    Q (InMemory.forEachProcess fuel head links body a) := by
  have short : (xs.map Node.list).length < fuel := by rwa [List.length_map]
  rw [InMemory.forEachProcess]
  refine forEachSafe_rule
    (P := fun nodes a => ∃ rest, nodes = rest.map Node.list ∧ P rest a)
    (Q := fun result => Q (result >>= fun pass => .ok pass.state)) ?_ ?_ ?_
    arranged isRing short ⟨xs, rfl, holds⟩
  · rintro nodes a ⟨rest, rfl, holds⟩
    obtain ⟨rings, front, arranged, isRing⟩ := listed rest a holds
    exact ⟨rings, front.map .list, arranged, by rw [isRing, List.map_append]⟩
  · rintro a ⟨rest, nodesEq, holds⟩
    obtain rfl : rest = [] := by simpa using nodesEq.symm
    exact done a holds
  · rintro node nodes a ⟨rest, nodesEq, holds⟩
    cases rest with
    | nil => simp at nodesEq
    | cons p rest =>
        obtain ⟨rfl, rfl⟩ := List.cons.inj nodesEq
        obtain ⟨a', ran, later⟩ := pass p rest a holds
        have ran' : (do body (← (Node.list p).asProcess) a) =
            .ok (.again a') := ran
        rw [ran']
        exact .again ⟨rest, rfl, later⟩

/-- A step for each process of a list, on the nodes of the list. -/
def onProcess {σ : Type} (step : σ → Fin n → σ) (s : σ) : Node n → σ
  | .list pos => step s pos
  | _ => s

theorem scanProcesses_eq {better : Fields → Fields → Prop}
    [DecidableRel better] {better' : Fin n → Fin n → Prop}
    [DecidableRel better'] {head : Node n} {first : Fin n} {xs : List (Fin n)}
    {fuel : Nat} (represents : Represents layout m s)
    (isRing : layout.rings s head = some (xs.map .list)) (enough : n < fuel)
    (alive : layout.freed first = false)
    (same : ∀ p q, better' p q ↔ better (InMemory.fieldsOf (s.procs p))
      (InMemory.fieldsOf (s.procs q))) :
    InMemory.scanProcesses better fuel head first m =
      .ok (scan better' first xs) := by
  have short : (xs.map Node.list).length < fuel := by
    rw [List.length_map]
    exact Nat.lt_of_le_of_lt (represents.length_le isRing) enough
  rw [InMemory.scanProcesses, InMemory.forEachProcess,
    (forEachSafe_foldl
      (onProcess fun best pos => if better' pos best then pos else best)
      (fun best => layout.freed best = false)
      (fun _ _ => represents.arranged) isRing short alive ?_).1]
  · rw [List.foldl_map]
    rfl
  · rintro node member best bestAlive
    obtain ⟨pos, isMember, rfl⟩ := List.mem_map.mp member
    have posAlive := represents.alive (not_detached_of_ring isRing isMember)
    have read : ((do
        let pos ← (Node.list pos).asProcess
        if better (← m.process pos) (← m.process best) then return .again pos
        else return .again best) : Except MemoryFault (Pass (Fin n))) =
          .ok (.again (if better' pos best then pos else best)) := by
      simp only [Node.asProcess, bind, Except.bind, represents.process posAlive,
        represents.process bestAlive, ← same]
      split <;> rfl
    refine ⟨read, ?_⟩
    show layout.freed (if better' pos best then pos else best) = false
    split
    · exact posAlive
    · exact bestAlive

theorem highestPrio_alike {fuel : Nat} (enough : n < fuel) :
    ChoosesAlike (InMemory.highestPrio fuel) (highestPrio (n := n)) := by
  intro layout m s head first rest represents isRing
  have alive := represents.alive
    (not_detached_of_ring isRing List.mem_cons_self)
  exact ⟨scanProcesses_eq represents isRing enough alive fun _ _ => Iff.rfl,
    highestPrio_mem s first rest⟩

theorem firstWaiter_alike :
    ChoosesAlike InMemory.firstWaiter (firstWaiter (n := n)) :=
  fun {_ _ s _ first rest} _ _ => ⟨rfl, firstWaiter_mem s first rest⟩

/-! ### Schedule -/

/-- A `schedule` callback that was called in state `s` chooses the same process
in memory. -/
def ChosenAlike (layout : Layout n) (s : Sim n)
    (a : Option (Fin n) × Memory n) (b : Option (Fin n) × Sim n) : Prop :=
  a.1 = b.1 ∧ Kept layout s s.owner a.2 b.2

/-- The current process has not been freed. -/
def CurrentAlive (layout : Layout n) (s : Sim n) : Prop :=
  ∀ c, s.current = some c → layout.freed c = false

variable {pick : Memory n → InMemory.Choice n}
  {pick' : Sim n → Except Fault (Option (Fin n) × Sim n)} {next : Fin n}

theorem keepUnfinished_refines (represents : Represents layout m s)
    (current : CurrentAlive layout s)
    (picks : Refines seen (ChosenAlike layout s) (pick m) (pick' s)) :
    Refines seen (ChosenAlike layout s) (InMemory.keepUnfinished pick m)
      (keepUnfinished pick' s) := by
  rw [InMemory.keepUnfinished, keepUnfinished, represents.current]
  cases isCurrent : s.current with
  | none => exact picks
  | some c =>
      simp only [represents.process (current c isCurrent), bind, Except.bind]
      show Refines _ _ (if isBlocked s c then _ else if unfinished s c then _
        else _) _
      split
      · exact picks
      · split
        · exact refines_ok ⟨rfl, Kept.start represents⟩
        · exact picks

theorem keepAlone_refines (represents : Represents layout m s)
    (current : CurrentAlive layout s)
    (picks : Refines seen (ChosenAlike layout s) (pick m) (pick' s)) :
    Refines seen (ChosenAlike layout s) (InMemory.keepAlone pick m)
      (keepAlone pick' s) := by
  rw [InMemory.keepAlone, keepAlone, represents.current]
  cases isCurrent : s.current with
  | none => exact picks
  | some c =>
      simp only [represents.process (current c isCurrent), bind, Except.bind,
        represents.isEmpty_ready, decide_eq_true_eq]
      show Refines _ _ (if isBlocked s c then _ else
        if s.readyqueue = [] ∧ unfinished s c then _ else _) _
      split
      · exact picks
      · split
        · exact refines_ok ⟨rfl, Kept.start represents⟩
        · exact picks

variable {t : Sim n}

/-- Putting the current process back into the ready queue. -/
theorem Kept.requeueUnfinished (kept : Kept layout s owner m t)
    (current : CurrentAlive layout t) :
    Refines seen
      (fun m' t' => Kept layout s owner m' t' ∧
        ∃ back, t'.readyqueue = t.readyqueue ++ back)
      (InMemory.requeueUnfinished m) (requeueUnfinished t) := by
  have represents := kept.represents
  rw [InMemory.requeueUnfinished, Sched.requeueUnfinished, represents.current]
  cases isCurrent : t.current with
  | none => exact refines_ok ⟨kept, [], by simp⟩
  | some c =>
      have alive := current c isCurrent
      simp only [represents.process alive, bind, Except.bind]
      show Refines _ _ (if unfinished t c then _ else _) _
      split
      · unfold Sim.addTailReady
        by_cases detached : t.detached c
        · obtain ⟨m', linked, represents'⟩ := represents.linkReady detached alive
          rw [if_pos detached, linked]
          have ownerEq := kept.owner
          refine refines_ok ⟨?_, [c], rfl⟩
          rw [← ownerEq]
          exact kept.step represents' rfl rfl
        · rw [if_neg detached]
          exact refines_unseen rfl
      · exact refines_ok ⟨kept, [], by simp⟩

/-- Taking the chosen process out of the ready queue. -/
theorem Kept.dequeue (kept : Kept layout s s.owner m t)
    (isReady : next ∈ t.readyqueue) :
    Refines seen (ChosenAlike layout s) (InMemory.dequeue next m)
      (.ok (some next, t.delInitReady next)) := by
  obtain ⟨m', unlinked, represents', _⟩ := kept.represents.unlinkReady isReady
  rw [InMemory.dequeue, unlinked]
  refine refines_ok ⟨rfl, ?_⟩
  have ownerEq := kept.owner
  rw [← ownerEq]
  exact kept.step represents' rfl rfl

theorem fifoSchedule_refines (represents : Represents layout m s)
    (current : CurrentAlive layout s) :
    Refines seen (ChosenAlike layout s) (InMemory.fifoSchedule m)
      (fifoSchedule s) := by
  refine keepUnfinished_refines represents current ?_
  simp only [represents.isEmpty_ready, bind, Except.bind]
  cases readyEq : s.readyqueue with
  | nil => exact refines_ok ⟨rfl, Kept.start represents⟩
  | cons first rest =>
      have isRing : layout.rings s .readyqueue =
          some ((first :: rest).map .list) := by rw [Layout.rings, readyEq]
      simp only [represents.firstProcess isRing]
      exact (Kept.start represents).dequeue (by simp [readyEq])

theorem sjfSchedule_refines {fuel : Nat} (enough : n < fuel)
    (represents : Represents layout m s) (current : CurrentAlive layout s) :
    Refines seen (ChosenAlike layout s) (InMemory.sjfSchedule fuel m)
      (sjfSchedule s) := by
  refine keepUnfinished_refines represents current ?_
  simp only [represents.isEmpty_ready, bind, Except.bind]
  cases readyEq : s.readyqueue with
  | nil => exact refines_ok ⟨rfl, Kept.start represents⟩
  | cons first rest =>
      have isRing : layout.rings s .readyqueue =
          some ((first :: rest).map .list) := by rw [Layout.rings, readyEq]
      have alive := represents.alive
        (not_detached_of_ring isRing List.mem_cons_self)
      have scanned : InMemory.scanProcesses InMemory.shorterJob fuel .readyqueue
          first m = .ok (scan (shorterJob s) first (first :: rest)) :=
        scanProcesses_eq represents isRing enough alive fun _ _ => Iff.rfl
      simp only [represents.firstProcess isRing, scanned]
      refine (Kept.start represents).dequeue ?_
      rw [readyEq]
      exact scan_mem (shorterJob s) first rest

theorem curTc_eq (represents : Represents layout m s)
    (current : CurrentAlive layout s) : InMemory.curTc m = .ok (curTc s) := by
  rw [InMemory.curTc, curTc, represents.current]
  cases isCurrent : s.current with
  | none => rfl
  | some c =>
      simp only [represents.process (current c isCurrent), bind, Except.bind]
      show (if isBlocked s c then _ else if unfinished s c then _ else _) = _
      split
      · rfl
      · split <;> rfl

theorem shortestTime_eq {fuel : Nat} (enough : n < fuel)
    (represents : Represents layout m s) (bound : Nat) :
    InMemory.shortestTime fuel bound m =
      .ok (scanBelow (timeToComplete s) bound s.readyqueue) := by
  have isRing : layout.rings s .readyqueue =
      some (s.readyqueue.map .list) := rfl
  have short : (s.readyqueue.map Node.list).length < fuel := by
    rw [List.length_map]
    exact Nat.lt_of_le_of_lt (represents.length_le isRing) enough
  rw [InMemory.shortestTime, InMemory.forEachProcess,
    (forEachSafe_foldl
      (onProcess fun best pos => if timeToComplete s pos < best.2 then
        (some pos, timeToComplete s pos) else best)
      (fun _ => True) (fun _ _ => represents.arranged) isRing short trivial
      ?_).1]
  · rw [List.foldl_map]
    rfl
  · rintro node member best -
    obtain ⟨pos, isMember, rfl⟩ := List.mem_map.mp member
    have posAlive := represents.alive (not_detached_of_ready isMember)
    refine ⟨?_, trivial⟩
    simp only [Node.asProcess, bind, Except.bind, represents.process posAlive]
    show (if timeToComplete s pos < best.2 then _ else _) = Except.ok
      (Pass.again (if timeToComplete s pos < best.2 then _ else _))
    split <;> rfl

theorem stcfSchedule_refines {fuel : Nat} (enough : n < fuel)
    (represents : Represents layout m s) (current : CurrentAlive layout s) :
    Refines seen (ChosenAlike layout s) (InMemory.stcfSchedule fuel m)
      (stcfSchedule s) := by
  refine keepAlone_refines represents current ?_
  simp only [represents.isEmpty_ready, curTc_eq represents current,
    shortestTime_eq enough represents, shortestTime, bind, Except.bind]
  by_cases nobody : s.readyqueue = []
  · simp only [nobody, decide_true, if_true]
    exact refines_ok ⟨rfl, Kept.start represents⟩
  · simp only [nobody, decide_false, Bool.false_eq_true, if_false]
    cases found :
        (scanBelow (timeToComplete s) (curTc s) s.readyqueue).1 with
    | none =>
        refine refines_ok ⟨represents.current, Kept.start represents⟩
    | some next =>
        have isReady := (scanBelow_some found).1
        refine ((Kept.start represents).requeueUnfinished current).bind ?_
        rintro m' t ⟨kept, back, readyEq⟩
        exact kept.dequeue (by simp [readyEq, isReady])

theorem rrSchedule_refines (represents : Represents layout m s)
    (current : CurrentAlive layout s) :
    Refines seen (ChosenAlike layout s) (InMemory.rrSchedule m)
      (rrSchedule s) := by
  refine keepAlone_refines represents current ?_
  simp only [represents.isEmpty_ready, bind, Except.bind]
  cases readyEq : s.readyqueue with
  | nil => exact refines_ok ⟨rfl, Kept.start represents⟩
  | cons first rest =>
      have isRing : layout.rings s .readyqueue =
          some ((first :: rest).map .list) := by rw [Layout.rings, readyEq]
      obtain ⟨m', unlinked, represents', _⟩ :=
        represents.unlinkReady (p := first) (by simp [readyEq])
      have kept : Kept layout s s.owner m' (s.delInitReady first) :=
        (Kept.start represents).step represents' rfl rfl
      simp only [represents.firstProcess isRing, unlinked]
      exact (kept.requeueUnfinished current).bind fun m'' t later =>
        refines_ok ⟨rfl, later.1⟩

/-- End of the priority policies: the chosen process is alive and ready. -/
theorem Kept.switchTo
    (onSwitch : Fin n → Memory n → Except MemoryFault (Memory n))
    (onSwitch' : Fin n → Sim n → Sim n)
    (switches : ∀ s, Repriced (onSwitch next) (onSwitch' next) layout s)
    (kept : Kept layout s s.owner m t) (current : CurrentAlive layout t)
    (isReady : next ∈ t.readyqueue) :
    Refines seen (ChosenAlike layout s) (InMemory.switchTo onSwitch next m)
      (switchTo onSwitch' next t) := by
  have dequeues {m : Memory n} {t : Sim n} (kept : Kept layout s s.owner m t)
      (isReady : next ∈ t.readyqueue) :
      Refines seen (ChosenAlike layout s)
        (onSwitch next m >>= InMemory.dequeue next)
        (.ok (some next, (onSwitch' next t).delInitReady next)) := by
    obtain ⟨m', prio, switched, same, represents'⟩ :=
      switches t m kept.represents
    rw [switched, same]
    exact (kept.withPrio represents').dequeue isReady
  have represents := kept.represents
  rw [InMemory.switchTo, Sched.switchTo, represents.current]
  cases isCurrent : t.current with
  | none => exact dequeues kept isReady
  | some c =>
      simp only [represents.process (current c isCurrent), bind, Except.bind]
      show Refines _ _ (if isBlocked t c then _ else _) _
      split
      · exact dequeues kept isReady
      · have alive := represents.alive (not_detached_of_ready isReady)
        simp only [represents.process alive]
        show Refines _ _ (if higherPrio t c next ∧ unfinished t c then _ else
          if (t.procs c).prio = (t.procs next).prio ∨
            (t.procs c).prio < (t.procs next).prio then _ else _) _
        split
        · exact refines_ok ⟨rfl, kept⟩
        · split
          · refine (kept.requeueUnfinished current).bind ?_
            rintro m' t' ⟨kept', back, readyEq⟩
            exact dequeues kept' (by simp [readyEq, isReady])
          · exact dequeues kept isReady

theorem prioSchedule_refines {fuel : Nat} (enough : n < fuel)
    (represents : Represents layout m s) (current : CurrentAlive layout s) :
    Refines seen (ChosenAlike layout s) (InMemory.prioSchedule fuel m)
      (prioSchedule s) := by
  refine keepAlone_refines represents current ?_
  simp only [represents.isEmpty_ready, bind, Except.bind]
  cases readyEq : s.readyqueue with
  | nil => exact refines_ok ⟨rfl, Kept.start represents⟩
  | cons first rest =>
      have isRing : layout.rings s .readyqueue =
          some ((first :: rest).map .list) := by rw [Layout.rings, readyEq]
      have alive := represents.alive
        (not_detached_of_ring isRing List.mem_cons_self)
      have scanned : InMemory.scanProcesses InMemory.higherPrio fuel .readyqueue
          first m = .ok (scan (higherPrio s) first (first :: rest)) :=
        scanProcesses_eq represents isRing enough alive fun _ _ => Iff.rfl
      simp only [represents.firstProcess isRing, scanned]
      refine (Kept.start represents).switchTo (fun _ => InMemory.noPrio)
        (fun _ s => s) (fun s => repriced_noPrio) current ?_
      rw [readyEq]
      exact scan_mem (higherPrio s) first rest

/-- One pass of `boostScan`. -/
def boostPass (scanned : Sim n × Fin n) (pos : Fin n) : Sim n × Fin n :=
  let s := scanned.1.setPrio pos (toUInt ((scanned.1.procs pos).prio + 1))
  (s, if higherPrio s pos scanned.2 then pos else scanned.2)

/-- Nothing but priorities has changed since the start of the scan, at `s`. -/
structure Scanning (layout : Layout n) (s : Sim n) (m : Memory n) (t : Sim n)
    (best : Fin n) : Prop where
  kept : Kept layout s s.owner m t
  ready : t.readyqueue = s.readyqueue
  current : t.current = s.current
  bestReady : best ∈ s.readyqueue

theorem Scanning.pass {best : Fin n} (scanning : Scanning layout s m t best)
    (isReady : p ∈ s.readyqueue) :
    ∃ m' t' best', (do
        let m ← m.setPrio p (toUInt ((← m.process p).prio + 1))
        if InMemory.higherPrio (← m.process p) (← m.process best) then
          return .again (m, p)
        else return .again (m, best) :
          Except MemoryFault (Pass (Memory n × Fin n))) =
        .ok (.again (m', best')) ∧ boostPass (t, best) p = (t', best') ∧
      Scanning layout s m' t' best' := by
  have represents := scanning.kept.represents
  have alive {q : Fin n} (isReady : q ∈ s.readyqueue) :
      layout.freed q = false := by
    refine represents.alive (not_detached_of_ready ?_)
    rw [scanning.ready]
    exact isReady
  obtain ⟨m', boosted, represents'⟩ :=
    represents.setPrio (alive isReady) (toUInt ((t.procs p).prio + 1))
  have prioEq : (InMemory.fieldsOf (t.procs p)).prio = (t.procs p).prio := rfl
  have kept : Kept layout s s.owner m'
      (t.setPrio p (toUInt ((t.procs p).prio + 1))) := by
    rw [t.setPrio_eq_withPrio] at represents' ⊢
    exact scanning.kept.withPrio represents'
  simp only [represents.process (alive isReady), bind, Except.bind, prioEq,
    boosted, represents'.process (alive isReady),
    represents'.process (alive scanning.bestReady)]
  by_cases higher : higherPrio
      (t.setPrio p (toUInt ((t.procs p).prio + 1))) p best
  · refine ⟨m', _, p, if_pos higher, ?_, kept, scanning.ready,
      scanning.current, isReady⟩
    rw [boostPass, if_pos higher]
  · refine ⟨m', _, best, if_neg higher, ?_, kept, scanning.ready,
      scanning.current, scanning.bestReady⟩
    rw [boostPass, if_neg higher]

theorem boostScan_runs {fuel : Nat} (enough : n < fuel)
    (represents : Represents layout m s) {first : Fin n} {rest : List (Fin n)}
    (readyEq : s.readyqueue = first :: rest) :
    ∃ m' t best, InMemory.boostScan fuel first m = .ok (m', best) ∧
      boostScan s first s.readyqueue = (t, best) ∧
      Scanning layout s m' t best := by
  have isRing : layout.rings s .readyqueue =
      some (s.readyqueue.map .list) := rfl
  have start : Scanning layout s m s first :=
    ⟨Kept.start represents, rfl, rfl, by simp [readyEq]⟩
  unfold InMemory.boostScan
  -- the members still to be boosted lead to the same result
  refine forEachProcess_rule
    (fun later scanned => ∃ t, Scanning layout s scanned.1 t scanned.2 ∧
      (∃ front, s.readyqueue = front ++ later) ∧
      later.foldl boostPass (t, scanned.2) = boostScan s first s.readyqueue)
    (fun result => ∃ m' t best, result = .ok (m', best) ∧
      boostScan s first s.readyqueue = (t, best) ∧ Scanning layout s m' t best)
    ?_ ?_ ?_ represents.arranged isRing
    (Nat.lt_of_le_of_lt (represents.length_le isRing) enough)
    ⟨s, start, ⟨[], rfl⟩, rfl⟩
  · rintro later scanned ⟨t, scanning, ⟨front, split⟩, _⟩
    refine ⟨layout.rings t, front, scanning.kept.represents.arranged, ?_⟩
    rw [Layout.rings, scanning.ready, split]
  · rintro scanned ⟨t, scanning, _, same⟩
    exact ⟨scanned.1, t, scanned.2, rfl, same.symm, scanning⟩
  · rintro pos later scanned ⟨t, scanning, ⟨front, split⟩, same⟩
    obtain ⟨m', t', best', ran, passed, scanning'⟩ :=
      scanning.pass (p := pos) (by simp [split])
    refine ⟨(m', best'), ran, t', scanning', ⟨front ++ [pos], by simp [split]⟩,
      ?_⟩
    rw [← same, List.foldl_cons, passed]

theorem paSchedule_refines {fuel : Nat} (enough : n < fuel)
    (represents : Represents layout m s) (current : CurrentAlive layout s) :
    Refines seen (ChosenAlike layout s) (InMemory.paSchedule fuel m)
      (paSchedule s) := by
  refine keepAlone_refines represents current ?_
  simp only [represents.isEmpty_ready, bind, Except.bind]
  cases readyEq : s.readyqueue with
  | nil => exact refines_ok ⟨rfl, Kept.start represents⟩
  | cons first rest =>
      have isRing : layout.rings s .readyqueue =
          some ((first :: rest).map .list) := by rw [Layout.rings, readyEq]
      obtain ⟨m', t, best, ran, scanned, scanning⟩ :=
        boostScan_runs enough represents readyEq
      rw [readyEq] at scanned
      simp only [represents.firstProcess isRing, ran, scanned]
      have isReady : best ∈ t.readyqueue := by
        rw [scanning.ready]
        exact scanning.bestReady
      have alive := scanning.kept.represents.alive
        (not_detached_of_ready isReady)
      refine scanning.kept.switchTo InMemory.restorePrio restorePrio
        (fun s => repriced_restorePrio alive) ?_ isReady
      rw [CurrentAlive, scanning.current]
      exact current

end Callbacks

/-! ### The schedulers -/

/-- A scheduler does the same in memory as on the lists. -/
structure Faithful (inMemory : InMemory.Scheduler n) (sched : Scheduler n) :
    Prop where
  schedule : ∀ layout m s, Represents layout m s → CurrentAlive layout s →
    Refines seen (ChosenAlike layout s) (inMemory.schedule m) (sched.schedule s)
  acquire : ∀ layout m s c resourceId, Represents layout m s →
    layout.freed c = false → (s.procs c).status ≠ .exit →
    Refines seen (fun a b => a.1 = b.1 ∧ ∃ r : Fin nrResources,
        r.val = resourceId ∧ Kept layout s
          (if b.1 then Function.update s.owner r (some c) else s.owner) a.2 b.2)
      (inMemory.acquire c resourceId m) (sched.acquire c resourceId s)
  release : ∀ layout m s c resourceId, Represents layout m s →
    layout.freed c = false →
    Refines seen (fun m' s' => ∃ r : Fin nrResources, r.val = resourceId ∧
        Kept layout s (Function.update s.owner r none) m' s')
      (inMemory.release c resourceId m) (sched.release c resourceId s)

theorem scheduler_faithful {fuel : Nat} (enough : n < fuel) (policy : Policy) :
    Faithful (InMemory.scheduler fuel policy) (policy.scheduler (n := n)) where
  schedule layout m s represents current := by
    cases policy with
    | fifo => exact fifoSchedule_refines represents current
    | sjf => exact sjfSchedule_refines enough represents current
    | stcf => exact stcfSchedule_refines enough represents current
    | rr => exact rrSchedule_refines represents current
    | prio => exact prioSchedule_refines enough represents current
    | pa => exact paSchedule_refines enough represents current
    | pcp => exact prioSchedule_refines enough represents current
    | pip => exact prioSchedule_refines enough represents current
  acquire layout m s c resourceId represents alive running := by
    have plain := acquireWith_refines resourceId (fun _ => InMemory.noPrio)
      (fun _ s => s) (fun _ _ => InMemory.noPrio) (fun _ _ s => s)
      (fun s => repriced_noPrio) (fun owner s _ => repriced_noPrio) represents
      alive running
    cases policy with
    | pcp =>
        exact acquireWith_refines resourceId
          (fun current m => m.setPrio current maxPrio)
          (fun current s => s.setPrio current maxPrio)
          (fun _ _ => InMemory.noPrio) (fun _ _ s => s)
          (fun s => repriced_setPrio alive maxPrio)
          (fun owner s _ => repriced_noPrio) represents alive running
    | pip =>
        exact acquireWith_refines resourceId (fun _ => InMemory.noPrio)
          (fun _ s => s) InMemory.inheritPrio inheritPrio
          (fun s => repriced_noPrio)
          (fun owner s ownerAlive => repriced_inheritPrio ownerAlive alive)
          represents alive running
    | _ => exact plain
  release layout m s c resourceId represents alive := by
    have restores := releaseWith_refines resourceId InMemory.restorePrio
      restorePrio (fun s => repriced_restorePrio alive)
      (highestPrio_alike enough) represents
    have highest := releaseWith_refines (c := c) resourceId
      (fun _ => InMemory.noPrio) (fun _ s => s) (fun s => repriced_noPrio)
      (highestPrio_alike enough) represents
    have first := releaseWith_refines (c := c) resourceId
      (fun _ => InMemory.noPrio) (fun _ s => s) (fun s => repriced_noPrio)
      firstWaiter_alike represents
    cases policy with
    | pcp => exact restores
    | pip => exact restores
    | prio => exact highest
    | pa => exact highest
    | _ => exact first

end OsPAs.Sched
