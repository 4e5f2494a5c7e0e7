/-
Module: OsPAs.Sched.Layout
Purpose: Which memory stands for which state of the simulator, and what the
  accesses of the code to that memory do to the state.
Trusted boundary: none
Main exports: Layout, Layout.rings, Represents, Represents.process,
  Represents.modify, Represents.linkReady, Represents.linkWait,
  Represents.unlinkReady, Represents.unlinkWait, Represents.moveForked,
  Represents.freeProcess
-/
import Mathlib.Data.Fintype.Card
import OsPAs.Sched.Memory

namespace OsPAs.Sched

open Lib

variable {n : Nat}

/-- What a state of the simulator leaves open about the memory: which structures
are in the entry lists of each process, by their number and content, and which
processes have been freed. -/
structure Layout (n : Nat) where
  wants : Fin n → List (Nat × ResourceSchedule)
  holds : Fin n → List (Nat × ResourceSchedule)
  freed : Fin n → Bool

/-- The nodes of some of the entries of `p`. -/
def scheduleNodes (p : Fin n) (entries : List (Nat × ResourceSchedule)) :
    List (Node n) :=
  entries.map fun entry => .schedule p entry.1

/-- The lists in memory. -/
def Layout.rings (layout : Layout n) (s : Sim n) :
    Node n → Option (List (Node n))
  | .readyqueue => some (s.readyqueue.map .list)
  | .forkqueue => some (s.forkqueue.map .list)
  | .waitqueue r => some ((s.waitqueue r).map .list)
  | .list p => if s.detached p ∧ layout.freed p = false then some [] else none
  | .resourcesToAcquire p =>
      if layout.freed p then none else some (scheduleNodes p (layout.wants p))
  | .resourcesHolding p =>
      if layout.freed p then none else some (scheduleNodes p (layout.holds p))
  | .schedule _ _ => none

/-- The memory `m` stands for the state `s`. -/
structure Represents (layout : Layout n) (m : Memory n) (s : Sim n) : Prop where
  fields : ∀ p, m.procs p =
    if layout.freed p then none else some (InMemory.fieldsOf (s.procs p))
  entries : ∀ p i rs, m.schedules p i = some rs ↔
    (i, rs) ∈ layout.wants p ++ layout.holds p
  current : m.current = s.current
  ticks : m.ticks = s.ticks
  owner : m.owner = s.owner
  stderr : m.stderr = s.stderr
  arranged : Arranged m.links (layout.rings s)
  linked : ∀ p, layout.freed p = true → s.detached p
  owned : ∀ r p, s.owner r = some p → layout.freed p = false

section Access

variable {layout : Layout n} {m : Memory n} {s : Sim n} {p q : Fin n}
  {r : Fin nrResources}

/-! ### Reading -/

theorem Represents.process (represents : Represents layout m s)
    (alive : layout.freed p = false) :
    m.process p = .ok (InMemory.fieldsOf (s.procs p)) := by
  rw [Memory.process, represents.fields p, alive]
  rfl

theorem Represents.process_freed (represents : Represents layout m s)
    (freed : layout.freed p = true) : m.process p = .error .useAfterFree := by
  rw [Memory.process, represents.fields p, freed]
  rfl

theorem Represents.alive (represents : Represents layout m s)
    (isLinked : ¬ s.detached p) : layout.freed p = false := by
  cases freed : layout.freed p with
  | true => exact absurd (represents.linked p freed) isLinked
  | false => rfl

theorem not_detached_of_ready (isReady : p ∈ s.readyqueue) : ¬ s.detached p :=
  fun detached => detached.2.1 isReady

theorem not_detached_of_waiting (isWaiting : p ∈ s.waitqueue r) :
    ¬ s.detached p :=
  fun detached => detached.2.2 r isWaiting

theorem not_detached_of_forking (isForking : p ∈ s.forkqueue) :
    ¬ s.detached p :=
  fun detached => detached.1 isForking

/-- The members of a queue are linked. -/
theorem not_detached_of_ring {head : Node n} {xs : List (Fin n)}
    (isRing : layout.rings s head = some (xs.map .list)) (member : p ∈ xs) :
    ¬ s.detached p := by
  have node : Node.list p ∈ xs.map Node.list := List.mem_map_of_mem member
  have notSchedule (q : Fin n) (entries : List (Nat × ResourceSchedule)) :
      Node.list p ∉ scheduleNodes q entries := by simp [scheduleNodes]
  rw [Layout.rings.eq_def] at isRing
  split at isRing
  · rw [← Option.some.inj isRing] at node
    exact not_detached_of_ready (by simpa using node)
  · rw [← Option.some.inj isRing] at node
    exact not_detached_of_forking (by simpa using node)
  · rw [← Option.some.inj isRing] at node
    exact not_detached_of_waiting (by simpa using node)
  · split at isRing
    · rw [← Option.some.inj isRing] at node
      simp at node
    · simp at isRing
  · split at isRing
    · simp at isRing
    · rw [← Option.some.inj isRing] at node
      exact absurd node (notSchedule _ _)
  · split at isRing
    · simp at isRing
    · rw [← Option.some.inj isRing] at node
      exact absurd node (notSchedule _ _)
  · simp at isRing

theorem Represents.isEmpty (represents : Represents layout m s) {head : Node n}
    {xs : List (Node n)} (isRing : layout.rings s head = some xs) :
    m.isEmpty head = .ok (decide (xs = [])) := by
  rw [Memory.isEmpty, represents.arranged.listEmpty isRing]

theorem Represents.isEmpty_ready (represents : Represents layout m s) :
    m.isEmpty .readyqueue = .ok (decide (s.readyqueue = [])) := by
  rw [represents.isEmpty rfl]
  simp

theorem Represents.isEmpty_forkqueue (represents : Represents layout m s) :
    m.isEmpty .forkqueue = .ok (decide (s.forkqueue = [])) := by
  rw [represents.isEmpty rfl]
  simp

theorem Represents.isEmpty_wait (represents : Represents layout m s)
    (r : Fin nrResources) :
    m.isEmpty (.waitqueue r) = .ok (decide (s.waitqueue r = [])) := by
  rw [represents.isEmpty rfl]
  simp

/-- The queue that `p` is linked into. -/
theorem exists_queue (isLinked : ¬ s.detached p) :
    ∃ head, ∃ xs : List (Fin n),
      layout.rings s head = some (xs.map .list) ∧ p ∈ xs := by
  by_contra none
  refine isLinked ⟨fun member => ?_, fun member => ?_, fun r member => ?_⟩
  · exact none ⟨.forkqueue, _, rfl, member⟩
  · exact none ⟨.readyqueue, _, rfl, member⟩
  · exact none ⟨.waitqueue r, _, rfl, member⟩

theorem rings_detached (detached : s.detached p)
    (alive : layout.freed p = false) : layout.rings s (.list p) = some [] := by
  rw [Layout.rings, if_pos ⟨detached, alive⟩]

theorem rings_linked (isLinked : ¬ s.detached p) :
    layout.rings s (.list p) = none := by
  rw [Layout.rings, if_neg fun both => isLinked both.1]

theorem rings_congr {s' : Sim n} (same : s'.detached p ↔ s.detached p) :
    layout.rings s' (.list p) = layout.rings s (.list p) :=
  if_congr (and_congr_left' same) rfl rfl

/-- `list_empty(&p->list)` tells whether `p` is linked. -/
theorem Represents.isEmpty_list (represents : Represents layout m s)
    (alive : layout.freed p = false) :
    m.isEmpty (.list p) = .ok (decide (s.detached p)) := by
  by_cases detached : s.detached p
  · have isRing : layout.rings s (.list p) = some [] := by
      rw [Layout.rings, if_pos ⟨detached, alive⟩]
    rw [represents.isEmpty isRing]
    simp [detached]
  · obtain ⟨head, xs, isRing, member⟩ := exists_queue detached
    rw [Memory.isEmpty, represents.arranged.listEmpty_of_mem isRing
      (List.mem_map_of_mem member)]
    simp [detached]

theorem Represents.firstProcess (represents : Represents layout m s)
    {head : Node n} {first : Fin n} {rest : List (Fin n)}
    (isRing : layout.rings s head = some ((first :: rest).map .list)) :
    m.firstProcess head = .ok first := by
  rw [Memory.firstProcess, represents.arranged.next isRing]
  rfl

/-- Nobody is in two queues. -/
theorem Represents.apart (represents : Represents layout m s)
    (head head' : Node n) {xs ys : List (Fin n)}
    (isRing : layout.rings s head = some (xs.map .list))
    (isRing' : layout.rings s head' = some (ys.map .list)) (ne : head ≠ head')
    (member : p ∈ xs) : p ∉ ys := by
  intro also
  exact represents.arranged.disjoint head _ head' _ isRing isRing' ne (.list p)
    (List.mem_cons_of_mem head (List.mem_map_of_mem member))
    (List.mem_cons_of_mem head' (List.mem_map_of_mem also))

theorem Represents.nodup (represents : Represents layout m s) (head : Node n)
    {xs : List (Fin n)} (isRing : layout.rings s head = some (xs.map .list)) :
    xs.Nodup :=
  List.Nodup.of_map Node.list
    (List.nodup_cons.mp (represents.arranged.nodup head _ isRing)).2

/-- A queue has no more members than there are processes. -/
theorem Represents.length_le (represents : Represents layout m s)
    {head : Node n} {xs : List (Fin n)}
    (isRing : layout.rings s head = some (xs.map .list)) : xs.length ≤ n := by
  simpa using (represents.nodup head isRing).length_le_card

/-! ### Fields -/

/-- The rest of the memory, where the list heads stay as they are. -/
theorem Represents.modify (represents : Represents layout m s)
    (alive : layout.freed p = false) (change : Fields → Fields)
    (change' : Process → Process)
    (same : ∀ process, InMemory.fieldsOf (change' process) =
      change (InMemory.fieldsOf process)) :
    ∃ m', m.modify p change = .ok m' ∧
      Represents layout m' (s.modify p change') := by
  let changed := some (change (InMemory.fieldsOf (s.procs p)))
  refine ⟨{ m with procs := Function.update m.procs p changed },
    by rw [Memory.modify, represents.process alive]; rfl,
    ⟨fun q => ?_, represents.entries, represents.current, represents.ticks,
      represents.owner, represents.stderr, represents.arranged,
      represents.linked, represents.owned⟩⟩
  by_cases isP : q = p
  · subst isP
    simp [alive, same, changed]
  · simp [isP, represents.fields q, s.modify_of_ne isP]

theorem Represents.setStatus (represents : Represents layout m s)
    (alive : layout.freed p = false) (status : ProcessStatus) :
    ∃ m', m.setStatus p status = .ok m' ∧
      Represents layout m' (s.setStatus p status) :=
  represents.modify alive _ _ fun _ => rfl

theorem Represents.setPrio (represents : Represents layout m s)
    (alive : layout.freed p = false) (prio : Nat) :
    ∃ m', m.setPrio p prio = .ok m' ∧
      Represents layout m' (s.setPrio p prio) :=
  represents.modify alive _ _ fun _ => rfl

theorem Represents.setOwner (represents : Represents layout m s)
    (r : Fin nrResources) (owner : Option (Fin n))
    (alive : ∀ p, owner = some p → layout.freed p = false) :
    Represents layout (m.setOwner r owner) (s.setOwner r owner) where
  fields := represents.fields
  entries := represents.entries
  current := represents.current
  ticks := represents.ticks
  owner := by rw [Memory.setOwner, Sim.setOwner, represents.owner]
  stderr := represents.stderr
  arranged := represents.arranged
  linked := represents.linked
  owned := by
    intro r' p owns
    by_cases same : r' = r
    · subst same
      exact alive p (by simpa [Sim.setOwner] using owns)
    · exact represents.owned r' p (by simpa [Sim.setOwner, same] using owns)

theorem Represents.print (represents : Represents layout m s)
    (event : Event n) : Represents layout (m.print event) (s.print event) where
  fields := represents.fields
  entries := represents.entries
  current := represents.current
  ticks := represents.ticks
  owner := represents.owner
  stderr := by
    rw [Memory.print, Sim.print, represents.stderr, represents.ticks]
  arranged := represents.arranged
  linked := represents.linked
  owned := represents.owned

theorem Represents.setCurrent (represents : Represents layout m s)
    (next : Option (Fin n)) :
    Represents layout { m with current := next } { s with current := next } where
  fields := represents.fields
  entries := represents.entries
  current := rfl
  ticks := represents.ticks
  owner := represents.owner
  stderr := represents.stderr
  arranged := represents.arranged
  linked := represents.linked
  owned := represents.owned

theorem Represents.nextTick (represents : Represents layout m s) :
    Represents layout (InMemory.nextTick m) (nextTick s) where
  fields := represents.fields
  entries := represents.entries
  current := represents.current
  ticks := by rw [InMemory.nextTick, Sched.nextTick, represents.ticks]
  owner := represents.owner
  stderr := represents.stderr
  arranged := represents.arranged
  linked := represents.linked
  owned := represents.owned

/-! ### Queues -/

/-- After an operation on the queues. -/
theorem Represents.relink (represents : Represents layout m s) {s' : Sim n}
    {operation : Links (Node n) → Option (Links (Node n))}
    {rings : Node n → Option (List (Node n))}
    (done : ∃ links, operation m.links = some links ∧ Arranged links rings)
    (ringsEq : rings = layout.rings s')
    (same : s' = { s with forkqueue := s'.forkqueue, readyqueue := s'.readyqueue,
                          waitqueue := s'.waitqueue })
    (linked : ∀ p, layout.freed p = true → s'.detached p) :
    ∃ m', m.onLinks operation = .ok m' ∧ Represents layout m' s' := by
  obtain ⟨links, ran, arranged⟩ := done
  refine ⟨_, by rw [Memory.onLinks, ran], ?_⟩
  rw [ringsEq] at arranged
  exact {
    fields := by rw [same]; exact represents.fields
    entries := represents.entries
    current := by rw [same]; exact represents.current
    ticks := by rw [same]; exact represents.ticks
    owner := by rw [same]; exact represents.owner
    stderr := by rw [same]; exact represents.stderr
    arranged := arranged
    linked := linked
    owned := by rw [same]; exact represents.owned }

theorem Represents.linkReady (represents : Represents layout m s)
    (detached : s.detached p) (alive : layout.freed p = false) :
    ∃ m', m.onLinks (·.listAddTail (.list p) .readyqueue) = .ok m' ∧
      Represents layout m' { s with readyqueue := s.readyqueue ++ [p] } := by
  refine represents.relink (represents.arranged.listAddTail
    (rings_detached detached alive) rfl (by simp)) ?_ rfl fun q freed => ?_
  · funext node
    cases node with
    | list q =>
        by_cases isP : q = p
        · subst isP
          rw [rings_linked (not_detached_of_ready (by simp))]
          simp
        · rw [rings_congr (s := s) (by simp [Sim.detached, isP])]
          simp [isP]
    | _ => simp [Layout.rings]
  · have isP : q ≠ p := by
      rintro rfl
      simp [alive] at freed
    simpa [Sim.detached, isP] using represents.linked q freed

theorem Represents.linkWait (represents : Represents layout m s)
    (detached : s.detached p) (alive : layout.freed p = false)
    (r : Fin nrResources) :
    ∃ m', m.onLinks (·.listAddTail (.list p) (.waitqueue r)) = .ok m' ∧
      Represents layout m' { s with
        waitqueue := Function.update s.waitqueue r (s.waitqueue r ++ [p]) } := by
  refine represents.relink (represents.arranged.listAddTail
    (rings_detached detached alive) rfl (by simp)) ?_ rfl fun q freed => ?_
  · funext node
    cases node with
    | list q =>
        by_cases isP : q = p
        · subst isP
          rw [rings_linked (not_detached_of_waiting (r := r) (by simp))]
          simp
        · have same : (∀ r', q ∉ Function.update s.waitqueue r
              (s.waitqueue r ++ [p]) r') ↔ ∀ r', q ∉ s.waitqueue r' := by
            refine forall_congr' fun r' => ?_
            by_cases isR : r' = r
            · subst isR
              simp [isP]
            · simp [isR]
          rw [rings_congr (s := s) (by simp [Sim.detached, same])]
          simp [isP]
    | waitqueue r' =>
        by_cases isR : r' = r
        · subst isR
          simp [Layout.rings]
        · simp [Layout.rings, isR]
    | _ => simp [Layout.rings]
  · have isP : q ≠ p := by
      rintro rfl
      simp [alive] at freed
    obtain ⟨notForking, notReady, notWaiting⟩ := represents.linked q freed
    refine ⟨notForking, notReady, fun r' => ?_⟩
    by_cases isR : r' = r
    · subst isR
      simpa [isP] using notWaiting r'
    · simpa [isR] using notWaiting r'

/-- A queue without one of its members. -/
theorem erase_split {xs : List (Fin n)} (nodup : xs.Nodup) (member : p ∈ xs) :
    ∃ front back, xs = front ++ p :: back ∧ xs.erase p = front ++ back := by
  obtain ⟨front, back, rfl⟩ := List.append_of_mem member
  refine ⟨front, back, rfl, ?_⟩
  have fresh : p ∉ front := by
    simp only [List.nodup_append, List.nodup_cons, List.mem_cons] at nodup
    grind
  rw [List.erase_append_right _ fresh, List.erase_cons_head]

theorem Represents.unlinkReady (represents : Represents layout m s)
    (isReady : p ∈ s.readyqueue) :
    ∃ m', m.onLinks (·.listDelInit (.list p)) = .ok m' ∧
      Represents layout m' (s.delInitReady p) ∧
      (s.delInitReady p).detached p := by
  have alive := represents.alive (not_detached_of_ready isReady)
  have nodup := represents.nodup .readyqueue rfl
  have notForking : p ∉ s.forkqueue :=
    represents.apart .readyqueue .forkqueue rfl rfl
      (by simp) isReady
  have notWaiting (r : Fin nrResources) : p ∉ s.waitqueue r :=
    represents.apart .readyqueue (.waitqueue r) rfl rfl
      (by simp) isReady
  have detached : (s.delInitReady p).detached p :=
    ⟨notForking, nodup.not_mem_erase, notWaiting⟩
  obtain ⟨front, back, split, erased⟩ := erase_split nodup isReady
  have isRing : layout.rings s .readyqueue =
      some (front.map .list ++ .list p :: back.map .list) := by
    simp [Layout.rings, split]
  have other {q : Fin n} (isP : q ≠ p) :
      (s.delInitReady p).detached q ↔ s.detached q := by
    simp [Sim.detached, Sim.delInitReady, List.mem_erase_of_ne isP]
  have relinked : ∃ m', m.onLinks (·.listDelInit (.list p)) = .ok m' ∧
      Represents layout m' (s.delInitReady p) := by
    refine represents.relink (represents.arranged.listDelInit isRing) ?_ rfl
      fun q freed => ?_
    · funext node
      cases node with
      | list q =>
          by_cases isP : q = p
          · subst isP
            rw [rings_detached detached alive]
            simp
          · rw [rings_congr (other isP)]
            simp [isP]
      | readyqueue => simp [Layout.rings, Sim.delInitReady, erased]
      | _ => simp [Layout.rings, Sim.delInitReady]
    · have isP : q ≠ p := by
        rintro rfl
        simp [alive] at freed
      exact (other isP).mpr (represents.linked q freed)
  obtain ⟨m', done, represents'⟩ := relinked
  exact ⟨m', done, represents', detached⟩

theorem Represents.unlinkWait (represents : Represents layout m s)
    (isWaiting : p ∈ s.waitqueue r) :
    ∃ m', m.onLinks (·.listDelInit (.list p)) = .ok m' ∧
      Represents layout m' (s.delInitWait r p) ∧
      (s.delInitWait r p).detached p := by
  have alive := represents.alive (not_detached_of_waiting isWaiting)
  have nodup := represents.nodup (.waitqueue r) rfl
  have notForking : p ∉ s.forkqueue :=
    represents.apart (.waitqueue r) .forkqueue rfl rfl
      (by simp) isWaiting
  have notReady : p ∉ s.readyqueue :=
    represents.apart (.waitqueue r) .readyqueue rfl rfl
      (by simp) isWaiting
  have elsewhere {r' : Fin nrResources} (ne : r' ≠ r) : p ∉ s.waitqueue r' :=
    represents.apart (.waitqueue r) (.waitqueue r') rfl rfl
      (by simpa using ne.symm) isWaiting
  have detached : (s.delInitWait r p).detached p := by
    refine ⟨notForking, notReady, fun r' => ?_⟩
    by_cases isR : r' = r
    · subst isR
      simpa [Sim.delInitWait] using nodup.not_mem_erase
    · simpa [Sim.delInitWait, isR] using elsewhere isR
  obtain ⟨front, back, split, erased⟩ := erase_split nodup isWaiting
  have isRing : layout.rings s (.waitqueue r) =
      some (front.map .list ++ .list p :: back.map .list) := by
    simp [Layout.rings, split]
  have other {q : Fin n} (isP : q ≠ p) :
      (s.delInitWait r p).detached q ↔ s.detached q := by
    refine and_congr_right fun _ => and_congr_right fun _ =>
      forall_congr' fun r' => ?_
    by_cases isR : r' = r
    · subst isR
      simp [Sim.delInitWait, List.mem_erase_of_ne isP]
    · simp [Sim.delInitWait, isR]
  have relinked : ∃ m', m.onLinks (·.listDelInit (.list p)) = .ok m' ∧
      Represents layout m' (s.delInitWait r p) := by
    refine represents.relink (represents.arranged.listDelInit isRing) ?_ rfl
      fun q freed => ?_
    · funext node
      cases node with
      | list q =>
          by_cases isP : q = p
          · subst isP
            rw [rings_detached detached alive]
            simp
          · rw [rings_congr (other isP)]
            simp [isP]
      | waitqueue r' =>
          by_cases isR : r' = r
          · subst isR
            simp [Layout.rings, Sim.delInitWait, erased]
          · simp [Layout.rings, Sim.delInitWait, isR]
      | _ => simp [Layout.rings, Sim.delInitWait]
    · have isP : q ≠ p := by
        rintro rfl
        simp [alive] at freed
      exact (other isP).mpr (represents.linked q freed)
  obtain ⟨m', done, represents'⟩ := relinked
  exact ⟨m', done, represents', detached⟩

theorem Represents.moveForked (represents : Represents layout m s)
    (isForking : p ∈ s.forkqueue) :
    ∃ m', m.onLinks (·.listMoveTail (.list p) .readyqueue) = .ok m' ∧
      Represents layout m' { s with
        forkqueue := s.forkqueue.erase p
        readyqueue := s.readyqueue ++ [p] } := by
  have alive := represents.alive (not_detached_of_forking isForking)
  have nodup := represents.nodup .forkqueue rfl
  obtain ⟨front, back, split, erased⟩ := erase_split nodup isForking
  have isRing : layout.rings s .forkqueue =
      some (front.map .list ++ .list p :: back.map .list) := by
    simp [Layout.rings, split]
  have same {q : Fin n} : (q ∉ s.forkqueue.erase p ∧ q ∉ s.readyqueue ++ [p]) ↔
      q ∉ s.forkqueue ∧ q ∉ s.readyqueue := by
    by_cases isP : q = p
    · subst isP
      simp [isForking]
    · simp [List.mem_erase_of_ne isP, isP]
  have other (q : Fin n) : ({ s with forkqueue := s.forkqueue.erase p
                                     readyqueue := s.readyqueue ++ [p] } :
      Sim n).detached q ↔ s.detached q := by
    rw [Sim.detached, Sim.detached, ← and_assoc, ← and_assoc, same]
  refine represents.relink (represents.arranged.listMoveTail isRing rfl
    (by simp)) ?_ rfl fun q freed => (other q).mpr (represents.linked q freed)
  funext node
  cases node with
  | list q =>
      rw [rings_congr (other q)]
      simp
  | forkqueue => simp [Layout.rings, erased]
  | _ => simp [Layout.rings]

/-! ### Entries -/

/-- The layout with other entries for the process `c`. -/
def Layout.withEntries (layout : Layout n) (c : Fin n)
    (wants holds : List (Nat × ResourceSchedule)) : Layout n :=
  { layout with
    wants := Function.update layout.wants c wants
    holds := Function.update layout.holds c holds }

variable {c : Fin n} {entry : Nat × ResourceSchedule}
  {wants holds front back : List (Nat × ResourceSchedule)}

theorem rings_withEntries (alive : layout.freed c = false)
    (wants holds : List (Nat × ResourceSchedule)) :
    (layout.withEntries c wants holds).rings s =
      Function.update (Function.update (layout.rings s) (.resourcesToAcquire c)
        (some (scheduleNodes c wants))) (.resourcesHolding c)
        (some (scheduleNodes c holds)) := by
  funext node
  cases node with
  | resourcesToAcquire p =>
      by_cases isC : p = c
      · subst isC
        simp [Layout.rings, Layout.withEntries, alive]
      · simp [Layout.rings, Layout.withEntries, isC]
  | resourcesHolding p =>
      by_cases isC : p = c
      · subst isC
        simp [Layout.rings, Layout.withEntries, alive]
      · simp [Layout.rings, Layout.withEntries, isC]
  | list p =>
      rw [Function.update_of_ne (by simp), Function.update_of_ne (by simp)]
      rfl
  | _ => simp [Layout.rings]

/-- The entries of one process are not mixed up. -/
theorem Represents.distinct (represents : Represents layout m s)
    (alive : layout.freed c = false) :
    ((layout.wants c ++ layout.holds c).map Prod.fst).Nodup := by
  have isWants : layout.rings s (.resourcesToAcquire c) =
      some (scheduleNodes c (layout.wants c)) := by simp [Layout.rings, alive]
  have isHolds : layout.rings s (.resourcesHolding c) =
      some (scheduleNodes c (layout.holds c)) := by simp [Layout.rings, alive]
  have nodes : (scheduleNodes c (layout.wants c ++ layout.holds c)).Nodup := by
    rw [scheduleNodes, List.map_append]
    refine List.Nodup.append
      (List.nodup_cons.mp (represents.arranged.nodup _ _ isWants)).2
      (List.nodup_cons.mp (represents.arranged.nodup _ _ isHolds)).2 ?_
    intro node inWants inHolds
    exact represents.arranged.disjoint _ _ _ _ isWants isHolds (by simp) node
      (List.mem_cons_of_mem _ inWants) (List.mem_cons_of_mem _ inHolds)
  refine List.Nodup.of_map (Node.schedule c) ?_
  rw [List.map_map]
  exact nodes

/-- The memory of the entries of `c` has changed. -/
theorem Represents.reenter (represents : Represents layout m s) {m' : Memory n}
    (alive : layout.freed c = false)
    (arranged : Arranged m'.links (Function.update (Function.update
      (layout.rings s) (.resourcesToAcquire c) (some (scheduleNodes c wants)))
      (.resourcesHolding c) (some (scheduleNodes c holds))))
    (here : ∀ i rs, m'.schedules c i = some rs ↔ (i, rs) ∈ wants ++ holds)
    (elsewhere : ∀ p ≠ c, m'.schedules p = m.schedules p)
    (same : m' = { m with links := m'.links, schedules := m'.schedules }) :
    Represents (layout.withEntries c wants holds) m' s where
  fields := by rw [same]; exact represents.fields
  entries := by
    intro p i rs
    by_cases isC : p = c
    · subst isC
      simp only [Layout.withEntries, Function.update_self]
      exact here i rs
    · simp only [Layout.withEntries, Function.update_of_ne isC]
      rw [elsewhere p isC]
      exact represents.entries p i rs
  current := by rw [same]; exact represents.current
  ticks := by rw [same]; exact represents.ticks
  owner := by rw [same]; exact represents.owner
  stderr := by rw [same]; exact represents.stderr
  arranged := by
    rw [rings_withEntries alive]
    exact arranged
  linked := represents.linked
  owned := represents.owned

theorem Represents.moveSchedule (represents : Represents layout m s)
    (alive : layout.freed c = false)
    (wantsEq : layout.wants c = front ++ entry :: back) :
    ∃ m', m.onLinks (·.listMoveTail (.schedule c entry.1) (.resourcesHolding c)) =
        .ok m' ∧
      Represents (layout.withEntries c (front ++ back)
        (layout.holds c ++ [entry])) m' s := by
  have isWants : layout.rings s (.resourcesToAcquire c) = some
      (scheduleNodes c front ++ .schedule c entry.1 :: scheduleNodes c back) := by
    simp [Layout.rings, alive, wantsEq, scheduleNodes]
  have isHolds : layout.rings s (.resourcesHolding c) =
      some (scheduleNodes c (layout.holds c)) := by simp [Layout.rings, alive]
  obtain ⟨links, moved, arranged⟩ :=
    represents.arranged.listMoveTail isWants isHolds (by simp)
  refine ⟨{ m with links := links }, by rw [Memory.onLinks, moved],
    represents.reenter alive ?_ (fun i rs => ?_) (fun p _ => rfl) rfl⟩
  · simpa [scheduleNodes] using arranged
  · refine (represents.entries c i rs).trans ?_
    rw [wantsEq]
    simp only [List.mem_append, List.mem_cons, List.not_mem_nil]
    tauto

theorem schedules_putSchedule (m : Memory n) (c : Fin n) (i j : Nat)
    (content : Option ResourceSchedule) :
    (m.putSchedule c i content).schedules c j =
      if j = i then content else m.schedules c j := by
  simp [Memory.putSchedule, Function.update_apply]

theorem schedules_putSchedule_of_ne (m : Memory n) {p c : Fin n} (ne : p ≠ c)
    (i : Nat) (content : Option ResourceSchedule) :
    (m.putSchedule c i content).schedules p = m.schedules p := by
  simp [Memory.putSchedule, ne]

/-- No other entry of `c` has the number of this one. -/
theorem Represents.number_ne (represents : Represents layout m s)
    (alive : layout.freed c = false)
    (holdsEq : layout.holds c = front ++ entry :: back)
    {other : Nat × ResourceSchedule}
    (member : other ∈ layout.wants c ++ (front ++ back)) :
    other.1 ≠ entry.1 := by
  have distinct := represents.distinct alive
  rw [holdsEq] at distinct
  have perm : (layout.wants c ++ (front ++ entry :: back)).Perm
      (entry :: (layout.wants c ++ (front ++ back))) := by
    rw [← List.append_assoc, ← List.append_assoc]
    exact List.perm_middle
  have nodup := (perm.map Prod.fst).nodup_iff.mp distinct
  rw [List.map_cons, List.nodup_cons] at nodup
  intro same
  exact nodup.1 (same ▸ List.mem_map_of_mem member)

/-- The other entries of `c`. -/
theorem mem_others (represents : Represents layout m s)
    (holdsEq : layout.holds c = front ++ entry :: back) (i : Nat)
    (content : Option ResourceSchedule) (rs : ResourceSchedule) :
    (if i = entry.1 then content else m.schedules c i) = some rs ↔
      if i = entry.1 then content = some rs
      else (i, rs) ∈ layout.wants c ++ (front ++ back) := by
  split
  · rfl
  · rename_i other
    rw [represents.entries, holdsEq]
    have ne : (i, rs) ≠ entry := fun same => other (congrArg Prod.fst same)
    simp [ne]

/-- `--rs->duration`, or any other change of an entry that is held. -/
theorem Represents.putSchedule (represents : Represents layout m s)
    (alive : layout.freed c = false)
    (holdsEq : layout.holds c = front ++ entry :: back)
    (content : ResourceSchedule) :
    Represents (layout.withEntries c (layout.wants c)
      (front ++ (entry.1, content) :: back))
      (m.putSchedule c entry.1 (some content)) s := by
  refine represents.reenter alive ?_ (fun i rs => ?_)
    (fun p ne => schedules_putSchedule_of_ne m ne _ _) rfl
  · have nodes : scheduleNodes c (front ++ (entry.1, content) :: back) =
        scheduleNodes c (layout.holds c) := by
      rw [holdsEq]
      simp [scheduleNodes]
    rw [nodes, ← rings_withEntries alive]
    have same : layout.withEntries c (layout.wants c) (layout.holds c) =
        layout := by
      simp [Layout.withEntries]
    rw [same]
    exact represents.arranged
  · rw [schedules_putSchedule, mem_others represents holdsEq]
    by_cases isEntry : i = entry.1
    · have notOther (inOthers : (i, rs) ∈ layout.wants c ++ (front ++ back)) :
          False := represents.number_ne alive holdsEq inOthers isEntry
      simp only [isEntry, if_true, Option.some.injEq, List.mem_append,
        List.mem_cons, Prod.mk.injEq, true_and] at notOther ⊢
      constructor
      · rintro rfl
        exact Or.inr (Or.inr (Or.inl rfl))
      · grind
    · simp only [isEntry, if_false, List.mem_append, List.mem_cons,
        Prod.mk.injEq, false_and, false_or]

theorem Represents.dropSchedule (represents : Represents layout m s)
    (alive : layout.freed c = false)
    (holdsEq : layout.holds c = front ++ entry :: back) :
    ∃ m', m.onLinks (·.listDel (.schedule c entry.1)) = .ok m' ∧
      Represents (layout.withEntries c (layout.wants c) (front ++ back))
        (InMemory.freeSchedule c entry.1 m') s := by
  have isHolds : layout.rings s (.resourcesHolding c) = some
      (scheduleNodes c front ++ .schedule c entry.1 :: scheduleNodes c back) := by
    simp [Layout.rings, alive, holdsEq, scheduleNodes]
  obtain ⟨links, deleted, arranged⟩ := represents.arranged.listDel isHolds
  refine ⟨{ m with links := links }, by rw [Memory.onLinks, deleted],
    represents.reenter alive ?_ (fun i rs => ?_)
      (fun p ne => schedules_putSchedule_of_ne _ ne _ _) rfl⟩
  · have isWants : some (scheduleNodes c (layout.wants c)) =
        layout.rings s (.resourcesToAcquire c) := by simp [Layout.rings, alive]
    rw [isWants, Function.update_eq_self, scheduleNodes, List.map_append]
    exact arranged
  · have content : (InMemory.freeSchedule c entry.1
        { m with links := links }).schedules c i =
          if i = entry.1 then none else m.schedules c i :=
      schedules_putSchedule m c entry.1 i none
    rw [content, mem_others represents holdsEq]
    by_cases isEntry : i = entry.1
    · simp only [if_pos isEntry, reduceCtorEq, false_iff]
      exact fun inOthers => represents.number_ne alive holdsEq inOthers isEntry
    · rw [if_neg isEntry]

/-! ### Structures that come and go -/

/-- The layout with the process `c` freed. -/
def Layout.without (layout : Layout n) (c : Fin n) : Layout n :=
  { layout with freed := Function.update layout.freed c true }

theorem Represents.freeProcess (represents : Represents layout m s)
    (detached : s.detached c) (alive : layout.freed c = false)
    (noWants : layout.wants c = []) (noHolds : layout.holds c = [])
    (ownsNothing : ∀ r, s.owner r ≠ some c) :
    Represents (layout.without c) (InMemory.freeProcess c m) s where
  fields := by
    intro p
    by_cases isC : p = c
    · subst isC
      simp [InMemory.freeProcess, Layout.without]
    · simp [InMemory.freeProcess, Layout.without, isC, represents.fields p]
  entries := represents.entries
  current := represents.current
  ticks := represents.ticks
  owner := represents.owner
  stderr := represents.stderr
  arranged := by
    have first := represents.arranged.free (rings_detached detached alive)
    have second := first.free (e := .resourcesToAcquire c)
      (by simp [Layout.rings, alive, noWants, scheduleNodes])
    have third := second.free (e := .resourcesHolding c)
      (by simp [Layout.rings, alive, noHolds, scheduleNodes])
    have ringsEq : (layout.without c).rings s = Function.update
        (Function.update (Function.update (layout.rings s) (.list c) none)
          (.resourcesToAcquire c) none) (.resourcesHolding c) none := by
      funext node
      cases node with
      | list p =>
          by_cases isC : p = c
          · subst isC
            simp [Layout.rings, Layout.without]
          · simp [Layout.rings, Layout.without, isC]
      | resourcesToAcquire p =>
          by_cases isC : p = c
          · subst isC
            simp [Layout.rings, Layout.without]
          · simp [Layout.rings, Layout.without, isC]
      | resourcesHolding p =>
          by_cases isC : p = c
          · subst isC
            simp [Layout.rings, Layout.without]
          · simp [Layout.rings, Layout.without, isC]
      | _ => simp [Layout.rings]
    rw [ringsEq]
    exact third
  linked := by
    intro p freed
    by_cases isC : p = c
    · rw [isC]
      exact detached
    · exact represents.linked p (by simpa [Layout.without, isC] using freed)
  owned := by
    intro r p owns
    have isC : p ≠ c := by
      rintro rfl
      exact ownsNothing r owns
    simpa [Layout.without, isC] using represents.owned r p owns

end Access

end OsPAs.Sched
