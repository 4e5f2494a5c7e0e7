/-
Module: OsPAs.Sched.MemoryLoad
Purpose: What `__initialize` and `__load_script` build in memory stands for the
  initial state of the simulator.
Trusted boundary: none
Main exports: numbered, Layout.loaded, Represents.newProcess,
  Represents.newSchedule, Represents.linkFork, load_represents
-/
import OsPAs.Sched.Layout

namespace OsPAs.Sched

open Lib

variable {n : Nat}

/-! ### The list heads -/

/-- Among the globals, `heads` are initialized. -/
structure HeadsBuilt (heads : List (Node n)) (m : Memory n) : Prop where
  arranged : Arranged m.links fun head => if head ∈ heads then some [] else none
  alive : ∀ node, (InMemory.globals.links node).isSome → (m.links node).isSome
  same : m = { InMemory.globals with links := m.links }

theorem HeadsBuilt.initListHead {heads : List (Node n)} {m : Memory n}
    (built : HeadsBuilt heads m) (head : Node n) (isNew : head ∉ heads)
    (isGlobal : (InMemory.globals.links head).isSome) :
    ∃ m', m.onLinks (·.initListHead head) = .ok m' ∧
      HeadsBuilt (head :: heads) m' := by
  have unlinked : Unlinked m.links
      (fun head => if head ∈ heads then some [] else none) head := by
    refine ⟨built.alive head isGlobal, fun other xs isRing => ?_⟩
    split at isRing
    · rename_i isHead
      rw [← Option.some.inj isRing, List.mem_singleton]
      rintro rfl
      exact isNew isHead
    · simp at isRing
  obtain ⟨links, done, arranged, alive⟩ := built.arranged.init unlinked
  refine ⟨{ m with links := links }, by rw [Memory.onLinks, done], ?_,
    fun node isSome => by rw [alive, built.alive node isSome], ?_⟩
  · have ringsEq : (fun other => if other ∈ head :: heads then some [] else none) =
        Function.update (fun other : Node n =>
          if other ∈ heads then some ([] : List (Node n)) else none) head
          (some []) := by
      funext other
      by_cases isHead : other = head
      · subst isHead
        simp
      · simp [isHead]
    rw [ringsEq]
    exact arranged
  · rw [built.same]

theorem HeadsBuilt.initWaitqueues (resources : List (Fin nrResources))
    (nodup : resources.Nodup) {heads : List (Node n)} {m : Memory n}
    (built : HeadsBuilt heads m)
    (areNew : ∀ r ∈ resources, .waitqueue r ∉ heads) :
    ∃ m', resources.foldlM (fun m r =>
        (m.setOwner r none).onLinks (·.initListHead (.waitqueue r))) m = .ok m' ∧
      HeadsBuilt ((resources.map .waitqueue).reverse ++ heads) m' := by
  induction resources generalizing heads m with
  | nil => exact ⟨m, rfl, built⟩
  | cons r rest inductionHypothesis =>
      obtain ⟨fresh, nodupRest⟩ := List.nodup_cons.mp nodup
      have unowned : m.setOwner r none = m := by
        rw [Memory.setOwner, built.same]
        simp [InMemory.globals]
      obtain ⟨m₁, done, built₁⟩ :=
        built.initListHead _ (areNew r List.mem_cons_self) rfl
      obtain ⟨m₂, ran, built₂⟩ := inductionHypothesis nodupRest built₁
        fun r' member => by
          have ne : r' ≠ r := by
            rintro rfl
            exact fresh member
          simpa [ne] using areNew r' (List.mem_cons_of_mem r member)
      refine ⟨m₂, ?_, ?_⟩
      · rw [List.foldlM_cons, unowned, done]
        exact ran
      · simpa using built₂

/-- The state before the first block has been read. -/
def unloaded (script : List ProcessBlock) : Sim script.length :=
  { load script with forkqueue := [] }

/-- Nothing is on the heap. -/
def Layout.bare : Layout n :=
  { wants := fun _ => []
    holds := fun _ => []
    freed := fun _ => true }

theorem initializeLists_runs (script : List ProcessBlock) :
    ∃ m, InMemory.initializeLists InMemory.globals = .ok m ∧
      Represents Layout.bare m (unloaded script) := by
  have nothing : HeadsBuilt [] (InMemory.globals : Memory script.length) :=
    ⟨⟨by simp, by simp, by simp⟩, fun _ isSome => isSome, rfl⟩
  obtain ⟨m₁, first, built₁⟩ :=
    nothing.initListHead .readyqueue (by simp) rfl
  obtain ⟨m₂, second, built₂⟩ := built₁.initWaitqueues
    (List.finRange nrResources) (List.nodup_finRange _) (by simp)
  obtain ⟨m, third, built⟩ :=
    built₂.initListHead .forkqueue (by simp) rfl
  refine ⟨m, ?_, ?_⟩
  · simp only [InMemory.initializeLists, first, second, bind, Except.bind]
    exact third
  rw [built.same]
  exact {
    fields := fun _ => rfl
    entries := by simp [InMemory.globals, Layout.bare]
    current := rfl
    ticks := rfl
    owner := rfl
    stderr := rfl
    arranged := by
      have ringsEq : Layout.bare.rings (unloaded script) = fun head =>
          if head ∈ Node.forkqueue ::
            (((List.finRange nrResources).map Node.waitqueue).reverse ++
              [.readyqueue]) then some [] else none := by
        funext head
        cases head <;>
          simp [Layout.rings, Layout.bare, unloaded, load]
      rw [ringsEq]
      exact built.arranged
    linked := by simp [unloaded, load, Sim.detached]
    owned := by simp [unloaded, load] }

/-! ### Blocks -/

section Blocks

variable {layout : Layout n} {m : Memory n} {s : Sim n} {p : Fin n}

/-- What is in a list: a process that is linked, or an entry. -/
theorem mem_rings {head node : Node n} {xs : List (Node n)}
    (isRing : layout.rings s head = some xs) (member : node ∈ xs) :
    (∃ q, node = .list q ∧ ¬ s.detached q) ∨
      ∃ q i rs, node = .schedule q i ∧
        (i, rs) ∈ layout.wants q ++ layout.holds q := by
  rw [Layout.rings.eq_def] at isRing
  split at isRing
  · rw [← Option.some.inj isRing] at member
    obtain ⟨q, isReady, rfl⟩ := List.mem_map.mp member
    exact Or.inl ⟨q, rfl, not_detached_of_ready isReady⟩
  · rw [← Option.some.inj isRing] at member
    obtain ⟨q, isForking, rfl⟩ := List.mem_map.mp member
    exact Or.inl ⟨q, rfl, not_detached_of_forking isForking⟩
  · rw [← Option.some.inj isRing] at member
    obtain ⟨q, isWaiting, rfl⟩ := List.mem_map.mp member
    exact Or.inl ⟨q, rfl, not_detached_of_waiting isWaiting⟩
  · split at isRing
    · rw [← Option.some.inj isRing] at member
      simp at member
    · simp at isRing
  · split at isRing
    · simp at isRing
    · rw [← Option.some.inj isRing] at member
      obtain ⟨⟨i, rs⟩, inWants, rfl⟩ := List.mem_map.mp member
      exact Or.inr ⟨_, i, rs, rfl, List.mem_append_left _ inWants⟩
  · split at isRing
    · simp at isRing
    · rw [← Option.some.inj isRing] at member
      obtain ⟨⟨i, rs⟩, inHolds, rfl⟩ := List.mem_map.mp member
      exact Or.inr ⟨_, i, rs, rfl, List.mem_append_right _ inHolds⟩
  · simp at isRing

/-- The list heads of a process that is not in memory. -/
theorem Represents.fresh_of_freed (represents : Represents layout m s)
    (freed : layout.freed p = true) {node : Node n}
    (isOwn : node ∈ [.list p, .resourcesToAcquire p, .resourcesHolding p])
    (head : Node n) (xs : List (Node n))
    (isRing : layout.rings s head = some xs) : node ∉ head :: xs := by
  intro member
  rcases List.mem_cons.mp member with rfl | member
  · simp only [List.mem_cons, List.not_mem_nil, or_false] at isOwn
    rcases isOwn with rfl | rfl | rfl <;> simp [Layout.rings, freed] at isRing
  · rcases mem_rings isRing member with ⟨q, rfl, isLinked⟩ | ⟨q, i, rs, rfl, _⟩
    · obtain rfl : q = p := by simpa using isOwn
      exact isLinked (represents.linked q freed)
    · simp at isOwn

/-- The layout with the process `c` in memory. -/
def Layout.withProcess (layout : Layout n) (c : Fin n) : Layout n :=
  { layout with freed := Function.update layout.freed c false }

theorem Represents.newProcess (represents : Represents layout m s)
    (freed : layout.freed p = true) (noWants : layout.wants p = [])
    (noHolds : layout.holds p = []) {block : ProcessBlock}
    (isProcess : block.process = s.procs p) :
    ∃ m', InMemory.newProcess p block m = .ok m' ∧
      Represents (layout.withProcess p) m' s := by
  have fresh {node : Node n}
      (isOwn : node ∈ [.list p, .resourcesToAcquire p, .resourcesHolding p]) :=
    represents.fresh_of_freed freed isOwn
  obtain ⟨arranged₁, list₁⟩ := represents.arranged.alloc (e := .list p)
    (fresh (by simp))
  obtain ⟨arranged₂, wants₂⟩ := arranged₁.alloc (e := .resourcesToAcquire p)
    (fresh (by simp))
  obtain ⟨arranged₃, holds₃⟩ := arranged₂.alloc (e := .resourcesHolding p)
    (fresh (by simp))
  obtain ⟨links₄, init₄, arranged₄, alive₄⟩ :=
    arranged₃.init ((list₁.alloc _).alloc _)
  obtain ⟨links₅, init₅, arranged₅, alive₅⟩ :=
    arranged₄.init ((wants₂.alloc _).keep (by simp) alive₄)
  obtain ⟨links₆, init₆, arranged₆, _⟩ :=
    arranged₅.init ((holds₃.keep (by simp) alive₄).keep (by simp) alive₅)
  refine ⟨{ m with
      procs := Function.update m.procs p (some (InMemory.fieldsOf (s.procs p)))
      links := links₆ }, ?_, ?_⟩
  · simp only [InMemory.newProcess, Memory.onLinks, init₄, init₅, init₆,
      isProcess, bind, Except.bind]
  exact {
    fields := by
      intro q
      by_cases isP : q = p
      · subst isP
        simp [Layout.withProcess]
      · simp [Layout.withProcess, isP, represents.fields q]
    entries := represents.entries
    current := represents.current
    ticks := represents.ticks
    owner := represents.owner
    stderr := represents.stderr
    arranged := by
      have ringsEq : (layout.withProcess p).rings s = Function.update
          (Function.update (Function.update (layout.rings s) (.list p) (some []))
            (.resourcesToAcquire p) (some [])) (.resourcesHolding p)
            (some []) := by
        funext node
        cases node with
        | list q =>
            by_cases isP : q = p
            · subst isP
              simp [Layout.rings, Layout.withProcess, represents.linked q freed]
            · simp [Layout.rings, Layout.withProcess, isP]
        | resourcesToAcquire q =>
            by_cases isP : q = p
            · subst isP
              simp [Layout.rings, Layout.withProcess, noWants, scheduleNodes]
            · simp [Layout.rings, Layout.withProcess, isP]
        | resourcesHolding q =>
            by_cases isP : q = p
            · subst isP
              simp [Layout.rings, Layout.withProcess, noHolds, scheduleNodes]
            · simp [Layout.rings, Layout.withProcess, isP]
        | _ => simp [Layout.rings]
      rw [ringsEq]
      exact arranged₆
    linked := by
      intro q isFreed
      by_cases isP : q = p
      · rw [isP]
        exact represents.linked p freed
      · exact represents.linked q (by simpa [Layout.withProcess, isP] using isFreed)
    owned := by
      intro r q owns
      by_cases isP : q = p
      · simp [Layout.withProcess, isP]
      · simpa [Layout.withProcess, isP] using represents.owned r q owns }

theorem Represents.newSchedule (represents : Represents layout m s)
    (alive : layout.freed p = false) (line : AcquireLine × Nat)
    (isNew : ∀ rs, (line.2, rs) ∉ layout.wants p ++ layout.holds p) :
    ∃ m', InMemory.newSchedule p m line = .ok m' ∧
      Represents (layout.withEntries p
        (layout.wants p ++ [(line.2, line.1.schedule)]) (layout.holds p)) m' s := by
  have isWants : layout.rings s (.resourcesToAcquire p) =
      some (scheduleNodes p (layout.wants p)) := by simp [Layout.rings, alive]
  have isHolds : layout.rings s (.resourcesHolding p) =
      some (scheduleNodes p (layout.holds p)) := by simp [Layout.rings, alive]
  have fresh (head : Node n) (xs : List (Node n))
      (isRing : layout.rings s head = some xs) :
      Node.schedule p line.2 ∉ head :: xs := by
    intro member
    rcases List.mem_cons.mp member with rfl | member
    · simp [Layout.rings] at isRing
    · rcases mem_rings isRing member with ⟨q, same, _⟩ | ⟨q, i, rs, same, entry⟩
      · simp at same
      · obtain ⟨rfl, rfl⟩ := Node.schedule.inj same
        exact isNew rs entry
  obtain ⟨arranged₁, unlinked⟩ := represents.arranged.alloc fresh
  obtain ⟨links, linked, arranged⟩ := arranged₁.link unlinked isWants
  refine ⟨{ m.putSchedule p line.2 (some line.1.schedule) with links := links },
    by simp only [InMemory.newSchedule, Memory.onLinks, linked,
      Memory.putSchedule],
    represents.reenter alive ?_ (fun i rs => ?_)
      (fun q ne => schedules_putSchedule_of_ne m ne _ _) rfl⟩
  · have nodes : scheduleNodes p (layout.wants p) ++ [Node.schedule p line.2] =
        scheduleNodes p (layout.wants p ++ [(line.2, line.1.schedule)]) := by
      simp [scheduleNodes]
    have unchanged : Function.update (Function.update (layout.rings s)
        (.resourcesToAcquire p) (some (scheduleNodes p (layout.wants p) ++
          [Node.schedule p line.2]))) (.resourcesHolding p)
          (some (scheduleNodes p (layout.holds p))) =
        Function.update (layout.rings s) (.resourcesToAcquire p)
          (some (scheduleNodes p (layout.wants p) ++ [Node.schedule p line.2])) :=
      Function.update_eq_self_iff.mpr (by simp [isHolds])
    rw [← nodes, unchanged]
    exact arranged
  · have content : ({ m.putSchedule p line.2 (some line.1.schedule) with
        links := links } : Memory n).schedules p i =
          if i = line.2 then some line.1.schedule else m.schedules p i :=
      schedules_putSchedule m p line.2 i _
    rw [content]
    by_cases isLine : i = line.2
    · have notOther : (i, rs) ∉ layout.wants p ++ layout.holds p := by
        rw [isLine]
        exact isNew rs
      simp only [List.mem_append] at notOther
      rw [if_pos isLine]
      rw [isLine] at notOther ⊢
      simp only [Option.some.injEq, List.mem_append, List.mem_singleton,
        Prod.mk.injEq, true_and]
      grind
    · rw [if_neg isLine, represents.entries]
      simp [isLine]

/-- `list_add_tail(&p->list, &__forkqueue)`. -/
theorem Represents.linkFork (represents : Represents layout m s)
    (detached : s.detached p) (alive : layout.freed p = false) :
    ∃ m', m.onLinks (·.listAddTail (.list p) .forkqueue) = .ok m' ∧
      Represents layout m' { s with forkqueue := s.forkqueue ++ [p] } := by
  refine represents.relink (represents.arranged.listAddTail
    (rings_detached detached alive) rfl (by simp)) ?_ rfl fun q freed => ?_
  · funext node
    cases node with
    | list q =>
        by_cases isP : q = p
        · subst isP
          rw [rings_linked (not_detached_of_forking (by simp))]
          simp
        · rw [rings_congr (s := s) (by simp [Sim.detached, isP])]
          simp [isP]
    | _ => simp [Layout.rings]
  · have isP : q ≠ p := by
      rintro rfl
      simp [alive] at freed
    simpa [Sim.detached, isP] using represents.linked q freed

/-- The lines `acquire` of one block, from the number `k` on. -/
theorem Represents.newSchedules (represents : Represents layout m s)
    (alive : layout.freed p = false) (noHolds : layout.holds p = [])
    (lines : List AcquireLine) (k : Nat)
    (before : ∀ entry ∈ layout.wants p, entry.1 < k) :
    ∃ m', (lines.zipIdx k).foldlM (InMemory.newSchedule p) m = .ok m' ∧
      Represents (layout.withEntries p (layout.wants p ++
        (lines.zipIdx k).map fun line => (line.2, line.1.schedule)) []) m' s := by
  induction lines generalizing layout m k with
  | nil =>
      have same : layout.withEntries p (layout.wants p) [] = layout := by
        rw [Layout.withEntries, Function.update_eq_self, ← noHolds,
          Function.update_eq_self]
      refine ⟨m, rfl, ?_⟩
      rw [List.zipIdx_nil, List.map_nil, List.append_nil, same]
      exact represents
  | cons line lines inductionHypothesis =>
      obtain ⟨m₁, first, represents₁⟩ := represents.newSchedule alive (line, k)
        fun rs member => by
          rw [noHolds, List.append_nil] at member
          exact Nat.lt_irrefl k (before _ member)
      obtain ⟨m', rest, represents'⟩ := inductionHypothesis represents₁
        alive (by simpa [Layout.withEntries] using noHolds) (k + 1)
        fun entry member => by
          simp only [Layout.withEntries, Function.update_self, List.mem_append,
            List.mem_singleton] at member
          rcases member with member | rfl
          · exact Nat.lt_succ_of_lt (before entry member)
          · exact Nat.lt_succ_self k
      refine ⟨m', ?_, ?_⟩
      · rw [List.zipIdx_cons, List.foldlM_cons, first]
        exact rest
      · simpa [Layout.withEntries] using represents'

end Blocks

/-! ### The script -/

/-- The entries that a block makes. -/
def numbered (block : ProcessBlock) : List (Nat × ResourceSchedule) :=
  block.acquires.zipIdx.map fun line => (line.2, line.1.schedule)

/-- The layout once the blocks `done` have been read. -/
def Layout.loaded (script : List ProcessBlock)
    (done : List (Fin script.length)) : Layout script.length :=
  { wants := fun p => if done.contains p then numbered (script.get p) else []
    holds := fun _ => []
    freed := fun p => !done.contains p }

theorem loaded_append {script : List ProcessBlock}
    {done : List (Fin script.length)} {p : Fin script.length} (isNew : p ∉ done) :
    Layout.loaded script (done ++ [p]) =
      ((Layout.loaded script done).withProcess p).withEntries p
        (numbered (script.get p)) [] := by
  simp only [Layout.loaded, Layout.withProcess, Layout.withEntries,
    Layout.mk.injEq]
  refine ⟨?_, ?_, ?_⟩
  · funext q
    by_cases isP : q = p
    · subst isP
      simp
    · simp [isP]
  · funext q
    by_cases isP : q = p
    · subst isP
      simp
    · simp [isP]
  · funext q
    by_cases isP : q = p
    · subst isP
      simp
    · simp [isP]

theorem loadBlock_runs {script : List ProcessBlock}
    {done : List (Fin script.length)} {p : Fin script.length}
    (isNew : p ∉ done) {m : Memory script.length}
    (represents : Represents (Layout.loaded script done) m
      { load script with forkqueue := done }) :
    ∃ m', InMemory.loadBlock script.get m p = .ok m' ∧
      Represents (Layout.loaded script (done ++ [p])) m'
        { load script with forkqueue := done ++ [p] } := by
  have noWants : (Layout.loaded script done).wants p = [] := by
    simp [Layout.loaded, isNew]
  obtain ⟨m₁, made, represents₁⟩ := represents.newProcess (p := p)
    (by simp [Layout.loaded, isNew]) noWants rfl
    (show (script.get p).process = _ from rfl)
  have alive : ((Layout.loaded script done).withProcess p).freed p = false := by
    simp [Layout.withProcess]
  obtain ⟨m₂, entered, represents₂⟩ := represents₁.newSchedules alive rfl
    (script.get p).acquires 0 (by simp [Layout.withProcess, noWants])
  obtain ⟨m', linked, represents'⟩ := represents₂.linkFork (p := p)
    (by simp [Sim.detached, isNew, load]) alive
  refine ⟨m', ?_, ?_⟩
  · simp only [InMemory.loadBlock, made, entered, bind, Except.bind]
    exact linked
  · rw [loaded_append isNew]
    simpa [Layout.withProcess, noWants, numbered] using represents'

theorem loadBlocks_run {script : List ProcessBlock}
    (todo done : List (Fin script.length)) (nodup : (done ++ todo).Nodup)
    {m : Memory script.length}
    (represents : Represents (Layout.loaded script done) m
      { load script with forkqueue := done }) :
    ∃ m', todo.foldlM (InMemory.loadBlock script.get) m = .ok m' ∧
      Represents (Layout.loaded script (done ++ todo)) m'
        { load script with forkqueue := done ++ todo } := by
  induction todo generalizing done m with
  | nil =>
      rw [List.append_nil]
      exact ⟨m, rfl, represents⟩
  | cons p todo inductionHypothesis =>
      have isNew : p ∉ done := by
        intro isDone
        exact (List.nodup_append.mp nodup).2.2 p isDone p List.mem_cons_self rfl
      obtain ⟨m₁, first, represents₁⟩ := loadBlock_runs isNew represents
      rw [List.append_cons] at nodup ⊢
      obtain ⟨m', rest, represents'⟩ :=
        inductionHypothesis (done ++ [p]) nodup represents₁
      refine ⟨m', ?_, represents'⟩
      rw [List.foldlM_cons, first]
      exact rest

/-- The memory at the top of the first pass. -/
theorem load_represents (script : List ProcessBlock) :
    ∃ m, InMemory.load script = .ok m ∧
      Represents (Layout.loaded script (List.finRange script.length)) m
        (load script) := by
  obtain ⟨m₁, built, represents₁⟩ := initializeLists_runs script
  have bare : Layout.loaded script [] = Layout.bare := by
    simp [Layout.loaded, Layout.bare]
  rw [← bare] at represents₁
  obtain ⟨m, read, represents⟩ := loadBlocks_run (List.finRange script.length)
    [] (List.nodup_finRange _) represents₁
  refine ⟨m, ?_, represents⟩
  simp only [InMemory.load, built, bind, Except.bind]
  exact read

end OsPAs.Sched
