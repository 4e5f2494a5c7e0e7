/-
Module: OsPAs.Vm.Forks
Purpose: What the fork in `switch_process` does, with fresh memory zero-filled:
  parent and child share every page, read-only, and every shared page counts
  once more.
Trusted boundary: none
Main exports: Pte.share, Pte.child, Forks, fork_runs, Moved, switchKernel_runs
-/
import OsPAs.Vm.Steps

namespace OsPAs.Vm

open Lib

variable {env : Env} {k k' : Kernel} {pid : Nat}

/-- A PTE of the parent after the fork. -/
def Pte.share (pte : Pte) : Pte :=
  if pte.valid then
    { pte with
      priv := if pte.rw = accessWrite then pte.rw else pte.priv
      rw := accessRead }
  else pte

/-- The PTE of the child for a PTE of the parent. -/
def Pte.child (pte : Pte) : Pte := if pte.valid then pte.share else zeroPte

theorem Pte.share_valid (pte : Pte) : pte.share.valid = pte.valid := by
  unfold Pte.share
  split
  · rfl
  · rfl

theorem Pte.share_pfn (pte : Pte) : pte.share.pfn = pte.pfn := by
  unfold Pte.share
  split
  · rfl
  · rfl

theorem Pte.child_valid (pte : Pte) : pte.child.valid = pte.valid := by
  unfold Pte.child
  split
  · exact pte.share_valid
  · rename_i invalid
    exact (Bool.eq_false_iff.mpr invalid).symm

theorem Pte.child_of_valid {pte : Pte} (valid : pte.valid = true) :
    pte.child = pte.share :=
  if_pos valid

theorem Pte.maps_share {pte : Pte} {x : Fin nrPageframes} :
    pte.share.Maps x ↔ pte.Maps x := by
  unfold Pte.Maps
  rw [pte.share_valid, pte.share_pfn]

theorem Pte.count_share (pte : Pte) (x : Fin nrPageframes) :
    pte.share.count x = pte.count x :=
  if_congr Pte.maps_share rfl rfl

theorem Pte.count_child (pte : Pte) (x : Fin nrPageframes) :
    pte.child.count x = pte.count x := by
  by_cases valid : pte.valid = true
  · rw [Pte.child_of_valid valid, pte.count_share]
  · simp [Pte.count, Pte.Maps, Pte.child_valid, valid]

/-! ### The inner loop -/

section Inner

variable {m m' : Mapcounts} {pd pd' nxtpd nxtpd' : Directory}
  {j : Fin nrPtesPerPage}

/-- What the inner loop of the fork has done once it has visited `visited`. -/
structure SharedPtes (visited : List (Fin nrPtesPerPage)) (m : Mapcounts)
    (pd nxtpd : Directory) (m' : Mapcounts) (pd' nxtpd' : Directory) :
    Prop where
  counts : ∀ x, m' x = toUInt (m x + (visited.map fun j => (pd j).count x).sum)
  parent : ∀ j, pd' j = if j ∈ visited then (pd j).share else pd j
  child : ∀ j, nxtpd' j =
    if j ∈ visited ∧ (pd j).valid = true then (pd j).share else nxtpd j

theorem toUInt_toUInt_add (a b : Nat) : toUInt (toUInt a + b) = toUInt (a + b) :=
  Nat.mod_add_mod a (2 ^ 32) b

theorem forkPte_of_invalid (invalid : ¬ (pd j).valid = true) :
    forkPte (m, pd, nxtpd) j = .ok (m, pd, nxtpd) := by
  unfold forkPte
  exact if_neg invalid

theorem forkPte_of_valid {pfnum : Fin nrPageframes}
    (valid : (pd j).valid = true) (isFrame : (pd j).pfn = pfnum.val) :
    forkPte (m, pd, nxtpd) j = .ok
      (Function.update m pfnum (toUInt (m pfnum + 1)),
        Function.update pd j (pd j).share,
        Function.update nxtpd j (pd j).share) := by
  unfold forkPte Pte.share
  simp only [valid, if_true, frame_eq_ok.mpr isFrame, bind, Except.bind, pure,
    Except.pure]

theorem Pte.count_of_frame {pte : Pte} {pfnum : Fin nrPageframes}
    (valid : pte.valid = true) (isFrame : pte.pfn = pfnum.val)
    (x : Fin nrPageframes) : pte.count x = if x = pfnum then 1 else 0 := by
  simp only [Pte.count, Pte.Maps, valid, isFrame, true_and, Fin.ext_iff]
  by_cases same : x.val = pfnum.val
  · simp [same]
  · simp [same, Ne.symm same]

theorem Pte.count_of_invalid {pte : Pte} (invalid : ¬ pte.valid = true)
    (x : Fin nrPageframes) : pte.count x = 0 :=
  if_neg fun maps => invalid maps.1

theorem forkPtes_run (visited : List (Fin nrPtesPerPage))
    (nodup : visited.Nodup) (m : Mapcounts) (pd nxtpd : Directory)
    (inside : ∀ j ∈ visited, (pd j).valid = true → (pd j).pfn < nrPageframes)
    (small : ∀ x, m x < 2 ^ 32) :
    ∃ m' pd' nxtpd',
      visited.foldlM forkPte (m, pd, nxtpd) = .ok (m', pd', nxtpd') ∧
        SharedPtes visited m pd nxtpd m' pd' nxtpd' := by
  induction visited generalizing m pd nxtpd with
  | nil =>
      refine ⟨m, pd, nxtpd, rfl, ?_, by simp, by simp⟩
      intro x
      rw [List.map_nil, List.sum_nil, Nat.add_zero, toUInt_of_lt (small x)]
  | cons j rest inductionHypothesis =>
      obtain ⟨notRest, nodupRest⟩ := List.nodup_cons.mp nodup
      have insideRest : ∀ i ∈ rest, (pd i).valid = true →
          (pd i).pfn < nrPageframes :=
        fun i member => inside i (List.mem_cons_of_mem j member)
      by_cases valid : (pd j).valid = true
      · obtain ⟨pfnum, isFrame⟩ : ∃ pfnum : Fin nrPageframes,
            (pd j).pfn = pfnum.val :=
          ⟨⟨_, inside j List.mem_cons_self valid⟩, rfl⟩
        have untouched {i : Fin nrPtesPerPage} (member : i ∈ rest) :
            Function.update pd j (pd j).share i = pd i := by
          apply Function.update_of_ne
          rintro rfl
          exact notRest member
        obtain ⟨m', pd', nxtpd', ran, shared⟩ := inductionHypothesis nodupRest
          (Function.update m pfnum (toUInt (m pfnum + 1)))
          (Function.update pd j (pd j).share)
          (Function.update nxtpd j (pd j).share)
          (fun i member => by
            rw [untouched member]
            exact insideRest i member)
          (small_update small (toUInt_lt _))
        refine ⟨m', pd', nxtpd', ?_, ?_, ?_, ?_⟩
        · rw [List.foldlM_cons, forkPte_of_valid valid isFrame]
          exact ran
        · intro x
          have sameSum : (rest.map fun i =>
              (Function.update pd j (pd j).share i).count x).sum =
              (rest.map fun i => (pd i).count x).sum := by
            refine congrArg List.sum (List.map_congr_left fun i member => ?_)
            rw [untouched member]
          rw [shared.counts, sameSum, List.map_cons, List.sum_cons,
            Pte.count_of_frame valid isFrame, Function.update_apply]
          by_cases hit : x = pfnum
          · subst hit
            rw [if_pos rfl, if_pos rfl, toUInt_toUInt_add, Nat.add_assoc]
          · rw [if_neg hit, if_neg hit, Nat.zero_add]
        · intro i
          rw [shared.parent]
          by_cases same : i = j
          · subst same
            rw [if_neg notRest, if_pos List.mem_cons_self, Function.update_self]
          · simp only [List.mem_cons, same, false_or,
              Function.update_of_ne same]
        · intro i
          rw [shared.child]
          by_cases same : i = j
          · subst same
            simp [notRest, valid]
          · simp only [List.mem_cons, same, false_or,
              Function.update_of_ne same]
      · obtain ⟨m', pd', nxtpd', ran, shared⟩ :=
          inductionHypothesis nodupRest m pd nxtpd insideRest small
        refine ⟨m', pd', nxtpd', ?_, ?_, ?_, ?_⟩
        · rw [List.foldlM_cons, forkPte_of_invalid valid]
          exact ran
        · intro x
          rw [shared.counts, List.map_cons, List.sum_cons,
            Pte.count_of_invalid valid, Nat.zero_add]
        · intro i
          rw [shared.parent]
          by_cases same : i = j
          · subst same
            rw [if_neg notRest, if_pos List.mem_cons_self, Pte.share,
              if_neg valid]
          · simp only [List.mem_cons, same, false_or]
        · intro i
          rw [shared.child]
          by_cases same : i = j
          · subst same
            simp [notRest, valid]
          · simp only [List.mem_cons, same, false_or]

end Inner

/-! ### The outer loop -/

section OuterLoop

variable {nxt nxt' : Process}

/-- What the outer loop of the fork has done once it has visited `visited`. -/
structure SharedTables (visited : List (Fin nrPtesPerPage)) (k : Kernel)
    (nxt : Process) (k' : Kernel) (nxt' : Process) : Prop where
  counts : ∀ x, k'.mapcounts x = toUInt (k.mapcounts x +
    (visited.map fun i => ∑ j, (k.current.entry (i, j)).count x).sum)
  parent : ∀ i j, k'.current.entry (i, j) =
    if i ∈ visited then (k.current.entry (i, j)).share
    else k.current.entry (i, j)
  child : ∀ i j, nxt'.entry (i, j) =
    if i ∈ visited then (k.current.entry (i, j)).child else nxt.entry (i, j)
  wild : ∀ i, k'.current.outerPtes i = .wild → k.current.outerPtes i = .wild
  childWild : ∀ i, nxt'.outerPtes i = .wild → nxt.outerPtes i = .wild
  others : ∀ i, i ∉ visited → k'.current.outerPtes i = k.current.outerPtes i
  childOthers : ∀ i, i ∉ visited → nxt'.outerPtes i = nxt.outerPtes i
  pid : k'.current.pid = k.current.pid
  childPid : nxt'.pid = nxt.pid
  processes : k'.processes = k.processes

theorem forkDirectory_of_null {i : Fin nrPtesPerPage}
    (isNull : k.current.outerPtes i = .null) :
    forkDirectory env (k, nxt) i = .ok (k, nxt) := by
  simp only [forkDirectory, isNull]

theorem Process.entry_of_null {p : Process} {i : Fin nrPtesPerPage}
    (isNull : p.outerPtes i = .null) (j : Fin nrPtesPerPage) :
    p.entry (i, j) = zeroPte := by
  simp only [Process.entry, isNull]

theorem Process.entry_setDirectory_here (p : Process) (i : Fin nrPtesPerPage)
    (pd : Directory) (j : Fin nrPtesPerPage) :
    (p.setDirectory i pd).entry (i, j) = pd j :=
  Process.entry_of_dir (Function.update_self ..) j

theorem Process.entry_setDirectory_of_ne (p : Process)
    {i i' : Fin nrPtesPerPage} (pd : Directory) (other : i' ≠ i)
    (j : Fin nrPtesPerPage) :
    (p.setDirectory i pd).entry (i', j) = p.entry (i', j) := by
  simp only [Process.entry, Process.setDirectory, Function.update_of_ne other]

theorem Process.wild_setDirectory {p : Process} {i i' : Fin nrPtesPerPage}
    {pd : Directory} (isWild : (p.setDirectory i pd).outerPtes i' = .wild) :
    p.outerPtes i' = .wild := by
  unfold Process.setDirectory at isWild
  by_cases same : i' = i
  · subst same
    simp at isWild
  · simpa only [Function.update_of_ne same] using isWild

/-- One directory is shared: both loops of the fork for one entry of
`outer_ptes`. -/
theorem forkDirectory_of_dir (zero : env.ZeroFilled) {i : Fin nrPtesPerPage}
    {pd : Directory} (isDir : k.current.outerPtes i = .dir pd)
    (childNull : nxt.outerPtes i = .null)
    (inside : ∀ j, (pd j).valid = true → (pd j).pfn < nrPageframes)
    (small : ∀ x, k.mapcounts x < 2 ^ 32) :
    ∃ k' nxt', forkDirectory env (k, nxt) i = .ok (k', nxt') ∧
      SharedTables [i] k nxt k' nxt' := by
  obtain ⟨m', pd', nxtpd', ran, shared⟩ := forkPtes_run
    (List.finRange nrPtesPerPage) (List.nodup_finRange _) k.mapcounts pd
    (env.directory k.mallocs) (fun j _ => inside j) small
  have here (j : Fin nrPtesPerPage) : k.current.entry (i, j) = pd j :=
    Process.entry_of_dir isDir j
  refine ⟨{ k with
      mapcounts := m', mallocs := k.mallocs + 1 }.setDirectory i pd',
    nxt.setDirectory i nxtpd', ?_, ?_, ?_, ?_, ?_, ?_, ?_, ?_, rfl, rfl, rfl⟩
  · simp only [forkDirectory, isDir, ran, bind, Except.bind, pure, Except.pure]
  · intro x
    have sum : ∑ j, (k.current.entry (i, j)).count x =
        ((List.finRange nrPtesPerPage).map fun j => (pd j).count x).sum := by
      rw [Fin.sum_univ_def]
      simp only [here]
    rw [List.map_singleton, List.sum_singleton, sum]
    exact shared.counts x
  · intro i' j
    simp only [List.mem_singleton, Kernel.setDirectory_current]
    by_cases same : i' = i
    · subst same
      rw [if_pos rfl, Process.entry_setDirectory_here, shared.parent,
        if_pos (List.mem_finRange j), here]
    · rw [if_neg same]
      exact Process.entry_setDirectory_of_ne _ pd' same j
  · intro i' j
    simp only [List.mem_singleton]
    by_cases same : i' = i
    · subst same
      rw [if_pos rfl, Process.entry_setDirectory_here, shared.child, here,
        zero.directory]
      simp only [List.mem_finRange, true_and, Pte.child]
    · rw [if_neg same]
      exact Process.entry_setDirectory_of_ne _ nxtpd' same j
  · exact fun i' => Process.wild_setDirectory
  · exact fun i' => Process.wild_setDirectory
  · exact fun i' other => Function.update_of_ne
      (fun same => other (List.mem_singleton.mpr same)) _ _
  · exact fun i' other => Function.update_of_ne
      (fun same => other (List.mem_singleton.mpr same)) _ _

theorem zeroPte_count (x : Fin nrPageframes) : zeroPte.count x = 0 :=
  Pte.count_of_invalid (by decide) x

theorem sharedTables_of_null {i : Fin nrPtesPerPage}
    (isNull : k.current.outerPtes i = .null)
    (childNull : nxt.outerPtes i = .null)
    (small : ∀ x, k.mapcounts x < 2 ^ 32) :
    SharedTables [i] k nxt k nxt := by
  refine ⟨fun x => ?_, fun i' j => ?_, fun i' j => ?_, fun _ => id, fun _ => id,
    fun _ _ => rfl, fun _ _ => rfl, rfl, rfl, rfl⟩
  · simp only [List.map_singleton, List.sum_singleton,
      Process.entry_of_null isNull, zeroPte_count, Finset.sum_const_zero, Nat.add_zero]
    exact (toUInt_of_lt (small x)).symm
  · by_cases same : i' = i
    · subst same
      rw [if_pos (List.mem_singleton_self i'), Process.entry_of_null isNull]
      rfl
    · rw [if_neg (fun member => same (List.mem_singleton.mp member))]
  · by_cases same : i' = i
    · subst same
      rw [if_pos (List.mem_singleton_self i'), Process.entry_of_null isNull,
        Process.entry_of_null childNull]
      rfl
    · rw [if_neg (fun member => same (List.mem_singleton.mp member))]

theorem SharedTables.cons {i : Fin nrPtesPerPage}
    {rest : List (Fin nrPtesPerPage)} {k₁ : Kernel} {nxt₁ : Process}
    (notRest : i ∉ rest) (first : SharedTables [i] k nxt k₁ nxt₁)
    (later : SharedTables rest k₁ nxt₁ k' nxt') :
    SharedTables (i :: rest) k nxt k' nxt' := by
  have untouched {i' : Fin nrPtesPerPage} (member : i' ∈ rest)
      (j : Fin nrPtesPerPage) :
      k₁.current.entry (i', j) = k.current.entry (i', j) := by
    rw [first.parent, if_neg]
    rw [List.mem_singleton]
    rintro rfl
    exact notRest member
  refine ⟨fun x => ?_, fun i' j => ?_, fun i' j => ?_, ?_, ?_, ?_, ?_, ?_, ?_,
    ?_⟩
  · have sameSum :
        (rest.map fun i => ∑ j, (k₁.current.entry (i, j)).count x).sum =
          (rest.map fun i => ∑ j, (k.current.entry (i, j)).count x).sum := by
      refine congrArg List.sum (List.map_congr_left fun i member => ?_)
      simp only [untouched member]
    rw [later.counts, sameSum, first.counts, toUInt_toUInt_add,
      List.map_singleton, List.sum_singleton, List.map_cons, List.sum_cons,
      Nat.add_assoc]
  · rw [later.parent]
    by_cases member : i' ∈ rest
    · rw [if_pos member, if_pos (List.mem_cons_of_mem i member),
        untouched member]
    · rw [if_neg member, first.parent]
      simp only [List.mem_cons, member, List.not_mem_nil, or_false]
  · rw [later.child]
    by_cases member : i' ∈ rest
    · rw [if_pos member, if_pos (List.mem_cons_of_mem i member),
        untouched member]
    · rw [if_neg member, first.child]
      simp only [List.mem_cons, member, List.not_mem_nil, or_false]
  · exact fun i' isWild => first.wild i' (later.wild i' isWild)
  · exact fun i' isWild => first.childWild i' (later.childWild i' isWild)
  · intro i' other
    obtain ⟨notFirst, notRest⟩ := not_or.mp (List.mem_cons.not.mp other)
    exact (later.others i' notRest).trans
      (first.others i' fun member => notFirst (List.mem_singleton.mp member))
  · intro i' other
    obtain ⟨notFirst, notRest⟩ := not_or.mp (List.mem_cons.not.mp other)
    exact (later.childOthers i' notRest).trans
      (first.childOthers i' fun member => notFirst (List.mem_singleton.mp member))
  · exact later.pid.trans first.pid
  · exact later.childPid.trans first.childPid
  · exact later.processes.trans first.processes

theorem forkDirectories_run (zero : env.ZeroFilled)
    (visited : List (Fin nrPtesPerPage)) (nodup : visited.Nodup) (k : Kernel)
    (nxt : Process)
    (owned : ∀ i ∈ visited, k.current.outerPtes i ≠ .wild)
    (childNull : ∀ i ∈ visited, nxt.outerPtes i = .null)
    (inside : ∀ i ∈ visited, ∀ j, (k.current.entry (i, j)).valid = true →
      (k.current.entry (i, j)).pfn < nrPageframes)
    (small : ∀ x, k.mapcounts x < 2 ^ 32) :
    ∃ k' nxt', visited.foldlM (forkDirectory env) (k, nxt) = .ok (k', nxt') ∧
      SharedTables visited k nxt k' nxt' := by
  induction visited generalizing k nxt with
  | nil =>
      refine ⟨k, nxt, rfl, fun x => ?_, by simp, by simp, fun _ => id,
        fun _ => id, fun _ _ => rfl, fun _ _ => rfl, rfl, rfl, rfl⟩
      rw [List.map_nil, List.sum_nil, Nat.add_zero, toUInt_of_lt (small x)]
  | cons i rest inductionHypothesis =>
      obtain ⟨notRest, nodupRest⟩ := List.nodup_cons.mp nodup
      obtain ⟨k₁, nxt₁, ran, first⟩ :
          ∃ k₁ nxt₁, forkDirectory env (k, nxt) i = .ok (k₁, nxt₁) ∧
            SharedTables [i] k nxt k₁ nxt₁ := by
        have childNull := childNull i List.mem_cons_self
        cases outer : k.current.outerPtes i with
        | wild => exact absurd outer (owned i List.mem_cons_self)
        | null =>
            exact ⟨k, nxt, forkDirectory_of_null outer,
              sharedTables_of_null outer childNull small⟩
        | dir pd =>
            apply forkDirectory_of_dir zero outer childNull _ small
            intro j valid
            have here := Process.entry_of_dir outer j
            rw [← here] at valid ⊢
            exact inside i List.mem_cons_self j valid
      -- the entries still to come are as they were
      have notFirst {i' : Fin nrPtesPerPage} (member : i' ∈ rest) :
          i' ∉ [i] := by
        rw [List.mem_singleton]
        rintro rfl
        exact notRest member
      have smallNow (x : Fin nrPageframes) : k₁.mapcounts x < 2 ^ 32 := by
        rw [first.counts]
        exact toUInt_lt _
      obtain ⟨k', nxt', ranRest, later⟩ := inductionHypothesis nodupRest k₁ nxt₁
        (fun i' member isWild => owned i' (List.mem_cons_of_mem i member)
          (first.wild i' isWild))
        (fun i' member => (first.childOthers i' (notFirst member)).trans
          (childNull i' (List.mem_cons_of_mem i member)))
        (fun i' member j valid => by
          rw [first.parent, if_neg (notFirst member)] at valid ⊢
          exact inside i' (List.mem_cons_of_mem i member) j valid)
        smallNow
      refine ⟨k', nxt', ?_, first.cons notRest later⟩
      rw [List.foldlM_cons, ran]
      exact ranRest

end OuterLoop

/-! ### Forking and switching -/

/-- What the fork leaves: the kernel with the parent still current, and the
child. -/
structure Forks (k : Kernel) (pid : Nat) (k' : Kernel) (nxt : Process) :
    Prop where
  counts : ∀ x, k'.mapcounts x =
    toUInt (k.mapcounts x + k.current.mappings x)
  parent : ∀ slot, k'.current.entry slot = (k.current.entry slot).share
  child : ∀ slot, nxt.entry slot = (k.current.entry slot).child
  wild : ∀ i, k'.current.outerPtes i = .wild → k.current.outerPtes i = .wild
  childOwned : ∀ i, nxt.outerPtes i ≠ .wild
  parentPid : k'.current.pid = k.current.pid
  childPid : nxt.pid = pid
  processes : k'.processes = k.processes

theorem fork_runs (zero : env.ZeroFilled) (tame : Tame k) (pid : Nat) :
    ∃ k' nxt, fork env pid k = .ok (k', nxt) ∧ Forks k pid k' nxt := by
  have current := k.current_mem_all
  obtain ⟨k', nxt, ran, shared⟩ := forkDirectories_run zero
    (List.finRange nrPtesPerPage) (List.nodup_finRange _)
    { k with mallocs := k.mallocs + 1 }
    { pid := pid, outerPtes := env.outerPtes k.mallocs }
    (fun i _ => tame.owned _ current i) (fun i _ => zero.outerPtes _ i)
    (fun i _ j => tame.inside _ current (i, j)) tame.small
  refine ⟨k', nxt, ran, ?_, ?_, ?_, shared.wild, ?_, shared.pid,
    shared.childPid, shared.processes⟩
  · intro x
    rw [shared.counts, Process.mappings_eq_sum, Fintype.sum_prod_type,
      Fin.sum_univ_def]
  · rintro ⟨i, j⟩
    rw [shared.parent, if_pos (List.mem_finRange i)]
  · rintro ⟨i, j⟩
    rw [shared.child, if_pos (List.mem_finRange i)]
  · intro i isWild
    have fresh : env.outerPtes k.mallocs i = .wild := shared.childWild i isWild
    rw [zero.outerPtes] at fresh
    simp at fresh

/-- What `switch_process` makes of the kernel: the process that was found
becomes the current one, or a child of the current one does. -/
inductive Moved (k : Kernel) (pid : Nat) : Kernel → Prop where
  | found {nxt : Process}
      (isFound : k.processes.find? (fun p => p.pid = pid) = some nxt) :
      Moved k pid (changeCurrent nxt (k.processes.eraseP fun p => p.pid = pid) k)
  | forked {k₁ : Kernel} {nxt : Process}
      (unknown : k.processes.find? (fun p => p.pid = pid) = none)
      (forks : Forks k pid k₁ nxt) :
      Moved k pid (changeCurrent nxt k₁.processes k₁)

theorem findProcess_some {nxt : Process}
    (isFound : k.processes.find? (fun p => p.pid = pid) = some nxt) :
    findProcess env pid k = .ok (some nxt) := by
  simp only [findProcess, isFound]

theorem findProcess_none
    (unknown : k.processes.find? (fun p => p.pid = pid) = none)
    (ends : (findProcess env pid k).isOk = true) :
    findProcess env pid k = .ok none := by
  simp only [findProcess, unknown] at ends ⊢
  split
  · rename_i isHead
    rw [if_pos isHead] at ends
    exact absurd ends Bool.false_ne_true
  · rfl

theorem findProcess_of_switchKernel
    (unknown : k.processes.find? (fun p => p.pid = pid) = none)
    (ran : switchKernel env pid k = .ok k') :
    findProcess env pid k = .ok none := by
  cases searched : findProcess env pid k with
  | error fault => simp [switchKernel, searched, bind, Except.bind] at ran
  | ok result =>
      simp only [findProcess, unknown] at searched
      split at searched
      · simp at searched
      · exact congrArg Except.ok (Except.ok.inj searched).symm

/-- A switch succeeds, unless the list head is taken for a process. -/
theorem switchKernel_runs (zero : env.ZeroFilled) (tame : Tame k)
    (ends : (findProcess env pid k).isOk = true) :
    ∃ k', switchKernel env pid k = .ok k' ∧ Moved k pid k' := by
  cases isFound : k.processes.find? (fun p => p.pid = pid) with
  | some nxt =>
      refine ⟨_, ?_, .found isFound⟩
      simp only [switchKernel, findProcess_some isFound, bind, Except.bind, pure,
        Except.pure]
  | none =>
      obtain ⟨k₁, nxt, ran, forks⟩ := fork_runs zero tame pid
      refine ⟨_, ?_, .forked isFound forks⟩
      simp only [switchKernel, findProcess_none isFound ends, ran, bind,
        Except.bind, pure, Except.pure]

theorem moved_of_switchKernel (zero : env.ZeroFilled) (tame : Tame k)
    (ran : switchKernel env pid k = .ok k') : Moved k pid k' := by
  cases isFound : k.processes.find? (fun p => p.pid = pid) with
  | some nxt =>
      simp only [switchKernel, findProcess_some isFound, bind, Except.bind, pure,
        Except.pure] at ran
      obtain rfl := Except.ok.inj ran
      exact .found isFound
  | none =>
      have searched := findProcess_of_switchKernel isFound ran
      obtain ⟨k₁, nxt, forked, forks⟩ := fork_runs zero tame pid
      simp only [switchKernel, searched, forked, bind, Except.bind, pure,
        Except.pure] at ran
      obtain rfl := Except.ok.inj ran
      exact .forked isFound forks

theorem perm_of_find {α : Type} {list : List α} {p : α → Bool} {a : α}
    (isFound : list.find? p = some a) : list.Perm (a :: list.eraseP p) := by
  induction list with
  | nil => simp at isFound
  | cons b rest inductionHypothesis =>
      by_cases here : p b = true
      · rw [List.find?_cons_of_pos here] at isFound
        obtain rfl := Option.some.inj isFound
        rw [List.eraseP_cons_of_pos here]
      · rw [List.find?_cons_of_neg here] at isFound
        rw [List.eraseP_cons_of_neg here]
        exact ((inductionHypothesis isFound).cons b).trans (.swap a b _)

/-- A switch to a known process permutes the processes. -/
theorem changeCurrent_perm {nxt : Process}
    (isFound : k.processes.find? (fun p => p.pid = pid) = some nxt) :
    (changeCurrent nxt (k.processes.eraseP fun p => p.pid = pid) k).all.Perm
      k.all := by
  change (nxt :: (k.processes.eraseP _ ++ [k.current])).Perm _
  rw [← List.cons_append]
  exact (List.perm_append_singleton _ _).trans
    ((perm_of_find isFound).symm.cons _)

/-- A fork adds the child to the processes. -/
theorem changeCurrent_perm_fork {k₁ : Kernel} {nxt : Process} :
    (changeCurrent nxt k₁.processes k₁).all.Perm (nxt :: k₁.all) := by
  change (nxt :: (k₁.processes ++ [k₁.current])).Perm _
  exact (List.perm_append_singleton _ _).cons _

/-- The number of mappings does not depend on the order of the processes. -/
theorem mappings_perm (perm : k.all.Perm k'.all) (x : Fin nrPageframes) :
    mappings k x = mappings k' x :=
  (perm.map _).sum_eq

theorem Forks.mappings_parent {k₁ : Kernel} {nxt : Process}
    (forks : Forks k pid k₁ nxt) (x : Fin nrPageframes) :
    k₁.current.mappings x = k.current.mappings x := by
  rw [Process.mappings_eq_sum, Process.mappings_eq_sum]
  exact Finset.sum_congr rfl fun slot _ => by
    rw [forks.parent, Pte.count_share]

theorem Forks.mappings_child {k₁ : Kernel} {nxt : Process}
    (forks : Forks k pid k₁ nxt) (x : Fin nrPageframes) :
    nxt.mappings x = k.current.mappings x := by
  rw [Process.mappings_eq_sum, Process.mappings_eq_sum]
  exact Finset.sum_congr rfl fun slot _ => by
    rw [forks.child, Pte.count_child]

/-- After a fork every frame has the mappings of the parent once more. -/
theorem Forks.mappings {k₁ : Kernel} {nxt : Process}
    (forks : Forks k pid k₁ nxt) (x : Fin nrPageframes) :
    OsPAs.Vm.mappings (changeCurrent nxt k₁.processes k₁) x =
      OsPAs.Vm.mappings k x + k.current.mappings x := by
  have total : OsPAs.Vm.mappings (changeCurrent nxt k₁.processes k₁) x =
      ((nxt :: k₁.all).map fun p => p.mappings x).sum :=
    (changeCurrent_perm_fork.map _).sum_eq
  rw [total]
  simp only [OsPAs.Vm.mappings, Kernel.all, List.map_cons, List.sum_cons,
    forks.processes, forks.mappings_parent, forks.mappings_child]
  omega

end OsPAs.Vm
