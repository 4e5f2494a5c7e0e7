/-
Module: OsPAs.Vm.MapCounts
Purpose: `mapcounts[]` holds the number of PTE mappings of every frame, and
  exactly which commands break that.
Trusted boundary: none
Main exports: Exact, LosesShare, Overflows, CountsKept, Effect.exact,
  mapcounts_exact_iff, mapcounts_drift
-/
import OsPAs.Vm.Effects

namespace OsPAs.Vm

open Lib

variable {env : Env} {k k' : Kernel} {vpn : Nat} {pte : Pte}

/-- Every map count is the number of valid PTEs, over all processes, that map
the frame. -/
def Exact (k : Kernel) : Prop := ∀ x, k.mapcounts x = mappings k x

/-! ### The condition -/

/-- A write to the page faults, and the fault handler gives up a share of the
frame in the PTE although the PTE is not valid and has none, or although no
frame is left to take its place. -/
structure LosesShare (k : Kernel) (vpn : Nat) : Prop
    extends Faults k vpn where
  shared : CountedFrom k vpn 2
  noOther : (k.pte vpn).valid = true → freeFrame k = none

/-- A switch to `pid` forks, and the map count of some frame runs over. -/
def Overflows (env : Env) (k : Kernel) (pid : Nat) : Prop :=
  findProcess env pid k = .ok none ∧
    ∃ x, 2 ^ 32 ≤ k.mapcounts x + k.current.mappings x

/-- The command does neither of the two. -/
def CountsKept (env : Env) (c : Command) (s : System) : Prop :=
  match c with
  | .write vpn => vpn < nrPages → ¬ LosesShare s.kernel vpn
  | .switch pid => ¬ Overflows env s.kernel pid
  | _ => True

instance (k : Kernel) (vpn : Nat) : Decidable (LosesShare k vpn) :=
  decidable_of_iff
    (Faults k vpn ∧ CountedFrom k vpn 2 ∧
      ((k.pte vpn).valid = true → freeFrame k = none))
    ⟨fun ⟨faults, shared, noOther⟩ => ⟨faults, shared, noOther⟩,
      fun ⟨faults, shared, noOther⟩ => ⟨faults, shared, noOther⟩⟩

instance (env : Env) (k : Kernel) (pid : Nat) :
    Decidable (Overflows env k pid) :=
  match searched : findProcess env pid k with
  | .ok none =>
      decidable_of_iff (∃ x, 2 ^ 32 ≤ k.mapcounts x + k.current.mappings x)
        ⟨fun passed => ⟨searched, passed⟩, fun overflows => overflows.2⟩
  | .ok (some _) => .isFalse fun overflows => by
      have none := overflows.1
      simp [searched] at none
  | .error _ => .isFalse fun overflows => by
      have none := overflows.1
      simp [searched] at none

instance (env : Env) : ∀ c s, Decidable (CountsKept env c s)
  | .write vpn, s =>
      inferInstanceAs (Decidable (vpn < nrPages → ¬ LosesShare s.kernel vpn))
  | .switch pid, s =>
      inferInstanceAs (Decidable (¬ Overflows env s.kernel pid))
  | .alloc _ _, _ => .isTrue trivial
  | .free _, _ => .isTrue trivial
  | .read _, _ => .isTrue trivial

/-! ### One step -/

/-- Counts that move with a stored PTE stay exact. -/
theorem Exact.edits (exact : Exact k) (edits : Edits k k' vpn pte)
    (balance : ∀ x, k'.mapcounts x + (k.pte vpn).count x =
      k.mapcounts x + pte.count x) : Exact k' := by
  intro x
  have moved := mappings_update edits.entry edits.processes x
  have balanced : k'.mapcounts x + (k.current.entry (slotOf vpn)).count x =
    k.mapcounts x + pte.count x := balance x
  have before := exact x
  omega

theorem Pte.count_congr {pte pte' : Pte} (valid : pte'.valid = pte.valid)
    (pfn : pte'.pfn = pte.pfn) (x : Fin nrPageframes) :
    pte'.count x = pte.count x := by
  refine if_congr ?_ rfl rfl
  unfold Pte.Maps
  rw [valid, pfn]

/-- A mapped frame has a mapping. -/
theorem mappings_pos {p : Process} (member : p ∈ k.all) {slot : Slot}
    {x : Fin nrPageframes} (maps : (p.entry slot).Maps x) :
    0 < mappings k x := by
  apply Nat.pos_of_ne_zero
  intro none
  exact mappings_eq_zero.mp none p member slot maps

theorem Exact.taken {rw : Nat} {pfnum : Fin nrPageframes} {pd : Directory}
    {mallocs : Nat} (exact : Exact k) (zero : env.ZeroFilled)
    (invalid : ¬ (k.pte vpn).valid = true) (free : freeFrame k = some pfnum)
    (opened : Opened env k (slotOf vpn).1 pd mallocs) :
    Exact (takeFrame k vpn rw pfnum pd mallocs) := by
  refine exact.edits (takeFrame_edits (opened.agrees zero)) fun x => ?_
  change Function.update k.mapcounts pfnum 1 x + _ = _
  rw [Pte.count_of_invalid invalid, Pte.count_of_frame rfl rfl,
    Function.update_apply]
  by_cases same : x = pfnum
  · subst same
    rw [if_pos rfl, if_pos rfl, freeFrame_some free]
  · rw [if_neg same, if_neg same]

theorem Exact.cleared (exact : Exact k) (valid : (k.pte vpn).valid = true)
    (clears : Cleared k vpn k') : Exact k' := by
  obtain ⟨pfnum, isFrame, edits, counts⟩ := clears.edits
  have mapped : 0 < k.mapcounts pfnum := by
    rw [exact]
    exact mappings_pos k.current_mem_all ⟨valid, isFrame⟩
  refine exact.edits edits fun x => ?_
  rw [counts, zeroPte_count, Function.update_apply,
    Pte.count_of_frame valid isFrame]
  by_cases same : x = pfnum
  · subst same
    rw [if_pos rfl, if_pos rfl, subUInt_of_le mapped]
    omega
  · rw [if_neg same, if_neg same]

/-- A page fault keeps the counts exact, unless it gives up a share that the
PTE does not have or that no frame replaces. -/
theorem Exact.served {ret : Bool} (exact : Exact k)
    (fair : ∀ pfnum : Fin nrPageframes,
      (k.pte vpn).priv ≠ accessRead → (k.pte vpn).pfn = pfnum.val →
      2 ≤ k.mapcounts pfnum → k.mapcounts pfnum < 2 ^ 31 →
        (k.pte vpn).valid = true ∧ ∃ x, k.mapcounts x = 0)
    (served : Served k vpn ret k') : Exact k' := by
  cases served with
  | readOnly => exact exact
  | uncounted => exact exact
  | alone _ _ _ edits counts =>
      refine exact.edits edits fun x => ?_
      rw [counts, Nat.add_left_cancel_iff]
      exact (Pte.count_congr rfl rfl x).symm
  | @copied pfnum new _ notRead isFrame shared few free edits counts =>
      obtain ⟨valid, _⟩ := fair pfnum notRead isFrame shared few
      refine exact.edits edits fun x => ?_
      rw [counts, Pte.count_of_frame valid isFrame, Pte.count_of_frame rfl rfl,
        Function.update_apply, Function.update_apply]
      by_cases isNew : x = new
      · subst isNew
        have other : x ≠ pfnum := by
          rintro rfl
          omega
        rw [if_pos rfl, if_pos rfl, if_neg other, free]
      · rw [if_neg isNew, if_neg isNew]
        by_cases same : x = pfnum
        · subst same
          rw [if_pos rfl, if_pos rfl]
          omega
        · rw [if_neg same, if_neg same]
  | exhausted notRead isFrame shared few full =>
      obtain ⟨_, x, free⟩ := fair _ notRead isFrame shared few
      exact absurd free (full x)

theorem Exact.written {out : Outcome} (tame : Tame k) (exact : Exact k)
    (kept : ¬ LosesShare k vpn) (writes : Written k vpn out k') : Exact k' := by
  -- what the condition says about the first fault
  have fair (denied : ¬ (k.pte vpn).Allows accessWrite)
      {ret : Bool} {k₁ : Kernel} (handled : Handled k vpn ret k₁)
      (pfnum : Fin nrPageframes) (notRead : (k.pte vpn).priv ≠ accessRead)
      (isFrame : (k.pte vpn).pfn = pfnum.val) (shared : 2 ≤ k.mapcounts pfnum)
      (few : k.mapcounts pfnum < 2 ^ 31) :
      (k.pte vpn).valid = true ∧ ∃ x, k.mapcounts x = 0 := by
    have counted := (two_le_asInt (tame.small pfnum)).mpr ⟨shared, few⟩
    by_contra unfair
    refine kept ⟨⟨handled.dirBefore, denied, notRead⟩,
      ⟨pfnum, isFrame, counted⟩,
      fun valid => freeFrame_none.mpr fun x free => unfair ⟨valid, x, free⟩⟩
  cases writes with
  | granted => exact exact
  | refused denied handled =>
      exact exact.served (fair denied handled) (handled.served tame)
  | resolved denied handled =>
      exact exact.served (fair denied handled) (handled.served tame)
  | @lost k₁ _ _ denied handled denied' handled' =>
      have served := handled.served tame
      have exactNow := exact.served (fair denied handled) served
      -- the PTE is still not valid, so its frame had one mapping
      have alone : ∀ pfnum : Fin nrPageframes, (k₁.pte vpn).pfn = pfnum.val →
          k₁.mapcounts pfnum = 1 := by
        intro pfnum isFrame'
        cases served with
        | @alone pfnum' _ _ isFrame one edits counts =>
            have same : pfnum = pfnum' := by
              have now := edits.entry_here
              apply Fin.ext
              rw [← isFrame', ← isFrame]
              change (k₁.current.entry (slotOf vpn)).pfn = _
              rw [now]
            rw [same, counts, one]
        | copied _ _ _ _ _ edits =>
            refine absurd ?_ denied'
            rw [edits.entry_here]
            exact allows_of_rw rfl rfl accessWrite
        | exhausted notRead isFrame shared few full =>
            obtain ⟨_, x, free⟩ :=
              fair denied handled _ notRead isFrame shared few
            exact absurd free (full x)
      refine exactNow.served (fun pfnum _ isFrame' shared => ?_)
        (handled'.served (served.tame tame))
      have one := alone pfnum isFrame'
      omega

theorem Exact.moved {pid : Nat} (exact : Exact k)
    (kept : k.processes.find? (fun p => p.pid = pid) = none →
      ∀ x, k.mapcounts x + k.current.mappings x < 2 ^ 32)
    (moved : Moved k pid k') : Exact k' := by
  cases moved with
  | found isFound =>
      intro x
      rw [mappings_perm (changeCurrent_perm isFound)]
      exact exact x
  | forked unknown forks =>
      intro x
      rw [forks.mappings, ← exact x]
      exact (forks.counts x).trans (toUInt_of_lt (kept unknown x))

/-- A command that gives up no share and lets no count run over keeps the
counts exact. -/
theorem Effect.exact (zero : env.ZeroFilled) (tame : Tame k) (exact : Exact k)
    {c : Command} {out : Outcome} (kept : CountsKept env c (off k))
    (effect : Effect env k c out k') : Exact k' := by
  cases effect with
  | present => exact exact
  | full => exact exact
  | absent => exact exact
  | seen => exact exact
  | unseen => exact exact
  | taken _ invalid free opened => exact exact.taken zero invalid free opened
  | cleared _ valid clears => exact exact.cleared valid clears
  | written inside writes => exact exact.written tame (kept inside) writes
  | @moved pid _ ran =>
      refine exact.moved (fun unknown x => ?_)
        (moved_of_switchKernel zero tame ran)
      by_contra overflow
      exact kept ⟨findProcess_of_switchKernel unknown ran, x,
        Nat.not_lt.mp overflow⟩

/-! ### The other direction -/

/-- Some frame has more mappings than are counted. -/
def Undercounted (k : Kernel) : Prop := ∃ x, k.mapcounts x < mappings k x

theorem Undercounted.not_exact (under : Undercounted k) : ¬ Exact k := by
  intro exact
  obtain ⟨x, less⟩ := under
  rw [exact x] at less
  exact Nat.lt_irrefl _ less

/-- A fault that meets `LosesShare` is taken for resolved, leaves the kernel
undercounted and, if the write is still denied, an invalid PTE and no free
frame. -/
theorem LosesShare.served {ret : Bool} (tame : Tame k) (exact : Exact k)
    (loses : LosesShare k vpn) (served : Served k vpn ret k') :
    ret = true ∧ Undercounted k' ∧
      (¬ (k'.pte vpn).Allows accessWrite →
        ¬ (k'.pte vpn).valid = true ∧ (∀ x, k'.mapcounts x ≠ 0) ∧
          (k'.pte vpn).pfn < nrPageframes) := by
  obtain ⟨frame, isFrame, counted⟩ := loses.shared
  obtain ⟨shared, few⟩ := (two_le_asInt (tame.small frame)).mp counted
  have sameFrame {pfnum : Fin nrPageframes}
      (isFrame' : (k.pte vpn).pfn = pfnum.val) : pfnum = frame :=
    Fin.ext (isFrame'.symm.trans isFrame)
  cases served with
  | readOnly isRead => exact absurd isRead loses.notRead
  | uncounted _ isFrame' few' =>
      obtain rfl := sameFrame isFrame'
      omega
  | alone _ isFrame' one =>
      obtain rfl := sameFrame isFrame'
      omega
  | @copied pfnum new _ _ isFrame' _ _ free edits counts =>
      obtain rfl := sameFrame isFrame'
      have invalid : ¬ (k.pte vpn).valid = true := fun valid =>
        freeFrame_none.mp (loses.noOther valid) new free
      have other : pfnum ≠ new := by
        rintro rfl
        omega
      refine ⟨rfl, ⟨pfnum, ?_⟩, fun denied => absurd ?_ denied⟩
      · have moved := mappings_update edits.entry edits.processes pfnum
        have before : (k.current.entry (slotOf vpn)).count pfnum = 0 :=
          Pte.count_of_invalid invalid pfnum
        have now := exact pfnum
        rw [counts, Function.update_of_ne other, Function.update_self]
        omega
      · change (k'.current.entry (slotOf vpn)).Allows accessWrite
        rw [edits.entry_here]
        exact allows_of_rw rfl rfl accessWrite
  | @exhausted pfnum _ _ isFrame' _ _ full edits counts =>
      obtain rfl := sameFrame isFrame'
      refine ⟨rfl, ⟨pfnum, ?_⟩, fun denied => ⟨?_, fun x => ?_, ?_⟩⟩
      · have moved := mappings_update edits.entry edits.processes pfnum
        have same : Pte.count
            { k.current.entry (slotOf vpn) with rw := 0x03 } pfnum =
            (k.current.entry (slotOf vpn)).count pfnum :=
          Pte.count_congr rfl rfl pfnum
        have now := exact pfnum
        rw [counts, Function.update_self]
        omega
      · intro valid
        refine denied (allows_of_rw valid ?_ accessWrite)
        change (k'.current.entry (slotOf vpn)).rw = _
        rw [edits.entry_here]
      · rw [counts, Function.update_apply]
        split
        · omega
        · exact full x
      · change (k'.current.entry (slotOf vpn)).pfn < _
        rw [edits.entry_here]
        exact isFrame ▸ pfnum.isLt

/-- With an invalid PTE and no free frame a fault maps nothing and counts
nothing more. -/
theorem Undercounted.served {ret : Bool} (under : Undercounted k)
    (invalid : ¬ (k.pte vpn).valid = true) (full : ∀ x, k.mapcounts x ≠ 0)
    (served : Served k vpn ret k') : Undercounted k' := by
  obtain ⟨x, less⟩ := under
  cases served with
  | readOnly => exact ⟨x, less⟩
  | uncounted => exact ⟨x, less⟩
  | alone _ _ _ edits counts =>
      have moved := mappings_update edits.entry edits.processes x
      have before : (k.current.entry (slotOf vpn)).count x = 0 :=
        Pte.count_of_invalid invalid x
      refine ⟨x, ?_⟩
      rw [counts]
      omega
  | copied _ _ _ _ free => exact absurd free (full _)
  | exhausted _ _ _ _ _ edits counts =>
      have moved := mappings_update edits.entry edits.processes x
      have before : (k.current.entry (slotOf vpn)).count x = 0 :=
        Pte.count_of_invalid invalid x
      refine ⟨x, ?_⟩
      rw [counts, Function.update_apply]
      split
      · rename_i same
        subst same
        omega
      · omega

/-- A write that meets `LosesShare` goes through the handler and leaves counts
that are not exact. -/
theorem LosesShare.written (tame : Tame k) (exact : Exact k)
    (loses : LosesShare k vpn) :
    ∃ out k', Written k vpn out k' ∧ ¬ Exact k' := by
  obtain ⟨pd, isDir⟩ := loses.dir
  obtain ⟨frame, isFrame, _⟩ := loses.shared
  have inside : (pd (pteIdx vpn)).pfn < nrPageframes := by
    rw [← Kernel.pte_of_dir isDir, isFrame]
    exact frame.isLt
  obtain ⟨ret, k₁, handled⟩ := exists_handled isDir inside
  have served := handled.served tame
  obtain ⟨rfl, under, stuck⟩ := loses.served tame exact served
  by_cases allows : (k₁.pte vpn).Allows accessWrite
  · exact ⟨_, k₁, .resolved loses.denied handled allows, under.not_exact⟩
  · obtain ⟨invalid, full, inside'⟩ := stuck allows
    obtain ⟨pd', isDir'⟩ := handled.dir
    obtain ⟨ret', k₂, handled'⟩ := exists_handled isDir'
      (by rw [← Kernel.pte_of_dir isDir']; exact inside')
    have under' :=
      under.served invalid full (handled'.served (served.tame tame))
    exact ⟨_, k₂, .lost loses.denied handled allows handled', under'.not_exact⟩

/-- A switch that meets `Overflows` forks and leaves counts that are not
exact. -/
theorem Overflows.switched {pid : Nat} (zero : env.ZeroFilled) (tame : Tame k)
    (exact : Exact k) (overflows : Overflows env k pid) :
    ∃ k', switchKernel env pid k = .ok k' ∧ ¬ Exact k' := by
  obtain ⟨searched, x, passed⟩ := overflows
  obtain ⟨k₁, nxt, ran, forks⟩ := fork_runs zero tame pid
  refine ⟨changeCurrent nxt k₁.processes k₁, ?_, fun exact' => ?_⟩
  · simp only [switchKernel, searched, ran, bind, Except.bind, pure, Except.pure]
  · have counted := exact' x
    rw [forks.mappings, ← exact x] at counted
    have small : k₁.mapcounts x < 2 ^ 32 := by
      rw [forks.counts]
      exact toUInt_lt _
    change k₁.mapcounts x = _ at counted
    omega

/-- Where a command keeps the counts exact, it meets the condition. -/
theorem countsKept_of_exact (zero : env.ZeroFilled) (tame : Tame k)
    (exact : Exact k) {c : Command}
    (all : ∀ out pass, execute false env c (off k) = .ok (out, pass) →
      Exact pass.state.kernel) : CountsKept env c (off k) := by
  have keeps {out : Outcome} {k' : Kernel} (effect : Effect env k c out k') :
      Exact k' := by
    have exactNow := all _ _ (execute_of_effect tame effect)
    rwa [Outcome.pass_state] at exactNow
  cases c with
  | alloc => trivial
  | free => trivial
  | read => trivial
  | write vpn =>
      intro inside loses
      obtain ⟨out, k', writes, drifted⟩ := loses.written tame exact
      exact drifted (keeps (.written inside writes))
  | switch pid =>
      intro overflows
      obtain ⟨k', ran, drifted⟩ := overflows.switched zero tame exact
      exact drifted (keeps (.moved ran))

/-! ### Whole runs -/

/-- What is known of every state of a run without the TLB. -/
structure Counted (s : System) : Prop where
  isOff : s = off s.kernel
  tame : Tame s.kernel
  exact : Exact s.kernel

theorem initKernel_exact : Exact initKernel := by
  intro x
  have nothing : mappings initKernel x = 0 := by
    rw [mappings_eq_zero]
    intro p member slot maps
    obtain rfl : p = initKernel.current := by
      simpa [Kernel.all, initKernel] using member
    exact absurd maps.1 (by simp [Process.entry, initKernel, zeroPte])
  exact nothing.symm

theorem init_counted : Counted init :=
  ⟨rfl, initKernel_tame, initKernel_exact⟩

/-- Whatever the counts, the states of a run without the TLB are tame. -/
theorem reached_tame (zero : env.ZeroFilled) {workload : List Command}
    {s : System} (reached : Reaches (execute false env) workload init s) :
    s = off s.kernel ∧ Tame s.kernel := by
  refine reaches_invariant (fun s => s = off s.kernel ∧ Tame s.kernel) ?_
    ⟨rfl, initKernel_tame⟩ (along_true _ workload init) reached
  rintro c s out pass ⟨isOff, tame⟩ _ ran
  rw [isOff] at ran
  obtain ⟨k', rfl, effect⟩ := effect_of_execute tame ran
  rw [Outcome.pass_state]
  exact ⟨rfl, effect.tame zero tame⟩

/-- Without `-t` the map counts are exact in every state of a run if and only
if no command of the run gives up a share it does not have or cannot replace,
and no fork makes a count run over. -/
theorem mapcounts_exact_iff (env : Env) (zero : env.ZeroFilled)
    (workload : List Command) :
    (∀ s, Reaches (execute false env) workload init s → Exact s.kernel) ↔
      Along (execute false env) (CountsKept env) workload init := by
  constructor
  · intro all
    apply along_of_reaches Counted
    · rintro c s ⟨isOff, tame, exact⟩ kept
      rw [isOff] at kept ⊢
      exact countsKept_of_exact zero tame exact fun out pass ran =>
        (kept out pass ran).exact
    · intro s reached
      obtain ⟨isOff, tame⟩ := reached_tame zero reached
      exact ⟨isOff, tame, all s reached⟩
  · intro along s reached
    refine (reaches_invariant Counted ?_ init_counted along reached).exact
    rintro c s out pass ⟨isOff, tame, exact⟩ kept ran
    rw [isOff] at ran kept
    obtain ⟨k', rfl, effect⟩ := effect_of_execute tame ran
    rw [Outcome.pass_state]
    exact ⟨rfl, effect.tame zero tame, effect.exact zero tame exact kept⟩

/-- A process and its child write to a page they share, then one of them frees
it. -/
def writeShared : List Command :=
  [.alloc 0 ['r', 'w'], .switch 1, .write 0, .switch 0, .write 0, .free 0]

theorem mapcounts_exact_iff_writeShared :
    Along (execute false zeroEnv) (CountsKept zeroEnv) writeShared init ∧
      ∀ s, Reaches (execute false zeroEnv) writeShared init s →
        Exact s.kernel := by
  have along : Along (execute false zeroEnv) (CountsKept zeroEnv) writeShared
      init := by decide +kernel
  exact ⟨along,
    (mapcounts_exact_iff zeroEnv zeroEnv_zeroFilled writeShared).mpr along⟩

/-- A child writes to a page that nobody has allocated; its parent shares frame
0 with it. -/
def writeUnmapped : List Command :=
  [.alloc 0 ['r', 'w'], .switch 1, .write 1]

/-- The write to the page that is not mapped takes a mapping off the count of
frame 0, which still has two. -/
theorem mapcounts_drift :
    zeroEnv.ZeroFilled ∧
      ∃ s, Reaches (execute false zeroEnv) writeUnmapped init s ∧
        ¬ Exact s.kernel := by
  refine ⟨zeroEnv_zeroFilled, ?_⟩
  obtain ⟨s, reached, counted, mapped⟩ := exists_of_endsWith
    (execute false zeroEnv) writeUnmapped init
    (fun s => s.kernel.mapcounts ⟨0, by decide⟩ = 1 ∧
      mappings s.kernel ⟨0, by decide⟩ = 2) (by decide +kernel)
  refine ⟨s, reached, fun exact => ?_⟩
  have same := exact ⟨0, by decide⟩
  rw [counted, mapped] at same
  simp at same

end OsPAs.Vm
