/-
Module: OsPAs.Vm.Pids
Purpose: The pids of the processes along whole runs, with and without `-t` and
  whatever fresh memory holds: they stay distinct exactly as long as nobody is
  asked to switch to the process that is current.
Trusted boundary: none
Main exports: Kernel.pids, births, Chronicle, chronicleStep, SwitchesAway,
  execute_pids, pids_distinct, pids_duplicated
-/
import OsPAs.Lib.Ensures
import OsPAs.Vm.Forks

namespace OsPAs.Vm

open Lib

variable {env : Env} {k k' : Kernel}

/-- The pids of `current` and of the members of `processes`. -/
def Kernel.pids (k : Kernel) : List Nat := k.all.map Process.pid

/-! ### What keeps the pids -/

/-- Other page tables and map counts, but the same processes. -/
structure SamePids (k k' : Kernel) : Prop where
  current : k'.current.pid = k.current.pid
  processes : k'.processes = k.processes

theorem SamePids.refl (k : Kernel) : SamePids k k := ⟨rfl, rfl⟩

theorem SamePids.trans {k'' : Kernel} (first : SamePids k k')
    (second : SamePids k' k'') : SamePids k k'' :=
  ⟨second.current.trans first.current, second.processes.trans first.processes⟩

theorem SamePids.pids (same : SamePids k k') : k'.pids = k.pids := by
  unfold Kernel.pids Kernel.all
  rw [List.map_cons, List.map_cons, same.current, same.processes]

theorem allocPage_samePids (env : Env) (vpn rw : Nat) (k : Kernel) :
    Ensures (fun result => SamePids k result.2) (allocPage env vpn rw k) := by
  rintro ⟨ret, k'⟩ ran
  obtain ⟨_, _, rfl⟩ | ⟨_, _, _, _, _, _, _, rfl⟩ := allocPage_ok ran
  · exact .refl _
  · exact ⟨rfl, rfl⟩

theorem clearPte_samePids (vpn : Nat) (k : Kernel) :
    Ensures (SamePids k) (clearPte vpn k) := by
  unfold clearPte
  refine (ensures_self _).bind fun i _ => (ensures_self _).bind fun pd _ =>
    (ensures_self _).bind fun pfnum _ => ensures_ok ⟨rfl, rfl⟩

theorem handlePageFault_samePids (env : Env) (vpn rw : Nat) (k : Kernel) :
    Ensures (fun result => SamePids k result.2)
      (handlePageFault env vpn rw k) := by
  have unchanged : Ensures (fun result : Bool × Kernel => SamePids k result.2)
      (.ok (false, k) : Except Fault (Bool × Kernel)) := ensures_ok (.refl k)
  unfold handlePageFault
  refine (ensures_self _).bind fun i _ => ?_
  split
  · refine (ensures_self _).bind fun pd _ => ?_
    dsimp only
    split
    · refine (ensures_self _).bind fun pfnum _ => ?_
      split
      · exact ensures_ok ⟨rfl, rfl⟩
      · split
        · refine (allocPage_samePids env vpn rw _).bind ?_
          rintro ⟨ret, k'⟩ same
          refine (ensures_self _).bind fun pd _ => ensures_ok ?_
          exact ⟨same.current, same.processes⟩
        · exact unchanged
    · exact unchanged
  · exact unchanged

/-! ### Commands that switch to nobody -/

/-- Whatever the TLB, a translation leaves the kernel alone. -/
theorem translate_kernel (t : Bool) (rw vpn : Nat) (s : System) :
    Ensures (fun result => result.2.kernel = s.kernel)
      (translate t rw vpn s) := by
  unfold translate
  cases t
  all_goals
    simp only [Bool.false_eq_true, if_false, if_true]
    refine (ensures_self _).bind fun hit _ => ?_
    split
    · exact ensures_ok rfl
    · refine (ensures_self _).bind fun pte _ => ?_
      split
      · exact ensures_ok rfl
      · first
          | exact ensures_ok rfl
          | exact (ensures_self _).bind fun tlb _ => ensures_ok rfl

theorem onKernel_samePids {α : Type} {f : Kernel → Except Fault (α × Kernel)}
    {s : System}
    (keeps : Ensures (fun result => SamePids s.kernel result.2) (f s.kernel)) :
    Ensures (fun result => SamePids s.kernel result.2.kernel)
      (onKernel f s) :=
  keeps.bind fun _ same => ensures_ok same

theorem accessLoop_samePids (t : Bool) (env : Env) (vpn rw tries : Nat)
    (s : System) :
    Ensures (fun result => SamePids s.kernel result.2.kernel)
      (accessLoop t env vpn rw tries s) := by
  induction tries generalizing s with
  | zero => exact ensures_ok (.refl _)
  | succ tries inductionHypothesis =>
      unfold accessLoop
      refine (translate_kernel t rw vpn s).bind ?_
      rintro ⟨translation, s₁⟩ same
      obtain same : s₁.kernel = s.kernel := same
      cases translation with
      | some found => exact ensures_ok (same ▸ .refl _)
      | none =>
          refine (onKernel_samePids
            (handlePageFault_samePids env vpn rw s₁.kernel)).bind ?_
          rintro ⟨ret, s₂⟩ handled
          rw [same] at handled
          dsimp only
          split
          · exact (inductionHypothesis s₂).mono fun _ => handled.trans
          · exact ensures_ok handled

theorem requestPage_samePids (t : Bool) (env : Env) (vpn rw : Nat)
    (s : System) :
    Ensures (fun result => SamePids s.kernel result.2.2.kernel)
      (requestPage t env vpn rw s) := by
  unfold requestPage
  refine (ensures_self _).bind fun _ _ => (ensures_self _).bind fun _ _ =>
    (translate_kernel t accessRead vpn s).bind ?_
  rintro ⟨translation, s₁⟩ same
  obtain same : s₁.kernel = s.kernel := same
  cases translation with
  | some found => exact ensures_ok (same ▸ .refl _)
  | none =>
      refine (onKernel_samePids (allocPage_samePids env vpn rw s₁.kernel)).bind ?_
      rintro ⟨pfn, s₂⟩ taken
      rw [same] at taken
      dsimp only
      split
      · exact ensures_ok taken
      · exact ensures_ok taken

theorem releasePage_samePids (t : Bool) (vpn : Nat) (s : System) :
    Ensures (fun result => SamePids s.kernel result.2.kernel)
      (releasePage t vpn s) := by
  unfold releasePage
  refine (translate_kernel t accessRead vpn s).bind ?_
  rintro ⟨translation, s₁⟩ same
  obtain same : s₁.kernel = s.kernel := same
  cases translation with
  | none => exact ensures_ok (same ▸ .refl _)
  | some found =>
      have frees : Ensures (fun s₂ => SamePids s.kernel s₂.kernel)
          (freePage vpn s₁) := by
        unfold freePage
        refine (clearPte_samePids vpn s₁.kernel).bind fun k cleared =>
          (ensures_self _).bind fun tlb _ => ensures_ok ?_
        rwa [same] at cleared
      exact frees.bind fun _ cleared => ensures_ok cleared

/-! ### Switches -/

/-- One pass of the outer loop of the fork keeps the pids of parent and
child. -/
theorem forkDirectory_samePids (env : Env) (k : Kernel) (nxt : Process)
    (i : Fin nrPtesPerPage) :
    Ensures (fun result => SamePids k result.1 ∧ result.2.pid = nxt.pid)
      (forkDirectory env (k, nxt) i) := by
  unfold forkDirectory
  simp only
  split
  · exact ensures_ok ⟨.refl k, rfl⟩
  · exact ensures_error _
  · exact (ensures_self _).bind fun _ _ => ensures_ok ⟨⟨rfl, rfl⟩, rfl⟩

/-- The fork keeps the processes and makes one with the pid asked for. -/
theorem fork_pids (env : Env) (pid : Nat) (k : Kernel) :
    Ensures (fun result => SamePids k result.1 ∧ result.2.pid = pid)
      (fork env pid k) := by
  refine ensures_foldlM
    (fun state : Kernel × Process => SamePids k state.1 ∧ state.2.pid = pid) ?_
    _ ⟨⟨rfl, rfl⟩, rfl⟩
  rintro ⟨k₁, nxt⟩ i ⟨same, isPid⟩
  exact (forkDirectory_samePids env k₁ nxt i).mono fun result after =>
    ⟨same.trans after.1, after.2.trans isPid⟩

/-- The pid of the process that a command creates, if it creates one: a switch
does where its search ends without a process. -/
def births (env : Env) : Command → Kernel → List Nat
  | .switch pid, k =>
      match findProcess env pid k with
      | .ok none => [pid]
      | _ => []
  | _, _ => []

theorem births_of_found {pid : Nat} {nxt : Process}
    (isFound : findProcess env pid k = .ok (some nxt)) :
    births env (.switch pid) k = [] := by
  simp only [births, isFound]

theorem births_of_unknown {pid : Nat}
    (unknown : findProcess env pid k = .ok none) :
    births env (.switch pid) k = [pid] := by
  simp only [births, unknown]

/-- A command creates one process at most. -/
theorem births_nodup (env : Env) (c : Command) (k : Kernel) :
    (births env c k).Nodup := by
  cases c with
  | switch pid =>
      simp only [births]
      split
      · exact List.nodup_singleton pid
      · exact List.nodup_nil
  | _ => exact List.nodup_nil

/-- A switch adds the process that it creates, and loses nobody. -/
theorem switchKernel_pids (env : Env) (pid : Nat) (k : Kernel) :
    Ensures (fun k' => k'.pids.Perm (births env (.switch pid) k ++ k.pids))
      (switchKernel env pid k) := by
  unfold switchKernel
  cases isFound : k.processes.find? fun p => p.pid = pid with
  | some nxt =>
      have found : findProcess env pid k = .ok (some nxt) :=
        findProcess_some isFound
      rw [births_of_found found, found]
      exact ensures_ok ((changeCurrent_perm isFound).map Process.pid)
  | none =>
      cases searched : findProcess env pid k with
      | error fault => exact ensures_error fault
      | ok found =>
          have unknown := findProcess_none isFound (by rw [searched]; rfl)
          obtain rfl := Except.ok.inj (unknown.symm.trans searched)
          rw [births_of_unknown unknown]
          refine (fork_pids env pid k).bind ?_
          rintro ⟨k₁, nxt⟩ ⟨same, isPid⟩
          obtain rfl : nxt.pid = pid := isPid
          refine ensures_ok ?_
          have perm : (changeCurrent nxt k₁.processes k₁).all.Perm (nxt :: k₁.all) :=
            changeCurrent_perm_fork
          exact same.pids ▸ perm.map Process.pid

/-- A command adds the process that it creates, and loses nobody. -/
theorem execute_pids (t : Bool) (env : Env) (c : Command) (s : System) :
    Ensures (fun result =>
        result.2.state.kernel.pids.Perm (births env c s.kernel ++ s.kernel.pids))
      (execute t env c s) := by
  cases c with
  | alloc vpn rw =>
      refine (requestPage_samePids t env vpn (makeRwflag rw) s).bind ?_
      rintro ⟨done, outcome, s'⟩ same
      cases done with
      | true => exact ensures_ok (.of_eq same.pids)
      | false => exact ensures_ok (.of_eq same.pids)
  | free vpn =>
      exact (releasePage_samePids t vpn s).bind fun _ same =>
        ensures_ok (.of_eq same.pids)
  | read vpn =>
      refine ((ensures_self _).bind fun _ _ => (ensures_self _).bind fun _ _ =>
        accessLoop_samePids t env vpn accessRead 2 s).bind fun _ same =>
        ensures_ok (.of_eq same.pids)
  | write vpn =>
      refine ((ensures_self _).bind fun _ _ => (ensures_self _).bind fun _ _ =>
        accessLoop_samePids t env vpn accessWrite 2 s).bind fun _ same =>
        ensures_ok (.of_eq same.pids)
  | switch pid =>
      have switches : Ensures (fun s' : System =>
          s'.kernel.pids.Perm (births env (.switch pid) s.kernel ++ s.kernel.pids))
          (switchProcess env pid s) :=
        (switchKernel_pids env pid s.kernel).bind fun k perm =>
          (ensures_self _).bind fun tlb _ => ensures_ok perm
      exact switches.bind fun _ perm => ensures_ok perm

/-! ### Whole runs -/

/-- The simulator with the pids of all processes created so far. -/
structure Chronicle where
  system : System
  created : List Nat

/-- `__init_system` creates the process 0. -/
def Chronicle.start : Chronicle := { system := init, created := [0] }

/-- A command, with the process it creates. -/
def chronicleStep (t : Bool) (env : Env) :
    Machine Command Chronicle Fault Outcome :=
  fun c g =>
    match execute t env c g.system with
    | .error fault => .error fault
    | .ok (out, pass) => .ok (out, pass.map fun s =>
        { system := s, created := g.created ++ births env c g.system.kernel })

/-- The command is no switch to the process that is current. -/
def SwitchesAway : Command → Kernel → Prop
  | .switch pid, k => pid ≠ k.current.pid
  | _, _ => True

/-- The end of the search of a switch is not mistaken for a process. -/
def SearchEnds (env : Env) : Command → Kernel → Prop
  | .switch pid, k => (findProcess env pid k).isOk = true
  | _, _ => True

/-- The command creates no process with the pid of one that exists. -/
def CreatesNew (env : Env) (c : Command) (k : Kernel) : Prop :=
  ∀ pid ∈ births env c k, pid ∉ k.pids

instance : ∀ c k, Decidable (SwitchesAway c k)
  | .switch pid, k => inferInstanceAs (Decidable (pid ≠ k.current.pid))
  | .alloc _ _, _ => .isTrue trivial
  | .free _, _ => .isTrue trivial
  | .read _, _ => .isTrue trivial
  | .write _, _ => .isTrue trivial

instance (env : Env) : ∀ c k, Decidable (SearchEnds env c k)
  | .switch pid, k =>
      inferInstanceAs (Decidable ((findProcess env pid k).isOk = true))
  | .alloc _ _, _ => .isTrue trivial
  | .free _, _ => .isTrue trivial
  | .read _, _ => .isTrue trivial
  | .write _, _ => .isTrue trivial

/-- Distinct pids, and every process that was ever created is either current or
a member of `processes`. -/
structure Chronicle.Distinct (g : Chronicle) : Prop where
  nodup : g.system.kernel.pids.Nodup
  kept : g.created.Perm g.system.kernel.pids

theorem Chronicle.start_distinct : Chronicle.start.Distinct :=
  ⟨List.nodup_singleton 0, .refl _⟩

/-- What the search did not find has another pid than all of `processes`. -/
theorem not_mem_of_unknown {pid : Nat}
    (unknown : findProcess env pid k = .ok none) :
    pid ∉ k.processes.map Process.pid := by
  intro member
  obtain ⟨p, isMember, isPid⟩ := List.mem_map.mp member
  cases isFound : k.processes.find? fun p => p.pid = pid with
  | some nxt =>
      rw [findProcess_some isFound] at unknown
      simp at unknown
  | none =>
      have other := List.find?_eq_none.mp isFound p isMember
      exact other (decide_eq_true isPid)

/-- A command that does not switch to the current process creates one with a new
pid, if it creates one. -/
theorem SwitchesAway.createsNew {c : Command} (away : SwitchesAway c k) :
    CreatesNew env c k := by
  intro pid born
  cases c with
  | switch asked =>
      cases searched : findProcess env asked k with
      | error fault => simp [births, searched] at born
      | ok found =>
          cases found with
          | some nxt => simp [births_of_found searched] at born
          | none =>
              rw [births_of_unknown searched, List.mem_singleton] at born
              subst born
              unfold Kernel.pids Kernel.all
              rw [List.map_cons, List.mem_cons, not_or]
              exact ⟨away, not_mem_of_unknown searched⟩
  | _ => simp [births] at born

/-- Switching to the current process creates another one with its pid. -/
theorem CreatesNew.switchesAway {c : Command} (nodup : k.pids.Nodup)
    (createsNew : CreatesNew env c k) (ends : SearchEnds env c k) :
    SwitchesAway c k := by
  cases c with
  | switch pid =>
      rintro rfl
      have alone : k.current.pid ∉ k.processes.map Process.pid :=
        (List.nodup_cons.mp nodup).1
      have unknown : findProcess env k.current.pid k = .ok none := by
        refine findProcess_none (List.find?_eq_none.mpr ?_) ends
        intro p member isPid
        exact alone (List.mem_map.mpr ⟨p, member, of_decide_eq_true isPid⟩)
      refine createsNew k.current.pid ?_ List.mem_cons_self
      rw [births_of_unknown unknown]
      exact List.mem_singleton_self _
  | _ => trivial

/-- A command that creates no process with a pid in use keeps the pids
distinct. -/
theorem Chronicle.Distinct.step {t : Bool} {c : Command} {g : Chronicle}
    {out : Outcome} {pass : Pass Chronicle} (distinct : g.Distinct)
    (createsNew : CreatesNew env c g.system.kernel)
    (ran : chronicleStep t env c g = .ok (out, pass)) : pass.state.Distinct := by
  unfold chronicleStep at ran
  cases executed : execute t env c g.system with
  | error fault => simp [executed] at ran
  | ok result =>
      obtain ⟨out', pass'⟩ := result
      rw [executed] at ran
      obtain ⟨rfl, rfl⟩ := Prod.mk.inj (Except.ok.inj ran)
      have perm := execute_pids t env c g.system _ executed
      have grown : (births env c g.system.kernel ++ g.system.kernel.pids).Nodup :=
        List.nodup_append.mpr ⟨births_nodup env c _, distinct.nodup,
          fun pid born _ member eq => createsNew pid born (eq ▸ member)⟩
      have kept := ((distinct.kept.append_right _).trans List.perm_append_comm
        |>.trans perm.symm)
      cases pass' with
      | again s' => exact ⟨perm.nodup_iff.mpr grown, kept⟩
      | leave s' => exact ⟨perm.nodup_iff.mpr grown, kept⟩

/-- Along a run whose searches are not mistaken at the end of the list, the pids
stay distinct, nobody is lost and only new pids are created, exactly if the run
never switches to the process that is current. -/
theorem pids_distinct_iff (t : Bool) (env : Env) (workload : List Command)
    (ends : Along (chronicleStep t env)
      (fun c g => SearchEnds env c g.system.kernel) workload Chronicle.start) :
    ((∀ g, Reaches (chronicleStep t env) workload Chronicle.start g →
        g.system.kernel.pids.Nodup ∧ g.created.Perm g.system.kernel.pids) ∧
      Along (chronicleStep t env)
        (fun c g => CreatesNew env c g.system.kernel) workload
        Chronicle.start) ↔
      Along (chronicleStep t env)
        (fun c g => SwitchesAway c g.system.kernel) workload
        Chronicle.start := by
  constructor
  · rintro ⟨reached, createsNew⟩
    exact (createsNew.and ends).of_reaches
      (fun _ _ distinct both => both.1.switchesAway distinct.1 both.2) reached
  · intro away
    have createsNew : Along (chronicleStep t env)
        (fun c g => CreatesNew env c g.system.kernel) workload
        Chronicle.start := away.mono fun _ _ => SwitchesAway.createsNew
    refine ⟨fun g reached => ?_, createsNew⟩
    have distinct := reaches_invariant Chronicle.Distinct
      (fun _ _ _ _ distinct createsNew ran => distinct.step createsNew ran)
      Chronicle.start_distinct createsNew reached
    exact ⟨distinct.nodup, distinct.kept⟩

/-- Two processes and the way back to the first one. -/
def thereAndBack : List Command :=
  [.switch 7, .alloc 0 ['r', 'w'], .switch 0, .switch 7]

theorem pids_distinct_thereAndBack :
    ∃ g, Reaches (chronicleStep true zeroEnv) thereAndBack Chronicle.start g ∧
      g.created = [0, 7] ∧ g.system.kernel.pids = [7, 0] ∧
      g.system.kernel.pids.Nodup ∧ g.created.Perm g.system.kernel.pids := by
  obtain ⟨g, reached, created, pids⟩ := exists_of_endsWith
    (chronicleStep true zeroEnv) thereAndBack Chronicle.start
    (fun g => g.created = [0, 7] ∧ g.system.kernel.pids = [7, 0])
    (by decide +kernel)
  exact ⟨g, reached, created, pids,
    ((pids_distinct_iff true zeroEnv thereAndBack (by decide +kernel)).mpr
      (by decide +kernel)).1 g reached⟩

/-- A switch to the first process while it is current creates a second process
of the same pid. -/
theorem pids_duplicated :
    Along (chronicleStep false zeroEnv)
        (fun c g => SearchEnds zeroEnv c g.system.kernel) [.switch 0]
        Chronicle.start ∧
      ∃ g, Reaches (chronicleStep false zeroEnv) [.switch 0] Chronicle.start g ∧
        g.system.kernel.pids = [0, 0] ∧ ¬ g.system.kernel.pids.Nodup := by
  refine ⟨by decide +kernel, ?_⟩
  obtain ⟨g, reached, pids⟩ := exists_of_endsWith
    (chronicleStep false zeroEnv) [.switch 0] Chronicle.start
    (fun g => g.system.kernel.pids = [0, 0]) (by decide +kernel)
  exact ⟨g, reached, pids, by rw [pids]; decide⟩

end OsPAs.Vm
