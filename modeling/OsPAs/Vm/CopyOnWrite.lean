/-
Module: OsPAs.Vm.CopyOnWrite
Purpose: Copy-on-write cannot be told from eager copying: the simulator with
  ghost contents matches the reference command by command, as long as no frame
  has 2 ^ 31 mappings.
Trusted boundary: none
Main exports: Promised, FewMappings, Simulates, ghostStep_matches,
  copyOnWrite_matches, copyOnWrite_overflow
-/
import OsPAs.Vm.Ownership

namespace OsPAs.Vm

open Lib

variable {β : Type} {env : Env} {k k' : Kernel} {vpn : Nat} {pte : Pte}

/-! ### What the environment promises -/

/-- Pages are below 256, only mapped pages are written to, no frame is asked
for while all are in use, and a switch is to another process and is not led
astray by the list head. -/
def Promised (env : Env) (c : Command) (s : System) : Prop :=
  match c with
  | .alloc vpn _ => vpn < nrPages ∧
      (¬ (s.kernel.pte vpn).valid = true → freeFrame s.kernel ≠ none)
  | .free vpn => vpn < nrPages
  | .read vpn => vpn < nrPages
  | .write vpn => vpn < nrPages ∧ (s.kernel.pte vpn).valid = true ∧
      (Faults s.kernel vpn → CountedFrom s.kernel vpn 2 →
        freeFrame s.kernel ≠ none)
  | .switch pid => pid ≠ s.kernel.current.pid ∧
      (findProcess env pid s.kernel).isOk = true

/-- A switch that forks leaves no frame with `2 ^ 31` mappings. -/
def FewMappings (c : Command) (s : System) : Prop :=
  match c with
  | .switch pid => (∀ p ∈ s.kernel.processes, p.pid ≠ pid) →
      ∀ x, s.kernel.mapcounts x + s.kernel.current.mappings x < 2 ^ 31
  | _ => True

theorem unknown_iff {processes : List Process} {pid : Nat} :
    processes.find? (fun p => p.pid = pid) = none ↔
      ∀ p ∈ processes, p.pid ≠ pid := by
  simp [List.find?_eq_none]

/-- The promises exclude what makes counts inexact. -/
theorem Promised.countsKept {c : Command} {s : System}
    (promised : Promised env c s) (few : FewMappings c s) :
    CountsKept env c s := by
  cases c with
  | alloc => trivial
  | free => trivial
  | read => trivial
  | write vpn =>
      obtain ⟨_, valid, room⟩ := promised
      exact fun _ loses => room ⟨loses.dir, loses.denied, loses.notRead⟩
        loses.shared (loses.noOther valid)
  | switch pid =>
      rintro ⟨searched, x, passed⟩
      have unknown : s.kernel.processes.find? (fun p => p.pid = pid) = none := by
        cases isFound : s.kernel.processes.find? (fun p => p.pid = pid) with
        | none => rfl
        | some nxt =>
            rw [findProcess_some isFound] at searched
            simp at searched
      have bound := few (unknown_iff.mp unknown) x
      omega

/-- Every command that meets the promises runs. -/
theorem exists_effect (zero : env.ZeroFilled) (separate : Separate k)
    {c : Command} (promised : Promised env c (off k)) :
    ∃ out k', Effect env k c out k' := by
  have tame := separate.tame
  cases c with
  | alloc vpn rw =>
      obtain ⟨inside, room⟩ := promised
      by_cases valid : (k.pte vpn).valid = true
      · exact ⟨_, _, .present inside valid⟩
      · obtain ⟨pfnum, free⟩ := Option.ne_none_iff_exists'.mp (room valid)
        obtain ⟨pd, mallocs, opened⟩ := exists_opened env tame (slotOf vpn).1
        exact ⟨_, _, .taken inside valid free opened⟩
  | free vpn =>
      by_cases valid : (k.pte vpn).valid = true
      · obtain ⟨k', clears⟩ := exists_cleared tame valid
        exact ⟨_, _, .cleared promised valid clears⟩
      · exact ⟨_, _, .absent promised valid⟩
  | read vpn =>
      by_cases valid : (k.pte vpn).valid = true
      · exact ⟨_, _, .seen promised valid⟩
      · exact ⟨_, _, .unseen promised valid⟩
  | write vpn =>
      obtain ⟨inside, valid, _⟩ := promised
      have valid : (k.pte vpn).valid = true := valid
      by_cases allows : (k.pte vpn).Allows accessWrite
      · exact ⟨_, _, .written inside (.granted allows)⟩
      · obtain ⟨pd, isDir⟩ := Process.dir_of_valid valid
        have isFrame := tame.inside _ k.current_mem_all _ valid
        rw [Process.entry_slotOf isDir] at isFrame
        obtain ⟨ret, k₁, handled⟩ := exists_handled isDir isFrame
        cases ret with
        | false => exact ⟨_, _, .written inside (.refused allows handled)⟩
        | true => exact
            ⟨_, _, .written inside (.resolved allows handled (handled.allows valid))⟩
  | switch pid =>
      obtain ⟨k', ran, _⟩ := switchKernel_runs zero tame promised.2
      exact ⟨_, _, .moved ran⟩

/-! ### One command -/

/-- The simulator with ghost contents, without `-t`, and the reference that it
cannot be told from. -/
structure Simulates (g : Ghost β) (r : Reference β) : Prop where
  isOff : g.system = off g.system.kernel
  separate : Separate g.system.kernel
  represents : Represents g.system.kernel g.contents r
  writes : r.writes = g.writes

section Step

variable {cleared : β} {store : Nat → β → β}

theorem ghostStep_of_effect (tame : Tame k) {g : Ghost β}
    (isOff : g.system = off k) {c : Command} {out : Outcome}
    (effect : Effect env k c out k') :
    ghostStep cleared store env c g = .ok (g.report c out,
      (out.pass (off k')).map fun s =>
        { g.after cleared store c out with system := s }) := by
  unfold ghostStep
  rw [isOff, execute_of_effect tame effect]

theorem Ghost.wrote_contents (g : Ghost β) (old pfn : Nat) :
    (g.wrote store old pfn).contents =
      Function.update g.contents pfn (store g.writes (g.contents old)) := by
  simp only [Ghost.wrote, Function.update_self, Function.update_idem]

/-- A frame is taken for a page, with permission to write if `rw` asks for it. -/
theorem taken_simulates {g : Ghost β} {r : Reference β}
    (simulates : Simulates g r) {rw : List Char} {pfnum : Fin nrPageframes}
    (inside : vpn < nrPages) (free : g.system.kernel.mapcounts pfnum = 0)
    (edits : Edits g.system.kernel k' vpn
      { valid := true, rw := makeRwflag rw, pfn := pfnum,
        priv := makeRwflag rw })
    (one : k'.mapcounts pfnum = 1) (tame : Tame k') (exact : Exact k') :
    Simulates
      { g with
        system := off k'
        contents := Function.update g.contents pfnum cleared }
      (r.setPage vpn (some
        ⟨decide (makeRwflag rw &&& accessWrite ≠ 0), cleared⟩)) := by
  obtain ⟨_, separate, represents, writes⟩ := simulates
  refine ⟨rfl, separate.edits edits tame exact ?_ ?_, ?_, writes⟩
  · rintro x ⟨_, isFrame⟩
    obtain rfl : pfnum = x := Fin.ext isFrame
    exact Or.inr free
  · rintro x ⟨_, isFrame⟩
    obtain rfl : pfnum = x := Fin.ext isFrame
    rcases makeRwflag_cases rw with readOnly | writable
    · exact Or.inl readOnly
    · refine Or.inr ⟨writable, ?_, one⟩
      change makeRwflag rw ≠ accessRead
      rw [writable]
      decide
  · have page : Pte.page (Function.update g.contents pfnum cleared)
        { valid := true, rw := makeRwflag rw, pfn := pfnum,
          priv := makeRwflag rw } =
        some ⟨decide (makeRwflag rw &&& accessWrite ≠ 0), cleared⟩ := by
      rw [Pte.page_of_valid _ rfl, Function.update_self]
      rcases makeRwflag_cases rw with readOnly | writable
      · rw [readOnly]
        rfl
      · rw [writable]
        rfl
    rw [← page]
    exact represents.stored separate inside edits (Or.inl free) cleared

/-- A write is granted in a frame that no other page has. -/
theorem wrote_simulates {g : Ghost β} {r : Reference β}
    (simulates : Simulates g r) {x : Fin nrPageframes} {pfn : Nat}
    (inside : vpn < nrPages)
    (sole : g.system.kernel.mapcounts x = 0 ∨
      g.system.kernel.mapcounts x = 1 ∧ (g.system.kernel.pte vpn).Maps x)
    (edits : Edits g.system.kernel k' vpn pte) (maps : pte.Maps x)
    (notRead : pte.priv ≠ accessRead) (separate' : Separate k')
    (isFrame : pfn = x.val) :
    Simulates
      { g.wrote store (g.system.kernel.pte vpn).pfn pfn with system := off k' }
      { r.setPage vpn (some ⟨true, store r.writes
          (g.contents (g.system.kernel.pte vpn).pfn)⟩) with
        writes := r.writes + 1 } := by
  obtain ⟨_, separate, represents, writes⟩ := simulates
  subst isFrame
  refine ⟨rfl, separate', ?_, congrArg (· + 1) writes⟩
  have stored := represents.stored separate inside edits sole
    (store g.writes (g.contents (g.system.kernel.pte vpn).pfn))
  rw [Pte.page_of_valid _ maps.1, maps.2, Function.update_self,
    decide_eq_true notRead, ← writes] at stored
  refine ⟨stored.current, ?_, stored.unknown⟩
  rw [Ghost.wrote_contents, ← writes]
  exact stored.maps

/-- A PTE that is stored as it was. -/
theorem edits_self (k : Kernel) (vpn : Nat) : Edits k k vpn (k.pte vpn) where
  entry := (Function.update_eq_self _ _).symm
  processes := rfl
  pid := rfl
  wild := fun _ => id

/-- A page fault that is served in place or by a copy leaves a PTE that maps a
frame no other page has. -/
theorem Separate.served (separate : Separate k)
    (valid : (k.pte vpn).valid = true) (tame : Tame k') (exact : Exact k')
    (room : ∀ pfnum : Fin nrPageframes, (k.pte vpn).priv ≠ accessRead →
      (k.pte vpn).pfn = pfnum.val → 2 ≤ k.mapcounts pfnum →
        ∃ x, k.mapcounts x = 0)
    (served : Served k vpn true k') :
    (k.pte vpn).priv ≠ accessRead ∧ Separate k' ∧
      ∃ pte, ∃ x : Fin nrPageframes, Edits k k' vpn pte ∧ pte.Maps x ∧
        pte.priv ≠ accessRead ∧
        (k.mapcounts x = 0 ∨ k.mapcounts x = 1 ∧ (k.pte vpn).Maps x) := by
  have notRead' : accessWrite ≠ accessRead := by decide
  cases served with
  | @alone pfnum _ notRead isFrame one edits counts =>
      have maps : (k.pte vpn).Maps pfnum := ⟨valid, isFrame⟩
      refine ⟨notRead, separate.edits edits tame exact (fun x new => ?_)
        (fun x new => ?_), _, pfnum, edits, maps, notRead',
        Or.inr ⟨one, maps⟩⟩
      · exact Or.inl new
      · obtain rfl : pfnum = x := Fin.ext (isFrame.symm.trans new.2)
        exact Or.inr ⟨rfl, notRead', by rw [counts, one]⟩
  | @copied pfnum new _ notRead isFrame shared few free edits counts =>
      refine ⟨notRead, separate.edits edits tame exact ?_ ?_, _, new, edits,
        ⟨rfl, rfl⟩, notRead', Or.inl free⟩
      · rintro x ⟨_, isNew⟩
        obtain rfl : new = x := Fin.ext isNew
        exact Or.inr free
      · rintro x ⟨_, isNew⟩
        obtain rfl : new = x := Fin.ext isNew
        exact Or.inr ⟨rfl, notRead', by rw [counts, Function.update_self]⟩
  | exhausted notRead isFrame shared few full =>
      obtain ⟨x, free⟩ := room _ notRead isFrame shared
      exact absurd free (full x)

theorem write_matches {g : Ghost β} {r : Reference β}
    (simulates : Simulates g r) (inside : vpn < nrPages)
    (valid : (g.system.kernel.pte vpn).valid = true)
    (room : Faults g.system.kernel vpn → CountedFrom g.system.kernel vpn 2 →
      freeFrame g.system.kernel ≠ none)
    {out : Outcome} (writes : Written g.system.kernel vpn out k')
    (tame : Tame k') (exact : Exact k') :
    Matches Eq Simulates
      (.ok (g.report (.write vpn) out, (out.pass (off k')).map fun s =>
        { g.after cleared store (.write vpn) out with system := s }))
      (refStep cleared store (.write vpn) r) := by
  have separate := simulates.separate
  have own := simulates.represents.own_of_valid inside valid
  obtain ⟨x, isFrame, maps⟩ := separate.frame valid
  cases writes with
  | granted allows =>
      rcases separate.current_guarded maps with readOnly | ⟨_, notRead, one⟩
      · exact absurd (by rw [readOnly]; rfl) (allows.2 (by decide))
      · rw [decide_eq_true notRead] at own
        simp only [refStep, own]
        exact .again rfl (wrote_simulates simulates inside
          (Or.inr ⟨one, maps⟩) (edits_self _ vpn) maps notRead separate isFrame)
  | refused denied handled =>
      cases handled.served separate.tame with
      | readOnly isRead =>
          rw [decide_eq_false (not_not.mpr isRead)] at own
          simp only [refStep, own]
          exact .again rfl ⟨rfl, separate, simulates.represents,
            simulates.writes⟩
      | @uncounted pfnum _ isFrame' none =>
          obtain rfl : pfnum = x := Fin.ext (isFrame'.symm.trans isFrame)
          have counted := separate.counted maps
          have few := separate.few pfnum
          omega
  | resolved denied handled allows =>
      obtain ⟨notRead, separate', pte, new, edits, maps', notRead', sole⟩ :=
        separate.served valid tame exact
          (fun pfnum notRead isFrame shared => by
            have counted := (two_le_asInt (separate.tame.small pfnum)).mpr
              ⟨shared, separate.few pfnum⟩
            have free := room ⟨handled.dirBefore, denied, notRead⟩
              ⟨pfnum, isFrame, counted⟩
            by_contra full
            push Not at full
            exact free (freeFrame_none.mpr full))
          (handled.served separate.tame)
      rw [decide_eq_true notRead] at own
      simp only [refStep, own]
      refine .again rfl (wrote_simulates simulates inside sole edits maps'
        notRead' separate' ?_)
      rw [edits.entry_here]
      exact maps'.2
  | lost _ handled denied => exact absurd (handled.allows valid) denied

theorem moved_simulates {g : Ghost β} {r : Reference β}
    (simulates : Simulates g r) {pid : Nat}
    (other : pid ≠ g.system.kernel.current.pid)
    (few : (∀ p ∈ g.system.kernel.processes, p.pid ≠ pid) → ∀ x,
      g.system.kernel.mapcounts x + g.system.kernel.current.mappings x < 2 ^ 31)
    (moved : Moved g.system.kernel pid k') (tame : Tame k')
    (exact : Exact k') :
    Simulates { g with system := off k' } (r.switch pid) := by
  obtain ⟨_, separate, represents, writes⟩ := simulates
  have sameWrites : (r.switch pid).writes = r.writes := by
    unfold Reference.switch
    split
    · rfl
    · rfl
  cases moved with
  | @found nxt isFound =>
      have perm := changeCurrent_perm isFound
      have isPid : nxt.pid = pid := by simpa using List.find?_some isFound
      have member : nxt ∈ g.system.kernel.all :=
        List.mem_cons_of_mem _ (List.mem_of_find?_eq_some isFound)
      have switched : r.switch pid = { r with current := pid } := by
        unfold Reference.switch
        rw [← isPid, represents.maps nxt member]
      refine ⟨rfl, separate.perm perm rfl, ?_, sameWrites.trans writes⟩
      rw [switched]
      exact ⟨isPid.symm,
        fun p member => represents.maps p (perm.mem_iff.mp member),
        fun other unknown => represents.unknown other fun p member =>
          unknown p (perm.mem_iff.mpr member)⟩
  | forked unknown forks =>
      have notListed := unknown_iff.mp unknown
      have fresh : ∀ p ∈ g.system.kernel.all, p.pid ≠ pid := by
        intro p member
        rcases List.mem_cons.mp member with rfl | inList
        · exact other.symm
        · exact notListed p inList
      exact ⟨rfl, forks.separate separate fresh (few notListed) tame exact,
        forks.represents represents separate fresh, sameWrites.trans writes⟩

/-! ### Whole runs -/

/-- The condition on every command of a run. -/
def Expected (env : Env) (c : Command) (s : System) : Prop :=
  Promised env c s ∧ FewMappings c s

/-- The simulator does what the reference does. -/
theorem ghostStep_matches (zero : env.ZeroFilled) {g : Ghost β}
    {r : Reference β} (simulates : Simulates g r) {c : Command}
    (expected : Expected env c g.system) :
    Matches Eq Simulates (ghostStep cleared store env c g)
      (refStep cleared store c r) := by
  obtain ⟨promised, few⟩ := expected
  have separate := simulates.separate
  have isOff := simulates.isOff
  obtain ⟨out, k', effect⟩ :
      ∃ out k', Effect env g.system.kernel c out k' := by
    rw [isOff] at promised
    exact exists_effect zero separate promised
  have tame := effect.tame zero separate.tame
  have exact : Exact k' := by
    have kept := promised.countsKept few
    rw [isOff] at kept
    exact effect.exact zero separate.tame separate.exact kept
  rw [ghostStep_of_effect separate.tame isOff effect]
  cases effect with
  | present inside valid =>
      simp only [refStep, simulates.represents.own_of_valid inside valid]
      exact .leave rfl ⟨rfl, separate, simulates.represents, simulates.writes⟩
  | full inside invalid noFrame => exact absurd noFrame (promised.2 invalid)
  | @taken _ _ pfnum _ _ inside invalid free opened =>
      simp only [refStep, simulates.represents.own_of_invalid inside invalid]
      exact .again rfl (taken_simulates simulates inside (freeFrame_some free)
        (takeFrame_edits (opened.agrees zero)) (Function.update_self ..) tame
        exact)
  | absent inside invalid =>
      simp only [refStep, simulates.represents.own_of_invalid inside invalid]
      exact .again rfl ⟨rfl, separate, simulates.represents, simulates.writes⟩
  | cleared inside valid clears =>
      simp only [refStep, simulates.represents.own_of_valid inside valid]
      obtain ⟨_, _, edits, _⟩ := clears.edits
      refine .again rfl ⟨rfl, separate.edits edits tame exact ?_ ?_,
        simulates.represents.edits separate inside edits (fun _ _ _ _ _ => rfl)
          (fun _ _ _ _ => rfl), simulates.writes⟩
      · exact fun _ maps => absurd maps.1 Bool.false_ne_true
      · exact fun _ maps => absurd maps.1 Bool.false_ne_true
  | seen inside valid =>
      simp only [refStep, simulates.represents.own_of_valid inside valid]
      exact .again rfl ⟨rfl, separate, simulates.represents, simulates.writes⟩
  | unseen inside invalid =>
      simp only [refStep, simulates.represents.own_of_invalid inside invalid]
      exact .again rfl ⟨rfl, separate, simulates.represents, simulates.writes⟩
  | written inside writes =>
      exact write_matches simulates inside promised.2.1 promised.2.2 writes tame
        exact
  | moved ran =>
      exact .again rfl (moved_simulates simulates promised.1 few
        (moved_of_switchKernel zero separate.tame ran) tame exact)

/-- The simulator at its start, whatever is in its frames. -/
def Ghost.start (contents : Nat → β) : Ghost β :=
  { system := init, contents := contents, writes := 0 }

theorem start_simulates (contents : Nat → β) :
    Simulates (Ghost.start contents) Reference.start where
  isOff := rfl
  separate :=
    { tame := initKernel_tame
      exact := initKernel_exact
      few := fun _ => by
        change 0 < 2 ^ 31
        decide
      pids := List.nodup_singleton _
      guarded := fun p member slot x maps => by
        obtain rfl : p = initKernel.current := List.mem_singleton.mp member
        exact absurd maps.1 Bool.false_ne_true }
  represents :=
    { current := rfl
      maps := fun p member => by
        obtain rfl : p = initKernel.current := List.mem_singleton.mp member
        change Function.update (fun _ => none) 0 (some fun _ => none) 0 = _
        rw [Function.update_self]
        refine congrArg some (funext fun vpn => ?_)
        unfold Process.pageMap
        split
        · rfl
        · rfl
      unknown := fun pid fresh => by
        have notInit := fresh _ initKernel.current_mem_all
        change Function.update (fun _ => none) 0 (some fun _ => none) pid = _
        exact Function.update_of_ne notInit.symm _ _ }
  writes := rfl

/-- Copy-on-write cannot be told from eager copying: while the environment keeps
its promises and no fork leaves a frame with `2 ^ 31` mappings, every command
reports what it reports in the reference, where every process has its pages to
itself. -/
theorem copyOnWrite_matches (cleared : β) (store : Nat → β → β)
    (contents : Nat → β) (env : Env) (zero : env.ZeroFilled)
    (workload : List Command)
    (along : Along (execute false env) (Expected env) workload init) :
    Matches (List.Forall₂ Eq) Simulates
      (runAll (ghostStep cleared store env) workload (Ghost.start contents))
      (runAll (refStep cleared store) workload Reference.start) := by
  have alongGhost : Along (ghostStep cleared store env)
      (fun c g => Expected env c g.system) workload (Ghost.start contents) := by
    apply Along.pull Ghost.system _ along
    intro c g report g' ran
    unfold ghostStep at ran
    cases executed : execute false env c g.system with
    | error fault => simp [executed] at ran
    | ok result =>
        obtain ⟨out, pass⟩ := result
        rw [executed] at ran
        cases pass with
        | leave s => simp [Pass.map] at ran
        | again s =>
            obtain ⟨_, same⟩ := Prod.mk.inj (Except.ok.inj ran)
            obtain rfl := Pass.again.inj same
            exact ⟨out, rfl⟩
  have steps (c : Command) (g : Ghost β) (r : Reference β)
      (simulates : Simulates g r) (expected : Expected env c g.system) :
      Matches Eq Simulates (ghostStep cleared store env c g)
        (refStep cleared store c r) :=
    ghostStep_matches zero simulates expected
  exact runAll_matches steps (start_simulates contents) alongGhost

end Step

instance (env : Env) : ∀ c s, Decidable (Promised env c s)
  | .alloc vpn _, s => inferInstanceAs (Decidable
      (vpn < nrPages ∧
        (¬ (s.kernel.pte vpn).valid = true → freeFrame s.kernel ≠ none)))
  | .free vpn, _ => inferInstanceAs (Decidable (vpn < nrPages))
  | .read vpn, _ => inferInstanceAs (Decidable (vpn < nrPages))
  | .write vpn, s => inferInstanceAs (Decidable
      (vpn < nrPages ∧ (s.kernel.pte vpn).valid = true ∧
        (Faults s.kernel vpn → CountedFrom s.kernel vpn 2 →
          freeFrame s.kernel ≠ none)))
  | .switch pid, s => inferInstanceAs (Decidable
      (pid ≠ s.kernel.current.pid ∧
        (findProcess env pid s.kernel).isOk = true))

instance : ∀ c s, Decidable (FewMappings c s)
  | .switch pid, s => inferInstanceAs (Decidable
      ((∀ p ∈ s.kernel.processes, p.pid ≠ pid) → ∀ x,
        s.kernel.mapcounts x + s.kernel.current.mappings x < 2 ^ 31))
  | .alloc _ _, _ => .isTrue trivial
  | .free _, _ => .isTrue trivial
  | .read _, _ => .isTrue trivial
  | .write _, _ => .isTrue trivial

instance (env : Env) (c : Command) (s : System) :
    Decidable (Expected env c s) :=
  inferInstanceAs (Decidable (_ ∧ _))

/-- A process writes to a page and forks; parent and child write to the page
and read it, and the child frees it. -/
def writeOnBothSides : List Command :=
  [.alloc 0 ['r', 'w'], .write 0, .switch 1, .read 0, .write 0, .read 0,
    .switch 0, .read 0, .write 0, .read 0, .switch 1, .free 0, .read 0]

theorem copyOnWrite_matches_writeOnBothSides :
    Matches (List.Forall₂ Eq) Simulates
      (runAll (ghostStep 0 (fun n _ => n + 1) zeroEnv) writeOnBothSides
        (Ghost.start fun _ => 0))
      (runAll (refStep 0 fun n _ => n + 1) writeOnBothSides
        Reference.start) :=
  copyOnWrite_matches 0 (fun n _ => n + 1) (fun _ => 0) zeroEnv
    zeroEnv_zeroFilled writeOnBothSides (by decide +kernel)

/-! ### Too many mappings -/

/-- From process `i` on, every process forks the next one, `n` times; the last
one writes to page 0. -/
def forkThenWrite : Nat → Nat → List Command
  | _, 0 => [.write 0]
  | i, n + 1 => .switch (i + 1) :: forkThenWrite (i + 1) n

/-- Process `i` is the last of a chain of processes that share frame 0 as their
page 0, allocated for writing. -/
structure Chain (i : Nat) (k : Kernel) : Prop where
  tame : Tame k
  pid : k.current.pid = i
  older : ∀ p ∈ k.processes, p.pid < i
  count : k.mapcounts ⟨0, by decide⟩ = i + 1
  once : k.current.mappings ⟨0, by decide⟩ = 1
  valid : (k.pte 0).valid = true
  pfn : (k.pte 0).pfn = 0
  priv : (k.pte 0).priv = 0x03
  rw : (k.pte 0).rw = accessRead ∨ i = 0 ∧ (k.pte 0).rw = 0x03

/-- The current process of the reference is `i`, with a writable page 0, and
there is none after it. -/
structure ChainRef (i : Nat) (r : Reference β) : Prop where
  current : r.current = i
  unknown : ∀ pid, i < pid → r.maps pid = none
  page : ∃ content, r.own 0 = some ⟨true, content⟩

variable {i : Nat}

theorem Chain.forked (chain : Chain i k) (small : i + 2 < 2 ^ 32) :
    ∃ k', switchKernel zeroEnv (i + 1) k = .ok k' ∧ Chain (i + 1) k' := by
  have unknown : ∀ p ∈ k.processes, p.pid ≠ i + 1 := by
    intro p member
    have older := chain.older p member
    omega
  have notHead : findProcess zeroEnv (i + 1) k = .ok none := by
    have far : zeroEnv.headPid k ≠ i + 1 := by
      change 2 ^ 32 ≠ i + 1
      omega
    simp only [findProcess, unknown_iff.mpr unknown, far, and_false, if_false]
  obtain ⟨k₁, nxt, ran, forks⟩ :=
    fork_runs zeroEnv_zeroFilled chain.tame (i + 1)
  have switched : switchKernel zeroEnv (i + 1) k =
      .ok (changeCurrent nxt k₁.processes k₁) := by
    simp only [switchKernel, notHead, ran, bind, Except.bind, pure, Except.pure]
  have child : nxt.entry (slotOf 0) = (k.pte 0).share :=
    (forks.child _).trans (Pte.child_of_valid chain.valid)
  have notWrite : (k.pte 0).rw ≠ accessWrite := by
    rcases chain.rw with readOnly | ⟨_, writable⟩
    · rw [readOnly]
      decide
    · rw [writable]
      decide
  refine ⟨_, switched, ?_, forks.childPid, fun p member => ?_, ?_, ?_, ?_, ?_,
    ?_, ?_⟩
  · exact (moved_of_switchKernel zeroEnv_zeroFilled chain.tame switched).tame
      chain.tame
  · rcases List.mem_append.mp member with old | parent
    · rw [forks.processes] at old
      have older := chain.older p old
      omega
    · obtain rfl := List.mem_singleton.mp parent
      rw [forks.parentPid, chain.pid]
      omega
  · change k₁.mapcounts _ = _
    rw [forks.counts, chain.count, chain.once]
    exact toUInt_of_lt small
  · exact (forks.mappings_child _).trans chain.once
  · change (nxt.entry (slotOf 0)).valid = true
    rw [child, Pte.share_valid]
    exact chain.valid
  · change (nxt.entry (slotOf 0)).pfn = 0
    rw [child, Pte.share_pfn]
    exact chain.pfn
  · change (nxt.entry (slotOf 0)).priv = _
    rw [child, Pte.share_priv notWrite]
    exact chain.priv
  · left
    change (nxt.entry (slotOf 0)).rw = _
    rw [child]
    exact Pte.share_rw chain.valid

theorem ChainRef.forked {r : Reference β} (chain : ChainRef i r) :
    ChainRef (i + 1) (r.switch (i + 1)) := by
  have switched : r.switch (i + 1) =
      { r with
        current := i + 1
        maps := Function.update r.maps (i + 1) (some r.own) } := by
    unfold Reference.switch
    rw [chain.unknown (i + 1) (Nat.lt_succ_self i)]
  rw [switched]
  refine ⟨rfl, fun pid later => ?_, ?_⟩
  · have other : pid ≠ i + 1 := by omega
    exact (Function.update_of_ne other _ _).trans
      (chain.unknown pid (by omega))
  · obtain ⟨content, page⟩ := chain.page
    refine ⟨content, ?_⟩
    unfold Reference.own
    simp only [Function.update_self, Option.getD_some]
    exact page

/-- With `2 ^ 31` mappings the page fault handler takes the count for negative
and refuses the write. -/
theorem Chain.refused (chain : Chain i k) (many : i + 1 = 2 ^ 31) :
    ∃ pfnum : Fin nrPageframes, (k.pte 0).pfn = pfnum.val ∧
      asInt (k.mapcounts pfnum) < 1 ∧ Written k 0 (.unable 0) k := by
  have negative : asInt (k.mapcounts ⟨0, by decide⟩) < 1 := by
    rw [chain.count]
    unfold asInt
    split
    · omega
    · omega
  obtain ⟨pd, isDir⟩ := Process.dir_of_valid chain.valid
  have here : k.pte 0 = pd (pteIdx 0) := Kernel.pte_of_dir isDir
  have denied : ¬ (k.pte 0).Allows accessWrite := by
    intro allows
    rcases chain.rw with readOnly | ⟨first, _⟩
    · exact allows.2 (by decide) (by rw [readOnly]; rfl)
    · omega
  have notRead : (k.pte 0).priv ≠ accessRead := by
    rw [chain.priv]
    decide
  exact ⟨⟨0, by decide⟩, chain.pfn, negative, .refused denied
    (.uncounted isDir (here ▸ notRead) (here ▸ chain.pfn) negative)⟩

/-- The last process of a chain with `2 ^ 31` members is denied the write that
the reference grants. -/
theorem Chain.diverges (cleared : β) (store : Nat → β → β) (n : Nat)
    {g : Ghost β} {r : Reference β} (isOff : g.system = off g.system.kernel)
    (chain : Chain i g.system.kernel) (chainRef : ChainRef i r)
    (many : i + n + 1 = 2 ^ 31) :
    Along (execute false zeroEnv) (Promised zeroEnv) (forkThenWrite i n)
        g.system ∧
      ¬ Matches (List.Forall₂ Eq) (fun _ _ => True)
        (runAll (ghostStep cleared store zeroEnv) (forkThenWrite i n) g)
        (runAll (refStep cleared store) (forkThenWrite i n) r) := by
  induction n generalizing i g r with
  | zero =>
      obtain ⟨pfnum, isFrame, negative, writes⟩ := chain.refused many
      have inside : 0 < nrPages := by decide
      constructor
      · refine ⟨⟨inside, chain.valid, ?_⟩, fun _ _ _ => trivial⟩
        rintro _ ⟨pfnum', isFrame', shared⟩
        obtain rfl : pfnum' = pfnum := Fin.ext (isFrame'.symm.trans isFrame)
        omega
      · have ran : ghostStep cleared store zeroEnv (.write 0) g = _ :=
          ghostStep_of_effect chain.tame isOff (.written inside writes)
        obtain ⟨content, page⟩ := chainRef.page
        obtain ⟨r', ran'⟩ : ∃ r', refStep cleared store (.write 0) r =
            .ok (.written true, .again r') := by
          simp only [refStep, page]
          exact ⟨_, rfl⟩
        simp only [forkThenWrite, runAll, ran, ran', Outcome.pass, Pass.map]
        intro matched
        cases matched with
        | again prints =>
            have same := (List.forall₂_cons.mp prints).1
            simp [Ghost.report] at same
  | succ n inductionHypothesis =>
      obtain ⟨k', switched, chain'⟩ := chain.forked (by omega)
      have ran : ghostStep cleared store zeroEnv (.switch (i + 1)) g =
          .ok (.switched, .again { g with system := off k' }) :=
        ghostStep_of_effect chain.tame isOff (.moved switched)
      obtain ⟨along, differs⟩ := inductionHypothesis
        (g := { g with system := off k' }) rfl chain' chainRef.forked (by omega)
      constructor
      · refine ⟨⟨?_, ?_⟩, fun out s' ran' => ?_⟩
        · rw [chain.pid]
          exact Nat.succ_ne_self i
        · simp only [switchKernel] at switched
          cases searched : findProcess zeroEnv (i + 1) g.system.kernel with
          | error fault => simp [searched, bind, Except.bind] at switched
          | ok found => rfl
        · rw [isOff, execute_of_effect chain.tame (.moved switched)] at ran'
          obtain ⟨_, same⟩ := Prod.mk.inj (Except.ok.inj ran')
          obtain rfl := Pass.again.inj same
          exact along
      · simp only [forkThenWrite, runAll, ran, refStep]
        exact fun matched => differs matched.of_emit

/-- A page is allocated for reading and writing, and `2 ^ 31 - 1` forks share
it before the last process writes to it. -/
def manyForks : List Command :=
  .alloc 0 ['r', 'w'] :: forkThenWrite 0 (2 ^ 31 - 1)

/-- The kernel after the allocation. -/
def sharedLater : Kernel :=
  takeFrame initKernel 0 0x03 ⟨0, nrPageframes_pos⟩ (zeroEnv.directory 0) 1

theorem sharedLater_effect :
    Effect zeroEnv initKernel (.alloc 0 ['r', 'w']) (.allocated 0 0)
      sharedLater :=
  have free : freeFrame initKernel = some ⟨0, by decide⟩ := rfl
  .taken (by decide) (by decide) free (.fresh rfl)

theorem sharedLater_chain : Chain 0 sharedLater where
  tame := sharedLater_effect.tame zeroEnv_zeroFilled initKernel_tame
  pid := rfl
  older := fun _ member => absurd member List.not_mem_nil
  count := rfl
  once := by decide +kernel
  valid := rfl
  pfn := rfl
  priv := rfl
  rw := Or.inr ⟨rfl, rfl⟩

/-- Without a bound on the mappings copy-on-write is told from eager copying. -/
theorem copyOnWrite_overflow :
    zeroEnv.ZeroFilled ∧
      Along (execute false zeroEnv) (Promised zeroEnv) manyForks init ∧
      ¬ Matches (List.Forall₂ Eq) (fun _ _ => True)
        (runAll (ghostStep 0 (fun n _ => n + 1) zeroEnv) manyForks
          (Ghost.start fun _ => 0))
        (runAll (refStep 0 fun n _ => n + 1) manyForks Reference.start) := by
  have ran := execute_of_effect initKernel_tame sharedLater_effect
  let g : Ghost Nat :=
    { system := off sharedLater
      contents := Function.update (fun _ => 0) 0 0
      writes := 0 }
  have ranGhost : ghostStep 0 (fun n _ => n + 1) zeroEnv (.alloc 0 ['r', 'w'])
      (Ghost.start fun _ => 0) = .ok (.allocated true, .again g) :=
    ghostStep_of_effect initKernel_tame rfl sharedLater_effect
  have chainRef : ChainRef 0
      (Reference.setPage Reference.start 0 (some ⟨true, 0⟩)) := by
    refine ⟨rfl, fun pid later => ?_, 0, rfl⟩
    have other : pid ≠ 0 := by omega
    change Function.update (Function.update (fun _ => none) 0 _) 0 _ pid = none
    rw [Function.update_of_ne other, Function.update_of_ne other]
  obtain ⟨along, differs⟩ := Chain.diverges 0 (fun n _ => n + 1) (2 ^ 31 - 1)
    (g := g) rfl sharedLater_chain chainRef (by omega)
  refine ⟨zeroEnv_zeroFilled, ⟨⟨by decide, by decide⟩, fun out s' ran' => ?_⟩,
    fun matched => differs ?_⟩
  · obtain ⟨_, same⟩ := Prod.mk.inj (Except.ok.inj (ran.symm.trans ran'))
    obtain rfl := Pass.again.inj same
    exact along
  · simp only [manyForks, runAll, ranGhost] at matched
    exact matched.of_emit

end OsPAs.Vm
