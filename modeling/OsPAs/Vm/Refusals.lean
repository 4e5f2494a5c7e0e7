/-
Module: OsPAs.Vm.Refusals
Purpose: Accesses that have to be refused.  When is a copy-on-write fault that
  cannot be served, or an access to a page that is not mapped, turned down
  without a trace?
Trusted boundary: none
Main exports: Unservable, TurnedDown, unservable_turnedDown_iff, Blank,
  Unmapped, RefusesCleanly, CanRefuse, unmapped_refused_iff
-/
import OsPAs.Vm.MapCounts

namespace OsPAs.Vm

open Lib

variable {env : Env} {k k' : Kernel} {vpn : Nat}

/-! ### Copies that no frame is left for -/

/-- A write to page `vpn` asks for a copy of frame `pfnum`, and every frame is
in use. -/
structure Unservable (k : Kernel) (vpn : Nat) (pfnum : Fin nrPageframes) :
    Prop where
  inside : vpn < nrPages
  full : ∀ x, k.mapcounts x ≠ 0
  valid : (k.pte vpn).valid = true
  notWritable : (k.pte vpn).rw &&& accessWrite = 0
  backedUp : (k.pte vpn).priv ≠ accessRead
  isFrame : (k.pte vpn).pfn = pfnum.val
  shared : 2 ≤ k.mapcounts pfnum

/-- A write to page `vpn` is turned down without a trace: the fault handler and
the access return false, the PTE and the map counts are as before, and another
write after it is not let through either. -/
structure TurnedDown (env : Env) (s : System) (vpn : Nat) : Prop where
  handler : ∃ k, handlePageFault env vpn accessWrite s.kernel =
      .ok (false, k) ∧
    k.pte vpn = s.kernel.pte vpn ∧ k.mapcounts = s.kernel.mapcounts
  access : ∃ s', accessMemory false env vpn accessWrite s =
      .ok (.unable vpn, s') ∧
    s'.kernel.pte vpn = s.kernel.pte vpn ∧
    s'.kernel.mapcounts = s.kernel.mapcounts ∧
    ∃ s'', accessMemory false env vpn accessWrite s' = .ok (.unable vpn, s'')

/-- A write that the fault handler refuses without touching anything. -/
theorem accessMemory_of_refused {s : System} (inside : vpn < nrPages)
    (owned : s.kernel.current.outerPtes (slotOf vpn).1 ≠ .wild)
    (denied : ¬ (s.kernel.pte vpn).Allows accessWrite)
    (refused : handlePageFault env vpn accessWrite s.kernel =
      .ok (false, s.kernel)) :
    accessMemory false env vpn accessWrite s = .ok (.unable vpn, s) := by
  rw [accessMemory_eq false inside exclusive_write,
    accessLoop_fault 1 inside owned denied, refused]

/-- What the fault handler answers depends on the map count alone, once the
page has a directory and is not read-only for good. -/
theorem Handled.ret_iff {ret : Bool} {pfnum : Fin nrPageframes}
    (handled : Handled k vpn ret k') (notRead : (k.pte vpn).priv ≠ accessRead)
    (isFrame : (k.pte vpn).pfn = pfnum.val) :
    ret = false ↔ asInt (k.mapcounts pfnum) < 1 := by
  have same {pd : Directory} {x : Fin nrPageframes}
      (isDir : k.current.outerPtes (slotOf vpn).1 = .dir pd)
      (names : (pd (pteIdx vpn)).pfn = x.val) : x = pfnum := by
    apply Fin.ext
    rw [← names, ← isFrame, Kernel.pte_of_dir isDir]
  cases handled with
  | readOnly isDir isRead =>
      rw [Kernel.pte_of_dir isDir] at notRead
      exact absurd isRead notRead
  | alone isDir _ names one =>
      obtain rfl := same isDir names
      simp [one]
  | copied isDir _ names shared =>
      obtain rfl := same isDir names
      simp only [reduceCtorEq, false_iff]
      omega
  | exhausted isDir _ names shared =>
      obtain rfl := same isDir names
      simp only [reduceCtorEq, false_iff]
      omega
  | uncounted isDir _ names few =>
      obtain rfl := same isDir names
      simp [few]

/-- A shared frame still has a mapping after one is dropped. -/
theorem dropShare_counted {pfnum : Fin nrPageframes}
    (shared : 2 ≤ asInt (k.mapcounts pfnum)) :
    1 ≤ asInt ((dropShare k pfnum).mapcounts pfnum) := by
  have dropped : (dropShare k pfnum).mapcounts pfnum =
      subUInt (k.mapcounts pfnum) 1 := Function.update_self ..
  rw [dropped]
  unfold asInt subUInt at *
  split at shared <;> split <;> split <;> omega

/-- A fault that was taken for resolved is not refused the next time: the frame
of the page is still counted. -/
theorem Handled.not_refused_again {k₁ : Kernel}
    (handled : Handled k vpn true k₁)
    (denied : ¬ (k₁.pte vpn).Allows accessWrite)
    (handled' : Handled k₁ vpn false k') : False := by
  cases handled with
  | alone isDir notRead isFrame one =>
      have few := (handled'.ret_iff
        (by
          rw [storePte_pte]
          exact show accessWrite ≠ accessRead by decide)
        (by
          rw [storePte_pte]
          exact isFrame)).mp rfl
      have counted : 1 ≤ asInt (k.mapcounts _) := one.ge
      exact absurd few (not_lt.mpr counted)
  | copied =>
      refine denied (allows_of_rw ?_ ?_ accessWrite)
      · rw [storePte_pte]
      · rw [storePte_pte]
  | exhausted isDir notRead isFrame shared =>
      have few := (handled'.ret_iff
        (by
          rw [storePte_pte]
          exact notRead)
        (by
          rw [storePte_pte]
          exact isFrame)).mp rfl
      exact absurd few (not_lt.mpr (dropShare_counted shared))

namespace Unservable

variable {pfnum : Fin nrPageframes}

theorem dir (unservable : Unservable k vpn pfnum) :
    ∃ pd, k.current.outerPtes (slotOf vpn).1 = .dir pd :=
  Process.dir_of_valid unservable.valid

theorem denied (unservable : Unservable k vpn pfnum) :
    ¬ (k.pte vpn).Allows accessWrite := by
  rintro ⟨_, writable⟩
  exact writable (by decide) unservable.notWritable

instance (k : Kernel) (vpn : Nat) (pfnum : Fin nrPageframes) :
    Decidable (Unservable k vpn pfnum) :=
  decidable_of_iff
    (vpn < nrPages ∧ (∀ x, k.mapcounts x ≠ 0) ∧ (k.pte vpn).valid = true ∧
      (k.pte vpn).rw &&& accessWrite = 0 ∧ (k.pte vpn).priv ≠ accessRead ∧
      (k.pte vpn).pfn = pfnum.val ∧ 2 ≤ k.mapcounts pfnum)
    ⟨fun ⟨inside, full, valid, notWritable, backedUp, isFrame, shared⟩ =>
        ⟨inside, full, valid, notWritable, backedUp, isFrame, shared⟩,
      fun ⟨inside, full, valid, notWritable, backedUp, isFrame, shared⟩ =>
        ⟨inside, full, valid, notWritable, backedUp, isFrame, shared⟩⟩

end Unservable

/-- In every state, reached or not, a copy-on-write fault that no frame is left
for is turned down without a trace if and only if the map count of the shared
frame, which the handler reads as an `int`, is not positive. -/
theorem unservable_turnedDown_iff (env : Env) (s : System) (vpn : Nat)
    (pfnum : Fin nrPageframes) (unservable : Unservable s.kernel vpn pfnum) :
    TurnedDown env s vpn ↔ asInt (s.kernel.mapcounts pfnum) < 1 := by
  obtain ⟨pd, isDir⟩ := unservable.dir
  have isFrame := unservable.isFrame
  rw [Kernel.pte_of_dir isDir] at isFrame
  constructor
  · rintro ⟨⟨k, refused, _⟩, _⟩
    have handled := handled_of_handlePageFault unservable.inside refused
    exact (handled.ret_iff unservable.backedUp unservable.isFrame).mp rfl
  · intro few
    obtain ⟨ret, k, handled⟩ := exists_handled isDir (by
      rw [isFrame]
      exact pfnum.isLt)
    obtain rfl :=
      (handled.ret_iff unservable.backedUp unservable.isFrame).mpr few
    obtain rfl : k = s.kernel := by
      cases handled with
      | readOnly => rfl
      | uncounted => rfl
    have refused : handlePageFault env vpn accessWrite s.kernel =
        .ok (false, s.kernel) :=
      handlePageFault_of_handled unservable.inside handled
    have access := accessMemory_of_refused unservable.inside
      (by rw [isDir]; simp) unservable.denied refused
    exact ⟨⟨_, refused, rfl, rfl⟩, s, access, rfl, rfl, s, access⟩

/-- A process takes all page frames and forks a child. -/
def fillAndFork : List Command :=
  (List.range nrPageframes).map (fun vpn => .alloc vpn ['r', 'w']) ++
    [.switch 1]

set_option maxRecDepth 4000 in
/-- Then no frame is free, and a write of the child to page 0 is served. -/
theorem fillAndFork_reaches :
    ∃ s, Reaches (execute false zeroEnv) fillAndFork init s ∧
      Unservable s.kernel 0 ⟨0, by decide⟩ ∧
      ((handlePageFault zeroEnv 0 accessWrite s.kernel).map
        Prod.fst).toOption = some true ∧
      ∃ s' ∈ (accessMemory false zeroEnv 0 accessWrite s).toOption,
        s'.1 = .translated false 0 0 ∧
        s'.2.kernel.mapcounts ⟨0, by decide⟩ = 1 ∧
        OsPAs.Vm.mappings s'.2.kernel ⟨0, by decide⟩ = 2 :=
  exists_of_endsWith (execute false zeroEnv) fillAndFork init _ (by decide +kernel)

theorem unservable_turnedDown_iff_fillAndFork :
    ∃ s, Reaches (execute false zeroEnv) fillAndFork init s ∧
      Unservable s.kernel 0 ⟨0, by decide⟩ ∧
      (TurnedDown zeroEnv s 0 ↔
        asInt (s.kernel.mapcounts ⟨0, by decide⟩) < 1) := by
  obtain ⟨s, reached, unservable, _⟩ := fillAndFork_reaches
  exact ⟨s, reached, unservable,
    unservable_turnedDown_iff zeroEnv s 0 ⟨0, by decide⟩ unservable⟩

/-- The child's first write gives up its share of frame 0, and goes through to
the frame that its parent still maps. -/
theorem unservable_goes_through :
    ∃ s, Reaches (execute false zeroEnv) fillAndFork init s ∧
      Unservable s.kernel 0 ⟨0, by decide⟩ ∧ ¬ TurnedDown zeroEnv s 0 ∧
      ∃ s', accessMemory false zeroEnv 0 accessWrite s =
          .ok (.translated false 0 0, s') ∧
        s'.kernel.mapcounts ⟨0, by decide⟩ = 1 ∧
        OsPAs.Vm.mappings s'.kernel ⟨0, by decide⟩ = 2 := by
  obtain ⟨s, reached, unservable, served, s', isNext, wrote⟩ := fillAndFork_reaches
  refine ⟨s, reached, unservable, ?_, ?_⟩
  · rintro ⟨⟨k, refused, _⟩, _⟩
    rw [refused] at served
    simp [Except.map, Except.toOption] at served
  · obtain ⟨out, counts⟩ := wrote
    refine ⟨s'.2, ?_, counts⟩
    rw [← out]
    exact mem_toOption.mp isNext

/-! ### What an invalid PTE carries -/

/-- An invalid PTE names frame 0 and was not set up for reading. -/
def Pte.Blank (pte : Pte) : Prop :=
  pte.valid = true ∨ pte.pfn = 0 ∧ pte.priv ≠ accessRead

/-- Every invalid PTE names frame 0 and was not set up for reading. -/
def Blank (k : Kernel) : Prop := ∀ p ∈ k.all, ∀ slot, (p.entry slot).Blank

theorem zeroPte_blank : zeroPte.Blank := Or.inr ⟨rfl, by decide⟩

theorem Pte.Blank.share {pte : Pte} (blank : pte.Blank) : pte.share.Blank := by
  unfold Pte.share
  split
  · rename_i valid
    exact Or.inl valid
  · exact blank

theorem Pte.Blank.child {pte : Pte} (blank : pte.Blank) : pte.child.Blank := by
  unfold Pte.child
  split
  · exact blank.share
  · exact zeroPte_blank

theorem Blank.edits {pte : Pte} (blank : Blank k) (edits : Edits k k' vpn pte)
    (new : pte.Blank) : Blank k' := by
  intro p member slot
  rcases List.mem_cons.mp member with rfl | other
  · by_cases same : slot = slotOf vpn
    · subst same
      rw [edits.entry_here]
      exact new
    · rw [edits.entry_of_ne same]
      exact blank _ k.current_mem_all slot
  · rw [edits.processes] at other
    exact blank p (List.mem_cons_of_mem _ other) slot

theorem Blank.served {ret : Bool} (blank : Blank k)
    (served : Served k vpn ret k') : Blank k' := by
  have here : (k.pte vpn).Blank := blank _ k.current_mem_all _
  cases served with
  | readOnly => exact blank
  | uncounted => exact blank
  | alone _ _ _ edits =>
      apply blank.edits edits
      rcases here with valid | ⟨pfn, _⟩
      · exact Or.inl valid
      · exact Or.inr ⟨pfn, (by decide : accessWrite ≠ accessRead)⟩
  | copied _ _ _ _ _ edits => exact blank.edits edits (Or.inl rfl)
  | exhausted _ _ _ _ _ edits => exact blank.edits edits here

theorem Blank.moved {pid : Nat} (blank : Blank k) (moved : Moved k pid k') :
    Blank k' := by
  cases moved with
  | found isFound =>
      intro p member
      exact blank p ((changeCurrent_perm isFound).mem_iff.mp member)
  | @forked k₁ nxt _ forks =>
      intro p member slot
      have listed := changeCurrent_perm_fork.mem_iff.mp member
      have parent := blank _ k.current_mem_all slot
      simp only [Kernel.all, List.mem_cons, forks.processes] at listed
      rcases listed with rfl | rfl | other
      · rw [forks.child]
        exact parent.child
      · rw [forks.parent]
        exact parent.share
      · exact blank p (List.mem_cons_of_mem _ other) slot

theorem Effect.blank (zero : env.ZeroFilled) (tame : Tame k) (blank : Blank k)
    {c : Command} {out : Outcome} (effect : Effect env k c out k') :
    Blank k' := by
  cases effect with
  | present => exact blank
  | full => exact blank
  | absent => exact blank
  | seen => exact blank
  | unseen => exact blank
  | taken _ _ _ opened =>
      exact blank.edits (takeFrame_edits (opened.agrees zero)) (Or.inl rfl)
  | cleared _ _ clears =>
      obtain ⟨_, _, edits, _⟩ := clears.edits
      exact blank.edits edits zeroPte_blank
  | written _ writes =>
      cases writes with
      | granted => exact blank
      | refused _ handled => exact blank.served (handled.served tame)
      | resolved _ handled => exact blank.served (handled.served tame)
      | lost _ handled _ handled' =>
          have servedNow := handled.served tame
          exact (blank.served servedNow).served
            (handled'.served (servedNow.tame tame))
  | moved ran => exact blank.moved (moved_of_switchKernel zero tame ran)

theorem reached_blank (zero : env.ZeroFilled) {workload : List Command}
    {s : System} (reached : Reaches (execute false env) workload init s) :
    s = off s.kernel ∧ Tame s.kernel ∧ Blank s.kernel := by
  apply reaches_invariant
    (fun s => s = off s.kernel ∧ Tame s.kernel ∧ Blank s.kernel) _ _
    (along_true _ workload init) reached
  · rintro c s out pass ⟨isOff, tame, blank⟩ _ ran
    rw [isOff] at ran
    obtain ⟨k', rfl, effect⟩ := effect_of_execute tame ran
    rw [Outcome.pass_state]
    exact ⟨rfl, effect.tame zero tame, effect.blank zero tame blank⟩
  · refine ⟨rfl, initKernel_tame, ?_⟩
    intro p member slot
    obtain rfl : p = initKernel.current := by
      simpa [Kernel.all, init, initKernel] using member
    exact zeroPte_blank

/-! ### Accesses to pages that are not mapped -/

/-- The three commands that access a page. -/
inductive Access where
  | read
  | write
  | free
deriving DecidableEq, Repr

/-- The command for an access to a page. -/
def Access.command : Access → Nat → Command
  | .read, vpn => .read vpn
  | .write, vpn => .write vpn
  | .free, vpn => .free vpn

/-- Page `vpn` is not mapped in the current process: it is not a page at all,
its directory is missing, or its PTE is invalid. -/
def Unmapped (k : Kernel) (vpn : Nat) : Prop :=
  vpn < nrPages → k.current.outerPtes (slotOf vpn).1 = .null ∨
    ∃ pd, k.current.outerPtes (slotOf vpn).1 = .dir pd ∧
      (pd (pteIdx vpn)).valid = false

/-- The access returns false and changes no page table and no map count, or the
assertion on the VPN rejects it. -/
def RefusesCleanly (env : Env) (access : Access) (vpn : Nat) (s : System) :
    Prop :=
  (∃ out s', execute false env (access.command vpn) s = .ok (out, .again s') ∧
      (out = .unable vpn ∨ out = .notAllocated vpn) ∧
      s'.kernel.current = s.kernel.current ∧
      s'.kernel.processes = s.kernel.processes ∧
      s'.kernel.mapcounts = s.kernel.mapcounts) ∨
    nrPages ≤ vpn ∧
      execute false env (access.command vpn) s = .error .assertFailed

/-- What the code needs to refuse the access: a `free` must be for one of the
256 pages, and a `write` to one of them must find a directory while the map
count of frame 0, read as an `int`, is not positive. -/
def CanRefuse (k : Kernel) (vpn : Nat) : Access → Prop
  | .read => True
  | .free => vpn < nrPages
  | .write => vpn < nrPages →
      (∃ pd, k.current.outerPtes (slotOf vpn).1 = .dir pd) ∧
        asInt (k.mapcounts ⟨0, by decide⟩) < 1

section Unmapped

variable {s : System}

theorem Unmapped.invalid (unmapped : Unmapped k vpn) (inside : vpn < nrPages) :
    (k.pte vpn).valid = false := by
  rcases unmapped inside with isNull | ⟨pd, isDir, invalid⟩
  · simp only [Kernel.pte, Process.entry, isNull, zeroPte]
  · rw [Kernel.pte_of_dir isDir]
    exact invalid

theorem Unmapped.denied (unmapped : Unmapped k vpn) (inside : vpn < nrPages) :
    ¬ (k.pte vpn).Allows accessWrite := by
  rintro ⟨valid, _⟩
  simp [unmapped.invalid inside] at valid

theorem Unmapped.owned (unmapped : Unmapped k vpn) (inside : vpn < nrPages) :
    k.current.outerPtes (slotOf vpn).1 ≠ .wild := by
  rcases unmapped inside with isNull | ⟨pd, isDir, _⟩
  · simp [isNull]
  · simp [isDir]

/-- A read access to a page that is not mapped is always refused. -/
theorem read_refused (env : Env) (unmapped : Unmapped s.kernel vpn)
    (tame : Tame s.kernel) (isOff : s = off s.kernel) :
    RefusesCleanly env .read vpn s := by
  rcases Nat.lt_or_ge vpn nrPages with inside | outside
  · have invalid : ¬ (s.kernel.pte vpn).valid = true := by
      simp [unmapped.invalid inside]
    have effect : Effect env s.kernel (.read vpn) (.unable vpn) s.kernel :=
      .unseen inside invalid
    have ran := execute_of_effect tame effect
    rw [← isOff] at ran
    exact Or.inl ⟨_, s, ran, Or.inl rfl, rfl, rfl, rfl⟩
  · refine Or.inr ⟨outside, ?_⟩
    simp only [Access.command, execute, accessMemory_outside outside, bind,
      Except.bind]

/-- A `free` for a page that is not mapped is refused if it is for one of the
256 pages. -/
theorem free_refused_iff (env : Env) (unmapped : Unmapped s.kernel vpn)
    (tame : Tame s.kernel) (isOff : s = off s.kernel) :
    RefusesCleanly env .free vpn s ↔ vpn < nrPages := by
  rcases Nat.lt_or_ge vpn nrPages with inside | outside
  · have invalid : ¬ (s.kernel.pte vpn).valid = true := by
      simp [unmapped.invalid inside]
    have effect : Effect env s.kernel (.free vpn) (.notAllocated vpn) s.kernel :=
      .absent inside invalid
    have ran := execute_of_effect tame effect
    rw [← isOff] at ran
    exact ⟨fun _ => inside, fun _ =>
      Or.inl ⟨_, s, ran, Or.inr rfl, rfl, rfl, rfl⟩⟩
  · have ran : execute false env (.free vpn) s = .error .outOfRange := by
      rw [isOff]
      simp only [execute, releasePage, translate_outside _ outside, bind,
        Except.bind]
    constructor
    · rintro (⟨out, s', done, _⟩ | ⟨_, failed⟩)
      · simp [Access.command, ran] at done
      · simp [Access.command, ran] at failed
    · intro inside
      omega

/-- A write to a page whose directory is missing dereferences it. -/
theorem write_of_null (env : Env) (inside : vpn < nrPages)
    (isNull : s.kernel.current.outerPtes (slotOf vpn).1 = .null) :
    execute false env (.write vpn) s = .error .nullDereference := by
  have denied : ¬ (s.kernel.pte vpn).Allows accessWrite := by
    rintro ⟨valid, _⟩
    simp [Kernel.pte, Process.entry, isNull, zeroPte] at valid
  have faulted : handlePageFault env vpn accessWrite s.kernel =
      .error .nullDereference := by
    simp [handlePageFault, pdIdx_of_lt inside, isNull, Outer.deref, bind,
      Except.bind]
  simp only [execute, accessMemory_eq false inside exclusive_write,
    accessLoop_fault 1 inside (by simp [isNull]) denied, faulted, bind,
    Except.bind]

/-- The PTE of a page that is not mapped names frame 0. -/
theorem Unmapped.blank (unmapped : Unmapped k vpn) (inside : vpn < nrPages)
    (blank : Blank k) :
    (k.pte vpn).pfn = 0 ∧ (k.pte vpn).priv ≠ accessRead := by
  have here : (k.pte vpn).Blank := blank _ k.current_mem_all _
  apply here.resolve_left
  simp [unmapped.invalid inside]

/-- A write to a page that is not mapped is refused if it is for none of the 256
pages, or finds a directory and no mapping of frame 0. -/
theorem write_refused_iff (env : Env) (unmapped : Unmapped s.kernel vpn)
    (tame : Tame s.kernel) (blank : Blank s.kernel) :
    RefusesCleanly env .write vpn s ↔ CanRefuse s.kernel vpn .write := by
  rcases Nat.lt_or_ge vpn nrPages with inside | outside
  · rcases unmapped inside with isNull | ⟨pd, isDir, invalid⟩
    · have ran := write_of_null env inside isNull
      constructor
      · rintro (⟨out, s', done, _⟩ | ⟨_, failed⟩)
        · simp [Access.command, ran] at done
        · simp [Access.command, ran] at failed
      · intro can
        obtain ⟨⟨pd, isDir⟩, _⟩ := can inside
        simp [isNull] at isDir
    · have denied := unmapped.denied inside
      obtain ⟨pfn, notRead⟩ := unmapped.blank inside blank
      constructor
      · rintro (⟨out, s', done, refused, _⟩ | ⟨outside, _⟩)
        · have accessed : accessMemory false env vpn accessWrite s =
              .ok (out, s') := by
            simp only [Access.command, execute, bind, Except.bind] at done
            split at done
            · simp at done
            · rename_i result accessed
              obtain ⟨rfl, same⟩ := Prod.mk.inj (Except.ok.inj done)
              rw [accessed, ← Pass.again.inj same]
          obtain ⟨k', rfl, written⟩ :=
            written_of_accessMemory tame inside accessed
          refine fun _ => ⟨⟨pd, isDir⟩, ?_⟩
          cases written with
          | granted allows => exact absurd allows denied
          | refused _ handled => exact (handled.ret_iff notRead pfn).mp rfl
          | resolved => simp at refused
          | @lost _ _ ret _ handled denied' handled' =>
              cases ret with
              | true => simp at refused
              | false =>
                  exact (handled.not_refused_again denied' handled').elim
        · omega
      · intro can
        obtain ⟨_, few⟩ := can inside
        rw [Kernel.pte_of_dir isDir] at pfn
        obtain ⟨ret, k, handled⟩ := exists_handled isDir (by
          rw [pfn]
          decide)
        rw [← Kernel.pte_of_dir isDir] at pfn
        obtain rfl := (handled.ret_iff notRead pfn).mpr few
        obtain rfl : k = s.kernel := by
          cases handled with
          | readOnly => rfl
          | uncounted => rfl
        have access : accessMemory false env vpn accessWrite s =
            .ok (.unable vpn, s) :=
          accessMemory_of_refused inside (unmapped.owned inside) denied
            (handlePageFault_of_handled inside handled)
        refine Or.inl ⟨_, s, ?_, Or.inl rfl, rfl, rfl, rfl⟩
        simp only [Access.command, execute, access, bind, Except.bind, pure,
          Except.pure]
  · refine ⟨fun _ inside => by omega, fun _ => Or.inr ⟨outside, ?_⟩⟩
    simp only [Access.command, execute, accessMemory_outside outside, bind,
      Except.bind]

end Unmapped

/-- In every state reached without `-t`, an access to a page that is not mapped
is refused, with all page tables and map counts as they were, if and only if it
is a read, or a `free` for one of the 256 pages, or a write that the assertion
rejects or that finds a directory while frame 0 has no mappings. -/
theorem unmapped_refused_iff (env : Env) (zero : env.ZeroFilled)
    (workload : List Command) (s : System)
    (reached : Reaches (execute false env) workload init s) (access : Access)
    (vpn : Nat) (unmapped : Unmapped s.kernel vpn) :
    RefusesCleanly env access vpn s ↔ CanRefuse s.kernel vpn access := by
  obtain ⟨isOff, tame, blank⟩ := reached_blank zero reached
  cases access with
  | read => exact iff_true_intro (read_refused env unmapped tame isOff)
  | write => exact write_refused_iff env unmapped tame blank
  | free => exact free_refused_iff env unmapped tame isOff

/-- A page is allocated and freed again, so that its directory stays. -/
def allocThenFree : List Command := [.alloc 0 ['r', 'w'], .free 0]

theorem unmapped_refused_iff_allocThenFree :
    zeroEnv.ZeroFilled ∧
      ∃ s, Reaches (execute false zeroEnv) allocThenFree init s ∧
        Unmapped s.kernel 0 ∧
        (RefusesCleanly zeroEnv .write 0 s ↔ CanRefuse s.kernel 0 .write) := by
  obtain ⟨s, reached, invalid⟩ := exists_of_endsWith
    (execute false zeroEnv) allocThenFree init
    (fun s => (∃ pd, s.kernel.current.outerPtes (slotOf 0).1 = .dir pd) ∧
      (s.kernel.pte 0).valid = false) (by decide +kernel)
  obtain ⟨⟨pd, isDir⟩, invalid⟩ := invalid
  rw [Kernel.pte_of_dir isDir] at invalid
  have unmapped : Unmapped s.kernel 0 := fun _ => Or.inr ⟨pd, isDir, invalid⟩
  exact ⟨zeroEnv_zeroFilled, s, reached, unmapped,
    unmapped_refused_iff zeroEnv zeroEnv_zeroFilled allocThenFree s reached
      .write 0 unmapped⟩

instance (outer : Outer) : Decidable (outer = .null) :=
  match outer with
  | .null => .isTrue rfl
  | .dir _ => .isFalse (by simp)
  | .wild => .isFalse (by simp)

/-- With one page allocated, a write to its neighbour returns true, a write to
a page whose directory is missing dereferences it, and a `free` beyond the 256
pages indexes `outer_ptes` out of range. -/
theorem unmapped_not_refused :
    zeroEnv.ZeroFilled ∧
      ∃ s, Reaches (execute false zeroEnv) [.alloc 0 ['r', 'w']] init s ∧
        Unmapped s.kernel 1 ∧ Unmapped s.kernel 16 ∧ Unmapped s.kernel 256 ∧
        ¬ RefusesCleanly zeroEnv .write 1 s ∧
        ¬ RefusesCleanly zeroEnv .write 16 s ∧
        ¬ RefusesCleanly zeroEnv .free 256 s := by
  obtain ⟨s, reached, ⟨pd, isDir⟩, invalid, isNull, silent, missing, outside⟩ :=
    exists_of_endsWith (execute false zeroEnv) [.alloc 0 ['r', 'w']] init
      (fun s => (∃ pd, s.kernel.current.outerPtes (slotOf 1).1 = .dir pd) ∧
        (s.kernel.pte 1).valid = false ∧
        s.kernel.current.outerPtes (slotOf 16).1 = .null ∧
        ((execute false zeroEnv (.write 1) s).map Prod.fst).toOption =
          some (.silent 1) ∧
        ((execute false zeroEnv (.write 16) s).map Prod.fst).toOption = none ∧
        ((execute false zeroEnv (.free 256) s).map Prod.fst).toOption = none)
      (by decide +kernel)
  rw [Kernel.pte_of_dir isDir] at invalid
  refine ⟨zeroEnv_zeroFilled, s, reached, fun _ => Or.inr ⟨pd, isDir, invalid⟩,
    fun _ => Or.inl isNull, fun inside => absurd inside (by decide), ?_, ?_, ?_⟩
  · rintro (⟨out, s', done, refused, _⟩ | ⟨beyond, _⟩)
    · simp only [Access.command] at done
      simp only [done, Except.map, Except.toOption, Option.some.injEq] at silent
      simp [silent] at refused
    · exact absurd beyond (by decide)
  · rintro (⟨out, s', done, _⟩ | ⟨beyond, _⟩)
    · simp only [Access.command] at done
      simp [done, Except.map, Except.toOption] at missing
    · exact absurd beyond (by decide)
  · rintro (⟨out, s', done, _⟩ | ⟨_, failed⟩)
    · simp only [Access.command] at done
      simp [done, Except.map, Except.toOption] at outside
    · obtain ⟨isOff, _, _⟩ := reached_blank zeroEnv_zeroFilled reached
      rw [isOff] at failed
      simp [Access.command, execute, releasePage,
        translate_outside (k := s.kernel) accessRead
          (by decide : nrPages ≤ 256), bind, Except.bind] at failed

end OsPAs.Vm
