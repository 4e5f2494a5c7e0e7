/-
Module: OsPAs.Vm.State
Purpose: Data of the virtual memory simulator (`vm.h`, the globals of `vm.c`)
  and the accesses its code makes to page tables and map counts.
Trusted boundary: none
Main exports: Pte, Outer, Process, TlbEntry, Kernel, System, Env, Fault, pdIdx,
  pteIdx, frame, Outer.deref, Process.setDirectory, Kernel.setMapcount, init
-/
import Mathlib.Logic.Function.Basic
import Mathlib.Data.Fintype.Basic
import OsPAs.Lib.Unsigned

namespace OsPAs.Vm

open Lib

/-!
A page directory is reached through exactly one entry of one `outer_ptes`, so
the pointer is modelled by the directory it points to.  Memory that `malloc`
returns is not initialised, and the code reads some of it; what it holds is a
parameter, `Env`.  `ptbr` points to `current->pagetable` from `__init_system` on
and is not modelled apart from `current`.
-/

/-- `NR_PAGEFRAMES` of `vm.h`. -/
def nrPageframes : Nat := 128

theorem nrPageframes_pos : 0 < nrPageframes := by
  decide

/-- `NR_PTES_PER_PAGE` of `vm.h`. -/
def nrPtesPerPage : Nat := 16

/-- `NR_TLB_ENTRIES` of `vm.h`. -/
def nrTlbEntries : Nat := 256

/-- `ACCESS_READ`. -/
def accessRead : Nat := 1

/-- `ACCESS_WRITE`. -/
def accessWrite : Nat := 2

/-- `struct pte`; `priv` is the field `private`. -/
structure Pte where
  valid : Bool
  rw : Nat
  pfn : Nat
  priv : Nat
deriving DecidableEq, Repr

/-- A PTE whose fields are all zero. -/
def zeroPte : Pte := { valid := false, rw := 0, pfn := 0, priv := 0 }

/-- `struct pte_directory`. -/
abbrev Directory := Fin nrPtesPerPage → Pte

/-- An entry of `outer_ptes`: `NULL`, a pointer to a directory, or a value that
nobody wrote and that points nowhere. -/
inductive Outer where
  | null
  | dir (pd : Directory)
  | wild

/-- `struct process`, without the list node `list` (see `Kernel.processes`). -/
structure Process where
  pid : Nat
  outerPtes : Fin nrPtesPerPage → Outer

/-- `struct tlb_entry`, without the field `private`, which nobody reads. -/
structure TlbEntry where
  valid : Bool
  rw : Nat
  vpn : Nat
  pfn : Nat
deriving DecidableEq, Repr

/-- Ways for a run to end other than at the end of its input: a failed
`assert`, an access through a null or wild pointer, an access outside of an
array, a loop that never ends. -/
inductive Fault where
  | assertFailed
  | nullDereference
  | wildPointer
  | outOfRange
  | endless
deriving DecidableEq, Repr

/-- `mapcounts[]`. -/
abbrev Mapcounts := Fin nrPageframes → Nat

/-- The globals of `vm.c` other than the TLB; `mallocs` counts the blocks that
`malloc` has returned so far. -/
structure Kernel where
  current : Process
  processes : List Process
  mapcounts : Mapcounts
  mallocs : Nat

/-- The whole simulator: the kernel and the array `tlb`. -/
structure System where
  kernel : Kernel
  tlb : List TlbEntry

/-- What the code reads without having written it: the contents of the blocks
that `malloc` returns for a directory or for a process, by their number, and
the `pid` that the search of `switch_process` reads around the list head. -/
structure Env where
  directory : Nat → Directory
  outerPtes : Nat → Fin nrPtesPerPage → Outer
  headPid : Kernel → Nat

/-- The blocks that `malloc` returns are zero-filled. -/
structure Env.ZeroFilled (env : Env) : Prop where
  directory : ∀ block j, env.directory block j = zeroPte
  outerPtes : ∀ block i, env.outerPtes block i = .null

/-- Fresh memory that is zero-filled, and a list head that no `pid`, being
below `2 ^ 32`, is mistaken for. -/
def zeroEnv : Env :=
  { directory := fun _ _ => zeroPte
    outerPtes := fun _ _ => .null
    headPid := fun _ => 2 ^ 32 }

theorem zeroEnv_zeroFilled : zeroEnv.ZeroFilled :=
  ⟨fun _ _ => rfl, fun _ _ => rfl⟩

/-! ### Accesses -/

/-- `vpn / NR_PTES_PER_PAGE`, used as an index into `outer_ptes`. -/
def pdIdx (vpn : Nat) : Except Fault (Fin nrPtesPerPage) :=
  if inside : vpn / nrPtesPerPage < nrPtesPerPage then .ok ⟨_, inside⟩
  else .error .outOfRange

/-- `vpn % NR_PTES_PER_PAGE`. -/
def pteIdx (vpn : Nat) : Fin nrPtesPerPage :=
  ⟨vpn % nrPtesPerPage, Nat.mod_lt vpn (by decide)⟩

/-- A page frame number, used as an index into `mapcounts`. -/
def frame (pfn : Nat) : Except Fault (Fin nrPageframes) :=
  if inside : pfn < nrPageframes then .ok ⟨pfn, inside⟩ else .error .outOfRange

/-- The directory behind an entry of `outer_ptes`. -/
def Outer.deref : Outer → Except Fault Directory
  | .null => .error .nullDereference
  | .dir pd => .ok pd
  | .wild => .error .wildPointer

instance (outer : Outer) : Decidable (∃ pd, outer = .dir pd) :=
  match outer with
  | .dir pd => .isTrue ⟨pd, rfl⟩
  | .null => .isFalse fun ⟨_, eq⟩ => Outer.noConfusion eq
  | .wild => .isFalse fun ⟨_, eq⟩ => Outer.noConfusion eq

/-- The process with another directory at index `i` of `outer_ptes`, or with
other contents in the one that is there. -/
def Process.setDirectory (p : Process) (i : Fin nrPtesPerPage)
    (pd : Directory) : Process :=
  { p with outerPtes := Function.update p.outerPtes i (.dir pd) }

namespace Kernel

/-- `Process.setDirectory` for `current`. -/
def setDirectory (k : Kernel) (i : Fin nrPtesPerPage) (pd : Directory) :
    Kernel :=
  { k with current := k.current.setDirectory i pd }

/-- Assign to `mapcounts[pfnum]`. -/
def setMapcount (k : Kernel) (pfnum : Fin nrPageframes) (count : Nat) :
    Kernel :=
  { k with mapcounts := Function.update k.mapcounts pfnum count }

variable (k : Kernel) (i : Fin nrPtesPerPage) (pd : Directory)
  (pfnum : Fin nrPageframes) (count : Nat)

@[simp] theorem setDirectory_current :
    (k.setDirectory i pd).current = k.current.setDirectory i pd := rfl
@[simp] theorem setDirectory_processes :
    (k.setDirectory i pd).processes = k.processes := rfl
@[simp] theorem setDirectory_mapcounts :
    (k.setDirectory i pd).mapcounts = k.mapcounts := rfl
@[simp] theorem setDirectory_mallocs :
    (k.setDirectory i pd).mallocs = k.mallocs := rfl

@[simp] theorem setDirectory_setDirectory (pd' : Directory) :
    (k.setDirectory i pd).setDirectory i pd' = k.setDirectory i pd' := by
  simp [setDirectory, Process.setDirectory]

@[simp] theorem setMapcount_current :
    (k.setMapcount pfnum count).current = k.current := rfl
@[simp] theorem setMapcount_processes :
    (k.setMapcount pfnum count).processes = k.processes := rfl
@[simp] theorem setMapcount_mapcounts :
    (k.setMapcount pfnum count).mapcounts =
      Function.update k.mapcounts pfnum count := rfl
@[simp] theorem setMapcount_mallocs :
    (k.setMapcount pfnum count).mallocs = k.mallocs := rfl

end Kernel

/-! ### The initial state -/

/-- The process `init` alone, without directories, and no frame in use. -/
def initKernel : Kernel :=
  { current := { pid := 0, outerPtes := fun _ => .null }
    processes := []
    mapcounts := fun _ => 0
    mallocs := 0 }

/-- A TLB entry whose fields are all zero. -/
def zeroTlbEntry : TlbEntry := { valid := false, rw := 0, vpn := 0, pfn := 0 }

/-- The globals of `vm.c` after `__init_system`. -/
def init : System :=
  { kernel := initKernel
    tlb := List.replicate nrTlbEntries zeroTlbEntry }

end OsPAs.Vm
