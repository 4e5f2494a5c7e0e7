/-
Module: OsPAs.Vm.Mmu
Purpose: The framework of `vm.c`: address translation, memory accesses,
  allocation and deallocation requests, and the loop over the commands, with
  (`-t`) and without the TLB.
Trusted boundary: none
Main exports: Command, Outcome, translate, accessLoop, accessMemory,
  requestPage, releasePage, execute, doSimulation
-/
import OsPAs.Lib.Commands
import OsPAs.Vm.Paging
import OsPAs.Vm.Tlb

namespace OsPAs.Vm

open Lib

/-- `assert`. -/
def cAssert (condition : Prop) [Decidable condition] : Except Fault Unit :=
  if condition then .ok () else .error .assertFailed

/-! ### Translation -/

/-- The walk of the page table in `__translate`: the PTE, if it allows the
access. -/
def walk (rw vpn : Nat) (p : Process) : Except Fault (Option Pte) := do
  let i ← pdIdx vpn
  match p.outerPtes i with
  | .null => return none
  | .wild => .error .wildPointer
  | .dir pd =>
      let pte := pd (pteIdx vpn)
      if ¬ pte.valid then return none
      else if rw &&& accessWrite ≠ 0 ∧ pte.rw &&& accessWrite = 0 then
        return none
      else return some pte

/-- `__translate`, where `t` is `print_tlb_result`.  A translation comes with
the value of `from_tlb`. -/
def translate (t : Bool) (rw vpn : Nat) (s : System) :
    Except Fault (Option (Nat × Bool) × System) := do
  let hit ← if t then lookupTlb vpn rw s.tlb else .ok none
  match hit with
  | some pfn => return (some (pfn, true), s)
  | none =>
      match ← walk rw vpn s.kernel.current with
      | none => return (none, s)
      | some pte =>
          if t then
            let tlb ← insertTlb vpn pte.rw pte.pfn s.tlb
            return (some (pte.pfn, false), { s with tlb := tlb })
          else return (some (pte.pfn, false), s)

/-! ### Requests -/

/-- What the simulator does and prints for one command.  `silent` is an access
that returns true without a translation. -/
inductive Outcome where
  | translated (fromTlb : Bool) (vpn pfn : Nat)
  | unable (vpn : Nat)
  | silent (vpn : Nat)
  | allocated (vpn pfn : Nat)
  | alreadyAllocated (vpn pfn : Nat)
  | memoryFull
  | freed (vpn pfn : Nat)
  | notAllocated (vpn : Nat)
  | switched (pid : Nat)
deriving DecidableEq, Repr

/-- A function of the page table code, run on the whole simulator. -/
def onKernel {α : Type} (f : Kernel → Except Fault (α × Kernel)) (s : System) :
    Except Fault (α × System) := do
  let (value, k) ← f s.kernel
  return (value, { s with kernel := k })

/-- The `do ... while` loop of `__access_memory` with the number of
translations that are still allowed. -/
def accessLoop (t : Bool) (env : Env) (vpn rw : Nat) :
    Nat → System → Except Fault (Outcome × System)
  | 0, s => .ok (.silent vpn, s)
  | tries + 1, s => do
      let (translation, s) ← translate t rw vpn s
      match translation with
      | some (pfn, fromTlb) => return (.translated fromTlb vpn pfn, s)
      | none =>
          let (ret, s) ← onKernel (handlePageFault env vpn rw) s
          if ret then accessLoop t env vpn rw tries s
          else return (.unable vpn, s)

/-- `__access_memory`. -/
def accessMemory (t : Bool) (env : Env) (vpn rw : Nat) (s : System) :
    Except Fault (Outcome × System) := do
  cAssert ((rw &&& accessRead) ^^^ (rw &&& accessWrite) ≠ 0)
  cAssert (vpn < nrPtesPerPage * nrPtesPerPage)
  accessLoop t env vpn rw 2 s

/-- One pass of the loop in `__make_rwflag`. -/
def addRwflag (rwflag : Nat) (c : Char) : Nat :=
  let rwflag := if c = 'r' ∨ c = 'R' then rwflag ||| accessRead else rwflag
  if c = 'w' ∨ c = 'W' then rwflag ||| accessWrite else rwflag

/-- `__make_rwflag`. -/
def makeRwflag (rw : List Char) : Nat := rw.foldl addRwflag accessRead

/-- `__alloc_page`, with the value it returns. -/
def requestPage (t : Bool) (env : Env) (vpn rw : Nat) (s : System) :
    Except Fault (Bool × Outcome × System) := do
  cAssert (rw ≠ 0)
  cAssert (rw &&& accessRead ≠ 0)
  let (translation, s) ← translate t accessRead vpn s
  match translation with
  | some (pfn, _) => return (false, .alreadyAllocated vpn pfn, s)
  | none =>
      let (pfn, s) ← onKernel (allocPage env vpn rw) s
      if pfn = allocFailed then return (false, .memoryFull, s)
      else return (true, .allocated vpn pfn, s)

/-- `free_page`. -/
def freePage (vpn : Nat) (s : System) : Except Fault System := do
  let k ← clearPte vpn s.kernel
  let tlb ← removeTlb vpn s.tlb
  return { kernel := k, tlb := tlb }

/-- `__free_page`. -/
def releasePage (t : Bool) (vpn : Nat) (s : System) :
    Except Fault (Outcome × System) := do
  let (translation, s) ← translate t accessRead vpn s
  match translation with
  | none => return (.notAllocated vpn, s)
  | some (pfn, _) =>
      let s ← freePage vpn s
      return (.freed vpn pfn, s)

/-- `switch_process`. -/
def switchProcess (env : Env) (pid : Nat) (s : System) :
    Except Fault System := do
  let k ← switchKernel env pid s.kernel
  let tlb ← flushTlb s.tlb
  return { kernel := k, tlb := tlb }

/-! ### The command loop -/

/-- The commands of a workload that change the simulator, with the arguments
that `__do_simulation` reads; `rw` is the third token of `alloc`. -/
inductive Command where
  | alloc (vpn : Nat) (rw : List Char)
  | free (vpn : Nat)
  | read (vpn : Nat)
  | write (vpn : Nat)
  | switch (pid : Nat)
deriving DecidableEq, Repr

/-- The branch of `__do_simulation` for one command.  An allocation that fails
breaks out of the loop. -/
def execute (t : Bool) (env : Env) (command : Command) (s : System) :
    Except Fault (Outcome × Pass System) :=
  match command with
  | .alloc vpn rw => do
      let (done, outcome, s) ← requestPage t env vpn (makeRwflag rw) s
      if done then return (outcome, .again s) else return (outcome, .leave s)
  | .free vpn => do
      let (outcome, s) ← releasePage t vpn s
      return (outcome, .again s)
  | .read vpn => do
      let (outcome, s) ← accessMemory t env vpn accessRead s
      return (outcome, .again s)
  | .write vpn => do
      let (outcome, s) ← accessMemory t env vpn accessWrite s
      return (outcome, .again s)
  | .switch pid => do
      let s ← switchProcess env pid s
      return (.switched pid, .again s)

/-- `__do_simulation` on a workload. -/
def doSimulation (t : Bool) (env : Env) (workload : List Command) :
    Except Fault (List Outcome × Pass System) :=
  runAll (execute t env) workload init

end OsPAs.Vm
