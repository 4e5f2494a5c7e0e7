/-
Module: OsPAs.Vm.Paging
Purpose: The page table part of `pa3.c`: allocation, deallocation, the page
  fault handler with copy-on-write, and the process switch with its fork.
Trusted boundary: none
Main exports: freeFrame, allocPage, clearPte, handlePageFault, forkPte,
  forkDirectory, fork, findProcess, changeCurrent, switchKernel
-/
import Mathlib.Data.List.FinRange
import OsPAs.Vm.State

namespace OsPAs.Vm

open Lib

/-! ### Allocation and deallocation -/

/-- The search of `alloc_page` for the first page frame without mappings. -/
def freeFrame (k : Kernel) : Option (Fin nrPageframes) :=
  (List.finRange nrPageframes).find? fun i => k.mapcounts i = 0

/-- `-1` as the `unsigned int` that `alloc_page` returns. -/
def allocFailed : Nat := 2 ^ 32 - 1

/-- `alloc_page`. -/
def allocPage (env : Env) (vpn rw : Nat) (k : Kernel) :
    Except Fault (Nat × Kernel) :=
  match freeFrame k with
  | none => .ok (allocFailed, k)
  | some pfnum => do
      let k := k.setMapcount pfnum (toUInt (k.mapcounts pfnum + 1))
      let i ← pdIdx vpn
      let (pd, k) ←
        match k.current.outerPtes i with
        | .null =>
            .ok (env.directory k.mallocs, { k with mallocs := k.mallocs + 1 })
        | .dir pd => .ok (pd, k)
        | .wild => .error .wildPointer
      let pte := { valid := true, rw := rw, pfn := pfnum, priv := rw }
      return (pfnum.val, k.setDirectory i (Function.update pd (pteIdx vpn) pte))

/-- The part of `free_page` before it turns to the TLB. -/
def clearPte (vpn : Nat) (k : Kernel) : Except Fault Kernel := do
  let i ← pdIdx vpn
  let pd ← (k.current.outerPtes i).deref
  let pfnum ← frame (pd (pteIdx vpn)).pfn
  let k := k.setMapcount pfnum (subUInt (k.mapcounts pfnum) 1)
  return k.setDirectory i (Function.update pd (pteIdx vpn) zeroPte)

/-! ### Page faults -/

/-- `handle_page_fault`. -/
def handlePageFault (env : Env) (vpn rw : Nat) (k : Kernel) :
    Except Fault (Bool × Kernel) := do
  let i ← pdIdx vpn
  if rw = accessWrite then
    let pd ← (k.current.outerPtes i).deref
    let pte := pd (pteIdx vpn)
    if pte.priv ≠ accessRead then
      let pfnum ← frame pte.pfn
      if asInt (k.mapcounts pfnum) = 1 then
        let pte := { pte with rw := 0x03, priv := accessWrite }
        return (true,
          k.setDirectory i (Function.update pd (pteIdx vpn) pte))
      else if 2 ≤ asInt (k.mapcounts pfnum) then
        let k := k.setMapcount pfnum (subUInt (k.mapcounts pfnum) 1)
        let (ret, k) ← allocPage env vpn rw k
        let pd ← (k.current.outerPtes i).deref
        let pte := { pd (pteIdx vpn) with rw := 0x03 }
        -- `ret` is a `size_t`, so `-1` is the greatest value of that type
        return (ret ≠ 2 ^ 64 - 1,
          k.setDirectory i (Function.update pd (pteIdx vpn) pte))
      else return (false, k)
    else return (false, k)
  else return (false, k)

/-! ### Switching -/

/-- One pass of the inner loop of the fork, over entry `j` of the parent's
directory and of the one just allocated for the child. -/
def forkPte (state : Mapcounts × Directory × Directory)
    (j : Fin nrPtesPerPage) :
    Except Fault (Mapcounts × Directory × Directory) :=
  let (mapcounts, pd, nxtpd) := state
  let pte := pd j
  if pte.valid then do
    let pfnum ← frame pte.pfn
    let pte :=
      { pte with
        priv := if pte.rw = accessWrite then pte.rw else pte.priv
        rw := accessRead }
    return (Function.update mapcounts pfnum (toUInt (mapcounts pfnum + 1)),
      Function.update pd j pte, Function.update nxtpd j pte)
  else return state

/-- One pass of the outer loop of the fork, over entry `i` of `outer_ptes`. -/
def forkDirectory (env : Env) (state : Kernel × Process)
    (i : Fin nrPtesPerPage) : Except Fault (Kernel × Process) :=
  let (k, nxt) := state
  match k.current.outerPtes i with
  | .null => .ok state
  | .wild => .error .wildPointer
  | .dir pd => do
      let (mapcounts, pd, nxtpd) ← (List.finRange nrPtesPerPage).foldlM forkPte
        (k.mapcounts, pd, env.directory k.mallocs)
      let k := { k with mapcounts := mapcounts, mallocs := k.mallocs + 1 }
      return (k.setDirectory i pd, nxt.setDirectory i nxtpd)

/-- The part of `switch_process` that makes a new process of `current`. -/
def fork (env : Env) (pid : Nat) (k : Kernel) :
    Except Fault (Kernel × Process) :=
  (List.finRange nrPtesPerPage).foldlM (forkDirectory env)
    ({ k with mallocs := k.mallocs + 1 },
      { pid := pid, outerPtes := env.outerPtes k.mallocs })

/-- The search of `switch_process` through `processes`.  Past the last member
of a list that is not empty, `nxt` is computed from the list head, and the
memory there is taken for a process if `pid` is read from it. -/
def findProcess (env : Env) (pid : Nat) (k : Kernel) :
    Except Fault (Option Process) :=
  match k.processes.find? fun p => p.pid = pid with
  | some nxt => .ok (some nxt)
  | none =>
      if k.processes ≠ [] ∧ env.headPid k = pid then .error .wildPointer
      else .ok none

/-- The part of `switch_process` from `CHANGECUR` on, with `processes` as
`list_del_init` leaves it. -/
def changeCurrent (nxt : Process) (processes : List Process) (k : Kernel) :
    Kernel :=
  { k with current := nxt, processes := processes ++ [k.current] }

/-- `switch_process` before it turns to the TLB. -/
def switchKernel (env : Env) (pid : Nat) (k : Kernel) :
    Except Fault Kernel := do
  match ← findProcess env pid k with
  | some nxt =>
      return changeCurrent nxt (k.processes.eraseP fun p => p.pid = pid) k
  | none =>
      let (k, nxt) ← fork env pid k
      return changeCurrent nxt k.processes k

end OsPAs.Vm
