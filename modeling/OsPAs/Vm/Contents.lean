/-
Module: OsPAs.Vm.Contents
Purpose: The simulator with ghost contents in its page frames, and the reference
  that it is compared with: processes that own their pages and that copy all of
  them when a new process is made.
Trusted boundary: none
Main exports: Report, Ghost, ghostStep, Page, PageMap, Reference, refStep
-/
import OsPAs.Vm.Effects

namespace OsPAs.Vm

open Lib

variable {β : Type}

/-- What a process learns from a command: whether it was done, and what a read
has seen. -/
inductive Report (β : Type) where
  | allocated (done : Bool)
  | freed (done : Bool)
  | read (seen : Option β)
  | written (granted : Bool)
  | switched
deriving DecidableEq, Repr

/-! ### Ghost contents -/

/-- The simulator with the contents of every page frame, by its number, and the
number of writes that were granted so far. -/
structure Ghost (β : Type) where
  system : System
  contents : Nat → β
  writes : Nat

section Ghost

/-! The contents of a frame that has just been allocated are `cleared`.  Write
number `n` to a page with contents `old` leaves `store n old`; a store of a fresh
value is one that does not depend on `old`. -/

variable (cleared : β) (store : Nat → β → β)

/-- The contents once a write to a page in frame `old` has been granted in frame
`pfn`: if the two differ, the handler has copied the frame. -/
def Ghost.wrote (g : Ghost β) (old pfn : Nat) : Ghost β :=
  let copied := Function.update g.contents pfn (g.contents old)
  { g with
    contents := Function.update copied pfn (store g.writes (copied pfn))
    writes := g.writes + 1 }

/-- The contents after a command with its outcome. -/
def Ghost.after (g : Ghost β) : Command → Outcome → Ghost β
  | .alloc _ _, .allocated _ pfn =>
      { g with contents := Function.update g.contents pfn cleared }
  | .write vpn, .translated _ _ pfn =>
      g.wrote store (g.system.kernel.pte vpn).pfn pfn
  | _, _ => g

/-- What is learnt from a command with its outcome. -/
def Ghost.report (g : Ghost β) : Command → Outcome → Report β
  | .alloc _ _, .allocated _ _ => .allocated true
  | .alloc _ _, _ => .allocated false
  | .free _, .freed _ _ => .freed true
  | .free _, _ => .freed false
  | .read _, .translated _ _ pfn => .read (some (g.contents pfn))
  | .read _, _ => .read none
  | .write _, .translated _ _ _ => .written true
  | .write _, _ => .written false
  | .switch _, _ => .switched

/-- The simulator without `-t`, with ghost contents. -/
def ghostStep (env : Env) : Machine Command (Ghost β) Fault (Report β) :=
  fun c g =>
    match execute false env c g.system with
    | .error fault => .error fault
    | .ok (out, pass) => .ok (g.report c out,
        pass.map fun s => { g.after cleared store c out with system := s })

end Ghost

/-! ### The reference -/

/-- A page that a process owns, with the permission given when it was
allocated. -/
structure Page (β : Type) where
  writable : Bool
  content : β

/-- The pages of a process. -/
abbrev PageMap (β : Type) := Nat → Option (Page β)

/-- The current process, the pages of every process that is known, and the
number of writes that were granted so far. -/
structure Reference (β : Type) where
  current : Nat
  maps : Nat → Option (PageMap β)
  writes : Nat

namespace Reference

/-- The process 0, without pages. -/
def start : Reference β :=
  { current := 0
    maps := Function.update (fun _ => none) 0 (some fun _ => none)
    writes := 0 }

/-- The pages of the current process. -/
def own (r : Reference β) : PageMap β :=
  (r.maps r.current).getD fun _ => none

/-- The current process gets or loses a page. -/
def setPage (r : Reference β) (vpn : Nat) (page : Option (Page β)) :
    Reference β :=
  { r with
    maps := Function.update r.maps r.current
      (some (Function.update r.own vpn page)) }

/-- The process `pid` becomes current; if it is new, it gets a copy of all pages
of the current one. -/
def switch (r : Reference β) (pid : Nat) : Reference β :=
  match r.maps pid with
  | some _ => { r with current := pid }
  | none =>
      { r with
        current := pid
        maps := Function.update r.maps pid (some r.own) }

end Reference

/-- What a command does to the reference. -/
def refStep (cleared : β) (store : Nat → β → β) :
    Machine Command (Reference β) Fault (Report β)
  | .alloc vpn rw, r =>
      match r.own vpn with
      | some _ => .ok (.allocated false, .leave r)
      | none =>
          let writable : Bool := makeRwflag rw &&& accessWrite ≠ 0
          .ok (.allocated true,
            .again (r.setPage vpn (some ⟨writable, cleared⟩)))
  | .free vpn, r =>
      match r.own vpn with
      | some _ => .ok (.freed true, .again (r.setPage vpn none))
      | none => .ok (.freed false, .again r)
  | .read vpn, r =>
      .ok (.read ((r.own vpn).map Page.content), .again r)
  | .write vpn, r =>
      match r.own vpn with
      | some ⟨true, old⟩ =>
          let page := ⟨true, store r.writes old⟩
          .ok (.written true,
            .again { r.setPage vpn (some page) with writes := r.writes + 1 })
      | _ => .ok (.written false, .again r)
  | .switch pid, r => .ok (.switched, .again (r.switch pid))

end OsPAs.Vm
