/-
Module: OsPAs.Vm.TlbCalls
Purpose: The calls of TLB functions that a command makes with `-t`.  They are all
  that happens to the TLB, and a command faults where one of them does.
Trusted boundary: none
Main exports: TlbCall, runCalls, tlbCalls, Traces, execute_traces
-/
import OsPAs.Lib.Ensures
import OsPAs.Vm.Effects

namespace OsPAs.Vm

open Lib

variable {env : Env} {s : System} {vpn rw : Nat}

/-- A call of a function that reads or writes the array `tlb`; `remove` is the
part of `free_page` and `flush` that of `switch_process`. -/
inductive TlbCall where
  | lookup (vpn rw : Nat)
  | insert (vpn rw pfn : Nat)
  | remove (vpn : Nat)
  | flush
deriving DecidableEq, Repr

/-- What a call makes of the array. -/
def TlbCall.run : TlbCall → List TlbEntry → Except Fault (List TlbEntry)
  | .lookup vpn rw, tlb => do
      let _ ← lookupTlb vpn rw tlb
      return tlb
  | .insert vpn rw pfn, tlb => insertTlb vpn rw pfn tlb
  | .remove vpn, tlb => removeTlb vpn tlb
  | .flush, tlb => flushTlb tlb

/-- What several calls make of it, one after the other. -/
def runCalls (calls : List TlbCall) (tlb : List TlbEntry) :
    Except Fault (List TlbEntry) :=
  calls.foldlM (fun tlb call => call.run tlb) tlb

/-! ### The calls of a command -/

/-- The calls after a computation, if it gives a result. -/
def onward {α : Type} (x : Except Fault α) (calls : α → List TlbCall) :
    List TlbCall :=
  match x with
  | .ok a => calls a
  | .error _ => []

/-- The calls of `__translate`. -/
def translateCalls (rw vpn : Nat) (s : System) : List TlbCall :=
  .lookup vpn rw :: onward (lookupTlb vpn rw s.tlb) fun hit =>
    match hit with
    | some _ => []
    | none => onward (walk rw vpn s.kernel.current) fun walked =>
        match walked with
        | none => []
        | some pte => [.insert vpn pte.rw pte.pfn]

/-- The calls of `__access_memory`. -/
def accessCalls (env : Env) (vpn rw : Nat) : Nat → System → List TlbCall
  | 0, _ => []
  | tries + 1, s =>
      translateCalls rw vpn s ++ onward (translate true rw vpn s) fun result =>
        match result.1 with
        | some _ => []
        | none =>
            onward (onKernel (handlePageFault env vpn rw) result.2) fun served =>
              if served.1 then accessCalls env vpn rw tries served.2 else []

/-- The calls of a command. -/
def tlbCalls (env : Env) (c : Command) (s : System) : List TlbCall :=
  match c with
  | .alloc vpn _ => translateCalls accessRead vpn s
  | .free vpn =>
      translateCalls accessRead vpn s ++
        onward (translate true accessRead vpn s) fun result =>
          match result.1 with
          | none => []
          | some _ => onward (clearPte vpn result.2.kernel) fun _ =>
              [.remove vpn]
  | .read vpn =>
      if vpn < nrPages then accessCalls env vpn accessRead 2 s else []
  | .write vpn =>
      if vpn < nrPages then accessCalls env vpn accessWrite 2 s else []
  | .switch pid => onward (switchKernel env pid s.kernel) fun _ => [.flush]

/-! ### Nothing else happens to the TLB -/

/-- The calls are what a computation does to the TLB: it faults where one of them
does, and its result has the TLB that they leave. -/
structure Traces {α : Type} (calls : List TlbCall) (tlb : List TlbEntry)
    (x : Except Fault α) (tlbOf : α → List TlbEntry) : Prop where
  fault : ∀ fault, runCalls calls tlb = .error fault → x = .error fault
  result : ∀ a, x = .ok a → runCalls calls tlb = .ok (tlbOf a)

section Traces

variable {α β : Type} {calls : List TlbCall} {tlb : List TlbEntry}
  {x : Except Fault α} {f : α → Except Fault β} {more : α → List TlbCall}
  {tlbOf : α → List TlbEntry} {tlbOf' : β → List TlbEntry}

theorem runCalls_cons (call : TlbCall) (calls : List TlbCall) :
    runCalls (call :: calls) tlb = call.run tlb >>= runCalls calls :=
  List.foldlM_cons

theorem runCalls_append (calls more : List TlbCall) :
    runCalls (calls ++ more) tlb = runCalls calls tlb >>= runCalls more :=
  List.foldlM_append

/-- A computation that does not change the TLB. -/
theorem traces_nil (same : ∀ a, x = .ok a → tlbOf a = tlb) :
    Traces [] tlb x tlbOf where
  fault := fun _ eq => nomatch eq
  result := fun a eq => congrArg Except.ok (same a eq).symm

/-- A computation and what goes on from its result. -/
theorem Traces.bind (first : Traces calls tlb x tlbOf)
    (next : ∀ a, x = .ok a → Traces (more a) (tlbOf a) (f a) tlbOf') :
    Traces (calls ++ onward x more) tlb (x >>= f) tlbOf' := by
  cases x with
  | error fault =>
      refine ⟨fun fault' ran => ?_, fun b eq => nomatch eq⟩
      rw [runCalls_append] at ran
      cases faults : runCalls calls tlb with
      | error fault'' =>
          rw [faults] at ran
          obtain rfl := Except.error.inj ran
          rw [first.fault _ faults]
          rfl
      | ok tlb' =>
          rw [faults] at ran
          exact nomatch ran
  | ok a =>
      have ran := first.result a rfl
      have traces := next a rfl
      refine ⟨fun fault faults => ?_, fun b eq => ?_⟩
      · rw [runCalls_append, ran] at faults
        exact traces.fault fault faults
      · rw [runCalls_append, ran]
        exact traces.result b eq

/-- A computation that does not touch the TLB, and what goes on from it. -/
theorem traces_onward
    (next : ∀ a, x = .ok a → Traces (more a) tlb (f a) tlbOf') :
    Traces (onward x more) tlb (x >>= f) tlbOf' :=
  (traces_nil fun _ _ => rfl).bind next

/-- A result that is given back with the same TLB. -/
theorem traces_return (a : α) (same : tlbOf a = tlb) :
    Traces [] tlb (.ok a) tlbOf :=
  traces_nil fun _ eq => Except.ok.inj eq ▸ same

/-- A computation, and what goes on from its result without the TLB. -/
theorem Traces.silently (first : Traces calls tlb x tlbOf)
    (next : ∀ a, x = .ok a → Traces [] (tlbOf a) (f a) tlbOf') :
    Traces calls tlb (x >>= f) tlbOf' := by
  have traced : Traces (calls ++ onward x fun _ => []) tlb (x >>= f) tlbOf' :=
    first.bind next
  have none : onward x (fun _ => []) = [] := by cases x <;> rfl
  rwa [none, List.append_nil] at traced

theorem traces_lookup (vpn rw : Nat) (tlb : List TlbEntry) :
    Traces [.lookup vpn rw] tlb (lookupTlb vpn rw tlb) fun _ => tlb := by
  constructor
  · intro fault ran
    rw [runCalls_cons, TlbCall.run] at ran
    cases found : lookupTlb vpn rw tlb with
    | error fault' => simpa [found, bind, Except.bind] using ran
    | ok hit =>
        simp [found, runCalls, bind, Except.bind, pure, Except.pure] at ran
  · intro hit found
    simp [runCalls, TlbCall.run, found, bind, Except.bind, pure, Except.pure]

theorem traces_call (call : TlbCall) (tlb : List TlbEntry) :
    Traces [call] tlb (call.run tlb) id := by
  have ran : runCalls [call] tlb = call.run tlb := by
    rw [runCalls_cons]
    cases call.run tlb <;> rfl
  exact ⟨fun fault faults => ran ▸ faults, fun tlb' eq => ran.trans eq⟩

theorem translate_traces (rw vpn : Nat) (s : System) :
    Traces (translateCalls rw vpn s) s.tlb (translate true rw vpn s)
      fun result => result.2.tlb := by
  refine (traces_lookup vpn rw s.tlb).bind fun hit _ => ?_
  cases hit with
  | some pfn => exact traces_return _ rfl
  | none =>
      refine traces_onward fun walked _ => ?_
      cases walked with
      | none => exact traces_return _ rfl
      | some pte =>
          exact (traces_call (.insert vpn pte.rw pte.pfn) s.tlb).silently
            fun _ _ => traces_return _ rfl

theorem onKernel_traces (g : Kernel → Except Fault (α × Kernel)) (s : System) :
    Traces [] s.tlb (onKernel g s) fun result => result.2.tlb := by
  have same : Traces [] s.tlb (g s.kernel) fun _ => s.tlb :=
    traces_nil fun _ _ => rfl
  exact same.silently fun _ _ => traces_return _ rfl

theorem accessLoop_traces (env : Env) (vpn rw tries : Nat) (s : System) :
    Traces (accessCalls env vpn rw tries s) s.tlb
      (accessLoop true env vpn rw tries s) fun result => result.2.tlb := by
  induction tries generalizing s with
  | zero => exact traces_return _ rfl
  | succ tries inductionHypothesis =>
      refine (translate_traces rw vpn s).bind fun ⟨found, s₁⟩ _ => ?_
      cases found with
      | some translation => exact traces_return _ rfl
      | none =>
          refine (onKernel_traces (handlePageFault env vpn rw) s₁).bind
            fun ⟨ret, s₂⟩ _ => ?_
          cases ret with
          | false => exact traces_return _ rfl
          | true => exact inductionHypothesis s₂

theorem requestPage_traces (env : Env) (vpn : Nat) (rw : List Char)
    (s : System) :
    Traces (translateCalls accessRead vpn s) s.tlb
      (requestPage true env vpn (makeRwflag rw) s)
      fun result => result.2.2.tlb := by
  unfold requestPage
  rw [(cAssert_rwflag rw).1, (cAssert_rwflag rw).2]
  refine (translate_traces accessRead vpn s).silently fun ⟨found, s₁⟩ _ => ?_
  cases found with
  | some translation => exact traces_return _ rfl
  | none =>
      refine (onKernel_traces _ s₁).silently fun ⟨pfn, s₂⟩ _ => ?_
      simp only
      split
      · exact traces_return _ rfl
      · exact traces_return _ rfl

theorem releasePage_traces (vpn : Nat) (s : System) :
    Traces (tlbCalls env (.free vpn) s) s.tlb (releasePage true vpn s)
      fun result => result.2.tlb := by
  refine (translate_traces accessRead vpn s).bind fun ⟨found, s₁⟩ _ => ?_
  cases found with
  | none => exact traces_return _ rfl
  | some translation =>
      have freed : Traces (onward (clearPte vpn s₁.kernel) fun _ =>
          [.remove vpn]) s₁.tlb (freePage vpn s₁) System.tlb :=
        traces_onward fun _ _ => (traces_call (.remove vpn) s₁.tlb).silently
          fun _ _ => traces_return _ rfl
      exact freed.silently fun _ _ => traces_return _ rfl

theorem accessMemory_traces (env : Env) (exclusive : Exclusive rw) (s : System) :
    Traces (if vpn < nrPages then accessCalls env vpn rw 2 s else []) s.tlb
      (accessMemory true env vpn rw s) fun result => result.2.tlb := by
  by_cases inside : vpn < nrPages
  · rw [if_pos inside, accessMemory_eq true inside exclusive]
    exact accessLoop_traces env vpn rw 2 s
  · rw [if_neg inside, accessMemory_outside (Nat.le_of_not_lt inside)]
    exact traces_nil fun _ eq => nomatch eq

/-- The calls of a command are what it does to the TLB. -/
theorem execute_traces (env : Env) (c : Command) (s : System) :
    Traces (tlbCalls env c s) s.tlb (execute true env c s)
      fun result => result.2.state.tlb := by
  cases c with
  | alloc vpn rw =>
      refine (requestPage_traces env vpn rw s).silently
        fun ⟨done, outcome, s'⟩ _ => ?_
      cases done with
      | false => exact traces_return _ rfl
      | true => exact traces_return _ rfl
  | free vpn =>
      exact (releasePage_traces vpn s).silently fun _ _ => traces_return _ rfl
  | read vpn =>
      exact (accessMemory_traces env exclusive_read s).silently
        fun _ _ => traces_return _ rfl
  | write vpn =>
      exact (accessMemory_traces env exclusive_write s).silently
        fun _ _ => traces_return _ rfl
  | switch pid =>
      have switched : Traces (tlbCalls env (.switch pid) s) s.tlb
          (switchProcess env pid s) System.tlb :=
        traces_onward fun _ _ => (traces_call .flush s.tlb).silently
          fun _ _ => traces_return _ rfl
      exact switched.silently fun _ _ => traces_return _ rfl

end Traces

/-- What every call keeps, every command keeps. -/
theorem execute_keeps {P : List TlbEntry → Prop}
    (kept : ∀ (call : TlbCall) tlb, P tlb → Ensures P (call.run tlb)) (env : Env)
    (c : Command) (holds : P s.tlb) :
    Ensures (fun result => P result.2.state.tlb) (execute true env c s) := by
  intro result ran
  have called := (execute_traces env c s).result result ran
  exact ensures_foldlM P (fun tlb call holds => kept call tlb holds) _ holds _
    called

end OsPAs.Vm
