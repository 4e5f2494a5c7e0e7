/-
Module: OsPAs.Sched.ResponseTime
Purpose: How long a process can take.  Under round robin nobody else gets more
  ticks than the process itself before it exits; under the priority scheduler
  only those of at least its priority get any.
Trusted boundary: none
Main exports: SharesLine, SharesLine.next, rr_share_le, rr_response_time,
  prio_response_time
-/
import OsPAs.Sched.Isolation

namespace OsPAs.Sched

open Lib

section Runs

variable {script : List ProcessBlock} {k : Nat} {p q : Fin script.length}

/-! ### Round robin -/

/-- Process `p` stands in the line of pass `k`; since it was forked, those ahead
of it have had no more turns than it has, and nobody more than one more. -/
structure SharesLine (script : List ProcessBlock) (p : Fin script.length)
    (k : Nat) (front back : List (Fin script.length)) : Prop where
  lineEq : lineAt script rrScheduler k = front ++ p :: back
  ahead : ∀ q ∈ front, ran (chosenAt script rrScheduler) q k ≤
    ran (chosenAt script rrScheduler) q (startOf script p) +
      ran (chosenAt script rrScheduler) p k
  others : ∀ q, ran (chosenAt script rrScheduler) q k ≤
    ran (chosenAt script rrScheduler) q (startOf script p) +
      ran (chosenAt script rrScheduler) p k + 1

/-- Whoever has been forked and is unfinished stands in the line. -/
theorem PassOf.mem_lineAt {guard : Sim script.length → Prop}
    {sched : Scheduler script.length} {s mid : Sim script.length}
    (pass : PassOf script sched k s mid) (serves : Serves script guard sched)
    (noEntries : ∀ p, entries script p = [])
    (reached : doSimulation script sched k = .ok (.again s))
    (arrived : startOf script p ≤ k)
    (goesOn : ran (chosenAt script sched) p k < lifespanOf script p) :
    p ∈ lineAt script sched k := by
  rw [pass.lineAt_eq reached]
  by_contra absent
  rw [List.mem_append, Option.mem_toList, not_or] at absent
  have forked : p ∉ mid.forkqueue := by
    rw [(serves.timed reached).awaited_dispatch pass.dispatching]
    omega
  have finished := pass.finished_of_absent serves noEntries reached forked
    absent.2 absent.1
  omega

/-- An unfinished process is still to be served when its turn comes. -/
theorem Serves.reaches_unfinished {guard : Sim script.length → Prop}
    {sched : Scheduler script.length} (serves : Serves script guard sched)
    (noEntries : ∀ p, entries script p = [])
    (goesOn : ran (chosenAt script sched) p k < lifespanOf script p) :
    ∃ s, doSimulation script sched k = .ok (.again s) := by
  rcases serves.timeline noEntries k with reached | ⟨_, all⟩
  · exact reached
  · have finished := all p
    omega

theorem sharesLine_start (plain : PlainJobs script)
    (goesOn : ran (chosenAt script rrScheduler) p (startOf script p) <
      lifespanOf script p) :
    ∃ front back, SharesLine script p (startOf script p) front back := by
  have serves := plain.serves_rr
  obtain ⟨s, reached⟩ := serves.reaches_unfinished plain.entries_eq goesOn
  obtain ⟨mid, pass⟩ := serves.pass reached
  obtain ⟨front, back, lineEq⟩ := List.append_of_mem
    (pass.mem_lineAt serves plain.entries_eq reached (Nat.le_refl _) goesOn)
  exact ⟨front, back, lineEq, fun q _ => Nat.le_add_right _ _,
    fun q => by omega⟩

theorem ran_of_chosen {sched : Scheduler script.length}
    (chosen : chosenAt script sched k = some p) (q : Fin script.length) :
    ran (chosenAt script sched) q (k + 1) =
      ran (chosenAt script sched) q k + if q = p then 1 else 0 := by
  rw [ran_succ, chosen]
  simp only [Option.some_inj, eq_comm]

/-- From one pass to the next somebody ahead of `p` has had its turn, or `p`
has. -/
theorem SharesLine.next (plain : PlainJobs script)
    {front back : List (Fin script.length)}
    (shares : SharesLine script p k front back)
    (goesOn : ran (chosenAt script rrScheduler) p (k + 1) < lifespanOf script p) :
    ∃ front' back', SharesLine script p (k + 1) front' back' := by
  have serves := plain.serves_rr
  obtain ⟨s', next⟩ := serves.reaches_unfinished plain.entries_eq goesOn
  obtain ⟨s, mid, reached, pass, executedEq⟩ := serves.before next
  have line := rr_lineAt_succ plain next
  have once := pass.nodup_lineAt reached
  have first := pass.head?_lineAt reached
  obtain ⟨lineEq, ahead, others⟩ := shares
  rw [lineEq] at line once first
  cases front with
  | nil =>
      -- the process itself runs, and goes to the end of the line
      have chosen : chosenAt script rrScheduler k = some p := first.symm
      have isAlive : alive s' = [p] := by
        have ticked := pass.prepared.ticked plain.entries_eq executedEq
        have isCurrent : s'.current = some p := by
          rw [ticked.current, ← chosenAt_of_dispatched reached pass.dispatchedEq,
            chosen]
        rw [alive_of_current isCurrent, if_pos]
        unfold unfinished
        rwa [serves.ages plain.entries_eq next, (serves.timed next).lifespan]
      have bound (q : Fin script.length) :
          ran (chosenAt script rrScheduler) q (k + 1) ≤
            ran (chosenAt script rrScheduler) q (startOf script p) +
              ran (chosenAt script rrScheduler) p (k + 1) := by
        have before := others q
        rw [ran_of_chosen chosen, ran_of_chosen chosen, if_pos rfl]
        by_cases isP : q = p
        · subst isP
          rw [if_pos rfl]
          omega
        · rw [if_neg isP]
          omega
      rw [isAlive] at line
      exact ⟨_, [], line, fun q _ => bound q, fun q => Nat.le_succ_of_le (bound q)⟩
  | cons h front =>
      -- somebody ahead runs, and is not ahead any more
      have chosen : chosenAt script rrScheduler k = some h := first.symm
      have differ : p ≠ h := by
        rintro rfl
        simp at once
      have gone : h ∉ front := by
        intro twice
        simp [twice] at once
      have own : ran (chosenAt script rrScheduler) p (k + 1) =
          ran (chosenAt script rrScheduler) p k := by
        rw [ran_of_chosen chosen, if_neg differ]
        rfl
      refine ⟨front, back ++ _ ++ alive s', ⟨by rw [line]; simp; rfl, ?_, ?_⟩⟩
      · intro q isAhead
        have other : q ≠ h := by
          rintro rfl
          exact gone isAhead
        rw [own, ran_of_chosen chosen, if_neg other]
        exact ahead q (List.mem_cons_of_mem h isAhead)
      · intro q
        rw [own, ran_of_chosen chosen]
        by_cases isH : q = h
        · subst isH
          rw [if_pos rfl]
          exact Nat.succ_le_succ (ahead q List.mem_cons_self)
        · rw [if_neg isH]
          exact others q

/-- While `p` is unfinished it stands in the line. -/
theorem rr_sharesLine (plain : PlainJobs script) (arrived : startOf script p ≤ k)
    (goesOn : ran (chosenAt script rrScheduler) p k < lifespanOf script p) :
    ∃ front back, SharesLine script p k front back := by
  induction k, arrived using Nat.le_induction with
  | base => exact sharesLine_start plain goesOn
  | succ k _ inductionHypothesis =>
      obtain ⟨front, back, shares⟩ := inductionHypothesis
        (Nat.lt_of_le_of_lt (ran_mono _ p (Nat.le_succ k)) goesOn)
      exact shares.next plain goesOn

/-- From its start to its exit nobody else gets more ticks than `p`. -/
theorem rr_share_le (plain : PlainJobs script) {d : Nat}
    (completes : CompletesAt (lifespanOf script) (chosenAt script rrScheduler) p d)
    (other : q ≠ p) :
    ran (chosenAt script rrScheduler) q d ≤
      ran (chosenAt script rrScheduler) q (startOf script p) +
        min (lifespanOf script q) (lifespanOf script p) := by
  have conserving := plain.serves_rr.workConserving plain.entries_eq
  have all := conserving.ran_le q d
  obtain ⟨last, rfl, chosen, finished⟩ := completes
  rw [ran_of_chosen chosen, if_pos rfl] at finished
  obtain ⟨front, back, shares⟩ := rr_sharesLine plain
    (conserving.arrived last p chosen)
    (show ran (chosenAt script rrScheduler) p last < _ by omega)
  have bound := shares.others q
  rw [ran_of_chosen chosen, if_neg other] at all ⊢
  omega

/-! ### Priorities -/

/-- While `p` is there and unfinished, whoever runs has at least its priority. -/
theorem prio_chosen_above (plain : PlainJobs script)
    (arrived : startOf script p ≤ k)
    (goesOn : ran (chosenAt script prioScheduler) p k < lifespanOf script p)
    (chosen : chosenAt script prioScheduler k = some q) :
    priorityOf script p ≤ priorityOf script q := by
  have serves := plain.serves_prio
  obtain ⟨s, mid, reached, pass, isCurrent⟩ := pass_of_chosenAt serves chosen
  have inLine := pass.mem_lineAt serves plain.entries_eq reached arrived goesOn
  have preferred := reached_preferred plain.wellFormed.known reached
    pass.dispatchedEq
  rw [pass.lineAt_eq reached, isCurrent] at inLine
  rw [isCurrent] at preferred
  rcases List.mem_cons.mp inLine with rfl | isReady
  · exact Nat.le_refl _
  · exact preferred.highest p isReady

/-- From its start to its exit nobody of lower priority than `p` runs. -/
theorem prio_share_zero (plain : PlainJobs script) {d : Nat}
    (completes :
      CompletesAt (lifespanOf script) (chosenAt script prioScheduler) p d)
    (conserving : WorkConserving (startOf script) (lifespanOf script)
      (chosenAt script prioScheduler))
    (low : priorityOf script q < priorityOf script p)
    (arrived : startOf script p ≤ k) (before : k ≤ d) :
    ran (chosenAt script prioScheduler) q k =
      ran (chosenAt script prioScheduler) q (startOf script p) := by
  induction k, arrived using Nat.le_induction with
  | base => rfl
  | succ k arrived inductionHypothesis =>
      rw [ran_succ, inductionHypothesis (Nat.le_of_succ_le before), if_neg]
      · rfl
      · intro chosen
        have goesOn := (conserving.unfinished_iff completes).mpr
          (Nat.lt_of_succ_le before)
        have above := prio_chosen_above plain arrived goesOn chosen
        omega

end Runs

/-- Response time under round robin.  On a script without acquire lines every
process exits, and between its start tick and its exit each other process runs
for at most as many ticks as it does itself: it exits at most its lifespan, and
for each other process the smaller of the two lifespans, after its start. -/
theorem rr_response_time (script : List ProcessBlock) (plain : PlainJobs script)
    (p : Fin script.length) :
    ∃ d, ExitsAt script rrScheduler p d ∧
      d ≤ startOf script p + lifespanOf script p +
        ∑ q ∈ Finset.univ.erase p,
          min (lifespanOf script q) (lifespanOf script p) := by
  have serves := plain.serves_rr
  have conserving := serves.workConserving plain.entries_eq
  obtain ⟨d, completes⟩ := conserving.completes (plain.positive p)
  refine ⟨d, (serves.exitsAt_iff plain.entries_eq p d).mpr completes, ?_⟩
  have bound := conserving.response_le completes
    (fun q => min (lifespanOf script q) (lifespanOf script p)) fun q => by
      by_cases isP : q = p
      · subst isP
        have all := conserving.ran_le q d
        omega
      · exact rr_share_le plain completes isP
  rw [← Finset.add_sum_erase _ _ (Finset.mem_univ p), Nat.min_self] at bound
  omega

/-- A long process, and two short ones that come while it runs. -/
def longAndShort : List ProcessBlock :=
  [{ pid := 1, start := 0, lifespan := 6, prio := 4 },
   { pid := 2, start := 1, lifespan := 2, prio := 4 },
   { pid := 3, start := 2, lifespan := 3, prio := 9 }]

/-- The second process exits by tick 7. -/
theorem rr_response_time_longAndShort :
    ∃ d, ExitsAt longAndShort rrScheduler ⟨1, by decide⟩ d ∧ d ≤ 7 := by
  obtain ⟨d, exits, bound⟩ :=
    rr_response_time longAndShort (by decide) ⟨1, by decide⟩
  exact ⟨d, exits, Nat.le_trans bound (by decide)⟩

/-- Response time under the priority scheduler.  On a script without acquire
lines every process exits, and only processes of at least its priority hold it
up: it exits at most the sum of their lifespans after its start. -/
theorem prio_response_time (script : List ProcessBlock)
    (plain : PlainJobs script) (p : Fin script.length) :
    ∃ d, ExitsAt script prioScheduler p d ∧
      d ≤ startOf script p + ∑ q with priorityOf script p ≤ priorityOf script q,
        lifespanOf script q := by
  have serves := plain.serves_prio
  have conserving := serves.workConserving plain.entries_eq
  obtain ⟨d, completes⟩ := conserving.completes (plain.positive p)
  refine ⟨d, (serves.exitsAt_iff plain.entries_eq p d).mpr completes, ?_⟩
  rw [Finset.sum_filter]
  refine conserving.response_le completes _ fun q => ?_
  split
  · have all := conserving.ran_le q d
    omega
  · rename_i low
    have arrived : startOf script p ≤ d := by
      obtain ⟨last, rfl, chosen, _⟩ := completes
      exact Nat.le_succ_of_le (conserving.arrived last p chosen)
    rw [prio_share_zero plain completes conserving (Nat.lt_of_not_le low) arrived
      (Nat.le_refl d)]
    rfl

/-- Held up by the other two it exits by tick 12. -/
theorem prio_response_time_longAndShort :
    ∃ d, ExitsAt longAndShort prioScheduler ⟨1, by decide⟩ d ∧ d ≤ 12 := by
  obtain ⟨d, exits, bound⟩ :=
    prio_response_time longAndShort (by decide) ⟨1, by decide⟩
  exact ⟨d, exits, Nat.le_trans bound (by decide)⟩

end OsPAs.Sched
