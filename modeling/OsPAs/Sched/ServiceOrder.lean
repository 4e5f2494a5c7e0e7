/-
Module: OsPAs.Sched.ServiceOrder
Purpose: The order in which a resource is served.  Whoever was refused it before
  another process asked at all gets it before that process, as long as a free
  resource is taken by nobody but the process that was woken for it.
Trusted boundary: none
Main exports: ServedInOrder, HandsOver, KeepsAhead, Serving, Plain.served
-/
import OsPAs.Lib.History
import OsPAs.Sched.Requests

namespace OsPAs.Sched

open Lib

variable {n : Nat}

/-! ### The order in the log -/

/-- The line reports that `p` got `r`. -/
def Grants (p : Fin n) (r : Fin nrResources) (line : Nat × Event n) : Prop :=
  line.2 = .acquired p r.val

/-- The line reports that `p` did not get `r`. -/
def Refuses (p : Fin n) (r : Fin nrResources) (line : Nat × Event n) : Prop :=
  line.2 = .blocked p r.val

/-- The line reports a request of `p` for `r`. -/
def Asks (p : Fin n) (r : Fin nrResources) (line : Nat × Event n) : Prop :=
  Grants p r line ∨ Refuses p r line

/-- Process `p` was refused `r` before `q` ever asked for it, and has not got it
since. -/
def Overdue (s : Sim n) (p q : Fin n) (r : Fin nrResources) : Prop :=
  Pending (Refuses p r) (Asks q r) (Grants p r) s.stderr

/-- Whenever `q` got `r` after a refusal of `p` that no request of `q` for `r`
preceded, `p` got it between the two. -/
def ServedInOrder (s : Sim n) (p q : Fin n) (r : Fin nrResources) : Prop :=
  InTurn (Refuses p r) (Asks q r) (Grants p r) (Grants q r) s.stderr

/-- In the coming pass, if the resource `r` is free when the chosen process asks
for it, no other process was woken from its waitqueue and has yet to ask
again. -/
def HandsOver (sched : Scheduler n) (r : Fin nrResources) (s : Sim n) : Prop :=
  ∀ mid c, dispatch sched s = .ok mid → mid.current = some c →
    ∀ call ∈ acquireCalls sched c (mid.procs c).resourcesToAcquire
      (mid.setStatus c .running),
      call.1.resourceId = r.val → call.2.owner r = none →
        ∀ w, WokenFrom call.2 r w → w = c

instance (sched : Scheduler n) (r : Fin nrResources) (s : Sim n) :
    Decidable (HandsOver sched r s) :=
  decidable_of_iff
    (∀ mid ∈ (dispatch sched s).toOption, ∀ c ∈ mid.current,
      ∀ call ∈ acquireCalls sched c (mid.procs c).resourcesToAcquire
        (mid.setStatus c .running),
        call.1.resourceId = r.val → call.2.owner r = none →
          ∀ w, WokenFrom call.2 r w → w = c)
    (by
      constructor
      · intro all mid c dispatchedEq isCurrent
        exact all mid (mem_toOption.mpr dispatchedEq) c isCurrent
      · intro handsOver mid isMid c isCurrent
        exact handsOver mid c (mem_toOption.mp isMid) isCurrent)

/-- With the given priorities, `choose` does not wake `q` past `p`. -/
def KeepsAhead (choose : Sim n → Fin n → List (Fin n) → Fin n)
    (prio : Fin n → Nat) (p q : Fin n) : Prop :=
  ∀ s first rest, (∀ x, (s.procs x).prio = prio x) →
    Ahead p q (first :: rest) → choose s first (first :: rest) ≠ q

/-- Where `p` is overdue, it is ahead of `q` in the waitqueue, or was woken and
the resource is free. -/
structure Serving (p q : Fin n) (r : Fin nrResources) (s : Sim n) : Prop where
  inOrder : ServedInOrder s p q r
  asleep : Overdue s p q r → ¬ WokenFrom s r q
  next : Overdue s p q r →
    Ahead p q (s.waitqueue r) ∨ WokenFrom s r p ∧ s.owner r = none

section Moves

variable {s s' t t' : Sim n} {c p q : Fin n} {r i : Fin nrResources}
  {rs : ResourceSchedule} {rest : List ResourceSchedule}
  {rank : Fin n → Fin n → Prop}

theorem asks_iff (line : Nat × Event n) :
    Asks p r line ↔ ∃ granted, line.2.requestBy p = some (granted, r.val) := by
  obtain ⟨tick, event⟩ := line
  cases event <;> simp [Asks, Grants, Refuses, Event.requestBy]

/-- A process whose last request was for `r` asked for it. -/
theorem exists_asks {granted : Bool}
    (last : lastRequest s q = some (granted, r.val)) :
    ∃ line ∈ s.stderr, Asks q r line := by
  have member : (granted, r.val) ∈ requests s q := List.mem_of_getLast? last
  obtain ⟨line, isLine, about⟩ := List.mem_filterMap.mp member
  exact ⟨line, isLine, (asks_iff line).mpr ⟨granted, about⟩⟩

/-- Changes that report no request and leave the waitqueues and owners alone. -/
theorem Serving.congr (serving : Serving p q r s)
    {lines : List (Nat × Event n)} (appended : s'.stderr = s.stderr ++ lines)
    (silent : ∀ line ∈ lines, ∀ x, line.2.requestBy x = none)
    (owner : s'.owner = s.owner) (waitqueue : s'.waitqueue = s.waitqueue) :
    Serving p q r s' := by
  have asksNot (x : Fin n) : ∀ line ∈ lines, ¬ Asks x r line := by
    intro line member asks
    obtain ⟨granted, about⟩ := (asks_iff line).mp asks
    simp [silent line member x] at about
  have last (x : Fin n) : lastRequest s' x = lastRequest s x :=
    lastRequest_of_append appended fun line member => silent line member x
  have overdueOf (overdue : Overdue s' p q r) : Overdue s p q r := by
    unfold Overdue at overdue
    rw [appended] at overdue
    exact overdue.of_append fun line member refuses =>
      asksNot p line member (Or.inr refuses)
  constructor
  · unfold ServedInOrder
    rw [appended]
    exact serving.inOrder.append fun line member grants =>
      asksNot q line member (Or.inl grants)
  · intro overdue woken
    exact serving.asleep (overdueOf overdue)
      (woken.congr (last q).symm (by rw [waitqueue]))
  · intro overdue
    rw [waitqueue, owner]
    apply (serving.next (overdueOf overdue)).imp id
    intro ⟨woken, free⟩
    exact ⟨woken.congr (last p) (by rw [waitqueue]), free⟩

theorem Serving.of_same (serving : Serving p q r s)
    (stderr : s'.stderr = s.stderr) (owner : s'.owner = s.owner)
    (waitqueue : s'.waitqueue = s.waitqueue) : Serving p q r s' :=
  serving.congr (stderr.trans (List.append_nil _).symm) (by simp) owner waitqueue

theorem Serving.print (serving : Serving p q r s) {event : Event n}
    (silent : ∀ x, event.requestBy x = none) :
    Serving p q r (s.print event) := by
  have appended : (s.print event).stderr = s.stderr ++ [(s.ticks, event)] := rfl
  apply serving.congr appended _ rfl rfl
  intro line member x
  rw [List.mem_singleton.mp member]
  exact silent x

/-- A process that asks for another resource was not woken for `r`. -/
theorem AsksFirst.same_of_woken (asks : AsksFirst t c (rs :: rest))
    (now : rs.atAge = (t.procs c).age) (isI : rs.resourceId = i.val)
    (woken : WokenFrom t r c) : i = r :=
  Fin.ext (isI.symm.trans (asks.repeats now woken.1))

/-- A grant to `c`, the process woken for the resource if there is one. -/
theorem Serving.granted (differ : p ≠ q) (serving : Serving p q r t)
    (answered : Answered rank t) (asks : AsksFirst t c (rs :: rest))
    (now : rs.atAge = (t.procs c).age) (isI : rs.resourceId = i.val)
    (move : Requested t c i true t')
    (handed : i = r → ∀ w, WokenFrom t r w → w = c) :
    Serving p q r ((t'.hold c rs).print (.acquired c i.val)) := by
  have appended : ((t'.hold c rs).print (.acquired c i.val)).stderr =
      t.stderr ++ [(t'.ticks, .acquired c i.val)] := by
    rw [← move.stderr]
    rfl
  obtain ⟨_, _, _, waitqueue⟩ := move.queues_granted
  -- whoever is overdue is not passed over
  have notPassed (overdue : Overdue t p q r) (isR : i = r) : q ≠ c := by
    subst isR
    rcases serving.next overdue with ahead | ⟨woken, _⟩
    · obtain ⟨w, woken, _⟩ :=
        answered i move.free (List.ne_nil_of_mem ahead.mem)
      intro isQ
      apply serving.asleep overdue
      rw [isQ, ← handed rfl w woken]
      exact woken
    · exact fun isQ => differ ((handed rfl p woken).trans isQ.symm)
  have overdueOf
      (overdue : Overdue ((t'.hold c rs).print (.acquired c i.val)) p q r) :
      Overdue t p q r ∧ ¬ (c = p ∧ i = r) := by
    unfold Overdue at overdue
    rw [appended] at overdue
    rcases overdue.of_snoc with ⟨before, unserved⟩ | ⟨opened, _⟩
    · refine ⟨before, ?_⟩
      rintro ⟨rfl, rfl⟩
      exact unserved rfl
    · simp [Refuses] at opened
  constructor
  · unfold ServedInOrder
    rw [appended]
    apply serving.inOrder.snoc
    intro granted overdue
    obtain ⟨isQ, isR⟩ : c = q ∧ i.val = r.val := by simpa [Grants] using granted
    exact notPassed overdue (Fin.ext isR) isQ.symm
  · intro overdue woken
    have last := woken.1
    rw [move.last_granted] at last
    split at last
    · simp at last
    · exact serving.asleep (overdueOf overdue).1
        ⟨last, fun waits => woken.2 (waitqueue ▸ waits)⟩
  · intro overdue
    obtain ⟨before, notMine⟩ := overdueOf overdue
    change Ahead p q (t'.waitqueue r) ∨ _ ∧ t'.owner r = none
    rw [waitqueue, move.owner_granted]
    apply (serving.next before).imp id
    intro ⟨woken, free⟩
    have other : p ≠ c := by
      rintro rfl
      exact notMine ⟨rfl, asks.same_of_woken now isI woken⟩
    have elsewhere : r ≠ i := fun isR => other (handed isR.symm p woken)
    rw [Function.update_of_ne elsewhere]
    refine ⟨woken.congr ?_ (congrFun waitqueue r), free⟩
    rw [move.last_granted, if_neg other]

/-- A refusal of `c`. -/
theorem Serving.refused (differ : p ≠ q) (serving : Serving p q r t)
    (told : Told t (some c)) (loose : t.detached c)
    (asks : AsksFirst t c (rs :: rest)) (now : rs.atAge = (t.procs c).age)
    (isI : rs.resourceId = i.val) (move : Requested t c i false t') :
    Serving p q r (t'.print (.blocked c i.val)) := by
  have appended : (t'.print (.blocked c i.val)).stderr =
      t.stderr ++ [(t'.ticks, .blocked c i.val)] := by
    rw [← move.stderr]
    rfl
  have waitqueue := move.waitqueue_refused
  have waitsOn : i = r → t'.waitqueue r = t.waitqueue r ++ [c] := by
    rintro rfl
    rw [waitqueue, Function.update_self]
  have waitsElsewhere (elsewhere : i ≠ r) :
      t'.waitqueue r = t.waitqueue r := by
    rw [waitqueue, Function.update_of_ne elsewhere.symm]
  have stillWaits {x : Fin n} (waits : x ∈ t.waitqueue r) :
      x ∈ t'.waitqueue r :=
    move.mem_waitqueue_refused.mpr (Or.inl waits)
  have overdueOf (overdue : Overdue (t'.print (.blocked c i.val)) p q r) :
      Overdue t p q r ∨
        (c = p ∧ i = r) ∧ ∀ line ∈ t.stderr, ¬ Asks q r line := by
    unfold Overdue at overdue
    rw [appended] at overdue
    apply overdue.of_snoc.imp And.left
    intro ⟨opened, first⟩
    obtain ⟨isP, isR⟩ : c = p ∧ i.val = r.val := by
      simpa [Refuses] using opened
    exact ⟨⟨isP, Fin.ext isR⟩, first⟩
  constructor
  · unfold ServedInOrder
    rw [appended]
    apply serving.inOrder.snoc
    intro granted
    simp [Grants] at granted
  · intro overdue woken
    have last := woken.1
    rw [move.last_refused] at last
    split at last
    · rename_i isC
      have isR : i = r := Fin.ext (Prod.mk.inj (Option.some.inj last)).2
      apply woken.2
      change q ∈ t'.waitqueue r
      rw [waitsOn isR, isC]
      simp
    · rcases overdueOf overdue with before | ⟨_, first⟩
      · exact serving.asleep before
          ⟨last, fun waits => woken.2 (stillWaits waits)⟩
      · obtain ⟨line, member, asked⟩ := exists_asks last
        exact first line member asked
  · intro overdue
    change Ahead p q (t'.waitqueue r) ∨ _ ∧ t'.owner r = none
    rw [move.owner_refused]
    rcases overdueOf overdue with before | ⟨⟨rfl, rfl⟩, first⟩
    · rcases serving.next before with ahead | ⟨woken, free⟩
      · refine Or.inl ?_
        by_cases isR : i = r
        · rw [waitsOn isR]
          exact ahead.append [c]
        · rwa [waitsElsewhere isR]
      · have elsewhere : i ≠ r := fun isR => move.taken (isR ▸ free)
        have other : p ≠ c := by
          rintro rfl
          exact elsewhere (asks.same_of_woken now isI woken)
        refine Or.inr ⟨woken.congr ?_ (waitsElsewhere elsewhere), free⟩
        rw [move.last_refused, if_neg other]
    · refine Or.inl ?_
      rw [waitsOn rfl]
      apply ahead_of_mem (by simp)
      intro member
      rcases List.mem_append.mp member with waits | isC
      · obtain ⟨line, isLine, asked⟩ := exists_asks (told.waiting i q waits)
        exact first line isLine asked
      · exact differ (List.mem_singleton.mp isC).symm

/-- In the waitqueue that is served `q` stays, and `p` stays ahead of it or is
woken. -/
theorem ahead_served {choose : Sim n → Fin n → List (Fin n) → Fin n}
    {prio : Fin n → Nat} {run : Option (Fin n)} {resourceId : Nat}
    (ahead : Ahead p q (t.waitqueue i)) (linked : Linked t run)
    (sameKeeps : ∀ x, (t.procs x).prio = prio x)
    (keeps : KeepsAhead choose prio p q)
    (released : releaseWith (fun _ s => s) choose c resourceId t = .ok t')
    (isI : i.val = resourceId) :
    (q ∈ t.waitqueue i → q ∈ t'.waitqueue i) ∧
      (Ahead p q (t'.waitqueue i) ∨ p ∉ t'.waitqueue i) := by
  obtain ⟨j, isJ, _, queues⟩ := releaseWith_waiter released
  obtain rfl : i = j := Fin.ext (isI.trans isJ.symm)
  rcases queues with ⟨_, waitqueue, _⟩ | ⟨first, rest, queueEq, waitqueue, _⟩
  · rw [waitqueue]
    exact ⟨id, Or.inl ahead⟩
  · have nodup := linked.nodup_waitqueue i
    rw [queueEq] at nodup ahead ⊢
    rw [waitqueue, Function.update_self]
    have notQ := keeps (t.setOwner i none) first rest sameKeeps ahead
    refine ⟨fun waits => (List.mem_erase_of_ne notQ.symm).mpr waits, ?_⟩
    by_cases isP : choose (t.setOwner i none) first (first :: rest) = p
    · rw [isP]
      exact Or.inr nodup.not_mem_erase
    · exact Or.inl (ahead.erase isP)

/-- A release wakes `p` before `q`. -/
theorem Serving.released {choose : Sim n → Fin n → List (Fin n) → Fin n}
    {prio : Fin n → Nat} {run : Option (Fin n)} {resourceId : Nat}
    (serving : Serving p q r t) (told : Told t none) (linked : Linked t run)
    (sameKeeps : ∀ x, (t.procs x).prio = prio x)
    (keeps : KeepsAhead choose prio p q) (move : Released t c i t')
    (released : releaseWith (fun _ s => s) choose c resourceId t = .ok t')
    (isI : i.val = resourceId) :
    Serving p q r (t'.print (.released c resourceId)) := by
  have last (x : Fin n) : lastRequest t' x = lastRequest t x :=
    lastRequest_of_stderr move.stderr x
  have overdueEq : Overdue t' p q r = Overdue t p q r := by
    unfold Overdue
    rw [move.stderr]
  have elsewhere (free : t.owner r = none) : r ≠ i := by
    rintro rfl
    simp [move.owned] at free
  have here (isR : r = i) (ahead : Ahead p q (t.waitqueue r)) :
      (q ∈ t.waitqueue r → q ∈ t'.waitqueue r) ∧
        (Ahead p q (t'.waitqueue r) ∨ p ∉ t'.waitqueue r) := by
    subst isR
    exact ahead_served ahead linked sameKeeps keeps released isI
  apply Serving.print _ fun _ => rfl
  constructor
  · unfold ServedInOrder
    rw [move.stderr]
    exact serving.inOrder
  · rw [overdueEq]
    intro overdue woken
    apply serving.asleep overdue
    refine ⟨(last q).symm.trans woken.1, fun waits => woken.2 ?_⟩
    by_cases isR : r = i
    · rcases serving.next overdue with ahead | ⟨_, free⟩
      · exact (here isR ahead).1 waits
      · exact absurd isR (elsewhere free)
    · rw [move.waitqueue_of_ne isR]
      exact waits
  · rw [overdueEq, move.owner]
    intro overdue
    rcases serving.next overdue with ahead | ⟨woken, free⟩
    · by_cases isR : r = i
      · apply (here isR ahead).2.imp id
        intro left
        refine ⟨⟨(last p).trans (told.waiting r p ahead.mem), left⟩, ?_⟩
        rw [isR, Function.update_self]
      · rw [move.waitqueue_of_ne isR]
        exact Or.inl ahead
    · refine Or.inr ⟨woken.congr (last p) ?_, ?_⟩
      · exact move.waitqueue_of_ne (elsewhere free)
      · rw [Function.update_of_ne (elsewhere free), free]

end Moves

/-! ### One pass -/

section Pass

variable {choose : Sim n → Fin n → List (Fin n) → Fin n}
  {sched : Scheduler n} {prio : Fin n → Nat} {rank : Fin n → Fin n → Prop}
  {all : Fin n → List ResourceSchedule} {s s' mid : Sim n} {c p q : Fin n}
  {r : Fin nrResources} {guard : Sim n → Prop}

/-- The first half of a pass. -/
theorem Serving.dispatched (serving : Serving p q r s)
    (contract : Contract True guard sched) (sound : Sound s)
    (guarded : guard (forkOnSchedule s))
    (dispatchedEq : dispatch sched s = .ok mid)
    (dispatching : Dispatching s mid) : Serving p q r mid := by
  obtain ⟨lines, appended, quiet⟩ :=
    sound.dispatch_stderr contract guarded dispatchedEq
  apply serving.congr appended _ dispatching.owner dispatching.waitqueue
  intro line member x
  obtain ⟨y, isFork | isExit⟩ := quiet line member
  · rw [isFork]
    rfl
  · rw [isExit]
    rfl

/-- What is carried through a tick of the chosen process that hands free
resources over. -/
theorem Plain.serving_carries (plain : Plain choose sched)
    (picks : Picks choose prio rank) (keeps : KeepsAhead choose prio p q)
    (differ : p ≠ q) (prepared : Prepared all mid) (fitting : Fitting all mid)
    (isCurrent : mid.current = some c)
    (orderly : Orderly rank prio mid (some c))
    (asks : AsksFirst mid c (mid.procs c).resourcesToAcquire)
    (serving : Serving p q r mid)
    (handed : ∀ call ∈ acquireCalls sched c (mid.procs c).resourcesToAcquire
      (mid.setStatus c .running), call.1.resourceId = r.val →
        call.2.owner r = none → ∀ w, WokenFrom call.2 r w → w = c) :
    Carries sched True mid c
      (fun kept todo t => (Asking all mid c kept todo t ∧
        Requesting rank prio mid c todo t) ∧ Serving p q r t)
      (fun stay t => (TurnedDown all c stay t ∧
        Orderly rank prio (t.setToAcquire c stay) none) ∧ Serving p q r t)
      (fun kept todo t => (Releasing all mid c kept todo t ∧
        Orderly rank prio t none) ∧ Serving p q r t) := by
  apply (plain.carries picks prepared fitting isCurrent orderly asks).alongside
  · exact serving.of_same rfl rfl rfl
  · intro kept rs rest t _ _ serving _
    exact serving
  · intro kept rs rest t inside t' _ before serving now called _ move
    obtain ⟨_, orderly, asks, _⟩ := before
    apply serving.granted differ orderly.answered asks now rfl move
    intro isR
    exact handed (rs, t) called (congrArg Fin.val isR) (isR ▸ move.free)
  · intro kept rs rest t inside t' busy before serving now _ _ move
    obtain ⟨_, orderly, asks, _⟩ := before
    exact serving.refused differ orderly.told busy.detached asks now rfl move
  · intro stay t _ _ serving _
    have asked : Serving p q r (t.setToAcquire c stay) :=
      serving.of_same rfl rfl rfl
    have turn : Serving p q r ((t.setToAcquire c stay).print (.ran c)) :=
      asked.print fun _ => rfl
    exact turn.of_same rfl rfl rfl
  · intro kept rs rest t _ _ serving _
    exact serving
  · intro kept rs rest t inside t' busy before serving _ released move _
    rw [plain.release] at released
    obtain ⟨_, orderly⟩ := before
    exact serving.released orderly.told busy.linked orderly.prio keeps move
      released rfl

/-- The second half of a pass. -/
theorem Plain.serving_executed (plain : Plain choose sched)
    (contract : Contract True guard sched) (picks : Picks choose prio rank)
    (keeps : KeepsAhead choose prio p q) (differ : p ≠ q)
    (prepared : Prepared all mid) (fitting : Fitting all mid)
    (orderly : Orderly rank prio mid mid.current)
    (asks : ∀ c, AsksFirst mid c (mid.procs c).resourcesToAcquire)
    (serving : Serving p q r mid)
    (handed : ∀ c, mid.current = some c →
      ∀ call ∈ acquireCalls sched c (mid.procs c).resourcesToAcquire
        (mid.setStatus c .running), call.1.resourceId = r.val →
          call.2.owner r = none → ∀ w, WokenFrom call.2 r w → w = c)
    (executedEq : execute sched mid = .ok s') : Serving p q r s' := by
  cases isCurrent : mid.current with
  | none =>
      obtain rfl := Except.ok.inj
        ((execute_of_idle sched isCurrent).symm.trans executedEq)
      have idle : Serving p q r (mid.print .idle) :=
        serving.print fun _ => rfl
      exact idle.of_same rfl rfl rfl
  | some c =>
      rw [isCurrent] at orderly
      obtain ⟨stay, t, ⟨rfl, _, _, ended⟩ | ⟨rfl, _, _, ended⟩⟩ :=
        (plain.serving_carries picks keeps differ prepared fitting isCurrent
          orderly (asks c) serving (handed c isCurrent)).executed contract
            prepared.dispatched isCurrent executedEq
      · exact ended.of_same rfl rfl rfl
      · exact ended.of_same rfl rfl rfl

end Pass

/-! ### Whole runs -/

section Reached

variable {script : List ProcessBlock}
  {choose : Sim script.length → Fin script.length → List (Fin script.length) →
    Fin script.length}
  {guard : Sim script.length → Prop} {sched : Scheduler script.length}
  {rank : Fin script.length → Fin script.length → Prop} {k : Nat}
  {s mid : Sim script.length} {p q : Fin script.length} {r : Fin nrResources}

theorem load_serving : Serving p q r (load script) where
  inOrder := inTurn_nil
  asleep := fun overdue => absurd overdue pending_nil
  next := fun overdue => absurd overdue pending_nil

/-- Run rule: as long as every pass hands `r` over, `p` and `q` are served in
order. -/
theorem Plain.served (plain : Plain choose sched)
    (serves : Serves script guard sched)
    (picks : Picks choose (priorityOf script) rank)
    (keeps : KeepsAhead choose (priorityOf script) p q) (differ : p ≠ q)
    (handed : ∀ j < k, ∀ u, doSimulation script sched j = .ok (.again u) →
      HandsOver sched r u)
    (reached : doSimulation script sched k = .ok (.again s)) :
    ServedInOrder s p q r := by
  have invariant : ∀ k s, doSimulation script sched k = .ok (.again s) →
      (∀ j < k, ∀ u, doSimulation script sched j = .ok (.again u) →
        HandsOver sched r u) → Serving p q r s := by
    intro k s reached
    apply serves.invariant (fun k s =>
      (∀ j < k, ∀ u, doSimulation script sched j = .ok (.again u) →
        HandsOver sched r u) → Serving p q r s) _ _ reached
    · exact fun _ => load_serving
    · intro k s mid s' reached serving pass _ executedEq _ handed
      have before := serving fun j earlier => handed j (by omega)
      have sound := (serves.settled reached).1.sound
      obtain ⟨orderly, asks⟩ := plain.dispatched serves.contract
        (plain.reached serves picks reached) sound
        (serves.guard_of_reached reached) pass.dispatchedEq pass.dispatching
      exact plain.serving_executed serves.contract picks keeps differ
        pass.prepared pass.fitting orderly asks
        (before.dispatched serves.contract sound
          (serves.guard_of_reached reached) pass.dispatchedEq pass.dispatching)
        (fun c isCurrent => handed k (Nat.lt_succ_self k) s reached mid c
          pass.dispatchedEq isCurrent) executedEq
  exact (invariant k s reached handed).inOrder

end Reached

end OsPAs.Sched
