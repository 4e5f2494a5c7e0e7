/-
Module: OsPAs.Sched.Requests
Purpose: The requests that a run reports.  A process that was told it is
  blocked waits for the resource, or was woken from its waitqueue and asks for
  it again as soon as it runs, and a free resource that is waited for has such
  a woken process.
Trusted boundary: none
Main exports: requests, lastRequest, WokenFrom, Told, Answered, Plain,
  Plain.carries, Plain.reached
-/
import OsPAs.Sched.Preference
import OsPAs.Sched.Timing

namespace OsPAs.Sched

open Lib

variable {n : Nat}

/-! ### The requests of a process -/

/-- What a line of output says about a request of `p`: whether it was granted,
and the resource asked for. -/
def Event.requestBy (p : Fin n) : Event n → Option (Bool × Nat)
  | .acquired q resourceId => if q = p then some (true, resourceId) else none
  | .blocked q resourceId => if q = p then some (false, resourceId) else none
  | _ => none

/-- The requests of `p` so far, in order. -/
def requests (s : Sim n) (p : Fin n) : List (Bool × Nat) :=
  s.stderr.filterMap fun line => line.2.requestBy p

/-- The last request of `p` so far. -/
def lastRequest (s : Sim n) (p : Fin n) : Option (Bool × Nat) :=
  (requests s p).getLast?

/-- Process `p` was woken from the waitqueue of `r` and has not asked again: the
last it was told is that it is blocked on `r`, and it is not waiting there. -/
def WokenFrom (s : Sim n) (r : Fin nrResources) (p : Fin n) : Prop :=
  lastRequest s p = some (false, r.val) ∧ p ∉ s.waitqueue r

instance (s : Sim n) (r : Fin nrResources) (p : Fin n) :
    Decidable (WokenFrom s r p) :=
  inferInstanceAs (Decidable (_ ∧ _))

section Log

variable {s s' : Sim n} {p c : Fin n}

theorem lastRequest_of_stderr (same : s'.stderr = s.stderr) (p : Fin n) :
    lastRequest s' p = lastRequest s p := by
  unfold lastRequest requests
  rw [same]

/-- Lines that are about no request of `p` do not change its last one. -/
theorem lastRequest_of_append {lines : List (Nat × Event n)}
    (appended : s'.stderr = s.stderr ++ lines)
    (silent : ∀ line ∈ lines, line.2.requestBy p = none) :
    lastRequest s' p = lastRequest s p := by
  have nothing : lines.filterMap (fun line => line.2.requestBy p) = [] :=
    List.filterMap_eq_nil_iff.mpr silent
  unfold lastRequest requests
  rw [appended, List.filterMap_append, nothing, List.append_nil]

theorem lastRequest_print_of_none {event : Event n}
    (silent : event.requestBy p = none) :
    lastRequest (s.print event) p = lastRequest s p := by
  have appended : (s.print event).stderr = s.stderr ++ [(s.ticks, event)] := rfl
  apply lastRequest_of_append appended
  intro line member
  rw [List.mem_singleton.mp member]
  exact silent

theorem lastRequest_print {event : Event n} {request : Bool × Nat}
    (about : event.requestBy p = some request) :
    lastRequest (s.print event) p = some request := by
  unfold lastRequest requests
  rw [Sim.print, List.filterMap_append]
  simp [about]

@[simp] theorem lastRequest_acquired (s : Sim n) (c p : Fin n)
    (resourceId : Nat) : lastRequest (s.print (.acquired c resourceId)) p =
      if p = c then some (true, resourceId) else lastRequest s p := by
  split
  · rename_i same
    exact lastRequest_print (by simp [Event.requestBy, same])
  · rename_i differ
    exact lastRequest_print_of_none (by
      simp [Event.requestBy, Ne.symm differ])

@[simp] theorem lastRequest_blocked (s : Sim n) (c p : Fin n)
    (resourceId : Nat) : lastRequest (s.print (.blocked c resourceId)) p =
      if p = c then some (false, resourceId) else lastRequest s p := by
  split
  · rename_i same
    exact lastRequest_print (by simp [Event.requestBy, same])
  · rename_i differ
    exact lastRequest_print_of_none (by
      simp [Event.requestBy, Ne.symm differ])

end Log

/-! ### The queues are where the log says -/

/-- Whoever waits was told so, and whoever was told so, other than the process
`run` that has the processor, asks for the resource next and is waiting for it
or ready. -/
structure Told (s : Sim n) (run : Option (Fin n)) : Prop where
  waiting : ∀ r p, p ∈ s.waitqueue r → lastRequest s p = some (false, r.val)
  refused : ∀ r p, run ≠ some p → lastRequest s p = some (false, r.val) →
    (s.procs p).firstDue = some r.val ∧
      (p ∈ s.waitqueue r ∨ p ∈ s.readyqueue)

/-- If the last request of `c` was refused, the first of the entries `todo` that
is due repeats it. -/
def AsksFirst (s : Sim n) (c : Fin n) (todo : List ResourceSchedule) : Prop :=
  ∀ r : Fin nrResources, lastRequest s c = some (false, r.val) →
    (todo.find? fun rs => rs.atAge = (s.procs c).age).map (·.resourceId) =
      some r.val

/-- A free resource that is waited for has a woken process, not ranked below
anybody waiting. -/
def Answered (rank : Fin n → Fin n → Prop) (s : Sim n) : Prop :=
  ∀ r, s.owner r = none → s.waitqueue r ≠ [] →
    ∃ w, WokenFrom s r w ∧ ∀ q ∈ s.waitqueue r, rank w q

section Moves

variable {s s' t t' : Sim n} {c p : Fin n} {r : Fin nrResources}
  {rs : ResourceSchedule} {rest stay : List ResourceSchedule}
  {rank : Fin n → Fin n → Prop}

theorem Requested.stderr {granted : Bool} (move : Requested s c r granted s') :
    s'.stderr = s.stderr := by
  cases move <;> rfl

theorem Released.stderr (move : Released s c r s') : s'.stderr = s.stderr := by
  cases move <;> rfl

theorem Requested.last_granted (move : Requested s c r true s') (p : Fin n) :
    lastRequest ((s'.hold c rs).print (.acquired c r.val)) p =
      if p = c then some (true, r.val) else lastRequest s p := by
  have same : lastRequest (s'.hold c rs) p = lastRequest s p :=
    lastRequest_of_stderr move.stderr p
  rw [lastRequest_acquired, same]

theorem Requested.last_refused (move : Requested s c r false s') (p : Fin n) :
    lastRequest (s'.print (.blocked c r.val)) p =
      if p = c then some (false, r.val) else lastRequest s p := by
  rw [lastRequest_blocked, lastRequest_of_stderr move.stderr]

theorem Released.last (move : Released s c r s') (p : Fin n)
    (resourceId : Nat) :
    lastRequest (s'.print (.released c resourceId)) p = lastRequest s p :=
  (lastRequest_print_of_none rfl).trans (lastRequest_of_stderr move.stderr p)

theorem Told.congr {run : Option (Fin n)} (told : Told s run)
    (last : ∀ p, lastRequest s' p = lastRequest s p)
    (waitqueue : s'.waitqueue = s.waitqueue)
    (readyqueue : s'.readyqueue = s.readyqueue)
    (due : ∀ p, run ≠ some p →
      (s'.procs p).firstDue = (s.procs p).firstDue) : Told s' run where
  waiting := fun r p waits => by
    rw [waitqueue] at waits
    rw [last]
    exact told.waiting r p waits
  refused := fun r p other wasRefused => by
    rw [last] at wasRefused
    rw [due p other, waitqueue, readyqueue]
    exact told.refused r p other wasRefused

theorem WokenFrom.congr (woken : WokenFrom s r p)
    (last : lastRequest s' p = lastRequest s p)
    (waitqueue : s'.waitqueue r = s.waitqueue r) : WokenFrom s' r p :=
  ⟨last.trans woken.1, fun waits => woken.2 (waitqueue ▸ waits)⟩

theorem Answered.congr (answered : Answered rank s)
    (owner : s'.owner = s.owner) (waitqueue : s'.waitqueue = s.waitqueue)
    (last : ∀ p, lastRequest s' p = lastRequest s p) : Answered rank s' := by
  intro r free waits
  rw [owner] at free
  rw [waitqueue] at waits ⊢
  obtain ⟨w, woken, ranks⟩ := answered r free waits
  exact ⟨w, woken.congr (last w) (by rw [waitqueue]), ranks⟩

/-- The first call of a tick repeats a request that was refused. -/
theorem AsksFirst.repeats (asks : AsksFirst t c (rs :: rest))
    (now : rs.atAge = (t.procs c).age)
    (wasRefused : lastRequest t c = some (false, r.val)) :
    rs.resourceId = r.val := by
  have first := asks r wasRefused
  rw [List.find?_cons_of_pos (by simpa using now)] at first
  exact Option.some.inj first

theorem AsksFirst.skip (asks : AsksFirst t c (rs :: rest))
    (later : rs.atAge ≠ (t.procs c).age) : AsksFirst t c rest := by
  intro r wasRefused
  have first := asks r wasRefused
  rwa [List.find?_cons_of_neg (by simpa using later)] at first

/-- Once all due entries were visited, no refusal is left open. -/
theorem AsksFirst.done (asks : AsksFirst t c []) (r : Fin nrResources) :
    lastRequest t c ≠ some (false, r.val) := by
  intro wasRefused
  have first := asks r wasRefused
  simp at first

/-- A process without an open refusal needs no exception. -/
theorem Told.closed (told : Told t (some c))
    (done : ∀ r : Fin nrResources, lastRequest t c ≠ some (false, r.val)) :
    Told t none where
  waiting := told.waiting
  refused := fun r p _ wasRefused =>
    told.refused r p
      (fun isC => done r (Option.some.inj isC ▸ wasRefused)) wasRefused

/-- `c` takes a free resource. -/
theorem Told.granted (told : Told t (some c)) (loose : t.detached c)
    (move : Requested t c r true t') :
    Told ((t'.hold c rs).print (.acquired c r.val)) (some c) := by
  obtain ⟨_, _, readyqueue, waitqueue⟩ := move.queues_granted
  constructor
  · intro i p waits
    change p ∈ t'.waitqueue i at waits
    rw [waitqueue] at waits
    have other : p ≠ c := fun same => loose.2.2 i (same ▸ waits)
    rw [move.last_granted, if_neg other]
    exact told.waiting i p waits
  · intro i p isOther wasRefused
    have other : p ≠ c := fun same => isOther (congrArg some same.symm)
    rw [move.last_granted, if_neg other] at wasRefused
    obtain ⟨k, eq⟩ := move.procs_granted p
    rw [Sim.print_procs, hold_procs, eq, Sim.print_waitqueue,
      Sim.print_readyqueue]
    change _ ∧ (p ∈ t'.waitqueue i ∨ p ∈ t'.readyqueue)
    rw [waitqueue, readyqueue]
    exact told.refused i p isOther wasRefused

theorem Answered.granted (answered : Answered rank t)
    (asks : AsksFirst t c (rs :: rest)) (now : rs.atAge = (t.procs c).age)
    (isR : rs.resourceId = r.val) (move : Requested t c r true t') :
    Answered rank ((t'.hold c rs).print (.acquired c r.val)) := by
  obtain ⟨_, _, _, waitqueue⟩ := move.queues_granted
  intro i free waits
  change t'.owner i = none at free
  rw [move.owner_granted] at free
  have differ : i ≠ r := by
    rintro rfl
    simp at free
  have wasFree : t.owner i = none := by
    rwa [Function.update_of_ne differ] at free
  change t'.waitqueue i ≠ [] at waits
  rw [waitqueue] at waits
  obtain ⟨w, woken, ranks⟩ := answered i wasFree waits
  have other : w ≠ c := by
    rintro rfl
    exact differ (Fin.ext ((asks.repeats now woken.1).symm.trans isR))
  refine ⟨w, woken.congr ?_ (congrFun waitqueue i), fun q member => ?_⟩
  · rw [move.last_granted, if_neg other]
  · change q ∈ t'.waitqueue i at member
    rw [waitqueue] at member
    exact ranks q member

theorem AsksFirst.granted (c : Fin n) (todo : List ResourceSchedule)
    (resourceId : Nat) : AsksFirst (t.print (.acquired c resourceId)) c todo := by
  intro i wasRefused
  simp at wasRefused

/-- `c` is blocked on a resource that is taken. -/
theorem Told.blocked (told : Told t (some c)) (loose : t.detached c)
    (move : Requested t c r false t')
    (due : ((t'.setToAcquire c stay).procs c).firstDue = some r.val) :
    Told ((t'.print (.blocked c r.val)).setToAcquire c stay) none := by
  have last (p : Fin n) :
      lastRequest ((t'.print (.blocked c r.val)).setToAcquire c stay) p =
        if p = c then some (false, r.val) else lastRequest t p :=
    move.last_refused p
  have readyqueue := move.queues_refused.2.2
  constructor
  · intro i p waits
    rw [last]
    rcases move.mem_waitqueue_refused.mp waits with before | ⟨rfl, rfl⟩
    · have other : p ≠ c := by
        rintro rfl
        exact loose.2.2 i before
      rw [if_neg other]
      exact told.waiting i p before
    · rw [if_pos rfl]
  · intro i p _ wasRefused
    rw [last] at wasRefused
    by_cases isC : p = c
    · rw [if_pos isC] at wasRefused
      have same : i = r := by
        have eq := (Prod.mk.inj (Option.some.inj wasRefused)).2
        exact Fin.ext eq.symm
      subst isC same
      exact ⟨due, Or.inl (move.mem_waitqueue_refused.mpr (Or.inr ⟨rfl, rfl⟩))⟩
    · rw [if_neg isC] at wasRefused
      obtain ⟨asksAgain, place⟩ := told.refused i p
        (fun same => isC (Option.some.inj same).symm) wasRefused
      refine ⟨?_, place.imp (fun waits => ?_) fun isReady => ?_⟩
      · obtain ⟨k, eq⟩ := move.procs_refused p
        rw [setToAcquire_procs, Sim.print_procs, eq]
        simp only [if_neg isC]
        exact asksAgain
      · exact move.mem_waitqueue_refused.mpr (Or.inl waits)
      · change p ∈ t'.readyqueue
        rwa [readyqueue]

theorem Answered.blocked (answered : Answered rank t)
    (asks : AsksFirst t c (rs :: rest)) (now : rs.atAge = (t.procs c).age)
    (isR : rs.resourceId = r.val) (move : Requested t c r false t') :
    Answered rank (t'.print (.blocked c r.val)) := by
  have waitqueue (i : Fin nrResources) (differ : i ≠ r) :
      t'.waitqueue i = t.waitqueue i := by
    rw [move.waitqueue_refused, Function.update_of_ne differ]
  intro i free waits
  change t'.owner i = none at free
  rw [move.owner_refused] at free
  have differ : i ≠ r := fun same => move.taken (same ▸ free)
  change t'.waitqueue i ≠ [] at waits
  rw [waitqueue i differ] at waits
  obtain ⟨w, woken, ranks⟩ := answered i free waits
  have other : w ≠ c := by
    rintro rfl
    exact differ (Fin.ext ((asks.repeats now woken.1).symm.trans isR))
  refine ⟨w, woken.congr ?_ (waitqueue i differ), fun q member => ?_⟩
  · rw [move.last_refused, if_neg other]
  · change q ∈ t'.waitqueue i at member
    rw [waitqueue i differ] at member
    exact ranks q member

/-- A release wakes at most one waiter, who is ready from then on. -/
theorem Told.released (told : Told t none) (move : Released t c r t') :
    Told (t'.print (.released c r.val)) none := by
  have last (p : Fin n) := move.last p r.val
  obtain ⟨_, _, fewer, woken, readyqueue, _⟩ := move.queues
  -- whoever leaves a waitqueue is ready now
  have place {i : Fin nrResources} {p : Fin n} (waits : p ∈ t.waitqueue i) :
      p ∈ t'.waitqueue i ∨ p ∈ t'.readyqueue := by
    cases move with
    | quiet => exact Or.inl waits
    | @wake waiter prio owned isWaiting asleep =>
        change p ∈ Function.update t.waitqueue r ((t.waitqueue r).erase waiter) i
          ∨ p ∈ t.readyqueue ++ [waiter]
        by_cases same : i = r
        · subst same
          rw [Function.update_self]
          by_cases isWaiter : p = waiter
          · exact Or.inr (by simp [isWaiter])
          · exact Or.inl ((List.mem_erase_of_ne isWaiter).mpr waits)
        · rw [Function.update_of_ne same]
          exact Or.inl waits
  constructor
  · intro i p waits
    rw [last]
    exact told.waiting i p (fewer i waits)
  · intro i p other wasRefused
    rw [last] at wasRefused
    obtain ⟨due, waits | isReady⟩ := told.refused i p other wasRefused
    · refine ⟨?_, place waits⟩
      obtain ⟨k, status, eq, _⟩ := move.procs p
      rw [Sim.print_procs, eq]
      exact due
    · refine ⟨?_, Or.inr ?_⟩
      · obtain ⟨k, status, eq, _⟩ := move.procs p
        rw [Sim.print_procs, eq]
        exact due
      · change p ∈ t'.readyqueue
        rw [readyqueue]
        exact List.mem_append_left _ isReady

/-- The waiter that a release wakes answers for the resource. -/
theorem Answered.released {choose : Sim n → Fin n → List (Fin n) → Fin n}
    {resourceId : Nat} {run : Option (Fin n)} (answered : Answered rank t)
    (told : Told t none) (linked : Linked t run)
    (picks : ∀ first rest, choose t first (first :: rest) ∈ first :: rest ∧
      ∀ q ∈ first :: rest, rank (choose t first (first :: rest)) q)
    (ownerBlind : ∀ r first rest, choose (t.setOwner r none) first rest =
      choose t first rest)
    (move : Released t c r t')
    (released : releaseWith (fun _ s => s) choose c resourceId t = .ok t')
    (event : Nat) : Answered rank (t'.print (.released c event)) := by
  obtain ⟨r, _, owner, queues⟩ := releaseWith_waiter released
  have last (p : Fin n) := move.last p event
  intro i free waits
  change t'.owner i = none at free
  change t'.waitqueue i ≠ [] at waits
  by_cases same : i = r
  · subst same
    rcases queues with
      ⟨nobody, waitqueue, _⟩ | ⟨first, rest, queueEq, waitqueue, _⟩
    · rw [waitqueue] at waits
      exact absurd nobody waits
    · rw [ownerBlind] at waitqueue
      obtain ⟨isWaiting, ranks⟩ := picks first rest
      have nodup := linked.nodup_waitqueue i
      rw [queueEq] at nodup
      have left : t'.waitqueue i =
          (first :: rest).erase (choose t first (first :: rest)) := by
        rw [waitqueue, Function.update_self]
      refine ⟨choose t first (first :: rest), ⟨?_, ?_⟩, fun q member => ?_⟩
      · rw [last]
        apply told.waiting
        rw [queueEq]
        exact isWaiting
      · change _ ∉ t'.waitqueue i
        rw [left]
        exact nodup.not_mem_erase
      · change q ∈ t'.waitqueue i at member
        rw [left] at member
        exact ranks q (List.mem_of_mem_erase member)
  · have waitqueue : t'.waitqueue i = t.waitqueue i := by
      rcases queues with ⟨_, waitqueue, _⟩ | ⟨_, _, _, waitqueue, _⟩
      · rw [waitqueue]
      · rw [waitqueue, Function.update_of_ne same]
    rw [owner, Function.update_of_ne same] at free
    rw [waitqueue] at waits
    obtain ⟨w, woken, ranks⟩ := answered i free waits
    refine ⟨w, woken.congr (last w) waitqueue, fun q member => ?_⟩
    change q ∈ t'.waitqueue i at member
    rw [waitqueue] at member
    exact ranks q member

end Moves

/-! ### One pass -/

/-- A scheduler without priority bookkeeping, whose release wakes the waiter
that `choose` picks. -/
structure Plain (choose : Sim n → Fin n → List (Fin n) → Fin n)
    (sched : Scheduler n) : Prop where
  schedule : ∀ s next s', sched.schedule s = .ok (next, s') →
    ∀ p, (s'.procs p).prio = (s.procs p).prio
  acquire : sched.acquire = prioAcquire
  release : sched.release = releaseWith (fun _ s => s) choose

/-- With the given priorities, the waiter that `choose` picks is not ranked
below any other. -/
structure Picks (choose : Sim n → Fin n → List (Fin n) → Fin n)
    (prio : Fin n → Nat) (rank : Fin n → Fin n → Prop) : Prop where
  mem : ∀ s first rest, choose s first (first :: rest) ∈ first :: rest
  ranks : ∀ s first rest, (∀ p, (s.procs p).prio = prio p) →
    ∀ q ∈ first :: rest, rank (choose s first (first :: rest)) q
  ownerBlind : ∀ s r first queue,
    choose (s.setOwner r none) first queue = choose s first queue

/-- Log, queues and owners agree, with the given priorities. -/
structure Orderly (rank : Fin n → Fin n → Prop) (prio : Fin n → Nat)
    (s : Sim n) (run : Option (Fin n)) : Prop where
  told : Told s run
  answered : Answered rank s
  prio : ∀ p, (s.procs p).prio = prio p

/-- While process `c`, running from state `s`, has the entries `todo` still to
visit. -/
structure Requesting (rank : Fin n → Fin n → Prop) (prio : Fin n → Nat)
    (s : Sim n) (c : Fin n) (todo : List ResourceSchedule) (t : Sim n) :
    Prop where
  orderly : Orderly rank prio t (some c)
  asks : AsksFirst t c todo
  readyqueue : t.readyqueue = s.readyqueue

section Pass

variable {choose : Sim n → Fin n → List (Fin n) → Fin n}
  {sched : Scheduler n} {prio : Fin n → Nat} {rank : Fin n → Fin n → Prop}
  {all : Fin n → List ResourceSchedule} {s s' mid : Sim n} {c : Fin n}

/-- Nobody leaves the ready queue in the first half of a pass but the chosen
process. -/
theorem Sound.ready_dispatched {live : Prop} {guard : Sim n → Prop}
    (contract : Contract live guard sched) (sound : Sound s)
    (guarded : guard (forkOnSchedule s))
    (dispatchedEq : OsPAs.Sched.dispatch sched s = .ok mid) {p : Fin n}
    (isReady : p ∈ s.readyqueue) :
    p ∈ mid.readyqueue ∨ mid.current = some p := by
  obtain ⟨next, chosen, _, choice, _, retired⟩ :=
    sound.dispatched_cases contract guarded dispatchedEq
  have stillReady : p ∈ (forkOnSchedule s).readyqueue := by
    rw [sound.forked.readyqueue]
    exact List.mem_append_left _ isReady
  rw [retired.readyqueue, retired.current]
  change p ∈ chosen.readyqueue ∨ next = some p
  cases choice with
  | keep => exact Or.inl stillReady
  | idle => exact Or.inl stillReady
  | @pick other =>
      by_cases same : p = other
      · exact Or.inr (congrArg some same.symm)
      · exact Or.inl ((List.mem_erase_of_ne same).mpr stillReady)
  | @preempt _ other =>
      by_cases same : p = other
      · exact Or.inr (congrArg some same.symm)
      · exact Or.inl ((List.mem_erase_of_ne same).mpr
          (List.mem_append_left _ stillReady))

theorem SameEntries.firstDue {before after : Process}
    (same : SameEntries before after) : after.firstDue = before.firstDue := by
  unfold Process.firstDue
  rw [same.age, same.wants]

/-- The first half of a pass reports no request. -/
theorem Sound.dispatch_last {live : Prop} {guard : Sim n → Prop}
    (contract : Contract live guard sched) (sound : Sound s)
    (guarded : guard (forkOnSchedule s))
    (dispatchedEq : OsPAs.Sched.dispatch sched s = .ok mid) (p : Fin n) :
    lastRequest mid p = lastRequest s p := by
  obtain ⟨lines, appended, quiet⟩ :=
    sound.dispatch_stderr contract guarded dispatchedEq
  apply lastRequest_of_append appended
  intro line member
  obtain ⟨q, isFork | isExit⟩ := quiet line member
  · rw [isFork]
    rfl
  · rw [isExit]
    rfl

/-- The first half of a pass. -/
theorem Plain.dispatched {guard : Sim n → Prop} (plain : Plain choose sched)
    (contract : Contract True guard sched) (orderly : Orderly rank prio s none)
    (sound : Sound s) (guarded : guard (forkOnSchedule s))
    (dispatchedEq : dispatch sched s = .ok mid)
    (dispatching : Dispatching s mid) :
    Orderly rank prio mid mid.current ∧
      ∀ c, AsksFirst mid c (mid.procs c).resourcesToAcquire := by
  have last := sound.dispatch_last contract guarded dispatchedEq
  have due (p : Fin n) :
      (mid.procs p).firstDue = (s.procs p).firstDue :=
    (dispatching.entries p).firstDue
  refine ⟨⟨⟨fun r p waits => ?_, fun r p other wasRefused => ?_⟩, ?_, ?_⟩,
    fun c r wasRefused => ?_⟩
  · rw [last]
    rw [dispatching.waitqueue] at waits
    exact orderly.told.waiting r p waits
  · rw [last] at wasRefused
    obtain ⟨asks, place⟩ := orderly.told.refused r p (by simp) wasRefused
    rw [due, dispatching.waitqueue]
    exact ⟨asks, place.imp id fun isReady =>
      (sound.ready_dispatched contract guarded dispatchedEq isReady).resolve_right
        other⟩
  · exact orderly.answered.congr dispatching.owner dispatching.waitqueue last
  · intro p
    obtain ⟨next, chosen, scheduledEq, _, _, retired⟩ :=
      sound.dispatched_cases contract guarded dispatchedEq
    obtain ⟨status, eq⟩ := retired.procs p
    rw [eq]
    change (chosen.procs p).prio = prio p
    rw [plain.schedule _ _ _ scheduledEq, sound.forked.procs]
    exact orderly.prio p
  · rw [last] at wasRefused
    have asks := (orderly.told.refused r c (by simp) wasRefused).1
    rw [← due] at asks
    exact asks

/-- Statuses, entries held and the clock are not what the log is about. -/
theorem Orderly.congr {run : Option (Fin n)} (orderly : Orderly rank prio s run)
    (same : SamePriorities s s') (readyqueue : s'.readyqueue = s.readyqueue)
    (last : ∀ p, lastRequest s' p = lastRequest s p)
    (due : ∀ p, run ≠ some p →
      (s'.procs p).firstDue = (s.procs p).firstDue) :
    Orderly rank prio s' run where
  told := orderly.told.congr last same.waitqueue readyqueue due
  answered := orderly.answered.congr same.owner same.waitqueue last
  prio := fun p => by rw [same.prio, orderly.prio]

theorem Requesting.start (orderly : Orderly rank prio mid (some c))
    (asks : AsksFirst mid c (mid.procs c).resourcesToAcquire) :
    Requesting rank prio mid c (mid.procs c).resourcesToAcquire
      (mid.setStatus c .running) where
  orderly := orderly.congr (Steady.setStatus mid c .running).priorities rfl (fun _ => rfl)
    fun p _ => by
      rw [setStatus_procs]
      rfl
  asks := by
    intro r wasRefused
    rw [setStatus_procs]
    exact asks r wasRefused
  readyqueue := rfl

/-- What is carried through a tick of the chosen process. -/
theorem Plain.carries (plain : Plain choose sched)
    (picks : Picks choose prio rank) (prepared : Prepared all mid)
    (fitting : Fitting all mid) (isCurrent : mid.current = some c)
    (orderly : Orderly rank prio mid (some c))
    (asks : AsksFirst mid c (mid.procs c).resourcesToAcquire) :
    Carries sched True mid c
      (fun kept todo t =>
        Asking all mid c kept todo t ∧ Requesting rank prio mid c todo t)
      (fun stay t => TurnedDown all c stay t ∧
        Orderly rank prio (t.setToAcquire c stay) none)
      (fun kept todo t =>
        Releasing all mid c kept todo t ∧ Orderly rank prio t none) := by
  apply (prepared.carries sched fitting isCurrent).alongside
  · exact Requesting.start orderly asks
  · intro kept rs rest t _ _ requesting later
    exact ⟨requesting.orderly, requesting.asks.skip later,
      requesting.readyqueue⟩
  · intro kept rs rest t inside t' busy _ requesting now _ acquired move
    rw [plain.acquire] at acquired
    obtain ⟨told, answered, prioEq⟩ := requesting.orderly
    refine ⟨⟨told.granted busy.detached move,
      answered.granted requesting.asks now rfl move, fun p => ?_⟩,
      AsksFirst.granted c rest rs.resourceId, ?_⟩
    · exact ((Steady.hold t' c rs).prio p).trans
        ((prioAcquire_prio acquired p).trans (prioEq p))
    · exact move.queues_granted.2.2.1.trans requesting.readyqueue
  · intro kept rs rest t inside t' busy asking requesting now _ acquired move
    rw [plain.acquire] at acquired
    obtain ⟨told, answered, prioEq⟩ := requesting.orderly
    have due : ((t'.setToAcquire c (kept ++ rs :: rest)).procs c).firstDue =
        some rs.resourceId := by
      obtain ⟨k, eq⟩ := move.procs_refused c
      rw [setToAcquire_procs, eq]
      exact firstDue_of_due (if_pos rfl) asking.2.2.1 now
    have answered' := answered.blocked requesting.asks now rfl move
    refine ⟨told.blocked busy.detached move due,
      answered'.congr rfl rfl fun _ => rfl, fun p => ?_⟩
    exact ((Steady.setToAcquire _ c _).prio p).trans
      ((prioAcquire_prio acquired p).trans (prioEq p))
  · intro stay t _ _ requesting _
    have same := (((Steady.setToAcquire t c stay).trans
      (.print _ (.ran c))).trans (.growOlder _ c)).priorities
    have last (p : Fin n) :
        lastRequest (growOlder c ((t.setToAcquire c stay).print (.ran c))) p =
          lastRequest t p :=
      lastRequest_print_of_none (s := t.setToAcquire c stay) rfl
    have grown := requesting.orderly.congr same rfl last fun p other => by
      have differ : p ≠ c := fun isC => other (congrArg some isC.symm)
      rw [growOlder_procs, Sim.print_procs, setToAcquire_procs]
      simp only [if_neg differ]
    refine ⟨grown.told.closed fun r => ?_, grown.answered, grown.prio⟩
    rw [last]
    exact requesting.asks.done r
  · intro kept rs rest t _ _ orderly _
    exact orderly
  · intro kept rs rest t inside t' busy _ orderly _ released move _
    rw [plain.release] at released
    obtain ⟨told, answered, prioEq⟩ := orderly
    refine ⟨told.released move, answered.released told busy.linked
      (fun first rest => ⟨picks.mem t first rest,
        picks.ranks t first rest prioEq⟩)
      (fun r => picks.ownerBlind t r) move released rs.resourceId, fun p => ?_⟩
    exact (releaseWith_prio released p).trans (prioEq p)

/-- The second half of a pass. -/
theorem Plain.executed {guard : Sim n → Prop} (plain : Plain choose sched)
    (contract : Contract True guard sched) (picks : Picks choose prio rank)
    (prepared : Prepared all mid) (fitting : Fitting all mid)
    (orderly : Orderly rank prio mid mid.current)
    (asks : ∀ c, AsksFirst mid c (mid.procs c).resourcesToAcquire)
    (executedEq : execute sched mid = .ok s') : Orderly rank prio s' none := by
  cases isCurrent : mid.current with
  | none =>
      obtain rfl := Except.ok.inj
        ((execute_of_idle sched isCurrent).symm.trans executedEq)
      rw [isCurrent] at orderly
      have last (p : Fin n) : lastRequest (nextTick (mid.print .idle)) p =
          lastRequest mid p := lastRequest_print_of_none (s := mid) rfl
      exact orderly.congr ((Steady.print mid .idle).trans (.nextTick _)).priorities
        rfl last fun _ _ => rfl
  | some c =>
      rw [isCurrent] at orderly
      obtain ⟨stay, t, ⟨rfl, _, _, ended⟩ | ⟨rfl, _, _, ended⟩⟩ :=
        (plain.carries picks prepared fitting isCurrent orderly
          (asks c)).executed contract prepared.dispatched isCurrent executedEq
      · exact ended.congr (Steady.nextTick _).priorities rfl (fun _ => rfl) fun _ _ => rfl
      · apply ended.congr ((Steady.setHolding t c stay).trans
          (.nextTick _)).priorities rfl (fun _ => rfl)
        intro p _
        change ((t.setHolding c stay).procs p).firstDue = _
        rw [setHolding_procs]
        rfl

end Pass

/-! ### Whole runs -/

section Reached

variable {script : List ProcessBlock}
  {choose : Sim script.length → Fin script.length → List (Fin script.length) →
    Fin script.length}
  {guard : Sim script.length → Prop} {sched : Scheduler script.length}
  {rank : Fin script.length → Fin script.length → Prop} {k : Nat}
  {s mid : Sim script.length}

theorem load_orderly :
    Orderly rank (priorityOf script) (load script) none where
  told := ⟨fun r p waits => by simp [load] at waits,
    fun r p _ wasRefused => by
      simp [lastRequest, requests, load] at wasRefused⟩
  answered := fun r _ waits => absurd rfl waits
  prio := fun p => rfl

/-- Between two ticks log, queues and owners agree. -/
theorem Plain.reached (plain : Plain choose sched)
    (serves : Serves script guard sched)
    (picks : Picks choose (priorityOf script) rank)
    (reached : doSimulation script sched k = .ok (.again s)) :
    Orderly rank (priorityOf script) s none := by
  apply serves.invariant
    (fun _ s => Orderly rank (priorityOf script) s none) load_orderly _ reached
  intro k s mid s' reached orderly pass _ executedEq _
  obtain ⟨orderlyMid, asks⟩ := plain.dispatched serves.contract orderly
    (serves.settled reached).1.sound (serves.guard_of_reached reached)
    pass.dispatchedEq pass.dispatching
  exact plain.executed serves.contract picks pass.prepared pass.fitting
    orderlyMid asks executedEq

end Reached

end OsPAs.Sched
