/-
Module: OsPAs.Vm.TlbShape
Purpose: The array behind the TLB.  In every run with `-t` its valid entries are
  a prefix of it with an invalid entry behind them, and a process switch leaves
  none of them.
Trusted boundary: none
Main exports: Contiguous, Intact, insertTlb_ok, removeTlb_ok, flushTlb_ok,
  reached_intact, tlb_contiguous
-/
import OsPAs.Vm.TlbCalls

namespace OsPAs.Vm

open Lib

variable {env : Env} {tlb tlb' : List TlbEntry} {vpn rw pfn : Nat}

/-! ### The shape -/

/-- No valid entry lies behind an invalid one. -/
def Contiguous (tlb : List TlbEntry) : Prop :=
  tlb.Pairwise fun front behind => behind.valid = true → front.valid = true

instance (tlb : List TlbEntry) : Decidable (Contiguous tlb) :=
  inferInstanceAs (Decidable (tlb.Pairwise _))

theorem contiguous_cons_valid {entry : TlbEntry} {rest : List TlbEntry}
    (isValid : entry.valid = true) :
    Contiguous (entry :: rest) ↔ Contiguous rest := by
  unfold Contiguous
  rw [List.pairwise_cons]
  exact ⟨fun both => both.2, fun behind => ⟨fun _ _ _ => isValid, behind⟩⟩

theorem contiguous_cons_invalid {entry : TlbEntry} {rest : List TlbEntry}
    (invalid : ¬ entry.valid = true) :
    Contiguous (entry :: rest) ↔ ∀ other ∈ rest, ¬ other.valid = true := by
  unfold Contiguous
  rw [List.pairwise_cons]
  constructor
  · exact fun both other member isValid => invalid (both.1 other member isValid)
  · intro none
    refine ⟨fun other member isValid => absurd isValid (none other member), ?_⟩
    exact List.pairwise_of_forall_mem_list fun _ _ behind member isValid =>
      absurd isValid (none behind member)

theorem contiguous_of_none (none : ∀ entry ∈ tlb, ¬ entry.valid = true) :
    Contiguous tlb :=
  List.pairwise_of_forall_mem_list fun _ _ behind member isValid =>
    absurd isValid (none behind member)

/-- The valid entries are those that the loops see. -/
theorem Contiguous.filter_valid (contiguous : Contiguous tlb) :
    tlb.filter (·.valid) = cached tlb := by
  induction tlb with
  | nil => rfl
  | cons entry rest inductionHypothesis =>
      by_cases isValid : entry.valid = true
      · rw [cached_cons_valid isValid, List.filter_cons_of_pos isValid,
          inductionHypothesis ((contiguous_cons_valid isValid).mp contiguous)]
      · have none := (contiguous_cons_invalid isValid).mp contiguous
        rw [cached_cons_invalid isValid, List.filter_cons_of_neg isValid]
        exact List.filter_eq_nil_iff.mpr none

/-- The array of a run: its valid entries are a prefix, and an invalid entry
stands behind them. -/
structure Intact (tlb : List TlbEntry) : Prop where
  contiguous : Contiguous tlb
  length : tlb.length = nrTlbEntries
  room : (cached tlb).length < nrTlbEntries

theorem Intact.space (intact : Intact tlb) :
    (cached tlb).length < tlb.length := by
  rw [intact.length]
  exact intact.room

/-! ### Insertion -/

/-- Without room for the entry and for the invalid one behind it, insertion
writes behind the array. -/
theorem insertTlb_full (space : (cached tlb).length < tlb.length)
    (full : tlb.length ≤ (insertEntry vpn rw pfn (cached tlb)).length) :
    insertTlb vpn rw pfn tlb = .error .outOfRange := by
  induction tlb with
  | nil => rfl
  | cons entry rest inductionHypothesis =>
      unfold insertTlb
      by_cases isValid : entry.valid = true
      · rw [cached_cons_valid isValid] at space full
        rw [insertEntry] at full
        rw [if_pos isValid]
        simp only [List.length_cons] at space
        by_cases same : entry.vpn = vpn ∧ entry.rw = rw
        · rw [if_pos same, List.length_cons, List.length_cons] at full
          omega
        · rw [if_neg same, List.length_cons, List.length_cons] at full
          rw [if_neg same, inductionHypothesis (Nat.lt_of_succ_lt_succ space)
            (Nat.le_of_succ_le_succ full)]
          rfl
      · rw [cached_cons_invalid isValid, insertEntry] at full
        rw [if_neg isValid]
        cases rest with
        | nil => rfl
        | cons next rest =>
            simp only [List.length_cons, List.length_nil] at full
            omega

/-- An insertion that succeeds adds the entry to the valid ones and leaves an
invalid one behind them. -/
theorem insertTlb_ok (space : (cached tlb).length < tlb.length)
    (ran : insertTlb vpn rw pfn tlb = .ok tlb') :
    tlb'.length = tlb.length ∧
      cached tlb' = insertEntry vpn rw pfn (cached tlb) ∧
      (cached tlb').length < tlb'.length := by
  rcases Nat.lt_or_ge (insertEntry vpn rw pfn (cached tlb)).length tlb.length with
    room | full
  · obtain ⟨tlb'', ran', sameLength, entries⟩ := insertTlb_cached room
    rw [ran] at ran'
    obtain rfl := Except.ok.inj ran'
    exact ⟨sameLength, entries, by rw [entries, sameLength]; exact room⟩
  · rw [insertTlb_full space full] at ran
    simp at ran

theorem insertTlb_contiguous (contiguous : Contiguous tlb)
    (ran : insertTlb vpn rw pfn tlb = .ok tlb') : Contiguous tlb' := by
  induction tlb generalizing tlb' with
  | nil => simp [insertTlb] at ran
  | cons entry rest inductionHypothesis =>
      unfold insertTlb at ran
      by_cases isValid : entry.valid = true
      · rw [if_pos isValid] at ran
        rw [contiguous_cons_valid isValid] at contiguous
        by_cases same : entry.vpn = vpn ∧ entry.rw = rw
        · rw [if_pos same] at ran
          obtain rfl := Except.ok.inj ran
          refine (contiguous_cons_valid ?_).mpr contiguous
          exact isValid
        · rw [if_neg same] at ran
          cases later : insertTlb vpn rw pfn rest with
          | error fault => simp [later, bind, Except.bind] at ran
          | ok rest' =>
              rw [later] at ran
              obtain rfl := Except.ok.inj ran
              exact (contiguous_cons_valid isValid).mpr
                (inductionHypothesis contiguous later)
      · rw [if_neg isValid] at ran
        have none := (contiguous_cons_invalid isValid).mp contiguous
        cases rest with
        | nil => simp at ran
        | cons next rest =>
            obtain rfl := Except.ok.inj ran
            rw [contiguous_cons_valid rfl, contiguous_cons_invalid (by simp)]
            exact fun other member => none other (List.mem_cons_of_mem _ member)

/-! ### Removal -/

theorem shiftTlb_contiguous {hole : TlbEntry} (contiguous : Contiguous tlb)
    (ran : shiftTlb hole tlb = .ok tlb') : Contiguous tlb' := by
  induction tlb generalizing hole tlb' with
  | nil => simp [shiftTlb] at ran
  | cons entry rest inductionHypothesis =>
      unfold shiftTlb at ran
      by_cases isValid : entry.valid = true
      · rw [if_pos isValid] at ran
        cases later : shiftTlb entry rest with
        | error fault => simp [later, bind, Except.bind] at ran
        | ok rest' =>
            rw [later] at ran
            obtain rfl := Except.ok.inj ran
            exact (contiguous_cons_valid isValid).mpr (inductionHypothesis
              ((contiguous_cons_valid isValid).mp contiguous) later)
      · rw [if_neg isValid] at ran
        obtain rfl := Except.ok.inj ran
        refine (contiguous_cons_invalid (by simp)).mpr fun other member => ?_
        rcases List.mem_cons.mp member with rfl | behind
        · exact isValid
        · exact (contiguous_cons_invalid isValid).mp contiguous other behind

theorem removeTlb_contiguous (contiguous : Contiguous tlb)
    (ran : removeTlb vpn tlb = .ok tlb') : Contiguous tlb' := by
  cases tlb with
  | nil => simp [removeTlb] at ran
  | cons entry rest =>
      rw [removeTlb] at ran
      by_cases isValid : entry.valid = true
      · rw [if_pos isValid] at ran
        by_cases isPage : entry.vpn = vpn
        · rw [if_pos isPage] at ran
          exact shiftTlb_contiguous
            ((contiguous_cons_valid isValid).mp contiguous) ran
        · rw [if_neg isPage] at ran
          simp at ran
      · rw [if_neg isValid] at ran
        obtain rfl := Except.ok.inj ran
        exact contiguous

/-- The search of `free_page` does not get past a first entry for another
page. -/
theorem removeTlb_endless {entry : TlbEntry} {rest : List TlbEntry}
    (entries : cached tlb = entry :: rest) (other : entry.vpn ≠ vpn) :
    removeTlb vpn tlb = .error .endless := by
  cases tlb with
  | nil => simp [cached] at entries
  | cons first slots =>
      by_cases isValid : first.valid = true
      · rw [cached_cons_valid isValid] at entries
        obtain ⟨rfl, _⟩ := List.cons.inj entries
        rw [removeTlb, if_pos isValid, if_neg other]
      · rw [cached_cons_invalid isValid] at entries
        simp at entries

/-- A removal that ends finds no valid entry, or the first one for the page,
which it drops. -/
theorem removeTlb_ok (space : (cached tlb).length < tlb.length)
    (ran : removeTlb vpn tlb = .ok tlb') :
    tlb'.length = tlb.length ∧ cached tlb' = (cached tlb).tail ∧
      ∀ entry ∈ (cached tlb).head?, entry.vpn = vpn := by
  cases entries : cached tlb with
  | nil =>
      rw [removeTlb_empty entries space] at ran
      obtain rfl := Except.ok.inj ran
      exact ⟨rfl, entries, by simp⟩
  | cons first rest =>
      by_cases isPage : first.vpn = vpn
      · obtain ⟨tlb'', ran', sameLength, remaining⟩ :=
          removeTlb_first entries isPage space
        rw [ran] at ran'
        obtain rfl := Except.ok.inj ran'
        exact ⟨sameLength, remaining, by simpa using isPage⟩
      · rw [removeTlb_endless entries isPage] at ran
        simp at ran

/-! ### The flush -/

/-- The flush leaves no valid entry. -/
theorem flushTlb_ok (contiguous : Contiguous tlb)
    (ran : flushTlb tlb = .ok tlb') :
    tlb'.length = tlb.length ∧ ∀ entry ∈ tlb', ¬ entry.valid = true := by
  induction tlb generalizing tlb' with
  | nil => simp [flushTlb] at ran
  | cons entry rest inductionHypothesis =>
      rw [flushTlb] at ran
      by_cases isValid : entry.valid = true
      · rw [if_pos isValid] at ran
        cases later : flushTlb rest with
        | error fault => simp [later, bind, Except.bind] at ran
        | ok rest' =>
            rw [later] at ran
            obtain rfl := Except.ok.inj ran
            obtain ⟨sameLength, none⟩ := inductionHypothesis
              ((contiguous_cons_valid isValid).mp contiguous) later
            refine ⟨congrArg (· + 1) sameLength, fun other member => ?_⟩
            rcases List.mem_cons.mp member with rfl | behind
            · simp
            · exact none other behind
      · rw [if_neg isValid] at ran
        obtain rfl := Except.ok.inj ran
        refine ⟨rfl, fun other member => ?_⟩
        rcases List.mem_cons.mp member with rfl | behind
        · exact isValid
        · exact (contiguous_cons_invalid isValid).mp contiguous other behind

theorem cached_of_none (none : ∀ entry ∈ tlb, ¬ entry.valid = true) :
    cached tlb = [] := by
  rw [← (contiguous_of_none none).filter_valid]
  exact List.filter_eq_nil_iff.mpr none

/-! ### Runs -/

theorem Intact.insert (intact : Intact tlb) (vpn rw pfn : Nat) :
    Ensures Intact (insertTlb vpn rw pfn tlb) := by
  intro tlb' ran
  obtain ⟨sameLength, _, space⟩ := insertTlb_ok intact.space ran
  have length := sameLength.trans intact.length
  exact ⟨insertTlb_contiguous intact.contiguous ran, length, length ▸ space⟩

theorem Intact.remove (intact : Intact tlb) (vpn : Nat) :
    Ensures Intact (removeTlb vpn tlb) := by
  intro tlb' ran
  obtain ⟨sameLength, entries, _⟩ := removeTlb_ok intact.space ran
  refine ⟨removeTlb_contiguous intact.contiguous ran,
    sameLength.trans intact.length, ?_⟩
  have room := intact.room
  rw [entries, List.length_tail]
  omega

theorem Intact.flush (intact : Intact tlb) : Ensures Intact (flushTlb tlb) := by
  intro tlb' ran
  obtain ⟨sameLength, none⟩ := flushTlb_ok intact.contiguous ran
  refine ⟨contiguous_of_none none, sameLength.trans intact.length, ?_⟩
  rw [cached_of_none none]
  decide

theorem intact_call (call : TlbCall) (tlb : List TlbEntry)
    (intact : Intact tlb) : Ensures Intact (call.run tlb) := by
  cases call with
  | lookup vpn rw =>
      exact (ensures_self (lookupTlb vpn rw tlb)).bind fun _ _ =>
        ensures_ok intact
  | insert vpn rw pfn => exact intact.insert vpn rw pfn
  | remove vpn => exact intact.remove vpn
  | flush => exact intact.flush

theorem freePage_ensures {P : List TlbEntry → Prop} (s : System) (vpn : Nat)
    (removed : Ensures P (removeTlb vpn s.tlb)) :
    Ensures (fun s' => P s'.tlb) (freePage vpn s) :=
  (ensures_self _).bind fun _ _ => removed.bind fun _ holds => ensures_ok holds

theorem switchProcess_ensures {P : List TlbEntry → Prop} (env : Env)
    (s : System) (pid : Nat) (flushed : Ensures P (flushTlb s.tlb)) :
    Ensures (fun s' => P s'.tlb) (switchProcess env pid s) :=
  (ensures_self _).bind fun _ _ => flushed.bind fun _ holds => ensures_ok holds

theorem intact_init : Intact init.tlb where
  contiguous := contiguous_of_none fun entry member => by
    rw [List.eq_of_mem_replicate member]
    simp [zeroTlbEntry]
  length := List.length_replicate
  room := by
    change (cached (List.replicate nrTlbEntries zeroTlbEntry)).length < _
    rw [cached_replicate]
    decide

theorem reached_intact {workload : List Command} {s : System}
    (reached : Reaches (execute true env) workload init s) : Intact s.tlb :=
  reaches_invariant (fun s => Intact s.tlb)
    (fun c _ _ _ intact _ ran => execute_keeps intact_call env c intact _ ran)
    intact_init (along_true (execute true env) workload init) reached

/-- In every run with `-t` the valid entries are a prefix of the array, and
insertion, a removal that ends, and a process switch keep them one.  After a
switch nothing is valid, so no lookup answers with an entry from before it. -/
theorem tlb_contiguous (env : Env) (workload : List Command) (s : System)
    (reached : Reaches (execute true env) workload init s) :
    Contiguous s.tlb ∧
      (∀ (tlb tlb' : List TlbEntry) (vpn rw pfn : Nat), Contiguous tlb →
        insertTlb vpn rw pfn tlb = .ok tlb' → Contiguous tlb') ∧
      (∀ (s s' : System) (vpn : Nat), Contiguous s.tlb →
        freePage vpn s = .ok s' → Contiguous s'.tlb) ∧
      ∀ (s' : System) (pid : Nat), switchProcess env pid s = .ok s' →
        Contiguous s'.tlb ∧ (∀ entry ∈ s'.tlb, ¬ entry.valid = true) ∧
          ∀ vpn rw, lookupTlb vpn rw s'.tlb = .ok none := by
  have intact := reached_intact reached
  refine ⟨intact.contiguous, fun tlb tlb' vpn rw pfn => insertTlb_contiguous,
    fun s s' vpn contiguous ran => ?_, fun s' pid ran => ?_⟩
  · exact freePage_ensures s vpn
      (fun _ removed => removeTlb_contiguous contiguous removed) s' ran
  · have kept := switchProcess_ensures env s pid intact.flush s' ran
    have none := switchProcess_ensures env s pid
      (fun _ flushed => (flushTlb_ok intact.contiguous flushed).2) s' ran
    refine ⟨kept.contiguous, none, fun vpn rw => ?_⟩
    rw [lookupTlb_eq kept.space, cached_of_none none]
    rfl

/-- Two pages are read, and the first of them is freed. -/
def readAndFree : List Command :=
  [.alloc 0 ['r', 'w'], .alloc 1 ['r'], .read 0, .read 1, .free 0]

theorem tlb_contiguous_readAndFree :
    ∃ s, Reaches (execute true zeroEnv) readAndFree init s ∧
      (cached s.tlb).length = 1 ∧ Contiguous s.tlb ∧
      (∀ (tlb tlb' : List TlbEntry) (vpn rw pfn : Nat), Contiguous tlb →
        insertTlb vpn rw pfn tlb = .ok tlb' → Contiguous tlb') ∧
      (∀ (s s' : System) (vpn : Nat), Contiguous s.tlb →
        freePage vpn s = .ok s' → Contiguous s'.tlb) ∧
      ∀ (s' : System) (pid : Nat), switchProcess zeroEnv pid s = .ok s' →
        Contiguous s'.tlb ∧ (∀ entry ∈ s'.tlb, ¬ entry.valid = true) ∧
          ∀ vpn rw, lookupTlb vpn rw s'.tlb = .ok none := by
  obtain ⟨s, reached, one⟩ := exists_of_endsWith (execute true zeroEnv)
    readAndFree init (fun s => (cached s.tlb).length = 1) (by decide +kernel)
  exact ⟨s, reached, one, tlb_contiguous zeroEnv readAndFree s reached⟩

end OsPAs.Vm
