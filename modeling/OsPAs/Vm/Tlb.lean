/-
Module: OsPAs.Vm.Tlb
Purpose: The TLB of `pa3.c`.  Its loops run along the array up to the first
  invalid entry; the lemmas say what they do to the valid entries before it.
Trusted boundary: none
Main exports: lookupTlb, insertTlb, shiftTlb, removeTlb, flushTlb, cached,
  lookupTlb_eq, insertTlb_cached, removeTlb_first, flushTlb_cached
-/
import Mathlib.Data.List.TakeWhile
import OsPAs.Vm.State

namespace OsPAs.Vm

/-! ### The loops -/

/-- The condition on which `lookup_tlb` returns an entry. -/
def Answers (vpn rw : Nat) (entry : TlbEntry) : Prop :=
  entry.vpn = vpn ∧ rw ≤ entry.rw

instance (vpn rw : Nat) (entry : TlbEntry) : Decidable (Answers vpn rw entry) :=
  inferInstanceAs (Decidable (_ ∧ _))

/-- The loop of `lookup_tlb` from an entry on. -/
def lookupTlb (vpn rw : Nat) : List TlbEntry → Except Fault (Option Nat)
  | [] => .error .outOfRange
  | entry :: rest =>
      if entry.valid then
        if Answers vpn rw entry then .ok (some entry.pfn)
        else lookupTlb vpn rw rest
      else .ok none

/-- The loop of `insert_tlb` from an entry on. -/
def insertTlb (vpn rw pfn : Nat) :
    List TlbEntry → Except Fault (List TlbEntry)
  | [] => .error .outOfRange
  | entry :: rest =>
      if entry.valid then
        if entry.vpn = vpn ∧ entry.rw = rw then
          .ok ({ entry with pfn := pfn } :: rest)
        else do
          let rest ← insertTlb vpn rw pfn rest
          return entry :: rest
      else
        let new := { valid := true, rw := rw, vpn := vpn, pfn := pfn }
        match rest with
        | [] => .error .outOfRange
        | next :: rest => .ok (new :: { next with valid := false } :: rest)

/-- The loop of `free_page` that moves the entries behind `hole` one slot
towards the front, with the assignment after it. -/
def shiftTlb (hole : TlbEntry) :
    List TlbEntry → Except Fault (List TlbEntry)
  | [] => .error .outOfRange
  | entry :: rest =>
      if entry.valid then do
        let rest ← shiftTlb entry rest
        return entry :: rest
      else .ok ({ hole with valid := false } :: entry :: rest)

/-- The part of `free_page` after the PTE is cleared.  The search loop never
advances `p_tlb`, so it ends only at the first slot. -/
def removeTlb (vpn : Nat) : List TlbEntry → Except Fault (List TlbEntry)
  | [] => .error .outOfRange
  | entry :: rest =>
      if entry.valid then
        if entry.vpn = vpn then shiftTlb { entry with valid := false } rest
        else .error .endless
      else .ok (entry :: rest)

/-- The loop at the end of `switch_process` from an entry on. -/
def flushTlb : List TlbEntry → Except Fault (List TlbEntry)
  | [] => .error .outOfRange
  | entry :: rest =>
      if entry.valid then do
        let rest ← flushTlb rest
        return { entry with valid := false } :: rest
      else .ok (entry :: rest)

/-! ### The valid entries -/

/-- The entries before the first invalid one: what the loops see. -/
def cached (tlb : List TlbEntry) : List TlbEntry := tlb.takeWhile (·.valid)

variable {tlb tlb' : List TlbEntry} {vpn rw pfn : Nat}

@[simp] theorem cached_cons_valid {entry : TlbEntry} {rest : List TlbEntry}
    (isValid : entry.valid = true) :
    cached (entry :: rest) = entry :: cached rest :=
  List.takeWhile_cons_of_pos isValid

@[simp] theorem cached_cons_invalid {entry : TlbEntry} {rest : List TlbEntry}
    (invalid : ¬ entry.valid = true) : cached (entry :: rest) = [] :=
  List.takeWhile_cons_of_neg invalid

theorem cached_replicate (count : Nat) :
    cached (List.replicate count zeroTlbEntry) = [] := by
  cases count with
  | zero => rfl
  | succ count =>
      rw [List.replicate_succ]
      exact cached_cons_invalid (by simp [zeroTlbEntry])

/-- A lookup gives the first valid entry that answers. -/
theorem lookupTlb_eq (room : (cached tlb).length < tlb.length) :
    lookupTlb vpn rw tlb =
      .ok (((cached tlb).find? fun entry => Answers vpn rw entry).map
        (·.pfn)) := by
  induction tlb with
  | nil => simp at room
  | cons entry rest inductionHypothesis =>
      by_cases isValid : entry.valid = true
      · rw [cached_cons_valid isValid] at room ⊢
        unfold lookupTlb
        rw [if_pos isValid]
        by_cases answers : Answers vpn rw entry
        · rw [if_pos answers, List.find?_cons_of_pos (by simpa using answers)]
          rfl
        · rw [if_neg answers, List.find?_cons_of_neg (by simpa using answers)]
          exact inductionHypothesis (by simpa using room)
      · rw [cached_cons_invalid isValid]
        unfold lookupTlb
        rw [if_neg isValid]
        rfl

/-- What `insert_tlb` makes of the valid entries. -/
def insertEntry (vpn rw pfn : Nat) : List TlbEntry → List TlbEntry
  | [] => [{ valid := true, rw := rw, vpn := vpn, pfn := pfn }]
  | entry :: rest =>
      if entry.vpn = vpn ∧ entry.rw = rw then { entry with pfn := pfn } :: rest
      else entry :: insertEntry vpn rw pfn rest

theorem insertTlb_cached
    (room : (insertEntry vpn rw pfn (cached tlb)).length < tlb.length) :
    ∃ tlb', insertTlb vpn rw pfn tlb = .ok tlb' ∧ tlb'.length = tlb.length ∧
      cached tlb' = insertEntry vpn rw pfn (cached tlb) := by
  induction tlb with
  | nil => simp at room
  | cons entry rest inductionHypothesis =>
      unfold insertTlb
      by_cases isValid : entry.valid = true
      · rw [cached_cons_valid isValid] at room ⊢
        rw [if_pos isValid]
        unfold insertEntry at room ⊢
        by_cases same : entry.vpn = vpn ∧ entry.rw = rw
        · rw [if_pos same, if_pos same]
          exact ⟨_, rfl, rfl, cached_cons_valid isValid⟩
        · rw [if_neg same] at room
          rw [if_neg same, if_neg same]
          obtain ⟨rest', ran, sameLength, entries⟩ :=
            inductionHypothesis (by simpa using room)
          refine ⟨entry :: rest', ?_, ?_, ?_⟩
          · rw [ran]
            rfl
          · rw [List.length_cons, List.length_cons, sameLength]
          · rw [cached_cons_valid isValid, entries]
      · rw [cached_cons_invalid isValid] at room ⊢
        rw [if_neg isValid]
        cases rest with
        | nil => simp [insertEntry] at room
        | cons next rest =>
            refine ⟨_, rfl, rfl, ?_⟩
            rw [cached_cons_valid rfl, cached_cons_invalid (by simp)]
            rfl

/-- Insertion adds nothing but the new entry. -/
theorem mem_insertEntry {entries : List TlbEntry} {entry : TlbEntry}
    (valid : ∀ entry ∈ entries, entry.valid = true)
    (member : entry ∈ insertEntry vpn rw pfn entries) :
    entry ∈ entries ∨
      entry = { valid := true, rw := rw, vpn := vpn, pfn := pfn } := by
  induction entries with
  | nil => exact Or.inr (by simpa [insertEntry] using member)
  | cons first rest inductionHypothesis =>
      unfold insertEntry at member
      by_cases same : first.vpn = vpn ∧ first.rw = rw
      · rw [if_pos same] at member
        rcases List.mem_cons.mp member with rfl | later
        · obtain ⟨rfl, rfl⟩ := same
          have isValid := valid first List.mem_cons_self
          exact Or.inr (by rw [← isValid])
        · exact Or.inl (List.mem_cons_of_mem first later)
      · rw [if_neg same] at member
        rcases List.mem_cons.mp member with rfl | later
        · exact Or.inl List.mem_cons_self
        · rcases inductionHypothesis
              (fun entry member => valid entry (List.mem_cons_of_mem _ member))
              later with old | new
          · exact Or.inl (List.mem_cons_of_mem first old)
          · exact Or.inr new

theorem valid_of_mem_cached {entry : TlbEntry} (member : entry ∈ cached tlb) :
    entry.valid = true :=
  List.mem_takeWhile_imp member

theorem shiftTlb_cached (hole : TlbEntry)
    (room : (cached tlb).length < tlb.length) :
    ∃ tlb', shiftTlb hole tlb = .ok tlb' ∧ tlb'.length = tlb.length + 1 ∧
      cached tlb' = cached tlb := by
  induction tlb generalizing hole with
  | nil => simp at room
  | cons entry rest inductionHypothesis =>
      unfold shiftTlb
      by_cases isValid : entry.valid = true
      · rw [cached_cons_valid isValid] at room ⊢
        rw [if_pos isValid]
        obtain ⟨rest', ran, lengthEq, entries⟩ :=
          inductionHypothesis entry (by simpa using room)
        refine ⟨entry :: rest', ?_, ?_, ?_⟩
        · rw [ran]
          rfl
        · rw [List.length_cons, List.length_cons, lengthEq]
        · rw [cached_cons_valid isValid, entries]
      · rw [cached_cons_invalid isValid, if_neg isValid]
        exact ⟨_, rfl, rfl, cached_cons_invalid (by simp)⟩

/-- Removal drops the first valid entry if it is for the page. -/
theorem removeTlb_first {entry : TlbEntry} {rest : List TlbEntry}
    (entries : cached tlb = entry :: rest) (isPage : entry.vpn = vpn)
    (room : (cached tlb).length < tlb.length) :
    ∃ tlb', removeTlb vpn tlb = .ok tlb' ∧ tlb'.length = tlb.length ∧
      cached tlb' = rest := by
  cases tlb with
  | nil => simp at room
  | cons first slots =>
      by_cases isValid : first.valid = true
      · rw [cached_cons_valid isValid] at entries room
        obtain ⟨rfl, rfl⟩ := List.cons.inj entries
        have roomBehind : (cached slots).length < slots.length := by
          simpa using room
        obtain ⟨tlb', ran, lengthEq, entriesEq⟩ :=
          shiftTlb_cached { first with valid := false } roomBehind
        refine ⟨tlb', ?_, by rw [lengthEq, List.length_cons], entriesEq⟩
        simp only [removeTlb, if_pos isValid, if_pos isPage]
        exact ran
      · rw [cached_cons_invalid isValid] at entries
        simp at entries

/-- A TLB without valid entries is left alone by a removal. -/
theorem removeTlb_empty (nothing : cached tlb = [])
    (room : (cached tlb).length < tlb.length) :
    removeTlb vpn tlb = .ok tlb := by
  cases tlb with
  | nil => simp at room
  | cons first slots =>
      by_cases isValid : first.valid = true
      · rw [cached_cons_valid isValid] at nothing
        simp at nothing
      · simp only [removeTlb, if_neg isValid]

/-- A TLB without valid entries is left alone by a flush. -/
theorem flushTlb_empty (nothing : cached tlb = [])
    (room : (cached tlb).length < tlb.length) : flushTlb tlb = .ok tlb := by
  cases tlb with
  | nil => simp at room
  | cons first slots =>
      by_cases isValid : first.valid = true
      · rw [cached_cons_valid isValid] at nothing
        simp at nothing
      · simp only [flushTlb, if_neg isValid]

theorem flushTlb_cached (room : (cached tlb).length < tlb.length) :
    ∃ tlb', flushTlb tlb = .ok tlb' ∧ tlb'.length = tlb.length ∧
      cached tlb' = [] := by
  induction tlb with
  | nil => simp at room
  | cons entry rest inductionHypothesis =>
      unfold flushTlb
      by_cases isValid : entry.valid = true
      · rw [cached_cons_valid isValid] at room
        obtain ⟨rest', ran, lengthEq, _⟩ :=
          inductionHypothesis (by simpa using room)
        refine ⟨{ entry with valid := false } :: rest', ?_, ?_, ?_⟩
        · rw [if_pos isValid, ran]
          rfl
        · rw [List.length_cons, List.length_cons, lengthEq]
        · exact cached_cons_invalid (by simp)
      · rw [if_neg isValid]
        exact ⟨_, rfl, rfl, cached_cons_invalid isValid⟩

end OsPAs.Vm
