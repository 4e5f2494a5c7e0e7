/-
Module: OsPAs.Vm.Transparency
Purpose: The TLB as a cache of the page table: when its entries agree with the
  PTEs, that a run with `-t` then does what the run without it does, and which
  commands break the agreement.
Trusted boundary: none
Main exports: Backed, Coherent, Remaps, Resolves, TlbKept, execute_agrees,
  tlb_transparent, tlb_stale
-/
import OsPAs.Vm.Effects

namespace OsPAs.Vm

open Lib

variable {env : Env} {k k' : Kernel} {s s' : System} {vpn rw : Nat}

/-! ### Coherence -/

/-- The entry is for a mapped page, has the frame of its PTE, and gives no
permission that the PTE does not give. -/
structure Backed (p : Process) (entry : TlbEntry) : Prop where
  inside : entry.vpn < nrPages
  valid : (p.entry (slotOf entry.vpn)).valid = true
  isFrame : (p.entry (slotOf entry.vpn)).pfn = entry.pfn
  reads : accessRead ≤ entry.rw
  writes : accessWrite ≤ entry.rw →
    (p.entry (slotOf entry.vpn)).rw &&& accessWrite ≠ 0

/-- Every entry that a lookup can see is backed by the current process, and
the last slot is not in use. -/
structure Coherent (s : System) : Prop where
  backed : ∀ entry ∈ cached s.tlb, Backed s.kernel.current entry
  length : s.tlb.length = nrTlbEntries
  room : (cached s.tlb).length < nrTlbEntries

theorem Coherent.space (coherent : Coherent s) :
    (cached s.tlb).length < s.tlb.length := by
  rw [coherent.length]
  exact coherent.room

/-- The flags of the two accesses that commands ask for. -/
def IsAccess (rw : Nat) : Prop := rw = accessRead ∨ rw = accessWrite

theorem Backed.allows {p : Process} {entry : TlbEntry}
    (backed : Backed p entry) (either : IsAccess rw) (granted : rw ≤ entry.rw) :
    (p.entry (slotOf entry.vpn)).Allows rw := by
  refine ⟨backed.valid, fun writes => ?_⟩
  rcases either with rfl | rfl
  · exact absurd rfl writes
  · exact backed.writes granted

/-- An entry stays backed while the PTE of its page stays. -/
theorem Backed.transfer {p p' : Process} {entry : TlbEntry}
    (backed : Backed p entry)
    (same : p'.entry (slotOf entry.vpn) = p.entry (slotOf entry.vpn)) :
    Backed p' entry := by
  obtain ⟨inside, valid, isFrame, reads, writes⟩ := backed
  rw [← same] at valid isFrame writes
  exact ⟨inside, valid, isFrame, reads, writes⟩

/-- An entry that answers agrees with the walk. -/
theorem Backed.walk {p : Process} {entry : TlbEntry} (backed : Backed p entry)
    (either : IsAccess rw) (answers : Answers vpn rw entry) :
    OsPAs.Vm.walk rw vpn p = .ok (some (p.entry (slotOf vpn))) ∧
      (p.entry (slotOf vpn)).pfn = entry.pfn := by
  obtain ⟨rfl, granted⟩ := answers
  obtain ⟨pd, isDir⟩ := Process.dir_of_valid backed.valid
  have owned : p.outerPtes (slotOf entry.vpn).1 ≠ .wild := by simp [isDir]
  refine ⟨?_, backed.isFrame⟩
  rw [walk_of_lt rw backed.inside owned, if_pos (backed.allows either granted)]

/-- A lookup gives the frame of a valid entry that answers, if there is one. -/
theorem Coherent.lookup (coherent : Coherent s) (vpn rw : Nat) :
    (∃ entry ∈ cached s.tlb, Answers vpn rw entry ∧
        lookupTlb vpn rw s.tlb = .ok (some entry.pfn)) ∨
      (∀ entry ∈ cached s.tlb, ¬ Answers vpn rw entry) ∧
        lookupTlb vpn rw s.tlb = .ok none := by
  have found : lookupTlb vpn rw s.tlb = _ := lookupTlb_eq coherent.space
  cases search : (cached s.tlb).find? fun entry => Answers vpn rw entry with
  | none =>
      rw [search] at found
      refine Or.inr ⟨fun entry member => ?_, found⟩
      simpa using List.find?_eq_none.mp search entry member
  | some entry =>
      rw [search] at found
      exact Or.inl ⟨entry, List.mem_of_find?_eq_some search,
        by simpa using List.find?_some search, found⟩

/-- What a lookup answers, the walk of the page table gives as well. -/
theorem Coherent.answer (coherent : Coherent s) (either : IsAccess rw)
    {pfn : Nat} (answered : lookupTlb vpn rw s.tlb = .ok (some pfn)) :
    ∃ pte, walk rw vpn s.kernel.current = .ok (some pte) ∧ pte.pfn = pfn := by
  rcases coherent.lookup vpn rw with ⟨entry, member, answers, found⟩ |
    ⟨_, missed⟩
  · obtain ⟨walked, isFrame⟩ :=
      (coherent.backed entry member).walk either answers
    rw [found] at answered
    obtain rfl := Option.some.inj (Except.ok.inj answered)
    exact ⟨_, walked, isFrame⟩
  · simp [missed] at answered

/-! ### The condition -/

/-- The TLB has an entry for the page with the flag, or room for one more. -/
def HasRoom (s : System) (vpn rw : Nat) : Prop :=
  (∃ entry ∈ cached s.tlb, entry.vpn = vpn ∧ entry.rw = rw) ∨
    (cached s.tlb).length + 1 < nrTlbEntries

/-- A flag that allows reads, and that allows writes if it is greater. -/
def Sane (rw : Nat) : Prop :=
  accessRead ≤ rw ∧ (accessWrite ≤ rw → rw &&& accessWrite ≠ 0)

/-- If a translation succeeds by a walk, its result can be inserted. -/
def Fits (s : System) (vpn rw : Nat) : Prop :=
  (s.kernel.pte vpn).Allows rw →
    (∀ entry ∈ cached s.tlb, ¬ Answers vpn rw entry) →
      Sane (s.kernel.pte vpn).rw ∧ HasRoom s vpn (s.kernel.pte vpn).rw

/-- A write fault moves the page, which is mapped, to another frame. -/
structure Remaps (k : Kernel) (vpn : Nat) : Prop extends Faults k vpn where
  valid : (k.pte vpn).valid = true
  shared : CountedFrom k vpn 2
  other : freeFrame k ≠ none

/-- A write fault leaves a PTE that allows the write. -/
structure Resolves (k : Kernel) (vpn : Nat) : Prop extends Faults k vpn where
  mapped : (k.pte vpn).valid = true ∧ CountedFrom k vpn 1 ∨
    CountedFrom k vpn 2 ∧ freeFrame k ≠ none

/-- No valid entry or only the first one is for the page, and this one is if
there are any. -/
def OnlyFirst (vpn : Nat) : List TlbEntry → Prop
  | [] => True
  | entry :: rest => entry.vpn = vpn ∧ ∀ other ∈ rest, other.vpn ≠ vpn

/-- The command inserts only what fits into the TLB, moves no page that the TLB
has an entry for, and frees a page only if its entry is the first one and the
only one for the page. -/
def TlbKept (c : Command) (s : System) : Prop :=
  match c with
  | .alloc vpn _ => vpn < nrPages → Fits s vpn accessRead
  | .read vpn => vpn < nrPages → Fits s vpn accessRead
  | .free vpn => vpn < nrPages → Fits s vpn accessRead ∧
      ((s.kernel.pte vpn).valid = true → OnlyFirst vpn (cached s.tlb))
  | .write vpn => vpn < nrPages → Fits s vpn accessWrite ∧
      (Remaps s.kernel vpn → ∀ entry ∈ cached s.tlb, entry.vpn ≠ vpn) ∧
      (Resolves s.kernel vpn → HasRoom s vpn 0x03)
  | .switch _ => True

instance (s : System) (vpn rw : Nat) : Decidable (HasRoom s vpn rw) :=
  inferInstanceAs (Decidable (_ ∨ _))

instance (rw : Nat) : Decidable (Sane rw) :=
  inferInstanceAs (Decidable (_ ∧ (_ → _)))

instance (s : System) (vpn rw : Nat) : Decidable (Fits s vpn rw) :=
  inferInstanceAs (Decidable (_ → _ → _))

instance (k : Kernel) (vpn : Nat) : Decidable (Remaps k vpn) :=
  decidable_of_iff
    (Faults k vpn ∧ (k.pte vpn).valid = true ∧ CountedFrom k vpn 2 ∧
      freeFrame k ≠ none)
    ⟨fun ⟨faults, valid, shared, other⟩ => ⟨faults, valid, shared, other⟩,
      fun ⟨faults, valid, shared, other⟩ => ⟨faults, valid, shared, other⟩⟩

instance (k : Kernel) (vpn : Nat) : Decidable (Resolves k vpn) :=
  decidable_of_iff
    (Faults k vpn ∧ ((k.pte vpn).valid = true ∧ CountedFrom k vpn 1 ∨
      CountedFrom k vpn 2 ∧ freeFrame k ≠ none))
    ⟨fun ⟨faults, mapped⟩ => ⟨faults, mapped⟩,
      fun ⟨faults, mapped⟩ => ⟨faults, mapped⟩⟩

instance (vpn : Nat) : ∀ entries, Decidable (OnlyFirst vpn entries)
  | [] => .isTrue trivial
  | entry :: rest => inferInstanceAs
      (Decidable (entry.vpn = vpn ∧ ∀ other ∈ rest, other.vpn ≠ vpn))

instance : ∀ c s, Decidable (TlbKept c s)
  | .alloc vpn _, s =>
      inferInstanceAs (Decidable (vpn < nrPages → Fits s vpn accessRead))
  | .read vpn, s =>
      inferInstanceAs (Decidable (vpn < nrPages → Fits s vpn accessRead))
  | .free vpn, s => inferInstanceAs (Decidable
      (vpn < nrPages → Fits s vpn accessRead ∧
        ((s.kernel.pte vpn).valid = true → OnlyFirst vpn (cached s.tlb))))
  | .write vpn, s => inferInstanceAs (Decidable
      (vpn < nrPages → Fits s vpn accessWrite ∧
        (Remaps s.kernel vpn → ∀ entry ∈ cached s.tlb, entry.vpn ≠ vpn) ∧
        (Resolves s.kernel vpn → HasRoom s vpn 0x03)))
  | .switch _, _ => .isTrue trivial

/-! ### Kernels that change under the TLB -/

/-- `k'` has the PTEs of `k` in all mapped pages of the current process other
than `vpn`. -/
def Keeps (k k' : Kernel) (vpn : Nat) : Prop :=
  ∀ slot, slot ≠ slotOf vpn → (k.current.entry slot).valid = true →
    k'.current.entry slot = k.current.entry slot

/-- Storing the PTE of one page keeps the others, whatever else is in the
directory, if it holds the mapped ones. -/
theorem keeps_storePte (base : Kernel) (current : base.current = k.current)
    {pd : Directory} (pte : Pte)
    (holds : ∀ j, (k.current.entry ((slotOf vpn).1, j)).valid = true →
      pd j = k.current.entry ((slotOf vpn).1, j)) :
    Keeps k (storePte base vpn pd pte) vpn := by
  rintro ⟨i, j⟩ other valid
  by_cases same : i = (slotOf vpn).1
  · subst same
    have otherEntry : j ≠ pteIdx vpn := by
      rintro rfl
      exact other rfl
    rw [Process.entry_of_dir (storePte_dir base vpn pd pte),
      Function.update_of_ne otherEntry]
    exact holds j valid
  · change (base.current.setDirectory _ _).entry (i, j) = _
    rw [current]
    simp only [Process.entry, Process.setDirectory, Function.update_of_ne same]

theorem keeps_of_dir {pd : Directory} (base : Kernel)
    (current : base.current = k.current)
    (isDir : k.current.outerPtes (slotOf vpn).1 = .dir pd) (pte : Pte) :
    Keeps k (storePte base vpn pd pte) vpn :=
  keeps_storePte base current pte fun j _ =>
    (Process.entry_of_dir isDir j).symm

/-- The TLB stays coherent if the PTE of one page changes and its entries are
backed as before. -/
theorem Coherent.keeps (coherent : Coherent s) (inside : vpn < nrPages)
    (keeps : Keeps s.kernel k' vpn)
    (here : ∀ entry ∈ cached s.tlb, entry.vpn = vpn →
      Backed k'.current entry) :
    Coherent { s with kernel := k' } where
  backed := fun entry member => by
    by_cases same : entry.vpn = vpn
    · exact here entry member same
    · have backed := coherent.backed entry member
      exact backed.transfer (keeps (slotOf entry.vpn)
        (fun eq => same (slotOf_inj backed.inside inside eq)) backed.valid)
  length := coherent.length
  room := coherent.room

/-- A page that is not mapped has no entry. -/
theorem Coherent.no_entry (coherent : Coherent s)
    (invalid : ¬ (s.kernel.pte vpn).valid = true) :
    ∀ entry ∈ cached s.tlb, entry.vpn ≠ vpn := by
  rintro entry member rfl
  exact invalid (coherent.backed entry member).valid

theorem Coherent.keeps_new (coherent : Coherent s) (inside : vpn < nrPages)
    (keeps : Keeps s.kernel k' vpn)
    (noEntry : ∀ entry ∈ cached s.tlb, entry.vpn ≠ vpn) :
    Coherent { s with kernel := k' } :=
  coherent.keeps inside keeps fun entry member same =>
    absurd same (noEntry entry member)

/-- The frame of a PTE that becomes writable in place stays the same, and so do
its entries. -/
theorem Coherent.keeps_writable (coherent : Coherent s)
    (inside : vpn < nrPages) (keeps : Keeps s.kernel k' vpn)
    (valid : (k'.pte vpn).valid = (s.kernel.pte vpn).valid)
    (isFrame : (k'.pte vpn).pfn = (s.kernel.pte vpn).pfn)
    (writable : (k'.pte vpn).rw = 0x03) :
    Coherent { s with kernel := k' } := by
  apply coherent.keeps inside keeps
  rintro entry member rfl
  have backed := coherent.backed entry member
  refine ⟨inside, valid.trans backed.valid, isFrame.trans backed.isFrame,
    backed.reads, fun _ => ?_⟩
  change (k'.pte entry.vpn).rw &&& accessWrite ≠ 0
  rw [writable]
  decide

/-- Dropping a share does not free a shared frame. -/
theorem freeFrame_dropShare {pfnum : Fin nrPageframes}
    (shared : 2 ≤ asInt (k.mapcounts pfnum)) :
    freeFrame (dropShare k pfnum) = none ↔ freeFrame k = none := by
  have two : 2 ≤ k.mapcounts pfnum := by
    unfold asInt at shared
    split at shared
    · omega
    · omega
  rw [freeFrame_none, freeFrame_none]
  exact forall_congr' fun x => (dropShare_eq_zero two).not

/-- A page fault keeps the TLB coherent unless it moves a page that has an
entry. -/
theorem Coherent.handled {ret : Bool} (coherent : Coherent s)
    (inside : vpn < nrPages)
    (denied : ¬ (s.kernel.pte vpn).Allows accessWrite)
    (still : Remaps s.kernel vpn → ∀ entry ∈ cached s.tlb, entry.vpn ≠ vpn)
    (handled : Handled s.kernel vpn ret k') :
    Coherent { s with kernel := k' } := by
  cases handled with
  | readOnly => exact coherent
  | uncounted => exact coherent
  | alone isDir =>
      apply coherent.keeps_writable inside (keeps_of_dir _ rfl isDir _)
      · rw [storePte_pte, Kernel.pte_of_dir isDir]
      · rw [storePte_pte, Kernel.pte_of_dir isDir]
      · rw [storePte_pte]
  | @exhausted pd pfnum isDir =>
      apply coherent.keeps_writable inside
        (keeps_of_dir (dropShare s.kernel pfnum) rfl isDir _)
      · rw [storePte_pte, Kernel.pte_of_dir isDir]
      · rw [storePte_pte, Kernel.pte_of_dir isDir]
      · rw [storePte_pte]
  | @copied pd pfnum new isDir notRead isFrame shared free =>
      apply coherent.keeps_new inside
        (keeps_of_dir ((dropShare s.kernel pfnum).setMapcount new 1) rfl isDir _)
      by_cases valid : (s.kernel.pte vpn).valid = true
      · exact still
          { dir := ⟨pd, isDir⟩
            denied := denied
            notRead := by rwa [Kernel.pte_of_dir isDir]
            valid := valid
            shared := ⟨pfnum, by rw [Kernel.pte_of_dir isDir, isFrame], shared⟩
            other := (freeFrame_dropShare shared).not.mp (by simp [free]) }
      · exact coherent.no_entry valid

/-! ### Translations -/

/-- Insertion makes the TLB one entry longer, unless it finds one to update. -/
theorem insertEntry_length (vpn rw pfn : Nat) (entries : List TlbEntry) :
    (insertEntry vpn rw pfn entries).length = entries.length ∨
      (∀ entry ∈ entries, ¬ (entry.vpn = vpn ∧ entry.rw = rw)) ∧
        (insertEntry vpn rw pfn entries).length = entries.length + 1 := by
  induction entries with
  | nil => exact Or.inr ⟨by simp, rfl⟩
  | cons first rest inductionHypothesis =>
      unfold insertEntry
      by_cases same : first.vpn = vpn ∧ first.rw = rw
      · rw [if_pos same]
        exact Or.inl rfl
      · rw [if_neg same]
        rcases inductionHypothesis with sameLength | ⟨absent, longer⟩
        · exact Or.inl (congrArg (· + 1) sameLength)
        · refine Or.inr ⟨fun entry member => ?_, congrArg (· + 1) longer⟩
          rcases List.mem_cons.mp member with rfl | later
          · exact same
          · exact absent entry later

/-- The results of a translation with the TLB, by what the walk of the page
table gives. -/
inductive TranslatedOn (s : System) (vpn rw : Nat) :
    Except Fault (Option (Nat × Bool) × System) → Prop where
  | fault {fault : Fault}
      (walked : walk rw vpn s.kernel.current = .error fault) :
      TranslatedOn s vpn rw (.error fault)
  | absent (walked : walk rw vpn s.kernel.current = .ok none) :
      TranslatedOn s vpn rw (.ok (none, s))
  | hit {pte : Pte} {entry : TlbEntry}
      (walked : walk rw vpn s.kernel.current = .ok (some pte))
      (member : entry ∈ cached s.tlb) (answers : Answers vpn rw entry) :
      TranslatedOn s vpn rw (.ok (some (pte.pfn, true), s))
  | filled {pte : Pte} {tlb : List TlbEntry}
      (walked : walk rw vpn s.kernel.current = .ok (some pte))
      (missed : ∀ entry ∈ cached s.tlb, ¬ Answers vpn rw entry)
      (coherent : Coherent { s with tlb := tlb })
      (entries : cached tlb = insertEntry vpn pte.rw pte.pfn (cached s.tlb)) :
      TranslatedOn s vpn rw
        (.ok (some (pte.pfn, false), { s with tlb := tlb }))

/-- Inserting what a walk has found keeps the TLB coherent. -/
theorem Coherent.insert (coherent : Coherent s)
    (fits : Sane (s.kernel.pte vpn).rw ∧ HasRoom s vpn (s.kernel.pte vpn).rw)
    (inside : vpn < nrPages) (valid : (s.kernel.pte vpn).valid = true) :
    ∃ tlb, insertTlb vpn (s.kernel.pte vpn).rw (s.kernel.pte vpn).pfn s.tlb =
        .ok tlb ∧
      Coherent { s with tlb := tlb } ∧
      cached tlb = insertEntry vpn (s.kernel.pte vpn).rw (s.kernel.pte vpn).pfn
        (cached s.tlb) := by
  obtain ⟨⟨reads, writes⟩, room⟩ := fits
  have short : (insertEntry vpn (s.kernel.pte vpn).rw (s.kernel.pte vpn).pfn
      (cached s.tlb)).length < nrTlbEntries := by
    have bound := coherent.room
    rcases insertEntry_length vpn (s.kernel.pte vpn).rw (s.kernel.pte vpn).pfn
      (cached s.tlb) with sameLength | ⟨absent, longer⟩
    · omega
    · rcases room with ⟨entry, member, same⟩ | free
      · exact absurd same (absent entry member)
      · omega
  obtain ⟨tlb, ran, length, entries⟩ :=
    insertTlb_cached (coherent.length ▸ short)
  refine ⟨tlb, ran, ⟨?_, length.trans coherent.length, ?_⟩, entries⟩
  · intro entry member
    have member : entry ∈ cached tlb := member
    rw [entries] at member
    rcases mem_insertEntry (fun _ => valid_of_mem_cached) member with old | rfl
    · exact coherent.backed entry old
    · exact ⟨inside, valid, rfl, reads, writes⟩
  · change (cached tlb).length < _
    rw [entries]
    exact short

theorem translatedOn (coherent : Coherent s) (either : IsAccess rw)
    (fits : vpn < nrPages → Fits s vpn rw) :
    TranslatedOn s vpn rw (translate true rw vpn s) := by
  unfold translate
  rcases coherent.lookup vpn rw with ⟨entry, member, answers, found⟩ |
    ⟨missed, notFound⟩
  · obtain ⟨walked, isFrame⟩ :=
      (coherent.backed entry member).walk either answers
    simp only [found, if_true, bind, Except.bind, pure, Except.pure]
    rw [← isFrame]
    exact .hit walked member answers
  · simp only [notFound, if_true, bind, Except.bind, pure, Except.pure]
    cases walked : walk rw vpn s.kernel.current with
    | error fault => exact .fault walked
    | ok result =>
        cases result with
        | none => exact .absent walked
        | some pte =>
            obtain ⟨inside, rfl, allows⟩ := walk_some walked
            obtain ⟨tlb, ran, coherent', entries⟩ :=
              coherent.insert (fits inside allows missed) inside allows.1
            simp only [ran]
            exact .filled walked missed coherent' entries

/-! ### Accesses -/

/-- The outcome without the value of `from_tlb`. -/
def Outcome.forget : Outcome → Outcome
  | .translated _ vpn pfn => .translated false vpn pfn
  | out => out

/-- The outcomes are equal up to where a translation comes from. -/
def SameOutcome (out out' : Outcome) : Prop := out.forget = out'.forget

/-- The state of a run with `-t` and that of the run without it. -/
structure Follows (s s' : System) : Prop where
  coherent : Coherent s
  isOff : s' = off s.kernel

/-- The results of one step in the two runs. -/
def Alike (a b : Outcome × System) : Prop :=
  SameOutcome a.1 b.1 ∧ Follows a.2 b.2

theorem translate_off_ok {result : Option Pte}
    (walked : walk rw vpn s.kernel.current = .ok result) :
    translate false rw vpn (off s.kernel) =
      .ok (result.map fun pte => (pte.pfn, false), off s.kernel) :=
  translate_off (s := off s.kernel) walked

theorem translate_off_fault {fault : Fault}
    (walked : walk rw vpn s.kernel.current = .error fault) :
    translate false rw vpn (off s.kernel) = .error fault :=
  translate_off_error (s := off s.kernel) walked

theorem onKernel_agrees {α : Type} (f : Kernel → Except Fault (α × Kernel))
    (s : System) :
    Agree (fun a b => ∃ k', f s.kernel = .ok (a.1, k') ∧
        a.2 = { s with kernel := k' } ∧ b = (a.1, off k'))
      (onKernel f s) (onKernel f (off s.kernel)) := by
  apply (agree_self (f s.kernel)).bind
  rintro ⟨value, k'⟩ _ ⟨ran, rfl⟩
  exact .ok ⟨k', ran, rfl, rfl⟩

/-- One round of the access loop, if the two runs agree on what comes after a
page fault. -/
theorem accessLoop_agrees (tries : Nat) (coherent : Coherent s)
    (either : IsAccess rw) (fits : vpn < nrPages → Fits s vpn rw)
    (after : ∀ ret k', walk rw vpn s.kernel.current = .ok none →
      handlePageFault env vpn rw s.kernel = .ok (ret, k') →
        Coherent { s with kernel := k' } ∧
        (ret = true → Agree Alike
          (accessLoop true env vpn rw tries { s with kernel := k' })
          (accessLoop false env vpn rw tries (off k')))) :
    Agree Alike (accessLoop true env vpn rw (tries + 1) s)
      (accessLoop false env vpn rw (tries + 1) (off s.kernel)) := by
  simp only [accessLoop]
  have translated := translatedOn coherent either fits
  generalize translate true rw vpn s = result at translated ⊢
  cases translated with
  | fault walked =>
      rw [translate_off_fault walked]
      exact .fault _
  | hit walked =>
      rw [translate_off_ok walked]
      exact .ok ⟨rfl, coherent, rfl⟩
  | filled walked _ coherent' =>
      rw [translate_off_ok walked]
      exact .ok ⟨rfl, coherent', rfl⟩
  | absent walked =>
      rw [translate_off_ok walked]
      apply (onKernel_agrees (handlePageFault env vpn rw) s).bind
      rintro ⟨ret, _⟩ _ ⟨k', handled, rfl, rfl⟩
      obtain ⟨coherent', next⟩ := after ret k' walked handled
      cases ret with
      | false => exact .ok ⟨rfl, coherent', rfl⟩
      | true => exact next rfl

theorem accessRead_agrees (coherent : Coherent s) (inside : vpn < nrPages)
    (fits : Fits s vpn accessRead) :
    Agree Alike (accessLoop true env vpn accessRead 2 s)
      (accessLoop false env vpn accessRead 2 (off s.kernel)) := by
  apply accessLoop_agrees 1 coherent (Or.inl rfl) fun _ => fits
  intro ret k' _ handled
  rw [handlePageFault_read inside] at handled
  obtain ⟨rfl, rfl⟩ := Prod.mk.inj (Except.ok.inj handled)
  exact ⟨coherent, fun absurd => by simp at absurd⟩

/-- A write fault after which the write is allowed is one that resolves. -/
theorem Handled.resolves (denied : ¬ (k.pte vpn).Allows accessWrite)
    (handled : Handled k vpn true k') (allows : (k'.pte vpn).Allows accessWrite) :
    Resolves k vpn := by
  have valid := allows.1
  cases handled with
  | @alone pd pfnum isDir notRead isFrame one =>
      rw [storePte_pte] at valid
      refine { dir := ⟨pd, isDir⟩, denied, notRead := ?_, mapped := Or.inl ⟨?_, ?_⟩ }
      · rwa [Kernel.pte_of_dir isDir]
      · rw [Kernel.pte_of_dir isDir]
        exact valid
      · exact ⟨pfnum, by rw [Kernel.pte_of_dir isDir, isFrame], one.ge⟩
  | @copied pd pfnum new isDir notRead isFrame shared free =>
      refine { dir := ⟨pd, isDir⟩, denied, notRead := ?_, mapped := Or.inr ⟨?_, ?_⟩ }
      · rwa [Kernel.pte_of_dir isDir]
      · exact ⟨pfnum, by rw [Kernel.pte_of_dir isDir, isFrame], shared⟩
      · exact (freeFrame_dropShare shared).not.mp (by simp [free])
  | @exhausted pd pfnum isDir notRead isFrame shared full =>
      rw [storePte_pte] at valid
      refine { dir := ⟨pd, isDir⟩, denied, notRead := ?_, mapped := Or.inl ⟨?_, ?_⟩ }
      · rwa [Kernel.pte_of_dir isDir]
      · rw [Kernel.pte_of_dir isDir]
        exact valid
      · exact ⟨pfnum, by rw [Kernel.pte_of_dir isDir, isFrame], by omega⟩

theorem sane_writable : Sane 0x03 := by
  unfold Sane accessRead accessWrite
  decide

theorem accessWrite_agrees (coherent : Coherent s) (inside : vpn < nrPages)
    (fits : Fits s vpn accessWrite)
    (still : Remaps s.kernel vpn → ∀ entry ∈ cached s.tlb, entry.vpn ≠ vpn)
    (room : Resolves s.kernel vpn → HasRoom s vpn 0x03) :
    Agree Alike (accessLoop true env vpn accessWrite 2 s)
      (accessLoop false env vpn accessWrite 2 (off s.kernel)) := by
  apply accessLoop_agrees 1 coherent (Or.inr rfl) fun _ => fits
  intro ret k₁ walked ran
  have denied := (walk_none walked).2
  have handled := handled_of_handlePageFault inside ran
  have coherent₁ := coherent.handled inside denied still handled
  refine ⟨coherent₁, ?_⟩
  rintro rfl
  -- the second round either inserts the PTE or finds that it is not valid
  apply accessLoop_agrees (s := { s with kernel := k₁ }) 0 coherent₁
    (Or.inr rfl)
  · intro _ allows _
    have writable : (k₁.pte vpn).rw = 0x03 := handled.rw_eq
    change Sane (k₁.pte vpn).rw ∧ HasRoom s vpn (k₁.pte vpn).rw
    rw [writable]
    exact ⟨sane_writable, room (handled.resolves denied allows)⟩
  · intro ret k₂ walked₁ ran₁
    have denied₁ : ¬ (k₁.pte vpn).Allows accessWrite := (walk_none walked₁).2
    have invalid : ¬ (k₁.pte vpn).valid = true := fun valid =>
      denied₁ (allows_of_rw valid handled.rw_eq accessWrite)
    have handled₁ := handled_of_handlePageFault inside ran₁
    have coherent₂ := coherent₁.handled inside denied₁
      (fun remaps => absurd remaps.valid invalid) handled₁
    exact ⟨coherent₂, fun _ => .ok ⟨rfl, coherent₂, rfl⟩⟩

/-! ### Commands -/

/-- A frame is taken for a page that is not mapped, so the TLB has no entry to
contradict it. -/
theorem Coherent.taken {ret : Nat} (coherent : Coherent s)
    (invalid : ¬ (s.kernel.pte vpn).valid = true)
    (ran : allocPage env vpn rw s.kernel = .ok (ret, k')) :
    Coherent { s with kernel := k' } := by
  rcases allocPage_ok ran with ⟨_, _, rfl⟩ |
    ⟨pfnum, pd, mallocs, inside, _, opened, _, rfl⟩
  · exact coherent
  · apply coherent.keeps_new inside _ (coherent.no_entry invalid)
    apply keeps_storePte (k := s.kernel)
      { s.kernel.setMapcount pfnum 1 with mallocs := mallocs } rfl
    intro j valid
    cases opened with
    | existing isDir => exact (Process.entry_of_dir isDir j).symm
    | fresh isNull =>
        simp only [Process.entry, isNull, zeroPte] at valid
        exact absurd valid Bool.false_ne_true

theorem requestPage_agrees (coherent : Coherent s)
    (fits : vpn < nrPages → Fits s vpn accessRead) :
    Agree (fun a b => a.1 = b.1 ∧ Alike a.2 b.2)
      (requestPage true env vpn rw s)
      (requestPage false env vpn rw (off s.kernel)) := by
  unfold requestPage
  apply (agree_self (cAssert (rw ≠ 0))).bind
  rintro _ _ -
  apply (agree_self (cAssert (rw &&& accessRead ≠ 0))).bind
  rintro _ _ -
  have translated := translatedOn coherent (Or.inl rfl) fits
  generalize translate true accessRead vpn s = result at translated ⊢
  cases translated with
  | fault walked =>
      rw [translate_off_fault walked]
      exact .fault _
  | hit walked =>
      rw [translate_off_ok walked]
      exact .ok ⟨rfl, rfl, coherent, rfl⟩
  | filled walked _ coherent' =>
      rw [translate_off_ok walked]
      exact .ok ⟨rfl, rfl, coherent', rfl⟩
  | absent walked =>
      rw [translate_off_ok walked]
      apply (onKernel_agrees (allocPage env vpn rw) s).bind
      rintro ⟨ret, _⟩ _ ⟨k', ran, rfl, rfl⟩
      have coherent' := coherent.taken
        (allows_read.not.mp (walk_none walked).2) ran
      simp only
      split
      · exact .ok ⟨rfl, rfl, coherent', rfl⟩
      · exact .ok ⟨rfl, rfl, coherent', rfl⟩

/-- Freeing a page whose entry is the first one, and the only one for the page,
keeps the TLB coherent. -/
theorem freePage_agrees (coherent : Coherent s) (inside : vpn < nrPages)
    {entry : TlbEntry} {rest : List TlbEntry}
    (entries : cached s.tlb = entry :: rest) (first : entry.vpn = vpn)
    (only : ∀ other ∈ rest, other.vpn ≠ vpn) :
    Agree Follows (freePage vpn s) (freePage vpn (off s.kernel)) := by
  unfold freePage
  apply (agree_self (clearPte vpn s.kernel)).bind
  rintro k' _ ⟨ran, rfl⟩
  obtain ⟨tlb', removed, length, remaining⟩ :=
    removeTlb_first entries first coherent.space
  simp only [off, removed, removeTlb_off]
  refine .ok ⟨⟨?_, length.trans coherent.length, ?_⟩, rfl⟩
  · have keeps : Keeps s.kernel k' vpn := by
      cases (clearPte_iff inside).mp ran with
      | @cleared pd pfnum isDir isFrame =>
          exact keeps_of_dir (dropShare s.kernel pfnum) rfl isDir _
    intro other member
    have member : other ∈ cached tlb' := member
    rw [remaining] at member
    have backed := coherent.backed other
      (by rw [entries]; exact List.mem_cons_of_mem _ member)
    exact backed.transfer (keeps (slotOf other.vpn) (fun eq =>
      only other member (slotOf_inj backed.inside inside eq)) backed.valid)
  · change (cached tlb').length < _
    have bound := coherent.room
    rw [entries, List.length_cons] at bound
    rw [remaining]
    omega

theorem releasePage_agrees (coherent : Coherent s)
    (fits : vpn < nrPages → Fits s vpn accessRead)
    (onlyFirst : vpn < nrPages → (s.kernel.pte vpn).valid = true →
      OnlyFirst vpn (cached s.tlb)) :
    Agree Alike (releasePage true vpn s)
      (releasePage false vpn (off s.kernel)) := by
  unfold releasePage
  have translated := translatedOn coherent (Or.inl rfl) fits
  generalize translate true accessRead vpn s = result at translated ⊢
  cases translated with
  | fault walked =>
      rw [translate_off_fault walked]
      exact .fault _
  | absent walked =>
      rw [translate_off_ok walked]
      exact .ok ⟨rfl, coherent, rfl⟩
  | @hit pte entry walked member =>
      rw [translate_off_ok walked]
      obtain ⟨inside, rfl, allows⟩ := walk_some walked
      have sole := onlyFirst inside allows.1
      cases entries : cached s.tlb with
      | nil =>
          rw [entries] at member
          exact absurd member List.not_mem_nil
      | cons first rest =>
          rw [entries] at sole
          apply (freePage_agrees coherent inside entries sole.1 sole.2).bind
          exact fun _ _ follows => .ok ⟨rfl, follows⟩
  | @filled pte tlb walked missed coherent' inserted =>
      rw [translate_off_ok walked]
      obtain ⟨inside, rfl, allows⟩ := walk_some walked
      have sole := onlyFirst inside allows.1
      -- an entry for the page would have answered
      have entries : cached s.tlb = [] := by
        cases entries : cached s.tlb with
        | nil => rfl
        | cons first rest =>
            rw [entries] at sole
            have member : first ∈ cached s.tlb := by
              rw [entries]
              exact List.mem_cons_self
            exact absurd ⟨sole.1, (coherent.backed first member).reads⟩
              (missed first member)
      rw [entries] at inserted
      apply (freePage_agrees coherent' inside inserted rfl
        fun _ member => absurd member List.not_mem_nil).bind
      exact fun _ _ follows => .ok ⟨rfl, follows⟩

theorem switchProcess_agrees (coherent : Coherent s) (pid : Nat) :
    Agree Follows (switchProcess env pid s)
      (switchProcess env pid (off s.kernel)) := by
  unfold switchProcess
  apply (agree_self (switchKernel env pid s.kernel)).bind
  rintro k' _ ⟨_, rfl⟩
  obtain ⟨tlb', flushed, length, empty⟩ := flushTlb_cached coherent.space
  simp only [off, flushed, flushTlb_off]
  refine .ok ⟨⟨fun entry member => ?_, length.trans coherent.length, ?_⟩, rfl⟩
  · have member : entry ∈ cached tlb' := member
    rw [empty] at member
    exact absurd member List.not_mem_nil
  · change (cached tlb').length < _
    rw [empty]
    decide

/-! ### Runs -/

/-- A command that keeps the TLB coherent does the same with `-t` as without
it. -/
theorem execute_agrees (env : Env) (c : Command) (follows : Follows s s')
    (kept : TlbKept c s) :
    Matches SameOutcome Follows (execute true env c s)
      (execute false env c s') := by
  obtain ⟨coherent, rfl⟩ := follows
  cases c with
  | alloc vpn rw =>
      apply (requestPage_agrees coherent kept).bind_matches
      rintro ⟨done, out, _⟩ ⟨_, out', _⟩ ⟨rfl, same, states⟩
      cases done with
      | false => exact .leave same states
      | true => exact .again same states
  | free vpn =>
      apply (releasePage_agrees coherent (fun inside => (kept inside).1)
        fun inside => (kept inside).2).bind_matches
      exact fun _ _ ⟨same, states⟩ => .again same states
  | read vpn =>
      rcases Nat.lt_or_ge vpn nrPages with inside | outside
      · simp only [execute, accessMemory_eq _ inside exclusive_read]
        apply (accessRead_agrees coherent inside (kept inside)).bind_matches
        exact fun _ _ ⟨same, states⟩ => .again same states
      · simp only [execute, accessMemory_outside outside]
        exact .fault _
  | write vpn =>
      rcases Nat.lt_or_ge vpn nrPages with inside | outside
      · obtain ⟨fits, still, room⟩ := kept inside
        simp only [execute, accessMemory_eq _ inside exclusive_write]
        apply (accessWrite_agrees coherent inside fits still room).bind_matches
        exact fun _ _ ⟨same, states⟩ => .again same states
      · simp only [execute, accessMemory_outside outside]
        exact .fault _
  | switch pid =>
      apply (switchProcess_agrees coherent pid).bind_matches
      exact fun _ _ states => .again rfl states

theorem init_follows : Follows init init where
  coherent :=
    { backed := fun entry member => by
        rw [cached_off] at member
        exact absurd member List.not_mem_nil
      length := List.length_replicate
      room := by
        rw [cached_off]
        decide }
  isOff := rfl

/-- While every command keeps the TLB coherent, a run with `-t` prints what the
run without it prints, up to where translations come from, and ends alike after
every number of commands; and in every state of it a lookup answers with the
frame of a PTE that allows the access. -/
theorem tlb_transparent (env : Env) (workload : List Command)
    (along : Along (execute true env) TlbKept workload init) :
    (∀ n, Matches (List.Forall₂ SameOutcome)
        (fun s s' => s.kernel = s'.kernel)
        (doSimulation true env (workload.take n))
        (doSimulation false env (workload.take n))) ∧
      ∀ s, Reaches (execute true env) workload init s →
        ∀ vpn rw pfn, IsAccess rw →
          lookupTlb vpn rw s.tlb = .ok (some pfn) →
            ∃ pte, walk rw vpn s.kernel.current = .ok (some pte) ∧
              pte.pfn = pfn := by
  have simulates (c : Command) (s s' : System) (follows : Follows s s')
      (kept : TlbKept c s) := execute_agrees env c follows kept
  constructor
  · intro n
    exact (runAll_matches simulates init_follows (along.take n)).mono
      fun _ _ follows => by rw [follows.isOff]; rfl
  · intro s reached vpn rw pfn either answered
    obtain ⟨_, _, follows⟩ :=
      reaches_related simulates init_follows along reached
    exact follows.coherent.answer either answered

/-- A child writes to a page it shares and reads it back; its parent reads the
page and frees it. -/
def writeThenRead : List Command :=
  [.alloc 0 ['r', 'w'], .switch 1, .write 0, .read 0, .switch 0, .read 0,
    .free 0]

theorem tlb_transparent_writeThenRead :
    (∀ n, Matches (List.Forall₂ SameOutcome)
        (fun s s' => s.kernel = s'.kernel)
        (doSimulation true zeroEnv (writeThenRead.take n))
        (doSimulation false zeroEnv (writeThenRead.take n))) ∧
      ∀ s, Reaches (execute true zeroEnv) writeThenRead init s →
        ∀ vpn rw pfn, IsAccess rw →
          lookupTlb vpn rw s.tlb = .ok (some pfn) →
            ∃ pte, walk rw vpn s.kernel.current = .ok (some pte) ∧
              pte.pfn = pfn :=
  tlb_transparent zeroEnv writeThenRead (by decide +kernel)

/-! ### A stale entry -/

/-- What a run prints, up to where translations come from. -/
def printed : Except Fault (List Outcome × Pass System) → List Outcome
  | .ok (outs, _) => outs.map Outcome.forget
  | .error _ => []

theorem printed_eq {related : System → System → Prop}
    {result result' : Except Fault (List Outcome × Pass System)}
    (matched : Matches (List.Forall₂ SameOutcome) related result result') :
    printed result = printed result' := by
  have same {outs outs' : List Outcome}
      (prints : List.Forall₂ SameOutcome outs outs') :
      outs.map Outcome.forget = outs'.map Outcome.forget := by
    induction prints with
    | nil => rfl
    | cons first _ inductionHypothesis =>
        rw [List.map_cons, List.map_cons, first, inductionHypothesis]
  cases matched with
  | fault => rfl
  | again prints => exact same prints
  | leave prints => exact same prints

/-- A child reads a page that it shares, writes to it, and reads it again. -/
def readWriteRead : List Command :=
  [.alloc 0 ['r', 'w'], .switch 1, .read 0, .write 0, .read 0]

/-- With `-t` the last read is answered by the entry of the first one, for the
frame that the write has left to the parent. -/
theorem tlb_stale :
    ¬ Matches (List.Forall₂ SameOutcome) (fun s s' => s.kernel = s'.kernel)
      (doSimulation true zeroEnv readWriteRead)
      (doSimulation false zeroEnv readWriteRead) := by
  intro matched
  have same := printed_eq matched
  have differ : printed (doSimulation true zeroEnv readWriteRead) ≠
      printed (doSimulation false zeroEnv readWriteRead) := by decide +kernel
  exact differ same

end OsPAs.Vm
