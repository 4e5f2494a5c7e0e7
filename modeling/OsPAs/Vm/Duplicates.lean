/-
Module: OsPAs.Vm.Duplicates
Purpose: How many entries the TLB has for a page.  Insertion looks for the page
  with the same flag, so a page whose flag has changed gets a second entry, and
  the array, which is long enough for one entry a page, can be overrun.
Trusted boundary: none
Main exports: SingleEntries, CallsSafe, Suits, KeepsSingle, callsSafe_iff,
  tlb_single_iff, readThenWrite_duplicates
-/
import OsPAs.Vm.Refusals
import OsPAs.Vm.TlbShape
import OsPAs.Vm.Transparency

namespace OsPAs.Vm

open Lib

variable {env : Env} {s : System} {tlb : List TlbEntry} {vpn rw : Nat}

/-- At most one valid entry for each page. -/
def SingleEntries (tlb : List TlbEntry) : Prop :=
  ((tlb.filter (·.valid)).map (·.vpn)).Nodup

instance (tlb : List TlbEntry) : Decidable (SingleEntries tlb) :=
  inferInstanceAs (Decidable (List.Nodup _))

/-- Each call stays within the array, and leaves at most one valid entry for
each page. -/
def CallsSafe : List TlbCall → List TlbEntry → Prop
  | [], _ => True
  | call :: rest, tlb => call.run tlb ≠ .error .outOfRange ∧
      ∀ tlb', call.run tlb = .ok tlb' → SingleEntries tlb' ∧ CallsSafe rest tlb'

/-! ### The condition -/

/-- No entry answers the access. -/
def Misses (s : System) (vpn rw : Nat) : Prop :=
  ∀ entry ∈ cached s.tlb, ¬ Answers vpn rw entry

/-- An entry for the page, if there is one, has the flag, and else there is room
for one more. -/
structure Suits (s : System) (vpn rw : Nat) : Prop where
  sameFlag : ∀ entry ∈ cached s.tlb, entry.vpn = vpn → entry.rw = rw
  room : HasRoom s vpn rw

/-- If a translation succeeds by a walk, its result suits the TLB. -/
def TranslatesSingly (s : System) (vpn rw : Nat) : Prop :=
  vpn < nrPages → (s.kernel.pte vpn).Allows rw → Misses s vpn rw →
    Suits s vpn (s.kernel.pte vpn).rw

/-- What the command inserts suits the TLB: the PTE that it finds, or the one
that a write fault leaves. -/
def KeepsSingle (c : Command) (s : System) : Prop :=
  match c with
  | .alloc vpn _ => TranslatesSingly s vpn accessRead
  | .free vpn => TranslatesSingly s vpn accessRead
  | .read vpn => TranslatesSingly s vpn accessRead
  | .write vpn => TranslatesSingly s vpn accessWrite ∧
      (vpn < nrPages → Resolves s.kernel vpn → Misses s vpn accessWrite →
        Suits s vpn 0x03)
  | .switch _ => True

/-! ### Calls -/

theorem callsSafe_append {calls more : List TlbCall} :
    CallsSafe (calls ++ more) tlb ↔ CallsSafe calls tlb ∧
      ∀ tlb', runCalls calls tlb = .ok tlb' → CallsSafe more tlb' := by
  induction calls generalizing tlb with
  | nil =>
      refine ⟨fun safe => ⟨trivial, fun tlb' ran => ?_⟩, fun safe =>
        safe.2 tlb rfl⟩
      obtain rfl := Except.ok.inj ran
      exact safe
  | cons call rest inductionHypothesis =>
      rw [List.cons_append]
      simp only [CallsSafe, runCalls_cons]
      cases called : call.run tlb with
      | error fault => simp [bind, Except.bind]
      | ok tlb' =>
          simp only [Except.ok.injEq, forall_eq', inductionHypothesis, bind,
            Except.bind, and_assoc]

theorem singleEntries_iff (contiguous : Contiguous tlb) :
    SingleEntries tlb ↔ ((cached tlb).map (·.vpn)).Nodup := by
  rw [SingleEntries, contiguous.filter_valid]

theorem singleEntries_of_none (none : ∀ entry ∈ tlb, ¬ entry.valid = true) :
    SingleEntries tlb := by
  rw [singleEntries_iff (contiguous_of_none none), cached_of_none none]
  exact List.nodup_nil

/-- Insertion updates an entry for the page with the flag, or appends one. -/
theorem insertEntry_vpns (vpn rw pfn : Nat) (entries : List TlbEntry) :
    (∃ entry ∈ entries, entry.vpn = vpn ∧ entry.rw = rw) ∧
        (insertEntry vpn rw pfn entries).map (·.vpn) =
          entries.map (·.vpn) ∨
      (∀ entry ∈ entries, ¬ (entry.vpn = vpn ∧ entry.rw = rw)) ∧
        (insertEntry vpn rw pfn entries).map (·.vpn) =
          entries.map (·.vpn) ++ [vpn] := by
  induction entries with
  | nil => exact Or.inr ⟨by simp, rfl⟩
  | cons first rest inductionHypothesis =>
      unfold insertEntry
      by_cases same : first.vpn = vpn ∧ first.rw = rw
      · rw [if_pos same]
        exact Or.inl ⟨⟨first, List.mem_cons_self, same⟩, rfl⟩
      · rw [if_neg same]
        rcases inductionHypothesis with ⟨⟨entry, member, found⟩, kept⟩ |
          ⟨absent, appended⟩
        · refine Or.inl ⟨⟨entry, List.mem_cons_of_mem _ member, found⟩, ?_⟩
          rw [List.map_cons, List.map_cons, kept]
        · refine Or.inr ⟨fun entry member => ?_, ?_⟩
          · rcases List.mem_cons.mp member with rfl | later
            · exact same
            · exact absent entry later
          · rw [List.map_cons, List.map_cons, appended, List.cons_append]

/-- Insertion leaves one entry for each page exactly if no entry for the page
has another flag. -/
theorem insertEntry_nodup_iff {entries : List TlbEntry} (pfn : Nat)
    (single : (entries.map (·.vpn)).Nodup) :
    ((insertEntry vpn rw pfn entries).map (·.vpn)).Nodup ↔
      ∀ entry ∈ entries, entry.vpn = vpn → entry.rw = rw := by
  rcases insertEntry_vpns vpn rw pfn entries with ⟨⟨entry, member, isPage, isFlag⟩,
    kept⟩ | ⟨absent, appended⟩
  · rw [kept]
    refine ⟨fun _ other member' isPage' => ?_, fun _ => single⟩
    have same := List.inj_on_of_nodup_map single member' member
      (isPage'.trans isPage.symm)
    rw [same, isFlag]
  · rw [appended, List.nodup_append]
    constructor
    · intro nodup entry member isPage
      exact absurd isPage
        (nodup.2.2 _ (List.mem_map_of_mem member) vpn (List.mem_singleton_self vpn))
    · intro sameFlag
      refine ⟨single, List.nodup_singleton vpn, fun page inEntries other isOther => ?_⟩
      obtain ⟨entry, member, rfl⟩ := List.mem_map.mp inEntries
      rw [List.mem_singleton.mp isOther]
      exact fun isPage => absent entry member ⟨isPage, sameFlag entry member isPage⟩

/-- Insertion has room for what it makes of the entries if it updates one, or
if there is room for one more. -/
theorem insertEntry_length_lt_iff (intact : Intact s.tlb) (pfn : Nat) :
    (insertEntry vpn rw pfn (cached s.tlb)).length < nrTlbEntries ↔
      HasRoom s vpn rw := by
  have room := intact.room
  unfold HasRoom
  rcases insertEntry_vpns vpn rw pfn (cached s.tlb) with ⟨found, kept⟩ |
    ⟨absent, appended⟩
  · have length := congrArg List.length kept
    rw [List.length_map, List.length_map] at length
    rw [length]
    exact iff_of_true room (Or.inl found)
  · have length := congrArg List.length appended
    rw [List.length_append, List.length_map, List.length_map,
      List.length_singleton] at length
    rw [length]
    refine ⟨Or.inr, fun either => ?_⟩
    rcases either with ⟨entry, member, same⟩ | free
    · exact absurd same (absent entry member)
    · exact free

theorem callsSafe_insert_iff (intact : Intact s.tlb)
    (single : SingleEntries s.tlb) (pfn : Nat) :
    CallsSafe [.insert vpn rw pfn] s.tlb ↔ Suits s vpn rw := by
  have nodup := (singleEntries_iff intact.contiguous).mp single
  have fits : _ ↔ HasRoom s vpn rw := insertEntry_length_lt_iff intact pfn
  rw [← intact.length] at fits
  simp only [CallsSafe, TlbCall.run, and_true]
  constructor
  · rintro ⟨inRange, leaves⟩
    have room : (insertEntry vpn rw pfn (cached s.tlb)).length < s.tlb.length := by
      by_contra full
      exact inRange (insertTlb_full intact.space (Nat.le_of_not_lt full))
    obtain ⟨tlb', ran, _, entries⟩ := insertTlb_cached room
    have single' := leaves tlb' ran
    rw [singleEntries_iff (intact.insert vpn rw pfn tlb' ran).contiguous,
      entries] at single'
    exact ⟨(insertEntry_nodup_iff pfn nodup).mp single', fits.mp room⟩
  · rintro ⟨sameFlag, room⟩
    obtain ⟨tlb', ran, _, entries⟩ := insertTlb_cached (fits.mpr room)
    rw [ran]
    refine ⟨by simp, fun tlb'' eq => ?_⟩
    obtain rfl := Except.ok.inj eq
    rw [singleEntries_iff (intact.insert vpn rw pfn tlb' ran).contiguous, entries]
    exact (insertEntry_nodup_iff pfn nodup).mpr sameFlag

theorem callsSafe_lookup_iff (intact : Intact tlb) (single : SingleEntries tlb)
    (rest : List TlbCall) :
    CallsSafe (.lookup vpn rw :: rest) tlb ↔ CallsSafe rest tlb := by
  have found : lookupTlb vpn rw tlb = _ := lookupTlb_eq intact.space
  simp only [CallsSafe, TlbCall.run, found, bind, Except.bind, pure, Except.pure,
    Except.ok.injEq, forall_eq', single, true_and]
  simp

/-- A removal reads no further than the invalid entry behind the valid ones. -/
theorem callsSafe_remove (intact : Intact tlb) (single : SingleEntries tlb)
    (vpn : Nat) : CallsSafe [.remove vpn] tlb := by
  have nodup := (singleEntries_iff intact.contiguous).mp single
  simp only [CallsSafe, TlbCall.run, and_true]
  constructor
  · cases entries : cached tlb with
    | nil =>
        rw [removeTlb_empty entries intact.space]
        simp
    | cons entry rest =>
        by_cases isPage : entry.vpn = vpn
        · obtain ⟨tlb', ran, _⟩ := removeTlb_first entries isPage intact.space
          rw [ran]
          simp
        · rw [removeTlb_endless entries isPage]
          simp
  · intro tlb' ran
    obtain ⟨_, entries, _⟩ := removeTlb_ok intact.space ran
    rw [singleEntries_iff (intact.remove vpn tlb' ran).contiguous, entries,
      List.map_tail]
    exact nodup.tail

theorem callsSafe_flush (intact : Intact tlb) : CallsSafe [.flush] tlb := by
  obtain ⟨tlb', ran, _⟩ := flushTlb_cached intact.space
  simp only [CallsSafe, TlbCall.run, and_true, ran]
  refine ⟨by simp, fun tlb'' eq => ?_⟩
  obtain rfl := Except.ok.inj eq
  exact singleEntries_of_none (flushTlb_ok intact.contiguous ran).2

theorem runCalls_intact {calls : List TlbCall} {tlb' : List TlbEntry}
    (intact : Intact tlb) (ran : runCalls calls tlb = .ok tlb') : Intact tlb' :=
  ensures_foldlM Intact (fun tlb call => intact_call call tlb) calls intact tlb' ran

theorem CallsSafe.single {calls : List TlbCall} {tlb' : List TlbEntry}
    (safe : CallsSafe calls tlb) (single : SingleEntries tlb)
    (ran : runCalls calls tlb = .ok tlb') : SingleEntries tlb' := by
  induction calls generalizing tlb with
  | nil => exact Except.ok.inj ran ▸ single
  | cons call rest inductionHypothesis =>
      rw [runCalls_cons] at ran
      cases called : call.run tlb with
      | error fault => simp [called, bind, Except.bind] at ran
      | ok tlb₁ =>
          obtain ⟨single₁, safe₁⟩ := safe.2 tlb₁ called
          rw [called] at ran
          exact inductionHypothesis safe₁ single₁ ran

/-! ### Translations -/

theorem lookupTlb_eq_none (intact : Intact s.tlb) :
    lookupTlb vpn rw s.tlb = .ok none ↔ Misses s vpn rw := by
  rw [lookupTlb_eq intact.space, Except.ok.injEq, Option.map_eq_none_iff,
    List.find?_eq_none]
  simp [Misses]

/-- The walk grants what the PTE allows. -/
theorem walk_of_allows (inside : vpn < nrPages)
    (allows : (s.kernel.pte vpn).Allows rw) :
    walk rw vpn s.kernel.current = .ok (some (s.kernel.pte vpn)) := by
  obtain ⟨pd, isDir⟩ := Process.dir_of_valid allows.1
  rw [walk_of_lt rw inside (by simp [isDir]), if_pos allows]

/-- A translation that finds nothing misses in the TLB and in the page table,
and changes nothing. -/
theorem translate_none {s' : System}
    (translated : translate true rw vpn s = .ok (none, s')) :
    lookupTlb vpn rw s.tlb = .ok none ∧
      walk rw vpn s.kernel.current = .ok none ∧ s' = s := by
  simp only [translate, if_true, bind, Except.bind] at translated
  cases found : lookupTlb vpn rw s.tlb with
  | error fault => simp [found] at translated
  | ok hit =>
      cases hit with
      | some pfn => simp [found, pure, Except.pure] at translated
      | none =>
          simp only [found] at translated
          cases walked : walk rw vpn s.kernel.current with
          | error fault => simp [walked] at translated
          | ok result =>
              cases result with
              | none =>
                  simp only [walked, pure, Except.pure, Except.ok.injEq,
                    Prod.mk.injEq, true_and] at translated
                  exact ⟨rfl, rfl, translated.symm⟩
              | some pte =>
                  simp only [walked] at translated
                  cases ran : insertTlb vpn pte.rw pte.pfn s.tlb with
                  | error fault => simp [ran] at translated
                  | ok tlb => simp [ran, pure, Except.pure] at translated

theorem translate_of_none (missed : lookupTlb vpn rw s.tlb = .ok none)
    (walked : walk rw vpn s.kernel.current = .ok none) :
    translate true rw vpn s = .ok (none, s) := by
  simp [translate, missed, walked, bind, Except.bind, pure, Except.pure]

theorem callsSafe_translate_iff (intact : Intact s.tlb)
    (single : SingleEntries s.tlb) :
    CallsSafe (translateCalls rw vpn s) s.tlb ↔ TranslatesSingly s vpn rw := by
  rw [translateCalls, callsSafe_lookup_iff intact single]
  have missed : _ ↔ Misses s vpn rw := lookupTlb_eq_none intact
  cases found : lookupTlb vpn rw s.tlb with
  | error fault =>
      rw [lookupTlb_eq intact.space] at found
      simp at found
  | ok hit =>
      cases hit with
      | some pfn =>
          refine iff_of_true trivial fun _ _ misses => ?_
          rw [missed.mpr misses] at found
          simp at found
      | none =>
          have misses := missed.mp found
          cases walked : walk rw vpn s.kernel.current with
          | error fault =>
              refine iff_of_true trivial fun inside allows _ => ?_
              rw [walk_of_allows inside allows] at walked
              simp at walked
          | ok result =>
              cases result with
              | none =>
                  refine iff_of_true trivial fun inside allows _ => ?_
                  rw [walk_of_allows inside allows] at walked
                  simp at walked
              | some pte =>
                  obtain ⟨inside, rfl, allows⟩ := walk_some walked
                  refine (callsSafe_insert_iff intact single _).trans ?_
                  exact ⟨fun suits _ _ _ => suits,
                    fun singly => singly inside allows misses⟩

/-! ### Accesses -/

/-- What comes after a translation in `__access_memory` is safe unless a page
fault is served. -/
theorem callsSafe_access_iff (intact : Intact s.tlb)
    (single : SingleEntries s.tlb) (tries : Nat) :
    CallsSafe (accessCalls env vpn rw (tries + 1) s) s.tlb ↔
      TranslatesSingly s vpn rw ∧ ∀ k',
        translate true rw vpn s = .ok (none, s) →
        handlePageFault env vpn rw s.kernel = .ok (true, k') →
        CallsSafe (accessCalls env vpn rw tries { s with kernel := k' })
          s.tlb := by
  rw [accessCalls, callsSafe_append, callsSafe_translate_iff intact single]
  refine and_congr_right fun singly => ?_
  have safe := (callsSafe_translate_iff intact single).mpr singly
  have traced := translate_traces rw vpn s
  cases translated : translate true rw vpn s with
  | error fault => exact iff_of_true (fun _ _ => trivial) (by simp)
  | ok result =>
      obtain ⟨found, s'⟩ := result
      have ran := traced.result _ translated
      rw [ran]
      simp only [Except.ok.injEq, forall_eq', onward]
      cases found with
      | some translation => exact iff_of_true trivial (by simp)
      | none =>
          obtain ⟨_, _, rfl⟩ := translate_none translated
          simp only [onKernel, true_implies]
          cases served : handlePageFault env vpn rw s'.kernel with
          | error fault => exact iff_of_true trivial (by simp)
          | ok result =>
              obtain ⟨ret, k'⟩ := result
              cases ret with
              | false => exact iff_of_true trivial (by simp)
              | true => simp [bind, Except.bind, pure, Except.pure]

theorem callsSafe_read_iff (intact : Intact s.tlb)
    (single : SingleEntries s.tlb) (inside : vpn < nrPages) :
    CallsSafe (accessCalls env vpn accessRead 2 s) s.tlb ↔
      TranslatesSingly s vpn accessRead := by
  rw [callsSafe_access_iff intact single]
  refine and_iff_left fun k' _ served => ?_
  rw [handlePageFault_read inside] at served
  simp at served

/-- A write fault that can be resolved is served, and the PTE allows the write
then. -/
theorem Resolves.handled {k : Kernel} (resolves : Resolves k vpn) :
    ∃ k', Handled k vpn true k' ∧ (k'.pte vpn).Allows accessWrite := by
  obtain ⟨⟨⟨pd, isDir⟩, _, notRead⟩, mapped⟩ := resolves
  obtain ⟨pfnum, isFrame, counted⟩ : CountedFrom k vpn 1 := by
    rcases mapped with ⟨_, counted⟩ | ⟨⟨pfnum, isFrame, shared⟩, _⟩
    · exact counted
    · exact ⟨pfnum, isFrame, by omega⟩
  have isFrame' := isFrame
  rw [Kernel.pte_of_dir isDir] at isFrame'
  obtain ⟨ret, k', handled⟩ := exists_handled isDir (by
    rw [isFrame']
    exact pfnum.isLt)
  have served := handled.ret_iff notRead isFrame
  cases ret with
  | false => exact absurd (served.mp rfl) (by omega)
  | true =>
      refine ⟨k', handled, ?_⟩
      rcases mapped with ⟨valid, _⟩ | ⟨⟨pfnum', isFrame'', shared⟩, other⟩
      · exact handled.allows valid
      · -- with a free frame a shared one is copied
        cases handled with
        | alone isDir' notRead' names one =>
            rw [Kernel.pte_of_dir isDir', names] at isFrame''
            obtain rfl := Fin.ext isFrame''
            omega
        | copied =>
            refine allows_of_rw ?_ ?_ accessWrite
            · rw [storePte_pte]
            · rw [storePte_pte]
        | exhausted _ _ _ shared' full =>
            exact absurd ((freeFrame_dropShare shared').mp full) other

theorem callsSafe_write_iff (intact : Intact s.tlb)
    (single : SingleEntries s.tlb) (inside : vpn < nrPages) :
    CallsSafe (accessCalls env vpn accessWrite 2 s) s.tlb ↔
      TranslatesSingly s vpn accessWrite ∧
        (Resolves s.kernel vpn → Misses s vpn accessWrite →
          Suits s vpn 0x03) := by
  rw [callsSafe_access_iff intact single]
  refine and_congr_right fun _ => ?_
  have again (k' : Kernel) :=
    @callsSafe_access_iff env { s with kernel := k' } vpn accessWrite intact
      single 0
  constructor
  · intro safe resolves misses
    obtain ⟨k', handled, allows⟩ := resolves.handled
    obtain ⟨pd, isDir⟩ := resolves.dir
    have walked := walk_of_lt accessWrite inside
      (show s.kernel.current.outerPtes (slotOf vpn).1 ≠ .wild by simp [isDir])
    rw [if_neg resolves.denied] at walked
    have missed := (lookupTlb_eq_none intact).mpr misses
    have safe' := safe k' (translate_of_none missed walked)
      (handlePageFault_of_handled inside handled)
    have suits := ((again k').mp safe').1 inside allows misses
    rw [show (k'.pte vpn).rw = 0x03 from handled.rw_eq] at suits
    exact ⟨suits.sameFlag, suits.room⟩
  · intro suits k' translated served
    obtain ⟨missed, walked, _⟩ := translate_none translated
    have denied := (walk_none walked).2
    have handled := handled_of_handlePageFault inside served
    refine (again k').mpr ⟨fun _ allows misses => ?_, fun _ _ _ => trivial⟩
    have here := suits (handled.resolves denied allows) misses
    change Suits _ vpn (k'.pte vpn).rw
    rw [handled.rw_eq]
    exact ⟨here.sameFlag, here.room⟩

/-! ### Runs -/

/-- The calls of a command stay within the array and leave at most one entry for
each page exactly if what the command inserts suits the TLB. -/
theorem callsSafe_iff (env : Env) (c : Command) (intact : Intact s.tlb)
    (single : SingleEntries s.tlb) :
    CallsSafe (tlbCalls env c s) s.tlb ↔ KeepsSingle c s := by
  cases c with
  | alloc vpn rw => exact callsSafe_translate_iff intact single
  | free vpn =>
      rw [tlbCalls, callsSafe_append, callsSafe_translate_iff intact single]
      refine and_iff_left_of_imp fun singly tlb' ran => ?_
      have safe := (callsSafe_translate_iff intact single).mpr singly
      have intact' := runCalls_intact intact ran
      have single' := safe.single single ran
      cases translate true accessRead vpn s with
      | error fault => trivial
      | ok result =>
          obtain ⟨found, s'⟩ := result
          cases found with
          | none => trivial
          | some translation =>
              simp only [onward]
              cases clearPte vpn s'.kernel with
              | error fault => trivial
              | ok k' => exact callsSafe_remove intact' single' vpn
  | read vpn =>
      rw [tlbCalls]
      by_cases inside : vpn < nrPages
      · rw [if_pos inside]
        exact callsSafe_read_iff intact single inside
      · rw [if_neg inside]
        exact iff_of_true trivial fun isInside => absurd isInside inside
  | write vpn =>
      rw [tlbCalls]
      by_cases inside : vpn < nrPages
      · rw [if_pos inside]
        refine (callsSafe_write_iff intact single inside).trans ?_
        exact and_congr_right fun _ => ⟨fun suits _ => suits,
          fun suits => suits inside⟩
      · rw [if_neg inside]
        exact iff_of_true trivial ⟨fun isInside => absurd isInside inside,
          fun isInside => absurd isInside inside⟩
  | switch pid =>
      refine iff_of_true ?_ trivial
      rw [tlbCalls]
      cases switchKernel env pid s.kernel with
      | error fault => trivial
      | ok k' => exact callsSafe_flush intact

theorem singleEntries_init : SingleEntries init.tlb :=
  singleEntries_of_none fun entry member => by
    rw [List.eq_of_mem_replicate member]
    simp [zeroTlbEntry]

/-- In a run with `-t` every state has at most one valid entry for each page, and
every call of a TLB function stays within the array and leaves it so, exactly if
what every command inserts suits the TLB: an entry for the page, if there is one,
has the same flag, and else there is room for one more and for the invalid entry
behind it. -/
theorem tlb_single_iff (env : Env) (workload : List Command) :
    ((∀ s, Reaches (execute true env) workload init s → SingleEntries s.tlb) ∧
      Along (execute true env)
        (fun c s => CallsSafe (tlbCalls env c s) s.tlb) workload init) ↔
      Along (execute true env) KeepsSingle workload init := by
  constructor
  · rintro ⟨single, safe⟩
    have both (s : System) (reached : Reaches (execute true env) workload init s) :
        Intact s.tlb ∧ SingleEntries s.tlb :=
      ⟨reached_intact reached, single s reached⟩
    exact safe.of_reaches
      (fun c s both safe => (callsSafe_iff env c both.1 both.2).mp safe) both
  · intro keeps
    have both (s : System) (reached : Reaches (execute true env) workload init s) :
        Intact s.tlb ∧ SingleEntries s.tlb := by
      refine reaches_invariant
        (fun s : System => Intact s.tlb ∧ SingleEntries s.tlb)
        (fun c s out pass both keeps ran => ?_)
        ⟨intact_init, singleEntries_init⟩ keeps reached
      have called := (execute_traces env c s).result _ ran
      have safe := (callsSafe_iff env c both.1 both.2).mpr keeps
      exact ⟨runCalls_intact both.1 called, safe.single both.2 called⟩
    exact ⟨fun s reached => (both s reached).2, keeps.of_reaches
      (fun c s both keeps => (callsSafe_iff env c both.1 both.2).mpr keeps) both⟩

/-- A child reads a page that it shares and then writes to it. -/
def readThenWrite : List Command :=
  [.alloc 0 ['r', 'w'], .switch 1, .read 0, .write 0]

/-- It has two entries for the page then, one for reading and one for the flag
that the page fault has left. -/
theorem readThenWrite_duplicates :
    ∃ s, Reaches (execute true zeroEnv) readThenWrite init s ∧
      (cached s.tlb).map (fun entry => (entry.vpn, entry.rw)) =
        [(0, 0x01), (0, 0x03)] ∧
      ¬ SingleEntries s.tlb :=
  exists_of_endsWith (execute true zeroEnv) readThenWrite init
    (fun s => (cached s.tlb).map (fun entry => (entry.vpn, entry.rw)) =
      [(0, 0x01), (0, 0x03)] ∧ ¬ SingleEntries s.tlb) (by decide +kernel)

end OsPAs.Vm
