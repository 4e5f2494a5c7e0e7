/-
Module: OsPAs.Vm.Dumps
Purpose: What the simulator prints on stderr: the line of a command, and the
  dumps of `show`, `frames` and `tlb`.  What do the dumps tell?
Trusted boundary: none
Main exports: Outcome.text, showPageframes, showPagetable, showTlb, dumps,
  Shown, dumps_eq_iff, dumps_tell
-/
import OsPAs.Lib.Lines
import OsPAs.Lib.Numerals
import OsPAs.Vm.Mmu

namespace OsPAs.Vm

open Lib

/-- `'\n'`. -/
def newline : Char := Char.ofNat 10

/-! ### Messages -/

/-- The text of a command; with `-t` it begins with what the TLB did. -/
def Outcome.text (t : Bool) : Outcome → List Char
  | .translated fromTlb vpn pfn =>
      (if t then (if fromTlb then "o |".toList else "x |".toList) else []) ++
        space :: padLeft 3 (decimal vpn) ++ " --> ".toList ++
        padRight 3 (decimal pfn) ++ [newline]
  | .unable vpn => "Unable to access ".toList ++ decimal vpn ++ [newline]
  | .silent _ => []
  | .allocated vpn pfn =>
      "alloc ".toList ++ padLeft 3 (decimal vpn) ++ " --> ".toList ++
        padRight 3 (decimal pfn) ++ [newline]
  | .alreadyAllocated vpn pfn =>
      decimal vpn ++ " is already allocated to ".toList ++ decimal pfn ++
        [newline]
  | .memoryFull => "memory is full".toList ++ [newline]
  | .freed vpn pfn =>
      "free ".toList ++ decimal vpn ++ " (pfn ".toList ++ decimal pfn ++
        ")".toList ++ [newline]
  | .notAllocated vpn => decimal vpn ++ " is not allocated".toList ++ [newline]
  | .switched _ => []

/-! ### Dumps -/

/-- The character of a flag, or a blank. -/
def flag (ch : Char) (set : Bool) : Char := if set then ch else space

/-- `%02d` of an index. -/
def twoDigits (index : Fin nrPtesPerPage) : List Char :=
  let text := decimal index
  List.replicate (2 - text.length) '0' ++ text

/-- The line of a page frame in `__show_pageframes`. -/
def frameLine (pfnum : Fin nrPageframes) (count : Nat) : List Char :=
  padLeft 3 (decimal pfnum) ++ ':' :: space :: signedDecimal (asInt count)

/-- `__show_pageframes`. -/
def showPageframes (mapcounts : Mapcounts) : List Char :=
  let mapped := (List.finRange nrPageframes).filter fun pfnum =>
    mapcounts pfnum ≠ 0
  terminated newline
    ((mapped.map fun pfnum => frameLine pfnum (mapcounts pfnum)) ++ [[]])

/-- `" | "`. -/
def bar : List Char := [space, '|', space]

/-- The line of a PTE in `__show_pagetable`. -/
def pteLine (i j : Fin nrPtesPerPage) (pte : Pte) : List Char :=
  twoDigits i ++ ':' :: twoDigits j ++ bar ++
    [flag 'v' pte.valid, space,
      flag 'r' (pte.valid && pte.rw &&& accessRead ≠ 0),
      flag 'w' (pte.rw &&& accessWrite ≠ 0)] ++
    bar ++ padRight 3 (signedDecimal (asInt pte.pfn))

/-- The lines of a directory in `__show_pagetable`. -/
def directoryLines (verbose : Bool) (i : Fin nrPtesPerPage) :
    Outer → Except Fault (List (List Char))
  | .null => .ok []
  | .wild => .error .wildPointer
  | .dir pd =>
      let shown := (List.finRange nrPtesPerPage).filter fun j =>
        verbose || (pd j).valid
      .ok (shown.map fun j => pteLine i j (pd j))

/-- `"***"`. -/
def stars : List Char := ['*', '*', '*']

/-- `__show_pagetable`, without the empty lines that go to stdout. -/
def showPagetable (verbose : Bool) (current : Process) :
    Except Fault (List Char) := do
  let lines ← (List.finRange nrPtesPerPage).mapM fun i =>
    directoryLines verbose i (current.outerPtes i)
  let title := stars ++ [space, 'P', 'I', 'D', space] ++ decimal current.pid ++
    space :: stars
  return terminated newline ([] :: title :: lines.flatten)

/-- The line of an entry in `__show_tlb`. -/
def entryLine (entry : TlbEntry) : List Char :=
  [flag 'r' (entry.rw &&& accessRead ≠ 0),
    flag 'w' (entry.rw &&& accessWrite ≠ 0)] ++
    bar ++ padLeft 3 (signedDecimal (asInt entry.vpn)) ++ " -> ".toList ++
    padRight 3 (signedDecimal (asInt entry.pfn))

/-- `__show_tlb`. -/
def showTlb (tlb : List TlbEntry) : List Char :=
  terminated newline ((tlb.filter (·.valid)).map entryLine)

/-- What `show`, `frames` and `tlb` print for a workload file, for which
`verbose` is off. -/
def dumps (s : System) : Except Fault (List Char × List Char × List Char) := do
  let table ← showPagetable false s.kernel.current
  return (table, showPageframes s.kernel.mapcounts, showTlb s.tlb)

/-! ### What is shown -/

/-- What `show` tells about a PTE: nothing of an invalid one, else whether it
lets read and write, and its frame. -/
def shownPte (pte : Pte) : Option (Bool × Bool × Nat) :=
  if pte.valid then
    some (decide (pte.rw &&& accessRead ≠ 0),
      decide (pte.rw &&& accessWrite ≠ 0), pte.pfn)
  else none

/-- The same behind the page table. -/
def shownAt (p : Process) (i j : Fin nrPtesPerPage) : Option (Bool × Bool × Nat) :=
  match p.outerPtes i with
  | .dir pd => shownPte (pd j)
  | _ => none

/-- What `tlb` tells about an entry. -/
def shownEntry (entry : TlbEntry) : Bool × Bool × Nat × Nat :=
  (decide (entry.rw &&& accessRead ≠ 0), decide (entry.rw &&& accessWrite ≠ 0),
    entry.vpn, entry.pfn)

/-- What the dumps tell about two states is the same: the process that runs, its
valid PTEs, all map counts, and the valid entries of the TLB in their order. -/
structure Shown (s s' : System) : Prop where
  pid : s.kernel.current.pid = s'.kernel.current.pid
  ptes : ∀ i j, shownAt s.kernel.current i j = shownAt s'.kernel.current i j
  mapcounts : s.kernel.mapcounts = s'.kernel.mapcounts
  entries : (s.tlb.filter (·.valid)).map shownEntry =
    (s'.tlb.filter (·.valid)).map shownEntry

/-- The numbers that are printed are values of an `unsigned int`. -/
structure UnsignedInts (s : System) : Prop where
  pfn : ∀ i pd j, s.kernel.current.outerPtes i = .dir pd → (pd j).pfn < 2 ^ 32
  count : ∀ pfnum, s.kernel.mapcounts pfnum < 2 ^ 32
  entry : ∀ entry ∈ s.tlb, entry.vpn < 2 ^ 32 ∧ entry.pfn < 2 ^ 32

/-! ### Lines -/

section Lines

variable {i i' j j' : Fin nrPtesPerPage} {count count' : Nat}

theorem asInt_injective {value value' : Nat} (small : value < 2 ^ 32)
    (small' : value' < 2 ^ 32) (same : asInt value = asInt value') :
    value = value' := by
  unfold asInt at same
  split at same <;> split at same <;> omega

/-- Blanks and the line feed are in no number. -/
theorem solid_signedDecimal (value : Int) :
    space ∉ signedDecimal value ∧ newline ∉ signedDecimal value :=
  ⟨not_mem_signedDecimal (by decide) (by decide),
    not_mem_signedDecimal (by decide) (by decide)⟩

theorem solid_decimal (value : Nat) :
    space ∉ decimal value ∧ ':' ∉ decimal value ∧ newline ∉ decimal value :=
  ⟨fun member => absurd (isDigit_of_mem_decimal member) (by decide),
    fun member => absurd (isDigit_of_mem_decimal member) (by decide),
    fun member => absurd (isDigit_of_mem_decimal member) (by decide)⟩

theorem of_mem_padLeft {width : Nat} {text : List Char} {ch : Char}
    (member : ch ∈ padLeft width text) : ch = space ∨ ch ∈ text :=
  (List.mem_append.mp member).imp List.eq_of_mem_replicate id

theorem of_mem_padRight {width : Nat} {text : List Char} {ch : Char}
    (member : ch ∈ padRight width text) : ch = space ∨ ch ∈ text :=
  ((List.mem_append.mp member).imp id List.eq_of_mem_replicate).symm

theorem twoDigits_length : (twoDigits i).length = 2 := by
  revert i
  decide

theorem twoDigits_injective (same : twoDigits i = twoDigits j) : i = j := by
  revert i j
  decide

theorem flag_injective {ch : Char} (notSpace : ch ≠ space) {set set' : Bool}
    (same : flag ch set = flag ch set') : set = set' := by
  cases set <;> cases set'
  · rfl
  · exact absurd same.symm notSpace
  · exact absurd same notSpace
  · rfl

theorem flag_clean {ch : Char} (other : ch ≠ newline) (set : Bool) :
    newline ≠ flag ch set := by
  cases set
  · exact show newline ≠ space by decide
  · exact other.symm

/-- Padding adds blanks only. -/
theorem not_mem_padLeft {ch : Char} (notSpace : ch ≠ space) {width : Nat}
    {text : List Char} (absent : ch ∉ text) : ch ∉ padLeft width text :=
  fun member => (of_mem_padLeft member).elim notSpace absent

theorem not_mem_padRight {ch : Char} (notSpace : ch ≠ space) {width : Nat}
    {text : List Char} (absent : ch ∉ text) : ch ∉ padRight width text :=
  fun member => (of_mem_padRight member).elim notSpace absent

theorem padRight_signed_injective {width value value' : Nat}
    (small : value < 2 ^ 32) (small' : value' < 2 ^ 32)
    (same : padRight width (signedDecimal (asInt value)) =
      padRight width (signedDecimal (asInt value'))) : value = value' :=
  asInt_injective small small' (signedDecimal_injective
    (padRight_injective (solid_signedDecimal _).1 (solid_signedDecimal _).1 same))

/-- The line of a frame tells the frame and its count. -/
theorem frameLine_injective {pfnum pfnum' : Fin nrPageframes}
    (small : count < 2 ^ 32) (small' : count' < 2 ^ 32)
    (same : frameLine pfnum count = frameLine pfnum' count') :
    pfnum = pfnum' ∧ count = count' := by
  have noColon (pfnum : Fin nrPageframes) : ':' ∉ padLeft 3 (decimal pfnum) :=
    not_mem_padLeft (by decide) (solid_decimal _).2.1
  have front (pfnum : Fin nrPageframes) (count : Nat) :
      (frameLine pfnum count).takeWhile (fun ch => ch ≠ ':') =
        padLeft 3 (decimal pfnum) := by
    rw [frameLine, takeWhile_line (noColon pfnum)]
    simp
  have sameFront := congrArg (List.takeWhile fun ch => ch ≠ ':') same
  rw [front, front] at sameFront
  have samePfnum := decimal_injective
    (padLeft_injective (solid_decimal _).1 (solid_decimal _).1 sameFront)
  obtain rfl := Fin.ext samePfnum
  rw [frameLine, frameLine] at same
  have rest := (List.cons.inj (List.cons.inj (List.append_cancel_left same)).2).2
  exact ⟨rfl, asInt_injective small small' (signedDecimal_injective rest)⟩

/-- The line of a valid PTE. -/
def shownLine (i j : Fin nrPtesPerPage) (shown : Bool × Bool × Nat) : List Char :=
  twoDigits i ++ (':' :: (twoDigits j ++ (bar ++ ('v' :: space ::
    flag 'r' shown.1 :: flag 'w' shown.2.1 ::
      (bar ++ padRight 3 (signedDecimal (asInt shown.2.2)))))))

theorem pteLine_of_shown {pte : Pte} {shown : Bool × Bool × Nat}
    (isShown : shownPte pte = some shown) : pteLine i j pte = shownLine i j shown := by
  unfold shownPte at isShown
  split at isShown
  · rename_i valid
    obtain rfl := Option.some.inj isShown
    simp [pteLine, shownLine, valid, flag]
  · simp at isShown

/-- It tells the indices of the PTE, its flags and its frame. -/
theorem shownLine_injective {shown shown' : Bool × Bool × Nat}
    (small : shown.2.2 < 2 ^ 32) (small' : shown'.2.2 < 2 ^ 32)
    (same : shownLine i j shown = shownLine i' j' shown') :
    i = i' ∧ j = j' ∧ shown = shown' := by
  obtain ⟨sameI, rest⟩ := List.append_inj same
    (twoDigits_length.trans twoDigits_length.symm)
  obtain ⟨sameJ, rest⟩ := List.append_inj (List.cons.inj rest).2
    (twoDigits_length.trans twoDigits_length.symm)
  have flags := (List.cons.inj (List.cons.inj (List.append_cancel_left rest)).2).2
  obtain ⟨sameR, rest⟩ := List.cons.inj flags
  obtain ⟨sameW, rest⟩ := List.cons.inj rest
  refine ⟨twoDigits_injective sameI, twoDigits_injective sameJ, Prod.ext
    (flag_injective (by decide) sameR) (Prod.ext
      (flag_injective (by decide) sameW) ?_)⟩
  exact padRight_signed_injective small small' (List.append_cancel_left rest)

/-- The line of a TLB entry tells what is shown of it. -/
theorem entryLine_injective {entry entry' : TlbEntry}
    (small : entry.vpn < 2 ^ 32 ∧ entry.pfn < 2 ^ 32)
    (small' : entry'.vpn < 2 ^ 32 ∧ entry'.pfn < 2 ^ 32)
    (same : entryLine entry = entryLine entry') :
    shownEntry entry = shownEntry entry' := by
  let vpnText (entry : TlbEntry) := padLeft 3 (signedDecimal (asInt entry.vpn))
  let pfnText (entry : TlbEntry) := padRight 3 (signedDecimal (asInt entry.pfn))
  have line (entry : TlbEntry) : entryLine entry =
      flag 'r' (entry.rw &&& accessRead ≠ 0) ::
        flag 'w' (entry.rw &&& accessWrite ≠ 0) ::
          (bar ++ ((vpnText entry ++ [space, '-']) ++ '>' :: space ::
            pfnText entry)) := by
    simp [entryLine, vpnText, pfnText, space]
  rw [line, line] at same
  obtain ⟨sameR, rest⟩ := List.cons.inj same
  obtain ⟨sameW, rest⟩ := List.cons.inj rest
  have behind := List.append_cancel_left rest
  -- nothing in front of the arrow is its head
  have noArrow (entry : TlbEntry) : '>' ∉ vpnText entry ++ [space, '-'] := by
    intro member
    rcases List.mem_append.mp member with inNumber | isEnd
    · exact not_mem_padLeft (by decide)
        (not_mem_signedDecimal (by decide) (by decide)) inNumber
    · revert isEnd
      decide
  have front (entry : TlbEntry) :
      ((vpnText entry ++ [space, '-']) ++ '>' :: space ::
        pfnText entry).takeWhile (fun ch => ch ≠ '>') =
          vpnText entry ++ [space, '-'] := by
    rw [takeWhile_line (noArrow entry)]
    simp
  have fronts := congrArg (List.takeWhile fun ch => ch ≠ '>') behind
  rw [front, front] at fronts
  have sameVpn := padLeft_injective (solid_signedDecimal _).1
    (solid_signedDecimal _).1 (List.append_cancel_right fronts)
  rw [fronts] at behind
  have samePfn :=
    (List.cons.inj (List.cons.inj (List.append_cancel_left behind)).2).2
  refine Prod.ext (flag_injective (by decide) sameR) (Prod.ext
    (flag_injective (by decide) sameW) (Prod.ext ?_ ?_))
  · exact asInt_injective small.1 small'.1 (signedDecimal_injective sameVpn)
  · exact padRight_signed_injective small.2 small'.2 samePfn

end Lines

/-! ### Dumps -/

section Dumps

variable {p q : Process} {s s' : System}

/-- No line contains the line feed. -/
theorem frameLine_clean (pfnum : Fin nrPageframes) (count : Nat) :
    newline ∉ frameLine pfnum count := by
  intro member
  rcases List.mem_append.mp member with inFront | behind
  · exact not_mem_padLeft (by decide) (solid_decimal _).2.2 inFront
  · rcases List.mem_cons.mp behind with isColon | behind
    · exact absurd isColon (by decide)
    rcases List.mem_cons.mp behind with isSpace | inNumber
    · exact absurd isSpace (by decide)
    · exact (solid_signedDecimal _).2 inNumber

/-- `frames` tells all map counts. -/
theorem showPageframes_injective {m m' : Mapcounts}
    (small : ∀ pfnum, m pfnum < 2 ^ 32) (small' : ∀ pfnum, m' pfnum < 2 ^ 32)
    (same : showPageframes m = showPageframes m') : m = m' := by
  let lines (m : Mapcounts) := ((List.finRange nrPageframes).filter fun pfnum =>
    m pfnum ≠ 0).map fun pfnum => frameLine pfnum (m pfnum)
  have clean (m : Mapcounts) : ∀ line ∈ lines m ++ [[]], newline ∉ line := by
    intro line member
    rcases List.mem_append.mp member with isLine | isEmpty
    · obtain ⟨pfnum, _, rfl⟩ := List.mem_map.mp isLine
      exact frameLine_clean _ _
    · rw [List.mem_singleton.mp isEmpty]
      exact List.not_mem_nil
  have sameLines : lines m = lines m' :=
    List.append_cancel_right (terminated_injective (clean m) (clean m') same)
  have told {m m' : Mapcounts} (small : ∀ pfnum, m pfnum < 2 ^ 32)
      (small' : ∀ pfnum, m' pfnum < 2 ^ 32) (same : lines m = lines m')
      {pfnum : Fin nrPageframes} (mapped : m pfnum ≠ 0) :
      m pfnum = m' pfnum := by
    have isLine : frameLine pfnum (m pfnum) ∈ lines m' := by
      rw [← same]
      exact List.mem_map.mpr ⟨pfnum, List.mem_filter.mpr
        ⟨List.mem_finRange pfnum, by simpa using mapped⟩, rfl⟩
    obtain ⟨other, _, line⟩ := List.mem_map.mp isLine
    obtain ⟨rfl, count⟩ := frameLine_injective (small' other) (small pfnum) line
    exact count.symm
  funext pfnum
  by_cases mapped : m pfnum = 0
  · by_contra differ
    have mapped' : m' pfnum ≠ 0 := fun free => differ (mapped.trans free.symm)
    exact differ (told small' small sameLines.symm mapped').symm
  · exact told small small' sameLines mapped

/-- A loop that collects what its passes return. -/
theorem mapM_ok_eq {α β ε : Type} {f : α → Except ε β} {g : α → β}
    (each : ∀ a b, f a = .ok b → b = g a) {list : List α} {out : List β}
    (ran : list.mapM f = .ok out) : out = list.map g := by
  induction list generalizing out with
  | nil =>
      rw [List.mapM_nil] at ran
      exact (Except.ok.inj ran).symm
  | cons a list inductionHypothesis =>
      rw [List.mapM_cons] at ran
      cases first : f a with
      | error fault => simp [first, bind, Except.bind] at ran
      | ok b =>
          cases rest : list.mapM f with
          | error fault => simp [first, rest, bind, Except.bind] at ran
          | ok bs =>
              rw [first, rest] at ran
              obtain rfl := Except.ok.inj ran
              rw [List.map_cons, each a b first, inductionHypothesis rest]

/-- The lines of the valid PTEs of a directory. -/
def shownLines (p : Process) (i : Fin nrPtesPerPage) : List (List Char) :=
  (List.finRange nrPtesPerPage).filterMap fun j =>
    (shownAt p i j).map (shownLine i j)

theorem directoryLines_ok {i : Fin nrPtesPerPage} {lines : List (List Char)}
    (listed : directoryLines false i (p.outerPtes i) = .ok lines) :
    lines = shownLines p i := by
  unfold shownLines shownAt
  cases outerEq : p.outerPtes i with
  | null =>
      rw [outerEq] at listed
      obtain rfl := Except.ok.inj listed
      simp
  | wild => simp [outerEq, directoryLines] at listed
  | dir pd =>
      rw [outerEq] at listed
      obtain rfl := Except.ok.inj listed
      rw [← List.filterMap_eq_map, List.filterMap_filter]
      refine List.filterMap_congr fun j _ => ?_
      dsimp only
      cases isShown : shownPte (pd j) with
      | none =>
          have invalid : (pd j).valid = false := by
            by_contra valid
            simp [shownPte, valid] at isShown
          simp [invalid]
      | some shown =>
          have valid : (pd j).valid = true := by
            by_contra invalid
            simp [shownPte, invalid] at isShown
          simp [valid, pteLine_of_shown isShown]

/-- The line with the pid. -/
def titleLine (p : Process) : List Char :=
  stars ++ [space, 'P', 'I', 'D', space] ++ decimal p.pid ++ space :: stars

theorem showPagetable_ok {text : List Char}
    (shown : showPagetable false p = .ok text) :
    text = terminated newline ([] :: titleLine p ::
      (List.finRange nrPtesPerPage).flatMap (shownLines p)) := by
  unfold showPagetable at shown
  cases listed : (List.finRange nrPtesPerPage).mapM fun i =>
      directoryLines false i (p.outerPtes i) with
  | error fault => simp [listed, bind, Except.bind] at shown
  | ok lines =>
      rw [listed] at shown
      rw [List.flatMap_def, ← mapM_ok_eq (fun i _ => directoryLines_ok) listed]
      exact (Except.ok.inj shown).symm

theorem mem_shownLines {line : List Char} :
    line ∈ (List.finRange nrPtesPerPage).flatMap (shownLines p) ↔
      ∃ i j shown, shownAt p i j = some shown ∧ line = shownLine i j shown := by
  simp only [List.mem_flatMap, List.mem_finRange, true_and, shownLines,
    List.mem_filterMap, Option.map_eq_some_iff]
  constructor
  · rintro ⟨i, j, shown, isShown, rfl⟩
    exact ⟨i, j, shown, isShown, rfl⟩
  · rintro ⟨i, j, shown, isShown, rfl⟩
    exact ⟨i, j, shown, isShown, rfl⟩

theorem shownLine_clean (i j : Fin nrPtesPerPage) (shown : Bool × Bool × Nat) :
    newline ∉ shownLine i j shown := by
  have index (i : Fin nrPtesPerPage) : newline ∉ twoDigits i := by
    revert i
    decide
  have number : newline ∉ padRight 3 (signedDecimal (asInt shown.2.2)) :=
    not_mem_padRight (by decide) (solid_signedDecimal _).2
  have bars : newline ∉ bar := by decide
  simp only [shownLine, List.mem_append, List.mem_cons, not_or]
  exact ⟨index i, by decide, index j, bars, by decide, by decide,
    flag_clean (by decide) _, flag_clean (by decide) _, bars, number⟩

theorem titleLine_clean (p : Process) : newline ∉ titleLine p := by
  have ends : newline ∉ stars ++ [space, 'P', 'I', 'D', space] ∧
      newline ∉ space :: stars := by decide
  intro member
  rcases List.mem_append.mp member with inFront | isEnd
  · rcases List.mem_append.mp inFront with isFront | inNumber
    · exact ends.1 isFront
    · exact (solid_decimal _).2.2 inNumber
  · exact ends.2 isEnd

theorem titleLine_eq_iff : titleLine p = titleLine q ↔ p.pid = q.pid := by
  constructor
  · intro same
    unfold titleLine at same
    exact decimal_injective
      (List.append_cancel_left (List.append_cancel_right same))
  · intro same
    rw [titleLine, titleLine, same]

/-- The lines of a page table tell all its valid PTEs. -/
theorem shownLines_told
    (small : ∀ i j shown, shownAt p i j = some shown → shown.2.2 < 2 ^ 32)
    (small' : ∀ i j shown, shownAt q i j = some shown → shown.2.2 < 2 ^ 32)
    (lines : (List.finRange nrPtesPerPage).flatMap (shownLines p) =
      (List.finRange nrPtesPerPage).flatMap (shownLines q))
    {i j : Fin nrPtesPerPage} {shown : Bool × Bool × Nat}
    (isShown : shownAt p i j = some shown) : shownAt q i j = some shown := by
  have inLines := mem_shownLines.mpr ⟨i, j, shown, isShown, rfl⟩
  rw [lines] at inLines
  obtain ⟨i', j', shown', isShown', line⟩ := mem_shownLines.mp inLines
  obtain ⟨rfl, rfl, rfl⟩ := shownLine_injective (small i j shown isShown)
    (small' i' j' shown' isShown') line
  exact isShown'

/-- `show` tells the pid and all valid PTEs, and nothing else. -/
theorem showPagetable_eq_iff {text text' : List Char}
    (small : ∀ i j shown, shownAt p i j = some shown → shown.2.2 < 2 ^ 32)
    (small' : ∀ i j shown, shownAt q i j = some shown → shown.2.2 < 2 ^ 32)
    (printed : showPagetable false p = .ok text)
    (printed' : showPagetable false q = .ok text') :
    text = text' ↔ p.pid = q.pid ∧ ∀ i j, shownAt p i j = shownAt q i j := by
  rw [showPagetable_ok printed, showPagetable_ok printed']
  have clean (p : Process) : ∀ line ∈ [] :: titleLine p ::
      (List.finRange nrPtesPerPage).flatMap (shownLines p), newline ∉ line := by
    intro line member
    rcases List.mem_cons.mp member with rfl | member
    · exact List.not_mem_nil
    rcases List.mem_cons.mp member with rfl | member
    · exact titleLine_clean p
    · obtain ⟨i, j, shown, _, rfl⟩ := mem_shownLines.mp member
      exact shownLine_clean i j shown
  constructor
  · intro same
    have sameLines := terminated_injective (clean p) (clean q) same
    obtain ⟨title, lines⟩ := List.cons.inj (List.cons.inj sameLines).2
    exact ⟨titleLine_eq_iff.mp title, fun i j => Option.ext fun shown =>
      ⟨shownLines_told small small' lines,
        shownLines_told small' small lines.symm⟩⟩
  · rintro ⟨pid, ptes⟩
    have lines : shownLines p = shownLines q := by
      funext i
      unfold shownLines
      simp only [ptes]
    rw [titleLine_eq_iff.mpr pid, lines]

theorem entryLine_clean (entry : TlbEntry) : newline ∉ entryLine entry := by
  have left : newline ∉ padLeft 3 (signedDecimal (asInt entry.vpn)) :=
    not_mem_padLeft (by decide) (solid_signedDecimal _).2
  have right : newline ∉ padRight 3 (signedDecimal (asInt entry.pfn)) :=
    not_mem_padRight (by decide) (solid_signedDecimal _).2
  have between : newline ∉ bar ∧ newline ∉ " -> ".toList := by decide
  simp only [entryLine, List.mem_append, List.mem_cons, List.not_mem_nil,
    or_false, not_or]
  exact ⟨⟨⟨⟨⟨flag_clean (by decide) _, flag_clean (by decide) _⟩, between.1⟩,
    left⟩, between.2⟩, right⟩

/-- What the images of a list under one function tell of another. -/
theorem map_determines {α β γ : Type} {f : α → β} {g : α → γ} {list list' : List α}
    (determines : ∀ a ∈ list, ∀ b ∈ list', f a = f b → g a = g b)
    (same : list.map f = list'.map f) : list.map g = list'.map g := by
  induction list generalizing list' with
  | nil =>
      cases list' with
      | nil => rfl
      | cons b list' => simp at same
  | cons a list inductionHypothesis =>
      cases list' with
      | nil => simp at same
      | cons b list' =>
          obtain ⟨first, rest⟩ := List.cons.inj same
          rw [List.map_cons, List.map_cons,
            determines a List.mem_cons_self b List.mem_cons_self first,
            inductionHypothesis (fun a inList b inList' => determines a
              (List.mem_cons_of_mem _ inList) b (List.mem_cons_of_mem _ inList'))
              rest]

/-- `tlb` tells the valid entries in their order. -/
theorem showTlb_injective {tlb tlb' : List TlbEntry}
    (small : ∀ entry ∈ tlb, entry.vpn < 2 ^ 32 ∧ entry.pfn < 2 ^ 32)
    (small' : ∀ entry ∈ tlb', entry.vpn < 2 ^ 32 ∧ entry.pfn < 2 ^ 32)
    (same : showTlb tlb = showTlb tlb') :
    (tlb.filter (·.valid)).map shownEntry =
      (tlb'.filter (·.valid)).map shownEntry := by
  have clean (tlb : List TlbEntry) :
      ∀ line ∈ (tlb.filter (·.valid)).map entryLine, newline ∉ line := by
    intro line member
    obtain ⟨entry, _, rfl⟩ := List.mem_map.mp member
    exact entryLine_clean entry
  have lines := terminated_injective (clean tlb) (clean tlb') same
  exact map_determines (fun entry member entry' member' => entryLine_injective
    (small entry (List.mem_of_mem_filter member))
    (small' entry' (List.mem_of_mem_filter member'))) lines

theorem showTlb_congr {tlb tlb' : List TlbEntry}
    (same : (tlb.filter (·.valid)).map shownEntry =
      (tlb'.filter (·.valid)).map shownEntry) : showTlb tlb = showTlb tlb' := by
  refine congrArg (terminated newline) (map_determines (fun entry _ entry' _ => ?_)
    same)
  intro alike
  simp only [shownEntry, Prod.mk.injEq] at alike
  obtain ⟨sameR, sameW, sameVpn, samePfn⟩ := alike
  simp only [entryLine, sameR, sameW, sameVpn, samePfn]

/-! ### What the dumps tell -/

theorem UnsignedInts.shown_small (fits : UnsignedInts s)
    {i j : Fin nrPtesPerPage} {shown : Bool × Bool × Nat}
    (isShown : shownAt s.kernel.current i j = some shown) :
    shown.2.2 < 2 ^ 32 := by
  unfold shownAt at isShown
  split at isShown
  · rename_i pd isDir
    unfold shownPte at isShown
    split at isShown
    · obtain rfl := Option.some.inj isShown
      exact fits.pfn i pd j isDir
    · simp at isShown
  · simp at isShown

theorem dumps_ok {out : List Char × List Char × List Char}
    (printed : dumps s = .ok out) :
    showPagetable false s.kernel.current = .ok out.1 ∧
      out.2.1 = showPageframes s.kernel.mapcounts ∧ out.2.2 = showTlb s.tlb := by
  unfold dumps at printed
  cases table : showPagetable false s.kernel.current with
  | error fault => simp [table, bind, Except.bind] at printed
  | ok text =>
      rw [table] at printed
      obtain rfl := Except.ok.inj printed
      exact ⟨rfl, rfl, rfl⟩

/-- The dumps of two states are the same exactly if what they tell is. -/
theorem dumps_eq_iff {out out' : List Char × List Char × List Char}
    (fits : UnsignedInts s) (fits' : UnsignedInts s')
    (printed : dumps s = .ok out) (printed' : dumps s' = .ok out') :
    out = out' ↔ Shown s s' := by
  obtain ⟨table, frames, entries⟩ := dumps_ok printed
  obtain ⟨table', frames', entries'⟩ := dumps_ok printed'
  have tables := showPagetable_eq_iff (fun _ _ _ => fits.shown_small)
    (fun _ _ _ => fits'.shown_small) table table'
  rw [Prod.ext_iff, Prod.ext_iff, tables, frames, frames', entries, entries']
  constructor
  · rintro ⟨⟨pid, ptes⟩, sameFrames, sameEntries⟩
    exact ⟨pid, ptes, showPageframes_injective fits.count fits'.count sameFrames,
      showTlb_injective fits.entry fits'.entry sameEntries⟩
  · intro same
    exact ⟨⟨same.pid, same.ptes⟩, congrArg showPageframes same.mapcounts,
      showTlb_congr same.entries⟩

/-- A page table that is printed has no wild entry. -/
theorem not_wild_of_printed {text : List Char}
    (printed : showPagetable false p = .ok text) (i : Fin nrPtesPerPage) :
    p.outerPtes i ≠ .wild := by
  intro isWild
  have stops {list : List (Fin nrPtesPerPage)} (member : i ∈ list) :
      ∃ fault, (list.mapM fun i => directoryLines false i (p.outerPtes i)) =
        .error fault := by
    induction list with
    | nil => simp at member
    | cons j list inductionHypothesis =>
        rw [List.mapM_cons]
        cases first : directoryLines false j (p.outerPtes j) with
        | error fault => exact ⟨fault, rfl⟩
        | ok lines =>
            rcases List.mem_cons.mp member with rfl | inList
            · simp [isWild, directoryLines] at first
            · obtain ⟨fault, stopped⟩ := inductionHypothesis inList
              exact ⟨fault, by simp [stopped, bind, Except.bind]⟩
  obtain ⟨fault, stopped⟩ := stops (List.mem_finRange i)
  simp [showPagetable, stopped, bind, Except.bind] at printed

/-- The frame that the MMU finds in the page table, if it allows the access. -/
def walkedFrame (rw vpn : Nat) (p : Process) : Except Fault (Option Nat) := do
  let pte ← walk rw vpn p
  return pte.map (·.pfn)

/-- It depends on what is shown only. -/
theorem walkedFrame_eq (rw vpn : Nat) (notWild : ∀ i, p.outerPtes i ≠ .wild) :
    walkedFrame rw vpn p = (do
      let i ← pdIdx vpn
      return (shownAt p i (pteIdx vpn)).bind fun shown =>
        if rw &&& accessWrite ≠ 0 ∧ shown.2.1 = false then none
        else some shown.2.2) := by
  unfold walkedFrame walk
  cases pdIdx vpn with
  | error fault => rfl
  | ok i =>
      simp only [bind, Except.bind, pure, Except.pure, shownAt]
      cases outerEq : p.outerPtes i with
      | null => rfl
      | wild => exact absurd outerEq (notWild i)
      | dir pd =>
          dsimp only [shownPte]
          by_cases valid : (pd (pteIdx vpn)).valid = true
          · rw [if_neg (not_not_intro valid), if_pos valid]
            simp only [Option.bind_some, decide_eq_false_iff_not, not_not]
            by_cases denied : rw &&& accessWrite ≠ 0 ∧
                (pd (pteIdx vpn)).rw &&& accessWrite = 0
            · rw [if_pos denied, if_pos denied]
              rfl
            · rw [if_neg denied, if_neg denied]
              rfl
          · rw [if_pos valid, if_neg valid]
            rfl

/-- The dumps of two states are the same exactly if they tell the same, and then
the MMU finds the same frames in the page tables. -/
theorem dumps_tell {out out' : List Char × List Char × List Char}
    (fits : UnsignedInts s) (fits' : UnsignedInts s')
    (printed : dumps s = .ok out) (printed' : dumps s' = .ok out') :
    (out = out' ↔ Shown s s') ∧ (out = out' → ∀ rw vpn,
      walkedFrame rw vpn s.kernel.current = walkedFrame rw vpn s'.kernel.current) := by
  refine ⟨dumps_eq_iff fits fits' printed printed', fun same rw vpn => ?_⟩
  have shown := (dumps_eq_iff fits fits' printed printed').mp same
  rw [walkedFrame_eq rw vpn (not_wild_of_printed (dumps_ok printed).1),
    walkedFrame_eq rw vpn (not_wild_of_printed (dumps_ok printed').1)]
  simp only [shown.ptes]

/-- One page that is mapped for reading, and what its PTE backs up. -/
def onePage (backup : Nat) : System :=
  let pte := { valid := true, rw := 1, pfn := 0, priv := backup }
  let pd : Directory := fun j => if j.val = 5 then pte else zeroPte
  { init with
    kernel := {
      initKernel with
      current := {
        pid := 1, outerPtes := fun i => if i.val = 2 then .dir pd else .null }
      mapcounts := fun pfnum => if pfnum.val = 0 then 1 else 0 } }

theorem onePage_fits (backup : Nat) : UnsignedInts (onePage backup) where
  pfn := by
    intro i pd j isDir
    change (if i.val = 2 then Outer.dir _ else .null) = _ at isDir
    split at isDir
    · obtain rfl := Outer.dir.inj isDir
      dsimp only
      split
      · exact show 0 < 2 ^ 32 by decide
      · exact show 0 < 2 ^ 32 by decide
    · simp at isDir
  count := fun pfnum => by
    change (if pfnum.val = 0 then 1 else 0) < 2 ^ 32
    split <;> decide
  entry := fun entry member => by
    rw [List.eq_of_mem_replicate member]
    decide

/-- The dumps of both states. -/
def onePageDumps : List Char × List Char × List Char :=
  ("\n*** PID 1 ***\n02:05 | v r  | 0  \n".toList, "  0: 1\n\n".toList, [])

/-- `show` does not tell what the PTE backs up. -/
theorem dumps_tell_onePage :
    (onePageDumps = onePageDumps ↔ Shown (onePage 1) (onePage 3)) ∧
      (onePageDumps = onePageDumps → ∀ rw vpn,
        walkedFrame rw vpn (onePage 1).kernel.current =
          walkedFrame rw vpn (onePage 3).kernel.current) :=
  dumps_tell (onePage_fits 1) (onePage_fits 3) rfl rfl

end Dumps

end OsPAs.Vm
