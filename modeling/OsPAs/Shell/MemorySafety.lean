/-
Module: OsPAs.Shell.MemorySafety
Purpose: Sessions of the shell on its memory.  Which of them access only what is
  allocated, and what is allocated at their end: the table of aliases, and the
  tokens from a pipe on, which nobody frees.
Trusted boundary: none
Main exports: Action.inMemory, runLine_otherwise, runLine_defines, runLine_faults,
  leaks, Possible, mainLoop_owns, shell_memory_safe_iff, shell_owns_exactly
-/
import OsPAs.Shell.Children

namespace OsPAs.Shell

open Lib Heap

variable {m : Memory} {table : List Entry} {others : List (Address × CString)}
  {h : Heap Char} {tokens : Pointers} {texts before todo : List CString}

/-! ### The tokens of a line -/

/-- The array `tokens` with pointers to these strings. -/
def pointersTo (line : List (Address × CString)) : Pointers := fun k =>
  (line.map Prod.fst)[k.val]?

/-- The copies of the tokens are strings of the line. -/
theorem strdupAll_owned {owned : List (Address × CString)} (texts : List CString)
    (strings : h.Strings owned) (noNul : ∀ text ∈ texts, nul ∉ text) :
    ∃ ps h', InMemory.strdupAll h texts = .ok (ps, h') ∧ ∃ line,
      line.map Prod.fst = ps ∧ line.map Prod.snd = texts ∧
        h'.Strings (line ++ owned) := by
  induction texts generalizing h owned with
  | nil => exact ⟨[], h, rfl, [], rfl, rfl, strings⟩
  | cons text texts inductionHypothesis =>
      rw [List.forall_mem_cons] at noNul
      obtain ⟨p, h₁, copied, strings₁⟩ := strings.strdup noNul.1
      obtain ⟨ps, h', rest, line, isPs, isTexts, strings'⟩ :=
        inductionHypothesis strings₁ noNul.2
      refine ⟨p :: ps, h', ?_, (p, text) :: line, ?_, ?_, ?_⟩
      · simp only [InMemory.strdupAll, copied, rest, bind, Except.bind, pure,
          Except.pure]
      · rw [List.map_cons, isPs]
      · rw [List.map_cons, isTexts]
      · exact strings'.perm List.perm_middle

theorem lineAt_pointersTo {line : List (Address × CString)}
    (fits : line.length < maxNrTokens) (subset : line ⊆ others) :
    LineAt (pointersTo line) (line.map Prod.snd) others where
  entries := by
    intro i text found
    rw [List.getElem?_map, Option.map_eq_some_iff] at found
    obtain ⟨s, isToken, rfl⟩ := found
    have inside := (List.getElem?_eq_some_iff.mp isToken).1
    refine ⟨s.1, ?_, subset (List.mem_of_getElem? isToken)⟩
    rw [entry_of_lt (Nat.lt_trans inside fits), pointersTo, List.getElem?_map, isToken]
    rfl

/-- The loop of `free_command_tokens` frees the strings up to the first NULL. -/
theorem freeCommandTokens_frees {kept : List (Address × CString)}
    (freed : List (Address × CString)) (left k : Nat)
    (strings : h.Strings (freed ++ kept)) (enough : freed.length < left)
    (entries : ∀ (i : Nat) (s : Address × CString), freed[i]? = some s →
      InMemory.entry tokens ((k + i : Nat) : Int) = .ok (some s.1))
    (ends : InMemory.entry tokens ((k + freed.length : Nat) : Int) = .ok none) :
    ∃ h', InMemory.freeCommandTokens h tokens left k = .ok h' ∧ h'.Strings kept := by
  induction freed generalizing h left k with
  | nil =>
      obtain ⟨left, rfl⟩ := Nat.exists_eq_add_one.mpr enough
      have ends : InMemory.entry tokens (k : Int) = .ok none := ends
      refine ⟨h, ?_, strings⟩
      simp only [InMemory.freeCommandTokens, ends, bind, Except.bind, pure, Except.pure]
  | cons s freed inductionHypothesis =>
      rw [List.length_cons] at enough ends
      obtain ⟨left, rfl⟩ := Nat.exists_eq_add_one.mpr (Nat.zero_lt_of_lt enough)
      obtain ⟨h₁, isFreed, strings₁⟩ := strings.free
      have here : InMemory.entry tokens (k : Int) = .ok (some s.1) := entries 0 s rfl
      obtain ⟨h', goesOn, strings'⟩ := inductionHypothesis left (k + 1) strings₁
        (by omega)
        (fun i s' found => by
          have next := entries (i + 1) s' found
          rwa [← Nat.add_assoc, Nat.add_right_comm] at next)
        (by rwa [← Nat.add_assoc, Nat.add_right_comm] at ends)
      refine ⟨h', ?_, strings'⟩
      simp only [InMemory.freeCommandTokens, here, isFreed, bind, Except.bind, goesOn]

/-! ### One command -/

/-- The loop finds the first pipe. -/
theorem findPipe_eq (before : List CString) (reads : Reads h tokens (before ++ todo)) :
    InMemory.findPipe h tokens before.length todo.length =
      .ok ((todo.findIdx? fun token => token = pipeToken).map (· + before.length)) := by
  induction todo generalizing before with
  | nil => rfl
  | cons text todo inductionHypothesis =>
      have rest := inductionHypothesis (before ++ [text]) (by simpa using reads)
      rw [List.length_append, List.length_singleton] at rest
      rw [List.length_cons, InMemory.findPipe, List.findIdx?_cons]
      simp only [reads.next, bind, Except.bind, decide_eq_true_eq]
      split
      · simp [pure, Except.pure]
      · rw [rest, Option.map_map]
        congr 2
        funext k
        simp
        omega

theorem printFrom_eq (owns : Owns m table others) (left i : Nat)
    (rest : i + left = table.length) :
    InMemory.printFrom m i left = .ok ((table.drop i).map fun e =>
      .print e.entry.key e.entry.val) := by
  induction left generalizing i with
  | zero =>
      rw [List.drop_eq_nil_of_le (by omega)]
      rfl
  | succ left inductionHypothesis =>
      have inside : i < table.length := by omega
      have found := List.getElem?_eq_getElem inside
      have strings := owns.strings_of_mem (List.getElem_mem inside)
      rw [List.drop_eq_getElem_cons inside]
      simp only [InMemory.printFrom, owns.keyAt found, owns.valAt found, strings.1,
        strings.2, inductionHypothesis (i + 1) (by omega), bind, Except.bind, pure,
        Except.pure, List.map_cons]

/-- The array `tokens` with NULL for the first pipe. -/
def cutAt (tokens : Pointers) (texts : List CString) : Pointers := fun k =>
  if texts.findIdx? (fun token => token = pipeToken) = some k.val then none
  else tokens k

theorem cutAt_of_noPipe (tokens : Pointers) (noPipe : pipeToken ∉ texts) :
    cutAt tokens texts = tokens := by
  funext k
  rw [cutAt, findIdx?_pipe_eq_none.mpr noPipe]
  simp

variable {line : CommandLine} {d : Definition} {defs : List Definition}

theorem runCommand_defines (reads : Reads m.strings tokens line.tokens)
    (defines : definitionOf line = some d) :
    InMemory.runCommand m tokens line.tokens.length = (do
      let m' ← InMemory.defineAlias m tokens (d.2.length + 2)
      return { goesOn := true, memory := m', tokens := tokens, actions := [] }) := by
  obtain ⟨noPipe, tokensEq⟩ := tokens_of_definitionOf defines
  have found := findPipe_eq [] reads
  rw [findIdx?_pipe_eq_none.mpr noPipe] at found
  have command : InMemory.tokenAt m.strings tokens 0 = .ok aliasToken :=
    reads 0 aliasToken (by rw [tokensEq]; rfl)
  have number : line.tokens.length = d.2.length + 2 := by
    rw [tokensEq]
    rfl
  have several : ¬ d.2.length + 2 = 0 ∧ ¬ d.2.length + 2 = 1 := by omega
  rw [number] at found ⊢
  simp only [List.length_nil, Option.map_none] at found
  simp only [InMemory.runCommand, found, command, if_neg several.1, if_neg several.2,
    bind, Except.bind]
  rfl

/-- What an action of the model on lists is in memory. -/
def Action.inMemory : Action → InMemory.Action
  | .chdir dir => .chdir dir
  | .print entry => .print entry.key entry.val
  | .exec child => .exec (argvOf child)

variable {copies : List (Address × CString)}

/-- With the pipe replaced by NULL, the array points to one side from its start on
and to the other behind the pipe. -/
theorem placed_sides (copies : List (Address × CString)) {left right : List CString}
    (tokensEq : line.tokens = left ++ pipeToken :: right)
    (first : pipeToken ∉ left) :
    Placed (cutAt (pointersTo copies) line.tokens) 0
        ((copies.take left.length).map Prod.fst) ∧
      Placed (cutAt (pointersTo copies) line.tokens) (left.length + 1)
        ((copies.drop (left.length + 1)).map Prod.fst) := by
  have isPipe := findIdx?_pipe first right
  rw [← tokensEq] at isPipe
  constructor
  · intro k _ high
    rw [List.length_map, List.length_take] at high
    simp only [cutAt, isPipe, Option.some.injEq, List.getElem?_map, List.getElem?_take,
      Nat.sub_zero]
    by_cases here : left.length = k.val
    · rw [if_pos here, if_neg (by omega)]
      rfl
    · rw [if_neg here, if_pos (by omega), pointersTo, List.getElem?_map]
  · intro k low high
    have index : left.length + 1 + (k.val - (left.length + 1)) = k.val := by omega
    simp only [cutAt, isPipe, Option.some.injEq, List.getElem?_map, List.getElem?_drop,
      index]
    rw [if_neg (by omega), pointersTo, List.getElem?_map]

/-- A line with a pipe forks a child for each side. -/
theorem runCommand_pipe (tab : Tabulates defs (m.aliases table)) (filled : Filled defs)
    (owns : Owns m table (copies ++ others)) (isTexts : copies.map Prod.snd = line.tokens)
    (reads : Reads m.strings (pointersTo copies) line.tokens)
    (pipe : pipeToken ∈ line.tokens) :
    ∃ listed, InMemory.runCommand m (pointersTo copies) line.tokens.length = .ok {
        goesOn := true
        memory := m
        tokens := cutAt (pointersTo copies) line.tokens
        actions := listed.map Action.inMemory } ∧
      runCommand line (m.aliases table) = .ok {
        goesOn := true
        aliases := m.aliases table
        actions := listed } := by
  obtain ⟨left, right, tokensEq, first⟩ := List.eq_append_cons_of_mem pipe
  have isPipe := findIdx?_pipe first right
  rw [← tokensEq] at isPipe
  have found : InMemory.findPipe m.strings (pointersTo copies) 0 line.tokens.length =
      .ok ((line.tokens.findIdx? fun token => token = pipeToken).map (· + 0)) :=
    findPipe_eq [] reads
  have inside : left.length < maxNrTokens :=
    Nat.lt_trans (List.findIdx?_eq_some_iff_getElem.mp isPipe).1 line.fits
  have isCut : Function.update (pointersTo copies) ⟨left.length, inside⟩ none =
      cutAt (pointersTo copies) line.tokens := by
    funext k
    rw [cutAt, isPipe, Function.update_apply]
    simp only [Option.some.injEq, Fin.ext_iff, eq_comm]
  have total : line.tokens.length = left.length + 1 + right.length := by
    rw [tokensEq, List.length_append, List.length_cons]
    omega
  have number : copies.length = left.length + 1 + right.length := by
    rw [← total, ← isTexts, List.length_map]
  have room := line.fits
  obtain ⟨placedLeft, placedRight⟩ := placed_sides copies tokensEq first
  obtain ⟨laidLeft, laidRight⟩ := CommandLine.laid_sides tokensEq
  have textsLeft : (copies.take left.length).map Prod.snd = left := by
    rw [List.map_take, isTexts, tokensEq, List.take_left]
  have textsRight : (copies.drop (left.length + 1)).map Prod.snd = right := by
    rw [List.map_drop, isTexts, tokensEq, List.append_cons,
      show left.length + 1 = (left ++ [pipeToken]).length by simp, List.drop_left]
  have sizeLeft : (copies.take left.length).length = left.length := by
    rw [List.length_take]
    omega
  have sizeRight : (copies.drop (left.length + 1)).length = right.length := by
    rw [List.length_drop]
    omega
  have ownsLeft : Owns m table
      (copies.take left.length ++ (copies.drop left.length ++ others)) := by
    rwa [← List.append_assoc, List.take_append_drop]
  have ownsRight : Owns m table (copies.drop (left.length + 1) ++
      (copies.take (left.length + 1) ++ others)) := by
    refine Owns.perm ?_ (List.perm_append_comm_assoc ..)
    rwa [← List.append_assoc, List.take_append_drop]
  have childLeft := child_agrees tab filled ownsLeft placedLeft
    (by rw [textsLeft]; exact laidLeft) (by omega)
  have childRight := child_agrees tab filled ownsRight placedRight
    (by rw [textsRight]; exact laidRight) (by omega)
  rw [sizeLeft] at childLeft
  rw [sizeRight] at childRight
  refine ⟨_, ?_, runCommand_of_pipe tokensEq first⟩
  rw [isPipe] at found
  have rightCount : line.tokens.length - left.length - 1 = right.length := by omega
  simp only [InMemory.runCommand, found, Option.map_some, Nat.add_zero,
    slot_of_lt inside, Except.mapError, bind, Except.bind, pure, Except.pure, isCut,
    rightCount, childLeft, childRight, List.map_cons, List.map_nil, Action.inMemory]

/-- A command that defines no alias leaves the memory as it is, and does what it
does in the model on lists. -/
theorem runCommand_agrees (tab : Tabulates defs (m.aliases table))
    (filled : Filled defs) (owns : Owns m table (copies ++ others))
    (isTexts : copies.map Prod.snd = line.tokens)
    (reads : Reads m.strings (pointersTo copies) line.tokens)
    (notEmpty : line.tokens ≠ []) (noDefinition : definitionOf line = none) :
    ∃ listed, InMemory.runCommand m (pointersTo copies) line.tokens.length = .ok {
        goesOn := decide (¬ exits line)
        memory := m
        tokens := cutAt (pointersTo copies) line.tokens
        actions := listed.map Action.inMemory } ∧
      runCommand line (m.aliases table) = .ok {
        goesOn := decide (¬ exits line)
        aliases := m.aliases table
        actions := listed } := by
  by_cases pipe : pipeToken ∈ line.tokens
  · have goesOn : ¬ exits line := fun ends => ends.1 pipe
    rw [decide_eq_true goesOn]
    exact runCommand_pipe tab filled owns isTexts reads pipe
  have found : InMemory.findPipe m.strings (pointersTo copies) 0 line.tokens.length =
      .ok ((line.tokens.findIdx? fun token => token = pipeToken).map (· + 0)) :=
    findPipe_eq [] reads
  have noPipe := findIdx?_pipe_eq_none.mpr pipe
  have room : 0 + copies.length < maxNrTokens := by
    rw [Nat.zero_add, ← List.length_map (f := Prod.snd), isTexts]
    exact line.fits
  have number : copies.length = line.tokens.length := by
    rw [← isTexts, List.length_map]
  have placed : Placed (pointersTo copies) 0 (copies.map Prod.fst) := fun _ _ _ => rfl
  have laid : Laid line.slots 0 (copies.map Prod.snd) := by
    rw [isTexts]
    exact line.laid
  have onlyChild := child_agrees tab filled owns placed laid room
  rw [number] at onlyChild
  rw [noPipe] at found
  rw [cutAt_of_noPipe _ pipe, runCommand, noPipe]
  cases tokensEq : line.tokens with
  | nil => exact absurd tokensEq notEmpty
  | cons command args =>
      rw [tokensEq] at reads found onlyChild
      have read : InMemory.tokenAt m.strings (pointersTo copies) 0 = .ok command :=
        reads 0 command rfl
      have notZero : ¬ args.length + 1 = 0 := Nat.succ_ne_zero _
      have exitsIff : exits line ↔ command = exitToken :=
        ⟨fun ends => by simpa [tokensEq] using ends.2,
          fun isExit => ⟨pipe, by rw [tokensEq, isExit]; rfl⟩⟩
      simp only [List.length_cons, Option.map_none] at found onlyChild
      simp only [List.length_cons, InMemory.runCommand, found, read, if_neg notZero,
        exitsIff, bind, Except.bind, pure, Except.pure]
      by_cases isExit : command = exitToken
      · exact ⟨[], by simp [isExit], by simp [isExit]⟩
      by_cases isCd : command = cdToken
      · have goesOn : cdToken ≠ exitToken := by decide
        refine ⟨[.chdir (args.head?.filter fun dir => dir ≠ homeToken)], ?_, by
          simp [isCd, goesOn]⟩
        cases args with
        | nil => simp [isCd, goesOn, Action.inMemory]
        | cons dir args =>
            have second : InMemory.tokenAt m.strings (pointersTo copies) 1 = .ok dir :=
              reads 1 dir rfl
            by_cases isHome : dir = homeToken
            · simp [isCd, goesOn, second, isHome, Action.inMemory, Option.filter]
            · simp [isCd, goesOn, second, isHome, Action.inMemory, Option.filter]
      by_cases isAlias : command = aliasToken
      · have goesOn : aliasToken ≠ exitToken ∧ aliasToken ≠ cdToken := by decide
        cases args with
        | nil =>
            have printed := printFrom_eq owns m.idx 0 (by simp [owns.idx])
            refine ⟨(m.aliases table).entries.map .print, ?_, by simp [isAlias, goesOn]⟩
            simp [isAlias, goesOn, printed, Memory.aliases, Action.inMemory,
              Function.comp_def]
        | cons key words =>
            have both : pipeToken ∉ line.tokens ∧ command = aliasToken :=
              ⟨pipe, isAlias⟩
            simp only [definitionOf, definedBy] at noDefinition
            rw [tokensEq] at noDefinition both
            simp only [if_pos both] at noDefinition
            simp at noDefinition
      · refine ⟨[.exec (child (m.aliases table) line.slots 0 (args.length + 1))], ?_, by
          simp [isExit, isCd, isAlias]⟩
        simp [isExit, isCd, isAlias, onlyChild, Action.inMemory]

/-! ### One line -/

/-- The index of the first pipe, or the number of the tokens. -/
def firstPipe (texts : List CString) : Nat :=
  texts.findIdx fun token => token = pipeToken

/-- The tokens up to the pipe are freed. -/
theorem freeCommandTokens_owned {copies : List (Address × CString)}
    (owns : Owns m table (copies ++ others)) (fits : copies.length < maxNrTokens) :
    ∃ strings, InMemory.freeCommandTokens m.strings
        (cutAt (pointersTo copies) (copies.map Prod.snd)) maxNrTokens 0 = .ok strings ∧
      Owns { m with strings := strings } table
        (others ++ copies.drop (firstPipe (copies.map Prod.snd))) := by
  generalize isFirst : firstPipe (copies.map Prod.snd) = n
  have atMost : n ≤ copies.length := by
    rw [← isFirst]
    have bound : firstPipe (copies.map Prod.snd) ≤ (copies.map Prod.snd).length :=
      List.findIdx_le_length
    rwa [List.length_map] at bound
  have taken : (copies.take n).length = n := by
    rw [List.length_take, Nat.min_eq_left atMost]
  have owned : m.strings.Strings (copies.take n ++
      (table.flatMap Entry.strings ++ (others ++ copies.drop n))) := by
    have strings := owns.strings
    rw [← List.take_append_drop n copies, List.append_assoc] at strings
    refine (strings.perm (List.perm_append_comm_assoc ..)).perm ?_
    exact (List.perm_append_comm.append_left _).append_left _
  have isPipe (k : Nat) : (copies.map Prod.snd).findIdx?
      (fun token => token = pipeToken) = some k ↔ k < copies.length ∧ n = k := by
    rw [List.findIdx?_eq_some_iff_findIdx_eq, List.length_map, ← isFirst]
    rfl
  have inFront (i : Nat) (s : Address × CString) (found : (copies.take n)[i]? = some s) :
      InMemory.entry (cutAt (pointersTo copies) (copies.map Prod.snd))
        ((0 + i : Nat) : Int) = .ok (some s.1) := by
    have before : i < n := taken ▸ (List.getElem?_eq_some_iff.mp found).1
    rw [List.getElem?_take_of_lt before] at found
    have notPipe : ¬ (copies.map Prod.snd).findIdx? (fun token => token = pipeToken) =
        some i := fun isIt => Nat.ne_of_gt before ((isPipe i).mp isIt).2
    rw [Nat.zero_add, entry_of_lt (by omega), cutAt, if_neg notPipe, pointersTo,
      List.getElem?_map, found]
    rfl
  have atEnd : InMemory.entry (cutAt (pointersTo copies) (copies.map Prod.snd))
      ((0 + (copies.take n).length : Nat) : Int) = .ok none := by
    rw [taken, Nat.zero_add, entry_of_lt (Nat.lt_of_le_of_lt atMost fits), cutAt]
    split
    · rfl
    · rename_i noPipe
      have noPipe : ¬ (n < copies.length ∧ n = n) := fun inside =>
        noPipe ((isPipe n).mpr inside)
      rw [pointersTo, List.getElem?_eq_none (by simpa using noPipe)]
  obtain ⟨strings, freed, kept⟩ := freeCommandTokens_frees (copies.take n) maxNrTokens
    0 owned (by omega) inFront atEnd
  exact ⟨strings, freed, ⟨owns.idx, owns.nullKeys, owns.nullVals, owns.arrays, kept⟩⟩

/-- The tokens of a line that are not freed: those from the first pipe on. -/
def leaked (line : CommandLine) : List CString :=
  line.tokens.drop (firstPipe line.tokens)

theorem leaked_eq_nil (noPipe : pipeToken ∉ line.tokens) : leaked line = [] := by
  refine List.drop_eq_nil_of_le (Nat.le_of_eq (Eq.symm ?_))
  rw [firstPipe, List.findIdx_eq_length]
  intro token member
  apply decide_eq_false
  rintro rfl
  exact noPipe member

/-- A line starts with copies of its tokens. -/
theorem strdupAll_lineAt (owns : Owns m table others) (line : CommandLine) :
    ∃ ps strings copies, InMemory.strdupAll m.strings line.tokens = .ok (ps, strings) ∧
      (fun k : Fin maxNrTokens => ps[k.val]?) = pointersTo copies ∧
      copies.map Prod.snd = line.tokens ∧ copies.length < maxNrTokens ∧
      Owns { m with strings := strings } table (copies ++ others) ∧
      LineAt (pointersTo copies) line.tokens (copies ++ others) := by
  obtain ⟨ps, strings, copied, copies, rfl, isTexts, strings'⟩ :=
    strdupAll_owned line.tokens owns.strings fun token member =>
      (line.words token member).nul_not_mem
  have fits : copies.length < maxNrTokens := by
    rw [← List.length_map (f := Prod.snd), isTexts]
    exact line.fits
  refine ⟨_, strings, copies, copied, rfl, isTexts, fits, ?_, ?_⟩
  · exact ⟨owns.idx, owns.nullKeys, owns.nullVals, owns.arrays,
      strings'.perm (List.perm_append_comm_assoc ..)⟩
  · rw [← isTexts]
    exact lineAt_pointersTo fits (List.subset_append_left _ _)

theorem LineAt.reads_owned (lineAt : LineAt tokens texts others)
    (owns : Owns m table others) : Reads m.strings tokens texts :=
  lineAt.reads fun _ member => owns.strings.stringAt (List.mem_append_right _ member)

/-- A line without a definition does what it does in the model on lists, and leaves
the tokens from a pipe on behind. -/
theorem runLine_otherwise (tab : Tabulates defs (m.aliases table))
    (filled : Filled defs) (owns : Owns m table others) (notEmpty : line.tokens ≠ [])
    (noDefinition : definitionOf line = none) :
    ∃ reply left listed, InMemory.runLine line m = .ok reply ∧
      reply.goesOn = decide (¬ exits line) ∧
      reply.actions = listed.map Action.inMemory ∧
      Owns reply.memory table (others ++ left) ∧ left.map Prod.snd = leaked line ∧
      reply.memory.aliases table = m.aliases table ∧
      runCommand line (m.aliases table) = .ok {
        goesOn := decide (¬ exits line)
        aliases := m.aliases table
        actions := listed } := by
  obtain ⟨ps, strings, copies, copied, isTokens, isTexts, fits, owns₁, lineAt⟩ :=
    strdupAll_lineAt owns line
  have tab₁ : Tabulates defs (Memory.aliases { m with strings := strings } table) := tab
  obtain ⟨listed, ran, ranListed⟩ := runCommand_agrees tab₁ filled owns₁ isTexts
    (lineAt.reads_owned owns₁) notEmpty noDefinition
  obtain ⟨strings', freed, owns₂⟩ := freeCommandTokens_owned owns₁ fits
  rw [isTexts] at freed owns₂
  refine ⟨{
    goesOn := decide (¬ exits line)
    memory := { m with strings := strings' }
    tokens := cutAt (pointersTo copies) line.tokens
    actions := listed.map Action.inMemory }, copies.drop (firstPipe line.tokens),
    listed, ?_, rfl, rfl, owns₂, ?_, rfl, ranListed⟩
  · simp only [InMemory.runLine, copied, isTokens, ran, freed, bind, Except.bind, pure,
      Except.pure]
  · rw [List.map_drop, isTexts, leaked]

/-- A line with a definition that is possible. -/
theorem runLine_defines (owns : Owns m table others)
    (defines : definitionOf line = some d) (notEmpty : d.2 ≠ [])
    (few : (keyIndex d.1 (m.aliases table)).1 < nrWordCnts) :
    ∃ reply table', InMemory.runLine line m = .ok reply ∧ reply.goesOn = true ∧
      reply.actions = [] ∧ Owns reply.memory table' others ∧
      defineAlias d.1 d.2 (m.aliases table) = .ok (reply.memory.aliases table') := by
  obtain ⟨noPipe, tokensEq⟩ := tokens_of_definitionOf defines
  obtain ⟨ps, strings, copies, copied, isTokens, isTexts, fits, owns₁, lineAt⟩ :=
    strdupAll_lineAt owns line
  have ran := runCommand_defines (lineAt.reads_owned owns₁) defines
  have areWords := keyAndWords_of_definitionOf defines
  rw [tokensEq] at lineAt
  obtain ⟨m', table', defined, owns₂, inTable⟩ :=
    defineAlias_owns owns₁ lineAt areWords notEmpty few
  obtain ⟨strings', freed, owns₃⟩ := freeCommandTokens_owned owns₂ fits
  have nothing : copies.drop (firstPipe line.tokens) = [] := by
    have left := leaked_eq_nil noPipe
    rw [leaked, ← isTexts, ← List.map_drop, List.map_eq_nil_iff, isTexts] at left
    exact left
  rw [isTexts, nothing, List.append_nil] at owns₃
  rw [isTexts, cutAt_of_noPipe _ noPipe] at freed
  refine ⟨{
    goesOn := true
    memory := { m' with strings := strings' }
    tokens := pointersTo copies
    actions := [] }, table', ?_, rfl, rfl, owns₃, inTable⟩
  simp only [InMemory.runLine, copied, isTokens, ran, defined, freed, bind, Except.bind,
    pure, Except.pure]

/-- A line with one that is not: it has no words, or its key no place. -/
theorem runLine_faults (owns : Owns m table others)
    (defines : definitionOf line = some d)
    (impossible : d.2 = [] ∨ nrWordCnts ≤ (keyIndex d.1 (m.aliases table)).1) :
    InMemory.runLine line m = .error .outOfBounds := by
  obtain ⟨noPipe, tokensEq⟩ := tokens_of_definitionOf defines
  obtain ⟨ps, strings, copies, copied, isTokens, isTexts, fits, owns₁, lineAt⟩ :=
    strdupAll_lineAt owns line
  have ran := runCommand_defines (lineAt.reads_owned owns₁) defines
  have areWords := keyAndWords_of_definitionOf defines
  have faults : InMemory.defineAlias { m with strings := strings } (pointersTo copies)
      (d.2.length + 2) = .error .outOfBounds := by
    rw [tokensEq] at lineAt
    by_cases empty : d.2 = []
    · rw [empty] at lineAt ⊢
      exact defineAlias_overruns owns₁ lineAt
        (areWords d.1 List.mem_cons_self).nul_not_mem
    · exact defineAlias_full owns₁ lineAt areWords empty
        (impossible.resolve_left empty)
  simp only [InMemory.runLine, copied, isTokens, ran, faults, bind, Except.bind]

/-! ### Sessions -/

/-- The strings that a session leaves behind. -/
def leaks : List CommandLine → List CString
  | [] => []
  | line :: lines => if exits line then [] else leaked line ++ leaks lines

/-- Each definition of the session has a word, and `v_wordCnt` has room for all the
keys, those defined before among them. -/
structure Possible (defs : List Definition) (lines : List CommandLine) : Prop where
  notEmpty : ∀ d ∈ definitions lines, d.2 ≠ []
  few : (keysOf (defs ++ definitions lines)).length ≤ nrWordCnts

variable {s : Aliases} {lines : List CommandLine}

theorem Filled.snoc (filled : Filled defs)
    (areWords : ∀ word ∈ d.2, IsWord delimiters word) (notEmpty : d.2 ≠ []) :
    Filled (defs ++ [(d.1, d.2)]) where
  words := by
    intro d' member
    rcases List.mem_append.mp member with old | new
    · exact filled.words d' old
    · rw [List.mem_singleton.mp new]
      exact areWords
  notEmpty := by
    intro d' member
    rcases List.mem_append.mp member with old | new
    · exact filled.notEmpty d' old
    · rw [List.mem_singleton.mp new]
      exact notEmpty

/-- There is a place for the number of words if there is room for the keys. -/
theorem keyIndex_lt_iff (tab : Tabulates defs s) (d : Definition) :
    (keyIndex d.1 s).1 < nrWordCnts ↔
      (keysOf (defs ++ [d])).length ≤ nrWordCnts := by
  have number : s.entries.length = (keysOf defs).length := by
    rw [← tab.keys, List.length_map]
  have atMost := tab.length_le
  have keys := keysOf_defined defs d.1 d.2
  cases found : findAliasIndex s d.1 with
  | none =>
      have new : d.1 ∉ keysOf defs := by
        rw [← tab.keys]
        exact findAliasIndex_eq_none.mp found
      rw [if_neg new] at keys
      rw [keyIndex, found, keys, List.length_append, List.length_singleton, ← number]
      exact Nat.lt_iff_add_one_le
  | some pos =>
      obtain ⟨entry, atPos, isKey⟩ := exists_entry_of_findAliasIndex found
      have old : d.1 ∈ keysOf defs := by
        rw [← tab.keys, ← isKey]
        exact List.mem_map_of_mem (List.mem_of_getElem? atPos)
      have inside := (List.getElem?_eq_some_iff.mp atPos).1
      rw [if_pos old] at keys
      rw [keyIndex, found, keys, ← number]
      exact iff_of_true (Nat.lt_of_lt_of_le inside atMost) atMost

theorem possible_cons (goesOn : ¬ exits line) (defines : definitionOf line = some d) :
    Possible defs (line :: lines) ↔ d.2 ≠ [] ∧ Possible (defs ++ [d]) lines := by
  constructor
  · intro possible
    have notEmpty := possible.notEmpty
    have few := possible.few
    rw [definitions, if_neg goesOn, defines] at notEmpty few
    refine ⟨notEmpty d (by simp), fun d' member => notEmpty d' (by simp [member]), ?_⟩
    simpa using few
  · rintro ⟨first, possible⟩
    constructor
    · rw [definitions, if_neg goesOn, defines]
      simpa using ⟨first, fun key words => possible.notEmpty (key, words)⟩
    · rw [definitions, if_neg goesOn, defines]
      simpa using possible.few

theorem possible_cons_none (goesOn : ¬ exits line)
    (noDefinition : definitionOf line = none) :
    Possible defs (line :: lines) ↔ Possible defs lines := by
  have same : definitions (line :: lines) = definitions lines := by
    rw [definitions, if_neg goesOn, noDefinition]
    rfl
  exact ⟨fun p => ⟨same ▸ p.notEmpty, same ▸ p.few⟩,
    fun p => ⟨same.symm ▸ p.notEmpty, same.symm ▸ p.few⟩⟩

/-- A session whose definitions are possible runs as it does in the model on lists,
and keeps what is owned. -/
theorem mainLoop_owns (lines : List CommandLine) (owns : Owns m table others)
    (tab : Tabulates defs (m.aliases table)) (filled : Filled defs)
    (possible : Possible defs lines) :
    ∃ m' table' left listed,
      InMemory.mainLoop lines m = .ok (m', listed.map Action.inMemory) ∧
        mainLoop lines (m.aliases table) = .ok (m'.aliases table', listed) ∧
        Owns m' table' (others ++ left) ∧ left.map Prod.snd = leaks lines := by
  induction lines generalizing m table others defs with
  | nil => exact ⟨m, table, [], [], rfl, rfl, by simpa using owns, rfl⟩
  | cons line lines inductionHypothesis =>
      by_cases ends : exits line
      · have notEmpty : line.tokens ≠ [] := by
          intro empty
          simp [exits, EndsShell, empty] at ends
        obtain ⟨reply, left, listed, ran, stops, acts, owns', isLeaked, same, ranListed⟩ :=
          runLine_otherwise tab filled owns notEmpty (definitionOf_of_exits ends)
        rw [leaked_eq_nil ends.1] at isLeaked
        have stops : reply.goesOn = false := by simpa [ends] using stops
        refine ⟨reply.memory, table, left, listed, ?_, ?_, owns', ?_⟩
        · simp [InMemory.mainLoop, notEmpty, ran, stops, acts, bind, Except.bind, pure,
            Except.pure]
        · simp [mainLoop, notEmpty, ranListed, ends, same, bind, Except.bind, pure,
            Except.pure]
        · rw [leaks, if_pos ends, isLeaked]
      · cases defines : definitionOf line with
        | none =>
            have rest := (possible_cons_none ends defines).mp possible
            by_cases empty : line.tokens = []
            · obtain ⟨m', table', left, listed, ran, looped, owns', isLeaked⟩ :=
                inductionHypothesis owns tab filled rest
              have nothing : leaked line = [] := by simp [leaked, empty]
              refine ⟨m', table', left, listed, ?_, ?_, owns', ?_⟩
              · rw [InMemory.mainLoop, if_pos empty, ran]
              · rw [mainLoop, if_pos empty, looped]
              · rw [leaks, if_neg ends, nothing, isLeaked, List.nil_append]
            · obtain ⟨reply, left₁, now, ran₁, goesOn, acts, owns₁, isLeaked₁, same,
                ranListed⟩ := runLine_otherwise tab filled owns empty defines
              obtain ⟨m', table', left, listed, ran, looped, owns', isLeaked⟩ :=
                inductionHypothesis owns₁ (same ▸ tab) filled rest
              have goesOn : reply.goesOn = true := by simpa [ends] using goesOn
              rw [same] at looped
              refine ⟨m', table', left₁ ++ left, now ++ listed, ?_, ?_,
                by simpa using owns', ?_⟩
              · simp [InMemory.mainLoop, empty, ran₁, goesOn, acts, ran, bind,
                  Except.bind, pure, Except.pure]
              · simp [mainLoop, empty, ranListed, ends, looped, bind, Except.bind, pure,
                  Except.pure]
              · rw [List.map_append, isLeaked₁, isLeaked, leaks, if_neg ends]
        | some d =>
            obtain ⟨someWords, rest⟩ := (possible_cons ends defines).mp possible
            have few := Nat.le_trans (keysOf_length_le _ _) rest.few
            obtain ⟨reply, table₁, ran₁, goesOn, acts, owns₁, defined⟩ :=
              runLine_defines owns defines someWords ((keyIndex_lt_iff tab d).mpr few)
            have areWords := words_of_definitionOf defines
            obtain ⟨s₁, defined', tab₁⟩ := tab.defined d.1 areWords few
            obtain rfl := Except.ok.inj (defined.symm.trans defined')
            obtain ⟨m', table', left, listed, ran, looped, owns', isLeaked⟩ :=
              inductionHypothesis owns₁ tab₁ (filled.snoc areWords someWords) rest
            have notEmpty := tokens_ne_nil_of_definitionOf defines
            refine ⟨m', table', left, listed, ?_, ?_, owns', ?_⟩
            · simp [InMemory.mainLoop, notEmpty, ran₁, goesOn, acts, ran, bind,
                Except.bind, pure, Except.pure]
            · simp only [mainLoop, if_neg notEmpty, runCommand_of_definition defines,
                defined, looped, bind, Except.bind, pure, Except.pure, if_true,
                List.nil_append]
            · rw [leaks, if_neg ends, leaked_eq_nil (tokens_of_definitionOf defines).1,
                isLeaked, List.nil_append]

/-- A session with a definition that is not possible writes out of bounds. -/
theorem mainLoop_faults (lines : List CommandLine) (owns : Owns m table others)
    (tab : Tabulates defs (m.aliases table)) (filled : Filled defs)
    (impossible : ¬ Possible defs lines) :
    InMemory.mainLoop lines m = .error .outOfBounds := by
  induction lines generalizing m table others defs with
  | nil =>
      refine absurd ⟨fun d member => absurd member List.not_mem_nil, ?_⟩ impossible
      rw [definitions, List.append_nil, ← tab.keys, List.length_map]
      exact tab.length_le
  | cons line lines inductionHypothesis =>
      by_cases ends : exits line
      · refine absurd ⟨?_, ?_⟩ impossible
        · rw [definitions, if_pos ends]
          exact fun d member => absurd member List.not_mem_nil
        · rw [definitions, if_pos ends, List.append_nil, ← tab.keys, List.length_map]
          exact tab.length_le
      · cases defines : definitionOf line with
        | none =>
            rw [possible_cons_none ends defines] at impossible
            by_cases empty : line.tokens = []
            · rw [InMemory.mainLoop, if_pos empty]
              exact inductionHypothesis owns tab filled impossible
            · obtain ⟨reply, left, listed, ran, goesOn, _, owns₁, _, same, _⟩ :=
                runLine_otherwise tab filled owns empty defines
              have goesOn : reply.goesOn = true := by simpa [ends] using goesOn
              have later := inductionHypothesis owns₁ (same ▸ tab) filled impossible
              simp [InMemory.mainLoop, empty, ran, goesOn, later, bind, Except.bind]
        | some d =>
            have notEmpty := tokens_ne_nil_of_definitionOf defines
            rw [possible_cons ends defines] at impossible
            by_cases here : d.2 = [] ∨ nrWordCnts ≤ (keyIndex d.1 (m.aliases table)).1
            · have faults := runLine_faults owns defines here
              simp [InMemory.mainLoop, notEmpty, faults, bind, Except.bind]
            · rw [not_or, Nat.not_le] at here
              obtain ⟨someWords, hasPlace⟩ := here
              obtain ⟨reply, table₁, ran, goesOn, _, owns₁, defined⟩ :=
                runLine_defines owns defines someWords hasPlace
              have areWords := words_of_definitionOf defines
              obtain ⟨s₁, defined', tab₁⟩ := tab.defined d.1 areWords
                ((keyIndex_lt_iff tab d).mp hasPlace)
              obtain rfl := Except.ok.inj (defined.symm.trans defined')
              have later := inductionHypothesis owns₁ tab₁
                (filled.snoc areWords someWords) fun possible =>
                  impossible ⟨someWords, possible⟩
              simp [InMemory.mainLoop, notEmpty, ran, goesOn, later, bind, Except.bind]

/-- At the start nothing has been defined. -/
theorem start_tabulates : Tabulates [] (Memory.start.aliases []) ∧ Filled [] :=
  ⟨noAliases_tabulates, fun _ member => absurd member List.not_mem_nil,
    fun _ member => absurd member List.not_mem_nil⟩

/-- The session of a shell from its start, on lines of fewer than 32 words, ends
without an access that C gives no meaning if and only if each alias it defines has a
word and there are at most 33 keys: `alias key` writes the NUL of its value behind a
block of size 0, and the 34th key writes behind `v_wordCnt`. -/
theorem shell_memory_safe_iff (lines : List CommandLine) :
    (∃ out, InMemory.mainLoop lines Memory.start = .ok out) ↔
      (∀ d ∈ definitions lines, d.2 ≠ []) ∧
        (keysOf (definitions lines)).length ≤ nrWordCnts := by
  obtain ⟨tab, filled⟩ := start_tabulates
  constructor
  · rintro ⟨out, ran⟩
    by_cases possible : Possible [] lines
    · exact ⟨possible.notEmpty, possible.few⟩
    · rw [mainLoop_faults lines start_owns tab filled possible] at ran
      exact nomatch ran
  · rintro ⟨notEmpty, few⟩
    obtain ⟨m, table, left, listed, ran, _⟩ :=
      mainLoop_owns lines start_owns tab filled ⟨notEmpty, few⟩
    exact ⟨_, ran⟩

/-- Such a session does what it does in the model on lists, its children included:
a child does not read what is freed, and writes behind `tokens` where the model on
lists does.  At the end exactly this is allocated: a block for the key and one for
the value of each alias in the table, each of its own size, the two arrays that
point to them, and a block for each token that stood in a line from its first pipe
on. -/
theorem shell_owns_exactly (lines : List CommandLine)
    (notEmpty : ∀ d ∈ definitions lines, d.2 ≠ [])
    (few : (keysOf (definitions lines)).length ≤ nrWordCnts) :
    ∃ m table left listed,
      InMemory.mainLoop lines Memory.start = .ok (m, listed.map Action.inMemory) ∧
        mainLoop lines noAliases = .ok (m.aliases table, listed) ∧
        Owns m table left ∧ left.map Prod.snd = leaks lines := by
  obtain ⟨tab, filled⟩ := start_tabulates
  exact mainLoop_owns lines start_owns tab filled ⟨notEmpty, few⟩

/-- `alias l u`, `l | l w`, and `alias l w v`. -/
def pipedSession : List CommandLine :=
  [{ tokens := [aliasToken, ['l'], ['u']]
     words := by decide, fits := by decide },
   { tokens := [['l'], pipeToken, ['l'], ['w']]
     words := by decide, fits := by decide },
   { tokens := [aliasToken, ['l'], ['w'], ['v']]
     words := by decide, fits := by decide }]

/-- The three tokens from the pipe on are still there, next to the one alias. -/
theorem shell_owns_exactly_pipedSession :
    ∃ m table left listed,
      InMemory.mainLoop pipedSession Memory.start =
          .ok (m, listed.map Action.inMemory) ∧
        mainLoop pipedSession noAliases = .ok (m.aliases table, listed) ∧
        Owns m table left ∧ left.map Prod.snd = [pipeToken, ['l'], ['w']] :=
  shell_owns_exactly pipedSession (by decide) (by decide)

end OsPAs.Shell
