/-
Module: OsPAs.Shell.Bounds
Purpose: Sessions on the lines as they are read.  Three arrays of fixed length
  take as many tokens, words and aliases as the user cares to type: which
  sessions stay within them?
Trusted boundary: none
Main exports: session, mainLoop_eq_runAll, Avoids, InRange, reach, Spared,
  Roomy, addedTokens_reach, child_overruns, child_inRange_iff,
  session_inRange_iff, session_overruns
-/
import OsPAs.Lib.Commands
import OsPAs.Lib.Ensures
import OsPAs.Shell.Parser
import OsPAs.Shell.Session
import OsPAs.Shell.Shifting

namespace OsPAs.Shell

open Lib

variable {s : Aliases} {defs : List Definition}

/-- One pass of the loop of `main` on the line that `fgets` has read. -/
def session (command : CString) (s : Aliases) :
    Except Fault (List Action × Pass Aliases) := do
  let line ← readCommand command
  if line.tokens = [] then return ([], .again s)
  else
    let reply ← runCommand line s
    if reply.goesOn then return (reply.actions, .again reply.aliases)
    else return (reply.actions, .leave reply.aliases)

theorem session_of_lt {command : CString}
    (room : (runs command).length < maxNrTokens) (s : Aliases) :
    session command s =
      if (lineOf command room).tokens = [] then .ok ([], .again s)
      else do
        let reply ← runCommand (lineOf command room) s
        if reply.goesOn then return (reply.actions, .again reply.aliases)
        else return (reply.actions, .leave reply.aliases) := by
  rw [session, readCommand_of_lt room]
  rfl

theorem session_of_le {command : CString}
    (full : maxNrTokens ≤ (runs command).length) (s : Aliases) :
    session command s = .error .outOfBounds := by
  rw [session, readCommand_of_le full]
  rfl

/-- On lines that `tokens` has room for, the loop of `main` runs their command
lines. -/
theorem mainLoop_eq_runAll
    (lines : List { command : CString // (runs command).length < maxNrTokens })
    (s : Aliases) :
    mainLoop (lines.map fun line => lineOf line.1 line.2) s =
      (runAll session lines.unattach s).map fun (actions, pass) =>
        (pass.state, actions.flatten) := by
  induction lines generalizing s with
  | nil => rfl
  | cons line lines inductionHypothesis =>
      simp only [List.map_cons, List.unattach_cons, mainLoop, runAll, session,
        readCommand_of_lt line.2, bind, Except.bind]
      split
      · rw [inductionHypothesis]
        cases later : runAll session lines.unattach s with
        | error fault => simp [later, emit, pure, Except.pure, Except.map]
        | ok result => simp [later, emit, pure, Except.pure, Except.map]
      · cases runCommand (lineOf line.1 line.2) s with
        | error fault => rfl
        | ok reply =>
            cases goesOn : reply.goesOn with
            | false => simp [goesOn, pure, Except.pure, Except.map, Pass.state]
            | true =>
                simp only [goesOn, if_true, inductionHypothesis]
                cases later : runAll session lines.unattach reply.aliases with
                | error fault => simp [later, emit, pure, Except.pure, Except.map]
                | ok result => simp [later, emit, pure, Except.pure, Except.map]

/-- The fault does not come up, in the shell itself or in a child process that it
forks for the line. -/
def Avoids (fault : Fault) (command : CString) (s : Aliases) : Prop :=
  session command s ≠ .error fault ∧
    ∀ actions pass, session command s = .ok (actions, pass) →
      Action.exec (.error fault) ∉ actions

/-- The faults with which an access may be out of range: it is, or it depends on a
string that was freed.  A child that finds a key there goes on to write the words
of its alias. -/
def straying : List Fault := [.outOfBounds, .useAfterFree]

/-- No array is accessed out of its bounds, whatever a freed string reads like. -/
def InRange (command : CString) (s : Aliases) : Prop :=
  ∀ fault ∈ straying, Avoids fault command s

/-! ### The condition -/

/-- The number of entries that the token takes when it is expanded. -/
def width (s : Aliases) (token : CString) : Nat :=
  match findAliasIndex s token with
  | none => 1
  | some pos => if inside : pos < nrWordCnts then s.wordCnt ⟨pos, inside⟩ else 0

/-- The number of entries that the tokens take at most while they are expanded: a
token keeps its own until its words replace it. -/
def reach (s : Aliases) : List CString → Nat
  | [] => 0
  | token :: rest => max 1 (width s token) + reach s rest

/-- None but the last token is an alias without words.  In front of other tokens the
last of them is freed, and looked up behind it. -/
def Spared (s : Aliases) : List CString → Prop
  | [] => True
  | token :: rest => (width s token = 0 → rest = []) ∧ Spared s rest

/-- The tokens can be expanded from entry `base` on: no token is looked up that was
freed, and there is room for NULL behind them all. -/
structure SideFits (s : Aliases) (base : Nat) (tokens : List CString) : Prop where
  spared : Spared s tokens
  room : base + reach s tokens < maxNrTokens

/-- The tokens of each side of a pipe, or of the only program, can be expanded, and
`v_wordCnt` has room for a new alias. -/
structure LineFits (line : CommandLine) (s : Aliases) : Prop where
  define : ∀ d, definitionOf line = some d → findAliasIndex s d.1 = none →
    s.entries.length < nrWordCnts
  external : External line → SideFits s 0 line.tokens
  pipe : ∀ left right, line.tokens = left ++ pipeToken :: right →
    pipeToken ∉ left → SideFits s 0 left ∧ SideFits s (left.length + 1) right

/-- `tokens` has room for the words of the line and NULL, and the line fits. -/
def Roomy (command : CString) (s : Aliases) : Prop :=
  ∃ room : (runs command).length < maxNrTokens, LineFits (lineOf command room) s

/-! ### Overruns -/

section Overruns

variable {α : Type} {tokens : SlotsOf α}

theorem slot_faultsOnly (k : Int) : FaultsOnly .outOfBounds (slot k) := by
  rw [slot]
  split
  · exact faultsOnly_ok _
  · exact faultsOnly_error

theorem moveToken_faultsOnly (tokens : SlotsOf α) (k source : Int) :
    FaultsOnly .outOfBounds (moveToken tokens k source) :=
  (slot_faultsOnly k).bind fun _ => (slot_faultsOnly source).bind fun _ =>
    faultsOnly_ok _

/-- Without room for the words and NULL, making room overruns the array. -/
theorem spaceBackWordCnt_overrun {base nrTokens tokIdx valIdx w : Nat}
    {inside : valIdx < nrWordCnts} (counted : s.wordCnt ⟨valIdx, inside⟩ = w)
    (full : maxNrTokens < base + nrTokens + w) :
    spaceBackWordCnt s tokens base nrTokens tokIdx valIdx =
      .error .outOfBounds := by
  have last : (base : Int) + ((nrTokens : Int) + (w : Nat) - 1) =
      (base + nrTokens + w - 1 : Nat) := by
    omega
  have ran : spaceBackWordCnt s tokens base nrTokens tokIdx valIdx =
      ((downFrom (nrTokens + (w : Nat) - 2) (tokIdx + (w : Nat))).foldlM
        (fun tokens i =>
          moveToken tokens (base + i) (base + (i - (w : Nat) + 1))) tokens >>=
        fun tokens => slot (base + ((nrTokens : Int) + (w : Nat) - 1)) >>=
          fun cell => .ok (Function.update tokens cell none)) := by
    subst counted
    rw [spaceBackWordCnt, wordCntCell, dif_pos inside]
    rfl
  rw [ran, last, slot_of_le (by omega)]
  exact (faultsOnly_foldlM (fun tokens _ => moveToken_faultsOnly tokens _ _) _
    tokens).bind_eq_error fun _ => rfl

end Overruns

/-! ### The expansion -/

section Expansion

variable {tokens : Slots} {base : Nat} {token : CString}
  {before rest todo : List CString}

theorem width_eq (tab : Tabulates defs s) (token : CString) :
    width s token = ((latest defs token).getD [token]).length := by
  rw [width]
  cases found : findAliasIndex s token with
  | none =>
      rw [tab.find_none.mp found]
      rfl
  | some pos =>
      obtain ⟨_, words, _, isLatest, _, inside, counted⟩ := tab.find_some found
      simp only [dif_pos inside, counted, isLatest]
      rfl

/-- The tokens take at least their own entries. -/
theorem length_le_reach (s : Aliases) (tokens : List CString) :
    tokens.length ≤ reach s tokens := by
  induction tokens with
  | nil => exact Nat.le_refl _
  | cons token rest inductionHypothesis =>
      rw [reach, List.length_cons]
      omega

theorem latest_of_width_zero (tab : Tabulates defs s) (zero : width s token = 0) :
    latest defs token = some [] := by
  rw [width_eq tab, List.length_eq_zero_iff] at zero
  cases isLatest : latest defs token with
  | none => simp [isLatest] at zero
  | some words =>
      rw [isLatest] at zero
      exact congrArg some zero

/-- Without room for the words of an alias a pass overruns the array. -/
theorem addedToken_overrun (tab : Tabulates defs s)
    (laid : Laid tokens base (before ++ token :: rest))
    (room : base + before.length + 1 + rest.length < maxNrTokens)
    (full : maxNrTokens ≤ base + before.length + width s token + rest.length) :
    addedToken base
        { aliases := s, tokens := tokens
          nrTokens := before.length + 1 + rest.length, i := before.length } =
      .error .outOfBounds := by
  have read := laid.tokenAt (by omega)
  rw [width] at full
  cases found : findAliasIndex s token with
  | none =>
      rw [found] at full
      simp only at full
      omega
  | some pos =>
      obtain ⟨_, _, _, _, _, inside, _⟩ := tab.find_some found
      simp only [found, dif_pos inside] at full
      have overrun : spaceBackWordCnt s tokens base
          (before.length + 1 + rest.length) before.length pos =
            .error .outOfBounds :=
        spaceBackWordCnt_overrun rfl (by omega)
      simp only [addedToken, currentToken_eq, read, found, overrun, bind, Except.bind]

theorem freeToken_zero {k : Nat} (inside : k < maxNrTokens) :
    freeToken tokens k 0 = .ok (tokens ⟨k, inside⟩).isSome := by
  simp [freeToken, slot_of_lt inside, bind, Except.bind, pure, Except.pure]

/-- Where an alias without words stood, the last token behind it stands, or NULL
if there is none. -/
theorem spaceBackWordCnt_smeared {pos : Nat} {inside : pos < nrWordCnts}
    (counted : s.wordCnt ⟨pos, inside⟩ = 0)
    (laid : Laid tokens base (before ++ token :: rest))
    (room : base + before.length + 1 + rest.length < maxNrTokens) :
    ∃ tokens', spaceBackWordCnt s tokens base (before.length + 1 + rest.length)
        before.length pos = .ok tokens' ∧
      tokens' ⟨base + before.length, by omega⟩ = rest.getLast? ∧
      ∀ k : Fin maxNrTokens, k.val < base + before.length →
        tokens' k = tokens k := by
  refine ⟨_, spaceBackWordCnt_zero counted (by omega) (by omega), ?_,
    fun k low => ?_⟩
  · rcases List.eq_nil_or_concat rest with rfl | ⟨front, last, rfl⟩
    · rw [if_pos (by simp; omega)]
      rfl
    · simp only [List.concat_eq_append, List.length_append, List.length_singleton]
      have index : base + (before.length + 1 + (front.length + 1)) - 1 - base =
          (before ++ token :: front).length := by
        simp
        omega
      rw [if_neg (by omega), if_pos (by omega), laid _ (by simp; omega)
        (by simp; omega)]
      simp only [index]
      rw [List.concat_eq_append, ← List.cons_append, ← List.append_assoc,
        List.getElem?_concat_length, List.getLast?_concat]
  · rw [if_neg (by omega), if_neg (by omega)]

/-- An alias without words leaves the array one token shorter.  If it is not the last
token, what stands in its entry has been freed. -/
theorem addedToken_zero (tab : Tabulates defs s)
    (isLatest : latest defs token = some [])
    (laid : Laid tokens base (before ++ token :: rest))
    (room : base + before.length + 1 + rest.length < maxNrTokens) :
    ∃ tokens', addedToken base
        { aliases := s, tokens := tokens
          nrTokens := before.length + 1 + rest.length, i := before.length } =
      .ok {
        aliases := s
        tokens := tokens'
        nrTokens := before.length + rest.length
        i := before.length
        freed := rest ≠ [] } ∧
      (rest = [] → Laid tokens' base before) := by
  have read := laid.tokenAt (by omega)
  obtain ⟨pos, found⟩ : ∃ pos, findAliasIndex s token = some pos := by
    cases found : findAliasIndex s token with
    | none =>
        rw [tab.find_none.mp found] at isLatest
        simp at isLatest
    | some pos => exact ⟨pos, rfl⟩
  obtain ⟨entry, words, atPos, isLatest', isVal, inside, counted⟩ :=
    tab.find_some found
  obtain rfl : words = [] := Option.some.inj (isLatest'.symm.trans isLatest)
  rw [List.length_nil] at counted
  obtain ⟨tokens', moved, here, front⟩ :=
    spaceBackWordCnt_smeared counted laid room
  have replaced : replaceTokenWithAlias s tokens' base before.length pos =
      .ok (tokens', s) :=
    replaceTokenWithAlias_eq (by simp) atPos isVal rfl
  have isFreed : freeToken tokens' (base + before.length) 0 =
      .ok (decide (rest ≠ [])) := by
    rw [freeToken_zero (by omega), here, Except.ok.injEq, Bool.eq_iff_iff,
      List.getLast?_isSome, decide_eq_true_iff]
  have number : before.length + 1 + rest.length + 0 - 1 =
      before.length + rest.length := by
    omega
  refine ⟨tokens', ?_, ?_⟩
  · simp only [addedToken, currentToken_eq, read, found, moved, wordCntCell,
      dif_pos inside, counted, isFreed, replaced, number, bind, Except.bind, pure,
      Except.pure]
    rfl
  · rintro rfl k low high
    rcases Nat.lt_or_ge k.val (base + before.length) with inFront | atEnd
    · rw [front k inFront, laid k low (by simp; omega),
        List.getElem?_append_left (by omega)]
    · have isHere : k = ⟨base + before.length, by simp at room; omega⟩ :=
        Fin.ext (show k.val = base + before.length by omega)
      rw [List.getElem?_eq_none (by omega), isHere, here]
      rfl

/-- The next pass reads what has been freed. -/
theorem addedToken_freed (c : Expansion) (isFreed : c.freed) :
    addedToken base c = .error .useAfterFree := by
  simp only [addedToken, currentToken, if_pos isFreed, bind, Except.bind]

/-- A token with a place for its words is replaced by them. -/
theorem addedToken_fits (tab : Tabulates defs s)
    (areWords : ∀ d ∈ defs, ∀ word ∈ d.2, IsWord delimiters word)
    (laid : Laid tokens base (before ++ token :: rest))
    (positive : width s token ≠ 0)
    (fits : base + before.length + width s token + rest.length < maxNrTokens) :
    ∃ tokens' words, words.length = before.length + width s token ∧
      addedToken base
        { aliases := s, tokens := tokens
          nrTokens := before.length + 1 + rest.length, i := before.length } =
      .ok {
        aliases := s
        tokens := tokens'
        nrTokens := words.length + rest.length
        i := words.length } ∧
      Laid tokens' base (words ++ rest) := by
  rw [width_eq tab] at positive fits ⊢
  have notEmpty : latest defs token ≠ some [] := fun isLatest =>
    positive (by rw [isLatest]; rfl)
  obtain ⟨tokens', replaced, laid'⟩ :=
    addedToken_spec tab areWords notEmpty laid fits
  exact ⟨tokens', _, List.length_append, replaced, laid'⟩

/-- The loop ends within the array, with the tokens in it and NULL behind them. -/
def EndsInside (s : Aliases) (base : Nat) (run : Except Fault Expansion) : Prop :=
  ∃ tokens words,
    run = .ok {
      aliases := s
      tokens := tokens
      nrTokens := words.length
      i := words.length } ∧
    Laid tokens base words ∧ base + words.length < maxNrTokens

/-- The loop over the tokens that it has still to visit, if no token is looked up
that was freed: it stays within the array if it has room for what the tokens take,
and overruns it else. -/
theorem addedTokens_reach (tab : Tabulates defs s)
    (areWords : ∀ d ∈ defs, ∀ word ∈ d.2, IsWord delimiters word)
    (todo before : List CString) (tokens : Slots)
    (laid : Laid tokens base (before ++ todo))
    (room : base + before.length + todo.length < maxNrTokens)
    (spared : Spared s todo) :
    (base + before.length + reach s todo < maxNrTokens →
      EndsInside s base (addedTokens base todo.length
        { aliases := s, tokens := tokens
          nrTokens := before.length + todo.length, i := before.length })) ∧
    (maxNrTokens ≤ base + before.length + reach s todo →
      addedTokens base todo.length
        { aliases := s, tokens := tokens
          nrTokens := before.length + todo.length, i := before.length } =
      .error .outOfBounds) := by
  induction todo generalizing before tokens with
  | nil =>
      rw [List.append_nil] at laid
      refine ⟨fun fits => ⟨tokens, before, rfl, laid, fits⟩, fun full => ?_⟩
      simp only [reach, List.length_nil] at full room
      omega
  | cons token rest inductionHypothesis =>
      obtain ⟨isLast, sparedRest⟩ := spared
      rw [List.length_cons] at room
      rw [addedTokens_cons, reach]
      by_cases zero : width s token = 0
      · obtain rfl := isLast zero
        obtain ⟨tokens', replaced, laid'⟩ :=
          addedToken_zero tab (latest_of_width_zero tab zero) laid (by omega)
        rw [zero, replaced]
        simp only [reach, List.length_nil] at room ⊢
        refine ⟨fun _ => ⟨tokens', before, rfl, laid' rfl, by omega⟩, fun full => ?_⟩
        omega
      · have positive : max 1 (width s token) = width s token := by omega
        have longer := length_le_reach s rest
        rw [positive]
        rcases Nat.lt_or_ge
          (base + before.length + width s token + rest.length) maxNrTokens
          with fits | full
        · obtain ⟨tokens', words, length, replaced, laid'⟩ :=
            addedToken_fits tab areWords laid zero fits
          have goesOn := inductionHypothesis words tokens' laid' (by omega) sparedRest
          rw [replaced]
          rw [length, ← Nat.add_assoc, Nat.add_assoc _ (width s token)] at goesOn
          rw [length]
          exact goesOn
        · rw [addedToken_overrun tab laid (by omega) full]
          exact ⟨fun fits => by omega, fun _ => rfl⟩

/-- With an alias without words in front of other tokens, the loop overruns the
array or reads a token that it has freed. -/
theorem addedTokens_strays (tab : Tabulates defs s)
    (areWords : ∀ d ∈ defs, ∀ word ∈ d.2, IsWord delimiters word)
    (todo before : List CString) (tokens : Slots)
    (laid : Laid tokens base (before ++ todo))
    (room : base + before.length + todo.length < maxNrTokens)
    (notSpared : ¬ Spared s todo) :
    ∃ fault ∈ straying, addedTokens base todo.length
        { aliases := s, tokens := tokens
          nrTokens := before.length + todo.length, i := before.length } =
      .error fault := by
  induction todo generalizing before tokens with
  | nil => exact absurd trivial notSpared
  | cons token rest inductionHypothesis =>
      rw [List.length_cons] at room
      rw [addedTokens_cons]
      by_cases zero : width s token = 0
      · obtain ⟨tokens', replaced, _⟩ :=
          addedToken_zero tab (latest_of_width_zero tab zero) laid (by omega)
        rw [replaced]
        cases rest with
        | nil => exact absurd ⟨fun _ => rfl, trivial⟩ notSpared
        | cons next rest =>
            refine ⟨.useAfterFree, by decide, ?_⟩
            have another : before.length < before.length + (next :: rest).length := by
              simp
            simp only [List.length_cons, bind, Except.bind, addedTokens] at another ⊢
            rw [if_pos another, addedToken_freed _ (by simp)]
      · rcases Nat.lt_or_ge
          (base + before.length + width s token + rest.length) maxNrTokens
          with fits | full
        · obtain ⟨tokens', words, length, replaced, laid'⟩ :=
            addedToken_fits tab areWords laid zero fits
          rw [replaced]
          exact inductionHypothesis words tokens' laid' (by omega) fun spared =>
            notSpared ⟨fun none => absurd none zero, spared⟩
        · rw [addedToken_overrun tab laid (by omega) full]
          exact ⟨.outOfBounds, by decide, rfl⟩

/-- A child that has no room for what its tokens take overruns the array. -/
theorem child_overruns (tab : Tabulates defs s)
    (areWords : ∀ d ∈ defs, ∀ word ∈ d.2, IsWord delimiters word)
    {words : List CString} (laid : Laid tokens base words)
    (room : base + words.length < maxNrTokens) (spared : Spared s words)
    (full : maxNrTokens ≤ base + reach s words) :
    child s tokens base words.length = .error .outOfBounds := by
  have overrun :=
    (addedTokens_reach tab areWords words [] tokens laid room spared).2 full
  simp only [List.length_nil, Nat.zero_add] at overrun
  simp only [child, overrun, bind, Except.bind]

/-- A child stays within the array if and only if its tokens can be expanded. -/
theorem child_inRange_iff (tab : Tabulates defs s)
    (areWords : ∀ d ∈ defs, ∀ word ∈ d.2, IsWord delimiters word)
    {words : List CString} (laid : Laid tokens base words)
    (room : base + words.length < maxNrTokens) :
    (∀ fault ∈ straying, child s tokens base words.length ≠ .error fault) ↔
      SideFits s base words := by
  constructor
  · intro inRange
    have spared : Spared s words := by
      by_contra notSpared
      obtain ⟨fault, strays, looped⟩ :=
        addedTokens_strays tab areWords words [] tokens laid room notSpared
      simp only [List.length_nil, Nat.zero_add] at looped
      exact inRange fault strays (by simp only [child, looped, bind, Except.bind])
    refine ⟨spared, ?_⟩
    by_contra full
    exact inRange .outOfBounds (by decide)
      (child_overruns tab areWords laid room spared (Nat.le_of_not_lt full))
  · rintro ⟨spared, fits⟩ fault _
    obtain ⟨tokens', words', looped, laid', fits'⟩ :=
      (addedTokens_reach tab areWords words [] tokens laid room spared).1 fits
    simp only [List.length_nil, Nat.zero_add] at looped
    simp [child, looped, laid'.argVector fits', bind, Except.bind, pure, Except.pure]

end Expansion

/-! ### One line -/

section Line

variable {line : CommandLine} {left right left' right' : List CString}
  {key : CString} {words : List CString}

/-- The table has no more entries than `v_wordCnt`. -/
theorem Tabulates.length_le (tab : Tabulates defs s) :
    s.entries.length ≤ nrWordCnts := by
  by_contra long
  have behind : nrWordCnts < s.entries.length := by omega
  obtain ⟨_, _, _, inside, _⟩ :=
    tab.vals nrWordCnts _ (List.getElem?_eq_getElem behind)
  omega

/-- A definition overruns `v_wordCnt` if it adds a key to a full table. -/
theorem defineAlias_inRange_iff (tab : Tabulates defs s) (key : CString)
    (areWords : ∀ word ∈ words, IsWord delimiters word) :
    (∀ fault ∈ straying, defineAlias key words s ≠ .error fault) ↔
      (findAliasIndex s key = none → s.entries.length < nrWordCnts) := by
  have few : (keyIndex key s).1 < nrWordCnts ↔
      (findAliasIndex s key = none → s.entries.length < nrWordCnts) := by
    rw [keyIndex]
    cases found : findAliasIndex s key with
    | none => simp
    | some pos =>
        obtain ⟨_, _, _, _, _, inside, _⟩ := tab.find_some found
        simp [inside]
  rw [← few]
  constructor
  · intro inRange
    by_contra full
    apply inRange .outOfBounds (by decide)
    simp only [defineAlias, wordCntCell, dif_neg full, bind, Except.bind]
  · intro few' fault _
    rw [defineAlias_eq areWords few']
    simp

theorem sides_unique (same : left ++ pipeToken :: right =
      left' ++ pipeToken :: right') (first : pipeToken ∉ left)
    (first' : pipeToken ∉ left') : left = left' ∧ right = right' := by
  induction left generalizing left' with
  | nil =>
      cases left' with
      | nil => exact ⟨rfl, List.cons.inj same |>.2⟩
      | cons token left' =>
          obtain ⟨rfl, _⟩ := List.cons.inj same
          exact absurd List.mem_cons_self first'
  | cons token left inductionHypothesis =>
      cases left' with
      | nil =>
          obtain ⟨rfl, _⟩ := List.cons.inj same
          exact absurd List.mem_cons_self first
      | cons token' left' =>
          obtain ⟨rfl, rest⟩ := List.cons.inj same
          obtain ⟨rfl, rfl⟩ := inductionHypothesis rest
            (fun member => first (List.mem_cons_of_mem _ member))
            (fun member => first' (List.mem_cons_of_mem _ member))
          exact ⟨rfl, rfl⟩

/-- A line without a pipe that defines no alias and runs no program fits. -/
theorem lineFits_of_builtIn (noPipe : pipeToken ∉ line.tokens)
    (noDefinition : ∀ key words, line.tokens ≠ aliasToken :: key :: words)
    (notExternal : ¬ External line) : LineFits line s where
  define := fun d defines =>
    absurd (tokens_of_definitionOf defines).2 (noDefinition d.1 d.2)
  external := fun isExternal => absurd isExternal notExternal
  pipe := fun left right tokensEq => absurd (by simp [tokensEq]) noPipe

/-- What `run_command` and the children that it forks access is in range. -/
def RunsInRange (run : Except Fault Reply) : Prop :=
  ∀ fault ∈ straying, run ≠ .error fault ∧ ∀ reply, run = .ok reply →
    Action.exec (.error fault) ∉ reply.actions

theorem runsInRange_ok (reply : Reply) : RunsInRange (.ok reply) ↔
    ∀ fault ∈ straying, Action.exec (.error fault) ∉ reply.actions := by
  simp [RunsInRange]

theorem pipe_inRange_iff (tab : Tabulates defs s)
    (areWords : ∀ d ∈ defs, ∀ word ∈ d.2, IsWord delimiters word)
    (tokensEq : line.tokens = left ++ pipeToken :: right)
    (first : pipeToken ∉ left) :
    RunsInRange (runCommand line s) ↔ LineFits line s := by
  have fits := line.fits
  obtain ⟨laidLeft, laidRight⟩ := CommandLine.laid_sides tokensEq
  rw [tokensEq, List.length_append, List.length_cons] at fits
  have leftIff := child_inRange_iff tab areWords laidLeft (by omega)
  have rightIff := child_inRange_iff tab areWords laidRight (by omega)
  have piped : pipeToken ∈ line.tokens := by simp [tokensEq]
  have both : RunsInRange (runCommand line s) ↔
      SideFits s 0 left ∧ SideFits s (left.length + 1) right := by
    rw [runCommand_of_pipe tokensEq first, runsInRange_ok, ← leftIff, ← rightIff,
      ← forall₂_and]
    simp only [List.mem_cons, List.not_mem_nil, or_false, not_or, Action.exec.injEq,
      ne_eq, eq_comm, and_comm]
  rw [both]
  constructor
  · rintro ⟨leftFits, rightFits⟩
    refine ⟨fun d defines => ?_, fun isExternal => ?_, ?_⟩
    · exact absurd piped (tokens_of_definitionOf defines).1
    · exact absurd piped isExternal.1
    · intro left' right' tokensEq' first'
      obtain ⟨rfl, rfl⟩ :=
        sides_unique (tokensEq.symm.trans tokensEq') first first'
      exact ⟨leftFits, rightFits⟩
  · intro lineFits
    exact lineFits.pipe left right tokensEq first

theorem define_inRange_iff (tab : Tabulates defs s) {d : Definition}
    (defines : definitionOf line = some d) :
    RunsInRange (runCommand line s) ↔ LineFits line s := by
  obtain ⟨noPipe, tokensEq⟩ := tokens_of_definitionOf defines
  have inRange := defineAlias_inRange_iff tab d.1 (words_of_definitionOf defines)
  have lineFits_iff : LineFits line s ↔
      (findAliasIndex s d.1 = none → s.entries.length < nrWordCnts) := by
    refine ⟨fun lineFits => lineFits.define d defines, fun few => ⟨?_, ?_, ?_⟩⟩
    · intro d' defines'
      obtain rfl := Option.some.inj (defines.symm.trans defines')
      exact few
    · rintro ⟨_, command, args, tokensEq', notBuiltIn⟩
      obtain ⟨rfl, _⟩ := List.cons.inj (tokensEq.symm.trans tokensEq')
      simp at notBuiltIn
    · exact fun left right tokensEq => absurd (by simp [tokensEq]) noPipe
  rw [runCommand_of_definition defines, lineFits_iff, ← inRange]
  cases defineAlias d.1 d.2 s with
  | error fault => simp [RunsInRange, bind, Except.bind]
  | ok s' => simp [RunsInRange, bind, Except.bind, pure, Except.pure]

theorem single_inRange_iff (tab : Tabulates defs s)
    (areWords : ∀ d ∈ defs, ∀ word ∈ d.2, IsWord delimiters word)
    (noPipe : pipeToken ∉ line.tokens) (notEmpty : line.tokens ≠ []) :
    RunsInRange (runCommand line s) ↔ LineFits line s := by
  obtain ⟨command, args, tokensEq⟩ := List.exists_cons_of_ne_nil notEmpty
  have external_iff : External line ↔
      command ∉ [exitToken, cdToken, aliasToken] := by
    constructor
    · rintro ⟨_, command', args', tokensEq', notBuiltIn⟩
      obtain ⟨rfl, _⟩ := List.cons.inj (tokensEq.symm.trans tokensEq')
      exact notBuiltIn
    · exact fun notBuiltIn => ⟨noPipe, command, args, tokensEq, notBuiltIn⟩
  by_cases builtIn : command ∈ [exitToken, cdToken, aliasToken]
  · have notExternal : ¬ External line := fun isExternal =>
      external_iff.mp isExternal builtIn
    cases defines : definitionOf line with
    | some d => exact define_inRange_iff tab defines
    | none =>
        have noDefinition (key : CString) (words : List CString) :
            line.tokens ≠ aliasToken :: key :: words := fun same => by
          rw [definitionOf, same, definedBy] at defines
          rw [same] at noPipe
          simp [noPipe] at defines
        refine iff_of_true ?_
          (lineFits_of_builtIn noPipe noDefinition notExternal)
        rw [runCommand, findIdx?_pipe_eq_none.mpr noPipe, tokensEq]
        simp only
        split
        · simp [runsInRange_ok]
        · split
          · simp [runsInRange_ok]
          · rename_i notExit notCd
            obtain rfl : command = aliasToken := by
              simpa [notExit, notCd] using builtIn
            cases args with
            | nil => simp [runsInRange_ok]
            | cons key words => exact absurd tokensEq (noDefinition key words)
  · have isExternal := external_iff.mpr builtIn
    have fits := line.fits
    have inRange := child_inRange_iff tab areWords line.laid (by omega)
    have ran : RunsInRange (runCommand line s) ↔ SideFits s 0 line.tokens := by
      rw [runCommand_of_external isExternal, runsInRange_ok, ← inRange]
      simp only [List.mem_singleton, Action.exec.injEq, ne_eq, eq_comm]
    rw [ran]
    refine ⟨fun fits => ⟨fun d defines => ?_, fun _ => fits, ?_⟩,
      fun lineFits => lineFits.external isExternal⟩
    · obtain ⟨rfl, _⟩ := List.cons.inj
        (tokensEq.symm.trans (tokens_of_definitionOf defines).2)
      simp at builtIn
    · exact fun left right tokensEq => absurd (by simp [tokensEq]) noPipe

theorem runCommand_inRange_iff (tab : Tabulates defs s)
    (areWords : ∀ d ∈ defs, ∀ word ∈ d.2, IsWord delimiters word)
    (notEmpty : line.tokens ≠ []) :
    RunsInRange (runCommand line s) ↔ LineFits line s := by
  by_cases piped : pipeToken ∈ line.tokens
  · obtain ⟨left, right, tokensEq, first⟩ := List.eq_append_cons_of_mem piped
    exact pipe_inRange_iff tab areWords tokensEq first
  · exact single_inRange_iff tab areWords piped notEmpty

end Line

/-! ### Sessions -/

section Sessions

variable {command : CString} {line : CommandLine}

/-- The table lists definitions, of words. -/
def Tabulated (s : Aliases) : Prop :=
  ∃ defs, Tabulates defs s ∧
    ∀ d ∈ defs, ∀ word ∈ d.2, IsWord delimiters word

theorem noAliases_tabulated : Tabulated noAliases :=
  ⟨[], noAliases_tabulates, by simp⟩

/-- A line is handled within the arrays if and only if there is room. -/
theorem inRange_iff (tabulated : Tabulated s) (command : CString) :
    InRange command s ↔ Roomy command s := by
  obtain ⟨defs, tab, areWords⟩ := tabulated
  rcases Nat.lt_or_ge (runs command).length maxNrTokens with room | full
  · have roomy : Roomy command s ↔ LineFits (lineOf command room) s :=
      ⟨fun ⟨_, fits⟩ => fits, fun fits => ⟨room, fits⟩⟩
    rw [roomy]
    unfold InRange Avoids
    rw [session_of_lt room]
    split
    · rename_i empty
      refine iff_of_true (by simp)
        (lineFits_of_builtIn (by simp [empty]) (by simp [empty]) ?_)
      rintro ⟨_, _, _, tokensEq, _⟩
      simp [empty] at tokensEq
    · rename_i notEmpty
      rw [← runCommand_inRange_iff tab areWords notEmpty, RunsInRange]
      cases runCommand (lineOf command room) s with
      | error fault => simp [bind, Except.bind]
      | ok reply =>
          cases goesOn : reply.goesOn with
          | true => simp [goesOn, bind, Except.bind, pure, Except.pure]
          | false => simp [goesOn, bind, Except.bind, pure, Except.pure]
  · refine iff_of_false (fun inRange => ?_) fun ⟨room, _⟩ => by omega
    exact (inRange .outOfBounds (by decide)).1 (session_of_le full s)

/-- A command line that is handled leaves a table of definitions. -/
theorem runCommand_tabulated (tabulated : Tabulated s)
    (notEmpty : line.tokens ≠ []) {reply : Reply}
    (ran : runCommand line s = .ok reply) : Tabulated reply.aliases := by
  by_cases ends : exits line
  · rw [runCommand_of_exits ends] at ran
    obtain rfl := Except.ok.inj ran
    exact tabulated
  · cases defines : definitionOf line with
    | none =>
        obtain ⟨actions, ran'⟩ := runCommand_otherwise notEmpty ends defines
        obtain rfl := Except.ok.inj (ran'.symm.trans ran)
        exact tabulated
    | some d =>
        obtain ⟨defs, tab, areWords⟩ := tabulated
        have words := words_of_definitionOf defines
        have few := (defineAlias_inRange_iff tab d.1 words).mp (by
          intro fault _ overrun
          rw [runCommand_of_definition defines, overrun] at ran
          simp [bind, Except.bind] at ran)
        have short : (keysOf (defs ++ [d])).length ≤ nrWordCnts := by
          rw [keysOf_defined defs d.1 d.2, ← tab.keys]
          split
          · rw [List.length_map]
            exact tab.length_le
          · rename_i new
            rw [List.length_append, List.length_map]
            exact few (findAliasIndex_eq_none.mpr new)
        obtain ⟨s', defined, tab'⟩ := tab.defined d.1 words short
        rw [runCommand_of_definition defines, defined] at ran
        obtain rfl := Except.ok.inj ran
        refine ⟨_, tab', fun d' member => ?_⟩
        rcases List.mem_append.mp member with old | new
        · exact areWords d' old
        · rw [List.mem_singleton.mp new]
          exact words

theorem session_tabulated (tabulated : Tabulated s) {actions : List Action}
    {pass : Pass Aliases} (ran : session command s = .ok (actions, pass)) :
    Tabulated pass.state := by
  rw [session] at ran
  cases read : readCommand command with
  | error fault => simp [read, bind, Except.bind] at ran
  | ok line =>
      rw [read] at ran
      simp only [bind, Except.bind] at ran
      split at ran
      · obtain ⟨_, rfl⟩ := Prod.mk.inj (Except.ok.inj ran)
        exact tabulated
      · rename_i notEmpty
        cases replied : runCommand line s with
        | error fault => simp [replied] at ran
        | ok reply =>
            rw [replied] at ran
            have tabulated' := runCommand_tabulated tabulated notEmpty replied
            simp only at ran
            split at ran
            · obtain ⟨_, rfl⟩ := Prod.mk.inj (Except.ok.inj ran)
              exact tabulated'
            · obtain ⟨_, rfl⟩ := Prod.mk.inj (Except.ok.inj ran)
              exact tabulated'

/-- A session stays within its arrays, in every line and in every child process,
if and only if for every line there is room: in `tokens` for its words and for
the words of its aliases, with NULL behind them, and in `v_wordCnt` for the alias
it adds; and no alias without words stands in front of other tokens. -/
theorem session_inRange_iff (lines : List CString) :
    Along session InRange lines noAliases ↔
      Along session Roomy lines noAliases := by
  have reached {P : CString → Aliases → Prop}
      (along : Along session P lines noAliases) (s : Aliases)
      (reaches : Reaches session lines noAliases s) : Tabulated s :=
    reaches_invariant Tabulated
      (fun _ _ _ _ tabulated _ ran => session_tabulated tabulated ran)
      noAliases_tabulated along reaches
  constructor
  · intro along
    exact along.of_reaches
      (fun command _ tabulated => (inRange_iff tabulated command).mp)
      (reached along)
  · intro along
    exact along.of_reaches
      (fun command _ tabulated => (inRange_iff tabulated command).mpr)
      (reached along)

/-- `n` words. -/
def wordsLine (n : Nat) : CString :=
  (List.replicate n ['a', ' ']).flatten ++ ['\n']

/-- The definition of an alias for `n` words. -/
def aliasLine (key : Char) (n : Nat) : CString :=
  aliasToken ++ [' ', key, ' '] ++ wordsLine n

/-- A line of 32 words, a second use of an alias for 16 words in one line, and a
definition of a 34th key leave the arrays; an alias without words in front of a
token makes a child read what it has freed. -/
theorem session_overruns :
    ¬ Along session (Avoids .outOfBounds) [wordsLine 32] noAliases ∧
      ¬ Along session (Avoids .outOfBounds)
        [aliasLine 'x' 16, ['x', ' ', 'x', '\n']] noAliases ∧
      ¬ Along session (Avoids .outOfBounds)
        ((List.range 34).map fun k => aliasLine (Char.ofNat (65 + k)) 1)
        noAliases ∧
      ¬ Along session (Avoids .useAfterFree)
        [aliasLine 'x' 0, ['x', ' ', 'a', '\n']] noAliases := by
  refine ⟨fun along => along.1.1 rfl, fun along => ?_, fun along => ?_,
    fun along => ?_⟩
  · have second := (along.2 _ _ rfl).1
    exact second.2 _ _ rfl (List.mem_singleton.mpr rfl)
  · rw [List.range_succ, List.map_append] at along
    -- the first 33 keys fit
    exact (along.behind rfl).1.1 rfl
  · have second := (along.2 _ _ rfl).1
    exact second.2 _ _ rfl (List.mem_singleton.mpr rfl)

end Sessions

end OsPAs.Shell
