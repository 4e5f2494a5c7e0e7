/-
Module: OsPAs.Shell.Ownership
Purpose: What the shell has allocated.  Each alias owns the block of its key and
  the block of its value, `pp_keys` and `pp_vals` are the only arrays, and every
  other string belongs to a line.  A definition keeps this if it has a word for
  the value, and writes behind a block of size 0 if it has none.
Trusted boundary: none
Main exports: Entry, Owns, Reads, findAliasIndex_inMemory, keyIndex_opens,
  newValue_joins, newValue_overruns, defineAlias_owns
-/
import Mathlib.Algebra.GroupWithZero.Nat
import OsPAs.Shell.Expansion
import OsPAs.Shell.Memory

namespace OsPAs.Shell

open Lib Heap

/-- One alias in memory: its two pointers, and what they point to. -/
structure Entry where
  key : Address
  val : Address
  entry : Alias

/-- The strings that an alias owns. -/
def Entry.strings (e : Entry) : List (Address × CString) :=
  [(e.key, e.entry.key), (e.val, e.entry.val)]

/-- The array that `p` points to, if it is not NULL. -/
def arrayOf (p : Option Address) (block : Block Address) :
    List (Address × Block Address) :=
  p.toList.map fun p => (p, block)

/-- The aliases own their strings and the arrays of pointers to them; besides there
are the strings of `others`, and nothing else. -/
structure Owns (m : Memory) (table : List Entry)
    (others : List (Address × CString)) : Prop where
  idx : m.idx = table.length
  nullKeys : m.ppKeys = none → table = []
  nullVals : m.ppVals = none → table = []
  arrays : m.arrays.Holds (arrayOf m.ppKeys (table.map fun e => some e.key) ++
    arrayOf m.ppVals (table.map fun e => some e.val))
  strings : m.strings.Strings (table.flatMap Entry.strings ++ others)

/-- The table of aliases that the memory stands for. -/
def Memory.aliases (m : Memory) (table : List Entry) : Aliases where
  entries := table.map fun e => e.entry
  wordCnt := m.wordCnt

theorem start_owns : Owns Memory.start [] [] where
  idx := rfl
  nullKeys := fun _ => rfl
  nullVals := fun _ => rfl
  arrays := holds_empty
  strings := strings_empty

variable {m : Memory} {table : List Entry} {others : List (Address × CString)}
  {e : Entry} {i : Nat} {token : Address} {text : CString}

theorem Owns.perm {others' : List (Address × CString)} (owns : Owns m table others)
    (perm : others.Perm others') : Owns m table others' :=
  { owns with strings := owns.strings.perm (perm.append_left _) }

/-- An entry splits the table, at its index. -/
theorem parts_of_getElem? (found : table[i]? = some e) :
    table = table.take i ++ e :: table.drop (i + 1) ∧ (table.take i).length = i := by
  obtain ⟨inside, isEntry⟩ := List.getElem?_eq_some_iff.mp found
  constructor
  · rw [← isEntry, ← List.drop_eq_getElem_cons inside, List.take_append_drop]
  · rw [List.length_take, Nat.min_eq_left (Nat.le_of_lt inside)]

/-- What is allocated, with the strings of one entry split off, its value first. -/
theorem strings_perm (front back : List Entry) (e : Entry)
    (others : List (Address × CString)) :
    ((front ++ e :: back).flatMap Entry.strings ++ others).Perm
      ((e.val, e.entry.val) :: (front.flatMap Entry.strings ++
        (e.key, e.entry.key) :: (back.flatMap Entry.strings ++ others))) := by
  have regroup : (front ++ e :: back).flatMap Entry.strings ++ others =
      (front.flatMap Entry.strings ++ [(e.key, e.entry.key)]) ++
        (e.val, e.entry.val) :: (back.flatMap Entry.strings ++ others) := by
    simp [Entry.strings]
  rw [regroup]
  refine List.perm_middle.trans (List.Perm.of_eq ?_)
  simp

/-! ### Looking up a key -/

theorem Owns.keys_isSome (owns : Owns m table others) (found : table[i]? = some e) :
    m.ppKeys.isSome := by
  cases isKeys : m.ppKeys with
  | none => simp [owns.nullKeys isKeys] at found
  | some p => rfl

theorem Owns.vals_isSome (owns : Owns m table others) (found : table[i]? = some e) :
    m.ppVals.isSome := by
  cases isVals : m.ppVals with
  | none => simp [owns.nullVals isVals] at found
  | some p => rfl

theorem Owns.keyAt (owns : Owns m table others) (found : table[i]? = some e) :
    InMemory.keyAt m i = .ok e.key := by
  obtain ⟨p, isKeys⟩ := Option.isSome_iff_exists.mp (owns.keys_isSome found)
  have arrays := owns.arrays
  rw [isKeys] at arrays
  have live := arrays.blockAt List.mem_cons_self
  have read : m.arrays.load p i = .ok e.key :=
    load_eq_ok live (by rw [List.getElem?_map, found]; rfl)
  simp only [InMemory.keyAt, isKeys, deref, bind, Except.bind, read]

theorem Owns.valAt (owns : Owns m table others) (found : table[i]? = some e) :
    InMemory.valAt m i = .ok e.val := by
  obtain ⟨p, isVals⟩ := Option.isSome_iff_exists.mp (owns.vals_isSome found)
  have arrays := owns.arrays
  rw [isVals] at arrays
  have live := arrays.blockAt (List.mem_append_right _ List.mem_cons_self)
  have read : m.arrays.load p i = .ok e.val :=
    load_eq_ok live (by rw [List.getElem?_map, found]; rfl)
  simp only [InMemory.valAt, isVals, deref, bind, Except.bind, read]

theorem Owns.strings_of_mem (owns : Owns m table others) (member : e ∈ table) :
    m.strings.stringAt e.key = .ok e.entry.key ∧
      m.strings.stringAt e.val = .ok e.entry.val := by
  constructor
  · refine owns.strings.stringAt (List.mem_append_left _ ?_)
    exact List.mem_flatMap.mpr ⟨e, member, List.mem_cons_self⟩
  · refine owns.strings.stringAt (List.mem_append_left _ ?_)
    exact List.mem_flatMap.mpr ⟨e, member, List.mem_cons_of_mem _ List.mem_cons_self⟩

/-- The loop finds the first key that is the token. -/
theorem findFrom_eq (owns : Owns m table others)
    (isToken : m.strings.stringAt token = .ok text) (left i : Nat)
    (rest : i + left = table.length) :
    InMemory.findFrom m (some token) i left =
      .ok (((table.drop i).findIdx? fun e => e.entry.key = text).map (· + i)) := by
  induction left generalizing i with
  | zero =>
      rw [List.drop_eq_nil_of_le (by omega)]
      rfl
  | succ left inductionHypothesis =>
      have inside : i < table.length := by omega
      have found := List.getElem?_eq_getElem inside
      have isKey := (owns.strings_of_mem (List.getElem_mem inside)).1
      rw [List.drop_eq_getElem_cons inside, List.findIdx?_cons]
      simp only [InMemory.findFrom, owns.keyAt found, isKey, deref, isToken, bind,
        Except.bind, decide_eq_true_eq]
      split
      · simp [pure, Except.pure]
      · rw [inductionHypothesis (i + 1) (by omega), Option.map_map]
        congr 2
        funext k
        simp
        omega

/-- `find_alias_index` in memory is that of the table. -/
theorem findAliasIndex_inMemory (owns : Owns m table others)
    (isToken : m.strings.stringAt token = .ok text) :
    InMemory.findAliasIndex m (some token) =
      .ok (findAliasIndex (m.aliases table) text) := by
  rw [InMemory.findAliasIndex, findFrom_eq owns isToken _ _ (by simp [owns.idx]),
    findAliasIndex, Memory.aliases, List.findIdx?_map]
  simp [Function.comp_def]

/-! ### The place for a value -/

/-- The memory between the two halves of a definition: the key at `front.length`
has no value, and what `pp_vals` holds there points nowhere. -/
structure Opening (m : Memory) (front back : List Entry) (key : Address)
    (text : CString) (cell : Option Address) (others : List (Address × CString)) :
    Prop where
  idx : m.idx = front.length + 1 + back.length
  keys : m.ppKeys.isSome
  vals : m.ppVals.isSome
  arrays : m.arrays.Holds
    (arrayOf m.ppKeys ((front.map fun e => some e.key) ++
        some key :: back.map fun e => some e.key) ++
      arrayOf m.ppVals ((front.map fun e => some e.val) ++
        cell :: back.map fun e => some e.val))
  strings : m.strings.Strings (front.flatMap Entry.strings ++
    (key, text) :: (back.flatMap Entry.strings ++ others))

/-- A new key is added. -/
theorem addKey_opens (owns : Owns m table others)
    (isToken : m.strings.stringAt token = .ok text) (noNul : nul ∉ text) :
    ∃ m' key, InMemory.addKey m (some token) = .ok (table.length, m') ∧
      Opening m' table [] key text none others ∧ m'.wordCnt = m.wordCnt := by
  have sizes : m.idx + 1 = (table.map fun e => some e.key).length + 1 ∧
      m.idx + 1 = (table.map fun e => some e.val).length + 1 := by
    simp [owns.idx]
  have noKeys (isNull : m.ppKeys = none) : (table.map fun e => some e.key) = [] := by
    rw [owns.nullKeys isNull, List.map_nil]
  have noVals (isNull : m.ppVals = none) : (table.map fun e => some e.val) = [] := by
    rw [owns.nullVals isNull, List.map_nil]
  obtain ⟨keys, arrays₁, movedKeys, holds₁⟩ := owns.arrays.realloc noKeys (m.idx + 1)
  obtain ⟨vals, arrays₂, movedVals, holds₂⟩ :=
    (holds₁.perm (List.perm_append_singleton _ _).symm).realloc noVals (m.idx + 1)
  rw [sizes.1, resized_succ] at holds₁
  obtain ⟨newKey, strings, copied, strings'⟩ := owns.strings.strdup noNul
  have holds₃ := holds₂.perm (List.Perm.swap _ _ [])
  rw [sizes.2, resized_succ, ← sizes.2, sizes.1, resized_succ] at holds₃
  have live := holds₃.blockAt List.mem_cons_self
  have written : arrays₂.store keys m.idx newKey =
      .ok (arrays₂.put keys ((table.map fun e => some e.key) ++ [some newKey])) := by
    rw [store_eq_ok live (by simp [owns.idx])]
    simp [owns.idx]
  refine ⟨{
    strings := strings
    arrays := arrays₂.put keys ((table.map fun e => some e.key) ++ [some newKey])
    ppKeys := some keys
    ppVals := some vals
    idx := m.idx + 1
    wordCnt := m.wordCnt }, newKey, ?_, ?_, rfl⟩
  · rw [← owns.idx]
    simp only [InMemory.addKey, deref, isToken, movedKeys, movedVals, copied, written,
      bind, Except.bind, pure, Except.pure]
  · constructor
    · simp [owns.idx]
    · rfl
    · rfl
    · exact holds₃.put _
    · exact strings'.perm List.perm_middle.symm

/-- The value of an old key is freed. -/
theorem freeVal_opens (owns : Owns m table others) (found : table[i]? = some e) :
    ∃ strings, m.strings.free e.val = .ok strings ∧
      Opening { m with strings := strings } (table.take i) (table.drop (i + 1)) e.key
        e.entry.key (some e.val) others := by
  obtain ⟨parts, front⟩ := parts_of_getElem? found
  have owned := owns.strings
  rw [parts] at owned
  obtain ⟨strings, freed, rest⟩ :=
    (owned.perm (strings_perm (table.take i) (table.drop (i + 1)) e others)).free
  refine ⟨strings, freed, ?_⟩
  constructor
  · have number := congrArg List.length parts
    simp only [List.length_append, List.length_cons] at number
    simp only [owns.idx]
    omega
  · exact owns.keys_isSome found
  · exact owns.vals_isSome found
  · have arrays := owns.arrays
    rw [parts] at arrays
    simpa using arrays
  · exact rest

/-- The key has a place for its value, at the index that it has in the table. -/
theorem keyIndex_opens (owns : Owns m table others)
    (isToken : m.strings.stringAt token = .ok text) (noNul : nul ∉ text) :
    ∃ m' front back key cell old,
      InMemory.keyIndex m (some token) = .ok (front.length, m') ∧
        Opening m' front back key text cell others ∧ m'.wordCnt = m.wordCnt ∧
        keyIndex text (m.aliases table) = (front.length, {
          entries := (front.map fun e => e.entry) ++
            ⟨text, old⟩ :: back.map fun e => e.entry
          wordCnt := m.wordCnt }) := by
  have found := findAliasIndex_inMemory owns isToken
  cases isFound : findAliasIndex (m.aliases table) text with
  | none =>
      obtain ⟨m', key, added, opening, counts⟩ := addKey_opens owns isToken noNul
      refine ⟨m', table, [], key, none, [], ?_, opening, counts, ?_⟩
      · simp only [InMemory.keyIndex, found, isFound, bind, Except.bind, added]
      · rw [keyIndex, isFound]
        simp [Memory.aliases]
  | some pos =>
      obtain ⟨entry, atPos, isKey⟩ := exists_entry_of_findAliasIndex isFound
      obtain ⟨e, isEntry, rfl⟩ : ∃ e, table[pos]? = some e ∧ e.entry = entry := by
        simpa [Memory.aliases] using atPos
      obtain ⟨strings, freed, opening⟩ := freeVal_opens owns isEntry
      rw [isKey] at opening
      obtain ⟨parts, front⟩ := parts_of_getElem? isEntry
      refine ⟨_, _, _, _, _, e.entry.val, ?_, opening, rfl, ?_⟩
      · simp only [InMemory.keyIndex, found, isFound, owns.valAt isEntry, freed, bind,
          Except.bind, pure, Except.pure, front]
      · have entries : (m.aliases table).entries =
            ((table.take pos).map fun e => e.entry) ++
              ⟨text, e.entry.val⟩ :: (table.drop (pos + 1)).map fun e => e.entry := by
          have same : e.entry = ⟨text, e.entry.val⟩ := by rw [← isKey]
          rw [← same, ← List.map_cons, ← List.map_append, ← parts]
          rfl
        rw [front, keyIndex, isFound, ← entries]
        rfl

/-! ### The new value -/

/-- The entries of `tokens` point to these strings. -/
def Reads (h : Heap Char) (tokens : Pointers) (texts : List CString) : Prop :=
  ∀ (i : Nat) (text : CString), texts[i]? = some text →
    InMemory.tokenAt h tokens i = .ok text

variable {h : Heap Char} {tokens : Pointers} {before todo : List CString}
  {p : Address} {value : CString} {spare : Block Char}

theorem Reads.next (reads : Reads h tokens (before ++ text :: todo)) :
    InMemory.tokenAt h tokens before.length = .ok text :=
  reads before.length text (by simp)

theorem totLength_eq (before : List CString)
    (reads : Reads h tokens (before ++ todo)) :
    InMemory.totLength h tokens before.length todo.length =
      .ok (todo.map List.length).sum := by
  induction todo generalizing before with
  | nil => rfl
  | cons text todo inductionHypothesis =>
      have rest := inductionHypothesis (before ++ [text]) (by simpa using reads)
      rw [List.length_append, List.length_singleton] at rest
      simp only [List.length_cons, InMemory.totLength, reads.next, rest, bind,
        Except.bind, pure, Except.pure, List.map_cons, List.sum_cons]

theorem joined_cons (text next : CString) (rest : List CString) :
    joined (text :: next :: rest) = text ++ [space] ++ joined (next :: rest) := by
  simp [joined, List.intercalate_cons_cons]

/-- The size of a value: its words, and a character behind each of them. -/
theorem length_joined (notEmpty : todo ≠ []) :
    (joined todo).length + 1 = (todo.map List.length).sum + todo.length := by
  induction todo with
  | nil => exact absurd rfl notEmpty
  | cons text rest inductionHypothesis =>
      cases rest with
      | nil => simp [joined]
      | cons next rest =>
          have shorter := inductionHypothesis (List.cons_ne_nil _ _)
          rw [joined_cons]
          simp only [List.length_append, List.map_cons, List.sum_cons,
            List.length_cons, List.length_nil] at shorter ⊢
          omega

/-- The words are put behind the value, for which there is just room enough. -/
theorem catTokens_joins (before : List CString) (value : CString)
    (spare : Block Char) (noNul : ∀ text ∈ value :: todo, nul ∉ text)
    (reads : ∀ block, Reads (h.put p block) tokens (before ++ todo))
    (live : h.blockAt p = .ok (cells value ++ spare))
    (fits : (joined todo).length = spare.length) :
    InMemory.catTokens h tokens p (before ++ todo).length before.length
      todo.length = .ok (h.put p (cells (value ++ joined todo))) := by
  induction todo generalizing h before value spare with
  | nil =>
      have nothing : spare = [] := List.length_eq_zero_iff.mp fits.symm
      subst nothing
      rw [List.append_nil] at live
      simp [InMemory.catTokens, joined, put_self (blockAt_eq_ok.mp live)]
  | cons text rest inductionHypothesis =>
      have read : InMemory.tokenAt h tokens before.length = .ok text := by
        rw [← put_self (blockAt_eq_ok.mp live)]
        exact (reads _).next
      simp only [List.forall_mem_cons] at noNul
      obtain ⟨properValue, properText, properRest⟩ := noNul
      cases rest with
      | nil =>
          have last : ¬ before.length ≠ (before ++ [text]).length - 1 := by simp
          simp only [joined, List.intercalate_singleton] at fits
          have put := strcat_eq live properValue (Nat.le_of_eq fits)
          have spent : spare.drop text.length = [] :=
            List.drop_eq_nil_of_le (Nat.le_of_eq fits.symm)
          rw [spent, List.append_nil] at put
          simp only [List.length_singleton, InMemory.catTokens, read, put, if_neg last,
            bind, Except.bind]
          simp [joined]
      | cons next rest =>
          rw [joined_cons] at fits
          simp only [List.length_append, List.length_singleton] at fits
          have textFits : text.length ≤ spare.length := by omega
          have put := strcat_eq live properValue textFits
          have properBoth : nul ∉ value ++ text := by
            simp [properValue, properText]
          have live₁ : (h.put p (cells (value ++ text) ++
              spare.drop text.length)).blockAt p = _ := blockAt_put live
          have blankFits : [space].length ≤ (spare.drop text.length).length := by
            rw [List.length_drop, List.length_singleton]
            omega
          have blank := strcat_eq live₁ properBoth blankFits
          rw [put_put, List.drop_drop, List.length_singleton] at blank
          have live₂ : (h.put p (cells (value ++ text ++ [space]) ++
              spare.drop (text.length + 1))).blockAt p = _ := blockAt_put live
          have properBlank : nul ∉ value ++ text ++ [space] := by
            simp [properValue, properText, show nul ≠ space by decide]
          have goesOn := inductionHypothesis (before ++ [text])
            (value ++ text ++ [space]) (spare.drop (text.length + 1))
            (List.forall_mem_cons.mpr ⟨properBlank, properRest⟩)
            (fun block => by simpa [put_put] using reads block) live₂
            (by rw [List.length_drop]; omega)
          have index : (before ++ [text]).length = before.length + 1 := by simp
          have notLast :
              before.length ≠ (before ++ text :: next :: rest).length - 1 := by
            simp
          rw [← List.append_cons, put_put, index] at goesOn
          rw [List.length_cons, InMemory.catTokens]
          simp only [read, put, if_pos notLast, blank, bind, Except.bind, goesOn,
            joined_cons]
          simp

/-- With a word or more the new value is a string of its own. -/
theorem newValue_joins {owned : List (Address × CString)} {words : List CString}
    (strings : h.Strings owned) (two : before.length = 2) (notEmpty : words ≠ [])
    (noNul : ∀ word ∈ words, nul ∉ word)
    (reads : ∀ h' : Heap Char, (∀ s ∈ owned, h'.stringAt s.1 = .ok s.2) →
      Reads h' tokens (before ++ words)) :
    ∃ p h', InMemory.newValue h tokens (before ++ words).length = .ok (p, h') ∧
      h'.Strings ((p, joined words) :: owned) := by
  have now := reads h fun s member => strings.stringAt member
  have total := totLength_eq before now
  have size : (((words.map List.length).sum : Int) + (before ++ words).length - 3 +
      1).toNat = (joined words).length + 1 := by
    have length := length_joined notEmpty
    rw [List.length_append, two]
    omega
  have left : (before ++ words).length - 2 = words.length := by
    rw [List.length_append, two]
    omega
  -- the new block holds the empty string, with room for the words
  have allocated := strings.holds.malloc ((joined words).length + 1)
  have live := allocated.blockAt List.mem_cons_self
  have emptied := store_eq_ok (a := nul) live (Nat.lt_of_lt_of_eq (Nat.succ_pos _)
    List.length_replicate.symm)
  have isEmpty : (List.replicate ((joined words).length + 1)
      (none : Option Char)).set 0 (some nul) =
        cells [] ++ List.replicate (joined words).length none := by
    rw [List.replicate_succ]
    rfl
  rw [isEmpty] at emptied
  have opened := allocated.put (cells [] ++
    List.replicate (joined words).length none)
  have others (block : Block Char) : Reads (((h.malloc
      ((joined words).length + 1)).2.put (h.malloc ((joined words).length + 1)).1
        block)) tokens (before ++ words) := by
    refine reads _ fun s member => ?_
    refine stringAt_eq ((allocated.put block).blockAt ?_) (strings.noNul s member)
    exact List.mem_cons_of_mem _ (List.mem_map.mpr ⟨s, member, rfl⟩)
  have joins := catTokens_joins before [] _
    (List.forall_mem_cons.mpr ⟨List.not_mem_nil, noNul⟩)
    (fun block => by simpa [put_put] using others block)
    (opened.blockAt List.mem_cons_self) (by simp)
  rw [put_put, List.nil_append, two] at joins
  refine ⟨_, _, ?_, allocated.put (cells (joined words)), ?_⟩
  · simp only [two] at total
    simp only [InMemory.newValue, left, total, size, emptied, joins, bind, Except.bind,
      pure, Except.pure]
  · refine List.forall_mem_cons.mpr ⟨fun member => ?_, strings.noNul⟩
    rcases mem_intercalate words member with isSpace | ⟨word, isWord, inWord⟩
    · exact absurd isSpace (by decide)
    · exact noNul word isWord inWord

/-- Without words it has size 0, and its NUL is written behind it. -/
theorem newValue_overruns (h : Heap Char) (tokens : Pointers) :
    InMemory.newValue h tokens 2 = .error .outOfBounds := by
  have live : (h.malloc 0).2.blockAt (h.malloc 0).1 = .ok [] := by
    rw [blockAt_eq_ok, block?_eq_some]
    exact List.getElem?_concat_length
  simp [InMemory.newValue, InMemory.totLength, bind, Except.bind,
    store_outOfBounds live]

/-! ### A definition -/

variable {words : List CString} {key : CString}

/-- The loop behind the calls of `strtok` restores the value. -/
theorem changeAll_restores (areWords : ∀ word ∈ words, IsWord delimiters word)
    (live : h.blockAt p = .ok (cells ([nul].intercalate words))) :
    h.changeAll p InMemory.restored 0 (joined words).length =
      .ok (h.put p (cells (joined words))) := by
  have sameLength := length_intercalate_sep nul space words
  have restores := restoreBlanks_joined areWords
  rw [restoreBlanks, strlen_joined areWords, List.append_nil, joined, ← sameLength,
    List.take_length, List.drop_length, List.append_nil] at restores
  have parts : cells ([nul].intercalate words) =
      [] ++ ([nul].intercalate words).map some ++ [some nul] := by
    simp [cells]
  rw [parts] at live
  have changed := changeAll_eq InMemory.restored ([nul].intercalate words) live
  have isText : ([nul].intercalate words).map InMemory.restored = joined words :=
    restores
  rw [sameLength, isText, List.length_nil] at changed
  rw [joined, changed]
  simp [cells, joined]

/-- The words of a value are counted, and the memory is as it was. -/
theorem getValueWordCnt_inMemory
    (areWords : ∀ word ∈ words, IsWord delimiters word)
    (isVal : InMemory.valAt m i = .ok p)
    (live : m.strings.blockAt p = .ok (cells (joined words)))
    (noNul : nul ∉ joined words) :
    InMemory.getValueWordCnt m i = .ok (words.length, m) := by
  have read := stringAt_eq live noNul
  have cut := strtokAt_joined (List.mem_singleton_self space) (by decide)
    (fun word member => (areWords word member).of_subset space_mem_delimiters) live
  have isCut : (m.strings.put p (cells ([nul].intercalate words))).blockAt p =
      .ok (cells ([nul].intercalate words)) := blockAt_put live
  have restores := changeAll_restores areWords isCut
  rw [put_put, put_self (blockAt_eq_ok.mp live)] at restores
  simp only [InMemory.getValueWordCnt, isVal, read, cut, restores, bind, Except.bind,
    pure, Except.pure]

/-- A value is put in its place. -/
theorem Opening.close {front back : List Entry} {keyPtr : Address}
    {cell : Option Address} (opening : Opening m front back keyPtr key cell others)
    {value : Address} {text : CString} {strings : Heap Char}
    (filled : strings.Strings ((value, text) :: (front.flatMap Entry.strings ++
      (keyPtr, key) :: (back.flatMap Entry.strings ++ others)))) :
    ∃ vals arrays, deref m.ppVals = .ok vals ∧
      m.arrays.store vals front.length value = .ok arrays ∧
      Owns { m with strings := strings, arrays := arrays }
        (front ++ ⟨keyPtr, value, ⟨key, text⟩⟩ :: back) others := by
  obtain ⟨keys, isKeys⟩ := Option.isSome_iff_exists.mp opening.keys
  obtain ⟨vals, isVals⟩ := Option.isSome_iff_exists.mp opening.vals
  have arrays := opening.arrays
  rw [isVals] at arrays
  have arrays := arrays.perm List.perm_append_comm
  have written : m.arrays.store vals front.length value =
      .ok (m.arrays.put vals ((front.map fun e => some e.val) ++
        some value :: back.map fun e => some e.val)) := by
    rw [store_eq_ok (arrays.blockAt List.mem_cons_self) (by simp)]
    simp
  refine ⟨vals, _, by rw [isVals]; rfl, written, ?_⟩
  constructor
  · simp [opening.idx]
    omega
  · exact fun isNull => absurd (isKeys.symm.trans isNull) (by simp)
  · exact fun isNull => absurd (isVals.symm.trans isNull) (by simp)
  · have closed := (arrays.put ((front.map fun e => some e.val) ++
      some value :: back.map fun e => some e.val)).perm
        (List.perm_append_singleton _ _).symm
    rw [isVals]
    simpa [arrayOf] using closed
  · exact filled.perm
      (strings_perm front back ⟨keyPtr, value, ⟨key, text⟩⟩ others).symm

theorem modify_middle {α : Type} (front back : List α) (a : α) (f : α → α) :
    (front ++ a :: back).modify front.length f = front ++ f a :: back := by
  rw [List.modify_eq_take_cons_drop (by simp)]
  simp

theorem entry_of_lt {tokens : Pointers} {k : Nat} (inside : k < maxNrTokens) :
    InMemory.entry tokens k = .ok (tokens ⟨k, inside⟩) := by
  simp [InMemory.entry, slot_of_lt inside, Except.mapError, bind, Except.bind, pure,
    Except.pure]

/-- What a command line has in memory: its tokens are strings of `others`, and
`tokens` points to them. -/
structure LineAt (tokens : Pointers) (texts : List CString)
    (others : List (Address × CString)) : Prop where
  entries : ∀ (i : Nat) (text : CString), texts[i]? = some text →
    ∃ p, InMemory.entry tokens i = .ok (some p) ∧ (p, text) ∈ others

theorem LineAt.reads {texts : List CString} (line : LineAt tokens texts others)
    (read : ∀ s ∈ others, h.stringAt s.1 = .ok s.2) : Reads h tokens texts := by
  intro i text found
  obtain ⟨p, isEntry, member⟩ := line.entries i text found
  simp only [InMemory.tokenAt, isEntry, deref, read _ member, bind, Except.bind]

variable {command : CString}

/-- A definition without words writes behind its value. -/
theorem defineAlias_overruns (owns : Owns m table others)
    (line : LineAt tokens [command, key] others) (noNul : nul ∉ key) :
    InMemory.defineAlias m tokens 2 = .error .outOfBounds := by
  obtain ⟨token, isEntry, member⟩ := line.entries 1 key rfl
  have index : InMemory.entry tokens 1 = .ok (some token) := isEntry
  have isToken := owns.strings.stringAt (List.mem_append_right _ member)
  obtain ⟨m₁, front, back, keyPtr, cell, old, opened, _⟩ :=
    keyIndex_opens owns isToken noNul
  simp only [InMemory.defineAlias, index, opened, newValue_overruns, bind, Except.bind]

/-- A definition with words stores the value, and then their number. -/
theorem defineAlias_stores (owns : Owns m table others)
    (line : LineAt tokens (command :: key :: words) others)
    (areWords : ∀ word ∈ key :: words, IsWord delimiters word)
    (notEmpty : words ≠ []) :
    ∃ m' table', Owns m' table' others ∧ m'.wordCnt = m.wordCnt ∧
      m'.aliases table' = (keyIndex key (m.aliases table)).2.setVal
        (keyIndex key (m.aliases table)).1 (joined words) ∧
      InMemory.defineAlias m tokens (words.length + 2) = (do
        let cell ← (wordCntCell (keyIndex key (m.aliases table)).1).mapError heapFault
        return { m' with
          wordCnt := Function.update m'.wordCnt cell words.length }) := by
  obtain ⟨token, isEntry, member⟩ := line.entries 1 key rfl
  have index : InMemory.entry tokens 1 = .ok (some token) := isEntry
  have isToken := owns.strings.stringAt (List.mem_append_right _ member)
  rw [List.forall_mem_cons] at areWords
  obtain ⟨isKey, areWords⟩ := areWords
  obtain ⟨m₁, front, back, keyPtr, cell, old, opened, opening, counts, isIndex⟩ :=
    keyIndex_opens owns isToken isKey.nul_not_mem
  have noNul (word : CString) (isWord : word ∈ words) : nul ∉ word :=
    (areWords word isWord).nul_not_mem
  have reads (h : Heap Char) (read : ∀ s ∈ front.flatMap Entry.strings ++
      (keyPtr, key) :: (back.flatMap Entry.strings ++ others),
        h.stringAt s.1 = .ok s.2) : Reads h tokens ([command, key] ++ words) :=
    line.reads fun s isOther => read s (by simp [isOther])
  obtain ⟨value, strings, made, filled⟩ :=
    newValue_joins opening.strings rfl notEmpty noNul reads
  obtain ⟨vals, arrays, isVals, written, closed⟩ := opening.close filled
  have atPos : (front ++ ⟨keyPtr, value, ⟨key, joined words⟩⟩ :: back)[front.length]? =
      some (⟨keyPtr, value, ⟨key, joined words⟩⟩ : Entry) := by
    simp
  have live := filled.blockAt List.mem_cons_self
  have counted := getValueWordCnt_inMemory areWords (closed.valAt atPos) live
    (filled.noNul _ List.mem_cons_self)
  have size : ([command, key] ++ words).length = words.length + 2 := by
    simp
  rw [size] at made
  refine ⟨_, _, closed, counts, ?_, ?_⟩
  · have place : front.length = (front.map fun e => e.entry).length := by simp
    rw [isIndex, Aliases.setVal, place, modify_middle]
    simp [Memory.aliases, counts]
  · simp only [InMemory.defineAlias, index, opened, made, isVals, written,
      counted, isIndex, bind, Except.bind, pure, Except.pure]

/-- With a place for the number, a definition leads to the table that it is to lead
to. -/
theorem defineAlias_owns (owns : Owns m table others)
    (line : LineAt tokens (command :: key :: words) others)
    (areWords : ∀ word ∈ key :: words, IsWord delimiters word)
    (notEmpty : words ≠ [])
    (few : (keyIndex key (m.aliases table)).1 < nrWordCnts) :
    ∃ m' table', InMemory.defineAlias m tokens (words.length + 2) = .ok m' ∧
      Owns m' table' others ∧
      defineAlias key words (m.aliases table) = .ok (m'.aliases table') := by
  obtain ⟨m', table', owns', counts, isTable, stored⟩ :=
    defineAlias_stores owns line areWords notEmpty
  have defined := defineAlias_eq (List.forall_mem_cons.mp areWords).2 few
  rw [wordCntCell, dif_pos few] at stored
  refine ⟨_, table', stored, ⟨owns'.idx, owns'.nullKeys, owns'.nullVals,
    owns'.arrays, owns'.strings⟩, ?_⟩
  rw [defined, ← isTable]
  simp only [Memory.aliases, counts]

/-- Without one, it writes behind `v_wordCnt`. -/
theorem defineAlias_full (owns : Owns m table others)
    (line : LineAt tokens (command :: key :: words) others)
    (areWords : ∀ word ∈ key :: words, IsWord delimiters word)
    (notEmpty : words ≠ [])
    (full : nrWordCnts ≤ (keyIndex key (m.aliases table)).1) :
    InMemory.defineAlias m tokens (words.length + 2) = .error .outOfBounds := by
  obtain ⟨m', table', owns', counts, isTable, stored⟩ :=
    defineAlias_stores owns line areWords notEmpty
  rw [stored, wordCntCell, dif_neg (Nat.not_lt.mpr full)]
  rfl

end OsPAs.Shell
