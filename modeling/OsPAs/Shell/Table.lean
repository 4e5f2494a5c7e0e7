/-
Module: OsPAs.Shell.Table
Purpose: The alias table.  Whatever was defined, it has each key once, in the
  order of first definition, with the words of the latest definition, and their
  number beside it.
Trusted boundary: none
Main exports: definitions, latest, Tabulates, Tabulates.defined
-/
import OsPAs.Shell.Command
import Mathlib.Data.List.Induction

namespace OsPAs.Shell

open Lib

/-! ### What was defined -/

/-- The key and the words of an `alias` command. -/
abbrev Definition : Type := CString × List CString

/-- The definition that a command of these tokens makes, however many they are. -/
def definedBy (tokens : List CString) : Option Definition :=
  match tokens with
  | command :: key :: words =>
      if pipeToken ∉ tokens ∧ command = aliasToken then some (key, words) else none
  | _ => none

/-- A command of these tokens ends the shell. -/
def EndsShell (tokens : List CString) : Prop :=
  pipeToken ∉ tokens ∧ tokens.head? = some exitToken

instance (tokens : List CString) : Decidable (EndsShell tokens) :=
  inferInstanceAs (Decidable (_ ∧ _))

/-- The definition that a command line makes. -/
def definitionOf (line : CommandLine) : Option Definition :=
  definedBy line.tokens

/-- The command line ends the shell. -/
def exits (line : CommandLine) : Prop :=
  EndsShell line.tokens

instance (line : CommandLine) : Decidable (exits line) :=
  inferInstanceAs (Decidable (EndsShell line.tokens))

/-- The definitions that the shell makes while it goes through the command
lines. -/
def definitions : List CommandLine → List Definition
  | [] => []
  | line :: lines =>
      if exits line then []
      else (definitionOf line).toList ++ definitions lines

/-- The words of the latest definition of `key`. -/
def latest (defs : List Definition) (key : CString) : Option (List CString) :=
  (defs.filter fun d => d.1 = key).getLast?.map fun d => d.2

/-- The keys in the order of their first definition. -/
def keysOf (defs : List Definition) : List CString :=
  (defs.map fun d => d.1).eraseDups

/-- The words of a value, with single blanks between them. -/
def joined (words : List CString) : CString := [space].intercalate words

/-- The table that the definitions lead to. -/
structure Tabulates (defs : List Definition) (s : Aliases) : Prop where
  keys : s.entries.map (fun entry => entry.key) = keysOf defs
  vals : ∀ pos entry, s.entries[pos]? = some entry →
    ∃ words, latest defs entry.key = some words ∧ entry.val = joined words ∧
      ∃ inside, s.wordCnt ⟨pos, inside⟩ = words.length

section Latest

variable {defs : List Definition} {key : CString} {words : List CString}

theorem latest_defined (defs : List Definition) (key other : CString)
    (words : List CString) :
    latest (defs ++ [(key, words)]) other =
      if other = key then some words else latest defs other := by
  unfold latest
  rw [List.filter_append]
  split
  · rename_i same
    simp [same]
  · rename_i differ
    have none : [(key, words)].filter (fun d => d.1 = other) = [] := by
      simpa using Ne.symm differ
    rw [none, List.append_nil]

theorem latest_eq_none : latest defs key = none ↔ key ∉ keysOf defs := by
  unfold latest keysOf
  rw [Option.map_eq_none_iff, List.getLast?_eq_none_iff, List.filter_eq_nil_iff,
    List.mem_eraseDups, List.mem_map]
  constructor
  · rintro none ⟨d, member, same⟩
    exact none d member (by simpa using same)
  · intro new d member same
    exact new ⟨d, member, by simpa using same⟩

theorem mem_of_latest (found : latest defs key = some words) :
    (key, words) ∈ defs := by
  obtain ⟨⟨other, ws⟩, isLast, rfl⟩ := Option.map_eq_some_iff.mp found
  obtain ⟨member, same⟩ := List.mem_filter.mp (List.mem_of_getLast? isLast)
  obtain rfl : other = key := by simpa using same
  exact member

theorem keysOf_defined (defs : List Definition) (key : CString)
    (words : List CString) :
    keysOf (defs ++ [(key, words)]) =
      if key ∈ keysOf defs then keysOf defs else keysOf defs ++ [key] := by
  unfold keysOf
  rw [List.map_append, List.eraseDups_append]
  split
  · rename_i old
    rw [List.mem_eraseDups] at old
    have leaves : [key].removeAll (defs.map fun d => d.1) = [] := by
      rw [List.removeAll, List.filter_cons_of_neg (by simpa using old)]
      rfl
    rw [List.map_singleton, leaves]
    exact List.append_nil _
  · rename_i new
    rw [List.mem_eraseDups] at new
    have stays : [key].removeAll (defs.map fun d => d.1) = [key] := by
      rw [List.removeAll, List.filter_cons_of_pos (by simpa using new)]
      rfl
    rw [List.map_singleton, stays]
    rfl

theorem nodup_keysOf (defs : List Definition) : (keysOf defs).Nodup := by
  induction defs using List.reverseRecOn with
  | nil => exact List.nodup_nil
  | append_singleton defs d inductionHypothesis =>
      rw [keysOf_defined]
      split
      · exact inductionHypothesis
      · rename_i new
        exact List.nodup_append.mpr ⟨inductionHypothesis, by simp, by
          intro key isOld other isNew
          rw [List.mem_singleton.mp isNew]
          rintro rfl
          exact new isOld⟩

end Latest

/-! ### Values are cut up and restored -/

section Values

variable {s : Aliases} {words : List CString} {entry : Alias} {pos : Nat}

theorem space_mem_delimiters : [space] ⊆ delimiters := by
  decide

theorem strlen_joined (areWords : ∀ word ∈ words, IsWord delimiters word) :
    strlen (joined words) = (joined words).length := by
  apply strlen_eq_length
  intro member
  rcases mem_intercalate words member with isSpace | ⟨word, isWord, inWord⟩
  · exact absurd isSpace (by decide)
  · exact (areWords word isWord).nul_not_mem inWord

/-- `strtok` on a value returns its words. -/
theorem strtokAll_joined (areWords : ∀ word ∈ words, IsWord delimiters word) :
    strtokAll [space] (strlen (joined words) + 1) ⟨[], joined words⟩ =
      (words, ⟨[nul].intercalate words, []⟩) := by
  have enough : words.length < strlen (joined words) + 1 := by
    rw [strlen_joined areWords]
    apply Nat.lt_succ_of_le
    exact length_le_intercalate words fun word member => (areWords word member).1
  exact strtokAll_words List.mem_cons_self words
    (fun word member => (areWords word member).of_subset space_mem_delimiters)
    [] _ enough

/-- The loop behind the calls of `strtok` restores the value. -/
theorem restoreBlanks_joined
    (areWords : ∀ word ∈ words, IsWord delimiters word) :
    restoreBlanks (strlen (joined words)) ([nul].intercalate words ++ []) =
      joined words := by
  have blanked (text : CString) (noNul : nul ∉ text) :
      text.map (fun ch => if ch = nul then space else ch) = text := by
    rw [List.map_congr_left (g := id)]
    · exact List.map_id text
    · intro ch member
      apply if_neg
      rintro rfl
      exact noNul member
  have sameWords :
      words.map (List.map fun ch => if ch = nul then space else ch) = words := by
    rw [List.map_congr_left (g := id)]
    · exact List.map_id words
    · intro word member
      exact blanked word (areWords word member).nul_not_mem
  have restored : ([nul].intercalate words).map
      (fun ch => if ch = nul then space else ch) = joined words := by
    rw [map_intercalate, sameWords, if_pos rfl]
    rfl
  have sameLength : ([nul].intercalate words).length = (joined words).length := by
    rw [← restored, List.length_map]
  rw [restoreBlanks, strlen_joined areWords, List.append_nil, ← sameLength,
    List.take_length, List.drop_length, List.append_nil, restored]

theorem setVal_self (found : s.entries[pos]? = some entry) :
    s.setVal pos entry.val = s := by
  have same : (s.entries.modify pos fun e => { e with val := entry.val }) =
      s.entries := by
    apply List.ext_getElem?
    intro k
    rw [List.getElem?_modify]
    split
    · rename_i isPos
      subst isPos
      rw [found]
      rfl
    · simp
  rw [Aliases.setVal, same]

/-- The words of a value are counted, and the value is restored. -/
theorem getValueWordCnt_joined
    (areWords : ∀ word ∈ words, IsWord delimiters word)
    (found : s.entries[pos]? = some entry) (isVal : entry.val = joined words) :
    getValueWordCnt s pos = .ok (words.length, s) := by
  have read : s.valAt pos = .ok (joined words) := by
    rw [Aliases.valAt, found, ← isVal]
  have restored := setVal_self found
  rw [isVal] at restored
  simp only [getValueWordCnt, read, bind, Except.bind, pure, Except.pure,
    strtokAll_joined areWords, restoreBlanks_joined areWords, restored]

end Values

/-! ### Looking up and defining -/

section Define

variable {s : Aliases} {defs : List Definition} {key token : CString}
  {words : List CString} {pos : Nat}

theorem findAliasIndex_eq_none : findAliasIndex s token = none ↔
    token ∉ s.entries.map fun entry => entry.key := by
  rw [findAliasIndex, List.findIdx?_eq_none_iff, List.mem_map]
  constructor
  · rintro none ⟨entry, member, same⟩
    simpa [same] using none entry member
  · intro new entry member
    simpa using fun same => new ⟨entry, member, same⟩

theorem exists_entry_of_findAliasIndex
    (found : findAliasIndex s token = some pos) :
    ∃ entry, s.entries[pos]? = some entry ∧ entry.key = token := by
  obtain ⟨inside, same, _⟩ := List.findIdx?_eq_some_iff_getElem.mp found
  exact ⟨_, List.getElem?_eq_getElem inside, by simpa using same⟩

/-- A token that is no key is not found. -/
theorem Tabulates.find_none (tab : Tabulates defs s) :
    findAliasIndex s token = none ↔ latest defs token = none := by
  rw [findAliasIndex_eq_none, tab.keys, latest_eq_none]

/-- A key is found, with the words of its latest definition and their number. -/
theorem Tabulates.find_some (tab : Tabulates defs s)
    (found : findAliasIndex s token = some pos) :
    ∃ entry words, s.entries[pos]? = some entry ∧
      latest defs token = some words ∧ entry.val = joined words ∧
      ∃ inside, s.wordCnt ⟨pos, inside⟩ = words.length := by
  obtain ⟨entry, atPos, rfl⟩ := exists_entry_of_findAliasIndex found
  obtain ⟨words, isLatest, isVal, counted⟩ := tab.vals pos entry atPos
  exact ⟨entry, words, atPos, isLatest, isVal, counted⟩

theorem catTokens_eq (words : List CString) (value : CString) :
    catTokens value words = value ++ joined words := by
  induction value, words using catTokens.induct with
  | case1 value => simp [catTokens, joined]
  | case2 value token => simp [catTokens, joined]
  | case3 value token rest notLast inductionHypothesis =>
      rw [catTokens, inductionHypothesis]
      · cases rest with
        | nil => exact absurd rfl notLast
        | cons next rest => simp [joined, List.intercalate_cons_cons]
      · exact notLast

/-- The new value and its number of words are stored. -/
theorem getValueWordCnt_setVal
    (areWords : ∀ word ∈ words, IsWord delimiters word)
    (inside : pos < s.entries.length) :
    getValueWordCnt (s.setVal pos (joined words)) pos =
      .ok (words.length, s.setVal pos (joined words)) := by
  have stored : (s.setVal pos (joined words)).entries[pos]? =
      some { s.entries[pos] with val := joined words } := by
    rw [Aliases.setVal, List.getElem?_modify_eq, List.getElem?_eq_getElem inside]
    rfl
  exact getValueWordCnt_joined areWords stored rfl

/-- The table with an entry for `key` at `pos`. -/
structure Opened (s : Aliases) (key : CString) (pos : Nat) (s' : Aliases) :
    Prop where
  wordCnt : s'.wordCnt = s.wordCnt
  keys : s'.entries.map (fun entry => entry.key) =
    if key ∈ s.entries.map (fun entry => entry.key) then
      s.entries.map fun entry => entry.key
    else s.entries.map (fun entry => entry.key) ++ [key]
  here : ∃ entry, s'.entries[pos]? = some entry ∧ entry.key = key
  others : ∀ k ≠ pos, s'.entries[k]? = s.entries[k]?

theorem keyIndex_opened (key : CString) (s : Aliases) :
    Opened s key (keyIndex key s).1 (keyIndex key s).2 := by
  unfold keyIndex
  split
  · rename_i none
    constructor
    · rfl
    · rw [if_neg (findAliasIndex_eq_none.mp none)]
      exact List.map_append
    · exact ⟨⟨key, []⟩, List.getElem?_concat_length, rfl⟩
    · intro k other
      rw [List.getElem?_append]
      split
      · rfl
      · rename_i behind
        rw [List.getElem?_eq_none (by simpa using by omega),
          List.getElem?_eq_none (by omega)]
  · rename_i pos found
    obtain ⟨entry, atPos, same⟩ := exists_entry_of_findAliasIndex found
    constructor
    · rfl
    · rw [if_pos]
      rw [← same]
      exact List.mem_map_of_mem (List.mem_of_getElem? atPos)
    · exact ⟨entry, atPos, same⟩
    · exact fun _ _ => rfl

/-- A definition writes the value and the number of words of one entry. -/
theorem defineAlias_eq (areWords : ∀ word ∈ words, IsWord delimiters word)
    (few : (keyIndex key s).1 < nrWordCnts) :
    defineAlias key words s = .ok
      { (keyIndex key s).2.setVal (keyIndex key s).1 (joined words) with
        wordCnt := Function.update s.wordCnt ⟨(keyIndex key s).1, few⟩
          words.length } := by
  have opened := keyIndex_opened key s
  obtain ⟨entry, atPos, _⟩ := opened.here
  have inside := (List.getElem?_eq_some_iff.mp atPos).1
  have value : catTokens [] words = joined words := catTokens_eq words []
  simp only [defineAlias, value, wordCntCell, dif_pos few,
    getValueWordCnt_setVal areWords inside, bind, Except.bind, pure, Except.pure]
  rw [← opened.wordCnt]
  rfl

theorem setVal_keys (s : Aliases) (pos : Nat) (val : CString) :
    (s.setVal pos val).entries.map (fun entry => entry.key) =
      s.entries.map fun entry => entry.key := by
  apply List.ext_getElem?
  intro k
  rw [List.getElem?_map, List.getElem?_map, Aliases.setVal, List.getElem?_modify]
  cases s.entries[k]? with
  | none => rfl
  | some entry =>
      by_cases same : pos = k
      · simp [same]
      · simp [same]

/-- A definition keeps the table in step with what was defined. -/
theorem Tabulates.defined (tab : Tabulates defs s) (key : CString)
    (areWords : ∀ word ∈ words, IsWord delimiters word)
    (few : (keysOf (defs ++ [(key, words)])).length ≤ nrWordCnts) :
    ∃ s', defineAlias key words s = .ok s' ∧
      Tabulates (defs ++ [(key, words)]) s' := by
  have opened := keyIndex_opened key s
  generalize opensEq : keyIndex key s = opens at opened
  obtain ⟨pos, s'⟩ := opens
  obtain ⟨entry, atPos, isKey⟩ := opened.here
  have keys : s'.entries.map (fun entry => entry.key) =
      keysOf (defs ++ [(key, words)]) := by
    rw [opened.keys, tab.keys, keysOf_defined]
  have inside : pos < nrWordCnts := by
    have bound := (List.getElem?_eq_some_iff.mp atPos).1
    rw [← keys, List.length_map] at few
    exact Nat.lt_of_lt_of_le bound few
  have opensInside : (keyIndex key s).1 < nrWordCnts := by
    rw [opensEq]
    exact inside
  have defined := defineAlias_eq areWords opensInside
  simp only [opensEq] at defined
  refine ⟨_, defined, ?_, ?_⟩
  · rw [← keys]
    exact setVal_keys s' pos (joined words)
  · intro k entry' found
    change (s'.entries.modify pos _)[k]? = some entry' at found
    rw [latest_defined]
    by_cases isPos : k = pos
    · subst isPos
      rw [List.getElem?_modify_eq, atPos] at found
      obtain rfl := Option.some.inj found
      refine ⟨words, if_pos isKey, rfl, inside, ?_⟩
      exact Function.update_self ..
    · rw [List.getElem?_modify_ne _ _ (Ne.symm isPos)] at found
      have differ : entry'.key ≠ key := by
        intro same
        have nodup := nodup_keysOf (defs ++ [(key, words)])
        rw [← keys] at nodup
        have bound := (List.getElem?_eq_some_iff.mp found).1
        apply isPos
        apply (List.getElem?_inj (by simpa using bound) nodup).mp
        rw [List.getElem?_map, List.getElem?_map, found, atPos]
        exact congrArg some (same.trans isKey.symm)
      rw [opened.others k isPos] at found
      obtain ⟨words', isLatest, isVal, bound, counted⟩ := tab.vals k entry' found
      refine ⟨words', by rw [if_neg differ, isLatest], isVal, bound, ?_⟩
      have other : (⟨k, bound⟩ : Fin nrWordCnts) ≠ ⟨pos, inside⟩ :=
        fun same => isPos (congrArg Fin.val same)
      exact (Function.update_of_ne other _ _).trans counted

end Define

end OsPAs.Shell
