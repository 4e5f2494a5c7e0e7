/-
Module: OsPAs.Shell.Children
Purpose: The child processes of the shell on their copies of its memory: each hands
  the expanded tokens to `execvp`, or writes behind `tokens`, just as in the model
  on lists, and frees and reads nothing that it should not.
Trusted boundary: none
Main exports: Placed, addedToken_inMemory, addedTokens_inMemory, child_inMemory,
  argvOf, child_agrees
-/
import OsPAs.Shell.Bounds
import OsPAs.Shell.Ownership

namespace OsPAs.Shell

open Lib Heap

/-! ### The array -/

section Array

variable {α : Type} {tokens : SlotsOf α} {base : Nat} {before new rest : List α} {a : α}

/-- From entry `base` on `tokens` holds the list, and NULL behind it. -/
def Placed (tokens : SlotsOf α) (base : Nat) (list : List α) : Prop :=
  ∀ k : Fin maxNrTokens, base ≤ k.val → k.val ≤ base + list.length →
    tokens k = list[k.val - base]?

theorem Placed.here (placed : Placed tokens base (before ++ a :: rest))
    (inside : base + before.length < maxNrTokens) :
    tokens ⟨base + before.length, inside⟩ = some a := by
  rw [placed ⟨base + before.length, inside⟩ (by simp) (by simp)]
  simp

/-- Room is made for the new elements, and they are written there. -/
theorem Placed.replaced (placed : Placed tokens base (before ++ a :: rest))
    {shift : Nat} (number : new.length = shift + 1) :
    Placed (stored (withRoom tokens (base + before.length) shift rest.length)
      (base + before.length) new) base (before ++ new ++ rest) := by
  intro k low high
  simp only [List.length_append] at high
  rw [stored]
  by_cases isNew : base + before.length ≤ k.val ∧
      k.val < base + before.length + new.length
  · have index : k.val - (base + before.length) = k.val - base - before.length := by
      omega
    rw [if_pos isNew, index, List.append_assoc, List.getElem?_append_right (by omega),
      List.getElem?_append_left (by omega)]
  · rw [if_neg isNew, withRoom]
    by_cases inFront : k.val < base + before.length
    · rw [if_neg (by omega), if_neg (by omega), placed k low (by simp; omega),
        List.append_assoc, List.getElem?_append_left (by omega),
        List.getElem?_append_left (by omega)]
    · by_cases isLast : k.val = base + before.length + shift + 1 + rest.length
      · rw [if_pos isLast, List.getElem?_eq_none (by simp; omega)]
      · have index : k.val - shift - base = before.length +
            (k.val - base - (before ++ new).length + 1) := by
          rw [List.length_append]
          omega
        rw [if_neg isLast, if_pos (by omega),
          placed ⟨k.val - shift, by omega⟩ (by simp; omega) (by simp; omega)]
        simp only [index]
        rw [List.getElem?_append_right (Nat.le_add_right _ _), Nat.add_sub_cancel_left,
          List.getElem?_cons_succ,
          List.getElem?_append_right (by rw [List.length_append]; omega)]

end Array

/-! ### Replacing a token -/

variable {m : Memory} {table : List Entry} {others before rest : List (Address × CString)}
  {h : Heap Char} {tokens : Pointers} {defs : List Definition} {base : Nat}
  {owned : List (Address × Block Char)}

/-- Copies of the words are written from entry `k` on. -/
theorem writeWords_copies (words : List CString) (tokens : Pointers) (k : Nat)
    (holds : h.Holds owned) (fits : k + words.length ≤ maxNrTokens) :
    ∃ (new : List (Address × CString)) (h' : Heap Char),
      InMemory.writeWords h tokens k words =
        .ok (stored tokens k (new.map Prod.fst), h') ∧
      new.map Prod.snd = words ∧
      h'.Holds ((new.map fun s => (s.1, cells s.2)) ++ owned) := by
  induction words generalizing h tokens k owned with
  | nil => exact ⟨[], h, by rw [List.map_nil, stored_nil]; rfl, rfl, holds⟩
  | cons word words inductionHypothesis =>
      rw [List.length_cons] at fits
      have inside : k < maxNrTokens := by omega
      obtain ⟨p, h₁, copied, holds₁⟩ := holds.strdup word
      obtain ⟨new, h', written, isWords, holds'⟩ := inductionHypothesis
        (Function.update tokens ⟨k, inside⟩ (some p)) (k + 1) holds₁ (by omega)
      refine ⟨(p, word) :: new, h', ?_, by rw [List.map_cons, isWords], ?_⟩
      · rw [stored_cons inside] at written
        simp only [InMemory.writeWords, copied, slot_of_lt inside, Except.mapError, bind,
          Except.bind, written, List.map_cons]
      · exact holds'.perm List.perm_middle

/-- A token is replaced by copies of the words of an alias, whose value is as it
was. -/
theorem replaceTokenWithAlias_copies (tokens : Pointers) (base tokIdx : Nat)
    {e : Entry} {pos : Nat} {words : List CString} (owns : Owns m table others)
    (found : table[pos]? = some e)
    (isVal : e.entry.val = joined words)
    (areWords : ∀ word ∈ words, IsWord delimiters word)
    (fits : base + tokIdx + words.length ≤ maxNrTokens) :
    ∃ (new : List (Address × CString)) (strings : Heap Char),
      InMemory.replaceTokenWithAlias m tokens base tokIdx pos =
        .ok (stored tokens (base + tokIdx) (new.map Prod.fst),
          { m with strings := strings }) ∧
      new.map Prod.snd = words ∧
      Owns { m with strings := strings } table (new ++ others) := by
  have member := List.mem_of_getElem? found
  have read := (owns.strings_of_mem member).2
  rw [isVal] at read
  obtain ⟨front, back, parts⟩ := List.append_of_mem member
  have split : (table.flatMap Entry.strings ++ others).Perm ((e.val, joined words) ::
      (front.flatMap Entry.strings ++ (e.key, e.entry.key) ::
        (back.flatMap Entry.strings ++ others))) := by
    rw [parts, ← isVal]
    exact strings_perm front back e others
  have holds := (owns.strings.perm split).holds
  rw [List.map_cons] at holds
  have live := holds.blockAt List.mem_cons_self
  have cut := strtokAt_joined (List.mem_singleton_self space) (by decide)
    (fun word isWord => (areWords word isWord).of_subset space_mem_delimiters) live
  obtain ⟨new, h₁, written, isWords, holds₁⟩ := writeWords_copies words tokens
    (base + tokIdx) (holds.put (cells ([nul].intercalate words))) fits
  have holds₂ := holds₁.perm List.perm_middle
  have restores := changeAll_restores areWords (holds₂.blockAt List.mem_cons_self)
  have holds₃ := holds₂.put (cells (joined words))
  refine ⟨new, h₁.put e.val (cells (joined words)), ?_, isWords, owns.idx,
    owns.nullKeys, owns.nullVals, owns.arrays, ?_⟩
  · simp only [InMemory.replaceTokenWithAlias, owns.valAt found, read, cut, written,
      restores, bind, Except.bind, pure, Except.pure]
  · have noNul : ∀ s ∈ (e.val, joined words) :: (new ++
        (front.flatMap Entry.strings ++ (e.key, e.entry.key) ::
          (back.flatMap Entry.strings ++ others))), nul ∉ s.2 := by
      intro s isOwned
      rcases List.mem_cons.mp isOwned with rfl | later
      · exact owns.strings.noNul _ (split.mem_iff.mpr List.mem_cons_self)
      · rcases List.mem_append.mp later with isNew | old
        · refine (areWords s.2 ?_).nul_not_mem
          rw [← isWords]
          exact List.mem_map_of_mem isNew
        · exact owns.strings.noNul s (split.mem_iff.mpr (List.mem_cons_of_mem _ old))
    have strings : Strings _ _ := ⟨by simpa using holds₃, noNul⟩
    refine (strings.perm List.perm_middle.symm).perm ?_
    exact (split.symm.append_left new).trans (List.perm_append_comm_assoc ..)

/-! ### The loop -/

section Loop

variable {p : Address} {token : CString}

/-- A token that is looked up. -/
theorem findAliasIndex_placed (owns : Owns m table (before ++ (p, token) :: rest ++ others))
    (placed : Placed tokens base ((before ++ (p, token) :: rest).map Prod.fst))
    (inside : base + before.length < maxNrTokens) :
    InMemory.entry tokens (base + before.length) = .ok (some p) ∧
      InMemory.findAliasIndex m (some p) =
        .ok (findAliasIndex (m.aliases table) token) := by
  constructor
  · rw [List.map_append, List.map_cons] at placed
    have number : base + (before.map Prod.fst).length < maxNrTokens := by
      rwa [List.length_map]
    have here := placed.here number
    simp only [List.length_map] at here
    have index : ((base : Int) + before.length) = (base + before.length : Nat) := by
      simp
    rw [index, entry_of_lt inside, here]
  · refine findAliasIndex_inMemory owns (owns.strings.stringAt ?_)
    simp

/-- One pass replaces one token by copies of the words of its alias, if there is
room for them. -/
theorem addedToken_inMemory (tab : Tabulates defs (m.aliases table))
    (filled : Filled defs)
    (owns : Owns m table (before ++ (p, token) :: rest ++ others))
    (placed : Placed tokens base ((before ++ (p, token) :: rest).map Prod.fst))
    (fits : base + before.length + ((latest defs token).getD [token]).length +
      rest.length < maxNrTokens) :
    ∃ (m' : Memory) (tokens' : Pointers) (new : List (Address × CString)),
      InMemory.addedToken base
        { memory := m, tokens := tokens
          nrTokens := before.length + 1 + rest.length, i := before.length } =
      .ok {
        memory := m'
        tokens := tokens'
        nrTokens := (before ++ new).length + rest.length
        i := (before ++ new).length } ∧
      new.map Prod.snd = (latest defs token).getD [token] ∧
      Owns m' table (before ++ new ++ rest ++ others) ∧
      m'.aliases table = m.aliases table ∧
      Placed tokens' base ((before ++ new ++ rest).map Prod.fst) := by
  obtain ⟨isEntry, looked⟩ := findAliasIndex_placed owns placed (by omega)
  cases found : findAliasIndex (m.aliases table) token with
  | none =>
      refine ⟨m, tokens, [(p, token)], ?_, ?_, by simpa using owns, rfl,
        by simpa using placed⟩
      · simp only [InMemory.addedToken, isEntry, looked, found, bind, Except.bind, pure,
          Except.pure]
        simp
      · rw [tab.find_none.mp found]
        rfl
  | some pos =>
      obtain ⟨entry, words, atPos, isLatest, isVal, inside, counted⟩ :=
        tab.find_some found
      obtain ⟨e, isEntryOf, rfl⟩ : ∃ e, table[pos]? = some e ∧ e.entry = entry := by
        simpa [Memory.aliases] using atPos
      have areWords := filled.words _ (mem_of_latest isLatest)
      have someWords : words ≠ [] := filled.notEmpty _ (mem_of_latest isLatest)
      obtain ⟨shift, isShift⟩ : ∃ shift, words.length = shift + 1 :=
        Nat.exists_eq_add_one.mpr (List.length_pos_iff.mpr someWords)
      rw [isLatest] at fits ⊢
      simp only [Option.getD_some] at fits ⊢
      have moved : spaceBackWordCnt (InMemory.counts m) tokens base
          (before.length + 1 + rest.length) before.length pos =
            .ok (withRoom tokens (base + before.length) shift rest.length) :=
        spaceBackWordCnt_eq (counted.trans isShift) (by omega)
      have stays : InMemory.entry
          (withRoom tokens (base + before.length) shift rest.length)
          (base + before.length) = .ok (some p) := by
        have index : ((base : Int) + before.length) = (base + before.length : Nat) := by
          simp
        have bound : base + before.length < maxNrTokens := by omega
        rw [index, entry_of_lt bound] at isEntry ⊢
        have front : (⟨base + before.length, bound⟩ : Fin maxNrTokens).val ≤
            base + before.length + shift := Nat.le_add_right _ _
        rw [withRoom_of_le front]
        exact isEntry
      have owned : m.strings.Strings ((p, token) ::
          (table.flatMap Entry.strings ++ (before ++ rest ++ others))) := by
        refine owns.strings.perm ?_
        have regroup : table.flatMap Entry.strings ++
            (before ++ (p, token) :: rest ++ others) =
              (table.flatMap Entry.strings ++ before) ++ (p, token) ::
                (rest ++ others) := by
          simp
        rw [regroup]
        refine List.perm_middle.trans (List.Perm.of_eq ?_)
        simp
      obtain ⟨freed, isFreed, kept⟩ := owned.free
      have owns₁ : Owns { m with strings := freed } table (before ++ rest ++ others) :=
        ⟨owns.idx, owns.nullKeys, owns.nullVals, owns.arrays, kept⟩
      obtain ⟨new, strings, replaced, isWords, owns₂⟩ := replaceTokenWithAlias_copies
        (withRoom tokens (base + before.length) shift rest.length) base before.length
        owns₁ isEntryOf isVal areWords (by omega)
      have number : new.length = words.length := by
        rw [← isWords, List.length_map]
      have counted : m.wordCnt ⟨pos, inside⟩ = words.length := counted
      have count : before.length + 1 + rest.length + words.length - 1 =
          (before ++ new).length + rest.length := by
        rw [List.length_append, number]
        omega
      have next : before.length + words.length = (before ++ new).length := by
        rw [List.length_append, number]
      refine ⟨{ m with strings := strings }, stored
        (withRoom tokens (base + before.length) shift rest.length)
        (base + before.length) (new.map Prod.fst), new, ?_, isWords, owns₂.perm ?_,
        rfl, ?_⟩
      · simp only [InMemory.addedToken, isEntry, looked, found, moved, Except.mapError,
          stays, InMemory.freeEntry, isFreed, replaced, wordCntCell, dif_pos inside,
          counted, count, next, bind, Except.bind, pure, Except.pure]
      · simpa using List.perm_append_comm_assoc new before (rest ++ others)
      · rw [List.map_append, List.map_cons] at placed
        have made : Placed (stored (withRoom tokens
            (base + (before.map Prod.fst).length) shift (rest.map Prod.fst).length)
              (base + (before.map Prod.fst).length) (new.map Prod.fst)) base
                (before.map Prod.fst ++ new.map Prod.fst ++ rest.map Prod.fst) :=
          placed.replaced (by rw [List.length_map, number, isShift])
        simpa using made

/-- Without room for them it writes behind `tokens`. -/
theorem addedToken_overruns (tab : Tabulates defs (m.aliases table))
    (owns : Owns m table (before ++ (p, token) :: rest ++ others))
    (placed : Placed tokens base ((before ++ (p, token) :: rest).map Prod.fst))
    (room : base + before.length + 1 + rest.length < maxNrTokens)
    (full : maxNrTokens ≤ base + before.length +
      ((latest defs token).getD [token]).length + rest.length) :
    InMemory.addedToken base
        { memory := m, tokens := tokens
          nrTokens := before.length + 1 + rest.length, i := before.length } =
      .error .outOfBounds := by
  obtain ⟨isEntry, looked⟩ := findAliasIndex_placed owns placed (by omega)
  cases found : findAliasIndex (m.aliases table) token with
  | none =>
      rw [tab.find_none.mp found] at full
      simp only [Option.getD_none, List.length_singleton] at full
      omega
  | some pos =>
      obtain ⟨entry, words, atPos, isLatest, isVal, inside, counted⟩ :=
        tab.find_some found
      rw [isLatest, Option.getD_some] at full
      have overrun : spaceBackWordCnt (InMemory.counts m) tokens base
          (before.length + 1 + rest.length) before.length pos =
            .error .outOfBounds :=
        spaceBackWordCnt_overrun counted (by omega)
      simp only [InMemory.addedToken, isEntry, looked, found, overrun, Except.mapError,
        heapFault, bind, Except.bind]

/-- The loop replaces each of the tokens `todo` that it has still to visit, or
writes behind `tokens`. -/
theorem addedTokens_inMemory (filled : Filled defs)
    (todo before : List (Address × CString)) (m : Memory) (tokens : Pointers)
    (tab : Tabulates defs (m.aliases table))
    (owns : Owns m table (before ++ todo ++ others))
    (placed : Placed tokens base ((before ++ todo).map Prod.fst))
    (room : base + before.length + todo.length < maxNrTokens) :
    (base + before.length + (expand defs (todo.map Prod.snd)).length < maxNrTokens →
      ∃ (m' : Memory) (tokens' : Pointers) (done : List (Address × CString)),
        InMemory.addedTokens base todo.length
          { memory := m, tokens := tokens
            nrTokens := before.length + todo.length, i := before.length } =
        .ok {
          memory := m'
          tokens := tokens'
          nrTokens := done.length
          i := done.length } ∧
        done.map Prod.snd = before.map Prod.snd ++ expand defs (todo.map Prod.snd) ∧
        Owns m' table (done ++ others) ∧ Placed tokens' base (done.map Prod.fst)) ∧
    (maxNrTokens ≤ base + before.length + (expand defs (todo.map Prod.snd)).length →
      InMemory.addedTokens base todo.length
          { memory := m, tokens := tokens
            nrTokens := before.length + todo.length, i := before.length } =
        .error .outOfBounds) := by
  induction todo generalizing before m tokens with
  | nil =>
      constructor
      · intro _
        refine ⟨m, tokens, before, rfl, by simp [expand], by simpa using owns,
          by simpa using placed⟩
      · intro full
        simp [expand] at full room
        omega
  | cons s todo inductionHypothesis =>
      obtain ⟨p, token⟩ := s
      have longer := filled.length_le_expand (todo.map Prod.snd)
      rw [List.length_map] at longer
      rw [List.length_cons] at room
      have number : before.length + (todo.length + 1) =
          before.length + 1 + todo.length := by
        omega
      have notDone : before.length < before.length + 1 + todo.length := by
        omega
      rw [List.length_cons, List.map_cons, expand_cons, List.length_append, number,
        InMemory.addedTokens, if_pos notDone]
      by_cases fits : base + before.length +
          ((latest defs token).getD [token]).length + todo.length < maxNrTokens
      · obtain ⟨m₁, tokens₁, new, replaced, isWords, owns₁, same, placed₁⟩ :=
          addedToken_inMemory tab filled owns placed fits
        have count : new.length = ((latest defs token).getD [token]).length := by
          rw [← isWords, List.length_map]
        have goesOn := inductionHypothesis (before ++ new) m₁ tokens₁ (same ▸ tab) owns₁
          placed₁ (by rw [List.length_append]; omega)
        simp only [replaced, bind, Except.bind]
        simp only [List.length_append, count, List.map_append, isWords, Nat.add_assoc,
          List.append_assoc] at goesOn ⊢
        exact goesOn
      · have overrun := addedToken_overruns tab owns placed (by omega) (by omega)
        simp only [overrun, bind, Except.bind]
        refine ⟨fun roomy => ?_, fun _ => trivial⟩
        omega

end Loop

/-! ### A child -/

section Child

variable {line : List (Address × CString)} {strings : List (Address × CString)}
  {slots : Slots}

/-- The argument vector is the strings that the array points to. -/
theorem argVector_inMemory (owned : h.Strings strings) (isOwned : line ⊆ strings)
    (placed : Placed tokens base (line.map Prod.fst))
    (fits : base + line.length < maxNrTokens) :
    InMemory.argVector h tokens (maxNrTokens - base) base =
      .ok (line.map Prod.snd) := by
  induction line generalizing base with
  | nil =>
      have inside : base < maxNrTokens := fits
      obtain ⟨left, isLeft⟩ : ∃ left, maxNrTokens - base = left + 1 :=
        Nat.exists_eq_add_one.mpr (Nat.sub_pos_of_lt inside)
      have atBase := placed ⟨base, inside⟩ (Nat.le_refl _) (Nat.le_refl _)
      rw [isLeft, InMemory.argVector, entry_of_lt inside]
      simp only [bind, Except.bind, atBase]
      rfl
  | cons s line inductionHypothesis =>
      rw [List.length_cons] at fits
      have inside : base < maxNrTokens := by omega
      obtain ⟨left, isLeft⟩ : ∃ left, maxNrTokens - base = left + 1 :=
        Nat.exists_eq_add_one.mpr (Nat.sub_pos_of_lt inside)
      have isRest : maxNrTokens - (base + 1) = left := by omega
      have atBase := placed ⟨base, inside⟩ (Nat.le_refl _) (Nat.le_add_right _ _)
      have tail : Placed tokens (base + 1) (line.map Prod.fst) := by
        intro k low high
        have index : k.val - base = (k.val - (base + 1)) + 1 := by omega
        rw [placed k (by omega) (by simp at high ⊢; omega), index, List.map_cons,
          List.getElem?_cons_succ]
      have rest := inductionHypothesis (List.subset_of_cons_subset isOwned) tail
        (by omega)
      have read := owned.stringAt (isOwned List.mem_cons_self)
      rw [isRest] at rest
      rw [isLeft, InMemory.argVector, entry_of_lt inside]
      simp only [bind, Except.bind, atBase, Nat.sub_self, List.map_cons,
        List.getElem?_cons_zero, read, rest, pure, Except.pure]

/-- A child hands the expanded tokens to `execvp` if `tokens` has room for them, and
writes behind `tokens` if not. -/
theorem child_inMemory (tab : Tabulates defs (m.aliases table)) (filled : Filled defs)
    (owns : Owns m table (line ++ others))
    (placed : Placed tokens base (line.map Prod.fst))
    (room : base + line.length < maxNrTokens) :
    InMemory.child m tokens base line.length =
      if base + (expand defs (line.map Prod.snd)).length < maxNrTokens then
        .ok (expand defs (line.map Prod.snd))
      else .error .outOfBounds := by
  obtain ⟨inside, overrun⟩ :=
    addedTokens_inMemory filled line [] m tokens tab owns placed room
  simp only [List.length_nil, Nat.zero_add, Nat.add_zero, List.map_nil,
    List.nil_append] at inside overrun
  split
  · rename_i fits
    obtain ⟨m', tokens', done, looped, isDone, owns', placed'⟩ := inside fits
    have number : done.length = (expand defs (line.map Prod.snd)).length := by
      rw [← isDone, List.length_map]
    have argv := argVector_inMemory owns'.strings (fun s member =>
      List.mem_append_right _ (List.mem_append_left _ member)) placed' (by omega)
    simp only [InMemory.child, looped, bind, Except.bind, argv, isDone]
  · rename_i full
    simp only [InMemory.child, overrun (Nat.le_of_not_lt full), bind, Except.bind]

/-- Where no alias is without words, the tokens take the entries that they expand
to. -/
theorem reach_eq {s : Aliases} (tab : Tabulates defs s) (filled : Filled defs)
    (texts : List CString) : reach s texts = (expand defs texts).length := by
  induction texts with
  | nil => rfl
  | cons token rest inductionHypothesis =>
      have positive : width s token ≠ 0 := by
        rw [width_eq tab]
        cases found : latest defs token with
        | none => simp
        | some words =>
            have someWords := filled.notEmpty _ (mem_of_latest found)
            simpa using someWords
      have own : max 1 (width s token) = width s token := by omega
      rw [reach, own, expand_cons, List.length_append, width_eq tab,
        inductionHypothesis]

theorem spared_of_filled {s : Aliases} (tab : Tabulates defs s) (filled : Filled defs)
    (texts : List CString) : Spared s texts := by
  induction texts with
  | nil => trivial
  | cons token rest inductionHypothesis =>
      refine ⟨fun zero => ?_, inductionHypothesis⟩
      exact absurd (latest_of_width_zero tab zero) (filled.latest_ne token)

/-- What a child in memory hands to `execvp`, or how it faults. -/
def argvOf (run : Except Fault Exec) : Except HeapFault (List CString) :=
  (run.mapError heapFault).map fun exec => exec.argv

/-- A child in memory does what the child on lists does. -/
theorem child_agrees (tab : Tabulates defs (m.aliases table)) (filled : Filled defs)
    (owns : Owns m table (line ++ others))
    (placed : Placed tokens base (line.map Prod.fst))
    (laid : Laid slots base (line.map Prod.snd))
    (room : base + line.length < maxNrTokens) :
    InMemory.child m tokens base line.length =
      argvOf (child (m.aliases table) slots base line.length) := by
  have number : line.length = (line.map Prod.snd).length := by rw [List.length_map]
  rw [child_inMemory tab filled owns placed room]
  split
  · rename_i fits
    have ran := child_spec tab filled laid fits
    rw [← number] at ran
    rw [ran]
    rfl
  · rename_i full
    have ran := child_overruns tab filled.words laid (number ▸ room)
      (spared_of_filled tab filled _)
      (by rw [reach_eq tab filled]; exact Nat.le_of_not_lt full)
    rw [← number] at ran
    rw [ran]
    rfl

end Child

end OsPAs.Shell
