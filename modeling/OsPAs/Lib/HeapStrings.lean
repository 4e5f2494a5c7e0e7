/-
Module: OsPAs.Lib.HeapStrings
Purpose: Strings in memory that is allocated and freed, and the functions of the
  C library on them, in a heap where each block holds one string and no more.
Trusted boundary: none
Main exports: Heap.stringAt, Heap.strcat, Heap.strdup, Heap.strtokAt,
  Heap.Strings, Heap.Strings.stringAt, Heap.Strings.free, Heap.Strings.strdup,
  Heap.strcat_eq
-/
import OsPAs.Lib.Heap
import OsPAs.Lib.Strings

namespace OsPAs.Lib.Heap

/-- The string from the start of the block to the first NUL. -/
def readString : Block Char → Except HeapFault CString
  | [] => .error .outOfBounds
  | none :: _ => .error .uninitialised
  | some ch :: rest =>
      if ch = nul then .ok [] else do return ch :: (← readString rest)

/-- The string at `p`. -/
def stringAt (h : Heap Char) (p : Address) : Except HeapFault CString := do
  readString (← h.blockAt p)

/-- `strcpy` and `strncpy` of a whole string. -/
def strcpy (h : Heap Char) (dest : Address) (text : CString) :
    Except HeapFault (Heap Char) :=
  h.storeAll dest 0 (text ++ [nul])

def strcat (h : Heap Char) (dest : Address) (text : CString) :
    Except HeapFault (Heap Char) := do
  let length := (← h.stringAt dest).length
  h.storeAll dest length (text ++ [nul])

/-- `malloc` of a block for the string, and `strcpy`. -/
def strdup (h : Heap Char) (text : CString) :
    Except HeapFault (Address × Heap Char) := do
  let (p, h) := h.malloc (text.length + 1)
  return (p, ← h.strcpy p text)

/-- The tokens that `strtok` returns for the string at `p`, which it cuts up. -/
def strtokAt (h : Heap Char) (delims : List Char) (p : Address) :
    Except HeapFault (List CString × Heap Char) := do
  let text ← h.stringAt p
  let (tokens, cursor) := strtokAll delims (text.length + 1) ⟨[], text⟩
  return (tokens, ← h.storeAll p 0 (cursor.before ++ cursor.after))

/-! ### One block -/

/-- The block of a string, with nothing behind its NUL. -/
def cells (text : CString) : Block Char := (text ++ [nul]).map some

variable {h : Heap Char} {p q : Address} {text value : CString}
  {spare : Block Char}

theorem cells_length (text : CString) : (cells text).length = text.length + 1 := by
  simp [cells]

theorem readString_append (noNul : nul ∉ text) (spare : Block Char) :
    readString (cells text ++ spare) = .ok text := by
  induction text with
  | nil => simp [cells, readString]
  | cons ch text inductionHypothesis =>
      rw [List.mem_cons, not_or] at noNul
      have rest := inductionHypothesis noNul.2
      have cellsCons : cells (ch :: text) = some ch :: cells text := rfl
      simp only [cellsCons, List.cons_append, readString, if_neg (Ne.symm noNul.1),
        rest, bind, Except.bind, pure, Except.pure]

theorem stringAt_append (live : h.blockAt p = .ok (cells text ++ spare))
    (noNul : nul ∉ text) : h.stringAt p = .ok text := by
  simp only [stringAt, live, bind, Except.bind, readString_append noNul]

theorem stringAt_eq (live : h.blockAt p = .ok (cells text)) (noNul : nul ∉ text) :
    h.stringAt p = .ok text := by
  rw [← List.append_nil (cells text)] at live
  exact stringAt_append live noNul

/-- A string is copied to a block of at least its size. -/
theorem strcpy_eq {block : Block Char} (live : h.blockAt p = .ok block)
    (fits : text.length < block.length) :
    h.strcpy p text = .ok (h.put p (cells text ++ block.drop (text.length + 1))) := by
  rw [strcpy, storeAll_eq live (by simp; omega)]
  simp [overwritten, cells]

/-- What is put behind a string takes the place of its NUL and of what is spare
behind that. -/
theorem strcat_eq (live : h.blockAt p = .ok (cells value ++ spare))
    (noNul : nul ∉ value) (fits : text.length ≤ spare.length) :
    h.strcat p text =
      .ok (h.put p (cells (value ++ text) ++ spare.drop text.length)) := by
  have read := stringAt_append live noNul
  simp only [strcat, read, bind, Except.bind]
  rw [storeAll_eq live (by simp [cells_length]; omega)]
  have front : (cells value ++ spare).take value.length = value.map some := by
    simp [cells]
  have back : (cells value ++ spare).drop
      (value.length + (text ++ [nul]).length) = spare.drop text.length := by
    have index : value.length + (text ++ [nul]).length =
        (cells value).length + text.length := by
      simp [cells_length]
      omega
    rw [index, List.drop_length_add_append]
  simp only [overwritten, front, back]
  simp [cells]

/-- Which character stands between the words does not matter for the length. -/
theorem length_intercalate_sep (sep sep' : Char) (words : List CString) :
    ([sep].intercalate words).length = ([sep'].intercalate words).length := by
  induction words with
  | nil => rfl
  | cons word words inductionHypothesis =>
      cases words with
      | nil => rfl
      | cons next words =>
          simp only [List.intercalate_cons_cons, List.length_append,
            List.length_singleton, inductionHypothesis]

/-- A string with single delimiters between its words is cut up in place. -/
theorem strtokAt_joined {delims : List Char} {sep : Char} (isDelim : sep ∈ delims)
    (properSep : sep ≠ nul) {words : List CString}
    (areWords : ∀ word ∈ words, IsWord delims word)
    (live : h.blockAt p = .ok (cells ([sep].intercalate words))) :
    h.strtokAt delims p =
      .ok (words, h.put p (cells ([nul].intercalate words))) := by
  have noNul : nul ∉ [sep].intercalate words := by
    intro member
    rcases mem_intercalate words member with isSep | ⟨word, isWord, inWord⟩
    · exact properSep isSep.symm
    · exact (areWords word isWord).nul_not_mem inWord
  have read : h.stringAt p = .ok ([sep].intercalate words) :=
    stringAt_eq live noNul
  have notEmpty : ∀ word ∈ words, word ≠ [] := fun word member =>
    (areWords word member).1
  have tokens := strtokAll_words isDelim words areWords []
    (([sep].intercalate words).length + 1)
    (Nat.lt_succ_of_le (length_le_intercalate words notEmpty))
  have sameLength := length_intercalate_sep nul sep words
  have fits : 0 + ([nul].intercalate words).length ≤
      (cells ([sep].intercalate words)).length := by
    simp [cells_length, sameLength]
  have written := storeAll_eq live fits
  simp only [strtokAt, read, bind, Except.bind, tokens, List.nil_append,
    List.append_nil, written, pure, Except.pure]
  simp [overwritten, cells, sameLength]

/-- A copy of a string is one more block. -/
theorem Holds.strdup {blocks : List (Address × Block Char)} (holds : h.Holds blocks)
    (text : CString) :
    ∃ p h', h.strdup text = .ok (p, h') ∧ h'.Holds ((p, cells text) :: blocks) := by
  have allocated := holds.malloc (text.length + 1)
  have live := allocated.blockAt List.mem_cons_self
  have fits : text.length <
      (List.replicate (text.length + 1) (none : Option Char)).length := by
    simp
  have copied := strcpy_eq live fits
  rw [List.drop_replicate, Nat.sub_self, List.replicate_zero, List.append_nil]
    at copied
  refine ⟨_, _, ?_, allocated.put (cells text)⟩
  simp only [Heap.strdup, copied, bind, Except.bind, pure, Except.pure]

/-! ### All strings -/

/-- The heap holds these strings, each in a block of its own size, and nothing
else. -/
structure Strings (h : Heap Char) (owned : List (Address × CString)) : Prop where
  holds : h.Holds (owned.map fun s => (s.1, cells s.2))
  noNul : ∀ s ∈ owned, nul ∉ s.2

variable {owned owned' : List (Address × CString)}

theorem strings_empty : (empty : Heap Char).Strings [] where
  holds := holds_empty
  noNul := fun _ member => nomatch member

theorem Strings.perm (strings : h.Strings owned) (perm : owned.Perm owned') :
    h.Strings owned' where
  holds := strings.holds.perm (perm.map _)
  noNul := fun s member => strings.noNul s (perm.mem_iff.mpr member)

theorem Strings.blockAt (strings : h.Strings owned) (member : (p, text) ∈ owned) :
    h.blockAt p = .ok (cells text) :=
  strings.holds.blockAt (List.mem_map.mpr ⟨_, member, rfl⟩)

theorem Strings.stringAt (strings : h.Strings owned)
    (member : (p, text) ∈ owned) : h.stringAt p = .ok text :=
  stringAt_eq (strings.blockAt member) (strings.noNul _ member)

theorem Strings.free (strings : h.Strings ((p, text) :: owned)) :
    ∃ h', h.free p = .ok h' ∧ h'.Strings owned := by
  obtain ⟨h', freed, holds⟩ := strings.holds.free
  exact ⟨h', freed, holds, fun s member =>
    strings.noNul s (List.mem_cons_of_mem _ member)⟩

/-- A copy of a string is one more string. -/
theorem Strings.strdup (strings : h.Strings owned) (noNul : nul ∉ text) :
    ∃ p h', h.strdup text = .ok (p, h') ∧ h'.Strings ((p, text) :: owned) := by
  obtain ⟨p, h', copied, holds⟩ := strings.holds.strdup text
  exact ⟨p, h', copied, holds, List.forall_mem_cons.mpr ⟨noNul, strings.noNul⟩⟩

end OsPAs.Lib.Heap
