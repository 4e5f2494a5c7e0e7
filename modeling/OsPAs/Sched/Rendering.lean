/-
Module: OsPAs.Sched.Rendering
Purpose: Scripts written out as files.  The loader reads every rendering of a
  script back, however its lines are ordered, spaced and commented.
Trusted boundary: none
Main exports: IsNumeral, Property, Spells, BodyOf, Renders,
  loading_undoes_rendering
-/
import OsPAs.Lib.Queues
import OsPAs.Sched.Loader

namespace OsPAs.Sched

open Lib

/-! ### Numerals -/

/-- The text is a decimal numeral for the number. -/
structure IsNumeral (text : List Char) (value : Nat) : Prop where
  notEmpty : text ≠ []
  digits : ∀ ch ∈ text, ch.isDigit
  denotes : Nat.ofDigitChars 10 text 0 = value

instance (text : List Char) (value : Nat) : Decidable (IsNumeral text value) :=
  decidable_of_iff (text ≠ [] ∧ text.all Char.isDigit ∧
      Nat.ofDigitChars 10 text 0 = value)
    ⟨fun is => ⟨is.1, List.all_eq_true.mp is.2.1, is.2.2⟩,
      fun is => ⟨is.notEmpty, List.all_eq_true.mpr is.digits, is.denotes⟩⟩

section Numerals

variable {text : List Char} {value : Nat}

/-- What a digit is not. -/
theorem digit_plain {ch : Char} (isDigit : ch.isDigit) :
    isSpace ch = false ∧ ch ≠ nul ∧ ch ≠ '#' ∧ ch ≠ '-' ∧ ch ≠ '+' := by
  have bounds : 48 ≤ ch.toNat ∧ ch.toNat ≤ 57 := Char.isDigit_iff_toNat.mp isDigit
  refine ⟨?_, ?_, ?_, ?_, ?_⟩
  · simp only [isSpace, decide_eq_false_iff_not]
    omega
  all_goals
    rintro rfl
    revert bounds
    decide

/-- A numeral has no blank in front and no sign. -/
theorem IsNumeral.strtol (isNumeral : IsNumeral text value)
    (small : value < 2 ^ 31) : strtol text = value := by
  obtain ⟨notEmpty, digits, denotes⟩ := isNumeral
  have all : text.takeWhile Char.isDigit = text :=
    List.takeWhile_eq_self_iff.mpr digits
  cases text with
  | nil => exact absurd rfl notEmpty
  | cons first text =>
      obtain ⟨solid, _, _, notMinus, notPlus⟩ :=
        digit_plain (digits first List.mem_cons_self)
      rw [OsPAs.Sched.strtol]
      simp only [List.dropWhile_cons, solid, Bool.false_eq_true, if_false]
      split
      · rename_i begins
        exact absurd (List.cons.inj begins).1 notMinus
      · rename_i begins
        exact absurd (List.cons.inj begins).1 notPlus
      · rw [all, denotes]
        omega

/-- `atoi` reads numerals below `2 ^ 31`. -/
theorem IsNumeral.atoi {value : UInt32} (isNumeral : IsNumeral text value.toNat)
    (small : value.toNat < 2 ^ 31) : atoi text = value := by
  have toNat : ((value.toNat : Int) % 2 ^ 32).toNat = value.toNat := by omega
  rw [OsPAs.Sched.atoi, isNumeral.strtol small, toNat, UInt32.ofNat_toNat]

end Numerals

/-! ### Lines -/

/-- A line between `process` and `end`. -/
inductive Property where
  | lifespan (value : UInt32)
  | prio (value : UInt32)
  | start (value : UInt32)
  | acquire (line : AcquireLine)
deriving DecidableEq, Repr

namespace Property

/-- The word at the front of the line. -/
def keyword : Property → List Char
  | .lifespan _ => lifespanKeyword
  | .prio _ => prioKeyword
  | .start _ => startKeyword
  | .acquire _ => acquireKeyword

/-- The numbers behind it. -/
def values : Property → List UInt32
  | .lifespan value => [value]
  | .prio value => [value]
  | .start value => [value]
  | .acquire line => [line.resourceId, line.atAge, line.duration]

/-- What the line adds to a block. -/
def apply (block : ProcessBlock) : Property → ProcessBlock
  | .lifespan value => { block with lifespan := value }
  | .prio value => { block with prio := value }
  | .start value => { block with start := value }
  | .acquire line => { block with acquires := block.acquires ++ [line] }

/-- The `acquire` lines. -/
def acquire? : Property → Option AcquireLine
  | .acquire line => some line
  | _ => none

end Property

/-- These are the tokens of the property's line. -/
def Spells (property : Property) (tokens : List (List Char)) : Prop :=
  ∃ numerals, tokens = property.keyword :: numerals ∧
    List.Forall₂ (fun (value : UInt32) text => IsNumeral text value.toNat)
      property.values numerals

/-- The property lines of a block: the three numbers in any order, mixed with
the `acquire` lines in theirs. -/
structure BodyOf (block : ProcessBlock) (properties : List Property) : Prop where
  numbers : (properties.filter fun property => property.acquire? = none).Perm
    [.start block.start, .lifespan block.lifespan, .prio block.prio]
  acquires : properties.filterMap Property.acquire? = block.acquires

/-- These are the lines of the block that have tokens. -/
def BlockLines (block : ProcessBlock) (lines : List (List (List Char))) : Prop :=
  ∃ pid properties body, IsNumeral pid block.pid.toNat ∧
    BodyOf block properties ∧ List.Forall₂ Spells properties body ∧
    lines = [processKeyword, pid] :: (body ++ [[endKeyword]])

/-- The line is shorter than 255 characters and has at most 32 tokens. -/
structure Fits (line : List Char) : Prop where
  oneLine : newline ∉ line
  short : line.length < 255
  fewTokens : (words isSpace (content line)).length ≤ maxTokens

instance (line : List Char) : Decidable (Fits line) :=
  decidable_of_iff (newline ∉ line ∧ line.length < 255 ∧
      (words isSpace (content line)).length ≤ maxTokens)
    ⟨fun fits => ⟨fits.1, fits.2.1, fits.2.2⟩,
      fun fits => ⟨fits.oneLine, fits.short, fits.fewTokens⟩⟩

/-- The file is a rendering of the script: its lines are the lines of the blocks,
one block after the other, each laid out with blanks and perhaps a comment, and
lines that have nothing but blanks and perhaps a comment. -/
def Renders (script : List ProcessBlock) (file : List Char) : Prop :=
  ∃ lines laid blocks, file = [newline].intercalate lines ∧
    (∀ line ∈ lines, Fits line) ∧
    List.Forall₂ (LineOf isSpace '#') laid lines ∧
    laid.filter (fun tokens => tokens ≠ []) = blocks.flatten ∧
    List.Forall₂ BlockLines script blocks

/-- All numbers of the block are below `2 ^ 31`. -/
structure SmallNumbers (block : ProcessBlock) : Prop where
  pid : block.pid.toNat < 2 ^ 31
  start : block.start.toNat < 2 ^ 31
  lifespan : block.lifespan.toNat < 2 ^ 31
  prio : block.prio.toNat < 2 ^ 31
  acquires : ∀ line ∈ block.acquires, line.resourceId.toNat < 2 ^ 31 ∧
    line.atAge.toNat < 2 ^ 31 ∧ line.duration.toNat < 2 ^ 31

/-! ### Loading the tokens -/

/-- The loop of `__load_script` from the tokens of the lines on. -/
def loadCommands : List (List (List Char)) → Loading →
    Except LoadFault (Option Loading)
  | [], s => .ok (some s)
  | tokens :: rest, s => do
      match ← loadCommand tokens s with
      | some s => loadCommands rest s
      | none => return none

section Tokens

variable {s s' : Loading} {forkqueue : List Process} {block : ProcessBlock}
  {properties : List Property} {body laid : List (List (List Char))}
  {tokens : List (List Char)}

theorem loadCommands_cons (loads : loadCommand tokens s = .ok (some s'))
    (rest : List (List (List Char))) :
    loadCommands (tokens :: rest) s = loadCommands rest s' := by
  rw [loadCommands, loads]
  rfl

theorem loadLines_eq {lines : List (List Char)}
    (parsed : List.Forall₂ (fun tokens line => parseCommand line = .ok tokens)
      laid lines) (s : Loading) : loadLines lines s = loadCommands laid s := by
  induction parsed generalizing s with
  | nil => rfl
  | cons isParsed _ inductionHypothesis =>
      simp only [loadLines, loadCommands, isParsed, inductionHypothesis]
      rfl

/-- Lines without tokens make no difference. -/
theorem loadCommands_filter (laid : List (List (List Char))) (s : Loading) :
    loadCommands (laid.filter fun tokens => tokens ≠ []) s =
      loadCommands laid s := by
  induction laid generalizing s with
  | nil => rfl
  | cons tokens laid inductionHypothesis =>
      cases tokens with
      | nil => exact inductionHypothesis s
      | cons property args =>
          rw [List.filter_cons_of_pos (by simp)]
          simp only [loadCommands, inductionHypothesis]

theorem atoi_numerals {values : List UInt32} {numerals : List (List Char)}
    (denote : List.Forall₂
      (fun (value : UInt32) text => IsNumeral text value.toNat) values numerals)
    (small : ∀ value ∈ values, value.toNat < 2 ^ 31) :
    numerals.map atoi = values := by
  induction denote with
  | nil => rfl
  | cons isNumeral _ inductionHypothesis =>
      rw [List.map_cons, isNumeral.atoi (small _ List.mem_cons_self),
        inductionHypothesis fun value member =>
          small value (List.mem_cons_of_mem _ member)]

/-- A property line adds its property to the block that `p` has begun. -/
theorem loadCommand_spells {property : Property} (spells : Spells property tokens)
    (small : ∀ value ∈ property.values, value.toNat < 2 ^ 31) :
    loadCommand tokens { forkqueue, p := some block.process } =
      .ok (some { forkqueue, p := some (property.apply block).process }) := by
  obtain ⟨numerals, rfl, denote⟩ := spells
  have reads := atoi_numerals denote small
  cases property with
  | lifespan value =>
      obtain ⟨text, rfl, rfl⟩ := List.map_eq_singleton_iff.mp reads
      rw [Property.keyword, loadCommand, if_neg (by decide), if_neg (by decide),
        if_pos (by decide)]
      rfl
  | prio value =>
      obtain ⟨text, rfl, rfl⟩ := List.map_eq_singleton_iff.mp reads
      rw [Property.keyword, loadCommand, if_neg (by decide), if_neg (by decide),
        if_neg (by decide), if_pos (by decide)]
      rfl
  | start value =>
      obtain ⟨text, rfl, rfl⟩ := List.map_eq_singleton_iff.mp reads
      rw [Property.keyword, loadCommand, if_neg (by decide), if_neg (by decide),
        if_neg (by decide), if_neg (by decide), if_pos (by decide)]
      rfl
  | acquire line =>
      obtain ⟨resourceId, rest, rfl, isId, reads⟩ := List.map_eq_cons_iff.mp reads
      obtain ⟨atAge, rest, rfl, isAge, reads⟩ := List.map_eq_cons_iff.mp reads
      obtain ⟨duration, rfl, isDuration⟩ := List.map_eq_singleton_iff.mp reads
      rw [Property.keyword, loadCommand, if_neg (by decide), if_neg (by decide),
        if_neg (by decide), if_neg (by decide), if_neg (by decide),
        if_pos (by decide)]
      simp only [Loading.modify, isId, isAge, isDuration, Property.apply,
        ProcessBlock.process, List.map_append, List.map_singleton]
      rfl

/-- The property lines of a block, one after the other. -/
theorem loadCommands_body (spell : List.Forall₂ Spells properties body)
    (small : ∀ property ∈ properties, ∀ value ∈ property.values,
      value.toNat < 2 ^ 31) (rest : List (List (List Char))) :
    loadCommands (body ++ rest) { forkqueue, p := some block.process } =
      loadCommands rest {
        forkqueue
        p := some (properties.foldl Property.apply block).process } := by
  induction spell generalizing block with
  | nil => rfl
  | cons spells _ inductionHypothesis =>
      rw [List.cons_append, loadCommands_cons
        (loadCommand_spells spells (small _ List.mem_cons_self))]
      exact inductionHypothesis fun property member =>
        small property (List.mem_cons_of_mem _ member)

/-! ### Blocks -/

/-- Numbers and `acquire` lines do not depend on each other. -/
theorem foldl_withAcquires (numbers : ∀ property ∈ properties,
      property.acquire? = none) (acquires : List AcquireLine) :
    properties.foldl Property.apply { block with acquires } =
      { properties.foldl Property.apply block with acquires } := by
  induction properties generalizing block with
  | nil => rfl
  | cons property properties inductionHypothesis =>
      have isNumber := numbers property List.mem_cons_self
      rw [List.foldl_cons, List.foldl_cons, ← inductionHypothesis fun other member =>
        numbers other (List.mem_cons_of_mem _ member)]
      cases property with
      | acquire line => simp [Property.acquire?] at isNumber
      | lifespan _ => rfl
      | prio _ => rfl
      | start _ => rfl

theorem foldl_apply (properties : List Property) (block : ProcessBlock) :
    properties.foldl Property.apply block =
      { (properties.filter fun property => property.acquire? = none).foldl
          Property.apply block with
        acquires := block.acquires ++ properties.filterMap Property.acquire? } := by
  induction properties generalizing block with
  | nil => simp
  | cons property properties inductionHypothesis =>
      rw [List.foldl_cons, inductionHypothesis]
      cases property with
      | acquire line =>
          have numbers : ∀ other ∈ properties.filter
              (fun property => property.acquire? = none),
              other.acquire? = none := fun other member => by
            simpa using (List.mem_filter.mp member).2
          rw [List.filter_cons_of_neg (by simp [Property.acquire?]),
            Property.apply, foldl_withAcquires numbers]
          simp [Property.acquire?]
      | lifespan _ => rfl
      | prio _ => rfl
      | start _ => rfl

/-- The property lines of a block give the block, in whatever order. -/
theorem BodyOf.foldl (isBody : BodyOf block properties) :
    properties.foldl Property.apply { pid := block.pid } = block := by
  have commutes : ∀ left ∈ properties.filter
      (fun property => property.acquire? = none), ∀ right ∈ properties.filter
      (fun property => property.acquire? = none), ∀ block : ProcessBlock,
      right.apply (left.apply block) = left.apply (right.apply block) := by
    intro left inLeft right inRight other
    have leftIs := isBody.numbers.subset inLeft
    have rightIs := isBody.numbers.subset inRight
    simp only [List.mem_cons, List.not_mem_nil, or_false] at leftIs rightIs
    rcases leftIs with rfl | rfl | rfl <;> rcases rightIs with rfl | rfl | rfl <;>
      rfl
  rw [foldl_apply, isBody.numbers.foldl_eq' commutes, isBody.acquires]
  rfl

/-- The numbers in the property lines are numbers of the block. -/
theorem BodyOf.small (isBody : BodyOf block properties)
    (small : SmallNumbers block) : ∀ property ∈ properties,
      ∀ value ∈ property.values, value.toNat < 2 ^ 31 := by
  intro property member value isValue
  cases isAcquire : property.acquire? with
  | none =>
      have isNumber := isBody.numbers.subset
        (List.mem_filter.mpr ⟨member, by simpa using isAcquire⟩)
      simp only [List.mem_cons, List.not_mem_nil, or_false] at isNumber
      rcases isNumber with rfl | rfl | rfl
      · exact List.mem_singleton.mp isValue ▸ small.start
      · exact List.mem_singleton.mp isValue ▸ small.lifespan
      · exact List.mem_singleton.mp isValue ▸ small.prio
  | some line =>
      have inBlock : line ∈ block.acquires :=
        isBody.acquires ▸ List.mem_filterMap.mpr ⟨property, member, isAcquire⟩
      obtain ⟨smallId, smallAge, smallDuration⟩ := small.acquires line inBlock
      cases property with
      | acquire line' =>
          obtain rfl : line' = line := Option.some.inj isAcquire
          simp only [Property.values, List.mem_cons, List.not_mem_nil, or_false]
            at isValue
          rcases isValue with rfl | rfl | rfl
          · exact smallId
          · exact smallAge
          · exact smallDuration
      | lifespan _ => simp [Property.acquire?] at isAcquire
      | prio _ => simp [Property.acquire?] at isAcquire
      | start _ => simp [Property.acquire?] at isAcquire

/-- The lines of a block put its process at the end of the queue. -/
theorem loadCommands_block {lines : List (List (List Char))}
    (isBlock : BlockLines block lines) (small : SmallNumbers block)
    (rest : List (List (List Char))) :
    loadCommands (lines ++ rest) { forkqueue, p := none } =
      loadCommands rest {
        forkqueue := forkqueue ++ [block.process], p := none } := by
  obtain ⟨pid, properties, body, isNumeral, isBody, spell, rfl⟩ := isBlock
  have begins : loadCommand [processKeyword, pid] { forkqueue, p := none } =
      .ok (some {
        forkqueue
        p := some (ProcessBlock.process { pid := block.pid }) }) := by
    rw [loadCommand, if_pos (by decide)]
    simp only [isNumeral.atoi small.pid]
    rfl
  have ends : loadCommand [endKeyword] { forkqueue, p := some block.process } =
      .ok (some { forkqueue := forkqueue ++ [block.process], p := none }) := by
    rfl
  rw [List.cons_append, loadCommands_cons begins, List.append_assoc,
    loadCommands_body spell (isBody.small small), isBody.foldl,
    List.singleton_append, loadCommands_cons ends]

theorem loadCommands_blocks {script : List ProcessBlock}
    {blocks : List (List (List (List Char)))}
    (isScript : List.Forall₂ BlockLines script blocks)
    (small : ∀ block ∈ script, SmallNumbers block) (forkqueue : List Process) :
    loadCommands blocks.flatten { forkqueue, p := none } =
      .ok (some {
        forkqueue := forkqueue ++ script.map ProcessBlock.process, p := none }) := by
  induction isScript generalizing forkqueue with
  | nil => simp [loadCommands]
  | cons isBlock _ inductionHypothesis =>
      rw [List.flatten_cons, loadCommands_block isBlock (small _ List.mem_cons_self),
        inductionHypothesis fun block member =>
          small block (List.mem_cons_of_mem _ member),
        List.map_cons, List.append_assoc, List.singleton_append]

end Tokens

/-! ### Loading the file -/

section Files

variable {script : List ProcessBlock} {file line : List Char}
  {tokens : List (List Char)}

theorem IsNumeral.nul_not_mem {text : List Char} {value : Nat}
    (isNumeral : IsNumeral text value) : nul ∉ text :=
  fun member => (digit_plain (isNumeral.digits nul member)).2.1 rfl

theorem Spells.nul_not_mem {property : Property} (spells : Spells property tokens) :
    ∀ word ∈ tokens, nul ∉ word := by
  obtain ⟨numerals, rfl, denote⟩ := spells
  intro word member
  rcases List.mem_cons.mp member with rfl | isNumeral
  · have noNul : nul ∉ lifespanKeyword ∧ nul ∉ prioKeyword ∧
        nul ∉ startKeyword ∧ nul ∉ acquireKeyword := by decide
    cases property with
    | lifespan _ => exact noNul.1
    | prio _ => exact noNul.2.1
    | start _ => exact noNul.2.2.1
    | acquire _ => exact noNul.2.2.2
  · obtain ⟨value, _, isNumeral⟩ := exists_related denote isNumeral
    exact isNumeral.nul_not_mem

theorem BlockLines.nul_not_mem {block : ProcessBlock}
    {lines : List (List (List Char))} (isBlock : BlockLines block lines) :
    ∀ tokens ∈ lines, ∀ word ∈ tokens, nul ∉ word := by
  obtain ⟨pid, properties, body, isNumeral, _, spell, rfl⟩ := isBlock
  intro tokens member
  rcases List.mem_cons.mp member with rfl | member
  · intro word member
    simp only [List.mem_cons, List.not_mem_nil, or_false] at member
    rcases member with rfl | rfl
    · decide
    · exact isNumeral.nul_not_mem
  rcases List.mem_append.mp member with inBody | isLast
  · obtain ⟨property, _, spells⟩ := exists_related spell inBody
    exact spells.nul_not_mem
  · obtain rfl := List.mem_singleton.mp isLast
    decide

/-- Parsing a line that is laid out from tokens gives the tokens. -/
theorem parseCommand_laid (fits : Fits line) (isLine : LineOf isSpace '#' tokens line)
    (noNul : ∀ word ∈ tokens, nul ∉ word) : parseCommand line = .ok tokens := by
  have isContent : LineOf isSpace '#' tokens (content line) := by
    refine isLine.takeWhile (fun ch blank => ?_) (fun word isWord ch member => ?_)
      (by decide)
    · have notNul : ch ≠ nul := by
        rintro rfl
        exact absurd blank (by decide)
      simpa using notNul
    · have notNul : ch ≠ nul := by
        rintro rfl
        exact noNul word isWord member
      simpa using notNul
  rw [parseCommand_eq, if_pos fits.fewTokens,
    isContent.words_takeWhile (by decide)]

/-- Loading undoes rendering. -/
theorem loading_undoes_rendering (renders : Renders script file)
    (small : ∀ block ∈ script, SmallNumbers block) :
    loadScript file = .ok (some (script.map ProcessBlock.process)) := by
  obtain ⟨lines, laid, blocks, rfl, fits, laidOut, nonempty, isScript⟩ := renders
  have noNul : ∀ tokens ∈ laid, ∀ word ∈ tokens, nul ∉ word := by
    intro tokens isLaid word member
    have inBlocks : tokens ∈ blocks.flatten := by
      rw [← nonempty, List.mem_filter]
      exact ⟨isLaid, by simpa using List.ne_nil_of_mem member⟩
    obtain ⟨lines, isLines, inLines⟩ := List.mem_flatten.mp inBlocks
    obtain ⟨block, _, isBlock⟩ := exists_related isScript isLines
    exact isBlock.nul_not_mem tokens inLines word member
  have parsed : List.Forall₂ (fun tokens line => parseCommand line = .ok tokens)
      laid lines := by
    obtain ⟨sameLength, laidAs⟩ := List.forall₂_iff_zip.mp laidOut
    refine List.forall₂_iff_zip.mpr ⟨sameLength, fun {tokens line} paired => ?_⟩
    obtain ⟨isLaid, isLine⟩ := List.of_mem_zip paired
    exact parseCommand_laid (fits line isLine) (laidAs paired) (noNul tokens isLaid)
  rw [loadScript, loadLines_readLines (fun line member => ?_)
    (fun line member => (fits line member).oneLine) le_rfl, loadLines_eq parsed,
    ← loadCommands_filter, nonempty, loadCommands_blocks isScript small]
  · rfl
  · have short := (fits line member).short
    simp only [lineSize]
    omega

/-- A block with its number lines in another order than usual, an `acquire` line
among them, a comment line, a trailing comment, a blank line and a tab. -/
def mixedLines : List (List Char) :=
  [ '#' :: space :: 'A' :: [],
    processKeyword ++ [space, '7'],
    Char.ofNat 9 :: prioKeyword ++ [space, space, '1', '0'],
    acquireKeyword ++ [space, '3', space, '1', space, '2', space, '#', 'B'],
    [space],
    startKeyword ++ [space, '0'],
    lifespanKeyword ++ [space, '5'],
    endKeyword,
    [] ]

/-- The block that these lines describe. -/
def mixedBlock : ProcessBlock :=
  { pid := 7
    start := 0
    lifespan := 5
    prio := 10
    acquires := [{ resourceId := 3, atAge := 1, duration := 2 }] }

theorem loading_undoes_rendering_mixed :
    Renders [mixedBlock] ([newline].intercalate mixedLines) ∧
      loadScript ([newline].intercalate mixedLines) =
        .ok (some [mixedBlock.process]) := by
  have isBlock : BlockLines mixedBlock
      [[processKeyword, ['7']], [prioKeyword, ['1', '0']],
        [acquireKeyword, ['3'], ['1'], ['2']], [startKeyword, ['0']],
        [lifespanKeyword, ['5']], [endKeyword]] := by
    refine ⟨['7'], [.prio 10, .acquire ⟨3, 1, 2⟩, .start 0, .lifespan 5],
      [[prioKeyword, ['1', '0']], [acquireKeyword, ['3'], ['1'], ['2']],
        [startKeyword, ['0']], [lifespanKeyword, ['5']]],
      by decide, ⟨by decide, by decide⟩, ?_, rfl⟩
    refine .cons ⟨_, rfl, .cons (by decide) .nil⟩ (.cons ⟨_, rfl, ?_⟩
      (.cons ⟨_, rfl, .cons (by decide) .nil⟩
        (.cons ⟨_, rfl, .cons (by decide) .nil⟩ .nil)))
    exact .cons (by decide) (.cons (by decide) (.cons (by decide) .nil))
  have renders : Renders [mixedBlock] ([newline].intercalate mixedLines) := by
    refine ⟨mixedLines, mixedLines.map _, [_], rfl, by decide,
      List.forall₂_map_left_iff.mpr (List.forall₂_same.mpr fun line _ =>
        lineOf_words line), by decide, .cons isBlock .nil⟩
  refine ⟨renders, loading_undoes_rendering renders ?_⟩
  intro block member
  obtain rfl := List.mem_singleton.mp member
  exact ⟨by decide, by decide, by decide, by decide, by decide⟩

end Files

end OsPAs.Sched
