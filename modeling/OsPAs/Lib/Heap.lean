/-
Module: OsPAs.Lib.Heap
Purpose: Memory that is allocated and freed.  A heap holds a list of blocks if
  these are all that is allocated in it; each operation is described by what it
  makes of the list.
Trusted boundary: none
Main exports: HeapFault, Heap, Heap.malloc, Heap.free, Heap.realloc, Heap.load,
  Heap.store, Heap.storeAll, Heap.changeAll, Heap.Holds, Heap.Holds.malloc,
  Heap.Holds.free, Heap.Holds.realloc, Heap.Holds.put, Heap.storeAll_eq
-/
import Mathlib.Data.List.Nodup
import Mathlib.Data.List.Perm.Basic
import Mathlib.Tactic.Common

namespace OsPAs.Lib

/-- Accesses that C gives no meaning. -/
inductive HeapFault where
  | nullPointer
  | notAllocated
  | outOfBounds
  | uninitialised
deriving DecidableEq, Repr

/-- Where a block begins. -/
abbrev Address : Type := Nat

/-- The cells of a block; those that have never been written hold nothing. -/
abbrev Block (α : Type) : Type := List (Option α)

/-- The blocks in the order of their allocation, with nothing for those that have
been freed.  No address is given out twice. -/
structure Heap (α : Type) where
  blocks : List (Option (Block α))
deriving DecidableEq, Repr

namespace Heap

variable {α : Type}

def empty : Heap α := ⟨[]⟩

/-- The block at `p`, if there is one. -/
def block? (h : Heap α) (p : Address) : Option (Block α) := h.blocks[p]?.join

/-- The block at `p`. -/
def blockAt (h : Heap α) (p : Address) : Except HeapFault (Block α) :=
  match h.block? p with
  | none => .error .notAllocated
  | some block => .ok block

/-- The heap with another block at `p`. -/
def put (h : Heap α) (p : Address) (block : Block α) : Heap α :=
  ⟨h.blocks.set p (some block)⟩

/-! ### Operations -/

/-- `malloc` of a block of `size` cells. -/
def malloc (h : Heap α) (size : Nat) : Address × Heap α :=
  (h.blocks.length, ⟨h.blocks ++ [some (List.replicate size none)]⟩)

def free (h : Heap α) (p : Address) : Except HeapFault (Heap α) := do
  let _ ← h.blockAt p
  return ⟨h.blocks.set p none⟩

/-- The block with `size` cells: with further ones, or without its last ones. -/
def resized (block : Block α) (size : Nat) : Block α :=
  (block ++ List.replicate size none).take size

/-- `realloc`, which moves the block. -/
def realloc (h : Heap α) (p : Option Address) (size : Nat) :
    Except HeapFault (Address × Heap α) :=
  match p with
  | none => .ok (h.malloc size)
  | some p => do
      let block ← h.blockAt p
      let (q, h) := h.malloc size
      let h ← (h.put q (resized block size)).free p
      return (q, h)

/-- Reads cell `i` of the block at `p`. -/
def load (h : Heap α) (p : Address) (i : Nat) : Except HeapFault α := do
  match (← h.blockAt p)[i]? with
  | none => .error .outOfBounds
  | some none => .error .uninitialised
  | some (some a) => .ok a

/-- Writes cell `i` of the block at `p`. -/
def store (h : Heap α) (p : Address) (i : Nat) (a : α) :
    Except HeapFault (Heap α) := do
  let block ← h.blockAt p
  if i < block.length then return h.put p (block.set i (some a))
  else .error .outOfBounds

/-- Writes the cells from `i` on, one after the other. -/
def storeAll (h : Heap α) (p : Address) (i : Nat) :
    List α → Except HeapFault (Heap α)
  | [] => .ok h
  | a :: rest => do storeAll (← h.store p i a) p (i + 1) rest

/-- Changes `left` cells of the block at `p`, the first of them cell `i`. -/
def changeAll (h : Heap α) (p : Address) (f : α → α) (i : Nat) :
    Nat → Except HeapFault (Heap α)
  | 0 => .ok h
  | left + 1 => do
      let a ← h.load p i
      changeAll (← h.store p i (f a)) p f (i + 1) left

/-- What a pointer points to. -/
def deref (p : Option Address) : Except HeapFault Address :=
  match p with
  | none => .error .nullPointer
  | some p => .ok p

/-! ### Blocks -/

variable {h : Heap α} {p q : Address} {block block' : Block α}

theorem blockAt_eq_ok : h.blockAt p = .ok block ↔ h.block? p = some block := by
  unfold blockAt
  cases h.block? p with
  | none => simp
  | some block => simp

theorem block?_eq_some :
    h.block? p = some block ↔ h.blocks[p]? = some (some block) :=
  Option.join_eq_some_iff

theorem lt_of_block? (live : h.block? p = some block) : p < h.blocks.length :=
  (List.getElem?_eq_some_iff.mp (block?_eq_some.mp live)).1

theorem block?_put (inside : p < h.blocks.length) (q : Address) :
    (h.put p block).block? q = if q = p then some block else h.block? q := by
  rw [block?, put, List.getElem?_set]
  by_cases same : p = q
  · subst same
    rw [if_pos rfl, if_pos inside, if_pos rfl, Option.join_some]
  · rw [if_neg same, if_neg (Ne.symm same), block?]

theorem put_put : (h.put p block).put p block' = h.put p block' := by
  rw [put, put, put, List.set_set]

theorem put_self (live : h.block? p = some block) : h.put p block = h := by
  obtain ⟨inside, here⟩ := List.getElem?_eq_some_iff.mp (block?_eq_some.mp live)
  rw [put, ← here, List.set_getElem_self]

theorem blockAt_put (live : h.blockAt p = .ok block) :
    (h.put p block').blockAt p = .ok block' := by
  rw [blockAt_eq_ok] at live ⊢
  rw [block?_put (lt_of_block? live), if_pos rfl]

/-! ### Reading and writing -/

variable {i : Nat} {a : α} {as : List α}

theorem load_eq_ok (live : h.blockAt p = .ok block) (here : block[i]? = some (some a)) :
    h.load p i = .ok a := by
  simp [load, live, here, bind, Except.bind]

theorem store_eq_ok (live : h.blockAt p = .ok block) (inside : i < block.length) :
    h.store p i a = .ok (h.put p (block.set i (some a))) := by
  simp [store, live, inside, bind, Except.bind, pure, Except.pure]

theorem store_outOfBounds (live : h.blockAt p = .ok block)
    (outside : block.length ≤ i) : h.store p i a = .error .outOfBounds := by
  simp [store, live, Nat.not_lt.mpr outside, bind, Except.bind]

/-- The block with the cells from `i` on replaced. -/
def overwritten (block : Block α) (i : Nat) (as : List α) : Block α :=
  block.take i ++ as.map some ++ block.drop (i + as.length)

theorem overwritten_cons (inside : i < block.length) :
    overwritten (block.set i (some a)) (i + 1) as =
      overwritten block i (a :: as) := by
  have taken : (block.set i (some a)).take (i + 1) = block.take i ++ [some a] := by
    rw [List.take_succ_eq_append_getElem (by simpa using inside),
      List.getElem_set_self, List.take_set_of_le (Nat.le_refl i)]
  have dropped : (block.set i (some a)).drop (i + 1 + as.length) =
      block.drop (i + (as.length + 1)) := by
    rw [List.drop_set_of_lt (by omega)]
    congr 1
    omega
  rw [overwritten, overwritten, taken, dropped]
  simp

/-- Elements that fit in the block are written to it. -/
theorem storeAll_eq (live : h.blockAt p = .ok block)
    (fits : i + as.length ≤ block.length) :
    h.storeAll p i as = .ok (h.put p (overwritten block i as)) := by
  induction as generalizing h block i with
  | nil =>
      have same : overwritten block i [] = block := by simp [overwritten]
      rw [storeAll, same, put_self (blockAt_eq_ok.mp live)]
  | cons a rest inductionHypothesis =>
      rw [List.length_cons] at fits
      have inside : i < block.length := by omega
      have written : (h.put p (block.set i (some a))).blockAt p =
          .ok (block.set i (some a)) := blockAt_put live
      have goesOn := inductionHypothesis (i := i + 1) written
        (by rw [List.length_set]; omega)
      simp only [storeAll, store_eq_ok live inside, bind, Except.bind, goesOn,
        put_put, overwritten_cons inside]

/-- Cells that have been written are changed in place. -/
theorem changeAll_eq (f : α → α) (as : List α) {front back : Block α}
    (live : h.blockAt p = .ok (front ++ as.map some ++ back)) :
    h.changeAll p f front.length as.length =
      .ok (h.put p (front ++ (as.map f).map some ++ back)) := by
  induction as generalizing h front with
  | nil =>
      rw [List.length_nil, changeAll, List.map_nil, put_self (blockAt_eq_ok.mp live)]
  | cons a rest inductionHypothesis =>
      have read : h.load p front.length = .ok a := load_eq_ok live (by simp)
      have written : h.store p front.length (f a) =
          .ok (h.put p (front ++ [some (f a)] ++ rest.map some ++ back)) := by
        rw [store_eq_ok live (by simp)]
        simp
      have live' : (h.put p (front ++ [some (f a)] ++ rest.map some ++ back)).blockAt
          p = .ok (front ++ [some (f a)] ++ rest.map some ++ back) := blockAt_put live
      have goesOn := inductionHypothesis live'
      rw [List.length_append, List.length_singleton] at goesOn
      simp only [List.length_cons, changeAll, read, written, bind, Except.bind,
        goesOn, put_put]
      simp

/-! ### All that is allocated -/

/-- The blocks that are allocated, each with its address, are those of the list. -/
structure Holds (h : Heap α) (owned : List (Address × Block α)) : Prop where
  nodup : (owned.map Prod.fst).Nodup
  exact : ∀ p block, h.block? p = some block ↔ (p, block) ∈ owned

variable {owned owned' : List (Address × Block α)}

theorem holds_empty : (empty : Heap α).Holds [] where
  nodup := List.nodup_nil
  exact := fun p block => by simp [block?, empty]

/-- The order of the blocks does not matter. -/
theorem Holds.perm (holds : h.Holds owned) (perm : owned.Perm owned') :
    h.Holds owned' where
  nodup := (perm.map Prod.fst).nodup_iff.mp holds.nodup
  exact := fun p block => (holds.exact p block).trans perm.mem_iff

theorem Holds.blockAt (holds : h.Holds owned) (member : (p, block) ∈ owned) :
    h.blockAt p = .ok block :=
  blockAt_eq_ok.mpr ((holds.exact p block).mpr member)

/-- A new block is one of its own. -/
theorem Holds.malloc (holds : h.Holds owned) (size : Nat) :
    (h.malloc size).2.Holds
      (((h.malloc size).1, List.replicate size none) :: owned) where
  nodup := by
    rw [List.map_cons, List.nodup_cons]
    refine ⟨fun member => ?_, holds.nodup⟩
    obtain ⟨⟨q, block⟩, isOwned, same⟩ := List.mem_map.mp member
    have inside := lt_of_block? ((holds.exact q block).mpr isOwned)
    exact absurd same (Nat.ne_of_lt inside)
  exact := by
    intro p block
    rw [List.mem_cons, ← holds.exact, block?_eq_some, block?_eq_some, Heap.malloc,
      List.getElem?_append, Prod.mk.injEq]
    rcases Nat.lt_trichotomy p h.blocks.length with before | rfl | behind
    · rw [if_pos before]
      exact ⟨Or.inr, fun either => either.resolve_left fun new =>
        absurd new.1 (Nat.ne_of_lt before)⟩
    · simp [eq_comm]
    · rw [if_neg (Nat.not_lt.mpr (Nat.le_of_lt behind)),
        List.getElem?_eq_none (by simp; omega), List.getElem?_eq_none (by omega)]
      simp [Nat.ne_of_gt behind]

/-- Other addresses than the one of the first block. -/
theorem Holds.ne_head (holds : h.Holds ((p, block) :: owned))
    (member : (q, block') ∈ owned) : q ≠ p := by
  rintro rfl
  exact (List.nodup_cons.mp holds.nodup).1 (List.mem_map.mpr ⟨_, member, rfl⟩)

/-- A block is freed. -/
theorem Holds.free (holds : h.Holds ((p, block) :: owned)) :
    ∃ h', h.free p = .ok h' ∧ h'.Holds owned := by
  have live := holds.blockAt List.mem_cons_self
  refine ⟨⟨h.blocks.set p none⟩, ?_, (List.nodup_cons.mp holds.nodup).2, ?_⟩
  · simp [Heap.free, live, bind, Except.bind, pure, Except.pure]
  · intro q block'
    have inside := lt_of_block? (blockAt_eq_ok.mp live)
    have before := holds.exact q block'
    rw [List.mem_cons, Prod.mk.injEq] at before
    rw [block?, List.getElem?_set]
    by_cases same : p = q
    · subst same
      rw [if_pos rfl, if_pos inside]
      exact ⟨fun freed => by simp at freed, fun member =>
        absurd rfl (holds.ne_head member)⟩
    · rw [if_neg same, ← block?, before]
      exact ⟨fun either => either.resolve_left fun first => same first.1.symm,
        Or.inr⟩

/-- A block is replaced. -/
theorem Holds.put (holds : h.Holds ((p, block) :: owned)) (block' : Block α) :
    (h.put p block').Holds ((p, block') :: owned) where
  nodup := holds.nodup
  exact := by
    intro q other
    have live := blockAt_eq_ok.mp (holds.blockAt List.mem_cons_self)
    have before := holds.exact q other
    rw [List.mem_cons, Prod.mk.injEq] at before
    rw [block?_put (lt_of_block? live), List.mem_cons, Prod.mk.injEq]
    by_cases same : q = p
    · subst same
      rw [if_pos rfl, Option.some.injEq]
      exact ⟨fun eq => Or.inl ⟨rfl, eq.symm⟩, fun either =>
        (either.resolve_right fun member => holds.ne_head member rfl).2.symm⟩
    · rw [if_neg same, before]
      simp [same]

/-- A block is moved to a new one of another size. -/
theorem Holds.realloc {p : Option Address}
    (holds : h.Holds (p.toList.map (fun p => (p, block)) ++ owned))
    (isNull : p = none → block = []) (size : Nat) :
    ∃ q h', h.realloc p size = .ok (q, h') ∧
      h'.Holds ((q, resized block size) :: owned) := by
  cases p with
  | none =>
      obtain rfl := isNull rfl
      refine ⟨_, _, rfl, ?_⟩
      rw [resized, List.nil_append, List.take_replicate, Nat.min_self]
      exact holds.malloc size
  | some p =>
      have holds : h.Holds ((p, block) :: owned) := holds
      have live := holds.blockAt List.mem_cons_self
      have filled := (holds.malloc size).put (resized block size)
      obtain ⟨h', freed, holds'⟩ := (filled.perm (List.Perm.swap ..)).free
      refine ⟨_, h', ?_, holds'⟩
      simp only [Heap.realloc, live, bind, Except.bind, freed, pure, Except.pure]

/-- A block with one more cell. -/
theorem resized_succ (block : Block α) :
    resized block (block.length + 1) = block ++ [none] := by
  have all : block.take (block.length + 1) = block :=
    List.take_of_length_le (Nat.le_succ _)
  simp [resized, List.take_append, all]

end Heap

end OsPAs.Lib
