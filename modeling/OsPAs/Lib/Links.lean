/-
Module: OsPAs.Lib.Links
Purpose: Circular doubly linked lists whose links lie in the things they link
  (`struct list_head`): the operations on the links, and what they do to a list.
Trusted boundary: none
Main exports: Link, Links, Links.listAddTail, Links.listDelInit,
  Links.listMoveTail, Links.listDel, Links.listEmpty, Segment, Ring, Ring.unlink,
  Ring.link
-/
import Mathlib.Data.List.Basic
import Mathlib.Logic.Function.Basic

namespace OsPAs.Lib

/-- `struct list_head`.  A pointer that must not be followed (poison, or what
fresh memory holds) is `none`. -/
structure Link (ν : Type) where
  next : Option ν
  prev : Option ν
deriving Repr

/-- The list heads that are in memory, with their pointers. -/
abbrev Links (ν : Type) := ν → Option (Link ν)

variable {ν : Type}

/-! ### Operations

They fail where they follow a pointer that must not be followed, or use a list
head that is not in memory. -/

namespace Links

/-- The pointer `a->next`, in order to follow it. -/
def next (m : Links ν) (a : ν) : Option ν := (m a).bind Link.next

/-- The pointer `a->prev`, in order to follow it. -/
def prev (m : Links ν) (a : ν) : Option ν := (m a).bind Link.prev

section Operations

variable [DecidableEq ν] (m : Links ν)

/-- `a->next = b`. -/
def setNext (a b : ν) : Option (Links ν) :=
  (m a).map fun link =>
    Function.update m a (some { link with next := some b })

/-- `a->prev = b`. -/
def setPrev (a b : ν) : Option (Links ν) :=
  (m a).map fun link =>
    Function.update m a (some { link with prev := some b })

/-- `INIT_LIST_HEAD`. -/
def initListHead (list : ν) : Option (Links ν) := do
  let m ← m.setNext list list
  m.setPrev list list

/-- `__list_add`. -/
def listAdd (new prev next : ν) : Option (Links ν) := do
  let m ← m.setPrev next new
  let m ← m.setNext new next
  let m ← m.setPrev new prev
  m.setNext prev new

/-- `list_add_tail`. -/
def listAddTail (new head : ν) : Option (Links ν) := do
  m.listAdd new (← m.prev head) head

/-- `__list_del`. -/
def listDelBetween (prev next : ν) : Option (Links ν) := do
  let m ← m.setPrev next prev
  m.setNext prev next

/-- `__list_del_entry`. -/
def listDelEntry (entry : ν) : Option (Links ν) := do
  m.listDelBetween (← m.prev entry) (← m.next entry)

/-- `list_del`. -/
def listDel (entry : ν) : Option (Links ν) := do
  let m ← m.listDelEntry entry
  (m entry).map fun _ =>
    Function.update m entry (some { next := none, prev := none })

/-- `list_del_init`. -/
def listDelInit (entry : ν) : Option (Links ν) := do
  let m ← m.listDelEntry entry
  m.initListHead entry

/-- `list_move_tail`. -/
def listMoveTail (list head : ν) : Option (Links ν) := do
  let m ← m.listDelEntry list
  m.listAddTail list head

/-- `list_empty`. -/
def listEmpty (head : ν) : Option Bool :=
  (m head).map fun link => decide (link.next = some head)

/-- The memory of a list head is allocated; its pointers are not set. -/
def alloc (a : ν) : Links ν :=
  Function.update m a (some { next := none, prev := none })

/-- The memory of a list head is given back. -/
def free (a : ν) : Links ν := Function.update m a none

end Operations

/-! ### What they change -/

variable {m m' : Links ν} {a b c : ν}

/-- The pointers of `m'`; it has the list heads that `m` has. -/
structure Changed (m m' : Links ν) (next prev : ν → Option ν) : Prop where
  nextEq : m'.next = next
  prevEq : m'.prev = prev
  alive : ∀ x, (m' x).isSome = (m x).isSome

/-- The list heads of `m` have not changed, but for those in `nodes`. -/
structure Keeps (m m' : Links ν) (nodes : List ν) : Prop where
  next : ∀ x ∉ nodes, m'.next x = m.next x
  prev : ∀ x ∉ nodes, m'.prev x = m.prev x
  alive : ∀ x ∉ nodes, (m' x).isSome = (m x).isSome

theorem isSome_of_next (points : m.next a = some b) : (m a).isSome := by
  cases here : m a with
  | none => simp [next, here] at points
  | some link => rfl

theorem isSome_of_prev (points : m.prev a = some b) : (m a).isSome := by
  cases here : m a with
  | none => simp [prev, here] at points
  | some link => rfl

variable [DecidableEq ν]

theorem isSome_update {link : Link ν} (alive : (m a).isSome) (x : ν) :
    (Function.update m a (some link) x).isSome = (m x).isSome := by
  rw [Function.update_apply]
  split
  · rename_i same
    rw [same, alive]
    rfl
  · rfl

theorem setNext_changes (alive : (m a).isSome) (b : ν) :
    ∃ m', m.setNext a b = some m' ∧
      Changed m m' (Function.update m.next a (some b)) m.prev := by
  obtain ⟨link, here⟩ := Option.isSome_iff_exists.mp alive
  refine ⟨_, by rw [setNext, here, Option.map_some], ?_, ?_,
    isSome_update alive⟩
  · funext x
    by_cases same : x = a
    · subst same
      simp [next]
    · simp [next, same]
  · funext x
    by_cases same : x = a
    · subst same
      simp [prev, here]
    · simp [prev, same]

theorem setPrev_changes (alive : (m a).isSome) (b : ν) :
    ∃ m', m.setPrev a b = some m' ∧
      Changed m m' m.next (Function.update m.prev a (some b)) := by
  obtain ⟨link, here⟩ := Option.isSome_iff_exists.mp alive
  refine ⟨_, by rw [setPrev, here, Option.map_some], ?_, ?_,
    isSome_update alive⟩
  · funext x
    by_cases same : x = a
    · subst same
      simp [next, here]
    · simp [next, same]
  · funext x
    by_cases same : x = a
    · subst same
      simp [prev]
    · simp [prev, same]

theorem initListHead_changes (alive : (m a).isSome) :
    ∃ m', m.initListHead a = some m' ∧
      Changed m m' (Function.update m.next a (some a))
        (Function.update m.prev a (some a)) := by
  obtain ⟨m₁, set₁, changed₁⟩ := setNext_changes alive a
  obtain ⟨m₂, set₂, changed₂⟩ :=
    setPrev_changes (m := m₁) (by rw [changed₁.alive, alive]) a
  refine ⟨m₂, by simp [initListHead, set₁, set₂], ?_, ?_, fun x => ?_⟩
  · rw [changed₂.nextEq, changed₁.nextEq]
  · rw [changed₂.prevEq, changed₁.prevEq]
  · rw [changed₂.alive, changed₁.alive]

theorem listDelBetween_changes (alive : (m a).isSome) (alive' : (m b).isSome) :
    ∃ m', m.listDelBetween a b = some m' ∧
      Changed m m' (Function.update m.next a (some b))
        (Function.update m.prev b (some a)) := by
  obtain ⟨m₁, set₁, changed₁⟩ := setPrev_changes alive' a
  obtain ⟨m₂, set₂, changed₂⟩ :=
    setNext_changes (m := m₁) (by rw [changed₁.alive, alive]) b
  refine ⟨m₂, by simp [listDelBetween, set₁, set₂], ?_, ?_, fun x => ?_⟩
  · rw [changed₂.nextEq, changed₁.nextEq]
  · rw [changed₂.prevEq, changed₁.prevEq]
  · rw [changed₂.alive, changed₁.alive]

theorem listAdd_changes (alive : (m a).isSome) (before : (m b).isSome)
    (behind : (m c).isSome) :
    ∃ m', m.listAdd a b c = some m' ∧
      Changed m m'
        (Function.update (Function.update m.next a (some c)) b (some a))
        (Function.update (Function.update m.prev c (some a)) a (some b)) := by
  obtain ⟨m₁, set₁, changed₁⟩ := setPrev_changes behind a
  obtain ⟨m₂, set₂, changed₂⟩ :=
    setNext_changes (m := m₁) (by rw [changed₁.alive, alive]) c
  obtain ⟨m₃, set₃, changed₃⟩ := setPrev_changes (m := m₂) (a := a)
    (by rw [changed₂.alive, changed₁.alive, alive]) b
  obtain ⟨m₄, set₄, changed₄⟩ := setNext_changes (m := m₃) (a := b)
    (by rw [changed₃.alive, changed₂.alive, changed₁.alive, before]) a
  refine ⟨m₄, by simp [listAdd, set₁, set₂, set₃, set₄], ?_, ?_, fun x => ?_⟩
  · rw [changed₄.nextEq, changed₃.nextEq, changed₂.nextEq, changed₁.nextEq]
  · rw [changed₄.prevEq, changed₃.prevEq, changed₂.prevEq, changed₁.prevEq]
  · rw [changed₄.alive, changed₃.alive, changed₂.alive, changed₁.alive]

end Links

open Links

/-! ### Lists -/

/-- From `a` the pointers lead through the nodes of the list to `b`, and back. -/
def Segment (m : Links ν) : ν → List ν → ν → Prop
  | a, [], b => m.next a = some b ∧ m.prev b = some a
  | a, x :: xs, b => (m.next a = some x ∧ m.prev x = some a) ∧ Segment m x xs b

/-- The circular list with head `h` and the given members. -/
def Ring (m : Links ν) (h : ν) (xs : List ν) : Prop := Segment m h xs h

variable {m m' : Links ν} {a b e h : ν} {xs ys front back : List ν}

theorem segment_append {y : ν} : Segment m a (xs ++ y :: ys) b ↔
    Segment m a xs y ∧ Segment m y ys b := by
  induction xs generalizing a with
  | nil => exact Iff.rfl
  | cons x xs inductionHypothesis =>
      simp only [List.cons_append, Segment, inductionHypothesis, and_assoc]

theorem Segment.first (segment : Segment m a xs b) :
    m.next a = some (xs.headD b) ∧ m.prev (xs.headD b) = some a := by
  cases xs with
  | nil => exact segment
  | cons x xs => exact segment.1

theorem Segment.last (segment : Segment m a xs b) :
    m.next (xs.getLastD a) = some b ∧ m.prev b = some (xs.getLastD a) := by
  induction xs generalizing a with
  | nil => exact segment
  | cons x xs inductionHypothesis =>
      rw [List.getLastD_cons]
      exact inductionHypothesis segment.2

theorem Segment.alive (segment : Segment m a xs b) :
    ∀ x ∈ a :: xs, (m x).isSome := by
  induction xs generalizing a with
  | nil =>
      rintro x member
      obtain rfl : x = a := by simpa using member
      exact isSome_of_next segment.1
  | cons y xs inductionHypothesis =>
      rintro x member
      rcases List.mem_cons.mp member with rfl | member
      · exact isSome_of_next segment.1.1
      · exact inductionHypothesis segment.2 x member

/-- A segment depends on the pointers between its nodes only. -/
theorem Segment.congr (segment : Segment m a xs b)
    (next : ∀ x ∈ a :: xs, m'.next x = m.next x)
    (prev : ∀ x ∈ xs ++ [b], m'.prev x = m.prev x) : Segment m' a xs b := by
  induction xs generalizing a with
  | nil =>
      exact ⟨by rw [next a (by simp), segment.1],
        by rw [prev b (by simp), segment.2]⟩
  | cons x xs inductionHypothesis =>
      refine ⟨⟨by rw [next a (by simp), segment.1.1],
        by rw [prev x (by simp), segment.1.2]⟩,
        inductionHypothesis segment.2 (fun y member => ?_) fun y member => ?_⟩
      · exact next y (List.mem_cons_of_mem a member)
      · exact prev y (List.mem_cons_of_mem x member)

theorem getLastD_mem (a : ν) (xs : List ν) : xs.getLastD a ∈ a :: xs := by
  induction xs generalizing a with
  | nil => simp
  | cons x xs inductionHypothesis =>
      rw [List.getLastD_cons]
      exact List.mem_cons_of_mem a (inductionHypothesis x)

/-- A segment whose last node has been led to another node. -/
theorem Segment.redirect (segment : Segment m a xs b) (nodup : (a :: xs).Nodup)
    (next : ∀ x ∈ a :: xs, x ≠ xs.getLastD a → m'.next x = m.next x)
    (prev : ∀ x ∈ xs, m'.prev x = m.prev x) {c : ν}
    (last : m'.next (xs.getLastD a) = some c ∧
      m'.prev c = some (xs.getLastD a)) : Segment m' a xs c := by
  induction xs generalizing a with
  | nil => exact last
  | cons x xs inductionHypothesis =>
      obtain ⟨fresh, nodupRest⟩ := List.nodup_cons.mp nodup
      rw [List.getLastD_cons] at next last
      have notLast : a ≠ xs.getLastD x := by
        rintro rfl
        exact fresh (getLastD_mem x xs)
      refine ⟨⟨by rw [next a (by simp) notLast, segment.1.1],
        by rw [prev x (by simp), segment.1.2]⟩,
        inductionHypothesis segment.2 nodupRest (fun y member => ?_)
          (fun y member => ?_) last⟩
      · exact next y (List.mem_cons_of_mem a member)
      · exact prev y (List.mem_cons_of_mem x member)

theorem Ring.frame {nodes : List ν} (ring : Ring m h xs)
    (keeps : Keeps m m' nodes) (apart : ∀ x ∈ h :: xs, x ∉ nodes) :
    Ring m' h xs := by
  refine Segment.congr ring (fun x member => keeps.next x (apart x member))
    fun x member => keeps.prev x (apart x ?_)
  rcases List.mem_append.mp member with member | member
  · exact List.mem_cons_of_mem h member
  · rw [List.mem_singleton.mp member]
    exact List.mem_cons_self

variable [DecidableEq ν]

/-- A member that is unlinked is missing in the list, and nowhere else is
anything changed. -/
theorem Ring.unlink (ring : Ring m h (front ++ e :: back))
    (nodup : (h :: (front ++ e :: back)).Nodup) :
    ∃ m', m.listDelEntry e = some m' ∧ Ring m' h (front ++ back) ∧
      Keeps m m' (h :: (front ++ back)) ∧
      ∀ x, (m' x).isSome = (m x).isSome := by
  obtain ⟨toE, fromE⟩ := segment_append.mp ring
  obtain ⟨lastNext, lastPrev⟩ := toE.last
  obtain ⟨firstNext, firstPrev⟩ := fromE.first
  obtain ⟨m', done, changed⟩ := listDelBetween_changes
    (isSome_of_next lastNext) (isSome_of_prev firstPrev)
  have lastMem := getLastD_mem h front
  have firstMem : back.headD h ∈ h :: back := by cases back <;> simp
  have freshH : ∀ x ∈ front, x ≠ h ∧ x ∉ back := by
    simp only [List.nodup_cons, List.nodup_append, List.mem_append,
      List.mem_cons] at nodup
    grind
  have nodups : (h :: front).Nodup ∧ (h :: back).Nodup := by
    simp only [List.nodup_cons, List.nodup_append, List.mem_append,
      List.mem_cons] at nodup ⊢
    grind
  refine ⟨m', by rw [listDelEntry, lastPrev, firstNext]; exact done, ?_,
    ⟨fun x fresh => ?_, fun x fresh => ?_, fun x _ => changed.alive x⟩,
    changed.alive⟩
  · have ends : m'.next (front.getLastD h) = some (back.headD h) ∧
        m'.prev (back.headD h) = some (front.getLastD h) := by
      rw [changed.nextEq, changed.prevEq]
      simp
    have frontSame (c : ν) (isFirst : c = back.headD h) :
        Segment m' h front c := by
      refine toE.redirect nodups.1 (fun x _ notLast => ?_) (fun x member => ?_)
        (isFirst ▸ ends)
      · rw [changed.nextEq, Function.update_of_ne notLast]
      · rw [changed.prevEq, Function.update_of_ne]
        rintro rfl
        rcases List.mem_cons.mp firstMem with isH | inBack
        · exact (freshH _ member).1 isH
        · exact (freshH _ member).2 inBack
    cases back with
    | nil =>
        rw [List.append_nil]
        exact frontSame h rfl
    | cons y back =>
        refine segment_append.mpr ⟨frontSame y rfl, ?_⟩
        refine Segment.congr fromE.2 (fun x member => ?_) fun x member => ?_
        · rw [changed.nextEq, Function.update_of_ne]
          rintro rfl
          rcases List.mem_cons.mp lastMem with isH | inFront
          · rw [isH] at member
            exact (List.nodup_cons.mp nodups.2).1 member
          · exact (freshH _ inFront).2 member
        · rw [changed.prevEq, Function.update_of_ne]
          rintro rfl
          have nodupBack := (List.nodup_cons.mp nodups.2).2
          rcases List.mem_append.mp member with inBack | isH
          · exact (List.nodup_cons.mp nodupBack).1 inBack
          · rw [List.mem_singleton.mp isH] at nodups
            exact (List.nodup_cons.mp nodups.2).1 List.mem_cons_self
  · rw [changed.nextEq, Function.update_of_ne]
    rintro rfl
    exact fresh (by
      rcases List.mem_cons.mp lastMem with isH | inFront
      · rw [isH]
        exact List.mem_cons_self
      · exact List.mem_cons_of_mem h (List.mem_append_left back inFront))
  · rw [changed.prevEq, Function.update_of_ne]
    rintro rfl
    exact fresh (by
      rcases List.mem_cons.mp firstMem with isH | inBack
      · rw [isH]
        exact List.mem_cons_self
      · exact List.mem_cons_of_mem h (List.mem_append_right front inBack))

/-- A node that is linked at the tail becomes the last member, and nowhere else
is anything changed. -/
theorem Ring.link (ring : Ring m h xs) (nodup : (h :: xs).Nodup)
    (alive : (m e).isSome) (fresh : e ∉ h :: xs) :
    ∃ m', m.listAddTail e h = some m' ∧ Ring m' h (xs ++ [e]) ∧
      Keeps m m' (e :: h :: xs) ∧ ∀ x, (m' x).isSome = (m x).isSome := by
  obtain ⟨lastNext, lastPrev⟩ := Segment.last ring
  have lastMem := getLastD_mem h xs
  have isNew {x : ν} (member : x ∈ h :: xs) : x ≠ e := by
    rintro rfl
    exact fresh member
  obtain ⟨m', done, changed⟩ := listAdd_changes alive (isSome_of_next lastNext)
    (isSome_of_prev lastPrev)
  refine ⟨m', by rw [listAddTail, lastPrev]; exact done, ?_,
    ⟨fun x other => ?_, fun x other => ?_, fun x _ => changed.alive x⟩,
    changed.alive⟩
  · refine segment_append.mpr ⟨?_, ?_, ?_⟩
    · refine Segment.redirect ring nodup (fun x member notLast => ?_)
        (fun x member => ?_) ⟨?_, ?_⟩
      · rw [changed.nextEq, Function.update_of_ne notLast,
          Function.update_of_ne (isNew member)]
      · rw [changed.prevEq,
          Function.update_of_ne (isNew (List.mem_cons_of_mem h member)),
          Function.update_of_ne]
        rintro rfl
        exact (List.nodup_cons.mp nodup).1 member
      · rw [changed.nextEq, Function.update_self]
      · rw [changed.prevEq, Function.update_self]
    · rw [changed.nextEq, Function.update_of_ne (isNew lastMem).symm,
        Function.update_self]
    · rw [changed.prevEq, Function.update_of_ne (isNew List.mem_cons_self),
        Function.update_self]
  · rw [List.mem_cons, not_or] at other
    rw [changed.nextEq, Function.update_of_ne, Function.update_of_ne other.1]
    rintro rfl
    exact other.2 lastMem
  · simp only [List.mem_cons, not_or] at other
    rw [changed.prevEq, Function.update_of_ne other.1,
      Function.update_of_ne other.2.1]

end OsPAs.Lib
