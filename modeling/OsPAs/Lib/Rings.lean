/-
Module: OsPAs.Lib.Rings
Purpose: Families of circular doubly linked lists that have no node in common:
  what the operations of `list_head` do to them, and loops over one of the lists
  whose body changes the lists.
Trusted boundary: none
Main exports: Arranged, Unlinked, Arranged.listAddTail, Arranged.listDelInit,
  Arranged.listMoveTail, Arranged.listDel, Arranged.listEmpty, forEachSafe,
  Upcoming, forEachSafe_step, forEachSafe_foldl
-/
import OsPAs.Lib.Links
import OsPAs.Lib.Loop

namespace OsPAs.Lib

open Links

variable {ν : Type} {m m' : Links ν} {a b e h : ν} {xs ys front back : List ν}

/-! ### Families of lists -/

/-- The lists in memory: `rings h` are the members of the list with head `h`, if
`h` is one. -/
structure Arranged (m : Links ν) (rings : ν → Option (List ν)) : Prop where
  ring : ∀ h xs, rings h = some xs → Ring m h xs
  nodup : ∀ h xs, rings h = some xs → (h :: xs).Nodup
  disjoint : ∀ h xs h' xs', rings h = some xs → rings h' = some xs' → h ≠ h' →
    ∀ x ∈ h :: xs, x ∉ h' :: xs'

/-- The node is in memory, and neither the head nor a member of a list. -/
structure Unlinked (m : Links ν) (rings : ν → Option (List ν)) (e : ν) :
    Prop where
  alive : (m e).isSome
  fresh : ∀ h xs, rings h = some xs → e ∉ h :: xs

section Families

variable [DecidableEq ν] {rings : ν → Option (List ν)}

/-- One list has changed, in the nodes of the new one and of nothing else. -/
theorem Arranged.change {nodes : List ν} (arranged : Arranged m rings)
    (keeps : Keeps m m' nodes) (ring : Ring m' h ys) (nodup : (h :: ys).Nodup)
    (others : ∀ h' xs', rings h' = some xs' → h' ≠ h →
      ∀ x ∈ h' :: xs', x ∉ nodes ∧ x ∉ h :: ys) :
    Arranged m' (Function.update rings h (some ys)) where
  ring := by
    intro h' xs' isRing
    by_cases same : h' = h
    · subst same
      rw [Function.update_self] at isRing
      exact Option.some.inj isRing ▸ ring
    · rw [Function.update_of_ne same] at isRing
      exact (arranged.ring h' xs' isRing).frame keeps fun x member =>
        (others h' xs' isRing same x member).1
  nodup := by
    intro h' xs' isRing
    by_cases same : h' = h
    · subst same
      rw [Function.update_self] at isRing
      exact Option.some.inj isRing ▸ nodup
    · rw [Function.update_of_ne same] at isRing
      exact arranged.nodup h' xs' isRing
  disjoint := by
    intro h₁ xs₁ h₂ xs₂ isRing₁ isRing₂ ne x member
    by_cases first : h₁ = h
    · subst first
      rw [Function.update_self] at isRing₁
      rw [Function.update_of_ne ne.symm] at isRing₂
      obtain rfl := Option.some.inj isRing₁
      exact fun also => (others h₂ xs₂ isRing₂ ne.symm x also).2 member
    · rw [Function.update_of_ne first] at isRing₁
      by_cases second : h₂ = h
      · subst second
        rw [Function.update_self] at isRing₂
        obtain rfl := Option.some.inj isRing₂
        exact (others h₁ xs₁ isRing₁ first x member).2
      · rw [Function.update_of_ne second] at isRing₂
        exact arranged.disjoint h₁ xs₁ h₂ xs₂ isRing₁ isRing₂ ne x member

theorem Arranged.unlink (arranged : Arranged m rings)
    (isRing : rings h = some (front ++ e :: back)) :
    ∃ m', m.listDelEntry e = some m' ∧
      Arranged m' (Function.update rings h (some (front ++ back))) ∧
      Unlinked m' (Function.update rings h (some (front ++ back))) e := by
  have nodup := arranged.nodup h _ isRing
  have ring := arranged.ring h _ isRing
  have isMember : e ∈ h :: (front ++ e :: back) := by simp
  obtain ⟨m', done, shorter, keeps, alive⟩ := ring.unlink nodup
  have fewer : ∀ x ∈ h :: (front ++ back), x ∈ h :: (front ++ e :: back) := by
    simp only [List.mem_cons, List.mem_append]
    tauto
  have sub : (h :: (front ++ back)).Sublist (h :: (front ++ e :: back)) := by
    simp
  refine ⟨m', done, arranged.change keeps shorter (nodup.sublist sub)
    fun h' xs' isRing' ne x member => ?_, ?_, fun h' xs' isRing' => ?_⟩
  · have apart := arranged.disjoint h' xs' h _ isRing' isRing ne x member
    exact ⟨fun inNodes => apart (fewer x inNodes),
      fun inRing => apart (fewer x inRing)⟩
  · rw [alive]
    exact Segment.alive (segment_append.mp ring).2 e List.mem_cons_self
  · by_cases same : h' = h
    · subst same
      rw [Function.update_self] at isRing'
      obtain rfl := Option.some.inj isRing'
      simp only [List.nodup_cons, List.nodup_append, List.mem_append,
        List.mem_cons] at nodup ⊢
      grind
    · rw [Function.update_of_ne same] at isRing'
      exact arranged.disjoint h _ h' xs' isRing isRing' (Ne.symm same) e isMember

theorem Arranged.link (arranged : Arranged m rings)
    (unlinked : Unlinked m rings e) (isRing : rings h = some xs) :
    ∃ m', m.listAddTail e h = some m' ∧
      Arranged m' (Function.update rings h (some (xs ++ [e]))) := by
  have nodup := arranged.nodup h xs isRing
  have fresh := unlinked.fresh h xs isRing
  obtain ⟨m', done, longer, keeps, _⟩ :=
    (arranged.ring h xs isRing).link nodup unlinked.alive fresh
  refine ⟨m', done, arranged.change keeps longer ?_
    fun h' xs' isRing' ne x member => ?_⟩
  · simp only [List.nodup_cons, List.nodup_append, List.mem_append,
      List.mem_cons] at nodup fresh ⊢
    grind
  · have apart := arranged.disjoint h' xs' h xs isRing' isRing ne x member
    have notE : x ≠ e := by
      rintro rfl
      exact unlinked.fresh h' xs' isRing' member
    simp only [List.mem_cons, List.mem_append] at apart ⊢
    tauto

theorem Arranged.init (arranged : Arranged m rings)
    (unlinked : Unlinked m rings e) :
    ∃ m', m.initListHead e = some m' ∧
      Arranged m' (Function.update rings e (some [])) ∧
      ∀ x, (m' x).isSome = (m x).isSome := by
  obtain ⟨m', done, changed⟩ := initListHead_changes unlinked.alive
  have keeps : Keeps m m' [e] := by
    refine ⟨fun x other => ?_, fun x other => ?_, fun x _ => changed.alive x⟩
    · rw [changed.nextEq, Function.update_of_ne (by simpa using other)]
    · rw [changed.prevEq, Function.update_of_ne (by simpa using other)]
  refine ⟨m', done, arranged.change keeps ⟨?_, ?_⟩ (by simp)
    fun h' xs' isRing' _ x member => ?_, changed.alive⟩
  · rw [changed.nextEq, Function.update_self]
  · rw [changed.prevEq, Function.update_self]
  · have notE : x ≠ e := by
      rintro rfl
      exact unlinked.fresh h' xs' isRing' member
    simpa using notE

/-- A node stays unlinked when another one becomes the head of an empty list. -/
theorem Unlinked.keep {e' : ν} (unlinked : Unlinked m rings e) (ne : e ≠ e')
    (alive : ∀ x, (m' x).isSome = (m x).isSome) :
    Unlinked m' (Function.update rings e' (some [])) e where
  alive := by rw [alive, unlinked.alive]
  fresh := by
    intro h xs isRing
    by_cases same : h = e'
    · subst same
      rw [Function.update_self] at isRing
      rw [← Option.some.inj isRing]
      simpa using ne
    · rw [Function.update_of_ne same] at isRing
      exact unlinked.fresh h xs isRing

/-- The head of an empty list is not needed as one. -/
theorem Arranged.forget (arranged : Arranged m rings)
    (isRing : rings e = some []) :
    Arranged m (Function.update rings e none) ∧
      Unlinked m (Function.update rings e none) e := by
  have before {h' : ν} {xs' : List ν}
      (isRing' : Function.update rings e none h' = some xs') :
      h' ≠ e ∧ rings h' = some xs' := by
    by_cases same : h' = e
    · subst same
      simp at isRing'
    · rw [Function.update_of_ne same] at isRing'
      exact ⟨same, isRing'⟩
  refine ⟨⟨fun h' xs' isRing' => arranged.ring h' xs' (before isRing').2,
    fun h' xs' isRing' => arranged.nodup h' xs' (before isRing').2,
    fun h₁ xs₁ h₂ xs₂ isRing₁ isRing₂ => arranged.disjoint h₁ xs₁ h₂ xs₂
      (before isRing₁).2 (before isRing₂).2⟩,
    Segment.alive (arranged.ring e [] isRing) e List.mem_cons_self,
    fun h' xs' isRing' => ?_⟩
  obtain ⟨ne, isRing'⟩ := before isRing'
  exact arranged.disjoint e [] h' xs' isRing isRing' ne.symm e
    List.mem_cons_self

omit [DecidableEq ν] in
/-- What becomes of nodes that are in no list does not matter. -/
theorem Arranged.frame {nodes : List ν} (arranged : Arranged m rings)
    (keeps : Keeps m m' nodes)
    (apart : ∀ e ∈ nodes, ∀ h xs, rings h = some xs → e ∉ h :: xs) :
    Arranged m' rings where
  ring h xs isRing := (arranged.ring h xs isRing).frame keeps
    fun x member inNodes => apart x inNodes h xs isRing member
  nodup := arranged.nodup
  disjoint := arranged.disjoint

theorem keeps_update (m : Links ν) (e : ν) (link : Option (Link ν)) :
    Keeps m (Function.update m e link) [e] where
  next x other := by
    rw [List.mem_singleton] at other
    simp [Links.next, other]
  prev x other := by
    rw [List.mem_singleton] at other
    simp [Links.prev, other]
  alive x other := by
    rw [List.mem_singleton] at other
    simp [other]

/-! What the operations of the list do, one by one. -/

theorem Arranged.listAddTail (arranged : Arranged m rings)
    (loose : rings e = some []) (isRing : rings h = some xs) (ne : h ≠ e) :
    ∃ m', m.listAddTail e h = some m' ∧
      Arranged m' (Function.update (Function.update rings e none) h
        (some (xs ++ [e]))) := by
  obtain ⟨without, unlinked⟩ := arranged.forget loose
  exact without.link unlinked (by rw [Function.update_of_ne ne, isRing])

theorem Arranged.listDelInit (arranged : Arranged m rings)
    (isRing : rings h = some (front ++ e :: back)) :
    ∃ m', m.listDelInit e = some m' ∧
      Arranged m' (Function.update
        (Function.update rings h (some (front ++ back))) e (some [])) := by
  obtain ⟨m₁, deleted, arranged₁, unlinked⟩ := arranged.unlink isRing
  obtain ⟨m₂, done, arranged₂, _⟩ := arranged₁.init unlinked
  exact ⟨m₂, by rw [Links.listDelInit, deleted]; exact done, arranged₂⟩

theorem Arranged.listMoveTail (arranged : Arranged m rings)
    (isRing : rings h = some (front ++ e :: back)) {h' : ν}
    (isRing' : rings h' = some ys) (ne : h' ≠ h) :
    ∃ m', m.listMoveTail e h' = some m' ∧
      Arranged m' (Function.update
        (Function.update rings h (some (front ++ back))) h'
          (some (ys ++ [e]))) := by
  obtain ⟨m₁, deleted, arranged₁, unlinked⟩ := arranged.unlink isRing
  obtain ⟨m₂, done, arranged₂⟩ := arranged₁.link unlinked
    (by rw [Function.update_of_ne ne, isRing'])
  exact ⟨m₂, by rw [Links.listMoveTail, deleted]; exact done, arranged₂⟩

theorem Arranged.listDel (arranged : Arranged m rings)
    (isRing : rings h = some (front ++ e :: back)) :
    ∃ m', m.listDel e = some m' ∧
      Arranged (m'.free e) (Function.update rings h (some (front ++ back))) := by
  obtain ⟨m₁, deleted, arranged₁, unlinked⟩ := arranged.unlink isRing
  obtain ⟨link, here⟩ := Option.isSome_iff_exists.mp unlinked.alive
  refine ⟨_, by rw [Links.listDel, deleted]; simp only [Option.bind_eq_bind,
    Option.bind_some, here, Option.map_some]; rfl, ?_⟩
  rw [Links.free, Function.update_idem]
  refine arranged₁.frame (keeps_update m₁ e none) fun x isE => ?_
  rw [List.mem_singleton.mp isE]
  exact unlinked.fresh

/-- The head of an empty list is given back. -/
theorem Arranged.free (arranged : Arranged m rings)
    (isRing : rings e = some []) :
    Arranged (m.free e) (Function.update rings e none) := by
  obtain ⟨without, unlinked⟩ := arranged.forget isRing
  refine without.frame (keeps_update m e none) fun x isE => ?_
  rw [List.mem_singleton.mp isE]
  exact unlinked.fresh

/-- A list head is allocated that is in no list. -/
theorem Arranged.alloc (arranged : Arranged m rings)
    (fresh : ∀ h xs, rings h = some xs → e ∉ h :: xs) :
    Arranged (m.alloc e) rings ∧ Unlinked (m.alloc e) rings e := by
  refine ⟨arranged.frame (keeps_update m e _) fun x isE => ?_, ?_, fresh⟩
  · rw [List.mem_singleton.mp isE]
    exact fresh
  · simp [Links.alloc]

theorem Unlinked.alloc (unlinked : Unlinked m rings e) (e' : ν) :
    Unlinked (m.alloc e') rings e where
  alive := by
    rw [Links.alloc, Function.update_apply]
    split
    · rfl
    · exact unlinked.alive
  fresh := unlinked.fresh

omit [DecidableEq ν] in
theorem Arranged.next (arranged : Arranged m rings)
    (isRing : rings h = some xs) : m.next h = some (xs.headD h) :=
  (Segment.first (arranged.ring h xs isRing)).1

omit [DecidableEq ν] in
theorem Arranged.nextOf (arranged : Arranged m rings)
    (isRing : rings h = some (front ++ e :: back)) :
    m.next e = some (back.headD h) :=
  (Segment.first (segment_append.mp (arranged.ring h _ isRing)).2).1

theorem listEmpty_of_next (points : m.next a = some b) :
    m.listEmpty a = some (decide (b = a)) := by
  cases here : m a with
  | none => simp [Links.next, here] at points
  | some link =>
      have nextEq : link.next = some b := by simpa [Links.next, here] using points
      simp [Links.listEmpty, here, nextEq]

theorem Arranged.listEmpty (arranged : Arranged m rings)
    (isRing : rings h = some xs) : m.listEmpty h = some (decide (xs = [])) := by
  rw [listEmpty_of_next (arranged.next isRing)]
  have nodup := arranged.nodup h xs isRing
  cases xs with
  | nil => simp
  | cons x xs =>
      have ne : x ≠ h := by
        rintro rfl
        exact (List.nodup_cons.mp nodup).1 List.mem_cons_self
      simp [ne]

/-- The list head in a member does not look empty. -/
theorem Arranged.listEmpty_of_mem (arranged : Arranged m rings)
    (isRing : rings h = some xs) (member : e ∈ xs) :
    m.listEmpty e = some false := by
  obtain ⟨front, back, rfl⟩ := List.append_of_mem member
  rw [listEmpty_of_next (arranged.nextOf isRing)]
  have nodup := arranged.nodup h _ isRing
  have ne : back.headD h ≠ e := by
    simp only [List.nodup_cons, List.nodup_append, List.mem_append,
      List.mem_cons] at nodup
    cases back <;> grind
  rw [decide_eq_false ne]

end Families

/-! ### Loops over a list -/

section Loops

variable {σ ε : Type} [DecidableEq ν] (links : σ → Links ν) (stray endless : ε)
  (head : ν) (body : ν → σ → Except ε (Pass σ))

/-- `list_for_each_entry_safe` with the cursors at `pos` and `n`, for as many
passes as there is fuel.  A pass may leave the function around the loop. -/
def forEachSafeFrom : Nat → ν → ν → σ → Except ε (Pass σ)
  | 0, _, _, _ => .error endless
  | fuel + 1, pos, n, s =>
      if pos = head then .ok (.again s)
      else
        match body pos s with
        | .error fault => .error fault
        | .ok (.leave s) => .ok (.leave s)
        | .ok (.again s) =>
            match (links s).next n with
            | none => .error stray
            | some next => forEachSafeFrom fuel n next s

/-- `list_for_each_entry_safe`. -/
def forEachSafe (fuel : Nat) (s : σ) : Except ε (Pass σ) :=
  match (links s).next head with
  | none => .error stray
  | some pos =>
      match (links s).next pos with
      | none => .error stray
      | some n => forEachSafeFrom links stray endless head body fuel pos n s

/-- A pass of a loop that goes on with the property `P`, or ends the loop with
the property `Q`, which every result may have. -/
inductive PassMeets (P : σ → Prop) (Q : Except ε (Pass σ) → Prop) :
    Except ε (Pass σ) → Prop where
  | again {s : σ} (holds : P s) : PassMeets P Q (.ok (.again s))
  | leave {s : σ} (holds : Q (.ok (.leave s))) : PassMeets P Q (.ok (.leave s))
  | fault {fault : ε} (holds : Q (.error fault)) : PassMeets P Q (.error fault)
  | any {result : Except ε (Pass σ)} (all : ∀ result, Q result) :
      PassMeets P Q result

variable {links stray endless head body} {P : List ν → σ → Prop}
  {Q : Except ε (Pass σ) → Prop}

theorem PassMeets.mono {P P' : σ → Prop} {result : Except ε (Pass σ)}
    (met : PassMeets P Q result) (implies : ∀ s, P s → P' s) :
    PassMeets P' Q result := by
  cases met with
  | again holds => exact .again (implies _ holds)
  | leave holds => exact .leave holds
  | fault holds => exact .fault holds
  | any all => exact .any all

/-- The second cursor is behind the first one. -/
def Behind (head : ν) (rest : List ν) (n : ν) : Prop :=
  ∀ x later, rest = x :: later → n = later.headD head

omit [DecidableEq ν] in
/-- The cursor behind `n`, where `n` is the first of what is left, or the head. -/
theorem Arranged.behind {rings : ν → Option (List ν)}
    (arranged : Arranged m rings) {kept rest : List ν}
    (isRing : rings head = some (kept ++ rest)) :
    ∃ next, m.next (rest.headD head) = some next ∧ Behind head rest next := by
  cases rest with
  | nil => exact ⟨_, arranged.next isRing, fun x later eq => nomatch eq⟩
  | cons y later =>
      refine ⟨_, arranged.nextOf isRing, fun x others eq => ?_⟩
      rw [(List.cons.inj eq).2]

theorem forEachSafeFrom_rule
    (listed : ∀ rest s, P rest s → ∃ rings kept, Arranged (links s) rings ∧
      rings head = some (kept ++ rest))
    (done : ∀ s, P [] s → Q (.ok (.again s)))
    (pass : ∀ x rest s, P (x :: rest) s → PassMeets (P rest) Q (body x s))
    {rest : List ν} {fuel : Nat} (enough : rest.length < fuel) {s : σ}
    (holds : P rest s) {n : ν} (behind : Behind head rest n) :
    Q (forEachSafeFrom links stray endless head body fuel (rest.headD head) n
      s) := by
  induction rest generalizing fuel s n with
  | nil =>
      obtain ⟨fuel, rfl⟩ := Nat.exists_eq_succ_of_ne_zero (Nat.ne_of_gt enough)
      rw [forEachSafeFrom, List.headD_nil, if_pos rfl]
      exact done s holds
  | cons x rest inductionHypothesis =>
      obtain ⟨fuel, rfl⟩ :=
        Nat.exists_eq_succ_of_ne_zero (Nat.ne_of_gt (Nat.zero_lt_of_lt enough))
      obtain ⟨rings, kept, arranged, isRing⟩ := listed _ s holds
      have notHead : x ≠ head := by
        rintro rfl
        exact (List.nodup_cons.mp (arranged.nodup x _ isRing)).1 (by simp)
      have nEq : n = rest.headD head := behind x rest rfl
      rw [forEachSafeFrom, List.headD_cons, if_neg notHead, nEq]
      have met := pass x rest s holds
      generalize body x s = result at met
      cases met with
      | leave holds => exact holds
      | fault holds => exact holds
      | any all => exact all _
      | again later =>
          obtain ⟨rings', kept', arranged', isRing'⟩ := listed _ _ later
          obtain ⟨next, nextEq, behind'⟩ := arranged'.behind isRing'
          simp only [nextEq]
          exact inductionHypothesis (Nat.lt_of_succ_lt_succ enough) later behind'

/-- The rule of the loop: `P rest` holds when the members `rest` are still to be
visited, and the members before are still in the list or not. -/
theorem forEachSafe_rule
    (listed : ∀ rest s, P rest s → ∃ rings kept, Arranged (links s) rings ∧
      rings head = some (kept ++ rest))
    (done : ∀ s, P [] s → Q (.ok (.again s)))
    (pass : ∀ x rest s, P (x :: rest) s → PassMeets (P rest) Q (body x s))
    {s : σ} {rings : ν → Option (List ν)} (arranged : Arranged (links s) rings)
    (isRing : rings head = some xs) {fuel : Nat} (enough : xs.length < fuel)
    (holds : P xs s) :
    Q (forEachSafe links stray endless head body fuel s) := by
  have noneKept : rings head = some ([] ++ xs) := isRing
  obtain ⟨n, nextEq, behind⟩ := arranged.behind noneKept
  rw [forEachSafe, arranged.next isRing]
  simp only [nextEq]
  exact forEachSafeFrom_rule listed done pass enough holds behind

/-- A loop that leaves the lists alone is a fold over the members. -/
theorem forEachSafe_foldl {rings : ν → Option (List ν)} (step : σ → ν → σ)
    (good : σ → Prop) {s : σ} (arranged : ∀ s, good s → Arranged (links s) rings)
    (isRing : rings head = some xs) {fuel : Nat} (enough : xs.length < fuel)
    (initially : good s)
    (pass : ∀ x ∈ xs, ∀ s, good s →
      body x s = .ok (.again (step s x)) ∧ good (step s x)) :
    forEachSafe links stray endless head body fuel s =
        .ok (.again (xs.foldl step s)) ∧ good (xs.foldl step s) := by
  refine forEachSafe_rule
    (P := fun rest s' => good s' ∧ (∃ front, xs = front ++ rest) ∧
      rest.foldl step s' = xs.foldl step s)
    (Q := fun result => result = .ok (.again (xs.foldl step s)) ∧
      good (xs.foldl step s)) ?_ ?_ ?_ (arranged s initially) isRing enough
    ⟨initially, ⟨[], rfl⟩, rfl⟩
  · rintro rest s' ⟨isGood, ⟨front, split⟩, _⟩
    exact ⟨rings, front, arranged s' isGood, by rw [isRing, split]⟩
  · rintro s' ⟨isGood, _, same⟩
    rw [List.foldl_nil] at same
    subst same
    exact ⟨rfl, isGood⟩
  · rintro x rest s' ⟨isGood, ⟨front, split⟩, same⟩
    obtain ⟨ran, goodNow⟩ := pass x (by simp [split]) s' isGood
    rw [ran]
    exact .again ⟨goodNow, ⟨front ++ [x], by simp [split]⟩, same⟩

end Loops

end OsPAs.Lib
