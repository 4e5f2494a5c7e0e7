/-
Module: OsPAs.Lib.Commands
Purpose: Machines that execute a list of commands until one of them leaves the
  loop or faults: the states between commands, invariants under a condition on
  every command, and simulations between two machines.
Trusted boundary: none
Main exports: Machine, runAll, Reaches, Along, reaches_invariant,
  along_of_reaches, endsWith, Agree, Matches, AlongBoth, runAll_matches_both,
  runAll_matches, reaches_related, collect, collect_runAll_filter,
  runAll_filterMap
-/
import Mathlib.Data.List.Forall2
import OsPAs.Lib.Loop

namespace OsPAs.Lib

variable {κ σ τ ε ο ο' : Type}

/-- What one command does in a state: it prints, and it goes on or leaves the
loop, or it faults. -/
abbrev Machine (κ σ ε ο : Type) := κ → σ → Except ε (ο × Pass σ)

/-- The state at the end of a pass, whichever way it ends. -/
def Pass.state : Pass σ → σ
  | .again s => s
  | .leave s => s

/-- A pass that ends in the same way, in another state. -/
def Pass.map (f : σ → τ) : Pass σ → Pass τ
  | .again s => .again (f s)
  | .leave s => .leave (f s)

/-- The result of a run with one more line printed in front. -/
def emit (out : ο) :
    Except ε (List ο × Pass σ) → Except ε (List ο × Pass σ)
  | .error fault => .error fault
  | .ok (outs, pass) => .ok (out :: outs, pass)

/-- The loop over all commands: what it prints, and how it ends. -/
def runAll (machine : Machine κ σ ε ο) :
    List κ → σ → Except ε (List ο × Pass σ)
  | [], s => .ok ([], .again s)
  | c :: rest, s =>
      match machine c s with
      | .error fault => .error fault
      | .ok (out, .leave s') => .ok ([out], .leave s')
      | .ok (out, .again s') => emit out (runAll machine rest s')

/-- A state that the loop is in before, between or after its commands. -/
inductive Reaches (machine : Machine κ σ ε ο) : List κ → σ → σ → Prop where
  | here {cs : List κ} {s : σ} : Reaches machine cs s s
  | leave {c : κ} {rest : List κ} {s s' : σ} {out : ο}
      (ran : machine c s = .ok (out, .leave s')) :
      Reaches machine (c :: rest) s s'
  | again {c : κ} {rest : List κ} {s s' s'' : σ} {out : ο}
      (ran : machine c s = .ok (out, .again s'))
      (later : Reaches machine rest s' s'') :
      Reaches machine (c :: rest) s s''

/-- Every command of the run is executed in a state that meets the condition. -/
def Along (machine : Machine κ σ ε ο) (condition : κ → σ → Prop) :
    List κ → σ → Prop
  | [], _ => True
  | c :: rest, s => condition c s ∧ ∀ out s',
      machine c s = .ok (out, .again s') → Along machine condition rest s'

variable {machine : Machine κ σ ε ο} {condition : κ → σ → Prop}
  {cs : List κ} {s s' : σ}

theorem Along.mono {weaker : κ → σ → Prop}
    (implies : ∀ c s, condition c s → weaker c s)
    (along : Along machine condition cs s) : Along machine weaker cs s := by
  induction cs generalizing s with
  | nil => trivial
  | cons c rest inductionHypothesis =>
      obtain ⟨now, later⟩ := along
      exact ⟨implies c s now,
        fun out s' ran => inductionHypothesis (later out s' ran)⟩

/-- A part of the run, from its start. -/
theorem Along.take (along : Along machine condition cs s) (n : Nat) :
    Along machine condition (cs.take n) s := by
  induction cs generalizing s n with
  | nil => rwa [List.take_nil]
  | cons c rest inductionHypothesis =>
      cases n with
      | zero => trivial
      | succ n =>
          obtain ⟨now, later⟩ := along
          exact ⟨now,
            fun out s' ran => inductionHypothesis (later out s' ran) n⟩

/-- Two conditions that every command of the run meets. -/
theorem Along.and {other : κ → σ → Prop}
    (along : Along machine condition cs s) (along' : Along machine other cs s) :
    Along machine (fun c s => condition c s ∧ other c s) cs s := by
  induction cs generalizing s with
  | nil => trivial
  | cons c rest inductionHypothesis =>
      exact ⟨⟨along.1, along'.1⟩, fun out s' ran =>
        inductionHypothesis (along.2 out s' ran) (along'.2 out s' ran)⟩

theorem along_true (machine : Machine κ σ ε ο) (cs : List κ) (s : σ) :
    Along machine (fun _ _ => True) cs s := by
  induction cs generalizing s with
  | nil => trivial
  | cons c rest inductionHypothesis =>
      exact ⟨trivial, fun _ s' _ => inductionHypothesis s'⟩

/-- A condition on the states of a machine holds along a run of another machine
that does the same with more state. -/
theorem Along.pull {machine' : Machine κ τ ε ο'} (project : τ → σ)
    (does : ∀ c t out t', machine' c t = .ok (out, .again t') →
      ∃ out', machine c (project t) = .ok (out', .again (project t')))
    {t : τ} (along : Along machine condition cs (project t)) :
    Along machine' (fun c t => condition c (project t)) cs t := by
  induction cs generalizing t with
  | nil => trivial
  | cons c rest inductionHypothesis =>
      obtain ⟨now, later⟩ := along
      refine ⟨now, fun out t' ran => ?_⟩
      obtain ⟨out', ran'⟩ := does c t out t' ran
      exact inductionHypothesis (later out' (project t') ran')

/-- How a run that does not fault starts: its first command leaves the loop, or goes
on to the others. -/
theorem runAll_cons_eq_ok {c : κ} {rest : List κ} {outs : List ο} {pass : Pass σ} :
    runAll machine (c :: rest) s = .ok (outs, pass) ↔
      (∃ out s', machine c s = .ok (out, .leave s') ∧ outs = [out] ∧
        pass = .leave s') ∨
      ∃ out s' later, machine c s = .ok (out, .again s') ∧
        runAll machine rest s' = .ok (later, pass) ∧ outs = out :: later := by
  rw [runAll]
  cases first : machine c s with
  | error fault => simp
  | ok result =>
      obtain ⟨out, middle⟩ := result
      cases middle with
      | leave s' => simp [eq_comm]
      | again s' =>
          cases later : runAll machine rest s' with
          | error fault => simp [later, emit]
          | ok result =>
              obtain ⟨outs', pass'⟩ := result
              simp [later, emit, eq_comm, and_comm]

theorem reaches_of_runAll {outs : List ο} {pass : Pass σ}
    (ran : runAll machine cs s = .ok (outs, pass)) :
    Reaches machine cs s pass.state := by
  induction cs generalizing s outs with
  | nil =>
      obtain ⟨_, rfl⟩ := Prod.mk.inj (Except.ok.inj ran)
      exact .here
  | cons c rest inductionHypothesis =>
      obtain ⟨out, s', first, _, rfl⟩ | ⟨out, s', later, first, ran', _⟩ :=
        runAll_cons_eq_ok.mp ran
      · exact .leave first
      · exact .again first (inductionHypothesis ran')

/-- What is left of the run behind the commands that were executed. -/
theorem Along.behind {front back : List κ} {outs : List ο}
    (ran : runAll machine front s = .ok (outs, .again s'))
    (along : Along machine condition (front ++ back) s) :
    Along machine condition back s' := by
  induction front generalizing s outs with
  | nil =>
      obtain ⟨_, same⟩ := Prod.mk.inj (Except.ok.inj ran)
      obtain rfl := Pass.again.inj same
      exact along
  | cons c rest inductionHypothesis =>
      obtain ⟨out, s', _, _, left⟩ | ⟨out, middle, later, first, ran', _⟩ :=
        runAll_cons_eq_ok.mp ran
      · exact nomatch left
      · exact inductionHypothesis ran' (along.2 _ _ first)

/-- Invariant rule: what every command carries, as long as it meets the
condition, holds in every state reached. -/
theorem reaches_invariant (Inv : σ → Prop)
    (carried : ∀ c s out pass, Inv s → condition c s →
      machine c s = .ok (out, pass) → Inv pass.state)
    (initially : Inv s) (along : Along machine condition cs s)
    (reached : Reaches machine cs s s') : Inv s' := by
  induction reached with
  | here => exact initially
  | leave ran => exact carried _ _ _ _ initially along.1 ran
  | again ran _ inductionHypothesis =>
      exact inductionHypothesis (carried _ _ _ _ initially along.1 ran)
        (along.2 _ _ ran)

/-- What the states reached add to a condition that every command meets. -/
theorem Along.of_reaches (along : Along machine condition cs s)
    {Inv : σ → Prop} {met : κ → σ → Prop}
    (meets : ∀ c s, Inv s → condition c s → met c s)
    (all : ∀ s', Reaches machine cs s s' → Inv s') :
    Along machine met cs s := by
  induction cs generalizing s with
  | nil => trivial
  | cons c rest inductionHypothesis =>
      exact ⟨meets c s (all s .here) along.1, fun out s' ran =>
        inductionHypothesis (along.2 out s' ran) fun s'' later =>
          all s'' (.again ran later)⟩

/-- Converse rule: where the invariant needs the condition, it holds in every
state reached only if every command meets the condition. -/
theorem along_of_reaches (Inv : σ → Prop)
    (needed : ∀ c s, Inv s →
      (∀ out pass, machine c s = .ok (out, pass) → Inv pass.state) →
        condition c s)
    (all : ∀ s', Reaches machine cs s s' → Inv s') :
    Along machine condition cs s := by
  induction cs generalizing s with
  | nil => trivial
  | cons c rest inductionHypothesis =>
      constructor
      · apply needed c s (all s .here)
        intro out pass ran
        cases pass with
        | again s' => exact all s' (.again ran .here)
        | leave s' => exact all s' (.leave ran)
      · intro out s' ran
        exact inductionHypothesis fun s'' later => all s'' (.again ran later)

/-! ### Evaluating a run -/

/-- Whether every command of a run meets a decidable condition is decided by
running it. -/
instance Along.decidable (machine : Machine κ σ ε ο) (condition : κ → σ → Prop)
    [∀ c s, Decidable (condition c s)] :
    ∀ cs s, Decidable (Along machine condition cs s)
  | [], _ => .isTrue trivial
  | c :: rest, s =>
      match (inferInstance : Decidable (condition c s)) with
      | .isFalse unmet => .isFalse fun along => unmet along.1
      | .isTrue met =>
          match ran : machine c s with
          | .error _ => .isTrue ⟨met, fun _ _ eq => by simp [ran] at eq⟩
          | .ok (_, .leave _) =>
              .isTrue ⟨met, fun _ _ eq => by simp [ran] at eq⟩
          | .ok (out, .again s') =>
              match Along.decidable machine condition rest s' with
              | .isTrue later => .isTrue ⟨met, fun _ _ eq => by
                  obtain ⟨_, same⟩ :=
                    Prod.mk.inj (Except.ok.inj (ran.symm.trans eq))
                  exact Pass.again.inj same ▸ later⟩
              | .isFalse unmet => .isFalse fun along =>
                  unmet (along.2 out s' ran)

/-- The run does not fault and ends in a state with the property `P`. -/
def endsWith (P : σ → Prop) [DecidablePred P] :
    Except ε (List ο × Pass σ) → Bool
  | .ok (_, pass) => decide (P pass.state)
  | .error _ => false

theorem exists_of_endsWith (machine : Machine κ σ ε ο) (cs : List κ) (s : σ)
    (P : σ → Prop) [DecidablePred P]
    (found : endsWith P (runAll machine cs s) = true) :
    ∃ s', Reaches machine cs s s' ∧ P s' := by
  cases ran : runAll machine cs s with
  | error fault => simp [ran, endsWith] at found
  | ok result =>
      obtain ⟨outs, pass⟩ := result
      rw [ran] at found
      exact ⟨pass.state, reaches_of_runAll ran, of_decide_eq_true found⟩

/-! ### Simulation -/

/-- Two computations fault alike, or give related results. -/
inductive Agree {α β : Type} (related : α → β → Prop) :
    Except ε α → Except ε β → Prop where
  | fault (fault : ε) : Agree related (.error fault) (.error fault)
  | ok {a : α} {b : β} (results : related a b) : Agree related (.ok a) (.ok b)

/-- Computations that agree go on to agree if they do so from related
results. -/
theorem Agree.bind {α β α' β' : Type} {related : α → β → Prop}
    {related' : α' → β' → Prop} {x : Except ε α} {y : Except ε β}
    {f : α → Except ε α'} {g : β → Except ε β'} (first : Agree related x y)
    (next : ∀ a b, related a b → Agree related' (f a) (g b)) :
    Agree related' (x >>= f) (y >>= g) := by
  cases first with
  | fault fault => exact .fault fault
  | ok results => exact next _ _ results

theorem Agree.mono {α β : Type} {related weaker : α → β → Prop}
    {x : Except ε α} {y : Except ε β} (agree : Agree related x y)
    (implies : ∀ a b, related a b → weaker a b) : Agree weaker x y := by
  cases agree with
  | fault fault => exact .fault fault
  | ok results => exact .ok (implies _ _ results)

/-- Two loops over the same list agree if their passes do; `related` may depend
on the passes to come. -/
theorem agree_foldlM {α : Type} {related : List α → σ → τ → Prop}
    {f : σ → α → Except ε σ} {g : τ → α → Except ε τ}
    (pass : ∀ a rest s t, related (a :: rest) s t →
      Agree (related rest) (f s a) (g t a))
    (list : List α) {s : σ} {t : τ} (initially : related list s t) :
    Agree (related []) (list.foldlM f s) (list.foldlM g t) := by
  induction list generalizing s t with
  | nil => exact .ok initially
  | cons a rest inductionHypothesis =>
      rw [List.foldlM_cons, List.foldlM_cons]
      exact (pass a rest s t initially).bind fun s' t' => inductionHypothesis

theorem agree_self {α : Type} (x : Except ε α) :
    Agree (fun a b => x = .ok a ∧ a = b) x x := by
  cases x with
  | error fault => exact .fault fault
  | ok a => exact .ok ⟨rfl, rfl⟩

/-- Two results fault alike, or print alike and end alike in related states. -/
inductive Matches (same : ο → ο' → Prop) (related : σ → τ → Prop) :
    Except ε (ο × Pass σ) → Except ε (ο' × Pass τ) → Prop where
  | fault (fault : ε) : Matches same related (.error fault) (.error fault)
  | again {out : ο} {out' : ο'} {s : σ} {t : τ} (prints : same out out')
      (states : related s t) :
      Matches same related (.ok (out, .again s)) (.ok (out', .again t))
  | leave {out : ο} {out' : ο'} {s : σ} {t : τ} (prints : same out out')
      (states : related s t) :
      Matches same related (.ok (out, .leave s)) (.ok (out', .leave t))

/-- Computations that agree go on to match if they do so from related
results. -/
theorem Agree.bind_matches {α β : Type} {relation : α → β → Prop}
    {same : ο → ο' → Prop} {related : σ → τ → Prop} {x : Except ε α}
    {y : Except ε β} {f : α → Except ε (ο × Pass σ)}
    {g : β → Except ε (ο' × Pass τ)} (first : Agree relation x y)
    (next : ∀ a b, relation a b → Matches same related (f a) (g b)) :
    Matches same related (x >>= f) (y >>= g) := by
  cases first with
  | fault fault => exact .fault fault
  | ok results => exact next _ _ results

theorem Matches.mono {same : ο → ο' → Prop} {related weaker : σ → τ → Prop}
    {result : Except ε (ο × Pass σ)} {result' : Except ε (ο' × Pass τ)}
    (matched : Matches same related result result')
    (implies : ∀ s t, related s t → weaker s t) :
    Matches same weaker result result' := by
  cases matched with
  | fault fault => exact .fault fault
  | again prints states => exact .again prints (implies _ _ states)
  | leave prints states => exact .leave prints (implies _ _ states)

theorem Matches.emit {same : ο → ο' → Prop} {related : σ → τ → Prop}
    {out : ο} {out' : ο'} {result : Except ε (List ο × Pass σ)}
    {result' : Except ε (List ο' × Pass τ)} (prints : same out out')
    (rest : Matches (List.Forall₂ same) related result result') :
    Matches (List.Forall₂ same) related (emit out result)
      (emit out' result') := by
  cases rest with
  | fault fault => exact .fault fault
  | again prints' states => exact .again (.cons prints prints') states
  | leave prints' states => exact .leave (.cons prints prints') states

theorem Matches.of_emit {same : ο → ο' → Prop} {related : σ → τ → Prop}
    {out : ο} {out' : ο'} {result : Except ε (List ο × Pass σ)}
    {result' : Except ε (List ο' × Pass τ)}
    (matched : Matches (List.Forall₂ same) related (Lib.emit out result)
      (Lib.emit out' result')) :
    Matches (List.Forall₂ same) related result result' := by
  rcases result with fault | ⟨outs, pass⟩
  · rcases result' with fault' | ⟨outs', pass'⟩
    · cases matched
      exact .fault fault
    · cases matched
  · rcases result' with fault' | ⟨outs', pass'⟩
    · cases matched
    · cases matched with
      | again prints states =>
          exact .again (List.forall₂_cons.mp prints).2 states
      | leave prints states =>
          exact .leave (List.forall₂_cons.mp prints).2 states

/-- Runs that match print the same. -/
theorem Matches.printed_eq {related : σ → τ → Prop}
    {result : Except ε (List ο × Pass σ)} {result' : Except ε (List ο × Pass τ)}
    (matched : Matches (List.Forall₂ Eq) related result result') :
    result.toOption.map Prod.fst = result'.toOption.map Prod.fst := by
  cases matched with
  | fault fault => rfl
  | again prints _ => exact congrArg some (List.forall₂_eq_eq_eq ▸ prints)
  | leave prints _ => exact congrArg some (List.forall₂_eq_eq_eq ▸ prints)

/-- Two machines that execute the same commands meet the condition in the
states that both are in. -/
def AlongBoth (machine : Machine κ σ ε ο) (machine' : Machine κ τ ε ο')
    (condition : κ → σ → τ → Prop) : List κ → σ → τ → Prop
  | [], _, _ => True
  | c :: rest, s, t => condition c s t ∧ ∀ out s' out' t',
      machine c s = .ok (out, .again s') →
      machine' c t = .ok (out', .again t') →
      AlongBoth machine machine' condition rest s' t'

/-- What one of the machines meets along its run. -/
theorem Along.both {machine' : Machine κ τ ε ο'}
    (along : Along machine condition cs s) (t : τ) :
    AlongBoth machine machine' (fun c s _ => condition c s) cs s t := by
  induction cs generalizing s t with
  | nil => trivial
  | cons c rest inductionHypothesis =>
      exact ⟨along.1, fun _ _ _ t' ran _ =>
        inductionHypothesis (along.2 _ _ ran) t'⟩

/-- A part of the two runs, from their start. -/
theorem AlongBoth.take {machine' : Machine κ τ ε ο'}
    {condition : κ → σ → τ → Prop} {t : τ}
    (along : AlongBoth machine machine' condition cs s t) (n : Nat) :
    AlongBoth machine machine' condition (cs.take n) s t := by
  induction cs generalizing s t n with
  | nil => rwa [List.take_nil]
  | cons c rest inductionHypothesis =>
      cases n with
      | zero => trivial
      | succ n =>
          exact ⟨along.1, fun _ _ _ _ ran ran' =>
            inductionHypothesis (along.2 _ _ _ _ ran ran') n⟩

/-- Whether two runs meet a decidable condition is decided by running both. -/
instance AlongBoth.decidable (machine : Machine κ σ ε ο)
    (machine' : Machine κ τ ε ο') (condition : κ → σ → τ → Prop)
    [∀ c s t, Decidable (condition c s t)] :
    ∀ cs s t, Decidable (AlongBoth machine machine' condition cs s t)
  | [], _, _ => .isTrue trivial
  | c :: rest, s, t =>
      match (inferInstance : Decidable (condition c s t)) with
      | .isFalse unmet => .isFalse fun along => unmet along.1
      | .isTrue met =>
          match ran : machine c s, ran' : machine' c t with
          | .ok (out, .again s'), .ok (out', .again t') =>
              match AlongBoth.decidable machine machine' condition rest s' t' with
              | .isTrue later => .isTrue ⟨met, fun _ _ _ _ eq eq' => by
                  obtain ⟨_, same⟩ :=
                    Prod.mk.inj (Except.ok.inj (ran.symm.trans eq))
                  obtain ⟨_, same'⟩ :=
                    Prod.mk.inj (Except.ok.inj (ran'.symm.trans eq'))
                  exact Pass.again.inj same ▸ Pass.again.inj same' ▸ later⟩
              | .isFalse unmet => .isFalse fun along =>
                  unmet (along.2 out s' out' t' ran ran')
          | .error _, _ => .isTrue ⟨met, fun _ _ _ _ eq _ => by simp [ran] at eq⟩
          | .ok (_, .leave _), _ =>
              .isTrue ⟨met, fun _ _ _ _ eq _ => by simp [ran] at eq⟩
          | .ok (_, .again _), .error _ =>
              .isTrue ⟨met, fun _ _ _ _ _ eq => by simp [ran'] at eq⟩
          | .ok (_, .again _), .ok (_, .leave _) =>
              .isTrue ⟨met, fun _ _ _ _ _ eq => by simp [ran'] at eq⟩

/-- Lockstep rule: machines that match command by command match on the whole
run. -/
theorem runAll_matches_both {machine' : Machine κ τ ε ο'}
    {same : ο → ο' → Prop} {related : σ → τ → Prop}
    {condition : κ → σ → τ → Prop}
    (simulates : ∀ c s t, related s t → condition c s t →
      Matches same related (machine c s) (machine' c t))
    {t : τ} (initially : related s t)
    (along : AlongBoth machine machine' condition cs s t) :
    Matches (List.Forall₂ same) related (runAll machine cs s)
      (runAll machine' cs t) := by
  induction cs generalizing s t with
  | nil => exact .again .nil initially
  | cons c rest inductionHypothesis =>
      obtain ⟨now, later⟩ := along
      have first := simulates c s t initially now
      unfold runAll
      cases ran : machine c s with
      | error fault =>
          rw [ran] at first
          generalize machine' c t = result at first ⊢
          cases first
          exact .fault fault
      | ok result =>
          obtain ⟨out, pass⟩ := result
          rw [ran] at first
          generalize ran' : machine' c t = result at first ⊢
          cases first with
          | leave prints states => exact .leave (.cons prints .nil) states
          | again prints states =>
              exact .emit prints
                (inductionHypothesis states (later _ _ _ _ ran ran'))

/-- Simulation rule: the condition is one on the run of the first machine. -/
theorem runAll_matches {machine' : Machine κ τ ε ο'} {same : ο → ο' → Prop}
    {related : σ → τ → Prop}
    (simulates : ∀ c s t, related s t → condition c s →
      Matches same related (machine c s) (machine' c t))
    {t : τ} (initially : related s t) (along : Along machine condition cs s) :
    Matches (List.Forall₂ same) related (runAll machine cs s)
      (runAll machine' cs t) :=
  runAll_matches_both simulates initially (along.both t)

/-- Every state that one of two matching machines reaches is related to one
that the other reaches. -/
theorem reaches_related {machine' : Machine κ τ ε ο'} {same : ο → ο' → Prop}
    {related : σ → τ → Prop}
    (simulates : ∀ c s t, related s t → condition c s →
      Matches same related (machine c s) (machine' c t))
    {t : τ} (initially : related s t) (along : Along machine condition cs s)
    (reached : Reaches machine cs s s') :
    ∃ t', Reaches machine' cs t t' ∧ related s' t' := by
  induction reached generalizing t with
  | here => exact ⟨t, .here, initially⟩
  | @leave c _ s _ _ ran =>
      have step := simulates c s t initially along.1
      rw [ran] at step
      generalize ran' : machine' c t = result at step
      cases step with
      | leave _ states => exact ⟨_, .leave ran', states⟩
  | @again c _ s _ _ _ ran _ inductionHypothesis =>
      have step := simulates c s t initially along.1
      rw [ran] at step
      generalize ran' : machine' c t = result at step
      cases step with
      | again _ states =>
          obtain ⟨t', later, states'⟩ :=
            inductionHypothesis states (along.2 _ _ ran)
          exact ⟨t', .again ran' later, states'⟩

/-! ### Texts -/

section Texts

variable {κ' β : Type} {machine : Machine κ σ ε ο}

/-- Runs of commands that do the same. -/
theorem runAll_congr {machine' : Machine κ' σ ε ο} {cs : List κ} {cs' : List κ'}
    (alike : List.Forall₂ (fun c c' => machine c = machine' c') cs cs') (s : σ) :
    runAll machine cs s = runAll machine' cs' s := by
  induction alike generalizing s with
  | nil => rfl
  | cons same _ inductionHypothesis =>
      simp only [runAll, same, inductionHypothesis]

/-- Everything that a run prints, one text behind the other. -/
def collect : Except ε (List (List β) × Pass σ) → Except ε (List β × Pass σ)
  | .error fault => .error fault
  | .ok (outs, pass) => .ok (outs.flatten, pass)

theorem ok_of_collect {result : Except ε (List (List β) × Pass σ)}
    {printed : List β} {pass : Pass σ}
    (collected : collect result = .ok (printed, pass)) :
    ∃ outs, result = .ok (outs, pass) ∧ outs.flatten = printed := by
  cases result with
  | error fault => simp [collect] at collected
  | ok result =>
      obtain ⟨rfl, rfl⟩ := Prod.mk.inj (Except.ok.inj collected)
      exact ⟨result.1, rfl, rfl⟩

theorem collect_emit_nil (result : Except ε (List (List β) × Pass σ)) :
    collect (emit [] result) = collect result := by
  cases result <;> rfl

theorem collect_emit_congr (out : List β)
    {result result' : Except ε (List (List β) × Pass σ)}
    (same : collect result = collect result') :
    collect (emit out result) = collect (emit out result') := by
  cases result with
  | error fault =>
      cases result' with
      | error fault' => rw [Except.error.inj same]
      | ok result' => simp [collect] at same
  | ok result =>
      cases result' with
      | error fault' => simp [collect] at same
      | ok result' =>
          obtain ⟨outs, pass⟩ := Prod.mk.inj (Except.ok.inj same)
          simp only [emit, collect, List.flatten_cons, outs, pass]

/-- Commands that do nothing can be left out. -/
theorem collect_runAll_filter {machine : Machine κ σ ε (List β)} {keep : κ → Bool}
    (idle : ∀ c s, keep c = false → machine c s = .ok ([], .again s))
    (cs : List κ) (s : σ) :
    collect (runAll machine (cs.filter keep) s) = collect (runAll machine cs s) := by
  induction cs generalizing s with
  | nil => rfl
  | cons c rest inductionHypothesis =>
      cases kept : keep c with
      | false =>
          rw [List.filter_cons_of_neg (by simp [kept]), inductionHypothesis]
          simp only [runAll, idle c s kept, collect_emit_nil]
      | true =>
          rw [List.filter_cons_of_pos kept, runAll, runAll]
          cases machine c s with
          | error fault => rfl
          | ok result =>
              obtain ⟨out, middle⟩ := result
              cases middle with
              | leave s' => rfl
              | again s' => exact collect_emit_congr out (inductionHypothesis s')

/-- A run in which only some commands change the state, each as another machine
does: its first commands are a run of that machine, whose output it prints among
other things. -/
theorem runAll_filterMap {inner : Machine κ' σ ε ο'} {choose : κ → Option κ'}
    {text : ο' → ο}
    (does : ∀ c c' s, choose c = some c' → ∀ out pass,
      machine c s = .ok (out, pass) →
        ∃ out', inner c' s = .ok (out', pass) ∧ out = text out')
    (looks : ∀ c s, choose c = none → ∀ out pass,
      machine c s = .ok (out, pass) → pass.state = s)
    {cs : List κ} {s : σ} {outs : List ο} {pass : Pass σ}
    (ran : runAll machine cs s = .ok (outs, pass)) :
    ∃ count outs' pass',
      runAll inner ((cs.take count).filterMap choose) s = .ok (outs', pass') ∧
        pass'.state = pass.state ∧ (outs'.map text).Sublist outs := by
  induction cs generalizing s outs with
  | nil =>
      obtain ⟨rfl, rfl⟩ := Prod.mk.inj (Except.ok.inj ran)
      exact ⟨0, [], _, rfl, rfl, .slnil⟩
  | cons c rest inductionHypothesis =>
      obtain ⟨out, s', first, rfl, rfl⟩ | ⟨out, s', laterOuts, first, later, rfl⟩ :=
        runAll_cons_eq_ok.mp ran
      · refine ⟨1, ?_⟩
        rw [List.take_succ_cons, List.take_zero]
        cases chosen : choose c with
        | none =>
            have still := looks c s chosen _ _ first
            rw [List.filterMap_cons_none chosen]
            exact ⟨[], .again s, rfl, still.symm, List.nil_sublist _⟩
        | some c' =>
            obtain ⟨out', inner', rfl⟩ := does c c' s chosen _ _ first
            rw [List.filterMap_cons_some chosen, runAll, inner']
            exact ⟨[out'], .leave s', rfl, rfl, .refl _⟩
      · obtain ⟨count, outs', pass', inner', same, sublist⟩ :=
          inductionHypothesis later
        refine ⟨count + 1, ?_⟩
        rw [List.take_succ_cons]
        cases chosen : choose c with
        | none =>
            obtain rfl : s' = s := looks c s chosen _ _ first
            rw [List.filterMap_cons_none chosen]
            exact ⟨outs', pass', inner', same, sublist.cons _⟩
        | some c' =>
            obtain ⟨out', step, rfl⟩ := does c c' s chosen _ _ first
            rw [List.filterMap_cons_some chosen, runAll, step]
            simp only [inner', emit]
            exact ⟨out' :: outs', pass', rfl, same, sublist.cons_cons _⟩

end Texts

end OsPAs.Lib
