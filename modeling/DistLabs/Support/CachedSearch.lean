import Mathlib.Algebra.GroupWithZero.Nat
import Mathlib.Data.List.Basic
import Mathlib.Logic.Relation
import Mathlib.Order.Monotone.Basic

/-!
# Depth-first search with a cache

From every node some moves are tried one after another; a move may turn out to
be impossible.  A node is entered only if no node of the cache stands for it, so
the search visits few of the nodes that it could reach.  When it is exhausted,
every node that can be reached is nevertheless simulated by a visited one.

The search need not be finite by itself: nodes have a rank, which every move
lowers, and a bounded number of moves.
-/

namespace DistLabs

/-- Nodes, the moves to try at each of them, where they lead, which nodes are
looked for, and when a cached node stands for a new one. -/
structure SearchProblem (C α : Type*) where
  moves : C → List α
  apply : C → α → Option C
  goal : C → Bool
  same : C → C → Bool

/-- The present node with the moves that are left to try there, the nodes above
it with theirs, the innermost first, and the nodes that were entered. -/
structure Search (C α : Type*) where
  node : C
  todo : List α
  path : List (C × List α)
  cache : List C

namespace Search

variable {C α : Type*}

/-- The present node and those above it, each with the moves that are left. -/
def frames (s : Search C α) : List (C × List α) :=
  (s.node, s.todo) :: s.path

end Search

namespace SearchProblem

variable {C α : Type*} (P : SearchProblem C α)

def start (root : C) : Search C α where
  node := root
  todo := P.moves root
  path := []
  cache := []

/-- One step of the search.  There is none at a goal and when all moves of the
root have been tried. -/
def step (s : Search C α) : Option (Search C α) :=
  if P.goal s.node then
    none
  else
    match s.todo, s.path with
    | a :: todo, _ =>
        match P.apply s.node a with
        | none => some { s with todo := todo }
        | some c =>
            if s.cache.any (P.same c) then
              some { s with todo := todo }
            else
              some
                { node := c
                  todo := P.moves c
                  path := (s.node, todo) :: s.path
                  cache := c :: s.cache }
    | [], (c, todo) :: path =>
        some { s with node := c, todo := todo, path := path }
    | [], [] => none

/-- A move leads from `c` to `d`. -/
def Move (c d : C) : Prop :=
  ∃ a ∈ P.moves c, P.apply c a = some d

/-- Some node of the cache is `c` or stands for it. -/
def Covered (cache : List C) (c : C) : Prop :=
  ∃ d ∈ cache, d = c ∨ P.same c d = true

/-- Where move `a` leads from `c` is covered. -/
def Tried (cache : List C) (c : C) (a : α) : Prop :=
  ∀ d, P.apply c a = some d → P.Covered cache d

/-- All moves from `c` have been tried. -/
def Closed (cache : List C) (c : C) : Prop :=
  ∀ a ∈ P.moves c, P.Tried cache c a

variable {P} {cache : List C} {c d : C} {a : α}

theorem Covered.cons (h : P.Covered cache c) (e : C) :
    P.Covered (e :: cache) c := by
  obtain ⟨d, hd, hcovers⟩ := h
  exact ⟨d, List.mem_cons_of_mem _ hd, hcovers⟩

theorem Tried.cons (h : P.Tried cache c a) (e : C) :
    P.Tried (e :: cache) c a :=
  fun d hd ↦ (h d hd).cons e

theorem Closed.cons (h : P.Closed cache c) (e : C) :
    P.Closed (e :: cache) c :=
  fun a ha ↦ (h a ha).cons e

/-! ## The invariant -/

/-- What the search has found out on its way from `root`. -/
structure Explored (P : SearchProblem C α) (root : C) (s : Search C α) :
    Prop where
  bottom : s.frames.getLast?.map Prod.fst = some root
  reached : ∀ f ∈ s.frames, Relation.ReflTransGen P.Move root f.1
  left : ∀ f ∈ s.frames, ∀ a ∈ f.2, a ∈ P.moves f.1
  tried : ∀ f ∈ s.frames, ∀ a ∈ P.moves f.1,
    a ∈ f.2 ∨ P.Tried s.cache f.1 a
  passed : ∀ f ∈ s.path, P.goal f.1 = false
  entered : ∀ d ∈ s.cache, Relation.ReflTransGen P.Move root d
  cached : ∀ d ∈ s.cache, (∃ f ∈ s.frames, f.1 = d) ∨
    (P.Closed s.cache d ∧ P.goal d = false)

variable {root : C} {s s' : Search C α}

theorem Explored.start (P : SearchProblem C α) (root : C) :
    P.Explored root (P.start root) where
  bottom := rfl
  reached := by
    intro f hf
    obtain rfl := List.mem_singleton.mp hf
    exact Relation.ReflTransGen.refl
  left := by
    intro f hf a ha
    obtain rfl := List.mem_singleton.mp hf
    exact ha
  tried := by
    intro f hf a ha
    obtain rfl := List.mem_singleton.mp hf
    exact Or.inl ha
  passed := by
    intro f hf
    cases hf
  entered := by
    intro d hd
    cases hd
  cached := by
    intro d hd
    cases hd

/-- A move that has been tried is dropped. -/
theorem Explored.skip {todo : List α} (h : P.Explored root s)
    (htodo : s.todo = a :: todo) (htried : P.Tried s.cache s.node a) :
    P.Explored root { s with todo := todo } where
  bottom := by
    have hbottom := h.bottom
    unfold Search.frames at hbottom ⊢
    cases hpath : s.path with
    | nil =>
        rw [hpath] at hbottom
        exact hbottom
    | cons f path =>
        rw [hpath] at hbottom
        exact hbottom
  reached := by
    intro f hf
    rcases List.mem_cons.mp hf with rfl | hf
    · exact h.reached (s.node, s.todo) List.mem_cons_self
    · exact h.reached f (List.mem_cons_of_mem _ hf)
  left := by
    intro f hf b hb
    rcases List.mem_cons.mp hf with rfl | hf
    · refine h.left _ List.mem_cons_self b ?_
      rw [htodo]
      exact List.mem_cons_of_mem _ hb
    · exact h.left f (List.mem_cons_of_mem _ hf) b hb
  tried := by
    intro f hf b hb
    rcases List.mem_cons.mp hf with rfl | hf
    · rcases h.tried _ List.mem_cons_self b hb with hleft | hdone
      · rw [htodo] at hleft
        rcases List.mem_cons.mp hleft with rfl | hleft
        · exact Or.inr htried
        · exact Or.inl hleft
      · exact Or.inr hdone
    · exact h.tried f (List.mem_cons_of_mem _ hf) b hb
  passed := h.passed
  entered := h.entered
  cached := by
    intro d hd
    rcases h.cached d hd with ⟨f, hf, rfl⟩ | hclosed
    · rcases List.mem_cons.mp hf with rfl | hf
      · exact Or.inl ⟨_, List.mem_cons_self, rfl⟩
      · exact Or.inl ⟨f, List.mem_cons_of_mem _ hf, rfl⟩
    · exact Or.inr hclosed

/-- The next move is one of the present node. -/
theorem Explored.move {todo : List α} (h : P.Explored root s)
    (htodo : s.todo = a :: todo) : a ∈ P.moves s.node := by
  refine h.left _ List.mem_cons_self a ?_
  rw [htodo]
  exact List.mem_cons_self

/-- A node that no cached one stands for is entered. -/
theorem Explored.enter {todo : List α} (h : P.Explored root s)
    (hgoal : P.goal s.node = false) (htodo : s.todo = a :: todo)
    (hmove : P.apply s.node a = some c)
    (hreached : Relation.ReflTransGen P.Move root c) :
    P.Explored root
      { node := c
        todo := P.moves c
        path := (s.node, todo) :: s.path
        cache := c :: s.cache } where
  bottom := by
    have hbottom := h.bottom
    unfold Search.frames at hbottom ⊢
    rw [List.getLast?_cons_cons]
    cases hpath : s.path with
    | nil =>
        rw [hpath] at hbottom
        exact hbottom
    | cons f path =>
        rw [hpath] at hbottom
        exact hbottom
  reached := by
    have hnode := h.reached _ List.mem_cons_self
    intro f hf
    rcases List.mem_cons.mp hf with rfl | hf
    · exact hreached
    · rcases List.mem_cons.mp hf with rfl | hf
      · exact hnode
      · exact h.reached f (List.mem_cons_of_mem _ hf)
  left := by
    intro f hf b hb
    rcases List.mem_cons.mp hf with rfl | hf
    · exact hb
    · rcases List.mem_cons.mp hf with rfl | hf
      · refine h.left _ List.mem_cons_self b ?_
        rw [htodo]
        exact List.mem_cons_of_mem _ hb
      · exact h.left f (List.mem_cons_of_mem _ hf) b hb
  tried := by
    intro f hf b hb
    rcases List.mem_cons.mp hf with rfl | hf
    · exact Or.inl hb
    · rcases List.mem_cons.mp hf with rfl | hf
      · rcases h.tried _ List.mem_cons_self b hb with hleft | hdone
        · rw [htodo] at hleft
          rcases List.mem_cons.mp hleft with rfl | hleft
          · refine Or.inr fun d hd ↦ ⟨c, List.mem_cons_self, Or.inl ?_⟩
            exact Option.some.inj (hmove.symm.trans hd)
          · exact Or.inl hleft
        · exact Or.inr (hdone.cons c)
      · exact (h.tried f (List.mem_cons_of_mem _ hf) b hb).imp_right
          fun hdone ↦ hdone.cons c
  passed := by
    intro f hf
    rcases List.mem_cons.mp hf with rfl | hf
    · exact hgoal
    · exact h.passed f hf
  entered := by
    intro d hd
    rcases List.mem_cons.mp hd with rfl | hd
    · exact hreached
    · exact h.entered d hd
  cached := by
    intro d hd
    rcases List.mem_cons.mp hd with rfl | hd
    · exact Or.inl ⟨_, List.mem_cons_self, rfl⟩
    · rcases h.cached d hd with ⟨f, hf, rfl⟩ | ⟨hclosed, hnot⟩
      · rcases List.mem_cons.mp hf with rfl | hf
        · exact Or.inl ⟨_, List.mem_cons_of_mem _ List.mem_cons_self, rfl⟩
        · exact Or.inl ⟨f, List.mem_cons_of_mem _
            (List.mem_cons_of_mem _ hf), rfl⟩
      · exact Or.inr ⟨hclosed.cons c, hnot⟩

/-- A node is closed when none of its moves is left. -/
theorem Explored.closed (h : P.Explored root s) (htodo : s.todo = []) :
    P.Closed s.cache s.node := by
  intro a ha
  rcases h.tried _ List.mem_cons_self a ha with hleft | hdone
  · rw [htodo] at hleft
    cases hleft
  · exact hdone

/-- The search goes back to the node above. -/
theorem Explored.leave {todo : List α} {path : List (C × List α)}
    (h : P.Explored root s) (hgoal : P.goal s.node = false)
    (htodo : s.todo = []) (hpath : s.path = (c, todo) :: path) :
    P.Explored root { s with node := c, todo := todo, path := path } where
  bottom := by
    have hbottom := h.bottom
    unfold Search.frames at hbottom
    rwa [hpath, List.getLast?_cons_cons] at hbottom
  reached := by
    intro f hf
    refine h.reached f (List.mem_cons_of_mem _ ?_)
    rw [hpath]
    exact hf
  left := by
    intro f hf
    refine h.left f (List.mem_cons_of_mem _ ?_)
    rw [hpath]
    exact hf
  tried := by
    intro f hf
    refine h.tried f (List.mem_cons_of_mem _ ?_)
    rw [hpath]
    exact hf
  passed := by
    intro f hf
    refine h.passed f ?_
    rw [hpath]
    exact List.mem_cons_of_mem _ hf
  entered := h.entered
  cached := by
    intro d hd
    rcases h.cached d hd with ⟨f, hf, rfl⟩ | hclosed
    · rcases List.mem_cons.mp hf with rfl | hf
      · exact Or.inr ⟨h.closed htodo, hgoal⟩
      · refine Or.inl ⟨f, ?_, rfl⟩
        rw [hpath] at hf
        exact hf
    · exact Or.inr hclosed

theorem Explored.step (h : P.Explored root s) (hstep : P.step s = some s') :
    P.Explored root s' := by
  unfold SearchProblem.step at hstep
  split at hstep
  · cases hstep
  · next hgoal =>
      have hnot : P.goal s.node = false := by simpa using hgoal
      split at hstep
      · next a todo htodo =>
          split at hstep
          · next hnone =>
              obtain rfl := Option.some.inj hstep
              refine h.skip htodo fun d hd ↦ ?_
              rw [hnone] at hd
              cases hd
          · next c hmove =>
              split at hstep
              · next hany =>
                  obtain rfl := Option.some.inj hstep
                  refine h.skip htodo fun d hd ↦ ?_
                  obtain rfl := Option.some.inj (hmove.symm.trans hd)
                  obtain ⟨e, he, hsame⟩ := List.any_eq_true.mp hany
                  exact ⟨e, he, Or.inr hsame⟩
              · obtain rfl := Option.some.inj hstep
                exact h.enter hnot htodo hmove
                  ((h.reached _ List.mem_cons_self).tail
                    ⟨a, h.move htodo, hmove⟩)
      · next htodo hpath =>
          obtain rfl := Option.some.inj hstep
          exact h.leave hnot htodo hpath
      · cases hstep

/-- While moves are tried no node is left, and only the new node is cached. -/
theorem frames_of_move {todo : List α} (htodo : s.todo = a :: todo)
    (hstep : P.step s = some s') :
    (∀ d ∈ s'.cache, d ∈ s.cache ∨ d = s'.node) ∧
      ∀ f ∈ s.frames, ∃ f' ∈ s'.frames, f'.1 = f.1 := by
  have hskip : ∀ f ∈ s.frames, ∃ f' ∈ Search.frames { s with todo := todo },
      f'.1 = f.1 := by
    intro f hf
    rcases List.mem_cons.mp hf with rfl | hf
    · exact ⟨(s.node, todo), List.mem_cons_self, rfl⟩
    · exact ⟨f, List.mem_cons_of_mem _ hf, rfl⟩
  unfold SearchProblem.step at hstep
  rw [htodo] at hstep
  split at hstep
  · cases hstep
  · dsimp only at hstep
    split at hstep
    · obtain rfl := Option.some.inj hstep
      exact ⟨fun d hd ↦ Or.inl hd, hskip⟩
    · split at hstep
      · obtain rfl := Option.some.inj hstep
        exact ⟨fun d hd ↦ Or.inl hd, hskip⟩
      · obtain rfl := Option.some.inj hstep
        refine ⟨fun d hd ↦ (List.mem_cons.mp hd).symm, fun f hf ↦ ?_⟩
        obtain ⟨f', hf', heq⟩ := hskip f hf
        exact ⟨f', List.mem_cons_of_mem _ hf', heq⟩

/-! ## What an exhausted search has shown -/

/-- The search stopped without a goal. -/
theorem Explored.exhausted (h : P.Explored root s)
    (hgoal : P.goal s.node = false) (hstep : P.step s = none) :
    s.node = root ∧ s.todo = [] ∧ s.path = [] := by
  unfold SearchProblem.step at hstep
  rw [hgoal, if_neg Bool.false_ne_true] at hstep
  split at hstep
  · split at hstep
    · cases hstep
    · split at hstep <;> cases hstep
  · cases hstep
  · next htodo hpath =>
      have hbottom := h.bottom
      unfold Search.frames at hbottom
      rw [hpath] at hbottom
      exact ⟨Option.some.inj hbottom, htodo, hpath⟩

/-- Node `d` can do all that `c` can when `B c d`; cached nodes simulate those
that they stand for. -/
structure Simulates (P : SearchProblem C α) (B : C → C → Prop) : Prop where
  refl : ∀ c, B c c
  trans : ∀ {c d e}, B c d → B d e → B c e
  same : ∀ {c d}, P.same c d = true → B c d
  move : ∀ {c d a c'}, B c d → a ∈ P.moves c → P.apply c a = some c' →
    a ∈ P.moves d ∧ ∃ d', P.apply d a = some d' ∧ B c' d'
  goal : ∀ {c d}, B c d → P.goal c = true → P.goal d = true

/-- When the search is exhausted, every node that can be reached is simulated by
the root or by one that was entered. -/
theorem Explored.covers {B : C → C → Prop} (hB : P.Simulates B)
    (h : P.Explored root s) (hgoal : P.goal s.node = false)
    (hstep : P.step s = none) (hreach : Relation.ReflTransGen P.Move root c) :
    ∃ d, (d = root ∨ d ∈ s.cache) ∧ P.goal d = false ∧ B c d := by
  obtain ⟨hroot, htodo, hpath⟩ := h.exhausted hgoal hstep
  have hclosed : ∀ d, d = root ∨ d ∈ s.cache →
      P.Closed s.cache d ∧ P.goal d = false := by
    have hbase : P.Closed s.cache root ∧ P.goal root = false := by
      rw [← hroot]
      exact ⟨h.closed htodo, hgoal⟩
    rintro d (rfl | hd)
    · exact hbase
    · rcases h.cached d hd with ⟨f, hf, rfl⟩ | hold
      · unfold Search.frames at hf
        rw [hpath, hroot] at hf
        obtain rfl := List.mem_singleton.mp hf
        exact hbase
      · exact hold
  -- Along the moves to `c`: what simulates a node has tried all its moves.
  induction hreach with
  | refl => exact ⟨root, Or.inl rfl, (hclosed root (Or.inl rfl)).2, hB.refl _⟩
  | tail _ hmove ih =>
      obtain ⟨d, hd, _, hsim⟩ := ih
      obtain ⟨a, ha, happly⟩ := hmove
      obtain ⟨ha', d', happly', hsim'⟩ := hB.move hsim ha happly
      obtain ⟨e, he, hcovers⟩ := (hclosed d hd).1 a ha' d' happly'
      refine ⟨e, Or.inr he, (hclosed e (Or.inr he)).2, ?_⟩
      rcases hcovers with rfl | hsame
      · exact hsim'
      · exact hB.trans hsim' (hB.same hsame)

/-- An exhausted search has missed no goal. -/
theorem Explored.no_goal {B : C → C → Prop} (hB : P.Simulates B)
    (h : P.Explored root s) (hgoal : P.goal s.node = false)
    (hstep : P.step s = none) (hreach : Relation.ReflTransGen P.Move root c) :
    P.goal c = false := by
  obtain ⟨d, _, hnot, hsim⟩ := h.covers hB hgoal hstep hreach
  by_contra hc
  rw [hB.goal hsim (by simpa using hc)] at hnot
  cases hnot

/-! ## The search ends -/

section Cost

variable (width : ℕ)

/-- The steps that a move at a node of the given rank may lead to. -/
def moveCost : ℕ → ℕ
  | 0 => 1
  | rank + 1 => width * moveCost rank + 3

/-- The steps that a node of the given rank may lead to. -/
def nodeCost (rank : ℕ) : ℕ :=
  width * moveCost width rank + 1

theorem moveCost_pos (rank : ℕ) : 0 < moveCost width rank := by
  cases rank with
  | zero => exact Nat.one_pos
  | succ rank => exact Nat.succ_pos _

theorem moveCost_mono : Monotone (moveCost width) := by
  refine monotone_nat_of_le_succ fun rank ↦ ?_
  induction rank with
  | zero => exact Nat.succ_le_succ (Nat.zero_le _)
  | succ rank ih =>
      exact Nat.add_le_add_right (Nat.mul_le_mul_left width ih) 3

/-- A move pays for the node that it leads to, for entering and leaving it. -/
theorem nodeCost_add_two_le {low high : ℕ} (h : low < high) :
    nodeCost width low + 2 ≤ moveCost width high := by
  obtain ⟨rank, rfl⟩ := Nat.exists_eq_succ_of_ne_zero (Nat.ne_of_gt (by omega :
    0 < high))
  have hmono := Nat.mul_le_mul_left width
    (moveCost_mono width (Nat.lt_succ_iff.mp h))
  unfold nodeCost
  rw [moveCost]
  omega

end Cost

/-- Every move lowers the rank, and a node has at most `width` moves. -/
structure Bounded (P : SearchProblem C α) (rank : C → ℕ) (width : ℕ) :
    Prop where
  rank_lt : ∀ {c a d}, a ∈ P.moves c → P.apply c a = some d →
    rank d < rank c
  moves_le : ∀ c, (P.moves c).length ≤ width

/-- The steps that are left at one frame. -/
def frameCost (rank : C → ℕ) (width : ℕ) (f : C × List α) : ℕ :=
  f.2.length * moveCost width (rank f.1) + 1

/-- A bound on the number of steps that are left. -/
def measure (rank : C → ℕ) (width : ℕ) (s : Search C α) : ℕ :=
  (s.frames.map (frameCost rank width)).sum

variable {rank : C → ℕ} {width : ℕ}

theorem measure_start (hP : P.Bounded rank width) (root : C) :
    measure rank width (P.start root) ≤ nodeCost width (rank root) := by
  have hmoves := Nat.mul_le_mul_right (moveCost width (rank root))
    (hP.moves_le root)
  simpa [measure, Search.frames, start, frameCost, nodeCost] using hmoves

theorem measure_skip {todo : List α} (htodo : s.todo = a :: todo) :
    measure rank width { s with todo := todo } < measure rank width s := by
  have hpos := moveCost_pos width (rank s.node)
  simp only [measure, Search.frames, List.map_cons, List.sum_cons, frameCost,
    htodo, List.length_cons, Nat.add_mul, Nat.one_mul]
  omega

/-- Every step lowers the bound. -/
theorem measure_step (hP : P.Bounded rank width) (h : P.Explored root s)
    (hstep : P.step s = some s') :
    measure rank width s' < measure rank width s := by
  unfold SearchProblem.step at hstep
  split at hstep
  · cases hstep
  · split at hstep
    · next a todo htodo =>
        have hleft := h.move htodo
        split at hstep
        · obtain rfl := Option.some.inj hstep
          exact measure_skip htodo
        · next c hmove =>
            split at hstep
            · obtain rfl := Option.some.inj hstep
              exact measure_skip htodo
            · obtain rfl := Option.some.inj hstep
              have hcost := nodeCost_add_two_le width
                (hP.rank_lt hleft hmove)
              have hmoves := Nat.mul_le_mul_right (moveCost width (rank c))
                (hP.moves_le c)
              unfold nodeCost at hcost
              simp only [measure, Search.frames, List.map_cons, List.sum_cons,
                frameCost, htodo, List.length_cons, Nat.add_mul, Nat.one_mul]
              omega
    · next htodo hpath =>
        obtain rfl := Option.some.inj hstep
        simp only [measure, Search.frames, hpath, List.map_cons,
          List.sum_cons, frameCost]
        omega
    · cases hstep

end SearchProblem

end DistLabs
