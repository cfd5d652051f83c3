import DistLabs.Porcupine.Entries

/-!
# The doubly linked list of entries

The checker lifts the two entries of an operation out of a doubly linked list
when it puts the operation into its order, and puts them back when it takes the
operation out again.  Lifted nodes keep their own links, so putting them back
restores the nodes exactly as they were.
-/

namespace DistLabs.Porcupine

open Linearizability

variable {I O : Type}

/-- The fields of the nodes by address.  The node of entry `p` is at address
`p`. -/
@[ext] structure Heap (I O : Type) where
  value : ℕ → Value I O
  matching : ℕ → Option ℕ
  id : ℕ → ℤ
  next : ℕ → Option ℕ
  prev : ℕ → Option ℕ

namespace Heap

def empty : Heap I O where
  value := fun _ ↦ .nil
  matching := fun _ ↦ none
  id := fun _ ↦ 0
  next := fun _ ↦ none
  prev := fun _ ↦ none

/-- `&node{value: value, match: matching, id: id}` at address `p`. -/
def alloc (h : Heap I O) (p : ℕ) (value : Value I O) (matching : Option ℕ)
    (id : ℤ) : Heap I O where
  value := Function.update h.value p value
  matching := Function.update h.matching p matching
  id := Function.update h.id p id
  next := Function.update h.next p none
  prev := Function.update h.prev p none

def setNext (h : Heap I O) (p : ℕ) (q : Option ℕ) : Heap I O :=
  { h with next := Function.update h.next p q }

def setPrev (h : Heap I O) (p : ℕ) (q : Option ℕ) : Heap I O :=
  { h with prev := Function.update h.prev p q }

/-- The node `n` is put before `mark`, if there is one. -/
def insertBefore (h : Heap I O) (n : ℕ) (mark : Option ℕ) : Heap I O :=
  match mark with
  | none => h
  | some mark =>
      let beforeMark := h.prev mark
      let h := (h.setPrev mark (some n)).setNext n (some mark)
      match beforeMark with
      | none => h
      | some beforeMark =>
          (h.setPrev n (some beforeMark)).setNext beforeMark (some n)

/-- The number of nodes from `n` on; the loop ends within `fuel` rounds. -/
def length (h : Heap I O) : ℕ → Option ℕ → ℕ
  | 0, _ => 0
  | _ + 1, none => 0
  | fuel + 1, some n => length h fuel (h.next n) + 1

/-- A nil pointer is `none`, as in `unlift`. -/
def lift (h : Heap I O) (entry : ℕ) : Option (Heap I O) := do
  let prev ← h.prev entry
  let h := h.setNext prev (h.next entry)
  let next ← h.next entry
  let h := h.setPrev next (h.prev entry)
  let matching ← h.matching entry
  let prev ← h.prev matching
  let h := h.setNext prev (h.next matching)
  match h.next matching with
  | none => some h
  | some next => some (h.setPrev next (h.prev matching))

def unlift (h : Heap I O) (entry : ℕ) : Option (Heap I O) := do
  let matching ← h.matching entry
  let prev ← h.prev matching
  let h := h.setNext prev (some matching)
  let h :=
    match h.next matching with
    | none => h
    | some next => h.setPrev next (some matching)
  let prev ← h.prev entry
  let h := h.setNext prev (some entry)
  let next ← h.next entry
  some (h.setPrev next (some entry))

end Heap

/-- What the loop of `makeLinkedEntries` has built from the last entries: the
nodes, the first of them, and the returns by operation. -/
structure Linking (I O : Type) where
  heap : Heap I O
  root : Option ℕ
  matching : ℕ → Option ℕ

/-- One round of the loop, for the entry `elem` with index `i`. -/
def linkEntry (elem : Entry I O) (i : ℕ) (l : Linking I O) : Linking I O :=
  if elem.kind = .returnEntry then
    { heap := (l.heap.alloc i elem.value none elem.id).insertBefore i l.root
      root := some i
      matching := Function.update l.matching elem.id (some i) }
  else
    { heap := (l.heap.alloc i elem.value (l.matching elem.id)
        elem.id).insertBefore i l.root
      root := some i
      matching := l.matching }

/-- The loop runs from the last entry to the first. -/
def makeLinkedEntries (entries : List (Entry I O)) : Linking I O :=
  entries.zipIdx.foldr (fun x l ↦ linkEntry x.1 x.2 l)
    { heap := Heap.empty, root := none, matching := fun _ ↦ none }

/-! ## Linked lists -/

namespace Heap

variable {h h' : Heap I O} {a e m : ℕ} {ps qs rs : List ℕ}

/-- The nodes `ps` follow the node `a`, linked in both directions. -/
def Linked (h : Heap I O) : ℕ → List ℕ → Prop
  | a, [] => h.next a = none
  | a, b :: ps => h.next a = some b ∧ h.prev b = some a ∧ h.Linked b ps

theorem Linked.congr (hl : h.Linked a ps)
    (hnext : ∀ p ∈ a :: ps, h'.next p = h.next p)
    (hprev : ∀ p ∈ ps, h'.prev p = h.prev p) : h'.Linked a ps := by
  induction ps generalizing a with
  | nil => exact (hnext a List.mem_cons_self).trans hl
  | cons b ps ih =>
      obtain ⟨hab, hba, hrest⟩ := hl
      refine ⟨(hnext a List.mem_cons_self).trans hab,
        (hprev b List.mem_cons_self).trans hba, ih hrest ?_ ?_⟩
      · exact fun p hp ↦ hnext p (List.mem_cons_of_mem _ hp)
      · exact fun p hp ↦ hprev p (List.mem_cons_of_mem _ hp)

theorem Linked.length_eq (hl : h.Linked a ps) :
    ∀ fuel, ps.length < fuel → h.length fuel (some a) = ps.length + 1 := by
  induction ps generalizing a with
  | nil =>
      rintro (_ | fuel) hlt
      · cases hlt
      · rw [Heap.length, hl]
        cases fuel <;> rfl
  | cons b ps ih =>
      rintro (_ | fuel) hlt
      · cases hlt
      · obtain ⟨hab, _, hrest⟩ := hl
        rw [Heap.length, hab, ih hrest fuel (Nat.lt_of_succ_lt_succ hlt)]
        rfl

/-- The part of the list from some node on. -/
theorem Linked.suffix (hl : h.Linked a (ps ++ e :: qs)) : h.Linked e qs := by
  induction ps generalizing a with
  | nil => exact hl.2.2
  | cons b ps ih => exact ih hl.2.2

/-- The links around a node of the list. -/
theorem Linked.around (hl : h.Linked a (ps ++ e :: qs)) :
    ∃ b ∈ a :: ps, h.prev e = some b ∧ h.next b = some e := by
  induction ps generalizing a with
  | nil => exact ⟨a, List.mem_cons_self, hl.2.1, hl.1⟩
  | cons c ps ih =>
      obtain ⟨b, hb, hlinks⟩ := ih hl.2.2
      exact ⟨b, List.mem_cons_of_mem _ hb, hlinks⟩

theorem Linked.next_eq (hl : h.Linked e qs) : h.next e = qs.head? := by
  cases qs with
  | nil => exact hl
  | cons b qs => exact hl.1

/-- The next node links back. -/
theorem Linked.prev_of_next (hl : h.Linked e qs) {b : ℕ}
    (hnext : h.next e = some b) : h.prev b = some e := by
  cases qs with
  | nil => cases hl.symm.trans hnext
  | cons c qs =>
      obtain rfl := Option.some.inj (hl.1.symm.trans hnext)
      exact hl.2.1

/-! ## Taking out one node -/

/-- Node `e` is linked with its neighbours, of which the first is `b`. -/
structure InPlace (h : Heap I O) (e b : ℕ) : Prop where
  prev_eq : h.prev e = some b
  next_eq : h.next b = some e
  ne : e ≠ b
  back : ∀ n, h.next e = some n → h.prev n = some e ∧ n ≠ e

theorem Linked.inPlace (hl : h.Linked a (ps ++ e :: qs))
    (hnodup : (a :: (ps ++ e :: qs)).Nodup) :
    ∃ b ∈ a :: ps, h.InPlace e b := by
  obtain ⟨b, hb, hprev, hnext⟩ := hl.around
  rw [← List.cons_append] at hnodup
  obtain ⟨_, hnodup₂, hdisjoint⟩ := List.nodup_append'.mp hnodup
  refine ⟨b, hb, hprev, hnext, ?_, fun n hn ↦
    ⟨hl.suffix.prev_of_next hn, ?_⟩⟩
  · rintro rfl
    exact hdisjoint hb List.mem_cons_self
  · rintro rfl
    rw [hl.suffix.next_eq] at hn
    exact (List.nodup_cons.mp hnodup₂).1 (List.mem_of_head? hn)

/-- The neighbours of `e` are linked to each other. -/
def unlink (h : Heap I O) (e b : ℕ) : Heap I O where
  value := h.value
  matching := h.matching
  id := h.id
  next := Function.update h.next b (h.next e)
  prev :=
    match h.next e with
    | none => h.prev
    | some next => Function.update h.prev next (some b)

theorem unlink_next_of_ne {b p : ℕ} (hp : p ≠ b) :
    (h.unlink e b).next p = h.next p :=
  Function.update_of_ne hp _ _

theorem unlink_prev_of_ne {b p : ℕ} (hp : h.next e ≠ some p) :
    (h.unlink e b).prev p = h.prev p := by
  unfold unlink
  cases hnext : h.next e with
  | none => rfl
  | some n =>
      refine Function.update_of_ne ?_ _ _
      rintro rfl
      exact hp hnext

/-- A list without one of its nodes. -/
theorem Linked.unlink {b : ℕ} (hl : h.Linked a (ps ++ e :: qs))
    (hnodup : (a :: (ps ++ e :: qs)).Nodup) (hb : h.prev e = some b) :
    (h.unlink e b).Linked a (ps ++ qs) := by
  induction ps generalizing a with
  | nil =>
      obtain ⟨_, hprev, hrest⟩ := hl
      obtain rfl := Option.some.inj (hprev.symm.trans hb)
      rw [List.nil_append, List.nodup_cons, List.nodup_cons] at hnodup
      cases qs with
      | nil =>
          change Function.update h.next a (h.next e) a = none
          rw [Function.update_self]
          exact hrest
      | cons n qs =>
          obtain ⟨hen, _, hrest⟩ := hrest
          refine ⟨by simp [Heap.unlink, hen], by simp [Heap.unlink, hen],
            hrest.congr (fun p hp ↦ unlink_next_of_ne ?_)
              fun p hp ↦ unlink_prev_of_ne ?_⟩
          · rintro rfl
            exact hnodup.1 (List.mem_cons_of_mem _ hp)
          · rw [hen]
            rintro heq
            obtain rfl := Option.some.inj heq
            exact (List.nodup_cons.mp hnodup.2.2).1 hp
  | cons c ps ih =>
      obtain ⟨hac, hca, hrest⟩ := hl
      rw [List.cons_append, List.nodup_cons] at hnodup
      refine ⟨?_, ?_, ih hrest hnodup.2⟩
      · obtain ⟨b', hb', hprev, _⟩ := hrest.around
        obtain rfl := Option.some.inj (hprev.symm.trans hb)
        refine (unlink_next_of_ne ?_).trans hac
        rintro rfl
        refine hnodup.1 ?_
        rw [← List.cons_append]
        exact List.mem_append_left _ hb'
      · refine (unlink_prev_of_ne fun hnext ↦ ?_).trans hca
        rw [hrest.suffix.next_eq] at hnext
        refine (List.nodup_cons.mp hnodup.2).1 (List.mem_append_right _ ?_)
        exact List.mem_cons_of_mem _ (List.mem_of_head? hnext)

/-! ## Lifting and putting back -/

/-- The two nodes of an operation in a list. -/
structure Liftable (h : Heap I O) (e m : ℕ) (b c : ℕ) : Prop where
  matching : h.matching e = some m
  first : h.InPlace e b
  next : ∃ n, h.next e = some n
  second : (h.unlink e b).InPlace m c
  ne_first : e ≠ c
  ne_second : m ≠ e

variable {b c : ℕ}

theorem Linked.liftable (hl : h.Linked a (ps ++ e :: (qs ++ m :: rs)))
    (hnodup : (a :: (ps ++ e :: (qs ++ m :: rs))).Nodup)
    (hm : h.matching e = some m) : ∃ b c, h.Liftable e m b c ∧
      ((h.unlink e b).unlink m c).Linked a (ps ++ (qs ++ rs)) := by
  obtain ⟨b, _, hfirst⟩ := hl.inPlace hnodup
  have hl₁ := hl.unlink hnodup hfirst.prev_eq
  have hsub : (a :: (ps ++ (qs ++ m :: rs))).Nodup := by
    refine hnodup.sublist (List.Sublist.cons_cons a ?_)
    exact List.Sublist.append_left (List.sublist_cons_self _ _) ps
  have hout : e ∉ a :: (ps ++ (qs ++ m :: rs)) := by
    have hperm := (List.perm_middle :
      ((a :: ps) ++ e :: (qs ++ m :: rs)).Perm _).nodup_iff.mp hnodup
    exact (List.nodup_cons.mp hperm).1
  rw [← List.append_assoc] at hl₁ hsub hout
  obtain ⟨c, hc, hsecond⟩ := hl₁.inPlace hsub
  refine ⟨b, c, ⟨hm, hfirst, ?_, hsecond, ?_, ?_⟩, ?_⟩
  · cases qs with
    | nil => exact ⟨m, hl.suffix.1⟩
    | cons n qs => exact ⟨n, hl.suffix.1⟩
  · rintro rfl
    refine hout ?_
    rw [← List.cons_append]
    exact List.mem_append_left _ hc
  · rintro rfl
    exact hout (List.mem_cons_of_mem _
      (List.mem_append_right _ List.mem_cons_self))
  · rw [← List.append_assoc]
    exact hl₁.unlink hsub hsecond.prev_eq

theorem unlink_of_none (hn : h.next e = none) :
    h.unlink e b = h.setNext b none := by
  unfold setNext unlink
  rw [hn]

theorem unlink_of_some {n : ℕ} (hn : h.next e = some n) :
    h.unlink e b = (h.setNext b (some n)).setPrev n (some b) := by
  unfold setNext setPrev unlink
  rw [hn]

theorem Liftable.lift_eq (hlift : h.Liftable e m b c) :
    h.lift e = some ((h.unlink e b).unlink m c) := by
  obtain ⟨n, hn⟩ := hlift.next
  have hprev := hlift.first.prev_eq
  have hnext : (h.setNext b (some n)).next e = some n := by
    simpa [setNext, hlift.first.ne] using hn
  have hprev₁ : (h.setNext b (some n)).prev e = some b := hprev
  have hmatching : (h.unlink e b).matching e = some m := hlift.matching
  have hprev₂ := hlift.second.prev_eq
  have hnext₂ : ((h.unlink e b).setNext c ((h.unlink e b).next m)).next m =
      (h.unlink e b).next m := by
    simp [setNext, hlift.second.ne]
  have hprev₃ : ((h.unlink e b).setNext c ((h.unlink e b).next m)).prev m =
      some c := hprev₂
  unfold lift
  simp only [hprev, Option.bind_eq_bind, Option.bind_some, hn, hnext, hprev₁,
    ← unlink_of_some hn, hmatching, hprev₂, hnext₂, hprev₃]
  cases hlast : (h.unlink e b).next m with
  | none => rw [unlink_of_none hlast]
  | some k => rw [unlink_of_some hlast]

/-- The neighbours of `e` are linked to `e` again. -/
def relink (h : Heap I O) (e b : ℕ) : Heap I O where
  value := h.value
  matching := h.matching
  id := h.id
  next := Function.update h.next b (some e)
  prev :=
    match h.next e with
    | none => h.prev
    | some next => Function.update h.prev next (some e)

theorem relink_of_none (hn : h.next e = none) :
    h.relink e b = h.setNext b (some e) := by
  unfold setNext relink
  rw [hn]

theorem relink_of_some {n : ℕ} (hn : h.next e = some n) :
    h.relink e b = (h.setNext b (some e)).setPrev n (some e) := by
  unfold setNext setPrev relink
  rw [hn]

theorem InPlace.relink_unlink (hin : h.InPlace e b) :
    (h.unlink e b).relink e b = h := by
  have hnext : (h.unlink e b).next e = h.next e :=
    unlink_next_of_ne hin.ne
  refine Heap.ext rfl rfl rfl ?_ ?_
  · change Function.update (Function.update h.next b (h.next e)) b (some e) =
      h.next
    rw [Function.update_idem, ← hin.next_eq, Function.update_eq_self]
  · unfold relink
    rw [hnext]
    unfold unlink
    cases hn : h.next e with
    | none => rfl
    | some n =>
        change Function.update (Function.update h.prev n (some b)) n
          (some e) = h.prev
        rw [Function.update_idem, ← (hin.back n hn).1,
          Function.update_eq_self]

/-- Putting back what was lifted restores the list. -/
theorem Liftable.unlift_eq (hlift : h.Liftable e m b c) :
    ((h.unlink e b).unlink m c).unlift e = some h := by
  obtain ⟨n, hn⟩ := hlift.next
  obtain ⟨h₁, hh₁⟩ : ∃ h₁, h₁ = h.unlink e b := ⟨_, rfl⟩
  have hsecond := hlift.second
  have hfirst := hlift.first.relink_unlink
  rw [← hh₁] at hsecond hfirst ⊢
  have hmatching : (h₁.unlink m c).matching e = some m := by
    rw [hh₁]
    exact hlift.matching
  have hprev : (h₁.unlink m c).prev m = some c := by
    rw [unlink_prev_of_ne fun hself ↦ (hsecond.back m hself).2 rfl]
    exact hsecond.prev_eq
  have hnext : ((h₁.unlink m c).setNext c (some m)).next m =
      (h₁.unlink m c).next m := by
    simp [setNext, hsecond.ne]
  -- The first half puts the return entry back, the second the call entry.
  have hback : (match (h₁.unlink m c).next m with
      | none => (h₁.unlink m c).setNext c (some m)
      | some next =>
          ((h₁.unlink m c).setNext c (some m)).setPrev next (some m)) =
      h₁ := by
    refine Eq.trans ?_ hsecond.relink_unlink
    cases hlast : (h₁.unlink m c).next m with
    | none => rw [relink_of_none hlast]
    | some k => rw [relink_of_some hlast]
  have hprev₁ : h₁.prev e = some b := by
    rw [hh₁, unlink_prev_of_ne fun hself ↦ (hlift.first.back e hself).2 rfl]
    exact hlift.first.prev_eq
  have hnext₁ : h₁.next e = some n := by
    rw [hh₁, unlink_next_of_ne hlift.first.ne]
    exact hn
  have hnext₂ : (h₁.setNext b (some e)).next e = some n := by
    simpa [setNext, hlift.first.ne] using hnext₁
  rw [relink_of_some hnext₁] at hfirst
  unfold unlift
  simp only [hmatching, Option.bind_eq_bind, Option.bind_some, hprev, hnext,
    hback, hprev₁, hnext₂, hfirst]

/-! ## Building the list -/

@[simp] theorem insertBefore_value (n : ℕ) (mark : Option ℕ) :
    (h.insertBefore n mark).value = h.value := by
  unfold insertBefore
  cases mark with
  | none => rfl
  | some mark =>
      dsimp only
      split <;> rfl

@[simp] theorem insertBefore_matching (n : ℕ) (mark : Option ℕ) :
    (h.insertBefore n mark).matching = h.matching := by
  unfold insertBefore
  cases mark with
  | none => rfl
  | some mark =>
      dsimp only
      split <;> rfl

@[simp] theorem insertBefore_id (n : ℕ) (mark : Option ℕ) :
    (h.insertBefore n mark).id = h.id := by
  unfold insertBefore
  cases mark with
  | none => rfl
  | some mark =>
      dsimp only
      split <;> rfl

/-- The nodes `ps` are a whole list, of which `root` is the first. -/
def Whole (h : Heap I O) (root : Option ℕ) : List ℕ → Prop
  | [] => root = none
  | r :: ps => root = some r ∧ h.prev r = none ∧ h.Linked r ps

/-- A new node is put before a list. -/
theorem Whole.insertBefore {root : Option ℕ} (hwhole : h.Whole root ps)
    (hnodup : ps.Nodup) {n : ℕ} (hn : n ∉ ps) (value : Value I O)
    (matching : Option ℕ) (id : ℤ) :
    ((h.alloc n value matching id).insertBefore n root).Linked n ps ∧
      ((h.alloc n value matching id).insertBefore n root).prev n = none := by
  cases ps with
  | nil =>
      obtain rfl : root = none := hwhole
      simp [Heap.insertBefore, Linked, alloc]
  | cons r ps =>
      obtain ⟨rfl, hprev, hl⟩ := hwhole
      have hnr : r ≠ n := by
        rintro rfl
        exact hn List.mem_cons_self
      have hbefore : (h.alloc n value matching id).prev r = none := by
        simpa [alloc, hnr] using hprev
      unfold Heap.insertBefore
      simp only [hbefore]
      refine ⟨⟨by simp [setNext], by simp [setNext, setPrev],
        hl.congr (fun p hp ↦ ?_) fun p hp ↦ ?_⟩, ?_⟩
      · have hpn : p ≠ n := by
          rintro rfl
          exact hn hp
        simp [setNext, setPrev, alloc, hpn]
      · have hpn : p ≠ n := by
          rintro rfl
          exact hn (List.mem_cons_of_mem _ hp)
        have hpr : p ≠ r := by
          rintro rfl
          exact (List.nodup_cons.mp hnodup).1 hp
        simp [setNext, setPrev, alloc, hpn, hpr]
      · simp [setNext, setPrev, alloc, hnr.symm]

end Heap

section Linking

variable {entries : List (Entry I O)} {l : Linking I O} {k : ℕ}

/-- The index of the first return of operation `id`. -/
def returnIndex (entries : List (Entry I O)) (id : ℕ) : Option ℕ :=
  entries.findIdx? fun e ↦ decide (e.kind = .returnEntry ∧ e.id = id)

/-- The node that an entry is matched with: for a call its return among the
later entries. -/
def matchOf (e : Entry I O) (later : List (Entry I O)) (k : ℕ) : Option ℕ :=
  if e.kind = .returnEntry then none
  else (returnIndex later e.id).map (k + 1 + ·)

/-- The loop has linked `entries`, of which the first has index `k`. -/
structure Links (l : Linking I O) (k : ℕ) (entries : List (Entry I O)) :
    Prop where
  whole : l.heap.Whole l.root (List.range' k entries.length)
  matching : ∀ id, l.matching id = (returnIndex entries id).map (k + ·)
  value : ∀ j e, entries[j]? = some e → l.heap.value (k + j) = e.value
  id : ∀ j e, entries[j]? = some e → l.heap.id (k + j) = e.id
  matched : ∀ j e, entries[j]? = some e →
    l.heap.matching (k + j) = matchOf e (entries.drop (j + 1)) (k + j)

theorem Links.nil (k : ℕ) :
    Links (I := I) (O := O)
      { heap := Heap.empty, root := none, matching := fun _ ↦ none } k []
      where
  whole := rfl
  matching := fun _ ↦ rfl
  value := by simp
  id := by simp
  matched := by simp

/-- What does not depend on the kind of the new entry. -/
theorem Links.cons_aux (h : Links l (k + 1) entries) (e : Entry I O)
    {heap : Heap I O} {matching : ℕ → Option ℕ}
    (hheap : heap = (l.heap.alloc k e.value (matchOf e entries k)
      e.id).insertBefore k l.root)
    (hmatching : ∀ id, matching id =
      (returnIndex (e :: entries) id).map (k + ·)) :
    Links { heap := heap, root := some k, matching := matching } k
      (e :: entries) where
  whole := by
    have hnew : k ∉ List.range' (k + 1) entries.length := by simp
    obtain ⟨hl, hprev⟩ := h.whole.insertBefore List.nodup_range' hnew e.value
      (matchOf e entries k) e.id
    rw [List.length_cons, List.range'_succ]
    rw [← hheap] at hl hprev
    exact ⟨rfl, hprev, hl⟩
  matching := hmatching
  value := by
    intro j x hx
    rw [hheap, Heap.insertBefore_value]
    cases j with
    | zero =>
        obtain rfl := Option.some.inj hx
        simp [Heap.alloc]
    | succ j =>
        have hold := h.value j x hx
        simpa [Heap.alloc, Nat.add_assoc, Nat.add_comm 1] using hold
  id := by
    intro j x hx
    rw [hheap, Heap.insertBefore_id]
    cases j with
    | zero =>
        obtain rfl := Option.some.inj hx
        simp [Heap.alloc]
    | succ j =>
        have hold := h.id j x hx
        simpa [Heap.alloc, Nat.add_assoc, Nat.add_comm 1] using hold
  matched := by
    intro j x hx
    rw [hheap, Heap.insertBefore_matching]
    cases j with
    | zero =>
        obtain rfl := Option.some.inj hx
        simp [Heap.alloc]
    | succ j =>
        have hold := h.matched j x hx
        simpa [Heap.alloc, Nat.add_assoc, Nat.add_comm 1] using hold

theorem Links.cons (h : Links l (k + 1) entries) (e : Entry I O) :
    Links (linkEntry e k l) k (e :: entries) := by
  unfold linkEntry
  split
  · next hkind =>
      refine h.cons_aux e (by simp [matchOf, hkind]) fun id ↦ ?_
      by_cases hid : id = e.id
      · subst hid
        simp [returnIndex, List.findIdx?_cons, hkind]
      · have hne : ¬ e.id = id := fun heq ↦ hid heq.symm
        rw [Function.update_of_ne hid, h.matching]
        simp [returnIndex, List.findIdx?_cons, hne, Function.comp_def,
          Nat.add_assoc, Nat.add_comm 1]
  · next hkind =>
      refine h.cons_aux e ?_ fun id ↦ ?_
      · rw [h.matching, matchOf, if_neg hkind]
      · rw [h.matching]
        simp [returnIndex, List.findIdx?_cons, hkind, Function.comp_def,
          Nat.add_assoc, Nat.add_comm 1]

theorem links_makeLinkedEntries (entries : List (Entry I O)) :
    Links (makeLinkedEntries entries) 0 entries := by
  have hfold : ∀ (entries : List (Entry I O)) (k : ℕ),
      Links ((entries.zipIdx k).foldr (fun x l ↦ linkEntry x.1 x.2 l)
        { heap := Heap.empty, root := none, matching := fun _ ↦ none }) k
        entries := by
    intro entries
    induction entries with
    | nil => exact Links.nil
    | cons e entries ih => exact fun k ↦ (ih (k + 1)).cons e
  exact hfold entries 0

end Linking

end DistLabs.Porcupine
