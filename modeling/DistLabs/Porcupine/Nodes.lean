import DistLabs.Porcupine.LinkedList

/-!
# The entries that are left

While the checker searches, its linked list holds the entries of the operations
that it has not put into the order, in the order of the history.
-/

namespace DistLabs.Porcupine

open Linearizability

variable {I O : Type}

section Left

variable {h : List (HistoryEvent ℕ I O)} {done : List ℕ} {id p q : ℕ}
  {i : I} {o : O}

/-- The events of operations that are not done, with their addresses. -/
def left (h : List (HistoryEvent ℕ I O)) (done : List ℕ) :
    List (HistoryEvent ℕ I O × ℕ) :=
  h.zipIdx.filter fun x ↦ decide (x.1.id ∉ done)

theorem mem_left {x : HistoryEvent ℕ I O × ℕ} :
    x ∈ left h done ↔ h[x.2]? = some x.1 ∧ x.1.id ∉ done := by
  simp [left, List.mem_zipIdx_iff_getElem?]

theorem map_fst_left (h : List (HistoryEvent ℕ I O)) (done : List ℕ) :
    (left h done).map Prod.fst = remaining h done := by
  have hmap : (h.zipIdx.map Prod.fst) = h := List.zipIdx_map_fst 0 h
  unfold left remaining
  nth_rewrite 2 [← hmap]
  rw [List.filter_map]
  rfl

theorem left_append (h : List (HistoryEvent ℕ I O)) (done : List ℕ) (id : ℕ) :
    left h (done ++ [id]) =
      (left h done).filter fun x ↦ decide (x.1.id ≠ id) := by
  unfold left
  rw [List.filter_filter]
  refine List.filter_congr fun x _ ↦ ?_
  simp [and_comm]

theorem sorted_left (h : List (HistoryEvent ℕ I O)) (done : List ℕ) :
    (left h done).Pairwise fun x y ↦ x.2 < y.2 := by
  refine List.Pairwise.filter _ ?_
  have hsorted : (h.zipIdx.map Prod.snd).Pairwise (· < ·) := by
    rw [List.zipIdx_map_snd]
    exact List.pairwise_lt_range'
  exact List.pairwise_map.mp hsorted

theorem nodup_left (h : List (HistoryEvent ℕ I O)) (done : List ℕ) :
    (h.length :: (left h done).map Prod.snd).Nodup := by
  refine List.nodup_cons.mpr ⟨fun hmem ↦ ?_, ?_⟩
  · obtain ⟨x, hx, hlength⟩ := List.mem_map.mp hmem
    obtain ⟨hlt, _⟩ := List.getElem?_eq_some_iff.mp (mem_left.mp hx).1
    omega
  · exact List.pairwise_map.mpr
      ((sorted_left h done).imp fun hlt ↦ Nat.ne_of_lt hlt)

/-- The part of a list up to an index contains what stands before it. -/
theorem mem_take_of_getElem? {α : Type*} {l : List α} {x : α} {m n : ℕ}
    (hx : l[m]? = some x) (hlt : m < n) : x ∈ l.take n := by
  refine List.mem_of_getElem? (i := m) ?_
  rw [List.getElem?_take_of_lt hlt, hx]

theorem mem_drop_of_getElem? {α : Type*} {l : List α} {x : α} {m n : ℕ}
    (hx : l[m]? = some x) (hle : n ≤ m) : x ∈ l.drop n := by
  refine List.mem_of_getElem? (i := m - n) ?_
  rw [List.getElem?_drop, Nat.add_sub_cancel' hle, hx]

/-- An operation has one call. -/
theorem call_unique (hc : Complete h) {i' : I}
    (hp : h[p]? = some (.invoke id i)) (hq : h[q]? = some (.invoke id i')) :
    p = q := by
  have hlt : ∀ {p q : ℕ} {i i' : I}, h[p]? = some (.invoke id i) →
      h[q]? = some (.invoke id i') → ¬ p < q := by
    intro p q i i' hp hq hlt
    exact hc.not_invoked_twice (List.take_append_drop q h).symm
      (mem_invokedIds.mpr ⟨i, mem_take_of_getElem? hp hlt⟩)
      (mem_invokedIds.mpr ⟨i', mem_drop_of_getElem? hq le_rfl⟩)
  have hpq := hlt hp hq
  have hqp := hlt hq hp
  omega

/-- An operation has one return. -/
theorem return_unique (hc : Complete h) {o' : O}
    (hp : h[p]? = some (.respond id o)) (hq : h[q]? = some (.respond id o')) :
    p = q := by
  have hlt : ∀ {p q : ℕ} {o o' : O}, h[p]? = some (.respond id o) →
      h[q]? = some (.respond id o') → ¬ p < q := by
    intro p q o o' hp hq hlt
    have hnodup := hc.responds
    rw [← List.take_append_drop q h, respondedIds, List.filterMap_append]
      at hnodup
    exact List.disjoint_of_nodup_append hnodup
      (mem_respondedIds.mpr ⟨o, mem_take_of_getElem? hp hlt⟩)
      (mem_respondedIds.mpr ⟨o', mem_drop_of_getElem? hq le_rfl⟩)
  have hpq := hlt hp hq
  have hqp := hlt hq hp
  omega

/-- The call of an operation comes before its return. -/
theorem call_lt_return (hc : Complete h) (hp : h[p]? = some (.invoke id i))
    (hq : h[q]? = some (.respond id o)) : p < q := by
  obtain ⟨hlt, hget⟩ := List.getElem?_eq_some_iff.mp hq
  have hsplit : h = h.take q ++ .respond id o :: h.drop (q + 1) := by
    rw [← hget, ← List.drop_eq_getElem_cons hlt, List.take_append_drop]
  obtain ⟨i', hmem⟩ := mem_invokedIds.mp (hc.ordered _ _ id o hsplit)
  obtain ⟨p', hp'⟩ := List.mem_iff_getElem?.mp hmem
  obtain ⟨hlt', hget'⟩ := List.getElem?_eq_some_iff.mp hp'
  rw [List.length_take] at hlt'
  rw [List.getElem?_take_of_lt (by omega)] at hp'
  rw [call_unique hc hp hp']
  omega

/-- As long as a call is left, its return is left too. -/
theorem exists_return_left (hc : Complete h) (hne : left h done ≠ []) :
    ∃ x ∈ left h done, x.1.isInvoke = false := by
  obtain ⟨⟨ev, p⟩, hx⟩ := List.exists_mem_of_ne_nil _ hne
  obtain ⟨hp, hdone⟩ := mem_left.mp hx
  cases ev with
  | respond id o => exact ⟨_, hx, rfl⟩
  | invoke id i =>
      obtain ⟨o, hmem⟩ := mem_respondedIds.mp (hc.responded id
        (mem_invokedIds.mpr ⟨i, List.mem_of_getElem? hp⟩))
      obtain ⟨q, hq⟩ := List.mem_iff_getElem?.mp hmem
      exact ⟨(.respond id o, q), mem_left.mpr ⟨hq, hdone⟩, rfl⟩

/-- The call and the return of an operation that is left split the list, and
the rest is what is left without it. -/
theorem left_split (hc : Complete h)
    {before after : List (HistoryEvent ℕ I O × ℕ)}
    (hsplit : left h done = before ++ (.invoke id i, p) :: after)
    (hq : h[q]? = some (.respond id o)) : ∃ between rest,
      after = between ++ (.respond id o, q) :: rest ∧
      left h (done ++ [id]) = before ++ (between ++ rest) := by
  have hcall : (.invoke id i, p) ∈ left h done := by
    rw [hsplit]
    exact List.mem_append_right _ List.mem_cons_self
  obtain ⟨hp, hid⟩ := mem_left.mp hcall
  have hlt := call_lt_return hc hp hq
  have hsorted := sorted_left h done
  have hreturn : (.respond id o, q) ∈ left h done :=
    mem_left.mpr ⟨hq, hid⟩
  rw [hsplit] at hsorted hreturn
  have hafter : (.respond id o, q) ∈ after := by
    rcases List.mem_append.mp hreturn with hbefore | hrest
    · have hless := (List.pairwise_append.mp hsorted).2.2 _ hbefore _
        List.mem_cons_self
      dsimp only at hless
      omega
    · rcases List.mem_cons.mp hrest with heq | hrest
      · cases heq
      · exact hrest
  obtain ⟨between, rest, rfl⟩ := List.append_of_mem hafter
  refine ⟨between, rest, rfl, ?_⟩
  -- Only the two entries belong to the operation.
  have hothers : ∀ x ∈ left h done, x.1.id = id → x.2 = p ∨ x.2 = q := by
    rintro ⟨ev, k⟩ hx hev
    obtain ⟨hk, _⟩ := mem_left.mp hx
    cases ev with
    | invoke a input =>
        obtain rfl : a = id := hev
        exact Or.inl (call_unique hc hk hp)
    | respond a output =>
        obtain rfl : a = id := hev
        exact Or.inr (return_unique hc hk hq)
  have hkeep : ∀ l : List (HistoryEvent ℕ I O × ℕ), (∀ x ∈ l,
      x ∈ left h done ∧ x.2 ≠ p ∧ x.2 ≠ q) →
      (l.filter fun x ↦ decide (x.1.id ≠ id)) = l := by
    intro l hl
    refine List.filter_eq_self.mpr fun x hx ↦ decide_eq_true fun hev ↦ ?_
    obtain ⟨hmem, hxp, hxq⟩ := hl x hx
    exact (hothers x hmem hev).elim hxp hxq
  obtain ⟨_, hsorted₂, hcross⟩ := List.pairwise_append.mp hsorted
  obtain ⟨hfrom, hsorted₃⟩ := List.pairwise_cons.mp hsorted₂
  obtain ⟨_, hsorted₄, hcross₂⟩ := List.pairwise_append.mp hsorted₃
  obtain ⟨hfrom₂, _⟩ := List.pairwise_cons.mp hsorted₄
  rw [left_append, hsplit, List.filter_append, List.filter_cons_of_neg (by
    simp), List.filter_append, List.filter_cons_of_neg (by simp), hkeep before,
    hkeep between, hkeep rest]
  · intro x hx
    have hpx := hfrom x (List.mem_append_right _ (List.mem_cons_of_mem _ hx))
    have hqx := hfrom₂ x hx
    refine ⟨?_, by omega, by omega⟩
    rw [hsplit]
    simp [hx]
  · intro x hx
    have hpx := hfrom x (List.mem_append_left _ hx)
    have hqx := hcross₂ x hx _ List.mem_cons_self
    refine ⟨?_, by omega, by omega⟩
    rw [hsplit]
    simp [hx]
  · intro x hx
    have hpx := hcross x hx _ List.mem_cons_self
    have hqx := hcross x hx _ (List.mem_cons_of_mem _
      (List.mem_append_right _ List.mem_cons_self))
    refine ⟨?_, by omega, by omega⟩
    rw [hsplit]
    simp [hx]

end Left

/-! ## The nodes of a history -/

/-- The nodes hold the events of `h`, and calls are matched with returns. -/
structure Nodes (heap : Heap I O) (h : List (HistoryEvent ℕ I O)) :
    Prop where
  call : ∀ (p id : ℕ) i, h[p]? = some (.invoke id i) →
    heap.value p = .input i ∧ heap.id p = id ∧
      ∃ q o, h[q]? = some (.respond id o) ∧ heap.matching p = some q
  ret : ∀ (p id : ℕ) o, h[p]? = some (.respond id o) →
    heap.value p = .output o ∧ heap.matching p = none

section Nodes

variable {heap : Heap I O} {h : List (HistoryEvent ℕ I O)} {done : List ℕ}
  {id p : ℕ} {i : I}

theorem Nodes.unlink (hnodes : Nodes heap h) (e b : ℕ) :
    Nodes (heap.unlink e b) h :=
  ⟨hnodes.call, hnodes.ret⟩

/-- The entries of an operation are lifted, and can be put back. -/
theorem Nodes.lift (hnodes : Nodes heap h) (hc : Complete h)
    (hl : heap.Linked h.length ((left h done).map Prod.snd))
    (hmem : (.invoke id i, p) ∈ left h done) :
    ∃ heap', heap.lift p = some heap' ∧ heap'.unlift p = some heap ∧
      Nodes heap' h ∧
      heap'.Linked h.length ((left h (done ++ [id])).map Prod.snd) := by
  obtain ⟨_, _, q, o, hq, hmatch⟩ :=
    hnodes.call p id i (mem_left.mp hmem).1
  obtain ⟨before, after, hsplit⟩ := List.append_of_mem hmem
  obtain ⟨between, rest, rfl, hrest⟩ := left_split hc hsplit hq
  have hnodup := nodup_left h done
  rw [hsplit] at hl hnodup
  simp only [List.map_append, List.map_cons] at hl hnodup
  obtain ⟨b, c, hliftable, hlinked⟩ := hl.liftable hnodup hmatch
  refine ⟨_, hliftable.lift_eq, hliftable.unlift_eq,
    (hnodes.unlink p b).unlink q c, ?_⟩
  rw [hrest]
  simpa using hlinked

/-- The return of an operation among the entries after its call. -/
theorem returnIndex_drop {entries : List (Entry I O)} (henc : Encodes entries h)
    {q : ℕ} {o : O} (hq : h[q]? = some (.respond id o)) (hlt : p < q) :
    returnIndex (entries.drop (p + 1)) id = some (q - (p + 1)) := by
  have hreturn : ∀ {k e}, entries[k]? = some e →
      (decide (e.kind = .returnEntry ∧ e.id = id) = true ↔ k = q) := by
    intro k e he
    obtain ⟨ev, hev, hevent⟩ := henc.event_eq he
    rw [decide_eq_true_iff]
    cases ev with
    | invoke a i =>
        obtain ⟨hkind, _, _⟩ := Entry.event_eq_invoke hevent
        refine ⟨fun hret ↦ ?_, fun hkq ↦ ?_⟩
        · rw [hkind] at hret
          cases hret.1
        · subst hkq
          cases hev.symm.trans hq
    | respond a o' =>
        obtain ⟨hkind, _, hid⟩ := Entry.event_eq_respond hevent
        refine ⟨fun hret ↦ ?_, fun hkq ↦ ?_⟩
        · obtain rfl : a = id := hid.symm.trans hret.2
          exact return_unique henc.complete hev hq
        · subst hkq
          cases hev.symm.trans hq
          exact ⟨hkind, hid⟩
  obtain ⟨hqlt, _⟩ := List.getElem?_eq_some_iff.mp hq
  have hlength := henc.length_eq
  refine List.findIdx?_eq_some_iff_getElem.mpr ⟨?_, ?_, fun k hk ↦ ?_⟩
  · rw [List.length_drop]
    omega
  · rw [List.getElem_drop]
    refine (hreturn (k := q) ?_).mpr rfl
    rw [List.getElem?_eq_getElem (by omega)]
    congr 2
    omega
  · rw [List.getElem_drop]
    intro hret
    have hkq := (hreturn (List.getElem?_eq_getElem (by omega))).mp hret
    omega

/-- The list that `checkSingle` starts with. -/
theorem nodes_start {entries : List (Entry I O)} (henc : Encodes entries h) :
    Nodes (((makeLinkedEntries entries).heap.alloc h.length .nil none
      (-1)).insertBefore h.length (makeLinkedEntries entries).root) h := by
  have hlinks := links_makeLinkedEntries entries
  have hentry : ∀ {p ev}, h[p]? = some ev → p ≠ h.length ∧
      ∃ e, entries[p]? = some e ∧ e.event = some ev := by
    intro p ev hev
    obtain ⟨hlt, _⟩ := List.getElem?_eq_some_iff.mp hev
    have hlt' : p < entries.length := by rwa [henc.length_eq]
    obtain ⟨ev', hev', hevent⟩ :=
      henc.event_eq (List.getElem?_eq_getElem hlt')
    obtain rfl := Option.some.inj (hev.symm.trans hev')
    exact ⟨by omega, _, List.getElem?_eq_getElem hlt', hevent⟩
  constructor
  · intro p id i hp
    obtain ⟨hne, e, he, hevent⟩ := hentry hp
    obtain ⟨hkind, hvalue, hid⟩ := Entry.event_eq_invoke hevent
    have hvalue' := hlinks.value p e he
    have hid' := hlinks.id p e he
    have hmatched := hlinks.matched p e he
    rw [Nat.zero_add] at hvalue' hid' hmatched
    obtain ⟨o, hmem⟩ := mem_respondedIds.mp (henc.complete.responded id
      (mem_invokedIds.mpr ⟨i, List.mem_of_getElem? hp⟩))
    obtain ⟨q, hq⟩ := List.mem_iff_getElem?.mp hmem
    have hlt := call_lt_return henc.complete hp hq
    refine ⟨by simp [Heap.alloc, hne, hvalue', hvalue],
      by simp [Heap.alloc, hne, hid', hid], q, o, hq, ?_⟩
    rw [Heap.insertBefore_matching]
    change Function.update _ _ _ p = _
    rw [Function.update_of_ne hne, hmatched, matchOf, if_neg (by simp [hkind]),
      hid, returnIndex_drop henc hq hlt, Option.map_some,
      Nat.add_sub_cancel' hlt]
  · intro p id o hp
    obtain ⟨hne, e, he, hevent⟩ := hentry hp
    obtain ⟨hkind, hvalue, _⟩ := Entry.event_eq_respond hevent
    have hvalue' := hlinks.value p e he
    have hmatched := hlinks.matched p e he
    rw [Nat.zero_add] at hvalue' hmatched
    simp [Heap.alloc, hne, hvalue', hvalue, hmatched, matchOf, hkind]

theorem linked_start {entries : List (Entry I O)} (henc : Encodes entries h) :
    (((makeLinkedEntries entries).heap.alloc h.length .nil none
      (-1)).insertBefore h.length (makeLinkedEntries entries).root).Linked
        h.length ((left h []).map Prod.snd) := by
  have hall : (left h []).map Prod.snd = List.range' 0 entries.length := by
    rw [henc.length_eq]
    simp [left, List.zipIdx_map_snd]
  rw [hall]
  refine ((links_makeLinkedEntries entries).whole.insertBefore
    List.nodup_range' ?_ _ _ _).1
  rw [henc.length_eq]
  simp

end Nodes

end DistLabs.Porcupine
