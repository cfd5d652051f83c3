import DistLabs.Porcupine.Checker

/-!
# The checker follows the search

Every round of `checkSingle` is one step of the search for a linearization.  The
linked list holds the events that are left, the bitset the operations of the
present order, and the stack of calls the way back.
-/

namespace DistLabs.Porcupine

open Linearizability

variable {St I O : Type}

/-! ## The cache -/

/-- The buckets of the cache hold the nodes that were entered, each in the
bucket of its hash. -/
structure CacheMatches (n : ℕ) (cache : Cache St)
    (nodes : List (Partial ℕ I O St)) : Prop where
  sound : ∀ k, ∀ ce ∈ cache k, ∃ d ∈ nodes,
    ce.linearized.Represents n d.ids.toFinset ∧ ce.state = d.st
  complete : ∀ d ∈ nodes, ∃ ce, ce ∈ cache ce.linearized.hash ∧
    ce.linearized.Represents n d.ids.toFinset ∧ ce.state = d.st

section Cache

variable {model : FullModel St I O} {h : List (HistoryEvent ℕ I O)} {n : ℕ}
  {cache : Cache St} {nodes : List (Partial ℕ I O St)}
  {c : Partial ℕ I O St} {b : Bitset}

theorem equals_iff_sameOps {b' : Bitset} {d : Partial ℕ I O St}
    (hb : b.Represents n c.ids.toFinset)
    (hb' : b'.Represents n d.ids.toFinset) :
    b.equals b' = true ↔ c.SameOps d := by
  rw [Bitset.equals_iff, hb.eq_iff hb', Finset.ext_iff]
  simp only [List.mem_toFinset]
  constructor
  · exact fun hsame ↦
      ⟨fun p hp ↦ (hsame p).mp hp, fun p hp ↦ (hsame p).mpr hp⟩
  · exact fun hsame p ↦ hsame.mem_iff

/-- Equal sets have equal hashes, so only one bucket has to be looked at. -/
theorem CacheMatches.contains_eq (model : FullModel St I O)
    (h : List (HistoryEvent ℕ I O)) (hcache : CacheMatches n cache nodes)
    (hb : b.Represents n c.ids.toFinset) :
    cacheContains model cache ⟨b, c.st⟩ =
      nodes.any ((linearizationSearch model.toSequentialModel model.equal
        h).same c) := by
  rw [Bool.eq_iff_iff, cacheContains, List.any_eq_true, List.any_eq_true]
  constructor
  · rintro ⟨ce, hce, hboth⟩
    obtain ⟨heq, hequal⟩ := Bool.and_eq_true_iff.mp hboth
    obtain ⟨d, hd, hrep, hst⟩ := hcache.sound _ ce hce
    refine ⟨d, hd, Bool.and_eq_true_iff.mpr ⟨?_, ?_⟩⟩
    · exact decide_eq_true ((equals_iff_sameOps hb hrep).mp heq)
    · rw [← hst]
      exact hequal
  · rintro ⟨d, hd, hboth⟩
    obtain ⟨hsame, hequal⟩ := Bool.and_eq_true_iff.mp hboth
    obtain ⟨ce, hce, hrep, hst⟩ := hcache.complete d hd
    have heq := (equals_iff_sameOps hb hrep).mpr (of_decide_eq_true hsame)
    refine ⟨ce, ?_, Bool.and_eq_true_iff.mpr ⟨heq, ?_⟩⟩
    · rw [Bitset.equals_iff.mp heq]
      exact hce
    · rw [hst]
      exact hequal

theorem CacheMatches.insert (hcache : CacheMatches n cache nodes)
    (hb : b.Represents n c.ids.toFinset) :
    CacheMatches n (Function.update cache b.hash
      (cache b.hash ++ [⟨b, c.st⟩])) (c :: nodes) where
  sound := by
    intro k ce hce
    by_cases hk : k = b.hash
    · subst hk
      rw [Function.update_self] at hce
      rcases List.mem_append.mp hce with hold | hnew
      · obtain ⟨d, hd, hrest⟩ := hcache.sound _ ce hold
        exact ⟨d, List.mem_cons_of_mem _ hd, hrest⟩
      · obtain rfl := List.mem_singleton.mp hnew
        exact ⟨c, List.mem_cons_self, hb, rfl⟩
    · rw [Function.update_of_ne hk] at hce
      obtain ⟨d, hd, hrest⟩ := hcache.sound k ce hce
      exact ⟨d, List.mem_cons_of_mem _ hd, hrest⟩
  complete := by
    intro d hd
    rcases List.mem_cons.mp hd with rfl | hd
    · refine ⟨⟨b, d.st⟩, ?_, hb, rfl⟩
      rw [Function.update_self]
      exact List.mem_append_right _ List.mem_cons_self
    · obtain ⟨ce, hce, hrest⟩ := hcache.complete d hd
      refine ⟨ce, ?_, hrest⟩
      by_cases hk : ce.linearized.hash = b.hash
      · rw [hk] at hce ⊢
        rw [Function.update_self]
        exact List.mem_append_left _ hce
      · rwa [Function.update_of_ne hk]

end Cache

/-! ## What is recorded -/

/-- Recording `seq` for the operations `ids` replaces nothing by something
shorter. -/
structure Recorded (seq ids : List ℕ) (old new : Longest) : Prop where
  length : new.length = old.length
  origin : ∀ (i : ℕ) (s : List ℕ), new[i]? = some (some s) →
    old[i]? = some (some s) ∨ (s = seq ∧ i ∈ ids)
  kept : ∀ (i : ℕ) (s : List ℕ), old[i]? = some (some s) →
    ∃ t : List ℕ, new[i]? = some (some t) ∧ s.length ≤ t.length
  added : ∀ i ∈ ids, ∃ t : List ℕ, new[i]? = some (some t) ∧
    seq.length ≤ t.length

section Record

variable {seq ids ids' : List ℕ} {old mid new : Longest} {id : ℕ}

theorem Recorded.refl (seq : List ℕ) (old : Longest) :
    Recorded seq [] old old where
  length := rfl
  origin := fun _ _ hs ↦ Or.inl hs
  kept := fun _ s hs ↦ ⟨s, hs, le_rfl⟩
  added := by
    intro i hi
    cases hi

theorem Recorded.trans (h : Recorded seq ids old mid)
    (h' : Recorded seq ids' mid new) :
    Recorded seq (ids ++ ids') old new where
  length := h'.length.trans h.length
  origin := by
    intro i s hs
    rcases h'.origin i s hs with hmid | ⟨rfl, hi⟩
    · exact (h.origin i s hmid).imp_right fun ⟨hseq, hi⟩ ↦
        ⟨hseq, List.mem_append_left _ hi⟩
    · exact Or.inr ⟨rfl, List.mem_append_right _ hi⟩
  kept := by
    intro i s hs
    obtain ⟨t, ht, hle⟩ := h.kept i s hs
    obtain ⟨u, hu, hle'⟩ := h'.kept i t ht
    exact ⟨u, hu, hle.trans hle'⟩
  added := by
    intro i hi
    rcases List.mem_append.mp hi with hi | hi
    · obtain ⟨t, ht, hle⟩ := h.added i hi
      obtain ⟨u, hu, hle'⟩ := h'.kept i t ht
      exact ⟨u, hu, hle.trans hle'⟩
    · exact h'.added i hi

/-- A shorter sequence, or none, is replaced. -/
theorem Recorded.set (hid : id < old.length)
    (hshorter : ∀ s : List ℕ, old[id]? = some (some s) →
      s.length ≤ seq.length) :
    Recorded seq [id] old (old.set id (some seq)) where
  length := List.length_set
  origin := by
    intro i s hs
    by_cases hi : i = id
    · subst hi
      rw [List.getElem?_set_self hid] at hs
      cases hs
      exact Or.inr ⟨rfl, List.mem_singleton.mpr rfl⟩
    · rw [List.getElem?_set_ne (fun heq ↦ hi heq.symm)] at hs
      exact Or.inl hs
  kept := by
    intro i s hs
    by_cases hi : i = id
    · subst hi
      exact ⟨seq, List.getElem?_set_self hid, hshorter s hs⟩
    · rw [List.getElem?_set_ne (fun heq ↦ hi heq.symm)]
      exact ⟨s, hs, le_rfl⟩
  added := by
    intro i hi
    obtain rfl := List.mem_singleton.mp hi
    exact ⟨seq, List.getElem?_set_self hid, le_rfl⟩

theorem recorded_recordOne (seq : List ℕ) (hid : id < old.length) :
    ∃ new, recordOne seq old id = some new ∧ Recorded seq [id] old new := by
  unfold recordOne
  cases hlookup : old[id]? with
  | none =>
      rw [List.getElem?_eq_getElem hid] at hlookup
      cases hlookup
  | some entry =>
      cases entry with
      | none =>
          refine ⟨_, rfl, Recorded.set hid fun s hs ↦ ?_⟩
          cases hlookup.symm.trans hs
      | some s =>
          dsimp only
          split
          · next hlonger =>
              refine ⟨_, rfl, Recorded.set hid fun s' hs' ↦ ?_⟩
              cases hlookup.symm.trans hs'
              exact hlonger.le
          · next hshorter =>
              refine ⟨old, rfl, rfl, fun _ _ hs' ↦ Or.inl hs',
                fun _ s' hs' ↦ ⟨s', hs', le_rfl⟩, fun i hi ↦ ?_⟩
              obtain rfl := List.mem_singleton.mp hi
              exact ⟨s, hlookup, not_lt.mp hshorter⟩

theorem recorded_foldlM (seq : List ℕ) (hids : ∀ id ∈ ids, id < old.length) :
    ∃ new, ids.foldlM (recordOne seq) old = some new ∧
      Recorded seq ids old new := by
  induction ids generalizing old with
  | nil => exact ⟨old, rfl, Recorded.refl seq old⟩
  | cons id ids ih =>
      obtain ⟨mid, hone, hmid⟩ :=
        recorded_recordOne seq (hids id List.mem_cons_self)
      have hrest : ∀ i ∈ ids, i < mid.length := by
        intro i hi
        rw [hmid.length]
        exact hids i (List.mem_cons_of_mem _ hi)
      obtain ⟨new, hfold, hnew⟩ := ih hrest
      refine ⟨new, ?_, hmid.trans hnew⟩
      rw [List.foldlM_cons, hone]
      exact hfold

end Record

/-! ## The loop and the search -/

section Lockstep

variable {model : FullModel St I O} {h : List (HistoryEvent ℕ I O)}

/-- The calls that are tried next from a position of the list on. -/
def callsFrom (rest : List (HistoryEvent ℕ I O × ℕ)) : List ℕ :=
  (rest.takeWhile fun x ↦ x.1.isInvoke).map fun x ↦ x.1.id

theorem candidates_eq (done : List ℕ) :
    candidates h done = callsFrom (left h done) := by
  unfold candidates callsFrom
  rw [← map_fst_left, List.takeWhile_map, List.map_map]
  rfl

/-- The heap and the stack of calls lead back to the root: every call on the
stack can be undone, which leads to the node above and to the moves that are
left there. -/
inductive Frames (h : List (HistoryEvent ℕ I O)) : Heap I O →
    List (CallsEntry St) → Partial ℕ I O St →
    List (Partial ℕ I O St × List ℕ) → Prop
  | root {heap : Heap I O} {c : Partial ℕ I O St} (hids : c.ids = []) :
      Frames h heap [] c []
  | call {heap heap' : Heap I O} {calls : List (CallsEntry St)}
      {c d : Partial ℕ I O St} {path : List (Partial ℕ I O St × List ℕ)}
      {before after : List (HistoryEvent ℕ I O × ℕ)} {id p : ℕ} {i : I}
      (hframes : Frames h heap calls c path) (hnodes : Nodes heap h)
      (hlinked : heap.Linked h.length ((left h c.ids).map Prod.snd))
      (hsplit : left h c.ids = before ++ (.invoke id i, p) :: after)
      (hbefore : ∀ x ∈ before, x.1.isInvoke = true)
      (hunlift : heap'.unlift p = some heap) (hids : d.ids = c.ids ++ [id]) :
      Frames h heap' (⟨p, c.st⟩ :: calls) d ((c, callsFrom after) :: path)

theorem Nodes.opId_eq {heap : Heap I O} (hnodes : Nodes heap h) {p id : ℕ}
    {i : I} (hp : h[p]? = some (.invoke id i)) : heap.opId p = id := by
  unfold Heap.opId
  rw [(hnodes.call p id i hp).2.1, Int.toNat_natCast]

/-- The calls on the stack are the operations of the present order. -/
theorem Frames.callIds_eq {heap heap' : Heap I O}
    {calls : List (CallsEntry St)} {c : Partial ℕ I O St}
    {path : List (Partial ℕ I O St × List ℕ)}
    (hframes : Frames h heap calls c path) (hnodes : Nodes heap' h) :
    callIds heap' calls = c.ids := by
  induction hframes with
  | root hids => rw [hids]; rfl
  | @call heap heap' calls c d path before after id p i _ _ _ hsplit _ _
      hids ih =>
      have hmem := (mem_left (x := (.invoke id i, p))).mp
        (hsplit ▸ List.mem_append_right _ List.mem_cons_self)
      unfold callIds at ih ⊢
      rw [List.map_cons, List.reverse_cons, ih, hids,
        hnodes.opId_eq hmem.1]

/-- The variables of `checkSingle` are in step with the search. -/
structure Matches (h : List (HistoryEvent ℕ I O)) (σ : CheckState St I O)
    (s : Search (Partial ℕ I O St) ℕ) : Prop where
  frames : Frames h σ.heap σ.calls s.node s.path
  nodes : Nodes σ.heap h
  linked : σ.heap.Linked h.length ((left h s.node.ids).map Prod.snd)
  state : σ.state = s.node.st
  position : ∃ before rest, left h s.node.ids = before ++ rest ∧
    σ.entry = (rest.map Prod.snd).head? ∧ s.todo = callsFrom rest ∧
    ∀ x ∈ before, x.1.isInvoke = true
  linearized : σ.linearized.Represents (h.length / 2) s.node.ids.toFinset
  cache : CacheMatches (h.length / 2) σ.cache s.cache

/-- The recorded sequences are orders of nodes that were reached, and those of
all nodes that were left again are covered. -/
structure LongestMatches (computePartial : Bool) (n : ℕ)
    (reached : Partial ℕ I O St → Prop) (longest : Longest)
    (s : Search (Partial ℕ I O St) ℕ) : Prop where
  length : longest.length = n
  sound : ∀ (i : ℕ) (seq : List ℕ), longest[i]? = some (some seq) →
    i ∈ seq ∧ ∃ c, reached c ∧ c.ids = seq
  covers : computePartial = true → ∀ d ∈ s.cache,
    (∃ f ∈ s.frames, f.1 = d) ∨ ∀ i ∈ d.ids, ∃ seq : List ℕ,
      longest[i]? = some (some seq) ∧ d.ids.length ≤ seq.length

variable {σ : CheckState St I O} {s : Search (Partial ℕ I O St) ℕ}

/-- The list is empty at a goal. -/
theorem Matches.next_eq_none_iff (hm : Matches h σ s) :
    σ.heap.next h.length = none ↔
      (linearizationSearch model.toSequentialModel model.equal h).goal s.node =
        true := by
  rw [hm.linked.next_eq, List.head?_eq_none_iff, List.map_eq_nil_iff]
  change _ ↔ (remaining h s.node.ids).isEmpty = true
  rw [List.isEmpty_iff, ← map_fst_left, List.map_eq_nil_iff]

/-- The checker goes on to the entry after `p`. -/
theorem Matches.advance (hm : Matches h σ s)
    {before rest : List (HistoryEvent ℕ I O × ℕ)} {id p : ℕ} {i : I}
    (hsplit : left h s.node.ids = before ++ (.invoke id i, p) :: rest)
    (hbefore : ∀ x ∈ before, x.1.isInvoke = true) :
    Matches h { σ with entry := σ.heap.next p }
      { s with todo := callsFrom rest } where
  frames := hm.frames
  nodes := hm.nodes
  linked := hm.linked
  state := hm.state
  position := by
    have hlinked := hm.linked
    rw [hsplit, List.map_append, List.map_cons] at hlinked
    refine ⟨before ++ [(.invoke id i, p)], rest, ?_, hlinked.suffix.next_eq,
      rfl, fun x hx ↦ ?_⟩
    · rw [List.append_assoc]
      exact hsplit
    · rcases List.mem_append.mp hx with hx | hx
      · exact hbefore x hx
      · obtain rfl := List.mem_singleton.mp hx
        rfl
  linearized := hm.linearized
  cache := hm.cache

/-- The call at the present entry is tried: the move is impossible, or leads to
a node of the cache, or to a new one. -/
theorem Matches.tryCall (henc : Complete h)
    (hlt : ∀ e ∈ h, e.id < h.length / 2) (hm : Matches h σ s)
    {before rest : List (HistoryEvent ℕ I O × ℕ)} {id p q : ℕ} {i : I}
    (hsplit : left h s.node.ids = before ++ (.invoke id i, p) :: rest)
    (hbefore : ∀ x ∈ before, x.1.isInvoke = true)
    (htodo : s.todo = id :: callsFrom rest)
    (hgoal : (linearizationSearch model.toSequentialModel model.equal h).goal
      s.node = false) (hmatch : σ.heap.matching p = some q) :
    ∃ σ' s', Porcupine.tryCall model h.length p q σ = some σ' ∧
      (linearizationSearch model.toSequentialModel model.equal h).step s =
        some s' ∧ Matches h σ' s' ∧ σ'.longest = σ.longest := by
  have hmem : (.invoke id i, p) ∈ left h s.node.ids := by
    rw [hsplit]
    exact List.mem_append_right _ List.mem_cons_self
  obtain ⟨hp, hfresh⟩ := mem_left.mp hmem
  obtain ⟨hvalue, _, q', o, hq, hmatch'⟩ := hm.nodes.call p id i hp
  obtain rfl : q = q' := Option.some.inj (hmatch.symm.trans hmatch')
  have hopId := hm.nodes.opId_eq hp
  have hinput := henc.inputOf_eq (List.mem_of_getElem? hp)
  have houtput := henc.outputOf_eq (List.mem_of_getElem? hq)
  have hid : id < h.length / 2 := hlt _ (List.mem_of_getElem? hp)
  have hstep : model.stepValues σ.state (σ.heap.value p) (σ.heap.value q) =
      some (model.step s.node.st i o) := by
    rw [hvalue, (hm.nodes.ret q id o hq).1, hm.state]
    rfl
  unfold Porcupine.tryCall SearchProblem.step
  rw [hgoal, htodo, hstep, hopId]
  simp only [Option.bind_eq_bind, Option.bind_some, Bool.false_eq_true,
    if_false]
  have happly : (linearizationSearch model.toSequentialModel model.equal
      h).apply s.node id = if (model.step s.node.st i o).1 then
        some ⟨s.node.ops ++ [⟨id, i, o⟩], (model.step s.node.st i o).2⟩
      else none := by
    change s.node.extend _ h id = _
    unfold Partial.extend
    rw [hinput, houtput]
  rw [happly]
  cases hok : (model.step s.node.st i o).1 with
  | false => exact ⟨_, _, rfl, rfl, hm.advance hsplit hbefore, rfl⟩
  | true =>
      simp only [if_true]
      obtain ⟨b, hset, hrep⟩ := hm.linearized.set hid
      rw [hset]
      obtain ⟨c, hc⟩ : ∃ c : Partial ℕ I O St, c =
        ⟨s.node.ops ++ [⟨id, i, o⟩], (model.step s.node.st i o).2⟩ := ⟨_, rfl⟩
      have hids : c.ids = s.node.ids ++ [id] := by
        rw [hc]
        simp [Partial.ids]
      have hst : c.st = (model.step s.node.st i o).2 := by rw [hc]
      have hinsert : insert id s.node.ids.toFinset = c.ids.toFinset := by
        ext a
        rw [hids]
        simp
      rw [hinsert] at hrep
      rw [← hc, ← hst]
      simp only [Option.bind_some]
      rw [hm.cache.contains_eq model h hrep]
      cases hany : s.cache.any ((linearizationSearch model.toSequentialModel
          model.equal h).same c) with
      | true => exact ⟨_, _, rfl, rfl, hm.advance hsplit hbefore, rfl⟩
      | false =>
          obtain ⟨heap, hlift, hunlift, hnodes, hlinked⟩ :=
            hm.nodes.lift henc hm.linked hmem
          rw [← hids] at hlinked
          rw [hlift]
          refine ⟨_, _, rfl, rfl, ?_, rfl⟩
          exact
            { frames := by
                rw [hm.state]
                exact .call hm.frames hm.nodes hm.linked hsplit hbefore
                  hunlift hids
              nodes := hnodes
              linked := hlinked
              state := rfl
              position := ⟨[], left h c.ids, rfl, hlinked.next_eq,
                candidates_eq c.ids, by simp⟩
              linearized := hrep
              cache := hm.cache.insert hrep }

theorem Frames.ids_lt (hlt : ∀ e ∈ h, e.id < h.length / 2) {heap : Heap I O}
    {calls : List (CallsEntry St)} {c : Partial ℕ I O St}
    {path : List (Partial ℕ I O St × List ℕ)}
    (hframes : Frames h heap calls c path) :
    ∀ id ∈ c.ids, id < h.length / 2 := by
  induction hframes with
  | root hids => simp [hids]
  | @call heap heap' calls c d path before after id p i _ _ _ hsplit _ _
      hids ih =>
      have hmem := (mem_left (x := (.invoke id i, p))).mp
        (hsplit ▸ List.mem_append_right _ List.mem_cons_self)
      have hid : id < h.length / 2 := hlt _ (List.mem_of_getElem? hmem.1)
      intro a ha
      rw [hids] at ha
      rcases List.mem_append.mp ha with ha | ha
      · exact ih a ha
      · obtain rfl := List.mem_singleton.mp ha
        exact hid

section Longest

variable {computePartial : Bool} {n : ℕ}
  {reached : Partial ℕ I O St → Prop} {longest new : Longest}
  {s' : Search (Partial ℕ I O St) ℕ}

/-- Nothing is recorded while no node is left. -/
theorem LongestMatches.mono
    (hlm : LongestMatches computePartial n reached longest s)
    (hcache : ∀ d ∈ s'.cache, d ∈ s.cache ∨ ∃ f ∈ s'.frames, f.1 = d)
    (hframes : ∀ f ∈ s.frames, ∃ f' ∈ s'.frames, f'.1 = f.1) :
    LongestMatches computePartial n reached longest s' where
  length := hlm.length
  sound := hlm.sound
  covers := by
    intro hpartial d hd
    rcases hcache d hd with hold | hnew
    · rcases hlm.covers hpartial d hold with ⟨f, hf, rfl⟩ | hrecorded
      · exact Or.inl (hframes f hf)
      · exact Or.inr hrecorded
    · exact Or.inl hnew

/-- The order of a node is recorded when the node is left. -/
theorem LongestMatches.leave {c : Partial ℕ I O St} {todo : List ℕ}
    {path : List (Partial ℕ I O St × List ℕ)}
    (hlm : LongestMatches true n reached longest s) (hreached : reached s.node)
    (hpath : s.path = (c, todo) :: path)
    (hnew : Recorded s.node.ids s.node.ids longest new) :
    LongestMatches true n reached new
      { s with node := c, todo := todo, path := path } where
  length := hnew.length.trans hlm.length
  sound := by
    intro i seq hseq
    rcases hnew.origin i seq hseq with hold | ⟨rfl, hi⟩
    · exact hlm.sound i seq hold
    · exact ⟨hi, s.node, hreached, rfl⟩
  covers := by
    intro _ d hd
    rcases hlm.covers rfl d hd with ⟨f, hf, rfl⟩ | hrecorded
    · rcases List.mem_cons.mp hf with rfl | hf
      · exact Or.inr hnew.added
      · refine Or.inl ⟨f, ?_, rfl⟩
        rw [hpath] at hf
        exact hf
    · refine Or.inr fun i hi ↦ ?_
      obtain ⟨seq, hseq, hle⟩ := hrecorded i hi
      obtain ⟨seq', hseq', hle'⟩ := hnew.kept i seq hseq
      exact ⟨seq', hseq', hle.trans hle'⟩

/-- A return is reached: the search is over or leaves its node. -/
theorem Matches.undoCall (hlt : ∀ e ∈ h, e.id < h.length / 2)
    (hm : Matches h σ s)
    (hlm : LongestMatches computePartial (h.length / 2) reached σ.longest s)
    (hreached : reached s.node) (htodo : s.todo = [])
    (hgoal : (linearizationSearch model.toSequentialModel model.equal h).goal
      s.node = false) :
    ((linearizationSearch model.toSequentialModel model.equal h).step s =
        none ∧
      Porcupine.undoCall computePartial σ =
        some (.finished false σ.longest)) ∨
    ∃ σ' s', Porcupine.undoCall computePartial σ = some (.running σ') ∧
      (linearizationSearch model.toSequentialModel model.equal h).step s =
        some s' ∧ Matches h σ' s' ∧
      LongestMatches computePartial (h.length / 2) reached σ'.longest s' := by
  have hids_lt := hm.frames.ids_lt hlt
  have hcallIds := hm.frames.callIds_eq hm.nodes
  have hrep := hm.linearized
  obtain ⟨heap, entry, linearized, cache, calls, longest, state⟩ := σ
  obtain ⟨node, todo, path, nodes⟩ := s
  obtain rfl : todo = [] := htodo
  have hframes := hm.frames
  dsimp only at hframes hcallIds hrep hids_lt
  unfold SearchProblem.step
  rw [hgoal]
  simp only [Bool.false_eq_true, if_false]
  cases hframes with
  | root _ => exact Or.inl ⟨rfl, rfl⟩
  | @call heap₀ _ calls c _ path before after id p i hframes hnodes hlinked
      hsplit hbefore hunlift hids =>
      refine Or.inr ?_
      obtain ⟨hp, hfresh⟩ := (mem_left (x := (.invoke id i, p))).mp
        (hsplit ▸ List.mem_append_right _ List.mem_cons_self)
      have hid : id < h.length / 2 := hids_lt id (by simp [hids])
      have hopId := hm.nodes.opId_eq hp
      dsimp only at hopId
      have herase : node.ids.toFinset.erase id = c.ids.toFinset := by
        ext a
        rw [hids]
        have hne : a ∈ c.ids → a ≠ id := by
          rintro ha rfl
          exact hfresh ha
        simp only [Finset.mem_erase, List.mem_toFinset, List.mem_append,
          List.mem_singleton]
        tauto
      obtain ⟨b, hclear, hrep'⟩ := hrep.clear hid
      rw [herase] at hrep'
      obtain ⟨new, hrecord, hlongest⟩ : ∃ new,
          (if computePartial then recordLongest (callIds heap
            (⟨p, c.st⟩ :: calls)) longest else some longest) = some new ∧
          LongestMatches computePartial (h.length / 2) reached new
            ⟨c, callsFrom after, path, nodes⟩ := by
        cases computePartial with
        | false =>
            refine ⟨longest, rfl, hlm.length, hlm.sound, fun hfalse ↦ ?_⟩
            cases hfalse
        | true =>
            have hlongest : ∀ a ∈ node.ids, a < longest.length :=
              fun a ha ↦ hlm.length ▸ hids_lt a ha
            obtain ⟨new, hnew, hrecorded⟩ := recorded_foldlM node.ids hlongest
            refine ⟨new, ?_, hlm.leave hreached rfl hrecorded⟩
            rw [if_pos rfl, hcallIds]
            exact hnew
      have hlinked' := hlinked
      rw [hsplit, List.map_append, List.map_cons] at hlinked'
      refine ⟨⟨heap₀, heap₀.next p, b, cache, calls, new, c.st⟩, _, ?_, rfl,
        ?_, hlongest⟩
      · unfold Porcupine.undoCall
        cases computePartial with
        | false =>
            obtain rfl := Option.some.inj hrecord
            simp [hopId, hclear, hunlift]
        | true =>
            rw [if_pos rfl] at hrecord
            simp [hrecord, hopId, hclear, hunlift]
      exact
        { frames := hframes
          nodes := hnodes
          linked := hlinked
          state := rfl
          position := by
            refine ⟨before ++ [(.invoke id i, p)], after, ?_,
              hlinked'.suffix.next_eq, rfl, fun x hx ↦ ?_⟩
            · rw [List.append_assoc]
              exact hsplit
            · rcases List.mem_append.mp hx with hx | hx
              · exact hbefore x hx
              · obtain rfl := List.mem_singleton.mp hx
                rfl
          linearized := hrep'
          cache := hm.cache }

end Longest

end Lockstep

end DistLabs.Porcupine
