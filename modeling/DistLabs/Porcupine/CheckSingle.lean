import DistLabs.Porcupine.Lockstep
import DistLabs.Porcupine.TimedEntries

/-!
# What the checker of one history decides

Run for long enough, `checkSingle` returns without a panic, and unless it was
killed its answer is right.  What it records on the way are partial
linearizations, for every operation a longest one.
-/

namespace DistLabs.Porcupine

open Linearizability

variable {St I O : Type} {model : FullModel St I O}
  {entries : List (Entry I O)} {h : List (HistoryEvent ℕ I O)}
  {computePartial : Bool} {σ σ' : CheckState St I O}
  {s s' : Search (Partial ℕ I O St) ℕ}

/-- The search that `checkSingle` carries out. -/
abbrev FullModel.search (model : FullModel St I O)
    (h : List (HistoryEvent ℕ I O)) : SearchProblem (Partial ℕ I O St) ℕ :=
  linearizationSearch model.toSequentialModel model.equal h

/-- The order of no operations. -/
abbrev FullModel.root (model : FullModel St I O) : Partial ℕ I O St :=
  ⟨[], model.init⟩

/-- `checkSingle` is in step with the search. -/
structure InStep (model : FullModel St I O) (computePartial : Bool)
    (h : List (HistoryEvent ℕ I O)) (σ : CheckState St I O)
    (s : Search (Partial ℕ I O St) ℕ) : Prop where
  explored : (model.search h).Explored model.root s
  matching : Matches h σ s
  longest : LongestMatches computePartial (h.length / 2)
    (Relation.ReflTransGen (model.search h).Move model.root) σ.longest s

/-- The length that `checkSingle` computes for its list. -/
theorem length_makeLinkedEntries (entries : List (Entry I O)) :
    (makeLinkedEntries entries).heap.length entries.length
      (makeLinkedEntries entries).root = entries.length := by
  have hwhole := (links_makeLinkedEntries entries).whole
  cases hlength : entries.length with
  | zero => rfl
  | succ n =>
      rw [hlength, List.range'_succ] at hwhole
      obtain ⟨hroot, _, hlinked⟩ := hwhole
      have hlen := hlinked.length_eq (n + 1) (by simp)
      rw [hroot, hlen, List.length_range']

theorem InStep.start (computePartial : Bool) (henc : Encodes entries h) :
    InStep model computePartial h (checkStart model entries)
      ((model.search h).start model.root) where
  explored := .start _ _
  matching :=
    { frames := .root rfl
      nodes := by
        unfold checkStart
        rw [henc.length_eq]
        exact nodes_start henc
      linked := by
        unfold checkStart
        rw [henc.length_eq]
        exact linked_start henc
      state := rfl
      position := by
        refine ⟨[], left h [], rfl, ?_, candidates_eq [], by simp⟩
        have hwhole := (links_makeLinkedEntries entries).whole
        have hall : (left h []).map Prod.snd =
            List.range' 0 entries.length := by
          rw [henc.length_eq]
          simp [left, List.zipIdx_map_snd]
        change (makeLinkedEntries entries).root = _
        rw [hall]
        cases hrange : List.range' 0 entries.length with
        | nil =>
            rw [hrange] at hwhole
            exact hwhole
        | cons r rest =>
            rw [hrange] at hwhole
            exact hwhole.1
      linearized := by
        change (newBitset _).Represents _ ∅
        rw [length_makeLinkedEntries, henc.length_eq]
        exact Bitset.represents_newBitset _
      cache := by
        constructor
        · intro k ce hce
          cases hce
        · intro d hd
          cases hd }
  longest :=
    { length := by
        change (List.replicate _ none).length = _
        rw [List.length_replicate, length_makeLinkedEntries, henc.length_eq]
      sound := by
        intro i seq hseq
        change (List.replicate _ none)[i]? = _ at hseq
        rw [List.getElem?_replicate] at hseq
        split at hseq
        · cases hseq
        · cases hseq
      covers := by
        intro _ d hd
        cases hd }

/-- One round: the answer is yes at a goal, no when the search is exhausted or
the flag is set, and otherwise the search goes one step on. -/
theorem InStep.round (henc : Encodes entries h)
    (hs : InStep model computePartial h σ s) (kill : Bool) :
    ((model.search h).goal s.node = true ∧
      checkRound model computePartial h.length kill σ =
        some (.finished true (σ.longest.map fun _ ↦ some s.node.ids))) ∨
    ((model.search h).goal s.node = false ∧
      (kill = true ∨ (model.search h).step s = none) ∧
      checkRound model computePartial h.length kill σ =
        some (.finished false σ.longest)) ∨
    ∃ σ' s', (model.search h).step s = some s' ∧
      checkRound model computePartial h.length kill σ = some (.running σ') ∧
      InStep model computePartial h σ' s' := by
  have hm := hs.matching
  have hreached := hs.explored.reached _ List.mem_cons_self
  unfold checkRound
  cases hgoal : (model.search h).goal s.node with
  | true =>
      rw [hm.next_eq_none_iff.mpr hgoal, hm.frames.callIds_eq hm.nodes]
      exact Or.inl ⟨rfl, rfl⟩
  | false =>
      refine Or.inr ?_
      cases hnext : σ.heap.next h.length with
      | none =>
          rw [hm.next_eq_none_iff.mp hnext] at hgoal
          cases hgoal
      | some first =>
          cases kill with
          | true => exact Or.inl ⟨rfl, Or.inl rfl, rfl⟩
          | false =>
              simp only [Bool.false_eq_true, if_false, false_or]
              obtain ⟨before, rest, hsplit, hentry, htodo, hbefore⟩ :=
                hm.position
              cases rest with
              | nil =>
                  -- Some return is left, so the position is not the end.
                  rw [List.append_nil] at hsplit
                  have hne : left h s.node.ids ≠ [] := by
                    intro hnil
                    rw [hm.linked.next_eq, hnil] at hnext
                    cases hnext
                  obtain ⟨x, hx, hreturn⟩ :=
                    exists_return_left henc.complete hne
                  rw [hbefore x (hsplit ▸ hx)] at hreturn
                  cases hreturn
              | cons x rest =>
                  obtain ⟨ev, p⟩ := x
                  have hp := (mem_left (x := (ev, p))).mp
                    (hsplit ▸ List.mem_append_right _ List.mem_cons_self)
                  rw [show σ.entry = some p from hentry]
                  cases ev with
                  | invoke id i =>
                      obtain ⟨_, _, q, _, _, hmatch⟩ :=
                        hm.nodes.call p id i hp.1
                      obtain ⟨σ', s', htry, hstep, hm', hlongest⟩ :=
                        hm.tryCall henc.complete henc.id_lt hsplit hbefore
                          htodo hgoal hmatch
                      refine Or.inr ⟨σ', s', hstep, ?_, hs.explored.step hstep,
                        hm', ?_⟩
                      · simp only [hmatch, htry, Option.map_some]
                      · rw [hlongest]
                        obtain ⟨hcache, hframes⟩ :=
                          SearchProblem.frames_of_move htodo hstep
                        refine hs.longest.mono (fun d hd ↦ ?_) hframes
                        exact (hcache d hd).imp_right fun heq ↦
                          ⟨_, List.mem_cons_self, heq.symm⟩
                  | respond id o =>
                      have hmatch := (hm.nodes.ret p id o hp.1).2
                      simp only [hmatch]
                      rcases hm.undoCall henc.id_lt hs.longest hreached htodo
                        hgoal with ⟨hnone, hfinished⟩ |
                        ⟨σ', s', hundo, hstep, hm', hlongest⟩
                      · exact Or.inl ⟨trivial, hnone, hfinished⟩
                      · exact Or.inr ⟨σ', s', hstep, hundo,
                          hs.explored.step hstep, hm', hlongest⟩

/-- After enough rounds the loop has returned. -/
theorem InStep.loop (henc : Encodes entries h)
    (hs : InStep model computePartial h σ s) (kill : ℕ → Bool) (k fuel : ℕ)
    (hfuel : SearchProblem.measure (fun c ↦ (remaining h c.ids).length)
      h.length s < fuel) :
    ∃ ok longest σ' s', InStep model computePartial h σ' s' ∧
      checkLoop model computePartial h.length kill fuel k σ =
        some (.finished ok longest) ∧
      (model.search h).goal s'.node = ok ∧
      longest = (if ok then σ'.longest.map fun _ ↦ some s'.node.ids
        else σ'.longest) ∧
      (ok = false → (∃ j, kill j = true) ∨
        (model.search h).step s' = none) := by
  induction fuel generalizing k σ s with
  | zero => cases hfuel
  | succ fuel ih =>
      rw [checkLoop]
      rcases hs.round henc (kill k) with ⟨hgoal, hround⟩ |
        ⟨hgoal, hwhy, hround⟩ | ⟨σ', s', hstep, hround, hs'⟩
      · rw [hround]
        refine ⟨true, _, σ, s, hs, rfl, hgoal, rfl, fun hfalse ↦ ?_⟩
        cases hfalse
      · rw [hround]
        exact ⟨false, _, σ, s, hs, rfl, hgoal, rfl, fun _ ↦
          hwhy.imp_left fun hkill ↦ ⟨k, hkill⟩⟩
      · rw [hround]
        refine ih hs' (k + 1) ?_
        have hless := SearchProblem.measure_step
          (bounded_linearizationSearch _ _ h) hs.explored hstep
        omega

/-- Rounds that are enough for a history of `n` events. -/
def enoughRounds (n : ℕ) : ℕ :=
  SearchProblem.nodeCost n n + 1

theorem measure_start_le :
    SearchProblem.measure (fun c ↦ (remaining h c.ids).length) h.length
      ((model.search h).start model.root) ≤
        SearchProblem.nodeCost h.length h.length := by
  have hstart := SearchProblem.measure_start (bounded_linearizationSearch
    model.toSequentialModel model.equal h) model.root
  have hroot : (remaining h (model.root (I := I) (O := O)).ids).length =
      h.length := by
    simp [remaining, Partial.ids]
  rwa [hroot] at hstart

theorem checkSingle_finishes (model : FullModel St I O)
    (computePartial : Bool) (kill : ℕ → Bool) (henc : Encodes entries h)
    {fuel : ℕ}
    (hfuel : enoughRounds h.length ≤ fuel) :
    ∃ ok longest σ s, InStep model computePartial h σ s ∧
      checkSingle model entries computePartial kill fuel =
        some (.finished ok longest) ∧
      (model.search h).goal s.node = ok ∧
      longest = (if ok then σ.longest.map fun _ ↦ some s.node.ids
        else σ.longest) ∧
      (ok = false → (∃ j, kill j = true) ∨
        (model.search h).step s = none) := by
  unfold checkSingle
  rw [henc.length_eq]
  exact (InStep.start computePartial henc).loop henc kill 0 fuel
    (lt_of_le_of_lt measure_start_le hfuel)

/-- The equality of states is right when equal states accept the same
operations. -/
def FullModel.EqualSound (model : FullModel St I O) : Prop :=
  ∀ s t, model.equal s t = true → Accepts ℕ model.toSequentialModel s t

/-- An answer is right unless the checker was killed. -/
theorem checkSingle_decides (model : FullModel St I O)
    (computePartial : Bool) (kill : ℕ → Bool) (hequal : model.EqualSound)
    (henc : Encodes entries h) {fuel : ℕ}
    (hfuel : enoughRounds h.length ≤ fuel) :
    ∃ ok longest, checkSingle model entries computePartial kill fuel =
        some (.finished ok longest) ∧
      (ok = true → Linearizable model.toSequentialModel h) ∧
      (ok = false → Linearizable model.toSequentialModel h →
        ∃ j, kill j = true) := by
  obtain ⟨ok, longest, σ, s, hs, hcheck, hgoal, -, hwhy⟩ :=
    checkSingle_finishes model computePartial kill henc hfuel
  refine ⟨ok, longest, hcheck, ?_, ?_⟩
  · rintro rfl
    exact (linearizable_iff_goal model.equal henc.complete).mpr
      ⟨s.node, hs.explored.reached _ List.mem_cons_self, hgoal⟩
  · rintro rfl hlin
    rcases hwhy rfl with hkill | hstep
    · exact hkill
    · obtain ⟨c, hreach, hc⟩ :=
        (linearizable_iff_goal model.equal henc.complete).mp hlin
      have hnot := hs.explored.no_goal (simulates_linearizationSearch hequal)
        hgoal hstep hreach
      cases hnot.symm.trans hc

theorem equalSound_fillDefault [DecidableEq St] {given : Model St I O}
    (hequal : given.equal = none) : (fillDefault given).EqualSound := by
  intro s t hst
  have heq : s = t := by
    unfold fillDefault at hst
    rw [hequal] at hst
    exact of_decide_eq_true hst
  rw [heq]
  exact fun _ hsome ↦ hsome

/-- A register: `some n` writes `n` and `none` reads. -/
def register : Model ℕ (Option ℕ) ℕ where
  init := 0
  step := fun st input output ↦
    match input with
    | some n => (true, n)
    | none => (output = st, st)
  partition := none
  partitionEvent := none
  equal := none

/-- A read of 2 that began before both writes; 1 was written last. -/
def registerLog : List (Operation (Option ℕ) ℕ) :=
  [⟨0, none, 0, 2, 9⟩, ⟨1, some 2, 1, 0, 3⟩, ⟨2, some 1, 4, 0, 6⟩]

theorem encodes_registerLog :
    Encodes (makeEntries .insertionSort registerLog)
      (timedEvents .insertionSort registerLog) :=
  encodes_makeEntries .insertionSort (by decide)

theorem checkSingle_decides_register :
    ∃ ok longest, checkSingle (fillDefault register)
        (makeEntries .insertionSort registerLog) true (fun k ↦ k == 3)
        (enoughRounds (timedEvents .insertionSort registerLog).length) =
          some (.finished ok longest) ∧
      (ok = true → Linearizable register.toSequentialModel
        (timedEvents .insertionSort registerLog)) ∧
      (ok = false → Linearizable register.toSequentialModel
        (timedEvents .insertionSort registerLog) → ∃ j, (j == 3) = true) :=
  checkSingle_decides (fillDefault register) true (fun k ↦ k == 3)
    (equalSound_fillDefault rfl) encodes_registerLog le_rfl

/-! ## Partial linearizations -/

/-- All operations are among those of the history. -/
theorem Encodes.mem_invokedIds (henc : Encodes entries h) {i : ℕ}
    (hi : i < h.length / 2) : i ∈ invokedIds h := by
  have hsub : invokedIds h ⊆ List.range (h.length / 2) := by
    intro a ha
    obtain ⟨input, hmem⟩ := Linearizability.mem_invokedIds.mp ha
    exact List.mem_range.mpr (henc.id_lt _ hmem)
  have hperm := (List.subperm_of_subset henc.complete.invokes
    hsub).perm_of_length_le (by simp [henc.complete.length_invokedIds])
  exact hperm.mem_iff.mpr (List.mem_range.mpr hi)

/-- For every operation a partial linearization that contains it, of which no
other one is longer. -/
structure LongestPartials (m : SequentialModel St I O)
    (h : List (HistoryEvent ℕ I O)) (longest : Longest) : Prop where
  length : longest.length = h.length / 2
  sound : ∀ (i : ℕ) (seq : List ℕ), longest[i]? = some (some seq) →
    i ∈ seq ∧ ∃ ops st, PartialLinearization m h ops st ∧
      ops.map Operation.id = seq
  maximal : ∀ ops st, PartialLinearization m h ops st →
    ∀ i ∈ ops.map Operation.id, ∃ seq : List ℕ,
      longest[i]? = some (some seq) ∧ ops.length ≤ seq.length

/-- A goal is a partial linearization of all operations. -/
theorem InStep.longest_of_goal (henc : Encodes entries h)
    (hs : InStep model computePartial h σ s)
    (hgoal : (model.search h).goal s.node = true) :
    LongestPartials model.toSequentialModel h
      (σ.longest.map fun _ ↦ some s.node.ids) := by
  have hnode := PartialLinearization.of_reach henc.complete
    (hs.explored.reached _ List.mem_cons_self)
  have hall := goal_iff.mp hgoal
  have hlookup : ∀ {i : ℕ}, i < h.length / 2 →
      (σ.longest.map fun _ ↦ some s.node.ids)[i]? =
        some (some s.node.ids) := by
    intro i hi
    rw [List.getElem?_map, List.getElem?_eq_getElem
      (by rwa [hs.longest.length]), Option.map_some]
  constructor
  · rw [List.length_map, hs.longest.length]
  · intro i seq hseq
    obtain ⟨hi, _⟩ := List.getElem?_eq_some_iff.mp hseq
    rw [List.length_map, hs.longest.length] at hi
    rw [hlookup hi] at hseq
    cases hseq
    obtain ⟨input, hmem⟩ :=
      Linearizability.mem_invokedIds.mp (henc.mem_invokedIds hi)
    exact ⟨hall _ hmem, _, _, hnode, rfl⟩
  · intro ops st hops i hi
    have hsub : ops.map Operation.id ⊆ s.node.ids := by
      intro a ha
      obtain ⟨op, hop, rfl⟩ := List.mem_map.mp ha
      exact hall _ (hops.invoked op hop)
    obtain ⟨op, hop, rfl⟩ := List.mem_map.mp hi
    refine ⟨_, hlookup (henc.id_lt _ (hops.invoked op hop)), ?_⟩
    have hle := (List.subperm_of_subset hops.nodup hsub).length_le
    rwa [List.length_map] at hle

/-- When the search is exhausted all its nodes have been recorded, and every
partial linearization is one of the same operations as some node. -/
theorem InStep.longest_of_exhausted (hequal : model.EqualSound)
    (henc : Encodes entries h) (hs : InStep model true h σ s)
    (hgoal : (model.search h).goal s.node = false)
    (hstep : (model.search h).step s = none) :
    LongestPartials model.toSequentialModel h σ.longest := by
  obtain ⟨hroot, _, hpath⟩ := hs.explored.exhausted hgoal hstep
  refine ⟨hs.longest.length, fun i seq hseq ↦ ?_, fun ops st hops i hi ↦ ?_⟩
  · obtain ⟨hi, c, hreach, hids⟩ := hs.longest.sound i seq hseq
    exact ⟨hi, c.ops, c.st, .of_reach henc.complete hreach, hids⟩
  · obtain ⟨d, hd, _, hsame, _⟩ := hs.explored.covers
      (simulates_linearizationSearch hequal) hgoal hstep
      (hops.reach henc.complete)
    have hid : i ∈ d.ids := hsame.1 hi
    have hne : d ≠ model.root := by
      rintro rfl
      cases hid
    have hcached := hd.resolve_left hne
    have hlin := PartialLinearization.of_reach henc.complete
      (hs.explored.entered d hcached)
    rcases hs.longest.covers rfl d hcached with ⟨f, hf, hfd⟩ | hrecorded
    · unfold Search.frames at hf
      rw [hpath] at hf
      obtain rfl := List.mem_singleton.mp hf
      exact absurd (hfd.symm.trans hroot) hne
    · obtain ⟨seq, hseq, hle⟩ := hrecorded i hid
      refine ⟨seq, hseq, le_trans ?_ hle⟩
      have hlength := (List.subperm_of_subset hops.nodup hsame.1).length_le
      rwa [List.length_map] at hlength

/-- Whether the history is linearizable or not, `longest` is right. -/
theorem checkSingle_longest (model : FullModel St I O)
    (hequal : model.EqualSound) (henc : Encodes entries h) {fuel : ℕ}
    (hfuel : enoughRounds h.length ≤ fuel) :
    ∃ ok longest, checkSingle model entries true (fun _ ↦ false) fuel =
        some (.finished ok longest) ∧
      LongestPartials model.toSequentialModel h longest := by
  obtain ⟨ok, longest, σ, s, hs, hcheck, hgoal, rfl, hwhy⟩ :=
    checkSingle_finishes model true (fun _ ↦ false) henc hfuel
  refine ⟨ok, _, hcheck, ?_⟩
  cases ok with
  | true =>
      rw [if_pos rfl]
      exact hs.longest_of_goal henc hgoal
  | false =>
      rw [if_neg Bool.false_ne_true]
      refine hs.longest_of_exhausted hequal henc hgoal ?_
      refine (hwhy rfl).resolve_left fun ⟨_, hkill⟩ ↦ ?_
      cases hkill

theorem checkSingle_longest_register :
    ∃ ok longest, checkSingle (fillDefault register)
        (makeEntries .insertionSort registerLog) true (fun _ ↦ false)
        (enoughRounds (timedEvents .insertionSort registerLog).length) =
          some (.finished ok longest) ∧
      LongestPartials register.toSequentialModel
        (timedEvents .insertionSort registerLog) longest :=
  checkSingle_longest (fillDefault register)
    (equalSound_fillDefault rfl) encodes_registerLog le_rfl

end DistLabs.Porcupine
