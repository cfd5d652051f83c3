import DistLabs.Support.LinearizationSearch

/-!
# Other names for operations

The names of operations do not matter: under other names, as long as different
operations keep different names, a history is complete and linearizable as
before.
-/

namespace DistLabs.Linearizability

variable {ι κ I O St : Type*}

def HistoryEvent.rename (f : ι → κ) : HistoryEvent ι I O → HistoryEvent κ I O
  | .invoke id input => .invoke (f id) input
  | .respond id output => .respond (f id) output

def Operation.rename (f : ι → κ) (op : Operation ι I O) : Operation κ I O :=
  ⟨f op.id, op.input, op.output⟩

/-- Different operations of the history keep different names. -/
def Distinguishes (f : ι → κ) (h : List (HistoryEvent ι I O)) : Prop :=
  ∀ e ∈ h, ∀ e' ∈ h, f e.id = f e'.id → e.id = e'.id

section Rename

variable {f : ι → κ} {h : List (HistoryEvent ι I O)}

theorem invokedIds_rename (f : ι → κ) (h : List (HistoryEvent ι I O)) :
    invokedIds (h.map (.rename f)) = (invokedIds h).map f := by
  unfold invokedIds
  rw [List.filterMap_map, List.map_filterMap]
  refine List.filterMap_congr fun e _ ↦ ?_
  cases e <;> rfl

theorem respondedIds_rename (f : ι → κ) (h : List (HistoryEvent ι I O)) :
    respondedIds (h.map (.rename f)) = (respondedIds h).map f := by
  unfold respondedIds
  rw [List.filterMap_map, List.map_filterMap]
  refine List.filterMap_congr fun e _ ↦ ?_
  cases e <;> rfl

theorem mem_rename_invoke {a : κ} {input : I} :
    HistoryEvent.invoke a input ∈ h.map (HistoryEvent.rename f) ↔
      ∃ id, .invoke id input ∈ h ∧ f id = a := by
  rw [List.mem_map]
  constructor
  · rintro ⟨e, he, heq⟩
    cases e with
    | invoke id i =>
        cases heq
        exact ⟨id, he, rfl⟩
    | respond id o => cases heq
  · rintro ⟨id, hid, rfl⟩
    exact ⟨_, hid, rfl⟩

theorem mem_rename_respond {a : κ} {output : O} :
    HistoryEvent.respond a output ∈ h.map (HistoryEvent.rename f) ↔
      ∃ id, .respond id output ∈ h ∧ f id = a := by
  rw [List.mem_map]
  constructor
  · rintro ⟨e, he, heq⟩
    cases e with
    | invoke id i => cases heq
    | respond id o =>
        cases heq
        exact ⟨id, he, rfl⟩
  · rintro ⟨id, hid, rfl⟩
    exact ⟨_, hid, rfl⟩

theorem Precedes.of_rename {a b : κ}
    (hprec : Precedes (h.map (.rename f)) a b) :
    ∃ x y, Precedes h x y ∧ f x = a ∧ f y = b := by
  obtain ⟨h₁, h₂, output, input, hsplit, hrespond, hinvoke⟩ := hprec
  obtain ⟨l₁, l₂, rfl, rfl, rfl⟩ := List.map_eq_append_iff.mp hsplit
  obtain ⟨x, hx, rfl⟩ := mem_rename_respond.mp hrespond
  obtain ⟨y, hy, rfl⟩ := mem_rename_invoke.mp hinvoke
  exact ⟨x, y, ⟨l₁, l₂, output, input, rfl, hx, hy⟩, rfl, rfl⟩

/-- A map is injective on a list of names of the history. -/
theorem Distinguishes.nodup_map (hf : Distinguishes f h) {ids : List ι}
    (hids : ∀ id ∈ ids, ∃ e ∈ h, e.id = id) (hnodup : ids.Nodup) :
    (ids.map f).Nodup := by
  refine List.Nodup.map_on (fun x hx y hy heq ↦ ?_) hnodup
  obtain ⟨e, he, rfl⟩ := hids x hx
  obtain ⟨e', he', rfl⟩ := hids y hy
  exact hf e he e' he' heq

theorem Complete.rename (hc : Complete h) (hf : Distinguishes f h) :
    Complete (h.map (.rename f)) where
  invokes := by
    rw [invokedIds_rename]
    refine hf.nodup_map (fun id hid ↦ ?_) hc.invokes
    obtain ⟨input, hmem⟩ := mem_invokedIds.mp hid
    exact ⟨_, hmem, rfl⟩
  responds := by
    rw [respondedIds_rename]
    refine hf.nodup_map (fun id hid ↦ ?_) hc.responds
    obtain ⟨output, hmem⟩ := mem_respondedIds.mp hid
    exact ⟨_, hmem, rfl⟩
  ordered := by
    intro h₁ h₂ a output hsplit
    obtain ⟨l₁, l₂, rfl, rfl, hrest⟩ := List.map_eq_append_iff.mp hsplit
    obtain ⟨e, l₃, rfl, he, rfl⟩ := List.map_eq_cons_iff.mp hrest
    cases e with
    | invoke id input => cases he
    | respond id o =>
        cases he
        rw [invokedIds_rename]
        exact List.mem_map_of_mem (hc.ordered _ _ id _ rfl)
  responded := by
    rw [invokedIds_rename, respondedIds_rename]
    intro a ha
    obtain ⟨id, hid, rfl⟩ := List.mem_map.mp ha
    exact List.mem_map_of_mem (hc.responded id hid)

theorem run_rename {m : SequentialModel St I O} (f : ι → κ) (st : St)
    (ops : List (Operation ι I O)) :
    m.run st (ops.map (.rename f)) = m.run st ops := by
  induction ops generalizing st with
  | nil => rfl
  | cons op ops ih =>
      rw [List.map_cons, SequentialModel.run, SequentialModel.run, ih]
      rfl

theorem Linearizable.rename {m : SequentialModel St I O}
    (hlin : Linearizable m h) (hf : Distinguishes f h) :
    Linearizable m (h.map (.rename f)) := by
  obtain ⟨ops, st, hops⟩ := hlin
  have hids : (ops.map (.rename f)).map Operation.id =
      (ops.map Operation.id).map f := by
    rw [List.map_map, List.map_map]
    rfl
  refine ⟨ops.map (.rename f), st, ?_, ?_, ?_, ?_, ?_⟩
  · rw [hids]
    refine hf.nodup_map (fun id hid ↦ ?_) hops.nodup
    obtain ⟨op, hop, rfl⟩ := List.mem_map.mp hid
    exact ⟨_, hops.invoked op hop, rfl⟩
  · intro op' hop'
    obtain ⟨op, hop, rfl⟩ := List.mem_map.mp hop'
    exact mem_rename_invoke.mpr ⟨op.id, hops.invoked op hop, rfl⟩
  · intro a output hrespond
    obtain ⟨id, hid, rfl⟩ := mem_rename_respond.mp hrespond
    obtain ⟨input, hop⟩ := hops.completed id output hid
    exact ⟨input, List.mem_map.mpr ⟨_, hop, rfl⟩⟩
  · intro a b hprec hb
    obtain ⟨x, y, hxy, rfl, rfl⟩ := hprec.of_rename
    rw [hids] at hb
    obtain ⟨id, hid, heq⟩ := List.mem_map.mp hb
    obtain ⟨op, hop, rfl⟩ := List.mem_map.mp hid
    have hy : op.id = y := by
      obtain ⟨_, _, _, input, rfl, _, hinvoke⟩ := hxy
      exact hf _ (hops.invoked op hop) (.invoke y input)
        (List.mem_append_right _ hinvoke) heq
    obtain ⟨o₁, o₂, rfl, hx, hy'⟩ := hops.realTime x y hxy (hy ▸ hid)
    have hname : ∀ {z : ι} {o : List (Operation ι I O)},
        z ∈ o.map Operation.id →
        f z ∈ (o.map (Operation.rename f)).map Operation.id := by
      intro z o hz
      obtain ⟨op, hop, rfl⟩ := List.mem_map.mp hz
      exact List.mem_map_of_mem (List.mem_map_of_mem hop)
    exact ⟨_, _, List.map_append, hname hx, hname hy'⟩
  · rw [run_rename]
    exact hops.legal

/-- Renaming changes nothing. -/
theorem linearizable_rename_iff {m : SequentialModel St I O}
    (hf : Distinguishes f h) :
    Linearizable m (h.map (.rename f)) ↔ Linearizable m h := by
  refine ⟨fun hlin ↦ ?_, fun hlin ↦ hlin.rename hf⟩
  classical
  -- The new names are taken back to the old ones.
  rcases h with _ | ⟨first, rest⟩
  · exact ⟨[], m.init, .empty m⟩
  obtain ⟨h, hh⟩ : ∃ h, h = first :: rest := ⟨_, rfl⟩
  rw [← hh] at hlin hf ⊢
  let g : κ → ι := fun a ↦
    ((h.find? fun e ↦ decide (f e.id = a)).map HistoryEvent.id).getD first.id
  have hg : ∀ e ∈ h, g (f e.id) = e.id := by
    intro e he
    cases hfind : h.find? fun x ↦ decide (f x.id = f e.id) with
    | none =>
        have hnone := List.find?_eq_none.mp hfind e he
        simp at hnone
    | some x =>
        have hx := List.find?_some hfind
        have hmem := List.mem_of_find?_eq_some hfind
        change ((h.find? fun x ↦ decide (f x.id = f e.id)).map
          HistoryEvent.id).getD first.id = e.id
        rw [hfind]
        exact hf x hmem e he (of_decide_eq_true hx)
  have hback : (h.map (HistoryEvent.rename f)).map (HistoryEvent.rename g) =
      h := by
    rw [List.map_map]
    conv_rhs => rw [← List.map_id h]
    refine List.map_congr_left fun e he ↦ ?_
    have hid := hg e he
    cases e with
    | invoke id input => exact congrArg (HistoryEvent.invoke · input) hid
    | respond id output => exact congrArg (HistoryEvent.respond · output) hid
  have hdist : Distinguishes g (h.map (HistoryEvent.rename f)) := by
    intro e he e' he' heq
    obtain ⟨x, hx, rfl⟩ := List.mem_map.mp he
    obtain ⟨x', hx', rfl⟩ := List.mem_map.mp he'
    have hname : ∀ y : HistoryEvent ι I O, (y.rename f).id = f y.id := by
      rintro (_ | _) <;> rfl
    rw [hname, hname] at heq ⊢
    rw [hg x hx, hg x' hx'] at heq
    rw [heq]
  have hlin' := hlin.rename hdist
  rwa [hback] at hlin'

end Rename

end DistLabs.Linearizability
