import DistLabs.Porcupine.Entries
import DistLabs.Support.TimedLinearizability

/-!
# Entries of timed operations

`makeEntries` sorts the calls and returns of a history by time.  In the history
of events that it makes, one operation precedes another exactly when it returned
at an earlier time than the other was called.
-/

namespace DistLabs.Porcupine

open Linearizability

variable {St I O : Type}

/-- What the log says about an operation. -/
def observed : Observation (Operation I O) I O ℤ where
  input := Operation.input
  output := Operation.output
  call := Operation.call
  ret := Operation.ret

section Collect

variable {history : List (Operation I O)} {e f : Entry I O} {op : Operation I O}

/-- The call entry of the operation with number `id`. -/
def callEntryOf (op : Operation I O) (id : ℕ) : Entry I O :=
  ⟨.callEntry, .input op.input, id, op.call, op.clientId⟩

/-- The return entry of the operation with number `id`. -/
def returnEntryOf (op : Operation I O) (id : ℕ) : Entry I O :=
  ⟨.returnEntry, .output op.output, id, op.ret, op.clientId⟩

theorem mem_collectEntries {k : ℕ} :
    e ∈ collectEntries k history ↔ ∃ j op, history[j]? = some op ∧
      (e = callEntryOf op (k + j) ∨ e = returnEntryOf op (k + j)) := by
  induction history generalizing k with
  | nil => simp [collectEntries]
  | cons first history ih =>
      rw [collectEntries, List.mem_cons, List.mem_cons, ih]
      constructor
      · rintro (rfl | rfl | ⟨j, op, hop, he⟩)
        · exact ⟨0, first, rfl, Or.inl rfl⟩
        · exact ⟨0, first, rfl, Or.inr rfl⟩
        · refine ⟨j + 1, op, hop, ?_⟩
          rwa [Nat.add_right_comm] at he
      · rintro ⟨j, op, hop, he⟩
        cases j with
        | zero =>
            obtain rfl := Option.some.inj hop
            exact he.imp id Or.inl
        | succ j =>
            refine Or.inr (Or.inr ⟨j, op, hop, ?_⟩)
            rwa [Nat.add_right_comm]

theorem filterMap_collectEntries_cons (k : ℕ) (op : Operation I O)
    (history : List (Operation I O)) :
    (collectEntries k (op :: history)).filterMap Entry.event =
      .invoke k op.input :: .respond k op.output ::
        (collectEntries (k + 1) history).filterMap Entry.event := rfl

/-- All operations are called, in the order of the log. -/
theorem invokedIds_collectEntries (k : ℕ) (history : List (Operation I O)) :
    invokedIds ((collectEntries k history).filterMap Entry.event) =
      List.range' k history.length := by
  induction history generalizing k with
  | nil => rfl
  | cons first history ih =>
      rw [filterMap_collectEntries_cons, List.length_cons, List.range'_succ,
        ← ih (k + 1)]
      rfl

theorem respondedIds_collectEntries (k : ℕ) (history : List (Operation I O)) :
    respondedIds ((collectEntries k history).filterMap Entry.event) =
      List.range' k history.length := by
  induction history generalizing k with
  | nil => rfl
  | cons first history ih =>
      rw [filterMap_collectEntries_cons, List.length_cons, List.range'_succ,
        ← ih (k + 1)]
      rfl

end Collect

section Sorted

variable {entries : List (Entry I O)} {e f : Entry I O}

/-- What is less comes first. -/
theorem exists_split_of_less
    (hsorted : entries.Pairwise fun a b ↦ less b a = false) (he : e ∈ entries)
    (hf : f ∈ entries) (hless : less e f = true) :
    ∃ l₁ l₂, entries = l₁ ++ l₂ ∧ e ∈ l₁ ∧ f ∈ l₂ := by
  obtain ⟨l₁, l₂, rfl⟩ := List.append_of_mem he
  refine ⟨l₁ ++ [e], l₂, by simp, by simp, ?_⟩
  rcases List.mem_append.mp hf with hf | hf
  · have hnot := (List.pairwise_append.mp hsorted).2.2 f hf e List.mem_cons_self
    cases hnot.symm.trans hless
  · rcases List.mem_cons.mp hf with rfl | hf
    · unfold less at hless
      rw [if_neg (not_not.mpr rfl), decide_eq_true_iff] at hless
      cases hless.1.symm.trans hless.2
    · exact hf

end Sorted

section MakeEntries

variable (byTime : ByTime I O) {history : List (Operation I O)}

/-- The events of the sorted entries. -/
def timedEvents (history : List (Operation I O)) : List (HistoryEvent ℕ I O) :=
  (makeEntries byTime history).filterMap Entry.event

theorem mem_makeEntries {e : Entry I O} :
    e ∈ makeEntries byTime history ↔ ∃ j op, history[j]? = some op ∧
      (e = callEntryOf op j ∨ e = returnEntryOf op j) := by
  rw [makeEntries, (byTime.perm _).mem_iff, mem_collectEntries]
  simp only [Nat.zero_add]

theorem perm_timedEvents (history : List (Operation I O)) :
    (timedEvents byTime history).Perm
    ((collectEntries 0 history).filterMap Entry.event) :=
  (byTime.perm _).filterMap _

theorem mem_timedEvents_invoke {id : ℕ} {i : I} :
    .invoke id i ∈ timedEvents byTime history ↔
      ∃ op, history[id]? = some op ∧ op.input = i := by
  unfold timedEvents
  rw [List.mem_filterMap]
  constructor
  · rintro ⟨e, he, hevent⟩
    obtain ⟨j, op, hop, rfl | rfl⟩ := (mem_makeEntries byTime).mp he
    · cases hevent
      exact ⟨op, hop, rfl⟩
    · cases hevent
  · rintro ⟨op, hop, rfl⟩
    exact ⟨callEntryOf op id,
      (mem_makeEntries byTime).mpr ⟨id, op, hop, Or.inl rfl⟩, rfl⟩

theorem mem_timedEvents_respond {id : ℕ} {o : O} :
    .respond id o ∈ timedEvents byTime history ↔
      ∃ op, history[id]? = some op ∧ op.output = o := by
  unfold timedEvents
  rw [List.mem_filterMap]
  constructor
  · rintro ⟨e, he, hevent⟩
    obtain ⟨j, op, hop, rfl | rfl⟩ := (mem_makeEntries byTime).mp he
    · cases hevent
    · cases hevent
      exact ⟨op, hop, rfl⟩
  · rintro ⟨op, hop, rfl⟩
    exact ⟨returnEntryOf op id,
      (mem_makeEntries byTime).mpr ⟨id, op, hop, Or.inr rfl⟩, rfl⟩

/-- A return is before a call of the same time only if it is earlier. -/
theorem precedes_timedEvents_iff {a b : ℕ} {op op' : Operation I O}
    (ha : history[a]? = some op) (hb : history[b]? = some op') :
    Precedes (timedEvents byTime history) a b ↔ op.ret < op'.call := by
  have hreturn : returnEntryOf op a ∈ makeEntries byTime history :=
    (mem_makeEntries byTime).mpr ⟨a, op, ha, Or.inr rfl⟩
  have hcall : callEntryOf op' b ∈ makeEntries byTime history :=
    (mem_makeEntries byTime).mpr ⟨b, op', hb, Or.inl rfl⟩
  have hsorted := byTime.sorted (collectEntries 0 history)
  constructor
  · rintro ⟨h₁, h₂, output, input, hsplit, hrespond, hinvoke⟩
    obtain ⟨l₁, l₂, hentries, rfl, rfl⟩ :=
      List.filterMap_eq_append_iff.mp hsplit
    obtain ⟨e, he, hevent⟩ := List.mem_filterMap.mp hrespond
    obtain ⟨f, hf, hevent'⟩ := List.mem_filterMap.mp hinvoke
    have he' : e = returnEntryOf op a := by
      obtain ⟨j, op₁, hop, rfl | rfl⟩ := (mem_makeEntries byTime).mp
        (hentries ▸ List.mem_append_left _ he)
      · cases hevent
      · cases hevent
        cases hop.symm.trans ha
        rfl
    have hf' : f = callEntryOf op' b := by
      obtain ⟨j, op₁, hop, rfl | rfl⟩ := (mem_makeEntries byTime).mp
        (hentries ▸ List.mem_append_right _ hf)
      · cases hevent'
        cases hop.symm.trans hb
        rfl
      · cases hevent'
    unfold makeEntries at hentries
    rw [hentries] at hsorted
    have hnot := (List.pairwise_append.mp hsorted).2.2 e he f hf
    rw [he', hf'] at hnot
    unfold less callEntryOf returnEntryOf at hnot
    dsimp only at hnot
    split at hnot
    · have hle := of_decide_eq_false hnot
      omega
    · simp at hnot
  · intro hlt
    have hless : less (returnEntryOf op a) (callEntryOf op' b) = true := by
      unfold less callEntryOf returnEntryOf
      rw [if_pos (ne_of_lt hlt)]
      exact decide_eq_true hlt
    obtain ⟨l₁, l₂, hentries, hl₁, hl₂⟩ :=
      exists_split_of_less hsorted hreturn hcall hless
    refine ⟨l₁.filterMap Entry.event, l₂.filterMap Entry.event, op.output,
      op'.input, ?_, List.mem_filterMap.mpr ⟨_, hl₁, rfl⟩,
      List.mem_filterMap.mpr ⟨_, hl₂, rfl⟩⟩
    rw [← List.filterMap_append, ← hentries]
    rfl

theorem complete_timedEvents (hcall : ∀ op ∈ history, op.call ≤ op.ret) :
    Complete (timedEvents byTime history) := by
  have hperm := perm_timedEvents byTime history
  have hinvoked : (invokedIds (timedEvents byTime history)).Perm
      (List.range' 0 history.length) := by
    rw [← invokedIds_collectEntries]
    exact hperm.filterMap _
  have hresponded : (respondedIds (timedEvents byTime history)).Perm
      (List.range' 0 history.length) := by
    rw [← respondedIds_collectEntries]
    exact hperm.filterMap _
  refine ⟨hinvoked.nodup_iff.mpr List.nodup_range',
    hresponded.nodup_iff.mpr List.nodup_range', ?_,
    fun id hid ↦ hresponded.mem_iff.mpr (hinvoked.mem_iff.mp hid)⟩
  intro h₁ h₂ id output hsplit
  have hmem : .respond id output ∈ timedEvents byTime history := by
    rw [hsplit]
    exact List.mem_append_right _ List.mem_cons_self
  obtain ⟨op, hop, rfl⟩ := (mem_timedEvents_respond byTime).mp hmem
  have hless : less (callEntryOf op id) (returnEntryOf op id) = true := by
    have hle := hcall op (List.mem_of_getElem? hop)
    unfold less callEntryOf returnEntryOf
    dsimp only
    split
    · exact decide_eq_true (by omega)
    · simp
  obtain ⟨l₁, l₂, hentries, hl₁, hl₂⟩ := exists_split_of_less
    (byTime.sorted (collectEntries 0 history))
    ((mem_makeEntries byTime).mpr ⟨id, op, hop, Or.inl rfl⟩)
    ((mem_makeEntries byTime).mpr ⟨id, op, hop, Or.inr rfl⟩) hless
  have hevents : timedEvents byTime history =
      l₁.filterMap Entry.event ++ l₂.filterMap Entry.event := by
    rw [← List.filterMap_append, ← hentries]
    rfl
  have hcalled : id ∈ invokedIds (l₁.filterMap Entry.event) :=
    mem_invokedIds.mpr ⟨op.input, List.mem_filterMap.mpr ⟨_, hl₁, rfl⟩⟩
  have hreturned : .respond id op.output ∈ l₂.filterMap Entry.event :=
    List.mem_filterMap.mpr ⟨_, hl₂, rfl⟩
  -- The split is not before the call, since there is only one return.
  rcases List.append_eq_append_iff.mp (hsplit.symm.trans hevents) with
    ⟨mid, hmid, hrest⟩ | ⟨mid, rfl, -⟩
  · cases mid with
    | nil =>
        rw [List.append_nil] at hmid
        rwa [← hmid]
    | cons ev mid =>
        obtain ⟨rfl, -⟩ := List.cons.inj hrest
        have hnodup := hresponded.nodup_iff.mpr List.nodup_range'
        rw [hevents, respondedIds, List.filterMap_append] at hnodup
        refine absurd (mem_respondedIds.mpr ⟨op.output, hreturned⟩)
          (List.disjoint_of_nodup_append hnodup ?_)
        refine mem_respondedIds.mpr ⟨op.output, ?_⟩
        rw [hmid]
        exact List.mem_append_right _ List.mem_cons_self
  · rw [invokedIds, List.filterMap_append]
    exact List.mem_append_left _ hcalled

theorem encodes_makeEntries (hcall : ∀ op ∈ history, op.call ≤ op.ret) :
    Encodes (makeEntries byTime history) (timedEvents byTime history) where
  events := by
    have hevent : ∀ e ∈ makeEntries byTime history, e.event.isSome := by
      intro e he
      obtain ⟨j, op, _, rfl | rfl⟩ := (mem_makeEntries byTime).mp he <;> rfl
    have hall : ∀ l : List (Entry I O), (∀ e ∈ l, e.event.isSome) →
        l.map Entry.event = (l.filterMap Entry.event).map some := by
      intro l
      induction l with
      | nil => exact fun _ ↦ rfl
      | cons e l ih =>
          intro hl
          obtain ⟨ev, hev⟩ :=
            Option.isSome_iff_exists.mp (hl e List.mem_cons_self)
          rw [List.map_cons, List.filterMap_cons_some hev, List.map_cons,
            hev, ih fun e he ↦ hl e (List.mem_cons_of_mem _ he)]
    exact hall _ hevent
  complete := complete_timedEvents byTime hcall
  id_lt := by
    have hc := complete_timedEvents byTime hcall
    have hlength : (timedEvents byTime history).length / 2 =
        history.length := by
      have hperm : (invokedIds (timedEvents byTime history)).Perm
          (List.range' 0 history.length) := by
        rw [← invokedIds_collectEntries]
        exact (perm_timedEvents byTime history).filterMap _
      rw [← hc.length_invokedIds, hperm.length_eq, List.length_range']
    intro e he
    rw [hlength]
    cases e with
    | invoke id i =>
        obtain ⟨op, hop, _⟩ := (mem_timedEvents_invoke byTime).mp he
        exact (List.getElem?_eq_some_iff.mp hop).1
    | respond id o =>
        obtain ⟨op, hop, _⟩ := (mem_timedEvents_respond byTime).mp he
        exact (List.getElem?_eq_some_iff.mp hop).1

theorem reports_timedEvents (hcall : ∀ op ∈ history, op.call ≤ op.ret) :
    Reports (observed.comap Prod.fst) Prod.snd (timedEvents byTime history)
      history.zipIdx where
  complete := complete_timedEvents byTime hcall
  nodup := by
    rw [List.zipIdx_map_snd]
    exact List.nodup_range'
  invoked := by
    rintro ⟨op, id⟩ hop
    exact (mem_timedEvents_invoke byTime).mpr
      ⟨op, List.mem_zipIdx_iff_getElem?.mp hop, rfl⟩
  responded := by
    rintro ⟨op, id⟩ hop
    exact (mem_timedEvents_respond byTime).mpr
      ⟨op, List.mem_zipIdx_iff_getElem?.mp hop, rfl⟩
  all := by
    intro id i hinvoke
    obtain ⟨op, hop, _⟩ := (mem_timedEvents_invoke byTime).mp hinvoke
    exact ⟨(op, id), List.mem_zipIdx_iff_getElem?.mpr hop, rfl⟩

/-- The events that the checker sees are linearizable exactly when some order
explains the log. -/
theorem linearizable_timedEvents_iff {m : SequentialModel St I O}
    (hcall : ∀ op ∈ history, op.call ≤ op.ret) :
    Linearizable m (timedEvents byTime history) ↔
      TimedLinearizable m observed history := by
  have hr := reports_timedEvents byTime hcall
  have htime : ∀ x ∈ history.zipIdx, ∀ y ∈ history.zipIdx,
      (Precedes (timedEvents byTime history) x.2 y.2 ↔
        x.1.ret < y.1.call) := fun x hx y hy ↦
    precedes_timedEvents_iff byTime (List.mem_zipIdx_iff_getElem?.mp hx)
      (List.mem_zipIdx_iff_getElem?.mp hy)
  have hmap : history.zipIdx.map Prod.fst = history :=
    List.zipIdx_map_fst 0 history
  conv_rhs => rw [← hmap]
  rw [timedLinearizable_map]
  exact ⟨hr.timedLinearizable fun x hx y hy ↦ (htime x hx y hy).mpr,
    hr.linearizable fun x hx y hy ↦ (htime x hx y hy).mp⟩

end MakeEntries

end DistLabs.Porcupine
