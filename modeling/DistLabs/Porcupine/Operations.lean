import DistLabs.Porcupine.EventEntries
import DistLabs.Porcupine.ParallelSound
import DistLabs.Porcupine.TimedEntries

/-!
# Checking whole histories

`checkOperations` and `checkEvents` split a history into partitions, make
entries of each and have them checked in parallel.  For a model that partitions
its operations by key, the answer is about the operations on all keys together.
-/

namespace DistLabs.Porcupine

open Linearizability

variable {St I O : Type}

/-! ## The two checks -/

/-- The call of `checkParallel` by `checkOperations`. -/
def checkOperations [DecidableEq St] (byTime : ByTime I O)
    (model : Model St I O) (history : List (Operation I O)) (verbose : Bool)
    (timeout : ℤ) : ParallelCall St I O :=
  let model := fillDefault model
  { model := model
    history := (model.partition history).map (makeEntries byTime)
    computeInfo := verbose
    timeout := timeout }

/-- The call of `checkParallel` by `checkEvents`. -/
def checkEvents [DecidableEq St] (model : Model St I O)
    (history : List (Event I O)) (verbose : Bool) (timeout : ℤ) :
    ParallelCall St I O :=
  let model := fillDefault model
  { model := model
    history := (model.partitionEvent history).map fun subhistory ↦
      convertEntries (renumber subhistory)
    computeInfo := verbose
    timeout := timeout }

/-! ## Partition by key -/

section Keyed

variable {K : Type} [DecidableEq K]

/-- The loop of a partition by key: `m[key] = append(m[key], v)`. -/
def groupByKey (key : I → K) (history : List (Operation I O)) :
    K → List (Operation I O) :=
  history.foldl
    (fun m v ↦ Function.update m (key v.input) (m (key v.input) ++ [v]))
    fun _ ↦ []

theorem groupByKey_eq (key : I → K) (history : List (Operation I O)) (k : K) :
    groupByKey key history k =
      history.filter fun v ↦ decide (key v.input = k) := by
  have hfold : ∀ (m : K → List (Operation I O)),
      history.foldl (fun m v ↦ Function.update m (key v.input)
        (m (key v.input) ++ [v])) m k =
      m k ++ history.filter fun v ↦ decide (key v.input = k) := by
    induction history with
    | nil => exact fun m ↦ (List.append_nil _).symm
    | cons v history ih =>
        intro m
        rw [List.foldl_cons, ih]
        by_cases hk : key v.input = k
        · subst hk
          have hkeep : (v :: history).filter (fun w ↦
              decide (key w.input = key v.input)) =
              v :: history.filter fun w ↦ decide (key w.input = key v.input) :=
            List.filter_cons_of_pos (decide_eq_true rfl)
          rw [Function.update_self, hkeep, List.append_assoc]
          rfl
        · rw [Function.update_of_ne (fun heq ↦ hk heq.symm),
            List.filter_cons_of_neg (by simpa using hk)]
  exact hfold _

/-- The partition by key, with `keys` in some order. -/
def partitionByKey (key : I → K) (sortKeys : List K → List K)
    (history : List (Operation I O)) : List (List (Operation I O)) :=
  (sortKeys (history.map fun v ↦ key v.input).dedup).map
    (groupByKey key history)

/-- The partitions are explained exactly when the whole history is. -/
theorem timedLinearizable_partitionByKey {m : SequentialModel St I O}
    (key : I → K) {sortKeys : List K → List K}
    (hsort : ∀ keys, (sortKeys keys).Perm keys)
    {history : List (Operation I O)}
    (hcall : ∀ op ∈ history, op.call ≤ op.ret) :
    (∀ p ∈ partitionByKey key sortKeys history,
      TimedLinearizable m observed p) ↔
      TimedLinearizable (m.keyed key) observed history := by
  rw [timedLinearizable_keyed_iff (v := observed) hcall]
  unfold partitionByKey
  rw [List.forall_mem_map]
  constructor
  · intro hall k
    by_cases hk : k ∈ (history.map fun v ↦ key v.input).dedup
    · have hlin := hall k ((hsort _).mem_iff.mpr hk)
      rw [groupByKey_eq] at hlin
      exact hlin
    · have hempty : (history.filter fun v ↦ decide (key v.input = k)) =
          [] := by
        refine List.filter_eq_nil_iff.mpr fun v hv hkey ↦ hk ?_
        rw [← of_decide_eq_true hkey]
        exact List.mem_dedup.mpr
          (List.mem_map_of_mem (f := fun v ↦ key v.input) hv)
      change TimedLinearizable m observed
        (history.filter fun v ↦ decide (key v.input = k))
      rw [hempty]
      exact ⟨[], m.init, .refl _, List.Pairwise.nil, rfl⟩
  · intro hall k _
    rw [groupByKey_eq]
    exact hall k

end Keyed

/-! ## What the answers mean -/

section Answers

variable [DecidableEq St] {model : Model St I O} (byTime : ByTime I O)
  {verbose : Bool} {timeout : ℤ}

theorem allLinearizable_checkOperations {history : List (Operation I O)}
    (hcall : ∀ p ∈ (fillDefault model).partition history,
      ∀ op ∈ p, op.call ≤ op.ret) :
    (checkOperations byTime model history verbose timeout).AllLinearizable ↔
      ∀ p ∈ (fillDefault model).partition history,
        TimedLinearizable model.toSequentialModel observed p := by
  unfold ParallelCall.AllLinearizable checkOperations
  rw [List.forall_mem_map]
  refine forall₂_congr fun p hp ↦ ?_
  exact linearizable_timedEvents_iff byTime (hcall p hp)

theorem encodes_checkOperations {history : List (Operation I O)}
    (hcall : ∀ p ∈ (fillDefault model).partition history,
      ∀ op ∈ p, op.call ≤ op.ret) :
    ∀ entries ∈ (checkOperations byTime model history verbose
      timeout).history, Encodes entries (eventsOf entries) := by
  intro entries hentries
  obtain ⟨p, hp, rfl⟩ := List.mem_map.mp hentries
  exact encodes_makeEntries byTime (hcall p hp)

/-- What `Model` asks of `PartitionEvent`: the parts of a complete history are
complete histories, and it is linearizable exactly if all of them are. -/
def FullModel.PartitionEventSound (model : FullModel St I O) : Prop :=
  ∀ history g, Records history g →
    (∀ p ∈ model.partitionEvent history, ∃ h, Records p h) ∧
      ((∀ p ∈ model.partitionEvent history, ∀ h, Records p h →
          Linearizable model.toSequentialModel h) ↔
        Linearizable model.toSequentialModel g)

/-- A sequence of events records at most one history. -/
theorem Records.unique {events : List (Event I O)}
    {g g' : List (HistoryEvent ℤ I O)} (h : Records events g)
    (h' : Records events g') : g = g' :=
  List.map_injective_iff.mpr (Option.some_injective _)
    (h.events.symm.trans h'.events)

theorem partitionEventSound_fillDefault
    (hpartition : model.partitionEvent = none) :
    (fillDefault model).PartitionEventSound := by
  intro history g hrec
  have hsingle : (fillDefault model).partitionEvent history = [history] := by
    unfold fillDefault
    rw [hpartition]
    rfl
  rw [hsingle, List.forall_mem_singleton, List.forall_mem_singleton]
  refine ⟨⟨g, hrec⟩, fun hall ↦ hall g hrec, fun hlin h hrec' ↦ ?_⟩
  rwa [hrec'.unique hrec]

theorem encodes_checkEvents (verbose : Bool) (timeout : ℤ)
    {history : List (Event I O)} {g : List (HistoryEvent ℤ I O)}
    (hrec : Records history g)
    (hpartition : (fillDefault model).PartitionEventSound) :
    ∀ entries ∈ (checkEvents model history verbose timeout).history,
      Encodes entries (eventsOf entries) := by
  intro entries hentries
  obtain ⟨p, hp, rfl⟩ := List.mem_map.mp hentries
  obtain ⟨h, hpart⟩ := (hpartition history g hrec).1 p hp
  obtain ⟨f, _, henc⟩ := hpart.encodes
  rwa [henc.eventsOf_eq]

theorem allLinearizable_checkEvents (verbose : Bool) (timeout : ℤ)
    {history : List (Event I O)} {g : List (HistoryEvent ℤ I O)}
    (hrec : Records history g)
    (hpartition : (fillDefault model).PartitionEventSound) :
    (checkEvents model history verbose timeout).AllLinearizable ↔
      Linearizable model.toSequentialModel g := by
  obtain ⟨hparts, hiff⟩ := hpartition history g hrec
  refine Iff.trans ?_ hiff
  unfold ParallelCall.AllLinearizable checkEvents
  rw [List.forall_mem_map]
  refine forall₂_congr fun p hp ↦ ?_
  obtain ⟨h, hpart⟩ := hparts p hp
  obtain ⟨f, hdist, henc⟩ := hpart.encodes
  rw [henc.eventsOf_eq, linearizable_rename_iff hdist]
  refine ⟨fun hlin h' hpart' ↦ ?_, fun hall ↦ hall h hpart⟩
  rwa [hpart'.unique hpart]

/-- Without a timeout `CheckEvents` decides whether a complete history of events
is linearizable, whatever numbers its operations have: all runs are bounded, and
at their end the answer is there.  The functions of the model keep their
contracts, and there is at least one partition. -/
theorem checkEvents_decides {history : List (Event I O)}
    {g : List (HistoryEvent ℤ I O)} {visited : List (ParallelState St I O)}
    {s : ParallelState St I O} (hrec : Records history g)
    (hpartition : (fillDefault model).PartitionEventSound)
    (hequal : (fillDefault model).EqualSound)
    (hparts : (fillDefault model).partitionEvent history ≠ [])
    (hrun : Run (checkEvents model history verbose 0).step (fun _ _ ↦ True)
      (checkEvents model history verbose 0).start visited s) :
    visited.length ≤ (checkEvents model history verbose 0).enoughSteps + 1 ∧
      ((checkEvents model history verbose 0).Stuck s →
        ∃ result info, s.main = .returned result info ∧
          (result = .ok ↔ Linearizable model.toSequentialModel g) ∧
          (result = .illegal ↔ ¬ Linearizable model.toSequentialModel g)) := by
  have hencodes := encodes_checkEvents verbose 0 hrec hpartition
  have hpartitions : (checkEvents model history verbose 0).history ≠ [] :=
    fun hnil ↦ hparts (List.map_eq_nil_iff.mp hnil)
  obtain ⟨hlength, hstop⟩ :=
    ParallelCall.returns_of_run hencodes hequal (Or.inl hpartitions) hrun
  refine ⟨hlength, fun hstuck ↦ ?_⟩
  obtain ⟨result, info, hreturned⟩ := hstop hstuck
  have hright := ParallelCall.returned_of_run hencodes hequal hrun hreturned
  rw [← allLinearizable_checkEvents verbose 0 hrec hpartition]
  exact ⟨result, info, hreturned, hright.decides le_rfl⟩

end Answers

/-- The events of `registerLog` with other numbers. -/
def registerEvents : List (Event (Option ℕ) ℕ) :=
  [⟨0, .callEvent, .input none, 7⟩, ⟨1, .callEvent, .input (some 2), 5⟩,
    ⟨1, .returnEvent, .output 0, 5⟩, ⟨2, .callEvent, .input (some 1), 3⟩,
    ⟨2, .returnEvent, .output 0, 3⟩, ⟨0, .returnEvent, .output 2, 7⟩]

theorem records_registerEvents : Records registerEvents
    ((timedEvents .insertionSort registerLog).map
      (.rename fun n : ℕ ↦ 7 - 2 * (n : ℤ))) where
  events := by decide
  complete := by
    refine (complete_timedEvents .insertionSort (by decide)).rename ?_
    intro e _ e' _ heq
    dsimp only at heq
    omega

theorem checkEvents_decides_register :
    ∃ (visited : List (ParallelState ℕ (Option ℕ) ℕ))
      (s : ParallelState ℕ (Option ℕ) ℕ),
    ParallelCall.result? s = some .ok ∧
    visited.length ≤ (checkEvents register registerEvents false
      0).enoughSteps + 1 ∧
      ((checkEvents register registerEvents false 0).Stuck s →
        ∃ result info, s.main = .returned result info ∧
          (result = .ok ↔ Linearizable register.toSequentialModel
            ((timedEvents .insertionSort registerLog).map
              (.rename fun n : ℕ ↦ 7 - 2 * (n : ℤ)))) ∧
          (result = .illegal ↔ ¬ Linearizable register.toSequentialModel
            ((timedEvents .insertionSort registerLog).map
              (.rename fun n : ℕ ↦ 7 - 2 * (n : ℤ))))) := by
  obtain ⟨visited, s, hrun, hresult⟩ :=
    Run.exists_of_exec (checkEvents register registerEvents false 0).step
      (fun _ _ ↦ True) (checkEvents register registerEvents false 0).start
      [.round 0, .round 0, .round 0, .round 0, .round 0, .send 0, .receive]
      (fun s ↦ ParallelCall.result? s = some .ok) (by decide +kernel)
  exact ⟨visited, s, hresult,
    checkEvents_decides records_registerEvents
      (partitionEventSound_fillDefault rfl) (equalSound_fillDefault rfl)
      (List.cons_ne_nil _ _) hrun⟩

end DistLabs.Porcupine
