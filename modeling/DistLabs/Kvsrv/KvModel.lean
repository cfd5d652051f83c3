import DistLabs.Kvsrv.Service
import DistLabs.Porcupine.Operations
import Mathlib.Data.String.Basic

/-!
# Checking histories of the key/value service

`models.KvModel` describes the value of one key and partitions a history by
key.  What the checker answers is about all keys together.
-/

namespace DistLabs.Kvsrv

open Linearizability
open Porcupine (checkOperations CheckResult LinearizationInfo ParallelState
  ParallelCall ByTime observed)

/-- `sort.Strings`. -/
def sortStrings (keys : List String) : List String :=
  keys.insertionSort (· ≤ ·)

/-- `models.KvModel`. -/
def kvPorcupine : Porcupine.Model String KvInput KvOutput where
  toSequentialModel := kvModel
  partition := some (Porcupine.partitionByKey KvInput.key sortStrings)
  partitionEvent := none
  equal := none

section Check

variable {byTime : ByTime KvInput KvOutput}
  {history : List (Porcupine.Operation KvInput KvOutput)} {verbose : Bool}
  {timeout : ℤ} {visited : List (ParallelState String KvInput KvOutput)}
  {s : ParallelState String KvInput KvOutput} {result : CheckResult}
  {info : LinearizationInfo KvInput KvOutput}

theorem mem_of_mem_partition {p : List (Porcupine.Operation KvInput KvOutput)}
    (hp : p ∈ (Porcupine.fillDefault kvPorcupine).partition history)
    {op : Porcupine.Operation KvInput KvOutput} (hop : op ∈ p) :
    op ∈ history := by
  obtain ⟨k, _, rfl⟩ := List.mem_map.mp hp
  rw [Porcupine.groupByKey_eq] at hop
  exact List.mem_of_mem_filter hop

/-- All partitions are linearizable exactly when the whole history is. -/
theorem allLinearizable_kvPorcupine (byTime : ByTime KvInput KvOutput)
    (verbose : Bool) (timeout : ℤ)
    (hcall : ∀ op ∈ history, op.call ≤ op.ret) :
    (checkOperations byTime kvPorcupine history verbose
      timeout).AllLinearizable ↔
      TimedLinearizable kvModels observed history := by
  rw [Porcupine.allLinearizable_checkOperations byTime fun p hp op hop ↦
    hcall op (mem_of_mem_partition hp hop)]
  exact Porcupine.timedLinearizable_partitionByKey KvInput.key
    (fun keys ↦ List.perm_insertionSort _ keys) hcall

/-- What the checker has answered is right. -/
theorem returned_kvPorcupine (hcall : ∀ op ∈ history, op.call ≤ op.ret)
    (hrun : Run (checkOperations byTime kvPorcupine history verbose
      timeout).step (fun _ _ ↦ True) (checkOperations byTime kvPorcupine
        history verbose timeout).start visited s)
    (hreturned : s.main = .returned result info) :
    (checkOperations byTime kvPorcupine history verbose timeout).Returned
      result info :=
  ParallelCall.returned_of_run
    (Porcupine.encodes_checkOperations byTime fun _ hp op hop ↦
      hcall op (mem_of_mem_partition hp hop))
    (Porcupine.equalSound_fillDefault rfl) hrun hreturned

theorem partition_ne_nil (hne : history ≠ []) :
    (checkOperations byTime kvPorcupine history verbose timeout).history ≠
      [] := by
  obtain ⟨op, rest, rfl⟩ := List.exists_cons_of_ne_nil hne
  intro hnil
  have hkeys := List.map_eq_nil_iff.mp (List.map_eq_nil_iff.mp hnil)
  have hperm := List.perm_insertionSort (r := (· ≤ ·))
    ((op :: rest).map fun v ↦ v.input.key).dedup
  have hmem : op.input.key ∈ ((op :: rest).map fun v ↦ v.input.key).dedup :=
    List.mem_dedup.mpr (List.mem_map_of_mem List.mem_cons_self)
  rw [← hperm.mem_iff] at hmem
  change op.input.key ∈ sortStrings _ at hmem
  rw [hkeys] at hmem
  cases hmem

/-- The check of a history with at least one operation returns. -/
theorem returns_kvPorcupine (hne : history ≠ [])
    (hcall : ∀ op ∈ history, op.call ≤ op.ret)
    (hrun : Run (checkOperations byTime kvPorcupine history verbose
      timeout).step (fun _ _ ↦ True) (checkOperations byTime kvPorcupine
        history verbose timeout).start visited s) :
    visited.length ≤ (checkOperations byTime kvPorcupine history verbose
        timeout).enoughSteps + 1 ∧
      ((checkOperations byTime kvPorcupine history verbose timeout).Stuck s →
        ∃ result info, s.main = .returned result info) :=
  ParallelCall.returns_of_run
    (Porcupine.encodes_checkOperations byTime fun _ hp op hop ↦
      hcall op (mem_of_mem_partition hp hop))
    (Porcupine.equalSound_fillDefault rfl) (Or.inl (partition_ne_nil hne)) hrun

/-- Without a timeout `CheckOperations` decides whether a history with at least
one operation, on whatever keys, is linearizable: all runs are bounded, and at
their end the answer is there. -/
theorem checkOperations_decides (hne : history ≠ [])
    (hcall : ∀ op ∈ history, op.call ≤ op.ret)
    (hrun : Run (checkOperations byTime kvPorcupine history verbose
      0).step (fun _ _ ↦ True) (checkOperations byTime kvPorcupine history
        verbose 0).start visited s) :
    visited.length ≤ (checkOperations byTime kvPorcupine history verbose
        0).enoughSteps + 1 ∧
      ((checkOperations byTime kvPorcupine history verbose 0).Stuck s →
        ∃ result info, s.main = .returned result info ∧
          (result = .ok ↔ TimedLinearizable kvModels observed history) ∧
          (result = .illegal ↔
            ¬ TimedLinearizable kvModels observed history)) := by
  obtain ⟨hlength, hstop⟩ := returns_kvPorcupine hne hcall hrun
  refine ⟨hlength, fun hstuck ↦ ?_⟩
  obtain ⟨result, info, hreturned⟩ := hstop hstuck
  rw [← allLinearizable_kvPorcupine byTime verbose 0 hcall]
  exact ⟨result, info, hreturned,
    (returned_kvPorcupine hcall hrun hreturned).decides le_rfl⟩

/-- Two clients on two keys; the second append returns what it found. -/
def twoKeyLog : List (Porcupine.Operation KvInput KvOutput) :=
  [⟨0, ⟨1, "a", "x"⟩, 0, ⟨""⟩, 4⟩, ⟨1, ⟨3, "b", "y"⟩, 1, ⟨""⟩, 2⟩,
    ⟨1, ⟨3, "a", "z"⟩, 3, ⟨"x"⟩, 5⟩]

theorem checkOperations_decides_twoKeyLog :
    ∃ (visited : List (ParallelState String KvInput KvOutput))
      (s : ParallelState String KvInput KvOutput),
    ParallelCall.result? s = some .ok ∧
    visited.length ≤ (checkOperations .insertionSort kvPorcupine twoKeyLog false
        0).enoughSteps + 1 ∧
      ((checkOperations .insertionSort kvPorcupine twoKeyLog false 0).Stuck s →
        ∃ result info, s.main = .returned result info ∧
          (result = .ok ↔ TimedLinearizable kvModels observed twoKeyLog) ∧
          (result = .illegal ↔
            ¬ TimedLinearizable kvModels observed twoKeyLog)) := by
  obtain ⟨visited, s, hrun, hresult⟩ :=
    Run.exists_of_exec
      (checkOperations .insertionSort kvPorcupine twoKeyLog false 0).step
      (fun _ _ ↦ True)
      (checkOperations .insertionSort kvPorcupine twoKeyLog false 0).start
      [.round 0, .round 1, .round 0, .round 0, .round 1, .send 1, .receive,
        .send 0, .receive]
      (fun s ↦ ParallelCall.result? s = some .ok) (by decide +kernel)
  exact ⟨visited, s, hresult,
    checkOperations_decides (List.cons_ne_nil _ _) (by decide) hrun⟩

end Check

end DistLabs.Kvsrv
