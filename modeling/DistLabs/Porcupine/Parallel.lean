import DistLabs.Porcupine.Checker
import Mathlib.Data.List.Dedup

/-!
# Checking partitions in parallel

`checkParallel` starts one goroutine for every partition and waits for their
results, for a timeout, or for the first result that is not ok.  The goroutines
share a flag that asks them to stop, and send their results through a buffered
channel.
-/

namespace DistLabs.Porcupine

open Linearizability

variable {St I O : Type}

inductive CheckResult
  | unknown
  | ok
  | illegal
deriving DecidableEq

structure LinearizationInfo (I O : Type) where
  history : List (List (Entry I O))
  partialLinearizations : List (List (List ℕ))

/-- The arguments of `checkParallel`. -/
structure ParallelCall (St I O : Type) where
  model : FullModel St I O
  history : List (List (Entry I O))
  computeInfo : Bool
  timeout : ℤ

/-- A goroutine runs `checkSingle`, has its result, or has sent it. -/
inductive Worker (St I O : Type)
  | running (σ : CheckState St I O)
  | checked (ok : Bool) (longest : Longest)
  | sent (ok : Bool) (longest : Longest)

/-- Where `checkParallel` itself is: in its loop, waiting for the remaining
goroutines, or done. -/
inductive Main (I O : Type)
  | collecting (count : ℕ) (ok : Bool)
  | draining (count : ℕ) (ok timedOut : Bool)
  | returned (result : CheckResult) (info : LinearizationInfo I O)
  | panicked

structure ParallelState (St I O : Type) where
  worker : ℕ → Worker St I O
  results : List Bool
  kill : Bool
  main : Main I O

/-- What can happen next.  A goroutine reads the flag once in every round. -/
inductive ParallelAction
  | round (i : ℕ)
  | send (i : ℕ)
  | receive
  | timeout
  | drain
  | finish

/-- The pointer `longest[i]`, nil until it is set. -/
def Worker.longest : Worker St I O → Longest
  | .running _ => []
  | .checked _ longest => longest
  | .sent _ longest => longest

/-- The set of the recorded sequences; a map is gone through in any order. -/
def uniqueLinearizations (longest : Longest) : List (List ℕ) :=
  (longest.filterMap id).dedup

def checkResult (ok timedOut : Bool) : CheckResult :=
  if !ok then .illegal
  else if timedOut then .unknown
  else .ok

namespace ParallelCall

variable (call : ParallelCall St I O)

/-- The partition of goroutine `i`. -/
def subhistory (i : ℕ) : List (Entry I O) :=
  (call.history[i]?).getD []

def start : ParallelState St I O where
  worker := fun i ↦ .running (checkStart call.model (call.subhistory i))
  results := []
  kill := false
  main := .collecting 0 true

/-- After the loop. -/
def leaveLoop (count : ℕ) (ok timedOut : Bool) : Main I O :=
  if call.computeInfo then
    .draining count ok timedOut
  else
    .returned (checkResult ok timedOut) ⟨[], []⟩

/-- One round of the loop in goroutine `i`. -/
def round (s : ParallelState St I O) (i : ℕ) :
    Option (ParallelState St I O) :=
  if i < call.history.length then
    match s.worker i with
    | .running σ =>
        match checkRound call.model call.computeInfo
            (call.subhistory i).length s.kill σ with
        | none => some { s with main := .panicked }
        | some (.running σ) =>
            some { s with worker := Function.update s.worker i (.running σ) }
        | some (.finished ok longest) =>
            some { s with
              worker := Function.update s.worker i (.checked ok longest) }
    | _ => none
  else
    none

def send (s : ParallelState St I O) (i : ℕ) :
    Option (ParallelState St I O) :=
  if i < call.history.length then
    match s.worker i with
    | .checked ok longest =>
        some { s with
          worker := Function.update s.worker i (.sent ok longest)
          results := s.results ++ [ok] }
    | _ => none
  else
    none

/-- A result is received in the loop. -/
def receive (s : ParallelState St I O) : Option (ParallelState St I O) :=
  match s.main, s.results with
  | .collecting count ok, result :: results =>
      let count := count + 1
      let ok := ok && result
      if !ok && !call.computeInfo then
        some { s with
          results := results
          kill := true
          main := call.leaveLoop count ok false }
      else if count ≥ call.history.length then
        some { s with
          results := results
          main := call.leaveLoop count ok false }
      else
        some { s with results := results, main := .collecting count ok }
  | _, _ => none

/-- The timer exists only if the timeout is positive. -/
def expire (s : ParallelState St I O) : Option (ParallelState St I O) :=
  match s.main with
  | .collecting count ok =>
      if call.timeout > 0 then
        some { s with kill := true, main := call.leaveLoop count ok true }
      else
        none
  | _ => none

/-- A result is received after the loop. -/
def drain (s : ParallelState St I O) : Option (ParallelState St I O) :=
  match s.main, s.results with
  | .draining count ok timedOut, _ :: results =>
      if count < call.history.length then
        some { s with
          results := results
          main := .draining (count + 1) ok timedOut }
      else
        none
  | _, _ => none

/-- The partial linearizations of all goroutines. -/
def partialLinearizations (s : ParallelState St I O) :
    List (List (List ℕ)) :=
  (List.range call.history.length).map fun i ↦
    uniqueLinearizations (s.worker i).longest

def finish (s : ParallelState St I O) : Option (ParallelState St I O) :=
  match s.main with
  | .draining count ok timedOut =>
      if count < call.history.length then
        none
      else
        some { s with
          main := .returned (checkResult ok timedOut)
            { history := call.history
              partialLinearizations := call.partialLinearizations s } }
  | _ => none

def step (s : ParallelState St I O) :
    ParallelAction → Option (ParallelState St I O)
  | .round i => call.round s i
  | .send i => call.send s i
  | .receive => call.receive s
  | .timeout => call.expire s
  | .drain => call.drain s
  | .finish => call.finish s

end ParallelCall

end DistLabs.Porcupine
