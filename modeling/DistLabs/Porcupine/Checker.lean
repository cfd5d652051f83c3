import DistLabs.Porcupine.Bitset
import DistLabs.Porcupine.Nodes

/-!
# The checker of one history

`checkSingle` looks for an order of the operations that the model accepts.  It
goes through the linked list of entries from the front: a call may be next in
the order, a return that is reached means that one of the calls so far has to be
undone.  Whatever it has reached before is in a cache, and whatever it undoes is
recorded as a partial linearization of its operations.
-/

namespace DistLabs.Porcupine

open Linearizability

variable {St I O : Type}

structure CacheEntry (St : Type) where
  linearized : Bitset
  state : St

/-- `map[uint64][]cacheEntry`, a missing key being an empty list. -/
abbrev Cache (St : Type) := BitVec 64 → List (CacheEntry St)

def cacheContains (model : FullModel St I O) (cache : Cache St)
    (entry : CacheEntry St) : Bool :=
  (cache entry.linearized.hash).any fun elem ↦
    entry.linearized.equals elem.linearized &&
      model.equal entry.state elem.state

structure CallsEntry (St : Type) where
  entry : ℕ
  state : St

/-- For every operation the longest partial linearization that was recorded. -/
abbrev Longest := List (Option (List ℕ))

/-- The variables of `checkSingle`.  The last element of `calls` is the first
one here. -/
structure CheckState (St I O : Type) where
  heap : Heap I O
  entry : Option ℕ
  linearized : Bitset
  cache : Cache St
  calls : List (CallsEntry St)
  longest : Longest
  state : St

/-- One round of the loop goes on or returns. -/
inductive Round (St I O : Type)
  | running (σ : CheckState St I O)
  | finished (ok : Bool) (longest : Longest)

/-- `uint(entry.id)`; the head, whose number is -1, is never asked for. -/
def Heap.opId (heap : Heap I O) (p : ℕ) : ℕ :=
  (heap.id p).toNat

/-- The operations of `calls` in the order of the calls. -/
def callIds (heap : Heap I O) (calls : List (CallsEntry St)) : List ℕ :=
  (calls.map fun v ↦ heap.opId v.entry).reverse

/-- One round of the loop that records `seq` for the operations in it. -/
def recordOne (seq : List ℕ) (longest : Longest) (id : ℕ) : Option Longest :=
  match longest[id]? with
  | none => none
  | some none => some (longest.set id (some seq))
  | some (some old) =>
      if seq.length > old.length then some (longest.set id (some seq))
      else some longest

def recordLongest (seq : List ℕ) (longest : Longest) : Option Longest :=
  seq.foldlM (recordOne seq) longest

/-- The type assertions of `model.Step` panic on values of another type. -/
def FullModel.stepValues (model : FullModel St I O) (state : St) :
    Value I O → Value I O → Option (Bool × St)
  | .input i, .output o => some (model.step state i o)
  | _, _ => none

/-- The call at `p`, whose return is at `matching`, is tried. -/
def tryCall (model : FullModel St I O) (head p matching : ℕ)
    (σ : CheckState St I O) : Option (CheckState St I O) := do
  let (ok, newState) ← model.stepValues σ.state (σ.heap.value p)
    (σ.heap.value matching)
  if ok then
    let newLinearized ← σ.linearized.set (σ.heap.opId p)
    let newCacheEntry : CacheEntry St := ⟨newLinearized, newState⟩
    if !cacheContains model σ.cache newCacheEntry then
      let hash := newLinearized.hash
      let heap ← σ.heap.lift p
      some
        { heap := heap
          entry := heap.next head
          linearized := newLinearized
          cache := Function.update σ.cache hash
            (σ.cache hash ++ [newCacheEntry])
          calls := ⟨p, σ.state⟩ :: σ.calls
          longest := σ.longest
          state := newState }
    else
      some { σ with entry := σ.heap.next p }
  else
    some { σ with entry := σ.heap.next p }

/-- A return is reached: the last call is undone. -/
def undoCall (computePartial : Bool) (σ : CheckState St I O) :
    Option (Round St I O) :=
  match σ.calls with
  | [] => some (.finished false σ.longest)
  | callsTop :: calls => do
      let longest ←
        if computePartial then
          recordLongest (callIds σ.heap σ.calls) σ.longest
        else
          some σ.longest
      let linearized ← σ.linearized.clear (σ.heap.opId callsTop.entry)
      let heap ← σ.heap.unlift callsTop.entry
      some (.running
        { heap := heap
          entry := heap.next callsTop.entry
          linearized := linearized
          cache := σ.cache
          calls := calls
          longest := longest
          state := callsTop.state })

/-- One round of the loop; `kill` is the flag as it is read in this round, and
`head` the address of `headEntry`.  A panic is `none`. -/
def checkRound (model : FullModel St I O) (computePartial : Bool) (head : ℕ)
    (kill : Bool) (σ : CheckState St I O) : Option (Round St I O) :=
  match σ.heap.next head with
  | none =>
      let seq := callIds σ.heap σ.calls
      some (.finished true (σ.longest.map fun _ ↦ some seq))
  | some _ =>
      if kill then
        some (.finished false σ.longest)
      else
        match σ.entry with
        | none => none
        | some p =>
            match σ.heap.matching p with
            | some matching =>
                (tryCall model head p matching σ).map .running
            | none => undoCall computePartial σ

/-- What `checkSingle` sets up before its loop.  The head is put behind the
addresses of the entries. -/
def checkStart (model : FullModel St I O) (history : List (Entry I O)) :
    CheckState St I O :=
  let linking := makeLinkedEntries history
  let n := linking.heap.length history.length linking.root / 2
  { heap := (linking.heap.alloc history.length .nil none
      (-1)).insertBefore history.length linking.root
    entry := linking.root
    linearized := newBitset n
    cache := fun _ ↦ []
    calls := []
    longest := List.replicate n none
    state := model.init }

/-- The loop for at most `fuel` rounds; `kill k` is the flag in round `k`. -/
def checkLoop (model : FullModel St I O) (computePartial : Bool) (head : ℕ)
    (kill : ℕ → Bool) : ℕ → ℕ → CheckState St I O → Option (Round St I O)
  | 0, _, σ => some (.running σ)
  | fuel + 1, k, σ =>
      match checkRound model computePartial head (kill k) σ with
      | none => none
      | some (.finished ok longest) => some (.finished ok longest)
      | some (.running σ) =>
          checkLoop model computePartial head kill fuel (k + 1) σ

def checkSingle (model : FullModel St I O) (history : List (Entry I O))
    (computePartial : Bool) (kill : ℕ → Bool) (fuel : ℕ) :
    Option (Round St I O) :=
  checkLoop model computePartial history.length kill fuel 0
    (checkStart model history)

end DistLabs.Porcupine
