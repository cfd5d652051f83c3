import DistLabs.Support.LinearizationSearch
import Mathlib.Data.List.Sort

/-!
# Histories and entries of the checker

A history is a list of operations with the times of their call and return, or a
list of events.  The checker turns both into one list of entries, in which an
operation has a call entry and a later return entry.
-/

namespace DistLabs.Porcupine

open Linearizability

variable {St I O : Type}

/-- An operation that a client has logged, with the times of its call and its
return. -/
structure Operation (I O : Type) where
  clientId : ℤ
  input : I
  call : ℤ
  output : O
  ret : ℤ
deriving DecidableEq

inductive EventKind
  | callEvent
  | returnEvent
deriving DecidableEq

/-- What an `interface{}` of the checker holds. -/
inductive Value (I O : Type)
  | nil
  | input (i : I)
  | output (o : O)
deriving DecidableEq

structure Event (I O : Type) where
  clientId : ℤ
  kind : EventKind
  value : Value I O
  id : ℤ
deriving DecidableEq

/-- A model as it is given: the partitions and the equality may be nil. -/
structure Model (St I O : Type) extends SequentialModel St I O where
  partition : Option (List (Operation I O) → List (List (Operation I O)))
  partitionEvent : Option (List (Event I O) → List (List (Event I O)))
  equal : Option (St → St → Bool)

/-- A model without nil functions. -/
structure FullModel (St I O : Type) extends SequentialModel St I O where
  partition : List (Operation I O) → List (List (Operation I O))
  partitionEvent : List (Event I O) → List (List (Event I O))
  equal : St → St → Bool

def noPartition (history : List (Operation I O)) :
    List (List (Operation I O)) :=
  [history]

def noPartitionEvent (history : List (Event I O)) : List (List (Event I O)) :=
  [history]

def shallowEqual [DecidableEq St] (state1 state2 : St) : Bool :=
  decide (state1 = state2)

def fillDefault [DecidableEq St] (model : Model St I O) :
    FullModel St I O where
  toSequentialModel := model.toSequentialModel
  partition := model.partition.getD noPartition
  partitionEvent := model.partitionEvent.getD noPartitionEvent
  equal := model.equal.getD shallowEqual

/-! ## Entries -/

inductive EntryKind
  | callEntry
  | returnEntry
deriving DecidableEq

structure Entry (I O : Type) where
  kind : EntryKind
  value : Value I O
  id : ℕ
  time : ℤ
  clientId : ℤ
deriving DecidableEq

/-- `byTime.Less`: calls come before returns of the same time. -/
def less (a b : Entry I O) : Bool :=
  if a.time ≠ b.time then
    decide (a.time < b.time)
  else
    decide (a.kind = .callEntry ∧ b.kind = .returnEntry)

/-- `sort.Sort(byTime(entries))`, of which only the contract is known. -/
structure ByTime (I O : Type) where
  sort : List (Entry I O) → List (Entry I O)
  perm : ∀ entries, (sort entries).Perm entries
  sorted : ∀ entries, (sort entries).Pairwise fun a b ↦ less b a = false

/-- Entries that are not in the wrong order. -/
theorem less_eq_false_iff {a b : Entry I O} : less b a = false ↔
    a.time < b.time ∨
      (a.time = b.time ∧ (a.kind = .callEntry ∨ b.kind = .returnEntry)) := by
  unfold less
  split
  · rw [decide_eq_false_iff_not]
    omega
  · next htime =>
      have heq : b.time = a.time := not_not.mp htime
      rw [decide_eq_false_iff_not]
      cases a.kind <;> cases b.kind <;> simp [heq]

/-- The order by time, in which a call and a return of one time are sorted and
two calls are not. -/
def NotAfter (a b : Entry I O) : Prop :=
  less b a = false

instance : DecidableRel (NotAfter (I := I) (O := O)) :=
  fun a b ↦ inferInstanceAs (Decidable (less b a = false))

instance : IsTrans (Entry I O) NotAfter where
  trans := by
    intro a b c hab hbc
    unfold NotAfter at hab hbc ⊢
    rw [less_eq_false_iff] at hab hbc ⊢
    rcases hab with hab | ⟨hab, hkind⟩
    · rcases hbc with hbc | ⟨hbc, _⟩
      · exact Or.inl (hab.trans hbc)
      · exact Or.inl (hbc ▸ hab)
    · rcases hbc with hbc | ⟨hbc, hkind'⟩
      · exact Or.inl (hab ▸ hbc)
      · refine Or.inr ⟨hab.trans hbc, ?_⟩
        rcases hkind with hcall | hreturn
        · exact Or.inl hcall
        · refine Or.inr (hkind'.resolve_left ?_)
          rw [hreturn]
          exact EntryKind.noConfusion

instance : Std.Total (NotAfter (I := I) (O := O)) where
  total := by
    intro a b
    unfold NotAfter
    rw [less_eq_false_iff, less_eq_false_iff]
    rcases lt_trichotomy a.time b.time with hlt | heq | hgt
    · exact Or.inl (Or.inl hlt)
    · cases hkind : a.kind with
      | callEntry => exact Or.inl (Or.inr ⟨heq, Or.inl rfl⟩)
      | returnEntry => exact Or.inr (Or.inr ⟨heq.symm, Or.inr rfl⟩)
    · exact Or.inr (Or.inl hgt)

/-- Insertion sort keeps the contract of `sort.Sort`. -/
def ByTime.insertionSort : ByTime I O where
  sort := List.insertionSort NotAfter
  perm := List.perm_insertionSort NotAfter
  sorted := List.pairwise_insertionSort NotAfter

/-- The loop of `makeEntries`; `id` is the number of the next operation. -/
def collectEntries : ℕ → List (Operation I O) → List (Entry I O)
  | _, [] => []
  | id, elem :: history =>
      ⟨.callEntry, .input elem.input, id, elem.call, elem.clientId⟩ ::
        ⟨.returnEntry, .output elem.output, id, elem.ret, elem.clientId⟩ ::
          collectEntries (id + 1) history

def makeEntries (byTime : ByTime I O) (history : List (Operation I O)) :
    List (Entry I O) :=
  byTime.sort (collectEntries 0 history)

/-- The loop of `renumber`; `m` is the renumbering so far and `id` the next
number. -/
def renumberFrom : (ℤ → Option ℕ) → ℕ → List (Event I O) → List (Event I O)
  | _, _, [] => []
  | m, id, v :: events =>
      match m v.id with
      | some r => { v with id := r } :: renumberFrom m id events
      | none =>
          { v with id := id } ::
            renumberFrom (Function.update m v.id (some id)) (id + 1) events

def renumber (events : List (Event I O)) : List (Event I O) :=
  renumberFrom (fun _ ↦ none) 0 events

/-- Numbers are not negative after `renumber`; the index is the time. -/
def convertEntries (events : List (Event I O)) : List (Entry I O) :=
  events.zipIdx.map fun (elem, i) ↦
    { kind := if elem.kind = .returnEvent then .returnEntry else .callEntry
      value := elem.value
      id := elem.id.toNat
      time := i
      clientId := elem.clientId }

/-! ## Entries as events of a history -/

/-- The event that an entry stands for, if its value fits its kind. -/
def Entry.event (e : Entry I O) : Option (HistoryEvent ℕ I O) :=
  match e.kind, e.value with
  | .callEntry, .input i => some (.invoke e.id i)
  | .returnEntry, .output o => some (.respond e.id o)
  | _, _ => none

/-- The events that entries stand for. -/
def eventsOf (entries : List (Entry I O)) : List (HistoryEvent ℕ I O) :=
  entries.filterMap Entry.event

/-- The entries stand for a complete history of operations that are numbered
from zero on. -/
structure Encodes (entries : List (Entry I O))
    (h : List (HistoryEvent ℕ I O)) : Prop where
  events : entries.map Entry.event = h.map some
  complete : Complete h
  id_lt : ∀ e ∈ h, e.id < h.length / 2

namespace Encodes

variable {entries : List (Entry I O)} {h : List (HistoryEvent ℕ I O)}

theorem length_eq (henc : Encodes entries h) : entries.length = h.length := by
  simpa using congrArg List.length henc.events

theorem eventsOf_eq (henc : Encodes entries h) : eventsOf entries = h := by
  have hid : entries.filterMap Entry.event =
      (entries.map Entry.event).filterMap id := by
    rw [List.filterMap_map]
    rfl
  rw [eventsOf, hid, henc.events, List.filterMap_map]
  exact List.filterMap_some

theorem event_eq (henc : Encodes entries h) {p : ℕ} {e : Entry I O}
    (he : entries[p]? = some e) : ∃ ev, h[p]? = some ev ∧
      e.event = some ev := by
  have hevents := congrArg (fun l ↦ l[p]?) henc.events
  simp only [List.getElem?_map, he, Option.map_some] at hevents
  cases hev : h[p]? with
  | none =>
      rw [hev] at hevents
      cases hevents
  | some ev =>
      rw [hev] at hevents
      exact ⟨ev, rfl, Option.some.inj hevents⟩

end Encodes

theorem Entry.event_eq_invoke {e : Entry I O} {id : ℕ} {i : I}
    (h : e.event = some (.invoke id i)) :
    e.kind = .callEntry ∧ e.value = .input i ∧ e.id = id := by
  unfold Entry.event at h
  split at h
  · next hkind hvalue =>
      cases h
      exact ⟨hkind, hvalue, rfl⟩
  · cases h
  · cases h

theorem Entry.event_eq_respond {e : Entry I O} {id : ℕ} {o : O}
    (h : e.event = some (.respond id o)) :
    e.kind = .returnEntry ∧ e.value = .output o ∧ e.id = id := by
  unfold Entry.event at h
  split at h
  · cases h
  · next hkind hvalue =>
      cases h
      exact ⟨hkind, hvalue, rfl⟩
  · cases h

end DistLabs.Porcupine
