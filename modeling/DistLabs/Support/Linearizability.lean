import Mathlib.Data.List.Basic
import Mathlib.Data.List.Nodup
import Mathlib.Logic.Function.Basic

/-!
# Linearizability

A history records when operations are invoked and when they respond.  It is
linearizable when its completed operations, and perhaps some pending ones, can
be put into one order that respects real time and that a sequential object
accepts.

A linearization is built along an execution: an operation enters it, or moves
to its end, whenever it is executed.  Only reads may move, since taking a read
out of a sequential execution changes nothing for the others.
-/

namespace DistLabs.Linearizability

variable {ι I O St K : Type*}

/-! ## Sequential objects -/

/-- An operation with its input and output. -/
structure Operation (ι I O : Type*) where
  id : ι
  input : I
  output : O

/-- A sequential object: `step` tells for a state, an input and an output
whether the output is right, and the next state. -/
structure SequentialModel (St I O : Type*) where
  init : St
  step : St → I → O → Bool × St

namespace SequentialModel

variable (m : SequentialModel St I O)

/-- The state after a sequence of operations, if all outputs are right. -/
def run : St → List (Operation ι I O) → Option St
  | st, [] => some st
  | st, op :: ops =>
      if (m.step st op.input op.output).1 then
        run (m.step st op.input op.output).2 ops
      else
        none

/-- Inputs that leave every state as it is. -/
def IsRead (i : I) : Prop :=
  ∀ st o, (m.step st i o).2 = st

/-- One object for every key. -/
def keyed [DecidableEq K] (key : I → K) : SequentialModel (K → St) I O where
  init := fun _ ↦ m.init
  step := fun st i o ↦
    ((m.step (st (key i)) i o).1,
      Function.update st (key i) (m.step (st (key i)) i o).2)

variable {m}

theorem run_concat {st st' st'' : St} {ops : List (Operation ι I O)}
    {op : Operation ι I O} (h : m.run st ops = some st')
    (hstep : m.step st' op.input op.output = (true, st'')) :
    m.run st (ops ++ [op]) = some st'' := by
  induction ops generalizing st with
  | nil =>
      obtain rfl := Option.some.inj h
      simp [run, hstep]
  | cons first ops ih =>
      rw [run] at h
      rw [List.cons_append, run]
      split at h
      · next hok =>
          rw [if_pos hok]
          exact ih h
      · cases h

/-- Reads can be taken out of an execution. -/
theorem run_filter {st st' : St} {ops : List (Operation ι I O)}
    {p : Operation ι I O → Bool} (h : m.run st ops = some st')
    (hread : ∀ op ∈ ops, p op = false → m.IsRead op.input) :
    m.run st (ops.filter p) = some st' := by
  induction ops generalizing st with
  | nil => exact h
  | cons op ops ih =>
      have hrest : ∀ op ∈ ops, p op = false → m.IsRead op.input :=
        fun op hop ↦ hread op (List.mem_cons_of_mem _ hop)
      rw [run] at h
      split at h
      · next hok =>
          have htail := ih h hrest
          cases hp : p op with
          | true => rwa [List.filter_cons_of_pos hp, run, if_pos hok]
          | false =>
              rw [hread op List.mem_cons_self hp] at htail
              rwa [List.filter_cons_of_neg (by simp [hp])]
      · cases h

theorem IsRead.keyed [DecidableEq K] {key : I → K} {i : I}
    (h : m.IsRead i) : (m.keyed key).IsRead i := by
  intro st o
  simp [SequentialModel.keyed, h (st (key i)) o]

end SequentialModel

/-! ## Histories -/

/-- What clients see of a concurrent execution. -/
inductive HistoryEvent (ι I O : Type*)
  | invoke (id : ι) (input : I)
  | respond (id : ι) (output : O)
deriving DecidableEq

/-- The operations that were invoked. -/
def invokedIds (h : List (HistoryEvent ι I O)) : List ι :=
  h.filterMap fun
    | .invoke id _ => some id
    | .respond _ _ => none

theorem mem_invokedIds {h : List (HistoryEvent ι I O)} {id : ι} :
    id ∈ invokedIds h ↔ ∃ input, .invoke id input ∈ h := by
  constructor
  · intro hmem
    obtain ⟨e, he, hid⟩ := List.mem_filterMap.mp hmem
    cases e with
    | invoke a input =>
        obtain rfl := Option.some.inj hid
        exact ⟨input, he⟩
    | respond a output => cases hid
  · rintro ⟨input, he⟩
    exact List.mem_filterMap.mpr ⟨_, he, rfl⟩

/-- Operation `a` has responded before `b` was invoked. -/
def Precedes (h : List (HistoryEvent ι I O)) (a b : ι) : Prop :=
  ∃ h₁ h₂ output input, h = h₁ ++ h₂ ∧ .respond a output ∈ h₁ ∧
    .invoke b input ∈ h₂

theorem Precedes.exists_respond {h : List (HistoryEvent ι I O)} {a b : ι}
    (hprec : Precedes h a b) : ∃ output, .respond a output ∈ h := by
  obtain ⟨h₁, h₂, output, input, rfl, hrespond, _⟩ := hprec
  exact ⟨output, List.mem_append_left _ hrespond⟩

theorem Precedes.of_concat {h : List (HistoryEvent ι I O)}
    {e : HistoryEvent ι I O} {a b : ι} (hprec : Precedes (h ++ [e]) a b) :
    Precedes h a b ∨
      (∃ input, e = .invoke b input) ∧ ∃ output, .respond a output ∈ h := by
  obtain ⟨h₁, h₂, output, input, hsplit, hrespond, hinvoke⟩ := hprec
  rcases List.eq_nil_or_concat h₂ with rfl | ⟨h₃, e', rfl⟩
  · simp at hinvoke
  · rw [List.concat_eq_append, ← List.append_assoc] at hsplit
    obtain ⟨rfl, hlast⟩ := List.append_inj' hsplit rfl
    obtain rfl : e = e' := by simpa using hlast
    rw [List.concat_eq_append, List.mem_append, List.mem_singleton] at hinvoke
    rcases hinvoke with hold | hnew
    · exact Or.inl ⟨h₁, h₃, output, input, rfl, hrespond, hold⟩
    · exact Or.inr ⟨⟨input, hnew.symm⟩, output,
        List.mem_append_left _ hrespond⟩

/-- Operation `a` stands before `b`. -/
def Before (ops : List (Operation ι I O)) (a b : ι) : Prop :=
  ∃ ops₁ ops₂, ops = ops₁ ++ ops₂ ∧ a ∈ ops₁.map Operation.id ∧
    b ∈ ops₂.map Operation.id

theorem Before.append {ops : List (Operation ι I O)} {a b : ι}
    (h : Before ops a b) (rest : List (Operation ι I O)) :
    Before (ops ++ rest) a b := by
  obtain ⟨ops₁, ops₂, rfl, ha, hb⟩ := h
  refine ⟨ops₁, ops₂ ++ rest, List.append_assoc _ _ _, ha, ?_⟩
  rw [List.map_append]
  exact List.mem_append_left _ hb

section Without

variable [DecidableEq ι]

/-- The operations other than `id`. -/
def without (id : ι) (ops : List (Operation ι I O)) :
    List (Operation ι I O) :=
  ops.filter fun op ↦ decide (op.id ≠ id)

theorem mem_without {id : ι} {ops : List (Operation ι I O)}
    {op : Operation ι I O} : op ∈ without id ops ↔ op ∈ ops ∧ op.id ≠ id := by
  simp [without]

theorem mem_map_without {id a : ι} {ops : List (Operation ι I O)} :
    a ∈ (without id ops).map Operation.id ↔
      a ∈ ops.map Operation.id ∧ a ≠ id := by
  constructor
  · intro h
    obtain ⟨op, hop, rfl⟩ := List.mem_map.mp h
    obtain ⟨hmem, hne⟩ := mem_without.mp hop
    exact ⟨List.mem_map_of_mem hmem, hne⟩
  · rintro ⟨h, hne⟩
    obtain ⟨op, hop, rfl⟩ := List.mem_map.mp h
    exact List.mem_map_of_mem (mem_without.mpr ⟨hop, hne⟩)

theorem Before.without {ops : List (Operation ι I O)} {a b id : ι}
    (h : Before ops a b) (ha : a ≠ id) (hb : b ≠ id) :
    Before (without id ops) a b := by
  obtain ⟨ops₁, ops₂, rfl, hmemA, hmemB⟩ := h
  refine ⟨Linearizability.without id ops₁, Linearizability.without id ops₂,
    List.filter_append _ _, ?_, ?_⟩
  · exact mem_map_without.mpr ⟨hmemA, ha⟩
  · exact mem_map_without.mpr ⟨hmemB, hb⟩

end Without

/-! ## Linearizations -/

/-- The order `ops` explains the history `h` and takes the object to `st`. -/
structure Linearization (m : SequentialModel St I O)
    (h : List (HistoryEvent ι I O)) (ops : List (Operation ι I O)) (st : St) :
    Prop where
  nodup : (ops.map Operation.id).Nodup
  invoked : ∀ op ∈ ops, .invoke op.id op.input ∈ h
  completed : ∀ id output, .respond id output ∈ h →
    ∃ input, ⟨id, input, output⟩ ∈ ops
  realTime : ∀ a b, Precedes h a b → b ∈ ops.map Operation.id →
    Before ops a b
  legal : m.run m.init ops = some st

/-- Some order of the completed operations and perhaps some pending ones
explains the history. -/
def Linearizable (m : SequentialModel St I O)
    (h : List (HistoryEvent ι I O)) : Prop :=
  ∃ ops st, Linearization m h ops st

namespace Linearization

variable {m : SequentialModel St I O} {h : List (HistoryEvent ι I O)}
  {ops : List (Operation ι I O)} {st st' : St} {id : ι} {input : I}
  {output : O}

theorem empty (m : SequentialModel St I O) :
    Linearization m ([] : List (HistoryEvent ι I O)) [] m.init where
  nodup := List.nodup_nil
  invoked := by simp
  completed := by simp
  realTime := by simp
  legal := rfl

/-- A new operation is invoked. -/
theorem invoke (hlin : Linearization m h ops st)
    (hfresh : ∀ i, .invoke id i ∉ h) :
    Linearization m (h ++ [.invoke id input]) ops st where
  nodup := hlin.nodup
  invoked := fun op hop ↦ List.mem_append_left _ (hlin.invoked op hop)
  completed := by
    intro a o hrespond
    refine hlin.completed a o ?_
    simpa using hrespond
  realTime := by
    intro a b hprec hb
    rcases hprec.of_concat with hold | ⟨⟨i, hnew⟩, _⟩
    · exact hlin.realTime a b hold hb
    · obtain ⟨op, hop, rfl⟩ := List.mem_map.mp hb
      obtain ⟨rfl, _⟩ : id = op.id ∧ input = i := by simpa using hnew
      exact absurd (hlin.invoked op hop) (hfresh _)
  legal := hlin.legal

/-- An operation responds with the output it has in the order. -/
theorem respond (hlin : Linearization m h ops st)
    (hmem : ⟨id, input, output⟩ ∈ ops) :
    Linearization m (h ++ [.respond id output]) ops st where
  nodup := hlin.nodup
  invoked := fun op hop ↦ List.mem_append_left _ (hlin.invoked op hop)
  completed := by
    intro a o hrespond
    rcases List.mem_append.mp hrespond with hold | hnew
    · exact hlin.completed a o hold
    · obtain ⟨rfl, rfl⟩ : a = id ∧ o = output := by simpa using hnew
      exact ⟨input, hmem⟩
  realTime := by
    intro a b hprec hb
    rcases hprec.of_concat with hold | ⟨⟨i, hnew⟩, _⟩
    · exact hlin.realTime a b hold hb
    · cases hnew
  legal := hlin.legal

/-- A pending operation is executed: it becomes the last one of the order.  If
it has been executed before, it is a read. -/
theorem execute [DecidableEq ι] (hlin : Linearization m h ops st)
    (hinvoked : .invoke id input ∈ h) (hpending : ∀ o, .respond id o ∉ h)
    (hread : ∀ op ∈ ops, op.id = id → m.IsRead op.input)
    (hstep : m.step st input output = (true, st')) :
    Linearization m h (without id ops ++ [⟨id, input, output⟩]) st' where
  nodup := by
    rw [List.map_append, List.nodup_append']
    refine ⟨?_, List.nodup_singleton _, ?_⟩
    · exact List.Nodup.sublist
        (List.Sublist.map _ (List.filter_sublist)) hlin.nodup
    · intro a ha hself
      obtain rfl : a = id := by simpa using hself
      exact (mem_map_without.mp ha).2 rfl
  invoked := by
    intro op hop
    rcases List.mem_append.mp hop with hold | hnew
    · exact hlin.invoked op (mem_without.mp hold).1
    · obtain rfl := List.mem_singleton.mp hnew
      exact hinvoked
  completed := by
    intro a o hrespond
    obtain ⟨i, hmem⟩ := hlin.completed a o hrespond
    have hne : a ≠ id := by
      rintro rfl
      exact hpending o hrespond
    exact ⟨i, List.mem_append_left _ (mem_without.mpr ⟨hmem, hne⟩)⟩
  realTime := by
    intro a b hprec hb
    obtain ⟨o, hresponded⟩ := hprec.exists_respond
    have hne : a ≠ id := by
      rintro rfl
      exact hpending o hresponded
    rw [List.map_append, List.mem_append] at hb
    rcases hb with hold | hself
    · obtain ⟨hmem, hbne⟩ := mem_map_without.mp hold
      exact ((hlin.realTime a b hprec hmem).without hne hbne).append _
    · obtain ⟨j, hmem⟩ := hlin.completed a o hresponded
      exact ⟨without id ops, [⟨id, input, output⟩], rfl,
        mem_map_without.mpr ⟨List.mem_map_of_mem hmem, hne⟩, hself⟩
  legal := by
    refine SequentialModel.run_concat (SequentialModel.run_filter hlin.legal
      ?_) hstep
    intro op hop hdrop
    exact hread op hop (by simpa using hdrop)

end Linearization

end DistLabs.Linearizability
