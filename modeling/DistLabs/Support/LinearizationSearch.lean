import DistLabs.Support.CachedSearch
import DistLabs.Support.Linearizability
import Mathlib.Data.List.Induction
import Mathlib.Data.List.Perm.Subperm
import Mathlib.Data.List.TakeWhile

/-!
# The search for a linearization

An order of the operations of a complete history is built one operation at a
time.  The next one may be any operation that is invoked before the first
response among those that are left.  The orders that can be built in this way
are the partial linearizations, and two of the same operations whose states
accept the same continuations need not be told apart.
-/

namespace DistLabs.Linearizability

variable {ι I O St : Type*}

/-! ## Complete histories -/

namespace HistoryEvent

def id : HistoryEvent ι I O → ι
  | .invoke id _ => id
  | .respond id _ => id

def isInvoke : HistoryEvent ι I O → Bool
  | .invoke _ _ => true
  | .respond _ _ => false

@[simp] theorem id_invoke (a : ι) (input : I) :
    (.invoke a input : HistoryEvent ι I O).id = a := rfl

@[simp] theorem id_respond (a : ι) (output : O) :
    (.respond a output : HistoryEvent ι I O).id = a := rfl

end HistoryEvent

/-- The operations that have responded. -/
def respondedIds (h : List (HistoryEvent ι I O)) : List ι :=
  h.filterMap fun
    | .invoke _ _ => none
    | .respond id _ => some id

theorem mem_respondedIds {h : List (HistoryEvent ι I O)} {id : ι} :
    id ∈ respondedIds h ↔ ∃ output, .respond id output ∈ h := by
  constructor
  · intro hmem
    obtain ⟨e, he, hid⟩ := List.mem_filterMap.mp hmem
    cases e with
    | invoke a input => cases hid
    | respond a output =>
        obtain rfl := Option.some.inj hid
        exact ⟨output, he⟩
  · rintro ⟨output, he⟩
    exact List.mem_filterMap.mpr ⟨_, he, rfl⟩

/-- Every operation is invoked once and then responds once. -/
structure Complete (h : List (HistoryEvent ι I O)) : Prop where
  invokes : (invokedIds h).Nodup
  responds : (respondedIds h).Nodup
  ordered : ∀ h₁ h₂ id output, h = h₁ ++ .respond id output :: h₂ →
    id ∈ invokedIds h₁
  responded : ∀ id ∈ invokedIds h, id ∈ respondedIds h

/-- Two events of which a map keeps the same element are the same when the kept
elements are different. -/
theorem eq_of_filterMap_nodup {α β : Type*} {f : α → Option β} {l : List α}
    (h : (l.filterMap f).Nodup) {x y : α} {b : β} (hx : x ∈ l) (hy : y ∈ l)
    (hfx : f x = some b) (hfy : f y = some b) : x = y := by
  induction l with
  | nil => cases hx
  | cons z l ih =>
      have hmem : ∀ w ∈ l, f w = some b → b ∈ l.filterMap f :=
        fun w hw hfw ↦ List.mem_filterMap.mpr ⟨w, hw, hfw⟩
      rcases List.mem_cons.mp hx with rfl | hxl
      · rcases List.mem_cons.mp hy with rfl | hyl
        · rfl
        · rw [List.filterMap_cons_some hfx, List.nodup_cons] at h
          exact absurd (hmem y hyl hfy) h.1
      · rcases List.mem_cons.mp hy with rfl | hyl
        · rw [List.filterMap_cons_some hfy, List.nodup_cons] at h
          exact absurd (hmem x hxl hfx) h.1
        · refine ih (h.sublist ?_) hxl hyl
          exact List.Sublist.filterMap f (List.sublist_cons_self z l)

namespace Complete

variable {h : List (HistoryEvent ι I O)} {a b : ι}

theorem input_eq (hc : Complete h) {i j : I} (hi : .invoke a i ∈ h)
    (hj : .invoke a j ∈ h) : i = j := by
  have heq := eq_of_filterMap_nodup hc.invokes hi hj rfl rfl
  cases heq
  rfl

theorem output_eq (hc : Complete h) {o p : O} (ho : .respond a o ∈ h)
    (hp : .respond a p ∈ h) : o = p := by
  have heq := eq_of_filterMap_nodup hc.responds ho hp rfl rfl
  cases heq
  rfl

/-- An operation is not invoked on both sides of a moment. -/
theorem not_invoked_twice (hc : Complete h) {h₁ h₂ : List (HistoryEvent ι I O)}
    (hsplit : h = h₁ ++ h₂) (h₁mem : a ∈ invokedIds h₁)
    (h₂mem : a ∈ invokedIds h₂) : False := by
  have hnodup := hc.invokes
  rw [hsplit, invokedIds, List.filterMap_append] at hnodup
  exact List.disjoint_of_nodup_append hnodup h₁mem h₂mem

theorem mem_invokedIds_of_responded (hc : Complete h)
    (ha : a ∈ respondedIds h) : a ∈ invokedIds h := by
  obtain ⟨output, hmem⟩ := mem_respondedIds.mp ha
  obtain ⟨h₁, h₂, hsplit⟩ := List.append_of_mem hmem
  obtain ⟨input, hinvoke⟩ :=
    mem_invokedIds.mp (hc.ordered h₁ h₂ a output hsplit)
  refine mem_invokedIds.mpr ⟨input, ?_⟩
  rw [hsplit]
  exact List.mem_append_left _ hinvoke

/-- Half of the events are invocations. -/
theorem length_invokedIds (hc : Complete h) :
    (invokedIds h).length = h.length / 2 := by
  have hsum : ∀ l : List (HistoryEvent ι I O),
      (invokedIds l).length + (respondedIds l).length = l.length := by
    intro l
    induction l with
    | nil => rfl
    | cons e l ih =>
        unfold invokedIds respondedIds at ih ⊢
        cases e with
        | invoke b input =>
            simp only [List.filterMap_cons, List.length_cons]
            omega
        | respond b output =>
            simp only [List.filterMap_cons, List.length_cons]
            omega
  have hle := (List.subperm_of_subset hc.invokes hc.responded).length_le
  have hge := (List.subperm_of_subset hc.responds fun _ hb ↦
    hc.mem_invokedIds_of_responded hb).length_le
  have htotal := hsum h
  omega

/-- No operation responds before it is invoked. -/
theorem not_precedes_self (hc : Complete h) : ¬ Precedes h a a := by
  rintro ⟨h₁, h₂, output, input, hsplit, hrespond, hinvoke⟩
  obtain ⟨l₁, l₂, rfl⟩ := List.append_of_mem hrespond
  have hsplit' : h = l₁ ++ .respond a output :: (l₂ ++ h₂) := by
    simp [hsplit]
  refine hc.not_invoked_twice hsplit' (hc.ordered _ _ a output hsplit') ?_
  exact mem_invokedIds.mpr ⟨input, by simp [hinvoke]⟩

end Complete

/-! ## Partial linearizations -/

/-- Some operations of the history in an order that respects real time: what
precedes one of them stands before it. -/
structure PartialLinearization (m : SequentialModel St I O)
    (h : List (HistoryEvent ι I O)) (ops : List (Operation ι I O)) (st : St) :
    Prop where
  nodup : (ops.map Operation.id).Nodup
  invoked : ∀ op ∈ ops, .invoke op.id op.input ∈ h
  responded : ∀ op ∈ ops, .respond op.id op.output ∈ h
  realTime : ∀ a b, Precedes h a b → b ∈ ops.map Operation.id →
    Before ops a b
  legal : m.run m.init ops = some st

/-- The events of other operations. -/
def remaining [DecidableEq ι] (h : List (HistoryEvent ι I O))
    (done : List ι) : List (HistoryEvent ι I O) :=
  h.filter fun e ↦ decide (e.id ∉ done)

section Remaining

variable [DecidableEq ι] {h : List (HistoryEvent ι I O)} {done done' : List ι}
  {e : HistoryEvent ι I O} {a : ι}

theorem mem_remaining : e ∈ remaining h done ↔ e ∈ h ∧ e.id ∉ done := by
  simp [remaining]

theorem remaining_congr (hdone : ∀ id, id ∈ done ↔ id ∈ done') :
    remaining h done = remaining h done' := by
  refine List.filter_congr fun e _ ↦ ?_
  simp [hdone e.id]

theorem remaining_append (done : List ι) (a : ι) :
    remaining h (done ++ [a]) =
      (remaining h done).filter fun e ↦ decide (e.id ≠ a) := by
  unfold remaining
  rw [List.filter_filter]
  refine List.filter_congr fun e _ ↦ ?_
  simp [and_comm]

/-- The operations that may come next: those invoked before the first response
of what is left. -/
def candidates (h : List (HistoryEvent ι I O)) (done : List ι) : List ι :=
  ((remaining h done).takeWhile HistoryEvent.isInvoke).map HistoryEvent.id

theorem exists_of_mem_candidates (ha : a ∈ candidates h done) :
    a ∉ done ∧ ∃ input, .invoke a input ∈ h := by
  obtain ⟨e, he, rfl⟩ := List.mem_map.mp ha
  obtain ⟨hmem, hid⟩ := mem_remaining.mp (List.takeWhile_subset _ he)
  have hinvoke := List.mem_takeWhile_imp he
  cases e with
  | invoke b input => exact ⟨hid, input, hmem⟩
  | respond b output => cases hinvoke

/-- What precedes a candidate is done. -/
theorem mem_done_of_precedes (hc : Complete h) {b : ι}
    (hb : b ∈ candidates h done) (hprec : Precedes h a b) : a ∈ done := by
  obtain ⟨h₁, h₂, output, input, rfl, hrespond, hinvoke⟩ := hprec
  by_contra hnot
  obtain ⟨e, he, rfl⟩ := List.mem_map.mp hb
  -- The response stops `takeWhile` inside the first part.
  have hstop : (remaining (h₁ ++ h₂) done).takeWhile HistoryEvent.isInvoke =
      (remaining h₁ done).takeWhile HistoryEvent.isInvoke := by
    unfold remaining
    rw [List.filter_append, List.takeWhile_append, if_neg]
    intro hall
    have hin : HistoryEvent.respond a output ∈
        (h₁.filter fun e ↦ decide (e.id ∉ done)).takeWhile
          HistoryEvent.isInvoke := by
      rw [(List.takeWhile_prefix _).eq_of_length hall]
      exact mem_remaining.mpr ⟨hrespond, hnot⟩
    cases List.mem_takeWhile_imp hin
  rw [hstop] at he
  have hfirst := (mem_remaining.mp (List.takeWhile_subset _ he)).1
  have hkind := List.mem_takeWhile_imp he
  cases e with
  | invoke b i =>
      exact hc.not_invoked_twice rfl (mem_invokedIds.mpr ⟨i, hfirst⟩)
        (mem_invokedIds.mpr ⟨input, hinvoke⟩)
  | respond b o => cases hkind

/-- An operation all of whose predecessors are done is a candidate. -/
theorem mem_candidates_of_precedes {b : ι} {input : I}
    (hinvoke : .invoke b input ∈ h) (hb : b ∉ done)
    (hdone : ∀ a, Precedes h a b → a ∈ done) : b ∈ candidates h done := by
  obtain ⟨h₁, h₂, rfl⟩ := List.append_of_mem hinvoke
  refine List.mem_map.mpr ⟨.invoke b input, ?_, rfl⟩
  unfold remaining
  rw [List.filter_append, List.takeWhile_append_of_pos]
  · have hkeep : decide ((HistoryEvent.invoke b input : HistoryEvent ι I O).id
        ∉ done) = true := decide_eq_true hb
    rw [List.filter_cons, if_pos hkeep, List.takeWhile_cons_of_pos rfl]
    exact List.mem_append_right _ List.mem_cons_self
  · intro e he
    obtain ⟨hmem, hid⟩ := mem_remaining.mp he
    cases e with
    | invoke a i => rfl
    | respond a output =>
        exact absurd (hdone a ⟨h₁, .invoke b input :: h₂, output, input, rfl,
          hmem, List.mem_cons_self⟩) hid

end Remaining

/-! ## The search problem -/

section Search

variable [DecidableEq ι]

def inputOf (h : List (HistoryEvent ι I O)) (id : ι) : Option I :=
  h.findSome? fun
    | .invoke a input => if a = id then some input else none
    | .respond _ _ => none

def outputOf (h : List (HistoryEvent ι I O)) (id : ι) : Option O :=
  h.findSome? fun
    | .invoke _ _ => none
    | .respond a output => if a = id then some output else none

theorem mem_of_inputOf {h : List (HistoryEvent ι I O)} {id : ι} {input : I}
    (heq : inputOf h id = some input) : .invoke id input ∈ h := by
  obtain ⟨e, he, hsome⟩ := List.exists_of_findSome?_eq_some heq
  cases e with
  | invoke a i =>
      simp only at hsome
      split at hsome
      · next hid =>
          obtain rfl := Option.some.inj hsome
          rwa [← hid]
      · cases hsome
  | respond a o => cases hsome

theorem mem_of_outputOf {h : List (HistoryEvent ι I O)} {id : ι} {output : O}
    (heq : outputOf h id = some output) : .respond id output ∈ h := by
  obtain ⟨e, he, hsome⟩ := List.exists_of_findSome?_eq_some heq
  cases e with
  | invoke a i => cases hsome
  | respond a o =>
      simp only at hsome
      split at hsome
      · next hid =>
          obtain rfl := Option.some.inj hsome
          rwa [← hid]
      · cases hsome

theorem Complete.inputOf_eq {h : List (HistoryEvent ι I O)} (hc : Complete h)
    {id : ι} {input : I} (hmem : .invoke id input ∈ h) :
    inputOf h id = some input := by
  cases heq : inputOf h id with
  | none =>
      have hnone := List.findSome?_eq_none_iff.mp heq _ hmem
      simp at hnone
  | some i => rw [hc.input_eq hmem (mem_of_inputOf heq)]

theorem Complete.outputOf_eq {h : List (HistoryEvent ι I O)} (hc : Complete h)
    {id : ι} {output : O} (hmem : .respond id output ∈ h) :
    outputOf h id = some output := by
  cases heq : outputOf h id with
  | none =>
      have hnone := List.findSome?_eq_none_iff.mp heq _ hmem
      simp at hnone
  | some o => rw [hc.output_eq hmem (mem_of_outputOf heq)]

/-- An order of some operations and the state that it leads to. -/
structure Partial (ι I O St : Type*) where
  ops : List (Operation ι I O)
  st : St

namespace Partial

omit [DecidableEq ι] in
/-- The operations of the order. -/
def ids (c : Partial ι I O St) : List ι :=
  c.ops.map Operation.id

omit [DecidableEq ι] in
/-- Two orders of the same operations. -/
def SameOps (c d : Partial ι I O St) : Prop :=
  c.ids ⊆ d.ids ∧ d.ids ⊆ c.ids

instance (c d : Partial ι I O St) : Decidable (c.SameOps d) :=
  inferInstanceAs (Decidable (_ ∧ _))

omit [DecidableEq ι] in
theorem SameOps.mem_iff {c d : Partial ι I O St} (h : c.SameOps d) {id : ι} :
    id ∈ c.ids ↔ id ∈ d.ids :=
  ⟨fun hid ↦ h.1 hid, fun hid ↦ h.2 hid⟩

/-- The order with operation `id` at its end, if the object accepts it. -/
def extend (m : SequentialModel St I O) (h : List (HistoryEvent ι I O))
    (c : Partial ι I O St) (id : ι) : Option (Partial ι I O St) :=
  match inputOf h id, outputOf h id with
  | some input, some output =>
      if (m.step c.st input output).1 then
        some
          { ops := c.ops ++ [⟨id, input, output⟩]
            st := (m.step c.st input output).2 }
      else
        none
  | _, _ => none

end Partial

/-- The search for a linearization of `h`; `equal` compares states. -/
def linearizationSearch (m : SequentialModel St I O) (equal : St → St → Bool)
    (h : List (HistoryEvent ι I O)) : SearchProblem (Partial ι I O St) ι where
  moves c := candidates h c.ids
  apply c id := c.extend m h id
  goal c := (remaining h c.ids).isEmpty
  same c d := decide (c.SameOps d) && equal c.st d.st

variable {m : SequentialModel St I O} {equal : St → St → Bool}
  {h : List (HistoryEvent ι I O)} {c d : Partial ι I O St} {id : ι}

theorem Partial.extend_eq_some :
    c.extend m h id = some d ↔ ∃ input output,
      inputOf h id = some input ∧ outputOf h id = some output ∧
      m.step c.st input output = (true, d.st) ∧
      d.ops = c.ops ++ [⟨id, input, output⟩] := by
  unfold Partial.extend
  constructor
  · intro heq
    split at heq
    · next input output hin hout =>
        split at heq
        · next hok =>
            obtain rfl := Option.some.inj heq
            exact ⟨input, output, hin, hout, Prod.ext hok rfl, rfl⟩
        · cases heq
    · cases heq
  · rintro ⟨input, output, hin, hout, hstep, hops⟩
    rw [hin, hout]
    simp only [hstep, if_true]
    rw [← hops]

theorem Partial.ids_extend (hextend : c.extend m h id = some d) :
    d.ids = c.ids ++ [id] := by
  obtain ⟨input, output, _, _, _, hops⟩ := extend_eq_some.mp hextend
  simp [Partial.ids, hops]

omit [DecidableEq ι] in
theorem before_append_of_mem {ops : List (Operation ι I O)}
    {op : Operation ι I O} {a : ι} (ha : a ∈ ops.map Operation.id) :
    Before (ops ++ [op]) a op.id :=
  ⟨ops, [op], rfl, ha, List.mem_singleton.mpr rfl⟩

/-- The orders that the search can build are partial linearizations. -/
theorem PartialLinearization.of_reach (hc : Complete h)
    (hreach : Relation.ReflTransGen (linearizationSearch m equal h).Move
      ⟨[], m.init⟩ c) : PartialLinearization m h c.ops c.st := by
  induction hreach with
  | refl =>
      refine ⟨List.nodup_nil, ?_, ?_, ?_, rfl⟩
      · intro op hop
        cases hop
      · intro op hop
        cases hop
      · intro a b _ hb
        cases hb
  | @tail c d _ hmove ih =>
      obtain ⟨id, hid, happly⟩ := hmove
      obtain ⟨input, output, hin, hout, hstep, hops⟩ :=
        Partial.extend_eq_some.mp happly
      obtain ⟨hfresh, _⟩ := exists_of_mem_candidates hid
      rw [hops]
      refine ⟨?_, ?_, ?_, ?_, SequentialModel.run_concat ih.legal hstep⟩
      · rw [List.map_append, List.nodup_append']
        refine ⟨ih.nodup, List.nodup_singleton _, ?_⟩
        intro a ha hself
        obtain rfl : a = id := by simpa using hself
        exact hfresh ha
      · intro op hop
        rcases List.mem_append.mp hop with hold | hnew
        · exact ih.invoked op hold
        · obtain rfl := List.mem_singleton.mp hnew
          exact mem_of_inputOf hin
      · intro op hop
        rcases List.mem_append.mp hop with hold | hnew
        · exact ih.responded op hold
        · obtain rfl := List.mem_singleton.mp hnew
          exact mem_of_outputOf hout
      · intro a b hprec hb
        rw [List.map_append, List.mem_append] at hb
        rcases hb with hold | hnew
        · exact (ih.realTime a b hprec hold).append _
        · obtain rfl : b = id := by simpa using hnew
          exact before_append_of_mem (mem_done_of_precedes hc hid hprec)

omit [DecidableEq ι] in
theorem mem_of_before {ops : List (Operation ι I O)} {a b : ι}
    (h : Before ops a b) : a ∈ ops.map Operation.id := by
  obtain ⟨ops₁, ops₂, rfl, ha, _⟩ := h
  rw [List.map_append]
  exact List.mem_append_left _ ha

omit [DecidableEq ι] in
/-- What stands before an operation other than the last one does so without the
last one. -/
theorem Before.of_append {ops : List (Operation ι I O)} {op : Operation ι I O}
    {a b : ι} (h : Before (ops ++ [op]) a b) (hb : b ≠ op.id) :
    Before ops a b := by
  obtain ⟨ops₁, ops₂, hsplit, ha, hmem⟩ := h
  rcases List.eq_nil_or_concat ops₂ with rfl | ⟨ops₃, last, rfl⟩
  · cases hmem
  · rw [List.concat_eq_append, ← List.append_assoc] at hsplit
    obtain ⟨rfl, hlast⟩ := List.append_inj' hsplit rfl
    obtain rfl : op = last := by simpa using hlast
    refine ⟨ops₁, ops₃, rfl, ha, ?_⟩
    rw [List.concat_eq_append, List.map_append, List.mem_append] at hmem
    rcases hmem with hold | hnew
    · exact hold
    · exact absurd (by simpa using hnew) hb

omit [DecidableEq ι] in
theorem run_append_singleton {st st' : St} {ops : List (Operation ι I O)}
    {op : Operation ι I O} (hrun : m.run st (ops ++ [op]) = some st') :
    ∃ mid, m.run st ops = some mid ∧
      m.step mid op.input op.output = (true, st') := by
  induction ops generalizing st with
  | nil =>
      rw [List.nil_append, SequentialModel.run] at hrun
      split at hrun
      · next hok => exact ⟨st, rfl, Prod.ext hok (Option.some.inj hrun)⟩
      · cases hrun
  | cons first ops ih =>
      rw [List.cons_append, SequentialModel.run] at hrun
      split at hrun
      · next hok =>
          obtain ⟨mid, hmid, hstep⟩ := ih hrun
          exact ⟨mid, by rw [SequentialModel.run, if_pos hok, hmid], hstep⟩
      · cases hrun

omit [DecidableEq ι] in
/-- The last operation can be taken off. -/
theorem PartialLinearization.init {ops : List (Operation ι I O)}
    {op : Operation ι I O} {st : St}
    (hlin : PartialLinearization m h (ops ++ [op]) st) :
    ∃ mid, PartialLinearization m h ops mid ∧
      m.step mid op.input op.output = (true, st) := by
  obtain ⟨mid, hmid, hstep⟩ := run_append_singleton hlin.legal
  have hnodup := hlin.nodup
  rw [List.map_append, List.nodup_append'] at hnodup
  refine ⟨mid, ⟨hnodup.1, ?_, ?_, ?_, hmid⟩, hstep⟩
  · exact fun o ho ↦ hlin.invoked o (List.mem_append_left _ ho)
  · exact fun o ho ↦ hlin.responded o (List.mem_append_left _ ho)
  · intro a b hprec hb
    have hbefore := hlin.realTime a b hprec (by
      rw [List.map_append]
      exact List.mem_append_left _ hb)
    refine hbefore.of_append ?_
    rintro rfl
    exact hnodup.2.2 hb (List.mem_singleton.mpr rfl)

/-- Every partial linearization can be built. -/
theorem PartialLinearization.reach (hc : Complete h)
    {ops : List (Operation ι I O)} {st : St}
    (hlin : PartialLinearization m h ops st) :
    Relation.ReflTransGen (linearizationSearch m equal h).Move ⟨[], m.init⟩
      ⟨ops, st⟩ := by
  induction ops using List.reverseRecOn generalizing st with
  | nil =>
      obtain rfl := Option.some.inj hlin.legal
      exact Relation.ReflTransGen.refl
  | append_singleton ops op ih =>
      obtain ⟨mid, hmid, hstep⟩ := hlin.init
      have hnodup := hlin.nodup
      rw [List.map_append, List.nodup_append'] at hnodup
      have hlast : op ∈ ops ++ [op] :=
        List.mem_append_right _ List.mem_cons_self
      refine (ih hmid).tail ⟨op.id, ?_, ?_⟩
      · refine mem_candidates_of_precedes (hlin.invoked op hlast)
          (fun hmem ↦ hnodup.2.2 hmem (List.mem_singleton.mpr rfl)) ?_
        intro a hprec
        have hbefore := hlin.realTime a op.id hprec
          (List.mem_map_of_mem hlast)
        have hmem := mem_of_before hbefore
        rw [List.map_append, List.mem_append] at hmem
        rcases hmem with hold | hself
        · exact hold
        · obtain rfl : a = op.id := by simpa using hself
          exact absurd hprec hc.not_precedes_self
      · exact Partial.extend_eq_some.mpr ⟨op.input, op.output,
          hc.inputOf_eq (hlin.invoked op hlast),
          hc.outputOf_eq (hlin.responded op hlast), hstep, rfl⟩

/-! ## Linearizations are what the search looks for -/

theorem goal_iff : (linearizationSearch m equal h).goal c = true ↔
    ∀ e ∈ h, e.id ∈ c.ids := by
  change (remaining h c.ids).isEmpty = true ↔ _
  rw [List.isEmpty_iff, remaining, List.filter_eq_nil_iff]
  simp

omit [DecidableEq ι] in
theorem eq_of_mem_of_id_eq {ops : List (Operation ι I O)}
    (hnodup : (ops.map Operation.id).Nodup) {op op' : Operation ι I O}
    (hop : op ∈ ops) (hop' : op' ∈ ops) (hid : op.id = op'.id) : op = op' :=
  List.inj_on_of_nodup_map hnodup hop hop' hid

theorem linearizable_iff_goal (equal : St → St → Bool) (hc : Complete h) :
    Linearizable m h ↔
    ∃ c, Relation.ReflTransGen (linearizationSearch m equal h).Move
      ⟨[], m.init⟩ c ∧ (linearizationSearch m equal h).goal c = true := by
  constructor
  · rintro ⟨ops, st, hlin⟩
    refine ⟨⟨ops, st⟩, PartialLinearization.reach hc
      ⟨hlin.nodup, hlin.invoked, ?_, hlin.realTime, hlin.legal⟩,
      goal_iff.mpr ?_⟩
    · intro op hop
      obtain ⟨output, hmem⟩ := mem_respondedIds.mp (hc.responded op.id
        (mem_invokedIds.mpr ⟨_, hlin.invoked op hop⟩))
      obtain ⟨input, hop'⟩ := hlin.completed op.id output hmem
      have heq := eq_of_mem_of_id_eq hlin.nodup hop hop' rfl
      rw [heq]
      exact hmem
    · intro e he
      have hresponded : e.id ∈ respondedIds h := by
        cases e with
        | invoke a input =>
            exact hc.responded a (mem_invokedIds.mpr ⟨input, he⟩)
        | respond a output => exact mem_respondedIds.mpr ⟨output, he⟩
      obtain ⟨output, hmem⟩ := mem_respondedIds.mp hresponded
      obtain ⟨input, hop⟩ := hlin.completed e.id output hmem
      exact List.mem_map_of_mem hop
  · rintro ⟨c, hreach, hgoal⟩
    have hlin := PartialLinearization.of_reach hc hreach
    refine ⟨c.ops, c.st, hlin.nodup, hlin.invoked, ?_, hlin.realTime,
      hlin.legal⟩
    intro id output hmem
    obtain ⟨op, hop, hid⟩ := List.mem_map.mp (goal_iff.mp hgoal _ hmem)
    refine ⟨op.input, ?_⟩
    have hout := hc.output_eq hmem (by
      have hrespond := hlin.responded op hop
      rwa [hid] at hrespond)
    rw [hout]
    have hid' : op.id = id := hid
    rw [← hid']
    exact hop

/-! ## Bounds and simulation -/

theorem bounded_linearizationSearch (m : SequentialModel St I O)
    (equal : St → St → Bool) (h : List (HistoryEvent ι I O)) :
    (linearizationSearch m equal h).Bounded
      (fun c ↦ (remaining h c.ids).length) h.length where
  rank_lt := by
    intro c id d hid happly
    obtain ⟨hfresh, input, hmem⟩ := exists_of_mem_candidates hid
    rw [Partial.ids_extend happly, remaining_append]
    have hin : HistoryEvent.invoke id input ∈ remaining h c.ids :=
      mem_remaining.mpr ⟨hmem, hfresh⟩
    rw [List.length_filter_lt_length_iff_exists]
    exact ⟨_, hin, by simp⟩
  moves_le := by
    intro c
    change (candidates h c.ids).length ≤ h.length
    rw [candidates, List.length_map]
    exact (List.takeWhile_prefix _).length_le.trans (List.length_filter_le _ _)

omit [DecidableEq ι] in
/-- State `t` accepts whatever `s` accepts. -/
def Accepts (ι : Type*) (m : SequentialModel St I O) (s t : St) : Prop :=
  ∀ ops : List (Operation ι I O), (m.run s ops).isSome → (m.run t ops).isSome

omit [DecidableEq ι] in
theorem Accepts.step {s t s' : St} {input : I} {output : O} [Inhabited ι]
    (haccepts : Accepts ι m s t) (hstep : m.step s input output = (true, s')) :
    ∃ t', m.step t input output = (true, t') ∧ Accepts ι m s' t' := by
  have hrun : ∀ ops : List (Operation ι I O),
      m.run s (⟨default, input, output⟩ :: ops) = m.run s' ops := by
    intro ops
    simp [SequentialModel.run, hstep]
  have hok : (m.step t input output).1 = true := by
    have hsome := haccepts [⟨default, input, output⟩] (by rw [hrun]; rfl)
    by_contra hnot
    rw [SequentialModel.run, if_neg hnot] at hsome
    cases hsome
  refine ⟨(m.step t input output).2, Prod.ext hok rfl, fun ops hsome ↦ ?_⟩
  have hlater := haccepts (⟨default, input, output⟩ :: ops)
    (by rwa [hrun])
  rwa [SequentialModel.run, if_pos hok] at hlater

/-- A cached order simulates another one of the same operations when the states
that `equal` identifies accept the same continuations. -/
theorem simulates_linearizationSearch [Inhabited ι]
    (hequal : ∀ s t, equal s t = true → Accepts ι m s t) :
    (linearizationSearch m equal h).Simulates fun c d ↦
      c.SameOps d ∧ Accepts ι m c.st d.st where
  refl := fun c ↦
    ⟨⟨List.Subset.refl _, List.Subset.refl _⟩, fun _ ↦ id⟩
  trans := fun hcd hde ↦
    ⟨⟨List.Subset.trans hcd.1.1 hde.1.1, List.Subset.trans hde.1.2 hcd.1.2⟩,
      fun ops hsome ↦ hde.2 ops (hcd.2 ops hsome)⟩
  same := by
    intro c d hsame
    obtain ⟨hops, heq⟩ := Bool.and_eq_true_iff.mp hsame
    exact ⟨of_decide_eq_true hops, hequal _ _ heq⟩
  move := by
    rintro c d id c' ⟨hsame, haccepts⟩ hid happly
    have hrest : remaining h c.ids = remaining h d.ids :=
      remaining_congr fun _ ↦ hsame.mem_iff
    obtain ⟨input, output, hin, hout, hstep, hops⟩ :=
      Partial.extend_eq_some.mp happly
    obtain ⟨t, hstep', haccepts'⟩ := haccepts.step hstep
    have happly' := Partial.extend_eq_some (d := ⟨d.ops ++
      [⟨id, input, output⟩], t⟩).mpr ⟨input, output, hin, hout, hstep', rfl⟩
    refine ⟨?_, _, happly', ⟨?_, ?_⟩, haccepts'⟩
    · change id ∈ candidates h d.ids
      rw [candidates, ← hrest]
      exact hid
    · rw [Partial.ids_extend happly, Partial.ids_extend happly']
      exact List.append_subset.mpr ⟨List.subset_append_of_subset_left _ hsame.1,
        List.subset_append_right _ _⟩
    · rw [Partial.ids_extend happly, Partial.ids_extend happly']
      exact List.append_subset.mpr ⟨List.subset_append_of_subset_left _ hsame.2,
        List.subset_append_right _ _⟩
  goal := by
    rintro c d ⟨hsame, _⟩ hgoal
    exact goal_iff.mpr fun e he ↦ hsame.mem_iff.mp (goal_iff.mp hgoal e he)

end Search

end DistLabs.Linearizability
