import DistLabs.Support.LinearizationSearch
import Mathlib.Data.List.Dedup
import Mathlib.Data.List.Sort
import Mathlib.Order.Lattice

/-!
# Linearizability of timed operations

Clients may also report their operations with the times of call and return.  An
order of the operations explains them when no operation stands before one that
had returned before it was called.  This agrees with linearizability of the
history of events, and it is local: operations on different keys can be
explained one key at a time.
-/

namespace DistLabs.Linearizability

variable {α β ι I O St T K : Type*}

/-- What clients report about an operation. -/
structure Observation (α I O T : Type*) where
  input : α → I
  output : α → O
  call : α → T
  ret : α → T

namespace Observation

/-- The operation with some name. -/
def operation (v : Observation α I O T) (name : α → ι) (a : α) :
    Operation ι I O :=
  ⟨name a, v.input a, v.output a⟩

def comap (v : Observation α I O T) (f : β → α) : Observation β I O T where
  input b := v.input (f b)
  output b := v.output (f b)
  call b := v.call (f b)
  ret b := v.ret (f b)

end Observation

/-- Some order of the operations explains them. -/
def TimedLinearizable [LE T] (m : SequentialModel St I O)
    (v : Observation α I O T) (ops : List α) : Prop :=
  ∃ (order : List α) (st : St), order.Perm ops ∧
    order.Pairwise (fun a b ↦ v.call a ≤ v.ret b) ∧
    m.run m.init (order.map (v.operation id)) = some st

section Run

variable {m : SequentialModel St I O} {v : Observation α I O T}

/-- Names do not matter for an execution. -/
theorem run_operation (name : α → ι) (st : St) (order : List α) :
    m.run st (order.map (v.operation name)) =
      m.run st (order.map (v.operation id)) := by
  induction order generalizing st with
  | nil => rfl
  | cons a order ih =>
      rw [List.map_cons, List.map_cons, SequentialModel.run,
        SequentialModel.run]
      rw [ih]
      rfl

/-- An execution on all keys is one execution for every key. -/
theorem run_keyed [DecidableEq K] {key : I → K} {st : K → St}
    {ops : List (Operation ι I O)} :
    ((m.keyed key).run st ops).isSome ↔ ∀ k, (m.run (st k)
      (ops.filter fun op ↦ decide (key op.input = k))).isSome := by
  induction ops generalizing st with
  | nil => exact ⟨fun _ _ ↦ rfl, fun _ ↦ rfl⟩
  | cons op ops ih =>
      have hkeep : (op :: ops).filter (fun o ↦
          decide (key o.input = key op.input)) =
          op :: ops.filter fun o ↦ decide (key o.input = key op.input) :=
        List.filter_cons_of_pos (decide_eq_true rfl)
      rw [SequentialModel.run]
      change (Option.isSome (if (m.step (st (key op.input)) op.input
        op.output).1 then _ else _) = true) ↔ _
      cases hok : (m.step (st (key op.input)) op.input op.output).1 with
      | false =>
          refine ⟨fun hsome ↦ ?_, fun hall ↦ ?_⟩
          · cases hsome
          · have hrun := hall (key op.input)
            rw [hkeep, SequentialModel.run, hok] at hrun
            cases hrun
      | true =>
          rw [if_pos rfl, ih]
          refine forall_congr' fun k ↦ ?_
          change (m.run (Function.update st (key op.input) _ k) _).isSome ↔ _
          by_cases hk : key op.input = k
          · subst hk
            rw [Function.update_self, hkeep, SequentialModel.run, if_pos hok]
          · rw [Function.update_of_ne (fun heq ↦ hk heq.symm),
              List.filter_cons_of_neg (by simpa using hk)]

end Run

/-! ## Locality -/

section Merge

variable {γ : Type*} [DecidableEq K] [LinearOrder T]

/-- Sorted lists for different keys can be merged into one sorted list that
keeps each of them. -/
theorem exists_merge (key : γ → K) (point : γ → T) (keys : List K)
    (hkeys : keys.Nodup) (f : K → List γ)
    (hsorted : ∀ k, (f k).Pairwise fun x y ↦ point x ≤ point y)
    (hkey : ∀ k, ∀ x ∈ f k, key x = k) :
    ∃ l : List γ, l.Perm (keys.flatMap f) ∧
      l.Pairwise (fun x y ↦ point x ≤ point y) ∧
      ∀ k ∈ keys, l.filter (fun x ↦ decide (key x = k)) = f k := by
  have hperm := List.mergeSort_perm (keys.flatMap f)
    fun x y ↦ decide (point x ≤ point y)
  have htrans : ∀ x y z : γ, decide (point x ≤ point y) = true →
      decide (point y ≤ point z) = true →
      decide (point x ≤ point z) = true := by
    intro x y z hxy hyz
    simp only [decide_eq_true_eq] at hxy hyz ⊢
    exact hxy.trans hyz
  have htotal : ∀ x y : γ, (decide (point x ≤ point y) ||
      decide (point y ≤ point x)) = true := by
    intro x y
    simpa using le_total (point x) (point y)
  refine ⟨_, hperm, ?_, fun k hk ↦ ?_⟩
  · exact (List.pairwise_mergeSort htrans htotal _).imp fun hle ↦ by
      simpa using hle
  · -- The list of `k` is sorted, so the stable sort keeps it.
    have hcount : ∀ (keys : List K), keys.Nodup → k ∈ keys →
        (keys.flatMap f).filter (fun x ↦ decide (key x = k)) = f k := by
      intro keys hnodup hmem
      obtain ⟨before, after, rfl⟩ := List.append_of_mem hmem
      have hother : ∀ l : List K, k ∉ l →
          (l.flatMap f).filter (fun x ↦ decide (key x = k)) = [] := by
        intro l hl
        refine List.filter_eq_nil_iff.mpr fun x hx ↦ ?_
        obtain ⟨k', hk', hxk'⟩ := List.mem_flatMap.mp hx
        rw [decide_eq_true_eq, hkey k' x hxk']
        rintro rfl
        exact hl hk'
      rw [List.nodup_middle, List.nodup_cons, List.mem_append,
        not_or] at hnodup
      rw [List.flatMap_append, List.flatMap_cons, List.filter_append,
        List.filter_append, hother before hnodup.1.1,
        hother after hnodup.1.2, List.nil_append, List.append_nil]
      exact List.filter_eq_self.mpr fun x hx ↦ decide_eq_true (hkey k x hx)
    have hsub : (f k).Sublist ((keys.flatMap f).mergeSort
        fun x y ↦ decide (point x ≤ point y)) := by
      refine List.sublist_mergeSort htrans htotal ?_ ?_
      · exact (hsorted k).imp fun hle ↦ decide_eq_true hle
      · conv => lhs; rw [← hcount keys hkeys hk]
        exact List.filter_sublist
    have hsub' := hsub.filter fun x ↦ decide (key x = k)
    rw [List.filter_eq_self.mpr fun x hx ↦ decide_eq_true (hkey k x hx)]
      at hsub'
    refine (hsub'.eq_of_length ?_).symm
    rw [(hperm.filter _).length_eq, hcount keys hkeys hk]

variable {v : Observation α I O T}

/-- In an order that explains operations there is a point between the call and
the return of each, and the points do not go back in time. -/
theorem exists_points {order : List α}
    (horder : order.Pairwise fun a b ↦ v.call a ≤ v.ret b)
    (hcall : ∀ a ∈ order, v.call a ≤ v.ret a) :
    ∃ l : List (T × α), l.map Prod.snd = order ∧
      l.Pairwise (fun x y ↦ x.1 ≤ y.1) ∧
      ∀ x ∈ l, v.call x.2 ≤ x.1 ∧ x.1 ≤ v.ret x.2 := by
  -- The point of an operation is the last call up to it, but at least `t`.
  have hfrom : ∀ (order : List α) (t : T), (∀ a ∈ order, t ≤ v.ret a) →
      order.Pairwise (fun a b ↦ v.call a ≤ v.ret b) →
      (∀ a ∈ order, v.call a ≤ v.ret a) →
      ∃ l : List (T × α), l.map Prod.snd = order ∧
        l.Pairwise (fun x y ↦ x.1 ≤ y.1) ∧
        ∀ x ∈ l, v.call x.2 ≤ x.1 ∧ x.1 ≤ v.ret x.2 ∧ t ≤ x.1 := by
    intro order
    induction order with
    | nil => exact fun _ _ _ _ ↦ ⟨[], rfl, List.Pairwise.nil, by simp⟩
    | cons a order ih =>
        intro t ht horder hcall
        obtain ⟨hfirst, hrest⟩ := List.pairwise_cons.mp horder
        obtain ⟨l, hmap, hsorted, hpoints⟩ := ih (max t (v.call a))
          (fun b hb ↦ max_le (ht b (List.mem_cons_of_mem _ hb)) (hfirst b hb))
          hrest fun b hb ↦ hcall b (List.mem_cons_of_mem _ hb)
        refine ⟨(max t (v.call a), a) :: l, by rw [List.map_cons, hmap],
          List.pairwise_cons.mpr ⟨fun x hx ↦ (hpoints x hx).2.2, hsorted⟩, ?_⟩
        intro x hx
        rcases List.mem_cons.mp hx with rfl | hx
        · exact ⟨le_max_right _ _, max_le (ht a List.mem_cons_self)
            (hcall a List.mem_cons_self), le_max_left _ _⟩
        · obtain ⟨hlow, hhigh, hle⟩ := hpoints x hx
          exact ⟨hlow, hhigh, (le_max_left _ _).trans hle⟩
  cases order with
  | nil => exact ⟨[], rfl, List.Pairwise.nil, by simp⟩
  | cons a order =>
      obtain ⟨l, hmap, hsorted, hpoints⟩ := hfrom (a :: order) (v.call a)
        (fun b hb ↦ by
          rcases List.mem_cons.mp hb with rfl | hb
          · exact hcall b List.mem_cons_self
          · exact (List.pairwise_cons.mp horder).1 b hb) horder hcall
      exact ⟨l, hmap, hsorted, fun x hx ↦
        ⟨(hpoints x hx).1, (hpoints x hx).2.1⟩⟩

/-- Operations on many keys are explained by one order exactly when those on
every single key are. -/
theorem timedLinearizable_keyed_iff {m : SequentialModel St I O}
    {key : I → K} {ops : List α} (hcall : ∀ a ∈ ops, v.call a ≤ v.ret a) :
    TimedLinearizable (m.keyed key) v ops ↔ ∀ k, TimedLinearizable m v
      (ops.filter fun a ↦ decide (key (v.input a) = k)) := by
  have hfilter : ∀ (k : K) (order : List α), (order.filter fun a ↦
      decide (key (v.input a) = k)).map (v.operation id) =
        (order.map (v.operation id)).filter fun op ↦
          decide (key op.input = k) := by
    intro k order
    rw [List.filter_map]
    rfl
  constructor
  · rintro ⟨order, st, hperm, horder, hrun⟩ k
    have hall := run_keyed.mp (Option.isSome_iff_exists.mpr ⟨st, hrun⟩) k
    obtain ⟨st', hst'⟩ := Option.isSome_iff_exists.mp hall
    refine ⟨_, st', hperm.filter _, horder.filter _, ?_⟩
    rw [hfilter]
    exact hst'
  · intro hall
    choose orders sts hperms horders hruns using hall
    have hmem : ∀ k, ∀ a ∈ orders k, a ∈ ops ∧ key (v.input a) = k := by
      intro k a ha
      simpa using (hperms k).mem_iff.mp ha
    choose points hpoints hsorted hbetween using fun k ↦
      exists_points (horders k) fun a ha ↦ hcall a (hmem k a ha).1
    -- The orders of the keys are merged along the points.
    obtain ⟨l, hperm, hl, hkeys⟩ := exists_merge
      (fun x : T × α ↦ key (v.input x.2)) Prod.fst
      (ops.map fun a ↦ key (v.input a)).dedup (List.nodup_dedup _) points
      hsorted fun k x hx ↦ by
        refine (hmem k x.2 ?_).2
        rw [← hpoints k]
        exact List.mem_map_of_mem hx
    have hpoint : ∀ x ∈ l, x.2 ∈ ops ∧
        v.call x.2 ≤ x.1 ∧ x.1 ≤ v.ret x.2 := by
      intro x hx
      obtain ⟨k, _, hxk⟩ := List.mem_flatMap.mp (hperm.mem_iff.mp hx)
      refine ⟨(hmem k x.2 ?_).1, hbetween k x hxk⟩
      rw [← hpoints k]
      exact List.mem_map_of_mem hxk
    have hrestrict : ∀ k, (l.map Prod.snd).filter
        (fun a ↦ decide (key (v.input a) = k)) = orders k := by
      intro k
      by_cases hk : k ∈ (ops.map fun a ↦ key (v.input a)).dedup
      · rw [← hpoints k, ← hkeys k hk, List.filter_map]
        rfl
      · have hno : ∀ a ∈ ops, key (v.input a) ≠ k := by
          rintro a ha rfl
          exact hk (List.mem_dedup.mpr (List.mem_map_of_mem ha))
        have horder : orders k = [] := by
          refine List.eq_nil_iff_forall_not_mem.mpr fun a ha ↦ ?_
          exact hno a (hmem k a ha).1 (hmem k a ha).2
        rw [horder]
        refine List.filter_eq_nil_iff.mpr fun a ha ↦ ?_
        obtain ⟨x, hx, rfl⟩ := List.mem_map.mp ha
        simpa using hno x.2 (hpoint x hx).1
    have hrun : ((m.keyed key).run (fun _ ↦ m.init)
        ((l.map Prod.snd).map (v.operation id))).isSome := by
      refine run_keyed.mpr fun k ↦ ?_
      rw [← hfilter, hrestrict, hruns]
      rfl
    obtain ⟨st, hst⟩ := Option.isSome_iff_exists.mp hrun
    refine ⟨l.map Prod.snd, st, ?_, ?_, hst⟩
    · classical
      refine List.perm_iff_count.mpr fun a ↦ ?_
      have hcount := (hperms (key (v.input a))).count_eq a
      rw [← hrestrict] at hcount
      have hkeep : ∀ l : List α, (l.filter fun b ↦
          decide (key (v.input b) = key (v.input a))).count a = l.count a :=
        fun l ↦ List.count_filter (decide_eq_true rfl)
      rwa [hkeep, hkeep] at hcount
    · refine List.pairwise_map.mpr (hl.imp_of_mem fun hx hy hle ↦ ?_)
      exact (hpoint _ hx).2.1.trans (hle.trans (hpoint _ hy).2.2)

end Merge

/-! ## Timed operations and events -/

/-- A list of observations can be pulled back along a map. -/
theorem exists_perm_map {f : β → α} {l : List α} {m : List β}
    (h : l.Perm (m.map f)) : ∃ l' : List β, l'.Perm m ∧ l'.map f = l := by
  induction l generalizing m with
  | nil =>
      obtain rfl := List.map_eq_nil_iff.mp h.nil_eq.symm
      exact ⟨[], .refl _, rfl⟩
  | cons a l ih =>
      obtain ⟨b, hb, rfl⟩ := List.mem_map.mp
        (h.mem_iff.mp List.mem_cons_self)
      obtain ⟨before, after, rfl⟩ := List.append_of_mem hb
      have hrest : l.Perm ((before ++ after).map f) := by
        refine List.Perm.cons_inv (a := f b) (h.trans ?_)
        rw [List.map_append, List.map_append, List.map_cons]
        exact List.perm_middle
      obtain ⟨l', hperm, rfl⟩ := ih hrest
      exact ⟨b :: l', (hperm.cons b).trans List.perm_middle.symm, rfl⟩

theorem timedLinearizable_map [LE T] {m : SequentialModel St I O}
    {v : Observation α I O T} {f : β → α} {ops : List β} :
    TimedLinearizable m v (ops.map f) ↔
      TimedLinearizable m (v.comap f) ops := by
  have hrun : ∀ order : List β, m.run m.init ((order.map f).map
      (v.operation id)) = m.run m.init (order.map
        ((v.comap f).operation id)) := by
    intro order
    rw [List.map_map, ← run_operation (v := v.comap f) f]
    rfl
  constructor
  · rintro ⟨order, st, hperm, horder, hst⟩
    obtain ⟨order', hperm', rfl⟩ := exists_perm_map hperm
    exact ⟨order', st, hperm', List.pairwise_map.mp horder,
      (hrun order').symm.trans hst⟩
  · rintro ⟨order, st, hperm, horder, hst⟩
    exact ⟨order.map f, st, hperm.map f, List.pairwise_map.mpr horder,
      (hrun order).trans hst⟩

/-- The operations `ops` are those of the history, under their names. -/
structure Reports (v : Observation α I O T) (name : α → ι)
    (h : List (HistoryEvent ι I O)) (ops : List α) : Prop where
  complete : Complete h
  nodup : (ops.map name).Nodup
  invoked : ∀ a ∈ ops, .invoke (name a) (v.input a) ∈ h
  responded : ∀ a ∈ ops, .respond (name a) (v.output a) ∈ h
  all : ∀ id i, .invoke id i ∈ h → ∃ a ∈ ops, name a = id

section Reports

variable {m : SequentialModel St I O} {v : Observation α I O T}
  {name : α → ι} {h : List (HistoryEvent ι I O)} {ops : List α}

/-- All operations of a linearization are among the reported ones. -/
theorem Reports.exists_order (hr : Reports v name h ops)
    {order : List (Operation ι I O)} {st : St}
    (hlin : Linearization m h order st) :
    ∃ l : List α, l.Perm ops ∧ l.map (v.operation name) = order := by
  have hop : ∀ op ∈ order, ∃ a ∈ ops, v.operation name a = op := by
    intro op hop
    obtain ⟨a, ha, hname⟩ := hr.all _ _ (hlin.invoked op hop)
    have hresponded := hr.responded a ha
    have hinput := hr.complete.input_eq (hr.invoked a ha)
      (hname ▸ hlin.invoked op hop)
    obtain ⟨i, hmem⟩ := hlin.completed _ _ hresponded
    have heq := eq_of_mem_of_id_eq hlin.nodup hop hmem hname.symm
    refine ⟨a, ha, ?_⟩
    rw [heq] at hinput ⊢
    rw [Observation.operation, hinput]
  obtain ⟨l, hsub, rfl⟩ : ∃ l : List α, (∀ a ∈ l, a ∈ ops) ∧
      l.map (v.operation name) = order := by
    clear hlin
    induction order with
    | nil => exact ⟨[], by simp, rfl⟩
    | cons op order ih =>
        obtain ⟨a, ha, rfl⟩ := hop op List.mem_cons_self
        obtain ⟨l, hl, rfl⟩ := ih fun o ho ↦ hop o (List.mem_cons_of_mem _ ho)
        refine ⟨a :: l, fun b hb ↦ ?_, rfl⟩
        rcases List.mem_cons.mp hb with rfl | hb
        · exact ha
        · exact hl b hb
  have hnodup := hlin.nodup
  rw [List.map_map] at hnodup
  have hl : l.Nodup := List.Nodup.of_map _ hnodup
  refine ⟨l, ?_, rfl⟩
  refine (List.perm_ext_iff_of_nodup hl (hr.nodup.of_map _)).mpr fun a ↦
    ⟨hsub a, fun ha ↦ ?_⟩
  obtain ⟨i, hmem⟩ := hlin.completed _ _ (hr.responded a ha)
  obtain ⟨b, hb, heq⟩ := List.mem_map.mp hmem
  have hname : name b = name a := congrArg Operation.id heq
  rwa [← List.inj_on_of_nodup_map hr.nodup (hsub b hb) ha hname]

/-- In a list without repetitions nothing stands both before and after. -/
theorem Before.asymm {order : List (Operation ι I O)}
    (hnodup : (order.map Operation.id).Nodup) {x y : ι}
    (hxy : Before order x y) (hyx : Before order y x) : False := by
  have hdisjoint : ∀ {o₁ o₂ : List (Operation ι I O)} {z : ι},
      order = o₁ ++ o₂ → z ∈ o₁.map Operation.id →
      z ∈ o₂.map Operation.id → False := by
    rintro o₁ o₂ z rfl h₁ h₂
    rw [List.map_append] at hnodup
    exact List.disjoint_of_nodup_append hnodup h₁ h₂
  obtain ⟨o₁, o₂, hsplit, hx, hy⟩ := hxy
  obtain ⟨p₁, p₂, hsplit', hy', hx'⟩ := hyx
  rcases List.append_eq_append_iff.mp (hsplit.symm.trans hsplit') with
    ⟨mid, -, rfl⟩ | ⟨mid, -, rfl⟩
  · refine hdisjoint hsplit hx ?_
    rw [List.map_append]
    exact List.mem_append_right _ hx'
  · refine hdisjoint hsplit' hy' ?_
    rw [List.map_append]
    exact List.mem_append_right _ hy

variable [LinearOrder T]

theorem Reports.timedLinearizable (hr : Reports v name h ops)
    (htime : ∀ a ∈ ops, ∀ b ∈ ops, v.ret a < v.call b →
      Precedes h (name a) (name b)) (hlin : Linearizable m h) :
    TimedLinearizable m v ops := by
  obtain ⟨order, st, hlin⟩ := hlin
  obtain ⟨l, hperm, rfl⟩ := hr.exists_order hlin
  refine ⟨l, st, hperm, ?_, ?_⟩
  · refine List.pairwise_iff_forall_sublist.mpr fun {a b} hsub ↦ ?_
    by_contra hlt
    obtain ⟨l₁, l₂, rfl, ha, hrest⟩ := List.cons_sublist_iff.mp hsub
    have hb := hrest.subset List.mem_cons_self
    have hprec := htime b (hperm.mem_iff.mp (List.mem_append_right _ hb)) a
      (hperm.mem_iff.mp (List.mem_append_left _ ha)) (not_le.mp hlt)
    have hname : ∀ {x : α} {k : List α}, x ∈ k →
        name x ∈ (k.map (v.operation name)).map Operation.id :=
      fun hx ↦ List.mem_map_of_mem (List.mem_map_of_mem hx)
    exact (hlin.realTime _ _ hprec (hname (List.mem_append_left _ ha))).asymm
      hlin.nodup ⟨_, _, List.map_append, hname ha, hname hb⟩
  · rw [← run_operation name]
    exact hlin.legal

theorem Reports.linearizable (hr : Reports v name h ops)
    (htime : ∀ a ∈ ops, ∀ b ∈ ops, Precedes h (name a) (name b) →
      v.ret a < v.call b) (hlin : TimedLinearizable m v ops) :
    Linearizable m h := by
  obtain ⟨order, st, hperm, horder, hst⟩ := hlin
  have hids : (order.map (v.operation name)).map Operation.id =
      order.map name := by
    rw [List.map_map]
    rfl
  refine ⟨order.map (v.operation name), st, ?_, ?_, ?_, ?_, ?_⟩
  · rw [hids]
    exact (hperm.map name).nodup_iff.mpr hr.nodup
  · intro op hop
    obtain ⟨a, ha, rfl⟩ := List.mem_map.mp hop
    exact hr.invoked a (hperm.mem_iff.mp ha)
  · intro x o hrespond
    obtain ⟨i, hinvoke⟩ := mem_invokedIds.mp
      (hr.complete.mem_invokedIds_of_responded
        (mem_respondedIds.mpr ⟨o, hrespond⟩))
    obtain ⟨a, ha, rfl⟩ := hr.all x i hinvoke
    refine ⟨v.input a, List.mem_map.mpr ⟨a, hperm.mem_iff.mpr ha, ?_⟩⟩
    rw [hr.complete.output_eq hrespond (hr.responded a ha)]
    rfl
  · intro x y hprec hy
    rw [hids] at hy
    obtain ⟨b, hb, rfl⟩ := List.mem_map.mp hy
    obtain ⟨o, hrespond⟩ := hprec.exists_respond
    obtain ⟨i, hinvoke⟩ := mem_invokedIds.mp
      (hr.complete.mem_invokedIds_of_responded
        (mem_respondedIds.mpr ⟨o, hrespond⟩))
    obtain ⟨a, ha, rfl⟩ := hr.all x i hinvoke
    have hlt := htime a ha b (hperm.mem_iff.mp hb) hprec
    -- Operation `a` cannot be `b` or stand after it.
    obtain ⟨l₁, l₂, rfl⟩ := List.append_of_mem hb
    have hmem : a ∈ l₁ := by
      rcases List.mem_append.mp (hperm.mem_iff.mpr ha) with hmem | hmem
      · exact hmem
      · rcases List.mem_cons.mp hmem with rfl | hmem
        · exact absurd hprec hr.complete.not_precedes_self
        · have hle := (List.pairwise_cons.mp
            (List.pairwise_append.mp horder).2.1).1 a hmem
          exact absurd hlt (not_lt.mpr hle)
    refine ⟨l₁.map (v.operation name), (b :: l₂).map (v.operation name),
      List.map_append, ?_, ?_⟩
    · exact List.mem_map_of_mem (List.mem_map_of_mem hmem)
    · exact List.mem_map_of_mem (List.mem_map_of_mem List.mem_cons_self)
  · rw [run_operation]
    exact hst

end Reports

end DistLabs.Linearizability
