import Mathlib.Data.Multiset.Bind
import Mathlib.Data.Multiset.Dedup
import Mathlib.Order.Defs.PartialOrder

/-!
# Grouping by a key

A collection is grouped by the keys of its elements, and every group yields one
record.  Collections are multisets, since neither the order of the elements nor
the order of the groups matters.  A sorted list is grouped by a scan for the
runs of equal keys, and a collection may be grouped part by part when the parts
do not share a key.
-/

namespace DistLabs.Grouping

variable {α κ ω ι : Type*} [DecidableEq κ]

section Records

variable (key : α → κ) (out : κ → Multiset α → ω)

/-- One record for every key, computed from the elements with that key. -/
def records (s : Multiset α) : Multiset (κ × ω) :=
  (s.map key).dedup.map fun k ↦ (k, out k (s.filter fun a ↦ key a = k))

variable {key out} {s : Multiset α}

theorem mem_records {p : κ × ω} :
    p ∈ records key out s ↔
      (∃ a ∈ s, key a = p.1) ∧
        p.2 = out p.1 (s.filter fun a ↦ key a = p.1) := by
  unfold records
  simp only [Multiset.mem_map, Multiset.mem_dedup]
  constructor
  · rintro ⟨k, hk, rfl⟩
    exact ⟨hk, rfl⟩
  · rintro ⟨hk, hp⟩
    exact ⟨p.1, hk, Prod.ext rfl hp.symm⟩

variable (key out s) in
theorem nodup_records : (records key out s).Nodup :=
  Multiset.Nodup.map (fun _ _ h ↦ congrArg Prod.fst h)
    (Multiset.nodup_dedup _)

/-- The records of the parts, which share no key, are those of the whole. -/
theorem bind_records [DecidableEq ι] (part : κ → ι) {parts : Multiset ι}
    (hparts : parts.Nodup) (hcover : ∀ a ∈ s, part (key a) ∈ parts) :
    parts.bind (fun i ↦ records key out
        (s.filter fun a ↦ part (key a) = i)) =
      records key out s := by
  have hmem : ∀ {i p},
      p ∈ records key out (s.filter fun a ↦ part (key a) = i) ↔
        part p.1 = i ∧ p ∈ records key out s := by
    intro i p
    rw [mem_records, mem_records]
    have hgroup : part p.1 = i →
        ((s.filter fun a ↦ part (key a) = i).filter fun a ↦ key a = p.1) =
          s.filter fun a ↦ key a = p.1 := by
      intro hi
      rw [Multiset.filter_filter]
      refine Multiset.filter_congr fun a _ ↦ ?_
      exact ⟨And.left, fun h ↦ ⟨h, by rw [h, hi]⟩⟩
    constructor
    · rintro ⟨⟨a, ha, hkey⟩, hout⟩
      obtain ⟨ha, hi⟩ := Multiset.mem_filter.mp ha
      rw [hkey] at hi
      rw [hgroup hi] at hout
      exact ⟨hi, ⟨a, ha, hkey⟩, hout⟩
    · rintro ⟨hi, ⟨a, ha, hkey⟩, hout⟩
      rw [hgroup hi]
      exact ⟨⟨a, Multiset.mem_filter.mpr ⟨ha, by rw [hkey, hi]⟩, hkey⟩, hout⟩
  refine (Multiset.Nodup.ext ?_ (nodup_records key out s)).mpr fun p ↦ ?_
  · refine Multiset.nodup_bind.mpr ⟨fun i _ ↦ nodup_records key out _, ?_⟩
    refine hparts.pairwise fun i _ j _ hij ↦ ?_
    refine Multiset.disjoint_left.mpr fun hi hj ↦ hij ?_
    exact (hmem.mp hi).1.symm.trans (hmem.mp hj).1
  · rw [Multiset.mem_bind]
    constructor
    · rintro ⟨i, _, hp⟩
      exact (hmem.mp hp).2
    · intro hp
      obtain ⟨a, ha, hkey⟩ := (mem_records.mp hp).1
      exact ⟨part p.1, hkey ▸ hcover a ha, hmem.mpr ⟨rfl, hp⟩⟩

end Records

/-! ## Runs of equal keys -/

section Runs

variable (key : α → κ)

/-- The scan inside a run: `run` are the elements with key `k` so far. -/
def runsFrom (k : κ) (run : List α) : List α → List (κ × List α)
  | [] => [(k, run)]
  | a :: rest =>
      if key a = k then runsFrom k (run ++ [a]) rest
      else (k, run) :: runsFrom (key a) [a] rest

/-- The runs of elements with the same key, each with its key. -/
def runs : List α → List (κ × List α)
  | [] => []
  | a :: rest => runsFrom key (key a) [a] rest

end Runs

section Sorted

variable [PartialOrder κ] {key : α → κ}

/-- The scan of a sorted rest finds the whole group of `k` and the other
groups. -/
theorem mem_runsFrom {k : κ} {run rest : List α}
    (hle : ∀ a ∈ rest, k ≤ key a)
    (hsorted : rest.Pairwise fun a b ↦ key a ≤ key b) {p : κ × List α} :
    p ∈ runsFrom key k run rest ↔
      p = (k, run ++ rest.filter fun a ↦ key a = k) ∨
      p.1 ≠ k ∧ (∃ a ∈ rest, key a = p.1) ∧
        p.2 = rest.filter fun a ↦ key a = p.1 := by
  induction rest generalizing k run with
  | nil => simp [runsFrom]
  | cons a rest ih =>
      obtain ⟨hhead, htail⟩ := List.pairwise_cons.mp hsorted
      rw [runsFrom]
      by_cases hk : key a = k
      · rw [if_pos hk, ih (fun b hb ↦ hle b (List.mem_cons_of_mem a hb)) htail]
        refine or_congr ?_ (and_congr_right fun hne ↦ ?_)
        · rw [List.filter_cons_of_pos (by simpa using hk), List.append_assoc]
          rfl
        · have hother : key a ≠ p.1 := fun h ↦ hne (h.symm.trans hk)
          rw [List.filter_cons_of_neg (by simpa using hother)]
          simp [hother]
      · -- The run of `k` is over, and `k` does not occur again.
        have hgone : ∀ b ∈ a :: rest, key b ≠ k := by
          intro b hb heq
          rcases List.mem_cons.mp hb with rfl | hb
          · exact hk heq
          · exact hk (le_antisymm (heq ▸ hhead b hb)
              (hle a List.mem_cons_self))
        have hempty : ((a :: rest).filter fun b ↦ key b = k) = [] := by
          rw [List.filter_eq_nil_iff]
          simpa using hgone
        rw [if_neg hk, List.mem_cons, ih hhead htail, hempty, List.append_nil]
        refine or_congr Iff.rfl ?_
        constructor
        · rintro (rfl | ⟨hne, ⟨b, hb, hkey⟩, hgroup⟩)
          · refine ⟨hk, ⟨a, List.mem_cons_self, rfl⟩, ?_⟩
            rw [List.filter_cons_of_pos (by simp)]
            rfl
          · refine ⟨?_, ⟨b, List.mem_cons_of_mem a hb, hkey⟩, ?_⟩
            · rw [← hkey]
              exact hgone b (List.mem_cons_of_mem a hb)
            · rw [List.filter_cons_of_neg (by simpa using hne.symm)]
              exact hgroup
        · rintro ⟨_, ⟨b, hb, hkey⟩, hgroup⟩
          by_cases hsame : p.1 = key a
          · left
            rw [hsame, List.filter_cons_of_pos (by simp)] at hgroup
            exact Prod.ext hsame hgroup
          · right
            rw [List.filter_cons_of_neg (by simpa using fun h ↦ hsame h.symm)]
              at hgroup
            rcases List.mem_cons.mp hb with rfl | hb
            · exact absurd hkey.symm hsame
            · exact ⟨hsame, ⟨b, hb, hkey⟩, hgroup⟩

theorem nodup_runsFrom {k : κ} {run rest : List α}
    (hle : ∀ a ∈ rest, k ≤ key a)
    (hsorted : rest.Pairwise fun a b ↦ key a ≤ key b) :
    ((runsFrom key k run rest).map Prod.fst).Nodup := by
  induction rest generalizing k run with
  | nil => simp [runsFrom]
  | cons a rest ih =>
      obtain ⟨hhead, htail⟩ := List.pairwise_cons.mp hsorted
      rw [runsFrom]
      by_cases hk : key a = k
      · rw [if_pos hk]
        exact ih (fun b hb ↦ hle b (List.mem_cons_of_mem a hb)) htail
      · rw [if_neg hk, List.map_cons, List.nodup_cons]
        refine ⟨?_, ih hhead htail⟩
        rintro hmem
        obtain ⟨p, hp, rfl⟩ := List.mem_map.mp hmem
        have hlow := hle a List.mem_cons_self
        rcases (mem_runsFrom hhead htail).mp hp with rfl | ⟨_, ⟨b, hb, hkey⟩, _⟩
        · exact hk rfl
        · exact hk (le_antisymm (hkey ▸ hhead b hb) hlow)

/-- The runs of a sorted list come in the order of their keys. -/
theorem pairwise_runsFrom {k : κ} {run rest : List α}
    (hle : ∀ a ∈ rest, k ≤ key a)
    (hsorted : rest.Pairwise fun a b ↦ key a ≤ key b) :
    (runsFrom key k run rest).Pairwise fun p q ↦ p.1 < q.1 := by
  induction rest generalizing k run with
  | nil => exact List.pairwise_singleton _ _
  | cons a rest ih =>
      obtain ⟨hhead, htail⟩ := List.pairwise_cons.mp hsorted
      rw [runsFrom]
      by_cases hk : key a = k
      · rw [if_pos hk]
        exact ih (fun b hb ↦ hle b (List.mem_cons_of_mem a hb)) htail
      · rw [if_neg hk, List.pairwise_cons]
        refine ⟨fun p hp ↦ ?_, ih hhead htail⟩
        have hlt : k < key a :=
          lt_of_le_of_ne (hle a List.mem_cons_self) (Ne.symm hk)
        rcases (mem_runsFrom hhead htail).mp hp with rfl | ⟨_, ⟨b, hb, hkey⟩, _⟩
        · exact hlt
        · exact hkey ▸ lt_of_lt_of_le hlt (hhead b hb)

theorem pairwise_runs {l : List α}
    (hsorted : l.Pairwise fun a b ↦ key a ≤ key b) :
    (runs key l).Pairwise fun p q ↦ p.1 < q.1 := by
  cases l with
  | nil => exact List.Pairwise.nil
  | cons a rest =>
      obtain ⟨hhead, htail⟩ := List.pairwise_cons.mp hsorted
      exact pairwise_runsFrom hhead htail

/-- The runs of a sorted list yield the records of its elements. -/
theorem map_runs_eq_records {out : κ → Multiset α → ω} {f : κ → List α → ω}
    (hf : ∀ k group, f k group = out k group) {l : List α}
    (hsorted : l.Pairwise fun a b ↦ key a ≤ key b) :
    (((runs key l).map fun p ↦ (p.1, f p.1 p.2) : List (κ × ω)) :
        Multiset (κ × ω)) =
      records key out l := by
  cases l with
  | nil => rfl
  | cons a rest =>
      obtain ⟨hhead, htail⟩ := List.pairwise_cons.mp hsorted
      have hmem : ∀ p, p ∈ runs key (a :: rest) ↔
          (∃ b ∈ a :: rest, key b = p.1) ∧
            p.2 = (a :: rest).filter fun b ↦ key b = p.1 := by
        intro p
        rw [runs, mem_runsFrom hhead htail]
        by_cases hsame : p.1 = key a
        · simp [Prod.ext_iff, hsame]
        · have hother : key a ≠ p.1 := fun h ↦ hsame h.symm
          simp [Prod.ext_iff, hsame, hother]
      refine (Multiset.Nodup.ext ?_ (nodup_records key out _)).mpr fun p ↦ ?_
      · have hkeys : ((runs key (a :: rest)).map Prod.fst).Nodup :=
          nodup_runsFrom hhead htail
        refine Multiset.coe_nodup.mpr (List.Nodup.of_map Prod.fst ?_)
        simpa [List.map_map, Function.comp_def] using hkeys
      · rw [Multiset.mem_coe, List.mem_map, mem_records]
        constructor
        · rintro ⟨q, hq, rfl⟩
          obtain ⟨hkey, hgroup⟩ := (hmem q).mp hq
          exact ⟨hkey, by rw [hf, hgroup, Multiset.filter_coe]⟩
        · rintro ⟨hkey, hout⟩
          refine ⟨(p.1, (a :: rest).filter fun b ↦ key b = p.1),
            (hmem _).mpr ⟨hkey, rfl⟩, Prod.ext rfl ?_⟩
          rw [hout, hf, Multiset.filter_coe]

end Sorted

end DistLabs.Grouping
