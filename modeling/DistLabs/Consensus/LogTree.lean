import Mathlib.Data.List.Basic
import Mathlib.Data.List.Infix
import Mathlib.Data.List.Induction
import Mathlib.Data.List.TakeDrop

/-!
# Logs as nodes of a tree

A log is a finite list of entries, each stamped with a term.  Positions are
counted from one, and position zero stands for the empty history, whose term is
zero.  The logs that ever exist in a replicated system are the nodes of a tree:
the set is closed under prefixes, and a node is determined by its length and
the term of its last entry.  Log matching is a property of every such tree.
-/

namespace DistLabs.Consensus

variable {E : Type*} (τ : E → ℕ)

/-- Term of the entry at position `i`, with position zero carrying term zero. -/
def termAt (L : List E) : ℕ → ℕ
  | 0 => 0
  | i + 1 => (L[i]?).elim 0 τ

/-- Term of the last entry, or zero for the empty log. -/
def lastTerm (L : List E) : ℕ :=
  termAt τ L L.length

@[simp] theorem termAt_zero (L : List E) : termAt τ L 0 = 0 := rfl

@[simp] theorem lastTerm_nil : lastTerm τ ([] : List E) = 0 := rfl

theorem termAt_succ {L : List E} {i : ℕ} {e : E} (h : L[i]? = some e) :
    termAt τ L (i + 1) = τ e := by
  simp [termAt, h]

@[simp] theorem lastTerm_append_singleton (L : List E) (e : E) :
    lastTerm τ (L ++ [e]) = τ e := by
  simp [lastTerm, termAt]

theorem termAt_prefix_eq {K L : List E} (h : K <+: L) {i : ℕ}
    (hi : i ≤ K.length) : termAt τ K i = termAt τ L i := by
  obtain ⟨M, rfl⟩ := h
  cases i with
  | zero => rfl
  | succ i =>
      have hlt : i < K.length := hi
      simp [termAt, List.getElem?_append_left hlt]

theorem termAt_take {L : List E} {i k : ℕ} (hik : i ≤ k) (hk : k ≤ L.length) :
    termAt τ (L.take k) i = termAt τ L i :=
  termAt_prefix_eq τ (List.take_prefix k L) (by simp; omega)

theorem lastTerm_take {L : List E} {k : ℕ} (hk : k ≤ L.length) :
    lastTerm τ (L.take k) = termAt τ L k := by
  have hlen : (L.take k).length = k := by simp [hk]
  rw [lastTerm, hlen, termAt_take τ (Nat.le_refl k) hk]

theorem lastTerm_prefix_eq {K L : List E} (h : K <+: L) :
    lastTerm τ K = termAt τ L K.length :=
  termAt_prefix_eq τ h (Nat.le_refl _)

/-- Terms do not decrease along a log. -/
def TermSorted (L : List E) : Prop :=
  ∀ i j, i ≤ j → j ≤ L.length → termAt τ L i ≤ termAt τ L j

theorem TermSorted.lastTerm_le {K L : List E} (hL : TermSorted τ L)
    (h : K <+: L) : lastTerm τ K ≤ lastTerm τ L := by
  rw [lastTerm_prefix_eq τ h]
  exact hL _ _ h.length_le (Nat.le_refl _)

theorem termSorted_nil : TermSorted τ ([] : List E) := by
  intro i j hij hj
  obtain rfl : j = 0 := by simpa using hj
  obtain rfl : i = 0 := by omega
  exact Nat.le_refl _

theorem TermSorted.append_singleton {L : List E} (hL : TermSorted τ L) {e : E}
    (he : lastTerm τ L ≤ τ e) : TermSorted τ (L ++ [e]) := by
  intro i j hij hj
  have hpre : L <+: L ++ [e] := List.prefix_append L [e]
  by_cases hjL : j ≤ L.length
  · rw [← termAt_prefix_eq τ hpre hjL,
      ← termAt_prefix_eq τ hpre (hij.trans hjL)]
    exact hL i j hij hjL
  · simp only [List.length_append, List.length_singleton] at hj
    have hlast : termAt τ (L ++ [e]) j = τ e := by
      obtain rfl : j = (L ++ [e]).length := by simp; omega
      exact lastTerm_append_singleton τ L e
    rw [hlast]
    by_cases hiL : i ≤ L.length
    · rw [← termAt_prefix_eq τ hpre hiL]
      exact (hL i L.length hiL (Nat.le_refl _)).trans he
    · have hieq : i = j := by omega
      rw [hieq, hlast]

/-- The prefix-closed sets of logs in which length and last term determine a
nonempty log. -/
structure LogTree (made : List E → Prop) : Prop where
  nil : made []
  closed : ∀ {K L : List E}, made L → K <+: L → made K
  unique : ∀ {K L : List E}, made K → made L → K.length = L.length →
    0 < K.length → lastTerm τ K = lastTerm τ L → K = L

theorem logTree_singleton_nil : LogTree τ (fun L : List E ↦ L = []) where
  nil := rfl
  closed := by
    intro K L hL hKL
    subst hL
    exact List.prefix_nil.mp hKL
  unique := by
    intro K L hK hL _ hpos _
    rw [hK, hL]

namespace LogTree

variable {τ} {made : List E → Prop}

/-- Log matching: two logs of the tree whose terms agree at one position agree
on everything up to it. -/
theorem matching (htree : LogTree τ made) {K L : List E}
    (hK : made K) (hL : made L) {i : ℕ} (hiK : i ≤ K.length)
    (hiL : i ≤ L.length) (hterm : termAt τ K i = termAt τ L i) :
    K.take i = L.take i := by
  cases i with
  | zero => simp
  | succ i =>
      apply htree.unique
        (htree.closed hK (List.take_prefix _ _))
        (htree.closed hL (List.take_prefix _ _))
      · simp only [List.length_take]
        omega
      · simp only [List.length_take]
        omega
      · rw [lastTerm_take τ hiK, lastTerm_take τ hiL, hterm]

/-- A log of the tree that carries the last term of another at its length has
it as a prefix. -/
theorem prefix_of_termAt (htree : LogTree τ made) {K L : List E}
    (hK : made K) (hL : made L) (hlen : K.length ≤ L.length)
    (hterm : lastTerm τ K = termAt τ L K.length) : K <+: L := by
  have htake := htree.matching hK hL (Nat.le_refl _) hlen hterm
  rw [List.take_length] at htake
  rw [htake]
  exact List.take_prefix _ _

/-- A node can be added below an existing one when its term is new at its
depth. -/
theorem insert (htree : LogTree τ made) {L : List E} {e : E} (hL : made L)
    (hfresh : ∀ K, made K → K.length = L.length + 1 → lastTerm τ K ≠ τ e) :
    LogTree τ (fun K ↦ made K ∨ K = L ++ [e]) where
  nil := Or.inl htree.nil
  closed := by
    intro K M hM hKM
    rcases hM with hM | rfl
    · exact Or.inl (htree.closed hM hKM)
    · rcases List.prefix_concat_iff.mp hKM with rfl | hKL
      · exact Or.inr rfl
      · exact Or.inl (htree.closed hL hKL)
  unique := by
    intro K M hK hM hlen hpos hterm
    rcases hK with hK | rfl
    · rcases hM with hM | rfl
      · exact htree.unique hK hM hlen hpos hterm
      · rw [lastTerm_append_singleton] at hterm
        exact absurd hterm (hfresh K hK (by simpa using hlen))
    · rcases hM with hM | rfl
      · rw [lastTerm_append_singleton] at hterm
        exact absurd hterm.symm (hfresh M hM (by simpa using hlen.symm))
      · rfl

end LogTree

/-! ## Candidates' logs -/

/-- `L` is at least as recent as `M`: its last term is larger, or the terms are
equal and it is no shorter. -/
def UpToDate (L M : List E) : Prop :=
  lastTerm τ M < lastTerm τ L ∨
    (lastTerm τ L = lastTerm τ M ∧ M.length ≤ L.length)

end DistLabs.Consensus
