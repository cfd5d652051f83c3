import DistLabs.Consensus.LogTree
import DistLabs.Raft.Server

/-!
# The full log behind a compacted one

A server keeps the entries of its log after `LastIncludedIndex`, behind a
sentinel that carries the term of the last entry it has dropped.  `RepLog` says
which full log such a list stands for.  The lemmas follow the operations of the
code: reading by virtual index, appending, compacting, cutting, splicing in the
entries of a request, and replacing everything by a snapshot.
-/

namespace DistLabs

open Consensus

variable {Cmd : Type}

/-- Term of an entry, as the abstract logs use it. -/
abbrev entryTerm : LogEntry Cmd → ℕ :=
  LogEntry.logTerm

/-- `log` holds the entries of `L` after index `lii`, behind a sentinel with the
term `lit` of the entry at `lii`. -/
def RepLog (L : List (LogEntry Cmd)) (lii : ℤ) (lit : ℕ)
    (log : List (LogEntry Cmd)) : Prop :=
  ∃ (k : ℕ) (x : Cmd), k ≤ L.length ∧ lii = k ∧ lit = termAt entryTerm L k ∧
    log = ⟨lit, x⟩ :: L.drop k

namespace RepLog

variable {L M log : List (LogEntry Cmd)} {lii i : ℤ} {lit : ℕ}
  {e : LogEntry Cmd}

theorem nil (x : Cmd) : RepLog [] 0 0 [⟨0, x⟩] :=
  ⟨0, x, Nat.le_refl _, rfl, rfl, rfl⟩

theorem single (L : List (LogEntry Cmd)) (x : Cmd) :
    RepLog L L.length (lastTerm entryTerm L) [⟨lastTerm entryTerm L, x⟩] :=
  ⟨L.length, x, Nat.le_refl _, rfl, rfl, by simp⟩

theorem nonneg (h : RepLog L lii lit log) : 0 ≤ lii := by
  obtain ⟨k, x, _, rfl, _⟩ := h
  omega

theorem le_length (h : RepLog L lii lit log) : lii ≤ L.length := by
  obtain ⟨k, x, hk, rfl, _⟩ := h
  omega

theorem length_eq (h : RepLog L lii lit log) :
    lii + log.length = L.length + 1 := by
  obtain ⟨k, x, hk, rfl, _, rfl⟩ := h
  simp only [List.length_cons, List.length_drop]
  omega

theorem lit_eq (h : RepLog L lii lit log) :
    lit = termAt entryTerm L lii.toNat := by
  obtain ⟨k, x, hk, rfl, hlit, _⟩ := h
  rwa [Int.toNat_natCast]

/-- The term that is read at a virtual index is the one of the full log. -/
theorem elemAt_term (h : RepLog L lii lit log)
    (he : elemAt log (i - lii) = some e) :
    lii ≤ i ∧ i ≤ L.length ∧ e.logTerm = termAt entryTerm L i.toNat := by
  obtain ⟨k, x, hk, rfl, rfl, rfl⟩ := h
  obtain ⟨p, hp, hget⟩ := elemAt_eq_some_iff.mp he
  have hi : i = ((k + p : ℕ) : ℤ) := by omega
  have hlt := (List.getElem?_eq_some_iff.mp hget).1
  simp only [List.length_cons, List.length_drop] at hlt
  refine ⟨by omega, by omega, ?_⟩
  rw [hi, Int.toNat_natCast]
  cases p with
  | zero =>
      obtain rfl := by simpa using hget
      rfl
  | succ p =>
      rw [List.getElem?_cons_succ, List.getElem?_drop] at hget
      exact (termAt_succ entryTerm hget).symm

/-- The entry that is read at a virtual index above the sentinel is the one of
the full log. -/
theorem elemAt_entry (h : RepLog L lii lit log) (hi : lii < i) :
    elemAt log (i - lii) = L[i.toNat - 1]? := by
  obtain ⟨k, x, hk, rfl, rfl, rfl⟩ := h
  obtain ⟨p, hp⟩ : ∃ p : ℕ, i = ((k + p + 1 : ℕ) : ℤ) :=
    ⟨(i - k - 1).toNat, by omega⟩
  have hphys : i - (k : ℤ) = ((p + 1 : ℕ) : ℤ) := by omega
  have hvirt : i.toNat - 1 = k + p := by omega
  rw [hphys, elemAt_natCast, List.getElem?_cons_succ, List.getElem?_drop,
    hvirt]

/-- The physical entries behind virtual index `p` are those of the full log. -/
theorem drop_succ (h : RepLog L lii lit log) {p : ℕ} (hi : i = p)
    (hp : lii ≤ p) : log.drop ((i - lii).toNat + 1) = L.drop p := by
  obtain ⟨k, x, hk, rfl, rfl, rfl⟩ := h
  have hphys : (i - (k : ℤ)).toNat = p - k := by omega
  rw [hphys, List.drop_succ_cons, List.drop_drop]
  congr 1
  omega

theorem append (h : RepLog L lii lit log) (e : LogEntry Cmd) :
    RepLog (L ++ [e]) lii lit (log ++ [e]) := by
  obtain ⟨k, x, hk, rfl, rfl, rfl⟩ := h
  have hterm : termAt entryTerm L k = termAt entryTerm (L ++ [e]) k :=
    termAt_prefix_eq entryTerm (List.prefix_append L [e]) hk
  refine ⟨k, x, by simp; omega, rfl, hterm, ?_⟩
  rw [List.cons_append, List.drop_append_of_le_length hk]

/-- Dropping the entries in front of virtual index `i`. -/
theorem compact (h : RepLog L lii lit log)
    (he : elemAt log (i - lii) = some e) :
    RepLog L i e.logTerm (log.drop (i - lii).toNat) := by
  obtain ⟨hlow, hhigh, hterm⟩ := h.elemAt_term he
  obtain ⟨k, x, hk, rfl, rfl, rfl⟩ := h
  obtain ⟨p, hp, hget⟩ := elemAt_eq_some_iff.mp he
  have hi : i = ((k + p : ℕ) : ℤ) := by omega
  obtain ⟨hlt, hget⟩ := List.getElem?_eq_some_iff.mp hget
  rw [hi, Int.toNat_natCast] at hterm
  refine ⟨k + p, e.command, by omega, hi, hterm, ?_⟩
  rw [hp, Int.toNat_natCast, List.drop_eq_getElem_cons hlt, hget,
    List.drop_succ_cons, List.drop_drop]

/-- Cutting the log at the physical index `p`; the sentinel always stays. -/
theorem cut (h : RepLog L lii lit log) {p : ℕ} (hp : lii + p ≤ L.length) :
    RepLog (L.take (lii.toNat + p)) lii lit (log.take (p + 1)) := by
  obtain ⟨k, x, hk, rfl, rfl, rfl⟩ := h
  rw [Int.toNat_natCast]
  have hterm : termAt entryTerm L k = termAt entryTerm (L.take (k + p)) k :=
    (termAt_take entryTerm (by omega) (by omega)).symm
  refine ⟨k, x, ?_, rfl, hterm, ?_⟩
  · rw [List.length_take]
    omega
  · have hdrop : (L.take (k + p)).drop k = (L.drop k).take p := by
      rw [List.drop_take, Nat.add_sub_cancel_left]
    rw [List.take_succ_cons, hdrop]

/-- Replacing everything after virtual index `p` by the entries of a log that
agrees up to there. -/
theorem splice (h : RepLog L lii lit log) {p : ℕ} (hp : lii ≤ p)
    (hpL : p ≤ L.length) (hpM : p ≤ M.length)
    (hagree : L.take p = M.take p) :
    RepLog M lii lit (log.take ((p - lii).toNat + 1) ++ M.drop p) := by
  obtain ⟨k, x, hk, rfl, rfl, rfl⟩ := h
  have hkp : k ≤ p := by omega
  have hterm : termAt entryTerm L k = termAt entryTerm M k := by
    rw [← termAt_take entryTerm hkp hpL, hagree,
      termAt_take entryTerm hkp hpM]
  refine ⟨k, x, by omega, rfl, hterm, ?_⟩
  have hphys : ((p : ℤ) - k).toNat = p - k := by omega
  have hmid : (L.drop k).take (p - k) = (M.drop k).take (p - k) := by
    rw [← List.drop_take, ← List.drop_take, hagree]
  have hrest : M.drop p = (M.drop k).drop (p - k) := by
    rw [List.drop_drop]
    congr 1
    omega
  rw [hphys, List.take_succ_cons, List.cons_append, hmid, hrest,
    List.take_append_drop]

end RepLog

end DistLabs
