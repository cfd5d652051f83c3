import Mathlib.Order.Basic

/-!
# Rounds of a partial step with a choice

A system takes rounds one after another.  Every round depends on a choice that
the environment makes, and it may fail.  A goal is reached within `k` rounds
when it is reached without a failure for all choices.
-/

namespace DistLabs

variable {σ β : Type*}

/-- The first `k` rounds; `choice i` is the choice for the round after `i`
others. -/
def rounds (round : β → σ → Option σ) (choice : ℕ → β) : ℕ → σ → Option σ
  | 0, s => some s
  | k + 1, s =>
      (round (choice 0) s).bind (rounds round (fun i ↦ choice (i + 1)) k)

section Rounds

variable {round : β → σ → Option σ} {choice : ℕ → β} {s t : σ} {k m : ℕ}

theorem rounds_succ_of_eq (h : round (choice 0) s = some t) :
    rounds round choice (k + 1) s =
      rounds round (fun i ↦ choice (i + 1)) k t := by
  rw [rounds, h]
  rfl

theorem rounds_add (k m : ℕ) :
    rounds round choice (k + m) s =
      (rounds round choice k s).bind
        (rounds round (fun i ↦ choice (i + k)) m) := by
  induction k generalizing choice s with
  | zero => simp [rounds]
  | succ k ih =>
      rw [Nat.add_right_comm, rounds, rounds, Option.bind_assoc]
      congr 1
      funext t
      rw [ih]
      simp only [Nat.add_assoc]

/-- What every round keeps holds after any number of rounds, none of which
fails. -/
theorem rounds_invariant {I : σ → Prop}
    (hstep : ∀ b {s}, I s → ∃ t, round b s = some t ∧ I t) (h : I s)
    (choice : ℕ → β) (k : ℕ) :
    ∃ t, rounds round choice k s = some t ∧ I t := by
  induction k generalizing choice s with
  | zero => exact ⟨s, rfl, h⟩
  | succ k ih =>
      obtain ⟨t, ht, hI⟩ := hstep (choice 0) h
      rw [rounds_succ_of_eq ht]
      exact ih hI _

/-- Goal `P` is reached within `k` rounds, whatever is chosen. -/
def ReachedWithin (round : β → σ → Option σ) (P : σ → Prop) (k : ℕ) (s : σ) :
    Prop :=
  ∀ choice : ℕ → β, ∃ m ≤ k, ∃ t, rounds round choice m s = some t ∧ P t

variable {P : σ → Prop}

/-- The goal is reached when every round reaches it or lowers a bound on the
number of rounds after it. -/
theorem ReachedWithin.of_bound {I : ℕ → σ → Prop}
    (hstep : ∀ b {k s}, I k s →
      ∃ t, round b s = some t ∧ (P t ∨ ∃ m < k, I m t))
    (h : I k s) : ReachedWithin round P (k + 1) s := by
  induction k using Nat.strongRecOn generalizing s with
  | ind k ih =>
      intro choice
      obtain ⟨t, ht, hP | ⟨m, hm, hI⟩⟩ := hstep (choice 0) h
      · exact ⟨1, by omega, t, by rw [rounds_succ_of_eq ht]; rfl, hP⟩
      · obtain ⟨i, hi, u, hu, hP⟩ := ih m hm hI fun i ↦ choice (i + 1)
        exact ⟨i + 1, by omega, u, by rw [rounds_succ_of_eq ht, hu], hP⟩

/-- Some round fails when every round fails or lowers a bound on the number of
rounds after it. -/
theorem exists_rounds_eq_none {I : ℕ → σ → Prop}
    (hstep : ∀ b {k s}, I k s →
      round b s = none ∨ ∃ t, round b s = some t ∧ ∃ m < k, I m t)
    (h : I k s) (choice : ℕ → β) : ∃ m, rounds round choice m s = none := by
  induction k using Nat.strongRecOn generalizing choice s with
  | ind k ih =>
      rcases hstep (choice 0) h with hnone | ⟨t, ht, m, hm, hI⟩
      · exact ⟨1, by rw [rounds, hnone]; rfl⟩
      · obtain ⟨i, hi⟩ := ih m hm hI fun i ↦ choice (i + 1)
        exact ⟨i + 1, by rw [rounds_succ_of_eq ht, hi]⟩

/-- No round fails when a goal that is kept is reached. -/
theorem ReachedWithin.isSome (h : ReachedWithin round P k s)
    (hstep : ∀ b {s}, P s → ∃ t, round b s = some t ∧ P t)
    (choice : ℕ → β) (m : ℕ) : (rounds round choice m s).isSome := by
  obtain ⟨i, _, t, ht, hP⟩ := h choice
  obtain ⟨u, hu, _⟩ := rounds_invariant hstep hP (fun j ↦ choice (j + i)) m
  have hlater : (rounds round choice (i + m) s).isSome := by
    rw [rounds_add, ht, Option.bind_some, hu]
    rfl
  rw [Nat.add_comm, rounds_add] at hlater
  exact Option.isSome_of_isSome_bind hlater

end Rounds

end DistLabs
