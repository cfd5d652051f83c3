import Mathlib.Data.List.Basic

/-!
# Runs of a deterministic labelled transition system

A system is given by a partial step function on states and actions.  A run
records every state it has visited, the latest first, so that statements about
different moments of one run quantify over the visited list.  Each step of a
run satisfies a side condition `ok`; environment contracts and restrictions to
well-behaved steps are both expressed through it.
-/

namespace DistLabs

variable {σ α : Type*}

/-- `Run step ok init visited s` holds when `s` is reached from `init` by steps
that all satisfy `ok`, passing exactly through `visited`, latest first. -/
inductive Run (step : σ → α → Option σ) (ok : σ → α → Prop) (init : σ) :
    List σ → σ → Prop
  | start : Run step ok init [init] init
  | next {visited : List σ} {s s' : σ} {a : α} :
      Run step ok init visited s → ok s a → step s a = some s' →
        Run step ok init (s' :: visited) s'

namespace Run

variable {step : σ → α → Option σ} {ok ok' : σ → α → Prop} {init : σ}
variable {visited : List σ} {s : σ}

/-- The invariance rule: what holds initially and is kept by every permitted
step holds at every visited state. -/
theorem invariant {I : σ → Prop} (hinit : I init)
    (hstep : ∀ {s s' a}, I s → ok s a → step s a = some s' → I s')
    (hrun : Run step ok init visited s) : I s := by
  induction hrun with
  | start => exact hinit
  | next _ hok hs ih => exact hstep ih hok hs

theorem mem_visited (hrun : Run step ok init visited s) : s ∈ visited := by
  cases hrun with
  | start => exact List.mem_singleton_self _
  | next => exact List.mem_cons_self

theorem init_mem (hrun : Run step ok init visited s) : init ∈ visited := by
  induction hrun with
  | start => exact List.mem_singleton_self _
  | next _ _ _ ih => exact List.mem_cons_of_mem _ ih

/-- Every visited state is itself the end of a run. -/
theorem of_mem_visited (hrun : Run step ok init visited s)
    {t : σ} (ht : t ∈ visited) :
    ∃ earlier, Run step ok init earlier t := by
  induction hrun with
  | start =>
      rw [List.mem_singleton] at ht
      subst ht
      exact ⟨_, Run.start⟩
  | @next visited s s' a hrun hok hs ih =>
      rcases List.mem_cons.mp ht with rfl | hold
      · exact ⟨_, Run.next hrun hok hs⟩
      · exact ih hold

theorem mono (himp : ∀ s a, ok s a → ok' s a)
    (hrun : Run step ok init visited s) :
    Run step ok' init visited s := by
  induction hrun with
  | start => exact Run.start
  | next _ hok hs ih => exact Run.next ih (himp _ _ hok) hs

/-- A run can be continued by another one. -/
theorem trans {t : σ} {later : List σ} (hrun : Run step ok init visited s)
    (hlater : Run step ok s later t) : ∃ all, Run step ok init all t := by
  induction hlater with
  | start => exact ⟨visited, hrun⟩
  | next _ hok hs ih =>
      obtain ⟨all, hall⟩ := ih
      exact ⟨_, hall.next hok hs⟩

/-- Along a run an invariant may be used to derive another side condition. -/
theorem strengthen {I : σ → Prop} (hinit : I init)
    (hstep : ∀ {s s' a}, I s → ok s a → step s a = some s' → I s')
    (himp : ∀ {s a}, I s → ok s a → ok' s a)
    (hrun : Run step ok init visited s) :
    Run step ok' init visited s := by
  induction hrun with
  | start => exact Run.start
  | next hprev hok hs ih =>
      exact Run.next ih (himp (hprev.invariant hinit hstep) hok) hs

/-- What a visited state records in a component that no step forgets is still
recorded at the end of the run. -/
theorem of_mem_visited_mono {P : σ → Prop}
    (hmono : ∀ {s s' a}, P s → step s a = some s' → P s')
    (hrun : Run step ok init visited s)
    {t : σ} (ht : t ∈ visited) (hP : P t) : P s := by
  induction hrun with
  | start =>
      rw [List.mem_singleton] at ht
      rwa [← ht]
  | @next visited s s' a _ _ hs ih =>
      rcases List.mem_cons.mp ht with rfl | hold
      · exact hP
      · exact hmono (ih hold) hs

/-- If every step lowers a budget, a run is no longer than the budget. -/
theorem bounded {Good : ℕ → σ → Prop} {k : ℕ} (hinit : Good k init)
    (hstep : ∀ {k s s' a}, Good k s → ok s a → step s a = some s' →
      ∃ k' < k, Good k' s')
    (hrun : Run step ok init visited s) :
    ∃ k', Good k' s ∧ visited.length + k' ≤ k + 1 := by
  induction hrun with
  | start => exact ⟨k, hinit, Nat.le_of_eq (Nat.add_comm 1 k)⟩
  | next _ hok hs ih =>
      obtain ⟨k₁, hgood, hle⟩ := ih
      obtain ⟨k₂, hlt, hgood'⟩ := hstep hgood hok hs
      refine ⟨k₂, hgood', ?_⟩
      rw [List.length_cons]
      omega

/-- The simulation rule: if every step is matched by a step of another system or
by none, a run is matched by a run of that system. -/
theorem simulates {τ β : Type*} {step' : τ → β → Option τ}
    {ok' : τ → β → Prop} {R : σ → τ → Prop} {init' : τ} (hinit : R init init')
    (hstep : ∀ {s s' a t}, R s t → ok s a → step s a = some s' →
      R s' t ∨ ∃ b t', ok' t b ∧ step' t b = some t' ∧ R s' t')
    (hrun : Run step ok init visited s) :
    ∃ visited' t, Run step' ok' init' visited' t ∧ R s t := by
  induction hrun with
  | start => exact ⟨_, init', Run.start, hinit⟩
  | next _ hok hs ih =>
      obtain ⟨visited', t, hrun', hR⟩ := ih
      obtain hstay | ⟨b, t', hok', hs', hR'⟩ := hstep hR hok hs
      · exact ⟨visited', t, hrun', hstay⟩
      · exact ⟨_, t', Run.next hrun' hok' hs', hR'⟩

end Run

/-- `Counted step ok costs init k s` holds when `s` is reached from `init` by
steps that all satisfy `ok`, and `k` of them satisfy `costs`. -/
inductive Counted (step : σ → α → Option σ) (ok costs : σ → α → Prop)
    (init : σ) : ℕ → σ → Prop
  | start : Counted step ok costs init 0 init
  | free {k : ℕ} {s s' : σ} {a : α} :
      Counted step ok costs init k s → ok s a → ¬ costs s a →
        step s a = some s' → Counted step ok costs init k s'
  | paid {k : ℕ} {s s' : σ} {a : α} :
      Counted step ok costs init k s → ok s a → costs s a →
        step s a = some s' → Counted step ok costs init (k + 1) s'

/-- Perform a list of actions, stopping with `none` at the first action that is
not permitted or not enabled. -/
def exec (step : σ → α → Option σ) (ok : σ → α → Prop)
    [∀ s a, Decidable (ok s a)] (s : σ) : List α → Option σ
  | [] => some s
  | a :: acts =>
      if ok s a then
        match step s a with
        | some s' => exec step ok s' acts
        | none => none
      else
        none

/-- An execution extends a run. -/
theorem Run.exec_append {step : σ → α → Option σ} {ok : σ → α → Prop}
    [∀ s a, Decidable (ok s a)] {init : σ} {acts : List α} :
    ∀ {visited : List σ} {s s' : σ}, Run step ok init visited s →
      exec step ok s acts = some s' →
        ∃ later, Run step ok init (later ++ visited) s' := by
  induction acts with
  | nil =>
      intro visited s s' hrun hexec
      obtain rfl : s = s' := Option.some.inj hexec
      exact ⟨[], hrun⟩
  | cons a acts ih =>
      intro visited s s' hrun hexec
      rw [exec] at hexec
      split at hexec
      · next hok =>
          cases hs : step s a with
          | none => simp [hs] at hexec
          | some t =>
              rw [hs] at hexec
              obtain ⟨later, hlater⟩ := ih (Run.next hrun hok hs) hexec
              exact ⟨later ++ [t], by simpa using hlater⟩
      · simp at hexec

/-- A successful execution from the initial state is a run. -/
theorem Run.of_exec {step : σ → α → Option σ} {ok : σ → α → Prop}
    [∀ s a, Decidable (ok s a)] {init s : σ} {acts : List α}
    (hexec : exec step ok init acts = some s) :
    ∃ visited, Run step ok init visited s := by
  obtain ⟨later, hlater⟩ := Run.start.exec_append hexec
  exact ⟨_, hlater⟩

/-- A property that an execution ends in holds at the end of some run. -/
theorem Run.exists_of_exec (step : σ → α → Option σ) (ok : σ → α → Prop)
    [∀ s a, Decidable (ok s a)] (init : σ) (acts : List α) (P : σ → Prop)
    [DecidablePred P]
    (hexec : (exec step ok init acts).any (fun s ↦ decide (P s)) = true) :
    ∃ visited s, Run step ok init visited s ∧ P s := by
  cases hend : exec step ok init acts with
  | none => simp [hend] at hexec
  | some s =>
      obtain ⟨visited, hrun⟩ := Run.of_exec hend
      exact ⟨visited, s, hrun, by simpa [hend] using hexec⟩

end DistLabs
