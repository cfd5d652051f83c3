import DistLabs.Mr.Progress

/-!
# Late commits

`CommitOK` counts every commit, and the counters are compared for equality.  A
worker that was taken for dead and commits after the last task of its kind makes
them miss the values for which the job is done.
-/

namespace DistLabs.Mr

theorem Phase.eq_finished {phase : Phase} {work : TasksMetadata × List ℕ}
    (h : phase.finished? = some work) : phase = .finished work.1 work.2 := by
  cases phase with
  | finished task intermediates =>
      obtain rfl := Option.some.inj h
      rfl
  | _ => cases h

namespace Job

section Hanging

variable {app : App} {σ σ' σ₀ : Job} {a : Action}

/-- The counters of `σ` are those of `σ₀` or have gone on. -/
structure Counted (σ₀ σ : Job) : Prop where
  nfile : σ.coordinator.nfile = σ₀.coordinator.nfile
  nMapped : σ₀.coordinator.nMapped ≤ σ.coordinator.nMapped
  nReduce : σ.coordinator.nReduce ≤ σ₀.coordinator.nReduce

/-- The counters never go back. -/
theorem Counted.change (hcounted : Counted σ₀ σ) (h : Change app σ a σ') :
    Counted σ₀ σ' := by
  obtain ⟨hnfile, hnMapped, hnReduce⟩ := hcounted
  cases h with
  | quiet h =>
      exact ⟨h.table.nfile ▸ hnfile, h.table.nMapped ▸ hnMapped,
        h.table.nReduce ▸ hnReduce⟩
  | assign => exact ⟨by simpa, by simpa, by simpa⟩
  | doTask => exact ⟨hnfile, hnMapped, hnReduce⟩
  | @commitOK pid task intermediates c wakes hphase hcommits =>
      refine ⟨hcommits.nfile.trans hnfile, ?_, ?_⟩
      · change _ ≤ c.nMapped
        rw [hcommits.nMapped]
        split <;> omega
      · change c.nReduce ≤ _
        rw [hcommits.nReduce]
        split <;> omega
  | expire => exact ⟨by simpa, by simpa, by simpa⟩

/-- Every completed task of a job with `nReduce` reduce tasks is counted. -/
structure CountsCompleted (nReduce : ℤ) (c : Coordinator) : Prop where
  nMapped : (c.completed .map).card ≤ c.nMapped
  nReduce_le : c.nReduce ≤ nReduce - (c.completed .reduce).card
  nfile : c.nfile = (c.tasks .map).length
  reduces : (c.tasks .reduce).length = nReduce.toNat

namespace CountsCompleted

variable {c c' : Coordinator} {nReduce : ℤ}

theorem mono (h : CountsCompleted nReduce c)
    (hcompleted : ∀ ty, c'.completed ty ⊆ c.completed ty)
    (hlength : ∀ ty, (c'.tasks ty).length = (c.tasks ty).length)
    (hnMapped : c'.nMapped = c.nMapped) (hnReduce : c'.nReduce = c.nReduce)
    (hnfile : c'.nfile = c.nfile) : CountsCompleted nReduce c' where
  nMapped := by
    rw [hnMapped]
    exact (Finset.card_le_card (hcompleted .map)).trans h.nMapped
  nReduce_le := by
    have hcard := Finset.card_le_card (hcompleted .reduce)
    have hle := h.nReduce_le
    omega
  nfile := by rw [hnfile, hlength, h.nfile]
  reduces := by rw [hlength, h.reduces]

/-- A commit completes at most one task, and is counted. -/
theorem commits (h : CountsCompleted nReduce c) {pid : ℕ}
    {task : TasksMetadata} {intermediates : List ℕ}
    (hcommits : Coordinator.Commits c pid task intermediates c') :
    CountsCompleted nReduce c' := by
  have hcard : ∀ ty, (c'.completed ty).card ≤
      (c.completed ty).card + if ty = task.taskType then 1 else 0 := by
    intro ty
    split
    · refine (Finset.card_le_card fun num hnum ↦ ?_).trans
        (Finset.card_insert_le task.taskNum (c.completed ty))
      rw [Coordinator.mem_completed, hcommits.state_completed_iff] at hnum
      rw [Finset.mem_insert, Coordinator.mem_completed]
      exact hnum.imp_left And.right
    · next hne =>
        rw [Nat.add_zero]
        refine Finset.card_le_card fun num hnum ↦ ?_
        rw [Coordinator.mem_completed, hcommits.state_completed_iff] at hnum
        exact Coordinator.mem_completed.mpr
          (hnum.resolve_left fun heq ↦ hne heq.1)
  have hmap := hcard .map
  have hreduce := hcard .reduce
  have hnMapped := h.nMapped
  have hnReduce := h.nReduce_le
  refine ⟨?_, ?_, ?_, ?_⟩
  · rw [hcommits.nMapped]
    cases hty : task.taskType <;> simp [hty] at hmap ⊢ <;> omega
  · rw [hcommits.nReduce]
    cases hty : task.taskType <;> simp [hty] at hreduce ⊢ <;> omega
  · rw [hcommits.nfile, hcommits.length, h.nfile]
  · rw [hcommits.length, h.reduces]

theorem change (hcounts : CountsCompleted nReduce σ.coordinator)
    (h : Change app σ a σ') : CountsCompleted nReduce σ'.coordinator := by
  cases h with
  | quiet h =>
      exact hcounts.mono
        (fun ty ↦ (Coordinator.completed_congr
          fun num ↦ by rw [h.table.state]).subset)
        (fun _ ↦ by rw [h.table.tasks]) h.table.nMapped h.table.nReduce
        h.table.nfile
  | @assign pid x num hphase hidle =>
      exact hcounts.mono
        (fun ty ↦ (Coordinator.completed_congr fun num ↦
          Coordinator.assignTask_completed_iff pid hidle).subset)
        (by simp) (by simp) (by simp) (by simp)
  | doTask => exact hcounts
  | commitOK hphase hcommits => exact hcounts.commits hcommits
  | @expire pid now w hworker hexpires hlt =>
      refine hcounts.mono (fun ty num hnum ↦ ?_)
        (by simp) (by simp) (by simp) (by simp)
      rw [Coordinator.mem_completed, expire_coordinator,
        Coordinator.state_release pid hlt] at hnum
      split at hnum
      · cases hnum
      · exact Coordinator.mem_completed.mpr hnum

/-- In every run every completed task is counted. -/
theorem of_run {disk : Disk} {files : List String} {visited : List Job}
    (hrun : Run (step app) (fun _ _ ↦ True) (init disk files nReduce)
      visited σ) : CountsCompleted nReduce σ.coordinator := by
  have hinit : CountsCompleted nReduce (initCoordinator files nReduce) := by
    obtain ⟨hnMapped, hnReduce, hnfile, hreduces⟩ := Exact.init files nReduce
    exact ⟨hnMapped.ge, hnReduce.le, hnfile, hreduces⟩
  exact hrun.invariant (I := fun σ ↦ CountsCompleted nReduce σ.coordinator)
    hinit fun h _ hstep ↦ h.change (step_change hstep)

/-- A task that is committed after all tasks of its kind are completed is
counted once too often. -/
theorem overcounts (h : CountsCompleted nReduce c) {pid : ℕ}
    {task : TasksMetadata} {intermediates : List ℕ}
    (hcommits : Coordinator.Commits c pid task intermediates c')
    (hall : ∀ x ∈ c.tasks task.taskType, x.taskState = .completed) :
    task.taskType = .map ∧ c'.nfile < c'.nMapped ∨
      task.taskType = .reduce ∧ c'.nReduce < 0 := by
  have hlt := hcommits.inRange
  have hcard : (c.completed task.taskType).card =
      (c.tasks task.taskType).length := by
    have hrange : c.completed task.taskType =
        Finset.range (c.tasks task.taskType).length := by
      ext num
      rw [Coordinator.mem_completed, Finset.mem_range,
        Coordinator.state_completed_iff_lt hall]
    rw [hrange, Finset.card_range]
  cases hty : task.taskType with
  | map =>
      rw [hty] at hcard
      refine Or.inl ⟨rfl, ?_⟩
      rw [hcommits.nfile, hcommits.nMapped, if_pos hty, h.nfile, ← hcard]
      exact Nat.lt_succ_of_le h.nMapped
  | reduce =>
      rw [hty] at hcard hlt
      have hle := h.nReduce_le
      rw [hcard, h.reduces] at hle
      rw [h.reduces] at hlt
      rw [hcommits.nReduce, if_pos hty]
      exact Or.inr ⟨rfl, by omega⟩

end CountsCompleted

/-- If a worker that was taken for dead commits a task after all tasks of this
kind have been completed, the job never finishes: from then on `Done` is false
and no worker is told that the job is done, and after the commit of a map task
no reduce task is handed out. -/
theorem late_commit_hangs {disk : Disk} {files : List String} {nReduce : ℤ}
    {visited visited' : List Job}
    (hrun : Run (step app) (fun _ _ ↦ True) (init disk files nReduce)
      visited σ)
    {pid : ℕ} {task : TasksMetadata} {intermediates : List ℕ}
    (hphase : σ.worker pid = .finished task intermediates)
    (hall : ∀ x ∈ σ.coordinator.tasks task.taskType,
      x.taskState = .completed)
    (hstep : σ.step app (.commitOK pid) = some σ₀)
    (hlater : Run (step app) (fun _ _ ↦ True) σ₀ visited' σ') :
    σ'.coordinator.done = false ∧
    ∀ p σ'', σ'.step app (.task p) = some σ'' →
      σ''.worker p = .waiting ∨
        ∃ task' k, σ''.worker p = .assigned task' k ∧
          (task.taskType = .map → task'.taskType = .map) := by
  have hover : task.taskType = .map ∧
      σ₀.coordinator.nfile < σ₀.coordinator.nMapped ∨
        task.taskType = .reduce ∧ σ₀.coordinator.nReduce < 0 := by
    cases step_transition hstep with
    | commitOK hphase' hcommit =>
        obtain ⟨rfl, rfl⟩ := Phase.finished.inj (hphase.symm.trans hphase')
        exact (CountsCompleted.of_run hrun).overcounts
          (Coordinator.commitOK_eq_some hcommit) hall
  have hcounted : Counted σ₀ σ' :=
    hlater.invariant (I := Counted σ₀) ⟨rfl, le_rfl, le_rfl⟩
      fun h _ hstep ↦ h.change (step_change hstep)
  have hdone : σ'.coordinator.done = false := by
    rw [Coordinator.done, Bool.not_eq_false', decide_eq_true_eq]
    obtain ⟨hnfile, hnMapped, hnReduce⟩ := hcounted
    omega
  refine ⟨hdone, fun p σ'' hstep' ↦ ?_⟩
  cases step_transition hstep' with
  | @assign _ x num =>
      refine Or.inr ⟨_, _, assignTask_worker_self, fun hty ↦ ?_⟩
      have hmapped : σ'.coordinator.nMapped ≠ σ'.coordinator.nfile := by
        obtain ⟨hnfile, hnMapped, -⟩ := hcounted
        rcases hover with ⟨_, hlt⟩ | ⟨hreduce, _⟩
        · omega
        · cases hty.symm.trans hreduce
      exact if_neg hmapped
  | noTask =>
      left
      rw [setCoordinator_worker, setPhase_worker_self, hdone]
      rfl

/-- Both workers have executed the only map task, and the first has committed
it. -/
def lateMap : List Action :=
  [.heartbeat 1, .heartbeatTime 1 1000000000, .task 1, .recordTask 1,
    .heartbeat 2, .heartbeatTime 2 6000000000, .heart 1 7000000000,
    .task 2, .recordTask 2, .doTask 1, .doTask 2, .commitOK 1]

/-- Worker 2 commits the map task too, and worker 1 waits for ever. -/
theorem late_commit_hangs_map :
    ∃ σ' : Job, σ'.worker 1 = .waiting ∧ σ'.coordinator.done = false ∧
      ∀ p σ'', σ'.step letterCount (.task p) = some σ'' →
        σ''.worker p = .waiting ∨
          ∃ task' k, σ''.worker p = .assigned task' k ∧
            task'.taskType = .map := by
  obtain ⟨visited, σ, hrun, work, hwork, hty, hall, σ₀, hstep, hlater⟩ :=
    Run.exists_of_exec (step letterCount) (fun _ _ ↦ True)
      (init letters ["a.txt"] 1) lateMap
      (fun σ ↦ ∃ work ∈ (σ.worker 2).finished?, work.1.taskType = .map ∧
        (∀ x ∈ σ.coordinator.tasks .map, x.taskState = .completed) ∧
        ∃ σ₀ ∈ σ.step letterCount (.commitOK 2),
          ((exec (step letterCount) (fun _ _ ↦ True) σ₀ [.task 1]).any
            fun σ' ↦ decide (σ'.worker 1 = .waiting)) = true)
      (by decide +kernel)
  obtain ⟨visited', σ', hrun', hwaiting⟩ :=
    Run.exists_of_exec (step letterCount) (fun _ _ ↦ True) σ₀ [.task 1]
      (fun σ' ↦ σ'.worker 1 = .waiting) hlater
  rw [← hty] at hall
  obtain ⟨hdone, htask⟩ := late_commit_hangs hrun
    (Phase.eq_finished hwork) hall hstep hrun'
  refine ⟨σ', hwaiting, hdone, fun p σ'' hstep' ↦ ?_⟩
  refine (htask p σ'' hstep').imp_right ?_
  rintro ⟨task', k, hassigned, hmap⟩
  exact ⟨task', k, hassigned, hmap hty⟩

end Hanging

end Job

end DistLabs.Mr
