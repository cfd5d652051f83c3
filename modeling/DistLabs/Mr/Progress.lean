import DistLabs.Mr.Job
import Mathlib.Data.Finset.Card

/-!
# Progress of a job

`NMapped` and `NReduce` count commits, while `Heart` sets the states of tasks
without the counters.  The two agree as long as no completed task is released or
committed again.
-/

namespace DistLabs.Mr

/-- `new` holds no task that `old` does not hold. -/
structure Phase.Continues (old new : Phase) : Prop where
  task : ∀ task, new.task? = some task → old.task? = some task
  pending : ∀ work, new.pending? = some work → old.pending? = some work
  finished : new.finished? = old.finished?

theorem Phase.Continues.refl (phase : Phase) : phase.Continues phase :=
  ⟨fun _ ↦ id, fun _ ↦ id, rfl⟩

theorem Phase.Continues.of_wake {old new : Phase}
    (h : new = old ∨ new = old.wake) : old.Continues new := by
  rcases h with rfl | rfl
  · exact .refl _
  · cases old <;> exact ⟨fun _ ↦ id, fun _ ↦ id, rfl⟩

namespace Coordinator

/-- The tasks and the counters are the same. -/
structure SameTable (c c' : Coordinator) : Prop where
  tasks : c'.tasks = c.tasks
  nReduce : c'.nReduce = c.nReduce
  nMapped : c'.nMapped = c.nMapped
  nfile : c'.nfile = c.nfile

theorem SameTable.setWorker (c : Coordinator) (pid : ℕ) (w : WorkerStatus) :
    SameTable c (c.setWorker pid w) :=
  ⟨c.tasks_setWorker pid w, rfl, rfl, rfl⟩

theorem SameTable.register (c : Coordinator) (pid : ℕ) :
    SameTable c (c.register pid) :=
  ⟨c.tasks_register pid, c.register_nReduce pid, c.register_nMapped pid,
    c.register_nfile pid⟩

theorem SameTable.taskAt {c c' : Coordinator} (h : SameTable c c') :
    c'.taskAt = c.taskAt := by
  unfold Coordinator.taskAt
  rw [h.tasks]

theorem SameTable.state {c c' : Coordinator} (h : SameTable c c') :
    c'.state? = c.state? := by
  unfold state?
  rw [h.taskAt]

/-- The numbers of the completed tasks of one kind. -/
def completed (c : Coordinator) (ty : TaskType) : Finset ℕ :=
  (Finset.range (c.tasks ty).length).filter fun num ↦
    c.state? ty num = some .completed

section Completed

variable {c c' : Coordinator} {ty : TaskType} {num : ℕ}

theorem mem_completed :
    num ∈ c.completed ty ↔ c.state? ty num = some .completed := by
  rw [completed, Finset.mem_filter, Finset.mem_range]
  refine ⟨And.right, fun h ↦ ⟨?_, h⟩⟩
  obtain ⟨x, hx, _⟩ := Option.map_eq_some_iff.mp h
  exact lt_length_of_taskAt hx

/-- All tasks are completed when as many are completed as there are. -/
theorem all_completed
    (h : (c.completed ty).card = (c.tasks ty).length) :
    ∀ x ∈ c.tasks ty, x.taskState = .completed := by
  intro x hx
  obtain ⟨num, hlt, hget⟩ := List.mem_iff_getElem.mp hx
  have hall : ∀ num ∈ Finset.range (c.tasks ty).length,
      c.state? ty num = some .completed := by
    rw [← Finset.card_filter_eq_iff, Finset.card_range]
    exact h
  have hstate := hall num (Finset.mem_range.mpr hlt)
  rw [state?, taskAt, List.getElem?_eq_getElem hlt, hget] at hstate
  exact Option.some.inj hstate

theorem state_completed_iff_lt
    (h : ∀ x ∈ c.tasks ty, x.taskState = .completed) :
    c.state? ty num = some .completed ↔ num < (c.tasks ty).length := by
  constructor
  · intro hcompleted
    obtain ⟨x, hx, _⟩ := Option.map_eq_some_iff.mp hcompleted
    exact lt_length_of_taskAt hx
  · intro hlt
    rw [state?, taskAt, List.getElem?_eq_getElem hlt]
    exact congrArg some (h _ (List.getElem_mem hlt))

theorem completed_congr
    (h : ∀ num, c'.state? ty num = some .completed ↔
      c.state? ty num = some .completed) :
    c'.completed ty = c.completed ty := by
  ext num
  rw [mem_completed, mem_completed, h]

/-- A change of the state of one task that is not completed and does not become
so. -/
theorem state_completed_iff {ty' : TaskType} {num' : ℕ} {s : TaskState}
    (hs : s ≠ .completed) (hold : c.state? ty' num' ≠ some .completed)
    (hstate : c'.state? ty num =
      if ty = ty' ∧ num = num' then some s else c.state? ty num) :
    c'.state? ty num = some .completed ↔
      c.state? ty num = some .completed := by
  rw [hstate]
  split
  · next heq =>
      rw [heq.1, heq.2]
      exact iff_of_false (fun h ↦ hs (Option.some.inj h)) hold
  · rfl

theorem assignTask_completed_iff {x : TasksMetadata} (pid : ℕ) {num' : ℕ}
    (hidle : firstIdle (c.tasks c.phase) = some (x, num)) :
    (c.assignTask pid num).state? ty num' = some .completed ↔
      c.state? ty num' = some .completed := by
  obtain ⟨hx, hstate⟩ := firstIdle_eq_some hidle
  refine state_completed_iff (s := .inproc) nofun ?_
    (state_assignTask pid hidle)
  rw [state?, hx]
  intro h
  cases hstate.symm.trans (Option.some.inj h)

theorem Commits.state_completed_iff {pid : ℕ} {task : TasksMetadata}
    {intermediates : List ℕ} (h : Commits c pid task intermediates c') :
    c'.state? ty num = some .completed ↔
      (ty = task.taskType ∧ num = task.taskNum) ∨
        c.state? ty num = some .completed := by
  rw [h.state]
  split
  · next heq => exact iff_of_true rfl (Or.inl heq)
  · next hne => exact ⟨Or.inr, fun h ↦ h.resolve_left hne⟩

/-- A commit of a task that is not completed completes one more task of its
kind. -/
theorem Commits.card_completed {pid : ℕ} {task : TasksMetadata}
    {intermediates : List ℕ} (h : Commits c pid task intermediates c')
    (hfresh : c.state? task.taskType task.taskNum ≠ some .completed) :
    (c'.completed ty).card =
      (c.completed ty).card + if ty = task.taskType then 1 else 0 := by
  split
  · next heq =>
      have hinsert : c'.completed ty =
          insert task.taskNum (c.completed ty) := by
        ext num
        rw [mem_completed, Finset.mem_insert, mem_completed,
          h.state_completed_iff]
        simp [heq]
      rw [hinsert, Finset.card_insert_of_notMem]
      rwa [mem_completed, heq]
  · next hne =>
      refine congrArg Finset.card (completed_congr fun num ↦ ?_)
      rw [h.state_completed_iff]
      simp [hne]

end Completed

end Coordinator

namespace Job

variable {σ σ' : Job}

/-! ## The steps that matter for the tasks -/

/-- The tasks, the counters and the disk are the same, and no worker gets a
task. -/
structure Quiet (σ σ' : Job) : Prop where
  table : σ.coordinator.SameTable σ'.coordinator
  disk : σ'.disk = σ.disk
  executed : σ'.executed = σ.executed
  committed : σ'.committed = σ.committed
  worker : ∀ p, (σ.worker p).Continues (σ'.worker p)

theorem Quiet.setCoordinator {c : Coordinator}
    (h : σ.coordinator.SameTable c) : Quiet σ (σ.setCoordinator c) :=
  ⟨h, rfl, rfl, rfl, fun _ ↦ Phase.Continues.refl _⟩

theorem Quiet.setPhase {pid : ℕ} {phase : Phase} {c : Coordinator}
    (hphase : (σ.worker pid).Continues phase)
    (h : σ.coordinator.SameTable c) :
    Quiet σ ((σ.setPhase pid phase).setCoordinator c) := by
  refine ⟨h, rfl, rfl, rfl, fun p ↦ ?_⟩
  change (σ.worker p).Continues (Function.update σ.worker pid phase p)
  by_cases hp : p = pid
  · subst hp
    rwa [Function.update_self]
  · rw [Function.update_of_ne hp]
    exact Phase.Continues.refl _

/-- The steps that change a task or the disk, and the others. -/
inductive Change (app : App) (σ : Job) : Action → Job → Prop
  | quiet {a σ'} (h : Quiet σ σ') : Change app σ a σ'
  | assign {pid x num} (hphase : σ.worker pid = .ready)
      (hidle : Coordinator.firstIdle
        (σ.coordinator.tasks σ.coordinator.phase) = some (x, num)) :
      Change app σ (.task pid) (σ.assignTask pid num x)
  | doTask {pid task nReduce disk intermediates}
      (hphase : σ.worker pid = .holding task nReduce)
      (hwork : app.doTask σ.disk task nReduce =
        some (disk, intermediates)) :
      Change app σ (.doTask pid) (σ.execute pid task disk intermediates)
  | commitOK {pid task intermediates c wakes}
      (hphase : σ.worker pid = .finished task intermediates)
      (hcommits : Coordinator.Commits σ.coordinator pid task
        intermediates c) :
      Change app σ (.commitOK pid) (σ.commit pid task c wakes)
  | expire {pid now w} (hworker : σ.coordinator.workers pid = some w)
      (hexpires : Expires σ.coordinator w now)
      (hlt : w.taskNum < (σ.coordinator.tasks w.taskType).length) :
      Change app σ (.heart pid now) (σ.expire pid w)

variable {app : App} {a : Action} {ty : TaskType} {num : ℕ}

theorem step_change (h : σ.step app a = some σ') : Change app σ a σ' := by
  cases step_transition h with
  | assign hphase hidle => exact .assign hphase hidle
  | @noTask pid hphase _ =>
      refine .quiet (Quiet.setPhase ?_
        (Coordinator.SameTable.register _ pid))
      rw [hphase]
      split <;> exact ⟨nofun, nofun, rfl⟩
  | @recordTask pid task nReduce w hphase _ =>
      refine .quiet (Quiet.setPhase ?_
        (Coordinator.SameTable.setWorker _ pid _))
      rw [hphase]
      exact ⟨fun _ ↦ id, fun _ ↦ id, rfl⟩
  | @wake pid hphase =>
      refine .quiet (Quiet.setPhase (c := σ.coordinator) ?_
        ⟨rfl, rfl, rfl, rfl⟩)
      rw [hphase]
      exact ⟨nofun, nofun, rfl⟩
  | @die pid task nReduce hphase _ =>
      refine .quiet (Quiet.setPhase (c := σ.coordinator) ?_
        ⟨rfl, rfl, rfl, rfl⟩)
      rw [hphase]
      exact ⟨nofun, nofun, rfl⟩
  | doTask hphase hwork => exact .doTask hphase hwork
  | commitOK hphase hcommit =>
      exact .commitOK hphase (Coordinator.commitOK_eq_some hcommit)
  | @heartbeat pid =>
      exact .quiet (Quiet.setCoordinator
        (Coordinator.SameTable.register _ pid))
  | heartbeatTime _ =>
      exact .quiet (Quiet.setCoordinator
        (Coordinator.SameTable.setWorker _ _ _))
  | heartQuiet =>
      exact .quiet ⟨⟨rfl, rfl, rfl, rfl⟩, rfl, rfl, rfl,
        fun _ ↦ Phase.Continues.refl _⟩
  | heartExpired hworker hexpires hlt => exact .expire hworker hexpires hlt

/-- A worker gets a task only when it is assigned. -/
theorem Change.task (h : Change app σ a σ') {p : ℕ} {task : TasksMetadata}
    (htask : (σ'.worker p).task? = some task) :
    (σ.worker p).task? = some task ∨
    a = .task p ∧ ∃ x num, Coordinator.firstIdle
        (σ.coordinator.tasks σ.coordinator.phase) = some (x, num) ∧
      task = Coordinator.assign σ.coordinator.phase num x := by
  cases h with
  | quiet h => exact Or.inl ((h.worker p).task task htask)
  | @assign pid x num hphase hidle =>
      by_cases hp : p = pid
      · subst hp
        rw [assignTask_worker_self] at htask
        exact Or.inr ⟨rfl, x, num, hidle, (Option.some.inj htask).symm⟩
      · rw [assignTask_worker_of_ne hp] at htask
        exact Or.inl htask
  | @doTask pid _ _ _ _ hphase _ =>
      change (Job.worker (σ.setPhase pid _) p).task? = some task at htask
      by_cases hp : p = pid
      · subst hp
        rw [setPhase_worker_self] at htask
        rw [hphase]
        exact Or.inl htask
      · rw [setPhase_worker_of_ne hp] at htask
        exact Or.inl htask
  | @commitOK pid _ _ _ _ hphase _ =>
      by_cases hp : p = pid
      · subst hp
        rw [commit_worker_self] at htask
        cases htask
      · exact Or.inl
          ((Phase.Continues.of_wake (commit_worker_of_ne hp)).task task htask)
  | @expire pid now w =>
      exact Or.inl ((Phase.Continues.of_wake
        (σ.expire_worker pid w p)).task task htask)

/-- A worker has a task to commit only when it has executed it. -/
theorem Change.finished (h : Change app σ a σ') {p : ℕ}
    {work : TasksMetadata × List ℕ}
    (hwork : (σ'.worker p).finished? = some work) :
    (σ.worker p).finished? = some work ∨
    a = .doTask p ∧ ∃ nReduce, σ.worker p = .holding work.1 nReduce ∧
      app.doTask σ.disk work.1 nReduce = some (σ'.disk, work.2) := by
  cases h with
  | quiet h =>
      rw [(h.worker p).finished] at hwork
      exact Or.inl hwork
  | @assign pid x num hphase hidle =>
      by_cases hp : p = pid
      · subst hp
        rw [assignTask_worker_self] at hwork
        cases hwork
      · rw [assignTask_worker_of_ne hp] at hwork
        exact Or.inl hwork
  | @doTask pid task nReduce disk intermediates hphase hdone =>
      change (Job.worker (σ.setPhase pid _) p).finished? = some work at hwork
      by_cases hp : p = pid
      · subst hp
        rw [setPhase_worker_self] at hwork
        obtain rfl := Option.some.inj hwork
        exact Or.inr ⟨rfl, nReduce, hphase, hdone⟩
      · rw [setPhase_worker_of_ne hp] at hwork
        exact Or.inl hwork
  | @commitOK pid _ _ _ _ hphase _ =>
      by_cases hp : p = pid
      · subst hp
        rw [commit_worker_self] at hwork
        cases hwork
      · rw [(Phase.Continues.of_wake (commit_worker_of_ne hp)).finished]
          at hwork
        exact Or.inl hwork
  | @expire pid now w =>
      rw [(Phase.Continues.of_wake (σ.expire_worker pid w p)).finished]
        at hwork
      exact Or.inl hwork

/-! ## Completed tasks -/

instance (c : Coordinator) (w : WorkerStatus) (now : ℕ) :
    Decidable (Expires c w now) :=
  inferInstanceAs (Decidable (_ ∧ _))

/-- `Heart` declares no worker crashed whose record names a completed task. -/
def SparesCompleted (σ : Job) : Action → Prop
  | .heart pid now => ∀ w ∈ σ.coordinator.workers pid,
      Expires σ.coordinator w now →
        σ.coordinator.state? w.taskType w.taskNum ≠ some .completed
  | _ => True

instance (σ : Job) (a : Action) : Decidable (σ.SparesCompleted a) := by
  induction a using Action.casesOn <;> dsimp only [SparesCompleted] <;>
    infer_instance

/-- No step but the check of a worker undoes a task, and this one only the task
in the worker's record. -/
theorem Change.completed (h : Change app σ a σ') (hspares : σ.SparesCompleted a)
    (hcompleted : σ.coordinator.state? ty num = some .completed) :
    σ'.coordinator.state? ty num = some .completed := by
  cases h with
  | quiet h => rwa [h.table.state]
  | @assign pid x num' hphase hidle =>
      exact (Coordinator.assignTask_completed_iff pid hidle).mpr hcompleted
  | doTask => exact hcompleted
  | commitOK hphase hcommits =>
      exact hcommits.state_completed_iff.mpr (Or.inr hcompleted)
  | @expire pid now w hworker hexpires hlt =>
      exact (Coordinator.state_completed_iff (s := .idle) nofun
        (hspares w hworker hexpires)
        (Coordinator.state_release pid hlt)).mpr hcompleted

/-- A check that does not spare completed tasks undoes one. -/
theorem undone_of_not_sparesCompleted (hstep : σ.step app a = some σ')
    (hnot : ¬ σ.SparesCompleted a) :
    ∃ ty num, σ.coordinator.state? ty num = some .completed ∧
      σ'.coordinator.state? ty num = some .idle := by
  cases a with
  | heart pid now =>
      simp only [SparesCompleted, not_forall, not_not] at hnot
      obtain ⟨w, hworker, hexpires, hcompleted⟩ := hnot
      refine ⟨w.taskType, w.taskNum, hcompleted, ?_⟩
      cases step_transition hstep with
      | heartQuiet hworker' hquiet =>
          obtain rfl := Option.some.inj (hworker.symm.trans hworker')
          exact absurd hexpires hquiet
      | heartExpired hworker' _ hlt =>
          obtain rfl := Option.some.inj (hworker.symm.trans hworker')
          rw [expire_coordinator, Coordinator.state_release pid hlt,
            if_pos ⟨rfl, rfl⟩]
  | _ => exact absurd trivial hnot

/-- A completed task stays completed in every run in which `Heart` declares no
worker crashed whose record names a completed task. -/
theorem completed_kept {disk : Disk} {files : List String} {nReduce : ℤ}
    {visited : List Job}
    (hrun : Run (step app) SparesCompleted (init disk files nReduce) visited σ)
    {earlier : Job} (hearlier : earlier ∈ visited)
    (hcompleted : earlier.coordinator.state? ty num = some .completed) :
    σ.coordinator.state? ty num = some .completed := by
  induction hrun with
  | start =>
      obtain rfl := List.mem_singleton.mp hearlier
      exact hcompleted
  | next hprev hok hstep ih =>
      rcases List.mem_cons.mp hearlier with rfl | hmem
      · exact hcompleted
      · exact (step_change hstep).completed hok (ih hmem)

/-- Worker 1 commits map task 0 while worker 2 works on map task 1. -/
def firstCommit : List Action :=
  [.heartbeat 1, .heartbeatTime 1 1000000000, .task 1, .recordTask 1,
    .heartbeat 2, .heartbeatTime 2 1000000000, .task 2, .recordTask 2,
    .doTask 1, .commitOK 1]

theorem completed_kept_expired :
    ∃ earlier σ : Job,
      earlier.coordinator.state? .map 1 = some .inproc ∧
      σ.coordinator.state? .map 1 = some .idle ∧
      σ.coordinator.state? .map 0 = some .completed := by
  obtain ⟨visited, earlier, hrun, hcompleted, hinproc, hspares, hstep⟩ :=
    Run.exists_of_exec (step letterCount) SparesCompleted
      (init letters ["a.txt", "b.txt"] 1) firstCommit
      (fun σ ↦ σ.coordinator.state? .map 0 = some .completed ∧
        σ.coordinator.state? .map 1 = some .inproc ∧
        σ.SparesCompleted (.heart 2 6000000000) ∧
        ∃ σ' ∈ σ.step letterCount (.heart 2 6000000000),
          σ'.coordinator.state? .map 1 = some .idle) (by decide +kernel)
  obtain ⟨σ, hstep, hidle⟩ := hstep
  exact ⟨earlier, σ, hinproc, hidle, completed_kept
    (Run.next hrun hspares hstep)
    (List.mem_cons_of_mem σ hrun.mem_visited) hcompleted⟩

/-- Worker 1 has committed map task 0 and is idle.  When it stops, `Heart`
releases the last task in its record. -/
theorem completed_undone :
    ∃ visited σ σ', Run (step letterCount) (fun _ _ ↦ True)
        (init letters ["a.txt", "b.txt"] 1) visited σ ∧
      σ.coordinator.state? .map 0 = some .completed ∧
      σ.step letterCount (.heart 1 6000000000) = some σ' ∧
      σ'.coordinator.state? .map 0 = some .idle := by
  obtain ⟨visited, σ, hrun, hcompleted, σ', hstep, hidle⟩ :=
    Run.exists_of_exec (step letterCount) (fun _ _ ↦ True)
      (init letters ["a.txt", "b.txt"] 1) firstCommit
      (fun σ ↦ σ.coordinator.state? .map 0 = some .completed ∧
        ∃ σ' ∈ σ.step letterCount (.heart 1 6000000000),
          σ'.coordinator.state? .map 0 = some .idle) (by decide +kernel)
  exact ⟨visited, σ, σ', hrun, hcompleted, hstep, hidle⟩

/-! ## The counters -/

/-- `CommitOK` is called only for tasks that are not completed. -/
def CommitsOnce (σ : Job) : Action → Prop
  | .commitOK pid => ∀ task ∈ (σ.worker pid).task?,
      σ.coordinator.state? task.taskType task.taskNum ≠ some .completed
  | _ => True

instance (σ : Job) (a : Action) : Decidable (σ.CommitsOnce a) := by
  induction a using Action.casesOn <;> dsimp only [CommitsOnce] <;>
    infer_instance

/-- The counters of a job with `nReduce` reduce tasks are exact. -/
structure Exact (nReduce : ℤ) (c : Coordinator) : Prop where
  nMapped : c.nMapped = (c.completed .map).card
  nReduce_eq : c.nReduce = nReduce - (c.completed .reduce).card
  nfile : c.nfile = (c.tasks .map).length
  reduces : (c.tasks .reduce).length = nReduce.toNat

namespace Exact

variable {c c' : Coordinator} {nReduce : ℤ}

theorem congr (h : Exact nReduce c)
    (hcompleted : ∀ ty num, c'.state? ty num = some .completed ↔
      c.state? ty num = some .completed)
    (hlength : ∀ ty, (c'.tasks ty).length = (c.tasks ty).length)
    (hnMapped : c'.nMapped = c.nMapped) (hnReduce : c'.nReduce = c.nReduce)
    (hnfile : c'.nfile = c.nfile) : Exact nReduce c' where
  nMapped := by
    rw [hnMapped, h.nMapped, Coordinator.completed_congr (hcompleted .map)]
  nReduce_eq := by
    rw [hnReduce, h.nReduce_eq,
      Coordinator.completed_congr (hcompleted .reduce)]
  nfile := by rw [hnfile, hlength, h.nfile]
  reduces := by rw [hlength, h.reduces]

theorem init (files : List String) (nReduce : ℤ) :
    Exact nReduce (initCoordinator files nReduce) := by
  have hidle : ∀ ty, ((initCoordinator files nReduce).completed ty) = ∅ := by
    intro ty
    rw [Finset.eq_empty_iff_forall_notMem]
    intro num hmem
    cases Coordinator.state_initCoordinator
      (Coordinator.mem_completed.mp hmem)
  refine ⟨?_, ?_, ?_, ?_⟩
  · rw [hidle]
    rfl
  · rw [hidle]
    simp [initCoordinator]
  · simp [initCoordinator, Coordinator.tasks]
  · simp [initCoordinator, Coordinator.tasks]

theorem commits (h : Exact nReduce c) {pid : ℕ} {task : TasksMetadata}
    {intermediates : List ℕ}
    (hcommits : Coordinator.Commits c pid task intermediates c')
    (hfresh : c.state? task.taskType task.taskNum ≠ some .completed) :
    Exact nReduce c' where
  nMapped := by
    rw [hcommits.nMapped, hcommits.card_completed hfresh, h.nMapped]
    cases task.taskType <;> simp
  nReduce_eq := by
    rw [hcommits.nReduce, hcommits.card_completed hfresh, h.nReduce_eq]
    cases task.taskType
    · simp
    · simp
      omega
  nfile := by rw [hcommits.nfile, hcommits.length, h.nfile]
  reduces := by rw [hcommits.length, h.reduces]

/-- Reduce tasks are handed out only after all map tasks. -/
theorem maps_completed (h : Exact nReduce c) (hphase : c.phase = .reduce) :
    ∀ x ∈ c.tasks .map, x.taskState = .completed := by
  refine Coordinator.all_completed ?_
  rw [← h.nMapped, ← h.nfile]
  unfold Coordinator.phase at hphase
  split at hphase
  · assumption
  · cases hphase

theorem done_completed (h : Exact nReduce c) (hdone : c.done = true)
    (ty : TaskType) : ∀ x ∈ c.tasks ty, x.taskState = .completed := by
  have hcounters : c.nMapped = c.nfile ∧ c.nReduce = 0 := by
    simpa [Coordinator.done] using hdone
  cases ty with
  | map =>
      refine Coordinator.all_completed ?_
      rw [← h.nMapped, ← h.nfile, hcounters.1]
  | reduce =>
      refine Coordinator.all_completed ?_
      have heq := h.nReduce_eq
      rw [hcounters.2] at heq
      rw [h.reduces]
      omega

end Exact

theorem Change.exact {nReduce : ℤ} (h : Change app σ a σ')
    (hexact : Exact nReduce σ.coordinator) (hspares : σ.SparesCompleted a)
    (honce : σ.CommitsOnce a) : Exact nReduce σ'.coordinator := by
  cases h with
  | quiet h =>
      exact hexact.congr (fun _ _ ↦ by rw [h.table.state])
        (fun _ ↦ by rw [h.table.tasks]) h.table.nMapped h.table.nReduce
        h.table.nfile
  | @assign pid x num hphase hidle =>
      exact hexact.congr
        (fun _ _ ↦ Coordinator.assignTask_completed_iff pid hidle)
        (by simp) (by simp) (by simp) (by simp)
  | doTask => exact hexact
  | @commitOK pid task intermediates c wakes hphase hcommits =>
      exact hexact.commits hcommits (honce task (by rw [hphase]; rfl))
  | @expire pid now w hworker hexpires hlt =>
      exact hexact.congr
        (fun _ _ ↦ Coordinator.state_completed_iff (s := .idle) nofun
          (hspares w hworker hexpires) (Coordinator.state_release pid hlt))
        (by simp) (by simp) (by simp) (by simp)

/-- A commit of a completed task is counted although nothing is completed. -/
theorem Exact.not_exact_commit {nReduce : ℤ} {c c' : Coordinator}
    (h : Exact nReduce c) {pid : ℕ} {task : TasksMetadata}
    {intermediates : List ℕ}
    (hcommits : Coordinator.Commits c pid task intermediates c')
    (hcompleted : c.state? task.taskType task.taskNum = some .completed) :
    ¬ Exact nReduce c' := by
  intro h'
  have hsame : ∀ ty, c'.completed ty = c.completed ty := by
    refine fun ty ↦ Coordinator.completed_congr fun num ↦ ?_
    rw [hcommits.state_completed_iff]
    refine ⟨?_, Or.inr⟩
    rintro (⟨rfl, rfl⟩ | hold)
    · exact hcompleted
    · exact hold
  have hnMapped := h'.nMapped
  have hnReduce := h'.nReduce_eq
  rw [hsame, ← h.nMapped, hcommits.nMapped] at hnMapped
  rw [hsame, ← h.nReduce_eq, hcommits.nReduce] at hnReduce
  cases hty : task.taskType with
  | map =>
      rw [if_pos hty] at hnMapped
      omega
  | reduce =>
      rw [if_pos hty] at hnReduce
      omega

/-- A check that undoes a completed task does not uncount it. -/
theorem Exact.not_exact_release {nReduce : ℤ} {c : Coordinator}
    (h : Exact nReduce c) {pid : ℕ} {w : WorkerStatus}
    (hlt : w.taskNum < (c.tasks w.taskType).length)
    (hcompleted : c.state? w.taskType w.taskNum = some .completed) :
    ¬ Exact nReduce (c.release pid w) := by
  intro h'
  have hfewer : ((c.release pid w).completed w.taskType).card <
      (c.completed w.taskType).card := by
    refine Finset.card_lt_card (Finset.ssubset_iff_of_subset ?_ |>.mpr
      ⟨w.taskNum, Coordinator.mem_completed.mpr hcompleted, ?_⟩)
    · intro num hnum
      rw [Coordinator.mem_completed, Coordinator.state_release pid hlt] at hnum
      split at hnum
      · cases hnum
      · exact Coordinator.mem_completed.mpr hnum
    · rw [Coordinator.mem_completed, Coordinator.state_release pid hlt,
        if_pos ⟨rfl, rfl⟩]
      nofun
  have hnMapped := h'.nMapped
  have hnReduce := h'.nReduce_eq
  rw [Coordinator.release_nMapped, h.nMapped] at hnMapped
  rw [Coordinator.release_nReduce, h.nReduce_eq] at hnReduce
  cases hty : w.taskType <;> rw [hty] at hfewer <;> omega

/-- The counters stay exact in exactly those steps in which no completed task
is released or committed again. -/
theorem exact_step_iff {nReduce : ℤ} (hexact : Exact nReduce σ.coordinator)
    (hstep : σ.step app a = some σ') :
    Exact nReduce σ'.coordinator ↔ σ.SparesCompleted a ∧ σ.CommitsOnce a := by
  refine ⟨fun hexact' ↦ ⟨?_, ?_⟩,
    fun hok ↦ (step_change hstep).exact hexact hok.1 hok.2⟩
  · cases a with
    | heart pid now =>
        intro w hworker hexpires hcompleted
        cases step_transition hstep with
        | heartQuiet hworker' hquiet =>
            obtain rfl := Option.some.inj (hworker.symm.trans hworker')
            exact hquiet hexpires
        | heartExpired hworker' _ hlt =>
            obtain rfl := Option.some.inj (hworker.symm.trans hworker')
            exact hexact.not_exact_release hlt hcompleted hexact'
    | _ => trivial
  · cases a with
    | commitOK pid =>
        intro task htask hcompleted
        cases step_transition hstep with
        | commitOK hphase hcommit =>
            rw [hphase] at htask
            obtain rfl := Option.some.inj htask
            exact hexact.not_exact_commit
              (Coordinator.commitOK_eq_some hcommit) hcompleted hexact'
    | _ => trivial

/-- In a run in which no completed task is released or committed again the
counters are exact, reduce tasks are handed out only when all map tasks are
completed, and a job is done only when all its tasks are. -/
theorem counters_exact {disk : Disk} {files : List String} {nReduce : ℤ}
    {visited : List Job}
    (hrun : Run (step app) (fun σ a ↦ σ.SparesCompleted a ∧ σ.CommitsOnce a)
      (init disk files nReduce) visited σ) :
    σ.coordinator.nMapped = (σ.coordinator.completed .map).card ∧
    σ.coordinator.nReduce =
      nReduce - (σ.coordinator.completed .reduce).card ∧
    (∀ pid σ' task k, σ.step app (.task pid) = some σ' →
      σ'.worker pid = .assigned task k → task.taskType = .reduce →
        ∀ x ∈ σ.coordinator.tasks .map, x.taskState = .completed) ∧
    (σ.coordinator.done = true →
      ∀ ty, ∀ x ∈ σ.coordinator.tasks ty, x.taskState = .completed) := by
  have hexact : Exact nReduce σ.coordinator :=
    hrun.invariant (I := fun σ ↦ Exact nReduce σ.coordinator)
      (Exact.init files nReduce)
      fun h hok hstep ↦ (step_change hstep).exact h hok.1 hok.2
  refine ⟨hexact.nMapped, hexact.nReduce_eq, ?_, hexact.done_completed⟩
  intro pid σ' task k hstep hassigned hreduce
  refine hexact.maps_completed ?_
  cases step_transition hstep with
  | assign =>
      change Function.update _ _ _ _ = _ at hassigned
      rw [Function.update_self] at hassigned
      cases hassigned
      exact hreduce
  | noTask =>
      change Function.update _ _ _ _ = _ at hassigned
      rw [Function.update_self] at hassigned
      split at hassigned <;> cases hassigned

/-- Worker 1 times out with map task 0 but finishes the job alone, while worker
2, which got the task too, dies. -/
def lateWorker : List Action :=
  [.heartbeat 1, .heartbeatTime 1 1000000000, .task 1, .recordTask 1,
    .heartbeat 2, .heartbeatTime 2 6000000000, .heart 1 7000000000,
    .task 2, .recordTask 2, .doTask 1, .commitOK 1, .task 1, .recordTask 1,
    .doTask 1, .commitOK 1, .task 1, .recordTask 1, .doTask 1, .commitOK 1]

theorem counters_exact_late :
    ∃ σ : Job, σ.coordinator.done = true ∧ σ.coordinator.nMapped = 2 ∧
      ∀ ty, ∀ x ∈ σ.coordinator.tasks ty, x.taskState = .completed := by
  obtain ⟨visited, σ, hrun, hdone, hnMapped⟩ :=
    Run.exists_of_exec (step letterCount)
      (fun σ a ↦ σ.SparesCompleted a ∧ σ.CommitsOnce a)
      (init letters ["a.txt", "b.txt"] 1) lateWorker
      (fun σ ↦ σ.coordinator.done = true ∧ σ.coordinator.nMapped = 2)
      (by decide +kernel)
  exact ⟨σ, hdone, hnMapped, (counters_exact hrun).2.2.2 hdone⟩

/-- Both workers commit map task 0, and one of them then executes the only
reduce task. -/
def doubleCommit : List Action :=
  [.heartbeat 1, .heartbeatTime 1 1000000000, .task 1, .recordTask 1,
    .heartbeat 2, .heartbeatTime 2 6000000000, .heart 1 7000000000,
    .task 2, .recordTask 2, .doTask 1, .commitOK 1, .doTask 2, .commitOK 2,
    .task 2, .recordTask 2, .doTask 2, .commitOK 2]

/-- The job is done although the second input has never been read. -/
theorem done_without_task :
    ∃ visited σ, Run (step letterCount) (fun _ _ ↦ True)
        (init letters ["a.txt", "b.txt"] 1) visited σ ∧
      σ.coordinator.done = true ∧ σ.coordinator.nMapped = 2 ∧
      σ.coordinator.completed .map = {0} ∧
      σ.coordinator.state? .map 1 = some .idle :=
  Run.exists_of_exec (step letterCount) (fun _ _ ↦ True)
    (init letters ["a.txt", "b.txt"] 1) doubleCommit
    (fun σ ↦ σ.coordinator.done = true ∧ σ.coordinator.nMapped = 2 ∧
      σ.coordinator.completed .map = {0} ∧
      σ.coordinator.state? .map 1 = some .idle) (by decide +kernel)

end Job

end DistLabs.Mr
