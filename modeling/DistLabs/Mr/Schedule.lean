import DistLabs.Mr.Files

/-!
# The schedule of an undisturbed job

When `Heart` declares no worker crashed, a task is in progress at one worker
only and is executed once.  Reduce tasks are handed out after the last map
commit, so the lists of their files no longer grow.
-/

namespace DistLabs.Mr

theorem Phase.task_of_finished {phase : Phase} {work : TasksMetadata × List ℕ}
    (h : phase.finished? = some work) : phase.task? = some work.1 := by
  cases phase with
  | finished task intermediates =>
      obtain rfl := Option.some.inj h
      rfl
  | _ => cases h

theorem Coordinator.phase_eq_reduce {c : Coordinator} :
    c.phase = .reduce ↔ c.nMapped = c.nfile := by
  unfold phase
  split <;> simp [*]

namespace Job

/-- `Heart` declares no worker crashed. -/
def Calm (σ : Job) : Action → Prop
  | .heart pid now => ∀ w ∈ σ.coordinator.workers pid,
      ¬ Expires σ.coordinator w now
  | _ => True

instance (σ : Job) (a : Action) : Decidable (σ.Calm a) := by
  induction a using Action.casesOn <;> dsimp only [Calm] <;> infer_instance

/-- The task `num` of kind `ty` has been executed by a worker that has not
committed it. -/
def Finished (σ : Job) (ty : TaskType) (num : ℕ) : Prop :=
  ∃ p work, (σ.worker p).finished? = some work ∧
    work.1.taskType = ty ∧ work.1.taskNum = num

section Finished

variable {σ : Job} {pid : ℕ} {task : TasksMetadata} {ty : TaskType} {num : ℕ}

theorem mem_executed_execute {disk : Disk} {intermediates : List ℕ} :
    (ty, num) ∈ (σ.execute pid task disk intermediates).executed ↔
      (ty, num) ∈ σ.executed ∨
        ty = task.taskType ∧ num = task.taskNum := by
  change (ty, num) ∈ σ.executed ++ [(task.taskType, task.taskNum)] ↔ _
  rw [List.mem_append, List.mem_singleton, Prod.mk.injEq]

theorem finished_execute {nReduce : ℤ} {disk : Disk}
    {intermediates : List ℕ}
    (hphase : σ.worker pid = .holding task nReduce) :
    (σ.execute pid task disk intermediates).Finished ty num ↔
      σ.Finished ty num ∨ ty = task.taskType ∧ num = task.taskNum := by
  have hself : (σ.execute pid task disk intermediates).worker pid =
      .finished task intermediates := setPhase_worker_self
  have hother : ∀ p ≠ pid,
      (σ.execute pid task disk intermediates).worker p = σ.worker p :=
    fun p hp ↦ setPhase_worker_of_ne hp
  constructor
  · rintro ⟨p, work, hwork, rfl, rfl⟩
    by_cases hp : p = pid
    · subst hp
      rw [hself] at hwork
      obtain rfl := Option.some.inj hwork
      exact Or.inr ⟨rfl, rfl⟩
    · rw [hother p hp] at hwork
      exact Or.inl ⟨p, work, hwork, rfl, rfl⟩
  · rintro (⟨p, work, hwork, hrest⟩ | ⟨rfl, rfl⟩)
    · have hp : p ≠ pid := by
        rintro rfl
        rw [hphase] at hwork
        cases hwork
      exact ⟨p, work, by rw [hother p hp]; exact hwork, hrest⟩
    · exact ⟨pid, (task, intermediates), by rw [hself]; rfl, rfl, rfl⟩

/-- A commit takes the task from the finished ones. -/
theorem finished_commit {intermediates : List ℕ} {c : Coordinator}
    {wakes : Bool} (hphase : σ.worker pid = .finished task intermediates) :
    σ.Finished ty num ↔ (σ.commit pid task c wakes).Finished ty num ∨
      ty = task.taskType ∧ num = task.taskNum := by
  have hother : ∀ p ≠ pid,
      ((σ.commit pid task c wakes).worker p).finished? =
        (σ.worker p).finished? :=
    fun p hp ↦ (Phase.Continues.of_wake (commit_worker_of_ne hp)).finished
  constructor
  · rintro ⟨p, work, hwork, rfl, rfl⟩
    by_cases hp : p = pid
    · subst hp
      rw [hphase] at hwork
      obtain rfl := Option.some.inj hwork
      exact Or.inr ⟨rfl, rfl⟩
    · exact Or.inl ⟨p, work, by rwa [hother p hp], rfl, rfl⟩
  · rintro (⟨p, work, hwork, hrest⟩ | ⟨rfl, rfl⟩)
    · have hp : p ≠ pid := by
        rintro rfl
        rw [commit_worker_self] at hwork
        cases hwork
      exact ⟨p, work, by rwa [← hother p hp], hrest⟩
    · exact ⟨pid, (task, intermediates), by rw [hphase]; rfl, rfl, rfl⟩

end Finished

/-- Every task that a worker has been given is in progress, at this worker
only, and has been executed once when it is finished. -/
structure Scheduled (files : List String) (n : ℕ) (σ : Job) : Prop where
  exact : Exact n σ.coordinator
  length : (σ.coordinator.tasks .map).length = files.length
  inputs : ∀ m x, σ.coordinator.taskAt .map m = some x →
    ∃ filename, files[m]? = some filename ∧ x.filename = [filename]
  held : ∀ p task, (σ.worker p).task? = some task →
    σ.coordinator.taskAt task.taskType task.taskNum = some task ∧
      task.taskState = .inproc
  unique : ∀ p q task, (σ.worker p).task? = some task →
    (σ.worker q).task? = some task → p = q
  barrier : ∀ r x, σ.coordinator.taskAt .reduce r = some x →
    x.taskState ≠ .idle → σ.coordinator.phase = .reduce
  pending : ∀ p task k, (σ.worker p).pending? = some (task, k) →
    task.taskType = .map → k = n
  nodup : σ.executed.Nodup
  executed : ∀ ty num, (ty, num) ∈ σ.executed ↔
    σ.coordinator.state? ty num = some .completed ∨ σ.Finished ty num

namespace Scheduled

variable {app : App} {σ σ' : Job} {files : List String} {n : ℕ}
variable {a : Action} {p q : ℕ} {task : TasksMetadata}

theorem init (disk : Disk) (files : List String) (n : ℕ) :
    Scheduled files n (Job.init disk files n) where
  exact := Exact.init files n
  length := by simp [Job.init, initCoordinator, Coordinator.tasks]
  inputs := by
    intro m x hx
    rw [Coordinator.taskAt] at hx
    simp only [Job.init, initCoordinator, Coordinator.tasks,
      List.getElem?_map, List.getElem?_zipIdx, Option.map_map,
      Option.map_eq_some_iff] at hx
    obtain ⟨filename, hfile, rfl⟩ := hx
    exact ⟨filename, hfile, rfl⟩
  held := nofun
  unique := nofun
  barrier := by
    intro r x hx hidle
    obtain ⟨y, _, rfl⟩ := List.mem_map.mp (List.mem_of_getElem? hx)
    exact absurd rfl hidle
  pending := nofun
  nodup := List.nodup_nil
  executed := by
    intro ty num
    refine iff_of_false List.not_mem_nil ?_
    rintro (hcompleted | ⟨p, work, hwork, _⟩)
    · cases Coordinator.state_initCoordinator hcompleted
    · cases hwork

theorem state_held (h : Scheduled files n σ)
    (htask : (σ.worker p).task? = some task) :
    σ.coordinator.state? task.taskType task.taskNum = some .inproc := by
  obtain ⟨hat, hstate⟩ := h.held p task htask
  rw [Coordinator.state?, hat, ← hstate]
  rfl

/-- Two workers have different tasks. -/
theorem same_worker (h : Scheduled files n σ) {task' : TasksMetadata}
    (htask : (σ.worker p).task? = some task)
    (htask' : (σ.worker q).task? = some task')
    (hty : task'.taskType = task.taskType)
    (hnum : task'.taskNum = task.taskNum) : q = p ∧ task' = task := by
  have hat' := (h.held q task' htask').1
  rw [hty, hnum, (h.held p task htask).1] at hat'
  obtain rfl := Option.some.inj hat'
  exact ⟨h.unique q p task htask' htask, rfl⟩

/-- No worker has a map task while reduce tasks are handed out. -/
theorem not_map_of_reduce (h : Scheduled files n σ)
    (hphase : σ.coordinator.phase = .reduce)
    (htask : (σ.worker p).task? = some task) : task.taskType = .reduce := by
  cases hty : task.taskType with
  | reduce => rfl
  | map =>
      obtain ⟨hat, hstate⟩ := h.held p task htask
      rw [hty] at hat
      have hcompleted := h.exact.maps_completed hphase task
        (List.mem_of_getElem? hat)
      cases hstate.symm.trans hcompleted

/-- No reduce task has been executed while a worker has a map task. -/
theorem not_executed_reduce (h : Scheduled files n σ)
    (htask : (σ.worker p).task? = some task) (hty : task.taskType = .map)
    (r : ℕ) : (.reduce, r) ∉ σ.executed := by
  intro hr
  have hphase : σ.coordinator.phase = .reduce := by
    rcases (h.executed .reduce r).mp hr with hcompleted | hfinished
    · obtain ⟨x, hx, hstate⟩ := Option.map_eq_some_iff.mp hcompleted
      exact h.barrier r x hx (by rw [hstate]; exact nofun)
    · obtain ⟨q, work, hwork, hreduce, rfl⟩ := hfinished
      obtain ⟨hat, hstate⟩ := h.held q _ (Phase.task_of_finished hwork)
      rw [hreduce] at hat
      exact h.barrier _ _ hat (by rw [hstate]; exact nofun)
  cases hty.symm.trans (h.not_map_of_reduce hphase htask)

/-- No reduce task is completed while map tasks are handed out. -/
theorem nReduce_of_map (h : Scheduled files n σ)
    (hphase : σ.coordinator.phase = .map) : σ.coordinator.nReduce = n := by
  have hempty : σ.coordinator.completed .reduce = ∅ := by
    rw [Finset.eq_empty_iff_forall_notMem]
    intro r hr
    obtain ⟨x, hx, hstate⟩ :=
      Option.map_eq_some_iff.mp (Coordinator.mem_completed.mp hr)
    have hreduce := h.barrier r x hx (by rw [hstate]; exact nofun)
    cases hphase.symm.trans hreduce
  rw [h.exact.nReduce_eq, hempty]
  simp

theorem quiet (h : Scheduled files n σ) (hquiet : Quiet σ σ')
    (hexact : Exact n σ'.coordinator) : Scheduled files n σ' where
  exact := hexact
  length := by rw [hquiet.table.tasks, h.length]
  inputs := by
    rw [hquiet.table.taskAt]
    exact h.inputs
  held := by
    rw [hquiet.table.taskAt]
    exact fun p task htask ↦ h.held p task ((hquiet.worker p).task task htask)
  unique := fun p q task hp hq ↦ h.unique p q task
    ((hquiet.worker p).task task hp) ((hquiet.worker q).task task hq)
  barrier := by
    rw [hquiet.table.taskAt, Coordinator.phase_eq_reduce,
      hquiet.table.nMapped, hquiet.table.nfile, ← Coordinator.phase_eq_reduce]
    exact h.barrier
  pending := fun p task k hpending ↦
    h.pending p task k ((hquiet.worker p).pending (task, k) hpending)
  nodup := by
    rw [hquiet.executed]
    exact h.nodup
  executed := by
    intro ty num
    unfold Finished
    simp only [hquiet.executed, hquiet.table.state,
      (hquiet.worker _).finished]
    exact h.executed ty num

/-- A task that is idle is at no worker. -/
theorem not_held_of_idle (h : Scheduled files n σ) {x : TasksMetadata}
    {num : ℕ} (hidle : Coordinator.firstIdle
      (σ.coordinator.tasks σ.coordinator.phase) = some (x, num))
    (htask : (σ.worker p).task? = some task) :
    ¬ (task.taskType = σ.coordinator.phase ∧ task.taskNum = num) := by
  rintro ⟨hty, rfl⟩
  obtain ⟨hat, hstate⟩ := h.held p task htask
  obtain ⟨hx, hxstate⟩ := Coordinator.firstIdle_eq_some hidle
  rw [hty, hx] at hat
  obtain rfl := Option.some.inj hat
  cases hstate.symm.trans hxstate

/-- Two workers still have different tasks after any step. -/
theorem unique_step (h : Scheduled files n σ) (hchange : Change app σ a σ')
    (hp : (σ'.worker p).task? = some task)
    (hq : (σ'.worker q).task? = some task) : p = q := by
  rcases hchange.task hp with hp | ⟨ha, x, num, hidle, rfl⟩ <;>
    rcases hchange.task hq with hq | ⟨ha', x', num', hidle', heq⟩
  · exact h.unique p q task hp hq
  · subst heq
    exact absurd ⟨rfl, rfl⟩ (h.not_held_of_idle hidle' hp)
  · exact absurd ⟨rfl, rfl⟩ (h.not_held_of_idle hidle hq)
  · rw [ha] at ha'
    exact Action.task.inj ha'

theorem assign (h : Scheduled files n σ) {x : TasksMetadata} {pid num : ℕ}
    (hphase : σ.worker pid = .ready)
    (hidle : Coordinator.firstIdle
      (σ.coordinator.tasks σ.coordinator.phase) = some (x, num))
    (hchange : Change app σ (.task pid) (σ.assignTask pid num x))
    (hexact : Exact n (σ.coordinator.assignTask pid num)) :
    Scheduled files n (σ.assignTask pid num x) where
  exact := hexact
  length := by simpa using h.length
  inputs := by
    intro m y hy
    obtain ⟨x, hx, heq⟩ := Coordinator.filename_assignTask hy
    rw [heq]
    exact h.inputs m x hx
  held := by
    intro p task htask
    rw [assignTask_coordinator, Coordinator.taskAt_assignTask]
    rcases hchange.task htask with hold | ⟨_, x', num', hidle', rfl⟩
    · rw [if_neg (h.not_held_of_idle hidle hold)]
      exact h.held p task hold
    · obtain ⟨rfl, rfl⟩ :=
        Prod.mk.inj (Option.some.inj (hidle.symm.trans hidle'))
      rw [if_pos ⟨rfl, rfl⟩, (Coordinator.firstIdle_eq_some hidle).1]
      exact ⟨rfl, rfl⟩
  unique := fun p q task ↦ h.unique_step hchange
  barrier := by
    intro r y hy hstate
    rw [assignTask_coordinator, Coordinator.taskAt_assignTask] at hy
    rw [assignTask_coordinator, Coordinator.assignTask_phase]
    split at hy
    · next heq => exact heq.1.symm
    · exact h.barrier r y hy hstate
  pending := by
    intro p task k hpending hty
    by_cases hp : p = pid
    · subst hp
      rw [assignTask_worker_self] at hpending
      obtain ⟨rfl, rfl⟩ := Prod.mk.inj (Option.some.inj hpending)
      exact h.nReduce_of_map hty
    · rw [assignTask_worker_of_ne hp] at hpending
      exact h.pending p task k hpending hty
  nodup := h.nodup
  executed := by
    intro ty num'
    have hfinished : ∀ p, ((σ.assignTask pid num x).worker p).finished? =
        (σ.worker p).finished? := by
      intro p
      by_cases hp : p = pid
      · subst hp
        rw [assignTask_worker_self, hphase]
        rfl
      · rw [assignTask_worker_of_ne hp]
    unfold Finished
    simp only [hfinished, assignTask_coordinator,
      Coordinator.assignTask_completed_iff pid hidle]
    exact h.executed ty num'

/-- A task that a worker is about to execute has not been executed. -/
theorem not_executed (h : Scheduled files n σ) {nReduce : ℤ}
    (hphase : σ.worker p = .holding task nReduce) :
    (task.taskType, task.taskNum) ∉ σ.executed := by
  have htask : (σ.worker p).task? = some task := by
    rw [hphase]
    rfl
  rw [h.executed]
  rintro (hcompleted | ⟨q, work, hwork, hty, hnum⟩)
  · cases (h.state_held htask).symm.trans hcompleted
  · obtain ⟨rfl, _⟩ := h.same_worker htask
      (Phase.task_of_finished hwork) hty hnum
    rw [hphase] at hwork
    cases hwork

theorem execute (h : Scheduled files n σ) {pid : ℕ} {nReduce : ℤ}
    {disk : Disk} {intermediates : List ℕ}
    (hphase : σ.worker pid = .holding task nReduce)
    (hchange : Change app σ (.doTask pid)
      (σ.execute pid task disk intermediates)) :
    Scheduled files n (σ.execute pid task disk intermediates) where
  exact := h.exact
  length := h.length
  inputs := h.inputs
  held := by
    intro p task' htask
    rcases hchange.task htask with hold | ⟨ha, _⟩
    · exact h.held p task' hold
    · cases ha
  unique := fun p q task ↦ h.unique_step hchange
  barrier := h.barrier
  pending := by
    intro p task' k hpending hty
    change (Job.worker (σ.setPhase pid _) p).pending? = _ at hpending
    by_cases hp : p = pid
    · subst hp
      rw [setPhase_worker_self] at hpending
      cases hpending
    · rw [setPhase_worker_of_ne hp] at hpending
      exact h.pending p task' k hpending hty
  nodup := by
    refine List.nodup_append.mpr
      ⟨h.nodup, List.nodup_singleton _, fun y hy z hz ↦ ?_⟩
    rintro rfl
    obtain rfl := List.mem_singleton.mp hz
    exact h.not_executed hphase hy
  executed := by
    intro ty num
    rw [mem_executed_execute, h.executed, finished_execute hphase, or_assoc]
    rfl

section Commit

variable {pid : ℕ} {intermediates : List ℕ} {c : Coordinator} {wakes : Bool}

/-- A commit changes no task that another worker has. -/
theorem taskAt_commit (h : Scheduled files n σ)
    (hphase : σ.worker pid = .finished task intermediates)
    (hcommits : Coordinator.Commits σ.coordinator pid task intermediates c)
    {task' : TasksMetadata} (hp : p ≠ pid)
    (htask' : (σ.worker p).task? = some task') :
    c.taskAt task'.taskType task'.taskNum = some task' := by
  have htask : (σ.worker pid).task? = some task := by
    rw [hphase]
    rfl
  have hother : ¬ (task'.taskType = task.taskType ∧
      task'.taskNum = task.taskNum) :=
    fun heq ↦ hp (h.same_worker htask htask' heq.1 heq.2).1
  -- Files are added only to reduce tasks by map tasks, before any reduce task
  -- is handed out.
  have hnames : Coordinator.committedNames task intermediates
      task'.taskType task'.taskNum = [] := by
    unfold Coordinator.committedNames
    split
    · next hty hty' =>
        obtain ⟨hat, hstate⟩ := h.held p task' htask'
        rw [hty'] at hat
        have hreduce := h.barrier _ task' hat (by rw [hstate]; exact nofun)
        cases hty.symm.trans (h.not_map_of_reduce hreduce htask)
    · rfl
  rw [hcommits.taskAt, (h.held p task' htask').1, Option.map_some,
    if_neg hother, hnames, List.append_nil]

/-- After a commit reduce tasks are handed out if they were before. -/
theorem phase_commit (h : Scheduled files n σ)
    (hphase : σ.worker pid = .finished task intermediates)
    (hcommits : Coordinator.Commits σ.coordinator pid task intermediates c)
    (hreduce : σ.coordinator.phase = .reduce) : c.phase = .reduce := by
  have htask : (σ.worker pid).task? = some task := by
    rw [hphase]
    rfl
  have hty := h.not_map_of_reduce hreduce htask
  rw [Coordinator.phase_eq_reduce] at hreduce ⊢
  rw [hcommits.nMapped, hcommits.nfile, hty, ← hreduce]
  rfl

theorem commit (h : Scheduled files n σ)
    (hphase : σ.worker pid = .finished task intermediates)
    (hcommits : Coordinator.Commits σ.coordinator pid task intermediates c)
    (hchange : Change app σ (.commitOK pid) (σ.commit pid task c wakes))
    (hexact : Exact n c) :
    Scheduled files n (σ.commit pid task c wakes) where
  exact := hexact
  length := (hcommits.length .map).trans h.length
  inputs := by
    intro m y hy
    obtain ⟨x, hx, heq⟩ := hcommits.filename hy
    rw [heq, Coordinator.committedNames_map, List.append_nil]
    exact h.inputs m x hx
  held := by
    intro p task' htask'
    have hp : p ≠ pid := by
      rintro rfl
      rw [commit_worker_self] at htask'
      cases htask'
    rcases hchange.task htask' with hold | ⟨ha, _⟩
    · exact ⟨h.taskAt_commit hphase hcommits hp hold, (h.held p task' hold).2⟩
    · cases ha
  unique := fun p q task ↦ h.unique_step hchange
  barrier := by
    intro r y hy hstate
    refine h.phase_commit hphase hcommits ?_
    change c.taskAt .reduce r = some y at hy
    rw [hcommits.taskAt] at hy
    obtain ⟨x, hx, rfl⟩ := Option.map_eq_some_iff.mp hy
    by_cases heq : .reduce = task.taskType ∧ r = task.taskNum
    · obtain ⟨hat, hinproc⟩ := h.held pid task (by rw [hphase]; rfl)
      rw [← heq.1] at hat
      exact h.barrier _ task hat (by rw [hinproc]; exact nofun)
    · rw [if_neg heq] at hstate
      exact h.barrier r x hx hstate
  pending := by
    intro p task' k hpending hty
    have hp : p ≠ pid := by
      rintro rfl
      rw [commit_worker_self] at hpending
      cases hpending
    exact h.pending p task' k ((Phase.Continues.of_wake
      (commit_worker_of_ne hp)).pending _ hpending) hty
  nodup := h.nodup
  executed := by
    intro ty num
    change (ty, num) ∈ σ.executed ↔ c.state? ty num = some .completed ∨ _
    rw [h.executed, hcommits.state_completed_iff, finished_commit hphase]
    tauto

end Commit

/-- In an undisturbed run every step keeps the schedule. -/
theorem step (h : Scheduled files n σ) (hcalm : σ.Calm a)
    (hstep : σ.step app a = some σ') : Scheduled files n σ' := by
  have hchange := step_change hstep
  have hspares : σ.SparesCompleted a := by
    cases a with
    | heart pid now => exact fun w hw hexpires ↦ absurd hexpires (hcalm w hw)
    | _ => trivial
  have honce : σ.CommitsOnce a := by
    cases a with
    | commitOK pid =>
        intro task htask hcompleted
        cases (h.state_held htask).symm.trans hcompleted
    | _ => trivial
  have hexact := hchange.exact h.exact hspares honce
  cases hcase : hchange with
  | quiet hquiet => exact h.quiet hquiet hexact
  | assign hphase hidle => exact h.assign hphase hidle hchange hexact
  | doTask hphase _ => exact h.execute hphase hchange
  | commitOK hphase hcommits => exact h.commit hphase hcommits hchange hexact
  | expire hworker hexpires _ => exact absurd hexpires (hcalm _ hworker)

/-- When the job is done, exactly its tasks have been executed. -/
theorem mem_executed_of_done (h : Scheduled files n σ)
    (hdone : σ.coordinator.done = true) {ty : TaskType} {num : ℕ} :
    (ty, num) ∈ σ.executed ↔ num < (σ.coordinator.tasks ty).length := by
  rw [h.executed, Coordinator.state_completed_iff_lt
    (h.exact.done_completed hdone ty)]
  refine ⟨?_, Or.inl⟩
  rintro (hlt | ⟨p, work, hwork, rfl, rfl⟩)
  · exact hlt
  · exact Coordinator.lt_length_of_taskAt
      (h.held p _ (Phase.task_of_finished hwork)).1

end Scheduled

end Job

end DistLabs.Mr
