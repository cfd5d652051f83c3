import DistLabs.Mr.Sequential

/-!
# The output of a job that redoes tasks

When a worker is declared crashed, its task is handed out again.  The worker may
be dead or only slow, so a task may be executed several times, at the same time
and after it has been completed.  All executions of a task write the same files,
and the output does not depend on the schedule as long as no completed task is
released or committed again.
-/

namespace DistLabs.Mr

namespace App

variable (app : App)

/-- What the map task `m` emits for reduce task `r`. -/
def part (disk₀ : Disk) (files : List String) (n m r : ℕ) : List KeyValue :=
  partition n r (app.emitted disk₀ files m)

/-- What all map tasks emit for reduce task `r`. -/
def share (disk₀ : Disk) (files : List String) (n r : ℕ) : List KeyValue :=
  partition n r ((List.range files.length).flatMap (app.emitted disk₀ files))

/-- The files of the map task `m` are on the disk. -/
def HasParts (disk₀ : Disk) (files : List String) (n : ℕ) (disk : Disk)
    (m : ℕ) : Prop :=
  ∀ r < n, app.part disk₀ files n m r ≠ [] →
    disk (intermediateName m r) =
      some (app.encodeAll (app.part disk₀ files n m r))

/-- The output of reduce task `r` is on the disk. -/
def HasOutput (disk₀ : Disk) (files : List String) (n : ℕ) (disk : Disk)
    (r : ℕ) : Prop :=
  disk (outName r) = some (format (app.reduceAll (app.share disk₀ files n r)))

variable {app} {disk₀ : Disk} {files : List String} {n : ℕ}

theorem share_eq (r : ℕ) :
    app.share disk₀ files n r =
      (List.range files.length).flatMap fun m ↦
        app.part disk₀ files n m r := by
  rw [share, partition, List.filter_flatMap]
  rfl

/-- The lines of an output file come in the order of their keys. -/
theorem pairwise_reduceAll (kva : List KeyValue) :
    (app.reduceAll kva).Pairwise fun p q ↦ p.1 < q.1 := by
  rw [reduceAll, List.pairwise_map]
  exact Grouping.pairwise_runs (app.sort_sorted kva)

/-- The order of the pairs does not matter for a reduce task. -/
theorem reduceAll_perm
    (hreducef : ∀ key values values', values.Perm values' →
      app.reducef key values = app.reducef key values')
    {kva kva' : List KeyValue} (h : kva.Perm kva') :
    app.reduceAll kva = app.reduceAll kva' := by
  have hperm : (app.reduceAll kva).Perm (app.reduceAll kva') := by
    rw [← Multiset.coe_eq_coe, reduceAll_eq_records hreducef,
      reduceAll_eq_records hreducef, Multiset.coe_eq_coe.mpr h]
  refine hperm.eq_of_pairwise (fun p q _ _ hlt hgt ↦ ?_)
    (pairwise_reduceAll kva) (pairwise_reduceAll kva')
  exact absurd hgt (lt_asymm hlt)

/-- What the execution of a task does to the disk: it writes the files of this
task and keeps those of the others, also when they were written before. -/
structure Executes (app : App) (disk₀ : Disk) (files : List String) (n : ℕ)
    (disk disk' : Disk) (ty : TaskType) (num : ℕ) : Prop where
  inputs : ∀ filename ∈ files, disk' filename = disk filename
  parts : ∀ m, app.HasParts disk₀ files n disk m ∨ (ty = .map ∧ m = num) →
    app.HasParts disk₀ files n disk' m
  outputs : ∀ r, app.HasOutput disk₀ files n disk r ∨
    (ty = .reduce ∧ r = num) → app.HasOutput disk₀ files n disk' r

/-- No input file is named like a file that the workers write. -/
def Apart (files : List String) : Prop :=
  ∀ filename ∈ files, (∀ m r, filename ≠ intermediateName m r) ∧
    ∀ r, filename ≠ outName r

theorem apart_of_head (h : ∀ filename ∈ files,
    filename.toList.head? ≠ some 'm') : Apart files := by
  intro filename hfile
  refine ⟨fun m r heq ↦ h filename hfile ?_, fun r heq ↦ h filename hfile ?_⟩
  · rw [heq, toList_intermediateName]
    rfl
  · rw [heq, toList_outName]
    rfl

theorem Maps.executes {num : ℕ} {disk disk' : Disk} {intermediates : List ℕ}
    (hapart : Apart files)
    (h : app.Maps num n (app.emitted disk₀ files num) disk disk'
      intermediates) :
    app.Executes disk₀ files n disk disk' .map num where
  inputs := fun filename hfile ↦
    h.frame filename fun r _ ↦ (hapart filename hfile).1 num r
  parts := by
    intro m hm r hr hne
    by_cases heq : m = num
    · subst heq
      exact h.written r hr hne
    · have hold := hm.resolve_right fun hnew ↦ heq hnew.2
      rw [h.frame _ fun r' _ hname ↦ heq (intermediateName_injective hname).1]
      exact hold r hr hne
  outputs := by
    rintro r (hold | ⟨hty, _⟩)
    · exact (h.frame _ fun r' _ ↦
        outName_ne_intermediateName r _ r').trans hold
    · cases hty

theorem executes_reduce {num : ℕ} {disk : Disk} {kva : List KeyValue}
    (hapart : Apart files)
    (hkva : app.reduceAll kva = app.reduceAll (app.share disk₀ files n num)) :
    app.Executes disk₀ files n disk
      (Function.update disk (outName num) (some (format (app.reduceAll kva))))
      .reduce num where
  inputs := fun filename hfile ↦
    Function.update_of_ne ((hapart filename hfile).2 num) _ _
  parts := by
    rintro m (hold | ⟨hty, _⟩)
    · intro r hr hne
      rw [Function.update_of_ne (outName_ne_intermediateName num m r).symm]
      exact hold r hr hne
    · cases hty
  outputs := by
    intro r hr
    by_cases heq : r = num
    · subst heq
      rw [HasOutput, Function.update_self, hkva]
    · rw [HasOutput,
        Function.update_of_ne fun hname ↦ heq (outName_injective hname)]
      exact hr.resolve_right fun hnew ↦ heq hnew.2

end App

namespace Job

/-- The task has been completed, or executed by a worker that has not committed
it. -/
def Ended (σ : Job) (ty : TaskType) (num : ℕ) : Prop :=
  σ.coordinator.state? ty num = some .completed ∨ σ.Finished ty num

section Ended

variable {app : App} {σ σ' : Job} {a : Action} {pid num : ℕ} {ty : TaskType}
variable {task : TasksMetadata}

theorem ended_execute {nReduce : ℤ} {disk : Disk} {intermediates : List ℕ}
    (hphase : σ.worker pid = .holding task nReduce) :
    (σ.execute pid task disk intermediates).Ended ty num ↔
      σ.Ended ty num ∨ ty = task.taskType ∧ num = task.taskNum := by
  rw [Ended, finished_execute hphase, ← or_assoc]
  rfl

/-- A step that executes no task ends none. -/
theorem Change.ended (h : Change app σ a σ') (hspares : σ.SparesCompleted a)
    (ha : ∀ pid, a ≠ .doTask pid) (hended : σ'.Ended ty num) :
    σ.Ended ty num := by
  rcases hended with hcompleted | ⟨p, work, hwork, hrest⟩
  · cases h with
    | quiet h =>
        rw [h.table.state] at hcompleted
        exact Or.inl hcompleted
    | @assign pid x num' hphase hidle =>
        exact Or.inl
          ((Coordinator.assignTask_completed_iff pid hidle).mp hcompleted)
    | doTask => exact absurd rfl (ha _)
    | @commitOK pid task intermediates c wakes hphase hcommits =>
        rcases hcommits.state_completed_iff.mp hcompleted with
          ⟨rfl, rfl⟩ | hold
        · exact Or.inr
            ⟨pid, (task, intermediates), by rw [hphase]; rfl, rfl, rfl⟩
        · exact Or.inl hold
    | @expire pid now w hworker hexpires hlt =>
        exact Or.inl ((Coordinator.state_completed_iff (s := .idle) nofun
          (hspares w hworker hexpires)
          (Coordinator.state_release pid hlt)).mp hcompleted)
  · rcases h.finished hwork with hold | ⟨rfl, _⟩
    · exact Or.inr ⟨p, work, hold, hrest⟩
    · exact absurd rfl (ha p)

/-- A step executes a task, or leaves the disk alone and ends no task. -/
theorem Change.disk_or_execute (h : Change app σ a σ')
    (hspares : σ.SparesCompleted a) :
    (σ'.disk = σ.disk ∧ ∀ ty num, σ'.Ended ty num → σ.Ended ty num) ∨
    ∃ pid task nReduce disk intermediates,
      σ.worker pid = .holding task nReduce ∧
      app.doTask σ.disk task nReduce = some (disk, intermediates) ∧
      σ' = σ.execute pid task disk intermediates := by
  cases hcase : h with
  | quiet hquiet =>
      refine Or.inl ⟨hquiet.disk, fun ty num hended ↦ ?_⟩
      simpa only [Ended, Finished, hquiet.table.state,
        (hquiet.worker _).finished] using hended
  | doTask hphase hwork =>
      exact Or.inr ⟨_, _, _, _, _, hphase, hwork, rfl⟩
  | assign =>
      exact Or.inl ⟨rfl, fun _ _ ↦ h.ended hspares fun _ ha ↦ nomatch ha⟩
  | commitOK =>
      exact Or.inl ⟨rfl, fun _ _ ↦ h.ended hspares fun _ ha ↦ nomatch ha⟩
  | expire =>
      exact Or.inl ⟨rfl, fun _ _ ↦ h.ended hspares fun _ ha ↦ nomatch ha⟩

end Ended

/-! ## What the workers hold -/

/-- The tasks of the workers agree with the coordinator about their files.  A
worker may hold a task that is also held by others or completed. -/
structure Handed (files : List String) (n : ℕ) (σ : Job) : Prop where
  exact : Exact n σ.coordinator
  length : (σ.coordinator.tasks .map).length = files.length
  table : ∀ m x, σ.coordinator.taskAt .map m = some x →
    ∃ filename, files[m]? = some filename ∧ x.filename = [filename]
  maps : ∀ p task, (σ.worker p).task? = some task → task.taskType = .map →
    ∃ filename, files[task.taskNum]? = some filename ∧
      task.filename = [filename]
  reduces : ∀ p task, (σ.worker p).task? = some task →
    task.taskType = .reduce → σ.coordinator.phase = .reduce ∧
      ∃ x, σ.coordinator.taskAt .reduce task.taskNum = some x ∧
        x.filename = task.filename
  pending : ∀ p task k, (σ.worker p).pending? = some (task, k) →
    task.taskType = .map → k = n
  barrier : ∀ r x, σ.coordinator.taskAt .reduce r = some x →
    x.taskState ≠ .idle → σ.coordinator.phase = .reduce

section Handed

variable {app : App} {σ σ' : Job} {a : Action} {files : List String} {n : ℕ}

theorem Handed.init (disk : Disk) (files : List String) (n : ℕ) :
    Handed files n (Job.init disk files n) where
  exact := Exact.init files n
  length := by simp [Job.init, initCoordinator, Coordinator.tasks]
  table := (Scheduled.init disk files n).inputs
  maps := nofun
  reduces := nofun
  pending := nofun
  barrier := (Scheduled.init disk files n).barrier

/-- No reduce task is completed while map tasks are handed out. -/
theorem Handed.nReduce_of_map (h : Handed files n σ)
    (hphase : σ.coordinator.phase = .map) : σ.coordinator.nReduce = n := by
  have hempty : σ.coordinator.completed .reduce = ∅ := by
    rw [Finset.eq_empty_iff_forall_notMem]
    intro r hr
    obtain ⟨x, hx, hstate⟩ :=
      Option.map_eq_some_iff.mp (Coordinator.mem_completed.mp hr)
    have hreduce := h.barrier r x hx (by rw [hstate]; exact nofun)
    cases hphase.symm.trans hreduce
  rw [h.exact.nReduce_eq, hempty]
  simp

/-- Once reduce tasks are handed out, no map task is committed. -/
theorem Handed.taskType_of_reduce (h : Handed files n σ)
    (hreduce : σ.coordinator.phase = .reduce) {pid : ℕ}
    {task : TasksMetadata} {intermediates : List ℕ} {c : Coordinator}
    (hcommits : Coordinator.Commits σ.coordinator pid task intermediates c)
    (hfresh : σ.coordinator.state? task.taskType task.taskNum ≠
      some .completed) : task.taskType = .reduce := by
  cases hty : task.taskType with
  | reduce => rfl
  | map =>
      have hlt := hcommits.inRange
      rw [hty] at hlt hfresh
      exact absurd ((Coordinator.state_completed_iff_lt
        (h.exact.maps_completed hreduce)).mpr hlt) hfresh

/-- Reduce tasks are still handed out after the step if they were before. -/
theorem Change.phase_eq_reduce (h : Change app σ a σ')
    (hhanded : Handed files n σ) (honce : σ.CommitsOnce a)
    (hreduce : σ.coordinator.phase = .reduce) :
    σ'.coordinator.phase = .reduce := by
  rw [Coordinator.phase_eq_reduce]
  have hcounters := Coordinator.phase_eq_reduce.mp hreduce
  cases h with
  | quiet h => rwa [h.table.nMapped, h.table.nfile]
  | assign => simpa using hcounters
  | doTask => exact hcounters
  | @commitOK pid task intermediates c wakes hphase hcommits =>
      have hty := hhanded.taskType_of_reduce hreduce hcommits
        (honce task (by rw [hphase]; rfl))
      change c.nMapped = c.nfile
      rw [hcommits.nMapped, hcommits.nfile, hty, ← hcounters]
      rfl
  | expire => simpa using hcounters

/-- The files of a reduce task do not change while reduce tasks are handed
out. -/
theorem Change.filename_reduce (h : Change app σ a σ')
    (hhanded : Handed files n σ) (honce : σ.CommitsOnce a)
    (hreduce : σ.coordinator.phase = .reduce) {r : ℕ} {x : TasksMetadata}
    (hx : σ.coordinator.taskAt .reduce r = some x) :
    ∃ y, σ'.coordinator.taskAt .reduce r = some y ∧
      y.filename = x.filename := by
  cases h with
  | quiet h => exact ⟨x, by rw [h.table.taskAt, hx], rfl⟩
  | assign =>
      rw [assignTask_coordinator, Coordinator.taskAt_assignTask]
      split
      · next heq =>
          rw [← heq.1, ← heq.2, hx]
          exact ⟨_, rfl, rfl⟩
      · exact ⟨x, hx, rfl⟩
  | doTask => exact ⟨x, hx, rfl⟩
  | @commitOK pid task intermediates c wakes hphase hcommits =>
      have hty := hhanded.taskType_of_reduce hreduce hcommits
        (honce task (by rw [hphase]; rfl))
      refine ⟨_, (hcommits.taskAt .reduce r).trans (by rw [hx]; rfl), ?_⟩
      simp [Coordinator.committedNames, hty]
  | expire =>
      rw [expire_coordinator, Coordinator.release, Coordinator.taskAt_setTask,
        Coordinator.taskAt_setWorker, Coordinator.taskAt_setWorker]
      split
      · next heq =>
          rw [← heq.1, ← heq.2, hx]
          exact ⟨_, rfl, rfl⟩
      · exact ⟨x, hx, rfl⟩

/-- A worker that is to execute a task has just got it or had it before. -/
theorem Change.pending (h : Change app σ a σ') {p : ℕ}
    {work : TasksMetadata × ℤ} (hwork : (σ'.worker p).pending? = some work) :
    (σ.worker p).pending? = some work ∨
      work.1.taskType = σ.coordinator.phase ∧
        work.2 = σ.coordinator.nReduce := by
  cases h with
  | quiet h => exact Or.inl ((h.worker p).pending work hwork)
  | @assign pid x num hphase hidle =>
      by_cases hp : p = pid
      · subst hp
        rw [assignTask_worker_self] at hwork
        obtain rfl := Option.some.inj hwork
        exact Or.inr ⟨rfl, rfl⟩
      · rw [assignTask_worker_of_ne hp] at hwork
        exact Or.inl hwork
  | @doTask pid task nReduce disk intermediates hphase =>
      change (Job.worker (σ.setPhase pid _) p).pending? = some work at hwork
      by_cases hp : p = pid
      · subst hp
        rw [setPhase_worker_self] at hwork
        cases hwork
      · rw [setPhase_worker_of_ne hp] at hwork
        exact Or.inl hwork
  | @commitOK pid =>
      by_cases hp : p = pid
      · subst hp
        rw [commit_worker_self] at hwork
        cases hwork
      · exact Or.inl ((Phase.Continues.of_wake
          (commit_worker_of_ne hp)).pending work hwork)
  | @expire pid now w =>
      exact Or.inl ((Phase.Continues.of_wake
        (σ.expire_worker pid w p)).pending work hwork)

/-- The files of a map task never change. -/
theorem Change.filename_map (h : Change app σ a σ') {m : ℕ}
    {y : TasksMetadata} (hy : σ'.coordinator.taskAt .map m = some y) :
    ∃ x, σ.coordinator.taskAt .map m = some x ∧ y.filename = x.filename := by
  cases h with
  | quiet h =>
      rw [h.table.taskAt] at hy
      exact ⟨y, hy, rfl⟩
  | assign => exact Coordinator.filename_assignTask hy
  | doTask => exact ⟨y, hy, rfl⟩
  | commitOK _ hcommits =>
      obtain ⟨x, hx, heq⟩ := hcommits.filename hy
      rw [Coordinator.committedNames_map, List.append_nil] at heq
      exact ⟨x, hx, heq⟩
  | expire => exact Coordinator.filename_release hy

/-- A reduce task leaves its idle state only when reduce tasks are handed
out. -/
theorem Change.barrier (h : Change app σ a σ') (hhanded : Handed files n σ)
    {r : ℕ} {y : TasksMetadata}
    (hy : σ'.coordinator.taskAt .reduce r = some y)
    (hstate : y.taskState ≠ .idle) : σ.coordinator.phase = .reduce := by
  cases h with
  | quiet h =>
      rw [h.table.taskAt] at hy
      exact hhanded.barrier r y hy hstate
  | assign =>
      rw [assignTask_coordinator, Coordinator.taskAt_assignTask] at hy
      split at hy
      · next heq => exact heq.1.symm
      · exact hhanded.barrier r y hy hstate
  | doTask => exact hhanded.barrier r y hy hstate
  | @commitOK pid task intermediates c wakes hphase hcommits =>
      change c.taskAt .reduce r = some y at hy
      rw [hcommits.taskAt] at hy
      obtain ⟨x, hx, rfl⟩ := Option.map_eq_some_iff.mp hy
      by_cases heq : .reduce = task.taskType ∧ r = task.taskNum
      · exact (hhanded.reduces pid task (by rw [hphase]; rfl) heq.1.symm).1
      · rw [if_neg heq] at hstate
        exact hhanded.barrier r x hx hstate
  | expire =>
      rw [expire_coordinator, Coordinator.release, Coordinator.taskAt_setTask,
        Coordinator.taskAt_setWorker, Coordinator.taskAt_setWorker] at hy
      split at hy
      · obtain ⟨x, _, rfl⟩ := Option.map_eq_some_iff.mp hy
        exact absurd rfl hstate
      · exact hhanded.barrier r y hy hstate

theorem Change.handed (h : Change app σ a σ') (hhanded : Handed files n σ)
    (hspares : σ.SparesCompleted a) (honce : σ.CommitsOnce a) :
    Handed files n σ' where
  exact := h.exact hhanded.exact hspares honce
  length := by
    rw [← hhanded.length]
    cases h with
    | quiet h => rw [h.table.tasks]
    | assign | expire => simp
    | doTask => rfl
    | commitOK _ hcommits => exact hcommits.length .map
  table := by
    intro m y hy
    obtain ⟨x, hx, heq⟩ := h.filename_map hy
    rw [heq]
    exact hhanded.table m x hx
  maps := by
    intro p task htask hty
    rcases h.task htask with hold | ⟨_, x, num, hidle, rfl⟩
    · exact hhanded.maps p task hold hty
    · have hx := (Coordinator.firstIdle_eq_some hidle).1
      rw [show σ.coordinator.phase = .map from hty] at hx
      exact hhanded.table num x hx
  reduces := by
    intro p task htask hty
    rcases h.task htask with hold | ⟨_, x, num, hidle, rfl⟩
    · obtain ⟨hreduce, x, hx, hname⟩ := hhanded.reduces p task hold hty
      obtain ⟨y, hy, heq⟩ := h.filename_reduce hhanded honce hreduce hx
      exact ⟨h.phase_eq_reduce hhanded honce hreduce, y, hy, heq.trans hname⟩
    · have hreduce : σ.coordinator.phase = .reduce := hty
      have hx := (Coordinator.firstIdle_eq_some hidle).1
      rw [hreduce] at hx
      obtain ⟨y, hy, heq⟩ := h.filename_reduce hhanded honce hreduce hx
      exact ⟨h.phase_eq_reduce hhanded honce hreduce, y, hy, heq⟩
  pending := by
    intro p task k hpending hty
    rcases h.pending hpending with hold | ⟨hphase, rfl⟩
    · exact hhanded.pending p task k hold hty
    · exact hhanded.nReduce_of_map (hphase.symm.trans hty)
  barrier := fun r y hy hstate ↦
    h.phase_eq_reduce hhanded honce (h.barrier hhanded hy hstate)

end Handed

/-! ## What is on the disk -/

/-- The files of every task that has been executed are on the disk, and a reduce
task has the files of the completed map tasks that have something for it. -/
structure Stored (app : App) (disk₀ : Disk) (files : List String) (n : ℕ)
    (σ : Job) : Prop where
  inputs : ∀ filename ∈ files, σ.disk filename = disk₀ filename
  reported : ∀ p work, (σ.worker p).finished? = some work →
    work.1.taskType = .map → work.2 = (List.range n).filter fun r ↦
      app.part disk₀ files n work.1.taskNum r ≠ []
  names : ∀ r x, σ.coordinator.taskAt .reduce r = some x →
    x.filename.Nodup ∧ ∀ name, name ∈ x.filename ↔
      ∃ m, σ.coordinator.state? .map m = some .completed ∧
        app.part disk₀ files n m r ≠ [] ∧ name = intermediateName m r
  parts : ∀ m, σ.Ended .map m → app.HasParts disk₀ files n σ.disk m
  outputs : ∀ r, σ.Ended .reduce r → app.HasOutput disk₀ files n σ.disk r

section Stored

variable {app : App} {disk₀ : Disk} {σ σ' : Job} {a : Action}
variable {files : List String} {n pid : ℕ} {task : TasksMetadata}

theorem Stored.init (app : App) (disk : Disk) (files : List String) (n : ℕ) :
    Stored app disk files n (Job.init disk files n) where
  inputs := fun _ _ ↦ rfl
  reported := nofun
  names := by
    intro r x hx
    obtain ⟨i, _, rfl⟩ := List.mem_map.mp (List.mem_of_getElem? hx)
    refine ⟨List.nodup_nil, fun name ↦ iff_of_false List.not_mem_nil ?_⟩
    rintro ⟨m, hcompleted, _⟩
    cases Coordinator.state_initCoordinator hcompleted
  parts := by
    rintro m (hcompleted | ⟨p, work, hwork, _⟩)
    · cases Coordinator.state_initCoordinator hcompleted
    · cases hwork
  outputs := by
    rintro r (hcompleted | ⟨p, work, hwork, _⟩)
    · cases Coordinator.state_initCoordinator hcompleted
    · cases hwork

/-- A map task distributes what its input yields, however often it is
executed. -/
theorem Stored.maps (h : Stored app disk₀ files n σ)
    (hhanded : Handed files n σ) {nReduce : ℤ} {disk : Disk}
    {intermediates : List ℕ}
    (hphase : σ.worker pid = .holding task nReduce)
    (hty : task.taskType = .map)
    (hwork : app.doTask σ.disk task nReduce = some (disk, intermediates)) :
    app.Maps task.taskNum n (app.emitted disk₀ files task.taskNum)
      σ.disk disk intermediates := by
  obtain ⟨filename, hfile, hname⟩ :=
    hhanded.maps pid task (by rw [hphase]; rfl) hty
  rw [hhanded.pending pid task nReduce (by rw [hphase]; rfl) hty,
    App.doTask_map hty] at hwork
  obtain ⟨content, hcontent, hmaps⟩ := App.doMap_eq_some hname hwork
  rw [h.inputs filename (List.mem_of_getElem? hfile)] at hcontent
  rwa [Int.toNat_natCast, ← App.emitted_eq hfile hcontent] at hmaps

/-- A reduce task reads what all map tasks have emitted for it. -/
theorem Stored.pairs_perm (h : Stored app disk₀ files n σ)
    (hhanded : Handed files n σ)
    (htask : (σ.worker pid).task? = some task)
    (hty : task.taskType = .reduce) :
    (task.filename.flatMap (app.pairs σ.disk)).Perm
      (app.share disk₀ files n task.taskNum) := by
  obtain ⟨hreduce, x, hx, hname⟩ := hhanded.reduces pid task htask hty
  obtain ⟨hnodup, hmem⟩ := h.names _ x hx
  have hlt : task.taskNum < n := by
    have hlt := Coordinator.lt_length_of_taskAt hx
    rwa [hhanded.exact.reduces, Int.toNat_natCast] at hlt
  have hcompleted : ∀ m, σ.coordinator.state? .map m = some .completed ↔
      m < files.length := by
    intro m
    rw [Coordinator.state_completed_iff_lt
      (hhanded.exact.maps_completed hreduce), hhanded.length]
  let ms := (List.range files.length).filter fun m ↦
    app.part disk₀ files n m task.taskNum ≠ []
  have hms : ∀ m, m ∈ ms ↔ m < files.length ∧
      app.part disk₀ files n m task.taskNum ≠ [] := by
    intro m
    simp [ms]
  have hnames : task.filename.Perm
      (ms.map (intermediateName · task.taskNum)) := by
    rw [← hname]
    refine (List.perm_ext_iff_of_nodup hnodup ?_).mpr fun name ↦ ?_
    · exact (List.nodup_range.filter _).map fun m m' heq ↦
        (intermediateName_injective heq).1
    · simp only [hmem, hcompleted, List.mem_map, hms, and_assoc, eq_comm]
  have hread : (ms.map (intermediateName · task.taskNum)).flatMap
      (app.pairs σ.disk) =
        ms.flatMap fun m ↦ app.part disk₀ files n m task.taskNum := by
    rw [List.flatMap_map]
    refine List.flatMap_congr fun m hm ↦ ?_
    obtain ⟨hm, hne⟩ := (hms m).mp hm
    exact App.pairs_encodeAll
      (h.parts m (Or.inl ((hcompleted m).mpr hm)) _ hlt hne)
  refine (hnames.flatMap_right _).trans ?_
  rw [hread, App.share_eq]
  exact App.flatMap_perm_of_mem_iff (List.nodup_range.filter _) hms

/-- A commit of a map task that is not completed adds its file to the reduce
tasks for which it has something. -/
theorem Stored.names_commit (h : Stored app disk₀ files n σ)
    (hhanded : Handed files n σ) {intermediates : List ℕ} {c : Coordinator}
    (hphase : σ.worker pid = .finished task intermediates)
    (hcommits : Coordinator.Commits σ.coordinator pid task intermediates c)
    (hfresh : σ.coordinator.state? task.taskType task.taskNum ≠
      some .completed)
    {r : ℕ} {y : TasksMetadata} (hy : c.taskAt .reduce r = some y) :
    y.filename.Nodup ∧ ∀ name, name ∈ y.filename ↔
      ∃ m, c.state? .map m = some .completed ∧
        app.part disk₀ files n m r ≠ [] ∧ name = intermediateName m r := by
  obtain ⟨x, hx, hname⟩ := hcommits.filename hy
  obtain ⟨hnodup, hmem⟩ := h.names r x hx
  simp only [hname, hcommits.state_completed_iff]
  cases hty : task.taskType with
  | reduce => simpa [Coordinator.committedNames, hty] using ⟨hnodup, hmem⟩
  | map =>
      have hlt : r < n := by
        have hlt := Coordinator.lt_length_of_taskAt hx
        rwa [hhanded.exact.reduces, Int.toNat_natCast] at hlt
      rw [hty] at hfresh
      rw [Written.committedNames_of_maps hty hlt
        (h.reported pid (task, intermediates) (by rw [hphase]; rfl) hty)]
      split
      · next hempty =>
          rw [List.append_nil]
          refine ⟨hnodup, fun name ↦ (hmem name).trans ?_⟩
          constructor
          · rintro ⟨m, hm, hrest⟩
            exact ⟨m, Or.inr hm, hrest⟩
          · rintro ⟨m, ⟨_, rfl⟩ | hm, hne, hrest⟩
            · exact absurd hempty hne
            · exact ⟨m, hm, hne, hrest⟩
      · next hne =>
          have hnew : intermediateName task.taskNum r ∉ x.filename := by
            intro hold
            obtain ⟨m, hm, _, heq⟩ := (hmem _).mp hold
            rw [(intermediateName_injective heq).1] at hfresh
            exact hfresh hm
          refine ⟨List.nodup_append.mpr ⟨hnodup, List.nodup_singleton _, ?_⟩,
            fun name ↦ ?_⟩
          · rintro name hold _ hlast rfl
            exact hnew (List.mem_singleton.mp hlast ▸ hold)
          · rw [List.mem_append, List.mem_singleton, hmem]
            constructor
            · rintro (⟨m, hm, hrest⟩ | rfl)
              · exact ⟨m, Or.inr hm, hrest⟩
              · exact ⟨task.taskNum, Or.inl ⟨rfl, rfl⟩, hne, rfl⟩
            · rintro ⟨m, ⟨_, rfl⟩ | hm, hrest⟩
              · exact Or.inr hrest.2
              · exact Or.inl ⟨m, hm, hrest⟩

theorem Change.names (h : Change app σ a σ')
    (hstored : Stored app disk₀ files n σ) (hhanded : Handed files n σ)
    (hspares : σ.SparesCompleted a)
    (honce : σ.CommitsOnce a) {r : ℕ} {y : TasksMetadata}
    (hy : σ'.coordinator.taskAt .reduce r = some y) :
    y.filename.Nodup ∧ ∀ name, name ∈ y.filename ↔
      ∃ m, σ'.coordinator.state? .map m = some .completed ∧
        app.part disk₀ files n m r ≠ [] ∧ name = intermediateName m r := by
  cases h with
  | quiet h =>
      rw [h.table.taskAt] at hy
      rw [h.table.state]
      exact hstored.names r y hy
  | @assign pid x num hphase hidle =>
      obtain ⟨x', hx', heq⟩ := Coordinator.filename_assignTask hy
      simp only [heq, assignTask_coordinator,
        Coordinator.assignTask_completed_iff pid hidle]
      exact hstored.names r x' hx'
  | doTask => exact hstored.names r y hy
  | @commitOK pid task intermediates c wakes hphase hcommits =>
      exact hstored.names_commit hhanded hphase hcommits
        (honce task (by rw [hphase]; rfl)) hy
  | @expire pid now w hworker hexpires hlt =>
      obtain ⟨x, hx, heq⟩ := Coordinator.filename_release hy
      simp only [heq, expire_coordinator,
        Coordinator.state_completed_iff (s := .idle) nofun
          (hspares w hworker hexpires) (Coordinator.state_release pid hlt)]
      exact hstored.names r x hx

variable (hreducef : ∀ key values values', values.Perm values' →
  app.reducef key values = app.reducef key values')
include hreducef

theorem Stored.executes (h : Stored app disk₀ files n σ)
    (hhanded : Handed files n σ) (hapart : App.Apart files) {nReduce : ℤ}
    {disk : Disk} {intermediates : List ℕ}
    (hphase : σ.worker pid = .holding task nReduce)
    (hwork : app.doTask σ.disk task nReduce = some (disk, intermediates)) :
    app.Executes disk₀ files n σ.disk disk task.taskType task.taskNum := by
  cases hty : task.taskType with
  | map => exact (h.maps hhanded hphase hty hwork).executes hapart
  | reduce =>
      obtain ⟨rfl, _⟩ := App.doTask_reduce hty hwork
      have htask : (σ.worker pid).task? = some task := by
        rw [hphase]
        rfl
      exact App.executes_reduce hapart
        (App.reduceAll_perm hreducef (h.pairs_perm hhanded htask hty))

/-- Only the execution of a task changes the disk. -/
theorem Change.stored (h : Change app σ a σ')
    (hstored : Stored app disk₀ files n σ) (hhanded : Handed files n σ)
    (hapart : App.Apart files) (hspares : σ.SparesCompleted a)
    (honce : σ.CommitsOnce a) : Stored app disk₀ files n σ' := by
  have hreported : ∀ p work, (σ'.worker p).finished? = some work →
      work.1.taskType = .map → work.2 = (List.range n).filter fun r ↦
        app.part disk₀ files n work.1.taskNum r ≠ [] := by
    intro p work hwork hty
    rcases h.finished hwork with hold | ⟨_, nReduce, hphase, hdone⟩
    · exact hstored.reported p work hold hty
    · exact (hstored.maps hhanded hphase hty hdone).intermediates_eq
  have hnames := fun r y ↦
    h.names (r := r) (y := y) hstored hhanded hspares honce
  rcases h.disk_or_execute hspares with ⟨hdisk, hended⟩ |
    ⟨pid, task, nReduce, disk, intermediates, hphase, hwork, rfl⟩
  · refine ⟨?_, hreported, hnames, ?_, ?_⟩
    · rw [hdisk]
      exact hstored.inputs
    · rw [hdisk]
      exact fun m hm ↦ hstored.parts m (hended _ _ hm)
    · rw [hdisk]
      exact fun r hr ↦ hstored.outputs r (hended _ _ hr)
  · have hexecutes :=
      hstored.executes hreducef hhanded hapart hphase hwork
    refine ⟨fun filename hfile ↦ ?_, hreported, hnames, fun m hm ↦ ?_,
      fun r hr ↦ ?_⟩
    · exact (hexecutes.inputs filename hfile).trans
        (hstored.inputs filename hfile)
    · rw [ended_execute hphase] at hm
      exact hexecutes.parts m
        (hm.imp (hstored.parts m) fun heq ↦ ⟨heq.1.symm, heq.2⟩)
    · rw [ended_execute hphase] at hr
      exact hexecutes.outputs r
        (hr.imp (hstored.outputs r) fun heq ↦ ⟨heq.1.symm, heq.2⟩)

/-- When the job is done, the output of every reduce task is on the disk. -/
theorem hasOutput_of_done (hapart : App.Apart files) {disk : Disk}
    {visited : List Job}
    (hrun : Run (step app) (fun σ a ↦ σ.SparesCompleted a ∧ σ.CommitsOnce a)
      (Job.init disk files n) visited σ)
    (hdone : σ.coordinator.done = true) {r : ℕ} (hr : r < n) :
    app.HasOutput disk files n σ.disk r := by
  obtain ⟨hhanded, hstored⟩ :=
    hrun.invariant
      (I := fun σ ↦ Handed files n σ ∧ Stored app disk files n σ)
      ⟨Handed.init disk files n, Stored.init app disk files n⟩
      fun h hok hstep ↦ ⟨(step_change hstep).handed h.1 hok.1 hok.2,
        (step_change hstep).stored hreducef h.2 h.1 hapart hok.1 hok.2⟩
  refine hstored.outputs r (Or.inl ?_)
  rw [Coordinator.state_completed_iff_lt
    (hhanded.exact.done_completed hdone .reduce), hhanded.exact.reduces]
  exact hr

/-- The output files of a job are determined by its input, whatever workers are
declared crashed and however often tasks are executed, as long as no completed
task is released or committed again. -/
theorem output_determined (hapart : App.Apart files) {disk : Disk}
    {visited : List Job}
    (hrun : Run (step app) (fun σ a ↦ σ.SparesCompleted a ∧ σ.CommitsOnce a)
      (Job.init disk files n) visited σ)
    (hdone : σ.coordinator.done = true) {r : ℕ} (hr : r < n) :
    σ.disk (outName r) =
      some (format (app.reduceAll (app.share disk files n r))) :=
  hasOutput_of_done hreducef hapart hrun hdone hr

end Stored

theorem output_determined_late :
    ∃ σ : Job, σ.coordinator.done = true ∧
      σ.disk (outName 0) = some (format (letterCount.reduceAll
        (letterCount.share letters ["a.txt", "b.txt"] 1 0))) := by
  obtain ⟨visited, σ, hrun, hdone⟩ :=
    Run.exists_of_exec (step letterCount)
      (fun σ a ↦ σ.SparesCompleted a ∧ σ.CommitsOnce a)
      (init letters ["a.txt", "b.txt"] (1 : ℕ)) lateWorker
      (fun σ ↦ σ.coordinator.done = true) (by decide +kernel)
  exact ⟨σ, hdone, output_determined letterCount_reducef_perm
    (App.apart_of_head (by decide)) hrun hdone (by decide)⟩

end Job

end DistLabs.Mr
