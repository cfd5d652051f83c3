import Mathlib.Data.Int.Notation
import Mathlib.Data.List.Basic
import Mathlib.Logic.Function.Basic

/-!
# The coordinator of MapReduce

Every definition here is one section of `coordinator.go` that runs under `c.Mu`
or under the lock of one worker.  `none` stands for a panic of the coordinator.
-/

namespace DistLabs.Mr

inductive TaskState
  | idle
  | inproc
  | completed
deriving DecidableEq, Repr

inductive TaskType
  | map
  | reduce
deriving DecidableEq, Repr

inductive Status
  | free
  | work
  | crash
deriving DecidableEq, Repr

/-- What the coordinator knows of a worker.  Times are nanoseconds since Go's
zero time. -/
structure WorkerStatus where
  lastHeartbeat : ℕ
  taskType : TaskType
  taskNum : ℕ
  status : Status
deriving DecidableEq, Repr

structure TasksMetadata where
  taskType : TaskType
  taskNum : ℕ
  taskState : TaskState
  filename : List String
deriving DecidableEq, Repr

structure Coordinator where
  mapTasks : List TasksMetadata
  reduceTasks : List TasksMetadata
  nReduce : ℤ
  nMapped : ℕ
  nfile : ℕ
  workers : ℕ → Option WorkerStatus
  timeout : ℕ

/-- The reply of `Task`: a task with the current `NReduce`, or the call waits on
`Cond`, or the job is done. -/
inductive TaskReply
  | assigned (task : TasksMetadata) (nReduce : ℤ)
  | wait
  | jobDone
deriving DecidableEq, Repr

/-- The name of the file that map task `num` writes for reduce task `x`. -/
def intermediateName (num x : ℕ) : String :=
  "mr-" ++ toString num ++ "-" ++ toString x ++ ".txt"

def initCoordinator (files : List String) (nReduce : ℤ) : Coordinator where
  mapTasks := files.zipIdx.map fun (filename, i) ↦
    { taskType := .map, taskNum := i, taskState := .idle,
      filename := [filename] }
  reduceTasks := (List.range nReduce.toNat).map fun i ↦
    { taskType := .reduce, taskNum := i, taskState := .idle, filename := [] }
  nReduce := nReduce
  nMapped := 0
  nfile := files.length
  workers := fun _ ↦ none
  timeout := 4

/-- The record of a worker that has been given a task. -/
def WorkerStatus.record (w : WorkerStatus) (task : TasksMetadata) :
    WorkerStatus :=
  { w with
    status := .work
    taskNum := task.taskNum
    taskType := task.taskType }

namespace Coordinator

def tasks (c : Coordinator) : TaskType → List TasksMetadata
  | .map => c.mapTasks
  | .reduce => c.reduceTasks

def setTasks (c : Coordinator) (ty : TaskType) (ts : List TasksMetadata) :
    Coordinator :=
  match ty with
  | .map => { c with mapTasks := ts }
  | .reduce => { c with reduceTasks := ts }

/-- Change the task `num` of one kind. -/
def setTask (c : Coordinator) (ty : TaskType) (num : ℕ)
    (f : TasksMetadata → TasksMetadata) : Coordinator :=
  c.setTasks ty ((c.tasks ty).modify num f)

def setWorker (c : Coordinator) (pid : ℕ) (w : WorkerStatus) : Coordinator :=
  { c with workers := Function.update c.workers pid (some w) }

/-- A worker that is not known gets a zero record. -/
def register (c : Coordinator) (pid : ℕ) : Coordinator :=
  match c.workers pid with
  | none =>
      c.setWorker pid
        { lastHeartbeat := 0, taskType := .map, taskNum := 0, status := .free }
  | some _ => c

/-! ## Heartbeats -/

/-- First section of `Heartbeat`. -/
def heartbeat (c : Coordinator) (pid : ℕ) : Coordinator :=
  c.register pid

/-- Second section of `Heartbeat`. -/
def heartbeatTime (c : Coordinator) (pid now : ℕ) : Option Coordinator :=
  match c.workers pid with
  | none => none
  | some w => some (c.setWorker pid { w with lastHeartbeat := now })

/-- `now.Sub(worker.LastHeartbeat) > c.Timeout*time.Second` -/
def expired (c : Coordinator) (w : WorkerStatus) (now : ℕ) : Bool :=
  decide ((now : ℤ) - w.lastHeartbeat > c.timeout * 1000000000)

/-- Worker `pid` with record `w` is declared crashed, and the task that is
recorded for it becomes idle. -/
def release (c : Coordinator) (pid : ℕ) (w : WorkerStatus) : Coordinator :=
  (c.setWorker pid { w with status := .crash }).setTask w.taskType w.taskNum
    fun x ↦ { x with taskState := .idle }

/-- The check of one worker by `Heart`, with whether it broadcasts. -/
def heart (c : Coordinator) (pid now : ℕ) : Option (Coordinator × Bool) :=
  match c.workers pid with
  | none => none
  | some w =>
      if w.status = .crash then
        some (c, false)
      else if c.expired w now then
        if w.taskNum < (c.tasks w.taskType).length then
          some (c.release pid w, true)
        else
          none
      else
        some (c, false)

/-! ## Tasks -/

/-- The first task that is idle, with its index. -/
def firstIdle (ts : List TasksMetadata) : Option (TasksMetadata × ℕ) :=
  ts.zipIdx.find? fun (x, _) ↦ x.taskState = .idle

/-- Which tasks are handed out. -/
def phase (c : Coordinator) : TaskType :=
  if c.nMapped = c.nfile then .reduce else .map

/-- Neither map nor reduce tasks are left, as `Done` and `Task` see it. -/
def done (c : Coordinator) : Bool :=
  !decide (c.nMapped ≠ c.nfile ∨ c.nReduce ≠ 0)

/-- What `Task` changes in the task that it hands out. -/
def assign (tasktype : TaskType) (num : ℕ) (task : TasksMetadata) :
    TasksMetadata :=
  { task with taskType := tasktype, taskNum := num, taskState := .inproc }

/-- First section of `Task`. -/
def task (c : Coordinator) (pid : ℕ) : Coordinator × TaskReply :=
  let c := c.register pid
  match firstIdle (c.tasks c.phase) with
  | none => (c, if c.done then .jobDone else .wait)
  | some (x, num) =>
      (c.setTask c.phase num (assign c.phase num),
        .assigned (assign c.phase num x) c.nReduce)

/-- Second section of `Task`. -/
def recordTask (c : Coordinator) (pid : ℕ) (task : TasksMetadata) :
    Option Coordinator :=
  match c.workers pid with
  | none => none
  | some w => some (c.setWorker pid (w.record task))

/-- The loop over the intermediate files of map task `num`. -/
def appendNames (num : ℕ) :
    List ℕ → List TasksMetadata → Option (List TasksMetadata)
  | [], ts => some ts
  | x :: xs, ts =>
      if x < ts.length then
        appendNames num xs (ts.modify x fun t ↦
          { t with filename := t.filename ++ [intermediateName num x] })
      else
        none

/-- The first part of `CommitOK`: the counters and, for a map task, the names of
its files. -/
def countTask (c : Coordinator) (task : TasksMetadata)
    (intermediates : List ℕ) : Option Coordinator :=
  match task.taskType with
  | .reduce => some { c with nReduce := c.nReduce - 1 }
  | .map =>
      match appendNames task.taskNum intermediates c.reduceTasks with
      | none => none
      | some ts => some { c with reduceTasks := ts, nMapped := c.nMapped + 1 }

/-- Whether `CommitOK` wakes the waiting calls. -/
def broadcasts (c : Coordinator) : TaskType → Bool
  | .map => decide (c.nMapped = c.nfile)
  | .reduce => decide (c.nReduce = 0)

/-- `CommitOK`, with whether it broadcasts. -/
def commitOK (c : Coordinator) (pid : ℕ) (task : TasksMetadata)
    (intermediates : List ℕ) : Option (Coordinator × Bool) :=
  match c.countTask task intermediates, c.workers pid with
  | some c, some w =>
      if task.taskNum < (c.tasks task.taskType).length then
        let c :=
          (c.setTask task.taskType task.taskNum fun x ↦
            { x with taskState := .completed }).setWorker pid
              { w with status := .free }
        some (c, c.broadcasts task.taskType)
      else
        none
  | _, _ => none

/-- The task `num` of one kind. -/
def taskAt (c : Coordinator) (ty : TaskType) (num : ℕ) :
    Option TasksMetadata :=
  (c.tasks ty)[num]?

/-- The state of a task. -/
def state? (c : Coordinator) (ty : TaskType) (num : ℕ) : Option TaskState :=
  (c.taskAt ty num).map TasksMetadata.taskState

theorem state_initCoordinator {files : List String} {nReduce : ℤ}
    {ty : TaskType} {num : ℕ} {s : TaskState}
    (h : (initCoordinator files nReduce).state? ty num = some s) :
    s = .idle := by
  obtain ⟨x, hx, rfl⟩ := Option.map_eq_some_iff.mp h
  have hx := List.mem_of_getElem? hx
  cases ty <;>
  · obtain ⟨y, _, rfl⟩ := List.mem_map.mp hx
    rfl

/-! ## Frames -/

section Frame

variable (c : Coordinator)

@[simp] theorem tasks_setTasks_self (ty : TaskType)
    (ts : List TasksMetadata) : (c.setTasks ty ts).tasks ty = ts := by
  cases ty <;> rfl

theorem tasks_setTasks_of_ne {ty ty' : TaskType} (h : ty' ≠ ty)
    (ts : List TasksMetadata) :
    (c.setTasks ty ts).tasks ty' = c.tasks ty' := by
  cases ty <;> cases ty' <;> first | rfl | exact absurd rfl h

section SetTask

variable (ty : TaskType) (num : ℕ) (f : TasksMetadata → TasksMetadata)

@[simp] theorem setTask_workers : (c.setTask ty num f).workers = c.workers := by
  cases ty <;> rfl

@[simp] theorem setTask_nReduce : (c.setTask ty num f).nReduce = c.nReduce := by
  cases ty <;> rfl

@[simp] theorem setTask_nMapped : (c.setTask ty num f).nMapped = c.nMapped := by
  cases ty <;> rfl

@[simp] theorem setTask_nfile : (c.setTask ty num f).nfile = c.nfile := by
  cases ty <;> rfl

theorem setTask_tasks (ty' : TaskType) :
    (c.setTask ty num f).tasks ty' =
      if ty' = ty then (c.tasks ty).modify num f else c.tasks ty' := by
  unfold setTask
  split
  · next h => rw [h, tasks_setTasks_self]
  · next h => rw [tasks_setTasks_of_ne c h]

@[simp] theorem length_setTask (ty' : TaskType) :
    ((c.setTask ty num f).tasks ty').length = (c.tasks ty').length := by
  rw [setTask_tasks]
  split
  · next h => rw [List.length_modify, h]
  · rfl

end SetTask

@[simp] theorem tasks_setWorker (pid : ℕ) (w : WorkerStatus) :
    (c.setWorker pid w).tasks = c.tasks := by
  funext ty
  cases ty <;> rfl

@[simp] theorem setWorker_workers_self (pid : ℕ) (w : WorkerStatus) :
    (c.setWorker pid w).workers pid = some w :=
  Function.update_self _ _ _

theorem setWorker_workers_of_ne {pid pid' : ℕ} (h : pid' ≠ pid)
    (w : WorkerStatus) :
    (c.setWorker pid w).workers pid' = c.workers pid' :=
  Function.update_of_ne h _ _

/-- Registering adds at most a zero record. -/
theorem register_cases (pid : ℕ) :
    c.register pid = c ∨
    c.workers pid = none ∧
      c.register pid = c.setWorker pid ⟨0, .map, 0, .free⟩ := by
  unfold register
  split
  · next hnone => exact Or.inr ⟨hnone, rfl⟩
  · exact Or.inl rfl

@[simp] theorem tasks_register (pid : ℕ) :
    (c.register pid).tasks = c.tasks := by
  rcases c.register_cases pid with h | ⟨_, h⟩ <;> simp [h]

@[simp] theorem register_nReduce (pid : ℕ) :
    (c.register pid).nReduce = c.nReduce := by
  rcases c.register_cases pid with h | ⟨_, h⟩ <;> simp [h, setWorker]

@[simp] theorem register_nMapped (pid : ℕ) :
    (c.register pid).nMapped = c.nMapped := by
  rcases c.register_cases pid with h | ⟨_, h⟩ <;> simp [h, setWorker]

@[simp] theorem register_nfile (pid : ℕ) :
    (c.register pid).nfile = c.nfile := by
  rcases c.register_cases pid with h | ⟨_, h⟩ <;> simp [h, setWorker]

@[simp] theorem register_phase (pid : ℕ) :
    (c.register pid).phase = c.phase := by
  simp [phase]

@[simp] theorem register_done (pid : ℕ) :
    (c.register pid).done = c.done := by
  simp [done]

end Frame

/-! ## Tasks by kind and number -/

section Tables

variable {c c' : Coordinator} {ty ty' : TaskType} {num num' : ℕ}

@[simp] theorem taskAt_setWorker (pid : ℕ) (w : WorkerStatus) :
    (c.setWorker pid w).taskAt ty num = c.taskAt ty num := by
  simp [taskAt]

@[simp] theorem taskAt_register (pid : ℕ) :
    (c.register pid).taskAt ty num = c.taskAt ty num := by
  simp [taskAt]

theorem taskAt_setTask (f : TasksMetadata → TasksMetadata) :
    (c.setTask ty num f).taskAt ty' num' =
      if ty' = ty ∧ num' = num then (c.taskAt ty num).map f
      else c.taskAt ty' num' := by
  unfold taskAt
  rw [setTask_tasks]
  by_cases hty : ty' = ty
  · subst hty
    rw [if_pos rfl, List.getElem?_modify]
    by_cases hnum : num' = num
    · subst hnum
      simp
    · have hne : ¬ num = num' := fun h ↦ hnum h.symm
      simp [hnum, hne]
  · simp [hty]

@[simp] theorem state_setWorker (pid : ℕ) (w : WorkerStatus) :
    (c.setWorker pid w).state? ty num = c.state? ty num := by
  simp [state?]

@[simp] theorem state_register (pid : ℕ) :
    (c.register pid).state? ty num = c.state? ty num := by
  simp [state?]

/-- A change of the state of one task. -/
theorem state_setTask {f : TasksMetadata → TasksMetadata} {s : TaskState}
    (hf : ∀ x, (f x).taskState = s) (hlt : num < (c.tasks ty).length) :
    (c.setTask ty num f).state? ty' num' =
      if ty' = ty ∧ num' = num then some s else c.state? ty' num' := by
  unfold state?
  rw [taskAt_setTask]
  split
  · rw [taskAt, List.getElem?_eq_getElem hlt]
    exact congrArg some (hf _)
  · rfl

theorem lt_length_of_taskAt {x : TasksMetadata}
    (h : c.taskAt ty num = some x) : num < (c.tasks ty).length :=
  (List.getElem?_eq_some_iff.mp h).1

theorem firstIdle_eq_some {x : TasksMetadata}
    (h : firstIdle (c.tasks ty) = some (x, num)) :
    c.taskAt ty num = some x ∧ x.taskState = .idle := by
  unfold firstIdle at h
  have hmem := List.mem_of_find?_eq_some h
  exact ⟨List.mk_mem_zipIdx_iff_getElem?.mp hmem,
    by simpa using List.find?_some h⟩

/-- The coordinator after the first section of `Task` has handed out the task
`num` of the present kind. -/
def assignTask (c : Coordinator) (pid num : ℕ) : Coordinator :=
  (c.register pid).setTask c.phase num (assign c.phase num)

@[simp] theorem assignTask_workers (pid : ℕ) :
    (c.assignTask pid num).workers = (c.register pid).workers := by
  simp [assignTask]

@[simp] theorem length_assignTask (pid : ℕ) :
    ((c.assignTask pid num).tasks ty).length = (c.tasks ty).length := by
  simp [assignTask]

@[simp] theorem assignTask_nMapped (pid : ℕ) :
    (c.assignTask pid num).nMapped = c.nMapped := by
  simp [assignTask]

@[simp] theorem assignTask_nReduce (pid : ℕ) :
    (c.assignTask pid num).nReduce = c.nReduce := by
  simp [assignTask]

@[simp] theorem assignTask_nfile (pid : ℕ) :
    (c.assignTask pid num).nfile = c.nfile := by
  simp [assignTask]

theorem taskAt_assignTask (pid : ℕ) :
    (c.assignTask pid num).taskAt ty num' =
      if ty = c.phase ∧ num' = num then
        (c.taskAt c.phase num).map (assign c.phase num)
      else c.taskAt ty num' := by
  rw [assignTask, taskAt_setTask, taskAt_register, taskAt_register]

@[simp] theorem assignTask_phase (pid : ℕ) :
    (c.assignTask pid num).phase = c.phase := by
  simp [phase]

theorem state_assignTask {x : TasksMetadata} (pid : ℕ)
    (hidle : firstIdle (c.tasks c.phase) = some (x, num)) :
    (c.assignTask pid num).state? ty num' =
      if ty = c.phase ∧ num' = num then some .inproc
      else c.state? ty num' := by
  obtain ⟨hx, _⟩ := firstIdle_eq_some hidle
  unfold assignTask
  rw [state_setTask (f := assign c.phase num) (fun _ ↦ rfl)
    (by rw [tasks_register]; exact lt_length_of_taskAt hx), state_register]

@[simp] theorem release_workers (pid : ℕ) (w : WorkerStatus) :
    (c.release pid w).workers =
      (c.setWorker pid { w with status := .crash }).workers := by
  simp [release]

@[simp] theorem length_release (pid : ℕ) (w : WorkerStatus) :
    ((c.release pid w).tasks ty).length = (c.tasks ty).length := by
  simp [release]

@[simp] theorem release_nMapped (pid : ℕ) (w : WorkerStatus) :
    (c.release pid w).nMapped = c.nMapped := by
  simp [release, setWorker]

@[simp] theorem release_nReduce (pid : ℕ) (w : WorkerStatus) :
    (c.release pid w).nReduce = c.nReduce := by
  simp [release, setWorker]

@[simp] theorem release_nfile (pid : ℕ) (w : WorkerStatus) :
    (c.release pid w).nfile = c.nfile := by
  simp [release, setWorker]

theorem state_release (pid : ℕ) {w : WorkerStatus}
    (hlt : w.taskNum < (c.tasks w.taskType).length) :
    (c.release pid w).state? ty num =
      if ty = w.taskType ∧ num = w.taskNum then some .idle
      else c.state? ty num := by
  unfold release
  rw [state_setTask (f := fun x ↦ { x with taskState := .idle })
    (fun _ ↦ rfl) (by rwa [tasks_setWorker]), state_setWorker]

end Tables

/-! ## Commits -/

theorem appendNames_eq_some {num : ℕ} {xs : List ℕ}
    {ts ts' : List TasksMetadata} (h : appendNames num xs ts = some ts') :
    ts'.length = ts.length ∧
    ∀ i : ℕ, ts'[i]? = ts[i]?.map fun t : TasksMetadata ↦
      { t with
        filename := t.filename ++
          (xs.filter (· = i)).map (intermediateName num) } := by
  induction xs generalizing ts with
  | nil =>
      obtain rfl := Option.some.inj h
      exact ⟨rfl, fun i ↦ by simp⟩
  | cons x xs ih =>
      rw [appendNames] at h
      split at h
      · obtain ⟨hlength, hget⟩ := ih h
        refine ⟨hlength.trans (List.length_modify ..), fun i ↦ ?_⟩
        rw [hget i, List.getElem?_modify]
        by_cases hx : x = i
        · subst hx
          simp [Option.map_map, Function.comp_def]
        · simp [hx]
      · cases h

/-- The names that a commit of `task` adds to the task `num` of one kind. -/
def committedNames (task : TasksMetadata) (intermediates : List ℕ)
    (ty : TaskType) (num : ℕ) : List String :=
  match task.taskType, ty with
  | .map, .reduce =>
      (intermediates.filter (· = num)).map (intermediateName task.taskNum)
  | _, _ => []

@[simp] theorem committedNames_map {task : TasksMetadata}
    {intermediates : List ℕ} {num : ℕ} :
    committedNames task intermediates .map num = [] := by
  unfold committedNames
  cases task.taskType <;> rfl

/-- What `CommitOK` does. -/
structure Commits (c : Coordinator) (pid : ℕ) (task : TasksMetadata)
    (intermediates : List ℕ) (c' : Coordinator) : Prop where
  inRange : task.taskNum < (c.tasks task.taskType).length
  worker : ∃ w, c.workers pid = some w ∧
    c'.workers = Function.update c.workers pid
      (some { w with status := .free })
  length : ∀ ty, (c'.tasks ty).length = (c.tasks ty).length
  taskAt : ∀ ty num, c'.taskAt ty num = (c.taskAt ty num).map fun x ↦
    { x with
      taskState :=
        if ty = task.taskType ∧ num = task.taskNum then .completed
        else x.taskState
      filename := x.filename ++ committedNames task intermediates ty num }
  nReduce : c'.nReduce =
    if task.taskType = .reduce then c.nReduce - 1 else c.nReduce
  nMapped : c'.nMapped =
    if task.taskType = .map then c.nMapped + 1 else c.nMapped
  nfile : c'.nfile = c.nfile

theorem countTask_eq_some {c c' : Coordinator} {task : TasksMetadata}
    {intermediates : List ℕ} (h : c.countTask task intermediates = some c') :
    c'.workers = c.workers ∧
    (∀ ty, (c'.tasks ty).length = (c.tasks ty).length) ∧
    (∀ ty num, c'.taskAt ty num = (c.taskAt ty num).map fun x ↦
      { x with
        filename := x.filename ++
          committedNames task intermediates ty num }) ∧
    c'.nReduce = (if task.taskType = .reduce then c.nReduce - 1
      else c.nReduce) ∧
    c'.nMapped = (if task.taskType = .map then c.nMapped + 1
      else c.nMapped) ∧
    c'.nfile = c.nfile := by
  unfold countTask at h
  cases hty : task.taskType with
  | reduce =>
      rw [hty] at h
      obtain rfl := Option.some.inj h
      refine ⟨rfl, fun _ ↦ by rfl, fun ty num ↦ ?_, rfl, rfl, rfl⟩
      simp only [committedNames, hty, List.append_nil]
      cases ty <;> simp [taskAt, tasks]
  | map =>
      rw [hty] at h
      dsimp only at h
      split at h
      · cases h
      · next ts hts =>
          obtain rfl := Option.some.inj h
          obtain ⟨hlength, hget⟩ := appendNames_eq_some hts
          refine ⟨rfl, fun ty ↦ ?_, fun ty num ↦ ?_, rfl, rfl, rfl⟩
          · cases ty with
            | map => rfl
            | reduce => exact hlength
          · cases ty with
            | map => simp [committedNames, hty, taskAt, tasks]
            | reduce =>
                simpa only [committedNames, hty, taskAt, tasks] using hget num

theorem commitOK_eq_some {c c' : Coordinator} {pid : ℕ}
    {task : TasksMetadata} {intermediates : List ℕ} {wakes : Bool}
    (h : c.commitOK pid task intermediates = some (c', wakes)) :
    Commits c pid task intermediates c' := by
  unfold commitOK at h
  split at h
  · next c₁ w hcount hworker =>
      obtain ⟨hworkers, hlength, htask, hnReduce, hnMapped, hnfile⟩ :=
        countTask_eq_some hcount
      split at h
      · next hlt =>
          obtain ⟨rfl, _⟩ := Prod.mk.inj (Option.some.inj h)
          refine ⟨?_, ⟨w, hworker, ?_⟩, fun ty ↦ ?_, fun ty num ↦ ?_, ?_, ?_,
            ?_⟩
          · rwa [← hlength]
          · simp [setWorker, hworkers]
          · rw [tasks_setWorker, length_setTask, hlength]
          · rw [taskAt_setWorker, taskAt_setTask, htask, htask]
            split
            · next heq =>
                rw [heq.1, heq.2, Option.map_map]
                rfl
            · rfl
          · simpa [setWorker] using hnReduce
          · simpa [setWorker] using hnMapped
          · simpa [setWorker] using hnfile
      · cases h
  · cases h

theorem Commits.state {c c' : Coordinator} {pid : ℕ} {task : TasksMetadata}
    {intermediates : List ℕ} (h : Commits c pid task intermediates c')
    (ty : TaskType) (num : ℕ) :
    c'.state? ty num =
      if ty = task.taskType ∧ num = task.taskNum then some .completed
      else c.state? ty num := by
  unfold state?
  rw [h.taskAt, Option.map_map]
  split
  · next heq =>
      rw [heq.1, heq.2, Coordinator.taskAt,
        List.getElem?_eq_getElem h.inRange]
      simp
  · simp [Function.comp_def]

end Coordinator

end DistLabs.Mr
