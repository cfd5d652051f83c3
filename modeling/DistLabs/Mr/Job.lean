import DistLabs.Mr.Worker
import DistLabs.Support.Run

/-!
# A MapReduce job

The coordinator and any number of workers take steps in any order.  A step is a
section of one of the coordinator's methods, the work on one task, or the check
of one worker by `Heart`.  A worker that dies takes no more steps.
-/

namespace DistLabs.Mr

/-- Where a worker is in its loop.  `waiting` is a call of `Task` in `Cond.Wait`
and `woken` one that returns `RPCERROR`; `assigned` is a call that has not run
its second section. -/
inductive Phase
  | ready
  | waiting
  | woken
  | assigned (task : TasksMetadata) (nReduce : ℤ)
  | holding (task : TasksMetadata) (nReduce : ℤ)
  | finished (task : TasksMetadata) (intermediates : List ℕ)
  | exited
deriving DecidableEq, Repr

namespace Phase

/-- The task that the worker has been given and has not committed. -/
def task? : Phase → Option TasksMetadata
  | .assigned task _ => some task
  | .holding task _ => some task
  | .finished task _ => some task
  | _ => none

/-- The task that the worker is to execute, with the number of partitions. -/
def pending? : Phase → Option (TasksMetadata × ℤ)
  | .assigned task nReduce => some (task, nReduce)
  | .holding task nReduce => some (task, nReduce)
  | _ => none

/-- The task that the worker is to commit, with its intermediate files. -/
def finished? : Phase → Option (TasksMetadata × List ℕ)
  | .finished task intermediates => some (task, intermediates)
  | _ => none

/-- What a broadcast on `Cond` does. -/
def wake : Phase → Phase
  | .waiting => .woken
  | phase => phase

/-- Where the first section of `Task` leads. -/
def ofReply : TaskReply → Phase
  | .assigned task nReduce => .assigned task nReduce
  | .wait => .waiting
  | .jobDone => .exited

end Phase

/-- The steps of a job; `pid` is the worker that takes part. -/
inductive Action
  | task (pid : ℕ)
  | recordTask (pid : ℕ)
  | wake (pid : ℕ)
  | doTask (pid : ℕ)
  | commitOK (pid : ℕ)
  | heartbeat (pid : ℕ)
  | heartbeatTime (pid now : ℕ)
  | heart (pid now : ℕ)
deriving DecidableEq, Repr

/-- The tasks that have been executed and committed are recorded for the
statements only. -/
structure Job where
  coordinator : Coordinator
  worker : ℕ → Phase
  disk : Disk
  executed : List (TaskType × ℕ)
  committed : List (TaskType × ℕ)

namespace Job

/-- `MakeCoordinator` on a disk with the input files. -/
def init (disk : Disk) (files : List String) (nReduce : ℤ) : Job where
  coordinator := initCoordinator files nReduce
  worker := fun _ ↦ .ready
  disk := disk
  executed := []
  committed := []

def setPhase (σ : Job) (pid : ℕ) (phase : Phase) : Job :=
  { σ with worker := Function.update σ.worker pid phase }

def setCoordinator (σ : Job) (c : Coordinator) : Job :=
  { σ with coordinator := c }

@[simp] theorem setCoordinator_coordinator (σ : Job) (c : Coordinator) :
    (σ.setCoordinator c).coordinator = c := rfl

@[simp] theorem setCoordinator_worker (σ : Job) (c : Coordinator) :
    (σ.setCoordinator c).worker = σ.worker := rfl

theorem setPhase_worker_of_ne {σ : Job} {pid p : ℕ} {phase : Phase}
    (hp : p ≠ pid) :
    (σ.setPhase pid phase).worker p = σ.worker p :=
  Function.update_of_ne hp _ _

theorem setPhase_worker_self {σ : Job} {pid : ℕ} {phase : Phase} :
    (σ.setPhase pid phase).worker pid = phase :=
  Function.update_self _ _ _

/-- All waiting calls are woken when `wakes` holds. -/
def broadcast (σ : Job) (wakes : Bool) : Job :=
  { σ with worker := fun pid ↦
      if wakes then (σ.worker pid).wake else σ.worker pid }

/-- A broadcast wakes some of the workers. -/
theorem broadcast_worker (σ : Job) (wakes : Bool) (p : ℕ) :
    (σ.broadcast wakes).worker p = σ.worker p ∨
    (σ.broadcast wakes).worker p = (σ.worker p).wake := by
  cases wakes with
  | false => exact Or.inl rfl
  | true => exact Or.inr rfl

/-- Worker `pid` has been assigned the task `num` of the present kind, which was
`x` before. -/
def assignTask (σ : Job) (pid num : ℕ) (x : TasksMetadata) : Job :=
  (σ.setPhase pid (.assigned (Coordinator.assign σ.coordinator.phase num x)
    σ.coordinator.nReduce)).setCoordinator (σ.coordinator.assignTask pid num)

@[simp] theorem assignTask_coordinator (σ : Job) (pid num : ℕ)
    (x : TasksMetadata) : (σ.assignTask pid num x).coordinator =
      σ.coordinator.assignTask pid num := rfl

theorem assignTask_worker_of_ne {σ : Job} {pid p num : ℕ} {x : TasksMetadata}
    (hp : p ≠ pid) : (σ.assignTask pid num x).worker p = σ.worker p :=
  setPhase_worker_of_ne hp

theorem assignTask_worker_self {σ : Job} {pid num : ℕ} {x : TasksMetadata} :
    (σ.assignTask pid num x).worker pid =
      .assigned (Coordinator.assign σ.coordinator.phase num x)
        σ.coordinator.nReduce :=
  setPhase_worker_self

/-- Worker `pid` with record `w` has been declared crashed. -/
def expire (σ : Job) (pid : ℕ) (w : WorkerStatus) : Job :=
  (σ.broadcast true).setCoordinator (σ.coordinator.release pid w)

@[simp] theorem expire_coordinator (σ : Job) (pid : ℕ) (w : WorkerStatus) :
    (σ.expire pid w).coordinator = σ.coordinator.release pid w := rfl

theorem expire_worker (σ : Job) (pid : ℕ) (w : WorkerStatus) (p : ℕ) :
    (σ.expire pid w).worker p = σ.worker p ∨
    (σ.expire pid w).worker p = (σ.worker p).wake :=
  σ.broadcast_worker true p

/-- Worker `pid` has executed its task. -/
def execute (σ : Job) (pid : ℕ) (task : TasksMetadata) (disk : Disk)
    (intermediates : List ℕ) : Job :=
  { σ.setPhase pid (.finished task intermediates) with
    disk := disk
    executed := σ.executed ++ [(task.taskType, task.taskNum)] }

/-- Worker `pid` has committed its task. -/
def commit (σ : Job) (pid : ℕ) (task : TasksMetadata) (c : Coordinator)
    (wakes : Bool) : Job :=
  { ((σ.setPhase pid .ready).broadcast wakes).setCoordinator c with
    committed := σ.committed ++ [(task.taskType, task.taskNum)] }

theorem commit_worker_of_ne {σ : Job} {pid p : ℕ} {task : TasksMetadata}
    {c : Coordinator} {wakes : Bool} (hp : p ≠ pid) :
    (σ.commit pid task c wakes).worker p = σ.worker p ∨
    (σ.commit pid task c wakes).worker p = (σ.worker p).wake := by
  have h := (σ.setPhase pid .ready).broadcast_worker wakes p
  rwa [setPhase_worker_of_ne hp] at h

theorem commit_worker_self {σ : Job} {pid : ℕ} {task : TasksMetadata}
    {c : Coordinator} {wakes : Bool} :
    (σ.commit pid task c wakes).worker pid = .ready := by
  have h := (σ.setPhase pid .ready).broadcast_worker wakes pid
  rw [setPhase_worker_self] at h
  exact h.elim id id

def step (app : App) (σ : Job) : Action → Option Job
  | .task pid =>
      match σ.worker pid with
      | .ready =>
          let result := σ.coordinator.task pid
          some ((σ.setPhase pid (.ofReply result.2)).setCoordinator result.1)
      | _ => none
  | .recordTask pid =>
      match σ.worker pid with
      | .assigned task nReduce =>
          match σ.coordinator.recordTask pid task with
          | none => none
          | some c =>
              some ((σ.setPhase pid (.holding task nReduce)).setCoordinator c)
      | _ => none
  | .wake pid =>
      match σ.worker pid with
      | .woken => some (σ.setPhase pid .ready)
      | _ => none
  | .doTask pid =>
      match σ.worker pid with
      | .holding task nReduce =>
          match app.doTask σ.disk task nReduce with
          | none => some (σ.setPhase pid .exited)
          | some (disk, intermediates) =>
              some (σ.execute pid task disk intermediates)
      | _ => none
  | .commitOK pid =>
      match σ.worker pid with
      | .finished task intermediates =>
          match σ.coordinator.commitOK pid task intermediates with
          | none => none
          | some (c, wakes) => some (σ.commit pid task c wakes)
      | _ => none
  | .heartbeat pid =>
      some (σ.setCoordinator (σ.coordinator.heartbeat pid))
  | .heartbeatTime pid now =>
      match σ.coordinator.heartbeatTime pid now with
      | none => none
      | some c => some (σ.setCoordinator c)
  | .heart pid now =>
      match σ.coordinator.heart pid now with
      | none => none
      | some (c, wakes) => some ((σ.broadcast wakes).setCoordinator c)

/-- The check of worker `w` declares it crashed. -/
def Expires (c : Coordinator) (w : WorkerStatus) (now : ℕ) : Prop :=
  w.status ≠ .crash ∧ c.expired w now = true

/-! ## What one step can do -/

/-- The branches of `step`, each with its conditions. -/
inductive Transition (app : App) (σ : Job) : Action → Job → Prop
  | assign {pid x num} (hphase : σ.worker pid = .ready)
      (hidle : Coordinator.firstIdle
        (σ.coordinator.tasks σ.coordinator.phase) = some (x, num)) :
      Transition app σ (.task pid) (σ.assignTask pid num x)
  | noTask {pid} (hphase : σ.worker pid = .ready)
      (hidle : Coordinator.firstIdle
        (σ.coordinator.tasks σ.coordinator.phase) = none) :
      Transition app σ (.task pid)
        ((σ.setPhase pid
          (if σ.coordinator.done then .exited else .waiting)).setCoordinator
            (σ.coordinator.register pid))
  | recordTask {pid task nReduce w}
      (hphase : σ.worker pid = .assigned task nReduce)
      (hworker : σ.coordinator.workers pid = some w) :
      Transition app σ (.recordTask pid)
        ((σ.setPhase pid (.holding task nReduce)).setCoordinator
          (σ.coordinator.setWorker pid (w.record task)))
  | wake {pid} (hphase : σ.worker pid = .woken) :
      Transition app σ (.wake pid) (σ.setPhase pid .ready)
  | die {pid task nReduce} (hphase : σ.worker pid = .holding task nReduce)
      (hwork : app.doTask σ.disk task nReduce = none) :
      Transition app σ (.doTask pid) (σ.setPhase pid .exited)
  | doTask {pid task nReduce disk intermediates}
      (hphase : σ.worker pid = .holding task nReduce)
      (hwork : app.doTask σ.disk task nReduce =
        some (disk, intermediates)) :
      Transition app σ (.doTask pid)
        (σ.execute pid task disk intermediates)
  | commitOK {pid task intermediates c wakes}
      (hphase : σ.worker pid = .finished task intermediates)
      (hcommit : σ.coordinator.commitOK pid task intermediates =
        some (c, wakes)) :
      Transition app σ (.commitOK pid) (σ.commit pid task c wakes)
  | heartbeat {pid} :
      Transition app σ (.heartbeat pid)
        (σ.setCoordinator (σ.coordinator.register pid))
  | heartbeatTime {pid now w}
      (hworker : σ.coordinator.workers pid = some w) :
      Transition app σ (.heartbeatTime pid now)
        (σ.setCoordinator
          (σ.coordinator.setWorker pid { w with lastHeartbeat := now }))
  | heartQuiet {pid now w} (hworker : σ.coordinator.workers pid = some w)
      (hquiet : ¬ Expires σ.coordinator w now) :
      Transition app σ (.heart pid now) σ
  | heartExpired {pid now w} (hworker : σ.coordinator.workers pid = some w)
      (hexpires : Expires σ.coordinator w now)
      (hlt : w.taskNum < (σ.coordinator.tasks w.taskType).length) :
      Transition app σ (.heart pid now) (σ.expire pid w)

variable {app : App} {σ σ' : Job}

theorem task_transition {pid : ℕ} (hphase : σ.worker pid = .ready) :
    Transition app σ (.task pid)
      ((σ.setPhase pid (.ofReply (σ.coordinator.task pid).2)).setCoordinator
        (σ.coordinator.task pid).1) := by
  unfold Coordinator.task
  simp only [Coordinator.register_phase, Coordinator.tasks_register,
    Coordinator.register_done, Coordinator.register_nReduce]
  cases hidle : Coordinator.firstIdle
      (σ.coordinator.tasks σ.coordinator.phase) with
  | none =>
      have hreply : Phase.ofReply
          (if σ.coordinator.done then .jobDone else .wait) =
            if σ.coordinator.done then .exited else .waiting := by
        split <;> rfl
      simp only [hreply]
      exact .noTask hphase hidle
  | some found => exact .assign hphase hidle

theorem step_transition {a : Action} (h : σ.step app a = some σ') :
    Transition app σ a σ' := by
  cases a with
  | task pid =>
      simp only [step] at h
      split at h
      · next hphase =>
          obtain rfl := Option.some.inj h
          exact task_transition hphase
      · cases h
  | recordTask pid =>
      simp only [step, Coordinator.recordTask] at h
      split at h
      · next hphase =>
          cases hworker : σ.coordinator.workers pid with
          | none =>
              rw [hworker] at h
              cases h
          | some w =>
              rw [hworker] at h
              obtain rfl := Option.some.inj h
              exact .recordTask hphase hworker
      · cases h
  | wake pid =>
      simp only [step] at h
      split at h
      · next hphase =>
          obtain rfl := Option.some.inj h
          exact .wake hphase
      · cases h
  | doTask pid =>
      simp only [step] at h
      split at h
      · next hphase =>
          split at h
          · next hwork =>
              obtain rfl := Option.some.inj h
              exact .die hphase hwork
          · next hwork =>
              obtain rfl := Option.some.inj h
              exact .doTask hphase hwork
      · cases h
  | commitOK pid =>
      simp only [step] at h
      split at h
      · next hphase =>
          split at h
          · cases h
          · next hcommit =>
              obtain rfl := Option.some.inj h
              exact .commitOK hphase hcommit
      · cases h
  | heartbeat pid =>
      obtain rfl := Option.some.inj h
      exact .heartbeat
  | heartbeatTime pid now =>
      simp only [step, Coordinator.heartbeatTime] at h
      cases hworker : σ.coordinator.workers pid with
      | none =>
          rw [hworker] at h
          cases h
      | some w =>
          rw [hworker] at h
          obtain rfl := Option.some.inj h
          exact .heartbeatTime hworker
  | heart pid now =>
      simp only [step, Coordinator.heart] at h
      cases hworker : σ.coordinator.workers pid with
      | none =>
          rw [hworker] at h
          cases h
      | some w =>
          rw [hworker] at h
          dsimp only at h
          by_cases hcrash : w.status = .crash
          · rw [if_pos hcrash] at h
            obtain rfl := Option.some.inj h
            exact .heartQuiet hworker fun hexpires ↦ hexpires.1 hcrash
          · rw [if_neg hcrash] at h
            by_cases hexpired : σ.coordinator.expired w now = true
            · rw [if_pos hexpired] at h
              by_cases hlt :
                  w.taskNum < (σ.coordinator.tasks w.taskType).length
              · rw [if_pos hlt] at h
                obtain rfl := Option.some.inj h
                exact .heartExpired hworker ⟨hcrash, hexpired⟩ hlt
              · rw [if_neg hlt] at h
                cases h
            · rw [if_neg hexpired] at h
              obtain rfl := Option.some.inj h
              exact .heartQuiet hworker fun hexpires ↦ hexpired hexpires.2

end Job

end DistLabs.Mr
