import DistLabs.Mr.Job

/-!
# Who works on a task

`Task` marks a task as in progress in its first section and records who works on
it in the second one.  A worker that has timed out may still commit its task and
take another one, and `Heart` releases whatever is recorded last.
-/

namespace DistLabs.Mr

/-- A worker whose record says that it works on the task `num` of kind `ty` is
executing or committing it, or is dead. -/
def Phase.WorksOn (ty : TaskType) (num : ℕ) : Phase → Prop
  | .holding task _ => task.taskType = ty ∧ task.taskNum = num
  | .finished task _ => task.taskType = ty ∧ task.taskNum = num
  | .exited => True
  | _ => False

theorem Phase.worksOn_wake {ty : TaskType} {num : ℕ} {phase : Phase} :
    phase.wake.WorksOn ty num ↔ phase.WorksOn ty num := by
  cases phase <;> exact Iff.rfl

theorem Phase.wake_eq_assigned {phase : Phase} {task : TasksMetadata}
    {nReduce : ℤ} :
    phase.wake = .assigned task nReduce ↔ phase = .assigned task nReduce := by
  cases phase <;> simp [Phase.wake]

namespace Job

variable {app : App} {σ σ' : Job} {pid : ℕ} {ty : TaskType} {num : ℕ}

/-- Worker `pid` is recorded as working on the task. -/
def Recorded (σ : Job) (pid : ℕ) (ty : TaskType) (num : ℕ) : Prop :=
  ∃ w, σ.coordinator.workers pid = some w ∧ w.status = .work ∧
    w.taskType = ty ∧ w.taskNum = num

/-- The call of `Task` by worker `pid` has assigned the task and has not run its
second section. -/
def Assigned (σ : Job) (pid : ℕ) (ty : TaskType) (num : ℕ) : Prop :=
  ∃ task nReduce, σ.worker pid = .assigned task nReduce ∧
    task.taskType = ty ∧ task.taskNum = num

def Owns (σ : Job) (pid : ℕ) (ty : TaskType) (num : ℕ) : Prop :=
  σ.Recorded pid ty num ∨ σ.Assigned pid ty num

/-- Every task in progress has an owner. -/
structure Owned (σ : Job) : Prop where
  working : ∀ pid w, σ.coordinator.workers pid = some w → w.status = .work →
    (σ.worker pid).WorksOn w.taskType w.taskNum
  owner : ∀ ty num, σ.coordinator.state? ty num = some .inproc →
    ∃ pid, σ.Owns pid ty num

/-- A worker that works on nothing is not recorded as working. -/
theorem Owned.not_recorded (h : σ.Owned)
    (hphase : ∀ ty num, ¬ (σ.worker pid).WorksOn ty num) :
    ¬ σ.Recorded pid ty num := by
  rintro ⟨w, hw, hstatus, _⟩
  exact hphase _ _ (h.working pid w hw hstatus)

/-- A step that changes only worker `pid` and its record keeps an owner for
every task when `pid` gives up none that is in progress. -/
theorem Owned.update (h : σ.Owned) (pid : ℕ)
    (hworkers : ∀ p ≠ pid,
      σ'.coordinator.workers p = σ.coordinator.workers p)
    (hphases : ∀ p ≠ pid,
      σ'.worker p = σ.worker p ∨ σ'.worker p = (σ.worker p).wake)
    (hworking : ∀ w, σ'.coordinator.workers pid = some w →
      w.status = .work → (σ'.worker pid).WorksOn w.taskType w.taskNum)
    (hstate : ∀ ty num, σ'.coordinator.state? ty num = some .inproc →
      σ.coordinator.state? ty num = some .inproc ∧
        (σ.Owns pid ty num → σ'.Owns pid ty num) ∨
      σ'.Owns pid ty num) : σ'.Owned where
  working := by
    intro p w hw hstatus
    by_cases hp : p = pid
    · subst hp
      exact hworking w hw hstatus
    · rw [hworkers p hp] at hw
      have hworks := h.working p w hw hstatus
      rcases hphases p hp with heq | heq
      · rwa [heq]
      · rwa [heq, Phase.worksOn_wake]
  owner := by
    intro ty num hinproc
    rcases hstate ty num hinproc with ⟨hold, hkeeps⟩ | hnew
    · obtain ⟨p, howns⟩ := h.owner ty num hold
      by_cases hp : p = pid
      · subst hp
        exact ⟨p, hkeeps howns⟩
      · refine ⟨p, howns.imp ?_ ?_⟩
        · rintro ⟨w, hw, hrest⟩
          exact ⟨w, (hworkers p hp).trans hw, hrest⟩
        · rintro ⟨task, nReduce, hassigned, hrest⟩
          refine ⟨task, nReduce, ?_, hrest⟩
          rcases hphases p hp with heq | heq
          · rwa [heq]
          · rwa [heq, Phase.wake_eq_assigned]
    · exact ⟨pid, hnew⟩

theorem register_workers_of_ne (c : Coordinator) {p : ℕ} (hp : p ≠ pid) :
    (c.register pid).workers p = c.workers p := by
  rcases c.register_cases pid with h | ⟨_, h⟩ <;> rw [h]
  exact c.setWorker_workers_of_ne hp _

/-- A worker that is registered as working was so before. -/
theorem register_working {c : Coordinator} {w : WorkerStatus}
    (h : (c.register pid).workers pid = some w) (hstatus : w.status = .work) :
    c.workers pid = some w := by
  rcases c.register_cases pid with heq | ⟨_, heq⟩
  · rwa [heq] at h
  · rw [heq, Coordinator.setWorker_workers_self] at h
    obtain rfl := Option.some.inj h
    cases hstatus

/-- A worker that becomes known is not recorded as working. -/
theorem recorded_register {p : ℕ}
    (hregister : σ'.coordinator = σ.coordinator.register pid) :
    σ'.Recorded p ty num ↔ σ.Recorded p ty num := by
  unfold Recorded
  rw [hregister]
  by_cases hp : p = pid
  · subst hp
    constructor
    · rintro ⟨w, hw, hstatus, hrest⟩
      exact ⟨w, register_working hw hstatus, hstatus, hrest⟩
    · rintro ⟨w, hw, hrest⟩
      refine ⟨w, ?_, hrest⟩
      rcases σ.coordinator.register_cases p with heq | ⟨hnone, _⟩
      · rwa [heq]
      · rw [hnone] at hw
        cases hw
  · rw [register_workers_of_ne _ hp]

/-- A record that says the same about the worker's task changes no owner. -/
theorem recorded_setWorker {p : ℕ} {w w' : WorkerStatus}
    (hset : σ'.coordinator = σ.coordinator.setWorker pid w')
    (hworker : σ.coordinator.workers pid = some w)
    (hstatus : w'.status = w.status) (htype : w'.taskType = w.taskType)
    (hnum : w'.taskNum = w.taskNum) :
    σ'.Recorded p ty num ↔ σ.Recorded p ty num := by
  unfold Recorded
  rw [hset]
  by_cases hp : p = pid
  · subst hp
    simp [Coordinator.setWorker_workers_self, hworker, hstatus, htype, hnum]
  · rw [Coordinator.setWorker_workers_of_ne _ hp]

theorem Owned.init (disk : Disk) (files : List String) (nReduce : ℤ) :
    (Job.init disk files nReduce).Owned where
  working := by
    intro pid w hw
    cases hw
  owner := by
    intro ty num hinproc
    cases Coordinator.state_initCoordinator hinproc

/-- A worker that is neither working nor assigned owns nothing. -/
theorem Owned.not_owns (h : σ.Owned)
    (hphase : ∀ ty num, ¬ (σ.worker pid).WorksOn ty num)
    (hassigned : ∀ task nReduce, σ.worker pid ≠ .assigned task nReduce) :
    ¬ σ.Owns pid ty num := by
  rintro (hrecorded | ⟨task, nReduce, heq, _⟩)
  · exact h.not_recorded hphase hrecorded
  · exact hassigned task nReduce heq

theorem Owned.assign (h : σ.Owned) {x : TasksMetadata}
    (hphase : σ.worker pid = .ready)
    (hidle : Coordinator.firstIdle
      (σ.coordinator.tasks σ.coordinator.phase) = some (x, num)) :
    (σ.assignTask pid num x).Owned := by
  have hfree : ∀ ty num, ¬ (σ.worker pid).WorksOn ty num := by
    rw [hphase]
    exact fun _ _ ↦ id
  refine h.update pid (fun p hp ↦ ?_)
    (fun p hp ↦ Or.inl (assignTask_worker_of_ne hp)) (fun w hw hstatus ↦ ?_)
    fun ty num' hinproc ↦ ?_
  · rw [assignTask_coordinator, Coordinator.assignTask_workers]
    exact register_workers_of_ne _ hp
  · rw [assignTask_coordinator, Coordinator.assignTask_workers] at hw
    exact absurd (h.working pid w (register_working hw hstatus) hstatus)
      (hfree _ _)
  · rw [assignTask_coordinator, Coordinator.state_assignTask pid hidle]
      at hinproc
    split at hinproc
    · next heq =>
        exact Or.inr (Or.inr ⟨_, _, assignTask_worker_self, heq.1.symm,
          heq.2.symm⟩)
    · exact Or.inl ⟨hinproc, fun howns ↦ absurd howns
        (h.not_owns hfree (by rw [hphase]; intros; exact nofun))⟩

theorem Owned.commitOK (h : σ.Owned) {task : TasksMetadata}
    {intermediates : List ℕ} {c : Coordinator} {wakes : Bool}
    (hphase : σ.worker pid = .finished task intermediates)
    (hcommits : Coordinator.Commits σ.coordinator pid task intermediates c) :
    (σ.commit pid task c wakes).Owned := by
  obtain ⟨w, hw, hworkers⟩ := hcommits.worker
  refine h.update pid (fun p hp ↦ ?_) (fun p hp ↦ commit_worker_of_ne hp)
    (fun w' hw' hstatus ↦ ?_) fun ty num hinproc ↦ Or.inl ?_
  · change c.workers p = _
    rw [hworkers, Function.update_of_ne hp]
  · change c.workers pid = some w' at hw'
    rw [hworkers, Function.update_self] at hw'
    obtain rfl := Option.some.inj hw'
    cases hstatus
  · change c.state? ty num = some .inproc at hinproc
    rw [hcommits.state] at hinproc
    split at hinproc
    · cases hinproc
    · next hne =>
        refine ⟨hinproc, fun howns ↦ absurd ?_ hne⟩
        rcases howns with ⟨w', hw', hstatus, rfl, rfl⟩ |
          ⟨task', nReduce, heq, _⟩
        · have hworks := h.working pid w' hw' hstatus
          rw [hphase] at hworks
          exact ⟨hworks.1.symm, hworks.2.symm⟩
        · rw [hphase] at heq
          cases heq

theorem Owned.expire (h : σ.Owned) {w : WorkerStatus}
    (hworker : σ.coordinator.workers pid = some w)
    (hlt : w.taskNum < (σ.coordinator.tasks w.taskType).length) :
    (σ.expire pid w).Owned := by
  refine h.update pid (fun p hp ↦ ?_) (fun p _ ↦ σ.expire_worker pid w p)
    (fun w' hw' hstatus ↦ ?_) fun ty num hinproc ↦ Or.inl ?_
  · rw [expire_coordinator, Coordinator.release_workers]
    exact Coordinator.setWorker_workers_of_ne _ hp _
  · rw [expire_coordinator, Coordinator.release_workers,
      Coordinator.setWorker_workers_self] at hw'
    obtain rfl := Option.some.inj hw'
    cases hstatus
  · rw [expire_coordinator, Coordinator.state_release pid hlt]
      at hinproc
    split at hinproc
    · cases hinproc
    · next hne =>
        refine ⟨hinproc, fun howns ↦ ?_⟩
        rcases howns with ⟨w', hw', _, rfl, rfl⟩ | ⟨task, nReduce, heq, hrest⟩
        · obtain rfl := Option.some.inj (hworker.symm.trans hw')
          exact absurd ⟨rfl, rfl⟩ hne
        · exact Or.inr ⟨task, nReduce, Phase.wake_eq_assigned.mpr heq, hrest⟩

/-- Every owner keeps its tasks in a step that changes no state of a task and no
record of who works on what. -/
theorem Owned.keep (h : σ.Owned) {phase : Phase}
    (hstate : ∀ ty num, σ'.coordinator.state? ty num =
      σ.coordinator.state? ty num)
    (hrecorded : ∀ p ty num, σ'.Recorded p ty num ↔ σ.Recorded p ty num)
    (hworker : σ'.worker = Function.update σ.worker pid phase)
    (hworks : ∀ ty num, (σ.worker pid).WorksOn ty num →
      phase.WorksOn ty num)
    (hassigned : ∀ task nReduce, σ.worker pid = .assigned task nReduce →
      phase = .assigned task nReduce) : σ'.Owned where
  working := by
    intro p w hw hstatus
    obtain ⟨w', hw', hstatus', hty, hnum⟩ :=
      (hrecorded p _ _).mp ⟨w, hw, hstatus, rfl, rfl⟩
    have hold := h.working p w' hw' hstatus'
    rw [hty, hnum] at hold
    rw [hworker]
    by_cases hp : p = pid
    · subst hp
      rw [Function.update_self]
      exact hworks _ _ hold
    · rwa [Function.update_of_ne hp]
  owner := by
    intro ty num hinproc
    rw [hstate] at hinproc
    obtain ⟨p, howns⟩ := h.owner ty num hinproc
    refine ⟨p, howns.imp (hrecorded p ty num).mpr ?_⟩
    rintro ⟨task, nReduce, heq, hrest⟩
    refine ⟨task, nReduce, ?_, hrest⟩
    rw [hworker]
    by_cases hp : p = pid
    · subst hp
      rw [Function.update_self]
      exact hassigned task nReduce heq
    · rwa [Function.update_of_ne hp]

/-- The second section of `Task` makes the worker that was assigned the task the
one that is recorded for it. -/
theorem Owned.recordTask (h : σ.Owned) {task : TasksMetadata} {nReduce : ℤ}
    {w : WorkerStatus} (hphase : σ.worker pid = .assigned task nReduce)
    (hstatus : w.status = .work) (htype : w.taskType = task.taskType)
    (hnum : w.taskNum = task.taskNum) :
    ((σ.setPhase pid (.holding task nReduce)).setCoordinator
      (σ.coordinator.setWorker pid w)).Owned := by
  refine h.update pid (fun p hp ↦ Coordinator.setWorker_workers_of_ne _ hp _)
    (fun p hp ↦ Or.inl (setPhase_worker_of_ne hp)) (fun w' hw' _ ↦ ?_)
    fun ty num hinproc ↦ Or.inl ?_
  · rw [setCoordinator_coordinator, Coordinator.setWorker_workers_self] at hw'
    obtain rfl := Option.some.inj hw'
    change Phase.WorksOn _ _ ((σ.setPhase pid _).worker pid)
    rw [setPhase_worker_self]
    exact ⟨htype.symm, hnum.symm⟩
  · rw [setCoordinator_coordinator, Coordinator.state_setWorker] at hinproc
    refine ⟨hinproc, fun howns ↦ Or.inl ?_⟩
    rcases howns with hrecorded | ⟨task', nReduce', heq, rfl, rfl⟩
    · exact absurd hrecorded
        (h.not_recorded (by rw [hphase]; exact fun _ _ ↦ id))
    · cases hphase.symm.trans heq
      exact ⟨w, Coordinator.setWorker_workers_self _ _ _, hstatus, htype, hnum⟩

theorem Owned.step {a : Action} (h : σ.Owned)
    (hstep : σ.step app a = some σ') : σ'.Owned := by
  cases step_transition hstep with
  | assign hphase hidle => exact h.assign hphase hidle
  | @noTask pid hphase _ =>
      exact h.keep (fun _ _ ↦ Coordinator.state_register pid)
        (fun _ _ _ ↦ recorded_register rfl) rfl
        (by rw [hphase]; exact fun _ _ ↦ False.elim)
        (by rw [hphase]; exact nofun)
  | recordTask hphase _ => exact h.recordTask hphase rfl rfl rfl
  | wake hphase =>
      exact h.keep (fun _ _ ↦ rfl) (fun _ _ _ ↦ Iff.rfl) rfl
        (by rw [hphase]; exact fun _ _ ↦ False.elim)
        (by rw [hphase]; exact nofun)
  | die hphase =>
      exact h.keep (fun _ _ ↦ rfl) (fun _ _ _ ↦ Iff.rfl) rfl
        (fun ty num _ ↦ show Phase.WorksOn ty num .exited from trivial)
        (by rw [hphase]; exact nofun)
  | doTask hphase =>
      exact h.keep (fun _ _ ↦ rfl) (fun _ _ _ ↦ Iff.rfl) rfl
        (by rw [hphase]; exact fun _ _ ↦ id) (by rw [hphase]; exact nofun)
  | commitOK hphase hcommit =>
      exact h.commitOK hphase (Coordinator.commitOK_eq_some hcommit)
  | @heartbeat pid =>
      exact h.keep (fun _ _ ↦ Coordinator.state_register pid)
        (fun _ _ _ ↦ recorded_register rfl)
        (Function.update_eq_self pid σ.worker).symm (fun _ _ ↦ id)
        fun _ _ ↦ id
  | @heartbeatTime pid _ w hworker =>
      exact h.keep (fun _ _ ↦ Coordinator.state_setWorker pid _)
        (fun _ _ _ ↦ recorded_setWorker rfl hworker rfl rfl rfl)
        (Function.update_eq_self pid σ.worker).symm (fun _ _ ↦ id)
        fun _ _ ↦ id
  | heartQuiet => exact h
  | heartExpired hworker _ hlt => exact h.expire hworker hlt

/-- In every run every task in progress is recorded for some worker that is
marked as working, and the check of this worker releases the task when its last
heartbeat is too long ago; or a call of `Task` has just assigned it. -/
theorem no_task_stranded {disk : Disk} {files : List String} {nReduce : ℤ}
    {visited : List Job}
    (hrun : Run (step app) (fun _ _ ↦ True) (init disk files nReduce)
      visited σ)
    (hinproc : σ.coordinator.state? ty num = some .inproc) :
    (∃ pid w, σ.coordinator.workers pid = some w ∧ w.status = .work ∧
      w.taskType = ty ∧ w.taskNum = num ∧
      ∀ now : ℕ,
        (now : ℤ) - w.lastHeartbeat > σ.coordinator.timeout * 1000000000 →
        ∃ c, σ.coordinator.heart pid now = some (c, true) ∧
          c.state? ty num = some .idle) ∨
    ∃ pid task nReduce, σ.worker pid = .assigned task nReduce ∧
      task.taskType = ty ∧ task.taskNum = num := by
  have howned : σ.Owned := hrun.invariant (I := Owned)
    (Owned.init disk files nReduce) fun h _ hstep ↦ h.step hstep
  obtain ⟨pid, ⟨w, hw, hstatus, rfl, rfl⟩ | hassigned⟩ :=
    howned.owner ty num hinproc
  · refine Or.inl ⟨pid, w, hw, hstatus, rfl, rfl, fun now hlate ↦ ?_⟩
    obtain ⟨x, hx, _⟩ := Option.map_eq_some_iff.mp hinproc
    have hlt := Coordinator.lt_length_of_taskAt hx
    have hcrash : ¬ w.status = .crash := by
      rw [hstatus]
      exact nofun
    refine ⟨σ.coordinator.release pid w, ?_, ?_⟩
    · simp only [Coordinator.heart, hw, if_neg hcrash, Coordinator.expired,
        decide_eq_true hlate, if_true, if_pos hlt]
    · rw [Coordinator.state_release pid hlt, if_pos ⟨rfl, rfl⟩]
  · exact Or.inr ⟨pid, hassigned⟩

/-- Worker 1 times out with map task 0, which worker 2 gets too; worker 1
commits it nevertheless and goes on to map task 1. -/
def lateCommit : List Action :=
  [.heartbeat 1, .heartbeatTime 1 1000000000, .task 1, .recordTask 1,
    .heartbeat 2, .heartbeatTime 2 6000000000, .heart 1 7000000000,
    .task 2, .recordTask 2, .doTask 1, .commitOK 1, .task 1, .recordTask 1]

theorem no_task_stranded_late :
    ∃ σ : Job, σ.coordinator.state? .map 1 = some .inproc ∧
      ((∃ pid w, σ.coordinator.workers pid = some w ∧ w.status = .work ∧
        w.taskType = .map ∧ w.taskNum = 1 ∧
        ∀ now : ℕ,
          (now : ℤ) - w.lastHeartbeat > σ.coordinator.timeout * 1000000000 →
          ∃ c, σ.coordinator.heart pid now = some (c, true) ∧
            c.state? .map 1 = some .idle) ∨
      ∃ pid task nReduce, σ.worker pid = .assigned task nReduce ∧
        task.taskType = .map ∧ task.taskNum = 1) := by
  obtain ⟨visited, σ, hrun, hinproc⟩ :=
    Run.exists_of_exec (step letterCount) (fun _ _ ↦ True)
      (init letters ["a.txt", "b.txt"] 1) lateCommit
      (fun σ ↦ σ.coordinator.state? .map 1 = some .inproc)
      (by decide +kernel)
  exact ⟨σ, hinproc, no_task_stranded hrun hinproc⟩

end Job

end DistLabs.Mr
