import DistLabs.Mr.Progress
import Mathlib.Data.List.Nodup

/-!
# The files of a job

What a map task writes and what a reduce task reads.  Every map commit appends
the names of its files to the reduce tasks, so a file is reduced twice when its
map task is committed twice.
-/

namespace DistLabs.Mr

/-! ## File names -/

theorem isDigit_of_mem {n : ℕ} {ch : Char} (h : ch ∈ Nat.toDigits 10 n) :
    ch.isDigit = true :=
  Nat.isDigit_of_mem_toDigits (by decide) (by decide) h

theorem toDigits_injective {a b : ℕ}
    (h : Nat.toDigits 10 a = Nat.toDigits 10 b) : a = b := by
  have hparsed := congrArg (fun digits ↦ Nat.ofDigitChars 10 digits 0) h
  simpa using hparsed

/-- A number ends at the first character that is no digit. -/
theorem split_digits {digits digits' rest rest' : List Char} {x y : Char}
    (hdigits : ∀ ch ∈ digits, ch.isDigit = true)
    (hdigits' : ∀ ch ∈ digits', ch.isDigit = true)
    (hx : x.isDigit = false) (hy : y.isDigit = false)
    (h : digits ++ x :: rest = digits' ++ y :: rest') :
    digits = digits' ∧ rest = rest' := by
  have htake := congrArg (List.takeWhile Char.isDigit) h
  rw [List.takeWhile_append_of_pos hdigits,
    List.takeWhile_append_of_pos hdigits',
    List.takeWhile_cons_of_neg (by simp [hx]),
    List.takeWhile_cons_of_neg (by simp [hy]), List.append_nil,
    List.append_nil] at htake
  subst htake
  exact ⟨rfl, (List.cons.inj (List.append_cancel_left h)).2⟩

theorem toList_intermediateName (m r : ℕ) :
    (intermediateName m r).toList = 'm' :: 'r' :: '-' ::
      (Nat.toDigits 10 m ++ '-' ::
        (Nat.toDigits 10 r ++ '.' :: ['t', 'x', 't'])) := by
  simp [intermediateName]

theorem intermediateName_injective {m m' r r' : ℕ}
    (h : intermediateName m r = intermediateName m' r') :
    m = m' ∧ r = r' := by
  have hlist := congrArg String.toList h
  simp only [toList_intermediateName, List.cons.injEq, true_and] at hlist
  obtain ⟨hm, hrest⟩ := split_digits (fun _ ↦ isDigit_of_mem)
    (fun _ ↦ isDigit_of_mem) (by decide) (by decide) hlist
  obtain ⟨hr, _⟩ := split_digits (fun _ ↦ isDigit_of_mem)
    (fun _ ↦ isDigit_of_mem) (by decide) (by decide) hrest
  exact ⟨toDigits_injective hm, toDigits_injective hr⟩

theorem toList_outName (r : ℕ) :
    (outName r).toList = 'm' :: 'r' :: '-' :: 'o' :: 'u' :: 't' :: '-' ::
      Nat.toDigits 10 r := by
  simp [outName]

theorem outName_injective {r r' : ℕ} (h : outName r = outName r') :
    r = r' := by
  have hlist := congrArg String.toList h
  simp only [toList_outName, List.cons.injEq, true_and] at hlist
  exact toDigits_injective hlist

theorem outName_ne_intermediateName (r m r' : ℕ) :
    outName r ≠ intermediateName m r' := by
  intro h
  have hlist := congrArg String.toList h
  simp only [toList_outName, toList_intermediateName, List.cons.injEq,
    true_and] at hlist
  cases hdigits : Nat.toDigits 10 m with
  | nil => exact Nat.toDigits_ne_nil hdigits
  | cons d ds =>
      rw [hdigits] at hlist
      have hd : d.isDigit = true := by
        refine isDigit_of_mem (n := m) ?_
        rw [hdigits]
        exact List.mem_cons_self
      obtain rfl := (List.cons.inj hlist).1
      cases hd

/-! ## Map tasks -/

/-- The pairs for reduce task `r` of `n`. -/
def partition (n r : ℕ) (kva : List KeyValue) : List KeyValue :=
  kva.filter fun kv ↦ ihash kv.key % n = r

namespace App

theorem distribute_eq_some {n : ℕ} {kva : List KeyValue}
    {parts parts' : List (List KeyValue)}
    (h : distribute n kva parts = some parts') (r : ℕ) :
    parts'[r]? = parts[r]?.map (· ++ partition n r kva) := by
  induction kva generalizing parts with
  | nil =>
      obtain rfl := Option.some.inj h
      simp [partition]
  | cons kv kva ih =>
      rw [distribute] at h
      split at h
      · cases h
      · rw [ih h, List.getElem?_modify, partition]
        by_cases hr : ihash kv.key % n = r
        · simp [hr, partition, Function.comp_def]
        · simp [hr, partition]

/-- The partitions of one list of pairs. -/
theorem distribute_replicate {n : ℕ} {kva : List KeyValue}
    {parts : List (List KeyValue)}
    (h : distribute n kva (List.replicate n []) = some parts) :
    parts = (List.range n).map fun r ↦ partition n r kva := by
  refine List.ext_getElem? fun r ↦ ?_
  rw [distribute_eq_some h, List.getElem?_replicate, List.getElem?_map]
  by_cases hr : r < n <;> simp [hr]

variable {app : App}

/-- What a map task with the number `num` does to the disk when it has emitted
`kva`: it writes the partitions that are not empty, and reports them. -/
structure Maps (app : App) (num n : ℕ) (kva : List KeyValue) (disk disk' : Disk)
    (intermediates : List ℕ) : Prop where
  intermediates_eq : intermediates =
    (List.range n).filter fun r ↦ partition n r kva ≠ []
  written : ∀ r < n, partition n r kva ≠ [] →
    disk' (intermediateName num r) = some (app.encodeAll (partition n r kva))
  frame : ∀ name, (∀ r < n, name ≠ intermediateName num r) →
    disk' name = disk name

theorem writePartitions_map (num : ℕ) (part : ℕ → List KeyValue) (rs : List ℕ)
    {disk disk' : Disk} {map2reduce out : List ℕ}
    (h : app.writePartitions num (rs.map fun r ↦ (part r, r))
      (disk, map2reduce) = (disk', out)) :
    out = map2reduce ++ rs.filter (fun r ↦ part r ≠ []) ∧
    (∀ r ∈ rs, part r ≠ [] →
      disk' (intermediateName num r) = some (app.encodeAll (part r))) ∧
    ∀ name, (∀ r ∈ rs, name ≠ intermediateName num r) →
      disk' name = disk name := by
  induction rs generalizing disk map2reduce with
  | nil =>
      obtain ⟨rfl, rfl⟩ := Prod.mk.inj h
      simp
  | cons r rs ih =>
      rw [List.map_cons, writePartitions] at h
      by_cases hempty : part r = []
      · rw [if_pos (by rw [hempty]; rfl)] at h
        obtain ⟨hout, hwritten, hframe⟩ := ih h
        refine ⟨?_, ?_, fun name hname ↦ hframe name fun r' hr' ↦
          hname r' (List.mem_cons_of_mem r hr')⟩
        · rw [hout, List.filter_cons_of_neg (by simp [hempty])]
        · intro r' hr' hne
          rcases List.mem_cons.mp hr' with rfl | hr'
          · exact absurd hempty hne
          · exact hwritten r' hr' hne
      · rw [if_neg (by simpa using hempty)] at h
        obtain ⟨hout, hwritten, hframe⟩ := ih h
        refine ⟨?_, ?_, fun name hname ↦ ?_⟩
        · rw [hout, List.filter_cons_of_pos (by simpa using hempty),
            List.append_assoc]
          rfl
        · intro r' hr' hne
          by_cases hmem : r' ∈ rs
          · exact hwritten r' hmem hne
          · obtain rfl := (List.mem_cons.mp hr').resolve_right hmem
            have hother : ∀ r'' ∈ rs,
                intermediateName num r' ≠ intermediateName num r'' := by
              intro r'' hr'' heq
              rw [(intermediateName_injective heq).2] at hmem
              exact hmem hr''
            rw [hframe _ hother, Function.update_self]
        · rw [hframe name fun r' hr' ↦
              hname r' (List.mem_cons_of_mem r hr'),
            Function.update_of_ne (hname r List.mem_cons_self)]

/-- A map task with one file, as every map task of a job is. -/
theorem doMap_eq_some {task : TasksMetadata} {filename : String}
    {nReduce : ℤ} {disk disk' : Disk} {intermediates : List ℕ}
    (hname : task.filename = [filename])
    (h : app.doMap disk task nReduce = some (disk', intermediates)) :
    ∃ content, disk filename = some content ∧
      app.Maps task.taskNum nReduce.toNat (app.mapf filename content)
        disk disk' intermediates := by
  rw [doMap] at h
  split at h
  · cases h
  · rw [hname, mapFiles] at h
    split at h
    · cases h
    · next content hcontent =>
        split at h
        · cases h
        · next parts hparts =>
            rw [mapFiles, distribute_replicate hparts] at h
            refine ⟨content, hcontent, ?_⟩
            have hzip : ((List.range nReduce.toNat).map fun r ↦
                partition nReduce.toNat r
                  (app.mapf filename content)).zipIdx =
                (List.range nReduce.toNat).map fun r ↦
                  (partition nReduce.toNat r (app.mapf filename content),
                    r) := by
              refine List.ext_getElem? fun r ↦ ?_
              rw [List.getElem?_zipIdx, List.getElem?_map,
                List.getElem?_map, Option.map_map]
              by_cases hr : r < nReduce.toNat
              · simp [List.getElem?_range hr]
              · simp [hr]
            rw [hzip] at h
            obtain ⟨hout, hwritten, hframe⟩ :=
              writePartitions_map _ _ _ (Option.some.inj h)
            exact ⟨hout, fun r hr ↦ hwritten r (List.mem_range.mpr hr),
              fun name hname ↦ hframe name fun r hr ↦
                hname r (List.mem_range.mp hr)⟩

theorem Maps.nodup {num n : ℕ} {kva : List KeyValue} {disk disk' : Disk}
    {intermediates : List ℕ}
    (h : app.Maps num n kva disk disk' intermediates) :
    intermediates.Nodup := by
  rw [h.intermediates_eq]
  exact List.nodup_range.filter _

/-! ## Reduce tasks -/

variable (app) in
/-- The pairs in a file. -/
def pairs (disk : Disk) (name : String) : List KeyValue :=
  ((disk name).bind app.json.decode).getD []

theorem pairs_encodeAll {disk : Disk} {name : String} {kva : List KeyValue}
    (h : disk name = some (app.encodeAll kva)) : app.pairs disk name = kva := by
  rw [pairs, h, Option.bind_some, encodeAll, app.json.round_trip]
  rfl

theorem readIntermediate_eq_some {disk : Disk} {names : List String}
    {kva : List KeyValue} (h : app.readIntermediate disk names = some kva) :
    kva = names.flatMap (app.pairs disk) := by
  induction names generalizing kva with
  | nil => exact (Option.some.inj h).symm
  | cons name names ih =>
      rw [readIntermediate] at h
      split at h
      · cases h
      · next content hcontent =>
          split at h
          · cases h
          · next hdecode =>
              split at h
              · cases h
              · next rest hrest =>
                  obtain rfl := Option.some.inj h
                  rw [List.flatMap_cons, ← ih hrest, pairs, hcontent,
                    Option.bind_some, hdecode, Option.getD_some]

theorem doReduce_eq_some {task : TasksMetadata} {disk disk' : Disk}
    (h : app.doReduce disk task = some disk') :
    disk' = Function.update disk (outName task.taskNum)
      (some (format
        (app.reduceAll (task.filename.flatMap (app.pairs disk))))) := by
  rw [doReduce] at h
  split at h
  · cases h
  · next kva hread =>
      rw [← readIntermediate_eq_some hread]
      exact (Option.some.inj h).symm

/-! ## Tasks -/

theorem doTask_map {task : TasksMetadata} (hty : task.taskType = .map)
    {disk : Disk} {nReduce : ℤ} :
    app.doTask disk task nReduce = app.doMap disk task nReduce := by
  rw [doTask, hty]

theorem doTask_reduce {task : TasksMetadata} (hty : task.taskType = .reduce)
    {disk disk' : Disk} {nReduce : ℤ} {intermediates : List ℕ}
    (h : app.doTask disk task nReduce = some (disk', intermediates)) :
    disk' = Function.update disk (outName task.taskNum)
      (some (format
        (app.reduceAll (task.filename.flatMap (app.pairs disk))))) ∧
    intermediates = [] := by
  rw [doTask, hty] at h
  dsimp only at h
  split at h
  · cases h
  · next hreduce =>
      obtain ⟨rfl, rfl⟩ := Prod.mk.inj (Option.some.inj h)
      exact ⟨doReduce_eq_some hreduce, rfl⟩

end App

namespace Coordinator

variable {c c' : Coordinator} {ty : TaskType} {num : ℕ} {y : TasksMetadata}

/-- Neither an assignment nor a release changes the files of a task. -/
theorem filename_assignTask {pid num' : ℕ}
    (h : (c.assignTask pid num').taskAt ty num = some y) :
    ∃ x, c.taskAt ty num = some x ∧ y.filename = x.filename := by
  rw [taskAt_assignTask] at h
  split at h
  · next heq =>
      obtain ⟨x, hx, rfl⟩ := Option.map_eq_some_iff.mp h
      rw [heq.1, heq.2]
      exact ⟨x, hx, rfl⟩
  · exact ⟨y, h, rfl⟩

theorem filename_release {pid : ℕ} {w : WorkerStatus}
    (h : (c.release pid w).taskAt ty num = some y) :
    ∃ x, c.taskAt ty num = some x ∧ y.filename = x.filename := by
  rw [release, taskAt_setTask, taskAt_setWorker, taskAt_setWorker] at h
  split at h
  · next heq =>
      obtain ⟨x, hx, rfl⟩ := Option.map_eq_some_iff.mp h
      rw [heq.1, heq.2]
      exact ⟨x, hx, rfl⟩
  · exact ⟨y, h, rfl⟩

theorem Commits.filename {pid : ℕ} {task : TasksMetadata}
    {intermediates : List ℕ} (hcommits : Commits c pid task intermediates c')
    (h : c'.taskAt ty num = some y) :
    ∃ x, c.taskAt ty num = some x ∧
      y.filename = x.filename ++ committedNames task intermediates ty num := by
  rw [hcommits.taskAt] at h
  obtain ⟨x, hx, rfl⟩ := Option.map_eq_some_iff.mp h
  exact ⟨x, hx, rfl⟩

end Coordinator

namespace Job

variable {app : App} {σ σ' : Job} {a : Action}

/-! ## Files of the tasks -/

/-- The files of a task: one input for a map task, and intermediate files of
different committed map tasks for a reduce task. -/
def HasFiles (committed : List (TaskType × ℕ)) :
    TaskType → ℕ → List String → Prop
  | .map, _, names => ∃ filename, names = [filename]
  | .reduce, r, names => names.Nodup ∧
      ∀ name ∈ names, ∃ m, (.map, m) ∈ committed ∧
        name = intermediateName m r

theorem HasFiles.mono {committed committed' : List (TaskType × ℕ)}
    {ty : TaskType} {num : ℕ} {names : List String}
    (h : HasFiles committed ty num names) (hsub : committed ⊆ committed') :
    HasFiles committed' ty num names := by
  cases ty with
  | map => exact h
  | reduce =>
      refine ⟨h.1, fun name hname ↦ ?_⟩
      obtain ⟨m, hm, rfl⟩ := h.2 name hname
      exact ⟨m, hsub hm, rfl⟩

/-- A map task that has not been committed before adds a new file. -/
theorem HasFiles.commit {committed : List (TaskType × ℕ)} {ty : TaskType}
    {num : ℕ} {names : List String} {task : TasksMetadata}
    {intermediates : List ℕ} (h : HasFiles committed ty num names)
    (hnodup : intermediates.Nodup)
    (hfresh : task.taskType = .map → (.map, task.taskNum) ∉ committed) :
    HasFiles (committed ++ [(task.taskType, task.taskNum)]) ty num
      (names ++ Coordinator.committedNames task intermediates ty num) := by
  unfold Coordinator.committedNames
  split
  · next hty =>
      refine ⟨List.nodup_append.mpr ⟨h.1, ?_, ?_⟩, fun name hname ↦ ?_⟩
      · refine (hnodup.filter _).map fun r r' heq ↦ ?_
        exact (intermediateName_injective heq).2
      · rintro name hname _ hnew rfl
        obtain ⟨r, _, rfl⟩ := List.mem_map.mp hnew
        obtain ⟨m, hm, heq⟩ := h.2 _ hname
        rw [(intermediateName_injective heq).1] at hfresh
        exact hfresh hty hm
      · rcases List.mem_append.mp hname with hold | hnew
        · obtain ⟨m, hm, rfl⟩ := h.2 name hold
          exact ⟨m, List.mem_append_left _ hm, rfl⟩
        · obtain ⟨r, hr, rfl⟩ := List.mem_map.mp hnew
          obtain rfl : r = num := by simpa using (List.mem_filter.mp hr).2
          exact ⟨task.taskNum, by simp [hty], rfl⟩
  · rw [List.append_nil]
    exact h.mono (List.subset_append_left _ _)

/-- No map task is committed twice. -/
def CommitsMapsOnce (σ : Job) : Action → Prop
  | .commitOK pid => ∀ task ∈ (σ.worker pid).task?,
      task.taskType = .map → (.map, task.taskNum) ∉ σ.committed
  | _ => True

instance (σ : Job) (a : Action) : Decidable (σ.CommitsMapsOnce a) := by
  induction a using Action.casesOn <;> dsimp only [CommitsMapsOnce] <;>
    infer_instance

/-- The files of the tasks of the coordinator and of the workers. -/
structure Filed (files : ℕ) (σ : Job) : Prop where
  length : (σ.coordinator.tasks .map).length = files
  committed : ∀ m, (.map, m) ∈ σ.committed → m < files
  table : ∀ ty num x, σ.coordinator.taskAt ty num = some x →
    HasFiles σ.committed ty num x.filename
  held : ∀ p task, (σ.worker p).task? = some task →
    HasFiles σ.committed task.taskType task.taskNum task.filename
  finished : ∀ p work, (σ.worker p).finished? = some work → work.2.Nodup

theorem Filed.init (disk : Disk) (files : List String) (nReduce : ℤ) :
    Filed files.length (Job.init disk files nReduce) where
  length := by simp [Job.init, initCoordinator, Coordinator.tasks]
  committed := nofun
  table := by
    intro ty num x hx
    have hx := List.mem_of_getElem? hx
    cases ty with
    | map =>
        obtain ⟨y, _, rfl⟩ := List.mem_map.mp hx
        exact ⟨y.1, rfl⟩
    | reduce =>
        obtain ⟨y, _, rfl⟩ := List.mem_map.mp hx
        refine ⟨List.nodup_nil, fun name hname ↦ ?_⟩
        cases hname
  held := nofun
  finished := nofun

theorem Change.committed_subset (h : Change app σ a σ') :
    σ.committed ⊆ σ'.committed := by
  cases h with
  | quiet h =>
      rw [h.committed]
      exact List.Subset.refl _
  | commitOK => exact List.subset_append_left _ _
  | assign | doTask | expire => exact List.Subset.refl _

/-- The intermediate files that a map task reports are different. -/
theorem Filed.doTask_nodup {n : ℕ} (h : Filed n σ) {p : ℕ}
    {task : TasksMetadata} {nReduce : ℤ} {disk : Disk}
    {intermediates : List ℕ} (hphase : σ.worker p = .holding task nReduce)
    (hwork : app.doTask σ.disk task nReduce = some (disk, intermediates)) :
    intermediates.Nodup := by
  have hfiles := h.held p task (by rw [hphase]; rfl)
  cases hty : task.taskType with
  | map =>
      rw [hty] at hfiles
      obtain ⟨filename, hname⟩ := hfiles
      rw [App.doTask_map hty] at hwork
      obtain ⟨content, _, hmaps⟩ := App.doMap_eq_some hname hwork
      exact hmaps.nodup
  | reduce =>
      rw [(App.doTask_reduce hty hwork).2]
      exact List.nodup_nil

theorem Change.filed {n : ℕ} (h : Change app σ a σ') (hfiled : Filed n σ)
    (honce : σ.CommitsMapsOnce a) : Filed n σ' where
  length := by
    rw [← hfiled.length]
    cases h with
    | quiet h => rw [h.table.tasks]
    | assign | expire => simp
    | doTask => rfl
    | commitOK _ hcommits => exact hcommits.length .map
  committed := by
    intro m hm
    cases h with
    | quiet h =>
        rw [h.committed] at hm
        exact hfiled.committed m hm
    | commitOK _ hcommits =>
        rcases List.mem_append.mp hm with hold | hnew
        · exact hfiled.committed m hold
        · have hinRange := hcommits.inRange
          obtain ⟨hty, rfl⟩ := Prod.mk.inj (List.mem_singleton.mp hnew)
          rwa [← hty, hfiled.length] at hinRange
    | assign | doTask | expire => exact hfiled.committed m hm
  table := by
    intro ty num y hy
    cases h with
    | quiet h =>
        rw [h.table.taskAt] at hy
        rw [h.committed]
        exact hfiled.table ty num y hy
    | assign =>
        obtain ⟨x, hx, heq⟩ := Coordinator.filename_assignTask hy
        rw [heq]
        exact hfiled.table ty num x hx
    | doTask => exact hfiled.table ty num y hy
    | @commitOK pid task intermediates c wakes hphase hcommits =>
        obtain ⟨x, hx, heq⟩ := hcommits.filename hy
        rw [heq]
        exact (hfiled.table ty num x hx).commit
          (hfiled.finished pid (task, intermediates) (by rw [hphase]; rfl))
          (honce task (by rw [hphase]; rfl))
    | expire =>
        obtain ⟨x, hx, heq⟩ := Coordinator.filename_release hy
        rw [heq]
        exact hfiled.table ty num x hx
  held := by
    intro p task htask
    rcases h.task htask with hold | ⟨_, x, num, hidle, rfl⟩
    · exact (hfiled.held p task hold).mono h.committed_subset
    · have hx := (Coordinator.firstIdle_eq_some hidle).1
      exact (hfiled.table _ num x hx).mono h.committed_subset
  finished := by
    intro p work hwork
    rcases h.finished hwork with hold | ⟨_, nReduce, hphase, hdone⟩
    · exact hfiled.finished p work hold
    · exact hfiled.doTask_nodup hphase hdone

/-- When no map task is committed twice, no file is listed twice for a reduce
task, and `doReduce` reads no more than the intermediate files hold. -/
theorem no_file_reduced_twice {disk : Disk} {files : List String}
    {nReduce : ℤ} {visited : List Job}
    (hrun : Run (step app) CommitsMapsOnce (init disk files nReduce)
      visited σ) :
    (∀ r x, σ.coordinator.taskAt .reduce r = some x → x.filename.Nodup) ∧
    ∀ pid task kva, (σ.worker pid).task? = some task →
      task.taskType = .reduce →
      app.readIntermediate σ.disk task.filename = some kva →
        kva.Subperm ((List.range files.length).flatMap fun m ↦
          app.pairs σ.disk (intermediateName m task.taskNum)) := by
  have hfiled : Filed files.length σ :=
    hrun.invariant (I := Filed files.length)
      (Filed.init disk files nReduce)
      fun h hok hstep ↦ (step_change hstep).filed h hok
  refine ⟨fun r x hx ↦ (hfiled.table .reduce r x hx).1, ?_⟩
  intro pid task kva htask hty hread
  have hfiles := hfiled.held pid task htask
  rw [hty] at hfiles
  have hsubperm : task.filename.Subperm
      ((List.range files.length).map fun m ↦
        intermediateName m task.taskNum) := by
    refine List.subperm_of_subset hfiles.1 fun name hname ↦ ?_
    obtain ⟨m, hm, rfl⟩ := hfiles.2 name hname
    exact List.mem_map_of_mem (List.mem_range.mpr (hfiled.committed m hm))
  obtain ⟨names, hperm, hsub⟩ := hsubperm
  rw [App.readIntermediate_eq_some hread]
  refine ⟨names.flatMap (app.pairs σ.disk), hperm.flatMap_right _, ?_⟩
  have hsub := hsub.flatMap (app.pairs σ.disk)
  rwa [List.flatMap_map] at hsub

/-- Worker 1 holds the reduce task after map task 0 has been assigned twice. -/
theorem no_file_reduced_twice_late :
    ∃ (σ : Job) (task : TasksMetadata) (kva : List KeyValue),
      task.filename = ["mr-0-0.txt", "mr-1-0.txt"] ∧ kva.length = 3 ∧
      kva.Subperm ((List.range 2).flatMap fun m ↦
        letterCount.pairs σ.disk (intermediateName m task.taskNum)) := by
  obtain ⟨visited, σ, hrun, task, htask, hty, hname, kva, hread, hlength⟩ :=
    Run.exists_of_exec (step letterCount) CommitsMapsOnce
      (init letters ["a.txt", "b.txt"] 1) (lateWorker.take 17)
      (fun σ ↦ ∃ task ∈ (σ.worker 1).task?, task.taskType = .reduce ∧
        task.filename = ["mr-0-0.txt", "mr-1-0.txt"] ∧
        ∃ kva ∈ letterCount.readIntermediate σ.disk task.filename,
          kva.length = 3) (by decide +kernel)
  exact ⟨σ, task, kva, hname, hlength,
    (no_file_reduced_twice hrun).2 1 task kva htask hty hread⟩

/-- The first input is counted twice when both workers commit its map task. -/
theorem file_reduced_twice :
    ∃ visited σ, Run (step letterCount) (fun _ _ ↦ True)
        (init letters ["a.txt", "b.txt"] 1) visited σ ∧
      (σ.coordinator.taskAt .reduce 0).map TasksMetadata.filename =
        some ["mr-0-0.txt", "mr-0-0.txt"] ∧
      σ.disk "mr-out-0" = some "a 2\nb 2\n" :=
  Run.exists_of_exec (step letterCount) (fun _ _ ↦ True)
    (init letters ["a.txt", "b.txt"] 1) doubleCommit
    (fun σ ↦ (σ.coordinator.taskAt .reduce 0).map TasksMetadata.filename =
        some ["mr-0-0.txt", "mr-0-0.txt"] ∧
      σ.disk "mr-out-0" = some "a 2\nb 2\n") (by decide +kernel)

end Job

end DistLabs.Mr
