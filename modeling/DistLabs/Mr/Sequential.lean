import Mathlib.Data.List.Permutation
import DistLabs.Mr.Schedule

/-!
# A job computes what the sequential program computes

In an undisturbed run the intermediate files hold the pairs that the map tasks
have emitted, partitioned by their keys.  The reduce tasks group them part by
part, and `mrsequential` groups them all at once.
-/

namespace DistLabs.Mr

namespace App

variable (app : App)

/-- The pairs that the map task for the file `files[m]` emits. -/
def emitted (disk₀ : Disk) (files : List String) (m : ℕ) : List KeyValue :=
  (files[m]?.bind fun filename ↦
    (disk₀ filename).map (app.mapf filename)).getD []

variable {app} {disk₀ : Disk} {files : List String} {m : ℕ}

theorem emitted_eq {filename content : String}
    (hfile : files[m]? = some filename)
    (hcontent : disk₀ filename = some content) :
    app.emitted disk₀ files m = app.mapf filename content := by
  simp [emitted, hfile, hcontent]

theorem readInputs_eq
    (h : ∀ filename ∈ files, ∃ content, disk₀ filename = some content) :
    app.readInputs disk₀ files =
      some ((List.range files.length).flatMap (app.emitted disk₀ files)) := by
  induction files with
  | nil => rfl
  | cons filename rest ih =>
      obtain ⟨content, hcontent⟩ := h filename List.mem_cons_self
      have hrest := ih fun name hname ↦
        h name (List.mem_cons_of_mem filename hname)
      rw [readInputs, hcontent, hrest, List.length_cons,
        List.range_succ_eq_map, List.flatMap_cons, List.flatMap_map]
      have hhead : app.emitted disk₀ (filename :: rest) 0 =
          app.mapf filename content := emitted_eq rfl hcontent
      have htail : ∀ m, app.emitted disk₀ (filename :: rest) (m + 1) =
          app.emitted disk₀ rest m := fun _ ↦ rfl
      simp only [hhead, Nat.succ_eq_add_one, htail]

/-- No input has the name of an intermediate file of the job. -/
def KeepsInputs (files : List String) (n : ℕ) : Prop :=
  ∀ filename ∈ files, ∀ m < files.length, ∀ r < n,
    filename ≠ intermediateName m r

instance (files : List String) (n : ℕ) : Decidable (KeepsInputs files n) := by
  unfold KeepsInputs
  infer_instance

/-! ## Reducing in parts -/

/-- `reducef` on the values of a group. -/
noncomputable def reduceGroup (app : App) (key : String)
    (group : Multiset KeyValue) : String :=
  app.reducef key (group.map KeyValue.value).toList

section Reduce

variable (hreducef : ∀ key values values', values.Perm values' →
  app.reducef key values = app.reducef key values')
include hreducef

theorem reduceAll_eq_records (kva : List KeyValue) :
    (app.reduceAll kva : Multiset (String × String)) =
      Grouping.records KeyValue.key app.reduceGroup kva := by
  have hgroup : ∀ (key : String) (group : List KeyValue),
      app.reducef key (group.map KeyValue.value) =
        app.reduceGroup key group := by
    intro key group
    refine hreducef key _ _ ?_
    rw [← Multiset.coe_eq_coe, Multiset.coe_toList, Multiset.map_coe]
  rw [← Multiset.coe_eq_coe.mpr (app.sort_perm kva)]
  exact Grouping.map_runs_eq_records hgroup (app.sort_sorted kva)

/-- The parts may be reduced one by one, in any order of their pairs. -/
theorem flatMap_reduceAll {n : ℕ} (hn : 1 ≤ n) {kva : List KeyValue}
    {parts : ℕ → List KeyValue}
    (hparts : ∀ r < n, (parts r).Perm (partition n r kva)) :
    ((List.range n).flatMap fun r ↦ app.reduceAll (parts r)).Perm
      (app.reduceAll kva) := by
  rw [← Multiset.coe_eq_coe, ← Multiset.coe_bind,
    reduceAll_eq_records hreducef]
  have hcover : ∀ kv ∈ (kva : Multiset KeyValue),
      ihash kv.key % n ∈ (List.range n : Multiset ℕ) :=
    fun kv _ ↦ List.mem_range.mpr (Nat.mod_lt _ hn)
  rw [← Grouping.bind_records (fun key ↦ ihash key % n)
    (Multiset.coe_nodup.mpr List.nodup_range) hcover]
  refine Multiset.bind_congr fun r hr ↦ ?_
  rw [reduceAll_eq_records hreducef,
    Multiset.coe_eq_coe.mpr (hparts r (List.mem_range.mp hr)), partition,
    Multiset.filter_coe]

end Reduce

/-- Map tasks that have emitted nothing for a reduce task may be left out. -/
theorem flatMap_perm_of_mem_iff {f : ℕ → List KeyValue} {ms : List ℕ} {k : ℕ}
    (hnodup : ms.Nodup) (hmem : ∀ m, m ∈ ms ↔ m < k ∧ f m ≠ []) :
    (ms.flatMap f).Perm ((List.range k).flatMap f) := by
  have hperm : ms.Perm ((List.range k).filter fun m ↦ f m ≠ []) := by
    refine (List.perm_ext_iff_of_nodup hnodup
      (List.nodup_range.filter _)).mpr fun m ↦ ?_
    simp [hmem]
  refine (hperm.flatMap_right f).trans (List.Perm.of_eq ?_)
  induction List.range k with
  | nil => rfl
  | cons m ms ih =>
      by_cases hempty : f m = []
      · rw [List.filter_cons_of_neg (by simp [hempty]), List.flatMap_cons,
          hempty, ih]
        rfl
      · rw [List.filter_cons_of_pos (by simp [hempty]), List.flatMap_cons,
          List.flatMap_cons, ih]

end App

namespace Job

/-- The files of an undisturbed job hold what the map tasks have emitted and
what the reduce tasks make of it. -/
structure Written (app : App) (disk₀ : Disk) (files : List String) (n : ℕ)
    (σ : Job) : Prop where
  inputs : ∀ m, (.map, m) ∈ σ.executed → ∃ filename content,
    files[m]? = some filename ∧ disk₀ filename = some content
  maps : ∀ m r, (.map, m) ∈ σ.executed → r < n →
    partition n r (app.emitted disk₀ files m) ≠ [] →
      σ.disk (intermediateName m r) =
        some (app.encodeAll (partition n r (app.emitted disk₀ files m)))
  finished : ∀ p work, (σ.worker p).finished? = some work →
    work.1.taskType = .map → work.2 = (List.range n).filter fun r ↦
      partition n r (app.emitted disk₀ files work.1.taskNum) ≠ []
  names : ∀ r x, σ.coordinator.taskAt .reduce r = some x →
    ∃ ms : List ℕ, ms.Nodup ∧ x.filename = ms.map (intermediateName · r) ∧
      ∀ m, m ∈ ms ↔ σ.coordinator.state? .map m = some .completed ∧
        partition n r (app.emitted disk₀ files m) ≠ []
  outputs : ∀ r, (.reduce, r) ∈ σ.executed → ∃ kva,
    kva.Perm ((List.range files.length).flatMap fun m ↦
      partition n r (app.emitted disk₀ files m)) ∧
    σ.disk (outName r) = some (format (app.reduceAll kva))
  sources : (∀ r, (.reduce, r) ∉ σ.executed) →
    ∀ filename ∈ files, σ.disk filename = disk₀ filename

namespace Written

variable {app : App} {disk₀ : Disk} {files : List String} {n : ℕ}
variable {σ σ' : Job} {a : Action} {pid : ℕ} {task : TasksMetadata}

theorem init (app : App) (disk : Disk) (files : List String) (n : ℕ) :
    Written app disk files n (Job.init disk files n) where
  inputs := nofun
  maps := nofun
  finished := nofun
  names := by
    intro r x hx
    obtain ⟨i, _, rfl⟩ := List.mem_map.mp (List.mem_of_getElem? hx)
    refine ⟨[], List.nodup_nil, rfl, fun m ↦ iff_of_false List.not_mem_nil ?_⟩
    rintro ⟨hcompleted, _⟩
    cases Coordinator.state_initCoordinator hcompleted
  outputs := nofun
  sources := fun _ _ _ ↦ rfl

theorem quiet (h : Written app disk₀ files n σ) (hquiet : Quiet σ σ') :
    Written app disk₀ files n σ' where
  inputs := by
    rw [hquiet.executed]
    exact h.inputs
  maps := by
    rw [hquiet.executed, hquiet.disk]
    exact h.maps
  finished := by
    intro p work hwork
    rw [(hquiet.worker p).finished] at hwork
    exact h.finished p work hwork
  names := by
    rw [hquiet.table.taskAt, hquiet.table.state]
    exact h.names
  outputs := by
    rw [hquiet.executed, hquiet.disk]
    exact h.outputs
  sources := by
    rw [hquiet.executed, hquiet.disk]
    exact h.sources

theorem assign (h : Written app disk₀ files n σ) {x : TasksMetadata}
    {num : ℕ} (hidle : Coordinator.firstIdle
      (σ.coordinator.tasks σ.coordinator.phase) = some (x, num))
    (hchange : Change app σ (.task pid) (σ.assignTask pid num x)) :
    Written app disk₀ files n (σ.assignTask pid num x) where
  inputs := h.inputs
  maps := h.maps
  finished := by
    intro p work hwork
    rcases hchange.finished hwork with hold | ⟨ha, _⟩
    · exact h.finished p work hold
    · cases ha
  names := by
    intro r y hy
    obtain ⟨x, hx, heq⟩ := Coordinator.filename_assignTask hy
    obtain ⟨ms, hnodup, hnames, hmem⟩ := h.names r x hx
    refine ⟨ms, hnodup, heq.trans hnames, fun m ↦ ?_⟩
    rw [hmem, assignTask_coordinator,
      Coordinator.assignTask_completed_iff pid hidle]
  outputs := h.outputs
  sources := h.sources

section DoTask

variable {nReduce : ℤ} {disk : Disk} {intermediates : List ℕ}

/-- A map task of an undisturbed job distributes what its input yields. -/
theorem maps_of_doTask (h : Written app disk₀ files n σ)
    (hscheduled : Scheduled files n σ)
    (hphase : σ.worker pid = .holding task nReduce)
    (hty : task.taskType = .map)
    (hwork : app.doTask σ.disk task nReduce = some (disk, intermediates)) :
    (∃ filename content, files[task.taskNum]? = some filename ∧
      disk₀ filename = some content) ∧
    app.Maps task.taskNum n (app.emitted disk₀ files task.taskNum)
      σ.disk disk intermediates := by
  have htask : (σ.worker pid).task? = some task := by
    rw [hphase]
    rfl
  have hat := (hscheduled.held pid task htask).1
  rw [hty] at hat
  obtain ⟨filename, hfile, hname⟩ := hscheduled.inputs _ task hat
  rw [hscheduled.pending pid task nReduce (by rw [hphase]; rfl) hty,
    App.doTask_map hty] at hwork
  obtain ⟨content, hcontent, hmaps⟩ := App.doMap_eq_some hname hwork
  -- Only map tasks have run so far, and they write over no input.
  rw [h.sources (hscheduled.not_executed_reduce htask hty) filename
    (List.mem_of_getElem? hfile)] at hcontent
  rw [Int.toNat_natCast, ← App.emitted_eq hfile hcontent] at hmaps
  exact ⟨⟨filename, content, hfile, hcontent⟩, hmaps⟩

theorem executeMap (h : Written app disk₀ files n σ)
    (hscheduled : Scheduled files n σ) (hkept : App.KeepsInputs files n)
    (hphase : σ.worker pid = .holding task nReduce)
    (hty : task.taskType = .map)
    (hwork : app.doTask σ.disk task nReduce = some (disk, intermediates))
    (hchange : Change app σ (.doTask pid)
      (σ.execute pid task disk intermediates)) :
    Written app disk₀ files n (σ.execute pid task disk intermediates) := by
  obtain ⟨hinput, hmaps⟩ := h.maps_of_doTask hscheduled hphase hty hwork
  refine ⟨fun m hm ↦ ?_, fun m r hm hr hne ↦ ?_, fun p work hwork' hmap ↦ ?_,
    h.names, fun r hr ↦ ?_, fun hnone filename hfilename ↦ ?_⟩
  · rcases mem_executed_execute.mp hm with hm | ⟨_, rfl⟩
    · exact h.inputs m hm
    · exact hinput
  · by_cases hm' : m = task.taskNum
    · subst hm'
      exact hmaps.written r hr hne
    · have hm := (mem_executed_execute.mp hm).resolve_right
        fun heq ↦ hm' heq.2
      exact (hmaps.frame _ fun r' _ heq ↦
        hm' (intermediateName_injective heq).1).trans (h.maps m r hm hr hne)
  · rcases hchange.finished hwork' with hwork' | ⟨ha, k, hphase', hwork'⟩
    · exact h.finished p work hwork' hmap
    · obtain rfl := Action.doTask.inj ha
      obtain ⟨rfl, rfl⟩ := Phase.holding.inj (hphase.symm.trans hphase')
      obtain ⟨_, heq⟩ :=
        Prod.mk.inj (Option.some.inj (hwork.symm.trans hwork'))
      rw [← heq]
      exact hmaps.intermediates_eq
  · have hr := (mem_executed_execute.mp hr).resolve_right
      fun heq ↦ nomatch heq.1.trans hty
    obtain ⟨kva, hperm, hout⟩ := h.outputs r hr
    exact ⟨kva, hperm, (hmaps.frame _ fun r' _ ↦
      outName_ne_intermediateName r _ r').trans hout⟩
  · obtain ⟨_, _, hfile, _⟩ := hinput
    obtain ⟨hlt, _⟩ := List.getElem?_eq_some_iff.mp hfile
    exact (hmaps.frame filename
      (hkept filename hfilename task.taskNum hlt)).trans
        (h.sources (fun r hr ↦ hnone r
          (mem_executed_execute.mpr (Or.inl hr))) filename hfilename)

/-- A reduce task reads the partitions of all map tasks. -/
theorem pairs_of_reduce (h : Written app disk₀ files n σ)
    (hscheduled : Scheduled files n σ)
    (hphase : σ.worker pid = .holding task nReduce)
    (hty : task.taskType = .reduce) :
    (task.filename.flatMap (app.pairs σ.disk)).Perm
      ((List.range files.length).flatMap fun m ↦
        partition n task.taskNum (app.emitted disk₀ files m)) := by
  obtain ⟨hat, hstate⟩ := hscheduled.held pid task (by rw [hphase]; rfl)
  rw [hty] at hat
  have hreduce := hscheduled.barrier _ task hat
    (by rw [hstate]; exact nofun)
  have hlt : task.taskNum < n := by
    have hlt := Coordinator.lt_length_of_taskAt hat
    rwa [hscheduled.exact.reduces, Int.toNat_natCast] at hlt
  obtain ⟨ms, hnodup, hnames, hmem⟩ := h.names _ task hat
  have hread : task.filename.flatMap (app.pairs σ.disk) =
      ms.flatMap fun m ↦
        partition n task.taskNum (app.emitted disk₀ files m) := by
    rw [hnames, List.flatMap_map]
    refine List.flatMap_congr fun m hm ↦ ?_
    obtain ⟨hm, hne⟩ := (hmem m).mp hm
    exact App.pairs_encodeAll (h.maps m _
      ((hscheduled.executed .map m).mpr (Or.inl hm)) hlt hne)
  rw [hread]
  refine App.flatMap_perm_of_mem_iff hnodup fun m ↦ ?_
  rw [hmem, Coordinator.state_completed_iff_lt
    (hscheduled.exact.maps_completed hreduce), hscheduled.length]

theorem executeReduce (h : Written app disk₀ files n σ)
    (hscheduled : Scheduled files n σ)
    (hphase : σ.worker pid = .holding task nReduce)
    (hty : task.taskType = .reduce)
    (hwork : app.doTask σ.disk task nReduce = some (disk, intermediates))
    (hchange : Change app σ (.doTask pid)
      (σ.execute pid task disk intermediates)) :
    Written app disk₀ files n (σ.execute pid task disk intermediates) := by
  have hmap : ∀ {m},
      (.map, m) ∈ (σ.execute pid task disk intermediates).executed →
        (.map, m) ∈ σ.executed := fun hm ↦
    (mem_executed_execute.mp hm).resolve_right
      fun heq ↦ nomatch heq.1.trans hty
  obtain ⟨rfl, rfl⟩ := App.doTask_reduce hty hwork
  refine ⟨fun m hm ↦ ?_, fun m r hm hr hne ↦ ?_, fun p work hwork' hty' ↦ ?_,
    h.names, fun r hr ↦ ?_, fun hnone ↦ absurd
      (mem_executed_execute.mpr (Or.inr ⟨hty.symm, rfl⟩)) (hnone _)⟩
  · exact h.inputs m (hmap hm)
  · exact (Function.update_of_ne
      (outName_ne_intermediateName _ m r).symm _ _).trans
        (h.maps m r (hmap hm) hr hne)
  · rcases hchange.finished hwork' with hwork' | ⟨ha, k, hphase', _⟩
    · exact h.finished p work hwork' hty'
    · obtain rfl := Action.doTask.inj ha
      obtain ⟨rfl, rfl⟩ := Phase.holding.inj (hphase.symm.trans hphase')
      cases hty.symm.trans hty'
  · by_cases hr' : r = task.taskNum
    · subst hr'
      exact ⟨_, h.pairs_of_reduce hscheduled hphase hty,
        Function.update_self _ _ _⟩
    · have hr := (mem_executed_execute.mp hr).resolve_right
        fun heq ↦ hr' heq.2
      obtain ⟨kva, hperm, hout⟩ := h.outputs r hr
      exact ⟨kva, hperm, (Function.update_of_ne
        (fun heq ↦ hr' (outName_injective heq)) _ _).trans hout⟩

end DoTask

section Commit

variable {intermediates : List ℕ} {c : Coordinator} {wakes : Bool}

/-- The name that a map task adds to reduce task `r`, if any. -/
theorem committedNames_of_maps {kva : List KeyValue} {r : ℕ}
    (hty : task.taskType = .map) (hlt : r < n)
    (hintermediates : intermediates =
      (List.range n).filter fun r ↦ partition n r kva ≠ []) :
    Coordinator.committedNames task intermediates .reduce r =
      if partition n r kva = [] then []
      else [intermediateName task.taskNum r] := by
  have hmem : ∀ r', r' ∈ intermediates.filter (· = r) ↔
      r' = r ∧ partition n r kva ≠ [] := by
    intro r'
    rw [List.mem_filter, hintermediates, List.mem_filter, List.mem_range]
    simp only [decide_eq_true_eq]
    constructor
    · rintro ⟨⟨_, hne⟩, rfl⟩
      exact ⟨rfl, hne⟩
    · rintro ⟨rfl, hne⟩
      exact ⟨⟨hlt, hne⟩, rfl⟩
  simp only [Coordinator.committedNames, hty]
  split
  · next hempty =>
      have hnone : intermediates.filter (· = r) = [] :=
        List.eq_nil_iff_forall_not_mem.mpr
          fun r' hr' ↦ ((hmem r').mp hr').2 hempty
      rw [hnone, List.map_nil]
  · next hne =>
      have hnodup : (intermediates.filter (· = r)).Nodup := by
        rw [hintermediates]
        exact (List.nodup_range.filter _).filter _
      have hone : intermediates.filter (· = r) = [r] := by
        refine List.perm_singleton.mp ((List.perm_ext_iff_of_nodup hnodup
          (List.nodup_singleton r)).mpr fun r' ↦ ?_)
        rw [hmem, List.mem_singleton]
        exact and_iff_left hne
      rw [hone, List.map_singleton]

/-- A commit of a map task adds its file to the reduce tasks for which it has
emitted something. -/
theorem commit_names (h : Written app disk₀ files n σ)
    (hscheduled : Scheduled files n σ)
    (hphase : σ.worker pid = .finished task intermediates)
    (hcommits : Coordinator.Commits σ.coordinator pid task intermediates c)
    {r : ℕ} {y : TasksMetadata} (hy : c.taskAt .reduce r = some y) :
    ∃ ms : List ℕ, ms.Nodup ∧ y.filename = ms.map (intermediateName · r) ∧
      ∀ m, m ∈ ms ↔ c.state? .map m = some .completed ∧
        partition n r (app.emitted disk₀ files m) ≠ [] := by
  obtain ⟨x, hx, hname⟩ := hcommits.filename hy
  obtain ⟨ms, hnodup, hnames, hmem⟩ := h.names r x hx
  rw [hname, hnames]
  simp only [hcommits.state_completed_iff]
  cases hty : task.taskType with
  | reduce =>
      refine ⟨ms, hnodup, ?_, fun m ↦ ?_⟩
      · simp [Coordinator.committedNames, hty]
      · simp [hmem]
  | map =>
      have hlt : r < n := by
        have hlt := Coordinator.lt_length_of_taskAt hx
        rwa [hscheduled.exact.reduces, Int.toNat_natCast] at hlt
      rw [committedNames_of_maps hty hlt
        (h.finished pid (task, intermediates) (by rw [hphase]; rfl) hty)]
      split
      · next hempty =>
          refine ⟨ms, hnodup, List.append_nil _, fun m ↦ ?_⟩
          rw [hmem]
          constructor
          · exact fun hm ↦ ⟨Or.inr hm.1, hm.2⟩
          · rintro ⟨⟨_, rfl⟩ | hm, hne⟩
            · exact absurd hempty hne
            · exact ⟨hm, hne⟩
      · next hne =>
          have hfresh : task.taskNum ∉ ms := by
            intro hm
            have htask : (σ.worker pid).task? = some task := by
              rw [hphase]
              rfl
            have hstate := hscheduled.state_held htask
            rw [hty] at hstate
            cases hstate.symm.trans ((hmem _).mp hm).1
          refine ⟨ms.concat task.taskNum, hnodup.concat hfresh,
            by rw [List.map_concat, List.concat_eq_append], fun m ↦ ?_⟩
          rw [List.concat_eq_append, List.mem_append, List.mem_singleton, hmem]
          constructor
          · rintro (hm | rfl)
            · exact ⟨Or.inr hm.1, hm.2⟩
            · exact ⟨Or.inl ⟨rfl, rfl⟩, hne⟩
          · rintro ⟨⟨_, rfl⟩ | hm, hne⟩
            · exact Or.inr rfl
            · exact Or.inl ⟨hm, hne⟩

theorem commit (h : Written app disk₀ files n σ)
    (hscheduled : Scheduled files n σ)
    (hphase : σ.worker pid = .finished task intermediates)
    (hcommits : Coordinator.Commits σ.coordinator pid task intermediates c)
    (hchange : Change app σ (.commitOK pid) (σ.commit pid task c wakes)) :
    Written app disk₀ files n (σ.commit pid task c wakes) where
  inputs := h.inputs
  maps := h.maps
  finished := by
    intro p work hwork
    rcases hchange.finished hwork with hold | ⟨ha, _⟩
    · exact h.finished p work hold
    · cases ha
  names := fun _ _ hy ↦ h.commit_names hscheduled hphase hcommits hy
  outputs := h.outputs
  sources := h.sources

end Commit

theorem step (h : Written app disk₀ files n σ)
    (hscheduled : Scheduled files n σ) (hkept : App.KeepsInputs files n)
    (hcalm : σ.Calm a)
    (hstep : σ.step app a = some σ') : Written app disk₀ files n σ' := by
  have hchange := step_change hstep
  cases hcase : hchange with
  | quiet hquiet => exact h.quiet hquiet
  | assign _ hidle => exact h.assign hidle hchange
  | @doTask pid task nReduce disk intermediates hphase hwork =>
      cases hty : task.taskType with
      | map => exact h.executeMap hscheduled hkept hphase hty hwork hchange
      | reduce => exact h.executeReduce hscheduled hphase hty hwork hchange
  | commitOK hphase hcommits =>
      exact h.commit hscheduled hphase hcommits hchange
  | expire hworker hexpires _ => exact absurd hexpires (hcalm _ hworker)

end Written

/-- A job in which no worker is declared crashed and no intermediate file is
written over an input executes every task once, and its output files have
together the records of the sequential program. -/
theorem distributed_eq_sequential {app : App}
    (hreducef : ∀ key values values', values.Perm values' →
      app.reducef key values = app.reducef key values')
    {disk : Disk} {files : List String} {n : ℕ} (hn : 1 ≤ n)
    (hkept : App.KeepsInputs files n) {visited : List Job} {σ : Job}
    (hrun : Run (step app) Calm (init disk files n) visited σ)
    (hdone : σ.coordinator.done = true) :
    (∀ m < files.length, σ.executed.count (.map, m) = 1) ∧
    (∀ r < n, σ.executed.count (.reduce, r) = 1) ∧
    ∃ records, app.mrsequential disk files = some records ∧
      ∃ outs : ℕ → List (String × String),
        (∀ r < n, σ.disk (outName r) = some (format (outs r))) ∧
        ((List.range n).flatMap outs).Perm records := by
  obtain ⟨hscheduled, hwritten⟩ :=
    hrun.invariant
      (I := fun σ ↦ Scheduled files n σ ∧ Written app disk files n σ)
      ⟨Scheduled.init disk files n, Written.init app disk files n⟩
      fun h hok hstep ↦ ⟨h.1.step hok hstep, h.2.step h.1 hkept hok hstep⟩
  have hmaps : ∀ m < files.length, (.map, m) ∈ σ.executed := by
    intro m hm
    rwa [hscheduled.mem_executed_of_done hdone, hscheduled.length]
  have hreduces : ∀ r < n, (.reduce, r) ∈ σ.executed := by
    intro r hr
    rwa [hscheduled.mem_executed_of_done hdone, hscheduled.exact.reduces,
      Int.toNat_natCast]
  refine ⟨fun m hm ↦ List.count_eq_one_of_mem hscheduled.nodup (hmaps m hm),
    fun r hr ↦ List.count_eq_one_of_mem hscheduled.nodup (hreduces r hr), ?_⟩
  have hinputs : ∀ filename ∈ files,
      ∃ content, disk filename = some content := by
    intro filename hfilename
    obtain ⟨m, hm, rfl⟩ := List.mem_iff_getElem.mp hfilename
    obtain ⟨filename, content, hfile, hcontent⟩ :=
      hwritten.inputs m (hmaps m hm)
    rw [List.getElem?_eq_getElem hm] at hfile
    exact ⟨content, Option.some.inj hfile ▸ hcontent⟩
  refine ⟨_, by rw [App.mrsequential, App.readInputs_eq hinputs], ?_⟩
  have hparts : ∀ r, ∃ kva : List KeyValue, r < n →
      kva.Perm (partition n r ((List.range files.length).flatMap
        (app.emitted disk files))) ∧
      σ.disk (outName r) = some (format (app.reduceAll kva)) := by
    intro r
    by_cases hr : r < n
    · obtain ⟨kva, hperm, hout⟩ := hwritten.outputs r (hreduces r hr)
      refine ⟨kva, fun _ ↦ ⟨?_, hout⟩⟩
      rw [partition, List.filter_flatMap]
      exact hperm
    · exact ⟨[], fun h ↦ absurd h hr⟩
  choose parts hparts using hparts
  exact ⟨fun r ↦ app.reduceAll (parts r), fun r hr ↦ (hparts r hr).2,
    App.flatMap_reduceAll hreducef hn fun r hr ↦ (hparts r hr).1⟩

theorem letterCount_reducef_perm (key : String) (values values' : List String)
    (hperm : values.Perm values') :
    letterCount.reducef key values = letterCount.reducef key values' :=
  congrArg toString hperm.length_eq

/-- Two workers share two map tasks and two reduce tasks. -/
def sharedJob : List Action :=
  [.task 1, .recordTask 1, .task 2, .recordTask 2, .doTask 2, .commitOK 2,
    .doTask 1, .commitOK 1, .task 2, .recordTask 2, .task 1, .recordTask 1,
    .doTask 1, .commitOK 1, .doTask 2, .commitOK 2]

theorem distributed_eq_sequential_shared :
    ∃ σ : Job, σ.coordinator.done = true ∧
      (∀ m < 2, σ.executed.count (.map, m) = 1) ∧
      (∀ r < 2, σ.executed.count (.reduce, r) = 1) ∧
      ∃ records, letterCount.mrsequential letters ["a.txt", "b.txt"] =
          some records ∧
        ∃ outs : ℕ → List (String × String),
          (∀ r < 2, σ.disk (outName r) = some (format (outs r))) ∧
          ((List.range 2).flatMap outs).Perm records := by
  obtain ⟨visited, σ, hrun, hdone⟩ :=
    Run.exists_of_exec (step letterCount) Calm
      (init letters ["a.txt", "b.txt"] 2) sharedJob
      (fun σ ↦ σ.coordinator.done = true) (by decide +kernel)
  have hkept : App.KeepsInputs ["a.txt", "b.txt"] 2 := by decide
  exact ⟨σ, hdone, distributed_eq_sequential (n := 2)
    letterCount_reducef_perm (by decide) hkept hrun hdone⟩

/-- The second input has the name of the first map task's intermediate file. -/
def lettersOver : Disk
  | "a.txt" => some "ab"
  | "mr-0-0.txt" => some "b"
  | _ => none

/-- One worker does the two map tasks and the reduce task in order. -/
def overwritingJob : List Action :=
  [.task 1, .recordTask 1, .doTask 1, .commitOK 1,
    .task 1, .recordTask 1, .doTask 1, .commitOK 1,
    .task 1, .recordTask 1, .doTask 1, .commitOK 1]

/-- The first map task writes over the input of the second, which then counts
the letters of the intermediate file. -/
theorem overwritten_input_counted :
    (∀ key values values', values.Perm values' →
      letterCount.reducef key values = letterCount.reducef key values') ∧
    ∃ visited σ, Run (step letterCount) Calm
        (init lettersOver ["a.txt", "mr-0-0.txt"] 1) visited σ ∧
      σ.coordinator.done = true ∧
      letterCount.mrsequential lettersOver ["a.txt", "mr-0-0.txt"] =
        some [("a", "1"), ("b", "2")] ∧
      ∀ outs : ℕ → List (String × String),
        (∀ r < 1, σ.disk (outName r) = some (format (outs r))) →
        ¬ ((List.range 1).flatMap outs).Perm [("a", "1"), ("b", "2")] := by
  obtain ⟨visited, σ, hrun, hdone, hout⟩ :=
    Run.exists_of_exec (step letterCount) Calm
      (init lettersOver ["a.txt", "mr-0-0.txt"] 1) overwritingJob
      (fun σ ↦ σ.coordinator.done = true ∧
        ∀ records ∈ [("a", "1"), ("b", "2")].permutations',
          σ.disk (outName 0) ≠ some (format records)) (by decide +kernel)
  refine ⟨letterCount_reducef_perm, visited, σ, hrun, hdone,
    by decide +kernel, fun outs houts hperm ↦ ?_⟩
  have hmem : outs 0 ∈ [("a", "1"), ("b", "2")].permutations' :=
    List.mem_permutations'.mpr (by simpa using hperm)
  exact hout _ hmem (houts 0 (by decide))

end Job

end DistLabs.Mr
