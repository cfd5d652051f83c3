import DistLabs.Raft.Rooted
import DistLabs.Raft.Validity

/-!
# Snapshots and their indices

A snapshot is a pair of an index and the data that a service handed over for it.
The sections that hold the lock copy both together, and `persist` writes both to
the persister.  The sending loop of `HeartBeatLauncher` does not: it takes the
index from before the lock was released and reads the data afterwards.
-/

namespace DistLabs

variable {n : ℕ} {Cmd : Type}

/-- The snapshot of a server, in memory and in the persister, stands in relation
`R` to `LastIncludedIndex`. -/
structure Paired (R : ℤ → Bytes → Prop) (rf : Raft n Cmd) : Prop where
  data : R rf.lastIncludedIndex rf.snapshotData
  stored : R rf.lastIncludedIndex rf.persister.snapshot

namespace Paired

variable {R R' : ℤ → Bytes → Prop} {rf rf' : Raft n Cmd}

theorem mono (h : Paired R rf)
    (himp : ∀ index data, R index data → R' index data) : Paired R' rf :=
  ⟨himp _ _ h.data, himp _ _ h.stored⟩

theorem of_eq (h : Paired R rf)
    (hdata : rf'.snapshotData = rf.snapshotData)
    (hlii : rf'.lastIncludedIndex = rf.lastIncludedIndex)
    (hsaved : rf'.persister = rf.persister) : Paired R rf' :=
  ⟨by rw [hdata, hlii]; exact h.data, by rw [hsaved, hlii]; exact h.stored⟩

theorem persist (h : R rf.lastIncludedIndex rf.snapshotData) :
    Paired R rf.persist :=
  ⟨h, h⟩

theorem stamped (h : Paired R rf) (k : ℤ) : Paired R (rf.stamped k) := by
  unfold Raft.stamped
  split
  · exact h.of_eq rfl rfl rfl
  · exact h

theorem accept (h : Paired R rf) (k leaderCommit : ℤ)
    (entries : List (LogEntry Cmd)) :
    Paired R ((rf.appendLog k entries).advanceCommit leaderCommit) := by
  have happend : Paired R (rf.appendLog k entries) := by
    unfold Raft.appendLog
    split
    · exact persist h.data
    · exact h
  unfold Raft.advanceCommit
  split
  · exact happend.of_eq rfl rfl rfl
  · exact happend

theorem change [Zero Cmd] {In : Inputs n Cmd}
    (hsnap : ∀ args, In.snap args → R args.lastIncludedIndex args.snapdata)
    (htaken : ∀ index data, In.taken index data → R index data)
    (hchange : Change In rf rf') (h : Paired R rf) : Paired R rf' := by
  cases hchange with
  | elect =>
      rw [Raft.electLauncher_rf]
      exact persist h.data
  | grant | raise | start => exact persist h.data
  | follow | demote | lead | reindex | matched | commit | apply =>
      exact h.of_eq rfl rfl rfl
  | conflict => exact persist (h.stamped _).data
  | accept => exact (h.stamped _).accept _ _ _
  | snapshot hin => exact persist (htaken _ _ hin)
  | install hin => exact persist (hsnap _ hin)

theorem make [Zero Cmd] (hsaved : rf.SavesBody) (h : Paired R rf)
    (me : Fin n) : Paired R (Raft.make me rf.persister) := by
  obtain ⟨_, hlii, _, hdata⟩ := hsaved.make me
  exact h.of_eq hdata hlii (Raft.make_persister me rf.persister)

end Paired

namespace Cluster

/-- The sending loop of `HeartBeatLauncher` sends a snapshot only while it is
the present one of its server. -/
def SendsPresent (σ : Cluster n Cmd) : Action Cmd n → Prop
  | .sendJob s k => ∀ job ∈ (σ.server s).jobs[k]?,
      job.lastIncludedIndex = (σ.server s).rf.lastIncludedIndex
  | _ => True

instance (σ : Cluster n Cmd) (a : Action Cmd n) :
    Decidable (σ.SendsPresent a) := by
  induction a using Action.casesOn <;> dsimp only [SendsPresent] <;>
    infer_instance

/-- Every snapshot, of a server or in flight, stands in relation `R` to its
index. -/
structure Pairing (R : ℤ → Bytes → Prop) (σ : Cluster n Cmd) : Prop where
  servers : ∀ s, Paired R (σ.server s).rf
  snaps : ∀ call ∈ σ.snapCalls,
    R call.args.lastIncludedIndex call.args.snapdata

theorem Pairing.mono {R R' : ℤ → Bytes → Prop} {σ : Cluster n Cmd}
    (h : Pairing R σ) (himp : ∀ index data, R index data → R' index data) :
    Pairing R' σ :=
  ⟨fun s ↦ (h.servers s).mono himp,
    fun call hcall ↦ himp _ _ (h.snaps call hcall)⟩

variable [Zero Cmd] {σ σ' : Cluster n Cmd} {a : Action Cmd n}
  {R : ℤ → Bytes → Prop}

theorem pairing_init (hempty : R 0 []) :
    Pairing R (init : Cluster n Cmd) where
  servers := fun s ↦ ⟨hempty, hempty⟩
  snaps := by simp [init]

theorem Pairing.step (h : Pairing R σ)
    (hsaved : ∀ s, (σ.server s).rf.SavesBody)
    (htaken : ∀ s index data, a = .snapshot s index data →
      (σ'.server s).rf = (σ.server s).rf ∨ R index data)
    (hpresent : σ.SendsPresent a) (hstep : σ.step a = some σ') :
    Pairing R σ' := by
  have htrans := step_transition hstep
  have hservers : ∀ s, Paired R (σ'.server s).rf := by
    intro s
    cases htrans.evolves s with
    | changes hchanges =>
        by_cases hsame : (σ'.server s).rf = (σ.server s).rf
        · rw [hsame]
          exact h.servers s
        · refine hchanges.preserves (Paired.change ?_ ?_) (h.servers s)
          · rintro args ⟨k, call, _, hcall, _, rfl⟩
            exact h.snaps call (List.mem_of_getElem? hcall)
          · intro index data htake
            exact (htaken s index data htake).resolve_left hsame
    | restart _ hboot =>
        rw [hboot]
        exact (h.servers s).make (hsaved s) s
  refine ⟨hservers, ?_⟩
  intro call hcall
  rcases htrans.snapCall_origin hcall with ⟨old, hold, _, rfl⟩ | hnew
  · exact h.snaps old hold
  · cases hnew with
    | atOnce _ _ _ _ _ hargs =>
        rw [hargs]
        exact (hservers call.caller).data
    | ofJob haction hget hsame _ hargs =>
        subst haction
        have hlii := hpresent _ hget
        rw [← hsame] at hlii
        rw [hargs, hlii]
        exact (hservers call.caller).data

/-! ## The data of a service -/

/-- Some server's service handed over `data` as its snapshot at `index`. -/
def Taken (σ : Cluster n Cmd) (index : ℤ) (data : Bytes) : Prop :=
  ∃ s, Event.snapshotted s index data ∈ σ.events

instance [DecidableEq Cmd] (σ : Cluster n Cmd) (index : ℤ) (data : Bytes) :
    Decidable (σ.Taken index data) :=
  decidable_of_iff
    (∃ e ∈ σ.events, ∃ s ∈ List.finRange n, e = .snapshotted s index data)
    ⟨fun ⟨_, he, s, _, heq⟩ ↦ ⟨s, heq ▸ he⟩,
      fun ⟨s, he⟩ ↦ ⟨_, he, s, List.mem_finRange s, rfl⟩⟩

/-- The snapshot of a server that has `index` as its `LastIncludedIndex`. -/
def Associated (σ : Cluster n Cmd) (index : ℤ) (data : Bytes) : Prop :=
  σ.Taken index data ∨ index = 0 ∧ data = []

/-- `Snapshot` is recorded unless it stops the server. -/
theorem Transition.snapshot_recorded {s : Fin n} {index : ℤ} {data : Bytes}
    (h : Transition σ (.snapshot s index data) σ') :
    (σ'.server s).rf = (σ.server s).rf ∨ σ'.Taken index data := by
  cases h with
  | snapshotPanic _ hrun =>
      left
      rcases (σ.server s).rf.snapshot_cases index data with
        hcase | ⟨_, _, hcase⟩ <;> cases hrun.symm.trans hcase
      simp
  | snapshot =>
      exact Or.inr ⟨s, List.mem_append_right _ (List.mem_singleton_self _)⟩

theorem pairing_of_run {visited : List (Cluster n Cmd)}
    (hrun : Run step SendsPresent init visited σ) :
    Pairing σ.Associated σ := by
  induction hrun with
  | start => exact pairing_init (Or.inr ⟨rfl, rfl⟩)
  | next hprev hok hstep ih =>
      have htrans := step_transition hstep
      refine (ih.mono ?_).step (savesBody_of_run hprev) ?_ hok hstep
      · rintro index data (⟨s, hs⟩ | hzero)
        · exact Or.inl ⟨s, event_mono hs hstep⟩
        · exact Or.inr hzero
      · rintro s index data rfl
        exact (Transition.snapshot_recorded htrans).imp_right Or.inl

/-- As long as the sending loop sends present snapshots only, every
InstallSnapshot request carries the data of its index, and so do the memory and
the persister of every server. -/
theorem snapshots_paired {visited : List (Cluster n Cmd)}
    (hrun : Run step SendsPresent init visited σ) :
    (∀ call ∈ σ.snapCalls,
      σ.Taken call.args.lastIncludedIndex call.args.snapdata) ∧
    ∀ s, σ.Associated (σ.server s).rf.lastIncludedIndex
        (σ.server s).rf.snapshotData ∧
      σ.Associated (σ.server s).rf.lastIncludedIndex
        (σ.server s).rf.persister.snapshot ∧
      (σ.server s).rf.persister.durable.lastIncludedIndex =
        (σ.server s).rf.lastIncludedIndex := by
  have hpairing := pairing_of_run hrun
  refine ⟨?_, fun s ↦ ⟨(hpairing.servers s).data, (hpairing.servers s).stored,
    congrArg Durable.lastIncludedIndex (savesBody_of_run hrun s)⟩⟩
  intro call hcall
  have hpos := (grounded_of_run hrun).snaps call hcall
  rcases hpairing.snaps call hcall with htaken | ⟨hzero, _⟩
  · exact htaken
  · omega

/-- Server 0 takes a snapshot at index 1, sends it to server 2, which installs
it and is restarted, and takes another one at index 2. -/
def pairedRun : List (Action ℕ 3) :=
  compactedRun ++ [.heartbeat 0, .sendJob 0 0, .snapshot 0 2 [2],
    .deliverSnap 0, .receive 2 0, .restart 2]

/-- The restarted server has the data of index 1. -/
theorem snapshots_paired_restarted :
    ∃ (visited : List (Cluster 3 ℕ)) (σ : Cluster 3 ℕ),
      Run step SendsPresent init visited σ ∧
      (σ.server 0).rf.lastIncludedIndex = 2 ∧
      (σ.server 2).rf.lastIncludedIndex = 1 ∧
      (σ.server 2).rf.snapshotData = [1] ∧ σ.Taken 1 [1] := by
  obtain ⟨visited, σ, hrun, hzero, htwo, hdata⟩ := Run.exists_of_exec
    step SendsPresent init pairedRun
    (fun σ : Cluster 3 ℕ ↦ (σ.server 0).rf.lastIncludedIndex = 2 ∧
      (σ.server 2).rf.lastIncludedIndex = 1 ∧
      (σ.server 2).rf.snapshotData = [1]) (by decide +kernel)
  have hassociated := ((snapshots_paired hrun).2 2).1
  rw [htwo, hdata] at hassociated
  exact ⟨visited, σ, hrun, hzero, htwo, hdata,
    hassociated.resolve_right (by simp)⟩

/-- Server 0 prepares its snapshot at index 1 for server 2, takes another one at
index 2 before the sending loop runs, and server 2 installs what was sent. -/
def mispairedRun : List (Action ℕ 3) :=
  compactedRun ++ [.heartbeat 0, .snapshot 0 2 [2], .sendJob 0 0,
    .deliverSnap 0]

/-- Data that is read without the lock can be those of another index, and the
receiver keeps and saves the wrong pair. -/
theorem snapshots_mispaired :
    ∃ (visited : List (Cluster 3 ℕ)) (σ : Cluster 3 ℕ),
      Run step (fun σ a ↦ σ.SnapshotsDelivered a ∧ σ.Careful a) init visited
        σ ∧
      (∃ call ∈ σ.snapCalls, call.args.lastIncludedIndex = 1 ∧
        call.args.snapdata = [2] ∧ ¬ σ.Taken 1 [2]) ∧
      (σ.server 2).rf.lastIncludedIndex = 1 ∧
      (σ.server 2).rf.snapshotData = [2] ∧
      (σ.server 2).rf.persister.snapshot = [2] :=
  Run.exists_of_exec step
    (fun σ a ↦ σ.SnapshotsDelivered a ∧ σ.Careful a) init mispairedRun
    (fun σ : Cluster 3 ℕ ↦
      (∃ call ∈ σ.snapCalls, call.args.lastIncludedIndex = 1 ∧
        call.args.snapdata = [2] ∧ ¬ σ.Taken 1 [2]) ∧
      (σ.server 2).rf.lastIncludedIndex = 1 ∧
      (σ.server 2).rf.snapshotData = [2] ∧
      (σ.server 2).rf.persister.snapshot = [2]) (by decide +kernel)

end Cluster

end DistLabs
