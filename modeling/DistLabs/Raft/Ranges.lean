import DistLabs.Raft.Retention
import DistLabs.Raft.Entries

/-!
# Snapshots of delivered indices

`Snapshot` compares its index neither with the end of the log nor with
`LastIncludedIndex`.  An index that was delivered to the service leaves the log
at its lower end when an installed snapshot has passed it.
-/

namespace DistLabs

open Consensus

variable {n : ℕ} {Cmd : Type}

namespace Cluster

variable [Zero Cmd] {σ σ' : Cluster n Cmd} {a : Action Cmd n}
  {W : LogWorld n Cmd}

omit [Zero Cmd] in
/-- The log of a server reaches everything that was delivered to its
service. -/
theorem Secure.delivered_le (h : Secure σ W) (hreceived : Received σ)
    {s : Fin n} {index : ℤ} (hdelivered : σ.Delivered s index) :
    index ≤ (σ.server s).rf.logLength - 1 := by
  obtain ⟨msg, hmsg, rfl⟩ := List.mem_map.mp hdelivered
  obtain ⟨incarnation, hevent⟩ := hreceived s msg hmsg
  have hle := (h.applied s incarnation msg hevent).knownUpTo.le_length
  have hlen := (h.sim.mirrors s).logLength (h.sim.ordered.servers s)
  omega

/-- In a careful run `Snapshot` finds every delivered index that no snapshot has
passed within the log, and keeps everything above it. -/
theorem snapshot_inRange {visited : List (Cluster n Cmd)}
    (hrun : Run step (fun σ a ↦ σ.SnapshotsDelivered a ∧ σ.Careful a) init
      visited σ)
    {s : Fin n} {rf : Raft n Cmd} (hrf : (σ.server s).rf = rf) {index : ℤ}
    (hdelivered : σ.Delivered s index)
    (hpassed : rf.lastIncludedIndex ≤ index) (data : Bytes) :
    (0 ≤ rf.v2pIndex index ∧ rf.v2pIndex index < rf.log.length) ∧
    ∃ rf', rf.snapshot index data = .done rf' () ∧
      rf.lastIncludedIndex ≤ rf'.lastIncludedIndex ∧
      ∀ i, max index rf.lastIncludedIndex < i →
        elemAt rf'.log (rf'.v2pIndex i) = elemAt rf.log (rf.v2pIndex i) := by
  subst hrf
  have hreceived : Received σ :=
    hrun.invariant (I := Received) (by simp [Received, init, boot])
      fun hinv _ hstep ↦ hinv.step hstep
  obtain ⟨W, hsecure⟩ :=
    exists_secure (fun _ _ hok ↦ hok) (run_snapshotsApplied hrun)
  have hle := hsecure.delivered_le hreceived hdelivered
  have hlen := (hsecure.sim.ordered.servers s).length
  have hrange : 0 ≤ (σ.server s).rf.v2pIndex index ∧
      (σ.server s).rf.v2pIndex index < (σ.server s).rf.log.length := by
    unfold Raft.v2pIndex
    omega
  refine ⟨hrange, ?_⟩
  obtain ⟨entry, hentry⟩ :=
    Option.isSome_iff_exists.mp (elemAt_isSome_iff.mpr hrange)
  refine ⟨(σ.server s).rf.compacted index data entry, ?_, hpassed, ?_⟩
  · unfold Raft.snapshot
    rw [hentry]
    rfl
  · intro i hi
    exact Raft.compacted_elemAt hpassed data entry (by omega)

/-- Server 1 has delivered both commands of server 0 to its service, and a late
heartbeat has arrived since. -/
def deliveredRun : List (Action ℕ 3) :=
  committedRun ++ [.apply 1, .receive 1 0, .apply 1, .receive 1 0,
    .deliverAppend 0]

/-- `Snapshot` may then take the first of the two indices. -/
theorem snapshot_inRange_first :
    ∃ (visited : List (Cluster 3 ℕ)) (σ : Cluster 3 ℕ),
      Run step (fun σ a ↦ σ.SnapshotsDelivered a ∧ σ.Careful a) init visited
        σ ∧
      (σ.Delivered 1 1 ∧ σ.Delivered 1 2 ∧
        (σ.server 1).rf.lastIncludedIndex = 0) ∧
      ∃ rf', (σ.server 1).rf.snapshot 1 [1] = .done rf' () ∧
        elemAt rf'.log (rf'.v2pIndex 2) =
          elemAt (σ.server 1).rf.log ((σ.server 1).rf.v2pIndex 2) := by
  obtain ⟨visited, σ, hrun, hone, htwo, hlii⟩ := Run.exists_of_exec
    step (fun σ a ↦ σ.SnapshotsDelivered a ∧ σ.Careful a) init deliveredRun
    (fun σ : Cluster 3 ℕ ↦ σ.Delivered 1 1 ∧ σ.Delivered 1 2 ∧
      (σ.server 1).rf.lastIncludedIndex = 0) (by decide +kernel)
  obtain ⟨_, rf', hdone, _, hkept⟩ :=
    snapshot_inRange hrun rfl hone (by omega) [1]
  exact ⟨visited, σ, hrun, ⟨hone, htwo, hlii⟩, rf', hdone,
    hkept 2 (by omega)⟩

/-- `Snapshot` at the delivered index `index` stops server `s`. -/
def SnapshotStops (σ : Cluster n Cmd) (s : Fin n) (index : ℤ) : Prop :=
  σ.Delivered s index ∧
    ∃ σ' ∈ σ.step (.snapshot s index []), ¬ (σ'.server s).alive

instance (σ : Cluster n Cmd) (s : Fin n) (index : ℤ) :
    Decidable (σ.SnapshotStops s index) := by
  unfold SnapshotStops
  infer_instance

/-- The service of server 2 has received the first command when server 2
installs the snapshot of server 0 at index 2. -/
def passedRun : List (Action ℕ 3) :=
  committingRun ++ [.heartbeat 0, .deliverAppend 5, .apply 2, .receive 2 0,
    .apply 0, .receive 0 0, .apply 0, .receive 0 0, .snapshot 0 2 [2],
    .heartbeat 0, .sendJob 0 0, .deliverSnap 0]

/-- Server 1 has delivered both commands of server 0 when an older request with
the first command only arrives. -/
def shortenedRun : List (Action ℕ 3) :=
  committedRun ++ [.apply 1, .receive 1 0, .apply 1, .receive 1 0,
    .deliverAppend 2]

/-- Server 1 has delivered two commands of one of the leaders of `lateRun` when
the other one replaces them by a single command. -/
def replacedRun : List (Action ℕ 3) :=
  lateRun ++ [.start 2 7, .start 2 9, .heartbeat 2, .start 0 8, .heartbeat 0,
    .deliverAppend 5, .replyAppend 5, .heartbeat 2, .deliverAppend 9,
    .apply 1, .receive 1 0, .apply 1, .receive 1 0, .deliverAppend 6]

/-- An installed snapshot can pass a delivered index; and when any one of the
three conditions is given up, the log of a server can be cut below one. -/
theorem snapshot_outOfRange :
    (∃ (visited : List (Cluster 3 ℕ)) (σ : Cluster 3 ℕ),
      Run step (fun σ a ↦ σ.SnapshotsDelivered a ∧ σ.Careful a) init visited
        σ ∧
      (σ.server 2).rf.lastIncludedIndex = 2 ∧ σ.SnapshotStops 2 1) ∧
    (∃ (visited : List (Cluster 3 ℕ)) (σ : Cluster 3 ℕ),
      Run step (fun σ a ↦ σ.SnapshotsDelivered a ∧ σ.PromotesInTerm a ∧
        σ.InstallsForward a) init visited σ ∧
      (σ.server 1).rf.lastIncludedIndex = 0 ∧ σ.SnapshotStops 1 2) ∧
    (∃ (visited : List (Cluster 3 ℕ)) (σ : Cluster 3 ℕ),
      Run step (fun σ a ↦ σ.SnapshotsDelivered a ∧ σ.KeepsAgreeing a ∧
        σ.InstallsForward a) init visited σ ∧
      (σ.server 1).rf.lastIncludedIndex = 0 ∧ σ.SnapshotStops 1 2) ∧
    ∃ (visited : List (Cluster 3 ℕ)) (σ : Cluster 3 ℕ),
      Run step (fun σ a ↦ σ.SnapshotsDelivered a ∧ σ.PromotesInTerm a ∧
        σ.KeepsAgreeing a) init visited σ ∧
      (σ.server 2).rf.lastIncludedIndex = 1 ∧ σ.SnapshotStops 2 2 := by
  refine ⟨?_, ?_, ?_, ?_⟩
  · exact Run.exists_of_exec step (fun σ a ↦ σ.SnapshotsDelivered a ∧
      σ.Careful a) init passedRun
      (fun σ : Cluster 3 ℕ ↦ (σ.server 2).rf.lastIncludedIndex = 2 ∧
        σ.SnapshotStops 2 1) (by decide +kernel)
  · exact Run.exists_of_exec step (fun σ a ↦ σ.SnapshotsDelivered a ∧
      σ.PromotesInTerm a ∧ σ.InstallsForward a) init shortenedRun
      (fun σ : Cluster 3 ℕ ↦ (σ.server 1).rf.lastIncludedIndex = 0 ∧
        σ.SnapshotStops 1 2) (by decide +kernel)
  · exact Run.exists_of_exec step (fun σ a ↦ σ.SnapshotsDelivered a ∧
      σ.KeepsAgreeing a ∧ σ.InstallsForward a) init replacedRun
      (fun σ : Cluster 3 ℕ ↦ (σ.server 1).rf.lastIncludedIndex = 0 ∧
        σ.SnapshotStops 1 2) (by decide +kernel)
  · exact Run.exists_of_exec step (fun σ a ↦ σ.SnapshotsDelivered a ∧
      σ.PromotesInTerm a ∧ σ.KeepsAgreeing a) init
      (delayedSnapRun ++ [.deliverSnap 0])
      (fun σ : Cluster 3 ℕ ↦ (σ.server 2).rf.lastIncludedIndex = 1 ∧
        σ.SnapshotStops 2 2) (by decide +kernel)

end Cluster

end DistLabs
