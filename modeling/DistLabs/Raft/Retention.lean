import DistLabs.Raft.Pairing
import DistLabs.Raft.Safety

/-!
# What requests leave in place

In a careful run an AppendEntries request keeps every committed entry, and an
InstallSnapshot request never moves a server backwards: the sentinel, the data
of the snapshot and the committed entries all stay or go forward.  The data
goes with the index only if the sending loop of `HeartBeatLauncher`, which
reads `SnapshotData` without the lock, finds the snapshot that it announces.
-/

namespace DistLabs

open Consensus

variable {n : ℕ} {Cmd : Type}

namespace Cluster

variable [Zero Cmd] {σ σ' : Cluster n Cmd} {a : Action Cmd n}
  {W W' : LogWorld n Cmd}

/-! ## Deliveries are recorded -/

/-- Every message that a service has received is in the history. -/
def Received (σ : Cluster n Cmd) : Prop :=
  ∀ s, ∀ msg ∈ (σ.server s).applyCh,
    ∃ incarnation, Event.applied s incarnation msg ∈ σ.events

theorem Received.step (h : Received σ) (hstep : σ.step a = some σ') :
    Received σ' := by
  have htrans := step_transition hstep
  intro s msg hmsg
  rcases htrans.applyCh_origin hmsg with hold | ⟨_, hnew⟩
  · obtain ⟨incarnation, hevent⟩ := h s msg hold
    exact ⟨incarnation, htrans.events_grow.subset hevent⟩
  · exact hnew

omit [Zero Cmd] in
/-- An index delivered in this incarnation was delivered. -/
theorem SnapshotsDelivered.applied (h : σ.SnapshotsDelivered a)
    (hreceived : Received σ) : σ.SnapshotsApplied a := by
  cases a with
  | snapshot s index data =>
      obtain ⟨msg, hmsg, rfl⟩ := List.mem_map.mp h
      obtain ⟨incarnation, hevent⟩ := hreceived s msg hmsg
      exact List.mem_filterMap.mpr ⟨_, hevent, by simp⟩
  | _ => trivial

/-- Snapshots of delivered indices are snapshots of recorded deliveries. -/
theorem run_snapshotsApplied {ok : Cluster n Cmd → Action Cmd n → Prop}
    {visited : List (Cluster n Cmd)}
    (hrun : Run step (fun σ a ↦ σ.SnapshotsDelivered a ∧ ok σ a) init
      visited σ) :
    Run step (fun σ a ↦ σ.SnapshotsApplied a ∧ ok σ a) init visited σ :=
  hrun.strengthen (I := Received) (by simp [Received, init, boot])
    (fun hreceived _ hstep ↦ hreceived.step hstep)
    fun hreceived hok ↦ ⟨hok.1.applied hreceived, hok.2⟩

/-! ## Committed entries -/

omit [Zero Cmd] in
/-- The log of a server reaches its commit index. -/
theorem Secure.commitIndex_le (h : Secure σ W) (s : Fin n) :
    (σ.server s).rf.commitIndex ≤ (σ.server s).rf.logLength - 1 := by
  have hle := (h.servers s).commit.le_length
  have hlen := (h.sim.mirrors s).logLength (h.sim.ordered.servers s)
  omega

omit [Zero Cmd] in
/-- A known entry above both sentinels is still there after a step that forgets
nothing. -/
theorem Secure.entry_kept (h : Secure σ W) (h' : Secure σ' W') {s : Fin n}
    (hknown : ∀ K, Known entryTerm W s K → Known entryTerm W' s K) {i : ℤ}
    (hupTo : KnownUpTo W s i) (hlow : (σ.server s).rf.lastIncludedIndex < i)
    (hlow' : (σ'.server s).rf.lastIncludedIndex < i) :
    ∃ e, elemAt (σ.server s).rf.log ((σ.server s).rf.v2pIndex i) = some e ∧
      elemAt (σ'.server s).rf.log ((σ'.server s).rf.v2pIndex i) =
        some e := by
  have hnonneg := (h.sim.mirrors s).memory.nonneg
  obtain ⟨K, e, hK, hle, hget, hlog⟩ := hupTo.exists_entry (by omega)
  have hlog' : (W'.log s)[i.toNat - 1]? = some e := by
    have hlt := (List.getElem?_eq_some_iff.mp hget).1
    have hread := List.prefix_iff_getElem?.mp (hknown K hK).1 _ hlt
    rwa [← List.getElem?_eq_getElem hlt, hget] at hread
  exact ⟨e, (h.sim.entry hlow).trans hlog, (h'.sim.entry hlow').trans hlog'⟩

omit [Zero Cmd] in
/-- What `ApplyGoroutine` is about to read is in range. -/
theorem Secure.apply_inRange (h : Secure σ W) (hvalid : Valid σ) {s : Fin n}
    (hcommit : (σ.server s).rf.commitIndex > (σ.server s).rf.lastApplied) :
    ∃ e, elemAt (σ.server s).rf.log ((σ.server s).rf.v2pIndex
      ((σ.server s).rf.lastApplied + 1)) = some e := by
  have habove := hvalid.apply_above hcommit
  have hlow : (σ.server s).rf.lastIncludedIndex <
      (σ.server s).rf.lastApplied + 1 := by
    unfold Raft.v2pIndex at habove
    omega
  have hupTo : KnownUpTo W s ((σ.server s).rf.lastApplied + 1) :=
    (h.servers s).commit.mono (by omega)
  obtain ⟨e, he, _⟩ := h.entry_kept h (fun _ hK ↦ hK) hupTo hlow hlow
  exact ⟨e, he⟩

/-! ## AppendEntries -/

/-- A permitted step of a careful run leads from a secure state to one in which
everything that was known still is. -/
theorem exists_secure_step {ok : Cluster n Cmd → Action Cmd n → Prop}
    (hok : ∀ σ a, ok σ a → σ.SnapshotsApplied a ∧ σ.Careful a)
    {visited : List (Cluster n Cmd)} (hrun : Run step ok init visited σ)
    (hallowed : ok σ a) (hstep : σ.step a = some σ') :
    ∃ W W', Secure σ W ∧ Secure σ' W' ∧
      ∀ s K, Known entryTerm W s K → Known entryTerm W' s K := by
  obtain ⟨W, hsecure⟩ := exists_secure hok hrun
  have hunique := electedUnique_of_run
    (fun σ a hallowed ↦ (hok σ a hallowed).2.1) (hrun.next hallowed hstep)
  obtain ⟨W', hknown, hsecure'⟩ := hsecure.step hstep (hok _ _ hallowed).1
    (hok _ _ hallowed).2 hunique
  exact ⟨W, W', hsecure, hsecure', hknown⟩

/-- In a careful run an AppendEntries request leaves every committed entry
above the sentinel in place and the log as long as `CommitIndex` demands, and
`ApplyGoroutine` reads within the log. -/
theorem append_keeps_committed {visited : List (Cluster n Cmd)}
    (hrun : Run step (fun σ a ↦ σ.SnapshotsDelivered a ∧ σ.Careful a) init
      visited σ) :
    (∀ k call σ', σ.appendCalls[k]? = some call →
      σ.Careful (.deliverAppend k) → σ.step (.deliverAppend k) = some σ' →
      (∀ i, (σ.server call.peer).rf.lastIncludedIndex < i →
        i ≤ (σ.server call.peer).rf.commitIndex →
        ∃ e, elemAt (σ.server call.peer).rf.log
            ((σ.server call.peer).rf.v2pIndex i) = some e ∧
          elemAt (σ'.server call.peer).rf.log
            ((σ'.server call.peer).rf.v2pIndex i) = some e) ∧
      (σ'.server call.peer).rf.commitIndex ≤
        (σ'.server call.peer).rf.logLength - 1) ∧
    ∀ s, (σ.server s).rf.commitIndex > (σ.server s).rf.lastApplied →
      ∃ e, elemAt (σ.server s).rf.log ((σ.server s).rf.v2pIndex
        ((σ.server s).rf.lastApplied + 1)) = some e := by
  have happlied := run_snapshotsApplied hrun
  constructor
  · intro k call σ' hcall hcareful hstep
    obtain ⟨W, W', hsecure, hsecure', hknown⟩ := exists_secure_step
      (a := .deliverAppend k) (fun _ _ hok ↦ hok) happlied
      ⟨trivial, hcareful⟩ hstep
    have hlii : (σ'.server call.peer).rf.lastIncludedIndex =
        (σ.server call.peer).rf.lastIncludedIndex := by
      cases (step_transition hstep).evolves call.peer with
      | changes hchanges =>
          refine (hchanges.sentinel_eq ?_ ?_).1
          · rintro args ⟨_, _, ⟨⟩, _⟩
          · rintro index data ⟨⟩
      | restart haction => cases haction
    refine ⟨?_, hsecure'.commitIndex_le call.peer⟩
    intro i hlow hi
    exact hsecure.entry_kept hsecure' (hknown call.peer)
      ((hsecure.servers call.peer).commit.mono hi) hlow (by omega)
  · obtain ⟨W, hsecure⟩ := exists_secure (fun _ _ hok ↦ hok) happlied
    have hvalid : Valid σ := hrun.invariant valid_init
      fun hinv hok hstep ↦ hinv.step hok.1 hstep
    exact fun s hcommit ↦ hsecure.apply_inRange hvalid hcommit

/-- Server 1 has both commands of server 0 and knows that they are committed
when the first heartbeat of term 1 is still on its way. -/
def committedRun : List (Action ℕ 3) :=
  winning 0 0 ++ [.start 0 5, .heartbeat 0, .start 0 6, .heartbeat 0,
    .deliverAppend 4, .replyAppend 4, .heartbeat 0, .deliverAppend 6]

/-- The late heartbeat leaves the committed entries of server 1 in place, and
its `ApplyGoroutine` has an entry to read. -/
theorem append_keeps_committed_late :
    ∃ (visited : List (Cluster 3 ℕ)) (σ σ' : Cluster 3 ℕ),
      Run step (fun σ a ↦ σ.SnapshotsDelivered a ∧ σ.Careful a) init visited
        σ ∧
      σ.step (.deliverAppend 0) = some σ' ∧
      (σ.server 1).rf.commitIndex = 2 ∧
      (∃ e, elemAt (σ.server 1).rf.log ((σ.server 1).rf.v2pIndex 2) =
          some e ∧
        elemAt (σ'.server 1).rf.log ((σ'.server 1).rf.v2pIndex 2) =
          some e) ∧
      ∃ e, elemAt (σ.server 1).rf.log ((σ.server 1).rf.v2pIndex
        ((σ.server 1).rf.lastApplied + 1)) = some e := by
  obtain ⟨visited, σ, hrun, hcall, hpeer, hcareful, hlii, hcommit, happlied,
      σ', hstep, -⟩ := Run.exists_of_exec
    step (fun σ a ↦ σ.SnapshotsDelivered a ∧ σ.Careful a) init committedRun
    (fun σ : Cluster 3 ℕ ↦ (σ.appendCalls[0]?).isSome ∧
      (∀ call ∈ σ.appendCalls[0]?, call.peer = 1) ∧
      σ.Careful (.deliverAppend 0) ∧
      (σ.server 1).rf.lastIncludedIndex = 0 ∧
      (σ.server 1).rf.commitIndex = 2 ∧ (σ.server 1).rf.lastApplied = 0 ∧
      ∃ σ' ∈ σ.step (.deliverAppend 0), (σ'.server 1).alive)
    (by decide +kernel)
  obtain ⟨call, hcall⟩ := Option.isSome_iff_exists.mp hcall
  have hkeeps := append_keeps_committed hrun
  have hentries := (hkeeps.1 0 call σ' hcall hcareful hstep).1
  rw [hpeer call hcall] at hentries
  exact ⟨visited, σ, σ', hrun, hstep, hcommit,
    hentries 2 (by omega) (by omega), hkeeps.2 1 (by omega)⟩

/-- The two leaders of `lateRun` send to server 1, which has already committed
the command of one of them. -/
def overwritingRun : List (Action ℕ 3) :=
  lateRun ++ [.start 2 7, .heartbeat 2, .start 0 8, .heartbeat 0,
    .deliverAppend 5, .replyAppend 5, .heartbeat 2, .deliverAppend 9]

/-- Server 2 has installed the second snapshot of server 0 and then the first
one, which was delayed. -/
def reinstallingRun : List (Action ℕ 3) :=
  compactedRun ++ [.heartbeat 0, .sendJob 0 0, .snapshot 0 2 [2],
    .heartbeat 0, .sendJob 0 0, .deliverSnap 1, .receive 2 0, .replySnap 1,
    .deliverSnap 0, .heartbeat 0]

/-- When any one of the three conditions is given up, `HeartbeatHandler` can
drop or replace a committed entry or leave `CommitIndex` beyond the log. -/
theorem append_drops_committed :
    (∃ (visited : List (Cluster 3 ℕ)) (σ : Cluster 3 ℕ),
      Run step (fun σ a ↦ σ.SnapshotsDelivered a ∧ σ.PromotesInTerm a ∧
        σ.InstallsForward a) init visited σ ∧
      ∃ σ' ∈ σ.step (.deliverAppend 2),
        (σ.server 1).rf.commitIndex = 2 ∧
        elemAt (σ.server 1).rf.log ((σ.server 1).rf.v2pIndex 2) =
          some ⟨1, 6⟩ ∧
        elemAt (σ'.server 1).rf.log ((σ'.server 1).rf.v2pIndex 2) = none ∧
        (σ'.server 1).rf.commitIndex > (σ'.server 1).rf.logLength - 1) ∧
    (∃ (visited : List (Cluster 3 ℕ)) (σ : Cluster 3 ℕ),
      Run step (fun σ a ↦ σ.SnapshotsDelivered a ∧ σ.KeepsAgreeing a ∧
        σ.InstallsForward a) init visited σ ∧
      ∃ σ' ∈ σ.step (.deliverAppend 6), σ.KeepsAgreeing (.deliverAppend 6) ∧
        (σ.server 1).rf.commitIndex = 1 ∧
        elemAt (σ.server 1).rf.log ((σ.server 1).rf.v2pIndex 1) =
          some ⟨2, 7⟩ ∧
        elemAt (σ'.server 1).rf.log ((σ'.server 1).rf.v2pIndex 1) =
          some ⟨2, 8⟩) ∧
    ∃ (visited : List (Cluster 3 ℕ)) (σ : Cluster 3 ℕ),
      Run step (fun σ a ↦ σ.SnapshotsDelivered a ∧ σ.PromotesInTerm a ∧
        σ.KeepsAgreeing a) init visited σ ∧
      ∃ σ' ∈ σ.step (.deliverAppend 7), σ.KeepsAgreeing (.deliverAppend 7) ∧
        (σ'.server 2).rf.commitIndex > (σ'.server 2).rf.logLength - 1 := by
  refine ⟨?_, ?_, ?_⟩
  · exact Run.exists_of_exec step (fun σ a ↦ σ.SnapshotsDelivered a ∧
        σ.PromotesInTerm a ∧ σ.InstallsForward a) init committedRun
      (fun σ : Cluster 3 ℕ ↦ ∃ σ' ∈ σ.step (.deliverAppend 2),
        (σ.server 1).rf.commitIndex = 2 ∧
        elemAt (σ.server 1).rf.log ((σ.server 1).rf.v2pIndex 2) =
          some ⟨1, 6⟩ ∧
        elemAt (σ'.server 1).rf.log ((σ'.server 1).rf.v2pIndex 2) = none ∧
        (σ'.server 1).rf.commitIndex > (σ'.server 1).rf.logLength - 1)
      (by decide +kernel)
  · exact Run.exists_of_exec step (fun σ a ↦ σ.SnapshotsDelivered a ∧
        σ.KeepsAgreeing a ∧ σ.InstallsForward a) init overwritingRun
      (fun σ : Cluster 3 ℕ ↦ ∃ σ' ∈ σ.step (.deliverAppend 6),
        σ.KeepsAgreeing (.deliverAppend 6) ∧
        (σ.server 1).rf.commitIndex = 1 ∧
        elemAt (σ.server 1).rf.log ((σ.server 1).rf.v2pIndex 1) =
          some ⟨2, 7⟩ ∧
        elemAt (σ'.server 1).rf.log ((σ'.server 1).rf.v2pIndex 1) =
          some ⟨2, 8⟩) (by decide +kernel)
  · exact Run.exists_of_exec step (fun σ a ↦ σ.SnapshotsDelivered a ∧
        σ.PromotesInTerm a ∧ σ.KeepsAgreeing a) init reinstallingRun
      (fun σ : Cluster 3 ℕ ↦ ∃ σ' ∈ σ.step (.deliverAppend 7),
        σ.KeepsAgreeing (.deliverAppend 7) ∧
        (σ'.server 2).rf.commitIndex > (σ'.server 2).rf.logLength - 1)
      (by decide +kernel)

end Cluster

/-! ## InstallSnapshot -/

/-- The data of a server's snapshot covers exactly the entries up to
`LastIncludedIndex`, in memory and in the persister.  `cover` tells the last
index that the data of a snapshot covers. -/
structure Covered (cover : Bytes → ℤ) (rf : Raft n Cmd) : Prop where
  data : cover rf.snapshotData = rf.lastIncludedIndex
  saved : ∀ saved, rf.persister.raftstate = some saved →
    cover rf.persister.snapshot = saved.lastIncludedIndex

theorem Paired.covered [Zero Cmd] {cover : Bytes → ℤ} {rf : Raft n Cmd}
    (h : Paired (fun index data ↦ cover data = index) rf)
    (hsaved : rf.SavesBody) : Covered cover rf := by
  refine ⟨h.data, ?_⟩
  intro saved hstate
  have hlii : rf.persister.durable.lastIncludedIndex = rf.lastIncludedIndex :=
    congrArg Durable.lastIncludedIndex hsaved
  unfold Persister.durable at hlii
  rw [hstate] at hlii
  exact h.stored.trans hlii.symm

namespace Cluster

/-- The service hands over data that covers the index of its snapshot. -/
def SnapshotsCover (cover : Bytes → ℤ) : Action Cmd n → Prop
  | .snapshot _ index data => cover data = index
  | _ => True

instance (cover : Bytes → ℤ) (a : Action Cmd n) :
    Decidable (SnapshotsCover cover a) := by
  induction a using Action.casesOn <;> dsimp only [SnapshotsCover] <;>
    infer_instance

/-- Every snapshot, of a server or in flight, has the data of its index. -/
structure Covering (cover : Bytes → ℤ) (σ : Cluster n Cmd) : Prop where
  servers : ∀ s, Covered cover (σ.server s).rf
  snaps : ∀ call ∈ σ.snapCalls,
    cover call.args.snapdata = call.args.lastIncludedIndex

variable [Zero Cmd] {σ σ' : Cluster n Cmd} {a : Action Cmd n}
  {cover : Bytes → ℤ}

theorem covering_of_run (hempty : cover [] = 0)
    {ok : Cluster n Cmd → Action Cmd n → Prop}
    (hok : ∀ σ a, ok σ a → SnapshotsCover cover a ∧ σ.SendsPresent a)
    {visited : List (Cluster n Cmd)} (hrun : Run step ok init visited σ) :
    Covering cover σ := by
  have hpairing : Pairing (fun index data ↦ cover data = index) σ := by
    induction hrun with
    | start => exact pairing_init hempty
    | next hprev hstepOk hstep ih =>
        obtain ⟨hcover, hpresent⟩ := hok _ _ hstepOk
        refine ih.step (savesBody_of_run hprev) ?_ hpresent hstep
        rintro s index data rfl
        exact Or.inr hcover
  exact ⟨fun s ↦ (hpairing.servers s).covered (savesBody_of_run hrun s),
    hpairing.snaps⟩

/-- A request that is not older than the server's snapshot does not take its
sentinel back. -/
theorem installSnapshot_forward {rf : Raft n Cmd} {args : SnapshotArgs n}
    (h : rf.MovesForward args) :
    rf.lastIncludedIndex ≤
      (rf.installSnapshot args).rf.lastIncludedIndex := by
  have hfollow := (Keeps.followInstaller rf args.term).lastIncludedIndex
  rcases rf.installSnapshot_cases args with
    ⟨_, hcase⟩ | ⟨hle, ⟨_, hcase⟩ | ⟨log, _, hcase⟩⟩ <;> rw [hcase]
  · exact le_rfl
  · exact hfollow.ge
  · exact h hle

/-- In a careful run InstallSnapshot never moves a server backwards: neither
its sentinel nor the data of its snapshot, and every index up to the old
`CommitIndex` is covered by the new snapshot or holds the same entry. -/
theorem install_moves_forward (cover : Bytes → ℤ) (hempty : cover [] = 0)
    {visited : List (Cluster n Cmd)}
    (hrun : Run step (fun σ a ↦ σ.SnapshotsApplied a ∧
      SnapshotsCover cover a ∧ σ.Careful a ∧ σ.SendsPresent a) init visited σ)
    (k : ℕ) (call : SnapCall n) (hcall : σ.snapCalls[k]? = some call)
    (hcareful : σ.Careful (.deliverSnap k))
    (hstep : σ.step (.deliverSnap k) = some σ') :
    (σ.server call.peer).rf.lastIncludedIndex ≤
      (σ'.server call.peer).rf.lastIncludedIndex ∧
    cover (σ.server call.peer).rf.snapshotData ≤
      cover (σ'.server call.peer).rf.snapshotData ∧
    (∀ i, i ≤ (σ.server call.peer).rf.commitIndex →
      i ≤ (σ'.server call.peer).rf.lastIncludedIndex ∨
      ∃ e, elemAt (σ.server call.peer).rf.log
          ((σ.server call.peer).rf.v2pIndex i) = some e ∧
        elemAt (σ'.server call.peer).rf.log
          ((σ'.server call.peer).rf.v2pIndex i) = some e) ∧
    (σ'.server call.peer).rf.commitIndex ≤
      (σ'.server call.peer).rf.logLength - 1 := by
  obtain ⟨W, W', hsecure, hsecure', hknown⟩ := exists_secure_step
    (a := .deliverSnap k) (fun _ _ hok ↦ ⟨hok.1, hok.2.2.1⟩) hrun
    ⟨trivial, trivial, hcareful, trivial⟩ hstep
  have hcovers : ∀ (σ : Cluster n Cmd) (a : Action Cmd n),
      (σ.SnapshotsApplied a ∧ SnapshotsCover cover a ∧ σ.Careful a ∧
        σ.SendsPresent a) → SnapshotsCover cover a ∧ σ.SendsPresent a :=
    fun σ a hok ↦ ⟨hok.2.1, hok.2.2.2⟩
  have hcovering := covering_of_run hempty hcovers hrun
  have hcovering' := covering_of_run hempty hcovers
    (hrun.next (a := .deliverSnap k) ⟨trivial, trivial, hcareful, trivial⟩
      hstep)
  have hlii : (σ.server call.peer).rf.lastIncludedIndex ≤
      (σ'.server call.peer).rf.lastIncludedIndex := by
    rw [(step_transition hstep).snap_rf hcall]
    exact installSnapshot_forward (hcareful.2.2 call hcall)
  refine ⟨hlii, ?_, ?_, hsecure'.commitIndex_le call.peer⟩
  · rw [(hcovering.servers call.peer).data,
      (hcovering'.servers call.peer).data]
    exact hlii
  · intro i hi
    rcases le_or_gt i (σ'.server call.peer).rf.lastIncludedIndex with
      hle | hgt
    · exact Or.inl hle
    · exact Or.inr (hsecure.entry_kept hsecure' (hknown call.peer)
        ((hsecure.servers call.peer).commit.mono hi) (by omega) hgt)

/-- A reading of snapshots whose first byte is the last index they cover. -/
def firstByte (data : Bytes) : ℤ :=
  (data.headD 0).toNat

/-- Server 0 sends a snapshot at index 1 and one at index 2 to server 2, which
has installed the first one. -/
def installingRun : List (Action ℕ 3) :=
  compactedRun ++ [.heartbeat 0, .sendJob 0 0, .snapshot 0 2 [2],
    .heartbeat 0, .sendJob 0 0, .deliverSnap 0, .receive 2 0]

/-- The second snapshot takes server 2 from index 1 forward. -/
theorem install_moves_forward_twice :
    ∃ (visited : List (Cluster 3 ℕ)) (σ σ' : Cluster 3 ℕ),
      Run step (fun σ a ↦ σ.SnapshotsApplied a ∧
        SnapshotsCover firstByte a ∧ σ.Careful a ∧ σ.SendsPresent a) init
        visited σ ∧
      σ.step (.deliverSnap 1) = some σ' ∧
      (σ.server 2).rf.lastIncludedIndex = 1 ∧
      (σ.server 2).rf.commitIndex = 1 ∧
      1 ≤ (σ'.server 2).rf.lastIncludedIndex ∧
      firstByte (σ.server 2).rf.snapshotData ≤
        firstByte (σ'.server 2).rf.snapshotData ∧
      (σ'.server 2).rf.commitIndex ≤ (σ'.server 2).rf.logLength - 1 := by
  obtain ⟨visited, σ, hrun, hcall, hpeer, hcareful, hlii, hcommit, σ', hstep,
      -⟩ := Run.exists_of_exec
    step (fun σ a ↦ σ.SnapshotsApplied a ∧ SnapshotsCover firstByte a ∧
      σ.Careful a ∧ σ.SendsPresent a) init installingRun
    (fun σ : Cluster 3 ℕ ↦ (σ.snapCalls[1]?).isSome ∧
      (∀ call ∈ σ.snapCalls[1]?, call.peer = 2) ∧
      σ.Careful (.deliverSnap 1) ∧
      (σ.server 2).rf.lastIncludedIndex = 1 ∧
      (σ.server 2).rf.commitIndex = 1 ∧
      ∃ σ' ∈ σ.step (.deliverSnap 1), (σ'.server 2).alive)
    (by decide +kernel)
  obtain ⟨call, hcall⟩ := Option.isSome_iff_exists.mp hcall
  have hforward := install_moves_forward firstByte rfl hrun 1 call hcall
    hcareful hstep
  rw [hpeer call hcall, hlii] at hforward
  exact ⟨visited, σ, σ', hrun, hstep, hlii, hcommit, hforward.1,
    hforward.2.1, hforward.2.2.2⟩

/-- Server 2 has installed the second snapshot of server 0, and the first one
is still on its way. -/
def delayedSnapRun : List (Action ℕ 3) :=
  compactedRun ++ [.heartbeat 0, .sendJob 0 0, .snapshot 0 2 [2],
    .heartbeat 0, .sendJob 0 0, .deliverSnap 1, .receive 2 0]

/-- Server 0 sends two snapshots that it announces at index 1, the second one
after its service has compacted to index 2, and server 2 has installed that
one. -/
def mislabelledSnapRun : List (Action ℕ 3) :=
  compactedRun ++ [.heartbeat 0, .heartbeat 0, .sendJob 0 0,
    .snapshot 0 2 [2], .sendJob 0 0, .deliverSnap 1, .receive 2 0]

/-- A delayed snapshot can move the sentinel and the data backwards and leave
`CommitIndex` beyond the log; data read without the lock can move backwards
although the sentinel does not. -/
theorem install_moves_back :
    (∃ (visited : List (Cluster 3 ℕ)) (σ : Cluster 3 ℕ),
      Run step (fun σ a ↦ σ.SnapshotsApplied a ∧
        SnapshotsCover firstByte a ∧ σ.PromotesInTerm a ∧
        σ.KeepsAgreeing a ∧ σ.SendsPresent a) init visited σ ∧
      ∃ σ' ∈ σ.step (.deliverSnap 0),
        (σ.server 2).rf.lastIncludedIndex = 2 ∧
        (σ'.server 2).rf.lastIncludedIndex = 1 ∧
        (σ.server 2).rf.commitIndex = 2 ∧
        (σ'.server 2).rf.commitIndex > (σ'.server 2).rf.logLength - 1 ∧
        firstByte (σ'.server 2).rf.snapshotData <
          firstByte (σ.server 2).rf.snapshotData) ∧
    ∃ (visited : List (Cluster 3 ℕ)) (σ : Cluster 3 ℕ),
      Run step (fun σ a ↦ σ.SnapshotsApplied a ∧
        SnapshotsCover firstByte a ∧ σ.Careful a) init visited σ ∧
      ∃ σ' ∈ σ.step (.deliverSnap 0), σ.Careful (.deliverSnap 0) ∧
        firstByte (σ'.server 2).rf.snapshotData <
          firstByte (σ.server 2).rf.snapshotData := by
  refine ⟨?_, ?_⟩
  · exact Run.exists_of_exec step (fun σ a ↦ σ.SnapshotsApplied a ∧
        SnapshotsCover firstByte a ∧ σ.PromotesInTerm a ∧
        σ.KeepsAgreeing a ∧ σ.SendsPresent a) init delayedSnapRun
      (fun σ : Cluster 3 ℕ ↦ ∃ σ' ∈ σ.step (.deliverSnap 0),
        (σ.server 2).rf.lastIncludedIndex = 2 ∧
        (σ'.server 2).rf.lastIncludedIndex = 1 ∧
        (σ.server 2).rf.commitIndex = 2 ∧
        (σ'.server 2).rf.commitIndex > (σ'.server 2).rf.logLength - 1 ∧
        firstByte (σ'.server 2).rf.snapshotData <
          firstByte (σ.server 2).rf.snapshotData) (by decide +kernel)
  · exact Run.exists_of_exec step (fun σ a ↦ σ.SnapshotsApplied a ∧
        SnapshotsCover firstByte a ∧ σ.Careful a) init mislabelledSnapRun
      (fun σ : Cluster 3 ℕ ↦ ∃ σ' ∈ σ.step (.deliverSnap 0),
        σ.Careful (.deliverSnap 0) ∧
        firstByte (σ'.server 2).rf.snapshotData <
          firstByte (σ.server 2).rf.snapshotData) (by decide +kernel)

end Cluster

end DistLabs
