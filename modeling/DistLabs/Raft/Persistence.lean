import DistLabs.Raft.Representation
import DistLabs.Raft.Voting

/-!
# Memory and stable storage

Every section either leaves the six durable values as they are or ends with the
persister holding them, with one exception: `RequestVoteHandler` takes over the
term of a candidate that it then refuses, and does not save it.  A crash after
that takes the server back to its old term and vote.

What a server has promised for a term is nevertheless never taken back: votes,
acknowledged entries and installed snapshots are all saved together with the
term they are for.
-/

namespace DistLabs

variable {n : ℕ} {Cmd : Type}

/-- The values of a server that `readPersist` restores. -/
structure Durable (n : ℕ) (Cmd : Type) where
  currentTerm : ℕ
  votedFor : Option (Fin n)
  log : List (LogEntry Cmd)
  lastIncludedIndex : ℤ
  lastIncludedTerm : ℕ
  snapshotData : Bytes
deriving DecidableEq

/-- The durable values without the term and the vote. -/
def Durable.body (d : Durable n Cmd) : Durable n Cmd :=
  { d with currentTerm := 0, votedFor := none }

/-- The durable values in memory. -/
def Raft.durable (rf : Raft n Cmd) : Durable n Cmd where
  currentTerm := rf.currentTerm
  votedFor := rf.votedFor
  log := rf.log
  lastIncludedIndex := rf.lastIncludedIndex
  lastIncludedTerm := rf.lastIncludedTerm
  snapshotData := rf.snapshotData

/-- The durable values in a persister; an empty one stands for those of a new
server. -/
def Persister.durable [Zero Cmd] (persister : Persister n Cmd) :
    Durable n Cmd :=
  match persister.raftstate with
  | none =>
      { currentTerm := 0
        votedFor := none
        log := [⟨0, 0⟩]
        lastIncludedIndex := 0
        lastIncludedTerm := 0
        snapshotData := [] }
  | some saved =>
      { currentTerm := saved.currentTerm
        votedFor := saved.votedFor
        log := saved.log
        lastIncludedIndex := saved.lastIncludedIndex
        lastIncludedTerm := saved.lastIncludedTerm
        snapshotData := persister.snapshot }

namespace Raft

variable [Zero Cmd] {rf rf' rf'' : Raft n Cmd}

/-- `Make` restores the durable values. -/
theorem make_durable (me : Fin n) (persister : Persister n Cmd) :
    (make me persister).durable = persister.durable := by
  unfold Persister.durable
  rcases make_cases me persister with
    ⟨hnone, hmake⟩ | ⟨saved, hsaved, hmake⟩
  · rw [hmake, hnone]
    rfl
  · rw [hmake, hsaved]
    rfl

theorem make_persister (me : Fin n) (persister : Persister n Cmd) :
    (make me persister).persister = persister :=
  (make_volatile me persister).2.1

/-- Only the term and the vote in memory can differ from the saved ones. -/
def SavesBody (rf : Raft n Cmd) : Prop :=
  rf.persister.durable.body = rf.durable.body

/-- `Make` brings back the log and the snapshot that the server had in
memory. -/
theorem SavesBody.make (h : rf.SavesBody) (me : Fin n) :
    (Raft.make me rf.persister).log = rf.log ∧
    (Raft.make me rf.persister).lastIncludedIndex = rf.lastIncludedIndex ∧
    (Raft.make me rf.persister).lastIncludedTerm = rf.lastIncludedTerm ∧
    (Raft.make me rf.persister).snapshotData = rf.snapshotData := by
  have hbody : (Raft.make me rf.persister).durable.body = rf.durable.body :=
    (congrArg Durable.body (make_durable me rf.persister)).trans h
  obtain ⟨_, _, hlog, hindex, hterm, hdata⟩ := Durable.mk.inj hbody
  exact ⟨hlog, hindex, hterm, hdata⟩

/-! ## Sections that keep or save -/

/-- From `rf` to `rf'` nothing durable changes, or all of it is saved. -/
def Stores (rf rf' : Raft n Cmd) : Prop :=
  (rf'.durable = rf.durable ∧ rf'.persister = rf.persister) ∨
    rf'.persister.durable = rf'.durable

namespace Stores

theorem refl (rf : Raft n Cmd) : Stores rf rf :=
  Or.inl ⟨rfl, rfl⟩

theorem trans (h : Stores rf rf') (h' : Stores rf' rf'') :
    Stores rf rf'' := by
  rcases h' with ⟨hdurable, hpersister⟩ | hsaved
  · rcases h with ⟨hdurable', hpersister'⟩ | hsaved'
    · exact Or.inl ⟨hdurable.trans hdurable', hpersister.trans hpersister'⟩
    · right
      rw [hdurable, hpersister, hsaved']
  · exact Or.inr hsaved

theorem persist (rf rf' : Raft n Cmd) : Stores rf rf'.persist :=
  Or.inr rfl

end Stores

theorem checkVoteReply_stores (rf : Raft n Cmd) (args : RequestVoteArgs n) :
    Stores rf (rf.checkVoteReply args).1 := by
  unfold checkVoteReply
  split
  · exact Or.inl ⟨rfl, rfl⟩
  · exact .refl _

theorem finishVoteReply_stores (rf : Raft n Cmd) (reply : RequestVoteReply) :
    Stores rf (rf.finishVoteReply reply) := by
  rcases rf.finishVoteReply_cases reply with h | ⟨_, h⟩
  · rw [h]
    exact .refl rf
  · rw [h]
    exact .persist _ _

theorem recordSuccess_stores (rf : Raft n Cmd) (peer : Fin n)
    (args : AppendEntriesArgs n Cmd) :
    Stores rf (rf.recordSuccess peer args).rf := by
  rcases rf.recordSuccess_cases peer args with
    h | h | ⟨N, count, _, _, _, _, h⟩
  · rw [h]
    exact .refl rf
  · rw [h]
    exact Or.inl ⟨rfl, rfl⟩
  · rw [h]
    exact Or.inl ⟨rfl, rfl⟩

theorem sendHeartbeat_stores (rf : Raft n Cmd) (peer : Fin n)
    (args : AppendEntriesArgs n Cmd) (reply : AppendEntriesReply) :
    Stores rf (rf.sendHeartbeat peer args reply).rf := by
  rcases rf.sendHeartbeat_cases peer args reply with
    h | ⟨_, ⟨_, h⟩ | ⟨_, h⟩ | h⟩
  · rw [h]
    exact .refl rf
  · rw [h]
    exact .persist _ _
  · rw [h]
    exact rf.recordSuccess_stores peer args
  · obtain ⟨next, hnext⟩ := rf.backUp_rf peer reply
    rw [h, hnext]
    exact Or.inl ⟨rfl, rfl⟩

theorem sendSnapshot_stores (rf : Raft n Cmd) (peer : Fin n)
    (args : SnapshotArgs n) (reply : SnapshotRelpay) :
    Stores rf (rf.sendSnapshot peer args reply).rf := by
  obtain ⟨next, h | ⟨_, h⟩⟩ := rf.sendSnapshot_cases peer args reply
  · rw [h]
    exact Or.inl ⟨rfl, rfl⟩
  · rw [h]
    exact Or.inr rfl

theorem followLeader_stores (rf : Raft n Cmd) (term : ℕ) :
    Stores rf (rf.followLeader term) := by
  unfold followLeader
  split
  · exact .persist _ _
  · exact .refl rf

theorem accept_stores (rf : Raft n Cmd) (k leaderCommit : ℤ)
    (entries : List (LogEntry Cmd)) :
    Stores rf ((rf.appendLog k entries).advanceCommit leaderCommit) := by
  have happend : Stores rf (rf.appendLog k entries) := by
    unfold appendLog
    split
    · exact .persist _ _
    · exact .refl rf
  refine happend.trans ?_
  unfold advanceCommit
  split
  · exact Or.inl ⟨rfl, rfl⟩
  · exact .refl _

theorem heartbeatHandler_stores (hrep : Represented rf)
    (args : AppendEntriesArgs n Cmd) :
    Stores rf (rf.heartbeatHandler args).rf := by
  have hfollow := rf.followLeader_stores args.term
  rcases rf.heartbeatHandler_cases args with
    ⟨reply, _, h⟩ | h | ⟨rf₁, entry, k, rfl, _, _, _, _, hcase⟩
  · rw [h]
    exact hfollow
  · rw [h]
    exact hfollow
  · rw [(hrep.followLeader args.term).hasSentinel.stamped_eq] at hcase
    rcases hcase with ⟨_, reply, _, h⟩ | ⟨_, reply, _, h⟩
    · rw [h]
      exact .persist _ _
    · rw [h]
      exact hfollow.trans (accept_stores _ _ _ _)

theorem remainingLog_some (hrep : Represented rf) (args : SnapshotArgs n) :
    ∃ log, rf.remainingLog args = some log := by
  unfold remainingLog
  split
  · next hrange =>
      have hlength := hrep.length
      have hentry : (elemAt rf.log
          (rf.v2pIndex args.lastIncludedIndex)).isSome := by
        rw [elemAt_isSome_iff]
        unfold v2pIndex
        omega
      obtain ⟨entry, hentry⟩ := Option.isSome_iff_exists.mp hentry
      simp only [hentry]
      split
      · exact ⟨_, rfl⟩
      · exact ⟨_, rfl⟩
  · exact ⟨_, rfl⟩

theorem installSnapshot_stores (hrep : Represented rf)
    (args : SnapshotArgs n) : Stores rf (rf.installSnapshot args).rf := by
  rcases rf.installSnapshot_cases args with
    ⟨_, h⟩ | ⟨_, ⟨hnone, _⟩ | ⟨log, _, h⟩⟩
  · rw [h]
    exact .refl rf
  · obtain ⟨log, hlog⟩ :=
      remainingLog_some (hrep.followInstaller args.term) args
    simp [hnone] at hlog
  · rw [h]
    exact .persist _ _

theorem start_stores (rf : Raft n Cmd) (command : Cmd) :
    Stores rf (rf.start command).1 := by
  rcases rf.start_cases command with h | ⟨_, h⟩
  · rw [h]
    exact .refl rf
  · rw [h]
    exact .persist _ _

theorem snapshot_stores (rf : Raft n Cmd) (index : ℤ) (data : Bytes) :
    Stores rf (rf.snapshot index data).rf := by
  rcases rf.snapshot_cases index data with h | ⟨entry, _, h⟩
  · rw [h]
    exact .refl rf
  · rw [h]
    exact .persist _ _

/-- The candidate's log is at least as recent as the voter's. -/
def UpToDate (rf : Raft n Cmd) (args : RequestVoteArgs n) : Prop :=
  ∀ last ∈ elemAt rf.log (rf.v2pIndex rf.logLength - 1),
    args.lastLogTerm > last.logTerm ∨
      (args.lastLogTerm = last.logTerm ∧
        args.lastLogIndex ≥ rf.logLength - 1)

omit [Zero Cmd] in
instance (rf : Raft n Cmd) (args : RequestVoteArgs n) :
    Decidable (rf.UpToDate args) := by
  unfold UpToDate
  infer_instance

omit [Zero Cmd] in
theorem followCandidate_of_lt {term : ℕ} (h : rf.currentTerm < term) :
    rf.followCandidate term =
      { rf with state := .follower, currentTerm := term, votedFor := none } :=
  if_pos h

omit [Zero Cmd] in
/-- A server whose term is not ahead and whose vote is free grants it to every
candidate with a recent log. -/
theorem grants_of_upToDate (hrep : Represented rf)
    {args : RequestVoteArgs n} (hterm : rf.currentTerm ≤ args.term)
    (hfree : rf.currentTerm = args.term →
      rf.votedFor = none ∨ rf.votedFor = some args.candidateId)
    (hrecent : rf.UpToDate args) :
    ∃ last, Grants (rf.followCandidate args.term) args last := by
  obtain ⟨last, hlast⟩ := hrep.elemAt_last
  refine ⟨last, ?_⟩
  rcases hterm.lt_or_eq with hlt | heq
  · rw [followCandidate_of_lt hlt]
    exact ⟨rfl, Or.inl rfl, hlast, hrecent last hlast⟩
  · rw [followCandidate_of_le heq.ge]
    exact ⟨heq, hfree heq, hlast, hrecent last hlast⟩

end Raft

/-! ## Steps that keep or save -/

namespace Cluster

variable [Zero Cmd] {σ σ' : Cluster n Cmd} {a : Action Cmd n}

/-- How a step treats the durable values of server `t`. -/
inductive StoreStep (σ : Cluster n Cmd) (a : Action Cmd n) (t : Fin n)
    (rf : Raft n Cmd) : Prop
  | stores (hstores : Raft.Stores (σ.server t).rf rf)
  | refused {k : ℕ} {call : VoteCall n} (haction : a = .deliverVote k)
      (hcall : σ.voteCalls[k]? = some call) (hpeer : call.peer = t)
      (hlt : (σ.server t).rf.currentTerm < call.args.term)
      (hold : ¬ (σ.server t).rf.UpToDate call.args)
      (hrf : rf = (σ.server t).rf.followCandidate call.args.term)
  | restart (haction : a = .restart t)
      (hrf : rf = Raft.make t (σ.server t).rf.persister)

theorem StoreStep.of_vote {k : ℕ} {call : VoteCall n}
    (hcall : σ.voteCalls[k]? = some call)
    (hrep : Represented (σ.server call.peer).rf) :
    StoreStep σ (.deliverVote k) call.peer
      ((σ.server call.peer).rf.requestVoteHandler call.args).rf := by
  by_cases hrecent : (σ.server call.peer).rf.UpToDate call.args ∧
      (σ.server call.peer).rf.currentTerm < call.args.term
  · obtain ⟨last, hgrants⟩ := Raft.grants_of_upToDate hrep
      (le_of_lt hrecent.2) (fun heq ↦ absurd heq (ne_of_lt hrecent.2))
      hrecent.1
    rw [Raft.requestVoteHandler_grants hgrants]
    exact .stores (.persist _ _)
  · have hrefused : StoreStep σ (.deliverVote k) call.peer
        ((σ.server call.peer).rf.followCandidate call.args.term) := by
      rcases lt_or_ge (σ.server call.peer).rf.currentTerm call.args.term with
        hlt | hle
      · exact .refused rfl hcall rfl hlt (fun h ↦ hrecent ⟨h, hlt⟩) rfl
      · rw [Raft.followCandidate_of_le hle]
        exact .stores (.refl _)
    rcases (σ.server call.peer).rf.requestVoteHandler_cases call.args with
      h | h | ⟨last, _, h⟩
    · rw [h]
      exact hrefused
    · rw [h]
      exact hrefused
    · rw [h]
      exact .stores (.persist _ _)

theorem Ran.storeStep {t : Fin n} {rf : Raft n Cmd} (h : Ran σ a t rf)
    (hrep : Represented (σ.server t).rf) : StoreStep σ a t rf := by
  cases h with
  | idle hrf =>
      rw [hrf]
      exact .stores (.refl _)
  | elect _ _ hrf =>
      rw [hrf, Raft.electLauncher_rf]
      exact .stores (.persist _ _)
  | vote haction hcall hpeer hrf =>
      subst haction hpeer
      rw [hrf]
      exact .of_vote hcall hrep
  | checkVote _ _ _ hrf =>
      rw [hrf]
      exact .stores (Raft.checkVoteReply_stores _ _)
  | promote _ _ _ _ _ hrf =>
      rw [hrf]
      exact .stores (Or.inl ⟨rfl, rfl⟩)
  | finishVote _ _ _ _ hrf =>
      rw [hrf]
      exact .stores (Raft.finishVoteReply_stores _ _)
  | append _ _ _ hrf =>
      rw [hrf]
      exact .stores (Raft.heartbeatHandler_stores hrep _)
  | replyAppend _ _ _ _ _ hrf =>
      rw [hrf]
      exact .stores (Raft.sendHeartbeat_stores _ _ _ _)
  | snap _ _ _ hrf =>
      rw [hrf]
      exact .stores (Raft.installSnapshot_stores hrep _)
  | replySnap _ _ _ _ hrf =>
      rw [hrf]
      exact .stores (Raft.sendSnapshot_stores _ _ _ _)
  | start _ hrf =>
      rw [hrf]
      exact .stores (Raft.start_stores _ _)
  | snapshot _ hrf =>
      rw [hrf]
      exact .stores (Raft.snapshot_stores _ _ _)
  | apply _ _ hrf =>
      rw [hrf, Raft.applyGoroutine_rf]
      exact .stores (Or.inl ⟨rfl, rfl⟩)

/-- Every step keeps or saves the durable values of every server, or refuses a
candidate of a later term, or is a restart. -/
theorem Transition.storeStep (h : Transition σ a σ') (hord : Ordered σ)
    (t : Fin n) : StoreStep σ a t (σ'.server t).rf := by
  cases h.turn t with
  | ran hran => exact hran.storeStep (hord.servers t)
  | restart haction hboot => exact .restart haction (by rw [hboot]; rfl)

end Cluster

/-! ## Promises -/

/-- What server `s` does for a candidate or leader of term `T`: it votes,
acknowledges an AppendEntries request or installs a snapshot. -/
inductive Event.Serves (s : Fin n) (T : ℕ) : Event n Cmd → Prop
  | voted (c : Fin n) : Serves s T (.voted s T c)
  | acked (entries : ℕ) : Serves s T (.acked s T entries)
  | installed : Serves s T (.installed s T)

/-- The acts of server `s` that commit it to term `T`.  The acknowledgement of
a request without entries is not among them. -/
inductive Event.Promises (s : Fin n) (T : ℕ) : Event n Cmd → Prop
  | voted (c : Fin n) : Promises s T (.voted s T c)
  | acked {entries : ℕ} (hne : entries ≠ 0) : Promises s T (.acked s T entries)
  | installed : Promises s T (.installed s T)

theorem Event.Promises.serves {s : Fin n} {T : ℕ} {e : Event n Cmd}
    (h : e.Promises s T) : e.Serves s T := by
  cases h with
  | voted c => exact .voted c
  | acked => exact .acked _
  | installed => exact .installed

namespace Raft

variable [Zero Cmd] {rf rf' : Raft n Cmd}

/-- The section that turned `rf` into `rf'` was allowed to act in term `T` and,
if `promised`, has saved that term. -/
structure ActsIn (T : ℕ) (promised : Prop) (rf rf' : Raft n Cmd) : Prop where
  term_le : rf.currentTerm ≤ T
  saved : promised → rf'.persister.durable.currentTerm = T

theorem electLauncher_actsIn {args : RequestVoteArgs n}
    (h : rf.electLauncher = .done rf' args) :
    ActsIn args.term True rf rf' := by
  obtain ⟨hrf, last, _, rfl⟩ := electLauncher_done h
  rw [electLauncher_rf] at hrf
  refine ⟨Nat.le_succ _, fun _ ↦ ?_⟩
  rw [hrf]
  rfl

theorem requestVoteHandler_actsIn {args : RequestVoteArgs n}
    {reply : RequestVoteReply}
    (h : rf.requestVoteHandler args = .done rf' reply)
    (hgranted : reply.voteGranted = true) :
    ActsIn args.term True rf rf' := by
  have hfollow := rf.followCandidate_currentTerm args.term
  rcases rf.requestVoteHandler_cases args with
    hcase | hcase | ⟨last, hgrants, hcase⟩
  · rw [hcase] at h
    cases h
  · rw [hcase] at h
    cases h
    cases hgranted
  · rw [hcase] at h
    cases h
    have hterm := hgrants.term
    exact ⟨by omega, fun _ ↦ hterm⟩

omit [Zero Cmd] in
theorem advanceCommit_persister (rf : Raft n Cmd) (leaderCommit : ℤ) :
    (rf.advanceCommit leaderCommit).persister = rf.persister := by
  unfold advanceCommit
  split <;> rfl

theorem heartbeatHandler_actsIn {args : AppendEntriesArgs n Cmd}
    {reply : AppendEntriesReply}
    (h : rf.heartbeatHandler args = .done rf' reply)
    (hsuccess : reply.success = true) :
    ActsIn args.term (args.entries.length ≠ 0) rf rf' := by
  have hfollow := rf.followLeader_currentTerm args.term
  rcases rf.heartbeatHandler_cases args with
    ⟨reply', hfail, hcase⟩ | hcase |
      ⟨rf₁, entry, k, rfl, hterm, _, _, _, hcase⟩
  · rw [hcase] at h
    cases h
    simp [hfail] at hsuccess
  · rw [hcase] at h
    cases h
  · rcases hcase with ⟨_, reply', hfail, hcase⟩ | ⟨_, reply', _, hcase⟩
    · rw [hcase] at h
      cases h
      simp [hfail] at hsuccess
    · rw [hcase] at h
      cases h
      refine ⟨by omega, fun hne ↦ ?_⟩
      rw [advanceCommit_persister, appendLog, if_pos hne]
      unfold stamped
      split <;> exact hterm

theorem installSnapshot_actsIn {args : SnapshotArgs n}
    {reply : SnapshotRelpay} {msg : ApplyMsg Cmd}
    (h : rf.installSnapshot args = .done rf' (reply, some msg)) :
    ActsIn args.term True rf rf' := by
  have hfollow := rf.followInstaller_currentTerm args.term
  rcases rf.installSnapshot_cases args with
    ⟨_, hcase⟩ | ⟨hle, ⟨_, hcase⟩ | ⟨log, _, hcase⟩⟩
  · rw [hcase] at h
    cases h
  · rw [hcase] at h
    cases h
  · rw [hcase] at h
    cases h
    exact ⟨hle, fun _ ↦ hfollow.trans (max_eq_right hle)⟩

end Raft

namespace Cluster

variable [Zero Cmd] {σ σ' : Cluster n Cmd} {a : Action Cmd n}

/-- The history is the old one, or one event longer; acts of a server in that
event are in a term that it may act in. -/
theorem Transition.events_cases (h : Transition σ a σ') :
    σ'.events = σ.events ∨
      ∃ e, σ'.events = σ.events ++ [e] ∧ ∀ s T, e.Serves s T →
        (σ.server s).rf.ActsIn T (e.Promises s T) (σ'.server s).rf := by
  cases h with
  | elect _ _ hrun =>
      refine Or.inr ⟨_, rfl, ?_⟩
      rintro s T ⟨⟩
      obtain ⟨hle, hsaved⟩ := Raft.electLauncher_actsIn hrun
      exact ⟨hle, fun _ ↦ by simpa using hsaved trivial⟩
  | @vote k call rf reply _ _ _ hrun =>
      by_cases hgranted : reply.voteGranted = true
      · refine Or.inr ⟨.voted call.peer call.args.term call.args.candidateId,
          by simp [hgranted], ?_⟩
        rintro s T ⟨⟩
        obtain ⟨hle, hsaved⟩ := Raft.requestVoteHandler_actsIn hrun hgranted
        exact ⟨hle, fun _ ↦ by simpa using hsaved trivial⟩
      · exact Or.inl (by simp [hgranted])
  | @append k call rf reply _ _ _ hrun =>
      by_cases hsuccess : reply.success = true
      · refine Or.inr ⟨.acked call.peer call.args.term
          call.args.entries.length, by simp [hsuccess], ?_⟩
        rintro s T ⟨⟩
        obtain ⟨hle, hsaved⟩ := Raft.heartbeatHandler_actsIn hrun hsuccess
        refine ⟨hle, fun hpromise ↦ ?_⟩
        cases hpromise with
        | acked hne => simpa using hsaved hne
      · exact Or.inl (by simp [hsuccess])
  | snap _ _ _ hrun =>
      refine Or.inr ⟨_, rfl, ?_⟩
      rintro s T ⟨⟩
      obtain ⟨hle, hsaved⟩ := Raft.installSnapshot_actsIn hrun
      exact ⟨hle, fun _ ↦ by simpa using hsaved trivial⟩
  | promotePanic | promote | snapshot | receive =>
      refine Or.inr ⟨_, rfl, ?_⟩
      rintro s T ⟨⟩
  | @start s command =>
      by_cases hleader : ((σ.server s).rf.start command).2.2.2 = true
      · refine Or.inr ⟨.started s command
          ((σ.server s).rf.start command).2.1
          ((σ.server s).rf.start command).2.2.1, by simp [hleader], ?_⟩
        rintro t T ⟨⟩
      · exact Or.inl (by simp [hleader])
  | _ => exact Or.inl rfl

/-- The saved term of a server never falls and is never ahead of the term in
memory. -/
theorem Transition.savedTerm_le (h : Transition σ a σ') (hord : Ordered σ)
    {t : Fin n}
    (hmemory : (σ.server t).rf.persister.durable.currentTerm ≤
      (σ.server t).rf.currentTerm) :
    (σ.server t).rf.persister.durable.currentTerm ≤
      (σ'.server t).rf.persister.durable.currentTerm ∧
    (σ'.server t).rf.persister.durable.currentTerm ≤
      (σ'.server t).rf.currentTerm := by
  have hrestart : ∀ rf, rf = Raft.make t (σ.server t).rf.persister →
      (σ.server t).rf.persister.durable.currentTerm ≤
        rf.persister.durable.currentTerm ∧
      rf.persister.durable.currentTerm ≤ rf.currentTerm := by
    rintro rf rfl
    rw [Raft.make_persister]
    exact ⟨le_rfl, (congrArg Durable.currentTerm
      (Raft.make_durable t (σ.server t).rf.persister)).ge⟩
  cases h.evolves t with
  | restart _ hboot =>
      rw [hboot]
      exact hrestart _ rfl
  | changes hchanges =>
      have hmono := hchanges.currentTerm_le
      cases h.storeStep hord t with
      | stores hstores =>
          rcases hstores with ⟨_, hpersister⟩ | hsaved
          · rw [hpersister]
            exact ⟨le_rfl, le_trans hmemory hmono⟩
          · rw [hsaved]
            exact ⟨le_trans hmemory hmono, le_rfl⟩
      | refused _ _ _ hlt _ hrf =>
          rw [hrf, Raft.followCandidate_of_lt hlt]
          exact ⟨le_rfl, le_trans hmemory (le_of_lt hlt)⟩
      | restart _ hrf => exact hrestart _ hrf

theorem Transition.savesBody (h : Transition σ a σ') (hord : Ordered σ)
    {t : Fin n} (hsaved : (σ.server t).rf.SavesBody) :
    (σ'.server t).rf.SavesBody := by
  cases h.storeStep hord t with
  | stores hstores =>
      rcases hstores with ⟨hdurable, hpersister⟩ | hnow
      · unfold Raft.SavesBody
        rw [hpersister, hdurable]
        exact hsaved
      · exact congrArg Durable.body hnow
  | refused _ _ _ hlt _ hrf =>
      rw [hrf, Raft.followCandidate_of_lt hlt]
      exact hsaved
  | restart _ hrf =>
      rw [hrf, Raft.SavesBody, Raft.make_persister, Raft.make_durable]

theorem savesBody_of_run {ok : Cluster n Cmd → Action Cmd n → Prop}
    {visited : List (Cluster n Cmd)} (hrun : Run step ok init visited σ)
    (s : Fin n) : (σ.server s).rf.SavesBody := by
  induction hrun with
  | start => rfl
  | next hprev _ hstep ih =>
      exact (step_transition hstep).savesBody (ordered_of_run hprev) ih

/-- Every promise is saved, and no act of a server has undercut one. -/
structure Fenced (σ : Cluster n Cmd) : Prop where
  memory : ∀ s, (σ.server s).rf.persister.durable.currentTerm ≤
    (σ.server s).rf.currentTerm
  saved : ∀ s, ∀ e ∈ σ.events, ∀ T, e.Promises s T →
    T ≤ (σ.server s).rf.persister.durable.currentTerm
  history : ∀ s, σ.events.Pairwise fun e e' ↦
    ∀ T U, e.Promises s T → e'.Serves s U → T ≤ U

theorem fenced_init : Fenced (init : Cluster n Cmd) where
  memory := fun s ↦ Nat.zero_le _
  saved := by simp [init]
  history := fun s ↦ List.Pairwise.nil

theorem Fenced.step (h : Fenced σ) (hord : Ordered σ)
    (hstep : σ.step a = some σ') : Fenced σ' := by
  have htrans := step_transition hstep
  have hterms := fun s ↦ htrans.savedTerm_le hord (h.memory s)
  have hold : ∀ s, ∀ e ∈ σ.events, ∀ T, e.Promises s T →
      T ≤ (σ'.server s).rf.persister.durable.currentTerm :=
    fun s e he T hT ↦ le_trans (h.saved s e he T hT) (hterms s).1
  rcases htrans.events_cases with hsame | ⟨e, hnew, hacts⟩
  · refine ⟨fun s ↦ (hterms s).2, ?_, ?_⟩
    · rw [hsame]
      exact hold
    · rw [hsame]
      exact h.history
  · refine ⟨fun s ↦ (hterms s).2, ?_, ?_⟩
    · rw [hnew]
      intro s d hd T hT
      rcases List.mem_append.mp hd with hpast | hlast
      · exact hold s d hpast T hT
      · obtain rfl := List.mem_singleton.mp hlast
        exact ((hacts s T hT.serves).saved hT).ge
    · rw [hnew]
      intro s
      refine List.pairwise_append.mpr
        ⟨h.history s, List.pairwise_singleton _ _, ?_⟩
      intro d hd e' he' T U hT hU
      obtain rfl := List.mem_singleton.mp he'
      calc
        T ≤ (σ.server s).rf.persister.durable.currentTerm :=
          h.saved s d hd T hT
        _ ≤ (σ.server s).rf.currentTerm := h.memory s
        _ ≤ U := (hacts s U hU).term_le

theorem fenced_of_run {ok : Cluster n Cmd → Action Cmd n → Prop}
    {visited : List (Cluster n Cmd)} (hrun : Run step ok init visited σ) :
    Fenced σ := by
  induction hrun with
  | start => exact fenced_init
  | next hprev _ hstep ih => exact ih.step (ordered_of_run hprev) hstep

/-- Once a server has voted, acknowledged entries or installed a snapshot in
some term, it never again votes, acknowledges or installs in an earlier one,
whatever crashes lie between. -/
theorem term_fencing {visited : List (Cluster n Cmd)}
    (hrun : Run step (fun _ _ ↦ True) init visited σ) (s : Fin n) :
    σ.events.Pairwise fun e e' ↦
      ∀ T U, e.Promises s T → e'.Serves s U → T ≤ U :=
  (fenced_of_run hrun).history s

/-- Server 1 votes in term 1, crashes, acknowledges an entry of term 1, crashes
again and votes in term 2. -/
def crashingRun : List (Action ℕ 3) :=
  [.elect 0, .deliverVote 0, .restart 1, .checkVote 0, .countVote 0,
    .promote 0, .start 0 5, .heartbeat 0, .deliverAppend 2, .deliverAppend 3,
    .restart 1, .elect 2, .deliverVote 3]

/-- The three acts of server 1 are in the order of their terms. -/
theorem term_fencing_crashed :
    ∃ (visited : List (Cluster 3 ℕ)) (σ : Cluster 3 ℕ),
      Run step (fun _ _ ↦ True) init visited σ ∧
      ((σ.server 1).incarnation = 2 ∧ Event.voted 1 1 0 ∈ σ.events ∧
        Event.acked 1 1 1 ∈ σ.events ∧ Event.voted 1 2 2 ∈ σ.events) ∧
      σ.events.Pairwise fun e e' ↦
        ∀ T U, e.Promises 1 T → e'.Serves 1 U → T ≤ U := by
  obtain ⟨visited, σ, hrun, hacts⟩ := Run.exists_of_exec
    step (fun _ _ ↦ True) init crashingRun
    (fun σ : Cluster 3 ℕ ↦ (σ.server 1).incarnation = 2 ∧
      Event.voted 1 1 0 ∈ σ.events ∧ Event.acked 1 1 1 ∈ σ.events ∧
      Event.voted 1 2 2 ∈ σ.events) (by decide +kernel)
  exact ⟨visited, σ, hrun, hacts, term_fencing hrun 1⟩

/-! ## The persister mirrors memory -/

omit [Zero Cmd] in
/-- A candidate of a later term has a log that the voter accepts, so that the
term is saved together with the vote. -/
def GrantsHigherTerms (σ : Cluster n Cmd) : Action Cmd n → Prop
  | .deliverVote k => ∀ call ∈ σ.voteCalls[k]?,
      (σ.server call.peer).rf.currentTerm < call.args.term →
        (σ.server call.peer).rf.UpToDate call.args
  | _ => True

omit [Zero Cmd] in
instance (σ : Cluster n Cmd) (a : Action Cmd n) :
    Decidable (σ.GrantsHigherTerms a) := by
  induction a using Action.casesOn <;> dsimp only [GrantsHigherTerms] <;>
    infer_instance

/-- Persisters and memories agree. -/
def Mirrored (σ : Cluster n Cmd) : Prop :=
  ∀ s, (σ.server s).rf.persister.durable = (σ.server s).rf.durable

theorem Mirrored.step (h : Mirrored σ) (hord : Ordered σ)
    (hok : σ.GrantsHigherTerms a) (hstep : σ.step a = some σ') :
    Mirrored σ' := by
  intro s
  cases (step_transition hstep).storeStep hord s with
  | stores hstores =>
      rcases hstores with ⟨hdurable, hpersister⟩ | hsaved
      · rw [hdurable, hpersister]
        exact h s
      · exact hsaved
  | refused haction hcall hpeer hlt hold _ =>
      subst haction hpeer
      exact absurd (hok _ hcall hlt) hold
  | restart _ hrf => rw [hrf, Raft.make_persister, Raft.make_durable]

theorem mirrored_of_run {visited : List (Cluster n Cmd)}
    (hrun : Run step GrantsHigherTerms init visited σ) : Mirrored σ := by
  have hinv : Ordered σ ∧ Mirrored σ := by
    refine hrun.invariant (I := fun σ ↦ Ordered σ ∧ Mirrored σ)
      ⟨ordered_init, fun s ↦ rfl⟩ ?_
    rintro σ σ' a ⟨hord, hmirrored⟩ hok hstep
    exact ⟨hord.step hstep, hmirrored.step hord hok hstep⟩
  exact hinv.2

/-- A server that is restarted from a mirrored persister keeps its term. -/
theorem Mirrored.term_le (h : Mirrored σ) (htrans : Transition σ a σ')
    (s : Fin n) :
    (σ.server s).rf.currentTerm ≤ (σ'.server s).rf.currentTerm := by
  cases htrans.evolves s with
  | changes hchanges => exact hchanges.currentTerm_le
  | restart _ hboot =>
      have hdurable := (Raft.make_durable s (σ.server s).rf.persister).trans
        (h s)
      rw [hboot]
      exact (congrArg Durable.currentTerm hdurable).ge

/-- In every run in which no server refuses a candidate of a later term, what
`Make` would rebuild from the persister is what the server has in memory, so a
crash changes nothing durable and no term ever falls. -/
theorem persister_mirrors_memory {visited : List (Cluster n Cmd)}
    (hrun : Run step GrantsHigherTerms init visited σ) :
    (∀ s, (Raft.make s (σ.server s).rf.persister).durable =
      (σ.server s).rf.durable) ∧
    (∀ s σ', σ.step (.restart s) = some σ' →
      (σ'.server s).rf.durable = (σ.server s).rf.durable) ∧
    ∀ σ₁ ∈ visited, ∀ s,
      (σ₁.server s).rf.currentTerm ≤ (σ.server s).rf.currentTerm := by
  have hrebuilt : ∀ s, (Raft.make s (σ.server s).rf.persister).durable =
      (σ.server s).rf.durable :=
    fun s ↦ (Raft.make_durable s _).trans (mirrored_of_run hrun s)
  refine ⟨hrebuilt, ?_, ?_⟩
  · intro s σ' hstep
    cases step_transition hstep with
    | restart =>
        rw [setServer_server, Function.update_self]
        exact hrebuilt s
  · intro σ₁ hmem s
    clear hrebuilt
    induction hrun with
    | start =>
        obtain rfl := List.mem_singleton.mp hmem
        exact le_rfl
    | next hprev _ hstep ih =>
        rcases List.mem_cons.mp hmem with rfl | hold
        · exact le_rfl
        · exact le_trans (ih hold)
            ((mirrored_of_run hprev).term_le (step_transition hstep) s)

/-- Server 0 leads term 1 and has a command, and server 1 has gone on to
term 2. -/
def leadingRun : List (Action ℕ 3) :=
  winning 0 0 ++ [.start 0 5, .elect 1]

/-- A crash of server 0 does not change its command or its term. -/
theorem persister_mirrors_memory_leading :
    ∃ (visited : List (Cluster 3 ℕ)) (σ : Cluster 3 ℕ),
      Run step GrantsHigherTerms init visited σ ∧
      ((σ.server 0).rf.currentTerm = 1 ∧
        (σ.server 0).rf.log = [⟨0, 0⟩, ⟨1, 5⟩]) ∧
      (Raft.make 0 (σ.server 0).rf.persister).durable =
        (σ.server 0).rf.durable := by
  obtain ⟨visited, σ, hrun, hmemory⟩ := Run.exists_of_exec
    step GrantsHigherTerms init leadingRun
    (fun σ : Cluster 3 ℕ ↦ (σ.server 0).rf.currentTerm = 1 ∧
      (σ.server 0).rf.log = [⟨0, 0⟩, ⟨1, 5⟩]) (by decide +kernel)
  exact ⟨visited, σ, hrun, hmemory, (persister_mirrors_memory hrun).1 0⟩

/-- Server 0 refuses the vote of term 2 to server 1, whose log is empty.  Its
persister stays in term 1 with the vote for itself, and a crash takes it back
there. -/
theorem refused_term_unsaved :
    ∃ (visited : List (Cluster 3 ℕ)) (σ : Cluster 3 ℕ),
      Run step (fun _ _ ↦ True) init visited σ ∧
      (σ.server 0).rf.currentTerm = 2 ∧ (σ.server 0).rf.votedFor = none ∧
      (Raft.make 0 (σ.server 0).rf.persister).durable.currentTerm = 1 ∧
      (Raft.make 0 (σ.server 0).rf.persister).durable.votedFor = some 0 ∧
      ∃ σ' ∈ σ.step (.restart 0), (σ'.server 0).rf.currentTerm = 1 := by
  exact Run.exists_of_exec step (fun _ _ ↦ True) init
    (leadingRun ++ [.deliverVote 2])
    (fun σ : Cluster 3 ℕ ↦ (σ.server 0).rf.currentTerm = 2 ∧
      (σ.server 0).rf.votedFor = none ∧
      (Raft.make 0 (σ.server 0).rf.persister).durable.currentTerm = 1 ∧
      (Raft.make 0 (σ.server 0).rf.persister).durable.votedFor = some 0 ∧
      ∃ σ' ∈ σ.step (.restart 0), (σ'.server 0).rf.currentTerm = 1)
    (by decide +kernel)

end Cluster

end DistLabs
