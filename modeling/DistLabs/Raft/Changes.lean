import DistLabs.Raft.Sections
import DistLabs.Raft.Transition

/-!
# Elementary changes of a server

Every section is a sequence of elementary changes, and a step of the cluster
takes every server through such a sequence or restarts it.  Invariants of a
single server are proved for the elementary changes only.
-/

namespace DistLabs

variable {n : ℕ} {Cmd : Type}

/-! ## Elementary changes of one server -/

/-- What a server may receive in one step: requests, the reply to an accepted
AppendEntries request, the last vote of a won election with the term the server
is in, a command for its log at some index, a snapshot of its service, and the
turn of its `ApplyGoroutine`. -/
structure Inputs (n : ℕ) (Cmd : Type) where
  vote : RequestVoteArgs n → Prop
  append : AppendEntriesArgs n Cmd → Prop
  snap : SnapshotArgs n → Prop
  acked : Fin n → AppendEntriesArgs n Cmd → Prop
  won : RequestVoteArgs n → ℕ → Prop
  started : Cmd → ℤ → Prop
  taken : ℤ → Bytes → Prop
  applies : Prop

open Raft in
/-- The elementary changes that the sections of a server consist of. -/
inductive Change [Zero Cmd] (In : Inputs n Cmd) (rf : Raft n Cmd) :
    Raft n Cmd → Prop
  | elect (hstate : rf.state = .follower) : Change In rf rf.electLauncher.rf
  | follow {T : ℕ} (hlt : rf.currentTerm < T) :
      Change In rf
        { rf with state := .follower, currentTerm := T, votedFor := none }
  | grant {args last} (hin : In.vote args) (hgrants : Grants rf args last) :
      Change In rf (persist { rf with votedFor := some args.candidateId })
  | demote : Change In rf { rf with state := .follower }
  | lead {args} (hin : In.won args rf.currentTerm) :
      Change In rf rf.becomeLeader
  | raise {T : ℕ} (hlt : rf.currentTerm < T) :
      Change In rf (persist { rf with currentTerm := T, state := .follower })
  | reindex {next : List ℤ} : Change In rf { rf with nextIndex := next }
  | matched {peer args} (hin : In.acked peer args)
      (hterm : rf.currentTerm = args.term) :
      Change In rf (rf.matched peer args)
  | commit {peer args} {N : ℤ} {count : ℕ} (hin : In.acked peer args)
      (hlow : rf.commitIndex < N) (hhigh : N ≤ rf.logLength - 1)
      (hcount : rf.countReplicas N 0 rf.matchIndex = some count)
      (hmajority : count > n / 2) :
      Change In rf
        { rf with
          commitIndex := N
          lastApplied := max rf.lastApplied rf.lastIncludedIndex }
  | start {command : Cmd} (hin : In.started command rf.logLength)
      (hstate : rf.state = .leader) :
      Change In rf (rf.extended command)
  | snapshot {index data entry} (hin : In.taken index data)
      (hentry : elemAt rf.log (rf.v2pIndex index) = some entry) :
      Change In rf (rf.compacted index data entry)
  | conflict {args entry k} (hin : In.append args)
      (hterm : rf.currentTerm = args.term)
      (hk : k = rf.v2pIndex args.prevLogIndex)
      (hentry : elemAt rf.log k = some entry)
      (hne : args.prevLogTerm ≠ rf.checkTerm k entry) :
      Change In rf ((rf.stamped k).deleteConflict k)
  | accept {args entry k} (hin : In.append args)
      (hterm : rf.currentTerm = args.term)
      (hk : k = rf.v2pIndex args.prevLogIndex)
      (hentry : elemAt rf.log k = some entry)
      (heq : args.prevLogTerm = rf.checkTerm k entry) :
      Change In rf (((rf.stamped k).appendLog k args.entries).advanceCommit
        args.leaderCommit)
  | install {args log} (hin : In.snap args)
      (hterm : rf.currentTerm = args.term)
      (hlog : rf.remainingLog args = some log) :
      Change In rf (rf.installed args log)
  | apply (hin : In.applies) (hcommit : rf.commitIndex > rf.lastApplied) :
      Change In rf { rf with lastApplied := rf.lastApplied + 1 }

/-- A sequence of elementary changes. -/
abbrev Changes [Zero Cmd] (In : Inputs n Cmd) :
    Raft n Cmd → Raft n Cmd → Prop :=
  Relation.ReflTransGen (Change In)

/-- What every elementary change preserves, a sequence of them preserves. -/
theorem Changes.preserves [Zero Cmd] {In : Inputs n Cmd}
    {rf rf' : Raft n Cmd} {P : Raft n Cmd → Prop}
    (hstep : ∀ {rf rf'}, Change In rf rf' → P rf → P rf')
    (h : Changes In rf rf') (hP : P rf) : P rf' := by
  induction h with
  | refl => exact hP
  | tail _ hchange ih => exact hstep hchange ih

theorem currentTerm_change [Zero Cmd] {In : Inputs n Cmd}
    {rf rf' : Raft n Cmd} (hchange : Change In rf rf') :
    rf.currentTerm ≤ rf'.currentTerm := by
  cases hchange with
  | elect =>
      rw [Raft.electLauncher_rf]
      exact Nat.le_succ _
  | follow hlt | raise hlt => exact le_of_lt hlt
  | conflict =>
      unfold Raft.stamped
      split <;> exact le_rfl
  | accept =>
      unfold Raft.advanceCommit Raft.appendLog Raft.stamped
      split <;> split <;> split <;> exact le_rfl
  | _ => exact le_rfl

/-- No sequence of changes lowers the term. -/
theorem Changes.currentTerm_le [Zero Cmd] {In : Inputs n Cmd}
    {rf rf' : Raft n Cmd} (h : Changes In rf rf') :
    rf.currentTerm ≤ rf'.currentTerm :=
  h.preserves (P := fun rf' ↦ rf.currentTerm ≤ rf'.currentTerm)
    (fun hchange hle ↦ le_trans hle (currentTerm_change hchange)) le_rfl

/-- The sentinel moves only when a snapshot is installed or taken. -/
theorem sentinel_change [Zero Cmd] {In : Inputs n Cmd}
    {rf rf' : Raft n Cmd} (hsnap : ∀ args, ¬ In.snap args)
    (htaken : ∀ index data, ¬ In.taken index data)
    (hchange : Change In rf rf') :
    rf'.lastIncludedIndex = rf.lastIncludedIndex ∧
      rf'.lastIncludedTerm = rf.lastIncludedTerm := by
  cases hchange with
  | elect =>
      rw [Raft.electLauncher_rf]
      exact ⟨rfl, rfl⟩
  | snapshot hin => exact absurd hin (htaken _ _)
  | install hin => exact absurd hin (hsnap _)
  | conflict =>
      unfold Raft.stamped
      split <;> exact ⟨rfl, rfl⟩
  | accept =>
      unfold Raft.advanceCommit Raft.appendLog Raft.stamped
      split <;> split <;> split <;> exact ⟨rfl, rfl⟩
  | _ => exact ⟨rfl, rfl⟩

theorem Changes.sentinel_eq [Zero Cmd] {In : Inputs n Cmd}
    {rf rf' : Raft n Cmd} (h : Changes In rf rf')
    (hsnap : ∀ args, ¬ In.snap args)
    (htaken : ∀ index data, ¬ In.taken index data) :
    rf'.lastIncludedIndex = rf.lastIncludedIndex ∧
      rf'.lastIncludedTerm = rf.lastIncludedTerm :=
  h.preserves
    (P := fun rf' ↦ rf'.lastIncludedIndex = rf.lastIncludedIndex ∧
      rf'.lastIncludedTerm = rf.lastIncludedTerm)
    (fun hchange ⟨hindex, hterm⟩ ↦
      (sentinel_change hsnap htaken hchange).imp
        (fun h ↦ h.trans hindex) fun h ↦ h.trans hterm) ⟨rfl, rfl⟩

/-- Match indices change only by a promotion or by the reply to an accepted
request. -/
theorem matchIndex_change [Zero Cmd] {In : Inputs n Cmd}
    {rf rf' : Raft n Cmd} (hacked : ∀ peer args, ¬ In.acked peer args)
    (hwon : ∀ args T, ¬ In.won args T) (hchange : Change In rf rf') :
    rf'.matchIndex = rf.matchIndex := by
  cases hchange with
  | elect =>
      rw [Raft.electLauncher_rf]
      rfl
  | lead hin => exact absurd hin (hwon _ _)
  | matched hin => exact absurd hin (hacked _ _)
  | conflict =>
      unfold Raft.stamped
      split <;> rfl
  | accept =>
      unfold Raft.advanceCommit Raft.appendLog Raft.stamped
      split <;> split <;> split <;> rfl
  | _ => rfl

namespace Raft

variable [Zero Cmd] (In : Inputs n Cmd) (rf : Raft n Cmd)

theorem followCandidate_changes (term : ℕ) :
    Changes In rf (rf.followCandidate term) := by
  unfold followCandidate
  split
  · next hlt => exact .single (.follow hlt)
  · exact .refl

theorem followInstaller_changes (term : ℕ) :
    Changes In rf (rf.followInstaller term) := by
  unfold followInstaller
  split
  · next hlt => exact .single (.follow hlt)
  · exact .refl

theorem followLeader_changes (term : ℕ) :
    Changes In rf (rf.followLeader term) := by
  unfold followLeader
  split
  · next hlt => exact .single (.raise hlt)
  · exact .refl

theorem requestVoteHandler_changes {args : RequestVoteArgs n}
    (hin : In.vote args) :
    Changes In rf (rf.requestVoteHandler args).rf := by
  have hfollow := rf.followCandidate_changes In args.term
  rcases rf.requestVoteHandler_cases args with
    h | h | ⟨last, hgrants, h⟩ <;> rw [h]
  · exact hfollow
  · exact hfollow
  · exact hfollow.tail (.grant hin hgrants)

theorem checkVoteReply_changes (args : RequestVoteArgs n) :
    Changes In rf (rf.checkVoteReply args).1 := by
  unfold checkVoteReply
  split
  · exact .single .demote
  · exact .refl

theorem finishVoteReply_changes (reply : RequestVoteReply) :
    Changes In rf (rf.finishVoteReply reply) := by
  rcases rf.finishVoteReply_cases reply with h | ⟨hlt, h⟩
  · rw [h]
  · rw [h]
    exact .single (.raise hlt)

theorem recordSuccess_changes {peer : Fin n} {args : AppendEntriesArgs n Cmd}
    (hin : In.acked peer args) (hterm : rf.currentTerm = args.term) :
    Changes In rf (rf.recordSuccess peer args).rf := by
  rcases rf.recordSuccess_cases peer args with
    h | h | ⟨N, count, hlow, hhigh, hcount, hmajority, h⟩
  · rw [h]
  · rw [h]
    exact .single (.matched hin hterm)
  · rw [h]
    exact .tail (.single (.matched hin hterm))
      (.commit hin hlow hhigh hcount hmajority)

theorem sendHeartbeat_changes (peer : Fin n)
    (args : AppendEntriesArgs n Cmd) (reply : AppendEntriesReply)
    (hin : reply.success = true → In.acked peer args) :
    Changes In rf (rf.sendHeartbeat peer args reply).rf := by
  rcases rf.sendHeartbeat_cases peer args reply with
    h | ⟨hterm, ⟨hlt, h⟩ | ⟨hsuccess, h⟩ | h⟩
  · rw [h]
  · rw [h]
    exact .single (.raise hlt)
  · rw [h]
    exact rf.recordSuccess_changes In (hin hsuccess) hterm
  · obtain ⟨next, hnext⟩ := rf.backUp_rf peer reply
    rw [h, hnext]
    exact .single .reindex

theorem sendSnapshot_changes (peer : Fin n) (args : SnapshotArgs n)
    (reply : SnapshotRelpay) :
    Changes In rf (rf.sendSnapshot peer args reply).rf := by
  obtain ⟨next, h | ⟨hlt, h⟩⟩ := rf.sendSnapshot_cases peer args reply <;>
    rw [h]
  · exact .single .reindex
  · exact .tail (.single (.raise hlt)) .reindex

theorem heartbeatHandler_changes {args : AppendEntriesArgs n Cmd}
    (hin : In.append args) :
    Changes In rf (rf.heartbeatHandler args).rf := by
  have hfollow := rf.followLeader_changes In args.term
  rcases rf.heartbeatHandler_cases args with
    ⟨reply, _, h⟩ | h | ⟨rf₁, entry, k, rfl, hterm, hk, _, hentry, hcase⟩
  · rw [h]
    exact hfollow
  · rw [h]
    exact hfollow
  · rcases hcase with ⟨hne, reply, _, h⟩ | ⟨heq, reply, _, h⟩ <;> rw [h]
    · exact hfollow.tail (.conflict hin hterm hk hentry hne)
    · exact hfollow.tail (.accept hin hterm hk hentry heq)

theorem installSnapshot_changes {args : SnapshotArgs n} (hin : In.snap args) :
    Changes In rf (rf.installSnapshot args).rf := by
  have hfollow := rf.followInstaller_changes In args.term
  rcases rf.installSnapshot_cases args with
    ⟨_, h⟩ | ⟨hle, ⟨_, h⟩ | ⟨log, hlog, h⟩⟩ <;> rw [h]
  · exact .refl
  · exact hfollow
  · have hterm : (rf.followInstaller args.term).currentTerm = args.term :=
      (followInstaller_currentTerm rf args.term).trans (max_eq_right hle)
    exact hfollow.tail (.install hin hterm hlog)

theorem start_changes (command : Cmd)
    (hin : rf.state = .leader → In.started command rf.logLength) :
    Changes In rf (rf.start command).1 := by
  rcases rf.start_cases command with h | ⟨hstate, h⟩
  · rw [h]
  · rw [h]
    exact .single (.start (hin hstate) hstate)

theorem snapshot_changes (index : ℤ) (data : Bytes)
    (hin : In.taken index data) :
    Changes In rf (rf.snapshot index data).rf := by
  rcases rf.snapshot_cases index data with h | ⟨entry, hentry, h⟩ <;> rw [h]
  · exact .refl
  · exact .single (.snapshot hin hentry)

theorem applyGoroutine_changes (hin : In.applies)
    (hcommit : rf.commitIndex > rf.lastApplied) :
    Changes In rf rf.applyGoroutine.rf := by
  rw [applyGoroutine_rf]
  exact .single (.apply hin hcommit)

end Raft

namespace Cluster

variable [Zero Cmd] {σ σ' : Cluster n Cmd} {a : Action Cmd n}

/-! ## The servers -/

omit [Zero Cmd] in
/-- What server `s` receives when the cluster takes action `a`. -/
def inputs (σ : Cluster n Cmd) (a : Action Cmd n) (s : Fin n) :
    Inputs n Cmd where
  vote := fun args ↦ ∃ k call, a = .deliverVote k ∧
    σ.voteCalls[k]? = some call ∧ call.peer = s ∧ call.args = args
  append := fun args ↦ ∃ k call, a = .deliverAppend k ∧
    σ.appendCalls[k]? = some call ∧ call.peer = s ∧ call.args = args
  snap := fun args ↦ ∃ k call, a = .deliverSnap k ∧
    σ.snapCalls[k]? = some call ∧ call.peer = s ∧ call.args = args
  acked := fun peer args ↦ ∃ k call reply, a = .replyAppend k ∧
    σ.appendCalls[k]? = some call ∧ call.phase = .replied reply ∧
    reply.success = true ∧ σ.Resumes call.caller call.incarnation ∧
    call.caller = s ∧ call.peer = peer ∧ call.args = args
  won := fun args term ↦ ∃ k call reply, a = .promote k ∧
    σ.voteCalls[k]? = some call ∧ call.phase = .won reply ∧
    σ.Resumes call.caller call.incarnation ∧ call.caller = s ∧
    call.args = args ∧ term = (σ.server s).rf.currentTerm
  started := fun command index ↦ a = .start s command ∧
    (σ.server s).rf.state = .leader ∧ index = (σ.server s).rf.logLength
  taken := fun index data ↦ a = .snapshot s index data
  applies := a = .apply s

/-- The section that server `t` runs in a step, and the `Raft` value it leaves,
whether it returns or panics. -/
inductive Ran (σ : Cluster n Cmd) (a : Action Cmd n) (t : Fin n)
    (rf : Raft n Cmd) : Prop
  | idle (hrf : rf = (σ.server t).rf)
  | elect (haction : a = .elect t)
      (hstate : (σ.server t).rf.state = .follower)
      (hrf : rf = (σ.server t).rf.electLauncher.rf)
  | vote {k : ℕ} {call : VoteCall n} (haction : a = .deliverVote k)
      (hcall : σ.voteCalls[k]? = some call) (hpeer : call.peer = t)
      (hrf : rf = ((σ.server t).rf.requestVoteHandler call.args).rf)
  | checkVote {k : ℕ} {call : VoteCall n} (haction : a = .checkVote k)
      (hcall : σ.voteCalls[k]? = some call) (hcaller : call.caller = t)
      (hrf : rf = ((σ.server t).rf.checkVoteReply call.args).1)
  | promote {k : ℕ} {call : VoteCall n} {reply : RequestVoteReply}
      (haction : a = .promote k) (hcall : σ.voteCalls[k]? = some call)
      (hphase : call.phase = .won reply)
      (hresumes : σ.Resumes call.caller call.incarnation)
      (hcaller : call.caller = t) (hrf : rf = (σ.server t).rf.becomeLeader)
  | finishVote {k : ℕ} {call : VoteCall n} {reply : RequestVoteReply}
      (haction : a = .finishVote k) (hcall : σ.voteCalls[k]? = some call)
      (hphase : call.phase = .counted reply) (hcaller : call.caller = t)
      (hrf : rf = (σ.server t).rf.finishVoteReply reply)
  | append {k : ℕ} {call : AppendCall n Cmd} (haction : a = .deliverAppend k)
      (hcall : σ.appendCalls[k]? = some call) (hpeer : call.peer = t)
      (hrf : rf = ((σ.server t).rf.heartbeatHandler call.args).rf)
  | replyAppend {k : ℕ} {call : AppendCall n Cmd}
      {reply : AppendEntriesReply} (haction : a = .replyAppend k)
      (hcall : σ.appendCalls[k]? = some call)
      (hphase : call.phase = .replied reply)
      (hresumes : σ.Resumes call.caller call.incarnation)
      (hcaller : call.caller = t)
      (hrf : rf =
        ((σ.server t).rf.sendHeartbeat call.peer call.args reply).rf)
  | snap {k : ℕ} {call : SnapCall n} (haction : a = .deliverSnap k)
      (hcall : σ.snapCalls[k]? = some call) (hpeer : call.peer = t)
      (hrf : rf = ((σ.server t).rf.installSnapshot call.args).rf)
  | replySnap {k : ℕ} {call : SnapCall n} {reply : SnapshotRelpay}
      (haction : a = .replySnap k) (hcall : σ.snapCalls[k]? = some call)
      (hphase : call.phase = .replied reply) (hcaller : call.caller = t)
      (hrf : rf =
        ((σ.server t).rf.sendSnapshot call.peer call.args reply).rf)
  | start {command : Cmd} (haction : a = .start t command)
      (hrf : rf = ((σ.server t).rf.start command).1)
  | snapshot {index : ℤ} {data : Bytes} (haction : a = .snapshot t index data)
      (hrf : rf = ((σ.server t).rf.snapshot index data).rf)
  | apply (haction : a = .apply t)
      (hcommit : (σ.server t).rf.commitIndex > (σ.server t).rf.lastApplied)
      (hrf : rf = (σ.server t).rf.applyGoroutine.rf)

/-- What a step makes of server `t`: it runs a section, or is restarted. -/
inductive Turn (σ : Cluster n Cmd) (a : Action Cmd n) (t : Fin n)
    (srv : Server n Cmd) : Prop
  | ran (hran : Ran σ a t srv.rf)
      (hinc : srv.incarnation = (σ.server t).incarnation)
  | restart (haction : a = .restart t)
      (hboot : srv = boot t ((σ.server t).incarnation + 1)
        (σ.server t).rf.persister)

/-- The other servers run nothing when the new servers differ from the old
ones only at `s`. -/
theorem Turn.of_update {s : Fin n} {srv : Server n Cmd}
    (h : Turn σ a s srv) (t : Fin n) :
    Turn σ a t (Function.update σ.server s srv t) := by
  by_cases hts : t = s
  · subst hts
    rwa [Function.update_self]
  · rw [Function.update_of_ne hts]
    exact .ran (.idle rfl) rfl

theorem Transition.turn (h : Transition σ a σ') (t : Fin n) :
    Turn σ a t (σ'.server t) := by
  cases h with
  | electPanic _ hstate hrun | elect _ hstate hrun =>
      refine Turn.of_update (.ran ?_ (by rfl)) t
      exact .elect rfl hstate (by rw [hrun]; rfl)
  | heartbeatPanic _ _ hrun =>
      obtain rfl := Raft.heartBeatLauncher_panic hrun
      refine Turn.of_update (.ran ?_ (by rfl)) t
      exact .idle rfl
  | heartbeat _ _ hrun =>
      obtain ⟨rfl, _⟩ := Raft.heartBeatLauncher_done hrun
      refine Turn.of_update (.ran ?_ (by rfl)) t
      exact .idle rfl
  | votePanic hcall _ _ hrun | vote hcall _ _ hrun =>
      refine Turn.of_update (.ran ?_ (by rfl)) t
      exact .vote rfl hcall rfl (by rw [hrun]; rfl)
  | checkVote hcall =>
      refine Turn.of_update (.ran ?_ (by rfl)) t
      exact .checkVote rfl hcall rfl rfl
  | countRefused => exact .ran (.idle rfl) rfl
  | countGranted | sendJob | receive =>
      refine Turn.of_update (.ran ?_ (by rfl)) t
      exact .idle rfl
  | promotePanic hcall hphase hresumes hrun =>
      obtain rfl := Raft.heartBeatLauncher_panic hrun
      refine Turn.of_update (.ran ?_ (by rfl)) t
      exact .promote rfl hcall hphase hresumes rfl rfl
  | promote hcall hphase hresumes hrun =>
      obtain ⟨rfl, _⟩ := Raft.heartBeatLauncher_done hrun
      refine Turn.of_update (.ran ?_ (by rfl)) t
      exact .promote rfl hcall hphase hresumes rfl rfl
  | finishVote hcall hphase =>
      refine Turn.of_update (.ran ?_ (by rfl)) t
      exact .finishVote rfl hcall hphase rfl rfl
  | appendPanic hcall _ _ hrun | append hcall _ _ hrun =>
      refine Turn.of_update (.ran ?_ (by rfl)) t
      exact .append rfl hcall rfl (by rw [hrun]; rfl)
  | replyAppendPanic hcall hphase hresumes hrun
  | replyAppend hcall hphase hresumes hrun
  | replyAppendSnap hcall hphase hresumes hrun =>
      refine Turn.of_update (.ran ?_ (by rfl)) t
      exact .replyAppend rfl hcall hphase hresumes rfl (by rw [hrun]; rfl)
  | snapPanic hcall _ _ hrun | snapRefused hcall _ _ hrun
  | snap hcall _ _ hrun =>
      refine Turn.of_update (.ran ?_ (by rfl)) t
      exact .snap rfl hcall rfl (by rw [hrun]; rfl)
  | replySnapPanic hcall hphase _ hrun | replySnap hcall hphase _ hrun =>
      refine Turn.of_update (.ran ?_ (by rfl)) t
      exact .replySnap rfl hcall hphase rfl (by rw [hrun]; rfl)
  | start =>
      refine Turn.of_update (.ran ?_ (by rfl)) t
      exact .start rfl rfl
  | snapshotPanic _ hrun | snapshot _ hrun =>
      refine Turn.of_update (.ran ?_ (by rfl)) t
      exact .snapshot rfl (by rw [hrun]; rfl)
  | applyPanic _ hcommit _ hrun | apply _ hcommit _ hrun =>
      refine Turn.of_update (.ran ?_ (by rfl)) t
      exact .apply rfl hcommit (by rw [hrun]; rfl)
  | restart => exact Turn.of_update (.restart rfl rfl) t

/-- What a step makes of server `t`: its `Raft` value goes through elementary
changes, or it is restarted. -/
inductive Evolves (σ : Cluster n Cmd) (a : Action Cmd n) (t : Fin n)
    (srv : Server n Cmd) : Prop
  | changes (hchanges : Changes (σ.inputs a t) (σ.server t).rf srv.rf)
      (hinc : srv.incarnation = (σ.server t).incarnation)
  | restart (haction : a = .restart t)
      (hboot : srv = boot t ((σ.server t).incarnation + 1)
        (σ.server t).rf.persister)

theorem Ran.changes {t : Fin n} {rf : Raft n Cmd} (h : Ran σ a t rf) :
    Changes (σ.inputs a t) (σ.server t).rf rf := by
  cases h with
  | idle hrf => rw [hrf]
  | elect _ hstate hrf =>
      rw [hrf]
      exact .single (.elect hstate)
  | vote haction hcall hpeer hrf =>
      rw [hrf]
      exact Raft.requestVoteHandler_changes _ _
        ⟨_, _, haction, hcall, hpeer, rfl⟩
  | checkVote _ _ _ hrf =>
      rw [hrf]
      exact Raft.checkVoteReply_changes _ _ _
  | promote haction hcall hphase hresumes hcaller hrf =>
      rw [hrf]
      exact .single (.lead
        ⟨_, _, _, haction, hcall, hphase, hresumes, hcaller, rfl, rfl⟩)
  | finishVote _ _ _ _ hrf =>
      rw [hrf]
      exact Raft.finishVoteReply_changes _ _ _
  | append haction hcall hpeer hrf =>
      rw [hrf]
      exact Raft.heartbeatHandler_changes _ _
        ⟨_, _, haction, hcall, hpeer, rfl⟩
  | replyAppend haction hcall hphase hresumes hcaller hrf =>
      rw [hrf]
      exact Raft.sendHeartbeat_changes _ _ _ _ _ fun hsuccess ↦
        ⟨_, _, _, haction, hcall, hphase, hsuccess, hresumes, hcaller, rfl,
          rfl⟩
  | snap haction hcall hpeer hrf =>
      rw [hrf]
      exact Raft.installSnapshot_changes _ _
        ⟨_, _, haction, hcall, hpeer, rfl⟩
  | replySnap _ _ _ _ hrf =>
      rw [hrf]
      exact Raft.sendSnapshot_changes _ _ _ _ _
  | start haction hrf =>
      rw [hrf]
      exact Raft.start_changes _ _ _ fun hstate ↦ ⟨haction, hstate, rfl⟩
  | snapshot haction hrf =>
      rw [hrf]
      exact Raft.snapshot_changes _ _ _ _ haction
  | apply haction hcommit hrf =>
      rw [hrf]
      exact Raft.applyGoroutine_changes _ _ haction hcommit

theorem Transition.evolves (h : Transition σ a σ') (t : Fin n) :
    Evolves σ a t (σ'.server t) := by
  cases h.turn t with
  | ran hran hinc => exact .changes hran.changes hinc
  | restart haction hboot => exact .restart haction hboot

/-- A restarted server is in a later incarnation. -/
theorem incarnation_ne_of_boot {t : Fin n} {persister : Persister n Cmd}
    (hboot : σ'.server t = boot t ((σ.server t).incarnation + 1) persister) :
    (σ'.server t).incarnation ≠ (σ.server t).incarnation := by
  rw [hboot]
  exact Nat.succ_ne_self _

/-- The term of a server does not go back before a crash. -/
theorem Transition.currentTerm_le (h : Transition σ a σ') {t : Fin n}
    (hinc : (σ'.server t).incarnation = (σ.server t).incarnation) :
    (σ.server t).rf.currentTerm ≤ (σ'.server t).rf.currentTerm := by
  cases h.evolves t with
  | changes hchanges => exact hchanges.currentTerm_le
  | restart _ hboot => exact absurd hinc (incarnation_ne_of_boot hboot)

/-! ## Where a section leaves its server -/

theorem Transition.elect_rf {s : Fin n} (h : Transition σ (.elect s) σ') :
    (σ'.server s).rf = (σ.server s).rf.electLauncher.rf := by
  cases h with
  | electPanic _ _ hrun | elect _ _ hrun => simp [hrun]

theorem Transition.vote_rf {k : ℕ} (h : Transition σ (.deliverVote k) σ')
    {call : VoteCall n} (hcall : σ.voteCalls[k]? = some call) :
    (σ'.server call.peer).rf =
      ((σ.server call.peer).rf.requestVoteHandler call.args).rf := by
  cases h with
  | votePanic hcall' _ _ hrun | vote hcall' _ _ hrun =>
      obtain rfl := Option.some.inj (hcall.symm.trans hcall')
      simp [hrun]

theorem Transition.append_rf {k : ℕ} (h : Transition σ (.deliverAppend k) σ')
    {call : AppendCall n Cmd} (hcall : σ.appendCalls[k]? = some call) :
    (σ'.server call.peer).rf =
      ((σ.server call.peer).rf.heartbeatHandler call.args).rf := by
  cases h with
  | appendPanic hcall' _ _ hrun | append hcall' _ _ hrun =>
      obtain rfl := Option.some.inj (hcall.symm.trans hcall')
      simp [hrun]

theorem Transition.replyAppend_rf {k : ℕ}
    (h : Transition σ (.replyAppend k) σ') {call : AppendCall n Cmd}
    {reply : AppendEntriesReply} (hcall : σ.appendCalls[k]? = some call)
    (hphase : call.phase = .replied reply) :
    (σ'.server call.caller).rf =
      ((σ.server call.caller).rf.sendHeartbeat call.peer call.args
        reply).rf := by
  cases h with
  | replyAppendPanic hcall' hphase' _ hrun | replyAppend hcall' hphase' _ hrun
  | replyAppendSnap hcall' hphase' _ hrun =>
      obtain rfl := Option.some.inj (hcall.symm.trans hcall')
      cases hphase.symm.trans hphase'
      simp [hrun]

theorem Transition.start_rf {s : Fin n} {command : Cmd}
    (h : Transition σ (.start s command) σ') :
    (σ'.server s).rf = ((σ.server s).rf.start command).1 := by
  cases h with
  | start => simp

theorem Transition.snap_rf {k : ℕ} (h : Transition σ (.deliverSnap k) σ')
    {call : SnapCall n} (hcall : σ.snapCalls[k]? = some call) :
    (σ'.server call.peer).rf =
      ((σ.server call.peer).rf.installSnapshot call.args).rf := by
  cases h with
  | snapPanic hcall' _ _ hrun | snapRefused hcall' _ _ hrun
  | snap hcall' _ _ hrun =>
      obtain rfl := Option.some.inj (hcall.symm.trans hcall')
      simp [hrun]

theorem Transition.snapshot_rf {s : Fin n} {index : ℤ} {data : Bytes}
    (h : Transition σ (.snapshot s index data) σ') :
    (σ'.server s).rf = ((σ.server s).rf.snapshot index data).rf := by
  cases h with
  | snapshotPanic _ hrun | snapshot _ hrun => simp [hrun]

end Cluster

end DistLabs
