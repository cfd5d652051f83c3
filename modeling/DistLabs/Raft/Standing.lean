import DistLabs.Raft.Persistence

/-!
# Term, vote and role of a server

Seven sections raise the term of a server.  Those that execute a vote request
or a snapshot clear the vote, an election replaces it, and the other four keep
the vote of the old term.  Exactly one section takes the role of a leader away
without raising the term: the term check of `SendRequestVote`, when the reply
belongs to an earlier election.
-/

namespace DistLabs

variable {n : ℕ} {Cmd : Type}

/-- What a server says of itself: its term, its vote and its role. -/
@[ext]
structure Standing (n : ℕ) where
  term : ℕ
  vote : Option (Fin n)
  state : ServerState

/-- A later term is taken over and the vote is cleared. -/
def Standing.follow (st : Standing n) (T : ℕ) : Standing n :=
  if st.term < T then { term := T, vote := none, state := .follower } else st

/-- A later term is taken over and the vote is kept. -/
def Standing.raise (st : Standing n) (T : ℕ) : Standing n :=
  if st.term < T then { term := T, vote := st.vote, state := .follower }
  else st

namespace Standing

variable (st : Standing n) {T : ℕ}

theorem raise_of_le (h : T ≤ st.term) : st.raise T = st :=
  if_neg (not_lt.mpr h)

theorem follow_of_le (h : T ≤ st.term) : st.follow T = st :=
  if_neg (not_lt.mpr h)

theorem raise_of_lt (h : st.term < T) :
    st.raise T = { term := T, vote := st.vote, state := .follower } :=
  if_pos h

theorem follow_of_lt (h : st.term < T) :
    st.follow T = { term := T, vote := none, state := .follower } :=
  if_pos h

theorem raise_cases (T : ℕ) :
    st.raise T = st ∨ st.term < (st.raise T).term := by
  rcases lt_or_ge st.term T with hlt | hle
  · right
    rwa [st.raise_of_lt hlt]
  · exact Or.inl (st.raise_of_le hle)

theorem follow_cases (T : ℕ) :
    st.follow T = st ∨ st.term < (st.follow T).term := by
  rcases lt_or_ge st.term T with hlt | hle
  · right
    rwa [st.follow_of_lt hlt]
  · exact Or.inl (st.follow_of_le hle)

end Standing

namespace Raft

/-! ## What the sections do to it -/

def standing (rf : Raft n Cmd) : Standing n where
  term := rf.currentTerm
  vote := rf.votedFor
  state := rf.state

theorem electLauncher_standing (rf : Raft n Cmd) :
    rf.electLauncher.rf.standing =
      { term := rf.currentTerm + 1
        vote := some rf.me
        state := rf.state } := by
  rw [electLauncher_rf]
  rfl

theorem followCandidate_standing (rf : Raft n Cmd) (term : ℕ) :
    (rf.followCandidate term).standing = rf.standing.follow term := by
  unfold followCandidate
  split
  · next hlt => exact (rf.standing.follow_of_lt hlt).symm
  · next hle => exact (rf.standing.follow_of_le (not_lt.mp hle)).symm

theorem followInstaller_standing (rf : Raft n Cmd) (term : ℕ) :
    (rf.followInstaller term).standing = rf.standing.follow term := by
  unfold followInstaller
  split
  · next hlt => exact (rf.standing.follow_of_lt hlt).symm
  · next hle => exact (rf.standing.follow_of_le (not_lt.mp hle)).symm

theorem followLeader_standing (rf : Raft n Cmd) (term : ℕ) :
    (rf.followLeader term).standing = rf.standing.raise term := by
  unfold followLeader
  split
  · next hlt => exact (rf.standing.raise_of_lt hlt).symm
  · next hle => exact (rf.standing.raise_of_le (not_lt.mp hle)).symm

theorem finishVoteReply_standing (rf : Raft n Cmd)
    (reply : RequestVoteReply) :
    (rf.finishVoteReply reply).standing =
      if reply.voteGranted then rf.standing
      else rf.standing.raise reply.term := by
  unfold finishVoteReply
  cases hgranted : reply.voteGranted with
  | true => simp
  | false =>
      simp only [Bool.not_false, true_and]
      split
      · next hlt => exact (rf.standing.raise_of_lt hlt).symm
      · next hle => exact (rf.standing.raise_of_le (not_lt.mp hle)).symm

theorem recordSuccess_standing (rf : Raft n Cmd) (peer : Fin n)
    (args : AppendEntriesArgs n Cmd) :
    (rf.recordSuccess peer args).rf.standing = rf.standing := by
  rcases rf.recordSuccess_cases peer args with
    h | h | ⟨N, count, _, _, _, _, h⟩
  · rw [h]
  · rw [h]
    rfl
  · rw [h]
    rfl

theorem sendHeartbeat_standing (rf : Raft n Cmd) (peer : Fin n)
    (args : AppendEntriesArgs n Cmd) (reply : AppendEntriesReply) :
    (rf.sendHeartbeat peer args reply).rf.standing =
      if rf.currentTerm = args.term then rf.standing.raise reply.term
      else rf.standing := by
  unfold sendHeartbeat
  by_cases hterm : rf.currentTerm = args.term
  · rw [if_neg (not_not.mpr hterm), if_pos hterm]
    split
    · next hlt =>
        have hraise : rf.currentTerm < reply.term := by omega
        rw [if_pos hraise]
        exact (rf.standing.raise_of_lt hraise).symm
    · next hle =>
        rw [rf.standing.raise_of_le
          (show reply.term ≤ rf.currentTerm by omega)]
        split
        · have hsuccess := rf.recordSuccess_standing peer args
          split <;> next heq => rwa [heq] at hsuccess
        · obtain ⟨next, hnext⟩ := rf.backUp_rf peer reply
          rw [hnext]
          rfl
  · rw [if_pos hterm, if_neg hterm]
    rfl

theorem sendSnapshot_standing (rf : Raft n Cmd) (peer : Fin n)
    (args : SnapshotArgs n) (reply : SnapshotRelpay) :
    (rf.sendSnapshot peer args reply).rf.standing =
      if rf.currentTerm = args.term then rf.standing.raise reply.term
      else rf.standing := by
  unfold sendSnapshot
  by_cases hterm : rf.currentTerm = args.term
  · rw [if_neg (not_not.mpr hterm), if_pos hterm]
    by_cases hlt : reply.term > rf.currentTerm
    · rw [if_pos hlt, rf.standing.raise_of_lt hlt]
      dsimp only
      split <;> rfl
    · rw [if_neg hlt, rf.standing.raise_of_le (not_lt.mp hlt)]
      dsimp only
      split <;> rfl
  · rw [if_pos hterm, if_neg hterm]
    rfl

theorem stamped_standing (rf : Raft n Cmd) (k : ℤ) :
    (rf.stamped k).standing = rf.standing := by
  unfold stamped
  split <;> rfl

theorem accept_standing (rf : Raft n Cmd) (k leaderCommit : ℤ)
    (entries : List (LogEntry Cmd)) :
    ((rf.appendLog k entries).advanceCommit leaderCommit).standing =
      rf.standing := by
  unfold advanceCommit appendLog
  split <;> split <;> rfl

theorem heartbeatHandler_standing (rf : Raft n Cmd)
    (args : AppendEntriesArgs n Cmd) :
    (rf.heartbeatHandler args).rf.standing =
      rf.standing.raise args.term := by
  rw [← followLeader_standing]
  rcases rf.heartbeatHandler_cases args with
    ⟨reply, _, h⟩ | h | ⟨rf₁, entry, k, rfl, _, _, _, _, hcase⟩
  · rw [h]
    rfl
  · rw [h]
    rfl
  · rcases hcase with ⟨_, reply, _, h⟩ | ⟨_, reply, _, h⟩
    · rw [h]
      exact stamped_standing _ k
    · rw [h, Outcome.rf_done, accept_standing, stamped_standing]

theorem installSnapshot_standing [Zero Cmd] (rf : Raft n Cmd)
    (args : SnapshotArgs n) :
    (rf.installSnapshot args).rf.standing =
      rf.standing.follow args.term := by
  rcases rf.installSnapshot_cases args with
    ⟨hlt, h⟩ | ⟨_, ⟨_, h⟩ | ⟨log, _, h⟩⟩
  · rw [h, rf.standing.follow_of_le (le_of_lt hlt)]
    rfl
  · rw [h, ← followInstaller_standing]
    rfl
  · rw [h, ← followInstaller_standing]
    rfl

theorem start_standing (rf : Raft n Cmd) (command : Cmd) :
    (rf.start command).1.standing = rf.standing := by
  rcases rf.start_cases command with h | ⟨_, h⟩
  · rw [h]
  · rw [h]
    rfl

theorem snapshot_standing (rf : Raft n Cmd) (index : ℤ) (data : Bytes) :
    (rf.snapshot index data).rf.standing = rf.standing := by
  rcases rf.snapshot_cases index data with h | ⟨entry, _, h⟩
  · rw [h]
    rfl
  · rw [h]
    rfl

theorem applyGoroutine_standing (rf : Raft n Cmd) :
    rf.applyGoroutine.rf.standing = rf.standing := by
  rw [applyGoroutine_rf]
  rfl

end Raft

namespace Cluster

/-! ## What the steps do to it -/

variable [Zero Cmd] {σ σ' : Cluster n Cmd} {a : Action Cmd n}

omit [Zero Cmd] in
/-- Server `t` learns of term `T` in a section that would keep its vote: from
an AppendEntries request, or from the reply to one of its own calls. -/
inductive Learns (σ : Cluster n Cmd) (t : Fin n) (T : ℕ) :
    Action Cmd n → Prop
  | append {k : ℕ} {call : AppendCall n Cmd}
      (hcall : σ.appendCalls[k]? = some call) (hpeer : call.peer = t)
      (hterm : call.args.term = T) : Learns σ t T (.deliverAppend k)
  | voteReply {k : ℕ} {call : VoteCall n} {reply : RequestVoteReply}
      (hcall : σ.voteCalls[k]? = some call)
      (hphase : call.phase = .counted reply) (hcaller : call.caller = t)
      (hrefused : reply.voteGranted = false) (hterm : reply.term = T) :
      Learns σ t T (.finishVote k)
  | appendReply {k : ℕ} {call : AppendCall n Cmd}
      {reply : AppendEntriesReply} (hcall : σ.appendCalls[k]? = some call)
      (hphase : call.phase = .replied reply) (hcaller : call.caller = t)
      (hcurrent : (σ.server t).rf.currentTerm = call.args.term)
      (hterm : reply.term = T) : Learns σ t T (.replyAppend k)
  | snapReply {k : ℕ} {call : SnapCall n} {reply : SnapshotRelpay}
      (hcall : σ.snapCalls[k]? = some call)
      (hphase : call.phase = .replied reply) (hcaller : call.caller = t)
      (hcurrent : (σ.server t).rf.currentTerm = call.args.term)
      (hterm : reply.term = T) : Learns σ t T (.replySnap k)

/-- How the standing of server `t` changes in a step. -/
inductive Moves (σ : Cluster n Cmd) (a : Action Cmd n) (σ' : Cluster n Cmd)
    (t : Fin n) : Standing n → Prop
  | stay : Moves σ a σ' t (σ.server t).rf.standing
  | elect (hstate : (σ.server t).rf.state = .follower)
      (hvoted : Event.voted t ((σ.server t).rf.currentTerm + 1) t ∈
        σ'.events) :
      Moves σ a σ' t
        { term := (σ.server t).rf.currentTerm + 1
          vote := some t
          state := (σ.server t).rf.state }
  | follow (T : ℕ) : Moves σ a σ' t ((σ.server t).rf.standing.follow T)
  | grant {T : ℕ} {c : Fin n} (hterm : (σ.server t).rf.currentTerm ≤ T)
      (hvoted : Event.voted t T c ∈ σ'.events) :
      Moves σ a σ' t
        { (σ.server t).rf.standing.follow T with vote := some c }
  | demote {k : ℕ} {call : VoteCall n} (haction : a = .checkVote k)
      (hcall : σ.voteCalls[k]? = some call) (hcaller : call.caller = t)
      (hne : (σ.server t).rf.currentTerm ≠ call.args.term) :
      Moves σ a σ' t { (σ.server t).rf.standing with state := .follower }
  | lead :
      Moves σ a σ' t { (σ.server t).rf.standing with state := .leader }
  | raise {T : ℕ} (hlearns : σ.Learns t T a) :
      Moves σ a σ' t ((σ.server t).rf.standing.raise T)
  | restart
      (hboot : σ'.server t = boot t ((σ.server t).incarnation + 1)
        (σ.server t).rf.persister) :
      Moves σ a σ' t (Raft.make t (σ.server t).rf.persister).standing

theorem Transition.elect_recorded {s : Fin n}
    (h : Transition σ (.elect s) σ') (hord : Ordered σ) :
    Event.voted s ((σ.server s).rf.currentTerm + 1) s ∈ σ'.events := by
  cases h with
  | electPanic _ _ hrun =>
      obtain ⟨rf', args, hdone⟩ := (hord.servers s).electLauncher_done
      simp [hdone] at hrun
  | elect _ _ hrun =>
      obtain ⟨_, last, _, rfl⟩ := Raft.electLauncher_done hrun
      simp

theorem Transition.vote_recorded {k : ℕ} {call : VoteCall n}
    {rf : Raft n Cmd} {reply : RequestVoteReply}
    (h : Transition σ (.deliverVote k) σ')
    (hcall : σ.voteCalls[k]? = some call)
    (hrun : (σ.server call.peer).rf.requestVoteHandler call.args =
      .done rf reply) (hgranted : reply.voteGranted = true) :
    Event.voted call.peer call.args.term call.args.candidateId ∈
      σ'.events := by
  cases h with
  | votePanic hcall' _ _ hrun' =>
      obtain rfl := Option.some.inj (hcall.symm.trans hcall')
      simp [hrun] at hrun'
  | vote hcall' _ _ hrun' =>
      obtain rfl := Option.some.inj (hcall.symm.trans hcall')
      obtain ⟨rfl, rfl⟩ := Outcome.done.inj (hrun.symm.trans hrun')
      simp [hgranted]

theorem Moves.of_vote {k : ℕ} {call : VoteCall n}
    (h : Transition σ (.deliverVote k) σ') (hord : Ordered σ)
    (hcall : σ.voteCalls[k]? = some call) :
    Moves σ (.deliverVote k) σ' call.peer
      ((σ.server call.peer).rf.requestVoteHandler call.args).rf.standing := by
  have hfollow := (σ.server call.peer).rf.followCandidate_currentTerm
    call.args.term
  rcases (σ.server call.peer).rf.requestVoteHandler_cases call.args with
    hrun | hrun | ⟨last, hgrants, hrun⟩
  · obtain ⟨rf, reply, hdone⟩ :=
      (hord.servers call.peer).requestVoteHandler_done call.args
    simp [hdone] at hrun
  · rw [hrun, Outcome.rf, Raft.followCandidate_standing]
    exact .follow _
  · have hterm := hgrants.term
    have hstanding : (Raft.persist
        { (σ.server call.peer).rf.followCandidate call.args.term with
          votedFor := some call.args.candidateId }).standing =
        { (σ.server call.peer).rf.standing.follow call.args.term with
          vote := some call.args.candidateId } := by
      rw [← Raft.followCandidate_standing]
      rfl
    have hvoted := h.vote_recorded hcall hrun rfl
    rw [hrun, Outcome.rf, hstanding]
    exact .grant (by omega) hvoted

theorem Transition.moves (h : Transition σ a σ')
    (hord : Ordered σ) (hme : ∀ s, (σ.server s).rf.me = s) (t : Fin n) :
    Moves σ a σ' t (σ'.server t).rf.standing := by
  cases h.turn t with
  | restart _ hboot =>
      have hmoves : Moves σ a σ' t _ := .restart hboot
      rw [hboot]
      exact hmoves
  | ran hran =>
      cases hran with
      | idle hrf =>
          rw [hrf]
          exact .stay
      | elect haction hstate hrf =>
          subst haction
          rw [hrf, Raft.electLauncher_standing, hme t]
          exact .elect hstate (h.elect_recorded hord)
      | vote haction hcall hpeer hrf =>
          subst haction hpeer
          rw [hrf]
          exact .of_vote h hord hcall
      | checkVote haction hcall hcaller hrf =>
          rw [hrf, Raft.checkVoteReply]
          split
          · next hne => exact .demote haction hcall hcaller hne
          · exact .stay
      | promote _ _ _ _ _ hrf =>
          rw [hrf]
          exact .lead
      | finishVote haction hcall hphase hcaller hrf =>
          rw [hrf, Raft.finishVoteReply_standing]
          split
          · exact .stay
          · next hrefused =>
              subst haction
              exact .raise (.voteReply hcall hphase hcaller
                (by simpa using hrefused) rfl)
      | append haction hcall hpeer hrf =>
          subst haction
          rw [hrf, Raft.heartbeatHandler_standing]
          exact .raise (.append hcall hpeer rfl)
      | replyAppend haction hcall hphase _ hcaller hrf =>
          rw [hrf, Raft.sendHeartbeat_standing]
          split
          · next hcurrent =>
              subst haction
              exact .raise (.appendReply hcall hphase hcaller hcurrent rfl)
          · exact .stay
      | snap _ _ _ hrf =>
          rw [hrf, Raft.installSnapshot_standing]
          exact .follow _
      | replySnap haction hcall hphase hcaller hrf =>
          rw [hrf, Raft.sendSnapshot_standing]
          split
          · next hcurrent =>
              subst haction
              exact .raise (.snapReply hcall hphase hcaller hcurrent rfl)
          · exact .stay
      | start _ hrf =>
          rw [hrf, Raft.start_standing]
          exact .stay
      | snapshot _ hrf =>
          rw [hrf, Raft.snapshot_standing]
          exact .stay
      | apply _ _ hrf =>
          rw [hrf, Raft.applyGoroutine_standing]
          exact .stay

end Cluster

/-! ## Votes of the current term -/

/-- The reply of a call that is about to be looked at for its term. -/
def VotePhase.countedReply : VotePhase → Option RequestVoteReply
  | .counted reply => some reply
  | _ => none

/-- The reply of a call whose handler has returned. -/
def CallPhase.reply {R : Type} : CallPhase R → Option R
  | .replied reply => some reply
  | _ => none

/-- A server that has voted in its term is not taken to a later term `T`. -/
def Raft.UnvotedBelow (rf : Raft n Cmd) (T : ℕ) : Prop :=
  rf.currentTerm < T → rf.votedFor = none

instance (rf : Raft n Cmd) (T : ℕ) : Decidable (rf.UnvotedBelow T) :=
  inferInstanceAs (Decidable (_ → _))

namespace Cluster

/-- A server that has voted in its term learns of a later term only from a
candidate or from a snapshot. -/
def RaisesUnvoted (σ : Cluster n Cmd) : Action Cmd n → Prop
  | .deliverAppend k => ∀ call ∈ σ.appendCalls[k]?,
      (σ.server call.peer).rf.UnvotedBelow call.args.term
  | .finishVote k => ∀ call ∈ σ.voteCalls[k]?,
      ∀ reply ∈ call.phase.countedReply, reply.voteGranted = false →
        (σ.server call.caller).rf.UnvotedBelow reply.term
  | .replyAppend k => ∀ call ∈ σ.appendCalls[k]?,
      ∀ reply ∈ call.phase.reply,
        (σ.server call.caller).rf.currentTerm = call.args.term →
          (σ.server call.caller).rf.UnvotedBelow reply.term
  | .replySnap k => ∀ call ∈ σ.snapCalls[k]?, ∀ reply ∈ call.phase.reply,
      (σ.server call.caller).rf.currentTerm = call.args.term →
        (σ.server call.caller).rf.UnvotedBelow reply.term
  | _ => True

instance (σ : Cluster n Cmd) (a : Action Cmd n) :
    Decidable (σ.RaisesUnvoted a) := by
  induction a using Action.casesOn <;> dsimp only [RaisesUnvoted] <;>
    infer_instance

theorem RaisesUnvoted.unvotedBelow {σ : Cluster n Cmd} {a : Action Cmd n}
    (h : σ.RaisesUnvoted a) {t : Fin n} {T : ℕ} (hlearns : σ.Learns t T a) :
    (σ.server t).rf.UnvotedBelow T := by
  cases hlearns with
  | append hcall hpeer hterm =>
      subst hpeer hterm
      exact h _ hcall
  | voteReply hcall hphase hcaller hrefused hterm =>
      subst hcaller hterm
      exact h _ hcall _ (by rw [hphase]; rfl) hrefused
  | appendReply hcall hphase hcaller hcurrent hterm =>
      subst hcaller hterm
      exact h _ hcall _ (by rw [hphase]; rfl) hcurrent
  | snapReply hcall hphase hcaller hcurrent hterm =>
      subst hcaller hterm
      exact h _ hcall _ (by rw [hphase]; rfl) hcurrent

variable [Zero Cmd] {σ σ' : Cluster n Cmd} {a : Action Cmd n}

/-- The vote of every server, in memory and in its persister, was cast in the
term that stands beside it. -/
structure VotesCurrent (σ : Cluster n Cmd) : Prop where
  memory : ∀ s c, (σ.server s).rf.votedFor = some c →
    Event.voted s (σ.server s).rf.currentTerm c ∈ σ.events
  saved : ∀ s c, (σ.server s).rf.persister.durable.votedFor = some c →
    Event.voted s (σ.server s).rf.persister.durable.currentTerm c ∈ σ.events

theorem votesCurrent_init : VotesCurrent (init : Cluster n Cmd) where
  memory := by
    intro s c hvote
    cases hvote
  saved := by
    intro s c hvote
    cases hvote

theorem VotesCurrent.memory_step (h : VotesCurrent σ)
    (hok : σ.RaisesUnvoted a) (htrans : Transition σ a σ') {s : Fin n}
    {st : Standing n} (hmoves : Moves σ a σ' s st) {c : Fin n}
    (hvote : st.vote = some c) : Event.voted s st.term c ∈ σ'.events := by
  have hold : ∀ d, (σ.server s).rf.votedFor = some d →
      Event.voted s (σ.server s).rf.currentTerm d ∈ σ'.events :=
    fun d hd ↦ htrans.events_grow.subset (h.memory s d hd)
  cases hmoves with
  | stay | demote | lead => exact hold c hvote
  | elect _ hvoted =>
      obtain rfl := Option.some.inj hvote
      exact hvoted
  | follow T =>
      rcases lt_or_ge (σ.server s).rf.currentTerm T with hlt | hle
      · rw [Standing.follow_of_lt _ hlt] at hvote
        cases hvote
      · rw [Standing.follow_of_le _ hle] at hvote ⊢
        exact hold c hvote
  | @grant T d hterm hvoted =>
      obtain rfl := Option.some.inj hvote
      have hT : ((σ.server s).rf.standing.follow T).term = T := by
        rcases hterm.lt_or_eq with hlt | heq
        · rw [Standing.follow_of_lt _ hlt]
        · rw [Standing.follow_of_le _ heq.ge]
          exact heq
      dsimp only
      rwa [hT]
  | @raise T hlearns =>
      rcases lt_or_ge (σ.server s).rf.currentTerm T with hlt | hle
      · have hnone := hok.unvotedBelow hlearns hlt
        rw [Standing.raise_of_lt _ hlt] at hvote
        simp [Raft.standing, hnone] at hvote
      · rw [Standing.raise_of_le _ hle] at hvote ⊢
        exact hold c hvote
  | restart =>
      have hdurable := Raft.make_durable s (σ.server s).rf.persister
      have hsaved := h.saved s c
        ((congrArg Durable.votedFor hdurable).symm.trans hvote)
      have hterm := congrArg Durable.currentTerm hdurable
      rw [← hterm] at hsaved
      exact htrans.events_grow.subset hsaved

theorem VotesCurrent.step (h : VotesCurrent σ) (hord : Ordered σ)
    (hme : ∀ s, (σ.server s).rf.me = s) (hok : σ.RaisesUnvoted a)
    (hstep : σ.step a = some σ') : VotesCurrent σ' := by
  have htrans := step_transition hstep
  have hmemory : ∀ s c, (σ'.server s).rf.votedFor = some c →
      Event.voted s (σ'.server s).rf.currentTerm c ∈ σ'.events :=
    fun s c hvote ↦ h.memory_step hok htrans (htrans.moves hord hme s) hvote
  have hold : ∀ s c, (σ.server s).rf.persister.durable.votedFor = some c →
      Event.voted s (σ.server s).rf.persister.durable.currentTerm c ∈
        σ'.events :=
    fun s c hvote ↦ htrans.events_grow.subset (h.saved s c hvote)
  refine ⟨hmemory, ?_⟩
  intro s
  cases htrans.storeStep hord s with
  | stores hstores =>
      rcases hstores with ⟨_, hpersister⟩ | hsaved
      · rw [hpersister]
        exact hold s
      · rw [hsaved]
        exact hmemory s
  | refused _ _ _ hlt _ hrf =>
      rw [hrf, Raft.followCandidate_of_lt hlt]
      exact hold s
  | restart _ hrf =>
      rw [hrf, Raft.make_persister]
      exact hold s

theorem votesCurrent_of_run {visited : List (Cluster n Cmd)}
    (hrun : Run step RaisesUnvoted init visited σ) : VotesCurrent σ := by
  have hinv : Ballots σ ∧ Ordered σ ∧ VotesCurrent σ := by
    refine hrun.invariant (I := fun σ ↦ Ballots σ ∧ Ordered σ ∧
      VotesCurrent σ) ⟨ballots_init, ordered_init, votesCurrent_init⟩ ?_
    rintro σ σ' a ⟨hballots, hord, hvotes⟩ hok hstep
    exact ⟨hballots.step hstep, hord.step hstep,
      hvotes.step hord hballots.me hok hstep⟩
  exact hinv.2.2

/-- In every run in which a server that has voted learns of later terms only
from candidates and snapshots, every vote in memory was cast in the current
term, and a server that has not voted in its term grants its vote to every
candidate of that term with a recent log. -/
theorem vote_of_current_term {visited : List (Cluster n Cmd)}
    (hrun : Run step RaisesUnvoted init visited σ) (s : Fin n) :
    (∀ c, (σ.server s).rf.votedFor = some c →
      Event.voted s (σ.server s).rf.currentTerm c ∈ σ.events) ∧
    ∀ args, args.term = (σ.server s).rf.currentTerm →
      (∀ c, Event.voted s args.term c ∉ σ.events) →
      (σ.server s).rf.UpToDate args →
      ∃ rf reply, (σ.server s).rf.requestVoteHandler args = .done rf reply ∧
        reply.voteGranted = true := by
  have hvotes := votesCurrent_of_run hrun
  refine ⟨hvotes.memory s, ?_⟩
  intro args hterm hunvoted hrecent
  have hfree : (σ.server s).rf.votedFor = none := by
    cases hvote : (σ.server s).rf.votedFor with
    | none => rfl
    | some c =>
        have hvoted := hvotes.memory s c hvote
        rw [← hterm] at hvoted
        exact absurd hvoted (hunvoted c)
  obtain ⟨last, hgrants⟩ := Raft.grants_of_upToDate
    ((ordered_of_run hrun).servers s) hterm.ge (fun _ ↦ Or.inl hfree) hrecent
  exact ⟨_, _, Raft.requestVoteHandler_grants hgrants, rfl⟩

/-- Server 1 votes for server 0, and server 2 learns of term 1 from the first
heartbeat. -/
def unvotedRun : List (Action ℕ 3) :=
  winning 0 0 ++ [.deliverAppend 1]

/-- The vote of server 1 is of its term, and server 2 would grant its own. -/
theorem vote_of_current_term_learnt :
    ∃ (visited : List (Cluster 3 ℕ)) (σ : Cluster 3 ℕ),
      Run step RaisesUnvoted init visited σ ∧
      ((σ.server 1).rf.votedFor = some 0 ∧
        (σ.server 2).rf.currentTerm = 1) ∧
      Event.voted 1 (σ.server 1).rf.currentTerm 0 ∈ σ.events ∧
      ∃ rf reply, (σ.server 2).rf.requestVoteHandler
          { term := 1, candidateId := 0, lastLogIndex := 0,
            lastLogTerm := 0 } = .done rf reply ∧
        reply.voteGranted = true := by
  obtain ⟨visited, σ, hrun, hvote, hterm, hunvoted, hrecent⟩ :=
    Run.exists_of_exec step RaisesUnvoted init unvotedRun
      (fun σ : Cluster 3 ℕ ↦ (σ.server 1).rf.votedFor = some 0 ∧
        (σ.server 2).rf.currentTerm = 1 ∧
        (∀ c, Event.voted 2 1 c ∉ σ.events) ∧
        (σ.server 2).rf.UpToDate
          { term := 1, candidateId := 0, lastLogIndex := 0,
            lastLogTerm := 0 }) (by decide +kernel)
  exact ⟨visited, σ, hrun, ⟨hvote, hterm⟩,
    (vote_of_current_term hrun 1).1 0 hvote,
    (vote_of_current_term hrun 2).2 _ hterm.symm hunvoted hrecent⟩

/-- Server 0 leads term 2, and its heartbeat reaches server 1, which has voted
for itself in term 1, before its vote request does. -/
def overtakenVoteRun : List (Action ℕ 3) :=
  [.elect 1, .elect 0] ++ winning 0 5 ++ [.deliverAppend 0]

/-- Server 0 learns of term 2 from the refusal of server 1. -/
def refusedVoteRun : List (Action ℕ 3) :=
  [.elect 0, .elect 1, .elect 1, .deliverVote 0, .checkVote 0, .countVote 0,
    .finishVote 0]

/-- Server 0, the leader of term 1, learns of term 2 from the reply of server 2
to its first heartbeat. -/
def refusedAppendRun : List (Action ℕ 3) :=
  winning 0 0 ++ [.elect 2, .elect 2, .deliverAppend 1, .replyAppend 1]

/-- Server 0, the leader of term 1, learns of term 2 from the reply of server 2
to its snapshot. -/
def refusedSnapRun : List (Action ℕ 3) :=
  winning 0 0 ++ [.start 0 5, .heartbeat 0, .deliverAppend 2, .replyAppend 2,
    .apply 0, .receive 0 0, .snapshot 0 1 [1], .heartbeat 0, .sendJob 0 0,
    .elect 2, .elect 2, .deliverSnap 0, .replySnap 0]

/-- Each of the four ways to learn of a later term can leave a server with the
vote of the old one.  Server 1 then refuses the candidate of term 2 although
its log is recent and it has not voted in that term. -/
theorem vote_of_old_term :
    (∃ (visited : List (Cluster 3 ℕ)) (σ : Cluster 3 ℕ),
      Run step (fun _ _ ↦ True) init visited σ ∧
      (σ.server 1).rf.votedFor = some 1 ∧
      (σ.server 1).rf.currentTerm = 2 ∧
      (∀ c, Event.voted 1 2 c ∉ σ.events) ∧
      (∀ call ∈ σ.voteCalls[4]?, call.peer = 1 ∧ call.args.term = 2 ∧
        (σ.server 1).rf.UpToDate call.args) ∧
      ∃ σ' ∈ σ.step (.deliverVote 4), ∀ call ∈ σ'.voteCalls[4]?,
        call.phase = .replied { term := 2, voteGranted := false }) ∧
    (∃ (visited : List (Cluster 3 ℕ)) (σ : Cluster 3 ℕ),
      Run step (fun _ _ ↦ True) init visited σ ∧
      (σ.server 0).rf.votedFor = some 0 ∧
      (σ.server 0).rf.currentTerm = 2 ∧
      ∀ c, Event.voted 0 2 c ∉ σ.events) ∧
    (∃ (visited : List (Cluster 3 ℕ)) (σ : Cluster 3 ℕ),
      Run step (fun _ _ ↦ True) init visited σ ∧
      (σ.server 0).rf.votedFor = some 0 ∧
      (σ.server 0).rf.currentTerm = 2 ∧
      ∀ c, Event.voted 0 2 c ∉ σ.events) ∧
    ∃ (visited : List (Cluster 3 ℕ)) (σ : Cluster 3 ℕ),
      Run step (fun _ _ ↦ True) init visited σ ∧
      (σ.server 0).rf.votedFor = some 0 ∧
      (σ.server 0).rf.currentTerm = 2 ∧
      ∀ c, Event.voted 0 2 c ∉ σ.events := by
  have hstale : ∀ acts : List (Action ℕ 3),
      ((exec step (fun _ _ ↦ True) init acts).any fun σ : Cluster 3 ℕ ↦
        decide ((σ.server 0).rf.votedFor = some 0 ∧
          (σ.server 0).rf.currentTerm = 2 ∧
          ∀ c, Event.voted 0 2 c ∉ σ.events)) = true →
      ∃ (visited : List (Cluster 3 ℕ)) (σ : Cluster 3 ℕ),
        Run step (fun _ _ ↦ True) init visited σ ∧
        (σ.server 0).rf.votedFor = some 0 ∧
        (σ.server 0).rf.currentTerm = 2 ∧
        ∀ c, Event.voted 0 2 c ∉ σ.events :=
    fun acts hexec ↦ Run.exists_of_exec step (fun _ _ ↦ True) init acts
      (fun σ : Cluster 3 ℕ ↦ (σ.server 0).rf.votedFor = some 0 ∧
        (σ.server 0).rf.currentTerm = 2 ∧
        ∀ c, Event.voted 0 2 c ∉ σ.events) hexec
  refine ⟨?_, hstale refusedVoteRun (by decide +kernel),
    hstale refusedAppendRun (by decide +kernel),
    hstale refusedSnapRun (by decide +kernel)⟩
  exact Run.exists_of_exec step (fun _ _ ↦ True) init overtakenVoteRun
    (fun σ : Cluster 3 ℕ ↦ (σ.server 1).rf.votedFor = some 1 ∧
      (σ.server 1).rf.currentTerm = 2 ∧
      (∀ c, Event.voted 1 2 c ∉ σ.events) ∧
      (∀ call ∈ σ.voteCalls[4]?, call.peer = 1 ∧ call.args.term = 2 ∧
        (σ.server 1).rf.UpToDate call.args) ∧
      ∃ σ' ∈ σ.step (.deliverVote 4), ∀ call ∈ σ'.voteCalls[4]?,
        call.phase = .replied { term := 2, voteGranted := false })
    (by decide +kernel)

/-! ## Leaders that step down -/

omit [Zero Cmd] in
/-- A leader looks only at vote replies of its own term. -/
def ChecksOwnTerm (σ : Cluster n Cmd) : Action Cmd n → Prop
  | .checkVote k => ∀ call ∈ σ.voteCalls[k]?,
      (σ.server call.caller).rf.state = .leader →
        (σ.server call.caller).rf.currentTerm = call.args.term
  | _ => True

omit [Zero Cmd] in
instance (σ : Cluster n Cmd) (a : Action Cmd n) :
    Decidable (σ.ChecksOwnTerm a) := by
  induction a using Action.casesOn <;> dsimp only [ChecksOwnTerm] <;>
    infer_instance

/-- A step that is no crash keeps a leader in its term or raises the term. -/
theorem Moves.leader {t : Fin n} {st : Standing n}
    (h : Moves σ a σ' t st) (hok : σ.ChecksOwnTerm a)
    (hinc : (σ'.server t).incarnation = (σ.server t).incarnation)
    (hleader : (σ.server t).rf.state = .leader) :
    (st.state = .leader ∧ st.term = (σ.server t).rf.currentTerm) ∨
      (σ.server t).rf.currentTerm < st.term := by
  cases h with
  | stay => exact Or.inl ⟨hleader, rfl⟩
  | lead => exact Or.inl ⟨rfl, rfl⟩
  | elect hstate =>
      rw [hleader] at hstate
      cases hstate
  | follow T =>
      rcases Standing.follow_cases (σ.server t).rf.standing T with heq | hlt
      · rw [heq]
        exact Or.inl ⟨hleader, rfl⟩
      · exact Or.inr hlt
  | @grant T =>
      rcases Standing.follow_cases (σ.server t).rf.standing T with heq | hlt
      · rw [heq]
        exact Or.inl ⟨hleader, rfl⟩
      · exact Or.inr hlt
  | @raise T =>
      rcases Standing.raise_cases (σ.server t).rf.standing T with heq | hlt
      · rw [heq]
        exact Or.inl ⟨hleader, rfl⟩
      · exact Or.inr hlt
  | demote haction hcall hcaller hne =>
      subst haction hcaller
      exact absurd (hok _ hcall hleader) hne
  | restart hboot => exact absurd hinc (incarnation_ne_of_boot hboot)

/-- In every run in which leaders look only at vote replies of their own term,
a server that was a leader of some term and has not crashed since is still a
leader of that term or has gone on to a later one. -/
theorem leader_until_higher_term {visited : List (Cluster n Cmd)}
    (hrun : Run step ChecksOwnTerm init visited σ) {σ₁ : Cluster n Cmd}
    (hσ₁ : σ₁ ∈ visited) (s : Fin n)
    (hleader : (σ₁.server s).rf.state = .leader)
    (hinc : (σ.server s).incarnation = (σ₁.server s).incarnation) :
    ((σ.server s).rf.state = .leader ∧
      (σ.server s).rf.currentTerm = (σ₁.server s).rf.currentTerm) ∨
    (σ₁.server s).rf.currentTerm < (σ.server s).rf.currentTerm := by
  have hle : ∀ {visited : List (Cluster n Cmd)} {σ : Cluster n Cmd},
      Run step ChecksOwnTerm init visited σ → σ₁ ∈ visited →
        (σ₁.server s).incarnation ≤ (σ.server s).incarnation :=
    fun hrun hmem ↦ hrun.of_mem_visited_mono
      (P := fun τ ↦ (σ₁.server s).incarnation ≤ (τ.server s).incarnation)
      (fun hle hstep ↦
        le_trans hle ((step_transition hstep).incarnation_le s)) hmem le_rfl
  induction hrun with
  | start =>
      obtain rfl := List.mem_singleton.mp hσ₁
      exact Or.inl ⟨hleader, rfl⟩
  | @next _ τ τ' a hprev hok hstep ih =>
      rcases List.mem_cons.mp hσ₁ with rfl | hold
      · exact Or.inl ⟨hleader, rfl⟩
      · have htrans := step_transition hstep
        have hfirst := hle hprev hold
        have hlast := htrans.incarnation_le s
        rcases ih hold (by omega) with ⟨hstill, hterm⟩ | hlt
        · have hmoves := htrans.moves (ordered_of_run hprev)
            (ballots_of_run hprev).me s
          rcases hmoves.leader hok (by omega) hstill with
            ⟨hstate, hsame⟩ | hlt
          · exact Or.inl ⟨hstate, hsame.trans hterm⟩
          · exact Or.inr (hterm ▸ hlt)
        · exact Or.inr
            (lt_of_lt_of_le hlt (htrans.currentTerm_le (by omega)))

/-- Server 0 leads term 1 when the vote of server 2 arrives. -/
def lateVoteRun : List (Action ℕ 3) :=
  [.elect 0, .deliverVote 0, .deliverVote 1, .checkVote 0, .countVote 0,
    .promote 0]

/-- The late vote of its own term leaves server 0 a leader. -/
theorem leader_until_higher_term_voted :
    ∃ (visited : List (Cluster 3 ℕ)) (σ₁ σ : Cluster 3 ℕ),
      Run step ChecksOwnTerm init visited σ ∧ σ₁ ∈ visited ∧
      σ₁.step (.checkVote 1) = some σ ∧
      (σ₁.server 0).rf.state = .leader ∧
      (((σ.server 0).rf.state = .leader ∧
        (σ.server 0).rf.currentTerm = (σ₁.server 0).rf.currentTerm) ∨
      (σ₁.server 0).rf.currentTerm < (σ.server 0).rf.currentTerm) := by
  obtain ⟨visited, σ₁, hrun, hok, hleader, σ, hstep, hinc⟩ :=
    Run.exists_of_exec step ChecksOwnTerm init lateVoteRun
      (fun σ₁ : Cluster 3 ℕ ↦ σ₁.ChecksOwnTerm (.checkVote 1) ∧
        (σ₁.server 0).rf.state = .leader ∧
        ∃ σ ∈ σ₁.step (.checkVote 1),
          (σ.server 0).incarnation = (σ₁.server 0).incarnation)
      (by decide +kernel)
  have hmem : σ₁ ∈ σ :: visited := List.mem_cons_of_mem _ hrun.mem_visited
  have hrun' := hrun.next hok hstep
  exact ⟨_, σ₁, σ, hrun', hmem, hstep, hleader,
    leader_until_higher_term hrun' hmem 0 hleader hinc⟩

/-- Server 0 leads term 2 when the vote of server 2 in term 1 arrives. -/
def staleVoteRun : List (Action ℕ 3) :=
  [.elect 0, .deliverVote 1] ++ winning 0 2

/-- The late vote of an earlier term makes server 0 a follower in its own
term. -/
theorem leader_demoted :
    ∃ (visited : List (Cluster 3 ℕ)) (σ : Cluster 3 ℕ),
      Run step (fun _ _ ↦ True) init visited σ ∧
      ∃ σ' ∈ σ.step (.checkVote 1),
        ((σ.server 0).rf.state = .leader ∧
          (σ.server 0).rf.currentTerm = 2) ∧
        (σ'.server 0).rf.state = .follower ∧
          (σ'.server 0).rf.currentTerm = 2 := by
  exact Run.exists_of_exec step (fun _ _ ↦ True) init staleVoteRun
    (fun σ : Cluster 3 ℕ ↦ ∃ σ' ∈ σ.step (.checkVote 1),
      ((σ.server 0).rf.state = .leader ∧
        (σ.server 0).rf.currentTerm = 2) ∧
      (σ'.server 0).rf.state = .follower ∧
        (σ'.server 0).rf.currentTerm = 2) (by decide +kernel)

end Cluster

end DistLabs
