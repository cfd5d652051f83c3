import Mathlib.Logic.Relation
import DistLabs.Raft.Server

/-!
# What a section can do to its server

One lemma per section says in which states it can end.  Every section is a
sequence of a few elementary changes, listed in `Change`; invariants of a
single server are proved for the elementary changes only.
-/

namespace DistLabs

variable {n : ℕ} {Cmd : Type}

/-- The `Raft` value in which a section ends, by returning or by a panic. -/
def Outcome.rf {α : Type} : Outcome n Cmd α → Raft n Cmd
  | .done rf _ => rf
  | .panic rf => rf

@[simp] theorem Outcome.rf_done {α : Type} (rf : Raft n Cmd) (value : α) :
    (Outcome.done rf value).rf = rf := rfl

@[simp] theorem Outcome.rf_panic {α : Type} (rf : Raft n Cmd) :
    (Outcome.panic rf : Outcome n Cmd α).rf = rf := rfl

namespace Raft

variable {rf rf' : Raft n Cmd}

/-! ## Make -/

/-- A server that `Make` sets up without reading its persister. -/
def fresh [Zero Cmd] (me : Fin n) (persister : Persister n Cmd) :
    Raft n Cmd :=
  { make me ⟨none, []⟩ with persister := persister }

/-- A server that `Make` sets up from the state `saved` of its persister. -/
def restored [Zero Cmd] (me : Fin n) (persister : Persister n Cmd)
    (saved : RaftState n Cmd) : Raft n Cmd :=
  { fresh me persister with
    currentTerm := saved.currentTerm
    votedFor := saved.votedFor
    log := saved.log
    logLength := saved.log.length + saved.lastIncludedIndex
    lastIncludedIndex := saved.lastIncludedIndex
    lastIncludedTerm := saved.lastIncludedTerm
    snapshotData := persister.snapshot }

theorem make_cases [Zero Cmd] (me : Fin n) (persister : Persister n Cmd) :
    (persister.raftstate = none ∧ make me persister = fresh me persister) ∨
    ∃ saved, persister.raftstate = some saved ∧
      make me persister = restored me persister saved := by
  obtain ⟨raftstate, snapshot⟩ := persister
  cases raftstate with
  | none => exact Or.inl ⟨rfl, rfl⟩
  | some saved =>
      refine Or.inr ⟨saved, rfl, ?_⟩
      unfold make readPersist
      dsimp only
      split
      · next hempty =>
          subst hempty
          rfl
      · rfl

/-- `readPersist` leaves the identity, the persister and everything volatile as
`Make` has set them. -/
theorem make_volatile [Zero Cmd] (me : Fin n) (persister : Persister n Cmd) :
    (make me persister).me = me ∧
    (make me persister).persister = persister ∧
    (make me persister).state = .follower ∧
    (make me persister).nextIndex = [] ∧
    (make me persister).matchIndex = [] := by
  rcases make_cases me persister with ⟨_, hmake⟩ | ⟨saved, _, hmake⟩ <;>
    rw [hmake] <;> exact ⟨rfl, rfl, rfl, rfl, rfl⟩

/-! ## Elections -/

theorem electLauncher_rf (rf : Raft n Cmd) :
    rf.electLauncher.rf =
      persist
        { rf with
          currentTerm := rf.currentTerm + 1
          votedFor := some rf.me } := by
  unfold electLauncher
  dsimp only
  split <;> rfl

theorem electLauncher_done {args : RequestVoteArgs n}
    (h : rf.electLauncher = .done rf' args) :
    rf' = rf.electLauncher.rf ∧ ∃ last,
      elemAt rf.log (rf.v2pIndex rf.logLength - 1) = some last ∧
      args =
        { term := rf.currentTerm + 1
          candidateId := rf.me
          lastLogIndex := rf.logLength - 1
          lastLogTerm := last.logTerm } := by
  refine ⟨by rw [h]; rfl, ?_⟩
  unfold electLauncher at h
  dsimp only at h
  split at h
  · cases h
  · next last hlast =>
      cases h
      exact ⟨last, hlast, rfl⟩

theorem followCandidate_currentTerm (rf : Raft n Cmd) (term : ℕ) :
    (rf.followCandidate term).currentTerm = max rf.currentTerm term := by
  unfold followCandidate
  split
  · next hlt => exact (max_eq_right (le_of_lt hlt)).symm
  · next hle => exact (max_eq_left (not_lt.mp hle)).symm

theorem followCandidate_of_le {term : ℕ} (h : term ≤ rf.currentTerm) :
    rf.followCandidate term = rf :=
  if_neg (not_lt.mpr h)

/-- The conditions under which a vote is granted by a server that has taken
over the candidate's term. -/
structure Grants (rf : Raft n Cmd) (args : RequestVoteArgs n)
    (last : LogEntry Cmd) : Prop where
  term : rf.currentTerm = args.term
  free : rf.votedFor = none ∨ rf.votedFor = some args.candidateId
  lastEntry : elemAt rf.log (rf.v2pIndex rf.logLength - 1) = some last
  recent : args.lastLogTerm > last.logTerm ∨
    (args.lastLogTerm = last.logTerm ∧
      args.lastLogIndex ≥ rf.logLength - 1)

theorem vote_eq {term : ℕ} {vote : Option (Fin n)}
    (h : rf.currentTerm = term) :
    { rf with currentTerm := term, votedFor := vote } =
      { rf with votedFor := vote } := by
  subst h
  rfl

/-- `RequestVoteHandler` refuses or grants after taking over the term.  The
term of a refused request is never saved. -/
theorem requestVoteHandler_cases (rf : Raft n Cmd)
    (args : RequestVoteArgs n) :
    rf.requestVoteHandler args = .panic (rf.followCandidate args.term) ∨
    rf.requestVoteHandler args =
      .done (rf.followCandidate args.term) ⟨rf.currentTerm, false⟩ ∨
    ∃ last, Grants (rf.followCandidate args.term) args last ∧
      rf.requestVoteHandler args =
        .done
          (persist
            { rf.followCandidate args.term with
              votedFor := some args.candidateId })
          ⟨rf.currentTerm, true⟩ := by
  have hterm := followCandidate_currentTerm rf args.term
  unfold requestVoteHandler
  dsimp only
  split
  · exact Or.inl rfl
  · next last hlast =>
      right
      cases hgrant : (rf.followCandidate args.term).grantsVote args last with
      | false =>
          left
          have hnot : ¬ (rf.followCandidate args.term).currentTerm <
              args.term := by omega
          simp [hnot]
      | true =>
          right
          simp only [grantsVote, Bool.and_eq_true, Bool.or_eq_true,
            Bool.not_eq_true', decide_eq_true_eq, decide_eq_false_iff_not,
            Bool.and_eq_false_iff] at hgrant
          obtain ⟨⟨hle, hfree⟩, hrecent⟩ := hgrant
          have heq : (rf.followCandidate args.term).currentTerm =
              args.term := by omega
          refine ⟨last, ⟨heq, ?_, hlast, hrecent⟩, ?_⟩
          · rcases hfree with hnone | hsome
            · exact Or.inl (not_not.mp hnone)
            · exact Or.inr (not_not.mp hsome)
          · simp only [if_true, true_or, vote_eq heq]

theorem requestVoteHandler_grants {args : RequestVoteArgs n}
    {last : LogEntry Cmd}
    (h : Grants (rf.followCandidate args.term) args last) :
    rf.requestVoteHandler args =
      .done
        (persist
          { rf.followCandidate args.term with
            votedFor := some args.candidateId })
        ⟨rf.currentTerm, true⟩ := by
  have hgrant : (rf.followCandidate args.term).grantsVote args last =
      true := by
    simp only [grantsVote, Bool.and_eq_true, Bool.or_eq_true, Bool.not_eq_true',
      Bool.and_eq_false_iff, decide_eq_true_eq, decide_eq_false_iff_not,
      ne_eq, not_not]
    exact ⟨⟨not_lt.mpr (le_of_eq h.term), h.free⟩, h.recent⟩
  unfold requestVoteHandler
  simp only [h.lastEntry, hgrant, if_true, true_or, vote_eq h.term]

theorem finishVoteReply_cases (rf : Raft n Cmd) (reply : RequestVoteReply) :
    rf.finishVoteReply reply = rf ∨
    (rf.currentTerm < reply.term ∧
      rf.finishVoteReply reply =
        persist
          { rf with currentTerm := reply.term, state := .follower }) := by
  unfold finishVoteReply
  split
  · next hif => exact Or.inr ⟨hif.2, rfl⟩
  · exact Or.inl rfl

/-! ## The sender of heartbeats and snapshots -/

theorem heartBeatLauncher_done {out : List (Outgoing n Cmd)}
    (h : rf.heartBeatLauncher = .done rf' out) :
    rf' = rf ∧ out = (others rf.me).filterMap rf.prepare := by
  unfold heartBeatLauncher at h
  split at h
  · cases h
    exact ⟨rfl, rfl⟩
  · cases h

theorem heartBeatLauncher_panic (h : rf.heartBeatLauncher = .panic rf') :
    rf' = rf := by
  unfold heartBeatLauncher at h
  split at h
  · cases h
  · cases h
    rfl

theorem mem_others {me i : Fin n} : i ∈ others me ↔ i ≠ me := by
  simp [others]

/-- An AppendEntries request describes the log after its previous index. -/
theorem prepare_append {i j : Fin n} {args : AppendEntriesArgs n Cmd}
    (h : rf.prepare i = some (.appendEntries j args)) :
    j = i ∧ ∃ next prev, rf.nextIndex[i.val]? = some next ∧
      0 ≤ rf.v2pIndex next - 1 ∧
      elemAt rf.log (rf.v2pIndex next - 1) = some prev ∧
      args =
        { term := rf.currentTerm
          leaderId := rf.me
          prevLogIndex := next - 1
          prevLogTerm := prev.logTerm
          entries :=
            if rf.logLength > next then
              rf.log.drop (rf.v2pIndex next).toNat
            else []
          leaderCommit := rf.commitIndex } := by
  unfold prepare at h
  split at h
  · cases h
  · next next hnext =>
      split at h
      · cases h
      · next hneg =>
          split at h
          · cases h
          · next prev hprev =>
              cases h
              exact ⟨rfl, next, prev, hnext, by omega, hprev, rfl⟩

theorem prepare_snapshot {i : Fin n} {job : SnapshotJob n}
    (h : rf.prepare i = some (.snapshot job)) :
    job =
      { peer := i
        term := rf.currentTerm
        leaderId := rf.me
        lastIncludedIndex := rf.lastIncludedIndex
        lastIncludedTerm := rf.lastIncludedTerm } := by
  unfold prepare at h
  split at h
  · cases h
  · split at h
    · cases h
      rfl
    · split at h
      · cases h
      · cases h

/-- The commit scan changes nothing, or it commits an index that it has
counted on a majority. -/
theorem commitScan_cases (rf : Raft n Cmd) (k : ℕ) :
    (rf.commitScan k).rf = rf ∨
    ∃ N count, rf.commitIndex < N ∧ N ≤ rf.commitIndex + k ∧
      rf.countReplicas N 0 rf.matchIndex = some count ∧ count > n / 2 ∧
      rf.commitScan k =
        .done
          { rf with
            commitIndex := N
            lastApplied := max rf.lastApplied rf.lastIncludedIndex }
          () := by
  induction k with
  | zero => exact Or.inl rfl
  | succ k ih =>
      unfold commitScan
      dsimp only
      split
      · exact Or.inl rfl
      · next count hcount =>
          split
          · next hmajority =>
              exact Or.inr ⟨_, count, by omega, by omega, hcount, hmajority,
                rfl⟩
          · rcases ih with hsame | ⟨N, c, hlow, hhigh, hrest⟩
            · exact Or.inl hsame
            · exact Or.inr ⟨N, c, hlow, by omega, hrest⟩

/-- Server `rf` after the reply to an accepted request is recorded. -/
def matched (rf : Raft n Cmd) (peer : Fin n)
    (args : AppendEntriesArgs n Cmd) : Raft n Cmd :=
  { rf with
    matchIndex :=
      rf.matchIndex.set peer (args.prevLogIndex + args.entries.length)
    nextIndex :=
      rf.nextIndex.set peer (args.prevLogIndex + args.entries.length + 1) }

theorem recordSuccess_cases (rf : Raft n Cmd) (peer : Fin n)
    (args : AppendEntriesArgs n Cmd) :
    (rf.recordSuccess peer args).rf = rf ∨
    (rf.recordSuccess peer args).rf = rf.matched peer args ∨
    ∃ N count, rf.commitIndex < N ∧ N ≤ rf.logLength - 1 ∧
      (rf.matched peer args).countReplicas N 0
        (rf.matched peer args).matchIndex = some count ∧
      count > n / 2 ∧
      (rf.recordSuccess peer args).rf =
        { rf.matched peer args with
          commitIndex := N
          lastApplied := max rf.lastApplied rf.lastIncludedIndex } := by
  unfold recordSuccess
  split
  · right
    dsimp only
    split
    · rcases commitScan_cases (rf.matched peer args)
          (rf.logLength - 1 - rf.commitIndex).toNat with
        hsame | ⟨N, count, hlow, hhigh, hcount, hmajority, heq⟩
      · exact Or.inl hsame
      · have hlow' : rf.commitIndex < N := hlow
        have hhigh' : N ≤ rf.commitIndex +
            (rf.logLength - 1 - rf.commitIndex).toNat := hhigh
        exact Or.inr ⟨N, count, hlow', by omega, hcount, hmajority,
          congrArg Outcome.rf heq⟩
    · exact Or.inl rfl
  · exact Or.inl rfl

/-- The snapshot request of server `rf` as it stands. -/
def snapshotArgs (rf : Raft n Cmd) : SnapshotArgs n where
  term := rf.currentTerm
  leaderId := rf.me
  lastIncludedIndex := rf.lastIncludedIndex
  lastIncludedTerm := rf.lastIncludedTerm
  snapdata := rf.snapshotData

theorem backUp_rf (rf : Raft n Cmd) (peer : Fin n)
    (reply : AppendEntriesReply) :
    ∃ next, (rf.backUp peer reply).rf = { rf with nextIndex := next } := by
  unfold backUp
  split
  · dsimp only
    split
    · exact ⟨_, rfl⟩
    · exact ⟨_, rfl⟩
  · exact ⟨rf.nextIndex, rfl⟩

theorem backUp_some {peer : Fin n} {reply : AppendEntriesReply}
    {args : SnapshotArgs n} (h : rf.backUp peer reply = .done rf' (some args)) :
    args = rf'.snapshotArgs ∧ ∃ next, rf'.nextIndex[peer.val]? = some next ∧
      next ≤ rf'.lastIncludedIndex := by
  unfold backUp at h
  split at h
  · next hlt =>
      dsimp only at h
      split at h
      · next hle =>
          cases h
          exact ⟨rfl, _, List.getElem?_set_self hlt, hle⟩
      · cases h
  · cases h

/-- `SendHeartbeat` ignores a reply of another term, gives up its leadership
to a higher term, records a success or backs up. -/
theorem sendHeartbeat_cases (rf : Raft n Cmd) (peer : Fin n)
    (args : AppendEntriesArgs n Cmd) (reply : AppendEntriesReply) :
    (rf.sendHeartbeat peer args reply).rf = rf ∨
    rf.currentTerm = args.term ∧
      (rf.currentTerm < reply.term ∧
        (rf.sendHeartbeat peer args reply).rf =
          persist { rf with currentTerm := reply.term, state := .follower } ∨
      reply.success = true ∧
        (rf.sendHeartbeat peer args reply).rf =
          (rf.recordSuccess peer args).rf ∨
      (rf.sendHeartbeat peer args reply).rf = (rf.backUp peer reply).rf) := by
  unfold sendHeartbeat
  split
  · exact Or.inl rfl
  · next hterm =>
      refine Or.inr ⟨not_not.mp hterm, ?_⟩
      split
      · next hlt =>
          have hraise : rf.currentTerm < reply.term := by omega
          left
          simp only [hraise, if_true]
          exact ⟨trivial, rfl⟩
      · right
        split
        · next hsuccess =>
            refine Or.inl ⟨hsuccess, ?_⟩
            split <;> next heq => rw [heq]; rfl
        · exact Or.inr rfl

/-- A failed check of the current term sets the next index back. -/
theorem sendHeartbeat_failed {peer : Fin n}
    {args : AppendEntriesArgs n Cmd} {reply : AppendEntriesReply}
    (hterm : rf.currentTerm = args.term) (hreply : reply.term ≤ args.term)
    (hfail : reply.success = false) (hpeer : peer.val < rf.nextIndex.length) :
    rf.sendHeartbeat peer args reply =
      .done
        { rf with
          nextIndex := rf.nextIndex.set peer (rf.backupIndex reply) }
        (if rf.backupIndex reply ≤ rf.lastIncludedIndex then
          some rf.snapshotArgs
        else none) := by
  unfold sendHeartbeat backUp snapshotArgs
  simp only [hterm, ne_eq, not_true_eq_false, if_false, not_lt.mpr hreply,
    hfail, Bool.false_eq_true, if_pos hpeer]
  split
  · rfl
  · rfl

/-- A snapshot that is sent at once describes the server as it stands, in the
term of the failed request. -/
theorem sendHeartbeat_some {peer : Fin n} {args : AppendEntriesArgs n Cmd}
    {reply : AppendEntriesReply} {snap : SnapshotArgs n}
    (h : rf.sendHeartbeat peer args reply = .done rf' (some snap)) :
    snap = rf'.snapshotArgs ∧ rf'.currentTerm = args.term ∧
      ∃ next, rf'.nextIndex[peer.val]? = some next ∧
        next ≤ rf'.lastIncludedIndex := by
  unfold sendHeartbeat at h
  split at h
  · cases h
  · next hterm =>
      split at h
      · cases h
      · split at h
        · split at h
          · cases h
          · cases h
        · obtain ⟨next, hframe⟩ := backUp_rf rf peer reply
          have hrf : rf' = { rf with nextIndex := next } := by
            rw [← hframe, h]
            rfl
          obtain ⟨hsnap, hcompacted⟩ := backUp_some h
          refine ⟨hsnap, ?_, hcompacted⟩
          rw [hrf]
          exact not_not.mp hterm

theorem sendSnapshot_cases (rf : Raft n Cmd) (peer : Fin n)
    (args : SnapshotArgs n) (reply : SnapshotRelpay) :
    ∃ next, (rf.sendSnapshot peer args reply).rf =
        { rf with nextIndex := next } ∨
      rf.currentTerm < reply.term ∧
        (rf.sendSnapshot peer args reply).rf =
          { persist
              { rf with
                currentTerm := reply.term
                state := .follower } with
            nextIndex := next } := by
  unfold sendSnapshot
  split
  · exact ⟨rf.nextIndex, Or.inl rfl⟩
  · dsimp only
    split
    · next hlt =>
        split
        · exact ⟨_, Or.inr ⟨hlt, rfl⟩⟩
        · exact ⟨rf.nextIndex, Or.inr ⟨hlt, rfl⟩⟩
    · split
      · exact ⟨_, Or.inl rfl⟩
      · exact ⟨rf.nextIndex, Or.inl rfl⟩

/-- The reply of a receiver that is not ahead sets the next index after the
snapshot. -/
theorem sendSnapshot_done {peer : Fin n} {args : SnapshotArgs n}
    {reply : SnapshotRelpay} (hterm : rf.currentTerm = args.term)
    (hreply : reply.term ≤ args.term)
    (hpeer : peer.val < rf.nextIndex.length) :
    rf.sendSnapshot peer args reply =
      .done
        { rf with
          nextIndex := rf.nextIndex.set peer (rf.lastIncludedIndex + 1) }
        () := by
  unfold sendSnapshot
  simp only [hterm, ne_eq, not_true_eq_false, if_false, not_lt.mpr hreply,
    if_pos hpeer]

/-! ## The receiver of heartbeats -/

theorem followLeader_currentTerm (rf : Raft n Cmd) (term : ℕ) :
    (rf.followLeader term).currentTerm = max rf.currentTerm term := by
  unfold followLeader
  split
  · next hlt => exact (max_eq_right (le_of_lt hlt)).symm
  · next hle => exact (max_eq_left (not_lt.mp hle)).symm

theorem followLeader_of_le {term : ℕ} (h : term ≤ rf.currentTerm) :
    rf.followLeader term = rf :=
  if_neg (not_lt.mpr h)

@[simp] theorem followLeader_log (rf : Raft n Cmd) (term : ℕ) :
    (rf.followLeader term).log = rf.log := by
  unfold followLeader
  split <;> rfl

@[simp] theorem followLeader_logLength (rf : Raft n Cmd) (term : ℕ) :
    (rf.followLeader term).logLength = rf.logLength := by
  unfold followLeader
  split <;> rfl

@[simp] theorem followLeader_lastIncludedIndex (rf : Raft n Cmd) (term : ℕ) :
    (rf.followLeader term).lastIncludedIndex = rf.lastIncludedIndex := by
  unfold followLeader
  split <;> rfl

@[simp] theorem followLeader_lastIncludedTerm (rf : Raft n Cmd) (term : ℕ) :
    (rf.followLeader term).lastIncludedTerm = rf.lastIncludedTerm := by
  unfold followLeader
  split <;> rfl

@[simp] theorem followLeader_commitIndex (rf : Raft n Cmd) (term : ℕ) :
    (rf.followLeader term).commitIndex = rf.commitIndex := by
  unfold followLeader
  split <;> rfl

@[simp] theorem followLeader_v2pIndex (rf : Raft n Cmd) (term : ℕ) (i : ℤ) :
    (rf.followLeader term).v2pIndex i = rf.v2pIndex i := by
  simp [v2pIndex]

/-- The term that the consistency check compares with. -/
def checkTerm (rf : Raft n Cmd) (tobeCheckIndex : ℤ)
    (entry : LogEntry Cmd) : ℕ :=
  if tobeCheckIndex = 0 then rf.lastIncludedTerm else entry.logTerm

/-- Server `rf` when the consistency check is made. -/
def stamped (rf : Raft n Cmd) (tobeCheckIndex : ℤ) : Raft n Cmd :=
  if tobeCheckIndex = 0 then rf.stampSentinel else rf

theorem checkConsistency_cases (rf : Raft n Cmd)
    (args : AppendEntriesArgs n Cmd) (reply : AppendEntriesReply) (k : ℤ)
    (entry : LogEntry Cmd) :
    (args.prevLogTerm ≠ rf.checkTerm k entry ∧
      (rf.checkConsistency args reply k entry).1 =
        (rf.stamped k).deleteConflict k ∧
      (rf.checkConsistency args reply k entry).2.success = reply.success) ∨
    (args.prevLogTerm = rf.checkTerm k entry ∧
      (rf.checkConsistency args reply k entry).1 =
        ((rf.stamped k).appendLog k args.entries).advanceCommit
          args.leaderCommit ∧
      (rf.checkConsistency args reply k entry).2.success = true) := by
  by_cases hne : args.prevLogTerm ≠ rf.checkTerm k entry
  · have hresult : rf.checkConsistency args reply k entry =
        ((rf.stamped k).deleteConflict k, _) := if_pos hne
    rw [hresult]
    exact Or.inl ⟨hne, rfl, rfl⟩
  · have hresult : rf.checkConsistency args reply k entry =
        (((rf.stamped k).appendLog k args.entries).advanceCommit
          args.leaderCommit, _) := if_neg hne
    rw [hresult]
    exact Or.inr ⟨not_not.mp hne, rfl, rfl⟩

/-! The branches of `HeartbeatHandler`, with the replies. -/

theorem heartbeatHandler_stale {args : AppendEntriesArgs n Cmd}
    (hterm : args.term < rf.currentTerm) :
    rf.heartbeatHandler args = .done rf ⟨rf.currentTerm, false, 0, 0, 0⟩ := by
  unfold heartbeatHandler
  rw [followLeader_of_le (le_of_lt hterm)]
  exact if_pos hterm

section Current

variable {args : AppendEntriesArgs n Cmd}
  (hterm : rf.currentTerm ≤ args.term)

include hterm

theorem not_lt_followLeader :
    ¬ args.term < (rf.followLeader args.term).currentTerm := by
  rw [followLeader_currentTerm, max_eq_right hterm]
  exact lt_irrefl _

theorem heartbeatHandler_beyond
    (hprev : args.prevLogIndex > rf.logLength - 1) :
    rf.heartbeatHandler args =
      .done (rf.followLeader args.term)
        ⟨rf.currentTerm, false, -1, rf.logLength, 0⟩ := by
  unfold heartbeatHandler
  simp only [not_lt_followLeader hterm, followLeader_logLength, hprev,
    if_false, if_true]

theorem heartbeatHandler_panic (hprev : args.prevLogIndex ≤ rf.logLength - 1)
    (hentry : elemAt rf.log (rf.v2pIndex args.prevLogIndex) = none) :
    rf.heartbeatHandler args = .panic (rf.followLeader args.term) := by
  unfold heartbeatHandler
  simp only [not_lt_followLeader hterm, followLeader_logLength,
    not_lt.mpr hprev, if_false, followLeader_log, followLeader_v2pIndex,
    hentry]

theorem heartbeatHandler_checked {entry : LogEntry Cmd}
    (hprev : args.prevLogIndex ≤ rf.logLength - 1)
    (hentry : elemAt rf.log (rf.v2pIndex args.prevLogIndex) = some entry) :
    rf.heartbeatHandler args =
      .done
        ((rf.followLeader args.term).checkConsistency args
          ⟨rf.currentTerm, false, 0, 0, 0⟩
          (rf.v2pIndex args.prevLogIndex) entry).1
        ((rf.followLeader args.term).checkConsistency args
          ⟨rf.currentTerm, false, 0, 0, 0⟩
          (rf.v2pIndex args.prevLogIndex) entry).2 := by
  unfold heartbeatHandler
  simp only [not_lt_followLeader hterm, followLeader_logLength,
    not_lt.mpr hprev, if_false, followLeader_log, followLeader_v2pIndex,
    hentry]

end Current

/-- `HeartbeatHandler` refuses a stale request or one beyond the log, panics on
one before it, deletes a conflict, or accepts. -/
theorem heartbeatHandler_cases (rf : Raft n Cmd)
    (args : AppendEntriesArgs n Cmd) :
    (∃ reply, reply.success = false ∧
      rf.heartbeatHandler args = .done (rf.followLeader args.term) reply) ∨
    rf.heartbeatHandler args = .panic (rf.followLeader args.term) ∨
    ∃ rf₁ entry k, rf₁ = rf.followLeader args.term ∧
      rf₁.currentTerm = args.term ∧
      k = rf₁.v2pIndex args.prevLogIndex ∧
      args.prevLogIndex ≤ rf₁.logLength - 1 ∧
      elemAt rf₁.log k = some entry ∧
      ((args.prevLogTerm ≠ rf₁.checkTerm k entry ∧
        ∃ reply, reply.success = false ∧
          rf.heartbeatHandler args =
            .done ((rf₁.stamped k).deleteConflict k) reply) ∨
      (args.prevLogTerm = rf₁.checkTerm k entry ∧
        ∃ reply, reply.success = true ∧
          rf.heartbeatHandler args =
            .done (((rf₁.stamped k).appendLog k args.entries).advanceCommit
              args.leaderCommit) reply)) := by
  have hterm := followLeader_currentTerm rf args.term
  unfold heartbeatHandler
  dsimp only
  split
  · exact Or.inl ⟨_, rfl, rfl⟩
  · next hstale =>
      split
      · exact Or.inl ⟨_, rfl, rfl⟩
      · next hprev =>
          split
          · exact Or.inr (Or.inl rfl)
          · next entry hentry =>
              refine Or.inr (Or.inr ⟨_, entry, _, rfl, by omega, rfl,
                by omega, hentry, ?_⟩)
              rcases checkConsistency_cases (rf.followLeader args.term) args
                  _ _ entry with ⟨hne, hrf, hreply⟩ | ⟨heq, hrf, hreply⟩
              · exact Or.inl ⟨hne, _, hreply, by rw [hrf]⟩
              · exact Or.inr ⟨heq, _, hreply, by rw [hrf]⟩

/-- The reply carries the term from before the request. -/
theorem heartbeatHandler_reply_term {args : AppendEntriesArgs n Cmd}
    {reply : AppendEntriesReply}
    (h : rf.heartbeatHandler args = .done rf' reply) :
    reply.term = rf.currentTerm := by
  unfold heartbeatHandler at h
  dsimp only at h
  split at h
  · cases h
    rfl
  · split at h
    · cases h
      rfl
    · split at h
      · cases h
      · cases h
        unfold checkConsistency
        dsimp only
        split <;> split <;> rfl

/-- A request of an old term is not accepted. -/
theorem heartbeatHandler_success_term {args : AppendEntriesArgs n Cmd}
    {reply : AppendEntriesReply}
    (h : rf.heartbeatHandler args = .done rf' reply)
    (hsuccess : reply.success = true) : rf.currentTerm ≤ args.term := by
  by_contra hlt
  rw [heartbeatHandler_stale (not_le.mp hlt)] at h
  cases h
  cases hsuccess

/-! What an accepted request leaves as it was. -/

section Accepted

variable (rf : Raft n Cmd) (k : ℤ) (entries : List (LogEntry Cmd))
  (leaderCommit : ℤ)

@[simp] theorem appendLog_currentTerm :
    (rf.appendLog k entries).currentTerm = rf.currentTerm := by
  unfold appendLog
  split <;> rfl

@[simp] theorem appendLog_lastIncludedIndex :
    (rf.appendLog k entries).lastIncludedIndex = rf.lastIncludedIndex := by
  unfold appendLog
  split <;> rfl

@[simp] theorem appendLog_lastIncludedTerm :
    (rf.appendLog k entries).lastIncludedTerm = rf.lastIncludedTerm := by
  unfold appendLog
  split <;> rfl

@[simp] theorem appendLog_commitIndex :
    (rf.appendLog k entries).commitIndex = rf.commitIndex := by
  unfold appendLog
  split <;> rfl

@[simp] theorem advanceCommit_log :
    (rf.advanceCommit leaderCommit).log = rf.log := by
  unfold advanceCommit
  split <;> rfl

@[simp] theorem advanceCommit_logLength :
    (rf.advanceCommit leaderCommit).logLength = rf.logLength := by
  unfold advanceCommit
  split <;> rfl

@[simp] theorem advanceCommit_currentTerm :
    (rf.advanceCommit leaderCommit).currentTerm = rf.currentTerm := by
  unfold advanceCommit
  split <;> rfl

@[simp] theorem advanceCommit_lastIncludedIndex :
    (rf.advanceCommit leaderCommit).lastIncludedIndex =
      rf.lastIncludedIndex := by
  unfold advanceCommit
  split <;> rfl

@[simp] theorem advanceCommit_lastIncludedTerm :
    (rf.advanceCommit leaderCommit).lastIncludedTerm =
      rf.lastIncludedTerm := by
  unfold advanceCommit
  split <;> rfl

theorem advanceCommit_commitIndex :
    (rf.advanceCommit leaderCommit).commitIndex =
      if leaderCommit > rf.commitIndex then
        min leaderCommit (rf.logLength - 1)
      else rf.commitIndex := by
  unfold advanceCommit
  split <;> rfl

end Accepted

theorem appendLog_log_of_ne {k : ℕ} {entries : List (LogEntry Cmd)}
    (hentries : entries ≠ []) :
    (rf.appendLog k entries).log = rf.log.take (k + 1) ++ entries := by
  unfold appendLog
  rw [if_pos (by simpa using hentries)]
  rfl

/-- The entries up to the one that was checked stay. -/
theorem elemAt_appendLog {k i : ℕ} (hk : k < rf.log.length) (hik : i ≤ k)
    (entries : List (LogEntry Cmd)) :
    elemAt (rf.appendLog k entries).log i = elemAt rf.log i := by
  unfold appendLog
  split
  · have hlt : i < (rf.log.take (k + 1)).length := by
      rw [List.length_take]
      omega
    simp only [persist, Int.toNat_natCast, elemAt_natCast]
    rw [List.getElem?_append_left hlt, List.getElem?_take_of_lt (by omega)]
  · rfl

/-- An accepted request ends inside the log. -/
theorem le_appendLog_logLength {k : ℕ} (hk : k < rf.log.length)
    (hle : k + rf.lastIncludedIndex ≤ rf.logLength - 1)
    (entries : List (LogEntry Cmd)) :
    k + rf.lastIncludedIndex + entries.length ≤
      (rf.appendLog k entries).logLength - 1 := by
  unfold appendLog
  split
  · simp only [persist, p2vIndex, Int.toNat_natCast, List.length_append,
      List.length_take]
    omega
  · next hempty =>
      rw [not_not.mp hempty]
      simpa using hle

/-- Server `rf` after it has accepted a request. -/
def accepted (rf : Raft n Cmd) (args : AppendEntriesArgs n Cmd) :
    Raft n Cmd :=
  ((rf.followLeader args.term).appendLog
    (rf.v2pIndex args.prevLogIndex) args.entries).advanceCommit
      args.leaderCommit

section Accepted

variable {args : AppendEntriesArgs n Cmd}

theorem accepted_currentTerm (hterm : rf.currentTerm ≤ args.term) :
    (rf.accepted args).currentTerm = args.term := by
  simp [accepted, followLeader_currentTerm, hterm]

@[simp] theorem accepted_lastIncludedIndex :
    (rf.accepted args).lastIncludedIndex = rf.lastIncludedIndex := by
  simp [accepted]

@[simp] theorem accepted_v2pIndex (i : ℤ) :
    (rf.accepted args).v2pIndex i = rf.v2pIndex i := by
  simp [v2pIndex]

variable {k : ℕ} (hk : rf.v2pIndex args.prevLogIndex = k)
  (hlt : k < rf.log.length)

include hk hlt

/-- An accepted request ends inside the log. -/
theorem le_accepted_logLength (hle : args.prevLogIndex ≤ rf.logLength - 1) :
    args.prevLogIndex + args.entries.length ≤
      (rf.accepted args).logLength - 1 := by
  have hlog : k < (rf.followLeader args.term).log.length := by
    rwa [followLeader_log]
  have hend : k + (rf.followLeader args.term).lastIncludedIndex ≤
      (rf.followLeader args.term).logLength - 1 := by
    unfold v2pIndex at hk
    simp only [followLeader_lastIncludedIndex, followLeader_logLength]
    omega
  have hlength := le_appendLog_logLength hlog hend args.entries
  unfold accepted
  rw [advanceCommit_logLength, hk]
  rw [followLeader_lastIncludedIndex] at hlength
  unfold v2pIndex at hk
  omega

/-- The entries up to the one that was checked are the old ones. -/
theorem accepted_old {N : ℤ} (hlow : rf.lastIncludedIndex ≤ N)
    (hN : N ≤ args.prevLogIndex) :
    elemAt (rf.accepted args).log (rf.v2pIndex N) =
      elemAt rf.log (rf.v2pIndex N) := by
  unfold v2pIndex at hk
  obtain ⟨i, hi⟩ : ∃ i : ℕ, rf.v2pIndex N = i :=
    ⟨(N - rf.lastIncludedIndex).toNat, by unfold v2pIndex; omega⟩
  have hik : i ≤ k := by
    unfold v2pIndex at hi
    omega
  unfold accepted
  rw [hi, advanceCommit_log, v2pIndex, hk,
    elemAt_appendLog (by simpa using hlt) hik, followLeader_log]

/-- The entries after it are those of the request. -/
theorem accepted_new {j : ℕ} (hj : j < args.entries.length) :
    elemAt (rf.accepted args).log
        (rf.v2pIndex (args.prevLogIndex + 1 + j)) =
      args.entries[j]? := by
  have hne : args.entries ≠ [] := by
    intro hempty
    rw [hempty] at hj
    exact absurd hj (Nat.not_lt_zero _)
  have htake : (rf.log.take (k + 1)).length = k + 1 := by
    rw [List.length_take]
    omega
  have hindex : rf.v2pIndex (args.prevLogIndex + 1 + j) =
      (k + 1 + j : ℕ) := by
    unfold v2pIndex at hk ⊢
    omega
  unfold accepted
  rw [hindex, hk, advanceCommit_log, elemAt_natCast,
    appendLog_log_of_ne hne, followLeader_log,
    List.getElem?_append_right (by omega), htake]
  congr 1
  omega

end Accepted

/-! ## The receiver of snapshots -/

theorem followInstaller_currentTerm (rf : Raft n Cmd) (term : ℕ) :
    (rf.followInstaller term).currentTerm = max rf.currentTerm term := by
  unfold followInstaller
  split
  · next hlt => exact (max_eq_right (le_of_lt hlt)).symm
  · next hle => exact (max_eq_left (not_lt.mp hle)).symm

theorem followInstaller_of_le {term : ℕ} (h : term ≤ rf.currentTerm) :
    rf.followInstaller term = rf :=
  if_neg (not_lt.mpr h)

/-- Server `rf` after the snapshot of a request is installed and `log`
remains. -/
def installed (rf : Raft n Cmd) (args : SnapshotArgs n)
    (log : List (LogEntry Cmd)) : Raft n Cmd :=
  persist
    { rf with
      log := log
      lastIncludedIndex := args.lastIncludedIndex
      lastIncludedTerm := args.lastIncludedTerm
      lastApplied := max rf.lastApplied args.lastIncludedIndex
      commitIndex := max rf.commitIndex args.lastIncludedIndex
      snapshotData := args.snapdata
      logLength := log.length + args.lastIncludedIndex }

/-- `InstallSnapshot` refuses a stale request, panics, or installs the snapshot
and has its message to send. -/
theorem installSnapshot_cases [Zero Cmd] (rf : Raft n Cmd)
    (args : SnapshotArgs n) :
    (args.term < rf.currentTerm ∧
      rf.installSnapshot args = .done rf (⟨rf.currentTerm⟩, none)) ∨
    rf.currentTerm ≤ args.term ∧
      ((rf.followInstaller args.term).remainingLog args = none ∧
        rf.installSnapshot args = .panic (rf.followInstaller args.term) ∨
      ∃ log, (rf.followInstaller args.term).remainingLog args = some log ∧
        rf.installSnapshot args =
          .done ((rf.followInstaller args.term).installed args log)
            (⟨rf.currentTerm⟩, some (.snapshot args.snapdata
              args.lastIncludedTerm args.lastIncludedIndex))) := by
  unfold installSnapshot
  dsimp only
  split
  · next hlt => exact Or.inl ⟨hlt, rfl⟩
  · next hle =>
      refine Or.inr ⟨by omega, ?_⟩
      split
      · next hnone => exact Or.inl ⟨hnone, rfl⟩
      · next log hlog => exact Or.inr ⟨log, hlog, rfl⟩

/-- The remaining log is the part of the old log from the snapshot's index on,
or only a sentinel. -/
theorem remainingLog_cases [Zero Cmd] {args : SnapshotArgs n}
    {log : List (LogEntry Cmd)} (h : rf.remainingLog args = some log) :
    (∃ entry, rf.lastIncludedIndex ≤ args.lastIncludedIndex ∧
      args.lastIncludedIndex ≤ rf.logLength - 1 ∧
      elemAt rf.log (rf.v2pIndex args.lastIncludedIndex) = some entry ∧
      entry.logTerm = args.lastIncludedTerm ∧
      log = rf.log.drop (rf.v2pIndex args.lastIncludedIndex).toNat) ∨
    (log = [⟨args.lastIncludedTerm, 0⟩] ∧
      ∀ entry, rf.lastIncludedIndex ≤ args.lastIncludedIndex →
        args.lastIncludedIndex ≤ rf.logLength - 1 →
        elemAt rf.log (rf.v2pIndex args.lastIncludedIndex) = some entry →
        entry.logTerm ≠ args.lastIncludedTerm) := by
  unfold remainingLog at h
  split at h
  · next hif =>
      split at h
      · cases h
      · next entry hentry =>
          split at h
          · next hterm =>
              cases h
              exact Or.inl ⟨entry, hif.1, hif.2, hentry, hterm, rfl⟩
          · next hterm =>
              cases h
              refine Or.inr ⟨rfl, fun entry' _ _ hentry' ↦ ?_⟩
              obtain rfl : entry = entry' :=
                Option.some.inj (hentry.symm.trans hentry')
              exact hterm
  · next hif =>
      cases h
      exact Or.inr ⟨rfl, fun _ hlow hhigh _ ↦ absurd ⟨hlow, hhigh⟩ hif⟩

/-- The log that remains starts with the entry of the snapshot. -/
theorem remainingLog_head [Zero Cmd] {args : SnapshotArgs n}
    {log : List (LogEntry Cmd)} (h : rf.remainingLog args = some log) :
    ∃ entry rest, log = entry :: rest ∧
      entry.logTerm = args.lastIncludedTerm := by
  rcases remainingLog_cases h with ⟨entry, _, _, hentry, hterm, rfl⟩ | ⟨rfl, _⟩
  · obtain ⟨k, hk, hget⟩ := elemAt_eq_some_iff.mp hentry
    obtain ⟨hlt, rfl⟩ := List.getElem?_eq_some_iff.mp hget
    rw [hk, Int.toNat_natCast, List.drop_eq_getElem_cons hlt]
    exact ⟨_, _, rfl, hterm⟩
  · exact ⟨_, _, rfl, rfl⟩

/-! ## The service -/

theorem applyGoroutine_rf (rf : Raft n Cmd) :
    rf.applyGoroutine.rf = { rf with lastApplied := rf.lastApplied + 1 } := by
  unfold applyGoroutine
  dsimp only
  split <;> rfl

theorem applyGoroutine_done {msg : ApplyMsg Cmd}
    (h : rf.applyGoroutine = .done rf' msg) :
    ∃ entry,
      elemAt rf.log (rf.v2pIndex (rf.lastApplied + 1)) = some entry ∧
      msg = .command entry.command (rf.lastApplied + 1) := by
  unfold applyGoroutine at h
  dsimp only at h
  split at h
  · cases h
  · next entry hentry =>
      cases h
      exact ⟨entry, hentry, rfl⟩

/-- Server `rf` after a snapshot of its service, whose last covered entry is
`entry`. -/
def compacted (rf : Raft n Cmd) (index : ℤ) (data : Bytes)
    (entry : LogEntry Cmd) : Raft n Cmd :=
  persist
    { rf with
      lastIncludedTerm := entry.logTerm
      log := rf.log.drop (rf.v2pIndex index).toNat
      lastIncludedIndex := index
      logLength := (rf.log.drop (rf.v2pIndex index).toNat).length + index
      snapshotData := data }

theorem snapshot_cases (rf : Raft n Cmd) (index : ℤ) (data : Bytes) :
    rf.snapshot index data = .panic rf ∨
    ∃ entry, elemAt rf.log (rf.v2pIndex index) = some entry ∧
      rf.snapshot index data = .done (rf.compacted index data entry) () := by
  unfold snapshot
  split
  · exact Or.inl rfl
  · next entry hentry => exact Or.inr ⟨entry, hentry, rfl⟩

/-- The leader `rf` after a new command. -/
def extended (rf : Raft n Cmd) (command : Cmd) : Raft n Cmd :=
  persist
    { rf with
      log := rf.log ++ [⟨rf.currentTerm, command⟩]
      logLength := rf.logLength + 1 }

theorem start_cases (rf : Raft n Cmd) (command : Cmd) :
    rf.start command = (rf, (-1, -1, false)) ∨
    (rf.state = .leader ∧
      rf.start command =
        (rf.extended command, (rf.logLength, (rf.currentTerm : ℤ), true))) := by
  unfold start
  split
  · exact Or.inl rfl
  · next hstate =>
      refine Or.inr ⟨not_not.mp hstate, ?_⟩
      simp [extended, persist]

end Raft

end DistLabs
