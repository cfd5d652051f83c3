import DistLabs.Raft.Representation

/-!
# Repeated requests

A request that is processed a second time leaves the server as the first time
did.  The branches may differ: a conflict shortens the log, so that the second
time the entry to be checked is missing.
-/

namespace DistLabs

variable {n : ℕ} {Cmd : Type}

namespace Raft

variable {rf rf' : Raft n Cmd}

/-! ## AppendEntries -/

theorem followLeader_followLeader (rf : Raft n Cmd) (term : ℕ) :
    (rf.followLeader term).followLeader term = rf.followLeader term := by
  refine followLeader_of_le ?_
  rw [followLeader_currentTerm]
  exact le_max_right _ _

theorem advanceCommit_advanceCommit (rf : Raft n Cmd) (leaderCommit : ℤ) :
    (rf.advanceCommit leaderCommit).advanceCommit leaderCommit =
      rf.advanceCommit leaderCommit := by
  by_cases hlt : leaderCommit > rf.commitIndex
  · have hfirst : rf.advanceCommit leaderCommit =
        { rf with
          commitIndex := min leaderCommit (rf.logLength - 1)
          lastApplied := max rf.lastApplied rf.lastIncludedIndex } :=
      if_pos hlt
    rw [hfirst]
    unfold advanceCommit
    dsimp only
    split
    · rw [max_assoc, max_self]
    · rfl
  · have hfirst : rf.advanceCommit leaderCommit = rf := if_neg hlt
    rw [hfirst, hfirst]

/-- The entries of a request replace themselves. -/
theorem appendLog_advanceCommit (rf : Raft n Cmd) {k : ℕ}
    (hk : k < rf.log.length) (entries : List (LogEntry Cmd))
    (leaderCommit : ℤ) :
    ((rf.appendLog k entries).advanceCommit leaderCommit).appendLog k entries =
      (rf.appendLog k entries).advanceCommit leaderCommit := by
  by_cases hempty : entries.length ≠ 0
  · have hlength : (rf.log.take (k + 1)).length = k + 1 := by
      rw [List.length_take]
      omega
    have htake : (rf.log.take (k + 1) ++ entries).take (k + 1) =
        rf.log.take (k + 1) := by
      rw [List.take_append_of_le_length (le_of_eq hlength.symm),
        List.take_take, min_self]
    unfold advanceCommit appendLog
    simp only [if_pos hempty, Int.toNat_natCast]
    split <;> simp only [persist, htake, p2vIndex]
  · have hsame (rf₀ : Raft n Cmd) : rf₀.appendLog k entries = rf₀ :=
      if_neg hempty
    rw [hsame, hsame]

/-- An accepted request is accepted again and changes nothing. -/
theorem HasSentinel.accept_again (h : rf.HasSentinel)
    {args : AppendEntriesArgs n Cmd} {entry : LogEntry Cmd}
    (hterm : rf.currentTerm = args.term)
    (hprev : args.prevLogIndex ≤ rf.logLength - 1)
    (hentry : elemAt rf.log (rf.v2pIndex args.prevLogIndex) = some entry)
    (heq : args.prevLogTerm = entry.logTerm)
    (hrf : rf' = (rf.appendLog (rf.v2pIndex args.prevLogIndex)
      args.entries).advanceCommit args.leaderCommit) :
    rf'.heartbeatHandler args =
      .done rf' ⟨rf'.currentTerm, true, 0, 0, 0⟩ := by
  obtain ⟨k, hk, hget⟩ := elemAt_eq_some_iff.mp hentry
  have hlt := (List.getElem?_eq_some_iff.mp hget).1
  rw [hk] at hrf
  have hterm' : rf'.currentTerm = args.term := by simpa [hrf] using hterm
  have hlii : rf'.v2pIndex args.prevLogIndex = k := by
    rw [← hk]
    simp [hrf, v2pIndex]
  have hindex : args.prevLogIndex = k + rf.lastIncludedIndex := by
    unfold v2pIndex at hk
    omega
  have hlength := le_appendLog_logLength hlt (by omega) args.entries
  have hprev' : args.prevLogIndex ≤ rf'.logLength - 1 := by
    rw [hrf, advanceCommit_logLength]
    omega
  have hentry' : elemAt rf'.log (rf'.v2pIndex args.prevLogIndex) =
      some entry := by
    rw [hlii, hrf, advanceCommit_log, elemAt_appendLog hlt le_rfl, ← hk]
    exact hentry
  have hsentinel : rf'.HasSentinel := by
    rw [hrf]
    exact (h.appendLog k args.entries).advanceCommit args.leaderCommit
  rw [hsentinel.heartbeatHandler_accept (le_of_eq hterm') hprev' hentry' heq,
    Raft.accepted, followLeader_of_le (le_of_eq hterm'.symm), hlii, hrf,
    appendLog_advanceCommit rf hlt, advanceCommit_advanceCommit]

/-- After a conflict the entry to be checked is missing, or it is the sentinel
and conflicts again. -/
theorem HasSentinel.conflict_again (h : rf.HasSentinel)
    {args : AppendEntriesArgs n Cmd} {entry : LogEntry Cmd}
    (hterm : rf.currentTerm = args.term)
    (hentry : elemAt rf.log (rf.v2pIndex args.prevLogIndex) = some entry)
    (hne : args.prevLogTerm ≠ entry.logTerm)
    (hrf : rf' = rf.deleteConflict (rf.v2pIndex args.prevLogIndex)) :
    ∃ reply, rf'.heartbeatHandler args = .done rf' reply ∧
      reply.success = false := by
  obtain ⟨k, hk, hget⟩ := elemAt_eq_some_iff.mp hentry
  have hlt := (List.getElem?_eq_some_iff.mp hget).1
  rw [hk] at hrf
  have hterm' : rf'.currentTerm = args.term := by
    rw [hrf]
    exact hterm
  have hsame : rf'.followLeader args.term = rf' :=
    followLeader_of_le (le_of_eq hterm'.symm)
  have hindex : args.prevLogIndex = k + rf.lastIncludedIndex := by
    unfold v2pIndex at hk
    omega
  rcases Nat.eq_zero_or_pos k with rfl | hpos
  · have hrf' : rf' = persist
        { rf with
          log := rf.log.take 1
          logLength := rf.p2vIndex (rf.log.take 1).length } := hrf
    have hlii : rf'.v2pIndex args.prevLogIndex = 0 := by
      rw [hrf']
      exact hk
    have hsentinel : rf'.HasSentinel := by
      unfold HasSentinel at h
      cases hlog : rf.log with
      | nil => simp [hlog] at hlt
      | cons e log => simpa [hrf', hlog, persist, HasSentinel] using h
    have hprev' : args.prevLogIndex ≤ rf'.logLength - 1 := by
      rw [hrf']
      simp only [persist, p2vIndex, List.length_take]
      omega
    have hentry' : elemAt rf'.log (rf'.v2pIndex args.prevLogIndex) =
        some entry := by
      rw [hlii, hrf']
      simpa [persist, elemAt, List.getElem?_take_of_lt] using hget
    have hdelete : rf'.deleteConflict 0 = rf' := by
      rw [hrf']
      simp [deleteConflict, persist, p2vIndex, List.take_take]
    have hagain := hsentinel.heartbeatHandler_conflict (le_of_eq hterm')
      hprev' hentry' hne
    rw [hsame, hlii, hdelete] at hagain
    exact ⟨_, hagain, rfl⟩
  · have hbeyond : args.prevLogIndex > rf'.logLength - 1 := by
      rw [hrf]
      unfold deleteConflict
      simp only [persist, p2vIndex, Int.toNat_natCast,
        if_neg (by omega : ¬ (k : ℤ) = 0), List.length_take]
      omega
    have hagain := heartbeatHandler_beyond (le_of_eq hterm') hbeyond
    rw [hsame] at hagain
    exact ⟨_, hagain, rfl⟩

theorem heartbeatHandler_again (hrep : LogRepresentation rf)
    {args : AppendEntriesArgs n Cmd} {reply : AppendEntriesReply}
    (hrun : rf.heartbeatHandler args = .done rf' reply) :
    ∃ reply', rf'.heartbeatHandler args = .done rf' reply' ∧
      reply'.success = reply.success := by
  have hsentinel : rf.HasSentinel := hrep.sentinel
  have hfollow := hsentinel.followLeader args.term
  rcases lt_or_ge args.term rf.currentTerm with hstale | hterm
  · rw [heartbeatHandler_stale hstale] at hrun
    cases hrun
    exact ⟨_, heartbeatHandler_stale hstale, rfl⟩
  have hterm' : (rf.followLeader args.term).currentTerm = args.term := by
    rw [followLeader_currentTerm, max_eq_right hterm]
  rcases lt_or_ge (rf.logLength - 1) args.prevLogIndex with hbeyond | hprev
  · rw [heartbeatHandler_beyond hterm hbeyond] at hrun
    cases hrun
    have hagain := heartbeatHandler_beyond (le_of_eq hterm')
      (by simpa using hbeyond)
    rw [followLeader_followLeader] at hagain
    exact ⟨_, hagain, rfl⟩
  cases hentry : elemAt rf.log (rf.v2pIndex args.prevLogIndex) with
  | none =>
      rw [heartbeatHandler_panic hterm hprev hentry] at hrun
      cases hrun
  | some entry =>
      by_cases heq : args.prevLogTerm = entry.logTerm
      · rw [hsentinel.heartbeatHandler_accept hterm hprev hentry heq] at hrun
        cases hrun
        exact ⟨_, hfollow.accept_again hterm' (by simpa using hprev)
          (by simpa using hentry) heq (by simp [accepted]), rfl⟩
      · rw [hsentinel.heartbeatHandler_conflict hterm hprev hentry heq]
          at hrun
        cases hrun
        exact hfollow.conflict_again hterm' (by simpa using hentry) heq
          (by simp)

/-! ## RequestVote -/

/-- The handler answers as if the term had been taken over before. -/
theorem requestVoteHandler_followCandidate {args : RequestVoteArgs n}
    {reply : RequestVoteReply}
    (hrun : rf.requestVoteHandler args = .done rf' reply) :
    (rf.followCandidate args.term).requestVoteHandler args =
      .done rf'
        ⟨(rf.followCandidate args.term).currentTerm, reply.voteGranted⟩ := by
  have hsame : (rf.followCandidate args.term).followCandidate args.term =
      rf.followCandidate args.term := by
    refine followCandidate_of_le ?_
    rw [followCandidate_currentTerm]
    exact le_max_right _ _
  unfold requestVoteHandler at hrun ⊢
  rw [hsame]
  dsimp only at hrun ⊢
  split at hrun
  · cases hrun
  · next last hlast =>
      cases hrun
      rfl

theorem requestVoteHandler_again {args : RequestVoteArgs n}
    {reply : RequestVoteReply}
    (hrun : rf.requestVoteHandler args = .done rf' reply) :
    ∃ reply', rf'.requestVoteHandler args = .done rf' reply' ∧
      reply'.voteGranted = reply.voteGranted := by
  rcases rf.requestVoteHandler_cases args with h | h | ⟨last, hgrants, h⟩
  · rw [h] at hrun
    cases hrun
  · have hagain := requestVoteHandler_followCandidate hrun
    rw [h] at hrun
    cases hrun
    exact ⟨_, hagain, rfl⟩
  · rw [h] at hrun
    cases hrun
    set granted := persist
      { rf.followCandidate args.term with
        votedFor := some args.candidateId } with hgranted
    have hsame : granted.followCandidate args.term = granted :=
      followCandidate_of_le (le_of_eq hgrants.term.symm)
    have hgrants' : Grants (granted.followCandidate args.term) args last := by
      rw [hsame]
      exact ⟨hgrants.term, Or.inr rfl, hgrants.lastEntry, hgrants.recent⟩
    have hagain := requestVoteHandler_grants hgrants'
    rw [hsame] at hagain
    exact ⟨_, hagain, rfl⟩

/-! ## InstallSnapshot -/

variable [Zero Cmd]

theorem remainingLog_installed {args : SnapshotArgs n}
    {log : List (LogEntry Cmd)} (h : rf.remainingLog args = some log) :
    (rf.installed args log).remainingLog args = some log := by
  obtain ⟨entry, rest, rfl, hterm⟩ := remainingLog_head h
  have hzero : (rf.installed args (entry :: rest)).v2pIndex
      args.lastIncludedIndex = 0 := Int.sub_self _
  have hrange : (rf.installed args (entry :: rest)).lastIncludedIndex ≤
        args.lastIncludedIndex ∧
      args.lastIncludedIndex ≤
        (rf.installed args (entry :: rest)).logLength - 1 := by
    simp only [installed, persist, List.length_cons]
    omega
  unfold remainingLog
  rw [if_pos hrange, hzero]
  change (if entry.logTerm = args.lastIncludedTerm then
    some (entry :: rest) else _) = _
  rw [if_pos hterm]

theorem installSnapshot_again {args : SnapshotArgs n}
    {out : SnapshotRelpay × Option (ApplyMsg Cmd)}
    (hrun : rf.installSnapshot args = .done rf' out) :
    ∃ out', rf'.installSnapshot args = .done rf' out' := by
  rcases rf.installSnapshot_cases args with
    ⟨_, h⟩ | ⟨hterm, ⟨_, h⟩ | ⟨log, hlog, h⟩⟩
  · rw [h] at hrun
    cases hrun
    exact ⟨_, h⟩
  · rw [h] at hrun
    cases hrun
  · rw [h] at hrun
    cases hrun
    set rf₁ := rf.followInstaller args.term with hrf₁
    have hterm₁ : rf₁.currentTerm = args.term := by
      rw [hrf₁, followInstaller_currentTerm, max_eq_right hterm]
    have hsame : (rf₁.installed args log).followInstaller args.term =
        rf₁.installed args log :=
      followInstaller_of_le (le_of_eq hterm₁.symm)
    have hcurrent : ¬ args.term < (rf₁.installed args log).currentTerm :=
      not_lt.mpr (le_of_eq hterm₁)
    have hagain : (rf₁.installed args log).installed args log =
        rf₁.installed args log := by
      simp [installed, persist]
    unfold installSnapshot
    dsimp only
    rw [if_neg hcurrent, hsame, remainingLog_installed hlog]
    exact ⟨_, congrArg (Outcome.done · _) hagain⟩

/-- Every request that is processed without an index out of range leaves the
server, when it is processed again, as it is, and gets the same answer. -/
theorem handlers_idempotent (hrep : LogRepresentation rf) :
    (∀ (args : AppendEntriesArgs n Cmd) (rf' : Raft n Cmd)
      (reply : AppendEntriesReply),
      rf.heartbeatHandler args = .done rf' reply →
      ∃ reply', rf'.heartbeatHandler args = .done rf' reply' ∧
        reply'.success = reply.success) ∧
    (∀ (args : RequestVoteArgs n) (rf' : Raft n Cmd)
      (reply : RequestVoteReply),
      rf.requestVoteHandler args = .done rf' reply →
      ∃ reply', rf'.requestVoteHandler args = .done rf' reply' ∧
        reply'.voteGranted = reply.voteGranted) ∧
    ∀ (args : SnapshotArgs n) (rf' : Raft n Cmd)
      (out : SnapshotRelpay × Option (ApplyMsg Cmd)),
      rf.installSnapshot args = .done rf' out →
      ∃ out', rf'.installSnapshot args = .done rf' out' :=
  ⟨fun _ _ _ hrun ↦ heartbeatHandler_again hrep hrun,
    fun _ _ _ hrun ↦ requestVoteHandler_again hrun,
    fun _ _ _ hrun ↦ installSnapshot_again hrun⟩

/-- A follower of term 1 with two entries. -/
def outdatedServer : Raft 3 ℕ where
  currentTerm := 1
  commitIndex := 0
  lastApplied := 0
  me := 0
  votedFor := some 1
  state := .follower
  log := [⟨0, 0⟩, ⟨1, 5⟩, ⟨1, 6⟩]
  nextIndex := []
  matchIndex := []
  logLength := 3
  snapshotData := []
  lastIncludedIndex := 0
  lastIncludedTerm := 0
  persister := ⟨none, []⟩

/-- The leader of term 2 holds another entry at index 2. -/
def conflictingRequest : AppendEntriesArgs 3 ℕ where
  term := 2
  leaderId := 1
  prevLogIndex := 2
  prevLogTerm := 2
  entries := [⟨2, 7⟩]
  leaderCommit := 3

/-- The first time the entry at index 2 is deleted, the second time it is
missing. -/
theorem handlers_idempotent_conflict :
    ∃ rf' reply,
      outdatedServer.heartbeatHandler conflictingRequest = .done rf' reply ∧
      rf'.log = [⟨0, 0⟩, ⟨1, 5⟩] ∧ reply.success = false ∧
      ∃ reply', rf'.heartbeatHandler conflictingRequest = .done rf' reply' ∧
        reply'.success = reply.success := by
  have hrep : LogRepresentation outdatedServer := by
    refine ⟨by decide, by decide, by decide, by decide, ?_⟩
    intro e he
    cases he
    decide
  exact ⟨_, _, rfl, rfl, rfl, (handlers_idempotent hrep).1 _ _ _ rfl⟩

end Raft

end DistLabs
