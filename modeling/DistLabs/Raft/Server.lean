import DistLabs.Raft.Types

/-!
# The lock-protected sections of one server

Every definition here is one section of `raft.go` that runs while `rf.mu` is
held, or a named part of one.  A section maps the server to its new state and
to what it hands over to the code that runs after the lock is released.
-/

namespace DistLabs

variable {n : ℕ} {Cmd : Type}

namespace Raft

/-! ## Tools -/

def v2pIndex (rf : Raft n Cmd) (idx : ℤ) : ℤ :=
  idx - rf.lastIncludedIndex

def p2vIndex (rf : Raft n Cmd) (idx : ℤ) : ℤ :=
  idx + rf.lastIncludedIndex

/-- Save the five persistent values together with the snapshot. -/
def persist (rf : Raft n Cmd) : Raft n Cmd :=
  { rf with
    persister :=
      { raftstate := some
          { currentTerm := rf.currentTerm
            votedFor := rf.votedFor
            log := rf.log
            lastIncludedIndex := rf.lastIncludedIndex
            lastIncludedTerm := rf.lastIncludedTerm }
        snapshot := rf.snapshotData } }

/-- Restore what `persist` saved; an empty snapshot is left out. -/
def readPersist (rf : Raft n Cmd) (persister : Persister n Cmd) :
    Raft n Cmd :=
  match persister.raftstate with
  | none => rf
  | some saved =>
      let restored :=
        { rf with
          currentTerm := saved.currentTerm
          votedFor := saved.votedFor
          log := saved.log
          logLength := saved.log.length + saved.lastIncludedIndex
          lastIncludedIndex := saved.lastIncludedIndex
          lastIncludedTerm := saved.lastIncludedTerm }
      if persister.snapshot = [] then restored
      else { restored with snapshotData := persister.snapshot }

/-- A new server with the given stable storage. -/
def make [Zero Cmd] (me : Fin n) (persister : Persister n Cmd) :
    Raft n Cmd :=
  readPersist
    { currentTerm := 0
      commitIndex := 0
      lastApplied := 0
      me := me
      votedFor := none
      state := .follower
      log := [⟨0, 0⟩]
      nextIndex := []
      matchIndex := []
      logLength := 1
      snapshotData := []
      lastIncludedIndex := 0
      lastIncludedTerm := 0
      persister := persister }
    persister

/-! ## Calls of the service -/

/-- `Snapshot`: the service has a snapshot through `index`. -/
def snapshot (rf : Raft n Cmd) (index : ℤ) (data : Bytes) :
    Outcome n Cmd Unit :=
  match elemAt rf.log (rf.v2pIndex index) with
  | none => .panic rf
  | some entry =>
      let log := rf.log.drop (rf.v2pIndex index).toNat
      .done
        (persist
          { rf with
            lastIncludedTerm := entry.logTerm
            log := log
            lastIncludedIndex := index
            logLength := log.length + index
            snapshotData := data })
        ()

/-- `Start`: returns the index and term of the new entry and `true`, or
`(-1, -1, false)` when the server is not the leader. -/
def start (rf : Raft n Cmd) (command : Cmd) :
    Raft n Cmd × (ℤ × ℤ × Bool) :=
  if rf.state ≠ .leader then
    (rf, (-1, -1, false))
  else
    let rf :=
      persist
        { rf with
          log := rf.log ++ [⟨rf.currentTerm, command⟩]
          logLength := rf.logLength + 1 }
    (rf, (rf.logLength - 1, rf.currentTerm, true))

/-! ## Elections -/

/-- `ElectLauncher`: a new term, a vote for itself and the request for the
other votes. -/
def electLauncher (rf : Raft n Cmd) : Outcome n Cmd (RequestVoteArgs n) :=
  let rf :=
    persist
      { rf with
        currentTerm := rf.currentTerm + 1
        votedFor := some rf.me }
  match elemAt rf.log (rf.v2pIndex rf.logLength - 1) with
  | none => .panic rf
  | some last =>
      .done rf
        { term := rf.currentTerm
          candidateId := rf.me
          lastLogIndex := rf.logLength - 1
          lastLogTerm := last.logTerm }

/-- Step 0 of `RequestVoteHandler`: a higher term is taken over, unpersisted. -/
def followCandidate (rf : Raft n Cmd) (term : ℕ) : Raft n Cmd :=
  if rf.currentTerm < term then
    { rf with state := .follower, currentTerm := term, votedFor := none }
  else
    rf

/-- Steps 1 to 3 of `RequestVoteHandler`: whether the vote is granted, given
the last log entry of the voter. -/
def grantsVote (rf : Raft n Cmd) (args : RequestVoteArgs n)
    (last : LogEntry Cmd) : Bool :=
  !decide (rf.currentTerm > args.term) &&
  !(decide (rf.votedFor ≠ none) &&
    decide (rf.votedFor ≠ some args.candidateId)) &&
  (decide (args.lastLogTerm > last.logTerm) ||
    (decide (args.lastLogTerm = last.logTerm) &&
      decide (args.lastLogIndex ≥ rf.logLength - 1)))

def requestVoteHandler (rf : Raft n Cmd) (args : RequestVoteArgs n) :
    Outcome n Cmd RequestVoteReply :=
  let replyTerm := rf.currentTerm
  let rf := rf.followCandidate args.term
  match elemAt rf.log (rf.v2pIndex rf.logLength - 1) with
  | none => .panic rf
  | some last =>
      let granted := rf.grantsVote args last
      let rf :=
        if granted then
          { rf with
            currentTerm := args.term
            votedFor := some args.candidateId }
        else
          rf
      let rf :=
        if granted ∨ rf.currentTerm < args.term then rf.persist else rf
      .done rf { term := replyTerm, voteGranted := granted }

/-- First section of `SendRequestVote`: an outdated reply is dropped and the
server becomes a follower. -/
def checkVoteReply (rf : Raft n Cmd) (args : RequestVoteArgs n) :
    Raft n Cmd × Bool :=
  if rf.currentTerm ≠ args.term then
    ({ rf with state := .follower }, false)
  else
    (rf, true)

/-- The loop that fills `NextIndex` or `MatchIndex` for all peers. -/
def fillIndex (n : ℕ) (value : ℤ) (xs : List ℤ) : List ℤ :=
  (List.range n).foldl
    (fun ys i ↦ if ys.length ≤ i then ys ++ [value] else ys.set i value) xs

/-- Promotion in `SendRequestVote`, up to the start of `HeartBeatLauncher`. -/
def becomeLeader (rf : Raft n Cmd) : Raft n Cmd :=
  { rf with
    state := .leader
    nextIndex := fillIndex n rf.logLength rf.nextIndex
    matchIndex := fillIndex n (-1) rf.matchIndex }

/-- Last section of `SendRequestVote`. -/
def finishVoteReply (rf : Raft n Cmd) (reply : RequestVoteReply) :
    Raft n Cmd :=
  if !reply.voteGranted ∧ reply.term > rf.currentTerm then
    { persist { rf with currentTerm := reply.term } with state := .follower }
  else
    rf

/-! ## Heartbeats: the sender -/

/-- All peers but the server itself, in the order of the loops over
`rf.peers`. -/
def others (me : Fin n) : List (Fin n) :=
  (List.finRange n).filter (· ≠ me)

/-- What `HeartBeatLauncher` prepares for peer `i`. -/
def prepare (rf : Raft n Cmd) (i : Fin n) : Option (Outgoing n Cmd) :=
  match rf.nextIndex[i.val]? with
  | none => none
  | some next =>
      if rf.v2pIndex next - 1 < 0 then
        some (.snapshot
          { peer := i
            term := rf.currentTerm
            leaderId := rf.me
            lastIncludedIndex := rf.lastIncludedIndex
            lastIncludedTerm := rf.lastIncludedTerm })
      else
        match elemAt rf.log (rf.v2pIndex next - 1) with
        | none => none
        | some prev =>
            some (.appendEntries i
              { term := rf.currentTerm
                leaderId := rf.me
                prevLogIndex := next - 1
                prevLogTerm := prev.logTerm
                entries :=
                  if rf.logLength > next then
                    rf.log.drop (rf.v2pIndex next).toNat
                  else []
                leaderCommit := rf.commitIndex })

/-- The section of `HeartBeatLauncher`, up to the release of the lock. -/
def heartBeatLauncher (rf : Raft n Cmd) :
    Outcome n Cmd (List (Outgoing n Cmd)) :=
  if (others rf.me).all fun i ↦ (rf.prepare i).isSome then
    .done rf ((others rf.me).filterMap rf.prepare)
  else
    .panic rf

/-- The inner loop of the commit scan: how many servers are counted for index
`N`, or `none` for an index out of range.  `j` is the peer whose match index is
at the head of the list. -/
def countReplicas (rf : Raft n Cmd) (N : ℤ) : ℕ → List ℤ → Option ℕ
  | _, [] => some 0
  | j, m :: ms =>
      match countReplicas rf N (j + 1) ms with
      | none => none
      | some count =>
          if j = rf.me.val then
            some (count + 1)
          else if m ≥ N then
            match elemAt rf.log (rf.v2pIndex N) with
            | none => none
            | some entry =>
                if entry.logTerm = rf.currentTerm then some (count + 1)
                else some count
          else
            some count

/-- The commit scan of `SendHeartbeat`, with `k` candidate indices above
`CommitIndex` left; the largest one is tried first. -/
def commitScan (rf : Raft n Cmd) : ℕ → Outcome n Cmd Unit
  | 0 => .done rf ()
  | k + 1 =>
      let N := rf.commitIndex + (k + 1 : ℕ)
      match rf.countReplicas N 0 rf.matchIndex with
      | none => .panic rf
      | some count =>
          if count > n / 2 then
            .done
              { rf with
                commitIndex := N
                lastApplied := max rf.lastApplied rf.lastIncludedIndex }
              ()
          else
            commitScan rf k

/-- `SendHeartbeat` on a successful reply. -/
def recordSuccess (rf : Raft n Cmd) (peer : Fin n)
    (args : AppendEntriesArgs n Cmd) : Outcome n Cmd Unit :=
  if peer.val < rf.matchIndex.length ∧ peer.val < rf.nextIndex.length then
    let matched := args.prevLogIndex + args.entries.length
    let rf :=
      { rf with
        matchIndex := rf.matchIndex.set peer matched
        nextIndex := rf.nextIndex.set peer (matched + 1) }
    if args.entries.length ≠ 0 then
      rf.commitScan (rf.logLength - 1 - rf.commitIndex).toNat
    else
      .done rf ()
  else
    .panic rf

/-- The next index that the fast backup of `SendHeartbeat` chooses. -/
def backupIndex (rf : Raft n Cmd) (reply : AppendEntriesReply) : ℤ :=
  if reply.xTerm ≠ -1 then
    match rf.log.findIdx? fun entry ↦ (entry.logTerm : ℤ) = reply.xTerm with
    | some j => rf.p2vIndex j + 1
    | none => reply.xIndex
  else
    reply.xLen

/-- `SendHeartbeat` on a failed consistency check. -/
def backUp (rf : Raft n Cmd) (peer : Fin n) (reply : AppendEntriesReply) :
    Outcome n Cmd (Option (SnapshotArgs n)) :=
  if peer.val < rf.nextIndex.length then
    let next := rf.backupIndex reply
    let rf := { rf with nextIndex := rf.nextIndex.set peer next }
    if next ≤ rf.lastIncludedIndex then
      .done rf (some
        { term := rf.currentTerm
          leaderId := rf.me
          lastIncludedIndex := rf.lastIncludedIndex
          lastIncludedTerm := rf.lastIncludedTerm
          snapdata := rf.snapshotData })
    else
      .done rf none
  else
    .panic rf

/-- `SendHeartbeat` after the call has returned; the result is a snapshot to be
sent at once. -/
def sendHeartbeat (rf : Raft n Cmd) (peer : Fin n)
    (args : AppendEntriesArgs n Cmd) (reply : AppendEntriesReply) :
    Outcome n Cmd (Option (SnapshotArgs n)) :=
  if rf.currentTerm ≠ args.term then
    .done rf none
  else if args.term < reply.term then
    let rf :=
      if rf.currentTerm < reply.term then
        persist { rf with currentTerm := reply.term }
      else
        rf
    .done { rf with state := .follower } none
  else if reply.success then
    match rf.recordSuccess peer args with
    | .done rf _ => .done rf none
    | .panic rf => .panic rf
  else
    rf.backUp peer reply

/-- `SendSnapshot` after the call has returned. -/
def sendSnapshot (rf : Raft n Cmd) (peer : Fin n) (args : SnapshotArgs n)
    (reply : SnapshotRelpay) : Outcome n Cmd Unit :=
  if rf.currentTerm ≠ args.term then
    .done rf ()
  else
    let rf :=
      if reply.term > rf.currentTerm then
        persist { rf with state := .follower, currentTerm := reply.term }
      else
        rf
    if peer.val < rf.nextIndex.length then
      .done
        { rf with
          nextIndex := rf.nextIndex.set peer (rf.lastIncludedIndex + 1) }
        ()
    else
      .panic rf

/-! ## Heartbeats: the receiver -/

/-- Step 0 of `HeartbeatHandler`; the vote of the old term is kept. -/
def followLeader (rf : Raft n Cmd) (term : ℕ) : Raft n Cmd :=
  if term > rf.currentTerm then
    persist { rf with currentTerm := term, state := .follower }
  else
    rf

/-- `rf.Log[0].LogTerm = rf.LastIncludedTerm`. -/
def stampSentinel (rf : Raft n Cmd) : Raft n Cmd :=
  { rf with
    log := rf.log.modifyHead fun entry ↦
      { entry with logTerm := rf.lastIncludedTerm } }

/-- The first virtual index up to `tobeCheckIndex` whose entry has the given
term. -/
def conflictIndex (rf : Raft n Cmd) (tobeCheckIndex : ℤ) (term : ℕ) : ℤ :=
  match (rf.log.take (tobeCheckIndex.toNat + 1)).findIdx? fun entry ↦
      entry.logTerm = term with
  | some i => rf.p2vIndex i
  | none => 0

/-- Step 2b of `HeartbeatHandler`: the conflicting entry and everything after
it is deleted, except that the sentinel stays. -/
def deleteConflict (rf : Raft n Cmd) (tobeCheckIndex : ℤ) : Raft n Cmd :=
  let log :=
    if tobeCheckIndex = 0 then rf.log.take 1
    else rf.log.take tobeCheckIndex.toNat
  persist { rf with log := log, logLength := rf.p2vIndex log.length }

/-- The entries of an accepted request replace everything after
`tobeCheckIndex`. -/
def appendLog (rf : Raft n Cmd) (tobeCheckIndex : ℤ)
    (entries : List (LogEntry Cmd)) : Raft n Cmd :=
  if entries.length ≠ 0 then
    let log := rf.log.take (tobeCheckIndex.toNat + 1) ++ entries
    persist { rf with log := log, logLength := rf.p2vIndex log.length }
  else
    rf

/-- Advance `CommitIndex` to the leader's, as far as the log goes. -/
def advanceCommit (rf : Raft n Cmd) (leaderCommit : ℤ) : Raft n Cmd :=
  if leaderCommit > rf.commitIndex then
    { rf with
      commitIndex := min leaderCommit (rf.logLength - 1)
      lastApplied := max rf.lastApplied rf.lastIncludedIndex }
  else
    rf

/-- `HeartbeatHandler` once the entry to be checked is at hand. -/
def checkConsistency (rf : Raft n Cmd) (args : AppendEntriesArgs n Cmd)
    (reply : AppendEntriesReply) (tobeCheckIndex : ℤ)
    (entry : LogEntry Cmd) : Raft n Cmd × AppendEntriesReply :=
  let tobeCheckTerm :=
    if tobeCheckIndex = 0 then rf.lastIncludedTerm else entry.logTerm
  let rf := if tobeCheckIndex = 0 then rf.stampSentinel else rf
  if args.prevLogTerm ≠ tobeCheckTerm then
    (rf.deleteConflict tobeCheckIndex,
      { reply with
        xTerm := tobeCheckTerm
        xIndex := rf.conflictIndex tobeCheckIndex tobeCheckTerm })
  else
    ((rf.appendLog tobeCheckIndex args.entries).advanceCommit
        args.leaderCommit,
      { reply with success := true })

def heartbeatHandler (rf : Raft n Cmd) (args : AppendEntriesArgs n Cmd) :
    Outcome n Cmd AppendEntriesReply :=
  let reply : AppendEntriesReply :=
    { term := rf.currentTerm
      success := false
      xTerm := 0
      xLen := 0
      xIndex := 0 }
  let rf := rf.followLeader args.term
  if args.term < rf.currentTerm then
    .done rf reply
  else if args.prevLogIndex > rf.logLength - 1 then
    .done rf { reply with xTerm := -1, xLen := rf.logLength }
  else
    match elemAt rf.log (rf.v2pIndex args.prevLogIndex) with
    | none => .panic rf
    | some entry =>
        let result :=
          rf.checkConsistency args reply (rf.v2pIndex args.prevLogIndex) entry
        .done result.1 result.2

/-! ## Snapshots: the receiver -/

/-- The term update of `InstallSnapshot`. -/
def followInstaller (rf : Raft n Cmd) (term : ℕ) : Raft n Cmd :=
  if term > rf.currentTerm then
    { rf with currentTerm := term, votedFor := none, state := .follower }
  else
    rf

/-- Step 3 of `InstallSnapshot`: the log that remains, or `none` for an index
out of range.  The entries after the snapshot are kept when the entry at its
index has its term. -/
def remainingLog [Zero Cmd] (rf : Raft n Cmd) (args : SnapshotArgs n) :
    Option (List (LogEntry Cmd)) :=
  if rf.lastIncludedIndex ≤ args.lastIncludedIndex ∧
      args.lastIncludedIndex ≤ rf.logLength - 1 then
    match elemAt rf.log (rf.v2pIndex args.lastIncludedIndex) with
    | none => none
    | some entry =>
        if entry.logTerm = args.lastIncludedTerm then
          some (rf.log.drop (rf.v2pIndex args.lastIncludedIndex).toNat)
        else
          some [⟨args.lastIncludedTerm, 0⟩]
  else
    some [⟨args.lastIncludedTerm, 0⟩]

/-- `InstallSnapshot` up to the release of the lock.  The second component of
the result is the message it then sends on `ApplyCh`, if any. -/
def installSnapshot [Zero Cmd] (rf : Raft n Cmd) (args : SnapshotArgs n) :
    Outcome n Cmd (SnapshotRelpay × Option (ApplyMsg Cmd)) :=
  let reply : SnapshotRelpay := { term := rf.currentTerm }
  if args.term < rf.currentTerm then
    .done rf (reply, none)
  else
    let rf := rf.followInstaller args.term
    match rf.remainingLog args with
    | none => .panic rf
    | some log =>
        .done
          (persist
            { rf with
              log := log
              lastIncludedIndex := args.lastIncludedIndex
              lastIncludedTerm := args.lastIncludedTerm
              lastApplied := max rf.lastApplied args.lastIncludedIndex
              commitIndex := max rf.commitIndex args.lastIncludedIndex
              snapshotData := args.snapdata
              logLength := log.length + args.lastIncludedIndex })
          (reply, some (.snapshot args.snapdata args.lastIncludedTerm
            args.lastIncludedIndex))

/-! ## Applying -/

/-- One round of `ApplyGoroutine` with `CommitIndex > LastApplied`. -/
def applyGoroutine (rf : Raft n Cmd) : Outcome n Cmd (ApplyMsg Cmd) :=
  let rf := { rf with lastApplied := rf.lastApplied + 1 }
  match elemAt rf.log (rf.v2pIndex rf.lastApplied) with
  | none => .panic rf
  | some entry => .done rf (.command entry.command rf.lastApplied)

end Raft

end DistLabs
