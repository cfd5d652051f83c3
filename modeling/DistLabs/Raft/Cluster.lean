import Mathlib.Logic.Function.Basic
import DistLabs.Support.Run
import DistLabs.Raft.Server

/-!
# A cluster of Raft servers

One step of the cluster is one lock-protected section of one server, one of
the unlocked moments that other goroutines can interleave with, a call of the
service, or a crash followed by a restart.

Every RPC is a record that moves through its phases once, so a request is
executed at most once and its reply is delivered at most once.  A record that
stays in its phase forever is a lost request or reply, and nothing orders the
records among each other.  A record belongs to one incarnation of its caller;
after a restart its reply is ignored.

The list of events is the history of the run.  No step reads it.
-/

namespace DistLabs

/-- Progress of one `SendRequestVote` goroutine.  The sections of the source
that lie between the phases are `deliverVote`, `checkVote`, `countVote`,
`promote` and `finishVote` below. -/
inductive VotePhase
  | sent
  | replied (reply : RequestVoteReply)
  | checked (reply : RequestVoteReply)
  | won (reply : RequestVoteReply)
  | counted (reply : RequestVoteReply)
  | finished
deriving DecidableEq, Repr

/-- Progress of a `SendHeartbeat` or `SendSnapshot` goroutine.  A call is
blocked while its handler waits to send on `ApplyCh`. -/
inductive CallPhase (R : Type)
  | sent
  | blocked (reply : R)
  | replied (reply : R)
  | finished
deriving DecidableEq, Repr

/-- `election` points to the counter `vote` shared by one election's calls. -/
structure VoteCall (n : ℕ) where
  caller : Fin n
  incarnation : ℕ
  peer : Fin n
  args : RequestVoteArgs n
  election : ℕ
  phase : VotePhase
deriving DecidableEq, Repr

structure AppendCall (n : ℕ) (Cmd : Type) where
  caller : Fin n
  incarnation : ℕ
  peer : Fin n
  args : AppendEntriesArgs n Cmd
  phase : CallPhase AppendEntriesReply
deriving DecidableEq, Repr

structure SnapCall (n : ℕ) where
  caller : Fin n
  incarnation : ℕ
  peer : Fin n
  args : SnapshotArgs n
  phase : CallPhase SnapshotRelpay
deriving DecidableEq, Repr

/-- The vote counter of one `ElectLauncher` call and the term it is for. -/
structure Election where
  term : ℕ
  vote : ℕ
deriving DecidableEq, Repr

/-- A message computed under the lock and not yet received on `ApplyCh`, with
the blocked `InstallSnapshot` call it comes from, if any. -/
structure Unsent (Cmd : Type) where
  msg : ApplyMsg Cmd
  call : Option ℕ
deriving DecidableEq, Repr

/-- One server process.  `alive` is false once an index was out of range.
`applyCh` holds the messages received in this incarnation, `restored` the
`LastIncludedIndex` that `Make` restored. -/
structure Server (n : ℕ) (Cmd : Type) where
  rf : Raft n Cmd
  alive : Bool
  incarnation : ℕ
  elections : List Election
  jobs : List (SnapshotJob n)
  unsent : List (Unsent Cmd)
  applyCh : List (ApplyMsg Cmd)
  restored : ℤ
deriving DecidableEq, Repr

/-- What can be observed of a run. -/
inductive Event (n : ℕ) (Cmd : Type)
  | voted (voter : Fin n) (term : ℕ) (candidate : Fin n)
  | elected (server : Fin n) (term : ℕ)
  | started (server : Fin n) (command : Cmd) (index term : ℤ)
  | snapshotted (server : Fin n) (index : ℤ) (data : Bytes)
  | acked (server : Fin n) (term entries : ℕ)
  | installed (server : Fin n) (term : ℕ)
  | applied (server : Fin n) (incarnation : ℕ) (msg : ApplyMsg Cmd)
deriving DecidableEq, Repr

/-- For the numerals that name the servers of a cluster of three. -/
instance instNeZeroThree : NeZero 3 := ⟨by decide⟩

structure Cluster (n : ℕ) (Cmd : Type) where
  server : Fin n → Server n Cmd
  voteCalls : List (VoteCall n)
  appendCalls : List (AppendCall n Cmd)
  snapCalls : List (SnapCall n)
  events : List (Event n Cmd)

inductive Action (Cmd : Type) (n : ℕ)
  | elect (s : Fin n)
  | heartbeat (s : Fin n)
  | deliverVote (k : ℕ)
  | checkVote (k : ℕ)
  | countVote (k : ℕ)
  | promote (k : ℕ)
  | finishVote (k : ℕ)
  | deliverAppend (k : ℕ)
  | replyAppend (k : ℕ)
  | deliverSnap (k : ℕ)
  | replySnap (k : ℕ)
  | sendJob (s : Fin n) (k : ℕ)
  | start (s : Fin n) (command : Cmd)
  | snapshot (s : Fin n) (index : ℤ) (data : Bytes)
  | apply (s : Fin n)
  | receive (s : Fin n) (k : ℕ)
  | restart (s : Fin n)
deriving DecidableEq, Repr

variable {n : ℕ} {Cmd : Type}

/-- A process as `Make` starts it. -/
def boot [Zero Cmd] (s : Fin n) (incarnation : ℕ)
    (persister : Persister n Cmd) : Server n Cmd where
  rf := Raft.make s persister
  alive := true
  incarnation := incarnation
  elections := []
  jobs := []
  unsent := []
  applyCh := []
  restored := (Raft.make s persister).lastIncludedIndex

/-- No message of `ApplyGoroutine` is waiting to be received. -/
def Server.ApplierFree (srv : Server n Cmd) : Prop :=
  ∀ u ∈ srv.unsent, u.call ≠ none

instance (srv : Server n Cmd) : Decidable srv.ApplierFree :=
  inferInstanceAs (Decidable (∀ u ∈ srv.unsent, u.call ≠ none))

/-- The handler of a blocked call returns. -/
def SnapCall.unblock (call : SnapCall n) : SnapCall n :=
  match call.phase with
  | .blocked reply => { call with phase := .replied reply }
  | _ => call

namespace Cluster

/-- All servers start with empty persisters. -/
def init [Zero Cmd] : Cluster n Cmd where
  server := fun s ↦ boot s 0 { raftstate := none, snapshot := [] }
  voteCalls := []
  appendCalls := []
  snapCalls := []
  events := []

def setServer (σ : Cluster n Cmd) (s : Fin n) (srv : Server n Cmd) :
    Cluster n Cmd :=
  { σ with server := Function.update σ.server s srv }

/-- Replace the `Raft` value of server `s`. -/
def setRf (σ : Cluster n Cmd) (s : Fin n) (rf : Raft n Cmd) :
    Cluster n Cmd :=
  σ.setServer s { σ.server s with rf := rf }

/-- An index out of range stops server `s`. -/
def stop (σ : Cluster n Cmd) (s : Fin n) (rf : Raft n Cmd) :
    Cluster n Cmd :=
  σ.setServer s { σ.server s with rf := rf, alive := false }

def setVotePhase (σ : Cluster n Cmd) (k : ℕ) (call : VoteCall n)
    (phase : VotePhase) : Cluster n Cmd :=
  { σ with voteCalls := σ.voteCalls.set k { call with phase := phase } }

def setAppendPhase (σ : Cluster n Cmd) (k : ℕ) (call : AppendCall n Cmd)
    (phase : CallPhase AppendEntriesReply) : Cluster n Cmd :=
  { σ with appendCalls := σ.appendCalls.set k { call with phase := phase } }

def setSnapPhase (σ : Cluster n Cmd) (k : ℕ) (call : SnapCall n)
    (phase : CallPhase SnapshotRelpay) : Cluster n Cmd :=
  { σ with snapCalls := σ.snapCalls.set k { call with phase := phase } }

def record (σ : Cluster n Cmd) (events : List (Event n Cmd)) :
    Cluster n Cmd :=
  { σ with events := σ.events ++ events }

/-- The calls that server `s` makes for the prepared heartbeats. -/
def appendCallsOf (s : Fin n) (incarnation : ℕ)
    (out : List (Outgoing n Cmd)) : List (AppendCall n Cmd) :=
  out.filterMap fun
    | .appendEntries peer args =>
        some
          { caller := s
            incarnation := incarnation
            peer := peer
            args := args
            phase := .sent }
    | .snapshot _ => none

def jobsOf (out : List (Outgoing n Cmd)) : List (SnapshotJob n) :=
  out.filterMap fun
    | .appendEntries _ _ => none
    | .snapshot job => some job

/-- Hand the prepared heartbeats of server `s` over to its sending loop. -/
def launch (σ : Cluster n Cmd) (s : Fin n) (rf : Raft n Cmd)
    (out : List (Outgoing n Cmd)) : Cluster n Cmd :=
  let srv := σ.server s
  { σ.setServer s { srv with rf := rf, jobs := srv.jobs ++ jobsOf out } with
    appendCalls :=
      σ.appendCalls ++ appendCallsOf s srv.incarnation out }

/-- Server `s` has a new vote counter and asks all peers for their votes. -/
def openElection (σ : Cluster n Cmd) (s : Fin n) (rf : Raft n Cmd)
    (args : RequestVoteArgs n) : Cluster n Cmd :=
  let srv := σ.server s
  { σ.setServer s
      { srv with
        rf := rf
        elections := srv.elections ++ [{ term := args.term, vote := 1 }] } with
    voteCalls :=
      σ.voteCalls ++ (Raft.others rf.me).map fun peer ↦
        { caller := s
          incarnation := srv.incarnation
          peer := peer
          args := args
          election := srv.elections.length
          phase := .sent }
    events := σ.events ++ [.voted s args.term s] }

/-- Server `s` calls `InstallSnapshot` on a peer. -/
def callSnap (σ : Cluster n Cmd) (s : Fin n) (incarnation : ℕ)
    (peer : Fin n) (args : SnapshotArgs n) : Cluster n Cmd :=
  { σ with
    snapCalls := σ.snapCalls ++
      [{ caller := s
         incarnation := incarnation
         peer := peer
         args := args
         phase := .sent }] }

/-- `ElectionGoroutine` finds its timeout expired. -/
def elect (σ : Cluster n Cmd) (s : Fin n) : Option (Cluster n Cmd) :=
  let srv := σ.server s
  if srv.alive ∧ srv.rf.state = .follower then
    match srv.rf.electLauncher with
    | .panic rf => some (σ.stop s rf)
    | .done rf args => some (σ.openElection s rf args)
  else
    none

/-- One round of `HeartBeatGoroutine` on a leader. -/
def heartbeat (σ : Cluster n Cmd) (s : Fin n) : Option (Cluster n Cmd) :=
  let srv := σ.server s
  if srv.alive ∧ srv.rf.state = .leader then
    match srv.rf.heartBeatLauncher with
    | .panic rf => some (σ.stop s rf)
    | .done rf out => some (σ.launch s rf out)
  else
    none

/-- `RequestVoteHandler` executes request `k`. -/
def deliverVote (σ : Cluster n Cmd) (k : ℕ) : Option (Cluster n Cmd) :=
  match σ.voteCalls[k]? with
  | none => none
  | some call =>
      let srv := σ.server call.peer
      if call.phase = .sent ∧ srv.alive then
        match srv.rf.requestVoteHandler call.args with
        | .panic rf =>
            some ((σ.stop call.peer rf).setVotePhase k call .finished)
        | .done rf reply =>
            some (((σ.setRf call.peer rf).setVotePhase k call
              (.replied reply)).record
                (if reply.voteGranted then
                  [.voted call.peer call.args.term call.args.candidateId]
                else []))
      else
        none

/-- The caller of call `k`, provided it still is in the incarnation that made
the call. -/
def Resumes (σ : Cluster n Cmd) (caller : Fin n) (incarnation : ℕ) : Prop :=
  (σ.server caller).alive ∧ (σ.server caller).incarnation = incarnation

instance (σ : Cluster n Cmd) (caller : Fin n) (incarnation : ℕ) :
    Decidable (σ.Resumes caller incarnation) :=
  inferInstanceAs (Decidable (_ ∧ _))

/-- The term check of `SendRequestVote`. -/
def checkVote (σ : Cluster n Cmd) (k : ℕ) : Option (Cluster n Cmd) :=
  match σ.voteCalls[k]? with
  | none => none
  | some call =>
      match call.phase with
      | .replied reply =>
          if σ.Resumes call.caller call.incarnation then
            let result :=
              (σ.server call.caller).rf.checkVoteReply call.args
            some ((σ.setRf call.caller result.1).setVotePhase k call
              (if result.2 then .checked reply else .finished))
          else
            none
      | _ => none

/-- The vote count of `SendRequestVote` and its unlocked test of `VotedFor`. -/
def countVote (σ : Cluster n Cmd) (k : ℕ) : Option (Cluster n Cmd) :=
  match σ.voteCalls[k]? with
  | none => none
  | some call =>
      match call.phase with
      | .checked reply =>
          let srv := σ.server call.caller
          if σ.Resumes call.caller call.incarnation then
            if reply.voteGranted then
              match srv.elections[call.election]? with
              | none => none
              | some election =>
                  let vote := election.vote + 1
                  some ((σ.setServer call.caller
                    { srv with
                      elections := srv.elections.set call.election
                        { election with vote := vote } }).setVotePhase k call
                    (if vote > n / 2 ∧ srv.rf.votedFor = some srv.rf.me then
                      .won reply
                    else
                      .counted reply))
            else
              some (σ.setVotePhase k call (.counted reply))
          else
            none
      | _ => none

/-- The promotion section of `SendRequestVote`, which passes the lock on to
`HeartBeatLauncher`. -/
def promote (σ : Cluster n Cmd) (k : ℕ) : Option (Cluster n Cmd) :=
  match σ.voteCalls[k]? with
  | none => none
  | some call =>
      match call.phase with
      | .won reply =>
          let s := call.caller
          if σ.Resumes s call.incarnation then
            let rf := (σ.server s).rf.becomeLeader
            match rf.heartBeatLauncher with
            | .panic rf =>
                some (((σ.stop s rf).setVotePhase k call .finished).record
                  [.elected s rf.currentTerm])
            | .done rf out =>
                some (((σ.launch s rf out).setVotePhase k call
                  (.counted reply)).record [.elected s rf.currentTerm])
          else
            none
      | _ => none

/-- The last section of `SendRequestVote`. -/
def finishVote (σ : Cluster n Cmd) (k : ℕ) : Option (Cluster n Cmd) :=
  match σ.voteCalls[k]? with
  | none => none
  | some call =>
      match call.phase with
      | .counted reply =>
          if σ.Resumes call.caller call.incarnation then
            let rf := (σ.server call.caller).rf.finishVoteReply reply
            some ((σ.setRf call.caller rf).setVotePhase k call .finished)
          else
            none
      | _ => none

/-- `HeartbeatHandler` executes request `k`. -/
def deliverAppend (σ : Cluster n Cmd) (k : ℕ) : Option (Cluster n Cmd) :=
  match σ.appendCalls[k]? with
  | none => none
  | some call =>
      let srv := σ.server call.peer
      if call.phase = .sent ∧ srv.alive then
        match srv.rf.heartbeatHandler call.args with
        | .panic rf =>
            some ((σ.stop call.peer rf).setAppendPhase k call .finished)
        | .done rf reply =>
            some (((σ.setRf call.peer rf).setAppendPhase k call
              (.replied reply)).record
                (if reply.success then
                  [.acked call.peer call.args.term call.args.entries.length]
                else []))
      else
        none

/-- `SendHeartbeat` resumes with the reply of call `k`. -/
def replyAppend (σ : Cluster n Cmd) (k : ℕ) : Option (Cluster n Cmd) :=
  match σ.appendCalls[k]? with
  | none => none
  | some call =>
      match call.phase with
      | .replied reply =>
          let s := call.caller
          if σ.Resumes s call.incarnation then
            match (σ.server s).rf.sendHeartbeat call.peer call.args reply with
            | .panic rf =>
                some ((σ.stop s rf).setAppendPhase k call .finished)
            | .done rf none =>
                some ((σ.setRf s rf).setAppendPhase k call .finished)
            | .done rf (some args) =>
                some (((σ.setRf s rf).setAppendPhase k call .finished).callSnap
                  s call.incarnation call.peer args)
          else
            none
      | _ => none

/-- `InstallSnapshot` executes request `k`, up to its send on `ApplyCh`. -/
def deliverSnap [Zero Cmd] (σ : Cluster n Cmd) (k : ℕ) :
    Option (Cluster n Cmd) :=
  match σ.snapCalls[k]? with
  | none => none
  | some call =>
      let srv := σ.server call.peer
      if call.phase = .sent ∧ srv.alive then
        match srv.rf.installSnapshot call.args with
        | .panic rf =>
            some ((σ.stop call.peer rf).setSnapPhase k call .finished)
        | .done rf (reply, none) =>
            some ((σ.setRf call.peer rf).setSnapPhase k call (.replied reply))
        | .done rf (reply, some msg) =>
            some (((σ.setServer call.peer
              { srv with
                rf := rf
                unsent := srv.unsent ++ [⟨msg, some k⟩] }).setSnapPhase k call
                  (.blocked reply)).record
                    [.installed call.peer call.args.term])
      else
        none

/-- `SendSnapshot` resumes with the reply of call `k`. -/
def replySnap (σ : Cluster n Cmd) (k : ℕ) : Option (Cluster n Cmd) :=
  match σ.snapCalls[k]? with
  | none => none
  | some call =>
      match call.phase with
      | .replied reply =>
          let s := call.caller
          if σ.Resumes s call.incarnation then
            match (σ.server s).rf.sendSnapshot call.peer call.args reply with
            | .panic rf => some ((σ.stop s rf).setSnapPhase k call .finished)
            | .done rf _ => some ((σ.setRf s rf).setSnapPhase k call .finished)
          else
            none
      | _ => none

/-- The sending loop of `HeartBeatLauncher` reads `rf.SnapshotData` without the
lock and sends the snapshot. -/
def sendJob (σ : Cluster n Cmd) (s : Fin n) (k : ℕ) :
    Option (Cluster n Cmd) :=
  let srv := σ.server s
  match srv.jobs[k]? with
  | none => none
  | some job =>
      if srv.alive then
        some ((σ.setServer s { srv with jobs := srv.jobs.eraseIdx k }).callSnap
          s srv.incarnation job.peer
          { term := job.term
            leaderId := job.leaderId
            lastIncludedIndex := job.lastIncludedIndex
            lastIncludedTerm := job.lastIncludedTerm
            snapdata := srv.rf.snapshotData })
      else
        none

/-- The service calls `Start`. -/
def start (σ : Cluster n Cmd) (s : Fin n) (command : Cmd) :
    Option (Cluster n Cmd) :=
  let srv := σ.server s
  if srv.alive then
    let result := srv.rf.start command
    some ((σ.setRf s result.1).record
      (if result.2.2.2 then
        [.started s command result.2.1 result.2.2.1]
      else []))
  else
    none

/-- The service calls `Snapshot`. -/
def snapshot (σ : Cluster n Cmd) (s : Fin n) (index : ℤ) (data : Bytes) :
    Option (Cluster n Cmd) :=
  let srv := σ.server s
  if srv.alive then
    match srv.rf.snapshot index data with
    | .panic rf => some (σ.stop s rf)
    | .done rf _ =>
        some ((σ.setRf s rf).record [.snapshotted s index data])
  else
    none

/-- One round of `ApplyGoroutine`, up to its send on `ApplyCh`. -/
def apply (σ : Cluster n Cmd) (s : Fin n) : Option (Cluster n Cmd) :=
  let srv := σ.server s
  if srv.alive ∧ srv.rf.commitIndex > srv.rf.lastApplied ∧
      srv.ApplierFree then
    match srv.rf.applyGoroutine with
    | .panic rf => some (σ.stop s rf)
    | .done rf msg =>
        some (σ.setServer s
          { srv with rf := rf, unsent := srv.unsent ++ [⟨msg, none⟩] })
  else
    none

/-- Message `u`, the unsent message number `k` of server `s`, is received. -/
def handOver (σ : Cluster n Cmd) (s : Fin n) (k : ℕ) (u : Unsent Cmd) :
    Cluster n Cmd :=
  let srv := σ.server s
  { σ.setServer s
      { srv with
        unsent := srv.unsent.eraseIdx k
        applyCh := srv.applyCh ++ [u.msg] } with
    snapCalls :=
      match u.call with
      | none => σ.snapCalls
      | some j => σ.snapCalls.modify j SnapCall.unblock
    events := σ.events ++ [.applied s srv.incarnation u.msg] }

/-- The service receives one of the unsent messages on `ApplyCh`. -/
def receive (σ : Cluster n Cmd) (s : Fin n) (k : ℕ) :
    Option (Cluster n Cmd) :=
  let srv := σ.server s
  match srv.unsent[k]? with
  | none => none
  | some u =>
      if srv.alive then some (σ.handOver s k u) else none

/-- Server `s` crashes and is started again from its persister. -/
def restart [Zero Cmd] (σ : Cluster n Cmd) (s : Fin n) :
    Option (Cluster n Cmd) :=
  let srv := σ.server s
  some (σ.setServer s (boot s (srv.incarnation + 1) srv.rf.persister))

/-- One step of the cluster. -/
def step [Zero Cmd] (σ : Cluster n Cmd) : Action Cmd n → Option (Cluster n Cmd)
  | .elect s => σ.elect s
  | .heartbeat s => σ.heartbeat s
  | .deliverVote k => σ.deliverVote k
  | .checkVote k => σ.checkVote k
  | .countVote k => σ.countVote k
  | .promote k => σ.promote k
  | .finishVote k => σ.finishVote k
  | .deliverAppend k => σ.deliverAppend k
  | .replyAppend k => σ.replyAppend k
  | .deliverSnap k => σ.deliverSnap k
  | .replySnap k => σ.replySnap k
  | .sendJob s k => σ.sendJob s k
  | .start s command => σ.start s command
  | .snapshot s index data => σ.snapshot s index data
  | .apply s => σ.apply s
  | .receive s k => σ.receive s k
  | .restart s => σ.restart s

/-- Server `s` campaigns, and the answer to vote request number `k` makes it a
leader. -/
def winning (s : Fin n) (k : ℕ) : List (Action Cmd n) :=
  [.elect s, .deliverVote k, .checkVote k, .countVote k, .promote k]

/-- Server 0 wins term 1 and commits two commands, which server 1 holds as
well. -/
def committingRun : List (Action ℕ 3) :=
  winning 0 0 ++ [.start 0 5, .start 0 6, .heartbeat 0, .deliverAppend 2,
    .replyAppend 2]

/-- Server 0 applies both commands and compacts the first. -/
def compactedRun : List (Action ℕ 3) :=
  committingRun ++ [.apply 0, .receive 0 0, .apply 0, .receive 0 0,
    .snapshot 0 1 [1]]

end Cluster

end DistLabs
