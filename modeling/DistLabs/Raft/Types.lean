import Mathlib.Algebra.GroupWithZero.Nat
import Mathlib.Data.Int.Order.Basic
import Mathlib.Data.Nat.Basic
import Mathlib.Data.List.Basic

/-!
# The data of one Raft server

Terms are natural numbers, and indices are integers because the code computes
physical indices below zero and uses `-1` as a marker.  Server identifiers
range over `Fin n`, where `n` is `len(rf.peers)`, and `VotedFor = -1` is
`none`.  Time stamps are left out: a timeout may fire at any moment.
-/

namespace DistLabs

/-- Values of `rf.State`. -/
inductive ServerState
  | follower
  | leader
  | candidate
deriving DecidableEq, Repr

abbrev Bytes := List UInt8

/-- One log entry, the source's `Log`. -/
structure LogEntry (Cmd : Type) where
  logTerm : ℕ
  command : Cmd
deriving DecidableEq, Repr

/-- A message for the service: `CommandValid` and `SnapshotValid` tell the two
forms apart. -/
inductive ApplyMsg (Cmd : Type)
  | command (command : Cmd) (commandIndex : ℤ)
  | snapshot (snapshot : Bytes) (snapshotTerm : ℕ) (snapshotIndex : ℤ)
deriving DecidableEq, Repr

structure RequestVoteArgs (n : ℕ) where
  term : ℕ
  candidateId : Fin n
  lastLogIndex : ℤ
  lastLogTerm : ℕ
deriving DecidableEq, Repr

structure RequestVoteReply where
  term : ℕ
  voteGranted : Bool
deriving DecidableEq, Repr

structure AppendEntriesArgs (n : ℕ) (Cmd : Type) where
  term : ℕ
  leaderId : Fin n
  prevLogIndex : ℤ
  prevLogTerm : ℕ
  entries : List (LogEntry Cmd)
  leaderCommit : ℤ
deriving DecidableEq, Repr

structure AppendEntriesReply where
  term : ℕ
  success : Bool
  xTerm : ℤ
  xLen : ℤ
  xIndex : ℤ
deriving DecidableEq, Repr

structure SnapshotArgs (n : ℕ) where
  term : ℕ
  leaderId : Fin n
  lastIncludedIndex : ℤ
  lastIncludedTerm : ℕ
  snapdata : Bytes
deriving DecidableEq, Repr

structure SnapshotRelpay where
  term : ℕ
deriving DecidableEq, Repr

/-- The five values that `persist` encodes and `readPersist` decodes. -/
structure RaftState (n : ℕ) (Cmd : Type) where
  currentTerm : ℕ
  votedFor : Option (Fin n)
  log : List (LogEntry Cmd)
  lastIncludedIndex : ℤ
  lastIncludedTerm : ℕ
deriving DecidableEq, Repr

/-- Stable storage; `none` stands for the empty state of a new persister. -/
structure Persister (n : ℕ) (Cmd : Type) where
  raftstate : Option (RaftState n Cmd)
  snapshot : Bytes
deriving DecidableEq, Repr

/-- The fields of the source's `Raft` that its methods read or write. -/
structure Raft (n : ℕ) (Cmd : Type) where
  currentTerm : ℕ
  commitIndex : ℤ
  lastApplied : ℤ
  me : Fin n
  votedFor : Option (Fin n)
  state : ServerState
  log : List (LogEntry Cmd)
  nextIndex : List ℤ
  matchIndex : List ℤ
  logLength : ℤ
  snapshotData : Bytes
  lastIncludedIndex : ℤ
  lastIncludedTerm : ℕ
  persister : Persister n Cmd
deriving DecidableEq, Repr

/-- A snapshot that `HeartBeatLauncher` has decided to send: everything but the
data, which its sending loop reads after releasing the lock. -/
structure SnapshotJob (n : ℕ) where
  peer : Fin n
  term : ℕ
  leaderId : Fin n
  lastIncludedIndex : ℤ
  lastIncludedTerm : ℕ
deriving DecidableEq, Repr

/-- What `HeartBeatLauncher` prepares for one peer. -/
inductive Outgoing (n : ℕ) (Cmd : Type)
  | appendEntries (peer : Fin n) (args : AppendEntriesArgs n Cmd)
  | snapshot (job : SnapshotJob n)
deriving DecidableEq, Repr

/-- Result of a lock-protected section.  An index out of range ends the process
in the state reached so far. -/
inductive Outcome (n : ℕ) (Cmd α : Type)
  | done (rf : Raft n Cmd) (value : α)
  | panic (rf : Raft n Cmd)

/-- Indexing of a slice; `none` is an index out of range. -/
def elemAt {α : Type} (xs : List α) (i : ℤ) : Option α :=
  if 0 ≤ i then xs[i.toNat]? else none

theorem elemAt_of_nonneg {α : Type} {xs : List α} {i : ℤ} (hi : 0 ≤ i) :
    elemAt xs i = xs[i.toNat]? :=
  if_pos hi

theorem elemAt_natCast {α : Type} (xs : List α) (k : ℕ) :
    elemAt xs (k : ℤ) = xs[k]? := by
  simp [elemAt]

theorem elemAt_eq_some_iff {α : Type} {xs : List α} {i : ℤ} {x : α} :
    elemAt xs i = some x ↔ ∃ k : ℕ, i = k ∧ xs[k]? = some x := by
  constructor
  · intro h
    unfold elemAt at h
    split at h
    · next hi => exact ⟨i.toNat, by omega, h⟩
    · simp at h
  · rintro ⟨k, rfl, h⟩
    rwa [elemAt_natCast]

theorem elemAt_isSome_iff {α : Type} {xs : List α} {i : ℤ} :
    (elemAt xs i).isSome ↔ 0 ≤ i ∧ i < xs.length := by
  rw [Option.isSome_iff_exists]
  constructor
  · rintro ⟨x, hx⟩
    obtain ⟨k, rfl, hk⟩ := elemAt_eq_some_iff.mp hx
    have hlt := (List.getElem?_eq_some_iff.mp hk).1
    omega
  · rintro ⟨hnonneg, hlt⟩
    have hk : i.toNat < xs.length := by omega
    exact ⟨xs[i.toNat], elemAt_eq_some_iff.mpr
      ⟨i.toNat, by omega, List.getElem?_eq_getElem hk⟩⟩

end DistLabs
