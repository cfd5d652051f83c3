import DistLabs.Raft.CommitScan
import Mathlib.Order.Bounds.Basic

/-!
# How the commit index moves

The commit scan of a leader mixes the test of the term into the count of the
servers, and counts the leader even when the test fails.  In a cluster of at
least two servers it still finds the greatest index that Raft's rule allows.

A follower commits up to `min(LeaderCommit, LogLength-1)`, where its log may be
longer than what the request has checked.  The requests of a leader reach to
the end of its log, and therefore to its commit index.
-/

namespace DistLabs

variable {n : ℕ} {Cmd : Type}

namespace Raft

/-! ## The leader -/

variable {rf : Raft n Cmd}

/-- The scan from `CommitIndex + k` down finds the greatest index that the rule
allows, if there is one. -/
theorem commitScan_greatest (hn : 2 ≤ n) (hmatch : rf.matchIndex.length = n)
    {k : ℕ} (hend : rf.commitIndex + k ≤ rf.logLength - 1)
    (hlog : ∀ N, rf.commitIndex < N → N ≤ rf.commitIndex + k →
      ∃ e, elemAt rf.log (rf.v2pIndex N) = some e) :
    ∃ rf', rf.commitScan k = .done rf' () ∧
      (IsGreatest {N | N ≤ rf.commitIndex + k ∧ rf.Committable N}
          rf'.commitIndex ∨
        (∀ N, N ≤ rf.commitIndex + k → ¬ rf.Committable N) ∧
          rf'.commitIndex = rf.commitIndex) := by
  induction k with
  | zero =>
      refine ⟨rf, rfl, Or.inr ⟨fun N hN h ↦ ?_, rfl⟩⟩
      have := h.new
      omega
  | succ k ih =>
      obtain ⟨e, hentry⟩ := hlog (rf.commitIndex + (k + 1 : ℕ)) (by omega)
        le_rfl
      obtain ⟨count, hcount, hiff⟩ := countReplicas_majority hn hmatch hentry
      unfold commitScan
      simp only [hcount]
      by_cases hmajority : count > n / 2
      · rw [if_pos hmajority]
        obtain ⟨hterm, hheld⟩ := hiff.mp hmajority
        have hnew : rf.Committable (rf.commitIndex + (k + 1 : ℕ)) :=
          ⟨by omega, hend, ⟨e, hentry, hterm⟩, hheld⟩
        exact ⟨_, rfl, Or.inl ⟨⟨le_rfl, hnew⟩, fun N hN ↦ hN.1⟩⟩
      · rw [if_neg hmajority]
        have hnot : ¬ rf.Committable (rf.commitIndex + (k + 1 : ℕ)) := by
          rintro ⟨_, _, ⟨e', he', hterm⟩, hheld⟩
          rw [Option.some.inj (he'.symm.trans hentry)] at hterm
          exact hmajority (hiff.mpr ⟨hterm, hheld⟩)
        have hbelow : ∀ N, N ≤ rf.commitIndex + (k + 1 : ℕ) →
            rf.Committable N → N ≤ rf.commitIndex + k := by
          intro N hle hN
          have hne : N ≠ rf.commitIndex + (k + 1 : ℕ) := by
            rintro rfl
            exact hnot hN
          omega
        obtain ⟨rf', hrun, hcase⟩ := ih (by omega)
          fun N hlow hhigh ↦ hlog N hlow (by omega)
        refine ⟨rf', hrun, ?_⟩
        rcases hcase with ⟨⟨hle, hmem⟩, hupper⟩ | ⟨hnone, hsame⟩
        · exact Or.inl ⟨⟨by omega, hmem⟩,
            fun N hN ↦ hupper ⟨hbelow N hN.1 hN.2, hN.2⟩⟩
        · exact Or.inr ⟨fun N hle hN ↦ hnone N (hbelow N hle hN) hN, hsame⟩

/-- On the reply to an accepted request with entries, a leader commits the
greatest index that Raft's rule allows with the match indices as they are then,
and keeps its commit index if there is none. -/
theorem commit_rule (hn : 2 ≤ n) (hmatch : rf.matchIndex.length = n)
    (hlength : rf.logLength = rf.lastIncludedIndex + rf.log.length)
    (hlow : rf.lastIncludedIndex ≤ rf.commitIndex)
    (hhigh : rf.commitIndex ≤ rf.logLength - 1)
    {peer : Fin n} (hnext : peer.val < rf.nextIndex.length)
    {args : AppendEntriesArgs n Cmd} (hentries : args.entries ≠ [])
    (hterm : args.term = rf.currentTerm)
    {follower follower' : Raft n Cmd} {reply : AppendEntriesReply}
    (hreply : follower.heartbeatHandler args = .done follower' reply)
    (hsuccess : reply.success = true) :
    ∃ rf', rf.sendHeartbeat peer args reply = .done rf' none ∧
      ((∃ N, (rf.matched peer args).Committable N) →
        IsGreatest {N | (rf.matched peer args).Committable N}
          rf'.commitIndex) ∧
      ((¬ ∃ N, (rf.matched peer args).Committable N) →
        rf'.commitIndex = rf.commitIndex) := by
  have hcurrent : reply.term ≤ args.term := by
    rw [heartbeatHandler_reply_term hreply]
    exact heartbeatHandler_success_term hreply hsuccess
  set rf₁ := rf.matched peer args with hrf₁
  have hmatch₁ : rf₁.matchIndex.length = n := by
    rw [hrf₁, matched, List.length_set]
    exact hmatch
  have hend : rf₁.commitIndex +
      ((rf.logLength - 1 - rf.commitIndex).toNat : ℕ) = rf₁.logLength - 1 := by
    change rf.commitIndex + _ = rf.logLength - 1
    omega
  have hlog : ∀ N, rf₁.commitIndex < N →
      N ≤ rf₁.commitIndex + (rf.logLength - 1 - rf.commitIndex).toNat →
      ∃ e, elemAt rf₁.log (rf₁.v2pIndex N) = some e := by
    intro N hN hle
    apply Option.isSome_iff_exists.mp
    rw [elemAt_isSome_iff]
    change 0 ≤ N - rf.lastIncludedIndex ∧
      N - rf.lastIncludedIndex < rf.log.length
    rw [hend] at hle
    change rf.commitIndex < N at hN
    change N ≤ rf.logLength - 1 at hle
    omega
  obtain ⟨rf', hscan, hcase⟩ := commitScan_greatest hn hmatch₁
    (le_of_eq hend) hlog
  have hrecord : rf.recordSuccess peer args = .done rf' () := by
    rw [recordSuccess_eq hmatch hnext, if_pos (by simpa using hentries)]
    exact hscan
  have hbound : ∀ N, rf₁.Committable N →
      N ≤ rf₁.commitIndex + (rf.logLength - 1 - rf.commitIndex).toNat := by
    intro N hN
    rw [hend]
    exact hN.inLog
  refine ⟨rf', ?_, ?_, ?_⟩
  · unfold sendHeartbeat
    rw [if_neg (not_not.mpr hterm.symm), if_neg (not_lt.mpr hcurrent),
      if_pos hsuccess, hrecord]
  · rintro ⟨N, hN⟩
    rcases hcase with ⟨⟨_, hmem⟩, hupper⟩ | ⟨hnone, _⟩
    · exact ⟨hmem, fun M hM ↦ hupper ⟨hbound M hM, hM⟩⟩
    · exact absurd hN (hnone N (hbound N hN))
  · intro hno
    rcases hcase with ⟨⟨_, hmem⟩, _⟩ | ⟨_, hsame⟩
    · exact absurd ⟨_, hmem⟩ hno
    · exact hsame

/-- The leader of term 2 in a cluster of three, with one committed entry of
term 1 and two new entries. -/
def committingLeader : Raft 3 ℕ where
  currentTerm := 2
  commitIndex := 1
  lastApplied := 0
  me := 0
  votedFor := some 0
  state := .leader
  log := [⟨0, 0⟩, ⟨1, 5⟩, ⟨2, 6⟩, ⟨2, 7⟩]
  nextIndex := [4, 2, 4]
  matchIndex := [-1, 1, -1]
  logLength := 4
  snapshotData := []
  lastIncludedIndex := 0
  lastIncludedTerm := 0
  persister := ⟨none, []⟩

/-- A follower of term 1 that holds the committed entry and another one. -/
def trailingFollower : Raft 3 ℕ where
  currentTerm := 1
  commitIndex := 0
  lastApplied := 0
  me := 1
  votedFor := none
  state := .follower
  log := [⟨0, 0⟩, ⟨1, 5⟩, ⟨1, 9⟩]
  nextIndex := []
  matchIndex := []
  logLength := 3
  snapshotData := []
  lastIncludedIndex := 0
  lastIncludedTerm := 0
  persister := ⟨none, []⟩

/-- What the leader sends to server 1. -/
def replicatingRequest : AppendEntriesArgs 3 ℕ where
  term := 2
  leaderId := 0
  prevLogIndex := 1
  prevLogTerm := 1
  entries := [⟨2, 6⟩, ⟨2, 7⟩]
  leaderCommit := 1

/-- With two of three servers the leader commits its last entry. -/
theorem commit_rule_replicated :
    ∃ reply rf', committingLeader.sendHeartbeat 1 replicatingRequest reply =
        .done rf' none ∧
      (committingLeader.matched 1 replicatingRequest).Committable 3 ∧
      IsGreatest
        {N | (committingLeader.matched 1 replicatingRequest).Committable N}
        rf'.commitIndex := by
  obtain ⟨rf', hrun, hgreatest, _⟩ : ∃ rf', committingLeader.sendHeartbeat 1
      replicatingRequest ⟨1, true, 0, 0, 0⟩ = .done rf' none ∧ _ :=
    commit_rule (by decide) rfl rfl (by decide) (by decide) (by decide)
      (by decide) rfl
      (rfl : trailingFollower.heartbeatHandler replicatingRequest = .done _ _)
      rfl
  have hlast : (committingLeader.matched 1 replicatingRequest).Committable
      3 := ⟨by decide, by decide, ⟨⟨2, 7⟩, by decide, rfl⟩, by decide⟩
  exact ⟨_, rf', hrun, hlast, hgreatest ⟨3, hlast⟩⟩

/-! ## The follower -/

/-- Request `args` carries the log of `leader` from index `next` to its end. -/
structure Carries (leader : Raft n Cmd) (next : ℤ)
    (args : AppendEntriesArgs n Cmd) : Prop where
  term : args.term = leader.currentTerm
  prevLogIndex : args.prevLogIndex = next - 1
  prevLogTerm : ∃ prev,
    elemAt leader.log (leader.v2pIndex args.prevLogIndex) = some prev ∧
      args.prevLogTerm = prev.logTerm
  last : args.prevLogIndex + args.entries.length = leader.logLength - 1
  entries : args.entries = leader.log.drop (leader.v2pIndex next).toNat

/-- A peer whose next index is above the sentinel is sent the log from there
on. -/
theorem prepare_carries {leader : Raft n Cmd}
    (hlength : leader.logLength =
      leader.lastIncludedIndex + leader.log.length)
    {i : Fin n} {next : ℤ} (hnext : leader.nextIndex[i.val]? = some next)
    (hlow : leader.lastIncludedIndex < next)
    (hhigh : next ≤ leader.logLength) :
    ∃ args, leader.prepare i = some (.appendEntries i args) ∧
      leader.Carries next args ∧
      args.leaderCommit = leader.commitIndex := by
  obtain ⟨prev, hprev⟩ : ∃ prev,
      elemAt leader.log (leader.v2pIndex next - 1) = some prev := by
    apply Option.isSome_iff_exists.mp
    rw [elemAt_isSome_iff]
    unfold v2pIndex
    omega
  have hindex : leader.v2pIndex (next - 1) = leader.v2pIndex next - 1 := by
    unfold v2pIndex
    omega
  have hphysical : ¬ leader.v2pIndex next - 1 < 0 := by
    unfold v2pIndex
    omega
  have hentries : (if leader.logLength > next then
      leader.log.drop (leader.v2pIndex next).toNat else []) =
      leader.log.drop (leader.v2pIndex next).toNat := by
    split
    · rfl
    · symm
      rw [List.drop_eq_nil_iff]
      unfold v2pIndex
      omega
  unfold prepare
  simp only [hnext, hphysical, if_false, hprev, hentries]
  refine ⟨_, rfl, ⟨rfl, rfl, ⟨prev, by rw [hindex, hprev], rfl⟩, ?_, rfl⟩, rfl⟩
  simp only [List.length_drop]
  unfold v2pIndex
  omega

/-- A follower that has accepted such a request holds the leader's entries
from there on. -/
theorem Carries.accepted {leader : Raft n Cmd} {next : ℤ}
    {args : AppendEntriesArgs n Cmd} (h : leader.Carries next args)
    (hlow : leader.lastIncludedIndex < next) {k : ℕ}
    (hk : rf.v2pIndex args.prevLogIndex = k) (hlt : k < rf.log.length)
    {N : ℤ} (hN : args.prevLogIndex < N) (hle : N ≤ leader.logLength - 1) :
    ∃ e, elemAt (rf.accepted args).log (rf.v2pIndex N) = some e ∧
      elemAt leader.log (leader.v2pIndex N) = some e := by
  have hprev := h.prevLogIndex
  have hlast := h.last
  obtain ⟨j, rfl⟩ : ∃ j : ℕ, N = args.prevLogIndex + 1 + j :=
    ⟨(N - args.prevLogIndex - 1).toNat, by omega⟩
  have hj : j < args.entries.length := by omega
  have hindex : leader.v2pIndex (args.prevLogIndex + 1 + j) =
      ((leader.v2pIndex next).toNat + j : ℕ) := by
    unfold v2pIndex
    omega
  refine ⟨args.entries[j], ?_, ?_⟩
  · rw [accepted_new hk hlt hj, List.getElem?_eq_getElem hj]
  · rw [hindex, elemAt_natCast, ← List.getElem?_drop, ← h.entries,
      List.getElem?_eq_getElem hj]

/-- A follower that accepts the request of a leader and changes its commit
index raises it, and not above the last index of the request; up to there it
holds the entries of the leader. -/
theorem follower_commit_verified {leader leader' : Raft n Cmd}
    {out : List (Outgoing n Cmd)}
    (hlength : leader.logLength =
      leader.lastIncludedIndex + leader.log.length)
    (hcommit : leader.commitIndex ≤ leader.logLength - 1)
    (hrun : leader.heartBeatLauncher = .done leader' out)
    {i : Fin n} (hother : i ≠ leader.me) {next : ℤ}
    (hnext : leader.nextIndex[i.val]? = some next)
    (hlow : leader.lastIncludedIndex < next)
    (hhigh : next ≤ leader.logLength) :
    ∃ args : AppendEntriesArgs n Cmd,
      (∀ args', Outgoing.appendEntries i args' ∈ out ↔ args' = args) ∧
      args.leaderCommit ≤ args.prevLogIndex + args.entries.length ∧
      ∀ (follower follower' : Raft n Cmd) (reply : AppendEntriesReply),
        LogRepresentation follower →
        follower.lastIncludedIndex ≤ args.prevLogIndex →
        follower.heartbeatHandler args = .done follower' reply →
        reply.success = true →
        follower'.commitIndex ≠ follower.commitIndex →
        follower'.commitIndex ≤ args.prevLogIndex + args.entries.length ∧
        follower.commitIndex < follower'.commitIndex ∧
        ∀ N, args.prevLogIndex < N →
          N ≤ args.prevLogIndex + args.entries.length →
          ∃ e, elemAt follower'.log (follower'.v2pIndex N) = some e ∧
            elemAt leader.log (leader.v2pIndex N) = some e := by
  obtain ⟨args, hprepare, hcarries, hleaderCommit⟩ :=
    prepare_carries hlength hnext hlow hhigh
  have hprev := hcarries.prevLogIndex
  have hend := hcarries.last
  obtain ⟨_, rfl⟩ := heartBeatLauncher_done hrun
  refine ⟨args, fun args' ↦ ?_, by omega, ?_⟩
  · rw [List.mem_filterMap]
    constructor
    · rintro ⟨j, _, hj⟩
      obtain ⟨rfl, _⟩ := prepare_append hj
      cases hj.symm.trans hprepare
      rfl
    · rintro rfl
      exact ⟨i, mem_others.mpr hother, hprepare⟩
  intro follower follower' reply hrep hbase hhandle hsuccess hchanged
  have hsentinel : follower.HasSentinel := hrep.sentinel
  obtain ⟨hinside, entry, hentry, _, hfollower⟩ :=
    hsentinel.heartbeatHandler_success hhandle hsuccess
  obtain ⟨k, hk, hget⟩ := elemAt_eq_some_iff.mp hentry
  have hlt := (List.getElem?_eq_some_iff.mp hget).1
  have hcovers := le_accepted_logLength hk hlt hinside
  -- The request reaches to the leader's commit index, so `min` takes it.
  have hraised : follower'.commitIndex = leader.commitIndex ∧
      follower.commitIndex < leader.commitIndex := by
    rw [hfollower, accepted, advanceCommit_commitIndex, appendLog_commitIndex,
      followLeader_commitIndex] at hchanged ⊢
    rw [accepted, advanceCommit_logLength] at hcovers
    split at hchanged
    · next hlt => rw [if_pos hlt]; omega
    · exact absurd rfl hchanged
  refine ⟨by omega, by omega, fun N hN hle ↦ ?_⟩
  rw [hfollower, accepted_v2pIndex]
  exact hcarries.accepted hlow hk hlt hN (by omega)

/-- A follower with an entry that the leader does not have commits the entry of
term 1. -/
theorem follower_commit_verified_raised :
    ∃ follower' reply,
      trailingFollower.heartbeatHandler replicatingRequest =
        .done follower' reply ∧
      follower'.commitIndex ≤ 3 ∧
      trailingFollower.commitIndex < follower'.commitIndex ∧
      ∀ N, 1 < N → N ≤ 3 →
        ∃ e, elemAt follower'.log (follower'.v2pIndex N) = some e ∧
          elemAt committingLeader.log (committingLeader.v2pIndex N) =
            some e := by
  have hlaunch : committingLeader.heartBeatLauncher =
      .done committingLeader [.appendEntries 1 replicatingRequest,
        .appendEntries 2 ⟨2, 0, 3, 2, [], 1⟩] := rfl
  have hrep : LogRepresentation trailingFollower := by
    refine ⟨by decide, by decide, by decide, by decide, ?_⟩
    intro e he
    cases he
    decide
  have hother : (1 : Fin 3) ≠ committingLeader.me := by decide
  obtain ⟨args, hargs, _, hverified⟩ := follower_commit_verified rfl
    (by decide) hlaunch hother rfl (by decide) (by decide)
  obtain rfl := (hargs replicatingRequest).mp (by simp)
  exact ⟨_, _, rfl, hverified _ _ _ hrep (by decide) rfl rfl (by decide)⟩

end Raft

end DistLabs
