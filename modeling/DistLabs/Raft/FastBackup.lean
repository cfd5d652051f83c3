import DistLabs.Raft.CommitRule
import DistLabs.Raft.Rooted
import DistLabs.Support.Rounds

/-!
# Fast backup

A leader and a follower exchange requests and replies without any other step in
between.  The next index may move forward after a conflict, since the leader
jumps to its first entry of the conflicting term, but every conflict shortens
the follower's log, and a request beyond that log is followed by one that is
not.
-/

namespace DistLabs

variable {n : ℕ} {Cmd : Type}

/-- A leader and a follower between two rounds, the snapshot that
`SendHeartbeat` has decided to send, and whether the last round was an accepted
AppendEntries request. -/
structure Exchange (n : ℕ) (Cmd : Type) where
  leader : Raft n Cmd
  follower : Raft n Cmd
  fallback : Option (SnapshotArgs n)
  accepted : Bool

namespace Exchange

/-- An AppendEntries request is processed, and so is its reply. -/
def append (x : Exchange n Cmd) (peer : Fin n)
    (args : AppendEntriesArgs n Cmd) : Option (Exchange n Cmd) :=
  match x.follower.heartbeatHandler args with
  | .panic _ => none
  | .done follower reply =>
      match x.leader.sendHeartbeat peer args reply with
      | .panic _ => none
      | .done leader fallback =>
          some ⟨leader, follower, fallback, reply.success⟩

/-- An InstallSnapshot request is processed, and so is its reply. -/
def install [Zero Cmd] (x : Exchange n Cmd) (peer : Fin n)
    (args : SnapshotArgs n) : Option (Exchange n Cmd) :=
  match x.follower.installSnapshot args with
  | .panic _ => none
  | .done follower (reply, _) =>
      match x.leader.sendSnapshot peer args reply with
      | .panic _ => none
      | .done leader _ => some ⟨leader, follower, none, false⟩

/-- One round, or `none` for an index out of range.  When it `waits`, the
request comes from `HeartBeatLauncher` even if `SendHeartbeat` has a snapshot to
send. -/
def round [Zero Cmd] (peer : Fin n) (waits : Bool) (x : Exchange n Cmd) :
    Option (Exchange n Cmd) :=
  match x.fallback, waits with
  | some args, false => x.install peer args
  | _, _ =>
      match x.leader.prepare peer with
      | none => none
      | some (.appendEntries _ args) => x.append peer args
      | some (.snapshot job) =>
          x.install peer
            { term := job.term
              leaderId := job.leaderId
              lastIncludedIndex := job.lastIncludedIndex
              lastIncludedTerm := job.lastIncludedTerm
              snapdata := x.leader.snapshotData }

end Exchange

namespace Raft

/-- Two servers that hold entries of the same term at some virtual index hold
the same entries at every virtual index up to it that neither has compacted. -/
def LogMatching (a b : Raft n Cmd) : Prop :=
  ∀ i e f, a.lastIncludedIndex < i → b.lastIncludedIndex < i →
    elemAt a.log (a.v2pIndex i) = some e →
    elemAt b.log (b.v2pIndex i) = some f → e.logTerm = f.logTerm →
    ∀ j, a.lastIncludedIndex < j → b.lastIncludedIndex < j → j ≤ i →
      ∃ d, elemAt a.log (a.v2pIndex j) = some d ∧
        elemAt b.log (b.v2pIndex j) = some d

variable {leader follower : Raft n Cmd} {peer : Fin n} {next : ℤ}

/-! ## The follower -/

/-- The entries of a server that drops some at either end still match. -/
theorem LogMatching.shrink {a b b' : Raft n Cmd} (h : LogMatching a b)
    (hlii : b.lastIncludedIndex ≤ b'.lastIncludedIndex)
    (hsub : ∀ i e, b'.lastIncludedIndex < i →
      elemAt b'.log (b'.v2pIndex i) = some e →
      elemAt b.log (b.v2pIndex i) = some e) :
    LogMatching a b' := by
  intro i e f hia hib he hf hterm j hja hjb hji
  obtain ⟨d, hd, hd'⟩ := h i e f hia (by omega) he (hsub i f hib hf) hterm j
    hja (by omega) hji
  obtain ⟨d'', hsome⟩ : ∃ d'', elemAt b'.log (b'.v2pIndex j) = some d'' := by
    have hrange := elemAt_isSome_iff.mp (Option.isSome_of_eq_some hf)
    apply Option.isSome_iff_exists.mp
    rw [elemAt_isSome_iff]
    unfold v2pIndex at hrange ⊢
    omega
  rw [Option.some.inj (hd'.symm.trans (hsub j d'' hjb hsome))] at hd
  exact ⟨d'', hd, hsome⟩

theorem deleteConflict_eq {rf : Raft n Cmd} {k : ℕ} (hk : 1 ≤ k) :
    rf.deleteConflict k = persist
      { rf with
        log := rf.log.take k
        logLength := rf.p2vIndex (rf.log.take k).length } := by
  unfold Raft.deleteConflict
  rw [if_neg (by omega), Int.toNat_natCast]

/-- What is known of a follower while its leader backs up. -/
structure Behind (leader follower : Raft n Cmd) : Prop where
  term : follower.currentTerm ≤ leader.currentTerm
  nonempty : 1 ≤ follower.log.length
  logLength :
    follower.logLength = follower.lastIncludedIndex + follower.log.length
  sentinel : follower.HasSentinel
  nonneg : 0 ≤ follower.lastIncludedIndex
  snapshot : follower.lastIncludedIndex ≤ leader.lastIncludedIndex
  snapshotTerm : follower.lastIncludedIndex = leader.lastIncludedIndex →
    follower.lastIncludedTerm = leader.lastIncludedTerm
  matching : LogMatching leader follower

namespace Behind

theorem pos (h : Behind leader follower) : 1 ≤ follower.logLength := by
  have := h.logLength
  have := h.nonempty
  have := h.nonneg
  omega

theorem followLeader (h : Behind leader follower) :
    Behind leader (follower.followLeader leader.currentTerm) where
  term := by
    rw [followLeader_currentTerm]
    exact max_le h.term le_rfl
  nonempty := by simpa using h.nonempty
  logLength := by simpa using h.logLength
  sentinel := h.sentinel.followLeader _
  nonneg := by simpa using h.nonneg
  snapshot := by simpa using h.snapshot
  snapshotTerm := by simpa using h.snapshotTerm
  matching := by simpa [LogMatching] using h.matching

theorem deleteConflict (h : Behind leader follower) {k : ℕ} (hk : 1 ≤ k)
    (hlt : k < follower.log.length) :
    Behind leader (follower.deleteConflict k) := by
  have hlength : (follower.log.take k).length = k := by
    rw [List.length_take]
    omega
  rw [deleteConflict_eq hk]
  refine ⟨h.term, by rw [← hlength] at hk; exact hk, Int.add_comm _ _, ?_,
    h.nonneg, h.snapshot, h.snapshotTerm, h.matching.shrink le_rfl ?_⟩
  · change (follower.log.take k).head?.map LogEntry.logTerm = _
    rw [List.head?_take, if_neg (by omega)]
    exact h.sentinel
  · intro i e _ he
    obtain ⟨m, hm, hget⟩ := elemAt_eq_some_iff.mp he
    change (follower.log.take k)[m]? = some e at hget
    rw [List.getElem?_take] at hget
    split at hget
    · exact elemAt_eq_some_iff.mpr ⟨m, hm, hget⟩
    · cases hget

/-- The entry that conflicts is not the sentinel. -/
theorem lt_of_conflict (h : Behind leader follower)
    (hleader : leader.HasSentinel) {i : ℤ} {e f : LogEntry Cmd}
    (hi : leader.lastIncludedIndex ≤ i)
    (he : elemAt leader.log (leader.v2pIndex i) = some e)
    (hf : elemAt follower.log (follower.v2pIndex i) = some f)
    (hne : e.logTerm ≠ f.logTerm) : follower.lastIncludedIndex < i := by
  have hle := h.snapshot
  by_contra hnot
  have hzero : leader.v2pIndex i = 0 ∧ follower.v2pIndex i = 0 := by
    unfold v2pIndex
    omega
  have hterms := h.snapshotTerm (by omega)
  have hfirst := hleader.checkTerm_eq he
  have hsecond := h.sentinel.checkTerm_eq hf
  simp only [checkTerm, hzero.1, hzero.2, if_true] at hfirst hsecond
  omega

end Behind

/-! ## Installing a snapshot -/

section Install

variable [Zero Cmd]

/-- A snapshot is installed over a log that starts before it. -/
theorem Behind.installSnapshot (h : Behind leader follower) :
    ∃ follower' msg, follower.installSnapshot leader.snapshotArgs =
        .done follower' (⟨follower.currentTerm⟩, msg) ∧
      Behind leader follower' ∧
      follower'.lastIncludedIndex = leader.lastIncludedIndex := by
  have hlength := h.logLength
  have hle := h.snapshot
  have hnonneg := h.nonneg
  set follower₁ := follower.followInstaller leader.currentTerm with hfollow
  have hsame : follower₁.log = follower.log ∧
      follower₁.logLength = follower.logLength ∧
      follower₁.lastIncludedIndex = follower.lastIncludedIndex := by
    rw [hfollow, followInstaller]
    split
    · exact ⟨rfl, rfl, rfl⟩
    · exact ⟨rfl, rfl, rfl⟩
  have hindex : ∀ i, follower₁.v2pIndex i = follower.v2pIndex i := by
    intro i
    rw [v2pIndex, hsame.2.2, v2pIndex]
  rcases follower.installSnapshot_cases leader.snapshotArgs with
    ⟨hstale, _⟩ | ⟨_, ⟨hpanic, _⟩ | ⟨log, hlog, hrun⟩⟩
  · exact absurd h.term (not_le.mpr hstale)
  · change follower₁.remainingLog leader.snapshotArgs = none at hpanic
    unfold remainingLog at hpanic
    split at hpanic
    · next hrange =>
        split at hpanic
        · next hnone =>
            have hsome : (elemAt follower₁.log (follower₁.v2pIndex
                leader.snapshotArgs.lastIncludedIndex)).isSome := by
              rw [elemAt_isSome_iff, hindex, hsame.1, v2pIndex]
              rw [hsame.2.1] at hrange
              omega
            rw [hnone] at hsome
            cases hsome
        · split at hpanic <;> cases hpanic
    · cases hpanic
  change follower₁.remainingLog leader.snapshotArgs = some log at hlog
  refine ⟨_, _, hrun, ?_, rfl⟩
  obtain ⟨entry, rest, hcons, hterm⟩ := remainingLog_head hlog
  refine ⟨?_, ?_, Int.add_comm _ _, ?_, le_trans hnonneg hle, le_rfl,
    fun _ ↦ rfl, h.matching.shrink hle ?_⟩
  · change follower₁.currentTerm ≤ _
    rw [hfollow, followInstaller_currentTerm]
    exact max_le h.term le_rfl
  · change 1 ≤ log.length
    rw [hcons]
    exact Nat.succ_le_succ (Nat.zero_le _)
  · change log.head?.map LogEntry.logTerm = some leader.lastIncludedTerm
    rw [hcons]
    exact congrArg some hterm
  · intro i e hi he
    change leader.lastIncludedIndex < i at hi
    change elemAt log (i - leader.lastIncludedIndex) = some e at he
    obtain ⟨m, hm, hget⟩ := elemAt_eq_some_iff.mp he
    rcases remainingLog_cases hlog with ⟨_, _, _, _, _, rfl⟩ | ⟨rfl, _⟩
    · rw [List.getElem?_drop, hindex, hsame.1] at hget
      refine elemAt_eq_some_iff.mpr ⟨_, ?_, hget⟩
      change i - follower.lastIncludedIndex =
        ((leader.lastIncludedIndex - follower.lastIncludedIndex).toNat + m : ℕ)
      omega
    · have hpos : 1 ≤ m := by omega
      rw [List.getElem?_eq_none (by simpa using hpos)] at hget
      cases hget

end Install

/-! ## The leader -/

/-- Leader `rf` with another next index for a peer. -/
def withNext (rf : Raft n Cmd) (peer : Fin n) (next : ℤ) : Raft n Cmd :=
  { rf with nextIndex := rf.nextIndex.set peer next }

/-- Leader `rf` when it has recorded that a peer holds its whole log. -/
def caughtUp (rf : Raft n Cmd) (peer : Fin n) : Raft n Cmd :=
  { rf with
    matchIndex := rf.matchIndex.set peer (rf.logLength - 1)
    nextIndex := rf.nextIndex.set peer rf.logLength }

/-- Leader `rf` after a commit. -/
def withCommit (rf : Raft n Cmd) (commit applied : ℤ) : Raft n Cmd :=
  { rf with commitIndex := commit, lastApplied := applied }

theorem withNext_withNext (rf : Raft n Cmd) (peer : Fin n) (next next' : ℤ) :
    (rf.withNext peer next).withNext peer next' = rf.withNext peer next' := by
  simp [withNext, List.set_set]

section Accepting

variable (rf : Raft n Cmd) {args : AppendEntriesArgs n Cmd}
  (reply : AppendEntriesReply)
variable (hn : 2 ≤ n) (hpos : 1 ≤ rf.log.length)
  (hlength : rf.logLength = rf.lastIncludedIndex + rf.log.length)
  (hmatch : rf.matchIndex.length = n) (hnext : peer.val < rf.nextIndex.length)
  (hterm : rf.currentTerm = args.term) (hreply : reply.term ≤ args.term)
  (hsuccess : reply.success = true)

include hn hpos hlength hmatch hnext hterm hreply hsuccess

/-- A reply that accepts a request is recorded; only a commit follows. -/
theorem sendHeartbeat_accepted
    (hscan : args.entries ≠ [] → (rf.matched peer args).ScanStops) :
    ∃ commit applied, rf.sendHeartbeat peer args reply =
      .done ((rf.matched peer args).withCommit commit applied) none := by
  obtain ⟨rf', hdone⟩ :=
    (recordSuccess_done_iff hn hmatch hnext hpos hlength).mpr hscan
  obtain ⟨commit, applied, hrecord⟩ : ∃ commit applied,
      rf.recordSuccess peer args =
        .done ((rf.matched peer args).withCommit commit applied) () := by
    rw [recordSuccess_eq hmatch hnext] at hdone ⊢
    by_cases hlen : args.entries.length ≠ 0
    · rw [if_pos hlen] at hdone ⊢
      rcases commitScan_cases (rf.matched peer args) _ with
        hsame | ⟨N, _, _, _, _, _, heq⟩
      · have hend := congrArg Outcome.rf hdone
        rw [Outcome.rf_done, hsame] at hend
        rw [hdone, ← hend]
        exact ⟨_, _, rfl⟩
      · exact ⟨_, _, heq⟩
    · rw [if_neg hlen]
      exact ⟨_, _, rfl⟩
  refine ⟨commit, applied, ?_⟩
  unfold sendHeartbeat
  rw [if_neg (not_not.mpr hterm), if_neg (not_lt.mpr hreply),
    if_pos hsuccess, hrecord]

/-- The commit scan after a reply to a request with entries may leave the
log. -/
theorem sendHeartbeat_scan_panics (hentries : args.entries ≠ [])
    (hscan : ¬ (rf.matched peer args).ScanStops) :
    ∃ rf', rf.sendHeartbeat peer args reply = .panic rf' := by
  cases hrun : rf.sendHeartbeat peer args reply with
  | panic rf' => exact ⟨rf', rfl⟩
  | done rf' snap =>
      have hdone := (sendHeartbeat_done_iff hterm hreply hsuccess).mp
        ⟨rf', snap, hrun⟩
      exact absurd ((recordSuccess_done_iff hn hmatch hnext hpos hlength).mp
        hdone hentries) hscan

end Accepting

/-! ## Agreement -/

/-- The follower passes the check of the leader's last entry. -/
def HoldsLast (leader follower : Raft n Cmd) : Prop :=
  ∃ e f, elemAt leader.log (leader.v2pIndex (leader.logLength - 1)) = some e ∧
    elemAt follower.log (follower.v2pIndex (leader.logLength - 1)) = some f ∧
    e.logTerm = f.logTerm

theorem HoldsLast.lt (h : leader.HoldsLast follower)
    (hlength : follower.logLength =
      follower.lastIncludedIndex + follower.log.length) :
    leader.logLength - 1 < follower.logLength := by
  obtain ⟨_, _, _, hf, _⟩ := h
  obtain ⟨_, hlt⟩ := elemAt_isSome_iff.mp (Option.isSome_of_eq_some hf)
  unfold v2pIndex at hlt
  omega

/-- The leader has nothing to send to the follower: its log holds nothing but
the sentinel, or its next request is a heartbeat that the follower accepts. -/
def NothingToSend (leader follower : Raft n Cmd) (next : ℤ) : Prop :=
  leader.logLength = leader.lastIncludedIndex + 1 ∨
    next = leader.logLength ∧ leader.HoldsLast follower

/-- The follower holds the leader's log above the leader's sentinel, and passes
the check of its last entry. -/
structure Agrees (leader follower : Raft n Cmd) : Prop where
  term : follower.currentTerm ≤ leader.currentTerm
  sentinel : follower.HasSentinel
  snapshot : follower.lastIncludedIndex ≤ leader.lastIncludedIndex
  covers : leader.logLength ≤ follower.logLength
  entries : ∀ N, leader.lastIncludedIndex < N → N ≤ leader.logLength - 1 →
    ∃ e, elemAt follower.log (follower.v2pIndex N) = some e ∧
      elemAt leader.log (leader.v2pIndex N) = some e
  last : leader.HoldsLast follower

section Accepted

variable {args : AppendEntriesArgs n Cmd} {e f : LogEntry Cmd}

/-- A follower that has accepted a request agrees with the leader when it did
so up to the entry that was checked. -/
theorem Agrees.of_accepted (hcarries : leader.Carries next args)
    (hlow : leader.lastIncludedIndex < next)
    (hterm : follower.currentTerm ≤ leader.currentTerm)
    (hsentinel : follower.HasSentinel)
    (hsnapshot : follower.lastIncludedIndex ≤ leader.lastIncludedIndex)
    (hinside : args.prevLogIndex ≤ follower.logLength - 1)
    (he : elemAt leader.log (leader.v2pIndex args.prevLogIndex) = some e)
    (hf : elemAt follower.log (follower.v2pIndex args.prevLogIndex) = some f)
    (hsame : e.logTerm = f.logTerm)
    (hbelow : ∀ N, leader.lastIncludedIndex < N → N ≤ args.prevLogIndex →
      ∃ d, elemAt follower.log (follower.v2pIndex N) = some d ∧
        elemAt leader.log (leader.v2pIndex N) = some d) :
    Agrees leader (follower.accepted args) := by
  have hprev := hcarries.prevLogIndex
  have hlast := hcarries.last
  obtain ⟨k, hk, hget⟩ := elemAt_eq_some_iff.mp hf
  have hlt := (List.getElem?_eq_some_iff.mp hget).1
  have hcovers := le_accepted_logLength hk hlt hinside
  refine ⟨?_, hsentinel.accepted args, by simpa using hsnapshot, by omega,
    ?_, ?_⟩
  · rw [accepted_currentTerm (by rw [hcarries.term]; exact hterm),
      hcarries.term]
  · intro N hN hle
    rw [accepted_v2pIndex]
    rcases le_or_gt N args.prevLogIndex with hold | hnew
    · rw [accepted_old hk hlt (by omega) hold]
      exact hbelow N hN hold
    · exact hcarries.accepted hlow hk hlt hnew hle
  · unfold HoldsLast
    rw [accepted_v2pIndex]
    rcases le_or_gt (leader.logLength - 1) args.prevLogIndex with hold | hnew
    · obtain heq : leader.logLength - 1 = args.prevLogIndex := by omega
      rw [heq, accepted_old hk hlt (by omega) le_rfl]
      exact ⟨e, f, he, hf, hsame⟩
    · obtain ⟨d, hd, hd'⟩ := hcarries.accepted hlow hk hlt hnew le_rfl
      exact ⟨d, d, hd', hd, rfl⟩

theorem Behind.agrees_of_accepted (h : Behind leader follower)
    (hcarries : leader.Carries next args)
    (hlow : leader.lastIncludedIndex < next)
    (hinside : args.prevLogIndex ≤ follower.logLength - 1)
    (he : elemAt leader.log (leader.v2pIndex args.prevLogIndex) = some e)
    (hf : elemAt follower.log (follower.v2pIndex args.prevLogIndex) = some f)
    (hsame : e.logTerm = f.logTerm) :
    Agrees leader (follower.accepted args) := by
  have hle := h.snapshot
  refine Agrees.of_accepted hcarries hlow h.term h.sentinel hle hinside he hf
    hsame fun N hN hNprev ↦ ?_
  obtain ⟨d, hd, hd'⟩ := h.matching args.prevLogIndex e f (by omega)
    (by omega) he hf hsame N hN (by omega) hNprev
  exact ⟨d, hd', hd⟩

theorem Agrees.accepted (h : Agrees leader follower)
    (hcarries : leader.Carries next args)
    (hlow : leader.lastIncludedIndex < next)
    (hnext : next = leader.logLength) :
    Agrees leader (follower.accepted args) := by
  have hprev := hcarries.prevLogIndex
  have hcovers := h.covers
  obtain ⟨e, f, he, hf, hsame⟩ := h.last
  rw [← hnext, ← hprev] at he hf
  exact Agrees.of_accepted hcarries hlow h.term h.sentinel h.snapshot
    (by omega) he hf hsame fun N hN hle ↦ h.entries N hN (by omega)

end Accepted

end Raft

namespace Exchange

/-! ## The rounds -/

section Rounds

variable {leader : Raft n Cmd} {peer : Fin n} {next : ℤ} {x : Exchange n Cmd}

/-- The leader has changed only the next index of the peer, and a snapshot that
it has decided to send is its own. -/
structure Catching (leader : Raft n Cmd) (peer : Fin n) (next : ℤ)
    (x : Exchange n Cmd) : Prop where
  leader_eq : x.leader = leader.withNext peer next
  next_le : next ≤ leader.logLength
  fallback : ∀ args, x.fallback = some args →
    next ≤ leader.lastIncludedIndex ∧ args = leader.snapshotArgs
  behind : leader.Behind x.follower

/-- At most `k` rounds come before the one that is accepted: the snapshot has
just been installed, or `k` allows for two rounds per index of the follower's
log, where a request beyond the log takes one more. -/
def Left (leader : Raft n Cmd) (next : ℤ) (x : Exchange n Cmd) (k : ℕ) :
    Prop :=
  (next = leader.lastIncludedIndex + 1 ∧
    x.follower.lastIncludedIndex = leader.lastIncludedIndex) ∨
  (2 * x.follower.logLength ≤ k + 1 ∧
    (x.follower.logLength < next → 2 * x.follower.logLength ≤ k))

/-- The request has been accepted. -/
structure Synced (leader : Raft n Cmd) (peer : Fin n) (x : Exchange n Cmd) :
    Prop where
  leader_eq : ∃ commit applied,
    x.leader = (leader.caughtUp peer).withCommit commit applied
  fallback : x.fallback = none
  accepted : x.accepted = true
  agrees : leader.Agrees x.follower

theorem append_of_done {args : AppendEntriesArgs n Cmd}
    {follower leader' : Raft n Cmd} {reply : AppendEntriesReply}
    {fallback : Option (SnapshotArgs n)}
    (hhandle : x.follower.heartbeatHandler args = .done follower reply)
    (hsend : x.leader.sendHeartbeat peer args reply =
      .done leader' fallback) :
    x.append peer args =
      some ⟨leader', follower, fallback, reply.success⟩ := by
  unfold append
  rw [hhandle]
  dsimp only
  rw [hsend]

theorem append_of_panic {args : AppendEntriesArgs n Cmd}
    {follower leader' : Raft n Cmd} {reply : AppendEntriesReply}
    (hhandle : x.follower.heartbeatHandler args = .done follower reply)
    (hsend : x.leader.sendHeartbeat peer args reply = .panic leader') :
    x.append peer args = none := by
  unfold append
  rw [hhandle]
  dsimp only
  rw [hsend]

/-- What the proofs need of the leader. -/
structure Leads (leader : Raft n Cmd) (peer : Fin n) : Prop where
  other : peer ≠ leader.me
  nonempty : 1 ≤ leader.log.length
  logLength :
    leader.logLength = leader.lastIncludedIndex + leader.log.length
  sentinel : leader.HasSentinel
  next : peer.val < leader.nextIndex.length
  matched : leader.matchIndex.length = n

/-- No commit scan is made, or it ends before the sentinel. -/
def Scans (leader : Raft n Cmd) (peer : Fin n) (next : ℤ)
    (x : Exchange n Cmd) : Prop :=
  leader.NothingToSend x.follower next ∨ (leader.caughtUp peer).ScanStops

/-- Only the next index and the follower's last entry can make a difference for
whether a scan is safe. -/
theorem scans_iff {next' : ℤ} {y : Exchange n Cmd}
    (hx : next = leader.logLength → ¬ leader.HoldsLast x.follower)
    (hy : next' = leader.logLength → leader.HoldsLast y.follower →
      leader.logLength = leader.lastIncludedIndex + 1) :
    Scans leader peer next' y ↔ Scans leader peer next x := by
  unfold Scans Raft.NothingToSend
  tauto

/-- A round that is not accepted lowers the bound, and a scan is as safe as
before. -/
def Lowers (leader : Raft n Cmd) (peer : Fin n) (next : ℤ)
    (x : Exchange n Cmd) (k : ℕ) (y : Exchange n Cmd) : Prop :=
  ∃ m < k, ∃ next', Catching leader peer next' y ∧ Left leader next' y m ∧
    (Scans leader peer next' y ↔ Scans leader peer next x)

theorem Leads.two_le (h : Leads leader peer) : 2 ≤ n := by
  have hne : peer.val ≠ leader.me.val := fun heq ↦ h.other (Fin.ext heq)
  have := peer.isLt
  have := leader.me.isLt
  omega

/-- A failed check sets the next index back. -/
theorem Catching.refused (h : Catching leader peer next x)
    (hleads : Leads leader peer) {args : AppendEntriesArgs n Cmd}
    (hterm : args.term = leader.currentTerm) {follower : Raft n Cmd}
    {reply : AppendEntriesReply}
    (hhandle : x.follower.heartbeatHandler args = .done follower reply)
    (hreply : reply.term ≤ args.term) (hfail : reply.success = false)
    (hbehind : leader.Behind follower)
    (hnext : leader.backupIndex reply ≤ leader.logLength) :
    ∃ y, x.append peer args = some y ∧
      Catching leader peer (leader.backupIndex reply) y ∧
      y.follower = follower := by
  have hpeer : peer.val < (leader.withNext peer next).nextIndex.length := by
    simpa [Raft.withNext] using hleads.next
  have hterm' : (leader.withNext peer next).currentTerm = args.term :=
    hterm.symm
  have hsend := Raft.sendHeartbeat_failed hterm' hreply hfail hpeer
  rw [← h.leader_eq] at hsend
  refine ⟨_, append_of_done hhandle hsend, ⟨?_, hnext, ?_, hbehind⟩, rfl⟩
  · dsimp only
    rw [h.leader_eq]
    exact Raft.withNext_withNext _ _ _ _
  · intro snap hsnap
    rw [h.leader_eq] at hsnap
    change (if leader.backupIndex reply ≤ leader.lastIncludedIndex then
      some leader.snapshotArgs else none) = some snap at hsnap
    split at hsnap
    · next hle => exact ⟨hle, (Option.some.inj hsnap).symm⟩
    · cases hsnap

/-- A follower whose log ends before the request answers with the length of its
log, and the next request starts there. -/
theorem Catching.append_beyond (h : Catching leader peer next x)
    (hleads : Leads leader peer) {k : ℕ} (hleft : Left leader next x k)
    {args : AppendEntriesArgs n Cmd} (hcarries : leader.Carries next args)
    (hbeyond : x.follower.logLength - 1 < args.prevLogIndex) :
    ∃ y, x.append peer args = some y ∧
      Lowers leader peer next x k y := by
  have hbehind := h.behind
  have hhigh := h.next_le
  have hprev := hcarries.prevLogIndex
  have hterm := hbehind.term.trans_eq hcarries.term.symm
  have hrank : 2 * x.follower.logLength ≤ k ∧ 0 < k := by
    have hlength := hbehind.logLength
    have hpos := hbehind.pos
    have hnonempty := hbehind.nonempty
    rcases hleft with ⟨hfirst, hsame⟩ | ⟨_, hmore⟩
    · omega
    · have hmore := hmore (by omega)
      omega
  have hhandle := Raft.heartbeatHandler_beyond hterm hbeyond
  rw [hcarries.term] at hhandle
  have hnext : leader.backupIndex
      ⟨x.follower.currentTerm, false, -1, x.follower.logLength, 0⟩ =
        x.follower.logLength := rfl
  obtain ⟨y, hy, hcatch, hfollower⟩ := h.refused hleads hcarries.term hhandle
    hterm rfl hbehind.followLeader (by rw [hnext]; omega)
  rw [hnext] at hcatch
  refine ⟨y, hy, k - 1, by omega, _, hcatch, Or.inr ?_, scans_iff ?_ ?_⟩
  · rw [hfollower, Raft.followLeader_logLength]
    omega
  · intro heq hlast
    have := hlast.lt hbehind.logLength
    omega
  · intro heq _
    omega

/-- A follower with the entry before the request takes the rest of the leader's
log, if the leader gets through the scan. -/
theorem Catching.append_accepted (h : Catching leader peer next x)
    (hleads : Leads leader peer) (hlow : leader.lastIncludedIndex < next)
    {args : AppendEntriesArgs n Cmd} (hcarries : leader.Carries next args)
    {e f : LogEntry Cmd}
    (he : elemAt leader.log (leader.v2pIndex args.prevLogIndex) = some e)
    (heterm : args.prevLogTerm = e.logTerm)
    (hinside : args.prevLogIndex ≤ x.follower.logLength - 1)
    (hf : elemAt x.follower.log (x.follower.v2pIndex args.prevLogIndex) =
      some f) (hsame : e.logTerm = f.logTerm) :
    (Scans leader peer next x →
      ∃ y, x.append peer args = some y ∧ Synced leader peer y) ∧
    (¬ Scans leader peer next x → x.append peer args = none) := by
  have hbehind := h.behind
  have hhigh := h.next_le
  have hprev := hcarries.prevLogIndex
  have hlast := hcarries.last
  have hterm := hbehind.term.trans_eq hcarries.term.symm
  have hhandle := hbehind.sentinel.heartbeatHandler_accept hterm hinside hf
    (heterm.trans hsame)
  have hmatched : (leader.withNext peer next).matched peer args =
      leader.caughtUp peer := by
    unfold Raft.matched Raft.caughtUp Raft.withNext
    rw [hlast, List.set_set, Int.sub_add_cancel]
  have hpeer : peer.val < (leader.withNext peer next).nextIndex.length := by
    simpa [Raft.withNext] using hleads.next
  have hempty : args.entries = [] ↔ next = leader.logLength := by
    rw [← List.length_eq_zero_iff]
    omega
  constructor
  · intro hscans
    have hscan : args.entries ≠ [] → (leader.caughtUp peer).ScanStops := by
      rw [ne_eq, hempty]
      intro hmore
      rcases hscans with (hsentinel | ⟨hnext, _⟩) | hstops
      · omega
      · exact absurd hnext hmore
      · exact hstops
    rw [← hmatched] at hscan
    obtain ⟨commit, applied, hsend⟩ := Raft.sendHeartbeat_accepted
      (leader.withNext peer next)
      ⟨x.follower.currentTerm, true, 0, 0, 0⟩ hleads.two_le
      hleads.nonempty hleads.logLength hleads.matched hpeer
      hcarries.term.symm hterm rfl hscan
    rw [hmatched, ← h.leader_eq] at hsend
    exact ⟨_, append_of_done hhandle hsend, ⟨commit, applied, rfl⟩, rfl, rfl,
      hbehind.agrees_of_accepted hcarries hlow hinside he hf hsame⟩
  · intro hscans
    have hentries : args.entries ≠ [] := by
      rw [ne_eq, hempty]
      rintro rfl
      rw [hprev] at he hf
      exact hscans (Or.inl (Or.inr ⟨rfl, e, f, he, hf, hsame⟩))
    have hscan :
        ¬ ((leader.withNext peer next).matched peer args).ScanStops := by
      rw [hmatched]
      exact fun hstops ↦ hscans (Or.inr hstops)
    obtain ⟨leader', hsend⟩ := Raft.sendHeartbeat_scan_panics
      (leader.withNext peer next)
      ⟨x.follower.currentTerm, true, 0, 0, 0⟩ hleads.two_le
      hleads.nonempty hleads.logLength hleads.matched hpeer
      hcarries.term.symm hterm rfl hentries hscan
    rw [← h.leader_eq] at hsend
    exact append_of_panic hhandle hsend

/-- A follower deletes an entry that conflicts with the request, which is not
its sentinel, and all after it. -/
theorem Catching.append_conflict (h : Catching leader peer next x)
    (hleads : Leads leader peer) (hlow : leader.lastIncludedIndex < next)
    {k : ℕ} (hleft : Left leader next x k)
    {args : AppendEntriesArgs n Cmd} (hcarries : leader.Carries next args)
    {e f : LogEntry Cmd}
    (he : elemAt leader.log (leader.v2pIndex args.prevLogIndex) = some e)
    (heterm : args.prevLogTerm = e.logTerm)
    (hinside : args.prevLogIndex ≤ x.follower.logLength - 1)
    (hf : elemAt x.follower.log (x.follower.v2pIndex args.prevLogIndex) =
      some f) (hne : e.logTerm ≠ f.logTerm) :
    ∃ y, x.append peer args = some y ∧ Lowers leader peer next x k y := by
  have hbehind := h.behind
  have hlength := hbehind.logLength
  have hsnapshot := hbehind.snapshot
  have hnonneg := hbehind.nonneg
  have hhigh := h.next_le
  have hprev := hcarries.prevLogIndex
  have hterm := hbehind.term.trans_eq hcarries.term.symm
  have hlt := hbehind.lt_of_conflict hleads.sentinel (by omega) he hf hne
  have hhandle := hbehind.sentinel.heartbeatHandler_conflict hterm hinside hf
    (by rw [heterm]; exact hne)
  obtain ⟨i, hi, hget⟩ := elemAt_eq_some_iff.mp hf
  have hilt := (List.getElem?_eq_some_iff.mp hget).1
  rw [hcarries.term, hi] at hhandle
  unfold Raft.v2pIndex at hi
  have hpos : 1 ≤ i := by omega
  set follower₁ := x.follower.followLeader leader.currentTerm with hfollower₁
  have hlii : follower₁.lastIncludedIndex =
      x.follower.lastIncludedIndex := by simp [hfollower₁]
  have hbound : leader.backupIndex
      ⟨x.follower.currentTerm, false, f.logTerm, 0,
        follower₁.conflictIndex i f.logTerm⟩ ≤ leader.logLength := by
    have hlen := hleads.logLength
    have hget₁ : follower₁.log[i]? = some f := by simpa [hfollower₁] using hget
    obtain ⟨j, _, hji, _, _, hindex⟩ := Raft.conflictIndex_eq hget₁
    refine Raft.backupIndex_le_logLength hlen (fun _ ↦ ?_) fun _ ↦ ?_
    · dsimp only
      omega
    · dsimp only
      rw [hindex, Raft.p2vIndex, hlii]
      omega
  obtain ⟨y, hy, hcatch, hfollower⟩ := h.refused hleads hcarries.term hhandle
    hterm rfl (hbehind.followLeader.deleteConflict hpos
      (by simpa using hilt)) hbound
  have hcut : y.follower.logLength = args.prevLogIndex := by
    rw [hfollower, Raft.deleteConflict_eq hpos]
    simp only [Raft.persist, Raft.p2vIndex, List.length_take, hlii]
    simp only [hfollower₁, Raft.followLeader_log]
    omega
  have hrank : 2 * x.follower.logLength ≤ k + 1 := by
    rcases hleft with ⟨hfirst, hsame⟩ | ⟨hrank, _⟩
    · omega
    · exact hrank
  refine ⟨y, hy, k - 1, by omega, _, hcatch, Or.inr (by omega),
    scans_iff ?_ ?_⟩
  · rintro rfl ⟨e', f', he', hf', hsame⟩
    rw [← hprev] at he' hf'
    rw [Option.some.inj (he.symm.trans he'),
      Option.some.inj (hf.symm.trans hf')] at hne
    exact hne hsame
  · intro _ hlast
    have := hlast.lt hcatch.behind.logLength
    omega

/-- One request to a follower whose next index is not compacted. -/
theorem Catching.append (h : Catching leader peer next x)
    (hleads : Leads leader peer) (hlow : leader.lastIncludedIndex < next)
    {k : ℕ} (hleft : Left leader next x k) {args : AppendEntriesArgs n Cmd}
    (hcarries : leader.Carries next args) :
    (∃ y, x.append peer args = some y ∧ Lowers leader peer next x k y) ∨
    ((Scans leader peer next x →
      ∃ y, x.append peer args = some y ∧ Synced leader peer y) ∧
    (¬ Scans leader peer next x → x.append peer args = none)) := by
  obtain ⟨e, he, heterm⟩ := hcarries.prevLogTerm
  rcases lt_or_ge (x.follower.logLength - 1) args.prevLogIndex with
    hbeyond | hinside
  · exact Or.inl (h.append_beyond hleads hleft hcarries hbeyond)
  obtain ⟨f, hf⟩ : ∃ f, elemAt x.follower.log
      (x.follower.v2pIndex args.prevLogIndex) = some f := by
    have hlength := h.behind.logLength
    have hsnapshot := h.behind.snapshot
    have hprev := hcarries.prevLogIndex
    apply Option.isSome_iff_exists.mp
    rw [elemAt_isSome_iff]
    unfold Raft.v2pIndex
    omega
  by_cases hsame : e.logTerm = f.logTerm
  · exact Or.inr
      (h.append_accepted hleads hlow hcarries he heterm hinside hf hsame)
  · exact Or.inl
      (h.append_conflict hleads hlow hleft hcarries he heterm hinside hf hsame)

theorem Synced.append (h : Synced leader peer x) (hleads : Leads leader peer)
    {args : AppendEntriesArgs n Cmd}
    (hcarries : x.leader.Carries leader.logLength args) :
    ∃ y, x.append peer args = some y ∧ Synced leader peer y := by
  obtain ⟨commit, applied, hleader⟩ := h.leader_eq
  rw [hleader] at hcarries
  have hlength := hleads.logLength
  have hpos := hleads.nonempty
  have hlow : leader.lastIncludedIndex < leader.logLength := by omega
  have hlast := hcarries.last
  have hprev := hcarries.prevLogIndex
  change args.prevLogIndex + args.entries.length = leader.logLength - 1
    at hlast
  have hterm : x.follower.currentTerm ≤ args.term := by
    rw [hcarries.term]
    exact h.agrees.term
  have hcovers := h.agrees.covers
  obtain ⟨e, he, heterm⟩ := hcarries.prevLogTerm
  obtain ⟨e', f, he', hf, hsame⟩ := h.agrees.last
  rw [← hprev] at he' hf
  obtain rfl : e = e' := Option.some.inj (he.symm.trans he')
  have hhandle := h.agrees.sentinel.heartbeatHandler_accept hterm (by omega) hf
    (heterm.trans hsame)
  have hempty : args.entries = [] := by
    rw [← List.length_eq_zero_iff]
    omega
  obtain ⟨commit', applied', hsend⟩ := Raft.sendHeartbeat_accepted
    ((leader.caughtUp peer).withCommit commit applied)
    ⟨x.follower.currentTerm, true, 0, 0, 0⟩ hleads.two_le hpos
    hlength
    (by simpa [Raft.withCommit, Raft.caughtUp] using hleads.matched)
    (by simpa [Raft.withCommit, Raft.caughtUp] using hleads.next)
    hcarries.term.symm hterm rfl (fun hne ↦ absurd hempty hne)
  rw [← hleader] at hsend
  refine ⟨_, append_of_done hhandle hsend, ⟨⟨commit', applied', ?_⟩, rfl, rfl,
    h.agrees.accepted ⟨hcarries.term, hprev, ⟨e, he, heterm⟩, hlast,
      hcarries.entries⟩ hlow rfl⟩⟩
  rw [hleader]
  simp only [Raft.withCommit, Raft.matched, Raft.caughtUp, List.set_set, hlast,
    Int.sub_add_cancel]

section Snapshots

variable [Zero Cmd]

theorem Catching.install (h : Catching leader peer next x)
    (hleads : Leads leader peer) :
    ∃ y, x.install peer leader.snapshotArgs = some y ∧
      Catching leader peer (leader.lastIncludedIndex + 1) y ∧
      y.follower.lastIncludedIndex = leader.lastIncludedIndex := by
  obtain ⟨follower, msg, hhandle, hbehind, hlii⟩ := h.behind.installSnapshot
  have hpeer : peer.val < (leader.withNext peer next).nextIndex.length := by
    simpa [Raft.withNext] using hleads.next
  have hsend : (leader.withNext peer next).sendSnapshot peer
      leader.snapshotArgs ⟨x.follower.currentTerm⟩ = _ :=
    Raft.sendSnapshot_done rfl h.behind.term hpeer
  have hlength := hleads.logLength
  have hpos := hleads.nonempty
  refine ⟨⟨leader.withNext peer (leader.lastIncludedIndex + 1), follower, none,
    false⟩, ?_, ⟨rfl, by omega, fun _ hnone ↦ (nomatch hnone), hbehind⟩, hlii⟩
  unfold Exchange.install
  rw [hhandle, h.leader_eq]
  dsimp only
  rw [hsend]
  dsimp only
  rw [← Raft.withNext_withNext leader peer next
    (leader.lastIncludedIndex + 1)]
  rfl

/-- A round lowers the bound, or it reaches agreement exactly when a scan is
safe. -/
theorem Catching.round (h : Catching leader peer next x)
    (hleads : Leads leader peer) {k : ℕ} (hleft : Left leader next x k)
    (waits : Bool) :
    (∃ y, Exchange.round peer waits x = some y ∧
      Lowers leader peer next x k y) ∨
    ((Scans leader peer next x →
      ∃ y, Exchange.round peer waits x = some y ∧ Synced leader peer y) ∧
    (¬ Scans leader peer next x → Exchange.round peer waits x = none)) := by
  have hnext : x.leader.nextIndex[peer.val]? = some next := by
    rw [h.leader_eq]
    exact List.getElem?_set_self hleads.next
  rcases le_or_gt next leader.lastIncludedIndex with hcompacted | hlow
  · have hround : Exchange.round peer waits x =
        x.install peer leader.snapshotArgs := by
      unfold Exchange.round
      split
      · next args hfallback => rw [(h.fallback args hfallback).2]
      · have hneg : x.leader.v2pIndex next - 1 < 0 := by
          rw [h.leader_eq]
          change next - leader.lastIncludedIndex - 1 < 0
          omega
        unfold Raft.prepare
        simp only [hnext, hneg, if_true]
        rw [h.leader_eq]
        rfl
    obtain ⟨y, hy, hcatch, hlii⟩ := h.install hleads
    have hlength := hleads.logLength
    have hnonempty := hleads.nonempty
    refine Or.inl ⟨y, hround.trans hy, 0, ?_, _, hcatch, Or.inl ⟨rfl, hlii⟩,
      scans_iff (fun heq ↦ by omega) fun heq _ ↦ heq.symm⟩
    have hpos := h.behind.pos
    rcases hleft with ⟨hfirst, _⟩ | ⟨hrank, _⟩ <;> omega
  · have hlength : x.leader.logLength =
        x.leader.lastIncludedIndex + x.leader.log.length := by
      rw [h.leader_eq]
      exact hleads.logLength
    obtain ⟨args, hprepare, hcarries, _⟩ := Raft.prepare_carries hlength hnext
      (by rw [h.leader_eq]; exact hlow) (by rw [h.leader_eq]; exact h.next_le)
    have hround : Exchange.round peer waits x = x.append peer args := by
      unfold Exchange.round
      split
      · next snap hfallback =>
          exact absurd (h.fallback snap hfallback).1 (not_le.mpr hlow)
      · rw [hprepare]
    rw [hround]
    rw [h.leader_eq] at hcarries
    exact h.append hleads hlow hleft
      ⟨hcarries.term, hcarries.prevLogIndex, hcarries.prevLogTerm,
        hcarries.last, hcarries.entries⟩

/-- Agreement is kept by further rounds. -/
theorem Synced.round (h : Synced leader peer x) (hleads : Leads leader peer)
    (waits : Bool) :
    ∃ y, Exchange.round peer waits x = some y ∧ Synced leader peer y := by
  obtain ⟨commit, applied, hleader⟩ := h.leader_eq
  have hlen := hleads.logLength
  have hpos := hleads.nonempty
  have hnext : x.leader.nextIndex[peer.val]? = some leader.logLength := by
    rw [hleader]
    exact List.getElem?_set_self hleads.next
  have hlength : x.leader.logLength =
      x.leader.lastIncludedIndex + x.leader.log.length := by
    rw [hleader]
    exact hlen
  obtain ⟨args, hprepare, hcarries, _⟩ := Raft.prepare_carries hlength hnext
    (by rw [hleader]; change leader.lastIncludedIndex < _; omega)
    (by rw [hleader]; exact le_rfl)
  have hround : Exchange.round peer waits x = x.append peer args := by
    unfold Exchange.round
    rw [h.fallback, hprepare]
  rw [hround]
  exact h.append hleads hcarries

/-- A leader brings a follower up to date, with no index out of range, exactly
when it has nothing to send or its commit scan ends before the sentinel. -/
theorem fast_backup {follower : Raft n Cmd} (hother : peer ≠ leader.me)
    (hleader : LogRepresentation leader)
    (hfollower : LogRepresentation follower)
    (hnonneg : 0 ≤ follower.lastIncludedIndex)
    (hmatching : leader.LogMatching follower)
    (hsnapshot : follower.lastIncludedIndex ≤ leader.lastIncludedIndex)
    (hsnapshotTerm :
      follower.lastIncludedIndex = leader.lastIncludedIndex →
        follower.lastIncludedTerm = leader.lastIncludedTerm)
    (hterm : follower.currentTerm ≤ leader.currentTerm)
    (hnext : leader.nextIndex[peer.val]? = some next)
    (hhigh : next ≤ leader.logLength)
    (hmatch : leader.matchIndex.length = n) (waits : ℕ → Bool) :
    ((∀ k, (rounds (Exchange.round peer) waits k
      ⟨leader, follower, none, false⟩).isSome) ∧
    ∃ (k : ℕ) (x : Exchange n Cmd), k ≤ 2 * follower.logLength + 3 ∧
      rounds (Exchange.round peer) waits k ⟨leader, follower, none, false⟩ =
        some x ∧
      x.accepted = true ∧
      (∀ N, x.leader.lastIncludedIndex < N → N ≤ x.leader.logLength - 1 →
        ∃ e, elemAt x.follower.log (x.follower.v2pIndex N) = some e ∧
          elemAt x.leader.log (x.leader.v2pIndex N) = some e) ∧
      x.leader.nextIndex[peer.val]? = some x.leader.logLength) ↔
    leader.NothingToSend follower next ∨
      (leader.caughtUp peer).ScanStops := by
  have hlt := (List.getElem?_eq_some_iff.mp hnext).1
  have hleads : Leads leader peer := ⟨hother, hleader.nonempty,
    hleader.logLength, hleader.sentinel, hlt, hmatch⟩
  have hbehind : leader.Behind follower := ⟨hterm, hfollower.nonempty,
    hfollower.logLength, hfollower.sentinel, hnonneg, hsnapshot,
    hsnapshotTerm, hmatching⟩
  have hstart : Catching leader peer next ⟨leader, follower, none, false⟩ := by
    refine ⟨?_, hhigh, fun _ hnone ↦ (nomatch hnone), hbehind⟩
    have hset : leader.nextIndex.set peer.val next = leader.nextIndex := by
      rw [← (List.getElem?_eq_some_iff.mp hnext).2, List.set_getElem_self]
    simp only [Raft.withNext, hset]
  have hleft : Left leader next ⟨leader, follower, none, false⟩
      (2 * follower.logLength).toNat := by
    have hpos := hbehind.pos
    exact Or.inr ⟨by dsimp only; omega, fun _ ↦ by dsimp only; omega⟩
  constructor
  · rintro ⟨hsome, _⟩
    by_contra hnot
    obtain ⟨m, hm⟩ := exists_rounds_eq_none
      (I := fun k x ↦ ∃ next, Catching leader peer next x ∧
        Left leader next x k ∧ ¬ Scans leader peer next x)
      (fun waits _ _ ⟨_, h, hleft, hscans⟩ ↦ by
        rcases h.round hleads hleft waits with
          ⟨y, hy, m, hm, next', hcatch, hleft', hiff⟩ | ⟨_, hnone⟩
        · exact Or.inr ⟨y, hy, m, hm, next', hcatch, hleft',
            fun hscans' ↦ hscans (hiff.mp hscans')⟩
        · exact Or.inl (hnone hscans))
      ⟨next, hstart, hleft, hnot⟩ waits
    have := hsome m
    rw [hm] at this
    cases this
  · intro hscans
    have hreach : ReachedWithin (Exchange.round peer) (Synced leader peer)
        ((2 * follower.logLength).toNat + 1)
        ⟨leader, follower, none, false⟩ :=
      ReachedWithin.of_bound
        (I := fun k x ↦ ∃ next, Catching leader peer next x ∧
          Left leader next x k ∧ Scans leader peer next x)
        (fun waits _ _ ⟨_, h, hleft, hscans⟩ ↦ by
          rcases h.round hleads hleft waits with
            ⟨y, hy, m, hm, next', hcatch, hleft', hiff⟩ | ⟨hdone, _⟩
          · exact ⟨y, hy, Or.inr ⟨m, hm, next', hcatch, hleft',
              hiff.mpr hscans⟩⟩
          · obtain ⟨y, hy, hsynced⟩ := hdone hscans
            exact ⟨y, hy, Or.inl hsynced⟩)
        ⟨next, hstart, hleft, hscans⟩
    refine ⟨hreach.isSome (fun waits _ h ↦ h.round hleads waits) waits, ?_⟩
    obtain ⟨k, hk, x, hrun, hsynced⟩ := hreach waits
    obtain ⟨commit, applied, heq⟩ := hsynced.leader_eq
    have hpos := hbehind.pos
    refine ⟨k, x, by omega, hrun, hsynced.accepted, ?_, ?_⟩
    · rw [heq]
      exact hsynced.agrees.entries
    · rw [heq]
      exact List.getElem?_set_self hlt

end Snapshots

end Rounds

/-- The leader of term 3 in a cluster of three has compacted nothing, and
starts after its last entry. -/
def backingUpLeader : Raft 3 ℕ where
  currentTerm := 3
  commitIndex := 0
  lastApplied := 0
  me := 0
  votedFor := some 0
  state := .leader
  log := [⟨0, 0⟩, ⟨1, 5⟩, ⟨3, 6⟩, ⟨3, 7⟩]
  nextIndex := [4, 4, 4]
  matchIndex := [-1, -1, -1]
  logLength := 4
  snapshotData := []
  lastIncludedIndex := 0
  lastIncludedTerm := 0
  persister := ⟨none, []⟩

/-- A follower with entries of term 2 that were never committed. -/
def divergedFollower : Raft 3 ℕ where
  currentTerm := 2
  commitIndex := 0
  lastApplied := 0
  me := 1
  votedFor := none
  state := .follower
  log := [⟨0, 0⟩, ⟨1, 5⟩, ⟨2, 8⟩]
  nextIndex := []
  matchIndex := []
  logLength := 3
  snapshotData := []
  lastIncludedIndex := 0
  lastIncludedTerm := 0
  persister := ⟨none, []⟩

theorem backingUpLeader_matching :
    backingUpLeader.LogMatching divergedFollower := by
  intro i e f hi _ he hf hterm j hj _ hji
  change 0 < i at hi
  change 0 < j at hj
  obtain ⟨_, hlt⟩ := elemAt_isSome_iff.mp (Option.isSome_of_eq_some hf)
  change i - 0 < 3 at hlt
  obtain rfl | rfl : i = 1 ∨ i = 2 := by omega
  · obtain rfl : j = 1 := by omega
    exact ⟨⟨1, 5⟩, rfl, rfl⟩
  · cases he
    cases hf
    cases hterm

/-- The follower is brought up to date although its last entry conflicts. -/
theorem fast_backup_conflict :
    ∃ (k : ℕ) (x : Exchange 3 ℕ), k ≤ 2 * divergedFollower.logLength + 3 ∧
      rounds (Exchange.round 1) (fun _ ↦ false) k
        ⟨backingUpLeader, divergedFollower, none, false⟩ = some x ∧
      x.accepted = true := by
  obtain ⟨_, k, x, hk, hrun, hsuccess, _⟩ := (fast_backup (by decide)
    ⟨by decide, rfl, rfl, by decide, fun e he ↦ by cases he; decide⟩
    ⟨by decide, rfl, rfl, by decide, fun e he ↦ by cases he; decide⟩
    (by decide) backingUpLeader_matching (by decide) (fun _ ↦ rfl) (by decide)
    (rfl : backingUpLeader.nextIndex[(1 : Fin 3).val]? = some 4) (by decide)
    rfl fun _ ↦ false).mpr (Or.inr (Or.inl (by decide)))
  exact ⟨k, x, hk, hrun, hsuccess⟩

/-- A leader that was restarted from a snapshot through index 2: its commit
index is zero, and the entry above the sentinel is of an older term. -/
def restartedLeader : Raft 3 ℕ where
  currentTerm := 2
  commitIndex := 0
  lastApplied := 0
  me := 0
  votedFor := some 0
  state := .leader
  log := [⟨1, 0⟩, ⟨1, 7⟩]
  nextIndex := [4, 3, 4]
  matchIndex := [-1, -1, -1]
  logLength := 4
  snapshotData := [1]
  lastIncludedIndex := 2
  lastIncludedTerm := 1
  persister := ⟨none, []⟩

/-- A follower with the same snapshot and nothing else. -/
def compactedFollower : Raft 3 ℕ where
  currentTerm := 2
  commitIndex := 2
  lastApplied := 2
  me := 1
  votedFor := none
  state := .follower
  log := [⟨1, 0⟩]
  nextIndex := []
  matchIndex := []
  logLength := 3
  snapshotData := [1]
  lastIncludedIndex := 2
  lastIncludedTerm := 1
  persister := ⟨none, []⟩

/-- The first round is accepted by the follower, and the commit scan of the
leader then reads below its log. -/
theorem fast_backup_scan_panics :
    (1 : Fin 3) ≠ restartedLeader.me ∧
    LogRepresentation restartedLeader ∧ LogRepresentation compactedFollower ∧
    (∀ e ∈ restartedLeader.log ++ compactedFollower.log, 1 ≤ e.logTerm) ∧
    restartedLeader.LogMatching compactedFollower ∧
    compactedFollower.lastIncludedIndex = restartedLeader.lastIncludedIndex ∧
    compactedFollower.lastIncludedTerm = restartedLeader.lastIncludedTerm ∧
    compactedFollower.currentTerm ≤ restartedLeader.currentTerm ∧
    restartedLeader.nextIndex[(1 : Fin 3).val]? = some 3 ∧
    3 ≤ restartedLeader.logLength ∧ restartedLeader.matchIndex.length = 3 ∧
    ∀ waits : ℕ → Bool, rounds (Exchange.round 1) waits 1
      ⟨restartedLeader, compactedFollower, none, false⟩ = none := by
  refine ⟨by decide,
    ⟨by decide, rfl, rfl, by decide, fun e he ↦ by cases he; decide⟩,
    ⟨by decide, rfl, rfl, by decide, fun e he ↦ by cases he; decide⟩,
    by decide, ?_, rfl, rfl, by decide, rfl, by decide, rfl, fun _ ↦ rfl⟩
  intro i e f hi _ _ hf
  change 2 < i at hi
  obtain ⟨_, hlt⟩ := elemAt_isSome_iff.mp (Option.isSome_of_eq_some hf)
  change i - 2 < 1 at hlt
  omega

end Exchange

end DistLabs
