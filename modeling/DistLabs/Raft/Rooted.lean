import DistLabs.Raft.Bookkeeping

/-!
# Logs are rooted at index zero

Index zero stands for the empty history: it has term zero, and every entry after
it has a positive term.  A follower therefore never names index zero as the
place of a conflict, no next index falls below one, and a snapshot is sent only
by a server that has compacted something.  None of this depends on how many
leaders a term has.
-/

namespace DistLabs

variable {n : ℕ} {Cmd : Type}

/-! ## Logs -/

/-- A log that starts at index `lii` with a sentinel of term `lit`: only the
sentinel of index zero has term zero. -/
structure RootedLog (log : List (LogEntry Cmd)) (lii : ℤ) (lit : ℕ) :
    Prop where
  nonneg : 0 ≤ lii
  origin : lii = 0 → lit = 0
  positive : ∀ k e, 0 < k → log[k]? = some e → 0 < e.logTerm

namespace RootedLog

variable {log : List (LogEntry Cmd)} {lii : ℤ} {lit : ℕ}

theorem singleton (hnonneg : 0 ≤ lii) (horigin : lii = 0 → lit = 0)
    (e : LogEntry Cmd) : RootedLog [e] lii lit := by
  refine ⟨hnonneg, horigin, ?_⟩
  intro k d hk hd
  rw [List.getElem?_eq_none (by simp; omega)] at hd
  cases hd

theorem take (h : RootedLog log lii lit) (m : ℕ) :
    RootedLog (log.take m) lii lit := by
  refine ⟨h.nonneg, h.origin, ?_⟩
  intro k e hk he
  rw [List.getElem?_take] at he
  split at he
  · exact h.positive k e hk he
  · cases he

theorem append (h : RootedLog log lii lit) {entries : List (LogEntry Cmd)}
    (hentries : ∀ e ∈ entries, 0 < e.logTerm) :
    RootedLog (log ++ entries) lii lit := by
  refine ⟨h.nonneg, h.origin, ?_⟩
  intro k e hk he
  rw [List.getElem?_append] at he
  split at he
  · exact h.positive k e hk he
  · exact hentries e (List.mem_of_getElem? he)

theorem drop (h : RootedLog log lii lit) (m : ℕ) {lit' : ℕ}
    (horigin : lii + m = 0 → lit' = 0) :
    RootedLog (log.drop m) (lii + m) lit' := by
  have hnonneg := h.nonneg
  refine ⟨by omega, horigin, ?_⟩
  intro k e hk he
  rw [List.getElem?_drop] at he
  exact h.positive (m + k) e (by omega) he

end RootedLog

/-! ## One server -/

/-- The log of a server and the one in its persister are rooted. -/
structure Rooted (rf : Raft n Cmd) : Prop where
  memory : RootedLog rf.log rf.lastIncludedIndex rf.lastIncludedTerm
  saved : ∀ saved, rf.persister.raftstate = some saved →
    RootedLog saved.log saved.lastIncludedIndex saved.lastIncludedTerm

/-- A request that a rooted log can send. -/
structure RootedRequest (args : AppendEntriesArgs n Cmd) : Prop where
  nonneg : 0 ≤ args.prevLogIndex
  origin : args.prevLogIndex = 0 → args.prevLogTerm = 0
  positive : ∀ e ∈ args.entries, 0 < e.logTerm

namespace Rooted

variable {rf rf' : Raft n Cmd}

theorem of_eq (h : Rooted rf) (hlog : rf'.log = rf.log)
    (hlii : rf'.lastIncludedIndex = rf.lastIncludedIndex)
    (hlit : rf'.lastIncludedTerm = rf.lastIncludedTerm)
    (hsaved : rf'.persister = rf.persister) : Rooted rf' :=
  ⟨by rw [hlog, hlii, hlit]; exact h.memory, by rw [hsaved]; exact h.saved⟩

theorem persist
    (h : RootedLog rf.log rf.lastIncludedIndex rf.lastIncludedTerm) :
    Rooted rf.persist := by
  refine ⟨h, ?_⟩
  intro saved hsaved
  cases hsaved
  exact h

/-- The term that is read at virtual index zero is zero. -/
theorem term_zero (h : Rooted rf) (hrep : Represented rf)
    {e : LogEntry Cmd} (he : elemAt rf.log (rf.v2pIndex 0) = some e) :
    e.logTerm = 0 := by
  have hnonneg := h.memory.nonneg
  obtain ⟨k, hk, hget⟩ := elemAt_eq_some_iff.mp he
  unfold Raft.v2pIndex at hk
  obtain rfl : k = 0 := by omega
  have hhead := hrep.ordered.head
  rw [List.head?_eq_getElem?, hget, h.memory.origin (by omega)] at hhead
  simpa using hhead

/-- The log from virtual index `index` on is rooted. -/
theorem drop (h : Rooted rf) (hrep : Represented rf) {index : ℤ}
    {entry : LogEntry Cmd}
    (hentry : elemAt rf.log (rf.v2pIndex index) = some entry) :
    RootedLog (rf.log.drop (rf.v2pIndex index).toNat) index
      entry.logTerm := by
  obtain ⟨k, hk, _⟩ := elemAt_eq_some_iff.mp hentry
  have hindex : rf.lastIncludedIndex + (k : ℤ) = index := by
    unfold Raft.v2pIndex at hk
    omega
  rw [hk, Int.toNat_natCast, ← hindex]
  refine h.memory.drop k fun hzero ↦ ?_
  rw [← hindex, hzero] at hentry
  exact h.term_zero hrep hentry

theorem appendLog (h : Rooted rf) {k : ℤ} {entries : List (LogEntry Cmd)}
    (hentries : ∀ e ∈ entries, 0 < e.logTerm) :
    Rooted (rf.appendLog k entries) := by
  unfold Raft.appendLog
  split
  · exact persist ((h.memory.take _).append hentries)
  · exact h

theorem advanceCommit (h : Rooted rf) (leaderCommit : ℤ) :
    Rooted (rf.advanceCommit leaderCommit) := by
  unfold Raft.advanceCommit
  split
  · exact h.of_eq rfl rfl rfl rfl
  · exact h

theorem change [Zero Cmd] {In : Inputs n Cmd}
    (happend : ∀ args, In.append args → RootedRequest args)
    (hsnap : ∀ args, In.snap args → 1 ≤ args.lastIncludedIndex)
    (hrep : Represented rf) (hleader : rf.state = .leader → 0 < rf.currentTerm)
    (hchange : Change In rf rf') (h : Rooted rf) : Rooted rf' := by
  cases hchange with
  | elect =>
      rw [Raft.electLauncher_rf]
      exact persist h.memory
  | grant | raise => exact persist h.memory
  | follow | demote | lead | reindex | matched | commit | apply =>
      exact h.of_eq rfl rfl rfl rfl
  | start _ hstate =>
      refine persist (h.memory.append ?_)
      simpa using hleader hstate
  | snapshot _ hentry => exact persist (h.drop hrep hentry)
  | conflict =>
      rw [hrep.hasSentinel.stamped_eq]
      refine persist ?_
      dsimp only
      split
      · exact h.memory.take 1
      · exact h.memory.take _
  | accept hin =>
      rw [hrep.hasSentinel.stamped_eq]
      exact (h.appendLog (happend _ hin).positive).advanceCommit _
  | install hin _ hlog =>
      have hpos := hsnap _ hin
      refine persist ?_
      rcases Raft.remainingLog_cases hlog with
        ⟨entry, _, _, hentry, hterm, rfl⟩ | ⟨rfl, _⟩
      · dsimp only
        rw [← hterm]
        exact h.drop hrep hentry
      · exact RootedLog.singleton (by dsimp only; omega)
          (fun hzero ↦ by dsimp only at hzero; omega) _

theorem make [Zero Cmd] (h : Rooted rf) (me : Fin n) :
    Rooted (Raft.make me rf.persister) := by
  rcases Raft.make_cases me rf.persister with
    ⟨_, hmake⟩ | ⟨saved, hsaved, hmake⟩ <;> rw [hmake]
  · exact ⟨RootedLog.singleton le_rfl (fun _ ↦ rfl) _, h.saved⟩
  · exact ⟨h.saved saved hsaved, h.saved⟩

/-- The requests of a rooted server are rooted. -/
theorem request (h : Rooted rf) (hrep : Represented rf) {i j : Fin n}
    {args : AppendEntriesArgs n Cmd}
    (hprepare : rf.prepare i = some (.appendEntries j args)) :
    RootedRequest args := by
  obtain ⟨_, next, prev, _, hpos, hprev, rfl⟩ := Raft.prepare_append hprepare
  have hnonneg := h.memory.nonneg
  have hphys : rf.v2pIndex next - 1 = rf.v2pIndex (next - 1) := by
    unfold Raft.v2pIndex
    omega
  rw [hphys] at hpos hprev
  refine ⟨?_, ?_, ?_⟩
  · unfold Raft.v2pIndex at hpos
    dsimp only
    omega
  · intro hzero
    dsimp only at hzero ⊢
    rw [hzero] at hprev
    exact h.term_zero hrep hprev
  · intro e he
    dsimp only at he
    split at he
    · obtain ⟨k, hk⟩ := List.mem_iff_getElem?.mp he
      rw [List.getElem?_drop] at hk
      exact h.memory.positive _ e (by unfold Raft.v2pIndex at *; omega) hk
    · simp at he

end Rooted

/-! ## What a refusal says -/

/-- The hints of a refusal lie within the log in front of the request. -/
structure AppendEntriesReply.Within (reply : AppendEntriesReply)
    (prevLogIndex : ℤ) : Prop where
  len : reply.xTerm = -1 → 1 ≤ reply.xLen ∧ reply.xLen ≤ prevLogIndex
  index : reply.xTerm ≠ -1 → 1 ≤ reply.xIndex ∧ reply.xIndex ≤ prevLogIndex

namespace Raft

variable {rf rf' : Raft n Cmd}

/-- The conflict index is the place of the first entry with the term of the
conflicting one. -/
theorem conflictIndex_eq {k : ℕ} {entry : LogEntry Cmd}
    (hentry : rf.log[k]? = some entry) :
    ∃ (i : ℕ) (e : LogEntry Cmd), i ≤ k ∧ rf.log[i]? = some e ∧
      e.logTerm = entry.logTerm ∧
      rf.conflictIndex k entry.logTerm = rf.p2vIndex i := by
  have hmem : entry ∈ rf.log.take (k + 1) :=
    List.mem_of_getElem? ((List.getElem?_take_of_lt (Nat.lt_succ_self k)).trans
      hentry)
  unfold conflictIndex
  rw [Int.toNat_natCast]
  split
  · next i hfind =>
      obtain ⟨hlt, hterm, _⟩ := List.findIdx?_eq_some_iff_getElem.mp hfind
      have hik : i < k + 1 :=
        lt_of_lt_of_le hlt (List.length_take_le _ _)
      refine ⟨i, (rf.log.take (k + 1))[i], by omega, ?_, by simpa using hterm,
        rfl⟩
      rw [← List.getElem?_take_of_lt hik]
      exact List.getElem?_eq_getElem hlt
  · next hfind =>
      have hnone := List.findIdx?_eq_none_iff.mp hfind entry hmem
      simp at hnone

/-- A request that is refused without being stale lies beyond the log, or it
conflicts with an entry. -/
theorem heartbeatHandler_refused (hrep : Represented rf)
    {args : AppendEntriesArgs n Cmd} {reply : AppendEntriesReply}
    (hrun : rf.heartbeatHandler args = .done rf' reply)
    (hfail : reply.success = false) (hterm : reply.term ≤ args.term) :
    (reply.xTerm = -1 ∧ reply.xLen = rf.logLength ∧
      rf.logLength ≤ args.prevLogIndex) ∨
    ∃ (i k : ℕ) (e entry : LogEntry Cmd), i ≤ k ∧
      rf.v2pIndex args.prevLogIndex = k ∧ rf.log[i]? = some e ∧
      rf.log[k]? = some entry ∧ e.logTerm = entry.logTerm ∧
      args.prevLogTerm ≠ entry.logTerm ∧ reply.xTerm = entry.logTerm ∧
      reply.xIndex = rf.p2vIndex i := by
  rcases lt_or_ge args.term rf.currentTerm with hstale | hcurrent
  · rw [heartbeatHandler_stale hstale] at hrun
    cases hrun
    exact absurd hterm (not_le.mpr hstale)
  rcases lt_or_ge (rf.logLength - 1) args.prevLogIndex with hbeyond | hinside
  · rw [heartbeatHandler_beyond hcurrent hbeyond] at hrun
    cases hrun
    exact Or.inl ⟨rfl, rfl, by omega⟩
  cases hentry : elemAt rf.log (rf.v2pIndex args.prevLogIndex) with
  | none =>
      rw [heartbeatHandler_panic hcurrent hinside hentry] at hrun
      cases hrun
  | some entry =>
      by_cases heq : args.prevLogTerm = entry.logTerm
      · rw [hrep.hasSentinel.heartbeatHandler_accept hcurrent hinside hentry
          heq] at hrun
        cases hrun
        cases hfail
      · rw [hrep.hasSentinel.heartbeatHandler_conflict hcurrent hinside hentry
          heq] at hrun
        cases hrun
        obtain ⟨k, hk, hget⟩ := elemAt_eq_some_iff.mp hentry
        have hget' : (rf.followLeader args.term).log[k]? = some entry := by
          rwa [followLeader_log]
        obtain ⟨i, e, hik, he, hsame, hindex⟩ := conflictIndex_eq hget'
        rw [followLeader_log] at he
        refine Or.inr ⟨i, k, e, entry, hik, hk, he, hget, hsame, heq, rfl, ?_⟩
        dsimp only
        rw [hk, hindex]
        simp [p2vIndex]

/-- The next index that fast backup chooses lies within the log when the hint
that it follows does. -/
theorem backupIndex_le_logLength {reply : AppendEntriesReply}
    (hlength : rf.logLength = rf.lastIncludedIndex + rf.log.length)
    (hlen : reply.xTerm = -1 → reply.xLen ≤ rf.logLength)
    (hindex : reply.xTerm ≠ -1 → reply.xIndex ≤ rf.logLength) :
    rf.backupIndex reply ≤ rf.logLength := by
  unfold backupIndex
  split
  · next hterm =>
      split
      · next j hfind =>
          obtain ⟨hlt, _⟩ := List.findIdx?_eq_some_iff_getElem.mp hfind
          unfold p2vIndex
          omega
      · exact hindex hterm
  · next hterm => exact hlen (not_not.mp hterm)

end Raft

/-- The hints of a rooted follower lie within its log, above index zero. -/
theorem Rooted.within {rf rf' : Raft n Cmd} (h : Rooted rf)
    (hrep : Represented rf) {args : AppendEntriesArgs n Cmd}
    (hargs : RootedRequest args) {reply : AppendEntriesReply}
    (hrun : rf.heartbeatHandler args = .done rf' reply)
    (hfail : reply.success = false) (hterm : reply.term ≤ args.term) :
    reply.Within args.prevLogIndex := by
  have hnonneg := h.memory.nonneg
  rcases Raft.heartbeatHandler_refused hrep hrun hfail hterm with
    ⟨hxterm, hlen, hbeyond⟩ |
    ⟨i, k, e, entry, hik, hk, he, hentry, hsame, hne, hxterm, hxindex⟩
  · have hlength := hrep.length
    have hpos := hrep.ordered.length_pos
    exact ⟨fun _ ↦ ⟨by omega, by omega⟩, fun hno ↦ absurd hxterm hno⟩
  · unfold Raft.v2pIndex at hk
    refine ⟨fun hno ↦ absurd (hxterm.symm.trans hno) (by omega), fun _ ↦ ?_⟩
    rw [hxindex, Raft.p2vIndex]
    refine ⟨?_, by omega⟩
    by_contra hzero
    have hfirst : elemAt rf.log (rf.v2pIndex 0) = some e := by
      unfold Raft.v2pIndex
      rw [show (0 : ℤ) - rf.lastIncludedIndex = (i : ℕ) by omega,
        elemAt_natCast]
      exact he
    have hterm₀ := h.term_zero hrep hfirst
    rcases Nat.eq_zero_or_pos k with rfl | hpos
    · exact hne ((hargs.origin (by omega)).trans (by omega))
    · have := h.memory.positive k entry hpos hentry
      omega

namespace Raft

variable {rf : Raft n Cmd}

/-- The next index that fast backup chooses is positive. -/
theorem backupIndex_pos (hlii : 0 ≤ rf.lastIncludedIndex)
    {reply : AppendEntriesReply} {prev : ℤ} (h : reply.Within prev) :
    1 ≤ rf.backupIndex reply := by
  unfold backupIndex
  split
  · next hxterm =>
      split
      · unfold p2vIndex
        omega
      · exact (h.index hxterm).1
  · next hxterm => exact (h.len (not_not.mp hxterm)).1

/-- A snapshot is prepared for a peer whose next index is compacted. -/
theorem prepare_snapshot_next {i : Fin n} {job : SnapshotJob n}
    (h : rf.prepare i = some (.snapshot job)) :
    ∃ next, rf.nextIndex[i.val]? = some next ∧
      next ≤ rf.lastIncludedIndex := by
  unfold prepare at h
  split at h
  · cases h
  · next next hnext =>
      split at h
      · next hneg =>
          unfold v2pIndex at hneg
          exact ⟨next, hnext, by omega⟩
      · split at h
        · cases h
        · cases h

end Raft

/-! ## The cluster -/

/-- No next index is below one. -/
def PeerIndices.Positive (n : ℕ) (ix : PeerIndices) : Prop :=
  ∀ (j : Fin n) (v : ℤ), ix.nextIndex[j.val]? = some v → 1 ≤ v

theorem PeerIndices.Positive.set_next {ix : PeerIndices}
    (h : ix.Positive n) (peer : Fin n) {v : ℤ} (hv : 1 ≤ v) :
    Positive n { ix with nextIndex := ix.nextIndex.set peer v } := by
  intro j w hw
  by_cases hpeer : peer = j
  · subst hpeer
    rw [List.getElem?_set_self'] at hw
    obtain ⟨_, _, rfl⟩ := Option.map_eq_some_iff.mp hw
    exact hv
  · have hne : peer.val ≠ j.val := fun heq ↦ hpeer (Fin.ext heq)
    exact h j w ((List.getElem?_set_ne hne).symm.trans hw)

namespace Cluster

variable [Zero Cmd] {σ σ' : Cluster n Cmd} {a : Action Cmd n}

/-- What holds of logs, next indices and requests in every run. -/
structure Grounded (σ : Cluster n Cmd) : Prop where
  ordered : Ordered σ
  servers : ∀ s, Rooted (σ.server s).rf
  leaders : ∀ s, (σ.server s).rf.state = .leader →
    0 < (σ.server s).rf.currentTerm
  next : ∀ s, (σ.server s).rf.indices.Positive n
  appends : ∀ call ∈ σ.appendCalls, RootedRequest call.args
  hints : ∀ call ∈ σ.appendCalls, ∀ reply, call.phase = .replied reply →
    reply.success = false → reply.term ≤ call.args.term →
    reply.Within call.args.prevLogIndex
  jobs : ∀ s, ∀ job ∈ (σ.server s).jobs, 1 ≤ job.lastIncludedIndex
  snaps : ∀ call ∈ σ.snapCalls, 1 ≤ call.args.lastIncludedIndex

theorem grounded_init : Grounded (init : Cluster n Cmd) where
  ordered := ordered_init
  servers := by
    intro s
    refine ⟨RootedLog.singleton le_rfl (fun _ ↦ rfl) _, ?_⟩
    simp [init, boot, Raft.make, Raft.readPersist]
  leaders := fun s hleader ↦ absurd hleader (boot_not_leader s 0 _)
  next := by
    intro s j v hv
    cases hv
  appends := by simp [init]
  hints := by simp [init]
  jobs := by simp [init, boot]
  snaps := by simp [init]

/-- Candidates ask in the positive term in which they have voted for
themselves. -/
theorem voteCall_voted {ok : Cluster n Cmd → Action Cmd n → Prop}
    {visited : List (Cluster n Cmd)} (hrun : Run step ok init visited σ)
    {call : VoteCall n} (hcall : call ∈ σ.voteCalls) :
    0 < call.args.term ∧
      σ.Voted call.args.candidateId call.args.term call.args.candidateId := by
  induction hrun generalizing call with
  | start => simp [init] at hcall
  | next hprev _ hstep ih =>
      have htrans := step_transition hstep
      rcases htrans.voteCall_origin hcall with
        ⟨old, hold, _, rfl⟩ | ⟨rf, rfl, _, hrun⟩
      · exact ⟨(ih hold).1, (ih hold).2.mono htrans⟩
      · obtain ⟨_, last, _, hargs⟩ := Raft.electLauncher_done hrun
        have hme := (ballots_of_run hprev).me call.caller
        refine ⟨by rw [hargs]; exact Nat.succ_pos _, ?_⟩
        cases htrans with
        | electPanic _ _ hpanic => rw [hpanic] at hrun; cases hrun
        | elect _ _ hdone =>
            cases hdone.symm.trans hrun
            have hself : call.args.candidateId = call.caller := by
              rw [hargs, hme]
            rw [hself]
            exact List.mem_append_right _ (List.mem_singleton_self _)

/-- Servers are promoted in positive terms. -/
theorem won_pos {ok : Cluster n Cmd → Action Cmd n → Prop}
    {visited : List (Cluster n Cmd)} (hrun : Run step ok init visited σ)
    {s : Fin n} {args : RequestVoteArgs n} {T : ℕ}
    (hin : (σ.inputs a s).won args T) : 0 < T := by
  obtain ⟨k, call, _, _, hcall, _, _, rfl, _, rfl⟩ := hin
  have hmem := List.mem_of_getElem? hcall
  have hballots := ballots_of_run hrun
  obtain ⟨hpos, hvoted⟩ := voteCall_voted hrun hmem
  rw [(hballots.calls call hmem).candidate] at hvoted
  exact lt_of_lt_of_le hpos
    ((hballots.records call.caller).covers _ _ hvoted).1

theorem Grounded.server_step (h : Grounded σ)
    (hpos : ∀ s args T, (σ.inputs a s).won args T → 0 < T)
    (htrans : Transition σ a σ') (s : Fin n) :
    Rooted (σ'.server s).rf ∧
      ((σ'.server s).rf.state = .leader →
        0 < (σ'.server s).rf.currentTerm) := by
  cases htrans.evolves s with
  | changes hchanges =>
      refine (hchanges.preserves
        (P := fun rf ↦ Represented rf ∧ Rooted rf ∧
          (rf.state = .leader → 0 < rf.currentTerm)) ?_
        ⟨h.ordered.servers s, h.servers s, h.leaders s⟩).2
      rintro rf rf' hchange ⟨hrep, hrooted, hleader⟩
      refine ⟨h.ordered.represented_change hchange hrep,
        hrooted.change ?_ ?_ hrep hleader hchange,
        leader_change (E := fun T ↦ 0 < T) (hpos s) hchange hleader⟩
      · rintro args ⟨k, call, _, hcall, _, rfl⟩
        exact h.appends call (List.mem_of_getElem? hcall)
      · rintro args ⟨k, call, _, hcall, _, rfl⟩
        exact h.snaps call (List.mem_of_getElem? hcall)
  | restart _ hboot =>
      rw [hboot]
      exact ⟨(h.servers s).make s,
        fun hleader ↦ absurd hleader (boot_not_leader _ _ _)⟩

theorem Grounded.next_step (h : Grounded σ) (htrans : Transition σ a σ')
    (s : Fin n) : (σ'.server s).rf.indices.Positive n := by
  have hrep := h.ordered.servers s
  have hlii := (h.servers s).memory.nonneg
  have hlen := hrep.length
  have hlog := hrep.ordered.length_pos
  by_cases hwon : ∃ args T, (σ.inputs a s).won args T
  · obtain ⟨args, T, hin⟩ := hwon
    rw [htrans.won_rf hin]
    intro j v hv
    have hfill : (σ.server s).rf.becomeLeader.indices.nextIndex[j.val]? =
        some (σ.server s).rf.logLength := Raft.getElem?_fillIndex _ _ j
    obtain rfl := Option.some.inj (hv.symm.trans hfill)
    omega
  · cases htrans.indexStep fun args T hin ↦ hwon ⟨args, T, hin⟩ with
    | keep hsame =>
        rw [hsame]
        exact h.next s
    | @append k call reply _ hcall hphase _ _ hrf =>
        have hmem := List.mem_of_getElem? hcall
        have hprev := (h.appends call hmem).nonneg
        rw [hrf]
        rcases (σ.server s).rf.sendHeartbeat_indices call.peer call.args
            reply with hix | ⟨_, hreply, ⟨_, hix⟩ | ⟨hfail, hix⟩⟩ <;> rw [hix]
        · exact h.next s
        · exact (h.next s).set_next call.peer (by omega)
        · exact (h.next s).set_next call.peer (Raft.backupIndex_pos hlii
            (h.hints call hmem reply hphase hfail hreply))
    | snap _ _ _ _ hrf =>
        rw [hrf]
        rcases (σ.server s).rf.sendSnapshot_indices _ _ _ with
          hix | ⟨_, hix⟩ <;> rw [hix]
        · exact h.next s
        · exact (h.next s).set_next _ (by omega)
    | restart hboot =>
        rw [hboot]
        intro j v hv
        obtain ⟨_, _, _, hnil, _⟩ :=
          Raft.make_volatile s (σ.server s).rf.persister
        change (Raft.make s _).nextIndex[j.val]? = some v at hv
        rw [hnil] at hv
        cases hv

theorem Grounded.step (h : Grounded σ)
    (hpos : ∀ s args T, (σ.inputs a s).won args T → 0 < T)
    (hstep : σ.step a = some σ') : Grounded σ' := by
  have htrans := step_transition hstep
  have hordered := h.ordered.step hstep
  have hservers : ∀ s, Rooted (σ'.server s).rf :=
    fun s ↦ (h.server_step hpos htrans s).1
  have hnext : ∀ s, (σ'.server s).rf.indices.Positive n :=
    fun s ↦ h.next_step htrans s
  refine ⟨hordered, hservers, fun s ↦ (h.server_step hpos htrans s).2, hnext,
    ?_, ?_, ?_, ?_⟩
  · intro call hcall
    rcases htrans.appendCall_origin hcall with ⟨old, hold, _, rfl⟩ | hnew
    · exact h.appends old hold
    · exact (hservers call.caller).request (hordered.servers call.caller)
        hnew.prepared
  · intro call hcall reply hphase hfail hterm
    rcases htrans.replied_origin hcall hphase with
      hsame | ⟨k, old, rf, _, hget, rfl, hrun⟩
    · exact h.hints call hsame reply hphase hfail hterm
    · exact (h.servers old.peer).within (h.ordered.servers old.peer)
        (h.appends old (List.mem_of_getElem? hget)) hrun hfail hterm
  · intro s job hjob
    rcases htrans.job_origin hjob with hold | hnew
    · exact h.jobs s job hold
    · obtain ⟨next, hget, hle⟩ := Raft.prepare_snapshot_next hnew.prepared
      rw [Raft.prepare_snapshot hnew.prepared]
      exact le_trans (hnext s _ next hget) hle
  · intro call hcall
    rcases htrans.snapCall_origin hcall with ⟨old, hold, _, rfl⟩ | hnew
    · exact h.snaps old hold
    · cases hnew with
      | atOnce _ _ _ _ _ hargs hcompacted =>
          obtain ⟨next, hget, hle⟩ := hcompacted
          rw [hargs]
          exact le_trans (hnext call.caller _ next hget) hle
      | ofJob _ hget _ _ hargs =>
          rw [hargs]
          exact h.jobs _ _ (List.mem_of_getElem? hget)

theorem grounded_of_run {ok : Cluster n Cmd → Action Cmd n → Prop}
    {visited : List (Cluster n Cmd)} (hrun : Run step ok init visited σ) :
    Grounded σ := by
  induction hrun with
  | start => exact grounded_init
  | next hprev _ hstep ih =>
      exact ih.step (fun _ _ _ hin ↦ won_pos hprev hin) hstep

end Cluster

end DistLabs
