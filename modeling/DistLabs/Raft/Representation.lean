import DistLabs.Raft.Origins

/-!
# The log representation invariant

The fields `Log`, `LogLength`, `LastIncludedIndex` and `LastIncludedTerm` are
rewritten separately by six sections.  They always describe one log whose
terms do not decrease and do not exceed the current term, and so does the copy
in the persister.  The term order needs that the requests in flight are ordered
in the same way.
-/

namespace DistLabs

variable {n : ℕ} {Cmd : Type}

/-- The five facts about the fields that represent the log. -/
structure LogRepresentation (rf : Raft n Cmd) : Prop where
  nonempty : 1 ≤ rf.log.length
  logLength : rf.logLength = rf.lastIncludedIndex + rf.log.length
  sentinel : rf.log.head?.map LogEntry.logTerm = some rf.lastIncludedTerm
  sorted : rf.log.Pairwise fun a b ↦ a.logTerm ≤ b.logTerm
  last : ∀ e, rf.log.getLast? = some e → e.logTerm ≤ rf.currentTerm

/-- The entry at physical index 0 carries the term of the snapshot. -/
def Raft.HasSentinel (rf : Raft n Cmd) : Prop :=
  rf.log.head?.map LogEntry.logTerm = some rf.lastIncludedTerm

namespace Raft.HasSentinel

variable {rf : Raft n Cmd}

theorem followLeader (h : rf.HasSentinel) (term : ℕ) :
    (rf.followLeader term).HasSentinel := by
  unfold Raft.followLeader
  split
  · exact h
  · exact h

theorem appendLog (h : rf.HasSentinel) (k : ℤ)
    (entries : List (LogEntry Cmd)) :
    (rf.appendLog k entries).HasSentinel := by
  unfold HasSentinel at h
  unfold Raft.appendLog HasSentinel
  split
  · cases hlog : rf.log with
    | nil => simp [hlog] at h
    | cons e log => simpa [hlog, Raft.persist] using h
  · exact h

theorem advanceCommit (h : rf.HasSentinel) (leaderCommit : ℤ) :
    (rf.advanceCommit leaderCommit).HasSentinel := by
  unfold HasSentinel
  rw [Raft.advanceCommit_log, Raft.advanceCommit_lastIncludedTerm]
  exact h

theorem accepted (h : rf.HasSentinel) (args : AppendEntriesArgs n Cmd) :
    (rf.accepted args).HasSentinel :=
  ((h.followLeader args.term).appendLog _ args.entries).advanceCommit _

/-- The sentinel already carries the term that is stamped on it. -/
theorem stamped_eq (h : rf.HasSentinel) (k : ℤ) : rf.stamped k = rf := by
  unfold HasSentinel at h
  unfold Raft.stamped
  split
  · have hsame : (rf.log.modifyHead fun entry ↦
        { entry with logTerm := rf.lastIncludedTerm }) = rf.log := by
      cases hlog : rf.log with
      | nil => rfl
      | cons e log =>
          have hterm : e.logTerm = rf.lastIncludedTerm := by
            simpa [hlog] using h
          rw [List.modifyHead_cons, ← hterm]
    unfold Raft.stampSentinel
    rw [hsame]
  · rfl

/-- The term that is compared is the one of the entry, also for the
sentinel. -/
theorem checkTerm_eq (h : rf.HasSentinel) {k : ℤ} {entry : LogEntry Cmd}
    (hentry : elemAt rf.log k = some entry) :
    rf.checkTerm k entry = entry.logTerm := by
  unfold HasSentinel at h
  unfold Raft.checkTerm
  split
  · next hzero =>
      subst hzero
      obtain ⟨i, hi, hget⟩ := elemAt_eq_some_iff.mp hentry
      obtain rfl : i = 0 := by omega
      rw [List.head?_eq_getElem?, hget] at h
      simpa using h.symm
  · rfl

section Handler

variable {args : AppendEntriesArgs n Cmd} {entry : LogEntry Cmd}

theorem heartbeatHandler_conflict (h : rf.HasSentinel)
    (hterm : rf.currentTerm ≤ args.term)
    (hprev : args.prevLogIndex ≤ rf.logLength - 1)
    (hentry : elemAt rf.log (rf.v2pIndex args.prevLogIndex) = some entry)
    (hne : args.prevLogTerm ≠ entry.logTerm) :
    rf.heartbeatHandler args =
      .done
        ((rf.followLeader args.term).deleteConflict
          (rf.v2pIndex args.prevLogIndex))
        ⟨rf.currentTerm, false, entry.logTerm, 0,
          (rf.followLeader args.term).conflictIndex
            (rf.v2pIndex args.prevLogIndex) entry.logTerm⟩ := by
  have hsentinel := h.followLeader args.term
  have hcheck := hsentinel.checkTerm_eq
    (k := rf.v2pIndex args.prevLogIndex) (by simpa using hentry)
  have hstamped := hsentinel.stamped_eq (rf.v2pIndex args.prevLogIndex)
  unfold Raft.checkTerm at hcheck
  unfold Raft.stamped at hstamped
  rw [Raft.heartbeatHandler_checked hterm hprev hentry]
  simp only [Raft.checkConsistency, hcheck, hstamped, if_pos hne]

theorem heartbeatHandler_accept (h : rf.HasSentinel)
    (hterm : rf.currentTerm ≤ args.term)
    (hprev : args.prevLogIndex ≤ rf.logLength - 1)
    (hentry : elemAt rf.log (rf.v2pIndex args.prevLogIndex) = some entry)
    (heq : args.prevLogTerm = entry.logTerm) :
    rf.heartbeatHandler args =
      .done (rf.accepted args) ⟨rf.currentTerm, true, 0, 0, 0⟩ := by
  have hsentinel := h.followLeader args.term
  have hcheck := hsentinel.checkTerm_eq
    (k := rf.v2pIndex args.prevLogIndex) (by simpa using hentry)
  have hstamped := hsentinel.stamped_eq (rf.v2pIndex args.prevLogIndex)
  unfold Raft.checkTerm at hcheck
  unfold Raft.stamped at hstamped
  rw [Raft.heartbeatHandler_checked hterm hprev hentry]
  simp only [Raft.checkConsistency, Raft.accepted, hcheck, hstamped, heq,
    ne_eq, not_true_eq_false, if_false]

/-- An accepted request has passed the check. -/
theorem heartbeatHandler_success (h : rf.HasSentinel) {rf' : Raft n Cmd}
    {reply : AppendEntriesReply}
    (hrun : rf.heartbeatHandler args = .done rf' reply)
    (hsuccess : reply.success = true) :
    args.prevLogIndex ≤ rf.logLength - 1 ∧
    ∃ entry, elemAt rf.log (rf.v2pIndex args.prevLogIndex) = some entry ∧
      args.prevLogTerm = entry.logTerm ∧ rf' = rf.accepted args := by
  have hterm := Raft.heartbeatHandler_success_term hrun hsuccess
  rcases lt_or_ge (rf.logLength - 1) args.prevLogIndex with hbeyond | hprev
  · rw [Raft.heartbeatHandler_beyond hterm hbeyond] at hrun
    cases hrun
    cases hsuccess
  refine ⟨hprev, ?_⟩
  cases hentry : elemAt rf.log (rf.v2pIndex args.prevLogIndex) with
  | none =>
      rw [Raft.heartbeatHandler_panic hterm hprev hentry] at hrun
      cases hrun
  | some entry =>
      by_cases heq : args.prevLogTerm = entry.logTerm
      · rw [h.heartbeatHandler_accept hterm hprev hentry heq] at hrun
        cases hrun
        exact ⟨entry, rfl, heq, rfl⟩
      · rw [h.heartbeatHandler_conflict hterm hprev hentry heq] at hrun
        cases hrun
        cases hsuccess

/-- The reply to an accepted request names no later term, and the receiver is in
the term of the request. -/
theorem heartbeatHandler_success_terms (h : rf.HasSentinel) {rf' : Raft n Cmd}
    {reply : AppendEntriesReply}
    (hrun : rf.heartbeatHandler args = .done rf' reply)
    (hsuccess : reply.success = true) :
    reply.term ≤ args.term ∧ rf'.currentTerm = args.term := by
  have hterm := Raft.heartbeatHandler_success_term hrun hsuccess
  obtain ⟨hprev, entry, hentry, heq, rfl⟩ :=
    h.heartbeatHandler_success hrun hsuccess
  rw [h.heartbeatHandler_accept hterm hprev hentry heq] at hrun
  cases hrun
  exact ⟨hterm, Raft.accepted_currentTerm hterm⟩

end Handler

end Raft.HasSentinel

/-! ## Ordered logs -/

/-- A nonempty log that starts with term `lit`, whose terms do not decrease and
are at most `term`. -/
structure OrderedLog (log : List (LogEntry Cmd)) (lit term : ℕ) : Prop where
  head : log.head?.map LogEntry.logTerm = some lit
  sorted : log.Pairwise fun a b ↦ a.logTerm ≤ b.logTerm
  bound : ∀ e ∈ log, e.logTerm ≤ term

namespace OrderedLog

variable {log : List (LogEntry Cmd)} {lit term : ℕ}

theorem length_pos (h : OrderedLog log lit term) : 1 ≤ log.length := by
  cases log with
  | nil => simpa using h.head
  | cons e log => simp

theorem mono (h : OrderedLog log lit term) {term' : ℕ}
    (hle : term ≤ term') : OrderedLog log lit term' :=
  ⟨h.head, h.sorted, fun e he ↦ le_trans (h.bound e he) hle⟩

theorem lit_le (h : OrderedLog log lit term) : lit ≤ term := by
  cases log with
  | nil => simpa using h.head
  | cons e log =>
      obtain rfl : e.logTerm = lit := by simpa using h.head
      exact h.bound e (by simp)

theorem head_term (h : OrderedLog log lit term) {d : LogEntry Cmd}
    (hd : log[0]? = some d) : d.logTerm = lit := by
  have hhead := h.head
  rw [List.head?_eq_getElem?, hd] at hhead
  exact Option.some.inj hhead

/-- Terms do not decrease along the log. -/
theorem term_le (h : OrderedLog log lit term) {i j : ℕ} (hij : i ≤ j)
    {d e : LogEntry Cmd} (hd : log[i]? = some d) (he : log[j]? = some e) :
    d.logTerm ≤ e.logTerm := by
  obtain ⟨hi, rfl⟩ := List.getElem?_eq_some_iff.mp hd
  obtain ⟨hj, rfl⟩ := List.getElem?_eq_some_iff.mp he
  rcases Nat.eq_or_lt_of_le hij with rfl | hlt
  · exact le_rfl
  · exact List.pairwise_iff_getElem.mp h.sorted i j hi hj hlt

theorem singleton {x : Cmd} (hle : lit ≤ term) :
    OrderedLog [⟨lit, x⟩] lit term :=
  ⟨rfl, List.pairwise_singleton _ _, by simpa using hle⟩

/-- Cutting the log in front of one of its entries. -/
theorem drop (h : OrderedLog log lit term) {k : ℕ} {e : LogEntry Cmd}
    (he : log[k]? = some e) : OrderedLog (log.drop k) e.logTerm term where
  head := by simp [List.head?_drop, he]
  sorted := h.sorted.sublist (List.drop_sublist k log)
  bound := fun d hd ↦ h.bound d (List.mem_of_mem_drop hd)

/-- Cutting the log behind its first entries. -/
theorem take (h : OrderedLog log lit term) {k : ℕ} (hk : 0 < k) :
    OrderedLog (log.take k) lit term where
  head := by rw [List.head?_take, if_neg (by omega)]; exact h.head
  sorted := h.sorted.sublist (List.take_sublist k log)
  bound := fun d hd ↦ h.bound d (List.mem_of_mem_take hd)

/-- Entries that continue an ordered log from its entry `k`. -/
theorem take_append (h : OrderedLog log lit term) {k : ℕ}
    {e : LogEntry Cmd} (he : log[k]? = some e)
    {entries : List (LogEntry Cmd)}
    (hsorted : entries.Pairwise fun a b ↦ a.logTerm ≤ b.logTerm)
    (hprev : ∀ d ∈ entries, e.logTerm ≤ d.logTerm)
    (hbound : ∀ d ∈ entries, d.logTerm ≤ term) :
    OrderedLog (log.take (k + 1) ++ entries) lit term where
  head := by
    have hpos := (h.take (Nat.succ_pos k)).length_pos
    rw [List.head?_append_of_ne_nil _ (by
      intro hnil
      simp [hnil] at hpos)]
    exact (h.take (Nat.succ_pos k)).head
  sorted := by
    refine List.pairwise_append.mpr
      ⟨(h.take (Nat.succ_pos k)).sorted, hsorted, ?_⟩
    intro a ha b hb
    refine le_trans ?_ (hprev b hb)
    rw [List.take_add_one, he] at ha
    rcases List.mem_append.mp ha with hold | hlast
    · obtain ⟨i, hi, rfl⟩ := List.mem_take_iff_getElem.mp hold
      obtain ⟨hk, rfl⟩ := List.getElem?_eq_some_iff.mp he
      exact List.pairwise_iff_getElem.mp h.sorted i k _ hk (by omega)
    · obtain rfl : a = e := by simpa using hlast
      exact le_rfl
  bound := by
    intro d hd
    rcases List.mem_append.mp hd with hold | hnew
    · exact h.bound d (List.mem_of_mem_take hold)
    · exact hbound d hnew

theorem append_singleton (h : OrderedLog log lit term) {x : Cmd} :
    OrderedLog (log ++ [⟨term, x⟩]) lit term where
  head := by
    have hpos := h.length_pos
    rw [List.head?_append_of_ne_nil _ (by
      intro hnil
      simp [hnil] at hpos)]
    exact h.head
  sorted := by
    refine List.pairwise_append.mpr
      ⟨h.sorted, List.pairwise_singleton _ _, ?_⟩
    intro a ha b hb
    obtain rfl : b = ⟨term, x⟩ := by simpa using hb
    exact h.bound a ha
  bound := by
    intro d hd
    rcases List.mem_append.mp hd with hold | hnew
    · exact h.bound d hold
    · obtain rfl : d = ⟨term, x⟩ := by simpa using hnew
      exact le_rfl

end OrderedLog

/-! ## One server -/

/-- The invariant of one server: its log is ordered, its length is right, and
the saved log is ordered. -/
structure Represented (rf : Raft n Cmd) : Prop where
  ordered : OrderedLog rf.log rf.lastIncludedTerm rf.currentTerm
  length : rf.logLength = rf.lastIncludedIndex + rf.log.length
  saved : ∀ saved, rf.persister.raftstate = some saved →
    OrderedLog saved.log saved.lastIncludedTerm saved.currentTerm

/-- Requests whose entries continue an ordered log within their term. -/
structure OrderedRequest (args : AppendEntriesArgs n Cmd) : Prop where
  sorted : args.entries.Pairwise fun a b ↦ a.logTerm ≤ b.logTerm
  prev : ∀ e ∈ args.entries, args.prevLogTerm ≤ e.logTerm
  bound : ∀ e ∈ args.entries, e.logTerm ≤ args.term

namespace Represented

variable {rf : Raft n Cmd}

theorem logRepresentation (h : Represented rf) : LogRepresentation rf where
  nonempty := h.ordered.length_pos
  logLength := h.length
  sentinel := h.ordered.head
  sorted := h.ordered.sorted
  last := fun e he ↦ h.ordered.bound e (List.mem_of_getLast? he)

/-- Fields other than those of the log do not matter, and the term may grow. -/
theorem of_eq (h : Represented rf) {rf' : Raft n Cmd}
    (hlog : rf'.log = rf.log) (hlen : rf'.logLength = rf.logLength)
    (hlii : rf'.lastIncludedIndex = rf.lastIncludedIndex)
    (hlit : rf'.lastIncludedTerm = rf.lastIncludedTerm)
    (hsaved : rf'.persister = rf.persister)
    (hterm : rf.currentTerm ≤ rf'.currentTerm) : Represented rf' where
  ordered := by
    rw [hlog, hlit]
    exact h.ordered.mono hterm
  length := by rw [hlen, hlii, hlog]; exact h.length
  saved := by rw [hsaved]; exact h.saved

theorem persist (h : Represented rf) : Represented rf.persist where
  ordered := h.ordered
  length := h.length
  saved := by
    intro saved hsaved
    cases hsaved
    exact h.ordered

/-- A new log takes the place of the old one, in a server that then saves
it. -/
theorem persist_of_ordered
    (hordered : OrderedLog rf.log rf.lastIncludedTerm rf.currentTerm)
    (hlength : rf.logLength = rf.lastIncludedIndex + rf.log.length) :
    Represented rf.persist where
  ordered := hordered
  length := hlength
  saved := by
    intro saved hsaved
    cases hsaved
    exact hordered

/-- The access to the last entry is in range. -/
theorem elemAt_last (h : Represented rf) :
    ∃ e, elemAt rf.log (rf.v2pIndex rf.logLength - 1) = some e := by
  have hpos := h.ordered.length_pos
  have hlen := h.length
  apply Option.isSome_iff_exists.mp
  rw [elemAt_isSome_iff]
  unfold Raft.v2pIndex
  omega

theorem hasSentinel (h : Represented rf) : rf.HasSentinel :=
  h.ordered.head

theorem extended (h : Represented rf) (command : Cmd) :
    Represented (rf.extended command) := by
  refine persist_of_ordered h.ordered.append_singleton ?_
  have hlen := h.length
  simp only [List.length_append, List.length_singleton]
  omega

theorem compacted (h : Represented rf) {index : ℤ} {data : Bytes}
    {entry : LogEntry Cmd}
    (hentry : elemAt rf.log (rf.v2pIndex index) = some entry) :
    Represented (rf.compacted index data entry) := by
  obtain ⟨k, hk, hget⟩ := elemAt_eq_some_iff.mp hentry
  refine persist_of_ordered ?_ (Int.add_comm _ _)
  simp only [hk, Int.toNat_natCast]
  exact h.ordered.drop hget

theorem deleteConflict (h : Represented rf) {k : ℤ} {entry : LogEntry Cmd}
    (hentry : elemAt rf.log k = some entry) :
    Represented (rf.deleteConflict k) := by
  obtain ⟨i, rfl, _⟩ := elemAt_eq_some_iff.mp hentry
  refine persist_of_ordered ?_ (Int.add_comm _ _)
  dsimp only
  split
  · exact h.ordered.take Nat.one_pos
  · exact h.ordered.take (by omega)

theorem appendLog (h : Represented rf) {k : ℤ} {entry : LogEntry Cmd}
    (hentry : elemAt rf.log k = some entry)
    {args : AppendEntriesArgs n Cmd} (hargs : OrderedRequest args)
    (hprev : args.prevLogTerm = entry.logTerm)
    (hterm : rf.currentTerm = args.term) :
    Represented (rf.appendLog k args.entries) := by
  obtain ⟨i, rfl, hget⟩ := elemAt_eq_some_iff.mp hentry
  unfold Raft.appendLog
  split
  · refine persist_of_ordered ?_ (Int.add_comm _ _)
    simp only [Int.toNat_natCast]
    refine h.ordered.take_append hget hargs.sorted ?_ ?_
    · intro d hd
      rw [← hprev]
      exact hargs.prev d hd
    · intro d hd
      rw [hterm]
      exact hargs.bound d hd
  · exact h

theorem advanceCommit (h : Represented rf) (leaderCommit : ℤ) :
    Represented (rf.advanceCommit leaderCommit) := by
  unfold Raft.advanceCommit
  split
  · exact h.of_eq rfl rfl rfl rfl rfl le_rfl
  · exact h

theorem installed [Zero Cmd] (h : Represented rf) {args : SnapshotArgs n}
    {log : List (LogEntry Cmd)} (hargs : args.lastIncludedTerm ≤ args.term)
    (hterm : rf.currentTerm = args.term)
    (hlog : rf.remainingLog args = some log) :
    Represented (rf.installed args log) := by
  refine persist_of_ordered ?_ (Int.add_comm _ _)
  rcases Raft.remainingLog_cases hlog with
    ⟨entry, _, _, hentry, hlit, rfl⟩ | ⟨rfl, _⟩
  · obtain ⟨k, hk, hget⟩ := elemAt_eq_some_iff.mp hentry
    simp only [hk, Int.toNat_natCast, ← hlit]
    exact h.ordered.drop hget
  · exact OrderedLog.singleton (hterm ▸ hargs)

theorem change [Zero Cmd] {In : Inputs n Cmd} {rf' : Raft n Cmd}
    (happend : ∀ args, In.append args → OrderedRequest args)
    (hsnap : ∀ args, In.snap args → args.lastIncludedTerm ≤ args.term)
    (hchange : Change In rf rf') (h : Represented rf) : Represented rf' := by
  cases hchange with
  | elect =>
      rw [Raft.electLauncher_rf]
      exact persist (h.of_eq rfl rfl rfl rfl rfl (Nat.le_succ _))
  | follow hlt => exact h.of_eq rfl rfl rfl rfl rfl (le_of_lt hlt)
  | grant => exact persist (h.of_eq rfl rfl rfl rfl rfl le_rfl)
  | demote | lead | reindex | matched | commit | apply =>
      exact h.of_eq rfl rfl rfl rfl rfl le_rfl
  | raise hlt =>
      exact persist (h.of_eq rfl rfl rfl rfl rfl (le_of_lt hlt))
  | start => exact h.extended _
  | snapshot _ hentry => exact h.compacted hentry
  | conflict _ _ _ hentry =>
      rw [h.hasSentinel.stamped_eq]
      exact h.deleteConflict hentry
  | accept hin hterm _ hentry heq =>
      rw [h.hasSentinel.stamped_eq]
      rw [h.hasSentinel.checkTerm_eq hentry] at heq
      exact (h.appendLog hentry (happend _ hin) heq hterm).advanceCommit _
  | install hin hterm hlog => exact h.installed (hsnap _ hin) hterm hlog

/-- The server that is rebuilt from a saved state. -/
theorem make [Zero Cmd] (h : Represented rf) (me : Fin n) :
    Represented (Raft.make me rf.persister) := by
  rcases Raft.make_cases me rf.persister with
    ⟨_, hmake⟩ | ⟨saved, hsaved, hmake⟩ <;> rw [hmake]
  · exact ⟨OrderedLog.singleton le_rfl, rfl, h.saved⟩
  · exact ⟨h.saved saved hsaved, Int.add_comm _ _, h.saved⟩

theorem followCandidate (h : Represented rf) (term : ℕ) :
    Represented (rf.followCandidate term) := by
  unfold Raft.followCandidate
  split
  · next hlt => exact h.of_eq rfl rfl rfl rfl rfl (le_of_lt hlt)
  · exact h

theorem followLeader (h : Represented rf) (term : ℕ) :
    Represented (rf.followLeader term) := by
  unfold Raft.followLeader
  split
  · next hlt =>
      exact persist (h.of_eq rfl rfl rfl rfl rfl (le_of_lt hlt))
  · exact h

theorem followInstaller (h : Represented rf) (term : ℕ) :
    Represented (rf.followInstaller term) := by
  unfold Raft.followInstaller
  split
  · next hlt => exact h.of_eq rfl rfl rfl rfl rfl (le_of_lt hlt)
  · exact h

theorem electLauncher_done (h : Represented rf) :
    ∃ rf' args, rf.electLauncher = .done rf' args := by
  obtain ⟨e, he⟩ := h.elemAt_last
  unfold Raft.electLauncher
  have he' : elemAt (Raft.persist
      { rf with
        currentTerm := rf.currentTerm + 1
        votedFor := some rf.me }).log
      ((Raft.persist
        { rf with
          currentTerm := rf.currentTerm + 1
          votedFor := some rf.me }).v2pIndex
        (Raft.persist
          { rf with
            currentTerm := rf.currentTerm + 1
            votedFor := some rf.me }).logLength - 1) = some e := he
  simp only [he']
  exact ⟨_, _, rfl⟩

theorem requestVoteHandler_done (h : Represented rf)
    (args : RequestVoteArgs n) :
    ∃ rf' reply, rf.requestVoteHandler args = .done rf' reply := by
  obtain ⟨e, he⟩ := (h.followCandidate args.term).elemAt_last
  unfold Raft.requestVoteHandler
  simp only [he]
  exact ⟨_, _, rfl⟩

/-- The requests that a represented server sends are ordered. -/
theorem orderedRequest (h : Represented rf) {i j : Fin n}
    {args : AppendEntriesArgs n Cmd}
    (hprepare : rf.prepare i = some (.appendEntries j args)) :
    OrderedRequest args := by
  obtain ⟨_, next, prev, _, hpos, hprev, rfl⟩ :=
    Raft.prepare_append hprepare
  obtain ⟨k, hk, hget⟩ := elemAt_eq_some_iff.mp hprev
  have hnext : (rf.v2pIndex next).toNat = k + 1 := by omega
  have hsub : ∀ e ∈ (if rf.logLength > next then
      rf.log.drop (rf.v2pIndex next).toNat else []),
      e ∈ rf.log.drop (k + 1) := by
    intro e he
    split at he
    · rwa [hnext] at he
    · simp at he
  refine ⟨?_, fun e he ↦ ?_, fun e he ↦ ?_⟩
  · dsimp only
    split
    · exact h.ordered.sorted.sublist (List.drop_sublist _ _)
    · exact List.Pairwise.nil
  · obtain ⟨m, hm, rfl⟩ := List.mem_iff_getElem.mp (hsub e he)
    obtain ⟨hk', rfl⟩ := List.getElem?_eq_some_iff.mp hget
    rw [List.getElem_drop]
    rw [List.length_drop] at hm
    exact List.pairwise_iff_getElem.mp h.ordered.sorted k _ hk' (by omega)
      (by omega)
  · exact h.ordered.bound e (List.mem_of_mem_drop (hsub e he))

end Represented

/-! ## The cluster -/

namespace Cluster

variable [Zero Cmd]

/-- Servers, requests in flight and waiting snapshots are in order. -/
structure Ordered (σ : Cluster n Cmd) : Prop where
  servers : ∀ s, Represented (σ.server s).rf
  appends : ∀ call ∈ σ.appendCalls, OrderedRequest call.args
  snaps : ∀ call ∈ σ.snapCalls,
    call.args.lastIncludedTerm ≤ call.args.term
  jobs : ∀ s, ∀ job ∈ (σ.server s).jobs, job.lastIncludedTerm ≤ job.term

theorem ordered_init : Ordered (init : Cluster n Cmd) where
  servers := fun s ↦
    ⟨OrderedLog.singleton le_rfl, by simp [init, boot, Raft.make,
      Raft.readPersist], by simp [init, boot, Raft.make, Raft.readPersist]⟩
  appends := by simp [init]
  snaps := by simp [init]
  jobs := by simp [init, boot]

variable {σ σ' : Cluster n Cmd} {a : Action Cmd n}

theorem Ordered.represented_change (hinv : Ordered σ) {t : Fin n}
    {rf rf' : Raft n Cmd} (hchange : Change (σ.inputs a t) rf rf')
    (hrep : Represented rf) : Represented rf' := by
  refine hrep.change ?_ ?_ hchange
  · rintro args ⟨k, call, _, hcall, _, rfl⟩
    exact hinv.appends call (List.mem_of_getElem? hcall)
  · rintro args ⟨k, call, _, hcall, _, rfl⟩
    exact hinv.snaps call (List.mem_of_getElem? hcall)

theorem Ordered.evolves (hinv : Ordered σ) {t : Fin n}
    {srv : Server n Cmd} (h : Evolves σ a t srv) : Represented srv.rf := by
  cases h with
  | changes hchanges =>
      exact hchanges.preserves hinv.represented_change (hinv.servers t)
  | restart _ hboot =>
      rw [hboot]
      exact (hinv.servers t).make t

theorem Ordered.step (hinv : Ordered σ) (hstep : σ.step a = some σ') :
    Ordered σ' := by
  have htrans := step_transition hstep
  have hservers : ∀ s, Represented (σ'.server s).rf :=
    fun s ↦ hinv.evolves (htrans.evolves s)
  have hjobs : ∀ s, ∀ job ∈ (σ'.server s).jobs,
      job.lastIncludedTerm ≤ job.term := by
    intro s job hjob
    rcases htrans.job_origin hjob with hold | hnew
    · exact hinv.jobs s job hold
    · rw [Raft.prepare_snapshot hnew.prepared]
      exact (hservers s).ordered.lit_le
  refine ⟨hservers, fun call hcall ↦ ?_, fun call hcall ↦ ?_, hjobs⟩
  · rcases htrans.appendCall_origin hcall with ⟨old, hold, _, rfl⟩ | hnew
    · exact hinv.appends old hold
    · exact (hservers call.caller).orderedRequest hnew.prepared
  · rcases htrans.snapCall_origin hcall with ⟨old, hold, _, rfl⟩ | hnew
    · exact hinv.snaps old hold
    · cases hnew with
      | atOnce _ _ _ _ _ hargs =>
          rw [hargs]
          exact (hservers call.caller).ordered.lit_le
      | ofJob _ hget _ _ hargs =>
          rw [hargs]
          exact hinv.jobs call.caller _ (List.mem_of_getElem? hget)

theorem ordered_of_run {ok : Cluster n Cmd → Action Cmd n → Prop}
    {visited : List (Cluster n Cmd)}
    (hrun : Run step ok init visited σ) : Ordered σ :=
  hrun.invariant ordered_init fun hinv _ hstep ↦ hinv.step hstep

/-- In every reachable state the five facts hold of every server and of the
server that a restart would rebuild from its persister, and neither
`ElectLauncher` nor `RequestVoteHandler` runs out of the log. -/
theorem log_representation {visited : List (Cluster n Cmd)}
    (hrun : Run step (fun _ _ ↦ True) init visited σ) (s : Fin n) :
    LogRepresentation (σ.server s).rf ∧
    LogRepresentation (Raft.make s (σ.server s).rf.persister) ∧
    ∀ rf ∈ [(σ.server s).rf, Raft.make s (σ.server s).rf.persister],
      (∃ e, elemAt rf.log (rf.v2pIndex rf.logLength - 1) = some e) ∧
      (∃ rf' args, rf.electLauncher = .done rf' args) ∧
      ∀ args, ∃ rf' reply, rf.requestVoteHandler args = .done rf' reply := by
  have hserver := (ordered_of_run hrun).servers s
  have hmake := hserver.make s
  refine ⟨hserver.logRepresentation, hmake.logRepresentation, ?_⟩
  intro rf hrf
  have hrep : Represented rf := by
    rcases List.mem_pair.mp hrf with rfl | rfl
    · exact hserver
    · exact hmake
  exact ⟨hrep.elemAt_last, hrep.electLauncher_done,
    hrep.requestVoteHandler_done⟩

/-- Server 0 wins an election among three, commits one of two commands and
compacts its log. -/
def compactingRun : List (Action ℕ 3) :=
  winning 0 0 ++ [.start 0 5, .heartbeat 0, .deliverAppend 2, .replyAppend 2,
    .start 0 6, .apply 0, .receive 0 0, .snapshot 0 1 [1]]

/-- The facts hold of a server that has compacted its log. -/
theorem log_representation_compacted :
    ∃ (visited : List (Cluster 3 ℕ)) (σ : Cluster 3 ℕ),
      Run step (fun _ _ ↦ True) init visited σ ∧
      ((σ.server 0).rf.lastIncludedIndex = 1 ∧
        (σ.server 0).rf.logLength = 3) ∧
      LogRepresentation (σ.server 0).rf := by
  obtain ⟨visited, σ, hrun, hcompacted⟩ := Run.exists_of_exec
    step (fun _ _ ↦ True) init compactingRun
    (fun σ : Cluster 3 ℕ ↦ (σ.server 0).rf.lastIncludedIndex = 1 ∧
      (σ.server 0).rf.logLength = 3) (by decide +kernel)
  exact ⟨visited, σ, hrun, hcompacted, (log_representation hrun 0).1⟩

end Cluster

end DistLabs
