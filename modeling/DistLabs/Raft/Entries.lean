import DistLabs.Raft.MatchOrder

/-!
# Where the entries of a log come from

An entry above the sentinel of a server was there before the last step, or the
server has started it as a leader, or it has accepted a request that reaches at
least as far.
-/

namespace DistLabs

variable {n : ℕ} {Cmd : Type}

namespace Raft

/-- The log has an entry of term `T` at virtual index `p`, above the
sentinel. -/
def Holds (rf : Raft n Cmd) (p : ℤ) (T : ℕ) : Prop :=
  rf.lastIncludedIndex < p ∧
    ∃ e, elemAt rf.log (rf.v2pIndex p) = some e ∧ e.logTerm = T

/-- Compaction keeps the entries above the new sentinel. -/
theorem compacted_elemAt {rf : Raft n Cmd} {index : ℤ}
    (hindex : rf.lastIncludedIndex ≤ index) (data : Bytes)
    (entry : LogEntry Cmd) {i : ℤ} (hi : index ≤ i) :
    elemAt (rf.compacted index data entry).log
        ((rf.compacted index data entry).v2pIndex i) =
      elemAt rf.log (rf.v2pIndex i) := by
  change elemAt (rf.log.drop (index - rf.lastIncludedIndex).toNat)
    (i - index) = elemAt rf.log (i - rf.lastIncludedIndex)
  rw [elemAt_of_nonneg (by omega), elemAt_of_nonneg (by omega),
    List.getElem?_drop]
  congr 1
  omega

variable {rf rf' : Raft n Cmd} {p : ℤ} {T : ℕ}

theorem Holds.of_eq (h : rf'.Holds p T) (hlog : rf'.log = rf.log)
    (hlii : rf'.lastIncludedIndex = rf.lastIncludedIndex) : rf.Holds p T := by
  obtain ⟨hlow, e, he, hterm⟩ := h
  unfold v2pIndex at he
  rw [hlog, hlii] at he
  rw [hlii] at hlow
  exact ⟨hlow, e, he, hterm⟩

theorem Holds.le_logLength (h : rf.Holds p T) (hrep : Represented rf) :
    p ≤ rf.logLength - 1 := by
  obtain ⟨_, e, he, _⟩ := h
  have hrange := elemAt_isSome_iff.mp (Option.isSome_iff_exists.mpr ⟨e, he⟩)
  have hlen := hrep.length
  unfold v2pIndex at hrange
  omega

theorem Holds.of_compacted {index : ℤ} {data : Bytes} {entry : LogEntry Cmd}
    (hentry : elemAt rf.log (rf.v2pIndex index) = some entry)
    (h : (rf.compacted index data entry).Holds p T) : rf.Holds p T := by
  obtain ⟨hlow, e, he, hterm⟩ := h
  change index < p at hlow
  obtain ⟨k, hk, _⟩ := elemAt_eq_some_iff.mp hentry
  have hindex : rf.lastIncludedIndex ≤ index := by
    unfold v2pIndex at hk
    omega
  rw [compacted_elemAt hindex data entry hlow.le] at he
  exact ⟨by omega, e, he, hterm⟩

/-- An installed snapshot leaves entries of the log that there was. -/
theorem Holds.of_installed [Zero Cmd] {args : SnapshotArgs n}
    {log : List (LogEntry Cmd)} (hlog : rf.remainingLog args = some log)
    (h : (rf.installed args log).Holds p T) : rf.Holds p T := by
  obtain ⟨hlow, e, he, hterm⟩ := h
  change args.lastIncludedIndex < p at hlow
  change elemAt log (p - args.lastIncludedIndex) = some e at he
  rcases remainingLog_cases hlog with ⟨entry, hle, _, _, _, rfl⟩ | ⟨rfl, _⟩
  · refine ⟨by omega, e, ?_, hterm⟩
    rw [elemAt_of_nonneg (by omega), List.getElem?_drop] at he
    rw [elemAt_of_nonneg (by unfold v2pIndex; omega), ← he]
    congr 1
    unfold v2pIndex
    omega
  · have hrange := elemAt_isSome_iff.mp (Option.isSome_iff_exists.mpr ⟨e, he⟩)
    rw [List.length_singleton] at hrange
    omega

/-- A new command is the only entry that `Start` adds. -/
theorem Holds.of_extended {command : Cmd}
    (h : (rf.extended command).Holds p T) :
    rf.Holds p T ∨ rf.currentTerm = T := by
  obtain ⟨hlow, e, he, hterm⟩ := h
  change rf.lastIncludedIndex < p at hlow
  change elemAt (rf.log ++ [⟨rf.currentTerm, command⟩])
    (p - rf.lastIncludedIndex) = some e at he
  rw [elemAt_of_nonneg (by omega), List.getElem?_append] at he
  split at he
  · refine Or.inl ⟨hlow, e, ?_, hterm⟩
    rw [elemAt_of_nonneg (by unfold v2pIndex; omega)]
    exact he
  · obtain ⟨_, rfl⟩ := List.getElem?_eq_some_iff.mp he
    exact Or.inr (by simpa using hterm)

/-- An accepted request leaves the entries up to the one it was checked at and
its own. -/
theorem Holds.of_appendLog {k : ℕ} {entries : List (LogEntry Cmd)}
    (hk : k < rf.log.length) (h : (rf.appendLog k entries).Holds p T) :
    rf.Holds p T ∨ p ≤ rf.p2vIndex k + entries.length ∧
      ∃ e ∈ entries, e.logTerm = T := by
  unfold appendLog at h
  split at h
  · obtain ⟨hlow, e, he, hterm⟩ := h
    change rf.lastIncludedIndex < p at hlow
    change elemAt (rf.log.take ((k : ℤ).toNat + 1) ++ entries)
      (p - rf.lastIncludedIndex) = some e at he
    have hlen : (rf.log.take ((k : ℤ).toNat + 1)).length = k + 1 := by
      rw [List.length_take]
      omega
    rw [elemAt_of_nonneg (by omega), List.getElem?_append, hlen] at he
    split at he
    · next hlt =>
        rw [List.getElem?_take_of_lt (by omega)] at he
        refine Or.inl ⟨hlow, e, ?_, hterm⟩
        rw [elemAt_of_nonneg (by unfold v2pIndex; omega)]
        exact he
    · have hlt := (List.getElem?_eq_some_iff.mp he).1
      refine Or.inr ⟨?_, e, List.mem_of_getElem? he, hterm⟩
      unfold p2vIndex
      omega
  · exact Or.inl h

theorem Holds.of_deleteConflict {k : ℤ} (h : (rf.deleteConflict k).Holds p T) :
    rf.Holds p T := by
  obtain ⟨hlow, e, he, hterm⟩ := h
  change rf.lastIncludedIndex < p at hlow
  refine ⟨hlow, e, ?_, hterm⟩
  change elemAt (if k = 0 then rf.log.take 1 else rf.log.take k.toNat)
    (p - rf.lastIncludedIndex) = some e at he
  unfold v2pIndex
  rw [elemAt_of_nonneg (by omega)] at he ⊢
  split at he
  all_goals
    rw [List.getElem?_take] at he
    split at he
    · exact he
    · cases he

/-- Apart from requests, new commands and snapshots, no change touches the
entries. -/
theorem holds_change [Zero Cmd] {In : Inputs n Cmd}
    (happend : ∀ args, ¬ In.append args)
    (hstarted : ∀ command index, ¬ In.started command index)
    (hchange : Change In rf rf') (h : rf'.Holds p T) : rf.Holds p T := by
  cases hchange with
  | elect =>
      rw [electLauncher_rf] at h
      exact h
  | start hin => exact absurd hin (hstarted _ _)
  | conflict hin | accept hin => exact absurd hin (happend _)
  | snapshot _ hentry => exact h.of_compacted hentry
  | install _ _ hlog => exact h.of_installed hlog
  | _ => exact h

/-- An entry after `HeartbeatHandler` was there before, or the request that the
server has accepted reaches it. -/
theorem heartbeatHandler_holds (hrep : Represented rf)
    {args : AppendEntriesArgs n Cmd}
    (h : (rf.heartbeatHandler args).rf.Holds p T) :
    rf.Holds p T ∨ ∃ reply, rf.heartbeatHandler args =
        .done (rf.heartbeatHandler args).rf reply ∧ reply.success = true ∧
      p ≤ args.last ∧ ∃ e ∈ args.entries, e.logTerm = T := by
  have hfollow : (rf.followLeader args.term).Holds p T → rf.Holds p T :=
    fun hold ↦ hold.of_eq (followLeader_log _ _)
      (Keeps.followLeader rf args.term).lastIncludedIndex
  rcases rf.heartbeatHandler_cases args with
    ⟨reply, _, hcase⟩ | hcase | ⟨rf₁, entry, k, rfl, _, hk, _, hentry, hcase⟩
  · rw [hcase] at h
    exact Or.inl (hfollow h)
  · rw [hcase] at h
    exact Or.inl (hfollow h)
  · rw [(hrep.followLeader args.term).hasSentinel.stamped_eq] at hcase
    rcases hcase with ⟨_, reply, _, hcase⟩ | ⟨_, reply, hsuccess, hcase⟩
    · rw [hcase] at h
      exact Or.inl (hfollow h.of_deleteConflict)
    · obtain ⟨q, rfl, hget⟩ := elemAt_eq_some_iff.mp hentry
      have hlt := (List.getElem?_eq_some_iff.mp hget).1
      rw [hcase] at h ⊢
      have hlog : ((rf.followLeader args.term).appendLog q
          args.entries).Holds p T := by
        change (advanceCommit _ _).Holds p T at h
        unfold advanceCommit at h
        split at h <;> exact h
      rcases hlog.of_appendLog hlt with hold | ⟨hle, hmem⟩
      · exact Or.inl (hfollow hold)
      · refine Or.inr ⟨reply, rfl, hsuccess, ?_, hmem⟩
        unfold p2vIndex at hle
        unfold v2pIndex at hk
        unfold AppendEntriesArgs.last
        omega

end Raft

namespace Cluster

variable [Zero Cmd] {σ σ' : Cluster n Cmd} {a : Action Cmd n}

/-- Server `f` accepts AppendEntries call number `k` in the step. -/
structure Accepts (σ : Cluster n Cmd) (a : Action Cmd n) (σ' : Cluster n Cmd)
    (f : Fin n) (k : ℕ) (call : AppendCall n Cmd) : Prop where
  action : a = .deliverAppend k
  get : σ.appendCalls[k]? = some call
  peer : call.peer = f
  accepted : ∃ reply, reply.success = true ∧
    σ'.appendCalls[k]? = some { call with phase := .replied reply }
  term : (σ'.server f).rf.currentTerm = call.args.term
  recorded : Event.acked f call.args.term call.args.entries.length ∈ σ'.events

omit [Zero Cmd] in
theorem Accepts.input {f : Fin n} {k : ℕ} {call : AppendCall n Cmd}
    (h : Accepts σ a σ' f k call) : (σ.inputs a f).append call.args :=
  ⟨k, call, h.action, h.get, h.peer, rfl⟩

theorem Transition.accepts (h : Transition σ a σ') {k : ℕ}
    (haction : a = .deliverAppend k) {call : AppendCall n Cmd}
    (hcall : σ.appendCalls[k]? = some call) {rf : Raft n Cmd}
    {reply : AppendEntriesReply} (hrep : Represented (σ.server call.peer).rf)
    (hrun : (σ.server call.peer).rf.heartbeatHandler call.args =
      .done rf reply) (hsuccess : reply.success = true) :
    Accepts σ a σ' call.peer k call := by
  have hterm : (σ'.server call.peer).rf.currentTerm = call.args.term := by
    subst haction
    rw [h.append_rf hcall, hrun]
    exact (hrep.hasSentinel.heartbeatHandler_success_terms hrun hsuccess).2
  refine ⟨haction, hcall, rfl, ⟨reply, hsuccess, ?_⟩, hterm, ?_⟩
  all_goals
    cases h with
    | appendPanic hget _ _ hpanic =>
        cases haction
        obtain rfl := Option.some.inj (hcall.symm.trans hget)
        rw [hrun] at hpanic
        cases hpanic
    | append hget _ _ hdone =>
        cases haction
        obtain rfl := Option.some.inj (hcall.symm.trans hget)
        rw [hrun] at hdone
        cases hdone
        first
        | exact List.getElem?_set_self (List.getElem?_eq_some_iff.mp hcall).1
        | exact List.mem_append_right _ (by simp [hsuccess])
    | _ => cases haction

/-- An entry of server `f` was there before the step, or `f` has started it, or
`f` has accepted a request that reaches it. -/
theorem Transition.holds_origin (h : Transition σ a σ') {f : Fin n}
    (hrep : Represented (σ.server f).rf)
    (hsaved : (σ.server f).rf.SavesBody) {p : ℤ} {T : ℕ}
    (hholds : (σ'.server f).rf.Holds p T) :
    (σ.server f).rf.Holds p T ∨
    ((σ.server f).rf.state = .leader ∧ (σ.server f).rf.currentTerm = T) ∨
    ∃ k call, Accepts σ a σ' f k call ∧ p ≤ call.args.last ∧
      ∃ e ∈ call.args.entries, e.logTerm = T := by
  cases h.turn f with
  | restart _ hboot =>
      rw [hboot] at hholds
      obtain ⟨hlog, hlii, _⟩ := hsaved.make f
      exact Or.inl (hholds.of_eq hlog hlii)
  | ran hran =>
      by_cases happend : ∃ args, (σ.inputs a f).append args
      · obtain ⟨_, k, call, rfl, hcall, rfl, rfl⟩ := happend
        rw [h.append_rf hcall] at hholds
        rcases Raft.heartbeatHandler_holds hrep hholds with
          hold | ⟨reply, hdone, hsuccess, hreach⟩
        · exact Or.inl hold
        · exact Or.inr (Or.inr ⟨k, call,
            h.accepts rfl hcall hrep hdone hsuccess, hreach⟩)
      · by_cases hstarted : ∃ command index,
            (σ.inputs a f).started command index
        · obtain ⟨command, _, rfl, hstate, rfl⟩ := hstarted
          rw [h.start_rf] at hholds
          rcases (σ.server f).rf.start_cases command with
            hsame | ⟨_, hextended⟩
          · rw [hsame] at hholds
            exact Or.inl hholds
          · rw [hextended] at hholds
            rcases hholds.of_extended with hold | hterm
            · exact Or.inl hold
            · exact Or.inr (Or.inl ⟨hstate, hterm⟩)
        · push Not at happend hstarted
          exact Or.inl (hran.changes.preserves
            (P := fun rf ↦ rf.Holds p T → (σ.server f).rf.Holds p T)
            (fun hchange hback hnew ↦
              hback (Raft.holds_change happend hstarted hchange hnew))
            id hholds)

end Cluster

end DistLabs
