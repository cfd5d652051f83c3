import DistLabs.Raft.Commitment
import DistLabs.Raft.Standing

/-!
# The bookkeeping of a leader

`NextIndex` and `MatchIndex` are written by three sections only: the promotion,
which fills them for all peers, and the replies to heartbeats and to snapshots.
A server that has not been promoted since its last start has none.
-/

namespace DistLabs

variable {n : ℕ} {Cmd : Type}

/-- What a leader keeps about its peers. -/
structure PeerIndices where
  nextIndex : List ℤ
  matchIndex : List ℤ

namespace Raft

def indices (rf : Raft n Cmd) : PeerIndices where
  nextIndex := rf.nextIndex
  matchIndex := rf.matchIndex

/-! ## Sections that leave the indices alone -/

theorem electLauncher_indices (rf : Raft n Cmd) :
    rf.electLauncher.rf.indices = rf.indices := by
  rw [electLauncher_rf]
  rfl

theorem followCandidate_indices (rf : Raft n Cmd) (term : ℕ) :
    (rf.followCandidate term).indices = rf.indices := by
  unfold followCandidate
  split <;> rfl

theorem followLeader_indices (rf : Raft n Cmd) (term : ℕ) :
    (rf.followLeader term).indices = rf.indices := by
  unfold followLeader
  split <;> rfl

theorem followInstaller_indices (rf : Raft n Cmd) (term : ℕ) :
    (rf.followInstaller term).indices = rf.indices := by
  unfold followInstaller
  split <;> rfl

theorem requestVoteHandler_indices (rf : Raft n Cmd)
    (args : RequestVoteArgs n) :
    (rf.requestVoteHandler args).rf.indices = rf.indices := by
  have hfollow := rf.followCandidate_indices args.term
  rcases rf.requestVoteHandler_cases args with h | h | ⟨last, _, h⟩ <;> rw [h]
  · exact hfollow
  · exact hfollow
  · exact hfollow

theorem checkVoteReply_indices (rf : Raft n Cmd) (args : RequestVoteArgs n) :
    (rf.checkVoteReply args).1.indices = rf.indices := by
  unfold checkVoteReply
  split <;> rfl

theorem finishVoteReply_indices (rf : Raft n Cmd) (reply : RequestVoteReply) :
    (rf.finishVoteReply reply).indices = rf.indices := by
  unfold finishVoteReply
  split <;> rfl

theorem heartbeatHandler_indices (rf : Raft n Cmd)
    (args : AppendEntriesArgs n Cmd) :
    (rf.heartbeatHandler args).rf.indices = rf.indices := by
  have hfollow := rf.followLeader_indices args.term
  rcases rf.heartbeatHandler_cases args with
    ⟨reply, _, h⟩ | h | ⟨rf₁, entry, k, rfl, _, _, _, _, hcase⟩
  · rw [h]
    exact hfollow
  · rw [h]
    exact hfollow
  · rw [← hfollow]
    rcases hcase with ⟨_, reply, _, h⟩ | ⟨_, reply, _, h⟩ <;> rw [h]
    · unfold stamped
      split <;> rfl
    · unfold advanceCommit appendLog stamped
      split <;> split <;> split <;> rfl

theorem installSnapshot_indices [Zero Cmd] (rf : Raft n Cmd)
    (args : SnapshotArgs n) :
    (rf.installSnapshot args).rf.indices = rf.indices := by
  have hfollow := rf.followInstaller_indices args.term
  rcases rf.installSnapshot_cases args with
    ⟨_, h⟩ | ⟨_, ⟨_, h⟩ | ⟨log, _, h⟩⟩ <;> rw [h]
  · rfl
  · exact hfollow
  · exact hfollow

theorem start_indices (rf : Raft n Cmd) (command : Cmd) :
    (rf.start command).1.indices = rf.indices := by
  rcases rf.start_cases command with h | ⟨_, h⟩ <;> rw [h]
  rfl

theorem snapshot_indices (rf : Raft n Cmd) (index : ℤ) (data : Bytes) :
    (rf.snapshot index data).rf.indices = rf.indices := by
  rcases rf.snapshot_cases index data with h | ⟨entry, _, h⟩ <;> rw [h] <;> rfl

theorem applyGoroutine_indices (rf : Raft n Cmd) :
    rf.applyGoroutine.rf.indices = rf.indices := by
  rw [applyGoroutine_rf]
  rfl

/-! ## Sections that write the indices -/

theorem commitScan_indices (rf : Raft n Cmd) (k : ℕ) :
    (rf.commitScan k).rf.indices = rf.indices := by
  rcases rf.commitScan_cases k with h | ⟨N, count, _, _, _, _, h⟩ <;> rw [h]
  rfl

/-- The reply to an accepted request sets both indices of the peer, and the one
to a refused request sets its next index. -/
theorem sendHeartbeat_indices (rf : Raft n Cmd) (peer : Fin n)
    (args : AppendEntriesArgs n Cmd) (reply : AppendEntriesReply) :
    (rf.sendHeartbeat peer args reply).rf.indices = rf.indices ∨
    rf.currentTerm = args.term ∧ reply.term ≤ args.term ∧
      (reply.success = true ∧
        (rf.sendHeartbeat peer args reply).rf.indices =
          (rf.matched peer args).indices ∨
      reply.success = false ∧
        (rf.sendHeartbeat peer args reply).rf.indices =
          { rf.indices with
            nextIndex := rf.nextIndex.set peer (rf.backupIndex reply) }) := by
  unfold sendHeartbeat
  split
  · exact Or.inl rfl
  · next hterm =>
      split
      · left
        dsimp only
        split <;> rfl
      · next hold =>
          have hright := And.intro (not_not.mp hterm) (not_lt.mp hold)
          split
          · next hsuccess =>
              have hrecord : (rf.recordSuccess peer args).rf.indices =
                  rf.indices ∨ (rf.recordSuccess peer args).rf.indices =
                    (rf.matched peer args).indices := by
                unfold recordSuccess
                split
                · right
                  dsimp only
                  split
                  · exact commitScan_indices _ _
                  · rfl
                · exact Or.inl rfl
              rcases hrecord with hsame | hset
              · left
                split <;> next heq => rw [heq] at hsame; exact hsame
              · refine Or.inr ⟨hright.1, hright.2, Or.inl ⟨hsuccess, ?_⟩⟩
                split <;> next heq => rw [heq] at hset; exact hset
          · next hfail =>
              have hfalse : reply.success = false := by simpa using hfail
              unfold backUp
              split
              · right
                refine ⟨hright.1, hright.2, Or.inr ⟨hfalse, ?_⟩⟩
                dsimp only
                split <;> rfl
              · exact Or.inl rfl

/-- The reply to a snapshot sets the next index of the peer. -/
theorem sendSnapshot_indices (rf : Raft n Cmd) (peer : Fin n)
    (args : SnapshotArgs n) (reply : SnapshotRelpay) :
    (rf.sendSnapshot peer args reply).rf.indices = rf.indices ∨
    (rf.currentTerm = args.term ∧
      reply.term ≤ (rf.sendSnapshot peer args reply).rf.currentTerm) ∧
      (rf.sendSnapshot peer args reply).rf.indices =
        { rf.indices with
          nextIndex := rf.nextIndex.set peer (rf.lastIncludedIndex + 1) } := by
  unfold sendSnapshot
  split
  · exact Or.inl rfl
  · next hterm =>
      have hsame := not_not.mp hterm
      dsimp only
      split
      · split
        · exact Or.inr ⟨⟨hsame, le_rfl⟩, rfl⟩
        · exact Or.inl rfl
      · next hold =>
          split
          · exact Or.inr ⟨⟨hsame, not_lt.mp hold⟩, rfl⟩
          · exact Or.inl rfl

end Raft

namespace Cluster

variable [Zero Cmd] {σ σ' : Cluster n Cmd} {a : Action Cmd n}

/-- What a step that does not promote server `t` makes of it: the indices stay,
`SendHeartbeat` or `SendSnapshot` resumes, or the server is restarted. -/
inductive IndexStep (σ : Cluster n Cmd) (a : Action Cmd n) (t : Fin n)
    (srv : Server n Cmd) : Prop
  | keep (hsame : srv.rf.indices = (σ.server t).rf.indices)
  | append {k : ℕ} {call : AppendCall n Cmd} {reply : AppendEntriesReply}
      (haction : a = .replyAppend k) (hcall : σ.appendCalls[k]? = some call)
      (hphase : call.phase = .replied reply)
      (hresumes : σ.Resumes call.caller call.incarnation)
      (hcaller : call.caller = t)
      (hrf : srv.rf =
        ((σ.server t).rf.sendHeartbeat call.peer call.args reply).rf)
  | snap {k : ℕ} {call : SnapCall n} {reply : SnapshotRelpay}
      (haction : a = .replySnap k) (hcall : σ.snapCalls[k]? = some call)
      (hphase : call.phase = .replied reply) (hcaller : call.caller = t)
      (hrf : srv.rf =
        ((σ.server t).rf.sendSnapshot call.peer call.args reply).rf)
  | restart (hboot : srv = boot t ((σ.server t).incarnation + 1)
      (σ.server t).rf.persister)

theorem Transition.indexStep (h : Transition σ a σ') {t : Fin n}
    (hwon : ∀ args T, ¬ (σ.inputs a t).won args T) :
    IndexStep σ a t (σ'.server t) := by
  cases h.turn t with
  | restart _ hboot => exact .restart hboot
  | ran hran =>
      cases hran with
      | idle hrf => exact .keep (congrArg Raft.indices hrf)
      | elect _ _ hrf =>
          exact .keep (by rw [hrf, Raft.electLauncher_indices])
      | vote _ _ _ hrf =>
          exact .keep (by rw [hrf, Raft.requestVoteHandler_indices])
      | checkVote _ _ _ hrf =>
          exact .keep (by rw [hrf, Raft.checkVoteReply_indices])
      | promote haction hcall hphase hresumes hcaller =>
          exact absurd ⟨_, _, _, haction, hcall, hphase, hresumes, hcaller,
            rfl, rfl⟩ (hwon _ _)
      | finishVote _ _ _ _ hrf =>
          exact .keep (by rw [hrf, Raft.finishVoteReply_indices])
      | append _ _ _ hrf =>
          exact .keep (by rw [hrf, Raft.heartbeatHandler_indices])
      | replyAppend haction hcall hphase hresumes hcaller hrf =>
          exact .append haction hcall hphase hresumes hcaller hrf
      | snap _ _ _ hrf =>
          exact .keep (by rw [hrf, Raft.installSnapshot_indices])
      | replySnap haction hcall hphase hcaller hrf =>
          exact .snap haction hcall hphase hcaller hrf
      | start _ hrf => exact .keep (by rw [hrf, Raft.start_indices])
      | snapshot _ hrf => exact .keep (by rw [hrf, Raft.snapshot_indices])
      | apply _ _ hrf =>
          exact .keep (by rw [hrf, Raft.applyGoroutine_indices])

end Cluster

/-! ## Filled indices -/

/-- The indices exist for all of `n` peers. -/
structure PeerIndices.Filled (n : ℕ) (ix : PeerIndices) : Prop where
  next : n ≤ ix.nextIndex.length
  matched : n ≤ ix.matchIndex.length

theorem PeerIndices.Filled.exists_match {ix : PeerIndices}
    (h : ix.Filled n) (j : Fin n) : ∃ m, ix.matchIndex[j.val]? = some m :=
  ⟨_, List.getElem?_eq_getElem (lt_of_lt_of_le j.isLt h.matched)⟩

namespace Raft

theorem le_length_fillIndex (value : ℤ) (xs : List ℤ) :
    n ≤ (fillIndex n value xs).length :=
  le_trans (le_max_left _ _) (foldl_fill value xs n).1.ge

theorem make_matchIndex_length [Zero Cmd] (me : Fin n)
    (persister : Persister n Cmd) :
    (Raft.make me persister).matchIndex.length ≤ n := by
  rw [(make_volatile me persister).2.2.2.2]
  exact Nat.zero_le n

theorem becomeLeader_filled (rf : Raft n Cmd) :
    rf.becomeLeader.indices.Filled n :=
  ⟨le_length_fillIndex _ _, le_length_fillIndex _ _⟩

theorem sendHeartbeat_filled {rf : Raft n Cmd} (h : rf.indices.Filled n)
    (peer : Fin n) (args : AppendEntriesArgs n Cmd)
    (reply : AppendEntriesReply) :
    (rf.sendHeartbeat peer args reply).rf.indices.Filled n := by
  rcases rf.sendHeartbeat_indices peer args reply with
    hix | ⟨_, _, ⟨_, hix⟩ | ⟨_, hix⟩⟩ <;> rw [hix]
  · exact h
  · constructor
    · simpa [indices, matched] using h.next
    · simpa [indices, matched] using h.matched
  · constructor
    · simpa [indices] using h.next
    · exact h.matched

/-- The reply to an accepted request of the term is recorded. -/
theorem sendHeartbeat_recorded {rf : Raft n Cmd} (h : rf.indices.Filled n)
    (peer : Fin n) {args : AppendEntriesArgs n Cmd}
    {reply : AppendEntriesReply} (hterm : rf.currentTerm = args.term)
    (hreply : reply.term ≤ args.term) (hsuccess : reply.success = true) :
    (rf.sendHeartbeat peer args reply).rf.indices =
      (rf.matched peer args).indices := by
  have hmatch := lt_of_lt_of_le peer.isLt h.matched
  have hnext := lt_of_lt_of_le peer.isLt h.next
  have hrecord : (rf.recordSuccess peer args).rf.indices =
      (rf.matched peer args).indices := by
    unfold recordSuccess
    rw [if_pos ⟨hmatch, hnext⟩]
    dsimp only
    split
    · exact commitScan_indices _ _
    · rfl
  unfold sendHeartbeat
  rw [if_neg (not_not.mpr hterm), if_neg (by omega), if_pos hsuccess]
  split <;> next heq => rw [heq] at hrecord; exact hrecord

theorem sendSnapshot_filled {rf : Raft n Cmd} (h : rf.indices.Filled n)
    (peer : Fin n) (args : SnapshotArgs n) (reply : SnapshotRelpay) :
    (rf.sendSnapshot peer args reply).rf.indices.Filled n := by
  rcases rf.sendSnapshot_indices peer args reply with
    hix | ⟨_, hix⟩ <;> rw [hix]
  · exact h
  · constructor
    · simpa [indices] using h.next
    · exact h.matched

end Raft

namespace Cluster

variable [Zero Cmd] {σ σ' : Cluster n Cmd} {a : Action Cmd n}

/-- Indices that are filled stay so until the server crashes. -/
theorem Transition.filled (h : Transition σ a σ') {t : Fin n}
    (hinc : (σ'.server t).incarnation = (σ.server t).incarnation)
    (hfilled : (σ.server t).rf.indices.Filled n) :
    (σ'.server t).rf.indices.Filled n := by
  by_cases hwon : ∃ args T, (σ.inputs a t).won args T
  · obtain ⟨args, T, hin⟩ := hwon
    rw [h.won_rf hin]
    exact Raft.becomeLeader_filled _
  · cases h.indexStep fun args T hin ↦ hwon ⟨args, T, hin⟩ with
    | keep hsame =>
        rw [hsame]
        exact hfilled
    | append _ _ _ _ _ hrf =>
        rw [hrf]
        exact Raft.sendHeartbeat_filled hfilled _ _ _
    | snap _ _ _ _ hrf =>
        rw [hrf]
        exact Raft.sendSnapshot_filled hfilled _ _ _
    | restart hboot => exact absurd hinc (incarnation_ne_of_boot hboot)

/-- No step makes match indices for more than `n` peers. -/
theorem Transition.matchIndex_length_le (h : Transition σ a σ') {t : Fin n}
    (hle : (σ.server t).rf.matchIndex.length ≤ n) :
    (σ'.server t).rf.matchIndex.length ≤ n := by
  by_cases hwon : ∃ args T, (σ.inputs a t).won args T
  · obtain ⟨args, T, hin⟩ := hwon
    rw [h.won_rf hin]
    exact (Raft.length_fillIndex hle).le
  · have hsame : ∀ {ix : PeerIndices}, (σ'.server t).rf.indices = ix →
        ix.matchIndex.length ≤ n → (σ'.server t).rf.matchIndex.length ≤ n := by
      rintro ix rfl hlength
      exact hlength
    cases h.indexStep fun args T hin ↦ hwon ⟨args, T, hin⟩ with
    | keep hix => exact hsame hix hle
    | append _ _ _ _ _ hrf =>
        rcases (σ.server t).rf.sendHeartbeat_indices _ _ _ with
          hix | ⟨_, _, ⟨_, hix⟩ | ⟨_, hix⟩⟩ <;> rw [← hrf] at hix
        · exact hsame hix hle
        · exact hsame hix (by simpa [Raft.indices, Raft.matched] using hle)
        · exact hsame hix hle
    | snap _ _ _ _ hrf =>
        rcases (σ.server t).rf.sendSnapshot_indices _ _ _ with
          hix | ⟨_, hix⟩ <;> rw [← hrf] at hix
        · exact hsame hix hle
        · exact hsame hix hle
    | restart hboot =>
        rw [hboot]
        exact Raft.make_matchIndex_length t _

/-- A server that is a leader after a step was one before, in the same term, or
has just been promoted. -/
theorem Transition.leader_before (h : Transition σ a σ') {t : Fin n}
    (hwon : ∀ args T, ¬ (σ.inputs a t).won args T)
    (hleader : (σ'.server t).rf.state = .leader) :
    (σ.server t).rf.state = .leader ∧
      (σ'.server t).rf.currentTerm = (σ.server t).rf.currentTerm ∧
      (σ'.server t).incarnation = (σ.server t).incarnation := by
  cases h.evolves t with
  | changes hchanges hinc =>
      have hold := hchanges.preserves
        (P := fun rf ↦ rf.state = .leader →
          (σ.server t).rf.state = .leader ∧
            rf.currentTerm = (σ.server t).rf.currentTerm)
        (leader_change
          (E := fun T ↦ (σ.server t).rf.state = .leader ∧
            T = (σ.server t).rf.currentTerm)
          fun args T hin ↦ absurd hin (hwon args T))
        (fun hstate ↦ ⟨hstate, rfl⟩) hleader
      exact ⟨hold.1, hold.2, hinc⟩
  | restart _ hboot =>
      rw [hboot] at hleader
      exact absurd hleader (boot_not_leader _ _ _)

/-- Leaders, and the servers whose requests are still under way, have filled
their indices. -/
structure Indexed (σ : Cluster n Cmd) : Prop where
  leaders : ∀ s, (σ.server s).rf.state = .leader →
    (σ.server s).rf.indices.Filled n
  calls : ∀ call ∈ σ.appendCalls,
    call.incarnation ≤ (σ.server call.caller).incarnation ∧
    (call.incarnation = (σ.server call.caller).incarnation →
      (σ.server call.caller).rf.indices.Filled n)
  atMost : ∀ s, (σ.server s).rf.matchIndex.length ≤ n

theorem Indexed.step (h : Indexed σ) (hstep : σ.step a = some σ') :
    Indexed σ' := by
  have htrans := step_transition hstep
  have hleaders : ∀ s, (σ'.server s).rf.state = .leader →
      (σ'.server s).rf.indices.Filled n := by
    intro s hleader
    by_cases hwon : ∃ args T, (σ.inputs a s).won args T
    · obtain ⟨args, T, hin⟩ := hwon
      rw [htrans.won_rf hin]
      exact Raft.becomeLeader_filled _
    · obtain ⟨hold, _, hinc⟩ := htrans.leader_before
        (fun args T hin ↦ hwon ⟨args, T, hin⟩) hleader
      exact htrans.filled hinc (h.leaders s hold)
  refine ⟨hleaders, ?_, fun s ↦ htrans.matchIndex_length_le (h.atMost s)⟩
  intro call hcall
  rcases htrans.appendCall_origin hcall with ⟨old, hold, _, rfl⟩ | hnew
  · obtain ⟨hle, hfilled⟩ := h.calls old hold
    have hlater := htrans.incarnation_le old.caller
    refine ⟨le_trans hle hlater, ?_⟩
    intro hinc
    have hnow : old.incarnation = (σ'.server old.caller).incarnation := hinc
    have hbefore : old.incarnation = (σ.server old.caller).incarnation := by
      omega
    exact htrans.filled (hnow.symm.trans hbefore) (hfilled hbefore)
  · exact ⟨hnew.incarnation.le, fun _ ↦ hleaders _ hnew.leader⟩

theorem indexed_of_run {ok : Cluster n Cmd → Action Cmd n → Prop}
    {visited : List (Cluster n Cmd)}
    (hrun : Run step ok init visited σ) : Indexed σ :=
  hrun.invariant
    ⟨fun s hleader ↦ absurd hleader (boot_not_leader s 0 _),
      by simp [init], fun s ↦ Raft.make_matchIndex_length s _⟩
    fun hinv _ hstep ↦ hinv.step hstep

/-- No server sends requests to itself. -/
theorem peer_ne_caller {ok : Cluster n Cmd → Action Cmd n → Prop}
    {visited : List (Cluster n Cmd)} (hrun : Run step ok init visited σ)
    {call : AppendCall n Cmd} (hcall : call ∈ σ.appendCalls) :
    call.peer ≠ call.caller := by
  induction hrun generalizing call with
  | start => simp [init] at hcall
  | next hprev hok hstep ih =>
      rcases (step_transition hstep).appendCall_origin hcall with
        ⟨old, hold, _, rfl⟩ | hnew
      · have hne : old.peer ≠ old.caller := ih hold
        exact hne
      · have hne := hnew.peer_ne
        rwa [(ballots_of_run (hprev.next hok hstep)).me] at hne

end Cluster

end DistLabs
