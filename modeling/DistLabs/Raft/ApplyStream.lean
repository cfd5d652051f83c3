import DistLabs.Raft.Validity

/-!
# The stream of messages for the service

A service that is at position `pos` expects the command at `pos + 1` or a
snapshot at `pos` or later.  The messages of one incarnation, received and still
unsent, form such a stream from the restored `LastIncludedIndex` on, and it
ends where `LastApplied` stands.  The unlocked sends keep this order only if
messages are received in the order in which they were made, and
`InstallSnapshot` keeps it only if it is ahead of `LastApplied`.
-/

namespace DistLabs

variable {n : ℕ} {Cmd : Type}

/-! ## Streams -/

/-- What a service at position `pos` expects next. -/
def ApplyMsg.Continues (pos : ℤ) : ApplyMsg Cmd → Prop
  | .command _ i => i = pos + 1
  | .snapshot _ _ i => pos ≤ i

/-- Messages received in this order from position `pos` on, each of which sets
the position to its index. -/
def InOrder : ℤ → List (ApplyMsg Cmd) → Prop
  | _, [] => True
  | pos, msg :: msgs => msg.Continues pos ∧ InOrder msg.index msgs

/-- The position that a service reaches with the given messages. -/
def position (pos : ℤ) (msgs : List (ApplyMsg Cmd)) : ℤ :=
  msgs.foldl (fun _ msg ↦ msg.index) pos

instance (pos : ℤ) (msg : ApplyMsg Cmd) : Decidable (msg.Continues pos) := by
  cases msg <;> dsimp only [ApplyMsg.Continues] <;> infer_instance

instance decidableInOrder :
    ∀ (pos : ℤ) (msgs : List (ApplyMsg Cmd)), Decidable (InOrder pos msgs)
  | _, [] => isTrue trivial
  | pos, msg :: msgs =>
      @instDecidableAnd (msg.Continues pos) (InOrder msg.index msgs) _
        (decidableInOrder msg.index msgs)

@[simp] theorem position_concat (pos : ℤ) (msgs : List (ApplyMsg Cmd))
    (msg : ApplyMsg Cmd) : position pos (msgs ++ [msg]) = msg.index := by
  simp [position]

theorem inOrder_append {pos : ℤ} {msgs msgs' : List (ApplyMsg Cmd)} :
    InOrder pos (msgs ++ msgs') ↔
      InOrder pos msgs ∧ InOrder (position pos msgs) msgs' := by
  induction msgs generalizing pos with
  | nil => exact ⟨fun h ↦ ⟨trivial, h⟩, fun h ↦ h.2⟩
  | cons msg msgs ih =>
      simp only [List.cons_append, InOrder, ih, and_assoc]
      rfl

theorem InOrder.concat {pos : ℤ} {msgs : List (ApplyMsg Cmd)}
    {msg : ApplyMsg Cmd} (h : InOrder pos msgs)
    (hnext : msg.Continues (position pos msgs)) :
    InOrder pos (msgs ++ [msg]) :=
  inOrder_append.mpr ⟨h, hnext, trivial⟩

/-! ## One server -/

/-- Server `rf`, which was started with `LastIncludedIndex = restored`, goes on
from position `pos`: `LastApplied` stands there, or nothing was committed yet
and it is still to be raised to the restored index. -/
structure Positioned (restored pos : ℤ) (rf : Raft n Cmd) : Prop where
  nonneg : 0 ≤ rf.lastApplied
  included : restored ≤ rf.lastIncludedIndex
  position : max rf.lastApplied restored = pos
  caughtUp : rf.lastIncludedIndex ≤ rf.lastApplied ∨
    rf.commitIndex ≤ 0 ∧ rf.lastIncludedIndex = restored
  saved : ∀ saved, rf.persister.raftstate = some saved →
    restored ≤ saved.lastIncludedIndex

namespace Positioned

variable {restored pos : ℤ} {rf rf' : Raft n Cmd}

theorem of_eq (h : Positioned restored pos rf)
    (happlied : rf'.lastApplied = rf.lastApplied)
    (hcommit : rf'.commitIndex = rf.commitIndex)
    (hlii : rf'.lastIncludedIndex = rf.lastIncludedIndex)
    (hsaved : rf'.persister = rf.persister) :
    Positioned restored pos rf' := by
  obtain ⟨hnonneg, hincluded, hposition, hcaught, hstored⟩ := h
  refine ⟨?_, ?_, ?_, ?_, ?_⟩
  · rwa [happlied]
  · rwa [hlii]
  · rwa [happlied]
  · rwa [happlied, hcommit, hlii]
  · rwa [hsaved]

theorem persist (h : Positioned restored pos rf)
    (happlied : rf'.lastApplied = rf.lastApplied)
    (hcommit : rf'.commitIndex = rf.commitIndex)
    (hlii : rf'.lastIncludedIndex = rf.lastIncludedIndex) :
    Positioned restored pos rf'.persist := by
  obtain ⟨hnonneg, hincluded, hposition, hcaught, _⟩ := h
  refine ⟨?_, ?_, ?_, ?_, ?_⟩
  · change 0 ≤ rf'.lastApplied
    rwa [happlied]
  · change restored ≤ rf'.lastIncludedIndex
    rwa [hlii]
  · change max rf'.lastApplied restored = pos
    rwa [happlied]
  · change rf'.lastIncludedIndex ≤ rf'.lastApplied ∨ rf'.commitIndex ≤ 0 ∧
      rf'.lastIncludedIndex = restored
    rwa [happlied, hcommit, hlii]
  · intro saved hsaved
    cases hsaved
    change restored ≤ rf'.lastIncludedIndex
    rwa [hlii]

/-- A new commit index raises `LastApplied` to the restored index at last. -/
theorem commitTo (h : Positioned restored pos rf) (N : ℤ) :
    Positioned restored pos
      { rf with
        commitIndex := N
        lastApplied := max rf.lastApplied rf.lastIncludedIndex } := by
  obtain ⟨hnonneg, hincluded, hposition, hcaught, hsaved⟩ := h
  refine ⟨?_, hincluded, ?_, Or.inl (le_max_right _ _), hsaved⟩
  · exact le_trans hnonneg (le_max_left _ _)
  · dsimp only
    omega

theorem stamped (h : Positioned restored pos rf) (k : ℤ) :
    Positioned restored pos (rf.stamped k) := by
  unfold Raft.stamped
  split
  · exact h.of_eq rfl rfl rfl rfl
  · exact h

theorem accept (h : Positioned restored pos rf) (k leaderCommit : ℤ)
    (entries : List (LogEntry Cmd)) :
    Positioned restored pos
      ((rf.appendLog k entries).advanceCommit leaderCommit) := by
  have happend : Positioned restored pos (rf.appendLog k entries) := by
    unfold Raft.appendLog
    split
    · exact h.persist rfl rfl rfl
    · exact h
  unfold Raft.advanceCommit
  split
  · exact happend.commitTo _
  · exact happend

theorem compacted (h : Positioned restored pos rf) {index : ℤ}
    {data : Bytes} {entry : LogEntry Cmd}
    (hentry : elemAt rf.log (rf.v2pIndex index) = some entry)
    (hindex : index ≤ rf.lastApplied) :
    Positioned restored pos (rf.compacted index data entry) := by
  obtain ⟨p, hp, _⟩ := elemAt_eq_some_iff.mp hentry
  have hincluded : restored ≤ index := by
    have hold := h.included
    unfold Raft.v2pIndex at hp
    omega
  refine ⟨h.nonneg, hincluded, h.position, Or.inl hindex, ?_⟩
  intro saved hsaved
  cases hsaved
  exact hincluded

/-- Neither `ApplyGoroutine` nor `InstallSnapshot` runs. -/
theorem change [Zero Cmd] {In : Inputs n Cmd} (happlies : ¬ In.applies)
    (hsnap : ∀ args, ¬ In.snap args)
    (htaken : ∀ index data, In.taken index data → index ≤ rf.lastApplied)
    (hchange : Change In rf rf') (h : Positioned restored pos rf) :
    Positioned restored pos rf' := by
  cases hchange with
  | elect =>
      rw [Raft.electLauncher_rf]
      exact h.persist rfl rfl rfl
  | grant | raise | start => exact h.persist rfl rfl rfl
  | follow | demote | lead | reindex | matched =>
      exact h.of_eq rfl rfl rfl rfl
  | commit => exact h.commitTo _
  | snapshot hin hentry => exact h.compacted hentry (htaken _ _ hin)
  | conflict => exact (h.stamped _).persist rfl rfl rfl
  | accept => exact (h.stamped _).accept _ _ _
  | install hin => exact absurd hin (hsnap _)
  | apply hin => exact absurd hin happlies

/-- `ApplyGoroutine` takes the position one step forward. -/
theorem apply (h : Positioned restored pos rf)
    (hcommit : rf.commitIndex > rf.lastApplied) :
    pos = rf.lastApplied ∧ Positioned restored (rf.lastApplied + 1)
      { rf with lastApplied := rf.lastApplied + 1 } := by
  obtain ⟨hnonneg, hincluded, hposition, hcaught, hsaved⟩ := h
  refine ⟨by omega, ?_, hincluded, ?_, Or.inl ?_, hsaved⟩
  · exact le_trans hnonneg (Int.le_add_one le_rfl)
  · dsimp only
    omega
  · dsimp only
    omega

/-- A snapshot ahead of `LastApplied` takes the position to its index. -/
theorem installed (h : Positioned restored pos rf) {args : SnapshotArgs n}
    (hahead : max rf.lastApplied rf.lastIncludedIndex ≤
      args.lastIncludedIndex) (log : List (LogEntry Cmd)) :
    pos ≤ args.lastIncludedIndex ∧
      Positioned restored args.lastIncludedIndex (rf.installed args log) := by
  obtain ⟨hnonneg, hincluded, hposition, _, _⟩ := h
  have hlow : restored ≤ args.lastIncludedIndex := by omega
  refine ⟨by omega, ?_, hlow, ?_, Or.inl (le_max_right _ _), ?_⟩
  · exact le_trans hnonneg (le_max_left _ _)
  · change max (max rf.lastApplied args.lastIncludedIndex) restored =
      args.lastIncludedIndex
    omega
  · intro saved hsaved
    cases hsaved
    exact hlow

end Positioned

/-! ## Servers with their messages -/

/-- The messages of this incarnation, received and unsent. -/
def Server.stream (srv : Server n Cmd) : List (ApplyMsg Cmd) :=
  srv.applyCh ++ srv.unsent.map Unsent.msg

/-- The stream of a server is in order, and a running server goes on from its
end. -/
structure Streaming (srv : Server n Cmd) : Prop where
  restored : 0 ≤ srv.restored
  saved : ∀ saved, srv.rf.persister.raftstate = some saved →
    0 ≤ saved.lastIncludedIndex
  inOrder : InOrder srv.restored srv.stream
  positioned : srv.alive → Positioned srv.restored
    (position srv.restored srv.stream) srv.rf

namespace Streaming

variable {srv srv' : Server n Cmd}

/-- A server that goes on from the end of a stream in order. -/
theorem of_positioned (hrestored : 0 ≤ srv.restored)
    (horder : InOrder srv.restored srv.stream)
    (h : Positioned srv.restored (position srv.restored srv.stream) srv.rf) :
    Streaming srv where
  restored := hrestored
  saved := fun saved hsaved ↦ le_trans hrestored (h.saved saved hsaved)
  inOrder := horder
  positioned := fun _ ↦ h

/-- A section that sends nothing. -/
theorem quiet (h : Streaming srv) (hrestored : srv'.restored = srv.restored)
    (hstream : srv'.stream = srv.stream)
    (hpos : Positioned srv.restored (position srv.restored srv.stream)
      srv'.rf) : Streaming srv' := by
  refine of_positioned ?_ ?_ ?_
  · rw [hrestored]
    exact h.restored
  · rw [hrestored, hstream]
    exact h.inOrder
  · rwa [hrestored, hstream]

/-- A panic that leaves stream and persister alone. -/
theorem stop (h : Streaming srv) (hrestored : srv'.restored = srv.restored)
    (hstream : srv'.stream = srv.stream)
    (hsaved : srv'.rf.persister = srv.rf.persister)
    (hstopped : srv'.alive = false) : Streaming srv' where
  restored := by
    rw [hrestored]
    exact h.restored
  saved := by
    rw [hsaved]
    exact h.saved
  inOrder := by
    rw [hrestored, hstream]
    exact h.inOrder
  positioned := by
    intro halive
    rw [hstopped] at halive
    cases halive

/-- A section that adds one message to the stream. -/
theorem send (h : Streaming srv) (msg : ApplyMsg Cmd)
    (hrestored : srv'.restored = srv.restored)
    (hstream : srv'.stream = srv.stream ++ [msg])
    (hnext : msg.Continues (position srv.restored srv.stream))
    (hpos : Positioned srv.restored msg.index srv'.rf) : Streaming srv' := by
  refine of_positioned ?_ ?_ ?_
  · rw [hrestored]
    exact h.restored
  · rw [hrestored, hstream]
    exact h.inOrder.concat hnext
  · rwa [hrestored, hstream, position_concat]

/-- `Make` starts a stream at the index that it restores. -/
theorem boot [Zero Cmd] (h : Streaming srv) (s : Fin n) (incarnation : ℕ) :
    Streaming (boot s incarnation srv.rf.persister) := by
  have hmake : 0 ≤ (Raft.make s srv.rf.persister).lastIncludedIndex ∧
      Positioned (Raft.make s srv.rf.persister).lastIncludedIndex
        (Raft.make s srv.rf.persister).lastIncludedIndex
        (Raft.make s srv.rf.persister) := by
    rcases Raft.make_cases s srv.rf.persister with
      ⟨hnone, hmake⟩ | ⟨saved, hsaved, hmake⟩ <;> rw [hmake]
    · refine ⟨le_rfl, le_rfl, le_rfl, rfl, Or.inl le_rfl, ?_⟩
      intro saved hsaved
      cases hnone.symm.trans hsaved
    · have hle := h.saved saved hsaved
      refine ⟨hle, le_rfl, le_rfl, max_eq_right hle, Or.inr ⟨le_rfl, rfl⟩, ?_⟩
      intro saved' hsaved'
      obtain rfl := Option.some.inj (hsaved.symm.trans hsaved')
      exact le_rfl
  exact of_positioned hmake.1 trivial hmake.2

end Streaming

/-! ## The cluster -/

namespace Cluster

/-- The service receives messages in the order in which they were made. -/
def ReceivesInOrder : Action Cmd n → Prop
  | .receive _ k => k = 0
  | _ => True

/-- A snapshot is installed only where it is ahead of what was applied and of
the present snapshot. -/
def InstallsAhead (σ : Cluster n Cmd) : Action Cmd n → Prop
  | .deliverSnap k => ∀ call ∈ σ.snapCalls[k]?,
      (σ.server call.peer).rf.currentTerm ≤ call.args.term →
      max (σ.server call.peer).rf.lastApplied
        (σ.server call.peer).rf.lastIncludedIndex ≤
          call.args.lastIncludedIndex
  | _ => True

instance (a : Action Cmd n) : Decidable (ReceivesInOrder a) := by
  induction a using Action.casesOn <;> dsimp only [ReceivesInOrder] <;>
    infer_instance

instance (σ : Cluster n Cmd) (a : Action Cmd n) :
    Decidable (σ.InstallsAhead a) := by
  induction a using Action.casesOn <;> dsimp only [InstallsAhead] <;>
    infer_instance

/-- Actions that do not touch the messages of any server. -/
def Streamless : Action Cmd n → Prop
  | .apply _ | .receive _ _ | .deliverSnap _ | .restart _ => False
  | _ => True

variable [Zero Cmd] {σ σ' : Cluster n Cmd} {a : Action Cmd n}

theorem Transition.stream_eq (h : Transition σ a σ') (hquiet : Streamless a)
    (t : Fin n) : (σ'.server t).stream = (σ.server t).stream ∧
      (σ'.server t).restored = (σ.server t).restored := by
  cases h with
  | applyPanic | apply | receive | snapPanic | snapRefused | snap
  | restart => exact hquiet.elim
  | countRefused => exact ⟨rfl, rfl⟩
  | _ =>
      simp only [stop_server, openElection_server, setVotePhase_server,
        record_server, setRf_server, setServer_server, setAppendPhase_server,
        setSnapPhase_server, callSnap_server, launch_server,
        Function.update_apply]
      split
      · next heq =>
          subst heq
          exact ⟨rfl, rfl⟩
      · exact ⟨rfl, rfl⟩

theorem Valid.streaming_quiet (hinv : Valid σ)
    (hok : σ.SnapshotsDelivered a) (htrans : Transition σ a σ')
    (hquiet : Streamless a) {t : Fin n} (halive : (σ.server t).alive)
    (h : Streaming (σ.server t)) : Streaming (σ'.server t) := by
  obtain ⟨hstream, hrestored⟩ := htrans.stream_eq hquiet t
  cases htrans.evolves t with
  | restart haction =>
      subst haction
      exact hquiet.elim
  | changes hchanges =>
      have htaken : ∀ index data, (σ.inputs a t).taken index data →
          index ≤ (σ.server t).rf.lastApplied := by
        intro index data hin
        obtain rfl : a = .snapshot t index data := hin
        obtain ⟨msg, hmsg, rfl⟩ := List.mem_map.mp hok
        exact hinv.delivered t msg hmsg
      have hboth := hchanges.preserves (P := fun rf ↦
        AppliesAbove (σ.server t).rf.lastApplied rf ∧
        Positioned (σ.server t).restored
          (position (σ.server t).restored (σ.server t).stream) rf) ?_
        ⟨⟨le_rfl, (hinv.applies t).nonneg, (hinv.applies t).above⟩,
          h.positioned halive⟩
      · exact h.quiet hrestored hstream hboth.2
      · rintro rf rf' hchange ⟨habove, hpos⟩
        refine ⟨habove.change htaken hchange, hpos.change ?_ ?_ ?_ hchange⟩
        · rintro rfl
          exact hquiet
        · rintro args ⟨k, call, rfl, _⟩
          exact hquiet
        · exact fun index data hin ↦
            le_trans (htaken index data hin) habove.low

omit [Zero Cmd] in
/-- Messages that are received in order stay in the stream. -/
theorem streaming_receive {s : Fin n} (hlive : (σ.server s).alive)
    {u : Unsent Cmd} (hunsent : (σ.server s).unsent[0]? = some u)
    (h : Streaming (σ.server s)) :
    Streaming ((σ.handOver s 0 u).server s) := by
  refine h.quiet (by simp) ?_ (by simpa using h.positioned hlive)
  cases hlist : (σ.server s).unsent with
  | nil => simp [hlist] at hunsent
  | cons v rest =>
      obtain rfl : v = u := by simpa [hlist] using hunsent
      simp [Server.stream, hlist]

omit [Zero Cmd] in
/-- The next command goes on with the stream. -/
theorem streaming_apply {s : Fin n} (hlive : (σ.server s).alive)
    (hcommit : (σ.server s).rf.commitIndex > (σ.server s).rf.lastApplied)
    {rf : Raft n Cmd} {msg : ApplyMsg Cmd}
    (hrun : (σ.server s).rf.applyGoroutine = .done rf msg)
    (h : Streaming (σ.server s)) :
    Streaming
      { σ.server s with
        rf := rf
        unsent := (σ.server s).unsent ++ [⟨msg, none⟩] } := by
  obtain ⟨hat, hpos⟩ := (h.positioned hlive).apply hcommit
  obtain ⟨entry, _, hmsg⟩ := Raft.applyGoroutine_done hrun
  have hrf := (σ.server s).rf.applyGoroutine_rf
  rw [hrun, Outcome.rf_done] at hrf
  refine h.send msg rfl ?_ ?_ ?_
  · simp [Server.stream]
  · rw [hmsg, hat]
    rfl
  · rw [hrf, hmsg]
    exact hpos

/-- A snapshot that is ahead goes on with the stream. -/
theorem streaming_snap {call : SnapCall n} {k : ℕ}
    (hlive : (σ.server call.peer).alive)
    (hcall : σ.snapCalls[k]? = some call)
    (hahead : σ.InstallsAhead (.deliverSnap k)) {rf : Raft n Cmd}
    {reply : SnapshotRelpay} {msg : ApplyMsg Cmd}
    (hrun : (σ.server call.peer).rf.installSnapshot call.args =
      .done rf (reply, some msg))
    (h : Streaming (σ.server call.peer)) :
    Streaming
      { σ.server call.peer with
        rf := rf
        unsent := (σ.server call.peer).unsent ++ [⟨msg, some k⟩] } := by
  rcases (σ.server call.peer).rf.installSnapshot_cases call.args with
    ⟨_, hcase⟩ | ⟨hle, ⟨_, hcase⟩ | ⟨log, _, hcase⟩⟩
  all_goals
    rw [hcase] at hrun
    cases hrun
  have hfollow : Positioned (σ.server call.peer).restored
      (position (σ.server call.peer).restored (σ.server call.peer).stream)
      ((σ.server call.peer).rf.followInstaller call.args.term) := by
    unfold Raft.followInstaller
    split
    · exact (h.positioned hlive).of_eq rfl rfl rfl rfl
    · exact h.positioned hlive
  have hforward : max
      ((σ.server call.peer).rf.followInstaller call.args.term).lastApplied
      ((σ.server call.peer).rf.followInstaller
        call.args.term).lastIncludedIndex ≤ call.args.lastIncludedIndex := by
    have hmax := hahead call hcall hle
    unfold Raft.followInstaller
    split <;> exact hmax
  obtain ⟨hnext, hpos⟩ := hfollow.installed hforward log
  refine h.send (.snapshot call.args.snapdata call.args.lastIncludedTerm
    call.args.lastIncludedIndex) rfl ?_ hnext hpos
  simp [Server.stream]

/-- A step that receives in order and installs ahead keeps every stream in
order. -/
theorem Valid.streaming_step (hinv : Valid σ) (hok : σ.SnapshotsDelivered a)
    (hreceives : ReceivesInOrder a) (hahead : σ.InstallsAhead a)
    (htrans : Transition σ a σ') (h : ∀ s, Streaming (σ.server s))
    (t : Fin n) : Streaming (σ'.server t) := by
  by_cases hlive : (σ.server t).alive
  · have hquiet := fun hstreamless ↦
      hinv.streaming_quiet hok htrans hstreamless hlive (h t)
    have hother : ∀ {s : Fin n} {srv : Server n Cmd},
        (t = s → Streaming srv) →
          Streaming (Function.update σ.server s srv t) := by
      intro s srv hself
      by_cases hts : t = s
      · subst hts
        rw [Function.update_self]
        exact hself rfl
      · rw [Function.update_of_ne hts]
        exact h t
    cases htrans with
    | applyPanic _ _ _ hrun =>
        refine hother ?_
        rintro rfl
        have hrf := (σ.server t).rf.applyGoroutine_rf
        rw [hrun, Outcome.rf_panic] at hrf
        exact (h t).stop rfl rfl (by rw [hrf]) rfl
    | apply _ hcommit _ hrun =>
        refine hother ?_
        rintro rfl
        exact streaming_apply hlive hcommit hrun (h t)
    | receive hunsent =>
        obtain rfl := hreceives
        refine hother ?_
        rintro rfl
        simpa using streaming_receive hlive hunsent (h t)
    | @snapPanic _ call _ hcall _ _ hrun =>
        refine hother ?_
        rintro rfl
        rcases (σ.server call.peer).rf.installSnapshot_cases call.args with
          ⟨_, hcase⟩ | ⟨_, ⟨_, hcase⟩ | ⟨log, _, hcase⟩⟩
        all_goals
          rw [hcase] at hrun
          cases hrun
        refine (h call.peer).stop rfl rfl ?_ rfl
        unfold Raft.followInstaller
        split <;> rfl
    | @snapRefused _ call _ _ hcall _ _ hrun =>
        refine hother ?_
        rintro rfl
        rcases (σ.server call.peer).rf.installSnapshot_cases call.args with
          ⟨_, hcase⟩ | ⟨_, ⟨_, hcase⟩ | ⟨log, _, hcase⟩⟩
        all_goals
          rw [hcase] at hrun
          cases hrun
        exact h call.peer
    | @snap _ call _ _ _ hcall _ _ hrun =>
        refine hother ?_
        rintro rfl
        exact streaming_snap hlive hcall hahead hrun (h call.peer)
    | restart =>
        refine hother ?_
        rintro rfl
        exact (h t).boot t _
    | _ => exact hquiet trivial
  · rcases htrans.stopped hlive with hsame | rfl
    · rw [hsame]
      exact h t
    · cases htrans with
      | restart =>
          simpa using (h t).boot t ((σ.server t).incarnation + 1)

/-- In a run that receives in order and installs ahead, what the service of
each server has received in its incarnation is a stream without gaps from the
index that `Make` restored. -/
theorem applyCh_inOrder {visited : List (Cluster n Cmd)}
    (hrun : Run step (fun σ a ↦ σ.SnapshotsDelivered a ∧
      ReceivesInOrder a ∧ σ.InstallsAhead a) init visited σ) (s : Fin n) :
    InOrder (σ.server s).restored (σ.server s).applyCh := by
  have hinv : Valid σ ∧ ∀ s, Streaming (σ.server s) := by
    refine hrun.invariant (I := fun σ ↦ Valid σ ∧
      ∀ s, Streaming (σ.server s)) ⟨valid_init, ?_⟩ ?_
    · intro s
      refine .of_positioned le_rfl trivial ?_
      refine ⟨le_rfl, le_rfl, rfl, Or.inl le_rfl, ?_⟩
      simp [init, boot, Raft.make, Raft.readPersist]
    · rintro σ σ' a ⟨hvalid, hstreaming⟩ ⟨hok, hreceives, hahead⟩ hstep
      exact ⟨hvalid.step hok hstep, hvalid.streaming_step hok hreceives hahead
        (step_transition hstep) hstreaming⟩
  exact (inOrder_append.mp (hinv.2 s).inOrder).1

/-- Server 2 installs a snapshot at index 2, receives command 7, is restarted
and receives command 7 again. -/
def restartingRun : List (Action ℕ 3) :=
  committingRun ++ [.apply 0, .receive 0 0, .apply 0, .receive 0 0,
    .snapshot 0 2 [2], .heartbeat 0, .sendJob 0 0, .deliverSnap 0,
    .receive 2 0, .replySnap 0, .start 0 7, .heartbeat 0, .deliverAppend 6,
    .replyAppend 6, .heartbeat 0, .deliverAppend 8, .apply 2, .receive 2 0,
    .restart 2, .heartbeat 0, .deliverAppend 10, .apply 2, .receive 2 0]

/-- The stream of the second incarnation starts at the restored index. -/
theorem applyCh_inOrder_restarted :
    ∃ (visited : List (Cluster 3 ℕ)) (σ : Cluster 3 ℕ),
      Run step (fun σ a ↦ σ.SnapshotsDelivered a ∧ ReceivesInOrder a ∧
        σ.InstallsAhead a) init visited σ ∧
      ((σ.server 2).restored = 2 ∧
        (σ.server 2).applyCh = [.command 7 3]) ∧
      InOrder (σ.server 2).restored (σ.server 2).applyCh := by
  obtain ⟨visited, σ, hrun, hstream⟩ := Run.exists_of_exec
    step (fun σ a ↦ σ.SnapshotsDelivered a ∧ ReceivesInOrder a ∧
      σ.InstallsAhead a) init restartingRun
    (fun σ : Cluster 3 ℕ ↦ (σ.server 2).restored = 2 ∧
      (σ.server 2).applyCh = [.command 7 3]) (by decide +kernel)
  exact ⟨visited, σ, hrun, hstream, applyCh_inOrder hrun 2⟩

/-- `ApplyGoroutine` of server 2 waits with command 5 while `InstallSnapshot`
sends a snapshot at index 2. -/
def overtakingRun : List (Action ℕ 3) :=
  committingRun ++ [.heartbeat 0, .deliverAppend 5, .apply 2, .apply 0,
    .receive 0 0, .apply 0, .receive 0 0, .snapshot 0 2 [2], .heartbeat 0,
    .sendJob 0 0, .deliverSnap 0, .receive 2 1, .receive 2 0]

/-- Server 2 has received both commands when it installs a snapshot at index
1. -/
def forwardingRun : List (Action ℕ 3) :=
  committingRun ++ [.heartbeat 0, .deliverAppend 5, .apply 2, .receive 2 0,
    .apply 2, .receive 2 0, .apply 0, .receive 0 0, .snapshot 0 1 [1],
    .heartbeat 0, .sendJob 0 0, .deliverSnap 0, .receive 2 0]

/-- A snapshot can overtake a command, and a snapshot at or below
`LastApplied` is sent as well: both break the stream. -/
theorem applyCh_outOfOrder :
    (∃ (visited : List (Cluster 3 ℕ)) (σ : Cluster 3 ℕ),
      Run step (fun σ a ↦ σ.SnapshotsDelivered a ∧ σ.InstallsAhead a) init
        visited σ ∧
      (σ.server 2).restored = 0 ∧
      (σ.server 2).applyCh = [.snapshot [2] 1 2, .command 5 1] ∧
      ¬ InOrder (σ.server 2).restored (σ.server 2).applyCh) ∧
    ∃ (visited : List (Cluster 3 ℕ)) (σ : Cluster 3 ℕ),
      Run step (fun σ a ↦ σ.SnapshotsDelivered a ∧ ReceivesInOrder a) init
        visited σ ∧
      (σ.server 2).restored = 0 ∧
      (σ.server 2).applyCh =
        [.command 5 1, .command 6 2, .snapshot [1] 1 1] ∧
      ¬ InOrder (σ.server 2).restored (σ.server 2).applyCh := by
  refine ⟨?_, ?_⟩
  · exact Run.exists_of_exec step
      (fun σ a ↦ σ.SnapshotsDelivered a ∧ σ.InstallsAhead a) init
      overtakingRun (fun σ : Cluster 3 ℕ ↦ (σ.server 2).restored = 0 ∧
        (σ.server 2).applyCh = [.snapshot [2] 1 2, .command 5 1] ∧
        ¬ InOrder (σ.server 2).restored (σ.server 2).applyCh)
      (by decide +kernel)
  · exact Run.exists_of_exec step
      (fun σ a ↦ σ.SnapshotsDelivered a ∧ ReceivesInOrder a) init
      forwardingRun (fun σ : Cluster 3 ℕ ↦ (σ.server 2).restored = 0 ∧
        (σ.server 2).applyCh =
          [.command 5 1, .command 6 2, .snapshot [1] 1 1] ∧
        ¬ InOrder (σ.server 2).restored (σ.server 2).applyCh)
      (by decide +kernel)

end Cluster

end DistLabs
