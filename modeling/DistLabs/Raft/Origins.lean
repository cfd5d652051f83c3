import DistLabs.Raft.Changes

/-!
# Where messages come from

Every request, waiting snapshot and undelivered message after a step is an old
one or describes the present state of its server, and the history has only
grown.  Invariants that speak of servers and of messages are proved from these
lemmas.
-/

namespace DistLabs

variable {n : ℕ} {Cmd : Type}

namespace Cluster

/-! ## Requests in flight -/

/-- Changing the phase of one record leaves every record what it was up to its
phase. -/
theorem mem_set_phase {α : Type*} {calls : List α} {k : ℕ} {old new call : α}
    {P : α → α → Prop} (hrefl : ∀ c, P c c) (hget : calls[k]? = some old)
    (hnew : P old new) (hmem : call ∈ calls.set k new) :
    ∃ c ∈ calls, P c call := by
  rcases List.mem_or_eq_of_mem_set hmem with hold | rfl
  · exact ⟨call, hold, hrefl call⟩
  · exact ⟨old, List.mem_of_getElem? hget, hnew⟩

end Cluster

/-- `call` is `old` in a possibly later phase. -/
def AppendCall.Continues (old call : AppendCall n Cmd) : Prop :=
  ∃ phase, call = { old with phase := phase }

/-- `call` is `old` in a possibly later phase. -/
def SnapCall.Continues (old call : SnapCall n) : Prop :=
  ∃ phase, call = { old with phase := phase }

theorem AppendCall.Continues.refl (call : AppendCall n Cmd) :
    call.Continues call :=
  ⟨call.phase, rfl⟩

theorem SnapCall.Continues.refl (call : SnapCall n) : call.Continues call :=
  ⟨call.phase, rfl⟩

theorem SnapCall.continues_unblock (call : SnapCall n) :
    call.Continues call.unblock := by
  unfold SnapCall.unblock
  split
  · exact ⟨_, rfl⟩
  · exact .refl call

namespace Cluster

variable [Zero Cmd] {σ σ' : Cluster n Cmd} {a : Action Cmd n}

/-- A request that `HeartBeatLauncher` has just made describes its sender. -/
structure Launched (σ : Cluster n Cmd) (call : AppendCall n Cmd) : Prop where
  leader : (σ.server call.caller).rf.state = .leader
  peer_ne : call.peer ≠ (σ.server call.caller).rf.me
  prepared : (σ.server call.caller).rf.prepare call.peer =
    some (.appendEntries call.peer call.args)
  incarnation : call.incarnation = (σ.server call.caller).incarnation
  phase : call.phase = .sent

omit [Zero Cmd] in
theorem mem_appendCallsOf {s : Fin n} {incarnation : ℕ} {rf : Raft n Cmd}
    {call : AppendCall n Cmd}
    (h : call ∈ appendCallsOf s incarnation
      ((Raft.others rf.me).filterMap rf.prepare)) :
    call.caller = s ∧ call.incarnation = incarnation ∧
      call.peer ≠ rf.me ∧ call.phase = .sent ∧
      rf.prepare call.peer = some (.appendEntries call.peer call.args) := by
  obtain ⟨out, hout, hcall⟩ := List.mem_filterMap.mp h
  obtain ⟨i, hi, hprepare⟩ := List.mem_filterMap.mp hout
  cases out with
  | appendEntries peer args =>
      cases hcall
      obtain rfl := (Raft.prepare_append hprepare).1
      exact ⟨rfl, rfl, Raft.mem_others.mp hi, rfl, hprepare⟩
  | snapshot job => cases hcall

omit [Zero Cmd] in
theorem mem_jobsOf {rf : Raft n Cmd} {job : SnapshotJob n}
    (h : job ∈ jobsOf ((Raft.others rf.me).filterMap rf.prepare)) :
    job.peer ≠ rf.me ∧ rf.prepare job.peer = some (.snapshot job) := by
  obtain ⟨out, hout, hjob⟩ := List.mem_filterMap.mp h
  obtain ⟨i, hi, hprepare⟩ := List.mem_filterMap.mp hout
  cases out with
  | appendEntries peer args => cases hjob
  | snapshot job' =>
      cases hjob
      have hpeer : job.peer = i := by rw [Raft.prepare_snapshot hprepare]
      rw [hpeer]
      exact ⟨Raft.mem_others.mp hi, hprepare⟩

omit [Zero Cmd] in
/-- The requests of one round of heartbeats are launched. -/
theorem launched_of_mem {s : Fin n} {rf : Raft n Cmd}
    {out : List (Outgoing n Cmd)} (hrf : (σ'.server s).rf = rf)
    (hstate : rf.state = .leader)
    (hout : out = (Raft.others rf.me).filterMap rf.prepare)
    {call : AppendCall n Cmd}
    (h : call ∈ appendCallsOf s (σ'.server s).incarnation out) :
    Launched σ' call := by
  subst hout
  obtain ⟨rfl, hinc, hpeer, hphase, hprepared⟩ := mem_appendCallsOf h
  subst hrf
  exact ⟨hstate, hpeer, hprepared, hinc, hphase⟩

/-- What a step makes of the list of AppendEntries calls: it stays, a round of
heartbeats is added at its end, the receiver of one call executes it or stops
at it, or `SendHeartbeat` resumes with one reply. -/
inductive AppendStep (σ : Cluster n Cmd) (a : Action Cmd n)
    (σ' : Cluster n Cmd) : Prop
  | keep (hsame : σ'.appendCalls = σ.appendCalls)
  | launch {new : List (AppendCall n Cmd)}
      (hcalls : σ'.appendCalls = σ.appendCalls ++ new)
      (hnew : ∀ call ∈ new, Launched σ' call)
  | stopped {k : ℕ} {call : AppendCall n Cmd} (haction : a = .deliverAppend k)
      (hcall : σ.appendCalls[k]? = some call) (hphase : call.phase = .sent)
      (hcalls : σ'.appendCalls =
        σ.appendCalls.set k { call with phase := .finished })
  | executed {k : ℕ} {call : AppendCall n Cmd} {rf : Raft n Cmd}
      {reply : AppendEntriesReply} (haction : a = .deliverAppend k)
      (hcall : σ.appendCalls[k]? = some call) (hphase : call.phase = .sent)
      (hrun : (σ.server call.peer).rf.heartbeatHandler call.args =
        .done rf reply)
      (hcalls : σ'.appendCalls =
        σ.appendCalls.set k { call with phase := .replied reply })
  | resumed {k : ℕ} {call : AppendCall n Cmd} {reply : AppendEntriesReply}
      (haction : a = .replyAppend k) (hcall : σ.appendCalls[k]? = some call)
      (hphase : call.phase = .replied reply)
      (hcalls : σ'.appendCalls =
        σ.appendCalls.set k { call with phase := .finished })

theorem Transition.appendStep (h : Transition σ a σ') :
    AppendStep σ a σ' := by
  cases h with
  | @heartbeat s _ _ _ hstate hrun =>
      obtain ⟨rfl, hout⟩ := Raft.heartBeatLauncher_done hrun
      exact .launch rfl fun call hcall ↦ launched_of_mem (s := s) (by simp)
        hstate hout (by simpa using hcall)
  | @promote _ vote _ _ _ _ _ _ hrun =>
      obtain ⟨rfl, hout⟩ := Raft.heartBeatLauncher_done hrun
      exact .launch rfl fun call hcall ↦ launched_of_mem (s := vote.caller)
        (by simp) rfl hout (by simpa using hcall)
  | appendPanic hcall hphase => exact .stopped rfl hcall hphase rfl
  | append hcall hphase _ hrun => exact .executed rfl hcall hphase hrun rfl
  | replyAppendPanic hcall hphase | replyAppend hcall hphase
  | replyAppendSnap hcall hphase => exact .resumed rfl hcall hphase rfl
  | _ => exact .keep rfl

/-- An AppendEntries call keeps its number, and one that is finished stays
so. -/
theorem Transition.appendCall_kept (h : Transition σ a σ') {k : ℕ}
    {old : AppendCall n Cmd} (hold : σ.appendCalls[k]? = some old) :
    ∃ call, σ'.appendCalls[k]? = some call ∧ old.Continues call ∧
      (old.phase = .finished → call.phase = .finished) := by
  have hset : ∀ {i : ℕ} {set : AppendCall n Cmd}
      {phase : CallPhase AppendEntriesReply},
      σ.appendCalls[i]? = some set → set.phase ≠ .finished →
      σ'.appendCalls = σ.appendCalls.set i { set with phase := phase } →
      ∃ call, σ'.appendCalls[k]? = some call ∧ old.Continues call ∧
        (old.phase = .finished → call.phase = .finished) := by
    intro i set phase hget hopen hcalls
    rw [hcalls]
    by_cases hik : i = k
    · subst hik
      obtain rfl := Option.some.inj (hget.symm.trans hold)
      exact ⟨_, List.getElem?_set_self (List.getElem?_eq_some_iff.mp hget).1,
        ⟨phase, rfl⟩, fun hfinished ↦ absurd hfinished hopen⟩
    · exact ⟨old, (List.getElem?_set_ne hik).trans hold, .refl old, id⟩
  cases h.appendStep with
  | keep hsame => exact ⟨old, hsame ▸ hold, .refl old, id⟩
  | launch hcalls =>
      rw [hcalls, List.getElem?_append_left
        (List.getElem?_eq_some_iff.mp hold).1]
      exact ⟨old, hold, .refl old, id⟩
  | stopped _ hget hphase hcalls | executed _ hget hphase _ hcalls
  | resumed _ hget hphase hcalls =>
      exact hset hget (by simp [hphase]) hcalls

/-- The AppendEntries call number `k` was number `k` before, or it was made in
the last step. -/
theorem Transition.appendCall_before (h : Transition σ a σ') {k : ℕ}
    {call : AppendCall n Cmd} (hcall : σ'.appendCalls[k]? = some call) :
    (∃ old, σ.appendCalls[k]? = some old ∧ old.Continues call ∧
      (old.phase = .finished → call.phase = .finished)) ∨
    σ.appendCalls.length ≤ k ∧ Launched σ' call := by
  rcases lt_or_ge k σ.appendCalls.length with hlt | hge
  · obtain ⟨new, hnew, hcontinues, hfinished⟩ :=
      h.appendCall_kept (List.getElem?_eq_getElem hlt)
    obtain rfl := Option.some.inj (hnew.symm.trans hcall)
    exact Or.inl ⟨_, List.getElem?_eq_getElem hlt, hcontinues, hfinished⟩
  · have hlength : k < σ'.appendCalls.length :=
      (List.getElem?_eq_some_iff.mp hcall).1
    cases h.appendStep with
    | launch hcalls hnew =>
        rw [hcalls, List.getElem?_append_right hge] at hcall
        exact Or.inr ⟨hge, hnew call (List.mem_of_getElem? hcall)⟩
    | keep hcalls | stopped _ _ _ hcalls | executed _ _ _ _ hcalls
    | resumed _ _ _ hcalls =>
        simp only [hcalls, List.length_set] at hlength
        omega

theorem Transition.appendCall_origin (h : Transition σ a σ')
    {call : AppendCall n Cmd} (hcall : call ∈ σ'.appendCalls) :
    (∃ old ∈ σ.appendCalls, old.Continues call) ∨ Launched σ' call := by
  obtain ⟨k, hget⟩ := List.mem_iff_getElem?.mp hcall
  rcases h.appendCall_before hget with ⟨old, hold, hcontinues, _⟩ | ⟨_, hnew⟩
  · exact Or.inl ⟨old, List.mem_of_getElem? hold, hcontinues⟩
  · exact Or.inr hnew

/-- A reply that a request has was there before, or the request was executed in
the last step. -/
theorem Transition.replied_origin (h : Transition σ a σ')
    {call : AppendCall n Cmd} (hcall : call ∈ σ'.appendCalls)
    {reply : AppendEntriesReply} (hphase : call.phase = .replied reply) :
    call ∈ σ.appendCalls ∨ ∃ k old rf, a = .deliverAppend k ∧
      σ.appendCalls[k]? = some old ∧
      call = { old with phase := .replied reply } ∧
      (σ.server old.peer).rf.heartbeatHandler old.args = .done rf reply := by
  cases h.appendStep with
  | keep hsame => exact Or.inl (hsame ▸ hcall)
  | launch hcalls hnew =>
      rw [hcalls] at hcall
      rcases List.mem_append.mp hcall with hold | hmem
      · exact Or.inl hold
      · rw [(hnew call hmem).phase] at hphase
        cases hphase
  | executed haction hget _ hrun hcalls =>
      rw [hcalls] at hcall
      rcases List.mem_or_eq_of_mem_set hcall with hold | rfl
      · exact Or.inl hold
      · cases hphase
        exact Or.inr ⟨_, _, _, haction, hget, rfl, hrun⟩
  | stopped _ _ _ hcalls | resumed _ _ _ hcalls =>
      rw [hcalls] at hcall
      rcases List.mem_or_eq_of_mem_set hcall with hold | rfl
      · exact Or.inl hold
      · cases hphase

/-- A vote request is an old one in a possibly later phase, or was just made by
`ElectLauncher`. -/
theorem Transition.voteCall_origin (h : Transition σ a σ')
    {call : VoteCall n} (hcall : call ∈ σ'.voteCalls) :
    (∃ old ∈ σ.voteCalls, ∃ phase, call = { old with phase := phase }) ∨
      ∃ rf, a = .elect call.caller ∧
        call.incarnation = (σ.server call.caller).incarnation ∧
        (σ.server call.caller).rf.electLauncher = .done rf call.args := by
  cases h with
  | elect _ _ hrun =>
      rcases List.mem_append.mp hcall with hold | hnew
      · exact Or.inl ⟨call, hold, call.phase, rfl⟩
      · obtain ⟨peer, _, rfl⟩ := List.mem_map.mp hnew
        exact Or.inr ⟨_, rfl, rfl, hrun⟩
  | votePanic hget | vote hget | checkVote hget | countRefused hget
  | countGranted hget | promotePanic hget | promote hget
  | finishVote hget =>
      exact Or.inl (mem_set_phase
        (P := fun old call ↦ ∃ phase, call = { old with phase := phase })
        (fun c ↦ ⟨c.phase, rfl⟩) hget ⟨_, rfl⟩ hcall)
  | _ => exact Or.inl ⟨call, hcall, call.phase, rfl⟩

/-- A snapshot job that `HeartBeatLauncher` has just made describes its
server. -/
structure Prepared (σ : Cluster n Cmd) (s : Fin n) (job : SnapshotJob n) :
    Prop where
  leader : (σ.server s).rf.state = .leader
  peer_ne : job.peer ≠ (σ.server s).rf.me
  prepared : (σ.server s).rf.prepare job.peer = some (.snapshot job)

omit [Zero Cmd] in
theorem prepared_of_mem {s : Fin n} {rf : Raft n Cmd}
    {out : List (Outgoing n Cmd)} (hrf : (σ'.server s).rf = rf)
    (hstate : rf.state = .leader)
    (hout : out = (Raft.others rf.me).filterMap rf.prepare)
    {job : SnapshotJob n} (h : job ∈ jobsOf out) : Prepared σ' s job := by
  subst hout hrf
  obtain ⟨hpeer, hprepared⟩ := mem_jobsOf h
  exact ⟨hstate, hpeer, hprepared⟩

theorem Transition.job_origin (h : Transition σ a σ') {t : Fin n}
    {job : SnapshotJob n} (hjob : job ∈ (σ'.server t).jobs) :
    job ∈ (σ.server t).jobs ∨ Prepared σ' t job := by
  cases h with
  | @heartbeat s _ _ _ hstate hrun =>
      obtain ⟨rfl, hout⟩ := Raft.heartBeatLauncher_done hrun
      by_cases hts : t = s
      · subst hts
        simp only [launch_server, Function.update_self,
          List.mem_append] at hjob
        rcases hjob with hold | hnew
        · exact Or.inl hold
        · exact Or.inr (prepared_of_mem (by simp) hstate hout hnew)
      · exact Or.inl (by simpa [Function.update_of_ne hts] using hjob)
  | @promote _ call _ _ _ _ _ _ hrun =>
      obtain ⟨rfl, hout⟩ := Raft.heartBeatLauncher_done hrun
      by_cases hts : t = call.caller
      · subst hts
        simp only [record_server, setVotePhase_server, launch_server,
          Function.update_self, List.mem_append] at hjob
        rcases hjob with hold | hnew
        · exact Or.inl hold
        · exact Or.inr (prepared_of_mem (by simp) rfl hout hnew)
      · exact Or.inl (by simpa [Function.update_of_ne hts] using hjob)
  | @sendJob s =>
      by_cases hts : t = s
      · subst hts
        simp only [callSnap_server, setServer_server,
          Function.update_self] at hjob
        exact Or.inl (List.mem_of_mem_eraseIdx hjob)
      · exact Or.inl (by simpa [Function.update_of_ne hts] using hjob)
  | @restart s =>
      by_cases hts : t = s
      · subst hts
        simp [boot] at hjob
      · exact Or.inl (by simpa [Function.update_of_ne hts] using hjob)
  | countRefused => exact Or.inl hjob
  | _ =>
      left
      revert hjob
      simp only [stop_server, openElection_server, setVotePhase_server,
        record_server, setRf_server, setServer_server, setAppendPhase_server,
        setSnapPhase_server, callSnap_server, handOver_server,
        Function.update_apply]
      split
      · next heq =>
          subst heq
          exact id
      · exact id

/-- A snapshot request that was made in the last step: at once by
`SendHeartbeat`, or from a waiting job by the sending loop. -/
inductive SnapLaunched (σ : Cluster n Cmd) (a : Action Cmd n)
    (σ' : Cluster n Cmd) (call : SnapCall n) : Prop
  | atOnce {k : ℕ} {old : AppendCall n Cmd} (haction : a = .replyAppend k)
      (hold : σ.appendCalls[k]? = some old)
      (hcaller : old.caller = call.caller) (hpeer : old.peer = call.peer)
      (hterm : (σ'.server call.caller).rf.currentTerm = old.args.term)
      (hargs : call.args = (σ'.server call.caller).rf.snapshotArgs)
      (hnext : ∃ next,
        (σ'.server call.caller).rf.nextIndex[call.peer.val]? = some next ∧
          next ≤ (σ'.server call.caller).rf.lastIncludedIndex)
  | ofJob {k : ℕ} {job : SnapshotJob n} (haction : a = .sendJob call.caller k)
      (hget : (σ.server call.caller).jobs[k]? = some job)
      (hsame : (σ'.server call.caller).rf = (σ.server call.caller).rf)
      (hpeer : job.peer = call.peer)
      (hargs : call.args =
        { term := job.term
          leaderId := job.leaderId
          lastIncludedIndex := job.lastIncludedIndex
          lastIncludedTerm := job.lastIncludedTerm
          snapdata := (σ'.server call.caller).rf.snapshotData })

theorem Transition.snapCall_origin (h : Transition σ a σ')
    {call : SnapCall n} (hcall : call ∈ σ'.snapCalls) :
    (∃ old ∈ σ.snapCalls, old.Continues call) ∨
      SnapLaunched σ a σ' call := by
  cases h with
  | replyAppendSnap hget _ _ hrun =>
      rcases List.mem_append.mp hcall with hold | hnew
      · exact Or.inl ⟨call, hold, .refl call⟩
      · obtain rfl := List.mem_singleton.mp hnew
        obtain ⟨hargs, hterm, hnext⟩ := Raft.sendHeartbeat_some hrun
        exact Or.inr (.atOnce rfl hget rfl rfl (by simpa using hterm)
          (by simpa using hargs) (by simpa using hnext))
  | sendJob hjob =>
      rcases List.mem_append.mp hcall with hold | hnew
      · exact Or.inl ⟨call, hold, .refl call⟩
      · obtain rfl := List.mem_singleton.mp hnew
        exact Or.inr (.ofJob rfl hjob (by simp) rfl (by simp))
  | snapPanic hget | snapRefused hget | snap hget | replySnapPanic hget
  | replySnap hget =>
      exact Or.inl (mem_set_phase SnapCall.Continues.refl hget ⟨_, rfl⟩
        hcall)
  | @receive s k u =>
      left
      cases hu : u.call with
      | none =>
          simp only [handOver, hu] at hcall
          exact ⟨call, hcall, .refl call⟩
      | some j =>
          simp only [handOver, hu] at hcall
          obtain ⟨i, hi, rfl⟩ := List.mem_iff_getElem.mp hcall
          rw [List.getElem_modify]
          rw [List.length_modify] at hi
          split
          · exact ⟨_, List.getElem_mem hi, SnapCall.continues_unblock _⟩
          · exact ⟨_, List.getElem_mem hi, .refl _⟩
  | _ => exact Or.inl ⟨call, hcall, .refl call⟩

/-! ## Messages for the service -/

/-- A message that the last step has made for the service of server `s`. -/
inductive Produced (σ σ' : Cluster n Cmd) (s : Fin n) (msg : ApplyMsg Cmd) :
    Prop
  | apply {entry : LogEntry Cmd}
      (hcommit : (σ.server s).rf.commitIndex > (σ.server s).rf.lastApplied)
      (hentry : elemAt (σ.server s).rf.log ((σ.server s).rf.v2pIndex
        ((σ.server s).rf.lastApplied + 1)) = some entry)
      (hmsg : msg = .command entry.command ((σ.server s).rf.lastApplied + 1))
      (hrf : (σ'.server s).rf =
        { (σ.server s).rf with
          lastApplied := (σ.server s).rf.lastApplied + 1 })
  | install {k : ℕ} {call : SnapCall n} (log : List (LogEntry Cmd))
      (hcall : σ.snapCalls[k]? = some call) (hpeer : call.peer = s)
      (hrf : (σ'.server s).rf =
        ((σ.server s).rf.followInstaller call.args.term).installed
          call.args log)
      (hmsg : msg = .snapshot call.args.snapdata call.args.lastIncludedTerm
        call.args.lastIncludedIndex)

theorem Transition.unsent_origin (h : Transition σ a σ') {t : Fin n}
    {u : Unsent Cmd} (hu : u ∈ (σ'.server t).unsent) :
    u ∈ (σ.server t).unsent ∨ Produced σ σ' t u.msg := by
  cases h with
  | @snap k call _ _ _ hcall _ _ hrun =>
      by_cases htp : t = call.peer
      · subst htp
        simp only [record_server, setSnapPhase_server, setServer_server,
          Function.update_self, List.mem_append, List.mem_singleton] at hu
        rcases hu with hold | rfl
        · exact Or.inl hold
        · right
          rcases (σ.server call.peer).rf.installSnapshot_cases call.args with
            ⟨_, hcase⟩ | ⟨_, ⟨_, hcase⟩ | ⟨log, hlog, hcase⟩⟩
          all_goals
            rw [hcase] at hrun
            cases hrun
          exact .install log hcall rfl (by simp) rfl
      · exact Or.inl (by simpa [Function.update_of_ne htp] using hu)
  | @apply s _ _ _ hcommit _ hrun =>
      by_cases hts : t = s
      · subst hts
        simp only [setServer_server, Function.update_self, List.mem_append,
          List.mem_singleton] at hu
        rcases hu with hold | rfl
        · exact Or.inl hold
        · obtain ⟨entry, hentry, hmsg⟩ := Raft.applyGoroutine_done hrun
          have hrf := (σ.server t).rf.applyGoroutine_rf
          rw [hrun] at hrf
          exact Or.inr (.apply hcommit hentry hmsg (by simpa using hrf))
      · exact Or.inl (by simpa [Function.update_of_ne hts] using hu)
  | @receive s =>
      by_cases hts : t = s
      · subst hts
        simp only [handOver_server, Function.update_self] at hu
        exact Or.inl (List.mem_of_mem_eraseIdx hu)
      · exact Or.inl (by simpa [Function.update_of_ne hts] using hu)
  | @restart s =>
      by_cases hts : t = s
      · subst hts
        simp [boot] at hu
      · exact Or.inl (by simpa [Function.update_of_ne hts] using hu)
  | countRefused => exact Or.inl hu
  | _ =>
      left
      revert hu
      simp only [stop_server, openElection_server, setVotePhase_server,
        record_server, setRf_server, setServer_server, setAppendPhase_server,
        setSnapPhase_server, callSnap_server, launch_server,
        Function.update_apply]
      split
      · next heq =>
          subst heq
          exact id
      · exact id

/-- A message that the service has received was received before, or it was an
undelivered one and its delivery is recorded. -/
theorem Transition.applyCh_origin (h : Transition σ a σ') {t : Fin n}
    {msg : ApplyMsg Cmd} (hmsg : msg ∈ (σ'.server t).applyCh) :
    msg ∈ (σ.server t).applyCh ∨
      (∃ u ∈ (σ.server t).unsent, u.msg = msg) ∧
        ∃ incarnation, Event.applied t incarnation msg ∈ σ'.events := by
  cases h with
  | @receive s k u hunsent =>
      by_cases hts : t = s
      · subst hts
        simp only [handOver_server, Function.update_self, List.mem_append,
          List.mem_singleton] at hmsg
        rcases hmsg with hold | rfl
        · exact Or.inl hold
        · exact Or.inr ⟨⟨u, List.mem_of_getElem? hunsent, rfl⟩, _,
            List.mem_append_right _ (List.mem_singleton_self _)⟩
      · exact Or.inl (by simpa [Function.update_of_ne hts] using hmsg)
  | @restart s =>
      by_cases hts : t = s
      · subst hts
        simp [boot] at hmsg
      · exact Or.inl (by simpa [Function.update_of_ne hts] using hmsg)
  | countRefused => exact Or.inl hmsg
  | _ =>
      left
      revert hmsg
      simp only [stop_server, openElection_server, setVotePhase_server,
        record_server, setRf_server, setServer_server, setAppendPhase_server,
        setSnapPhase_server, callSnap_server, launch_server,
        Function.update_apply]
      split
      · next heq =>
          subst heq
          exact id
      · exact id

/-! ## The history -/

theorem Transition.events_grow (h : Transition σ a σ') :
    σ.events <+: σ'.events := by
  cases h with
  | elect | vote | promotePanic | promote | append | snap | start | snapshot
  | receive => exact List.prefix_append _ _
  | _ => exact List.prefix_rfl

/-- How the last step can have recorded a vote. -/
inductive VoteCause (σ : Cluster n Cmd) (g : Fin n) (T : ℕ) (c : Fin n) :
    Action Cmd n → Prop
  | own {rf : Raft n Cmd} {args : RequestVoteArgs n}
      (hrun : (σ.server g).rf.electLauncher = .done rf args)
      (hterm : T = args.term) (hself : c = g) :
      VoteCause σ g T c (.elect g)
  | granted {k : ℕ} {call : VoteCall n} {rf : Raft n Cmd}
      {reply : RequestVoteReply} (hcall : σ.voteCalls[k]? = some call)
      (hrun : (σ.server call.peer).rf.requestVoteHandler call.args =
        .done rf reply)
      (hgranted : reply.voteGranted = true) (hvoter : g = call.peer)
      (hterm : T = call.args.term) (hcandidate : c = call.args.candidateId) :
      VoteCause σ g T c (.deliverVote k)

theorem Transition.vote_cause (h : Transition σ a σ') {g c : Fin n} {T : ℕ}
    (hvoted : Event.voted g T c ∈ σ'.events) :
    Event.voted g T c ∈ σ.events ∨ VoteCause σ g T c a := by
  cases h with
  | elect _ _ hrun =>
      rcases List.mem_append.mp hvoted with hold | hnew
      · exact Or.inl hold
      · cases List.mem_singleton.mp hnew
        exact Or.inr (.own hrun rfl rfl)
  | vote hcall _ _ hrun =>
      rcases List.mem_append.mp hvoted with hold | hnew
      · exact Or.inl hold
      · split at hnew
        · next hgranted =>
            cases List.mem_singleton.mp hnew
            exact Or.inr (.granted hcall hrun hgranted rfl rfl rfl)
        · simp at hnew
  | promotePanic | promote | snap | snapshot | receive =>
      rcases List.mem_append.mp hvoted with hold | hnew
      · exact Or.inl hold
      · simp at hnew
  | append | start =>
      rcases List.mem_append.mp hvoted with hold | hnew
      · exact Or.inl hold
      · split at hnew <;> simp at hnew
  | _ => exact Or.inl hvoted

/-- A delivery that the last step has recorded was an undelivered message. -/
theorem Transition.applied_origin (h : Transition σ a σ') {s : Fin n}
    {incarnation : ℕ} {msg : ApplyMsg Cmd}
    (he : Event.applied s incarnation msg ∈ σ'.events) :
    Event.applied s incarnation msg ∈ σ.events ∨
      ∃ u ∈ (σ.server s).unsent, u.msg = msg := by
  cases h with
  | receive hunsent =>
      rw [handOver_events, List.mem_append, List.mem_singleton] at he
      rcases he with hold | hnew
      · exact Or.inl hold
      · cases hnew
        exact Or.inr ⟨_, List.mem_of_getElem? hunsent, rfl⟩
  | elect | promotePanic | promote | snap | snapshot =>
      rcases List.mem_append.mp he with hold | hnew
      · exact Or.inl hold
      · simp at hnew
  | vote | append | start =>
      rcases List.mem_append.mp he with hold | hnew
      · exact Or.inl hold
      · split at hnew <;> simp at hnew
  | _ => exact Or.inl he

/-- The command that a leader accepts is recorded. -/
theorem Transition.started_mem (h : Transition σ a σ') {s : Fin n}
    {command : Cmd} {index : ℤ}
    (hin : (σ.inputs a s).started command index) :
    ∃ term, Event.started s command index term ∈ σ'.events := by
  obtain ⟨rfl, hstate, rfl⟩ := hin
  cases h with
  | start =>
      rcases (σ.server s).rf.start_cases command with hno | ⟨_, hyes⟩
      · simp [Raft.start, hstate] at hno
      · rw [hyes]
        exact ⟨_, List.mem_append_right _ (List.mem_singleton_self _)⟩

/-- The history never forgets. -/
theorem event_mono {e : Event n Cmd} (he : e ∈ σ.events)
    (h : σ.step a = some σ') : e ∈ σ'.events :=
  (step_transition h).events_grow.subset he

end Cluster

end DistLabs
