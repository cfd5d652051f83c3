import DistLabs.Raft.Cluster

/-!
# What one step of the cluster can do

`Transition` lists the branches of every action with the conditions under
which they are taken, so that invariants are proved by cases on it and never
by unfolding the step function.
-/

namespace DistLabs

variable {n : ℕ} {Cmd : Type}

namespace Cluster

/-! ## Components of updated clusters -/

section Components

variable (σ : Cluster n Cmd) (s : Fin n) (srv : Server n Cmd)
  (rf : Raft n Cmd)

@[simp] theorem setServer_server :
    (σ.setServer s srv).server = Function.update σ.server s srv := rfl

@[simp] theorem setServer_events :
    (σ.setServer s srv).events = σ.events := rfl

@[simp] theorem setRf_server :
    (σ.setRf s rf).server =
      Function.update σ.server s { σ.server s with rf := rf } := rfl

@[simp] theorem setRf_events : (σ.setRf s rf).events = σ.events := rfl

@[simp] theorem stop_server :
    (σ.stop s rf).server = Function.update σ.server s
      { σ.server s with rf := rf, alive := false } := rfl

@[simp] theorem stop_events : (σ.stop s rf).events = σ.events := rfl

variable (k : ℕ) (vcall : VoteCall n) (vphase : VotePhase)
  (acall : AppendCall n Cmd) (aphase : CallPhase AppendEntriesReply)
  (scall : SnapCall n) (sphase : CallPhase SnapshotRelpay)

@[simp] theorem setVotePhase_server :
    (σ.setVotePhase k vcall vphase).server = σ.server := rfl

@[simp] theorem setVotePhase_events :
    (σ.setVotePhase k vcall vphase).events = σ.events := rfl

@[simp] theorem setAppendPhase_server :
    (σ.setAppendPhase k acall aphase).server = σ.server := rfl

@[simp] theorem setAppendPhase_events :
    (σ.setAppendPhase k acall aphase).events = σ.events := rfl

@[simp] theorem setSnapPhase_server :
    (σ.setSnapPhase k scall sphase).server = σ.server := rfl

@[simp] theorem setSnapPhase_events :
    (σ.setSnapPhase k scall sphase).events = σ.events := rfl

variable (events : List (Event n Cmd))

@[simp] theorem record_server : (σ.record events).server = σ.server := rfl

@[simp] theorem record_events :
    (σ.record events).events = σ.events ++ events := rfl

variable (out : List (Outgoing n Cmd))

@[simp] theorem launch_server :
    (σ.launch s rf out).server = Function.update σ.server s
      { σ.server s with
        rf := rf
        jobs := (σ.server s).jobs ++ jobsOf out } := rfl

@[simp] theorem launch_events : (σ.launch s rf out).events = σ.events := rfl

variable (vargs : RequestVoteArgs n)

@[simp] theorem openElection_server :
    (σ.openElection s rf vargs).server = Function.update σ.server s
      { σ.server s with
        rf := rf
        elections := (σ.server s).elections ++
          [{ term := vargs.term, vote := 1 }] } := rfl

@[simp] theorem openElection_events :
    (σ.openElection s rf vargs).events =
      σ.events ++ [.voted s vargs.term s] := rfl

variable (incarnation : ℕ) (peer : Fin n) (sargs : SnapshotArgs n)

@[simp] theorem callSnap_server :
    (σ.callSnap s incarnation peer sargs).server = σ.server := rfl

@[simp] theorem callSnap_events :
    (σ.callSnap s incarnation peer sargs).events = σ.events := rfl

variable (u : Unsent Cmd)

@[simp] theorem handOver_server :
    (σ.handOver s k u).server = Function.update σ.server s
      { σ.server s with
        unsent := (σ.server s).unsent.eraseIdx k
        applyCh := (σ.server s).applyCh ++ [u.msg] } := rfl

@[simp] theorem handOver_events :
    (σ.handOver s k u).events =
      σ.events ++ [.applied s (σ.server s).incarnation u.msg] := rfl

end Components

/-! ## The branches of a step -/

/-- The branches of `step`, each with its conditions. -/
inductive Transition [Zero Cmd] (σ : Cluster n Cmd) :
    Action Cmd n → Cluster n Cmd → Prop
  | electPanic {s rf} (halive : (σ.server s).alive)
      (hstate : (σ.server s).rf.state = .follower)
      (hrun : (σ.server s).rf.electLauncher = .panic rf) :
      Transition σ (.elect s) (σ.stop s rf)
  | elect {s rf args} (halive : (σ.server s).alive)
      (hstate : (σ.server s).rf.state = .follower)
      (hrun : (σ.server s).rf.electLauncher = .done rf args) :
      Transition σ (.elect s) (σ.openElection s rf args)
  | heartbeatPanic {s rf} (halive : (σ.server s).alive)
      (hstate : (σ.server s).rf.state = .leader)
      (hrun : (σ.server s).rf.heartBeatLauncher = .panic rf) :
      Transition σ (.heartbeat s) (σ.stop s rf)
  | heartbeat {s rf out} (halive : (σ.server s).alive)
      (hstate : (σ.server s).rf.state = .leader)
      (hrun : (σ.server s).rf.heartBeatLauncher = .done rf out) :
      Transition σ (.heartbeat s) (σ.launch s rf out)
  | votePanic {k call rf} (hcall : σ.voteCalls[k]? = some call)
      (hphase : call.phase = .sent) (halive : (σ.server call.peer).alive)
      (hrun : (σ.server call.peer).rf.requestVoteHandler call.args =
        .panic rf) :
      Transition σ (.deliverVote k)
        ((σ.stop call.peer rf).setVotePhase k call .finished)
  | vote {k call rf reply} (hcall : σ.voteCalls[k]? = some call)
      (hphase : call.phase = .sent) (halive : (σ.server call.peer).alive)
      (hrun : (σ.server call.peer).rf.requestVoteHandler call.args =
        .done rf reply) :
      Transition σ (.deliverVote k)
        (((σ.setRf call.peer rf).setVotePhase k call (.replied reply)).record
          (if reply.voteGranted then
            [.voted call.peer call.args.term call.args.candidateId]
          else []))
  | checkVote {k call reply} (hcall : σ.voteCalls[k]? = some call)
      (hphase : call.phase = .replied reply)
      (hresumes : σ.Resumes call.caller call.incarnation) :
      Transition σ (.checkVote k)
        ((σ.setRf call.caller
          ((σ.server call.caller).rf.checkVoteReply call.args).1).setVotePhase
            k call
            (if ((σ.server call.caller).rf.checkVoteReply call.args).2 then
              .checked reply
            else .finished))
  | countRefused {k call reply} (hcall : σ.voteCalls[k]? = some call)
      (hphase : call.phase = .checked reply)
      (hresumes : σ.Resumes call.caller call.incarnation)
      (hrefused : reply.voteGranted = false) :
      Transition σ (.countVote k) (σ.setVotePhase k call (.counted reply))
  | countGranted {k call reply election}
      (hcall : σ.voteCalls[k]? = some call)
      (hphase : call.phase = .checked reply)
      (hresumes : σ.Resumes call.caller call.incarnation)
      (hgranted : reply.voteGranted = true)
      (helection :
        (σ.server call.caller).elections[call.election]? = some election) :
      Transition σ (.countVote k)
        ((σ.setServer call.caller
          { σ.server call.caller with
            elections := (σ.server call.caller).elections.set call.election
              { election with vote := election.vote + 1 } }).setVotePhase
          k call
          (if election.vote + 1 > n / 2 ∧
              (σ.server call.caller).rf.votedFor =
                some (σ.server call.caller).rf.me then
            .won reply
          else .counted reply))
  | promotePanic {k call reply rf} (hcall : σ.voteCalls[k]? = some call)
      (hphase : call.phase = .won reply)
      (hresumes : σ.Resumes call.caller call.incarnation)
      (hrun : (σ.server call.caller).rf.becomeLeader.heartBeatLauncher =
        .panic rf) :
      Transition σ (.promote k)
        (((σ.stop call.caller rf).setVotePhase k call .finished).record
          [.elected call.caller rf.currentTerm])
  | promote {k call reply rf out} (hcall : σ.voteCalls[k]? = some call)
      (hphase : call.phase = .won reply)
      (hresumes : σ.Resumes call.caller call.incarnation)
      (hrun : (σ.server call.caller).rf.becomeLeader.heartBeatLauncher =
        .done rf out) :
      Transition σ (.promote k)
        (((σ.launch call.caller rf out).setVotePhase k call
          (.counted reply)).record [.elected call.caller rf.currentTerm])
  | finishVote {k call reply} (hcall : σ.voteCalls[k]? = some call)
      (hphase : call.phase = .counted reply)
      (hresumes : σ.Resumes call.caller call.incarnation) :
      Transition σ (.finishVote k)
        ((σ.setRf call.caller
          ((σ.server call.caller).rf.finishVoteReply reply)).setVotePhase
            k call .finished)
  | appendPanic {k call rf} (hcall : σ.appendCalls[k]? = some call)
      (hphase : call.phase = .sent) (halive : (σ.server call.peer).alive)
      (hrun : (σ.server call.peer).rf.heartbeatHandler call.args =
        .panic rf) :
      Transition σ (.deliverAppend k)
        ((σ.stop call.peer rf).setAppendPhase k call .finished)
  | append {k call rf reply} (hcall : σ.appendCalls[k]? = some call)
      (hphase : call.phase = .sent) (halive : (σ.server call.peer).alive)
      (hrun : (σ.server call.peer).rf.heartbeatHandler call.args =
        .done rf reply) :
      Transition σ (.deliverAppend k)
        (((σ.setRf call.peer rf).setAppendPhase k call
          (.replied reply)).record
            (if reply.success then
              [.acked call.peer call.args.term call.args.entries.length]
            else []))
  | replyAppendPanic {k call reply rf}
      (hcall : σ.appendCalls[k]? = some call)
      (hphase : call.phase = .replied reply)
      (hresumes : σ.Resumes call.caller call.incarnation)
      (hrun : (σ.server call.caller).rf.sendHeartbeat call.peer call.args
        reply = .panic rf) :
      Transition σ (.replyAppend k)
        ((σ.stop call.caller rf).setAppendPhase k call .finished)
  | replyAppend {k call reply rf} (hcall : σ.appendCalls[k]? = some call)
      (hphase : call.phase = .replied reply)
      (hresumes : σ.Resumes call.caller call.incarnation)
      (hrun : (σ.server call.caller).rf.sendHeartbeat call.peer call.args
        reply = .done rf none) :
      Transition σ (.replyAppend k)
        ((σ.setRf call.caller rf).setAppendPhase k call .finished)
  | replyAppendSnap {k call reply rf args}
      (hcall : σ.appendCalls[k]? = some call)
      (hphase : call.phase = .replied reply)
      (hresumes : σ.Resumes call.caller call.incarnation)
      (hrun : (σ.server call.caller).rf.sendHeartbeat call.peer call.args
        reply = .done rf (some args)) :
      Transition σ (.replyAppend k)
        (((σ.setRf call.caller rf).setAppendPhase k call .finished).callSnap
          call.caller call.incarnation call.peer args)
  | snapPanic {k call rf} (hcall : σ.snapCalls[k]? = some call)
      (hphase : call.phase = .sent) (halive : (σ.server call.peer).alive)
      (hrun : (σ.server call.peer).rf.installSnapshot call.args =
        .panic rf) :
      Transition σ (.deliverSnap k)
        ((σ.stop call.peer rf).setSnapPhase k call .finished)
  | snapRefused {k call rf reply} (hcall : σ.snapCalls[k]? = some call)
      (hphase : call.phase = .sent) (halive : (σ.server call.peer).alive)
      (hrun : (σ.server call.peer).rf.installSnapshot call.args =
        .done rf (reply, none)) :
      Transition σ (.deliverSnap k)
        ((σ.setRf call.peer rf).setSnapPhase k call (.replied reply))
  | snap {k call rf reply msg} (hcall : σ.snapCalls[k]? = some call)
      (hphase : call.phase = .sent) (halive : (σ.server call.peer).alive)
      (hrun : (σ.server call.peer).rf.installSnapshot call.args =
        .done rf (reply, some msg)) :
      Transition σ (.deliverSnap k)
        (((σ.setServer call.peer
          { σ.server call.peer with
            rf := rf
            unsent := (σ.server call.peer).unsent ++
              [⟨msg, some k⟩] }).setSnapPhase k call
                (.blocked reply)).record
                  [.installed call.peer call.args.term])
  | replySnapPanic {k call reply rf} (hcall : σ.snapCalls[k]? = some call)
      (hphase : call.phase = .replied reply)
      (hresumes : σ.Resumes call.caller call.incarnation)
      (hrun : (σ.server call.caller).rf.sendSnapshot call.peer call.args
        reply = .panic rf) :
      Transition σ (.replySnap k)
        ((σ.stop call.caller rf).setSnapPhase k call .finished)
  | replySnap {k call reply rf} (hcall : σ.snapCalls[k]? = some call)
      (hphase : call.phase = .replied reply)
      (hresumes : σ.Resumes call.caller call.incarnation)
      (hrun : (σ.server call.caller).rf.sendSnapshot call.peer call.args
        reply = .done rf ()) :
      Transition σ (.replySnap k)
        ((σ.setRf call.caller rf).setSnapPhase k call .finished)
  | sendJob {s k job} (hjob : (σ.server s).jobs[k]? = some job)
      (halive : (σ.server s).alive) :
      Transition σ (.sendJob s k)
        ((σ.setServer s
          { σ.server s with
            jobs := (σ.server s).jobs.eraseIdx k }).callSnap
          s (σ.server s).incarnation job.peer
          { term := job.term
            leaderId := job.leaderId
            lastIncludedIndex := job.lastIncludedIndex
            lastIncludedTerm := job.lastIncludedTerm
            snapdata := (σ.server s).rf.snapshotData })
  | start {s command} (halive : (σ.server s).alive) :
      Transition σ (.start s command)
        ((σ.setRf s ((σ.server s).rf.start command).1).record
          (if ((σ.server s).rf.start command).2.2.2 then
            [.started s command ((σ.server s).rf.start command).2.1
              ((σ.server s).rf.start command).2.2.1]
          else []))
  | snapshotPanic {s index data rf} (halive : (σ.server s).alive)
      (hrun : (σ.server s).rf.snapshot index data = .panic rf) :
      Transition σ (.snapshot s index data) (σ.stop s rf)
  | snapshot {s index data rf} (halive : (σ.server s).alive)
      (hrun : (σ.server s).rf.snapshot index data = .done rf ()) :
      Transition σ (.snapshot s index data)
        ((σ.setRf s rf).record [.snapshotted s index data])
  | applyPanic {s rf} (halive : (σ.server s).alive)
      (hcommit : (σ.server s).rf.commitIndex > (σ.server s).rf.lastApplied)
      (hfree : (σ.server s).ApplierFree)
      (hrun : (σ.server s).rf.applyGoroutine = .panic rf) :
      Transition σ (.apply s) (σ.stop s rf)
  | apply {s rf msg} (halive : (σ.server s).alive)
      (hcommit : (σ.server s).rf.commitIndex > (σ.server s).rf.lastApplied)
      (hfree : (σ.server s).ApplierFree)
      (hrun : (σ.server s).rf.applyGoroutine = .done rf msg) :
      Transition σ (.apply s)
        (σ.setServer s
          { σ.server s with
            rf := rf
            unsent := (σ.server s).unsent ++ [⟨msg, none⟩] })
  | receive {s k u} (hunsent : (σ.server s).unsent[k]? = some u)
      (halive : (σ.server s).alive) :
      Transition σ (.receive s k) (σ.handOver s k u)
  | restart {s} :
      Transition σ (.restart s)
        (σ.setServer s
          (boot s ((σ.server s).incarnation + 1)
            (σ.server s).rf.persister))

/-- Every step takes one of the listed branches. -/
theorem step_transition [Zero Cmd] {σ σ' : Cluster n Cmd}
    {a : Action Cmd n} (h : σ.step a = some σ') : Transition σ a σ' := by
  cases a with
  | elect s =>
      simp only [step, Cluster.elect] at h
      split at h
      · next hif =>
          split at h <;> obtain rfl := Option.some.inj h
          · next hrun => exact .electPanic hif.1 hif.2 hrun
          · next hrun => exact .elect hif.1 hif.2 hrun
      · cases h
  | heartbeat s =>
      simp only [step, Cluster.heartbeat] at h
      split at h
      · next hif =>
          split at h <;> obtain rfl := Option.some.inj h
          · next hrun => exact .heartbeatPanic hif.1 hif.2 hrun
          · next hrun => exact .heartbeat hif.1 hif.2 hrun
      · cases h
  | deliverVote k =>
      simp only [step, Cluster.deliverVote] at h
      split at h
      · cases h
      · next hcall =>
          split at h
          · next hif =>
              split at h <;> obtain rfl := Option.some.inj h
              · next hrun => exact .votePanic hcall hif.1 hif.2 hrun
              · next hrun => exact .vote hcall hif.1 hif.2 hrun
          · cases h
  | checkVote k =>
      simp only [step, Cluster.checkVote] at h
      split at h
      · cases h
      · next hcall =>
          split at h
          · next hphase =>
              split at h
              · next hif =>
                  obtain rfl := Option.some.inj h
                  exact .checkVote hcall hphase hif
              · cases h
          · cases h
  | countVote k =>
      simp only [step, Cluster.countVote] at h
      split at h
      · cases h
      · next hcall =>
          split at h
          · next hphase =>
              split at h
              · next hif =>
                  split at h
                  · next hgranted =>
                      split at h
                      · cases h
                      · next helection =>
                          obtain rfl := Option.some.inj h
                          exact .countGranted hcall hphase hif hgranted
                            helection
                  · next hrefused =>
                      obtain rfl := Option.some.inj h
                      exact .countRefused hcall hphase hif
                        (by simpa using hrefused)
              · cases h
          · cases h
  | promote k =>
      simp only [step, Cluster.promote] at h
      split at h
      · cases h
      · next hcall =>
          split at h
          · next hphase =>
              split at h
              · next hif =>
                  split at h <;> obtain rfl := Option.some.inj h
                  · next hrun => exact .promotePanic hcall hphase hif hrun
                  · next hrun => exact .promote hcall hphase hif hrun
              · cases h
          · cases h
  | finishVote k =>
      simp only [step, Cluster.finishVote] at h
      split at h
      · cases h
      · next hcall =>
          split at h
          · next hphase =>
              split at h
              · next hif =>
                  obtain rfl := Option.some.inj h
                  exact .finishVote hcall hphase hif
              · cases h
          · cases h
  | deliverAppend k =>
      simp only [step, Cluster.deliverAppend] at h
      split at h
      · cases h
      · next hcall =>
          split at h
          · next hif =>
              split at h <;> obtain rfl := Option.some.inj h
              · next hrun => exact .appendPanic hcall hif.1 hif.2 hrun
              · next hrun => exact .append hcall hif.1 hif.2 hrun
          · cases h
  | replyAppend k =>
      simp only [step, Cluster.replyAppend] at h
      split at h
      · cases h
      · next hcall =>
          split at h
          · next hphase =>
              split at h
              · next hif =>
                  split at h <;> obtain rfl := Option.some.inj h
                  · next hrun => exact .replyAppendPanic hcall hphase hif hrun
                  · next hrun => exact .replyAppend hcall hphase hif hrun
                  · next hrun => exact .replyAppendSnap hcall hphase hif hrun
              · cases h
          · cases h
  | deliverSnap k =>
      simp only [step, Cluster.deliverSnap] at h
      split at h
      · cases h
      · next hcall =>
          split at h
          · next hif =>
              split at h <;> obtain rfl := Option.some.inj h
              · next hrun => exact .snapPanic hcall hif.1 hif.2 hrun
              · next hrun => exact .snapRefused hcall hif.1 hif.2 hrun
              · next hrun => exact .snap hcall hif.1 hif.2 hrun
          · cases h
  | replySnap k =>
      simp only [step, Cluster.replySnap] at h
      split at h
      · cases h
      · next hcall =>
          split at h
          · next hphase =>
              split at h
              · next hif =>
                  split at h <;> obtain rfl := Option.some.inj h
                  · next hrun => exact .replySnapPanic hcall hphase hif hrun
                  · next hrun => exact .replySnap hcall hphase hif hrun
              · cases h
          · cases h
  | sendJob s k =>
      simp only [step, Cluster.sendJob] at h
      split at h
      · cases h
      · next hjob =>
          split at h
          · next halive =>
              obtain rfl := Option.some.inj h
              exact .sendJob hjob halive
          · cases h
  | start s command =>
      simp only [step, Cluster.start] at h
      split at h
      · next halive =>
          obtain rfl := Option.some.inj h
          exact .start halive
      · cases h
  | snapshot s index data =>
      simp only [step, Cluster.snapshot] at h
      split at h
      · next halive =>
          split at h <;> obtain rfl := Option.some.inj h
          · next hrun => exact .snapshotPanic halive hrun
          · next hrun => exact .snapshot halive hrun
      · cases h
  | apply s =>
      simp only [step, Cluster.apply] at h
      split at h
      · next hif =>
          split at h <;> obtain rfl := Option.some.inj h
          · next hrun => exact .applyPanic hif.1 hif.2.1 hif.2.2 hrun
          · next hrun => exact .apply hif.1 hif.2.1 hif.2.2 hrun
      · cases h
  | receive s k =>
      simp only [step, Cluster.receive] at h
      split at h
      · cases h
      · next hunsent =>
          split at h
          · next halive =>
              obtain rfl := Option.some.inj h
              exact .receive hunsent halive
          · cases h
  | restart s =>
      obtain rfl := Option.some.inj h
      exact .restart

/-- A step changes at most one server. -/
theorem Transition.focus [Zero Cmd] {σ σ' : Cluster n Cmd} {a : Action Cmd n}
    (h : Transition σ a σ') :
    ∃ s, ∀ t, t ≠ s → σ'.server t = σ.server t := by
  cases h with
  | @countRefused k call => exact ⟨call.caller, fun _ _ ↦ rfl⟩
  | _ => exact ⟨_, fun t ht ↦ Function.update_of_ne ht _ _⟩

/-- A stopped server does nothing until it is restarted. -/
theorem Transition.stopped [Zero Cmd] {σ σ' : Cluster n Cmd}
    {a : Action Cmd n} (h : Transition σ a σ') {t : Fin n}
    (hstopped : ¬ (σ.server t).alive) :
    σ'.server t = σ.server t ∨ a = .restart t := by
  have hother : ∀ {s : Fin n} (srv : Server n Cmd), (σ.server s).alive →
      Function.update σ.server s srv t = σ.server t := by
    intro s srv halive
    refine Function.update_of_ne ?_ _ _
    rintro rfl
    exact hstopped halive
  cases h with
  | countRefused => exact Or.inl rfl
  | @restart s =>
      by_cases hts : t = s
      · exact Or.inr (by rw [hts])
      · exact Or.inl (Function.update_of_ne hts _ _)
  | electPanic halive | elect halive | heartbeatPanic halive
  | heartbeat halive | start halive | snapshotPanic halive
  | snapshot halive | applyPanic halive | apply halive =>
      exact Or.inl (hother _ halive)
  | votePanic _ _ halive | vote _ _ halive | appendPanic _ _ halive
  | append _ _ halive | snapPanic _ _ halive | snapRefused _ _ halive
  | snap _ _ halive | sendJob _ halive | receive _ halive =>
      exact Or.inl (hother _ halive)
  | checkVote _ _ hresumes | countGranted _ _ hresumes
  | promotePanic _ _ hresumes | promote _ _ hresumes
  | finishVote _ _ hresumes | replyAppendPanic _ _ hresumes
  | replyAppend _ _ hresumes | replyAppendSnap _ _ hresumes
  | replySnapPanic _ _ hresumes | replySnap _ _ hresumes =>
      exact Or.inl (hother _ hresumes.1)

end Cluster

end DistLabs
