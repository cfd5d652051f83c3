import DistLabs.Raft.Entries
import DistLabs.Raft.Retention

/-!
# What has become of the requests of a leadership

A leader hears of an accepted request only through its reply.  As long as the
accepted requests are recorded in order, refusals are looked at only before the
follower has accepted anything in the term, and the reply to a snapshot only
while the leader still waits for it, every entry that a follower holds of the
leader's term lies below its next index, or a reply is under way that will take
it there.
-/

namespace DistLabs

open Consensus

variable {n : ℕ} {Cmd : Type}

/-- Server `f` acknowledges an AppendEntries request of term `T`. -/
def Event.Acks (f : Fin n) (T : ℕ) : Event n Cmd → Prop
  | .acked g U _ => g = f ∧ U = T
  | _ => False

instance (f : Fin n) (T : ℕ) (e : Event n Cmd) : Decidable (e.Acks f T) := by
  cases e <;> dsimp only [Event.Acks] <;> infer_instance

theorem Event.Acks.eq {f : Fin n} {T : ℕ} {e : Event n Cmd}
    (h : e.Acks f T) : ∃ m, e = .acked f T m := by
  cases e with
  | acked g U m =>
      obtain ⟨rfl, rfl⟩ := h
      exact ⟨m, rfl⟩
  | _ => exact h.elim

namespace Cluster

/-- Server `f` has accepted an AppendEntries request of term `T`. -/
def Accepted (σ : Cluster n Cmd) (f : Fin n) (T : ℕ) : Prop :=
  ∃ e ∈ σ.events, e.Acks f T

instance (σ : Cluster n Cmd) (f : Fin n) (T : ℕ) :
    Decidable (σ.Accepted f T) :=
  inferInstanceAs (Decidable (∃ e ∈ σ.events, _))

/-- A leader looks at a refusal of its term only while the follower has accepted
nothing in that term, and not if the refusal names the term of the follower's
sentinel. -/
def RefusalsFresh (σ : Cluster n Cmd) : Action Cmd n → Prop
  | .replyAppend k => ∀ call ∈ σ.appendCalls[k]?,
      (σ.server call.caller).rf.currentTerm = call.args.term →
      ∀ reply ∈ call.phase.reply, reply.success = false →
        reply.term ≤ call.args.term →
        ¬ σ.Accepted call.peer call.args.term ∧
          reply.xTerm ≠ (σ.server call.peer).rf.lastIncludedTerm
  | _ => True

/-- A leader looks at the reply to a snapshot of its term only while the next
index of the follower has not passed its own sentinel. -/
def AnswersFresh (σ : Cluster n Cmd) : Action Cmd n → Prop
  | .replySnap k => ∀ call ∈ σ.snapCalls[k]?,
      (σ.server call.caller).rf.currentTerm = call.args.term →
      ∀ next ∈ (σ.server call.caller).rf.nextIndex[call.peer.val]?,
        next ≤ (σ.server call.caller).rf.lastIncludedIndex
  | _ => True

instance (σ : Cluster n Cmd) (a : Action Cmd n) :
    Decidable (σ.RefusalsFresh a) := by
  induction a using Action.casesOn <;> dsimp only [RefusalsFresh] <;>
    infer_instance

instance (σ : Cluster n Cmd) (a : Action Cmd n) :
    Decidable (σ.AnswersFresh a) := by
  induction a using Action.casesOn <;> dsimp only [AnswersFresh] <;>
    infer_instance

/-- Leaders record accepted requests in the order of sending, and look only at
fresh refusals and snapshot replies. -/
structure RepliesInOrder (σ : Cluster n Cmd) (a : Action Cmd n) : Prop where
  records : ∀ s, RecordsInOrder s σ a
  refusals : σ.RefusalsFresh a
  answers : σ.AnswersFresh a

instance (σ : Cluster n Cmd) (a : Action Cmd n) :
    Decidable (σ.RepliesInOrder a) :=
  decidable_of_iff ((∀ s, RecordsInOrder s σ a) ∧ σ.RefusalsFresh a ∧
    σ.AnswersFresh a) ⟨fun ⟨h, h', h''⟩ ↦ ⟨h, h', h''⟩,
      fun ⟨h, h', h''⟩ ↦ ⟨h, h', h''⟩⟩

variable [Zero Cmd] {σ σ' : Cluster n Cmd} {a : Action Cmd n}
  {W : LogWorld n Cmd}

theorem Accepted.mono (htrans : Transition σ a σ') {f : Fin n} {T : ℕ}
    (h : σ.Accepted f T) : σ'.Accepted f T := by
  obtain ⟨e, he, hacks⟩ := h
  exact ⟨e, htrans.events_grow.subset he, hacks⟩

/-! ## What careful runs provide -/

/-- The facts about the states of careful runs that are used together below. -/
structure Sound (σ : Cluster n Cmd) : Prop where
  secure : ∃ W, Secure σ W
  unique : ElectedUnique σ
  kept : Bookkept σ
  indexed : Indexed σ
  reaching : Reaching σ
  saves : ∀ s, (σ.server s).rf.SavesBody
  fenced : Fenced σ
  leaders : LeadersElected σ

theorem sound_of_run {ok : Cluster n Cmd → Action Cmd n → Prop}
    (hok : ∀ σ a, ok σ a → σ.SnapshotsApplied a ∧ σ.Careful a)
    {visited : List (Cluster n Cmd)} (hrun : Run step ok init visited σ) :
    Sound σ := by
  have hterms : ∀ σ a, ok σ a → σ.PromotesInTerm a :=
    fun σ a hallowed ↦ (hok σ a hallowed).2.1
  have hunique := electedUnique_of_run hterms hrun
  exact ⟨exists_secure hok hrun, hunique, bookkept_of_run hrun hunique,
    indexed_of_run hrun, reaching_of_run hterms hrun, savesBody_of_run hrun,
    fenced_of_run hrun, leadersElected_of_run hrun⟩

/-- Server `s` was elected in the term that it is in. -/
def Reigns (σ : Cluster n Cmd) (s : Fin n) : Prop :=
  Event.elected s (σ.server s).rf.currentTerm ∈ σ.events

namespace Sound

theorem ordered (h : Sound σ) : Ordered σ := by
  obtain ⟨W, hsecure⟩ := h.secure
  exact hsecure.sim.ordered

/-- No server is in a term before one in which it was elected. -/
theorem elected_le (h : Sound σ) {s : Fin n} {T : ℕ}
    (helected : Event.elected s T ∈ σ.events) :
    T ≤ (σ.server s).rf.currentTerm := by
  obtain ⟨W, hsecure⟩ := h.secure
  exact hsecure.leads_le (hsecure.sim.leads s T helected)

/-- Requests come from elected servers. -/
theorem call_elected (h : Sound σ) {call : AppendCall n Cmd}
    (hcall : call ∈ σ.appendCalls) :
    Event.elected call.caller call.args.term ∈ σ.events := by
  obtain ⟨W, hsecure⟩ := h.secure
  exact hsecure.sim.elected _ _ (hsecure.sim.appends call hcall).leads

/-- A server that holds an entry of a term has it from a leader of the term. -/
theorem holds_elected (h : Sound σ) {f : Fin n} {p : ℤ} {T : ℕ}
    (hholds : (σ.server f).rf.Holds p T) :
    ∃ s, Event.elected s T ∈ σ.events := by
  obtain ⟨W, hsecure⟩ := h.secure
  obtain ⟨hlow, entry, he, rfl⟩ := hholds
  have hnonneg := (hsecure.sim.mirrors f).memory.nonneg
  rw [hsecure.sim.entry hlow] at he
  have hlt := (List.getElem?_eq_some_iff.mp he).1
  have hmade := hsecure.sim.inv.tree.closed (hsecure.sim.inv.logMade f)
    (List.take_prefix p.toNat (W.log f))
  have hlen : ((W.log f).take p.toNat).length = p.toNat := by
    rw [List.length_take]
    omega
  obtain ⟨s, A, hleads, _⟩ := hsecure.safe.ownAcked hmade (by omega)
  have hterm : lastTerm entryTerm ((W.log f).take p.toNat) = entry.logTerm := by
    rw [lastTerm_take _ (by omega), ← Nat.sub_add_cancel (n := p.toNat) (m := 1)
      (by omega)]
    exact termAt_succ _ he
  exact ⟨s, hterm ▸ hsecure.sim.elected _ _ hleads⟩

end Sound

/-! ## Reigns -/

/-- A server that is not promoted in the step has been elected before, in the
term that it was in. -/
theorem Reigns.before {s : Fin n} (h : Reigns σ' s) (hsound : Sound σ)
    (htrans : Transition σ a σ')
    (hinc : (σ'.server s).incarnation = (σ.server s).incarnation)
    (hlost : ∀ args T, ¬ (σ.inputs a s).won args T) :
    Reigns σ s ∧
      (σ'.server s).rf.currentTerm = (σ.server s).rf.currentTerm := by
  rcases htrans.elected_origin h with hold | ⟨args, hin⟩
  · have hle := hsound.elected_le hold
    have hge := htrans.currentTerm_le hinc
    have heq := le_antisymm hle hge
    rw [heq] at hold
    exact ⟨hold, heq⟩
  · exact absurd hin (hlost _ _)

/-- If someone was elected in the term before the step, it was the server that
reigns after it. -/
theorem Reigns.of_elected {s : Fin n} (h : Reigns σ' s) (hsound' : Sound σ')
    (htrans : Transition σ a σ')
    (hterm : (σ'.server s).rf.currentTerm = (σ.server s).rf.currentTerm)
    (helected : ∃ t, Event.elected t (σ.server s).rf.currentTerm ∈ σ.events) :
    Reigns σ s := by
  obtain ⟨t, ht⟩ := helected
  unfold Reigns at h
  rw [hterm] at h
  obtain rfl := hsound'.unique t s _ (htrans.events_grow.subset ht) h
  exact ht

/-- What a server holds that stays in the term in which it was elected, it has
held before or has started itself. -/
theorem Reigns.holds {s : Fin n} (h : Reigns σ s) (hsound : Sound σ)
    (htrans : Transition σ a σ')
    (hterm : (σ'.server s).rf.currentTerm = (σ.server s).rf.currentTerm)
    {q : ℤ} {U : ℕ} (hholds : (σ'.server s).rf.Holds q U) :
    (σ.server s).rf.Holds q U ∨ U = (σ.server s).rf.currentTerm := by
  rcases htrans.holds_origin (hsound.ordered.servers s) (hsound.saves s)
      hholds with hold | ⟨_, hown⟩ | ⟨k, call, haccepts, _⟩
  · exact Or.inl hold
  · exact Or.inr hown.symm
  · obtain ⟨W, hsecure⟩ := hsound.secure
    have hne := hsecure.sim.append_term_ne (hsecure.sim.leads _ _ h)
      haccepts.input
    exact absurd (haccepts.term.symm.trans hterm) hne

/-! ## Next indices -/

/-- How a step can have left `v` as the next index of `j` at server `s`. -/
inductive NextChange (σ : Cluster n Cmd) (a : Action Cmd n) (s j : Fin n)
    (v : ℤ) (rf : Raft n Cmd) : Prop
  | keep (hold : (σ.server s).rf.nextIndex[j.val]? = some v)
  | filled {args : RequestVoteArgs n} {T : ℕ} (hin : (σ.inputs a s).won args T)
      (hv : v = (σ.server s).rf.logLength)
  | accepted {k : ℕ} {call : AppendCall n Cmd} {reply : AppendEntriesReply}
      (hresumed : Resumed σ a s k call reply) (hsuccess : reply.success = true)
      (hpeer : call.peer = j) (hv : v = call.args.last + 1)
  | refused {k : ℕ} {call : AppendCall n Cmd} {reply : AppendEntriesReply}
      (hresumed : Resumed σ a s k call reply) (hfail : reply.success = false)
      (hreply : reply.term ≤ call.args.term) (hpeer : call.peer = j)
      (hv : v = (σ.server s).rf.backupIndex reply)
  | installed {k : ℕ} {call : SnapCall n} {reply : SnapshotRelpay}
      (hresumed : SnapResumed σ a s k call reply)
      (hreply : reply.term ≤ rf.currentTerm) (hpeer : call.peer = j)
      (hv : v = (σ.server s).rf.lastIncludedIndex + 1)

theorem Transition.nextChange (h : Transition σ a σ') {s : Fin n}
    (hinc : (σ'.server s).incarnation = (σ.server s).incarnation)
    {j : Fin n} {v : ℤ}
    (hv : (σ'.server s).rf.nextIndex[j.val]? = some v) :
    NextChange σ a s j v (σ'.server s).rf := by
  have hnext : ∀ {ix : PeerIndices}, (σ'.server s).rf.indices = ix →
      ix.nextIndex[j.val]? = some v := by
    rintro ix rfl
    exact hv
  cases h.indexChange hinc with
  | keep hix => exact .keep (hnext hix)
  | filled hin hrf =>
      rw [hrf] at hv
      have hfill := Raft.getElem?_fillIndex (σ.server s).rf.logLength
        (σ.server s).rf.nextIndex j
      exact .filled hin (Option.some.inj (hv.symm.trans hfill))
  | accepted hresumed hsuccess hix =>
      rcases getElem?_set_cases (hnext hix) with ⟨hpeer, rfl⟩ | ⟨_, hold⟩
      · exact .accepted hresumed hsuccess hpeer rfl
      · exact .keep hold
  | refused hresumed hfail hreply hix =>
      rcases getElem?_set_cases (hnext hix) with ⟨hpeer, rfl⟩ | ⟨_, hold⟩
      · exact .refused hresumed hfail hreply hpeer rfl
      · exact .keep hold
  | installed hresumed hreply hix =>
      rcases getElem?_set_cases (hnext hix) with ⟨hpeer, rfl⟩ | ⟨_, hold⟩
      · exact .installed hresumed hreply hpeer rfl
      · exact .keep hold

/-- A restarted server has no next indices. -/
theorem Transition.incarnation_eq_of_next (h : Transition σ a σ') {s : Fin n}
    (hnext : (σ'.server s).rf.nextIndex ≠ []) :
    (σ'.server s).incarnation = (σ.server s).incarnation := by
  cases h.turn s with
  | ran _ hinc => exact hinc
  | restart _ hboot =>
      rw [hboot] at hnext
      exact absurd (Raft.make_volatile s _).2.2.2.1 hnext

/-- Only a promotion makes next indices. -/
theorem Transition.next_length (h : Transition σ a σ') {s : Fin n}
    (hinc : (σ'.server s).incarnation = (σ.server s).incarnation)
    (hlost : ∀ args T, ¬ (σ.inputs a s).won args T) :
    (σ'.server s).rf.nextIndex.length = (σ.server s).rf.nextIndex.length := by
  have hlength : ∀ {ix : PeerIndices}, (σ'.server s).rf.indices = ix →
      (σ'.server s).rf.nextIndex.length = ix.nextIndex.length := by
    rintro ix rfl
    rfl
  cases h.indexChange hinc with
  | keep hix => exact hlength hix
  | filled hin => exact absurd hin (hlost _ _)
  | accepted _ _ hix | refused _ _ _ hix | installed _ _ hix =>
      exact (hlength hix).trans List.length_set

/-! ## The requests of a reign -/

/-- The call is one of the present incarnation and term of server `s`. -/
structure OfReign (σ : Cluster n Cmd) (s : Fin n) (call : AppendCall n Cmd) :
    Prop where
  caller : call.caller = s
  incarnation : call.incarnation = (σ.server s).incarnation
  term : call.args.term = (σ.server s).rf.currentTerm

/-- A request of the present reign of `s` that server `f` has accepted covers
index `p`: its reply is under way, or it is done with and `next` is above. -/
def Reported (σ : Cluster n Cmd) (s f : Fin n) (next p : ℤ) : Prop :=
  ∃ (k : ℕ) (call : AppendCall n Cmd), σ.appendCalls[k]? = some call ∧
    OfReign σ s call ∧ call.peer = f ∧ p ≤ call.args.last ∧
    ((∃ reply, call.phase = .replied reply ∧ reply.success = true) ∨
      call.phase = .finished ∧ p < next)

/-- The invariant. -/
structure Accounted (σ : Cluster n Cmd) : Prop where
  sent : ∀ s T, Event.elected s T ∈ σ.events → ∀ f, f ≠ s →
    ∃ call ∈ σ.appendCalls, call.caller = s ∧ call.peer = f ∧
      call.args.term = T
  asked : ∀ vote ∈ σ.voteCalls,
    vote.incarnation = (σ.server vote.caller).incarnation →
    ∀ call ∈ σ.appendCalls, call.caller = vote.caller →
      call.incarnation ≠ vote.incarnation → call.args.term < vote.args.term
  earlier : ∀ call ∈ σ.appendCalls,
    call.incarnation ≠ (σ.server call.caller).incarnation →
    (σ.server call.caller).rf.nextIndex ≠ [] →
    call.args.term < (σ.server call.caller).rf.currentTerm
  above : ∀ call ∈ σ.appendCalls, OfReign σ call.caller call → ∀ q U,
    call.args.last < q → (σ.server call.caller).rf.Holds q U →
    U = (σ.server call.caller).rf.currentTerm
  honest : ∀ call ∈ σ.appendCalls, ∀ reply, call.phase = .replied reply →
    reply.success = true → reply.term ≤ call.args.term
  led : ∀ f T, σ.Accepted f T → ∃ s, Event.elected s T ∈ σ.events
  entries : ∀ s f next p, f ≠ s → Reigns σ s →
    (σ.server s).rf.nextIndex[f.val]? = some next →
    (σ.server f).rf.persister.durable.currentTerm ≤
      (σ.server s).rf.currentTerm →
    (σ.server f).rf.Holds p (σ.server s).rf.currentTerm →
    σ.Accepted f (σ.server s).rf.currentTerm ∧ Reported σ s f next p
  accepted : ∀ s f next, f ≠ s → Reigns σ s →
    (σ.server s).rf.nextIndex[f.val]? = some next →
    σ.Accepted f (σ.server s).rf.currentTerm →
    ∃ p, Reported σ s f next p ∧ ∀ q U, p < q → (σ.server s).rf.Holds q U →
      U = (σ.server s).rf.currentTerm

theorem accounted_init : Accounted (init : Cluster n Cmd) where
  sent := by simp [init]
  asked := by simp [init]
  earlier := by simp [init]
  above := by simp [init]
  honest := by simp [init]
  led := by simp [Accepted, init]
  entries := by simp [Reigns, init]
  accepted := by simp [Reigns, init]

/-! ### Requests are sent -/

/-- A promoted server sends a request to everyone. -/
theorem Transition.won_sent (h : Transition σ a σ') (hsound : Sound σ)
    {s : Fin n} {args : RequestVoteArgs n} {T : ℕ}
    (hin : (σ.inputs a s).won args T) {f : Fin n} (hf : f ≠ s) :
    ∃ call ∈ σ'.appendCalls, call.caller = s ∧ call.peer = f ∧
      call.args.term = T := by
  obtain ⟨W, hsecure⟩ := hsound.secure
  obtain ⟨k, vote, _, rfl, hvote, _, _, rfl, _, rfl⟩ := hin
  have hrep := hsound.ordered.servers vote.caller
  obtain ⟨args, hprepare, hterm⟩ := Raft.becomeLeader_prepare hrep f
  cases h with
  | promotePanic hget _ _ hrun =>
      obtain rfl := Option.some.inj (hvote.symm.trans hget)
      rw [Raft.becomeLeader_launches hrep] at hrun
      cases hrun
  | promote hget _ _ hrun =>
      obtain rfl := Option.some.inj (hvote.symm.trans hget)
      obtain ⟨rfl, rfl⟩ := Raft.heartBeatLauncher_done hrun
      refine ⟨_, List.mem_append_right _ (List.mem_filterMap.mpr
        ⟨.appendEntries f args, List.mem_filterMap.mpr ⟨f, ?_, hprepare⟩,
          rfl⟩), rfl, rfl, hterm⟩
      rw [← hsecure.sim.ballots.me vote.caller] at hf
      exact Raft.mem_others.mpr hf

/-- An acceptance that is on record was there before, or has just been made. -/
theorem Transition.acked_origin (h : Transition σ a σ') (hord : Ordered σ)
    {f : Fin n} {T : ℕ} (hacked : σ'.Accepted f T) :
    σ.Accepted f T ∨ ∃ k call, Accepts σ a σ' f k call ∧
      call.args.term = T := by
  obtain ⟨e, he, hacks⟩ := hacked
  obtain ⟨m, rfl⟩ := hacks.eq
  by_cases hold : Event.acked f T m ∈ σ.events
  · exact Or.inl ⟨_, hold, hacks⟩
  · cases h with
    | @append k call rf reply hcall hphase halive hrun =>
        have hnew := (List.mem_append.mp he).resolve_left hold
        split at hnew
        · next hsuccess =>
            cases List.mem_singleton.mp hnew
            exact Or.inr ⟨k, call, (Transition.append hcall hphase halive
              hrun).accepts rfl hcall (hord.servers _) hrun hsuccess, rfl⟩
        · cases hnew
    | elect | vote | promotePanic | promote | snap | start | snapshot
    | receive =>
        have hnew := (List.mem_append.mp he).resolve_left hold
        first
        | cases List.mem_singleton.mp hnew
        | split at hnew <;> simp at hnew
    | _ => exact absurd he hold

/-- A call that was answered or finished stays as it is until its caller
resumes. -/
theorem Transition.answered_kept (h : Transition σ a σ') {k : ℕ}
    {call : AppendCall n Cmd} (hcall : σ.appendCalls[k]? = some call)
    (hphase : call.phase ≠ .sent) (haction : a ≠ .replyAppend k) :
    σ'.appendCalls[k]? = some call := by
  have hset : ∀ {i : ℕ} {changed : AppendCall n Cmd}, i ≠ k →
      σ'.appendCalls = σ.appendCalls.set i changed →
      σ'.appendCalls[k]? = some call := by
    intro i changed hne hcalls
    rw [hcalls, List.getElem?_set_ne hne]
    exact hcall
  cases h.appendStep with
  | keep hsame => rw [hsame, hcall]
  | launch hcalls =>
      rw [hcalls, List.getElem?_append_left
        (List.getElem?_eq_some_iff.mp hcall).1, hcall]
  | stopped _ hget hsent hcalls | executed _ hget hsent _ hcalls =>
      refine hset ?_ hcalls
      rintro rfl
      obtain rfl := Option.some.inj (hcall.symm.trans hget)
      exact hphase hsent
  | resumed hreply _ _ hcalls =>
      refine hset ?_ hcalls
      rintro rfl
      exact haction hreply

/-- A call of the present reign was one before the step. -/
theorem OfReign.before {s : Fin n} {old : AppendCall n Cmd}
    {phase : CallPhase AppendEntriesReply}
    (h : OfReign σ' s { old with phase := phase }) (hsound : Sound σ)
    (hold : old ∈ σ.appendCalls) (htrans : Transition σ a σ') :
    OfReign σ s old ∧ Reigns σ s ∧
      (σ'.server s).rf.currentTerm = (σ.server s).rf.currentTerm := by
  obtain ⟨rfl, hinc, hterm⟩ := h
  obtain ⟨_, hinc₀, hterm₀⟩ :=
    (hsound.kept.calls old hold).present htrans hinc hterm
  refine ⟨⟨rfl, hinc₀, hterm₀⟩, ?_, hterm.symm.trans hterm₀⟩
  have helected := hsound.call_elected hold
  rw [hterm₀] at helected
  exact helected

/-! ### Reports -/

/-- A resumed call that was accepted sets the next index of its peer. -/
theorem Resumed.next {s : Fin n} {k : ℕ} {call : AppendCall n Cmd}
    {reply : AppendEntriesReply} (h : Resumed σ a s k call reply)
    (hsound : Sound σ) (htrans : Transition σ a σ')
    (hreply : reply.term ≤ call.args.term) (hsuccess : reply.success = true)
    {next : ℤ}
    (hnext : (σ'.server s).rf.nextIndex[call.peer.val]? = some next) :
    next = call.args.last + 1 := by
  obtain ⟨rfl, hget, rfl, hinc, hterm, hphase⟩ := h
  have hfilled := (hsound.indexed.calls call (List.mem_of_getElem? hget)).2 hinc
  have hix := Raft.sendHeartbeat_recorded hfilled call.peer hterm
    hreply hsuccess
  rw [← htrans.replyAppend_rf hget hphase] at hix
  change (σ'.server call.caller).rf.indices.nextIndex[call.peer.val]? = _
    at hnext
  rw [hix] at hnext
  rcases getElem?_set_cases hnext with ⟨_, hv⟩ | ⟨hne, _⟩
  · exact hv
  · exact absurd rfl hne

/-- `SendHeartbeat` resumes only with a reply. -/
theorem Transition.replied_of_resumed {k : ℕ}
    (h : Transition σ (.replyAppend k) σ') {call : AppendCall n Cmd}
    (hcall : σ.appendCalls[k]? = some call) :
    ∃ reply, call.phase = .replied reply := by
  cases h with
  | replyAppendPanic hget hphase | replyAppend hget hphase
  | replyAppendSnap hget hphase =>
      obtain rfl := Option.some.inj (hcall.symm.trans hget)
      exact ⟨_, hphase⟩

/-- What is reported stays reported. -/
theorem Reported.step {s f : Fin n} {next next' p : ℤ}
    (h : Reported σ s f next p) (hacc : Accounted σ) (hsound : Sound σ)
    (htrans : Transition σ a σ') (horder : σ.RepliesInOrder a)
    (hinc : (σ'.server s).incarnation = (σ.server s).incarnation)
    (hterm : (σ'.server s).rf.currentTerm = (σ.server s).rf.currentTerm)
    (haccepted : σ.Accepted f (σ.server s).rf.currentTerm)
    (hnext : (σ.server s).rf.nextIndex[f.val]? = some next)
    (hnext' : (σ'.server s).rf.nextIndex[f.val]? = some next') :
    Reported σ' s f next' p := by
  obtain ⟨k, call, hget, ⟨rfl, hinc₀, hterm₀⟩, rfl, hp, hphase⟩ := h
  by_cases haction : a = .replyAppend k
  · -- The caller resumes with the reply to this very call.
    subst haction
    have hmem := List.mem_of_getElem? hget
    obtain ⟨reply, hreplied⟩ := htrans.replied_of_resumed hget
    have hresumed : Resumed σ (.replyAppend k) call.caller k call reply :=
      ⟨rfl, hget, rfl, hinc₀, hterm₀.symm, hreplied⟩
    rcases hphase with ⟨other, hother, hsuccess⟩ | ⟨hfinished, _⟩
    · cases hreplied.symm.trans hother
      have hv := hresumed.next hsound htrans
        (hacc.honest call hmem reply hreplied hsuccess) hsuccess hnext'
      exact ⟨k, _, hresumed.finished htrans, ⟨rfl, hinc₀.trans hinc.symm,
        hterm₀.trans hterm.symm⟩, rfl, hp, Or.inr ⟨rfl, by omega⟩⟩
    · rw [hreplied] at hfinished
      cases hfinished
  · have hopen : call.phase ≠ .sent := by
      rcases hphase with ⟨_, hreplied, _⟩ | ⟨hfinished, _⟩
      · simp [hreplied]
      · simp [hfinished]
    refine ⟨k, call, htrans.answered_kept hget hopen haction,
      ⟨rfl, hinc₀.trans hinc.symm, hterm₀.trans hterm.symm⟩, rfl, hp,
      hphase.imp_right ?_⟩
    rintro ⟨hfinished, hlt⟩
    refine ⟨hfinished, ?_⟩
    cases htrans.nextChange hinc hnext' with
    | keep hsame =>
        obtain rfl := Option.some.inj (hnext.symm.trans hsame)
        exact hlt
    | filled _ hv =>
        have hend := (hsound.kept.calls call (List.mem_of_getElem? hget)).last
          hinc₀ hterm₀.symm
        unfold AppendEntriesArgs.last at hp
        omega
    | @accepted i first reply hresumed hsuccess hpeer hv =>
        -- No later call is finished, so the recorded one is the later one.
        have hsame : first.SameLeadership call := ⟨hresumed.caller,
          hresumed.incarnation.trans hinc₀.symm,
          hresumed.term.symm.trans hterm₀.symm⟩
        have hlater := noneLaterFinished_iff.mp (by
          have hrecords := horder.records call.caller
          rw [hresumed.action] at hrecords
          exact hrecords first hresumed.get hresumed.caller hresumed.term reply
            (by rw [hresumed.phase]; rfl) hsuccess)
        have hle : first.args.last ≥ call.args.last := by
          rcases lt_trichotomy i k with hbefore | rfl | hafter
          · exact absurd hfinished
              (hlater k call hbefore hget hsame hpeer.symm)
          · exact absurd hresumed.action haction
          · obtain ⟨hcaller, hinc₁, hterm₁⟩ := hsame
            exact hsound.reaching k i call first hafter hget hresumed.get
              ⟨hcaller.symm, hinc₁.symm, hterm₁.symm⟩
        omega
    | @refused i first reply hresumed hfail hreply hpeer hv =>
        have hfresh := horder.refusals
        rw [hresumed.action] at hfresh
        have hnone := (hfresh first hresumed.get
          (by rw [hresumed.caller]; exact hresumed.term) reply
          (by rw [hresumed.phase]; rfl) hfail hreply).1
        rw [hpeer, ← hresumed.term] at hnone
        exact absurd haccepted hnone
    | @installed i first reply hresumed hreply hpeer hv =>
        have hfresh := horder.answers
        rw [hresumed.action] at hfresh
        have hle := hfresh first hresumed.get
          (by rw [hresumed.caller]; exact hresumed.term) next
          (by rw [hresumed.caller, hpeer]; exact hnext)
        rw [hresumed.caller] at hle
        omega

namespace Accounted

section Step

variable (h : Accounted σ) (hsound : Sound σ) (htrans : Transition σ a σ')

include h hsound htrans

theorem sent_step (s : Fin n) (T : ℕ) (he : Event.elected s T ∈ σ'.events)
    (f : Fin n) (hf : f ≠ s) : ∃ call ∈ σ'.appendCalls, call.caller = s ∧
      call.peer = f ∧ call.args.term = T := by
  rcases htrans.elected_origin he with hold | ⟨args, hin⟩
  · obtain ⟨call, hcall, hfacts⟩ := h.sent s T hold f hf
    obtain ⟨k, hget⟩ := List.mem_iff_getElem?.mp hcall
    obtain ⟨_, hnew, ⟨_, rfl⟩, _⟩ := htrans.appendCall_kept hget
    exact ⟨_, List.mem_of_getElem? hnew, hfacts⟩
  · exact htrans.won_sent hsound hin hf

theorem asked_step (vote : VoteCall n) (hvote : vote ∈ σ'.voteCalls)
    (hpresent : vote.incarnation = (σ'.server vote.caller).incarnation)
    (call : AppendCall n Cmd) (hcall : call ∈ σ'.appendCalls)
    (hcaller : call.caller = vote.caller)
    (hinc : call.incarnation ≠ vote.incarnation) :
    call.args.term < vote.args.term := by
  obtain ⟨W, hsecure⟩ := hsound.secure
  rcases htrans.appendCall_origin hcall with ⟨old, hold, _, rfl⟩ | hnew
  · rcases htrans.voteCall_origin hvote with
      ⟨asked, hasked, _, rfl⟩ | ⟨_, _, _, hrun⟩
    · have hbefore := (hsecure.sim.ballots.calls asked hasked).incarnation
      have hgrow := htrans.incarnation_le asked.caller
      exact h.asked asked hasked (le_antisymm hbefore (hgrow.trans hpresent.ge))
        old hold hcaller hinc
    · obtain ⟨_, _, _, hargs⟩ := Raft.electLauncher_done hrun
      have hle := hsound.elected_le (hsound.call_elected hold)
      rw [hargs]
      exact Nat.lt_succ_of_le (hcaller ▸ hle)
  · have hnow := hnew.incarnation
    rw [hcaller, ← hpresent] at hnow
    exact absurd hnow hinc

omit hsound in
theorem earlier_step (hterms : σ.PromotesInTerm a) (call : AppendCall n Cmd)
    (hcall : call ∈ σ'.appendCalls)
    (hinc : call.incarnation ≠ (σ'.server call.caller).incarnation)
    (hnext : (σ'.server call.caller).rf.nextIndex ≠ []) :
    call.args.term < (σ'.server call.caller).rf.currentTerm := by
  rcases htrans.appendCall_origin hcall with ⟨old, hold, _, rfl⟩ | hnew
  · have hsame := htrans.incarnation_eq_of_next hnext
    by_cases hwon : ∃ args T, (σ.inputs a old.caller).won args T
    · obtain ⟨args, T, hin⟩ := hwon
      rw [htrans.won_rf hin]
      obtain ⟨k, vote, _, rfl, hvote, _, hresumes, hcaller, _⟩ := hin
      have hterm : (σ.server vote.caller).rf.currentTerm = vote.args.term :=
        hterms vote hvote
      have hlt := h.asked vote (List.mem_of_getElem? hvote) hresumes.2.symm old
        hold hcaller.symm
        (by rw [← hresumes.2, hcaller, ← hsame]; exact hinc)
      rw [← hterm, hcaller] at hlt
      exact hlt
    · have hlength := htrans.next_length hsame
        fun args T hin ↦ hwon ⟨args, T, hin⟩
      have hfilled : (σ.server old.caller).rf.nextIndex ≠ [] := by
        rw [← List.length_pos_iff] at hnext ⊢
        exact hlength ▸ hnext
      exact lt_of_lt_of_le (h.earlier old hold (hsame ▸ hinc) hfilled)
        (htrans.currentTerm_le hsame)
  · exact absurd hnew.incarnation hinc

theorem above_step (hord : Ordered σ') (call : AppendCall n Cmd)
    (hcall : call ∈ σ'.appendCalls) (hof : OfReign σ' call.caller call)
    (q : ℤ) (U : ℕ) (hq : call.args.last < q)
    (hholds : (σ'.server call.caller).rf.Holds q U) :
    U = (σ'.server call.caller).rf.currentTerm := by
  rcases htrans.appendCall_origin hcall with ⟨old, hold, _, rfl⟩ | hnew
  · obtain ⟨hof₀, hreigns, hterm⟩ := hof.before hsound hold htrans
    rw [hterm]
    rcases hreigns.holds hsound htrans hterm hholds with hbefore | hown
    · exact h.above old hold hof₀ q U hq hbefore
    · exact hown
  · have hend := Raft.prepare_last (hord.servers call.caller) hnew.prepared
    have hle := hholds.le_logLength (hord.servers call.caller)
    unfold AppendEntriesArgs.last at hq
    omega

theorem honest_step (call : AppendCall n Cmd) (hcall : call ∈ σ'.appendCalls)
    (reply : AppendEntriesReply) (hphase : call.phase = .replied reply)
    (hsuccess : reply.success = true) : reply.term ≤ call.args.term := by
  rcases htrans.replied_origin hcall hphase with
    hold | ⟨_, old, _, _, _, rfl, hrun⟩
  · exact h.honest call hold reply hphase hsuccess
  · exact ((hsound.ordered.servers old.peer).hasSentinel
      |>.heartbeatHandler_success_terms hrun hsuccess).1

theorem led_step (f : Fin n) (T : ℕ) (hacc : σ'.Accepted f T) :
    ∃ s, Event.elected s T ∈ σ'.events := by
  rcases htrans.acked_origin hsound.ordered hacc with
    hold | ⟨k, call, haccepts, rfl⟩
  · obtain ⟨s, helected⟩ := h.led f T hold
    exact ⟨s, htrans.events_grow.subset helected⟩
  · exact ⟨_, htrans.events_grow.subset
      (hsound.call_elected (List.mem_of_getElem? haccepts.get))⟩

omit hsound in
/-- Everything that a newly accepted request covers is reported. -/
theorem reported_of_accepts (hsound' : Sound σ') (hterms : σ.PromotesInTerm a)
    {s f : Fin n} {k : ℕ} {call : AppendCall n Cmd}
    (haccepts : Accepts σ a σ' f k call) (hreigns : Reigns σ' s)
    (hterm : call.args.term = (σ'.server s).rf.currentTerm) {next : ℤ}
    (hnext : (σ'.server s).rf.nextIndex[f.val]? = some next) :
    ∃ phase, { call with phase := phase } ∈ σ'.appendCalls ∧
      OfReign σ' s { call with phase := phase } ∧
      ∀ p, p ≤ call.args.last → Reported σ' s f next p := by
  obtain ⟨reply, hsuccess, hget⟩ := haccepts.accepted
  have hmem := List.mem_of_getElem? hget
  have helected := hsound'.call_elected hmem
  obtain rfl : call.caller = s := by
    change Event.elected call.caller call.args.term ∈ _ at helected
    rw [hterm] at helected
    exact hsound'.unique _ _ _ helected hreigns
  have hne : (σ'.server call.caller).rf.nextIndex ≠ [] := by
    rintro hnil
    rw [hnil] at hnext
    cases hnext
  have hinc : call.incarnation = (σ'.server call.caller).incarnation := by
    by_contra hother
    exact absurd hterm
      (ne_of_lt (h.earlier_step htrans hterms
        { call with phase := .replied reply } hmem hother hne))
  have hof : OfReign σ' call.caller { call with phase := .replied reply } :=
    ⟨rfl, hinc, hterm⟩
  exact ⟨_, hmem, hof, fun p hp ↦ ⟨k, _, hget, hof, haccepts.peer, hp,
    Or.inl ⟨reply, rfl, hsuccess⟩⟩⟩

/-- A server that has a next index for `f` and reigns is in the incarnation and
the term it was in before the step, and had a next index if it reigned then. -/
theorem reigns_before (hterms : σ.PromotesInTerm a) {s f : Fin n}
    (hf : f ≠ s) (hreigns : Reigns σ' s) {next' : ℤ}
    (hnext' : (σ'.server s).rf.nextIndex[f.val]? = some next') :
    (σ'.server s).incarnation = (σ.server s).incarnation ∧
    (σ'.server s).rf.currentTerm = (σ.server s).rf.currentTerm ∧
    (Reigns σ s → ∃ next,
      (σ.server s).rf.nextIndex[f.val]? = some next) := by
  have hne : (σ'.server s).rf.nextIndex ≠ [] := by
    rintro hnil
    rw [hnil] at hnext'
    cases hnext'
  have hinc := htrans.incarnation_eq_of_next hne
  by_cases hwon : ∃ args T, (σ.inputs a s).won args T
  · obtain ⟨args, T, hin⟩ := hwon
    have hsame : (σ'.server s).rf.currentTerm =
        (σ.server s).rf.currentTerm := by
      rw [htrans.won_rf hin]
      rfl
    refine ⟨hinc, hsame, ?_⟩
    intro hbefore
    obtain ⟨call, hcall, rfl, rfl, hterm⟩ := h.sent s _ hbefore f hf
    obtain ⟨k, vote, _, rfl, hvote, _, hresumes, hcaller, _⟩ := hin
    have hcurrent : call.incarnation = (σ.server call.caller).incarnation := by
      by_contra hother
      rw [← hcaller] at hother hterm
      have hlt := h.asked vote (List.mem_of_getElem? hvote) hresumes.2.symm
        call hcall hcaller.symm (by rw [← hresumes.2]; exact hother)
      rw [hterm, hterms vote hvote] at hlt
      exact lt_irrefl _ hlt
    have hfilled := (hsound.indexed.calls call hcall).2 hcurrent
    exact ⟨_, List.getElem?_eq_getElem
      (lt_of_lt_of_le call.peer.isLt hfilled.next)⟩
  · have hlost : ∀ args T, ¬ (σ.inputs a s).won args T :=
      fun args T hin ↦ hwon ⟨args, T, hin⟩
    obtain ⟨-, hterm⟩ := hreigns.before hsound htrans hinc hlost
    refine ⟨hinc, hterm, fun _ ↦ ?_⟩
    have hlt := (List.getElem?_eq_some_iff.mp hnext').1
    rw [htrans.next_length hinc hlost] at hlt
    exact ⟨_, List.getElem?_eq_getElem hlt⟩

theorem entries_step (hsound' : Sound σ') (hterms : σ.PromotesInTerm a)
    (horder : σ.RepliesInOrder a) (s f : Fin n) (next' p : ℤ) (hf : f ≠ s)
    (hreigns : Reigns σ' s)
    (hnext' : (σ'.server s).rf.nextIndex[f.val]? = some next')
    (hdurable : (σ'.server f).rf.persister.durable.currentTerm ≤
      (σ'.server s).rf.currentTerm)
    (hholds : (σ'.server f).rf.Holds p (σ'.server s).rf.currentTerm) :
    σ'.Accepted f (σ'.server s).rf.currentTerm ∧
      Reported σ' s f next' p := by
  obtain ⟨hinc, hterm, hexists⟩ :=
    h.reigns_before hsound htrans hterms hf hreigns hnext'
  rcases htrans.holds_origin (hsound.ordered.servers f) (hsound.saves f)
      hholds with hold | ⟨hleader, hown⟩ | ⟨k, call, haccepts, hle, e, he, hT⟩
  · rw [hterm] at hold hdurable ⊢
    have hgrow := (htrans.savedTerm_le hsound.ordered
      (hsound.fenced.memory f)).1
    have hbefore := hreigns.of_elected hsound' htrans hterm
      (hsound.holds_elected hold)
    obtain ⟨next, hnext⟩ := hexists hbefore
    obtain ⟨hacc, hreported⟩ := h.entries s f next p hf hbefore hnext
      (hgrow.trans hdurable) hold
    exact ⟨hacc.mono htrans, hreported.step h hsound htrans horder hinc hterm
      hacc hnext hnext'⟩
  · have helected := htrans.events_grow.subset (hsound.leaders f hleader)
    rw [hown] at helected
    exact absurd (hsound'.unique f s _ helected hreigns) hf
  · -- A request with entries is saved, so it is of the term of `s`.
    have hsaved := hsound'.fenced.saved f _ haccepts.recorded _
      (.acked (List.length_pos_of_mem he).ne')
    have hbound := (hsound.ordered.appends call
      (List.mem_of_getElem? haccepts.get)).bound e he
    have hcall : call.args.term = (σ'.server s).rf.currentTerm := by omega
    obtain ⟨_, _, _, hreported⟩ := h.reported_of_accepts htrans hsound'
      hterms haccepts hreigns hcall hnext'
    exact ⟨⟨_, haccepts.recorded, rfl, hcall⟩, hreported p hle⟩

theorem accepted_step (hsound' : Sound σ') (hterms : σ.PromotesInTerm a)
    (horder : σ.RepliesInOrder a) (s f : Fin n) (next' : ℤ) (hf : f ≠ s)
    (hreigns : Reigns σ' s)
    (hnext' : (σ'.server s).rf.nextIndex[f.val]? = some next')
    (hacc' : σ'.Accepted f (σ'.server s).rf.currentTerm) :
    ∃ p, Reported σ' s f next' p ∧ ∀ q U, p < q →
      (σ'.server s).rf.Holds q U → U = (σ'.server s).rf.currentTerm := by
  obtain ⟨hinc, hterm, hexists⟩ :=
    h.reigns_before hsound htrans hterms hf hreigns hnext'
  rcases htrans.acked_origin hsound.ordered hacc' with
    hacc | ⟨k, call, haccepts, hcall⟩
  · rw [hterm] at hacc
    have hbefore := hreigns.of_elected hsound' htrans hterm (h.led f _ hacc)
    obtain ⟨next, hnext⟩ := hexists hbefore
    obtain ⟨p, hreported, habove⟩ := h.accepted s f next hf hbefore hnext hacc
    refine ⟨p, hreported.step h hsound htrans horder hinc hterm hacc
      hnext hnext', fun q U hq hholds ↦ ?_⟩
    rw [hterm]
    rcases hbefore.holds hsound htrans hterm hholds with hold | hown
    · exact habove q U hq hold
    · exact hown
  · obtain ⟨_, hmem, hof, hreported⟩ := h.reported_of_accepts htrans
      hsound' hterms haccepts hreigns hcall hnext'
    obtain rfl := hof.caller
    exact ⟨call.args.last, hreported _ le_rfl, fun q U hq hholds ↦
      h.above_step hsound htrans hsound'.ordered _ hmem hof q U hq hholds⟩

end Step

theorem step (h : Accounted σ) (hsound : Sound σ) (hsound' : Sound σ')
    (hterms : σ.PromotesInTerm a) (horder : σ.RepliesInOrder a)
    (hstep : σ.step a = some σ') :
    Accounted σ' :=
  have htrans := step_transition hstep
  { sent := h.sent_step hsound htrans
    asked := h.asked_step hsound htrans
    earlier := h.earlier_step htrans hterms
    above := h.above_step hsound htrans hsound'.ordered
    honest := h.honest_step hsound htrans
    led := h.led_step hsound htrans
    entries := h.entries_step hsound htrans hsound' hterms horder
    accepted := h.accepted_step hsound htrans hsound' hterms horder }

end Accounted

theorem accounted_of_run {ok : Cluster n Cmd → Action Cmd n → Prop}
    (hok : ∀ σ a, ok σ a →
      (σ.SnapshotsApplied a ∧ σ.Careful a) ∧ σ.RepliesInOrder a)
    {visited : List (Cluster n Cmd)}
    (hrun : Run Cluster.step ok init visited σ) : Accounted σ := by
  induction hrun with
  | start => exact accounted_init
  | next hprev hallowed hstep ih =>
      obtain ⟨hcareful, horder⟩ := hok _ _ hallowed
      exact ih.step (sound_of_run (fun σ a h ↦ (hok σ a h).1) hprev)
        (sound_of_run (fun σ a h ↦ (hok σ a h).1) (hprev.next hallowed hstep))
        hcareful.2.1 horder hstep

end Cluster

end DistLabs
