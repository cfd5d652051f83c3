import DistLabs.Raft.Bounds

/-!
# Match indices of one leadership

`SendHeartbeat` assigns `MatchIndex[to]` from the request that a reply belongs
to, and every promotion fills it with -1.  A request reaches exactly to the end
of the leader's log when it is launched, and that log only grows during a
leadership, so later requests reach further.  Hence match indices grow if the
leader is promoted once and records accepted requests in the order in which it
has sent them.
-/

namespace DistLabs

variable {n : ℕ} {Cmd : Type}

/-- The last index that a request covers. -/
def AppendEntriesArgs.last (args : AppendEntriesArgs n Cmd) : ℤ :=
  args.prevLogIndex + args.entries.length

/-- Both calls were made by one server in one incarnation and one term. -/
def AppendCall.SameLeadership (call other : AppendCall n Cmd) : Prop :=
  call.caller = other.caller ∧ call.incarnation = other.incarnation ∧
    call.args.term = other.args.term

instance (call other : AppendCall n Cmd) :
    Decidable (call.SameLeadership other) :=
  inferInstanceAs (Decidable (_ ∧ _ ∧ _))

namespace Cluster

/-! ## The order of replies -/

/-- Of the calls that the leadership of call number `k` made to the same peer
after it, none is finished. -/
def NoneLaterFinished (σ : Cluster n Cmd) (k : ℕ) (call : AppendCall n Cmd) :
    Prop :=
  ∀ later ∈ σ.appendCalls.drop (k + 1), call.SameLeadership later →
    later.peer = call.peer → later.phase ≠ .finished

instance (σ : Cluster n Cmd) (k : ℕ) (call : AppendCall n Cmd) :
    Decidable (σ.NoneLaterFinished k call) :=
  inferInstanceAs (Decidable (∀ later ∈ σ.appendCalls.drop (k + 1), _))

theorem noneLaterFinished_iff {σ : Cluster n Cmd} {k : ℕ}
    {call : AppendCall n Cmd} :
    σ.NoneLaterFinished k call ↔ ∀ j later, k < j →
      σ.appendCalls[j]? = some later → call.SameLeadership later →
      later.peer = call.peer → later.phase ≠ .finished := by
  constructor
  · intro h j later hlt hget
    refine h later (List.mem_of_getElem? (i := j - (k + 1)) ?_)
    rw [List.getElem?_drop, Nat.add_sub_cancel' hlt]
    exact hget
  · intro h later hmem
    obtain ⟨i, hi⟩ := List.mem_iff_getElem?.mp hmem
    rw [List.getElem?_drop] at hi
    exact h _ later (by omega) hi

/-- Server `s` enters the promotion section only once in a term. -/
def PromotesOnce (s : Fin n) (σ : Cluster n Cmd) : Action Cmd n → Prop
  | .promote k => ∀ call ∈ σ.voteCalls[k]?, call.caller = s →
      Event.elected s (σ.server s).rf.currentTerm ∉ σ.events
  | _ => True

/-- Server `s` records an accepted request of its term only while no later
request of that term to the same peer is finished. -/
def RecordsInOrder (s : Fin n) (σ : Cluster n Cmd) : Action Cmd n → Prop
  | .replyAppend k => ∀ call ∈ σ.appendCalls[k]?, call.caller = s →
      (σ.server s).rf.currentTerm = call.args.term →
      ∀ reply ∈ call.phase.reply, reply.success = true →
      σ.NoneLaterFinished k call
  | _ => True

/-- The order in which server `s` learns of its votes and of its requests, in a
cluster that elects every leader in the term of its votes. -/
def InOrder (s : Fin n) (σ : Cluster n Cmd) (a : Action Cmd n) : Prop :=
  σ.PromotesInTerm a ∧ PromotesOnce s σ a ∧ RecordsInOrder s σ a

instance [DecidableEq Cmd] (s : Fin n) (σ : Cluster n Cmd)
    (a : Action Cmd n) : Decidable (PromotesOnce s σ a) := by
  induction a using Action.casesOn <;> dsimp only [PromotesOnce] <;>
    infer_instance

instance (s : Fin n) (σ : Cluster n Cmd) (a : Action Cmd n) :
    Decidable (RecordsInOrder s σ a) := by
  induction a using Action.casesOn <;> dsimp only [RecordsInOrder] <;>
    infer_instance

instance [DecidableEq Cmd] (s : Fin n) (σ : Cluster n Cmd)
    (a : Action Cmd n) : Decidable (InOrder s σ a) :=
  inferInstanceAs (Decidable (_ ∧ _ ∧ _))

variable [Zero Cmd] {σ σ' : Cluster n Cmd} {a : Action Cmd n}

/-- What is finished after a step need not have been before. -/
theorem Transition.noneLaterFinished (h : Transition σ a σ') {k : ℕ}
    {old call : AppendCall n Cmd} (hcontinues : old.Continues call)
    (hlater : σ'.NoneLaterFinished k call) : σ.NoneLaterFinished k old := by
  obtain ⟨phase, rfl⟩ := hcontinues
  rw [noneLaterFinished_iff] at hlater ⊢
  intro j later hlt hget hsame hpeer hfinished
  obtain ⟨new, hnew, ⟨_, rfl⟩, hstays⟩ := h.appendCall_kept hget
  exact hlater j _ hlt hnew hsame hpeer (hstays hfinished)

/-! ## Later requests reach further -/

/-- Of two requests of one leadership the later one reaches at least as far. -/
def Reaching (σ : Cluster n Cmd) : Prop :=
  ∀ (i j : ℕ) (call later : AppendCall n Cmd), i < j →
    σ.appendCalls[i]? = some call → σ.appendCalls[j]? = some later →
    call.SameLeadership later → call.args.last ≤ later.args.last

theorem Reaching.step (h : Reaching σ) (hkept : Bookkept σ')
    (hordered : Ordered σ') (hstep : σ.step a = some σ') : Reaching σ' := by
  have htrans := step_transition hstep
  rintro i j call later hlt hcall hlater ⟨hcaller, hinc, hterm⟩
  rcases htrans.appendCall_before hlater with
    ⟨oldLater, holdLater, ⟨_, rfl⟩, _⟩ | ⟨_, hnew⟩
  · have hj := (List.getElem?_eq_some_iff.mp holdLater).1
    rcases htrans.appendCall_before hcall with
      ⟨old, hold, ⟨_, rfl⟩, _⟩ | ⟨hi, _⟩
    · exact h i j old oldLater hlt hold holdLater ⟨hcaller, hinc, hterm⟩
    · omega
  · -- The later request ends where the log of the leader ends now.
    obtain ⟨_, _, _, _, _, _, hargs⟩ := Raft.prepare_append hnew.prepared
    have hnow : later.args.term =
        (σ'.server later.caller).rf.currentTerm := by rw [hargs]
    have hlast := (hkept.calls call (List.mem_of_getElem? hcall)).last
      (by rw [hcaller, hinc, hnew.incarnation])
      (by rw [hcaller, hterm, hnow])
    have hend := Raft.prepare_last (hordered.servers later.caller) hnew.prepared
    rw [hcaller] at hlast
    unfold AppendEntriesArgs.last
    omega

theorem reaching_of_run {ok : Cluster n Cmd → Action Cmd n → Prop}
    (hok : ∀ σ a, ok σ a → σ.PromotesInTerm a)
    {visited : List (Cluster n Cmd)} (hrun : Run step ok init visited σ) :
    Reaching σ := by
  induction hrun with
  | start => simp [Reaching, init]
  | next hprev hallowed hstep ih =>
      have hnext := hprev.next hallowed hstep
      exact ih.step (bookkept_of_run hnext (electedUnique_of_run hok hnext))
        (ordered_of_run hnext) hstep

/-! ## What is recorded so far -/

/-- In the step `SendHeartbeat` of server `s` resumes with a reply to call
number `k`, which is of its term. -/
structure Resumed (σ : Cluster n Cmd) (a : Action Cmd n) (s : Fin n) (k : ℕ)
    (call : AppendCall n Cmd) (reply : AppendEntriesReply) : Prop where
  action : a = .replyAppend k
  get : σ.appendCalls[k]? = some call
  caller : call.caller = s
  incarnation : call.incarnation = (σ.server s).incarnation
  term : (σ.server s).rf.currentTerm = call.args.term
  phase : call.phase = .replied reply

/-- In the step `SendSnapshot` of server `s` resumes with a reply to snapshot
call number `k`, which is of its term. -/
structure SnapResumed (σ : Cluster n Cmd) (a : Action Cmd n) (s : Fin n)
    (k : ℕ) (call : SnapCall n) (reply : SnapshotRelpay) : Prop where
  action : a = .replySnap k
  get : σ.snapCalls[k]? = some call
  caller : call.caller = s
  term : (σ.server s).rf.currentTerm = call.args.term
  phase : call.phase = .replied reply

/-- How a step changes the indices of server `s` while it does not crash. -/
inductive IndexChange (σ : Cluster n Cmd) (a : Action Cmd n) (s : Fin n)
    (rf : Raft n Cmd) : Prop
  | keep (hix : rf.indices = (σ.server s).rf.indices)
  | filled {args : RequestVoteArgs n} {T : ℕ} (hin : (σ.inputs a s).won args T)
      (hrf : rf = (σ.server s).rf.becomeLeader)
  | accepted {k : ℕ} {call : AppendCall n Cmd} {reply : AppendEntriesReply}
      (hresumed : Resumed σ a s k call reply) (hsuccess : reply.success = true)
      (hix : rf.indices =
        ((σ.server s).rf.matched call.peer call.args).indices)
  | refused {k : ℕ} {call : AppendCall n Cmd} {reply : AppendEntriesReply}
      (hresumed : Resumed σ a s k call reply) (hfail : reply.success = false)
      (hreply : reply.term ≤ call.args.term)
      (hix : rf.indices =
        { (σ.server s).rf.indices with
          nextIndex := (σ.server s).rf.nextIndex.set call.peer
            ((σ.server s).rf.backupIndex reply) })
  | installed {k : ℕ} {call : SnapCall n} {reply : SnapshotRelpay}
      (hresumed : SnapResumed σ a s k call reply)
      (hreply : reply.term ≤ rf.currentTerm)
      (hix : rf.indices =
        { (σ.server s).rf.indices with
          nextIndex := (σ.server s).rf.nextIndex.set call.peer
            ((σ.server s).rf.lastIncludedIndex + 1) })

theorem Transition.indexChange (h : Transition σ a σ') {s : Fin n}
    (hinc : (σ'.server s).incarnation = (σ.server s).incarnation) :
    IndexChange σ a s (σ'.server s).rf := by
  by_cases hwon : ∃ args T, (σ.inputs a s).won args T
  · obtain ⟨args, T, hin⟩ := hwon
    exact .filled hin (h.won_rf hin)
  · cases h.indexStep fun args T hin ↦ hwon ⟨args, T, hin⟩ with
    | keep hix => exact .keep hix
    | @append k call reply haction hcall hphase hresumes hcaller hrf =>
        have hinc : call.incarnation = (σ.server s).incarnation := by
          rw [← hcaller, hresumes.2]
        rcases (σ.server s).rf.sendHeartbeat_indices call.peer call.args
            reply with hix | ⟨hterm, hreply, ⟨hsuccess, hix⟩ | ⟨hfail, hix⟩⟩ <;>
          rw [← hrf] at hix
        · exact .keep hix
        · exact .accepted ⟨haction, hcall, hcaller, hinc, hterm, hphase⟩
            hsuccess hix
        · exact .refused ⟨haction, hcall, hcaller, hinc, hterm, hphase⟩ hfail
            hreply hix
    | @snap k call reply haction hcall hphase hcaller hrf =>
        rcases (σ.server s).rf.sendSnapshot_indices call.peer call.args
            reply with hix | ⟨⟨hterm, hreply⟩, hix⟩ <;>
          rw [← hrf] at hix
        · exact .keep hix
        · rw [← hrf] at hreply
          exact .installed ⟨haction, hcall, hcaller, hterm, hphase⟩ hreply hix
    | restart hboot => exact absurd hinc (incarnation_ne_of_boot hboot)

/-- What an update of one place of a list leaves there and elsewhere. -/
theorem getElem?_set_cases {xs : List ℤ} {i j : Fin n} {v w : ℤ}
    (h : (xs.set i v)[j.val]? = some w) :
    i = j ∧ w = v ∨ i ≠ j ∧ xs[j.val]? = some w := by
  by_cases hij : i = j
  · subst hij
    have hlt := (List.getElem?_eq_some_iff.mp h).1
    rw [List.length_set] at hlt
    rw [List.getElem?_set_self hlt] at h
    exact Or.inl ⟨rfl, (Option.some.inj h).symm⟩
  · rw [List.getElem?_set_ne fun heq ↦ hij (Fin.ext heq)] at h
    exact Or.inr ⟨hij, h⟩

/-- A match index stays, is filled by a promotion, or records an accepted
request. -/
theorem Transition.matchIndex_cases (h : Transition σ a σ') {s : Fin n}
    (hinc : (σ'.server s).incarnation = (σ.server s).incarnation)
    {j : Fin n} {m : ℤ}
    (hm : (σ'.server s).rf.matchIndex[j.val]? = some m) :
    (σ.server s).rf.matchIndex[j.val]? = some m ∨
    (m = -1 ∧ ∃ args T, (σ.inputs a s).won args T) ∨
    ∃ k call reply, Resumed σ a s k call reply ∧ reply.success = true ∧
      call.peer = j ∧ m = call.args.last := by
  have hmatch : ∀ {ix : PeerIndices}, (σ'.server s).rf.indices = ix →
      ix.matchIndex[j.val]? = some m := by
    rintro ix rfl
    exact hm
  cases h.indexChange hinc with
  | keep hix => exact Or.inl (hmatch hix)
  | filled hin hrf =>
      rw [hrf] at hm
      have hfill := Raft.getElem?_fillIndex (-1) (σ.server s).rf.matchIndex j
      exact Or.inr (Or.inl ⟨Option.some.inj (hm.symm.trans hfill), _, _, hin⟩)
  | accepted hresumed hsuccess hix =>
      rcases getElem?_set_cases (hmatch hix) with ⟨hpeer, rfl⟩ | ⟨_, hold⟩
      · exact Or.inr (Or.inr ⟨_, _, _, hresumed, hsuccess, hpeer, rfl⟩)
      · exact Or.inl hold
  | refused _ _ _ hix | installed _ _ hix => exact Or.inl (hmatch hix)

/-- A call with whose reply `SendHeartbeat` has resumed is finished. -/
theorem Resumed.finished {s : Fin n} {k : ℕ} {call : AppendCall n Cmd}
    {reply : AppendEntriesReply} (h : Resumed σ a s k call reply)
    (htrans : Transition σ a σ') :
    σ'.appendCalls[k]? = some { call with phase := .finished } := by
  obtain ⟨rfl, hget, _⟩ := h
  cases htrans with
  | replyAppendPanic hcall | replyAppend hcall | replyAppendSnap hcall =>
      obtain rfl := Option.some.inj (hget.symm.trans hcall)
      exact List.getElem?_set_self (List.getElem?_eq_some_iff.mp hget).1

/-- What is recorded last stays within the calls whose replies may still be
recorded. -/
theorem Resumed.le (h : Reaching σ) (htrans : Transition σ a σ') {s : Fin n}
    {i k : ℕ} {first call : AppendCall n Cmd} {reply : AppendEntriesReply}
    (hresumed : Resumed σ a s i first reply)
    (hcall : σ'.appendCalls[k]? = some call)
    (hsame : call.SameLeadership first) (hpeer : first.peer = call.peer)
    (hopen : call.phase ≠ .finished) (hlater : σ'.NoneLaterFinished k call)
    (hold : ∃ old, σ.appendCalls[k]? = some old ∧ old.Continues call) :
    first.args.last ≤ call.args.last := by
  have hfinished := hresumed.finished htrans
  obtain ⟨hcaller, hinc, hterm⟩ := hsame
  rcases lt_trichotomy i k with hlt | rfl | hgt
  · obtain ⟨old, hget, _, rfl⟩ := hold
    exact h i k first old hlt hresumed.get hget
      ⟨hcaller.symm, hinc.symm, hterm.symm⟩
  · obtain rfl := Option.some.inj (hcall.symm.trans hfinished)
    exact absurd rfl hopen
  · exact absurd rfl (noneLaterFinished_iff.mp hlater i _ hgt hfinished
      ⟨hcaller, hinc, hterm⟩ hpeer)

/-- The match index of a peer does not exceed what the calls cover whose replies
server `s` may still record. -/
def Recorded (s : Fin n) (σ : Cluster n Cmd) : Prop :=
  ∀ (k : ℕ) (call : AppendCall n Cmd), σ.appendCalls[k]? = some call →
    call.caller = s → call.incarnation = (σ.server s).incarnation →
    call.args.term = (σ.server s).rf.currentTerm →
    call.phase ≠ .finished → σ.NoneLaterFinished k call →
    ∀ m, (σ.server s).rf.matchIndex[call.peer.val]? = some m →
      m ≤ call.args.last

/-- A call of the present incarnation and term of its caller is one of the
incarnation and term that the caller had before, if it was there. -/
theorem Paced.present {call : AppendCall n Cmd} (h : Paced σ call)
    (htrans : Transition σ a σ')
    (hinc : call.incarnation = (σ'.server call.caller).incarnation)
    (hterm : call.args.term = (σ'.server call.caller).rf.currentTerm) :
    (σ'.server call.caller).incarnation =
        (σ.server call.caller).incarnation ∧
      call.incarnation = (σ.server call.caller).incarnation ∧
      call.args.term = (σ.server call.caller).rf.currentTerm := by
  have hgrow := htrans.incarnation_le call.caller
  have hbefore := h.incarnation
  have hsame : (σ'.server call.caller).incarnation =
      (σ.server call.caller).incarnation := by omega
  have hpresent := hinc.trans hsame
  have hle := h.term hpresent
  have hterms := htrans.currentTerm_le hsame
  exact ⟨hsame, hpresent, by omega⟩

theorem Recorded.step {s : Fin n} (h : Recorded s σ) (hreach : Reaching σ)
    (hkept : Bookkept σ) (hkept' : Bookkept σ') (hgrounded : Grounded σ')
    (hstep : σ.step a = some σ') : Recorded s σ' := by
  have htrans := step_transition hstep
  rintro k call hcall rfl hinc hterm hopen hlater m hm
  rcases htrans.appendCall_before hcall with
    ⟨old, hold, hcontinues, hstays⟩ | ⟨_, hnew⟩
  · have hleft := htrans.noneLaterFinished hcontinues hlater
    obtain ⟨phase, rfl⟩ := hcontinues
    obtain ⟨hsame, hinc₀, hterm₀⟩ :=
      (hkept.calls old (List.mem_of_getElem? hold)).present htrans hinc hterm
    rcases htrans.matchIndex_cases hsame hm with
      hm₀ | ⟨rfl, _⟩ | ⟨i, first, _, hresumed, _, hpeer, rfl⟩
    · exact h k old hold rfl hinc₀ hterm₀ (fun hfin ↦ hopen (hstays hfin))
        hleft m hm₀
    · have hprev := (hgrounded.appends _ (List.mem_of_getElem? hcall)).nonneg
      unfold AppendEntriesArgs.last
      omega
    · exact hresumed.le hreach htrans hcall ⟨hresumed.caller.symm,
        hinc₀.trans hresumed.incarnation.symm,
        hterm₀.trans hresumed.term⟩ hpeer hopen hlater
        ⟨old, hold, phase, rfl⟩
  · -- A new request covers the whole log, in which every match index lies.
    obtain ⟨_, hmatched, _, hle⟩ :=
      (hkept'.leaders call.caller hnew.leader).matched call.peer
    obtain rfl := Option.some.inj (hm.symm.trans hmatched)
    have hend := Raft.prepare_last (hgrounded.ordered.servers call.caller)
      hnew.prepared
    unfold AppendEntriesArgs.last
    omega

theorem recorded_of_run {ok : Cluster n Cmd → Action Cmd n → Prop}
    (hok : ∀ σ a, ok σ a → σ.PromotesInTerm a)
    {visited : List (Cluster n Cmd)} (hrun : Run step ok init visited σ)
    (s : Fin n) : Recorded s σ := by
  induction hrun with
  | start => simp [Recorded, init]
  | next hprev hallowed hstep ih =>
      have hnext := hprev.next hallowed hstep
      exact ih.step (reaching_of_run hok hprev)
        (bookkept_of_run hprev (electedUnique_of_run hok hprev))
        (bookkept_of_run hnext (electedUnique_of_run hok hnext))
        (grounded_of_run hnext) hstep

/-! ## Match indices grow -/

/-- One step of a leadership takes no match index back. -/
theorem Transition.matchIndex_le (h : Transition σ a σ') {s : Fin n}
    (hok : InOrder s σ a) (hrecorded : Recorded s σ)
    (helected : Event.elected s (σ.server s).rf.currentTerm ∈ σ.events)
    (hinc : (σ'.server s).incarnation = (σ.server s).incarnation)
    {j : Fin n} {m m' : ℤ}
    (hm : (σ.server s).rf.matchIndex[j.val]? = some m)
    (hm' : (σ'.server s).rf.matchIndex[j.val]? = some m') : m ≤ m' := by
  obtain ⟨_, honce, horder⟩ := hok
  rcases h.matchIndex_cases hinc hm' with
    hsame | ⟨_, args, T, hin⟩ | ⟨k, call, reply, hresumed, hsuccess, rfl, rfl⟩
  · exact (Option.some.inj (hm.symm.trans hsame)).le
  · obtain ⟨k, call, _, rfl, hcall, _, _, hcaller, _⟩ := hin
    exact absurd helected (honce call hcall hcaller)
  · obtain ⟨rfl, hget, hcaller, hcurrent, hterm, hphase⟩ := hresumed
    have hlater := horder call hget hcaller hterm reply (by rw [hphase]; rfl)
      hsuccess
    exact hrecorded k call hget hcaller hcurrent hterm.symm
      (by simp [hphase]) hlater m hm

section Leadership

variable {ok : Cluster n Cmd → Action Cmd n → Prop} {σ₀ : Cluster n Cmd}
  {later : List (Cluster n Cmd)}

theorem incarnation_le_of_run (hlater : Run step ok σ₀ later σ) (s : Fin n) :
    (σ₀.server s).incarnation ≤ (σ.server s).incarnation := by
  induction hlater with
  | start => exact le_rfl
  | next _ _ hstep ih =>
      exact le_trans ih ((step_transition hstep).incarnation_le s)

/-- Until a server crashes its term does not go back and its indices stay
filled. -/
theorem filled_of_run (hlater : Run step ok σ₀ later σ) {s : Fin n}
    (hfilled : (σ₀.server s).rf.indices.Filled n)
    (hinc : (σ.server s).incarnation = (σ₀.server s).incarnation) :
    (σ₀.server s).rf.currentTerm ≤ (σ.server s).rf.currentTerm ∧
      (σ.server s).rf.indices.Filled n := by
  induction hlater with
  | start => exact ⟨le_rfl, hfilled⟩
  | next hprev _ hstep ih =>
      have htrans := step_transition hstep
      have hfirst := incarnation_le_of_run hprev s
      have hlast := htrans.incarnation_le s
      obtain ⟨hterm, hstill⟩ := ih (by omega)
      exact ⟨le_trans hterm (htrans.currentTerm_le (by omega)),
        htrans.filled (by omega) hstill⟩

end Leadership

/-- From the moment a server is a leader until it crashes or leaves its term, no
match index goes back as long as it is promoted once and records the requests
that are accepted in the order in which it has sent them. -/
theorem matchIndex_grows {visited : List (Cluster n Cmd)}
    {σ₀ : Cluster n Cmd} (hrun : Run step PromotesInTerm init visited σ₀)
    (s : Fin n) (hleader : (σ₀.server s).rf.state = .leader)
    {later : List (Cluster n Cmd)} (hlater : Run step (InOrder s) σ₀ later σ)
    (hinc : (σ.server s).incarnation = (σ₀.server s).incarnation)
    (hterm : (σ.server s).rf.currentTerm = (σ₀.server s).rf.currentTerm)
    {σ₁ : Cluster n Cmd} (hσ₁ : σ₁ ∈ later) (j : Fin n) :
    ∃ m₁ m, (σ₁.server s).rf.matchIndex[j.val]? = some m₁ ∧
      (σ.server s).rf.matchIndex[j.val]? = some m ∧ m₁ ≤ m := by
  have hfilled := (indexed_of_run hrun).leaders s hleader
  obtain ⟨m, hm⟩ :=
    ((filled_of_run hlater hfilled hinc).2).exists_match j
  suffices hle : ∃ m₁, (σ₁.server s).rf.matchIndex[j.val]? = some m₁ ∧
      m₁ ≤ m by
    obtain ⟨m₁, hm₁, hle⟩ := hle
    exact ⟨m₁, m, hm₁, hm, hle⟩
  induction hlater generalizing σ₁ m with
  | start =>
      obtain rfl := List.mem_singleton.mp hσ₁
      exact ⟨m, hm, le_rfl⟩
  | @next earlier τ τ' a hprev hok hstep ih =>
      rcases List.mem_cons.mp hσ₁ with rfl | hold
      · exact ⟨m, hm, le_rfl⟩
      have htrans := step_transition hstep
      have hfirst := incarnation_le_of_run hprev s
      have hlast := htrans.incarnation_le s
      obtain ⟨hfirstTerm, hstill⟩ := filled_of_run hprev hfilled (by omega)
      have hlastTerm := htrans.currentTerm_le (t := s) (by omega)
      have hnow : (τ.server s).rf.currentTerm =
          (σ₀.server s).rf.currentTerm := by omega
      have helected : Event.elected s (τ.server s).rf.currentTerm ∈
          τ.events := by
        rw [hnow]
        exact hprev.of_mem_visited_mono
          (P := fun τ ↦ Event.elected s (σ₀.server s).rf.currentTerm ∈ τ.events)
          event_mono hprev.init_mem (leadersElected_of_run hrun s hleader)
      obtain ⟨_, hall⟩ := hrun.trans (hprev.mono fun _ _ hok ↦ hok.1)
      obtain ⟨m₀, hm₀⟩ := hstill.exists_match j
      obtain ⟨m₁, hm₁, hle₁⟩ := ih (by omega) hnow hold m₀ hm₀
      have hle := htrans.matchIndex_le hok
        (recorded_of_run (fun _ _ hok ↦ hok) hall s) helected (by omega) hm₀
        hm
      exact ⟨m₁, hm₁, le_trans hle₁ hle⟩

/-- Server 0 wins term 1 and sends its first command to server 1. -/
def replicatingRun : List (Action ℕ 3) :=
  [.elect 0, .deliverVote 0, .deliverVote 1, .checkVote 0, .countVote 0,
    .promote 0, .start 0 5, .heartbeat 0]

/-- Server 0 sends both of its commands before server 1 accepts the first one,
and records the two requests in their order. -/
def recordingRun : List (Action ℕ 3) :=
  [.start 0 6, .heartbeat 0, .deliverAppend 2, .deliverAppend 4,
    .replyAppend 2, .replyAppend 4]

/-- The match index of server 1 grows twice. -/
theorem matchIndex_grows_recorded :
    ∃ (visited later : List (Cluster 3 ℕ)) (σ₀ σ : Cluster 3 ℕ),
      Run step PromotesInTerm init visited σ₀ ∧
      Run step (InOrder 0) σ₀ later σ ∧
      ((σ₀.server 0).rf.matchIndex[1]? = some (-1) ∧
        (σ.server 0).rf.matchIndex[1]? = some 2) ∧
      ∀ σ₁ ∈ later, ∀ j : Fin 3, ∃ m₁ m,
        (σ₁.server 0).rf.matchIndex[j.val]? = some m₁ ∧
        (σ.server 0).rf.matchIndex[j.val]? = some m ∧ m₁ ≤ m := by
  obtain ⟨visited, σ₀, hrun, hleader, hfirst, hexec⟩ := Run.exists_of_exec
    step PromotesInTerm init replicatingRun
    (fun σ₀ : Cluster 3 ℕ ↦ (σ₀.server 0).rf.state = .leader ∧
      (σ₀.server 0).rf.matchIndex[1]? = some (-1) ∧
      (exec step (InOrder 0) σ₀ recordingRun).any (fun σ ↦ decide
        ((σ.server 0).incarnation = (σ₀.server 0).incarnation ∧
          (σ.server 0).rf.currentTerm = (σ₀.server 0).rf.currentTerm ∧
          (σ.server 0).rf.matchIndex[1]? = some 2)) = true)
    (by decide +kernel)
  obtain ⟨later, σ, hlater, hinc, hterm, hlast⟩ := Run.exists_of_exec
    step (InOrder 0) σ₀ recordingRun
    (fun σ : Cluster 3 ℕ ↦
      (σ.server 0).incarnation = (σ₀.server 0).incarnation ∧
        (σ.server 0).rf.currentTerm = (σ₀.server 0).rf.currentTerm ∧
        (σ.server 0).rf.matchIndex[1]? = some 2) hexec
  exact ⟨visited, later, σ₀, σ, hrun, hlater, ⟨hfirst, hlast⟩,
    fun _ hσ₁ j ↦ matchIndex_grows hrun 0 hleader hlater hinc hterm hσ₁ j⟩

/-- The leader sends one command and then two to server 1, which accepts both
requests, and the reply to the second one is recorded first. -/
def reorderedRun : List (Action ℕ 3) :=
  replicatingRun ++ [.start 0 6, .heartbeat 0, .deliverAppend 2,
    .deliverAppend 4, .replyAppend 4]

/-- The vote of server 2 is counted after the command is recorded. -/
def overfullRun : List (Action ℕ 3) :=
  replicatingRun ++ [.deliverAppend 2, .replyAppend 2, .checkVote 1,
    .countVote 1]

/-- Server 1 accepts two commands of server 0, then server 2, the other leader
of the term, cuts the log of server 0, which sends what is left to server 1 and
records the first request. -/
def cutLeaderRun : List (Action ℕ 3) :=
  lateRun ++ [.start 0 8, .start 0 9, .heartbeat 0, .deliverAppend 4,
    .start 2 7, .heartbeat 2, .deliverAppend 6, .heartbeat 0,
    .deliverAppend 8, .replyAppend 4]

/-- Action `a` takes the match index of server 1 from `m` to `m'` on server 0,
which is a leader of term `T` before and after. -/
def TakesBack (σ : Cluster 3 ℕ) (a : Action ℕ 3) (T : ℕ) (m m' : ℤ) : Prop :=
  ∃ σ' ∈ σ.step a,
    ((σ.server 0).rf.state = .leader ∧ (σ.server 0).rf.currentTerm = T ∧
      (σ.server 0).rf.matchIndex[1]? = some m) ∧
    (σ'.server 0).rf.state = .leader ∧ (σ'.server 0).rf.currentTerm = T ∧
      (σ'.server 0).rf.matchIndex[1]? = some m'

instance (σ : Cluster 3 ℕ) (a : Action ℕ 3) (T : ℕ) (m m' : ℤ) :
    Decidable (TakesBack σ a T m m') := by
  unfold TakesBack
  infer_instance

/-- A match index goes back when replies are recorded out of order, when a vote
beyond the majority promotes the leader again, and when another leader of the
term cuts the log of the leader; each time the other conditions hold. -/
theorem matchIndex_decreases :
    (∃ (visited : List (Cluster 3 ℕ)) (σ : Cluster 3 ℕ),
      Run step (fun σ a ↦ σ.PromotesInTerm a ∧ PromotesOnce 0 σ a) init
        visited σ ∧
      (σ.PromotesInTerm (.replyAppend 2) ∧
        PromotesOnce 0 σ (.replyAppend 2)) ∧
      TakesBack σ (.replyAppend 2) 1 2 1) ∧
    (∃ (visited : List (Cluster 3 ℕ)) (σ : Cluster 3 ℕ),
      Run step (fun σ a ↦ σ.PromotesInTerm a ∧ RecordsInOrder 0 σ a) init
        visited σ ∧
      (σ.PromotesInTerm (.promote 1) ∧ RecordsInOrder 0 σ (.promote 1)) ∧
      TakesBack σ (.promote 1) 1 1 (-1)) ∧
    ∃ (visited : List (Cluster 3 ℕ)) (σ : Cluster 3 ℕ),
      Run step (fun σ a ↦ PromotesOnce 0 σ a ∧ RecordsInOrder 0 σ a) init
        visited σ ∧
      (PromotesOnce 0 σ (.replyAppend 8) ∧
        RecordsInOrder 0 σ (.replyAppend 8)) ∧
      TakesBack σ (.replyAppend 8) 2 2 1 := by
  refine ⟨?_, ?_, ?_⟩
  · exact Run.exists_of_exec step
      (fun σ a ↦ σ.PromotesInTerm a ∧ PromotesOnce 0 σ a) init reorderedRun
      (fun σ : Cluster 3 ℕ ↦ (σ.PromotesInTerm (.replyAppend 2) ∧
        PromotesOnce 0 σ (.replyAppend 2)) ∧
        TakesBack σ (.replyAppend 2) 1 2 1) (by decide +kernel)
  · exact Run.exists_of_exec step
      (fun σ a ↦ σ.PromotesInTerm a ∧ RecordsInOrder 0 σ a) init overfullRun
      (fun σ : Cluster 3 ℕ ↦ (σ.PromotesInTerm (.promote 1) ∧
        RecordsInOrder 0 σ (.promote 1)) ∧
        TakesBack σ (.promote 1) 1 1 (-1)) (by decide +kernel)
  · exact Run.exists_of_exec step
      (fun σ a ↦ PromotesOnce 0 σ a ∧ RecordsInOrder 0 σ a) init cutLeaderRun
      (fun σ : Cluster 3 ℕ ↦ (PromotesOnce 0 σ (.replyAppend 8) ∧
        RecordsInOrder 0 σ (.replyAppend 8)) ∧
        TakesBack σ (.replyAppend 8) 2 2 1) (by decide +kernel)

end Cluster

end DistLabs
