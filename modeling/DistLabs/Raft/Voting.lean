import Mathlib.Data.Finset.Card
import DistLabs.Consensus.Completeness
import DistLabs.Raft.Origins

/-!
# Votes, elections and leaders

No server votes for two candidates in one term.  Several sections raise the
term and leave `VotedFor` stale, and the term of a refused request is never
saved, so the invariant relates the votes of the history to the pair in memory
and, separately, to the saved pair.

Each reply is counted at most once, so a vote counter is the number of distinct
servers that have voted, and two counters of one term cannot both exceed half
of the servers.  A server that is promoted in the term it was elected for is
therefore the only leader of that term.
-/

namespace DistLabs

variable {n : ℕ} {Cmd : Type}

/-! ## The record of one voter -/

/-- Term and vote of a server cover the votes `V` it has cast: none is in a
later term, and those of the present term are for the present vote. -/
def Covers (V : ℕ → Fin n → Prop) (term : ℕ) (vote : Option (Fin n)) : Prop :=
  ∀ T c, V T c → T ≤ term ∧ (T = term → vote = some c)

/-- The votes of a server are covered in memory and in its persister, and the
saved term is not ahead. -/
structure Records (V : ℕ → Fin n → Prop) (rf : Raft n Cmd) : Prop where
  covers : Covers V rf.currentTerm rf.votedFor
  saved : ∀ T c, V T c → ∃ saved, rf.persister.raftstate = some saved ∧
    T ≤ saved.currentTerm ∧
    (T = saved.currentTerm → saved.votedFor = some c)
  savedTerm : ∀ saved, rf.persister.raftstate = some saved →
    saved.currentTerm ≤ rf.currentTerm

namespace Covers

variable {V : ℕ → Fin n → Prop} {term : ℕ} {vote : Option (Fin n)}

/-- In a later term any vote will do. -/
theorem raise (h : Covers V term vote) {T : ℕ} (hlt : term < T)
    (vote' : Option (Fin n)) : Covers V T vote' := by
  intro U c hV
  have hle := (h U c hV).1
  exact ⟨by omega, fun heq ↦ by omega⟩

/-- A free vote may be given to a candidate. -/
theorem grant (h : Covers V term vote) {c : Fin n}
    (hfree : vote = none ∨ vote = some c) : Covers V term (some c) := by
  intro U d hV
  obtain ⟨hle, hvote⟩ := h U d hV
  refine ⟨hle, fun heq ↦ ?_⟩
  have hd := hvote heq
  rcases hfree with hnone | hsome
  · simp [hnone] at hd
  · rw [← hsome, hd]

end Covers

namespace Records

variable {V : ℕ → Fin n → Prop} {rf rf' : Raft n Cmd}

theorem of_eq (h : Records V rf) (hterm : rf'.currentTerm = rf.currentTerm)
    (hvote : rf'.votedFor = rf.votedFor)
    (hsaved : rf'.persister = rf.persister) : Records V rf' where
  covers := by rw [hterm, hvote]; exact h.covers
  saved := by rw [hsaved]; exact h.saved
  savedTerm := by rw [hsaved, hterm]; exact h.savedTerm

theorem persist (h : Covers V rf.currentTerm rf.votedFor) :
    Records V rf.persist where
  covers := h
  saved := fun T c hV ↦ ⟨_, rfl, h T c hV⟩
  savedTerm := by
    intro saved hsaved
    cases hsaved
    exact le_rfl

theorem change [Zero Cmd] {In : Inputs n Cmd} (hchange : Change In rf rf')
    (h : Records V rf) : Records V rf' := by
  cases hchange with
  | elect =>
      rw [Raft.electLauncher_rf]
      exact persist (h.covers.raise (Nat.lt_succ_self _) _)
  | follow hlt =>
      refine ⟨h.covers.raise hlt _, h.saved, ?_⟩
      intro saved hsaved
      exact le_trans (h.savedTerm saved hsaved) (le_of_lt hlt)
  | grant _ hgrants => exact persist (h.covers.grant hgrants.free)
  | raise hlt => exact persist (h.covers.raise hlt _)
  | demote | lead | reindex | matched | commit | apply =>
      exact h.of_eq rfl rfl rfl
  | start | snapshot | install => exact persist h.covers
  | @conflict _ _ k =>
      unfold Raft.stamped
      split
      · exact persist h.covers
      · exact persist h.covers
  | @accept args _ k =>
      have happend : Records V ((rf.stamped k).appendLog k args.entries) := by
        unfold Raft.appendLog Raft.stamped
        split <;> split
        · exact persist h.covers
        · exact persist h.covers
        · exact h.of_eq rfl rfl rfl
        · exact h
      unfold Raft.advanceCommit
      split
      · exact happend.of_eq rfl rfl rfl
      · exact happend

theorem make [Zero Cmd] (h : Records V rf) (me : Fin n) :
    Records V (Raft.make me rf.persister) := by
  rcases Raft.make_cases me rf.persister with
    ⟨hnone, hmake⟩ | ⟨saved, hsaved, hmake⟩ <;> rw [hmake]
  · refine ⟨?_, h.saved, ?_⟩
    · intro T c hV
      obtain ⟨saved, hsome, _⟩ := h.saved T c hV
      cases hnone.symm.trans hsome
    · intro saved hsome
      cases hnone.symm.trans hsome
  · refine ⟨?_, h.saved, ?_⟩
    · intro T c hV
      obtain ⟨saved', hsaved', hrest⟩ := h.saved T c hV
      obtain rfl : saved = saved' :=
        Option.some.inj (hsaved.symm.trans hsaved')
      exact hrest
    · intro saved' hsaved'
      obtain rfl : saved = saved' :=
        Option.some.inj (hsaved.symm.trans hsaved')
      exact le_rfl

end Records

/-- A vote that was just cast is the present one and is saved. -/
structure JustVoted (rf : Raft n Cmd) (T : ℕ) (c : Fin n) : Prop where
  term : rf.currentTerm = T
  vote : rf.votedFor = some c
  saved : ∃ saved, rf.persister.raftstate = some saved ∧
    saved.currentTerm = T ∧ saved.votedFor = some c

/-- The old votes and the one just cast are covered together. -/
theorem Records.insert {V V' : ℕ → Fin n → Prop} {rf : Raft n Cmd}
    (h : Records V rf)
    (hnew : ∀ T c, V' T c → V T c ∨ JustVoted rf T c) : Records V' rf where
  covers := by
    intro T c hV'
    rcases hnew T c hV' with hV | hjust
    · exact h.covers T c hV
    · exact ⟨hjust.term.ge, fun _ ↦ hjust.vote⟩
  saved := by
    intro T c hV'
    rcases hnew T c hV' with hV | hjust
    · exact h.saved T c hV
    · obtain ⟨saved, hsaved, hterm, hvote⟩ := hjust.saved
      exact ⟨saved, hsaved, hterm.ge, fun _ ↦ hvote⟩
  savedTerm := h.savedTerm

/-- A server keeps its identity. -/
theorem me_change [Zero Cmd] {In : Inputs n Cmd} {rf rf' : Raft n Cmd}
    (hchange : Change In rf rf') : rf'.me = rf.me := by
  cases hchange with
  | elect => rw [Raft.electLauncher_rf]; rfl
  | conflict =>
      unfold Raft.stamped
      split <;> rfl
  | accept =>
      unfold Raft.advanceCommit Raft.appendLog Raft.stamped
      split <;> split <;> split <;> rfl
  | _ => rfl

/-! ## Calls and counters -/

/-- The reply of this call is not yet counted. -/
def VoteCall.Pending (call : VoteCall n) : Prop :=
  match call.phase with
  | .sent | .replied _ | .checked _ => True
  | .won _ | .counted _ | .finished => False

/-- What distinguishes the calls of a cluster. -/
def VoteCall.key (call : VoteCall n) : Fin n × ℕ × ℕ × Fin n :=
  (call.caller, call.incarnation, call.election, call.peer)

namespace Cluster

/-- Server `g` has voted for `c` in term `T`. -/
def Voted (σ : Cluster n Cmd) (g : Fin n) (T : ℕ) (c : Fin n) : Prop :=
  Event.voted g T c ∈ σ.events

/-- A majority has voted for `s` in term `T`. -/
def Backed (σ : Cluster n Cmd) (T : ℕ) (s : Fin n) : Prop :=
  ∃ Q : Finset (Fin n), Consensus.Majority Q ∧ ∀ g ∈ Q, σ.Voted g T s

/-- A vote request belongs to a counter of its caller, its granted reply is a
vote, and a call that has won is backed by a majority. -/
structure CallSound (σ : Cluster n Cmd) (call : VoteCall n) : Prop where
  candidate : call.args.candidateId = call.caller
  incarnation : call.incarnation ≤ (σ.server call.caller).incarnation
  counter : call.incarnation = (σ.server call.caller).incarnation →
    ∃ cell, (σ.server call.caller).elections[call.election]? = some cell ∧
      cell.term = call.args.term
  granted : ∀ reply, call.phase = .replied reply ∨
      call.phase = .checked reply → reply.voteGranted = true →
    σ.Voted call.peer call.args.term call.caller
  won : ∀ reply, call.phase = .won reply →
    σ.Backed call.args.term call.caller

/-- The counter number `e` of server `s` has counted distinct voters, none of
whose replies is pending. -/
def CounterSound (σ : Cluster n Cmd) (s : Fin n) (e : ℕ)
    (cell : Election) : Prop :=
  ∃ Q : Finset (Fin n), Q.card = cell.vote ∧
    (∀ g ∈ Q, σ.Voted g cell.term s) ∧
    ∀ call ∈ σ.voteCalls, call.caller = s →
      call.incarnation = (σ.server s).incarnation → call.election = e →
      call.Pending → call.peer ∉ Q

/-- The invariant of votes and elections. -/
structure Ballots (σ : Cluster n Cmd) : Prop where
  me : ∀ s, (σ.server s).rf.me = s
  records : ∀ g, Records (σ.Voted g) (σ.server g).rf
  unique : ∀ g T c d, σ.Voted g T c → σ.Voted g T d → c = d
  keys : (σ.voteCalls.map VoteCall.key).Nodup
  calls : ∀ call ∈ σ.voteCalls, σ.CallSound call
  counters : ∀ s e cell, (σ.server s).elections[e]? = some cell →
    σ.CounterSound s e cell

variable [Zero Cmd] {σ σ' : Cluster n Cmd} {a : Action Cmd n}

theorem ballots_init : Ballots (init : Cluster n Cmd) where
  me := fun s ↦ (Raft.make_volatile s _).1
  records := fun g ↦
    ⟨by simp [Covers, Voted, init], by simp [Voted, init],
      by simp [init, boot, Raft.make, Raft.readPersist]⟩
  unique := by simp [Voted, init]
  keys := by simp [init]
  calls := by simp [init]
  counters := by simp [init, boot]

theorem Voted.mono {g c : Fin n} {T : ℕ} (h : σ.Voted g T c)
    (htrans : Transition σ a σ') : σ'.Voted g T c :=
  htrans.events_grow.subset h

theorem Backed.mono {T : ℕ} {s : Fin n} (h : σ.Backed T s)
    (htrans : Transition σ a σ') : σ'.Backed T s := by
  obtain ⟨Q, hQ, hall⟩ := h
  exact ⟨Q, hQ, fun g hg ↦ (hall g hg).mono htrans⟩

/-- A vote in the history is an old one or was just cast. -/
theorem Transition.voted_origin (h : Transition σ a σ')
    (hme : ∀ s, (σ.server s).rf.me = s) {g c : Fin n} {T : ℕ}
    (hvoted : σ'.Voted g T c) :
    σ.Voted g T c ∨ JustVoted (σ'.server g).rf T c := by
  rcases h.vote_cause hvoted with hold | hnew
  · exact Or.inl hold
  · right
    cases hnew with
    | own hrun hterm hself =>
        obtain ⟨_, last, _, rfl⟩ := Raft.electLauncher_done hrun
        subst hterm hself
        have hvote := congrArg some (hme c)
        rw [h.elect_rf, Raft.electLauncher_rf]
        exact ⟨rfl, hvote, _, rfl, rfl, hvote⟩
    | granted hcall hrun hgranted hvoter hterm hcandidate =>
        subst hvoter hterm hcandidate
        rw [h.vote_rf hcall]
        rcases Raft.requestVoteHandler_cases _ _ with
          hcase | hcase | ⟨last, hgrants, hcase⟩
        all_goals
          rw [hcase] at hrun
          cases hrun
        · cases hgranted
        · rw [hcase]
          exact ⟨hgrants.term, rfl, _, rfl, hgrants.term, rfl⟩

theorem Ballots.me_step (hinv : Ballots σ) (htrans : Transition σ a σ')
    (t : Fin n) : (σ'.server t).rf.me = t := by
  cases htrans.evolves t with
  | changes hchanges =>
      exact hchanges.preserves (P := fun rf ↦ rf.me = t)
        (fun hchange hme ↦ (me_change hchange).trans hme) (hinv.me t)
  | restart _ hboot =>
      rw [hboot]
      exact (Raft.make_volatile t _).1

/-- The votes before the step are covered after it. -/
theorem Ballots.records_old (hinv : Ballots σ) (htrans : Transition σ a σ')
    (g : Fin n) : Records (σ.Voted g) (σ'.server g).rf := by
  cases htrans.evolves g with
  | changes hchanges =>
      exact hchanges.preserves Records.change (hinv.records g)
  | restart _ hboot =>
      rw [hboot]
      exact (hinv.records g).make g

theorem Ballots.unique_step (hinv : Ballots σ) (htrans : Transition σ a σ')
    {g c d : Fin n} {T : ℕ} (hc : σ'.Voted g T c) (hd : σ'.Voted g T d) :
    c = d := by
  have hold : ∀ {b c : Fin n}, σ.Voted g T b →
      JustVoted (σ'.server g).rf T c → b = c := by
    intro b c hb hjust
    have hvote := ((hinv.records_old htrans g).covers T b hb).2
      hjust.term.symm
    exact Option.some.inj (hvote.symm.trans hjust.vote)
  rcases htrans.voted_origin hinv.me hc with hc | hc <;>
    rcases htrans.voted_origin hinv.me hd with hd | hd
  · exact hinv.unique g T c d hc hd
  · exact hold hc hd
  · exact (hold hd hc).symm
  · exact Option.some.inj (hc.vote.symm.trans hd.vote)

/-! ## What a step does to calls and counters -/

/-- The phase of a vote request moves on, to what the step has established. -/
inductive PhaseStep (σ σ' : Cluster n Cmd) (old : VoteCall n) :
    VotePhase → Prop
  | finish : PhaseStep σ σ' old .finished
  | reply {reply : RequestVoteReply} (hsent : old.phase = .sent)
      (hvoted : reply.voteGranted = true →
        σ'.Voted old.peer old.args.term old.args.candidateId) :
      PhaseStep σ σ' old (.replied reply)
  | check {reply : RequestVoteReply} (hreplied : old.phase = .replied reply) :
      PhaseStep σ σ' old (.checked reply)
  | count {reply : RequestVoteReply} : PhaseStep σ σ' old (.counted reply)
  | won {reply : RequestVoteReply} (cell : Election)
      (hinc : old.incarnation = (σ'.server old.caller).incarnation)
      (hcell : (σ'.server old.caller).elections[old.election]? = some cell)
      (hmajority : cell.vote > n / 2) : PhaseStep σ σ' old (.won reply)

/-- The calls of a new election. -/
def electionCalls (σ : Cluster n Cmd) (s : Fin n)
    (args : RequestVoteArgs n) (peers : List (Fin n)) : List (VoteCall n) :=
  peers.map fun peer ↦
    { caller := s
      incarnation := (σ.server s).incarnation
      peer := peer
      args := args
      election := (σ.server s).elections.length
      phase := .sent }

/-- The vote requests after a step: unchanged, one of them in its next phase,
or those of a new election besides. -/
inductive CallsStep (σ σ' : Cluster n Cmd) : Prop
  | same (hcalls : σ'.voteCalls = σ.voteCalls)
  | phase {k : ℕ} {old : VoteCall n} {phase : VotePhase}
      (hold : σ.voteCalls[k]? = some old)
      (hphase : PhaseStep σ σ' old phase)
      (hcalls : σ'.voteCalls =
        σ.voteCalls.set k { old with phase := phase })
  | election {s : Fin n} {args : RequestVoteArgs n}
      (hcandidate : args.candidateId = (σ.server s).rf.me)
      (hinc : (σ'.server s).incarnation = (σ.server s).incarnation)
      (hcells : (σ'.server s).elections =
        (σ.server s).elections ++ [{ term := args.term, vote := 1 }])
      (hcalls : σ'.voteCalls = σ.voteCalls ++
        σ.electionCalls s args (Raft.others (σ.server s).rf.me))

theorem Transition.callsStep (h : Transition σ a σ') : CallsStep σ σ' := by
  cases h with
  | @elect s _ _ _ _ hrun =>
      obtain ⟨hrf, last, _, rfl⟩ := Raft.electLauncher_done hrun
      rw [Raft.electLauncher_rf] at hrf
      subst hrf
      exact .election (s := s) rfl (by simp) (by simp) rfl
  | votePanic hcall => exact .phase hcall .finish rfl
  | @vote k call rf reply hcall hphase _ hrun =>
      refine .phase hcall (.reply hphase ?_) rfl
      intro hgranted
      refine List.mem_append_right _ ?_
      simp [hgranted]
  | checkVote hcall hphase =>
      refine .phase hcall ?_ rfl
      split
      · exact .check hphase
      · exact .finish
  | countRefused hcall => exact .phase hcall .count rfl
  | @countGranted k call reply election hcall _ hresumes _ helection =>
      refine .phase hcall ?_ rfl
      have hlt := (List.getElem?_eq_some_iff.mp helection).1
      split
      · next hif =>
          exact .won { election with vote := election.vote + 1 }
            (by simp [hresumes.2])
            (by simp [List.getElem?_set_self hlt]) hif.1
      · exact .count
  | promotePanic hcall => exact .phase hcall .finish rfl
  | promote hcall => exact .phase hcall .count rfl
  | finishVote hcall => exact .phase hcall .finish rfl
  | _ => exact .same rfl

/-- What a step does to counter number `e` of server `s`. -/
inductive CounterStep (σ σ' : Cluster n Cmd) (s : Fin n) (e : ℕ)
    (cell : Election) : Prop
  | same (hinc : (σ'.server s).incarnation = (σ.server s).incarnation)
      (hold : (σ.server s).elections[e]? = some cell)
  | opened (hfresh : e = (σ.server s).elections.length)
      (hinc : (σ'.server s).incarnation = (σ.server s).incarnation)
      (hvote : cell.vote = 1) (hvoted : σ'.Voted s cell.term s)
      (hcalls : ∃ args, σ'.voteCalls = σ.voteCalls ++
        σ.electionCalls s args (Raft.others (σ.server s).rf.me))
  | counted {k : ℕ} {call : VoteCall n} {reply : RequestVoteReply}
      {phase : VotePhase} {old : Election}
      (hcall : σ.voteCalls[k]? = some call)
      (hphase : call.phase = .checked reply)
      (hgranted : reply.voteGranted = true) (hcaller : call.caller = s)
      (hinc : call.incarnation = (σ.server s).incarnation)
      (hinc' : (σ'.server s).incarnation = (σ.server s).incarnation)
      (helection : call.election = e)
      (hold : (σ.server s).elections[e]? = some old)
      (hcell : cell = { old with vote := old.vote + 1 })
      (hdone : ¬ VoteCall.Pending { call with phase := phase })
      (hcalls : σ'.voteCalls =
        σ.voteCalls.set k { call with phase := phase })

theorem Transition.counterStep (h : Transition σ a σ') {s : Fin n} {e : ℕ}
    {cell : Election} (hcell : (σ'.server s).elections[e]? = some cell) :
    CounterStep σ σ' s e cell := by
  cases h with
  | @elect t _ _ _ _ hrun =>
      obtain ⟨hrf, last, _, rfl⟩ := Raft.electLauncher_done hrun
      rw [Raft.electLauncher_rf] at hrf
      subst hrf
      by_cases hst : s = t
      · subst hst
        simp only [openElection_server, Function.update_self] at hcell
        by_cases hlt : e < (σ.server s).elections.length
        · rw [List.getElem?_append_left hlt] at hcell
          exact .same (by simp) hcell
        · have hlen := (List.getElem?_eq_some_iff.mp hcell).1
          simp only [List.length_append, List.length_singleton] at hlen
          obtain rfl : e = (σ.server s).elections.length := by omega
          obtain rfl := by simpa using hcell
          exact .opened rfl (by simp) rfl (by simp [Voted]) ⟨_, rfl⟩
      · simp only [openElection_server, Function.update_of_ne hst] at hcell
        exact .same (by simp [Function.update_of_ne hst]) hcell
  | @countGranted k call reply election hcall hphase hresumes hgranted
      helection =>
      by_cases hs : s = call.caller
      · subst hs
        simp only [setVotePhase_server, setServer_server,
          Function.update_self] at hcell
        by_cases he : e = call.election
        · subst he
          have hlt := (List.getElem?_eq_some_iff.mp helection).1
          rw [List.getElem?_set_self hlt] at hcell
          refine .counted hcall hphase hgranted rfl hresumes.2.symm
            (by simp) rfl helection (Option.some.inj hcell).symm ?_ rfl
          split <;> simp [VoteCall.Pending]
        · rw [List.getElem?_set_ne (Ne.symm he)] at hcell
          exact .same (by simp) hcell
      · simp only [setVotePhase_server, setServer_server,
          Function.update_of_ne hs] at hcell
        exact .same (by simp [Function.update_of_ne hs]) hcell
  | @restart t =>
      by_cases hst : s = t
      · subst hst
        simp [boot] at hcell
      · simp only [setServer_server, Function.update_of_ne hst] at hcell
        exact .same (by simp [Function.update_of_ne hst]) hcell
  | countRefused => exact .same rfl hcell
  | _ =>
      revert hcell
      simp only [stop_server, launch_server, setVotePhase_server,
        record_server, setRf_server, setServer_server, setAppendPhase_server,
        setSnapPhase_server, callSnap_server, handOver_server,
        Function.update_apply]
      intro hcell
      refine .same ?_ ?_
      · simp only [stop_server, launch_server, setVotePhase_server,
          record_server, setRf_server, setServer_server,
          setAppendPhase_server, setSnapPhase_server, callSnap_server,
          handOver_server, Function.update_apply]
        split
        · next heq =>
            subst heq
            rfl
        · rfl
      · split at hcell
        · next heq =>
            subst heq
            exact hcell
        · exact hcell

/-- Within an incarnation counters stay and keep their term. -/
theorem Transition.counter_keep (h : Transition σ a σ') {s : Fin n} {e : ℕ}
    {cell : Election} (hcell : (σ.server s).elections[e]? = some cell)
    (hinc : (σ'.server s).incarnation = (σ.server s).incarnation) :
    ∃ cell', (σ'.server s).elections[e]? = some cell' ∧
      cell'.term = cell.term := by
  have hlt := (List.getElem?_eq_some_iff.mp hcell).1
  cases h with
  | @elect t =>
      refine ⟨cell, ?_, rfl⟩
      by_cases hst : s = t
      · subst hst
        simpa [List.getElem?_append_left hlt] using hcell
      · simpa [Function.update_of_ne hst] using hcell
  | @countGranted k call reply election _ _ _ _ helection =>
      by_cases hs : s = call.caller
      · subst hs
        by_cases he : e = call.election
        · subst he
          obtain rfl : cell = election :=
            Option.some.inj (hcell.symm.trans helection)
          exact ⟨{ cell with vote := cell.vote + 1 },
            by simp [List.getElem?_set_self hlt], rfl⟩
        · exact ⟨cell, by simpa [List.getElem?_set_ne (Ne.symm he)] using
            hcell, rfl⟩
      · exact ⟨cell, by simpa [Function.update_of_ne hs] using hcell, rfl⟩
  | @restart t =>
      by_cases hst : s = t
      · subst hst
        simp [boot] at hinc
      · exact ⟨cell, by simpa [Function.update_of_ne hst] using hcell, rfl⟩
  | countRefused => exact ⟨cell, hcell, rfl⟩
  | _ =>
      refine ⟨cell, ?_, rfl⟩
      simp only [stop_server, launch_server, setVotePhase_server,
        record_server, setRf_server, setServer_server, setAppendPhase_server,
        setSnapPhase_server, callSnap_server, handOver_server,
        Function.update_apply]
      split
      · next heq =>
          subst heq
          exact hcell
      · exact hcell

theorem Transition.incarnation_le (h : Transition σ a σ') (s : Fin n) :
    (σ.server s).incarnation ≤ (σ'.server s).incarnation := by
  cases h.evolves s with
  | changes _ hinc => exact hinc.ge
  | restart _ hboot =>
      rw [hboot]
      exact Nat.le_succ _

/-! ## Preservation -/

/-- A call that stays as it is stays sound. -/
theorem CallSound.keep {call : VoteCall n} (h : σ.CallSound call)
    (htrans : Transition σ a σ') : σ'.CallSound call where
  candidate := h.candidate
  incarnation := le_trans h.incarnation (htrans.incarnation_le _)
  counter := by
    intro hinc
    have hle := htrans.incarnation_le call.caller
    have hold : call.incarnation = (σ.server call.caller).incarnation :=
      le_antisymm h.incarnation (hinc ▸ hle)
    obtain ⟨cell, hcell, hterm⟩ := h.counter hold
    obtain ⟨cell', hcell', hterm'⟩ :=
      htrans.counter_keep hcell (hinc.symm.trans hold)
    exact ⟨cell', hcell', hterm'.trans hterm⟩
  granted := fun reply hphase hyes ↦
    (h.granted reply hphase hyes).mono htrans
  won := fun reply hphase ↦ (h.won reply hphase).mono htrans

/-- A call in its next phase is sound, given that the counters are. -/
theorem CallSound.phase {call : VoteCall n} {phase : VotePhase}
    (h : σ.CallSound call) (htrans : Transition σ a σ')
    (hphase : PhaseStep σ σ' call phase)
    (hcounters : ∀ s e cell, (σ'.server s).elections[e]? = some cell →
      σ'.CounterSound s e cell) :
    σ'.CallSound { call with phase := phase } := by
  have hkeep := h.keep htrans
  refine ⟨hkeep.candidate, hkeep.incarnation, hkeep.counter, ?_, ?_⟩
  · intro reply hreply hyes
    cases hphase with
    | finish => rcases hreply with hreply | hreply <;> cases hreply
    | reply _ hvoted =>
        rcases hreply with hreply | hreply
        · cases hreply
          have hnew := hvoted hyes
          rwa [h.candidate] at hnew
        · cases hreply
    | check hreplied =>
        rcases hreply with hreply | hreply
        · cases hreply
        · cases hreply
          exact hkeep.granted _ (Or.inl hreplied) hyes
    | count => rcases hreply with hreply | hreply <;> cases hreply
    | won => rcases hreply with hreply | hreply <;> cases hreply
  · intro reply hwon
    cases hphase with
    | won cell hinc hcell hmajority =>
        obtain ⟨cell', hcell', hterm⟩ := hkeep.counter hinc
        obtain rfl : cell = cell' :=
          Option.some.inj (hcell.symm.trans hcell')
        obtain ⟨Q, hcard, hall, _⟩ := hcounters _ _ _ hcell
        refine ⟨Q, ?_, ?_⟩
        · unfold Consensus.Majority
          rw [Fintype.card_fin, hcard]
          exact hmajority
        · intro g hg
          rw [← hterm]
          exact hall g hg
    | finish | reply | check | count => cases hwon

omit [Zero Cmd] in
/-- A call that is pending after the step was pending before it, or belongs to
a new election. -/
theorem CallsStep.pending (h : CallsStep σ σ') {call : VoteCall n}
    (hcall : call ∈ σ'.voteCalls) (hpending : call.Pending) :
    (∃ old ∈ σ.voteCalls, old.Pending ∧ old.key = call.key) ∨
      call.election = (σ.server call.caller).elections.length ∧
        call.peer ≠ (σ.server call.caller).rf.me := by
  cases h with
  | same hcalls =>
      rw [hcalls] at hcall
      exact Or.inl ⟨call, hcall, hpending, rfl⟩
  | @phase k old phase hold hphase hcalls =>
      rw [hcalls] at hcall
      left
      rcases List.mem_or_eq_of_mem_set hcall with hsame | rfl
      · exact ⟨call, hsame, hpending, rfl⟩
      · refine ⟨old, List.mem_of_getElem? hold, ?_, rfl⟩
        cases hphase with
        | reply hsent => simp [VoteCall.Pending, hsent]
        | check hreplied => simp [VoteCall.Pending, hreplied]
        | finish | count | won => exact hpending.elim
  | election _ _ _ hcalls =>
      rw [hcalls] at hcall
      rcases List.mem_append.mp hcall with hsame | hnew
      · exact Or.inl ⟨call, hsame, hpending, rfl⟩
      · obtain ⟨peer, hpeer, rfl⟩ := List.mem_map.mp hnew
        exact Or.inr ⟨rfl, Raft.mem_others.mp hpeer⟩

omit [Zero Cmd] in
theorem map_key_set {calls : List (VoteCall n)} {k : ℕ} {old : VoteCall n}
    (hold : calls[k]? = some old) (phase : VotePhase) :
    (calls.set k { old with phase := phase }).map VoteCall.key =
      calls.map VoteCall.key := by
  have hget : (calls.map VoteCall.key)[k]? = some old.key := by
    simp [hold]
  obtain ⟨hlt, hkey⟩ := List.getElem?_eq_some_iff.mp hget
  have hsame : VoteCall.key { old with phase := phase } =
      (calls.map VoteCall.key)[k] := hkey.symm
  rw [List.map_set, hsame, List.set_getElem_self]

omit [Zero Cmd] in
theorem Ballots.keys_step (hinv : Ballots σ) (h : CallsStep σ σ') :
    (σ'.voteCalls.map VoteCall.key).Nodup := by
  cases h with
  | same hcalls => rw [hcalls]; exact hinv.keys
  | phase hold _ hcalls =>
      rw [hcalls, map_key_set hold]
      exact hinv.keys
  | @election s args _ _ _ hcalls =>
      rw [hcalls, List.map_append, List.nodup_append]
      refine ⟨hinv.keys, ?_, ?_⟩
      · have hothers : (Raft.others (σ.server s).rf.me).Nodup :=
          (List.nodup_finRange n).filter _
        unfold electionCalls
        rw [List.map_map]
        refine hothers.map ?_
        intro p q hpq
        simpa [VoteCall.key] using hpq
      · intro key hkey key' hkey' heq
        obtain ⟨call, hcall, rfl⟩ := List.mem_map.mp hkey
        obtain ⟨new, hnew, rfl⟩ := List.mem_map.mp hkey'
        obtain ⟨peer, _, rfl⟩ := List.mem_map.mp hnew
        simp only [VoteCall.key, Prod.mk.injEq] at heq
        obtain ⟨rfl, hinc, helection, _⟩ := heq
        obtain ⟨cell, hcell, _⟩ := (hinv.calls call hcall).counter hinc
        have hlt := (List.getElem?_eq_some_iff.mp hcell).1
        omega

/-- A counter that is not touched stays sound. -/
theorem Ballots.counter_same (hinv : Ballots σ) (htrans : Transition σ a σ')
    {s : Fin n} {e : ℕ} {cell : Election}
    (hinc : (σ'.server s).incarnation = (σ.server s).incarnation)
    (hold : (σ.server s).elections[e]? = some cell) :
    σ'.CounterSound s e cell := by
  obtain ⟨Q, hcard, hall, hpending⟩ := hinv.counters s e cell hold
  have hlt := (List.getElem?_eq_some_iff.mp hold).1
  refine ⟨Q, hcard, fun g hg ↦ (hall g hg).mono htrans, ?_⟩
  rintro call hcall rfl hcallInc helection hwaiting
  rcases htrans.callsStep.pending hcall hwaiting with
    ⟨old, hmem, hwas, hkey⟩ | ⟨hfresh, _⟩
  · simp only [VoteCall.key, Prod.mk.injEq] at hkey
    obtain ⟨hcaller, holdInc, holdElection, hpeer⟩ := hkey
    rw [← hpeer]
    exact hpending old hmem hcaller
      (holdInc.trans (hcallInc.trans hinc))
      (holdElection.trans helection) hwas
  · omega

omit [Zero Cmd] in
/-- A new counter has counted its server's own vote. -/
theorem Ballots.counter_opened (hinv : Ballots σ) {s : Fin n}
    {cell : Election} (hvote : cell.vote = 1)
    (hvoted : σ'.Voted s cell.term s)
    (hinc : (σ'.server s).incarnation = (σ.server s).incarnation)
    {args : RequestVoteArgs n}
    (hcalls : σ'.voteCalls = σ.voteCalls ++
      σ.electionCalls s args (Raft.others (σ.server s).rf.me)) :
    σ'.CounterSound s (σ.server s).elections.length cell := by
  refine ⟨{s}, by simp [hvote], by simpa using hvoted, ?_⟩
  rintro call hcall rfl hcallInc helection _
  rw [hcalls] at hcall
  rcases List.mem_append.mp hcall with hold | hnew
  · obtain ⟨old, hget, _⟩ :=
      (hinv.calls call hold).counter (hcallInc.trans hinc)
    have hlt := (List.getElem?_eq_some_iff.mp hget).1
    omega
  · obtain ⟨peer, hpeer, heq⟩ := List.mem_map.mp hnew
    have hne := Raft.mem_others.mp hpeer
    rw [hinv.me] at hne
    have hsame : peer = call.peer := congrArg VoteCall.peer heq
    rw [Finset.mem_singleton, ← hsame]
    exact hne

/-- A counted vote is a vote of a server that was not counted before. -/
theorem Ballots.counter_counted (hinv : Ballots σ)
    (htrans : Transition σ a σ') {k : ℕ} {call : VoteCall n}
    {reply : RequestVoteReply} {phase : VotePhase} {old : Election}
    (hcall : σ.voteCalls[k]? = some call)
    (hphase : call.phase = .checked reply)
    (hgranted : reply.voteGranted = true)
    (hinc : call.incarnation = (σ.server call.caller).incarnation)
    (hinc' : (σ'.server call.caller).incarnation =
      (σ.server call.caller).incarnation)
    (hold : (σ.server call.caller).elections[call.election]? = some old)
    (hdone : ¬ VoteCall.Pending { call with phase := phase })
    (hcalls : σ'.voteCalls = σ.voteCalls.set k { call with phase := phase }) :
    σ'.CounterSound call.caller call.election
      { old with vote := old.vote + 1 } := by
  have hmem := List.mem_of_getElem? hcall
  have hsound := hinv.calls call hmem
  obtain ⟨Q, hcard, hall, hpending⟩ := hinv.counters _ _ _ hold
  have hnot : call.peer ∉ Q := by
    refine hpending call hmem rfl hinc rfl ?_
    simp [VoteCall.Pending, hphase]
  obtain ⟨cell, hcell, hterm⟩ := hsound.counter hinc
  obtain rfl : old = cell := Option.some.inj (hold.symm.trans hcell)
  refine ⟨insert call.peer Q, ?_, ?_, ?_⟩
  · rw [Finset.card_insert_of_notMem hnot, hcard]
  · intro g hg
    rcases Finset.mem_insert.mp hg with rfl | hg
    · have hvoted := hsound.granted reply (Or.inr hphase) hgranted
      rw [hterm]
      exact hvoted.mono htrans
    · exact (hall g hg).mono htrans
  · intro other hother hcaller hotherInc helection hwaiting
    rw [hcalls] at hother
    obtain ⟨i, hi⟩ := List.mem_iff_getElem?.mp hother
    have hik : i ≠ k := by
      rintro rfl
      have hlt := (List.getElem?_eq_some_iff.mp hcall).1
      rw [List.getElem?_set_self hlt] at hi
      exact hdone (Option.some.inj hi ▸ hwaiting)
    rw [List.getElem?_set_ne (Ne.symm hik)] at hi
    have hotherInc' := hotherInc.trans hinc'
    rw [Finset.mem_insert, not_or]
    refine ⟨?_, hpending other (List.mem_of_getElem? hi) hcaller hotherInc'
      helection hwaiting⟩
    intro hpeer
    have hkey : other.key = call.key := by
      simp [VoteCall.key, hcaller, hotherInc', hinc, helection, hpeer]
    have hi' : (σ.voteCalls.map VoteCall.key)[i]? = some call.key := by
      simp [hi, hkey]
    have hk' : (σ.voteCalls.map VoteCall.key)[k]? = some call.key := by
      simp [hcall]
    obtain ⟨_, hgi⟩ := List.getElem?_eq_some_iff.mp hi'
    obtain ⟨_, hgk⟩ := List.getElem?_eq_some_iff.mp hk'
    exact hik (hinv.keys.getElem_inj_iff.mp (hgi.trans hgk.symm))

theorem Ballots.step (hinv : Ballots σ) (hstep : σ.step a = some σ') :
    Ballots σ' := by
  have htrans := step_transition hstep
  have hcounters : ∀ s e cell, (σ'.server s).elections[e]? = some cell →
      σ'.CounterSound s e cell := by
    intro s e cell hcell
    cases htrans.counterStep hcell with
    | same hinc hold => exact hinv.counter_same htrans hinc hold
    | opened hfresh hinc hvote hvoted hcalls =>
        obtain ⟨args, hcalls⟩ := hcalls
        subst hfresh
        exact hinv.counter_opened hvote hvoted hinc hcalls
    | counted hcall hphase hgranted hcaller hinc hinc' helection hold hcell'
        hdone hcalls =>
        subst hcaller helection hcell'
        exact hinv.counter_counted htrans hcall hphase hgranted hinc hinc'
          hold hdone hcalls
  refine ⟨hinv.me_step htrans, ?_, fun g T c d ↦ hinv.unique_step htrans,
    hinv.keys_step htrans.callsStep, ?_, hcounters⟩
  · intro g
    exact (hinv.records_old htrans g).insert fun T c hvoted ↦
      htrans.voted_origin hinv.me hvoted
  · intro call hcall
    cases htrans.callsStep with
    | same hcalls =>
        rw [hcalls] at hcall
        exact (hinv.calls call hcall).keep htrans
    | phase hold hphase hcalls =>
        rw [hcalls] at hcall
        rcases List.mem_or_eq_of_mem_set hcall with hsame | rfl
        · exact (hinv.calls call hsame).keep htrans
        · exact (hinv.calls _ (List.mem_of_getElem? hold)).phase htrans
            hphase hcounters
    | @election s args hcandidate hinc hcells hcalls =>
        rw [hcalls] at hcall
        rcases List.mem_append.mp hcall with hsame | hnew
        · exact (hinv.calls call hsame).keep htrans
        · obtain ⟨peer, _, rfl⟩ := List.mem_map.mp hnew
          refine ⟨hcandidate.trans (hinv.me s), hinc.ge, ?_, ?_, ?_⟩
          · intro _
            exact ⟨_, by rw [hcells]; exact List.getElem?_concat_length,
              rfl⟩
          · rintro reply (hreply | hreply) <;> cases hreply
          · intro reply hreply
            cases hreply

theorem ballots_of_run {ok : Cluster n Cmd → Action Cmd n → Prop}
    {visited : List (Cluster n Cmd)}
    (hrun : Run step ok init visited σ) : Ballots σ :=
  hrun.invariant ballots_init fun hinv _ hstep ↦ hinv.step hstep

/-- Every event of a visited state is an event of the last one. -/
theorem event_of_visited {ok : Cluster n Cmd → Action Cmd n → Prop}
    {visited : List (Cluster n Cmd)} (hrun : Run step ok init visited σ)
    {σ₁ : Cluster n Cmd} (hmem : σ₁ ∈ visited) {e : Event n Cmd}
    (he : e ∈ σ₁.events) : e ∈ σ.events :=
  hrun.of_mem_visited_mono (P := fun τ ↦ e ∈ τ.events)
    (fun hold hstep ↦ event_mono hold hstep) hmem he

end Cluster

end DistLabs
