import DistLabs.Raft.Voting

/-!
# Election safety

The votes of one term determine at most one server with a majority.  Whether
that server is the only leader of the term depends on the promotion: the term
check of `SendRequestVote`, its vote count and the promotion are separate
sections, and the promotion does not look at the term again.  A server whose
term was raised in between by a heartbeat, which leaves `VotedFor` as it was,
becomes a leader of a term nobody has elected it for.
-/

namespace DistLabs

variable {n : ℕ} {Cmd : Type}

namespace Cluster

variable [Zero Cmd] {σ σ' : Cluster n Cmd} {a : Action Cmd n}

omit [Zero Cmd] in
/-- A term has at most one server that is backed by a majority. -/
theorem Ballots.backed_unique (hinv : Ballots σ) {s t : Fin n} {T : ℕ}
    (hs : σ.Backed T s) (ht : σ.Backed T t) : s = t := by
  obtain ⟨Q, hQ, hvotedQ⟩ := hs
  obtain ⟨R, hR, hvotedR⟩ := ht
  obtain ⟨g, hgQ, hgR⟩ := hQ.exists_mem_both hR
  exact hinv.unique g T s t (hvotedQ g hgQ) (hvotedR g hgR)

/-! ## Unique majorities -/

/-- A counter above half of the servers is backed by a majority, also in the
history of any later state. -/
theorem backed_of_counter {ok : Cluster n Cmd → Action Cmd n → Prop}
    {visited : List (Cluster n Cmd)} (hrun : Run step ok init visited σ)
    {σ₁ : Cluster n Cmd} (hmem : σ₁ ∈ visited) {s : Fin n}
    {cell : Election} (hcell : cell ∈ (σ₁.server s).elections)
    (hvote : cell.vote > n / 2) : σ.Backed cell.term s := by
  obtain ⟨earlier, hearlier⟩ := hrun.of_mem_visited hmem
  obtain ⟨e, hget⟩ := List.mem_iff_getElem?.mp hcell
  obtain ⟨Q, hcard, hall, _⟩ :=
    (ballots_of_run hearlier).counters s e cell hget
  refine ⟨Q, ?_, fun g hg ↦ event_of_visited hrun hmem (hall g hg)⟩
  unfold Consensus.Majority
  rw [Fintype.card_fin, hcard]
  exact hvote

/-- No server votes for two candidates in one term, and no two servers, at the
same or at different moments, have counters of one term above half of the
servers. -/
theorem unique_majority {visited : List (Cluster n Cmd)}
    (hrun : Run step (fun _ _ ↦ True) init visited σ) :
    (∀ g T c d, Event.voted g T c ∈ σ.events →
      Event.voted g T d ∈ σ.events → c = d) ∧
    ∀ σ₁ ∈ visited, ∀ σ₂ ∈ visited, ∀ s t,
      ∀ cell₁ ∈ (σ₁.server s).elections,
      ∀ cell₂ ∈ (σ₂.server t).elections, cell₁.term = cell₂.term →
        cell₁.vote > n / 2 → cell₂.vote > n / 2 → s = t := by
  have hinv := ballots_of_run hrun
  refine ⟨hinv.unique, ?_⟩
  intro σ₁ hσ₁ σ₂ hσ₂ s t cell₁ hcell₁ cell₂ hcell₂ hterm hvote₁ hvote₂
  have hs := backed_of_counter hrun hσ₁ hcell₁ hvote₁
  have ht := backed_of_counter hrun hσ₂ hcell₂ hvote₂
  rw [← hterm] at ht
  exact hinv.backed_unique hs ht

/-- Server 0 collects the vote of server 1 in term 1. -/
def electingRun : List (Action ℕ 3) :=
  [.elect 0, .deliverVote 0, .checkVote 0, .countVote 0]

/-- In a run in which server 0 counts two votes of three, server 1 has voted
for no other server, and no other counter of the term passes the half. -/
theorem unique_majority_elected :
    ∃ (visited : List (Cluster 3 ℕ)) (σ : Cluster 3 ℕ),
      Run step (fun _ _ ↦ True) init visited σ ∧
      (Event.voted 1 1 0 ∈ σ.events ∧
        (⟨1, 2⟩ : Election) ∈ (σ.server 0).elections ∧ σ ∈ visited) ∧
      (∀ d, Event.voted 1 1 d ∈ σ.events → d = 0) ∧
      ∀ t, ∀ cell ∈ (σ.server t).elections, cell.term = 1 →
        cell.vote > 3 / 2 → t = 0 := by
  obtain ⟨visited, σ, hrun, hvoted, hcell⟩ := Run.exists_of_exec
    step (fun _ _ ↦ True) init electingRun
    (fun σ : Cluster 3 ℕ ↦ Event.voted 1 1 0 ∈ σ.events ∧
      (⟨1, 2⟩ : Election) ∈ (σ.server 0).elections) (by decide +kernel)
  have hlast : σ ∈ visited := hrun.mem_visited
  have hunique := unique_majority hrun
  refine ⟨visited, σ, hrun, ⟨hvoted, hcell, hlast⟩, ?_, ?_⟩
  · intro d hd
    exact hunique.1 1 1 d 0 hd hvoted
  · intro t cell hmem hterm hvote
    exact hunique.2 σ hlast σ hlast t 0 cell hmem ⟨1, 2⟩ hcell hterm hvote
      (by decide)

/-! ## Leaders -/

/-- A server enters the promotion section only while its term is still the one
it was elected for. -/
def PromotesInTerm (σ : Cluster n Cmd) : Action Cmd n → Prop
  | .promote k => ∀ call ∈ σ.voteCalls[k]?,
      (σ.server call.caller).rf.currentTerm = call.args.term
  | _ => True

omit [Zero Cmd] in
instance (σ : Cluster n Cmd) (a : Action Cmd n) :
    Decidable (σ.PromotesInTerm a) := by
  induction a using Action.casesOn <;> dsimp only [PromotesInTerm] <;>
    infer_instance

/-- A server that is a leader has been recorded as one. -/
theorem leader_change {In : Inputs n Cmd} {E : ℕ → Prop}
    {rf rf' : Raft n Cmd} (hwon : ∀ args T, In.won args T → E T)
    (hchange : Change In rf rf')
    (h : rf.state = .leader → E rf.currentTerm) :
    rf'.state = .leader → E rf'.currentTerm := by
  cases hchange with
  | elect hstate =>
      rw [Raft.electLauncher_rf]
      intro hleader
      have hleader' : rf.state = .leader := hleader
      simp [hstate] at hleader'
  | follow | demote | raise => intro hleader; cases hleader
  | lead hin => intro _; exact hwon _ _ hin
  | conflict =>
      unfold Raft.stamped
      split <;> exact h
  | accept =>
      unfold Raft.advanceCommit Raft.appendLog Raft.stamped
      split <;> split <;> split <;> exact h
  | _ => exact h

theorem Transition.elected_mem (h : Transition σ a σ') {s : Fin n} {T : ℕ}
    {args : RequestVoteArgs n} (hin : (σ.inputs a s).won args T) :
    Event.elected s T ∈ σ'.events := by
  obtain ⟨k, call, reply, rfl, hcall, _, _, rfl, _, rfl⟩ := hin
  cases h with
  | promotePanic hcall' _ _ hrun =>
      obtain rfl := Option.some.inj (hcall.symm.trans hcall')
      obtain rfl := Raft.heartBeatLauncher_panic hrun
      exact List.mem_append_right _ (List.mem_singleton_self _)
  | promote hcall' _ _ hrun =>
      obtain rfl := Option.some.inj (hcall.symm.trans hcall')
      obtain ⟨rfl, _⟩ := Raft.heartBeatLauncher_done hrun
      exact List.mem_append_right _ (List.mem_singleton_self _)

/-- A promoted server goes through the promotion section and nothing else. -/
theorem Transition.won_rf (h : Transition σ a σ') {s : Fin n} {T : ℕ}
    {args : RequestVoteArgs n} (hin : (σ.inputs a s).won args T) :
    (σ'.server s).rf = (σ.server s).rf.becomeLeader := by
  obtain ⟨k, call, reply, rfl, hcall, _, _, rfl, _, rfl⟩ := hin
  cases h with
  | promotePanic hcall' _ _ hrun =>
      obtain rfl := Option.some.inj (hcall.symm.trans hcall')
      obtain rfl := Raft.heartBeatLauncher_panic hrun
      simp
  | promote hcall' _ _ hrun =>
      obtain rfl := Option.some.inj (hcall.symm.trans hcall')
      obtain ⟨rfl, _⟩ := Raft.heartBeatLauncher_done hrun
      simp

/-- A promoted server is a leader after the step. -/
theorem Transition.won_leader (h : Transition σ a σ') {s : Fin n} {T : ℕ}
    {args : RequestVoteArgs n} (hin : (σ.inputs a s).won args T) :
    (σ'.server s).rf.state = .leader ∧
      (σ'.server s).rf.currentTerm = T := by
  rw [h.won_rf hin]
  obtain ⟨_, _, _, _, _, _, _, _, _, hterm⟩ := hin
  exact ⟨rfl, hterm.symm⟩

/-- An election in the history is an old one or was just won. -/
theorem Transition.elected_origin (h : Transition σ a σ') {s : Fin n}
    {T : ℕ} (he : Event.elected s T ∈ σ'.events) :
    Event.elected s T ∈ σ.events ∨ ∃ args, (σ.inputs a s).won args T := by
  cases h with
  | promotePanic hcall hphase hresumes hrun =>
      obtain rfl := Raft.heartBeatLauncher_panic hrun
      rcases List.mem_append.mp he with hold | hnew
      · exact Or.inl hold
      · cases List.mem_singleton.mp hnew
        exact Or.inr ⟨_, _, _, _, rfl, hcall, hphase, hresumes, rfl, rfl,
          rfl⟩
  | promote hcall hphase hresumes hrun =>
      obtain ⟨rfl, _⟩ := Raft.heartBeatLauncher_done hrun
      rcases List.mem_append.mp he with hold | hnew
      · exact Or.inl hold
      · cases List.mem_singleton.mp hnew
        exact Or.inr ⟨_, _, _, _, rfl, hcall, hphase, hresumes, rfl, rfl,
          rfl⟩
  | elect | snap | snapshot | receive =>
      rcases List.mem_append.mp he with hold | hnew
      · exact Or.inl hold
      · simp at hnew
  | vote | append | start =>
      rcases List.mem_append.mp he with hold | hnew
      · exact Or.inl hold
      · split at hnew <;> simp at hnew
  | _ => exact Or.inl he

/-- Every leader is recorded as elected in its term. -/
def LeadersElected (σ : Cluster n Cmd) : Prop :=
  ∀ s, (σ.server s).rf.state = .leader →
    Event.elected s (σ.server s).rf.currentTerm ∈ σ.events

omit [Zero Cmd] in
theorem boot_not_leader [Zero Cmd] (s : Fin n) (incarnation : ℕ)
    (persister : Persister n Cmd) :
    (boot s incarnation persister).rf.state ≠ .leader := by
  obtain ⟨_, _, hfollower, _⟩ := Raft.make_volatile s persister
  rw [boot, hfollower]
  intro h
  cases h

theorem LeadersElected.step (hinv : LeadersElected σ)
    (hstep : σ.step a = some σ') : LeadersElected σ' := by
  intro s
  have htrans := step_transition hstep
  cases htrans.evolves s with
  | changes hchanges =>
      exact hchanges.preserves
        (P := fun rf ↦ rf.state = .leader →
          Event.elected s rf.currentTerm ∈ σ'.events)
        (leader_change fun _ _ hin ↦ htrans.elected_mem hin)
        fun hleader ↦ htrans.events_grow.subset (hinv s hleader)
  | restart _ hboot =>
      rw [hboot]
      exact fun hleader ↦ absurd hleader (boot_not_leader _ _ _)

theorem leadersElected_of_run {ok : Cluster n Cmd → Action Cmd n → Prop}
    {visited : List (Cluster n Cmd)}
    (hrun : Run step ok init visited σ) : LeadersElected σ :=
  hrun.invariant
    (fun s hleader ↦ absurd hleader (boot_not_leader s 0 _))
    fun hinv _ hstep ↦ hinv.step hstep

/-- Elections in their own term are backed by a majority. -/
theorem elected_backed {ok : Cluster n Cmd → Action Cmd n → Prop}
    (hok : ∀ σ a, ok σ a → σ.PromotesInTerm a)
    {visited : List (Cluster n Cmd)}
    (hrun : Run step ok init visited σ) {s : Fin n} {T : ℕ}
    (he : Event.elected s T ∈ σ.events) : σ.Backed T s := by
  induction hrun with
  | start => simp [init] at he
  | next hrun hallowed hstep ih =>
      have htrans := step_transition hstep
      rcases htrans.elected_origin he with hold | ⟨args, hin⟩
      · exact (ih hold).mono htrans
      · obtain ⟨k, call, reply, rfl, hcall, hphase, _, rfl, rfl, rfl⟩ := hin
        have hterm := hok _ _ hallowed call hcall
        have hbacked := ((ballots_of_run hrun).calls call
          (List.mem_of_getElem? hcall)).won reply hphase
        rw [hterm]
        exact hbacked.mono htrans

/-- No term has two elected servers. -/
def ElectedUnique (σ : Cluster n Cmd) : Prop :=
  ∀ s t T, Event.elected s T ∈ σ.events → Event.elected t T ∈ σ.events →
    s = t

theorem ElectedUnique.before (hunique : ElectedUnique σ')
    (hstep : σ.step a = some σ') : ElectedUnique σ :=
  fun s t T hs ht ↦
    hunique s t T (event_mono hs hstep) (event_mono ht hstep)

theorem electedUnique_of_run {ok : Cluster n Cmd → Action Cmd n → Prop}
    (hok : ∀ σ a, ok σ a → σ.PromotesInTerm a)
    {visited : List (Cluster n Cmd)}
    (hrun : Run step ok init visited σ) : ElectedUnique σ :=
  fun _ _ _ hs ht ↦ (ballots_of_run hrun).backed_unique
    (elected_backed hok hrun hs) (elected_backed hok hrun ht)

/-- Leaders at any moments of a run are elected in its history. -/
theorem ElectedUnique.leaders {ok : Cluster n Cmd → Action Cmd n → Prop}
    {visited : List (Cluster n Cmd)} (hrun : Run step ok init visited σ)
    (hunique : ElectedUnique σ) {σ₁ σ₂ : Cluster n Cmd}
    (hσ₁ : σ₁ ∈ visited) (hσ₂ : σ₂ ∈ visited) {s t : Fin n}
    (hs : (σ₁.server s).rf.state = .leader)
    (ht : (σ₂.server t).rf.state = .leader)
    (hterm : (σ₁.server s).rf.currentTerm =
      (σ₂.server t).rf.currentTerm) : s = t := by
  have helected : ∀ {τ : Cluster n Cmd} {u : Fin n}, τ ∈ visited →
      (τ.server u).rf.state = .leader →
        Event.elected u (τ.server u).rf.currentTerm ∈ σ.events := by
    intro τ u hτ hleader
    obtain ⟨earlier, hearlier⟩ := hrun.of_mem_visited hτ
    exact event_of_visited hrun hτ (leadersElected_of_run hearlier u hleader)
  have hevent := helected hσ₂ ht
  rw [← hterm] at hevent
  exact hunique s t _ (helected hσ₁ hs) hevent

/-- An elected server was a leader at some moment of the run. -/
theorem leader_of_elected {ok : Cluster n Cmd → Action Cmd n → Prop}
    {visited : List (Cluster n Cmd)} (hrun : Run step ok init visited σ)
    {s : Fin n} {T : ℕ} (he : Event.elected s T ∈ σ.events) :
    ∃ σ₁ ∈ visited, (σ₁.server s).rf.state = .leader ∧
      (σ₁.server s).rf.currentTerm = T := by
  induction hrun with
  | start => simp [init] at he
  | next _ _ hstep ih =>
      have htrans := step_transition hstep
      rcases htrans.elected_origin he with hold | ⟨args, hin⟩
      · obtain ⟨σ₁, hσ₁, hleader⟩ := ih hold
        exact ⟨σ₁, List.mem_cons_of_mem _ hσ₁, hleader⟩
      · exact ⟨_, List.mem_cons_self, htrans.won_leader hin⟩

/-- A run without two leaders of one term has no two elected servers. -/
theorem electedUnique_of_leaders {ok : Cluster n Cmd → Action Cmd n → Prop}
    {visited : List (Cluster n Cmd)} (hrun : Run step ok init visited σ)
    (hleaders : ∀ σ₁ ∈ visited, ∀ σ₂ ∈ visited, ∀ s t,
      (σ₁.server s).rf.state = .leader → (σ₂.server t).rf.state = .leader →
      (σ₁.server s).rf.currentTerm = (σ₂.server t).rf.currentTerm →
        s = t) : ElectedUnique σ := by
  intro s t T hs ht
  obtain ⟨σ₁, hσ₁, hstate₁, hterm₁⟩ := leader_of_elected hrun hs
  obtain ⟨σ₂, hσ₂, hstate₂, hterm₂⟩ := leader_of_elected hrun ht
  exact hleaders σ₁ hσ₁ σ₂ hσ₂ s t hstate₁ hstate₂ (hterm₁.trans hterm₂.symm)

/-- In every run in which promotions happen in the term they were won in, no
two servers are ever leaders of the same term. -/
theorem election_safety {visited : List (Cluster n Cmd)}
    (hrun : Run step PromotesInTerm init visited σ)
    {σ₁ σ₂ : Cluster n Cmd} (hσ₁ : σ₁ ∈ visited) (hσ₂ : σ₂ ∈ visited)
    {s t : Fin n} (hs : (σ₁.server s).rf.state = .leader)
    (ht : (σ₂.server t).rf.state = .leader)
    (hterm : (σ₁.server s).rf.currentTerm =
      (σ₂.server t).rf.currentTerm) : s = t :=
  (electedUnique_of_run (fun _ _ hok ↦ hok) hrun).leaders hrun hσ₁ hσ₂ hs ht
    hterm

/-- Server 0 wins term 1 and is promoted in it, while server 2 has gone on to
term 2. -/
def promotingRun : List (Action ℕ 3) :=
  winning 0 0 ++ [.elect 2, .elect 2]

/-- The theorem applies to a run with a leader. -/
theorem election_safety_promoted :
    ∃ (visited : List (Cluster 3 ℕ)) (σ : Cluster 3 ℕ),
      Run step PromotesInTerm init visited σ ∧ σ ∈ visited ∧
      ((σ.server 0).rf.state = .leader ∧
        (σ.server 0).rf.currentTerm = 1) ∧
      ∀ t, (σ.server t).rf.state = .leader →
        (σ.server t).rf.currentTerm = 1 → t = 0 := by
  obtain ⟨visited, σ, hrun, hleader, hterm⟩ := Run.exists_of_exec
    step PromotesInTerm init promotingRun
    (fun σ : Cluster 3 ℕ ↦ (σ.server 0).rf.state = .leader ∧
      (σ.server 0).rf.currentTerm = 1) (by decide +kernel)
  have hlast : σ ∈ visited := hrun.mem_visited
  refine ⟨visited, σ, hrun, hlast, ⟨hleader, hterm⟩, ?_⟩
  intro t ht htterm
  exact election_safety hrun hlast hlast ht hleader (htterm.trans hterm.symm)

/-- Server 0 has the votes of term 1, and its promotion is delayed until the
heartbeat of server 2, the leader of term 2, has raised its term. -/
def lateRun : List (Action ℕ 3) :=
  [.elect 0, .deliverVote 0, .checkVote 0, .elect 2] ++ winning 2 5 ++
    [.deliverAppend 0, .countVote 0, .promote 0]

/-- Without the condition two servers can be leaders of one term at once. -/
theorem two_leaders :
    ∃ (visited : List (Cluster 3 ℕ)) (σ : Cluster 3 ℕ),
      Run step (fun _ _ ↦ True) init visited σ ∧
      ((σ.server 0).rf.state = .leader ∧
        (σ.server 0).rf.currentTerm = 2) ∧
      (σ.server 2).rf.state = .leader ∧
        (σ.server 2).rf.currentTerm = 2 := by
  exact Run.exists_of_exec step (fun _ _ ↦ True) init lateRun
    (fun σ : Cluster 3 ℕ ↦ ((σ.server 0).rf.state = .leader ∧
      (σ.server 0).rf.currentTerm = 2) ∧
      (σ.server 2).rf.state = .leader ∧
        (σ.server 2).rf.currentTerm = 2) (by decide +kernel)

end Cluster

end DistLabs
