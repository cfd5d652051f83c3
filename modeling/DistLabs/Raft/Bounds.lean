import DistLabs.Raft.Rooted

/-!
# Bounds of the leader's indices

The upper bounds of `NextIndex` and `MatchIndex` rest on two facts about runs
without two leaders of one term.  The log of a server that leads its term only
grows, because every request that could cut it comes from another leader.  So
what a request in flight covers is still in the log of its sender when the reply
arrives.
-/

namespace DistLabs

open Consensus

variable {n : ℕ} {Cmd : Type}

/-! ## The log of a leader grows -/

/-- Requests of term `T` are what can make a log of term `T` shorter. -/
theorem logLength_change [Zero Cmd] {In : Inputs n Cmd} {rf rf' : Raft n Cmd}
    (happend : ∀ args, In.append args → args.term ≠ rf.currentTerm)
    (hsnap : ∀ args, In.snap args → args.term ≠ rf.currentTerm)
    (hrep : Represented rf) (hchange : Change In rf rf') :
    rf.logLength ≤ rf'.logLength := by
  cases hchange with
  | elect =>
      rw [Raft.electLauncher_rf]
      exact le_rfl
  | start => exact Int.le.intro 1 rfl
  | @snapshot index data entry _ hentry =>
      have hrange := elemAt_isSome_iff.mp (Option.isSome_iff_exists.mpr
        ⟨entry, hentry⟩)
      have hlen := hrep.length
      change rf.logLength ≤
        ((rf.log.drop (rf.v2pIndex index).toNat).length : ℤ) + index
      rw [List.length_drop]
      unfold Raft.v2pIndex at hrange ⊢
      omega
  | conflict hin hterm | accept hin hterm =>
      exact absurd hterm.symm (happend _ hin)
  | install hin hterm => exact absurd hterm.symm (hsnap _ hin)
  | _ => exact le_rfl

namespace Cluster

variable [Zero Cmd] {σ σ' : Cluster n Cmd} {a : Action Cmd n}
  {W : LogWorld n Cmd}

omit [Zero Cmd] in
/-- No request of a term that server `s` leads is on its way to `s`. -/
theorem Sim.append_term_ne (h : Sim σ W) {s : Fin n} {T : ℕ}
    (hleads : W.leads s T) {args : AppendEntriesArgs n Cmd}
    (hin : (σ.inputs a s).append args) : args.term ≠ T := by
  obtain ⟨k, call, _, hcall, rfl, rfl⟩ := hin
  rintro rfl
  exact (h.appends call (List.mem_of_getElem? hcall)).ledByOther.not_leads
    h.inv hleads

omit [Zero Cmd] in
theorem Sim.snap_term_ne (h : Sim σ W) {s : Fin n} {T : ℕ}
    (hleads : W.leads s T) {args : SnapshotArgs n}
    (hin : (σ.inputs a s).snap args) : args.term ≠ T := by
  obtain ⟨k, call, _, hcall, rfl, rfl⟩ := hin
  rintro rfl
  exact (h.snaps call (List.mem_of_getElem? hcall)).ledByOther.not_leads
    h.inv hleads

/-- The log of a server that leads its term does not get shorter while it stays
in the term. -/
theorem Sim.logLength_le (h : Sim σ W) (htrans : Transition σ a σ')
    {s : Fin n} (hleads : W.leads s (σ.server s).rf.currentTerm)
    (hinc : (σ'.server s).incarnation = (σ.server s).incarnation)
    (hterm : (σ'.server s).rf.currentTerm = (σ.server s).rf.currentTerm) :
    (σ.server s).rf.logLength ≤ (σ'.server s).rf.logLength := by
  cases htrans.evolves s with
  | changes hchanges =>
      refine (hchanges.preserves
        (P := fun rf ↦ Represented rf ∧
          (σ.server s).rf.currentTerm ≤ rf.currentTerm ∧
          (rf.currentTerm = (σ.server s).rf.currentTerm →
            (σ.server s).rf.logLength ≤ rf.logLength)) ?_
        ⟨h.ordered.servers s, le_rfl, fun _ ↦ le_rfl⟩).2.2 hterm
      rintro rf rf' hchange ⟨hrep, hlow, hlen⟩
      have hgrow := currentTerm_change hchange
      refine ⟨h.ordered.represented_change hchange hrep, by omega, ?_⟩
      intro hsame
      have hnow : rf.currentTerm = (σ.server s).rf.currentTerm := by omega
      refine le_trans (hlen hnow) (logLength_change ?_ ?_ hrep hchange)
      · rw [hnow]
        exact fun args hin ↦ h.append_term_ne hleads hin
      · rw [hnow]
        exact fun args hin ↦ h.snap_term_ne hleads hin
  | restart _ hboot => exact absurd hinc (incarnation_ne_of_boot hboot)

/-! ## The invariant -/

end Cluster

/-- The indices of all `n` peers fit a log of the given length. -/
structure PeerIndices.Within (n : ℕ) (ix : PeerIndices) (length : ℤ) :
    Prop where
  next : ∀ j : Fin n, ∃ v, ix.nextIndex[j.val]? = some v ∧ v ≤ length
  matched : ∀ j : Fin n, ∃ m, ix.matchIndex[j.val]? = some m ∧ -1 ≤ m ∧
    m ≤ length - 1

namespace PeerIndices.Within

variable {ix : PeerIndices} {length length' : ℤ}

theorem mono (h : ix.Within n length) (hle : length ≤ length') :
    ix.Within n length' where
  next := by
    intro j
    obtain ⟨v, hv, hhigh⟩ := h.next j
    exact ⟨v, hv, le_trans hhigh hle⟩
  matched := by
    intro j
    obtain ⟨m, hm, hlow, hhigh⟩ := h.matched j
    exact ⟨m, hm, hlow, by omega⟩

theorem set_next (h : ix.Within n length) (peer : Fin n) {v : ℤ}
    (hhigh : v ≤ length) :
    Within n { ix with nextIndex := ix.nextIndex.set peer v } length where
  next := by
    intro j
    obtain ⟨old, hold, hbound⟩ := h.next j
    by_cases hpeer : peer = j
    · subst hpeer
      exact ⟨v, List.getElem?_set_self (List.getElem?_eq_some_iff.mp hold).1,
        hhigh⟩
    · have hne : peer.val ≠ j.val := fun heq ↦ hpeer (Fin.ext heq)
      exact ⟨old, (List.getElem?_set_ne hne).trans hold, hbound⟩
  matched := h.matched

theorem set_match (h : ix.Within n length) (peer : Fin n) {m : ℤ}
    (hlow : -1 ≤ m) (hhigh : m ≤ length - 1) :
    Within n { ix with matchIndex := ix.matchIndex.set peer m } length where
  next := h.next
  matched := by
    intro j
    obtain ⟨old, hold, hbounds⟩ := h.matched j
    by_cases hpeer : peer = j
    · subst hpeer
      exact ⟨m, List.getElem?_set_self (List.getElem?_eq_some_iff.mp hold).1,
        hlow, hhigh⟩
    · have hne : peer.val ≠ j.val := fun heq ↦ hpeer (Fin.ext heq)
      exact ⟨old, (List.getElem?_set_ne hne).trans hold, hbounds⟩

end PeerIndices.Within

namespace Raft

variable {rf : Raft n Cmd}

theorem becomeLeader_within (hpos : 0 ≤ rf.logLength) :
    rf.becomeLeader.indices.Within n rf.logLength where
  next := fun j ↦ ⟨_, getElem?_fillIndex _ _ j, le_rfl⟩
  matched := fun j ↦ ⟨_, getElem?_fillIndex _ _ j, le_rfl, by omega⟩

/-- What `SendHeartbeat` records fits the log when the request and the hints of
the reply do. -/
theorem sendHeartbeat_within (hrep : Represented rf)
    (h : rf.indices.Within n rf.logLength) (peer : Fin n)
    {args : AppendEntriesArgs n Cmd} {reply : AppendEntriesReply}
    (hprev : 0 ≤ args.prevLogIndex)
    (hlast : rf.currentTerm = args.term →
      args.prevLogIndex + args.entries.length ≤ rf.logLength - 1)
    (hhints : reply.success = false → reply.term ≤ args.term →
      reply.Within args.prevLogIndex) :
    (rf.sendHeartbeat peer args reply).rf.indices.Within n rf.logLength := by
  rcases rf.sendHeartbeat_indices peer args reply with
    hix | ⟨hterm, hreply, ⟨_, hix⟩ | ⟨hfail, hix⟩⟩ <;> rw [hix]
  · exact h
  · have hcovered := hlast hterm
    exact (h.set_match peer (by omega) hcovered).set_next peer (by omega)
  · have hcovered := hlast hterm
    have hwithin := hhints hfail hreply
    refine h.set_next peer
      (backupIndex_le_logLength hrep.length (fun hx ↦ ?_) fun hx ↦ ?_)
    · have hlen := hwithin.len hx
      omega
    · have hindex := hwithin.index hx
      omega

theorem sendSnapshot_within (hrep : Represented rf)
    (h : rf.indices.Within n rf.logLength) (peer : Fin n)
    (args : SnapshotArgs n) (reply : SnapshotRelpay) :
    (rf.sendSnapshot peer args reply).rf.indices.Within n rf.logLength := by
  have hlen := hrep.length
  have hpos := hrep.ordered.length_pos
  rcases rf.sendSnapshot_indices peer args reply with
    hix | ⟨_, hix⟩ <;> rw [hix]
  · exact h
  · exact h.set_next peer (by omega)

/-- A request that a leader prepares reaches exactly to the end of its log. -/
theorem prepare_last (hrep : Represented rf) {i j : Fin n}
    {args : AppendEntriesArgs n Cmd}
    (h : rf.prepare i = some (.appendEntries j args)) :
    args.prevLogIndex + args.entries.length = rf.logLength - 1 := by
  obtain ⟨_, next, prev, _, hpos, hprev, rfl⟩ := prepare_append h
  have hrange := elemAt_isSome_iff.mp (Option.isSome_iff_exists.mpr
    ⟨prev, hprev⟩)
  have hlen := hrep.length
  unfold v2pIndex at *
  dsimp only
  split
  · rw [List.length_drop]
    omega
  · rw [List.length_nil]
    omega

/-- A next index within the log leads to a request or to a snapshot. -/
theorem prepare_isSome (hrep : Represented rf) {i : Fin n} {next : ℤ}
    (hnext : rf.nextIndex[i.val]? = some next)
    (hhigh : next ≤ rf.logLength) : (rf.prepare i).isSome := by
  have hlen := hrep.length
  unfold prepare
  simp only [hnext]
  split
  · rfl
  · next hpos =>
      have hrange : 0 ≤ rf.v2pIndex next - 1 ∧
          rf.v2pIndex next - 1 < rf.log.length := by
        unfold v2pIndex at hpos ⊢
        omega
      obtain ⟨prev, hprev⟩ :=
        Option.isSome_iff_exists.mp (elemAt_isSome_iff.mpr hrange)
      simp only [hprev]
      rfl

/-- A new leader has a request for everyone. -/
theorem becomeLeader_prepare (hrep : Represented rf) (i : Fin n) :
    ∃ args, rf.becomeLeader.prepare i = some (.appendEntries i args) ∧
      args.term = rf.currentTerm := by
  have hlen := hrep.length
  have hpos := hrep.ordered.length_pos
  have hnext : rf.becomeLeader.nextIndex[i.val]? = some rf.logLength :=
    getElem?_fillIndex _ _ i
  have hrange : 0 ≤ rf.becomeLeader.v2pIndex rf.logLength - 1 ∧
      rf.becomeLeader.v2pIndex rf.logLength - 1 < rf.log.length := by
    change 0 ≤ rf.logLength - rf.lastIncludedIndex - 1 ∧
      rf.logLength - rf.lastIncludedIndex - 1 < _
    omega
  obtain ⟨prev, hprev⟩ :=
    Option.isSome_iff_exists.mp (elemAt_isSome_iff.mpr hrange)
  unfold prepare
  simp only [hnext]
  rw [if_neg (not_lt.mpr hrange.1)]
  change elemAt rf.becomeLeader.log _ = _ at hprev
  simp only [hprev]
  exact ⟨_, rfl, rfl⟩

theorem becomeLeader_launches (hrep : Represented rf) :
    rf.becomeLeader.heartBeatLauncher = .done rf.becomeLeader
      ((others rf.me).filterMap rf.becomeLeader.prepare) := by
  unfold heartBeatLauncher
  refine if_pos (List.all_eq_true.mpr fun i _ ↦ ?_)
  obtain ⟨_, hprepare, _⟩ := becomeLeader_prepare hrep i
  simp [hprepare]

end Raft

namespace Cluster

variable [Zero Cmd] {σ σ' : Cluster n Cmd} {a : Action Cmd n}
  {W : LogWorld n Cmd}

/-- A request in flight ends within the log of its sender as long as the sender
stays in its term. -/
structure Paced (σ : Cluster n Cmd) (call : AppendCall n Cmd) : Prop where
  incarnation : call.incarnation ≤ (σ.server call.caller).incarnation
  term : call.incarnation = (σ.server call.caller).incarnation →
    call.args.term ≤ (σ.server call.caller).rf.currentTerm
  last : call.incarnation = (σ.server call.caller).incarnation →
    (σ.server call.caller).rf.currentTerm = call.args.term →
    call.args.prevLogIndex + call.args.entries.length ≤
      (σ.server call.caller).rf.logLength - 1

/-- The bookkeeping of a cluster without two leaders of one term. -/
structure Bookkept (σ : Cluster n Cmd) : Prop where
  calls : ∀ call ∈ σ.appendCalls, Paced σ call
  leaders : ∀ s, (σ.server s).rf.state = .leader →
    (σ.server s).rf.indices.Within n (σ.server s).rf.logLength

/-- A request that was in flight before the step. -/
theorem Paced.step {call : AppendCall n Cmd} (h : Paced σ call)
    (hsim : Sim σ W) (hleads : W.leads call.caller call.args.term)
    (htrans : Transition σ a σ') (phase : CallPhase AppendEntriesReply) :
    Paced σ' { call with phase := phase } := by
  have hlater := htrans.incarnation_le call.caller
  have hbefore : call.incarnation = (σ'.server call.caller).incarnation →
      call.incarnation = (σ.server call.caller).incarnation ∧
      (σ'.server call.caller).incarnation =
        (σ.server call.caller).incarnation := by
    intro hinc
    have hle := h.incarnation
    exact ⟨by omega, by omega⟩
  have hgrow : call.incarnation = (σ'.server call.caller).incarnation →
      (σ.server call.caller).rf.currentTerm ≤
        (σ'.server call.caller).rf.currentTerm :=
    fun hinc ↦ htrans.currentTerm_le (hbefore hinc).2
  refine ⟨le_trans h.incarnation hlater, ?_, ?_⟩
  · intro hinc
    exact le_trans (h.term (hbefore hinc).1) (hgrow hinc)
  · intro hinc hterm
    have hold := h.term (hbefore hinc).1
    have hsame : (σ.server call.caller).rf.currentTerm = call.args.term :=
      le_antisymm (le_trans (hgrow hinc) hterm.le) hold
    have hlast := h.last (hbefore hinc).1 hsame
    have hlength := hsim.logLength_le htrans (by rw [hsame]; exact hleads)
      (hbefore hinc).2 (hterm.trans hsame.symm)
    change call.args.prevLogIndex + call.args.entries.length ≤
      (σ'.server call.caller).rf.logLength - 1
    omega

theorem Bookkept.calls_step (h : Bookkept σ) (hsim : Sim σ W)
    (hstep : σ.step a = some σ') {call : AppendCall n Cmd}
    (hcall : call ∈ σ'.appendCalls) : Paced σ' call := by
  have htrans := step_transition hstep
  rcases htrans.appendCall_origin hcall with ⟨old, hold, phase, rfl⟩ | hnew
  · exact (h.calls old hold).step hsim (hsim.appends old hold).leads htrans
      phase
  · have hrep := (hsim.ordered.step hstep).servers call.caller
    obtain ⟨_, next, prev, _, _, _, hargs⟩ :=
      Raft.prepare_append hnew.prepared
    refine ⟨hnew.incarnation.le, fun _ ↦ ?_, fun _ _ ↦ ?_⟩
    · rw [hargs]
    · exact (Raft.prepare_last hrep hnew.prepared).le

theorem Bookkept.leaders_step (h : Bookkept σ) (hsim : Sim σ W)
    (hgrounded : Grounded σ)
    (hstep : σ.step a = some σ') {s : Fin n}
    (hleader : (σ'.server s).rf.state = .leader) :
    (σ'.server s).rf.indices.Within n (σ'.server s).rf.logLength := by
  have htrans := step_transition hstep
  have hrep := hsim.ordered.servers s
  by_cases hwon : ∃ args T, (σ.inputs a s).won args T
  · obtain ⟨args, T, hin⟩ := hwon
    rw [htrans.won_rf hin]
    have hlen := hrep.length
    have hlii := (hgrounded.servers s).memory.nonneg
    exact Raft.becomeLeader_within (by omega)
  · have hlost : ∀ args T, ¬ (σ.inputs a s).won args T :=
      fun args T hin ↦ hwon ⟨args, T, hin⟩
    obtain ⟨hold, hterm, hinc⟩ := htrans.leader_before hlost hleader
    have hwithin := h.leaders s hold
    have hgrow := hsim.logLength_le htrans ((hsim.mirrors s).leader hold).1
      hinc hterm
    refine PeerIndices.Within.mono ?_ hgrow
    cases htrans.indexStep hlost with
    | keep hsame =>
        rw [hsame]
        exact hwithin
    | @append k call reply _ hcall hphase hresumes hcaller hrf =>
        subst hcaller
        have hmem := List.mem_of_getElem? hcall
        have hpaced := h.calls call hmem
        rw [hrf]
        exact Raft.sendHeartbeat_within hrep hwithin call.peer
          (hgrounded.appends call hmem).nonneg
          (hpaced.last hresumes.2.symm)
          (hgrounded.hints call hmem reply hphase)
    | snap _ _ _ _ hrf =>
        rw [hrf]
        exact Raft.sendSnapshot_within hrep hwithin _ _ _
    | restart hboot => exact absurd hinc (incarnation_ne_of_boot hboot)

theorem bookkept_of_run {ok : Cluster n Cmd → Action Cmd n → Prop}
    {visited : List (Cluster n Cmd)} (hrun : Run step ok init visited σ)
    (hunique : ElectedUnique σ) : Bookkept σ := by
  induction hrun with
  | start =>
      refine ⟨by simp [init], fun s hleader ↦ ?_⟩
      exact absurd hleader (boot_not_leader s 0 _)
  | next hprev _ hstep ih =>
      have hbefore := hunique.before hstep
      obtain ⟨W, hsim⟩ := exists_sim hprev hbefore
      exact ⟨fun call hcall ↦ (ih hbefore).calls_step hsim hstep hcall,
        fun s hleader ↦ (ih hbefore).leaders_step hsim (grounded_of_run hprev)
          hstep hleader⟩

/-- In every run without two leaders of one term, the indices of a leader fit
its log, so `HeartBeatLauncher` does not leave the log, and every AppendEntries
request that it builds starts at the sentinel or above. -/
theorem leader_indices_within {visited : List (Cluster n Cmd)}
    (hrun : Run step (fun _ _ ↦ True) init visited σ)
    (hleaders : ∀ σ₁ ∈ visited, ∀ σ₂ ∈ visited, ∀ s t,
      (σ₁.server s).rf.state = .leader → (σ₂.server t).rf.state = .leader →
      (σ₁.server s).rf.currentTerm = (σ₂.server t).rf.currentTerm → s = t)
    {rf : Raft n Cmd} {s : Fin n} (hrf : (σ.server s).rf = rf)
    (hleader : rf.state = .leader) :
    (∀ j : Fin n, ∃ next m,
      rf.nextIndex[j.val]? = some next ∧ rf.matchIndex[j.val]? = some m ∧
      (1 ≤ next ∧ next ≤ rf.logLength) ∧
      (-1 ≤ m ∧ m ≤ rf.logLength - 1) ∧
      (0 ≤ rf.v2pIndex next - 1 →
        rf.v2pIndex next - 1 < rf.log.length ∧
        rf.v2pIndex next ≤ rf.log.length)) ∧
    (∃ out, rf.heartBeatLauncher = .done rf out) ∧
    ∀ i j args, rf.prepare i = some (.appendEntries j args) →
      rf.lastIncludedIndex ≤ args.prevLogIndex := by
  subst hrf
  have hwithin := (bookkept_of_run hrun
    (electedUnique_of_leaders hrun hleaders)).leaders s hleader
  have hlen := ((ordered_of_run hrun).servers s).length
  have hpositive := (grounded_of_run hrun).next s
  refine ⟨fun j ↦ ?_, ?_, ?_⟩
  · obtain ⟨next, hnext, hhigh⟩ := hwithin.next j
    obtain ⟨m, hm, hbounds⟩ := hwithin.matched j
    have hlow := hpositive j next hnext
    refine ⟨next, m, hnext, hm, ⟨hlow, hhigh⟩, hbounds, fun hpos ↦ ?_⟩
    unfold Raft.v2pIndex at hpos ⊢
    omega
  · have hprepared : ∀ i, ((σ.server s).rf.prepare i).isSome := by
      intro i
      obtain ⟨next, hnext, hhigh⟩ := hwithin.next i
      exact Raft.prepare_isSome ((ordered_of_run hrun).servers s) hnext hhigh
    unfold Raft.heartBeatLauncher
    rw [if_pos (List.all_eq_true.mpr fun i _ ↦ hprepared i)]
    exact ⟨_, rfl⟩
  · intro i j args hprepare
    obtain ⟨_, next, prev, _, hpos, _, rfl⟩ := Raft.prepare_append hprepare
    unfold Raft.v2pIndex at hpos
    dsimp only
    omega

/-- Server 0 replicates two commands to server 1, is restarted, wins term 2 and
gets the refusal of server 2, whose log is still empty. -/
def backingUpRun : List (Action ℕ 3) :=
  committingRun ++ [.restart 0] ++ winning 0 3 ++ [.deliverAppend 5,
    .replyAppend 5]

/-- The next index of the follower that refused has moved back, and the bounds
hold for it. -/
theorem leader_indices_within_refused :
    ∃ (visited : List (Cluster 3 ℕ)) (σ : Cluster 3 ℕ),
      Run step (fun _ _ ↦ True) init visited σ ∧
      ((σ.server 0).rf.state = .leader ∧
        (σ.server 0).rf.nextIndex = [3, 3, 1]) ∧
      ∃ out, (σ.server 0).rf.heartBeatLauncher =
        .done (σ.server 0).rf out := by
  obtain ⟨visited, σ, hrun, hleader, hnext⟩ := Run.exists_of_exec
    step PromotesInTerm init backingUpRun
    (fun σ : Cluster 3 ℕ ↦ (σ.server 0).rf.state = .leader ∧
      (σ.server 0).rf.nextIndex = [3, 3, 1]) (by decide +kernel)
  have hunique := electedUnique_of_run (fun _ _ hok ↦ hok) hrun
  have hall : Run step (fun _ _ ↦ True) init visited σ :=
    hrun.mono fun _ _ _ ↦ trivial
  exact ⟨visited, σ, hall, ⟨hleader, hnext⟩,
    (leader_indices_within hall
      (fun σ₁ hσ₁ σ₂ hσ₂ s t hs ht hterm ↦
        hunique.leaders hrun hσ₁ hσ₂ hs ht hterm) rfl hleader).2.1⟩

end Cluster

end DistLabs
