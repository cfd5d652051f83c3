import DistLabs.Raft.ElectionSafety
import DistLabs.Raft.Mirror

/-!
# The cluster simulates the abstract protocol

Every server mirrors its part of an abstract world, and every request in flight
carries a log that was published in the world.  As long as no term has two
elected servers, each step of the cluster is a sequence of steps of the
protocol.  The steps are careful ones when promotions happen in the right term,
accepted requests do not cut off agreeing entries and snapshots do not move
backwards.  Log matching already holds without any such care.
-/

namespace DistLabs

open Consensus

variable {n : ℕ} {Cmd : Type}

namespace Cluster

/-! ## Careful steps -/

/-- An AppendEntries request is executed only where it does not cut off entries
that agree with it. -/
def KeepsAgreeing (σ : Cluster n Cmd) : Action Cmd n → Prop
  | .deliverAppend k => ∀ call ∈ σ.appendCalls[k]?,
      (σ.server call.peer).rf.KeepsAgreeing call.args
  | _ => True

/-- A snapshot is installed only where it is not older than the present one. -/
def InstallsForward (σ : Cluster n Cmd) : Action Cmd n → Prop
  | .deliverSnap k => ∀ call ∈ σ.snapCalls[k]?,
      (σ.server call.peer).rf.MovesForward call.args
  | _ => True

instance [DecidableEq Cmd] (σ : Cluster n Cmd) (a : Action Cmd n) :
    Decidable (σ.KeepsAgreeing a) := by
  induction a using Action.casesOn <;> dsimp only [KeepsAgreeing] <;>
    infer_instance

instance (σ : Cluster n Cmd) (a : Action Cmd n) :
    Decidable (σ.InstallsForward a) := by
  induction a using Action.casesOn <;> dsimp only [InstallsForward] <;>
    infer_instance

/-- The three conditions under which the code keeps to the protocol. -/
def Careful (σ : Cluster n Cmd) (a : Action Cmd n) : Prop :=
  σ.PromotesInTerm a ∧ σ.KeepsAgreeing a ∧ σ.InstallsForward a

instance [DecidableEq Cmd] (σ : Cluster n Cmd) (a : Action Cmd n) :
    Decidable (σ.Careful a) :=
  inferInstanceAs (Decidable (_ ∧ _ ∧ _))

end Cluster

/-! ## Requests in flight -/

/-- An AppendEntries call carries a log that its caller has published, and an
accepted one was acknowledged. -/
structure AppendSound (W : LogWorld n Cmd) (call : AppendCall n Cmd) :
    Prop where
  leads : W.leads call.caller call.args.term
  peer_ne : call.peer ≠ call.caller
  carries : ∃ L p, Carries W call.args L p ∧
    ∀ reply, call.phase = .replied reply → reply.success = true →
      W.acked call.peer call.args.term L

/-- A snapshot from `caller` to `peer` stands for a log that the caller has
published in term `T`. -/
structure SnapSound (W : LogWorld n Cmd) (caller peer : Fin n) (T : ℕ)
    (lii : ℤ) (lit : ℕ) : Prop where
  leads : W.leads caller T
  peer_ne : peer ≠ caller
  standsFor : ∃ L, StandsFor W T lii lit L

section Requests

variable {W W' : LogWorld n Cmd} {s : Fin n} {rf : Raft n Cmd}

theorem AppendSound.ledByOther {call : AppendCall n Cmd}
    (h : AppendSound W call) : LedByOther W call.peer call.args.term :=
  ⟨call.caller, h.peer_ne.symm, h.leads⟩

theorem SnapSound.ledByOther {caller peer : Fin n} {T lit : ℕ} {lii : ℤ}
    (h : SnapSound W caller peer T lii lit) : LedByOther W peer T :=
  ⟨caller, h.peer_ne.symm, h.leads⟩

theorem SnapSound.mono {caller peer : Fin n} {T lit : ℕ} {lii : ℤ}
    (h : SnapSound W caller peer T lii lit) (hgrows : Grows W W') :
    SnapSound W' caller peer T lii lit := by
  obtain ⟨L, hL⟩ := h.standsFor
  exact ⟨hgrows.leads _ _ h.leads, h.peer_ne, L, hL.mono hgrows⟩

/-- A call that is not newly accepted stays sound. -/
theorem AppendSound.mono {old call : AppendCall n Cmd}
    (h : AppendSound W old) (hgrows : Grows W W')
    (hcontinues : old.Continues call)
    (hold : ∀ reply, call.phase = .replied reply → reply.success = true →
      old.phase = .replied reply) : AppendSound W' call := by
  obtain ⟨L, p, hcarries, hacked⟩ := h.carries
  obtain ⟨phase, rfl⟩ := hcontinues
  refine ⟨hgrows.leads _ _ h.leads, h.peer_ne, L, p, hcarries.mono hgrows, ?_⟩
  intro reply hphase hsuccess
  exact hgrows.acked _ _ _ (hacked reply (hold reply hphase hsuccess) hsuccess)

/-- A leader's request carries its full log. -/
theorem Mirrors.carries (h : Mirrors W s rf) (hrep : Represented rf)
    (hstate : rf.state = .leader) {i j : Fin n}
    {args : AppendEntriesArgs n Cmd}
    (hprepare : rf.prepare i = some (.appendEntries j args)) :
    ∃ p, Carries W args (W.log s) p := by
  obtain ⟨_, next, prev, _, hpos, hprev, rfl⟩ :=
    Raft.prepare_append hprepare
  have hphys : rf.v2pIndex next - 1 = next - 1 - rf.lastIncludedIndex := by
    unfold Raft.v2pIndex
    omega
  rw [hphys] at hprev
  obtain ⟨hlow, hhigh, hterm⟩ := h.memory.elemAt_term hprev
  have hnonneg := h.memory.nonneg
  have hlen := h.logLength hrep
  obtain ⟨p, hp⟩ : ∃ p : ℕ, next - 1 = p := ⟨(next - 1).toNat, by omega⟩
  rw [hp, Int.toNat_natCast] at hterm
  refine ⟨p, (h.leader hstate).2 _ List.prefix_rfl, by omega, hp, hterm, ?_⟩
  dsimp only
  split
  · have hnext : (rf.v2pIndex next).toNat =
        (next - 1 - rf.lastIncludedIndex).toNat + 1 := by
      unfold Raft.v2pIndex
      omega
    rw [hnext]
    exact h.memory.drop_succ hp (by omega)
  · exact (List.drop_of_length_le (by omega)).symm

/-- The snapshot of a server whose full log is published stands for the part
that it has compacted. -/
theorem Mirrors.standsFor (h : Mirrors W s rf)
    (hpub : ∀ K, K <+: W.log s → W.published rf.currentTerm K) :
    StandsFor W rf.currentTerm rf.lastIncludedIndex rf.lastIncludedTerm
      ((W.log s).take rf.lastIncludedIndex.toNat) := by
  have hnonneg := h.memory.nonneg
  have hle := h.memory.le_length
  refine ⟨hpub _ (List.take_prefix _ _), ?_, ?_⟩
  · rw [List.length_take]
    omega
  · rw [lastTerm_take entryTerm (by omega)]
    exact h.memory.lit_eq

end Requests

/-! ## The simulation relation -/

namespace Cluster

/-- The cluster `σ` stands for the world `W`. -/
structure Sim (σ : Cluster n Cmd) (W : LogWorld n Cmd) : Prop where
  ordered : Ordered σ
  ballots : Ballots σ
  inv : Inv entryTerm W
  mirrors : ∀ s, Mirrors W s (σ.server s).rf
  elected : ∀ s T, W.leads s T → Event.elected s T ∈ σ.events
  leads : ∀ s T, Event.elected s T ∈ σ.events → W.leads s T
  voted : ∀ g T c, σ.Voted g T c → W.voted g T c
  votes : ∀ call ∈ σ.voteCalls, ∃ L, Asks W call.args L
  appends : ∀ call ∈ σ.appendCalls, AppendSound W call
  snaps : ∀ call ∈ σ.snapCalls, SnapSound W call.caller call.peer
    call.args.term call.args.lastIncludedIndex call.args.lastIncludedTerm
  jobs : ∀ s, ∀ job ∈ (σ.server s).jobs, SnapSound W s job.peer job.term
    job.lastIncludedIndex job.lastIncludedTerm

variable [Zero Cmd] {σ σ' : Cluster n Cmd} {a : Action Cmd n}
  {W W' : LogWorld n Cmd} {safe : Prop}

theorem sim_init : Sim (init : Cluster n Cmd) World.init where
  ordered := ordered_init
  ballots := ballots_init
  inv := inv_init entryTerm
  mirrors := by
    intro s
    refine ⟨RepLog.nil 0, le_rfl, ?_, fun _ ↦ ⟨rfl, rfl⟩, ?_⟩
    · simp [init, boot, Raft.make, Raft.readPersist]
    · simp [init, boot, Raft.make, Raft.readPersist]
  elected := fun _ _ h ↦ h.elim
  leads := by simp [init]
  voted := by simp [Voted, init]
  votes := by simp [init]
  appends := by simp [init]
  snaps := by simp [init]
  jobs := by simp [init, boot]

/-- The world goes from `W` to `W'` while the cluster takes action `a`: it
follows every server and records the votes, the accepted requests and the
snapshots sent at once. -/
structure Tracks (safe : Prop) (σ : Cluster n Cmd) (a : Action Cmd n)
    (σ' : Cluster n Cmd) (W W' : LogWorld n Cmd) : Prop where
  effects : Effects entryTerm safe W W'
  mirrors : ∀ s, Mirrors W' s (σ'.server s).rf
  elected : ∀ s T, W'.leads s T → Event.elected s T ∈ σ'.events
  votes : ∀ g T c, VoteCause σ g T c a → W'.voted g T c
  asks : ∀ s rf args, a = .elect s →
    (σ.server s).rf.electLauncher = .done rf args → ∃ L, Asks W' args L
  accepts : ∀ k call rf reply, a = .deliverAppend k →
    σ.appendCalls[k]? = some call →
    (σ.server call.peer).rf.heartbeatHandler call.args = .done rf reply →
    reply.success = true →
    ∃ L p, Carries W call.args L p ∧
      W'.acked call.peer call.args.term L ∧ L <+: W'.log call.peer
  sends : ∀ k call, a = .replyAppend k → σ.appendCalls[k]? = some call →
    (σ'.server call.caller).rf.currentTerm = call.args.term →
    ∀ K, K <+: W'.log call.caller → W'.published call.args.term K

/-- Requests that were sound stay so, and new ones are. -/
theorem Sim.appends_advance (h : Sim σ W) (htrans : Transition σ a σ')
    (ht : Tracks safe σ a σ' W W') (hservers : Ordered σ')
    (hballots : Ballots σ') {call : AppendCall n Cmd}
    (hcall : call ∈ σ'.appendCalls) : AppendSound W' call := by
  have hgrows := ht.effects.grows
  rcases htrans.appendCall_origin hcall with ⟨old, hold, hcont⟩ | hnew
  · by_cases hreplied : ∃ reply, call.phase = .replied reply ∧
        reply.success = true
    · obtain ⟨reply, hphase, hsuccess⟩ := hreplied
      rcases htrans.replied_origin hcall hphase with
        hsame | ⟨k, old, rf, haction, hget, rfl, hrun⟩
      · exact (h.appends call hsame).mono hgrows (.refl call)
          fun _ hphase _ ↦ hphase
      · have hsound := h.appends old (List.mem_of_getElem? hget)
        obtain ⟨L, p, hcarries, hacked, _⟩ :=
          ht.accepts k old rf reply haction hget hrun hsuccess
        exact ⟨hgrows.leads _ _ hsound.leads, hsound.peer_ne, L, p,
          hcarries.mono hgrows, fun _ _ _ ↦ hacked⟩
    · exact (h.appends old hold).mono hgrows hcont fun reply hphase hsuccess ↦
        absurd ⟨reply, hphase, hsuccess⟩ hreplied
  · have hmirrors := ht.mirrors call.caller
    obtain ⟨p, hcarries⟩ := hmirrors.carries (hservers.servers call.caller)
      hnew.leader hnew.prepared
    have hterm : call.args.term =
        (σ'.server call.caller).rf.currentTerm := by
      obtain ⟨_, next, prev, _, _, _, hargs⟩ :=
        Raft.prepare_append hnew.prepared
      rw [hargs]
    refine ⟨?_, ?_, _, p, hcarries, ?_⟩
    · rw [hterm]
      exact (hmirrors.leader hnew.leader).1
    · have hne := hnew.peer_ne
      rwa [hballots.me] at hne
    · intro reply hphase
      rw [hnew.phase] at hphase
      cases hphase

theorem Sim.jobs_advance (h : Sim σ W) (htrans : Transition σ a σ')
    (ht : Tracks safe σ a σ' W W') (hballots : Ballots σ') {s : Fin n}
    {job : SnapshotJob n} (hjob : job ∈ (σ'.server s).jobs) :
    SnapSound W' s job.peer job.term job.lastIncludedIndex
      job.lastIncludedTerm := by
  rcases htrans.job_origin hjob with hold | hnew
  · exact (h.jobs s job hold).mono ht.effects.grows
  · have hmirrors := ht.mirrors s
    obtain ⟨hleads, hpub⟩ := hmirrors.leader hnew.leader
    have hne := hnew.peer_ne
    rw [hballots.me] at hne
    rw [Raft.prepare_snapshot hnew.prepared]
    exact ⟨hleads, hne, _, hmirrors.standsFor hpub⟩

theorem Sim.snaps_advance (h : Sim σ W) (htrans : Transition σ a σ')
    (ht : Tracks safe σ a σ' W W') {call : SnapCall n}
    (hcall : call ∈ σ'.snapCalls) :
    SnapSound W' call.caller call.peer call.args.term
      call.args.lastIncludedIndex call.args.lastIncludedTerm := by
  have hgrows := ht.effects.grows
  rcases htrans.snapCall_origin hcall with ⟨old, hold, _, rfl⟩ | hnew
  · exact (h.snaps old hold).mono hgrows
  · cases hnew with
    | @atOnce k old haction hold hcaller hpeer hterm hargs =>
        have hsound := h.appends old (List.mem_of_getElem? hold)
        have hmirrors := ht.mirrors call.caller
        have hpub := ht.sends k old haction hold (by rw [hcaller]; exact hterm)
        rw [hargs]
        refine ⟨?_, ?_, _, hmirrors.standsFor ?_⟩
        · have hleads := hgrows.leads _ _ hsound.leads
          rw [hcaller, ← hterm] at hleads
          exact hleads
        · have hne := hsound.peer_ne
          rwa [hcaller, hpeer] at hne
        · rwa [hcaller, ← hterm] at hpub
    | ofJob _ hget _ hpeer hargs =>
        rw [hargs, ← hpeer]
        exact (h.jobs call.caller _ (List.mem_of_getElem? hget)).mono hgrows

/-- A world that tracks a step stands for the cluster after it. -/
theorem Sim.advance (h : Sim σ W) (hstep : σ.step a = some σ')
    (ht : Tracks safe σ a σ' W W') : Sim σ' W' := by
  have htrans := step_transition hstep
  have hordered := h.ordered.step hstep
  have hballots := h.ballots.step hstep
  have hgrows := ht.effects.grows
  refine ⟨hordered, hballots, ht.effects.inv h.inv, ht.mirrors, ht.elected,
    ?_, ?_, ?_, ?_, ?_, ?_⟩
  · intro s T helected
    rcases htrans.elected_origin helected with hold | ⟨args, hin⟩
    · exact hgrows.leads s T (h.leads s T hold)
    · obtain ⟨hstate, rfl⟩ := htrans.won_leader hin
      exact ((ht.mirrors s).leader hstate).1
  · intro g T c hvoted
    rcases htrans.vote_cause hvoted with hold | hnew
    · exact hgrows.voted _ _ _ (h.voted g T c hold)
    · exact ht.votes g T c hnew
  · intro call hcall
    rcases htrans.voteCall_origin hcall with
      ⟨old, hold, _, rfl⟩ | ⟨rf, haction, _, hrun⟩
    · obtain ⟨L, hL⟩ := h.votes old hold
      exact ⟨L, hL.mono hgrows⟩
    · exact ht.asks call.caller rf _ haction hrun
  · intro call hcall
    exact h.appends_advance htrans ht hordered hballots hcall
  · intro call hcall
    exact h.snaps_advance htrans ht hcall
  · intro s job hjob
    exact h.jobs_advance htrans ht hballots hjob

/-! ## Every step is tracked -/

omit [Zero Cmd] in
/-- A world that follows the one server that changes mirrors the cluster. -/
theorem Sim.mirrors_follows (h : Sim σ W) {s : Fin n} {rf : Raft n Cmd}
    (hfollows : Follows safe s W W' rf) (hself : (σ'.server s).rf = rf)
    (hfocus : ∀ t, t ≠ s → σ'.server t = σ.server t) (t : Fin n) :
    Mirrors W' t (σ'.server t).rf := by
  by_cases hts : t = s
  · subst hts
    rw [hself]
    exact hfollows.mirrors
  · rw [hfocus t hts]
    obtain ⟨hlog, hterm⟩ := hfollows.others t hts
    exact (h.mirrors t).frame hfollows.effects.grows hlog hterm

theorem Sim.elected_follows (h : Sim σ W) (htrans : Transition σ a σ')
    (hleads : W'.leads = W.leads) (s : Fin n) (T : ℕ)
    (hled : W'.leads s T) : Event.elected s T ∈ σ'.events := by
  rw [hleads] at hled
  exact htrans.events_grow.subset (h.elected s T hled)

theorem Sim.track_elect (h : Sim σ W) {s : Fin n}
    (htrans : Transition σ (.elect s) σ') :
    ∃ W', Tracks safe σ (.elect s) σ' W W' := by
  have hrep := h.ordered.servers s
  have hgrow := htrans
  cases htrans with
  | electPanic _ _ hrun =>
      obtain ⟨rf', args, hdone⟩ := hrep.electLauncher_done
      rw [hdone] at hrun
      cases hrun
  | @elect _ rf args _ hstate hrun =>
      have hfollows : Follows safe s W _ (σ.server s).rf.electLauncher.rf :=
        .elect (h.mirrors s) hstate
      have hasks := (h.mirrors s).asks hrep (h.ballots.me s) hrun
      rw [hrun] at hfollows
      refine ⟨_, hfollows.effects, h.mirrors_follows hfollows (by simp)
        fun t ht ↦ Function.update_of_ne ht _ _,
        h.elected_follows hgrow hfollows.leads, ?_, ?_, ?_, ?_⟩
      · rintro g T c (⟨hrun', rfl, rfl⟩ | _)
        rw [hrun] at hrun'
        cases hrun'
        obtain ⟨_, last, _, rfl⟩ := Raft.electLauncher_done hrun
        exact Or.inr ⟨rfl, rfl, rfl⟩
      · rintro t rf' args' ⟨⟩ hrun'
        rw [hrun] at hrun'
        cases hrun'
        exact ⟨_, hasks⟩
      · rintro k call rf' reply ⟨⟩
      · rintro k call ⟨⟩

theorem Sim.track_vote (h : Sim σ W) {k : ℕ}
    (htrans : Transition σ (.deliverVote k) σ') :
    ∃ W', Tracks safe σ (.deliverVote k) σ' W W' := by
  have hgrow := htrans
  cases htrans with
  | @votePanic _ call rf hcall _ _ hrun
  | @vote _ call rf reply hcall _ _ hrun =>
      obtain ⟨L, hasks⟩ := h.votes call (List.mem_of_getElem? hcall)
      have hvote : ∃ W', Follows safe call.peer W W' _ ∧ _ :=
        Follows.vote (h.mirrors call.peer) (h.ordered.servers call.peer) hasks
      obtain ⟨W', hfollows, hvoted⟩ := hvote
      rw [hrun] at hfollows
      refine ⟨W', hfollows.effects, h.mirrors_follows hfollows (by simp)
        fun t ht ↦ Function.update_of_ne ht _ _,
        h.elected_follows hgrow hfollows.leads, ?_, ?_, ?_, ?_⟩
      · rintro g T c (_ | ⟨hcall', hrun', hgranted, rfl, rfl, rfl⟩)
        obtain rfl := Option.some.inj (hcall.symm.trans hcall')
        exact hvoted _ _ hrun' hgranted
      · rintro t rf' args ⟨⟩
      · rintro k call rf' reply ⟨⟩
      · rintro k call ⟨⟩

theorem Sim.track_append (h : Sim σ W) {k : ℕ}
    (htrans : Transition σ (.deliverAppend k) σ') :
    ∃ W', Tracks (σ.Careful (.deliverAppend k)) σ (.deliverAppend k) σ'
      W W' := by
  have hgrow := htrans
  cases htrans with
  | @appendPanic _ call rf hcall _ _ hrun
  | @append _ call rf reply hcall _ _ hrun =>
      have hsound := h.appends call (List.mem_of_getElem? hcall)
      obtain ⟨L, p, hcarries, _⟩ := hsound.carries
      obtain ⟨W', hfollows, hheld⟩ := Follows.append h.inv
        (h.mirrors call.peer) (h.ordered.servers call.peer) hsound.ledByOther
        hcarries (fun hcareful : σ.Careful (.deliverAppend k) ↦
          hcareful.2.1 call hcall)
      rw [hrun] at hfollows
      refine ⟨W', hfollows.effects, h.mirrors_follows hfollows (by simp)
        fun t ht ↦ Function.update_of_ne ht _ _,
        h.elected_follows hgrow hfollows.leads, ?_, ?_, ?_, ?_⟩
      · rintro g T c ⟨⟩
      · rintro t rf' args ⟨⟩
      · rintro k' call' rf' reply' ⟨⟩ hcall' hrun' hsuccess
        obtain rfl := Option.some.inj (hcall.symm.trans hcall')
        exact ⟨L, p, hcarries, hheld _ _ hrun' hsuccess⟩
      · rintro k call ⟨⟩

theorem Sim.track_snap (h : Sim σ W) {k : ℕ}
    (htrans : Transition σ (.deliverSnap k) σ') :
    ∃ W', Tracks (σ.Careful (.deliverSnap k)) σ (.deliverSnap k) σ'
      W W' := by
  have hgrow := htrans
  cases htrans with
  | @snapPanic _ call rf hcall _ _ hrun
  | @snapRefused _ call rf reply hcall _ _ hrun
  | @snap _ call rf reply msg hcall _ _ hrun =>
      have hsound := h.snaps call (List.mem_of_getElem? hcall)
      obtain ⟨L, hstands⟩ := hsound.standsFor
      obtain ⟨W', hfollows⟩ := Follows.snap h.inv (h.mirrors call.peer)
        (h.ordered.servers call.peer) hsound.ledByOther hstands
        (fun hcareful : σ.Careful (.deliverSnap k) ↦ hcareful.2.2 call hcall)
      rw [hrun] at hfollows
      refine ⟨W', hfollows.effects, h.mirrors_follows hfollows (by simp)
        fun t ht ↦ Function.update_of_ne ht _ _,
        h.elected_follows hgrow hfollows.leads, ?_, ?_, ?_, ?_⟩
      · rintro g T c ⟨⟩
      · rintro t rf' args ⟨⟩
      · rintro k call rf' reply ⟨⟩
      · rintro k call ⟨⟩

omit [Zero Cmd] in
/-- A server that enters the promotion section in the term it was elected for
has saved that term and is backed by a majority. -/
theorem Sim.backed (h : Sim σ W) {k : ℕ} {call : VoteCall n}
    {reply : RequestVoteReply} (hcall : σ.voteCalls[k]? = some call)
    (hphase : call.phase = .won reply)
    (hcareful : σ.PromotesInTerm (.promote k)) :
    W.term call.caller = (σ.server call.caller).rf.currentTerm ∧
      ∃ Q : Finset (Fin n), Majority Q ∧ ∀ g ∈ Q,
        W.voted g (σ.server call.caller).rf.currentTerm call.caller := by
  have hterm := hcareful call hcall
  have hmem := List.mem_of_getElem? hcall
  have hsound := h.ballots.calls call hmem
  obtain ⟨Q, hQ, hvoted⟩ := hsound.won reply hphase
  obtain ⟨L, hasks⟩ := h.votes call hmem
  have hsaved := hasks.term
  rw [hsound.candidate] at hsaved
  rw [hterm]
  refine ⟨le_antisymm ?_ hsaved, Q, hQ, fun g hg ↦ h.voted _ _ _ (hvoted g hg)⟩
  rw [← hterm]
  exact (h.mirrors call.caller).term

theorem Sim.track_promote (h : Sim σ W) {k : ℕ}
    (htrans : Transition σ (.promote k) σ') (hunique : ElectedUnique σ') :
    ∃ W', Tracks (σ.Careful (.promote k)) σ (.promote k) σ' W W' := by
  have hgrow := htrans.events_grow
  have hmem : ∀ {call : VoteCall n} {reply : RequestVoteReply},
      σ.voteCalls[k]? = some call → call.phase = .won reply →
      σ.Resumes call.caller call.incarnation →
      Event.elected call.caller (σ.server call.caller).rf.currentTerm ∈
        σ'.events := fun hcall hphase hresumes ↦
    htrans.elected_mem ⟨k, _, _, rfl, hcall, hphase, hresumes, rfl, rfl, rfl⟩
  cases htrans with
  | @promotePanic _ call reply rf hcall hphase hresumes hrun
  | @promote _ call reply rf out hcall hphase hresumes hrun =>
      have hevent := hmem hcall hphase hresumes
      obtain rfl : rf = (σ.server call.caller).rf.becomeLeader := by
        first
        | exact Raft.heartBeatLauncher_panic hrun
        | exact (Raft.heartBeatLauncher_done hrun).1
      have honly : ∀ t, W.leads t (σ.server call.caller).rf.currentTerm →
          t = call.caller := fun t ht ↦
        hunique _ _ _ (hgrow.subset (h.elected t _ ht)) hevent
      obtain ⟨W₁, hwin, hlog, hterm, hleads, hback⟩ := Effects.exists_leads
        entryTerm honly fun hcareful : σ.Careful (.promote k) ↦
          h.backed hcall hphase hcareful.1
      have hframe : ∀ t, Mirrors W₁ t (σ.server t).rf := fun t ↦
        (h.mirrors t).frame hwin.grows (by rw [hlog]) (by rw [hterm])
      have hlead : Follows (σ.Careful (.promote k)) call.caller W₁ _ _ :=
        .lead (hframe call.caller) hleads
      refine ⟨_, hwin.trans hlead.effects, ?_, ?_, ?_, ?_, ?_, ?_⟩
      · intro t
        by_cases ht : t = call.caller
        · subst ht
          simpa using hlead.mirrors
        · have hother := (hframe t).frame hlead.effects.grows
            (hlead.others t ht).1 (hlead.others t ht).2
          simpa [Function.update_of_ne ht] using hother
      · intro t T hled
        rw [hlead.leads] at hled
        rcases hback t T hled with hold | ⟨rfl, rfl⟩
        · exact hgrow.subset (h.elected t T hold)
        · exact hevent
      · rintro g T c ⟨⟩
      · rintro t rf' args ⟨⟩
      · rintro k call rf' reply ⟨⟩
      · rintro k call ⟨⟩

/-- Actions that bring no request and no vote to a server and have nothing of
their own to record. -/
def Quiet : Action Cmd n → Prop
  | .elect _ | .deliverVote _ | .promote _ | .deliverAppend _
  | .deliverSnap _ | .replyAppend _ => False
  | _ => True

/-- The world follows a step that brings no request and no vote. -/
theorem Sim.follow (h : Sim σ W) (htrans : Transition σ a σ')
    (hquiet : ∀ s, (σ.inputs a s).Quiet) :
    ∃ W', Effects entryTerm safe W W' ∧ W'.leads = W.leads ∧
      ∀ t, Mirrors W' t (σ'.server t).rf := by
  obtain ⟨s, hfocus⟩ := htrans.focus
  cases htrans.evolves s with
  | changes hchanges =>
      have hquiet : ∃ W', Follows safe s W W' (σ'.server s).rf :=
        Follows.quiet (hquiet s) hchanges (h.mirrors s)
      obtain ⟨W', hfollows⟩ := hquiet
      exact ⟨W', hfollows.effects, hfollows.leads,
        h.mirrors_follows hfollows rfl hfocus⟩
  | restart _ hboot =>
      have hmake : Mirrors W s (σ'.server s).rf := by
        rw [hboot]
        exact (h.mirrors s).make s
      have hstay : Follows safe s W W (σ'.server s).rf := .stay hmake
      exact ⟨W, .refl, rfl, h.mirrors_follows hstay rfl hfocus⟩

theorem Sim.track_quiet (h : Sim σ W) (htrans : Transition σ a σ')
    (hquiet : Quiet a) : ∃ W', Tracks safe σ a σ' W W' := by
  have hinputs : ∀ s, (σ.inputs a s).Quiet := by
    intro s
    refine ⟨?_, ?_, ?_, ?_⟩
    · rintro args ⟨k, call, rfl, _⟩
      exact hquiet
    · rintro args ⟨k, call, rfl, _⟩
      exact hquiet
    · rintro args ⟨k, call, rfl, _⟩
      exact hquiet
    · rintro args T ⟨k, call, reply, rfl, _⟩
      exact hquiet
  have hfollow : ∃ W', Effects entryTerm safe W W' ∧ _ :=
    h.follow htrans hinputs
  obtain ⟨W', heffects, hleads, hmirrors⟩ := hfollow
  refine ⟨W', heffects, hmirrors, h.elected_follows htrans hleads,
    ?_, ?_, ?_, ?_⟩
  · rintro g T c (_ | _) <;> exact hquiet.elim
  · rintro s rf args rfl
    exact hquiet.elim
  · rintro k call rf reply rfl
    exact hquiet.elim
  · rintro k call rfl
    exact hquiet.elim

/-- When `SendHeartbeat` resumes in the term of its request, its server still
leads that term and publishes what it may send at once. -/
theorem Sim.track_reply (h : Sim σ W) {k : ℕ}
    (htrans : Transition σ (.replyAppend k) σ') :
    ∃ W', Tracks safe σ (.replyAppend k) σ' W W' := by
  have hinputs : ∀ s, (σ.inputs (.replyAppend k) s).Quiet := by
    intro s
    refine ⟨?_, ?_, ?_, ?_⟩
    · rintro args ⟨_, _, ⟨⟩, _⟩
    · rintro args ⟨_, _, ⟨⟩, _⟩
    · rintro args ⟨_, _, ⟨⟩, _⟩
    · rintro args T ⟨_, _, _, ⟨⟩, _⟩
  have hfollow : ∃ W', Effects entryTerm safe W W' ∧ _ :=
    h.follow htrans hinputs
  obtain ⟨W₁, heffects, hleads, hmirrors⟩ := hfollow
  have helected := h.elected_follows htrans hleads
  by_cases hresumed : ∃ call, σ.appendCalls[k]? = some call ∧
      (σ'.server call.caller).rf.currentTerm = call.args.term
  · obtain ⟨call, hcall, hterm⟩ := hresumed
    have hlead : W₁.leads call.caller call.args.term := by
      rw [hleads]
      exact (h.appends call (List.mem_of_getElem? hcall)).leads
    have hpublish : Effect entryTerm safe W₁
        (W₁.publish call.args.term (W₁.log call.caller)) :=
      .publish hlead (hterm ▸ (hmirrors call.caller).term) List.prefix_rfl
    refine ⟨_, heffects.tail hpublish, ?_, helected, ?_, ?_, ?_, ?_⟩
    · exact fun t ↦ (hmirrors t).frame hpublish.grows rfl rfl
    · rintro g T c ⟨⟩
    · rintro t rf' args ⟨⟩
    · rintro k call rf' reply ⟨⟩
    · rintro k' call' ⟨⟩ hcall' _ K hK
      obtain rfl := Option.some.inj (hcall.symm.trans hcall')
      exact Or.inr ⟨rfl, hK⟩
  · refine ⟨W₁, heffects, hmirrors, helected, ?_, ?_, ?_, ?_⟩
    · rintro g T c ⟨⟩
    · rintro t rf' args ⟨⟩
    · rintro k call rf' reply ⟨⟩
    · rintro k' call ⟨⟩ hcall hterm
      exact absurd ⟨call, hcall, hterm⟩ hresumed

/-- Every step is a sequence of steps of the protocol, careful ones if the step
is careful, as long as no term has two elected servers. -/
theorem Sim.track (h : Sim σ W) (hstep : σ.step a = some σ')
    (hunique : ElectedUnique σ') :
    ∃ W', Tracks (σ.Careful a) σ a σ' W W' := by
  have htrans := step_transition hstep
  cases a with
  | elect s => exact h.track_elect htrans
  | deliverVote k => exact h.track_vote htrans
  | promote k => exact h.track_promote htrans hunique
  | deliverAppend k => exact h.track_append htrans
  | deliverSnap k => exact h.track_snap htrans
  | replyAppend k => exact h.track_reply htrans
  | _ => exact h.track_quiet htrans trivial

/-! ## Log matching -/

theorem exists_sim {ok : Cluster n Cmd → Action Cmd n → Prop}
    {visited : List (Cluster n Cmd)} (hrun : Run step ok init visited σ)
    (hunique : ElectedUnique σ) : ∃ W, Sim σ W := by
  induction hrun with
  | start => exact ⟨_, sim_init⟩
  | next _ _ hstep ih =>
      obtain ⟨W, hsim⟩ := ih (hunique.before hstep)
      obtain ⟨W', htracks⟩ := hsim.track hstep hunique
      exact ⟨W', hsim.advance hstep htracks⟩

omit [Zero Cmd] in
/-- Above its sentinel a server holds exactly the entries of its full log. -/
theorem Sim.entry (h : Sim σ W) {s : Fin n} {i : ℤ}
    (hi : (σ.server s).rf.lastIncludedIndex < i) :
    elemAt (σ.server s).rf.log ((σ.server s).rf.v2pIndex i) =
      (W.log s)[i.toNat - 1]? :=
  (h.mirrors s).memory.elemAt_entry hi

/-- In every run without two leaders of one term, two servers that hold entries
of the same term at some virtual index hold the same entries at every virtual
index up to it that neither has compacted. -/
theorem log_matching {visited : List (Cluster n Cmd)}
    (hrun : Run step (fun _ _ ↦ True) init visited σ)
    (hleaders : ∀ σ₁ ∈ visited, ∀ σ₂ ∈ visited, ∀ s t,
      (σ₁.server s).rf.state = .leader → (σ₂.server t).rf.state = .leader →
      (σ₁.server s).rf.currentTerm = (σ₂.server t).rf.currentTerm → s = t)
    (a b : Fin n) (i : ℤ)
    (hia : (σ.server a).rf.lastIncludedIndex < i)
    (hib : (σ.server b).rf.lastIncludedIndex < i) {e f : LogEntry Cmd}
    (he : elemAt (σ.server a).rf.log ((σ.server a).rf.v2pIndex i) = some e)
    (hf : elemAt (σ.server b).rf.log ((σ.server b).rf.v2pIndex i) = some f)
    (hterm : e.logTerm = f.logTerm) (j : ℤ)
    (hja : (σ.server a).rf.lastIncludedIndex < j)
    (hjb : (σ.server b).rf.lastIncludedIndex < j) (hji : j ≤ i) :
    ∃ d, elemAt (σ.server a).rf.log ((σ.server a).rf.v2pIndex j) = some d ∧
      elemAt (σ.server b).rf.log ((σ.server b).rf.v2pIndex j) = some d := by
  obtain ⟨W, hsim⟩ :=
    exists_sim hrun (electedUnique_of_leaders hrun hleaders)
  rw [hsim.entry hia] at he
  rw [hsim.entry hib] at hf
  rw [hsim.entry hja, hsim.entry hjb]
  have hnonneg := (hsim.mirrors a).memory.nonneg
  have hsucc : i.toNat - 1 + 1 = i.toNat := by omega
  have hlenA := (List.getElem?_eq_some_iff.mp he).1
  have hlenB := (List.getElem?_eq_some_iff.mp hf).1
  have htermA := termAt_succ entryTerm he
  have htermB := termAt_succ entryTerm hf
  rw [hsucc] at htermA htermB
  have hmatch : (W.log a).take i.toNat = (W.log b).take i.toNat :=
    hsim.inv.log_take_eq (by omega) (by omega)
      (htermA.trans (hterm.trans htermB.symm))
  have hlt : j.toNat - 1 < i.toNat := by omega
  have hsame : (W.log a)[j.toNat - 1]? = (W.log b)[j.toNat - 1]? := by
    rw [← List.getElem?_take_of_lt hlt, hmatch, List.getElem?_take_of_lt hlt]
  have hget : (W.log a)[j.toNat - 1]? = some (W.log a)[j.toNat - 1] :=
    List.getElem?_eq_getElem (by omega)
  exact ⟨_, hget, hsame.symm.trans hget⟩

/-- Server 0 wins term 1, replicates three commands to server 1 and compacts
the first one. -/
def matchingRun : List (Action ℕ 3) :=
  winning 0 0 ++ [.start 0 5, .start 0 6, .start 0 7, .heartbeat 0,
    .deliverAppend 2, .replyAppend 2, .apply 0, .receive 0 0,
    .snapshot 0 1 [1]]

/-- Two servers with different sentinels agree below an entry they share. -/
theorem log_matching_compacted :
    ∃ (visited : List (Cluster 3 ℕ)) (σ : Cluster 3 ℕ),
      Run step (fun _ _ ↦ True) init visited σ ∧
      ((σ.server 0).rf.lastIncludedIndex = 1 ∧
        (σ.server 1).rf.lastIncludedIndex = 0 ∧
        elemAt (σ.server 0).rf.log ((σ.server 0).rf.v2pIndex 3) =
          some ⟨1, 7⟩ ∧
        elemAt (σ.server 1).rf.log ((σ.server 1).rf.v2pIndex 3) =
          some ⟨1, 7⟩) ∧
      ∃ d, elemAt (σ.server 0).rf.log ((σ.server 0).rf.v2pIndex 2) =
          some d ∧
        elemAt (σ.server 1).rf.log ((σ.server 1).rf.v2pIndex 2) =
          some d := by
  obtain ⟨visited, σ, hrun, h0, h1, he, hf⟩ := Run.exists_of_exec
    step PromotesInTerm init matchingRun
    (fun σ : Cluster 3 ℕ ↦ (σ.server 0).rf.lastIncludedIndex = 1 ∧
      (σ.server 1).rf.lastIncludedIndex = 0 ∧
      elemAt (σ.server 0).rf.log ((σ.server 0).rf.v2pIndex 3) =
        some ⟨1, 7⟩ ∧
      elemAt (σ.server 1).rf.log ((σ.server 1).rf.v2pIndex 3) =
        some ⟨1, 7⟩) (by decide +kernel)
  have hunique := electedUnique_of_run (fun _ _ hok ↦ hok) hrun
  have hall : Run step (fun _ _ ↦ True) init visited σ :=
    hrun.mono fun _ _ _ ↦ trivial
  refine ⟨visited, σ, hall, ⟨h0, h1, he, hf⟩, ?_⟩
  exact log_matching hall
    (fun σ₁ hσ₁ σ₂ hσ₂ s t hs ht hterm ↦
      hunique.leaders hrun hσ₁ hσ₂ hs ht hterm)
    0 1 3 (by omega) (by omega) he hf rfl 2 (by omega) (by omega) (by omega)

end Cluster

end DistLabs
