import DistLabs.Raft.Accounts

/-!
# Requests that read below the log

`HeartbeatHandler` compares `PrevLogIndex` with the end of the log but not with
`LastIncludedIndex`.  A request leaves the log at its lower end when the
receiver compacts past `PrevLogIndex` while the request is on its way, or when
the sender starts from a next index that the receiver has already compacted.
Both are excluded if servers compact only when they owe nothing to the leaders
of their term, and leaders look only at fresh replies.
-/

namespace DistLabs

open Consensus

variable {n : ℕ} {Cmd : Type}

namespace Raft

variable {rf : Raft n Cmd}

/-- `HeartbeatHandler` finishes when the entry that it checks is in the log. -/
theorem heartbeatHandler_isDone {args : AppendEntriesArgs n Cmd}
    (h : rf.currentTerm ≤ args.term → args.prevLogIndex ≤ rf.logLength - 1 →
      (elemAt rf.log (rf.v2pIndex args.prevLogIndex)).isSome) :
    ∃ rf' reply, rf.heartbeatHandler args = .done rf' reply := by
  unfold heartbeatHandler
  dsimp only
  split
  · exact ⟨_, _, rfl⟩
  · next hterm =>
      split
      · exact ⟨_, _, rfl⟩
      · next hlen =>
          split
          · next hnone =>
              rw [followLeader_currentTerm] at hterm
              rw [followLeader_logLength] at hlen
              rw [followLeader_log, followLeader_v2pIndex] at hnone
              have hsome := h (by omega) (by omega)
              rw [hnone] at hsome
              cases hsome
          · exact ⟨_, _, rfl⟩

/-- The hint of a refusal points above the sentinel of its sender, unless it
names the term of the sentinel. -/
def Hints (rf : Raft n Cmd) (reply : AppendEntriesReply) : Prop :=
  (reply.xTerm = -1 → rf.lastIncludedIndex < reply.xLen) ∧
  (reply.xTerm ≠ -1 → rf.lastIncludedTerm ≤ reply.xTerm ∧
    (reply.xTerm ≠ rf.lastIncludedTerm → rf.lastIncludedIndex < reply.xIndex))

/-- A refusal hints at an entry of the log or at its end. -/
theorem heartbeatHandler_hints {rf' : Raft n Cmd} (hrep : Represented rf)
    {args : AppendEntriesArgs n Cmd} {reply : AppendEntriesReply}
    (hrun : rf.heartbeatHandler args = .done rf' reply)
    (hfail : reply.success = false) (hterm : reply.term ≤ args.term) :
    rf.Hints reply := by
  have hlen := hrep.length
  have hpos := hrep.ordered.length_pos
  rcases heartbeatHandler_refused hrep hrun hfail hterm with
    ⟨hx, hxlen, _⟩ | ⟨i, k, e, entry, _, _, he, _, hsame, _, hx, hxindex⟩
  · exact ⟨fun _ ↦ by omega, fun hne ↦ absurd hx hne⟩
  · have hzero : rf.log[0]? = some rf.log[0] := List.getElem?_eq_getElem hpos
    have hlit := hrep.ordered.head_term hzero
    have hle := hrep.ordered.term_le (Nat.zero_le i) hzero he
    refine ⟨fun hminus ↦ by omega, fun _ ↦ ⟨by omega, fun hne ↦ ?_⟩⟩
    have hi : i ≠ 0 := by
      rintro rfl
      obtain rfl := Option.some.inj (hzero.symm.trans he)
      omega
    unfold p2vIndex at hxindex
    omega

end Raft

/-- The durable term of the world is the one in the persister. -/
theorem Mirrors.durable_term [Zero Cmd] {W : LogWorld n Cmd} {s : Fin n}
    {rf : Raft n Cmd} (h : Mirrors W s rf) :
    rf.persister.durable.currentTerm = W.term s := by
  unfold Persister.durable
  cases hsaved : rf.persister.raftstate with
  | none => exact (h.unsaved hsaved).2.symm
  | some saved => exact (h.saved saved hsaved).2

namespace Cluster

/-! ## When servers compact -/

/-- A server takes a snapshot only when all AppendEntries calls to it of its
term or later are finished, and it has accepted a request in each of their
terms. -/
def TakesSettled (σ : Cluster n Cmd) : Action Cmd n → Prop
  | .snapshot f _ _ => ∀ call ∈ σ.appendCalls, call.peer = f →
      (σ.server f).rf.currentTerm ≤ call.args.term →
      call.phase = .finished ∧ σ.Accepted f call.args.term
  | _ => True

/-- A server installs a snapshot only when all AppendEntries calls to it of the
term of the snapshot are finished, and none is of a later term. -/
def InstallsSettled (σ : Cluster n Cmd) : Action Cmd n → Prop
  | .deliverSnap k => ∀ snap ∈ σ.snapCalls[k]?,
      (σ.server snap.peer).rf.currentTerm ≤ snap.args.term →
      ∀ call ∈ σ.appendCalls, call.peer = snap.peer →
        snap.args.term ≤ call.args.term →
        call.phase = .finished ∧ call.args.term = snap.args.term
  | _ => True

instance (σ : Cluster n Cmd) (a : Action Cmd n) :
    Decidable (σ.TakesSettled a) := by
  induction a using Action.casesOn <;> dsimp only [TakesSettled] <;>
    infer_instance

instance (σ : Cluster n Cmd) (a : Action Cmd n) :
    Decidable (σ.InstallsSettled a) := by
  induction a using Action.casesOn <;> dsimp only [InstallsSettled] <;>
    infer_instance

/-- The steps of a careful run in which servers compact only what is settled and
leaders handle replies in order. -/
structure Orderly (σ : Cluster n Cmd) (a : Action Cmd n) : Prop where
  applied : σ.SnapshotsApplied a
  careful : σ.Careful a
  takes : σ.TakesSettled a
  installs : σ.InstallsSettled a
  replies : σ.RepliesInOrder a

instance [DecidableEq Cmd] (σ : Cluster n Cmd) (a : Action Cmd n) :
    Decidable (σ.Orderly a) :=
  decidable_of_iff (σ.SnapshotsApplied a ∧ σ.Careful a ∧ σ.TakesSettled a ∧
    σ.InstallsSettled a ∧ σ.RepliesInOrder a)
    ⟨fun ⟨h₁, h₂, h₃, h₄, h₅⟩ ↦ ⟨h₁, h₂, h₃, h₄, h₅⟩,
      fun ⟨h₁, h₂, h₃, h₄, h₅⟩ ↦ ⟨h₁, h₂, h₃, h₄, h₅⟩⟩

variable [Zero Cmd] {σ σ' : Cluster n Cmd} {a : Action Cmd n}
  {W : LogWorld n Cmd}

/-! ## What a reigning server shares with the others -/

/-- What a server knows to be committed is in the log of every server that was
elected in the term that it has saved or a later one. -/
theorem Secure.shared (h : Secure σ W) {s f : Fin n} (hreigns : Reigns σ s)
    (hterm : (σ.server f).rf.persister.durable.currentTerm ≤
      (σ.server s).rf.currentTerm) {i : ℤ} (hi : 1 ≤ i)
    (hknown : KnownUpTo W f i) :
    ∃ e, (W.log s)[i.toNat - 1]? = some e ∧
      (W.log f)[i.toNat - 1]? = some e := by
  have hleads := h.sim.leads _ _ hreigns
  obtain ⟨hle, hlatest⟩ := h.safe.leader hleads
  have hlog := hlatest (le_antisymm (h.sim.mirrors s).term hle)
  obtain ⟨K, e, ⟨_, U, P, hcommitted, hU, hKP⟩, _, hK, hf⟩ :=
    hknown.exists_entry hi
  rw [(h.sim.mirrors f).durable_term] at hterm
  have hprefix := hKP.trans
    (h.safe.committed_prefix_latest hcommitted (hU.trans hterm) ⟨s, hleads⟩)
  obtain ⟨hlt, rfl⟩ := List.getElem?_eq_some_iff.mp hK
  refine ⟨_, ?_, hf⟩
  rw [hlog]
  exact List.prefix_iff_getElem?.mp hprefix _ hlt

/-- The same in terms of the two logs. -/
theorem Secure.holds_shared (h : Secure σ W) {s f : Fin n}
    (hreigns : Reigns σ s)
    (hterm : (σ.server f).rf.persister.durable.currentTerm ≤
      (σ.server s).rf.currentTerm) {i : ℤ}
    (hi : (σ.server s).rf.lastIncludedIndex < i) (hknown : KnownUpTo W f i) :
    ∃ U, (σ.server s).rf.Holds i U ∧
      ((σ.server f).rf.lastIncludedIndex < i → (σ.server f).rf.Holds i U) ∧
      ((σ.server f).rf.lastIncludedIndex = i →
        (σ.server f).rf.lastIncludedTerm = U) := by
  have hnonneg := (h.sim.mirrors s).memory.nonneg
  obtain ⟨e, hs, hf⟩ := h.shared hreigns hterm (by omega) hknown
  refine ⟨e.logTerm, ⟨hi, e, (h.sim.entry hi).trans hs, rfl⟩,
    fun hlow ↦ ⟨hlow, e, (h.sim.entry hlow).trans hf, rfl⟩, fun heq ↦ ?_⟩
  rw [(h.sim.mirrors f).memory.lit_eq, heq,
    ← Nat.sub_add_cancel (n := i.toNat) (m := 1) (by omega)]
  exact termAt_succ _ hf

/-- The sentinel of a server lies within the log of every server that was
elected in its term or later. -/
theorem Sound.included_le (h : Sound σ) {s f : Fin n} (hreigns : Reigns σ s)
    (hterm : (σ.server f).rf.persister.durable.currentTerm ≤
      (σ.server s).rf.currentTerm) :
    (σ.server f).rf.lastIncludedIndex ≤ (σ.server s).rf.logLength - 1 := by
  obtain ⟨W, hsecure⟩ := h.secure
  have hrep := h.ordered.servers s
  have hlen := hrep.length
  have hpos := hrep.ordered.length_pos
  rcases le_or_gt (σ.server f).rf.lastIncludedIndex
      (σ.server s).rf.lastIncludedIndex with hle | hgt
  · omega
  · obtain ⟨U, hholds, _⟩ := hsecure.holds_shared hreigns hterm hgt
      (hsecure.servers f).included
    exact hholds.le_logLength hrep

/-! ## What moves a sentinel -/

/-- A step moves the sentinel of server `f` to `index` and saves term `T`. -/
inductive Compacts (σ : Cluster n Cmd) (f : Fin n) (T : ℕ) (index : ℤ) :
    Action Cmd n → Prop
  | taken {data : Bytes} (hterm : T = (σ.server f).rf.currentTerm)
      (hlow : (σ.server f).rf.lastIncludedIndex ≤ index) :
      Compacts σ f T index (.snapshot f index data)
  | installed {k : ℕ} {snap : SnapCall n} (hcall : σ.snapCalls[k]? = some snap)
      (hpeer : snap.peer = f) (hfresh : (σ.server f).rf.currentTerm ≤ T)
      (hterm : snap.args.term = T)
      (hindex : snap.args.lastIncludedIndex = index) :
      Compacts σ f T index (.deliverSnap k)

/-- A step leaves the sentinel of a server alone or compacts its log. -/
theorem Transition.sentinel_cases (h : Transition σ a σ') {f : Fin n}
    (hsaved : (σ.server f).rf.SavesBody) :
    ((σ'.server f).rf.lastIncludedIndex =
        (σ.server f).rf.lastIncludedIndex ∧
      (σ'.server f).rf.lastIncludedTerm =
        (σ.server f).rf.lastIncludedTerm) ∨
      Compacts σ f (σ'.server f).rf.persister.durable.currentTerm
        (σ'.server f).rf.lastIncludedIndex a := by
  by_cases hsnap : ∃ args, (σ.inputs a f).snap args
  · obtain ⟨args, k, call, rfl, hcall, rfl, rfl⟩ := hsnap
    rw [h.snap_rf hcall]
    have hfollow : ((σ.server call.peer).rf.followInstaller
          call.args.term).lastIncludedTerm =
        (σ.server call.peer).rf.lastIncludedTerm := by
      unfold Raft.followInstaller
      split <;> rfl
    rcases (σ.server call.peer).rf.installSnapshot_cases call.args with
      ⟨_, hcase⟩ | ⟨hle, ⟨_, hcase⟩ | ⟨log, _, hcase⟩⟩ <;> rw [hcase]
    · exact Or.inl ⟨rfl, rfl⟩
    · exact Or.inl ⟨(Keeps.followInstaller _ _).lastIncludedIndex, hfollow⟩
    · have hterm : call.args.term =
          ((σ.server call.peer).rf.followInstaller
            call.args.term).currentTerm := by
        rw [Raft.followInstaller_currentTerm, max_eq_right hle]
      exact Or.inr (.installed hcall rfl (hle.trans hterm.le) hterm rfl)
  · by_cases htaken : ∃ index data, (σ.inputs a f).taken index data
    · obtain ⟨index, data, rfl⟩ := htaken
      rw [h.snapshot_rf]
      rcases (σ.server f).rf.snapshot_cases index data with
        hcase | ⟨entry, hentry, hcase⟩ <;> rw [hcase]
      · exact Or.inl ⟨rfl, rfl⟩
      · obtain ⟨k, hk, _⟩ := elemAt_eq_some_iff.mp hentry
        have hlow : (σ.server f).rf.lastIncludedIndex ≤ index := by
          unfold Raft.v2pIndex at hk
          omega
        exact Or.inr (.taken rfl hlow)
    · left
      push Not at hsnap htaken
      cases h.evolves f with
      | changes hchanges => exact hchanges.sentinel_eq hsnap htaken
      | restart _ hboot =>
          rw [hboot]
          exact ⟨(hsaved.make f).2.1, (hsaved.make f).2.2.1⟩

/-- Sentinels do not move back in a careful run. -/
theorem Transition.included_mono (h : Transition σ a σ')
    (hsaved : ∀ f, (σ.server f).rf.SavesBody) (hforward : σ.InstallsForward a)
    (f : Fin n) : (σ.server f).rf.lastIncludedIndex ≤
      (σ'.server f).rf.lastIncludedIndex := by
  rcases h.sentinel_cases (hsaved f) with ⟨hsame, _⟩ | hmoved
  · exact hsame.ge
  · cases hmoved with
    | taken _ hlow => exact hlow
    | installed hcall hpeer hfresh hterm hindex =>
        subst hpeer
        rw [← hindex]
        exact hforward _ hcall (hterm ▸ hfresh)

omit [Zero Cmd] in
theorem Orderly.finished (h : σ.Orderly a) {f : Fin n} {T : ℕ} {index : ℤ}
    (hmoved : Compacts σ f T index a) {call : AppendCall n Cmd}
    (hcall : call ∈ σ.appendCalls) (hpeer : call.peer = f)
    (hterm : T ≤ call.args.term) : call.phase = .finished := by
  cases hmoved with
  | taken hcurrent =>
      exact (h.takes call hcall hpeer (hcurrent ▸ hterm)).1
  | installed hget hpeer' hfresh hT =>
      subst hpeer' hT
      exact (h.installs _ hget hfresh call hcall hpeer hterm).1

/-- The sentinel of a server stays as long as a call to it is open whose term it
has not passed. -/
theorem Orderly.sentinel_kept (h : σ.Orderly a) (htrans : Transition σ a σ')
    {call : AppendCall n Cmd} (hsaved : (σ.server call.peer).rf.SavesBody)
    (hcall : call ∈ σ.appendCalls) (hopen : call.phase ≠ .finished)
    (hterm : (σ'.server call.peer).rf.persister.durable.currentTerm ≤
      call.args.term) :
    (σ'.server call.peer).rf.lastIncludedIndex =
        (σ.server call.peer).rf.lastIncludedIndex ∧
      (σ'.server call.peer).rf.lastIncludedTerm =
        (σ.server call.peer).rf.lastIncludedTerm := by
  rcases htrans.sentinel_cases hsaved with hsame | hmoved
  · exact hsame
  · exact absurd (h.finished hmoved hcall rfl hterm) hopen

/-! ## The invariant -/

/-- No server looks below a sentinel that it has to respect: neither a reigning
server that has heard from `f` nor a request or a reply under way. -/
structure InReach (σ : Cluster n Cmd) : Prop where
  next : ∀ s f next, f ≠ s → Reigns σ s →
    (σ.server s).rf.nextIndex[f.val]? = some next →
    (σ.server f).rf.persister.durable.currentTerm ≤
      (σ.server s).rf.currentTerm →
    (σ.server f).rf.lastIncludedIndex < next ∨
      (σ.server f).rf.lastIncludedIndex ≤
        (σ.server s).rf.lastIncludedIndex
  calls : ∀ call ∈ σ.appendCalls, call.phase ≠ .finished →
    (σ.server call.peer).rf.persister.durable.currentTerm ≤ call.args.term →
    (σ.server call.peer).rf.lastIncludedIndex ≤ call.args.prevLogIndex
  hints : ∀ call ∈ σ.appendCalls, ∀ reply, call.phase = .replied reply →
    reply.success = false → reply.term ≤ call.args.term →
    (σ.server call.peer).rf.persister.durable.currentTerm ≤ call.args.term →
    (σ.server call.peer).rf.Hints reply
  jobs : ∀ s, ∀ job ∈ (σ.server s).jobs,
    job.lastIncludedIndex ≤ (σ.server s).rf.lastIncludedIndex
  snaps : ∀ snap ∈ σ.snapCalls, snap.args.lastIncludedIndex ≤
    (σ.server snap.caller).rf.lastIncludedIndex

theorem inReach_init : InReach (init : Cluster n Cmd) where
  next := by simp [Reigns, init]
  calls := by simp [init]
  hints := by simp [init]
  jobs := by simp [init, boot]
  snaps := by simp [init]

theorem Sound.snap_elected (h : Sound σ) {snap : SnapCall n}
    (hsnap : snap ∈ σ.snapCalls) :
    Event.elected snap.caller snap.args.term ∈ σ.events := by
  obtain ⟨W, hsecure⟩ := h.secure
  exact hsecure.sim.elected _ _ (hsecure.sim.snaps snap hsnap).leads

/-- Fast backup goes back to an index above the sentinel of the follower if the
refusal does not name the sentinel's term. -/
theorem Sound.backup_above (h : Sound σ) {s f : Fin n} (hreigns : Reigns σ s)
    (hterm : (σ.server f).rf.persister.durable.currentTerm ≤
      (σ.server s).rf.currentTerm) {reply : AppendEntriesReply}
    (hhints : (σ.server f).rf.Hints reply)
    (hne : reply.xTerm ≠ (σ.server f).rf.lastIncludedTerm) :
    (σ.server f).rf.lastIncludedIndex <
      (σ.server s).rf.backupIndex reply := by
  unfold Raft.backupIndex
  split
  · next hx =>
      obtain ⟨hle, hindex⟩ := hhints.2 hx
      split
      · next j hfind =>
          by_contra hlow
          obtain ⟨W, hsecure⟩ := h.secure
          unfold Raft.p2vIndex at hlow
          obtain ⟨U, ⟨_, e, he, hU⟩, _, hlit⟩ := hsecure.holds_shared hreigns
            hterm (i := (σ.server f).rf.lastIncludedIndex) (by omega)
            (hsecure.servers f).included
          obtain ⟨hlt, hterm, _⟩ := List.findIdx?_eq_some_iff_getElem.mp hfind
          obtain ⟨k, hk, hget⟩ := elemAt_eq_some_iff.mp he
          unfold Raft.v2pIndex at hk
          have hle' := (h.ordered.servers s).ordered.term_le (i := j) (by omega)
            (List.getElem?_eq_getElem hlt) hget
          have hlit := hlit rfl
          simp only [decide_eq_true_eq] at hterm
          omega
      · exact hindex hne
  · next hx => exact hhints.1 (not_not.mp hx)

/-- Only a request that is on its way is delivered. -/
theorem Transition.sent_of_delivered {k : ℕ}
    (h : Transition σ (.deliverAppend k) σ') {call : AppendCall n Cmd}
    (hcall : σ.appendCalls[k]? = some call) : call.phase = .sent := by
  cases h with
  | appendPanic hget hphase | append hget hphase =>
      obtain rfl := Option.some.inj (hcall.symm.trans hget)
      exact hphase

/-- A settled server takes a snapshot below the next index that a reigning
server has for it, or that server has compacted as well. -/
theorem Accounted.taken_below (h : Accounted σ) (hsound : Sound σ)
    {s f : Fin n} {index : ℤ} {data : Bytes}
    (happlied : σ.SnapshotsApplied (.snapshot f index data))
    (hsettled : σ.TakesSettled (.snapshot f index data)) (hf : f ≠ s)
    (hreigns : Reigns σ s) {next : ℤ}
    (hnext : (σ.server s).rf.nextIndex[f.val]? = some next)
    (hterm : (σ.server f).rf.currentTerm ≤ (σ.server s).rf.currentTerm)
    (hlow : (σ.server f).rf.lastIncludedIndex < index) :
    index < next ∨ index ≤ (σ.server s).rf.lastIncludedIndex := by
  have hdone : ∀ p, Reported σ s f next p → p < next := by
    rintro p ⟨k, call, hget, hof, hpeer, _, ⟨_, hreplied, _⟩ | ⟨_, hlt⟩⟩
    · have hfinished := (hsettled call (List.mem_of_getElem? hget) hpeer
        (hof.term ▸ hterm)).1
      rw [hreplied] at hfinished
      cases hfinished
    · exact hlt
  have hsaved := (hsound.fenced.memory f).trans hterm
  by_contra hnot
  push Not at hnot
  obtain ⟨hhigh, hpassed⟩ := hnot
  obtain ⟨W, hsecure⟩ := hsound.secure
  obtain ⟨incarnation, msg, hevent, rfl⟩ := mem_deliveredIndices happlied
  obtain ⟨U, hs, hholds, _⟩ := hsecure.holds_shared hreigns hsaved
    hpassed (hsecure.applied f incarnation msg hevent).knownUpTo
  by_cases hU : U = (σ.server s).rf.currentTerm
  · -- An entry of the term of `s` is there because `f` has accepted it.
    obtain ⟨_, hreported⟩ := h.entries s f next msg.index hf hreigns hnext
      hsaved (hU ▸ hholds hlow)
    have hlt := hdone _ hreported
    omega
  · -- Older entries lie below the end of what `f` has accepted.
    obtain ⟨call, hcall, _, hpeer, hT⟩ := h.sent s _ hreigns f hf
    obtain ⟨p, hreported, habove⟩ := h.accepted s f next hf hreigns hnext
      (hT ▸ (hsettled call hcall hpeer (hT ▸ hterm)).2)
    have hlt := hdone p hreported
    exact hU (habove msg.index U (by omega) hs)

namespace InReach

section Step

variable (h : InReach σ) (hacc : Accounted σ) (hsound : Sound σ)
  (hsound' : Sound σ') (htrans : Transition σ a σ')
  (horderly : σ.Orderly a)

include h hsound htrans horderly in
theorem jobs_step (s : Fin n) (job : SnapshotJob n)
    (hjob : job ∈ (σ'.server s).jobs) :
    job.lastIncludedIndex ≤ (σ'.server s).rf.lastIncludedIndex := by
  rcases htrans.job_origin hjob with hold | hnew
  · exact (h.jobs s job hold).trans
      (htrans.included_mono hsound.saves horderly.careful.2.2 s)
  · exact (congrArg SnapshotJob.lastIncludedIndex
      (Raft.prepare_snapshot hnew.prepared)).le

include h hsound htrans horderly in
theorem snaps_step (snap : SnapCall n) (hsnap : snap ∈ σ'.snapCalls) :
    snap.args.lastIncludedIndex ≤
      (σ'.server snap.caller).rf.lastIncludedIndex := by
  rcases htrans.snapCall_origin hsnap with ⟨old, hold, _, rfl⟩ | hnew
  · exact (h.snaps old hold).trans
      (htrans.included_mono hsound.saves horderly.careful.2.2 old.caller)
  · cases hnew with
    | atOnce _ _ _ _ _ hargs => exact (congrArg _ hargs).le
    | ofJob _ hget hsame _ hargs =>
        rw [hargs, hsame]
        exact h.jobs _ _ (List.mem_of_getElem? hget)

include h hsound htrans horderly in
theorem hints_step (call : AppendCall n Cmd) (hcall : call ∈ σ'.appendCalls)
    (reply : AppendEntriesReply) (hphase : call.phase = .replied reply)
    (hfail : reply.success = false) (hreply : reply.term ≤ call.args.term)
    (hterm : (σ'.server call.peer).rf.persister.durable.currentTerm ≤
      call.args.term) : (σ'.server call.peer).rf.Hints reply := by
  have hgrow := (htrans.savedTerm_le hsound.ordered
    (hsound.fenced.memory call.peer)).1
  have hkeep : ∀ {old : AppendCall n Cmd}, old ∈ σ.appendCalls →
      old.phase ≠ .finished → old.peer = call.peer → old.args = call.args →
      (σ.server call.peer).rf.Hints reply →
      (σ'.server call.peer).rf.Hints reply := by
    intro old hold hopen hpeer hargs hhints
    obtain ⟨hindex, hlit⟩ := horderly.sentinel_kept htrans (hsound.saves _)
      hold hopen (by rw [hpeer, hargs]; exact hterm)
    rw [hpeer] at hindex hlit
    unfold Raft.Hints
    rw [hindex, hlit]
    exact hhints
  rcases htrans.replied_origin hcall hphase with
    hold | ⟨k, old, _, rfl, hget, rfl, hrun⟩
  · exact hkeep hold (by simp [hphase]) rfl rfl
      (h.hints call hold reply hphase hfail hreply (hgrow.trans hterm))
  · have hsent := htrans.sent_of_delivered hget
    exact hkeep (List.mem_of_getElem? hget) (by simp [hsent]) rfl rfl
      (Raft.heartbeatHandler_hints (hsound.ordered.servers old.peer) hrun
        hfail hreply)

include h hacc hsound horderly in
/-- A server that installs a snapshot has it from the only server that may have
a next index for it. -/
theorem installed_below {s f : Fin n} {k : ℕ} {snap : SnapCall n}
    (haction : a = .deliverSnap k) (hget : σ.snapCalls[k]? = some snap)
    (hpeer : snap.peer = f)
    (hcurrent : (σ.server f).rf.currentTerm ≤ snap.args.term) (hf : f ≠ s)
    (hreigns : Reigns σ s)
    (hterm : snap.args.term ≤ (σ.server s).rf.currentTerm) :
    snap.args.lastIncludedIndex ≤ (σ.server s).rf.lastIncludedIndex := by
  subst haction hpeer
  have hmem := List.mem_of_getElem? hget
  obtain ⟨call, hcall, _, hpeer, hT⟩ := hacc.sent s _ hreigns snap.peer hf
  have heq := (horderly.installs snap hget hcurrent call hcall hpeer
    (hT ▸ hterm)).2
  have helected := hsound.snap_elected hmem
  rw [← heq, hT] at helected
  obtain rfl := hsound.unique _ _ _ helected hreigns
  exact h.snaps snap hmem

include h hacc hsound hsound' htrans horderly in
theorem next_step (s f : Fin n) (next : ℤ) (hf : f ≠ s)
    (hreigns' : Reigns σ' s)
    (hnext : (σ'.server s).rf.nextIndex[f.val]? = some next)
    (hterm' : (σ'.server f).rf.persister.durable.currentTerm ≤
      (σ'.server s).rf.currentTerm) :
    (σ'.server f).rf.lastIncludedIndex < next ∨
      (σ'.server f).rf.lastIncludedIndex ≤
        (σ'.server s).rf.lastIncludedIndex := by
  obtain ⟨hinc, hterm, hexists⟩ :=
    hacc.reigns_before hsound htrans horderly.careful.1 hf hreigns' hnext
  have hmono := htrans.included_mono hsound.saves horderly.careful.2.2 s
  have hgrow := (htrans.savedTerm_le hsound.ordered (hsound.fenced.memory f)).1
  by_cases hwon : ∃ args T, (σ.inputs a s).won args T
  · -- A new leader starts at the end of its log.
    obtain ⟨args, T, hin⟩ := hwon
    have hle := hsound'.included_le hreigns' hterm'
    rw [htrans.won_rf hin] at hnext hle
    have hv := Option.some.inj (hnext.symm.trans (Raft.getElem?_fillIndex
      (σ.server s).rf.logLength (σ.server s).rf.nextIndex f))
    change _ ≤ (σ.server s).rf.logLength - 1 at hle
    omega
  have hlost : ∀ args T, ¬ (σ.inputs a s).won args T :=
    fun args T hin ↦ hwon ⟨args, T, hin⟩
  have hreigns := (hreigns'.before hsound htrans hinc hlost).1
  rw [hterm] at hterm'
  rcases htrans.sentinel_cases (hsound.saves f) with ⟨hsame, hlit⟩ | hmoved
  · rw [hsame]
    have hsaved := hgrow.trans hterm'
    cases htrans.nextChange hinc hnext with
    | keep hold =>
        have hbefore := h.next s f next hf hreigns hold hsaved
        omega
    | filled hin => exact absurd hin (hlost _ _)
    | @accepted k call reply hresumed _ hpeer hv =>
        subst hpeer
        have hlow := h.calls call (List.mem_of_getElem? hresumed.get)
          (by simp [hresumed.phase]) (hresumed.term ▸ hsaved)
        unfold AppendEntriesArgs.last at hv
        omega
    | @refused k call reply hresumed hfail hreply hpeer hv =>
        subst hpeer
        have hhints := h.hints call (List.mem_of_getElem? hresumed.get) reply
          hresumed.phase hfail hreply (hresumed.term ▸ hsaved)
        have hfresh := horderly.replies.refusals
        rw [hresumed.action] at hfresh
        have hne := (hfresh call hresumed.get
          (by rw [hresumed.caller]; exact hresumed.term) reply
          (by rw [hresumed.phase]; rfl) hfail hreply).2
        rw [hv]
        exact Or.inl (hsound.backup_above hreigns hsaved hhints hne)
    | @installed k call reply hresumed hreply hpeer hv =>
        subst hpeer
        have hfresh := horderly.replies.answers
        rw [hresumed.action] at hfresh
        obtain ⟨old, hold⟩ := hexists hreigns
        have hbefore := h.next s call.peer old hf hreigns hold hsaved
        have hle := hfresh call hresumed.get
          (by rw [hresumed.caller]; exact hresumed.term) old
          (by rw [hresumed.caller]; exact hold)
        rw [hresumed.caller] at hle
        omega
  · have hold : (σ.server s).rf.nextIndex[f.val]? = some next := by
      cases htrans.nextChange hinc hnext with
      | keep hold => exact hold
      | filled hin => exact absurd hin (hlost _ _)
      | accepted hresumed | refused hresumed | installed hresumed =>
          have haction := hresumed.action
          cases hmoved <;> cases haction
    generalize (σ'.server f).rf.lastIncludedIndex = index at hmoved ⊢
    cases hmoved with
    | taken hcurrent hlow =>
        rcases hlow.lt_or_eq with hlt | rfl
        · have hbelow := hacc.taken_below hsound horderly.applied
            horderly.takes hf hreigns hold (hcurrent ▸ hterm') hlt
          omega
        · have hbefore := h.next s f next hf hreigns hold (hgrow.trans hterm')
          omega
    | installed hcall hpeer hcurrent hT hindex =>
        have hle := h.installed_below hacc hsound horderly rfl hcall hpeer
          (hT ▸ hcurrent) hf hreigns (hT ▸ hterm')
        omega

include h hsound hsound' htrans horderly in
theorem calls_step
    (hnext : ∀ s f next, f ≠ s → Reigns σ' s →
      (σ'.server s).rf.nextIndex[f.val]? = some next →
      (σ'.server f).rf.persister.durable.currentTerm ≤
        (σ'.server s).rf.currentTerm →
      (σ'.server f).rf.lastIncludedIndex < next ∨
        (σ'.server f).rf.lastIncludedIndex ≤
          (σ'.server s).rf.lastIncludedIndex)
    (call : AppendCall n Cmd) (hcall : call ∈ σ'.appendCalls)
    (hopen : call.phase ≠ .finished)
    (hterm : (σ'.server call.peer).rf.persister.durable.currentTerm ≤
      call.args.term) :
    (σ'.server call.peer).rf.lastIncludedIndex ≤ call.args.prevLogIndex := by
  obtain ⟨k, hget⟩ := List.mem_iff_getElem?.mp hcall
  rcases htrans.appendCall_before hget with
    ⟨old, hold, ⟨_, rfl⟩, hstays⟩ | ⟨_, hnew⟩
  · have hmem := List.mem_of_getElem? hold
    have hopen₀ : old.phase ≠ .finished := fun hfin ↦ hopen (hstays hfin)
    have hgrow := (htrans.savedTerm_le hsound.ordered
      (hsound.fenced.memory old.peer)).1
    rw [(horderly.sentinel_kept htrans (hsound.saves old.peer) hmem hopen₀
      hterm).1]
    exact h.calls old hmem hopen₀ (hgrow.trans hterm)
  · -- A new request starts before the next index of its peer.
    obtain ⟨W, hsecure⟩ := hsound'.secure
    have hpeer := hnew.peer_ne
    rw [hsecure.sim.ballots.me] at hpeer
    obtain ⟨_, next, _, hget', hpos, _, hargs⟩ :=
      Raft.prepare_append hnew.prepared
    have hbelow := hnext call.caller call.peer next hpeer
      (hsound'.leaders _ hnew.leader) hget'
      (by rw [hargs] at hterm; exact hterm)
    have hprev : call.args.prevLogIndex = next - 1 := by rw [hargs]
    unfold Raft.v2pIndex at hpos
    omega

end Step

theorem step (h : InReach σ) (hacc : Accounted σ) (hsound : Sound σ)
    (hsound' : Sound σ') (horderly : σ.Orderly a)
    (hstep : σ.step a = some σ') : InReach σ' :=
  have htrans := step_transition hstep
  have hnext := h.next_step hacc hsound hsound' htrans horderly
  { next := hnext
    calls := h.calls_step hsound hsound' htrans horderly hnext
    hints := h.hints_step hsound htrans horderly
    jobs := h.jobs_step hsound htrans horderly
    snaps := h.snaps_step hsound htrans horderly }

end InReach

theorem inReach_of_run {visited : List (Cluster n Cmd)}
    (hrun : Run Cluster.step (fun σ a ↦ σ.Orderly a) init visited σ) :
    InReach σ := by
  induction hrun with
  | start => exact inReach_init
  | next hprev hallowed hstep ih =>
      exact ih.step
        (accounted_of_run (fun _ _ hok ↦ ⟨⟨hok.1, hok.2⟩, hok.5⟩) hprev)
        (sound_of_run (fun _ _ hok ↦ ⟨hok.1, hok.2⟩) hprev)
        (sound_of_run (fun _ _ hok ↦ ⟨hok.1, hok.2⟩)
          (hprev.next hallowed hstep))
        hallowed hstep

/-! ## Requests read within the log -/

/-- As long as servers compact only what is settled and leaders look only at
fresh replies in order, `HeartbeatHandler` reads within the log. -/
theorem append_inRange {visited : List (Cluster n Cmd)}
    (hrun : Run step (fun σ a ↦ σ.Orderly a) init visited σ)
    {call : AppendCall n Cmd} (hcall : call ∈ σ.appendCalls)
    (hphase : call.phase = .sent) {rf : Raft n Cmd}
    (hrf : (σ.server call.peer).rf = rf) :
    (rf.currentTerm ≤ call.args.term →
      call.args.prevLogIndex ≤ rf.logLength - 1 →
      0 ≤ rf.v2pIndex call.args.prevLogIndex ∧
        rf.v2pIndex call.args.prevLogIndex < rf.log.length) ∧
    ∃ rf' reply, rf.heartbeatHandler call.args = .done rf' reply := by
  subst hrf
  have hlen := ((ordered_of_run hrun).servers call.peer).length
  have hrange : (σ.server call.peer).rf.currentTerm ≤ call.args.term →
      call.args.prevLogIndex ≤ (σ.server call.peer).rf.logLength - 1 →
      0 ≤ (σ.server call.peer).rf.v2pIndex call.args.prevLogIndex ∧
        (σ.server call.peer).rf.v2pIndex call.args.prevLogIndex <
          (σ.server call.peer).rf.log.length := by
    intro hterm hlast
    have hlow := (inReach_of_run hrun).calls call hcall (by simp [hphase])
      (le_trans ((fenced_of_run hrun).memory call.peer) hterm)
    unfold Raft.v2pIndex
    omega
  exact ⟨hrange, Raft.heartbeatHandler_isDone fun hterm hlast ↦
    elemAt_isSome_iff.mpr (hrange hterm hlast)⟩

/-- Server 1 compacts to index 1 when the calls to it are finished, and the next
one starts at index 2. -/
def settledRun : List (Action ℕ 3) :=
  winning 0 0 ++ [.deliverAppend 0, .replyAppend 0, .start 0 5, .start 0 6,
    .heartbeat 0, .deliverAppend 2, .replyAppend 2, .heartbeat 0,
    .deliverAppend 4, .replyAppend 4, .apply 1, .receive 1 0,
    .snapshot 1 1 [1], .start 0 7, .heartbeat 0]

/-- The request reads the entry after the sentinel of server 1. -/
theorem append_inRange_compacted :
    ∃ (visited : List (Cluster 3 ℕ)) (σ : Cluster 3 ℕ),
      Run step (fun σ a ↦ σ.Orderly a) init visited σ ∧
      ∃ call ∈ σ.appendCalls, (call.phase = .sent ∧ call.peer = 1 ∧
          call.args.prevLogIndex = 2) ∧
        (σ.server 1).rf.lastIncludedIndex = 1 ∧
        ∃ rf' reply,
          (σ.server 1).rf.heartbeatHandler call.args = .done rf' reply := by
  obtain ⟨visited, σ, hrun, hlii, call, hcall, hsent, hpeer, hprev⟩ :=
    Run.exists_of_exec step (fun σ a ↦ σ.Orderly a) init settledRun
      (fun σ : Cluster 3 ℕ ↦ (σ.server 1).rf.lastIncludedIndex = 1 ∧
        ∃ call ∈ σ.appendCalls, call.phase = .sent ∧ call.peer = 1 ∧
          call.args.prevLogIndex = 2) (by decide +kernel)
  exact ⟨visited, σ, hrun, call, hcall, ⟨hsent, hpeer, hprev⟩, hlii,
    (append_inRange hrun hcall hsent (by rw [hpeer])).2⟩

/-! ## Requests that stop their receivers -/

/-- Request number `k` is on its way, is not stale, does not lie beyond the log
of its receiver, and stops it with an index below zero. -/
def ReadsBelow (σ : Cluster n Cmd) (k : ℕ) : Prop :=
  ∃ call ∈ σ.appendCalls[k]?, call.phase = .sent ∧
    (σ.server call.peer).rf.currentTerm ≤ call.args.term ∧
    call.args.prevLogIndex ≤ (σ.server call.peer).rf.logLength - 1 ∧
    (σ.server call.peer).rf.v2pIndex call.args.prevLogIndex < 0 ∧
    ∃ σ' ∈ σ.step (.deliverAppend k), ¬ (σ'.server call.peer).alive

instance (σ : Cluster n Cmd) (k : ℕ) : Decidable (σ.ReadsBelow k) := by
  unfold ReadsBelow
  infer_instance

/-- A careful run whose steps are all allowed by `ok` ends with request number
`k` about to stop its receiver. -/
def Derails (ok : Cluster 3 ℕ → Action ℕ 3 → Prop) (k : ℕ) : Prop :=
  ∃ (visited : List (Cluster 3 ℕ)) (σ : Cluster 3 ℕ),
    Run step (fun σ a ↦ σ.SnapshotsDelivered a ∧ σ.Careful a ∧ ok σ a) init
      visited σ ∧ σ.ReadsBelow k

theorem derails_of_exec {ok : Cluster 3 ℕ → Action ℕ 3 → Prop}
    [∀ σ a, Decidable (ok σ a)] {k : ℕ} (run : List (Action ℕ 3))
    (h : (exec step
      (fun σ a ↦ σ.SnapshotsDelivered a ∧ σ.Careful a ∧ ok σ a) init run).any
        (fun σ ↦ decide (σ.ReadsBelow k)) = true) : Derails ok k :=
  Run.exists_of_exec step _ init run (fun σ : Cluster 3 ℕ ↦ σ.ReadsBelow k) h

/-- Server 1 takes a snapshot at index 1 while the first of two requests with
both commands is still on its way to it. -/
def overtakenRun : List (Action ℕ 3) :=
  winning 0 0 ++ [.deliverAppend 0, .start 0 5, .start 0 6, .heartbeat 0,
    .heartbeat 0, .deliverAppend 4, .replyAppend 4, .heartbeat 0,
    .deliverAppend 6, .apply 1, .receive 1 0, .snapshot 1 1 [1]]

/-- Server 0 holds an entry of term 1 where server 1, which leads term 3, holds
one of term 2.  It refuses the first request of term 3 and then compacts what it
has applied, without having accepted anything. -/
def unheardRun : List (Action ℕ 3) :=
  committingRun ++ [.deliverAppend 3, .apply 0, .receive 0 0, .apply 0,
    .receive 0 0, .start 0 7] ++ winning 1 3 ++ [.start 1 8, .restart 1] ++
    winning 1 5 ++ [.deliverAppend 6, .replyAppend 6, .snapshot 0 2 [1],
    .heartbeat 1]

/-- Server 2 installs the snapshot of server 0 at index 1 while the requests of
server 0 are still on their way to it. -/
def overinstalledRun : List (Action ℕ 3) :=
  winning 0 0 ++ [.start 0 5, .heartbeat 0, .deliverAppend 2, .replyAppend 2,
    .apply 0, .receive 0 0, .snapshot 0 1 [1], .heartbeat 0, .sendJob 0 0,
    .deliverSnap 0, .receive 2 0]

/-- Server 0 records a short request to server 1 after a longer one, and server
1 compacts all of the longer one. -/
def recordedLateRun : List (Action ℕ 3) :=
  winning 0 0 ++ [.deliverAppend 0, .replyAppend 0, .start 0 5, .heartbeat 0,
    .start 0 6, .heartbeat 0, .deliverAppend 2, .deliverAppend 4,
    .replyAppend 4, .heartbeat 0, .deliverAppend 6, .replyAppend 6,
    .replyAppend 2, .apply 1, .receive 1 0, .apply 1, .receive 1 0,
    .snapshot 1 2 [1], .heartbeat 0]

/-- Server 2 refuses two requests of the new term of server 0.  The first reply
makes server 0 send it the whole log, and the second one, which comes after
server 2 has accepted that, makes server 0 start over. -/
def backedUpRun : List (Action ℕ 3) :=
  winning 0 0 ++ [.deliverAppend 1, .start 0 5, .restart 0] ++ winning 0 2 ++
  [.start 0 6, .heartbeat 0, .deliverAppend 3, .deliverAppend 5,
    .replyAppend 3, .heartbeat 0, .deliverAppend 7, .replyAppend 7,
    .heartbeat 0, .deliverAppend 9, .replyAppend 9, .replyAppend 5, .apply 2,
    .receive 2 0, .snapshot 2 1 [1], .heartbeat 0]

/-- As in `unheardRun`, but server 0 compacts before it refuses the request of
term 3, so that the refusal names the term of its sentinel.  Server 1 goes back
to the first entry of that term. -/
def firstOfTermRun : List (Action ℕ 3) :=
  committingRun ++ [.deliverAppend 3, .apply 0, .receive 0 0, .apply 0,
    .receive 0 0, .snapshot 0 2 [1], .start 0 7] ++ winning 1 3 ++ [.start 1 8,
    .restart 1] ++ winning 1 5 ++ [.deliverAppend 6, .replyAppend 6,
    .heartbeat 1]

/-- Server 0 sends its snapshot to server 2 twice and looks at the second reply
when server 2 has accepted the entry after it. -/
def answeredTwiceRun : List (Action ℕ 3) :=
  winning 0 0 ++ [.start 0 5, .heartbeat 0, .deliverAppend 2, .replyAppend 2,
    .apply 0, .receive 0 0, .snapshot 0 1 [1], .restart 0] ++ winning 0 2 ++
  [.deliverAppend 5, .replyAppend 5, .heartbeat 0, .sendJob 0 0,
    .deliverSnap 0, .receive 2 0, .deliverSnap 1, .receive 2 0, .replySnap 0,
    .start 0 6, .heartbeat 0, .deliverAppend 8, .replyAppend 8, .heartbeat 0,
    .deliverAppend 10, .replyAppend 10, .replySnap 1, .apply 2, .receive 2 0,
    .snapshot 2 2 [1], .heartbeat 0]

/-- A request can be overtaken by a snapshot that its receiver takes or
installs, and the next index can fall behind the sentinel of the follower
through a snapshot taken too early, a late record, a stale refusal, one that
names the sentinel's term, and a stale snapshot reply.  Each run breaks only one
of the conditions, and each time `HeartbeatHandler` reads below the log. -/
theorem append_outOfRange :
    (Derails (fun σ a ↦ σ.InstallsSettled a ∧ σ.RepliesInOrder a) 2 ∧
      Derails (fun σ a ↦ σ.InstallsSettled a ∧ σ.RepliesInOrder a) 8) ∧
    Derails (fun σ a ↦ σ.TakesSettled a ∧ σ.RepliesInOrder a) 3 ∧
    Derails (fun σ a ↦ σ.TakesSettled a ∧ σ.InstallsSettled a ∧
      σ.RefusalsFresh a ∧ σ.AnswersFresh a) 8 ∧
    (Derails (fun σ a ↦ σ.TakesSettled a ∧ σ.InstallsSettled a ∧
        (∀ s, RecordsInOrder s σ a) ∧ σ.AnswersFresh a) 11 ∧
      Derails (fun σ a ↦ σ.TakesSettled a ∧ σ.InstallsSettled a ∧
        (∀ s, RecordsInOrder s σ a) ∧ σ.AnswersFresh a) 8) ∧
    Derails (fun σ a ↦ σ.TakesSettled a ∧ σ.InstallsSettled a ∧
      (∀ s, RecordsInOrder s σ a) ∧ σ.RefusalsFresh a) 12 := by
  refine ⟨⟨derails_of_exec overtakenRun ?_, derails_of_exec unheardRun ?_⟩,
    derails_of_exec overinstalledRun ?_, derails_of_exec recordedLateRun ?_,
    ⟨derails_of_exec backedUpRun ?_, derails_of_exec firstOfTermRun ?_⟩,
    derails_of_exec answeredTwiceRun ?_⟩
  all_goals decide +kernel

end Cluster

end DistLabs
