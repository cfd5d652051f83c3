import DistLabs.Raft.Commitment
import DistLabs.Raft.Validity

/-!
# State machine safety

In a run of careful steps every index that a server commits, compacts, sends as
committed or delivers is known to be committed in the abstract world.  Hence no
two servers, and no two incarnations of one server, deliver different commands
at one index.  Each part of the care is needed.
-/

namespace DistLabs

open Consensus

variable {n : ℕ} {Cmd : Type}

/-! ## Requests and messages -/

/-- The commit index of an AppendEntries request lies within a committed part
of the log that the request carries. -/
def CommitSound (W : LogWorld n Cmd) (args : AppendEntriesArgs n Cmd) :
    Prop :=
  ∃ L p, Carries W args L p ∧ (args.leaderCommit ≤ 0 ∨ ∃ T P,
    Committed entryTerm W T P ∧ P <+: L ∧ args.leaderCommit ≤ P.length)

/-- The log that a snapshot of term `T` stands for was committed in a term that
is not later. -/
def IncludedSound (W : LogWorld n Cmd) (T : ℕ) (lii : ℤ) (lit : ℕ) : Prop :=
  ∃ L, StandsFor W T lii lit L ∧ (lii ≤ 0 ∨ ∃ U P,
    Committed entryTerm W U P ∧ U ≤ T ∧ L <+: P)

/-- A message for the service of `s` is known to be committed. -/
def Deliverable (W : LogWorld n Cmd) (s : Fin n) : ApplyMsg Cmd → Prop
  | .command c i => ∃ K e, Known entryTerm W s K ∧ 1 ≤ i ∧
      K[i.toNat - 1]? = some e ∧ e.command = c
  | .snapshot _ _ i => KnownUpTo W s i

section Messages

variable {W W' : LogWorld n Cmd} {s : Fin n} {rf : Raft n Cmd}

theorem CommitSound.mono {args : AppendEntriesArgs n Cmd}
    (h : CommitSound W args) (hgrows : Grows W W') : CommitSound W' args := by
  obtain ⟨L, p, hcarries, hcommit⟩ := h
  refine ⟨L, p, hcarries.mono hgrows, ?_⟩
  rcases hcommit with hneg | ⟨T, P, hP, hrest⟩
  · exact Or.inl hneg
  · exact Or.inr ⟨T, P, hP.mono hgrows.acked, hrest⟩

theorem IncludedSound.mono {T lit : ℕ} {lii : ℤ}
    (h : IncludedSound W T lii lit) (hgrows : Grows W W') :
    IncludedSound W' T lii lit := by
  obtain ⟨L, hstands, hcommit⟩ := h
  refine ⟨L, hstands.mono hgrows, ?_⟩
  rcases hcommit with hneg | ⟨U, P, hP, hrest⟩
  · exact Or.inl hneg
  · exact Or.inr ⟨U, P, hP.mono hgrows.acked, hrest⟩

theorem Deliverable.world {msg : ApplyMsg Cmd} (h : Deliverable W s msg)
    (hknown : ∀ K, Known entryTerm W s K → Known entryTerm W' s K) :
    Deliverable W' s msg := by
  cases msg with
  | command c i =>
      obtain ⟨K, e, hK, hrest⟩ := h
      exact ⟨K, e, hknown K hK, hrest⟩
  | snapshot data term i => exact KnownUpTo.world h hknown

theorem Deliverable.knownUpTo {msg : ApplyMsg Cmd} (h : Deliverable W s msg) :
    KnownUpTo W s msg.index := by
  cases msg with
  | command c i =>
      obtain ⟨K, e, hK, hpos, hget, _⟩ := h
      have hlt := (List.getElem?_eq_some_iff.mp hget).1
      refine Or.inr ⟨K, hK, ?_⟩
      change i ≤ K.length
      omega
  | snapshot data term i => exact h

/-- A request determines the log that it carries. -/
theorem Carries.unique (hinv : Inv entryTerm W)
    {args : AppendEntriesArgs n Cmd} {L M : List (LogEntry Cmd)} {p q : ℕ}
    (hL : Carries W args L p) (hM : Carries W args M q) : L = M := by
  obtain rfl : p = q := by
    have := hL.prevLogIndex
    have := hM.prevLogIndex
    omega
  have htake := hinv.tree.matching (hinv.publishedMade hL.published).1
    (hinv.publishedMade hM.published).1 hL.le_length hM.le_length
    (hL.prevLogTerm.symm.trans hM.prevLogTerm)
  rw [← List.take_append_drop p L, htake, ← hL.entries, hM.entries,
    List.take_append_drop]

/-- The commit index that a leader sends is sound. -/
theorem Secured.commitSound (hsafe : SafeInv entryTerm W)
    (h : Secured W s rf) (hmirrors : Mirrors W s rf) (hrep : Represented rf)
    (hstate : rf.state = .leader) {i j : Fin n}
    {args : AppendEntriesArgs n Cmd}
    (hprepare : rf.prepare i = some (.appendEntries j args)) :
    CommitSound W args := by
  obtain ⟨p, hcarries⟩ := hmirrors.carries hrep hstate hprepare
  obtain ⟨_, next, prev, _, _, _, hargs⟩ := Raft.prepare_append hprepare
  have hindex : args.leaderCommit = rf.commitIndex := by rw [hargs]
  refine ⟨_, p, hcarries, ?_⟩
  rw [hindex]
  rcases h.commit with hneg | ⟨K, hK, hle⟩
  · exact Or.inl hneg
  · obtain ⟨U, P, hP, hlog, hKP⟩ := hK.exists_committed hsafe
      (hmirrors.leader hstate).1 hmirrors.term
    have := hKP.length_le
    exact Or.inr ⟨U, P, hP, hlog, by omega⟩

/-- The snapshot that a server sends is sound. -/
theorem Secured.includedSound (h : Secured W s rf)
    (hmirrors : Mirrors W s rf)
    (hpub : ∀ K, K <+: W.log s → W.published rf.currentTerm K) :
    IncludedSound W rf.currentTerm rf.lastIncludedIndex
      rf.lastIncludedTerm := by
  refine ⟨_, hmirrors.standsFor hpub, ?_⟩
  rcases h.included with hneg | ⟨K, hK, hle⟩
  · exact Or.inl hneg
  · obtain ⟨hlog, U, P, hP, hU, hKP⟩ := hK
    refine Or.inr ⟨U, P, hP, le_trans hU hmirrors.term, ?_⟩
    refine List.IsPrefix.trans (List.prefix_of_prefix_length_le
      (List.take_prefix _ _) hlog ?_) hKP
    rw [List.length_take]
    omega

end Messages

namespace Cluster

/-! ## The invariant of careful runs -/

/-- The indices that were delivered to the service of server `s`, in any
incarnation. -/
def deliveredIndices (σ : Cluster n Cmd) (s : Fin n) : List ℤ :=
  σ.events.filterMap fun
    | .applied t _ msg => if t = s then some msg.index else none
    | _ => none

/-- The service takes snapshots only at indices that were delivered to it, in
this incarnation or an earlier one. -/
def SnapshotsApplied (σ : Cluster n Cmd) : Action Cmd n → Prop
  | .snapshot s index _ => index ∈ σ.deliveredIndices s
  | _ => True

instance (σ : Cluster n Cmd) (a : Action Cmd n) :
    Decidable (σ.SnapshotsApplied a) := by
  induction a using Action.casesOn <;> dsimp only [SnapshotsApplied] <;>
    infer_instance

theorem mem_deliveredIndices {σ : Cluster n Cmd} {s : Fin n} {index : ℤ}
    (h : index ∈ σ.deliveredIndices s) :
    ∃ incarnation msg, Event.applied s incarnation msg ∈ σ.events ∧
      msg.index = index := by
  obtain ⟨e, he, hindex⟩ := List.mem_filterMap.mp h
  cases e with
  | applied t incarnation msg =>
      simp only [Option.ite_none_right_eq_some, Option.some.injEq] at hindex
      obtain ⟨rfl, rfl⟩ := hindex
      exact ⟨incarnation, msg, he, rfl⟩
  | _ => cases hindex

/-- The cluster stands for a safe world, in which everything that counts as
committed is known. -/
structure Secure (σ : Cluster n Cmd) (W : LogWorld n Cmd) : Prop where
  sim : Sim σ W
  safe : SafeInv entryTerm W
  servers : ∀ s, Secured W s (σ.server s).rf
  matched : ∀ s, Matched W s (σ.server s).rf
  appends : ∀ call ∈ σ.appendCalls, CommitSound W call.args
  snaps : ∀ call ∈ σ.snapCalls, IncludedSound W call.args.term
    call.args.lastIncludedIndex call.args.lastIncludedTerm
  jobs : ∀ s, ∀ job ∈ (σ.server s).jobs, IncludedSound W job.term
    job.lastIncludedIndex job.lastIncludedTerm
  unsent : ∀ s, ∀ u ∈ (σ.server s).unsent, Deliverable W s u.msg
  applied : ∀ s incarnation msg,
    Event.applied s incarnation msg ∈ σ.events → Deliverable W s msg

variable [Zero Cmd] {σ σ' : Cluster n Cmd} {a : Action Cmd n}
  {W W' : LogWorld n Cmd} {safe : Prop}

theorem secure_init : Secure (init : Cluster n Cmd) World.init where
  sim := sim_init
  safe := safeInv_init entryTerm
  servers := by
    intro s
    refine ⟨.zero, .zero, ?_, le_rfl, Or.inl le_rfl⟩
    simp [init, boot, Raft.make, Raft.readPersist]
  matched := by
    intro s
    refine ⟨Nat.zero_le n, fun h ↦ h.elim⟩
  appends := by simp [init]
  snaps := by simp [init]
  jobs := by simp [init, boot]
  unsent := by simp [init, boot]
  applied := by simp [init]

/-- Whoever leads a term after a step has led it before or was just
promoted. -/
theorem Sim.leads_back (h : Sim σ W) (h' : Sim σ' W')
    (htrans : Transition σ a σ') {s : Fin n} {T : ℕ}
    (hleads : W'.leads s T) :
    W.leads s T ∨ ∃ args, (σ.inputs a s).won args T := by
  rcases htrans.elected_origin (h'.elected s T hleads) with hold | hnew
  · exact Or.inl (h.leads s T hold)
  · exact Or.inr hnew

omit [Zero Cmd] in
/-- A server is not in a term before one that it has led. -/
theorem Secure.leads_le (h : Secure σ W) {s : Fin n} {T : ℕ}
    (hleads : W.leads s T) : T ≤ (σ.server s).rf.currentTerm :=
  le_trans (h.safe.leader hleads).1 (h.sim.mirrors s).term

omit [Zero Cmd] in
/-- The world after a careful step keeps what every server knows. -/
theorem Secure.known (h : Secure σ W) (ht : Tracks safe σ a σ' W W')
    (hsafe : safe) {s : Fin n} {K : List (LogEntry Cmd)}
    (hK : Known entryTerm W s K) : Known entryTerm W' s K :=
  ht.effects.known hsafe h.safe hK

/-- A server whose match indices are left alone. -/
theorem Secure.matched_of_eq (h : Secure σ W) (h' : Sim σ' W')
    (htrans : Transition σ a σ') (hgrows : Grows W W') {t : Fin n}
    {rf : Raft n Cmd}
    (hsame : rf.matchIndex = (σ.server t).rf.matchIndex)
    (hterm : (σ.server t).rf.currentTerm ≤ rf.currentTerm)
    (hwon : ∀ args T, ¬ (σ.inputs a t).won args T) : Matched W' t rf :=
  (h.matched t).step hgrows hsame hterm
    (fun hleads ↦ (h.sim.leads_back h' htrans hleads).resolve_right
      fun ⟨args, hin⟩ ↦ hwon args _ hin)
    fun _ ↦ h.leads_le

/-- Steps that report no accepted request and promote no server. -/
theorem Secure.matched_quiet (h : Secure σ W) (h' : Sim σ' W')
    (htrans : Transition σ a σ') (hgrows : Grows W W') {t : Fin n}
    (hacked : ∀ peer args, ¬ (σ.inputs a t).acked peer args)
    (hwon : ∀ args T, ¬ (σ.inputs a t).won args T) :
    Matched W' t (σ'.server t).rf := by
  cases htrans.evolves t with
  | changes hchanges =>
      have hsame := hchanges.preserves
        (P := fun rf ↦ rf.matchIndex = (σ.server t).rf.matchIndex)
        (fun hchange heq ↦
          (matchIndex_change hacked hwon hchange).trans heq) rfl
      exact h.matched_of_eq h' htrans hgrows hsame hchanges.currentTerm_le
        hwon
  | restart _ hboot =>
      have hnil : (σ'.server t).rf.matchIndex = [] := by
        rw [hboot]
        exact (Raft.make_volatile t _).2.2.2.2
      refine ⟨by rw [hnil]; exact Nat.zero_le n, ?_⟩
      intro _ j m hm
      simp [hnil] at hm

omit [Zero Cmd] in
/-- A leader that records an accepted request has the acknowledgement. -/
theorem Secure.reply_acked (h : Secure σ W) (hgrows : Grows W W')
    {call : AppendCall n Cmd} (hcall : call ∈ σ.appendCalls)
    {reply : AppendEntriesReply} (hphase : call.phase = .replied reply)
    (hsuccess : reply.success = true) :
    ∃ A, W'.acked call.peer call.args.term A ∧
      call.args.prevLogIndex + call.args.entries.length ≤ A.length := by
  obtain ⟨A, p, hcarries, hacked⟩ := (h.sim.appends call hcall).carries
  refine ⟨A, hgrows.acked _ _ _ (hacked reply hphase hsuccess), ?_⟩
  rw [hcarries.prevLogIndex, hcarries.entries, List.length_drop]
  have := hcarries.le_length
  omega

/-- `SendHeartbeat` resumes: match indices stay sound, and what it commits is
known. -/
theorem Secure.reply_server (h : Secure σ W) (h' : Sim σ' W')
    (hsafe : SafeInv entryTerm W') {k : ℕ}
    (htrans : Transition σ (.replyAppend k) σ') (hgrows : Grows W W')
    {call : AppendCall n Cmd} {reply : AppendEntriesReply}
    (hcall : σ.appendCalls[k]? = some call)
    (hphase : call.phase = .replied reply)
    (hrun : (σ'.server call.caller).rf =
      ((σ.server call.caller).rf.sendHeartbeat call.peer call.args reply).rf)
    (hworld : Secured W' call.caller (σ.server call.caller).rf) :
    Secured W' call.caller (σ'.server call.caller).rf ∧
      Matched W' call.caller (σ'.server call.caller).rf := by
  have hmem := List.mem_of_getElem? hcall
  have hmirrors := h'.mirrors call.caller
  have hme := h.sim.ballots.me call.caller
  have hlead := hgrows.leads _ _ (h.sim.appends call hmem).leads
  have hother := (h.sim.appends call hmem).peer_ne
  have hwon : ∀ args T,
      ¬ (σ.inputs (.replyAppend k) call.caller).won args T := by
    rintro args T ⟨_, _, _, ⟨⟩, _⟩
  rw [hrun] at hmirrors ⊢
  set rf := (σ.server call.caller).rf with hrf
  have hsame : Matched W' call.caller rf :=
    h.matched_of_eq h' htrans hgrows rfl le_rfl hwon
  rcases rf.sendHeartbeat_cases call.peer call.args reply with
    hcase | ⟨hterm, ⟨hlt, hcase⟩ | ⟨hsuccess, hcase⟩ | hcase⟩
  · rw [hcase]
    exact ⟨hworld, hsame⟩
  · rw [hcase]
    exact ⟨hworld.keeps (.persist rfl rfl rfl fun _ he ↦ he),
      h.matched_of_eq h' htrans hgrows rfl (le_of_lt hlt) hwon⟩
  · obtain ⟨A, hacked, hle⟩ := h.reply_acked hgrows hmem hphase hsuccess
    rw [← hterm] at hacked hlead
    have hset : Matched W' call.caller (rf.matched call.peer call.args) :=
      hsame.set hacked hle
    have hkept : Secured W' call.caller (rf.matched call.peer call.args) :=
      hworld.keeps (.of_eq rfl rfl rfl rfl le_rfl)
    rw [hcase] at hmirrors ⊢
    rcases rf.recordSuccess_cases call.peer call.args with
      hdone | hdone | ⟨N, count, _, _, hcount, hmajority, hdone⟩
    · rw [hdone]
      exact ⟨hworld, hsame⟩
    · rw [hdone]
      exact ⟨hkept, hset⟩
    · rw [hdone] at hmirrors ⊢
      have hbefore : Mirrors W' call.caller
          (rf.matched call.peer call.args) :=
        hmirrors.of_eq rfl rfl rfl rfl le_rfl fun hstate ↦ ⟨hstate, rfl⟩
      exact ⟨hkept.commitTo (hset.commit hsafe hbefore hme hlead hother
        hcount hmajority), hset.length_le, hset.sound⟩
  · obtain ⟨next, hnext⟩ := rf.backUp_rf call.peer reply
    rw [hcase, hnext]
    exact ⟨hworld.keeps (.of_eq rfl rfl rfl rfl le_rfl),
      hsame.length_le, hsame.sound⟩

/-- Match indices stay sound in every careful step. -/
theorem Secure.matched_step (h : Secure σ W) (h' : Sim σ' W')
    (hsafe : SafeInv entryTerm W') (htrans : Transition σ a σ')
    (hgrows : Grows W W')
    (hworld : ∀ s, Secured W' s (σ.server s).rf) (t : Fin n) :
    Matched W' t (σ'.server t).rf := by
  have hquiet := fun hacked hwon ↦
    h.matched_quiet h' htrans hgrows (t := t) hacked hwon
  have htrans' := htrans
  cases htrans with
  | @promotePanic _ call _ rf hcall _ _ hrun
  | @promote _ call _ rf _ hcall _ _ hrun =>
      obtain rfl : rf = (σ.server call.caller).rf.becomeLeader := by
        first
        | exact Raft.heartBeatLauncher_panic hrun
        | exact (Raft.heartBeatLauncher_done hrun).1
      by_cases ht : t = call.caller
      · subst ht
        simpa using Matched.lead (W := W') (s := call.caller)
          (h.matched call.caller).length_le
      · refine hquiet ?_ ?_
        · rintro peer args ⟨_, _, _, ⟨⟩, _⟩
        · rintro args T ⟨_, _, _, ⟨⟩, hcall', _, _, rfl, _⟩
          obtain rfl := Option.some.inj (hcall.symm.trans hcall')
          exact ht rfl
  | @replyAppendPanic _ call reply rf hcall hphase hresumes hrun
  | @replyAppend _ call reply rf hcall hphase hresumes hrun
  | @replyAppendSnap _ call reply rf _ hcall hphase hresumes hrun =>
      by_cases ht : t = call.caller
      · subst ht
        exact (h.reply_server h' hsafe htrans' hgrows hcall hphase
          (by simp [hrun]) (hworld _)).2
      · refine hquiet ?_ ?_
        · rintro peer args ⟨_, _, _, ⟨⟩, hcall', _, _, _, rfl, _⟩
          obtain rfl := Option.some.inj (hcall.symm.trans hcall')
          exact ht rfl
        · rintro args T ⟨_, _, _, ⟨⟩, _⟩
  | _ =>
      refine hquiet ?_ ?_
      · rintro peer args ⟨_, _, _, ⟨⟩, _⟩
      · rintro args T ⟨_, _, _, ⟨⟩, _⟩

omit [Zero Cmd] in
/-- The commit index of an accepted request is known to the server. -/
theorem Secure.leaderCommit_known (h : Secure σ W) (h' : Sim σ' W')
    {k : ℕ} (ht : Tracks safe σ (.deliverAppend k) σ' W W')
    {call : AppendCall n Cmd} (hcall : σ.appendCalls[k]? = some call)
    {rf : Raft n Cmd} {reply : AppendEntriesReply}
    (hrun : (σ.server call.peer).rf.heartbeatHandler call.args =
      .done rf reply) (hsuccess : reply.success = true) :
    KnownUpTo W' call.peer call.args.leaderCommit := by
  obtain ⟨L, p, hcarries, _, hheld⟩ :=
    ht.accepts k call rf reply rfl hcall hrun hsuccess
  obtain ⟨M, q, hcarriesM, hcommit⟩ :=
    h.appends call (List.mem_of_getElem? hcall)
  obtain rfl := hcarriesM.unique h.sim.inv hcarries
  rcases hcommit with hneg | ⟨T, P, hP, hPM, hle⟩
  · exact Or.inl hneg
  · exact Or.inr ⟨P, Known.of_committed h'.inv
      (hP.mono ht.effects.grows.acked) (hPM.trans hheld), hle⟩

omit [Zero Cmd] in
/-- `HeartbeatHandler` commits only what is known. -/
theorem Secure.append_server (h : Secure σ W) (h' : Sim σ' W') {k : ℕ}
    (ht : Tracks safe σ (.deliverAppend k) σ' W W')
    {call : AppendCall n Cmd} (hcall : σ.appendCalls[k]? = some call)
    (hworld : Secured W' call.peer (σ.server call.peer).rf) :
    Secured W' call.peer
      ((σ.server call.peer).rf.heartbeatHandler call.args).rf := by
  set rf := (σ.server call.peer).rf with hrf
  have hfollow := hworld.keeps (.followLeader rf call.args.term)
  rcases rf.heartbeatHandler_cases call.args with
    ⟨reply, _, hcase⟩ | hcase |
      ⟨rf₁, entry, p, rfl, hterm, _, _, hentry, hcase⟩
  · rw [hcase]
    exact hfollow
  · rw [hcase]
    exact hfollow
  · have hrep := (h.sim.ordered.servers call.peer).followLeader call.args.term
    rw [← hrf] at hrep
    rw [hrep.hasSentinel.stamped_eq] at hcase
    obtain ⟨q, hq, _⟩ := elemAt_eq_some_iff.mp hentry
    rcases hcase with ⟨_, reply, _, hcase⟩ | ⟨_, reply, hsuccess, hcase⟩
    · rw [hcase]
      exact hfollow.keeps (.deleteConflict _ (by omega))
    · have hknown := h.leaderCommit_known h' ht hcall hcase hsuccess
      rw [hcase]
      exact (hfollow.keeps (.appendLog _ _ _)).advanceCommit hknown

omit [Zero Cmd] in
/-- An installed snapshot is known to the server. -/
theorem Secure.lastIncludedIndex_known (h : Secure σ W) (h' : Sim σ' W')
    (hgrows : Grows W W') {call : SnapCall n} (hcall : call ∈ σ.snapCalls)
    {rf : Raft n Cmd} {log : List (LogEntry Cmd)}
    (hterm : rf.currentTerm = call.args.term)
    (hrun : (σ'.server call.peer).rf = rf.installed call.args log) :
    KnownUpTo W' call.peer call.args.lastIncludedIndex := by
  obtain ⟨L, hstands, hcommit⟩ := (h.snaps call hcall).mono hgrows
  rcases hcommit with hneg | ⟨U, P, hP, hU, hLP⟩
  · exact Or.inl hneg
  have hmirrors := h'.mirrors call.peer
  rw [hrun] at hmirrors
  have hle : (L.length : ℤ) ≤ (W'.log call.peer).length := by
    rw [← hstands.index]
    exact hmirrors.memory.le_length
  have hlast : lastTerm entryTerm L =
      termAt entryTerm (W'.log call.peer) L.length := by
    have hlit : call.args.lastIncludedTerm = termAt entryTerm
      (W'.log call.peer) call.args.lastIncludedIndex.toNat :=
        hmirrors.memory.lit_eq
    rw [← hstands.term, hlit, hstands.index, Int.toNat_natCast]
  have hpre : L <+: W'.log call.peer :=
    h'.inv.tree.prefix_of_termAt (h'.inv.publishedMade hstands.published).1
      (h'.inv.logMade call.peer) (by omega) hlast
  have hsaved : rf.currentTerm = W'.term call.peer :=
    (hmirrors.saved _ rfl).2
  refine Or.inr ⟨L, ⟨hpre, U, P, hP, ?_, hLP⟩, hstands.index.le⟩
  rw [← hsaved, hterm]
  exact hU

/-- `InstallSnapshot` installs only what is known. -/
theorem Secure.snap_server (h : Secure σ W) (h' : Sim σ' W')
    (hgrows : Grows W W') {call : SnapCall n} (hcall : call ∈ σ.snapCalls)
    (hrun : (σ'.server call.peer).rf =
      ((σ.server call.peer).rf.installSnapshot call.args).rf)
    (hworld : Secured W' call.peer (σ.server call.peer).rf) :
    Secured W' call.peer (σ'.server call.peer).rf := by
  have hfollow := hworld.keeps (.followInstaller _ call.args.term)
  rcases (σ.server call.peer).rf.installSnapshot_cases call.args with
    ⟨_, hcase⟩ | ⟨hle, ⟨_, hcase⟩ | ⟨log, _, hcase⟩⟩
  · rw [hrun, hcase]
    exact hworld
  · rw [hrun, hcase]
    exact hfollow
  · rw [hcase] at hrun
    have hterm := (Raft.followInstaller_currentTerm _ call.args.term).trans
      (max_eq_right hle)
    rw [hrun]
    exact hfollow.installed
      (h.lastIncludedIndex_known h' hgrows hcall hterm hrun) log

omit [Zero Cmd] in
/-- The service compacts only what is known. -/
theorem Secure.snapshot_server (h : Secure σ W) {s : Fin n} {index : ℤ}
    {data : Bytes} (henv : σ.SnapshotsApplied (.snapshot s index data))
    (hknown : ∀ K, Known entryTerm W s K → Known entryTerm W' s K)
    (hworld : Secured W' s (σ.server s).rf) :
    Secured W' s ((σ.server s).rf.snapshot index data).rf := by
  obtain ⟨incarnation, msg, hevent, hindex⟩ := mem_deliveredIndices henv
  have hupTo : KnownUpTo W s index :=
    hindex ▸ (h.applied s incarnation msg hevent).knownUpTo
  rcases (σ.server s).rf.snapshot_cases index data with
    hcase | ⟨entry, hentry, hcase⟩
  · rw [hcase]
    exact hworld
  · rw [hcase]
    refine hworld.compacted hentry (hupTo.world hknown) ?_
    intro hlt
    have hnonneg := (h.sim.mirrors s).memory.nonneg
    obtain ⟨K, e, hK, _, hget, hlog⟩ := hupTo.exists_entry (by omega)
    rw [h.sim.entry hlt, hlog] at hentry
    exact ⟨K, hknown K hK, hget.trans hentry⟩

/-- Steps that bring nothing about commits to a server. -/
theorem Secure.silent_server (htrans : Transition σ a σ') {t : Fin n}
    (hworld : Secured W' t (σ.server t).rf)
    (hsilent : Keeps.Silent (σ.inputs a t)) :
    Secured W' t (σ'.server t).rf := by
  cases htrans.evolves t with
  | changes hchanges => exact hworld.keeps (.changes hsilent hchanges)
  | restart _ hboot =>
      rw [hboot]
      exact hworld.make t

/-- What a server has committed or compacted after a careful step is known. -/
theorem Secure.servers_step (h : Secure σ W) (h' : Sim σ' W')
    (hsafe : SafeInv entryTerm W') (htrans : Transition σ a σ')
    (ht : Tracks safe σ a σ' W W') (henv : σ.SnapshotsApplied a)
    (hknown : ∀ s K, Known entryTerm W s K → Known entryTerm W' s K)
    (t : Fin n) : Secured W' t (σ'.server t).rf := by
  have hworld := fun s ↦ (h.servers s).world (hknown s)
  have hgrows := ht.effects.grows
  have hsilent := fun hs ↦ Secure.silent_server htrans (hworld t) hs
  have htrans' := htrans
  cases htrans with
  | @appendPanic k call _ hcall _ _ hrun
  | @append k call _ _ hcall _ _ hrun =>
      by_cases htp : t = call.peer
      · subst htp
        have hserver := h.append_server h' ht hcall (hworld _)
        rw [hrun] at hserver
        simpa using hserver
      · simpa [Function.update_of_ne htp] using hworld t
  | @snapPanic k call _ hcall _ _ hrun
  | @snapRefused k call _ _ hcall _ _ hrun
  | @snap k call _ _ _ hcall _ _ hrun =>
      by_cases htp : t = call.peer
      · subst htp
        exact h.snap_server h' hgrows (List.mem_of_getElem? hcall)
          (by simp [hrun]) (hworld _)
      · simpa [Function.update_of_ne htp] using hworld t
  | @replyAppendPanic _ call _ _ hcall hphase _ hrun
  | @replyAppend _ call _ _ hcall hphase _ hrun
  | @replyAppendSnap _ call _ _ _ hcall hphase _ hrun =>
      by_cases htc : t = call.caller
      · subst htc
        exact (h.reply_server h' hsafe htrans' hgrows hcall hphase
          (by simp [hrun]) (hworld _)).1
      · simpa [Function.update_of_ne htc] using hworld t
  | @snapshotPanic s _ _ _ _ hrun | @snapshot s _ _ _ _ hrun =>
      by_cases hts : t = s
      · subst hts
        have hserver := h.snapshot_server henv (hknown t) (hworld t)
        rw [hrun] at hserver
        simpa using hserver
      · simpa [Function.update_of_ne hts] using hworld t
  | _ =>
      refine hsilent ⟨?_, ?_, ?_, ?_⟩
      · rintro peer args ⟨_, _, _, ⟨⟩, _⟩
      · rintro args ⟨_, _, ⟨⟩, _⟩
      · rintro args ⟨_, _, ⟨⟩, _⟩
      · rintro index data ⟨⟩

/-! ## Messages of careful runs -/

theorem Secure.appends_step (h : Secure σ W) (h' : Sim σ' W')
    (hsafe : SafeInv entryTerm W') (htrans : Transition σ a σ')
    (hgrows : Grows W W') (hservers : ∀ s, Secured W' s (σ'.server s).rf)
    {call : AppendCall n Cmd} (hcall : call ∈ σ'.appendCalls) :
    CommitSound W' call.args := by
  rcases htrans.appendCall_origin hcall with ⟨old, hold, _, rfl⟩ | hnew
  · exact (h.appends old hold).mono hgrows
  · exact (hservers call.caller).commitSound hsafe (h'.mirrors call.caller)
      (h'.ordered.servers call.caller) hnew.leader hnew.prepared

theorem Secure.jobs_step (h : Secure σ W) (h' : Sim σ' W')
    (htrans : Transition σ a σ') (hgrows : Grows W W')
    (hservers : ∀ s, Secured W' s (σ'.server s).rf) {s : Fin n}
    {job : SnapshotJob n} (hjob : job ∈ (σ'.server s).jobs) :
    IncludedSound W' job.term job.lastIncludedIndex
      job.lastIncludedTerm := by
  rcases htrans.job_origin hjob with hold | hnew
  · exact (h.jobs s job hold).mono hgrows
  · rw [Raft.prepare_snapshot hnew.prepared]
    exact (hservers s).includedSound (h'.mirrors s)
      ((h'.mirrors s).leader hnew.leader).2

theorem Secure.snaps_step (h : Secure σ W) (h' : Sim σ' W')
    (htrans : Transition σ a σ') (ht : Tracks safe σ a σ' W W')
    (hservers : ∀ s, Secured W' s (σ'.server s).rf) {call : SnapCall n}
    (hcall : call ∈ σ'.snapCalls) :
    IncludedSound W' call.args.term call.args.lastIncludedIndex
      call.args.lastIncludedTerm := by
  have hgrows := ht.effects.grows
  rcases htrans.snapCall_origin hcall with ⟨old, hold, _, rfl⟩ | hnew
  · exact (h.snaps old hold).mono hgrows
  · cases hnew with
    | @atOnce k old haction hold hcaller hpeer hterm hargs =>
        have hpub := ht.sends k old haction hold (by rw [hcaller]; exact hterm)
        rw [hcaller, ← hterm] at hpub
        rw [hargs]
        exact (hservers call.caller).includedSound (h'.mirrors call.caller)
          hpub
    | ofJob _ hget _ hpeer hargs =>
        rw [hargs]
        exact (h.jobs call.caller _ (List.mem_of_getElem? hget)).mono hgrows

omit [Zero Cmd] in
/-- `ApplyGoroutine` reads an entry that is known: above the sentinel it is the
entry of the full log, and at the sentinel that is genuine. -/
theorem Secure.apply_deliverable (h : Secure σ W) {s : Fin n}
    {entry : LogEntry Cmd}
    (hcommit : (σ.server s).rf.commitIndex > (σ.server s).rf.lastApplied)
    (hentry : elemAt (σ.server s).rf.log ((σ.server s).rf.v2pIndex
      ((σ.server s).rf.lastApplied + 1)) = some entry) :
    Deliverable W s
      (.command entry.command ((σ.server s).rf.lastApplied + 1)) := by
  have happlied := (h.servers s).applied
  have hupTo : KnownUpTo W s ((σ.server s).rf.lastApplied + 1) :=
    (h.servers s).commit.mono (by omega)
  rcases lt_or_ge (σ.server s).rf.lastIncludedIndex
      ((σ.server s).rf.lastApplied + 1) with habove | hat
  · obtain ⟨K, e, hK, _, hget, hlog⟩ := hupTo.exists_entry (by omega)
    rw [h.sim.entry habove, hlog] at hentry
    obtain rfl := Option.some.inj hentry
    exact ⟨K, e, hK, by omega, hget, rfl⟩
  · obtain ⟨p, hp, hread⟩ := elemAt_eq_some_iff.mp hentry
    unfold Raft.v2pIndex at hp
    have heq : (σ.server s).rf.lastIncludedIndex =
        (σ.server s).rf.lastApplied + 1 := by omega
    obtain rfl : p = 0 := by omega
    rcases (h.servers s).sentinel with hzero | hlow | hgenuine
    · omega
    · omega
    · obtain ⟨K, e, hK, hpos, hget, hhead⟩ := hgenuine
      rw [heq] at hpos hget
      obtain rfl := Option.some.inj (hhead.symm.trans hread)
      exact ⟨K, e, hK, hpos, hget, rfl⟩

omit [Zero Cmd] in
/-- A message that was just produced is known to be committed. -/
theorem Secure.produced (h : Secure σ W)
    (hknown : ∀ s K, Known entryTerm W s K → Known entryTerm W' s K)
    (hservers : ∀ s, Secured W' s (σ'.server s).rf) {s : Fin n}
    {msg : ApplyMsg Cmd} (hnew : Produced σ σ' s msg) :
    Deliverable W' s msg := by
  cases hnew with
  | apply hcommit hentry hmsg hrf =>
      subst hmsg
      exact (h.apply_deliverable hcommit hentry).world (hknown s)
  | install log hcall hpeer hrf hmsg =>
      subst hmsg
      have hincluded := (hservers s).included
      rw [hrf] at hincluded
      exact hincluded

/-- A careful step keeps the cluster secure and forgets nothing that was
known. -/
theorem Secure.step (h : Secure σ W) (hstep : σ.step a = some σ')
    (henv : σ.SnapshotsApplied a) (hcareful : σ.Careful a)
    (hunique : ElectedUnique σ') :
    ∃ W', (∀ s K, Known entryTerm W s K → Known entryTerm W' s K) ∧
      Secure σ' W' := by
  obtain ⟨W', ht⟩ := h.sim.track hstep hunique
  have htrans := step_transition hstep
  have h' := h.sim.advance hstep ht
  have hsafe := ht.effects.safeInv hcareful h.safe
  have hgrows := ht.effects.grows
  have hknown : ∀ s K, Known entryTerm W s K → Known entryTerm W' s K :=
    fun s K ↦ h.known ht hcareful
  have hservers := h.servers_step h' hsafe htrans ht henv hknown
  refine ⟨W', hknown, h', hsafe, hservers, ?_, ?_, ?_, ?_, ?_, ?_⟩
  · exact h.matched_step h' hsafe htrans hgrows
      fun s ↦ (h.servers s).world (hknown s)
  · exact fun call ↦ h.appends_step h' hsafe htrans hgrows hservers
  · exact fun call ↦ h.snaps_step h' htrans ht hservers
  · exact fun s job ↦ h.jobs_step h' htrans hgrows hservers
  · intro s u hu
    rcases htrans.unsent_origin hu with hold | hnew
    · exact (h.unsent s u hold).world (hknown s)
    · exact h.produced hknown hservers hnew
  · intro s incarnation msg hevent
    rcases htrans.applied_origin hevent with hold | ⟨u, hu, rfl⟩
    · exact (h.applied s incarnation msg hold).world (hknown s)
    · exact (h.unsent s u hu).world (hknown s)

/-- Every state of a careful run is secure. -/
theorem exists_secure {ok : Cluster n Cmd → Action Cmd n → Prop}
    (hok : ∀ σ a, ok σ a → σ.SnapshotsApplied a ∧ σ.Careful a)
    {visited : List (Cluster n Cmd)} (hrun : Run step ok init visited σ) :
    ∃ W, Secure σ W := by
  induction hrun with
  | start => exact ⟨_, secure_init⟩
  | next hprev hallowed hstep ih =>
      obtain ⟨W, hsecure⟩ := ih
      obtain ⟨henv, hcareful⟩ := hok _ _ hallowed
      have hunique := electedUnique_of_run
        (fun σ a hallowed ↦ (hok σ a hallowed).2.1)
        (hprev.next hallowed hstep)
      obtain ⟨W', _, hsecure'⟩ := hsecure.step hstep henv hcareful hunique
      exact ⟨W', hsecure'⟩

/-! ## State machine safety -/

/-- In a careful run no two servers, and no two incarnations of one server,
deliver different commands at one index. -/
theorem state_machine_safety {visited : List (Cluster n Cmd)}
    (hrun : Run step (fun σ a ↦ σ.SnapshotsApplied a ∧ σ.Careful a) init
      visited σ)
    (s t : Fin n) (i j : ℕ) (c d : Cmd) (index : ℤ)
    (hc : Event.applied s i (.command c index) ∈ σ.events)
    (hd : Event.applied t j (.command d index) ∈ σ.events) : c = d := by
  obtain ⟨W, hsecure⟩ := exists_secure (fun _ _ hok ↦ hok) hrun
  obtain ⟨J, e, hJ, _, he, rfl⟩ := hsecure.applied s i _ hc
  obtain ⟨K, f, hK, _, hf, rfl⟩ := hsecure.applied t j _ hd
  have hsame : e = f := by
    rcases hJ.comparable hsecure.safe hK with hpre | hpre
    · have hlt := (List.getElem?_eq_some_iff.mp he).1
      have hget := List.prefix_iff_getElem?.mp hpre _ hlt
      rw [(List.getElem?_eq_some_iff.mp he).2, hf] at hget
      exact (Option.some.inj hget).symm
    · have hlt := (List.getElem?_eq_some_iff.mp hf).1
      have hget := List.prefix_iff_getElem?.mp hpre _ hlt
      rw [(List.getElem?_eq_some_iff.mp hf).2, he] at hget
      exact Option.some.inj hget
  rw [hsame]

/-- Server 0 wins term 1, and it and server 1 deliver a command. -/
def deliveringRun : List (Action ℕ 3) :=
  winning 0 0 ++ [.start 0 5, .heartbeat 0, .deliverAppend 2, .replyAppend 2,
    .apply 0, .receive 0 0, .heartbeat 0, .deliverAppend 4, .apply 1,
    .receive 1 0]

/-- Two servers that both deliver at index 1 deliver the same command. -/
theorem state_machine_safety_delivered :
    ∃ (visited : List (Cluster 3 ℕ)) (σ : Cluster 3 ℕ),
      Run step (fun σ a ↦ σ.SnapshotsApplied a ∧ σ.Careful a) init visited
        σ ∧
      (Event.applied 0 0 (.command 5 1) ∈ σ.events ∧
        ∃ d, Event.applied 1 0 (.command d 1) ∈ σ.events) ∧
      ∀ d, Event.applied 1 0 (.command d 1) ∈ σ.events → 5 = d := by
  obtain ⟨visited, σ, hrun, hzero, hone⟩ := Run.exists_of_exec
    step (fun σ a ↦ σ.SnapshotsApplied a ∧ σ.Careful a) init deliveringRun
    (fun σ : Cluster 3 ℕ ↦ Event.applied 0 0 (.command 5 1) ∈ σ.events ∧
      Event.applied 1 0 (.command 5 1) ∈ σ.events) (by decide +kernel)
  exact ⟨visited, σ, hrun, ⟨hzero, 5, hone⟩, fun d hd ↦
    state_machine_safety hrun 0 1 0 0 5 d 1 hzero hd⟩

/-- The two leaders of `lateRun` both commit a command at index 1, each with
the acknowledgement of server 1. -/
def divergingRun : List (Action ℕ 3) :=
  lateRun ++ [.start 2 7, .heartbeat 2, .start 0 8, .heartbeat 0,
    .deliverAppend 5, .replyAppend 5, .apply 2, .receive 2 0,
    .deliverAppend 6, .replyAppend 6, .apply 0, .receive 0 0]

/-- A delayed AppendEntries request takes the committed command 6 away from
server 1, which wins term 2 and commits command 9 in its place. -/
def cuttingRun : List (Action ℕ 3) :=
  winning 0 0 ++ [.start 0 5, .heartbeat 0, .start 0 6, .heartbeat 0,
    .deliverAppend 4, .replyAppend 4, .apply 0, .receive 0 0, .apply 0,
    .receive 0 0, .deliverAppend 2] ++ winning 1 3 ++ [.start 1 9,
    .heartbeat 1, .deliverAppend 9, .replyAppend 9, .heartbeat 1,
    .deliverAppend 11, .replyAppend 11, .apply 1, .receive 1 0, .apply 1,
    .receive 1 0]

/-- A delayed snapshot takes the committed command 7 away from server 2, which
then votes for server 1 and helps it to commit command 9 in its place. -/
def rollbackRun : List (Action ℕ 3) :=
  compactedRun ++ [.heartbeat 0, .sendJob 0 0, .snapshot 0 2 [2],
    .heartbeat 0, .sendJob 0 0, .deliverSnap 1, .receive 2 0, .replySnap 1,
    .start 0 7, .heartbeat 0, .deliverAppend 7, .replyAppend 7, .apply 0,
    .receive 0 0, .deliverSnap 0] ++ winning 1 3 ++ [.start 1 9, .heartbeat 1,
    .deliverAppend 11, .replyAppend 11, .heartbeat 1, .deliverAppend 13,
    .replyAppend 13, .apply 1, .receive 1 0, .apply 1, .receive 1 0, .apply 1,
    .receive 1 0]

/-- When any one of the three conditions is given up, two servers can deliver
different commands at one index. -/
theorem commands_diverge :
    (∃ (visited : List (Cluster 3 ℕ)) (σ : Cluster 3 ℕ),
      Run step (fun σ a ↦ σ.SnapshotsApplied a ∧ σ.KeepsAgreeing a ∧
        σ.InstallsForward a) init visited σ ∧
      Event.applied 2 0 (.command 7 1) ∈ σ.events ∧
      Event.applied 0 0 (.command 8 1) ∈ σ.events) ∧
    (∃ (visited : List (Cluster 3 ℕ)) (σ : Cluster 3 ℕ),
      Run step (fun σ a ↦ σ.SnapshotsApplied a ∧ σ.PromotesInTerm a ∧
        σ.InstallsForward a) init visited σ ∧
      Event.applied 0 0 (.command 6 2) ∈ σ.events ∧
      Event.applied 1 0 (.command 9 2) ∈ σ.events) ∧
    ∃ (visited : List (Cluster 3 ℕ)) (σ : Cluster 3 ℕ),
      Run step (fun σ a ↦ σ.SnapshotsApplied a ∧ σ.PromotesInTerm a ∧
        σ.KeepsAgreeing a) init visited σ ∧
      Event.applied 0 0 (.command 7 3) ∈ σ.events ∧
      Event.applied 1 0 (.command 9 3) ∈ σ.events := by
  refine ⟨?_, ?_, ?_⟩
  · exact Run.exists_of_exec step (fun σ a ↦ σ.SnapshotsApplied a ∧
        σ.KeepsAgreeing a ∧ σ.InstallsForward a) init divergingRun
      (fun σ : Cluster 3 ℕ ↦ Event.applied 2 0 (.command 7 1) ∈ σ.events ∧
        Event.applied 0 0 (.command 8 1) ∈ σ.events) (by decide +kernel)
  · exact Run.exists_of_exec step (fun σ a ↦ σ.SnapshotsApplied a ∧
        σ.PromotesInTerm a ∧ σ.InstallsForward a) init cuttingRun
      (fun σ : Cluster 3 ℕ ↦ Event.applied 0 0 (.command 6 2) ∈ σ.events ∧
        Event.applied 1 0 (.command 9 2) ∈ σ.events) (by decide +kernel)
  · exact Run.exists_of_exec step (fun σ a ↦ σ.SnapshotsApplied a ∧
        σ.PromotesInTerm a ∧ σ.KeepsAgreeing a) init rollbackRun
      (fun σ : Cluster 3 ℕ ↦ Event.applied 0 0 (.command 7 3) ∈ σ.events ∧
        Event.applied 1 0 (.command 9 3) ∈ σ.events) (by decide +kernel)

end Cluster

end DistLabs
