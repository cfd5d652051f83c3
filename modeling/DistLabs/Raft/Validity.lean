import DistLabs.Raft.Representation

/-!
# Validity and index preservation

Every entry at a physical index above the sentinel was started at exactly the
virtual index that `P2VIndex` gives it, on every server, in every persister and
in every request.  `ApplyGoroutine` never reaches the sentinel: once
`CommitIndex` is positive, `LastApplied` is at least `LastIncludedIndex`,
provided the service takes snapshots only at indices it was given.
-/

namespace DistLabs

variable {n : ℕ} {Cmd : Type}

/-! ## Entries at their virtual indices -/

/-- Every entry after the sentinel of a log that starts at virtual index `lii`
is a started command at its virtual index. -/
def PlacedLog (St : Cmd → ℤ → Prop) (lii : ℤ)
    (log : List (LogEntry Cmd)) : Prop :=
  ∀ (p : ℕ) (e : LogEntry Cmd), 1 ≤ p → log[p]? = some e →
    St e.command (p + lii)

namespace PlacedLog

variable {St St' : Cmd → ℤ → Prop} {lii : ℤ} {log : List (LogEntry Cmd)}

theorem mono (h : PlacedLog St lii log) (himp : ∀ c i, St c i → St' c i) :
    PlacedLog St' lii log := by
  intro p e hp he
  exact himp _ _ (h p e hp he)

theorem singleton (St : Cmd → ℤ → Prop) (lii : ℤ) (e : LogEntry Cmd) :
    PlacedLog St lii [e] := by
  intro p d hp hd
  have hlt := (List.getElem?_eq_some_iff.mp hd).1
  simp only [List.length_singleton] at hlt
  omega

theorem take (h : PlacedLog St lii log) (k : ℕ) :
    PlacedLog St lii (log.take k) := by
  intro p e hp he
  have hlt : p < k := by
    have hlen := (List.getElem?_eq_some_iff.mp he).1
    rw [List.length_take] at hlen
    omega
  rw [List.getElem?_take_of_lt hlt] at he
  exact h p e hp he

/-- Cutting off `k` entries moves the virtual index of the sentinel by `k`. -/
theorem drop (h : PlacedLog St lii log) (k : ℕ) :
    PlacedLog St (lii + k) (log.drop k) := by
  intro p e hp he
  rw [List.getElem?_drop] at he
  have hst := h (k + p) e (by omega) he
  have hidx : ((k + p : ℕ) : ℤ) + lii = (p : ℤ) + (lii + k) := by omega
  rwa [hidx] at hst

/-- Entries that follow the entry at physical index `k`. -/
theorem take_append (h : PlacedLog St lii log) {k : ℕ} (hk : k < log.length)
    {entries : List (LogEntry Cmd)}
    (hentries : ∀ (p : ℕ) (e : LogEntry Cmd), entries[p]? = some e →
      St e.command (k + lii + 1 + p)) :
    PlacedLog St lii (log.take (k + 1) ++ entries) := by
  intro p e hp he
  have hlen : (log.take (k + 1)).length = k + 1 := by
    rw [List.length_take]
    omega
  by_cases hlt : p < k + 1
  · rw [List.getElem?_append_left (by omega)] at he
    exact h.take (k + 1) p e hp he
  · rw [List.getElem?_append_right (by omega), hlen] at he
    have hst := hentries (p - (k + 1)) e he
    have hidx : (k : ℤ) + lii + 1 + ((p - (k + 1) : ℕ) : ℤ) =
        (p : ℤ) + lii := by omega
    rwa [hidx] at hst

theorem append_singleton (h : PlacedLog St lii log) {e : LogEntry Cmd}
    (he : St e.command (lii + log.length)) :
    PlacedLog St lii (log ++ [e]) := by
  intro p d hp hd
  by_cases hlt : p < log.length
  · rw [List.getElem?_append_left hlt] at hd
    exact h p d hp hd
  · have hlen := (List.getElem?_eq_some_iff.mp hd).1
    simp only [List.length_append, List.length_singleton] at hlen
    obtain rfl : p = log.length := by omega
    obtain rfl : e = d := by simpa using hd
    have hidx : (log.length : ℤ) + lii = lii + log.length := Int.add_comm _ _
    rwa [hidx]

end PlacedLog

/-- The entries of a server and of its persister are in place. -/
structure Placed (St : Cmd → ℤ → Prop) (rf : Raft n Cmd) : Prop where
  log : PlacedLog St rf.lastIncludedIndex rf.log
  saved : ∀ saved, rf.persister.raftstate = some saved →
    PlacedLog St saved.lastIncludedIndex saved.log

/-- The entries of a request are in place. -/
def PlacedRequest (St : Cmd → ℤ → Prop) (args : AppendEntriesArgs n Cmd) :
    Prop :=
  ∀ (p : ℕ) (e : LogEntry Cmd), args.entries[p]? = some e →
    St e.command (args.prevLogIndex + 1 + p)

namespace Placed

variable {St St' : Cmd → ℤ → Prop} {rf rf' : Raft n Cmd}

theorem mono (h : Placed St rf) (himp : ∀ c i, St c i → St' c i) :
    Placed St' rf :=
  ⟨h.log.mono himp, fun saved hsaved ↦ (h.saved saved hsaved).mono himp⟩

theorem of_eq (h : Placed St rf) (hlog : rf'.log = rf.log)
    (hlii : rf'.lastIncludedIndex = rf.lastIncludedIndex)
    (hsaved : rf'.persister = rf.persister) : Placed St rf' :=
  ⟨by rw [hlog, hlii]; exact h.log, by rw [hsaved]; exact h.saved⟩

theorem persist (h : PlacedLog St rf.lastIncludedIndex rf.log) :
    Placed St rf.persist := by
  refine ⟨h, ?_⟩
  intro saved hsaved
  cases hsaved
  exact h

theorem appendLog (h : Placed St rf) {args : AppendEntriesArgs n Cmd}
    (hargs : PlacedRequest St args) {entry : LogEntry Cmd}
    (hentry :
      elemAt rf.log (rf.v2pIndex args.prevLogIndex) = some entry) :
    Placed St (rf.appendLog (rf.v2pIndex args.prevLogIndex) args.entries) := by
  obtain ⟨k, hk, hget⟩ := elemAt_eq_some_iff.mp hentry
  have hlt := (List.getElem?_eq_some_iff.mp hget).1
  unfold Raft.appendLog
  split
  · refine persist ?_
    rw [hk, Int.toNat_natCast]
    refine h.log.take_append hlt ?_
    intro p e he
    have hst := hargs p e he
    have hidx : args.prevLogIndex + 1 + (p : ℤ) =
        (k : ℤ) + rf.lastIncludedIndex + 1 + p := by
      unfold Raft.v2pIndex at hk
      omega
    rwa [hidx] at hst
  · exact h

theorem advanceCommit (h : Placed St rf) (leaderCommit : ℤ) :
    Placed St (rf.advanceCommit leaderCommit) := by
  unfold Raft.advanceCommit
  split
  · exact h.of_eq rfl rfl rfl
  · exact h

/-- The log from virtual index `index` on is in place. -/
theorem drop (h : Placed St rf) {index : ℤ} {entry : LogEntry Cmd}
    (hentry : elemAt rf.log (rf.v2pIndex index) = some entry) :
    PlacedLog St index (rf.log.drop (rf.v2pIndex index).toNat) := by
  obtain ⟨k, hk, _⟩ := elemAt_eq_some_iff.mp hentry
  have hplaced := h.log.drop k
  have hindex : rf.lastIncludedIndex + (k : ℤ) = index := by
    unfold Raft.v2pIndex at hk
    omega
  rw [hindex] at hplaced
  rwa [hk, Int.toNat_natCast]

theorem change [Zero Cmd] {In : Inputs n Cmd}
    (happend : ∀ args, In.append args → PlacedRequest St args)
    (hstart : ∀ c i, In.started c i → St c i)
    (hrep : Represented rf) (hchange : Change In rf rf')
    (h : Placed St rf) : Placed St rf' := by
  cases hchange with
  | elect =>
      rw [Raft.electLauncher_rf]
      exact persist h.log
  | grant => exact persist h.log
  | raise => exact persist h.log
  | follow | demote | lead | reindex | matched | commit | apply =>
      exact h.of_eq rfl rfl rfl
  | @start command hin =>
      refine persist (h.log.append_singleton ?_)
      have hlen := hrep.length
      rw [← hlen]
      exact hstart _ _ hin
  | snapshot _ hentry => exact persist (h.drop hentry)
  | conflict =>
      rw [hrep.hasSentinel.stamped_eq]
      refine persist ?_
      dsimp only
      split
      · exact h.log.take 1
      · exact h.log.take _
  | accept hin _ hk hentry =>
      subst hk
      rw [hrep.hasSentinel.stamped_eq]
      exact (h.appendLog (happend _ hin) hentry).advanceCommit _
  | install _ _ hlog =>
      refine persist ?_
      rcases Raft.remainingLog_cases hlog with
        ⟨entry, _, _, hentry, _, rfl⟩ | ⟨rfl, _⟩
      · exact h.drop hentry
      · exact PlacedLog.singleton _ _ _

theorem make [Zero Cmd] (h : Placed St rf) (me : Fin n) :
    Placed St (Raft.make me rf.persister) := by
  rcases Raft.make_cases me rf.persister with
    ⟨_, hmake⟩ | ⟨saved, hsaved, hmake⟩ <;> rw [hmake]
  · exact ⟨PlacedLog.singleton _ _ _, h.saved⟩
  · exact ⟨h.saved saved hsaved, h.saved⟩

/-- The requests that a server in place sends are in place. -/
theorem request (h : Placed St rf) {i j : Fin n}
    {args : AppendEntriesArgs n Cmd}
    (hprepare : rf.prepare i = some (.appendEntries j args)) :
    PlacedRequest St args := by
  obtain ⟨_, next, prev, _, hpos, _, rfl⟩ := Raft.prepare_append hprepare
  intro p e he
  dsimp only at he ⊢
  split at he
  · rw [List.getElem?_drop] at he
    have hst := h.log _ e (by omega) he
    have hidx : (((rf.v2pIndex next).toNat + p : ℕ) : ℤ) +
        rf.lastIncludedIndex = next - 1 + 1 + p := by
      unfold Raft.v2pIndex at hpos ⊢
      omega
    rwa [hidx] at hst
  · simp at he

end Placed

/-! ## The applier stays above the sentinel -/

/-- Virtual index of a message for the service. -/
def ApplyMsg.index : ApplyMsg Cmd → ℤ
  | .command _ i => i
  | .snapshot _ _ i => i

/-- `LastApplied` is at least `low` and, once something is committed, at least
`LastIncludedIndex`. -/
structure AppliesAbove (low : ℤ) (rf : Raft n Cmd) : Prop where
  low : low ≤ rf.lastApplied
  nonneg : 0 ≤ rf.lastApplied
  above : rf.commitIndex ≤ 0 ∨ rf.lastIncludedIndex ≤ rf.lastApplied

theorem AppliesAbove.change [Zero Cmd] {In : Inputs n Cmd} {low : ℤ}
    {rf rf' : Raft n Cmd}
    (htaken : ∀ index data, In.taken index data → index ≤ low)
    (hchange : Change In rf rf') (h : AppliesAbove low rf) :
    AppliesAbove low rf' := by
  obtain ⟨hlow, hnonneg, habove⟩ := h
  cases hchange with
  | elect =>
      rw [Raft.electLauncher_rf]
      exact ⟨hlow, hnonneg, habove⟩
  | grant | raise | follow | demote | lead | reindex | matched | start =>
      exact ⟨hlow, hnonneg, habove⟩
  | commit =>
      refine ⟨?_, ?_, Or.inr ?_⟩ <;> dsimp only <;> omega
  | snapshot hin =>
      have hindex := htaken _ _ hin
      refine ⟨hlow, hnonneg, Or.inr ?_⟩
      simp only [Raft.compacted, Raft.persist]
      omega
  | @conflict _ _ k =>
      unfold Raft.stamped
      split
      · exact ⟨hlow, hnonneg, habove⟩
      · exact ⟨hlow, hnonneg, habove⟩
  | @accept args _ k =>
      have hsame : ∀ rf₁ : Raft n Cmd, rf₁.lastApplied = rf.lastApplied →
          rf₁.commitIndex = rf.commitIndex →
          rf₁.lastIncludedIndex = rf.lastIncludedIndex →
          AppliesAbove low (rf₁.advanceCommit args.leaderCommit) := by
        intro rf₁ hla hci hlii
        unfold Raft.advanceCommit
        split
        · refine ⟨?_, ?_, Or.inr ?_⟩ <;> dsimp only <;> omega
        · exact ⟨by omega, by omega, by omega⟩
      apply hsame <;> unfold Raft.appendLog Raft.stamped <;> split <;>
        split <;> rfl
  | install =>
      refine ⟨?_, ?_, Or.inr ?_⟩ <;>
        simp only [Raft.installed, Raft.persist] <;> omega
  | apply =>
      refine ⟨?_, ?_, ?_⟩ <;> dsimp only <;> omega

theorem AppliesAbove.make [Zero Cmd] (me : Fin n)
    (persister : Persister n Cmd) :
    AppliesAbove 0 (Raft.make me persister) := by
  rcases Raft.make_cases me persister with
    ⟨_, hmake⟩ | ⟨saved, _, hmake⟩ <;> rw [hmake]
  · exact ⟨le_rfl, le_rfl, Or.inl le_rfl⟩
  · exact ⟨le_rfl, le_rfl, Or.inl le_rfl⟩

/-! ## The cluster -/

namespace Cluster

/-- Some `Start` call with command `c` has returned index `i` and `true`. -/
def Started (σ : Cluster n Cmd) (c : Cmd) (i : ℤ) : Prop :=
  ∃ s term, Event.started s c i term ∈ σ.events

/-- The service of server `s` has received a message with index `index` in this
incarnation. -/
def Delivered (σ : Cluster n Cmd) (s : Fin n) (index : ℤ) : Prop :=
  index ∈ (σ.server s).applyCh.map ApplyMsg.index

/-- The service takes snapshots only at indices that were delivered to it in
the same incarnation. -/
def SnapshotsDelivered (σ : Cluster n Cmd) : Action Cmd n → Prop
  | .snapshot s index _ => σ.Delivered s index
  | _ => True

instance (σ : Cluster n Cmd) (s : Fin n) (index : ℤ) :
    Decidable (σ.Delivered s index) :=
  inferInstanceAs (Decidable (_ ∈ _))

instance (σ : Cluster n Cmd) (a : Action Cmd n) :
    Decidable (σ.SnapshotsDelivered a) := by
  induction a using Action.casesOn <;> dsimp only [SnapshotsDelivered] <;>
    infer_instance

variable [Zero Cmd]

/-- The invariant behind validity. -/
structure Valid (σ : Cluster n Cmd) : Prop where
  ordered : Ordered σ
  placed : ∀ s, Placed σ.Started (σ.server s).rf
  requests : ∀ call ∈ σ.appendCalls, PlacedRequest σ.Started call.args
  applies : ∀ s, AppliesAbove 0 (σ.server s).rf
  delivered : ∀ s, ∀ msg ∈ (σ.server s).applyCh,
    msg.index ≤ (σ.server s).rf.lastApplied
  unsent : ∀ s, ∀ u ∈ (σ.server s).unsent,
    u.msg.index ≤ (σ.server s).rf.lastApplied ∧
    ∀ c i, u.msg = .command c i → σ.Started c i
  applied : ∀ s incarnation c i,
    Event.applied s incarnation (.command c i) ∈ σ.events → σ.Started c i

theorem valid_init : Valid (init : Cluster n Cmd) where
  ordered := ordered_init
  placed := fun s ↦ ⟨PlacedLog.singleton _ _ _, by
    simp [init, boot, Raft.make, Raft.readPersist]⟩
  requests := by simp [init]
  applies := fun s ↦ AppliesAbove.make s ⟨none, []⟩
  delivered := by simp [init, boot]
  unsent := by simp [init, boot]
  applied := by simp [init]

variable {σ σ' : Cluster n Cmd} {a : Action Cmd n}

theorem Started.mono {c : Cmd} {i : ℤ} (h : σ.Started c i)
    (htrans : Transition σ a σ') : σ'.Started c i := by
  obtain ⟨s, term, hevent⟩ := h
  exact ⟨s, term, htrans.events_grow.subset hevent⟩

theorem Valid.placed_step (hinv : Valid σ) (htrans : Transition σ a σ')
    (t : Fin n) : Placed σ'.Started (σ'.server t).rf := by
  have hold : Placed σ'.Started (σ.server t).rf :=
    (hinv.placed t).mono fun _ _ hst ↦ hst.mono htrans
  cases htrans.evolves t with
  | changes hchanges =>
      have happend : ∀ args, (σ.inputs a t).append args →
          PlacedRequest σ'.Started args := by
        rintro args ⟨k, call, _, hcall, _, rfl⟩ p e he
        exact (hinv.requests call (List.mem_of_getElem? hcall) p e he).mono
          htrans
      have hstart : ∀ c i, (σ.inputs a t).started c i → σ'.Started c i :=
        fun c i hin ↦ ⟨t, htrans.started_mem hin⟩
      have hboth : Represented (σ'.server t).rf ∧
          Placed σ'.Started (σ'.server t).rf := by
        refine hchanges.preserves
          (P := fun rf ↦ Represented rf ∧ Placed σ'.Started rf) ?_
          ⟨hinv.ordered.servers t, hold⟩
        rintro rf rf' hchange ⟨hrep, hplaced⟩
        exact ⟨hinv.ordered.represented_change hchange hrep,
          hplaced.change happend hstart hrep hchange⟩
      exact hboth.2
  | restart _ hboot =>
      rw [hboot]
      exact hold.make t

/-- `LastApplied` does not decrease within an incarnation and stays above the
sentinel. -/
theorem Valid.applies_step (hinv : Valid σ) (hok : σ.SnapshotsDelivered a)
    {t : Fin n}
    (hchanges : Changes (σ.inputs a t) (σ.server t).rf (σ'.server t).rf) :
    AppliesAbove (σ.server t).rf.lastApplied (σ'.server t).rf := by
  have hstart : AppliesAbove (σ.server t).rf.lastApplied (σ.server t).rf :=
    ⟨le_rfl, (hinv.applies t).nonneg, (hinv.applies t).above⟩
  refine hchanges.preserves (AppliesAbove.change ?_) hstart
  intro index data hin
  obtain rfl : a = .snapshot t index data := hin
  obtain ⟨msg, hmsg, rfl⟩ := List.mem_map.mp hok
  exact hinv.delivered t msg hmsg

omit [Zero Cmd] in
/-- The entry that `ApplyGoroutine` reads lies above the sentinel. -/
theorem Valid.apply_above (hinv : Valid σ) {s : Fin n}
    (hcommit : (σ.server s).rf.commitIndex > (σ.server s).rf.lastApplied) :
    1 ≤ (σ.server s).rf.v2pIndex ((σ.server s).rf.lastApplied + 1) := by
  have hnonneg := (hinv.applies s).nonneg
  have habove := (hinv.applies s).above
  unfold Raft.v2pIndex
  omega

/-- A message that was just produced is a started command or a snapshot, and
lies at or below `LastApplied`. -/
theorem Valid.produced (hinv : Valid σ) (htrans : Transition σ a σ')
    {s : Fin n} {msg : ApplyMsg Cmd} (h : Produced σ σ' s msg) :
    msg.index ≤ (σ'.server s).rf.lastApplied ∧
      ∀ c i, msg = .command c i → σ'.Started c i := by
  cases h with
  | apply hcommit hentry hmsg hrf =>
      subst hmsg
      refine ⟨by rw [hrf]; exact le_rfl, ?_⟩
      rintro c i ⟨⟩
      have habove := hinv.apply_above hcommit
      obtain ⟨k, hk, hget⟩ := elemAt_eq_some_iff.mp hentry
      have hst := (hinv.placed s).log k _ (by omega) hget
      have hidx : (k : ℤ) + (σ.server s).rf.lastIncludedIndex =
          (σ.server s).rf.lastApplied + 1 := by
        unfold Raft.v2pIndex at hk
        omega
      rw [hidx] at hst
      exact hst.mono htrans
  | install log _ _ hrf hmsg =>
      subst hmsg
      refine ⟨?_, by rintro c i ⟨⟩⟩
      rw [hrf]
      exact le_max_right _ _

theorem Valid.step (hinv : Valid σ) (hok : σ.SnapshotsDelivered a)
    (hstep : σ.step a = some σ') : Valid σ' := by
  have htrans := step_transition hstep
  have hplaced := hinv.placed_step htrans
  have hmono : ∀ t, (σ'.server t).applyCh = [] ∧ (σ'.server t).unsent = [] ∨
      (σ.server t).rf.lastApplied ≤ (σ'.server t).rf.lastApplied := by
    intro t
    cases htrans.evolves t with
    | changes hchanges => exact Or.inr (hinv.applies_step hok hchanges).low
    | restart _ hboot =>
        rw [hboot]
        exact Or.inl ⟨rfl, rfl⟩
  have hunsent : ∀ s, ∀ u ∈ (σ'.server s).unsent,
      u.msg.index ≤ (σ'.server s).rf.lastApplied ∧
      ∀ c i, u.msg = .command c i → σ'.Started c i := by
    intro s u hu
    rcases htrans.unsent_origin hu with hold | hnew
    · obtain ⟨hindex, hst⟩ := hinv.unsent s u hold
      refine ⟨?_, fun c i hmsg ↦ (hst c i hmsg).mono htrans⟩
      rcases hmono s with ⟨_, hempty⟩ | hle
      · simp [hempty] at hu
      · exact le_trans hindex hle
    · exact hinv.produced htrans hnew
  refine ⟨hinv.ordered.step hstep, hplaced, ?_, ?_, ?_, hunsent, ?_⟩
  · intro call hcall
    rcases htrans.appendCall_origin hcall with ⟨old, hold, _, rfl⟩ | hnew
    · intro p e he
      exact (hinv.requests old hold p e he).mono htrans
    · exact (hplaced call.caller).request hnew.prepared
  · intro t
    cases htrans.evolves t with
    | changes hchanges =>
        have habove := hinv.applies_step hok hchanges
        exact ⟨habove.nonneg, habove.nonneg, habove.above⟩
    | restart _ hboot =>
        rw [hboot]
        exact AppliesAbove.make t _
  · intro s msg hmsg
    have hindex : msg.index ≤ (σ.server s).rf.lastApplied := by
      rcases htrans.applyCh_origin hmsg with hold | ⟨⟨u, hu, rfl⟩, _⟩
      · exact hinv.delivered s msg hold
      · exact (hinv.unsent s u hu).1
    rcases hmono s with ⟨hempty, _⟩ | hle
    · simp [hempty] at hmsg
    · exact le_trans hindex hle
  · intro s incarnation c i hevent
    rcases htrans.applied_origin hevent with hold | ⟨u, hu, hmsg⟩
    · exact (hinv.applied s incarnation c i hold).mono htrans
    · exact ((hinv.unsent s u hu).2 c i hmsg).mono htrans

/-- Every delivered command was started at its index, `ApplyGoroutine` reads
above the sentinel, and every entry stands at the virtual index at which it was
started. -/
theorem delivered_started {visited : List (Cluster n Cmd)}
    (hrun : Run step SnapshotsDelivered init visited σ) :
    (∀ s incarnation c i,
      Event.applied s incarnation (.command c i) ∈ σ.events →
        ∃ t term, Event.started t c i term ∈ σ.events) ∧
    (∀ s, (σ.server s).rf.commitIndex > (σ.server s).rf.lastApplied →
      1 ≤ (σ.server s).rf.v2pIndex ((σ.server s).rf.lastApplied + 1)) ∧
    ∀ s (p : ℕ) e, 1 ≤ p → (σ.server s).rf.log[p]? = some e →
      ∃ t term,
        Event.started t e.command ((σ.server s).rf.p2vIndex p) term ∈
          σ.events := by
  have hinv : Valid σ :=
    hrun.invariant valid_init fun hinv hok hstep ↦ hinv.step hok hstep
  refine ⟨hinv.applied, fun s ↦ hinv.apply_above, ?_⟩
  intro s p e hp he
  exact (hinv.placed s).log p e hp he

/-- Server 0 delivers command 5 at index 1, compacts its log and keeps command
6 at virtual index 2. -/
theorem delivered_started_compacted :
    ∃ (visited : List (Cluster 3 ℕ)) (σ : Cluster 3 ℕ),
      Run step SnapshotsDelivered init visited σ ∧
      (Event.applied 0 0 (.command 5 1) ∈ σ.events ∧
        (σ.server 0).rf.log[1]? = some ⟨1, 6⟩) ∧
      (∃ t term, Event.started t 5 1 term ∈ σ.events) ∧
      ∃ t term, Event.started t 6 ((σ.server 0).rf.p2vIndex 1) term ∈
        σ.events := by
  obtain ⟨visited, σ, hrun, happlied, hlog⟩ := Run.exists_of_exec
    step SnapshotsDelivered init compactingRun
    (fun σ : Cluster 3 ℕ ↦ Event.applied 0 0 (.command 5 1) ∈ σ.events ∧
      (σ.server 0).rf.log[1]? = some ⟨1, 6⟩) (by decide +kernel)
  have hvalid := delivered_started hrun
  exact ⟨visited, σ, hrun, ⟨happlied, hlog⟩, hvalid.1 0 0 5 1 happlied,
    hvalid.2.2 0 1 ⟨1, 6⟩ le_rfl hlog⟩

end Cluster

end DistLabs
