import DistLabs.Raft.Simulation

/-!
# What a server knows to be committed

`CommitIndex` and `LastIncludedIndex` of a server never exceed what it knows to
be committed in the abstract sense.  A leader learns this from its match
indices, a follower from the leader's commit index and from snapshots.  The
lemmas of this module fix a world and let one server change.
-/

namespace DistLabs

open Consensus

variable {n : ℕ} {Cmd : Type}

/-- Server `s` knows that its entries up to virtual index `i` are committed. -/
def KnownUpTo (W : LogWorld n Cmd) (s : Fin n) (i : ℤ) : Prop :=
  i ≤ 0 ∨ ∃ K, Known entryTerm W s K ∧ i ≤ K.length

namespace KnownUpTo

variable {W W' : LogWorld n Cmd} {s : Fin n} {i j : ℤ}

theorem zero : KnownUpTo W s 0 :=
  Or.inl le_rfl

theorem mono (h : KnownUpTo W s i) (hle : j ≤ i) : KnownUpTo W s j := by
  rcases h with hneg | ⟨K, hK, hi⟩
  · exact Or.inl (le_trans hle hneg)
  · exact Or.inr ⟨K, hK, le_trans hle hi⟩

theorem world (h : KnownUpTo W s i)
    (hknown : ∀ K, Known entryTerm W s K → Known entryTerm W' s K) :
    KnownUpTo W' s i := by
  rcases h with hneg | ⟨K, hK, hi⟩
  · exact Or.inl hneg
  · exact Or.inr ⟨K, hknown K hK, hi⟩

theorem max (hi : KnownUpTo W s i) (hj : KnownUpTo W s j) :
    KnownUpTo W s (max i j) := by
  rcases le_total i j with hle | hle
  · rwa [max_eq_right hle]
  · rwa [max_eq_left hle]

theorem le_length (h : KnownUpTo W s i) : i ≤ (W.log s).length := by
  rcases h with hneg | ⟨K, hK, hi⟩
  · omega
  · have := hK.1.length_le
    omega

/-- The entry at a known index is known. -/
theorem exists_entry (h : KnownUpTo W s i) (hi : 1 ≤ i) :
    ∃ K e, Known entryTerm W s K ∧ i ≤ K.length ∧
      K[i.toNat - 1]? = some e ∧ (W.log s)[i.toNat - 1]? = some e := by
  rcases h with hneg | ⟨K, hK, hlen⟩
  · omega
  · have hlt : i.toNat - 1 < K.length := by omega
    exact ⟨K, K[i.toNat - 1], hK, hlen, List.getElem?_eq_getElem hlt,
      List.prefix_iff_getElem?.mp hK.1 _ hlt⟩

end KnownUpTo

/-! ## One server -/

/-- The sentinel of the log is the entry it stands for. -/
def Genuine (W : LogWorld n Cmd) (s : Fin n) (rf : Raft n Cmd) : Prop :=
  ∃ K e, Known entryTerm W s K ∧ 1 ≤ rf.lastIncludedIndex ∧
    K[rf.lastIncludedIndex.toNat - 1]? = some e ∧ rf.log[0]? = some e

/-- What a server has committed or compacted is known, and `ApplyGoroutine`
reads the sentinel only where it is genuine. -/
structure Secured (W : LogWorld n Cmd) (s : Fin n) (rf : Raft n Cmd) :
    Prop where
  commit : KnownUpTo W s rf.commitIndex
  included : KnownUpTo W s rf.lastIncludedIndex
  saved : ∀ saved, rf.persister.raftstate = some saved →
    KnownUpTo W s saved.lastIncludedIndex
  applied : 0 ≤ rf.lastApplied
  sentinel : rf.commitIndex ≤ 0 ∨ rf.lastIncludedIndex ≤ rf.lastApplied ∨
    Genuine W s rf

/-- Indices and sentinel stay, and `LastApplied` does not go back. -/
structure Keeps (rf rf' : Raft n Cmd) : Prop where
  commitIndex : rf'.commitIndex = rf.commitIndex
  lastIncludedIndex : rf'.lastIncludedIndex = rf.lastIncludedIndex
  lastApplied : rf.lastApplied ≤ rf'.lastApplied
  head : ∀ e, rf.log[0]? = some e → rf'.log[0]? = some e
  saved : ∀ saved, rf'.persister.raftstate = some saved →
    saved.lastIncludedIndex = rf.lastIncludedIndex ∨
    ∃ old, rf.persister.raftstate = some old ∧
      saved.lastIncludedIndex = old.lastIncludedIndex

namespace Keeps

variable {rf rf₁ rf' : Raft n Cmd}

theorem refl (rf : Raft n Cmd) : Keeps rf rf :=
  ⟨rfl, rfl, le_rfl, fun _ h ↦ h, fun saved h ↦ Or.inr ⟨saved, h, rfl⟩⟩

theorem trans (h : Keeps rf rf₁) (h' : Keeps rf₁ rf') : Keeps rf rf' where
  commitIndex := h'.commitIndex.trans h.commitIndex
  lastIncludedIndex := h'.lastIncludedIndex.trans h.lastIncludedIndex
  lastApplied := le_trans h.lastApplied h'.lastApplied
  head := fun e he ↦ h'.head e (h.head e he)
  saved := by
    intro saved hsaved
    rcases h'.saved saved hsaved with hnew | ⟨old, hold, heq⟩
    · exact Or.inl (hnew.trans h.lastIncludedIndex)
    · rw [heq]
      exact h.saved old hold

/-- Indices and sentinel stay, and so does what is saved. -/
theorem of_eq (hcommit : rf'.commitIndex = rf.commitIndex)
    (hlii : rf'.lastIncludedIndex = rf.lastIncludedIndex)
    (hlog : rf'.log = rf.log) (hsaved : rf'.persister = rf.persister)
    (happlied : rf.lastApplied ≤ rf'.lastApplied) : Keeps rf rf' := by
  refine ⟨hcommit, hlii, happlied, ?_, ?_⟩
  · rw [hlog]
    exact fun _ h ↦ h
  · rw [hsaved]
    exact fun saved h ↦ Or.inr ⟨saved, h, rfl⟩

/-- Indices and sentinel stay and are saved. -/
theorem persist (hcommit : rf'.commitIndex = rf.commitIndex)
    (hlii : rf'.lastIncludedIndex = rf.lastIncludedIndex)
    (happlied : rf'.lastApplied = rf.lastApplied)
    (hhead : ∀ e, rf.log[0]? = some e → rf'.log[0]? = some e) :
    Keeps rf rf'.persist := by
  refine ⟨hcommit, hlii, happlied.ge, hhead, ?_⟩
  intro saved hsaved
  cases hsaved
  exact Or.inl hlii

theorem head_take {log : List (LogEntry Cmd)} {k : ℕ} (hk : 0 < k)
    {e : LogEntry Cmd} (he : log[0]? = some e) :
    (log.take k)[0]? = some e := by
  rw [List.getElem?_take_of_lt hk]
  exact he

theorem head_append {log rest : List (LogEntry Cmd)} {e : LogEntry Cmd}
    (he : log[0]? = some e) : (log ++ rest)[0]? = some e := by
  rw [List.getElem?_append_left (List.getElem?_eq_some_iff.mp he).1]
  exact he

theorem followLeader (rf : Raft n Cmd) (term : ℕ) :
    Keeps rf (rf.followLeader term) := by
  unfold Raft.followLeader
  split
  · exact .persist rfl rfl rfl fun _ h ↦ h
  · exact .refl rf

theorem followInstaller (rf : Raft n Cmd) (term : ℕ) :
    Keeps rf (rf.followInstaller term) := by
  unfold Raft.followInstaller
  split
  · exact .of_eq rfl rfl rfl rfl le_rfl
  · exact .refl rf

theorem deleteConflict (rf : Raft n Cmd) {k : ℤ} (hk : 0 ≤ k) :
    Keeps rf (rf.deleteConflict k) := by
  refine .persist rfl rfl rfl ?_
  intro e he
  dsimp only
  split
  · exact head_take Nat.one_pos he
  · exact head_take (by omega) he

theorem appendLog (rf : Raft n Cmd) (k : ℤ)
    (entries : List (LogEntry Cmd)) : Keeps rf (rf.appendLog k entries) := by
  unfold Raft.appendLog
  split
  · exact .persist rfl rfl rfl fun e he ↦
      head_append (head_take (Nat.succ_pos _) he)
  · exact .refl rf

/-- No accepted request is reported, no request of a leader arrives and no
snapshot is taken. -/
structure Silent (In : Inputs n Cmd) : Prop where
  acked : ∀ peer args, ¬ In.acked peer args
  append : ∀ args, ¬ In.append args
  snap : ∀ args, ¬ In.snap args
  taken : ∀ index data, ¬ In.taken index data

variable [Zero Cmd] {In : Inputs n Cmd}

theorem change (hsilent : Silent In) (hchange : Change In rf rf') :
    Keeps rf rf' := by
  cases hchange with
  | elect =>
      rw [Raft.electLauncher_rf]
      exact .persist rfl rfl rfl fun _ h ↦ h
  | grant | raise => exact .persist rfl rfl rfl fun _ h ↦ h
  | follow | demote | lead | reindex =>
      exact .of_eq rfl rfl rfl rfl le_rfl
  | apply => exact .of_eq rfl rfl rfl rfl (Int.le_add_one le_rfl)
  | start => exact .persist rfl rfl rfl fun e he ↦ head_append he
  | matched hin | commit hin => exact absurd hin (hsilent.acked _ _)
  | conflict hin | accept hin => exact absurd hin (hsilent.append _)
  | install hin => exact absurd hin (hsilent.snap _)
  | snapshot hin => exact absurd hin (hsilent.taken _ _)

theorem changes (hsilent : Silent In) (hchanges : Changes In rf rf') :
    Keeps rf rf' := by
  induction hchanges with
  | refl => exact .refl rf
  | tail _ hchange ih => exact ih.trans (.change hsilent hchange)

end Keeps

namespace Secured

variable {W W' : LogWorld n Cmd} {s : Fin n} {rf rf' : Raft n Cmd}

theorem world (h : Secured W s rf)
    (hknown : ∀ K, Known entryTerm W s K → Known entryTerm W' s K) :
    Secured W' s rf where
  commit := h.commit.world hknown
  included := h.included.world hknown
  saved := fun saved hsaved ↦ (h.saved saved hsaved).world hknown
  applied := h.applied
  sentinel := by
    rcases h.sentinel with hzero | hlow | ⟨K, e, hK, hrest⟩
    · exact Or.inl hzero
    · exact Or.inr (Or.inl hlow)
    · exact Or.inr (Or.inr ⟨K, e, hknown K hK, hrest⟩)

theorem keeps (h : Secured W s rf) (hkeeps : Keeps rf rf') :
    Secured W s rf' where
  commit := by
    rw [hkeeps.commitIndex]
    exact h.commit
  included := by
    rw [hkeeps.lastIncludedIndex]
    exact h.included
  saved := by
    intro saved hsaved
    rcases hkeeps.saved saved hsaved with hnew | ⟨old, hold, heq⟩
    · rw [hnew]
      exact h.included
    · rw [heq]
      exact h.saved old hold
  applied := le_trans h.applied hkeeps.lastApplied
  sentinel := by
    unfold Genuine
    rw [hkeeps.commitIndex, hkeeps.lastIncludedIndex]
    rcases h.sentinel with hzero | hlow | ⟨K, e, hK, hpos, hentry, hhead⟩
    · exact Or.inl hzero
    · exact Or.inr (Or.inl (le_trans hlow hkeeps.lastApplied))
    · exact Or.inr (Or.inr ⟨K, e, hK, hpos, hentry, hkeeps.head e hhead⟩)

/-- Learning a new commit index raises `LastApplied` above the sentinel. -/
theorem commitTo (h : Secured W s rf) {N : ℤ} (hN : KnownUpTo W s N) :
    Secured W s
      { rf with
        commitIndex := N
        lastApplied := max rf.lastApplied rf.lastIncludedIndex } where
  commit := hN
  included := h.included
  saved := h.saved
  applied := le_trans h.applied (le_max_left _ _)
  sentinel := Or.inr (Or.inl (le_max_right _ _))

theorem advanceCommit (h : Secured W s rf) {leaderCommit : ℤ}
    (hknown : KnownUpTo W s leaderCommit) :
    Secured W s (rf.advanceCommit leaderCommit) := by
  unfold Raft.advanceCommit
  split
  · exact h.commitTo (hknown.mono (min_le_left _ _))
  · exact h

theorem installed (h : Secured W s rf) {args : SnapshotArgs n}
    (hknown : KnownUpTo W s args.lastIncludedIndex)
    (log : List (LogEntry Cmd)) : Secured W s (rf.installed args log) where
  commit := h.commit.max hknown
  included := hknown
  saved := by
    intro saved hsaved
    cases hsaved
    exact hknown
  applied := le_trans h.applied (le_max_left _ _)
  sentinel := Or.inr (Or.inl (le_max_right _ _))

/-- The sentinel that compaction leaves is the entry itself. -/
theorem compacted (h : Secured W s rf) {index : ℤ} {data : Bytes}
    {entry : LogEntry Cmd}
    (hentry : elemAt rf.log (rf.v2pIndex index) = some entry)
    (hknown : KnownUpTo W s index)
    (hgenuine : rf.lastIncludedIndex < index → ∃ K,
      Known entryTerm W s K ∧ K[index.toNat - 1]? = some entry) :
    Secured W s (rf.compacted index data entry) := by
  obtain ⟨p, hp, hget⟩ := elemAt_eq_some_iff.mp hentry
  have hnonneg : rf.lastIncludedIndex ≤ index := by
    unfold Raft.v2pIndex at hp
    omega
  refine ⟨h.commit, hknown, ?_, h.applied, ?_⟩
  · intro saved hsaved
    cases hsaved
    exact hknown
  · have hhead : (rf.compacted index data entry).log[0]? = some entry := by
      change (rf.log.drop (rf.v2pIndex index).toNat)[0]? = some entry
      rw [hp, Int.toNat_natCast, List.getElem?_drop]
      exact hget
    have hcommit : (rf.compacted index data entry).commitIndex =
        rf.commitIndex := rfl
    have hlii : (rf.compacted index data entry).lastIncludedIndex =
        index := rfl
    have happlied : (rf.compacted index data entry).lastApplied =
        rf.lastApplied := rfl
    unfold Genuine
    rw [hcommit, hlii, happlied, hhead]
    rcases lt_or_eq_of_le hnonneg with hlt | heq
    · obtain ⟨K, hK, hKentry⟩ := hgenuine hlt
      rcases le_or_gt index 0 with hneg | hpos
      · exact Or.inr (Or.inl (le_trans hneg h.applied))
      · exact Or.inr (Or.inr ⟨K, entry, hK, by omega, hKentry, rfl⟩)
    · subst heq
      have hzero : p = 0 := by
        unfold Raft.v2pIndex at hp
        omega
      subst hzero
      rcases h.sentinel with hlow | hlow | ⟨K, e, hK, hpos, hKentry, hold⟩
      · exact Or.inl hlow
      · exact Or.inr (Or.inl hlow)
      · rw [hget] at hold
        exact Or.inr (Or.inr ⟨K, e, hK, hpos, hKentry, hold⟩)

theorem make [Zero Cmd] (h : Secured W s rf) (me : Fin n) :
    Secured W s (Raft.make me rf.persister) := by
  rcases Raft.make_cases me rf.persister with
    ⟨_, hmake⟩ | ⟨saved, hsaved, hmake⟩ <;> rw [hmake]
  · exact ⟨.zero, .zero, h.saved, le_rfl, Or.inl le_rfl⟩
  · exact ⟨.zero, h.saved saved hsaved, h.saved, le_rfl, Or.inl le_rfl⟩

end Secured

/-! ## Match indices -/

namespace Raft

/-- After its first `k` rounds the loop has filled the first `k` places. -/
theorem foldl_fill (value : ℤ) (xs : List ℤ) (k : ℕ) :
    ((List.range k).foldl
      (fun ys i ↦ if ys.length ≤ i then ys ++ [value] else ys.set i value)
      xs).length = max k xs.length ∧
    ∀ i, i < k → ((List.range k).foldl
      (fun ys i ↦ if ys.length ≤ i then ys ++ [value] else ys.set i value)
      xs)[i]? = some value := by
  induction k with
  | zero => simp
  | succ k ih =>
      rw [List.range_succ, List.foldl_append]
      obtain ⟨hlen, hget⟩ := ih
      generalize (List.range k).foldl
        (fun ys i ↦ if ys.length ≤ i then ys ++ [value] else ys.set i value)
        xs = ys at hlen hget ⊢
      simp only [List.foldl_cons, List.foldl_nil]
      split
      · next hle =>
          have hk : ys.length = k := by omega
          refine ⟨by simp; omega, fun i hi ↦ ?_⟩
          rcases Nat.lt_or_eq_of_le (Nat.le_of_lt_succ hi) with hlt | rfl
          · rw [List.getElem?_append_left (by omega)]
            exact hget i hlt
          · rw [← hk]
            exact List.getElem?_concat_length
      · next hgt =>
          refine ⟨by simp; omega, fun i hi ↦ ?_⟩
          rcases Nat.lt_or_eq_of_le (Nat.le_of_lt_succ hi) with hlt | rfl
          · rw [List.getElem?_set_ne (by omega)]
            exact hget i hlt
          · exact List.getElem?_set_self (by omega)

theorem length_fillIndex {value : ℤ} {xs : List ℤ} (h : xs.length ≤ n) :
    (fillIndex n value xs).length = n := by
  have hlen := (foldl_fill value xs n).1
  unfold fillIndex
  omega

theorem getElem?_fillIndex (value : ℤ) (xs : List ℤ) (j : Fin n) :
    (fillIndex n value xs)[j.val]? = some value :=
  (foldl_fill value xs n).2 j.val j.isLt

/-- The commit scan counts server `q` for index `N`: the leader itself, or one
whose match index reaches an entry of the current term.  The match indices from
server `j` on are `ms`. -/
def Counted (rf : Raft n Cmd) (N : ℤ) (j : ℕ) (ms : List ℤ) (q : Fin n) :
    Prop :=
  j ≤ q.val ∧ (q = rf.me ∨ ∃ m e, ms[q.val - j]? = some m ∧ N ≤ m ∧
    elemAt rf.log (rf.v2pIndex N) = some e ∧ e.logTerm = rf.currentTerm)

theorem counted_cons_self {rf : Raft n Cmd} {N m : ℤ} {j : ℕ} {ms : List ℤ}
    (hj : j < n) :
    rf.Counted N j (m :: ms) ⟨j, hj⟩ ↔ j = rf.me.val ∨ (N ≤ m ∧ ∃ e,
      elemAt rf.log (rf.v2pIndex N) = some e ∧ e.logTerm = rf.currentTerm) := by
  simp [Counted, Fin.ext_iff]

theorem counted_cons_of_ne {rf : Raft n Cmd} {N m : ℤ} {j : ℕ} {ms : List ℤ}
    {q : Fin n} (hne : q.val ≠ j) :
    rf.Counted N j (m :: ms) q ↔ rf.Counted N (j + 1) ms q := by
  unfold Counted
  constructor
  · rintro ⟨hle, hwhy⟩
    have hsucc : q.val - j = q.val - (j + 1) + 1 := by omega
    rw [hsucc, List.getElem?_cons_succ] at hwhy
    exact ⟨by omega, hwhy⟩
  · rintro ⟨hle, hwhy⟩
    have hsucc : q.val - j = q.val - (j + 1) + 1 := by omega
    rw [hsucc, List.getElem?_cons_succ]
    exact ⟨by omega, hwhy⟩

/-- One round of the inner loop. -/
theorem countReplicas_cons {rf : Raft n Cmd} {N m : ℤ} {j count : ℕ}
    {ms : List ℤ} (hj : j < n)
    (h : rf.countReplicas N j (m :: ms) = some count) :
    ∃ rest, rf.countReplicas N (j + 1) ms = some rest ∧
      (rf.Counted N j (m :: ms) ⟨j, hj⟩ ∧ count = rest + 1 ∨
        ¬ rf.Counted N j (m :: ms) ⟨j, hj⟩ ∧ count = rest) := by
  rw [counted_cons_self]
  rw [countReplicas] at h
  split at h
  · cases h
  · next rest hrest =>
      refine ⟨rest, hrest, ?_⟩
      split at h
      · next hme =>
          cases h
          exact Or.inl ⟨Or.inl hme, rfl⟩
      · next hme =>
          split at h
          · next hreach =>
              split at h
              · cases h
              · next e he =>
                  split at h
                  · next hterm =>
                      cases h
                      exact Or.inl ⟨Or.inr ⟨hreach, e, he, hterm⟩, rfl⟩
                  · next hterm =>
                      cases h
                      refine Or.inr ⟨?_, rfl⟩
                      rintro (heq | ⟨_, e', he', hterm'⟩)
                      · exact hme heq
                      · rw [Option.some.inj (he.symm.trans he')] at hterm
                        exact hterm hterm'
          · next hreach =>
              cases h
              refine Or.inr ⟨?_, rfl⟩
              rintro (heq | ⟨hle, _⟩)
              · exact hme heq
              · exact hreach hle

/-- The scan counts exactly the servers that it should. -/
theorem countReplicas_counted {rf : Raft n Cmd} {N : ℤ} {ms : List ℤ}
    {j count : ℕ} (hlen : j + ms.length ≤ n)
    (h : rf.countReplicas N j ms = some count) :
    ∃ Q : Finset (Fin n), Q.card = count ∧
      ∀ q, q ∈ Q ↔ rf.Counted N j ms q ∧ q.val < j + ms.length := by
  induction ms generalizing j count with
  | nil =>
      obtain rfl : 0 = count := by simpa [countReplicas] using h
      refine ⟨∅, rfl, fun q ↦ ⟨fun hq ↦ (nomatch hq), ?_⟩⟩
      rintro ⟨⟨hle, _⟩, hlt⟩
      rw [List.length_nil] at hlt
      omega
  | cons m ms ih =>
      rw [List.length_cons] at hlen ⊢
      have hj : j < n := by omega
      obtain ⟨rest, hrest, hcase⟩ := countReplicas_cons hj h
      obtain ⟨Q, hcard, hQ⟩ := ih (by omega) hrest
      have hother : ∀ q : Fin n, q ≠ ⟨j, hj⟩ →
          (q ∈ Q ↔ rf.Counted N j (m :: ms) q ∧
            q.val < j + (ms.length + 1)) := by
        intro q hne
        rw [hQ, counted_cons_of_ne fun heq ↦ hne (Fin.ext heq),
          show j + 1 + ms.length = j + (ms.length + 1) by omega]
      have hfresh : (⟨j, hj⟩ : Fin n) ∉ Q := by
        intro hmem
        have hle : j + 1 ≤ j := ((hQ _).mp hmem).1.1
        omega
      rcases hcase with ⟨hself, rfl⟩ | ⟨hself, rfl⟩
      · refine ⟨insert ⟨j, hj⟩ Q, ?_, fun q ↦ ?_⟩
        · rw [Finset.card_insert_of_notMem hfresh, hcard]
        · rw [Finset.mem_insert]
          by_cases hq : q = ⟨j, hj⟩
          · subst hq
            exact ⟨fun _ ↦ ⟨hself, by simp⟩, fun _ ↦ Or.inl rfl⟩
          · rw [hother q hq]
            exact or_iff_right hq
      · refine ⟨Q, hcard, fun q ↦ ?_⟩
        by_cases hq : q = ⟨j, hj⟩
        · subst hq
          exact ⟨fun hmem ↦ absurd hmem hfresh,
            fun hcounted ↦ absurd hcounted.1 hself⟩
        · exact hother q hq

end Raft

/-- While a server leads its term, each positive match index was acknowledged
to it in that term. -/
structure Matched (W : LogWorld n Cmd) (s : Fin n) (rf : Raft n Cmd) :
    Prop where
  length_le : rf.matchIndex.length ≤ n
  sound : W.leads s rf.currentTerm → ∀ (j : Fin n) (m : ℤ),
    rf.matchIndex[j.val]? = some m →
      m ≤ 0 ∨ ∃ A, W.acked j rf.currentTerm A ∧ m ≤ A.length

namespace Matched

variable {W W' : LogWorld n Cmd} {s : Fin n} {rf rf' : Raft n Cmd}

/-- In a new term the match indices do not matter. -/
theorem step (h : Matched W s rf) (hgrows : Grows W W')
    (hsame : rf'.matchIndex = rf.matchIndex)
    (hterm : rf.currentTerm ≤ rf'.currentTerm)
    (hleads : W'.leads s rf'.currentTerm → W.leads s rf'.currentTerm)
    (hbound : ∀ T, W.leads s T → T ≤ rf.currentTerm) : Matched W' s rf' where
  length_le := by
    rw [hsame]
    exact h.length_le
  sound := by
    intro hlead j m hm
    have hold := hleads hlead
    have heq : rf'.currentTerm = rf.currentTerm :=
      le_antisymm (hbound _ hold) hterm
    rw [heq] at hold ⊢
    rw [hsame] at hm
    rcases h.sound hold j m hm with hneg | ⟨A, hA, hle⟩
    · exact Or.inl hneg
    · exact Or.inr ⟨A, hgrows.acked _ _ _ hA, hle⟩

theorem lead (h : rf.matchIndex.length ≤ n) : Matched W s rf.becomeLeader where
  length_le := (Raft.length_fillIndex h).le
  sound := by
    intro _ j m hm
    have hfill : rf.becomeLeader.matchIndex[j.val]? = some (-1) :=
      Raft.getElem?_fillIndex _ _ j
    obtain rfl := Option.some.inj (hm.symm.trans hfill)
    exact Or.inl (by decide)

theorem set (h : Matched W s rf) {peer : Fin n}
    {args : AppendEntriesArgs n Cmd} {A : List (LogEntry Cmd)}
    (hacked : W.acked peer rf.currentTerm A)
    (hle : args.prevLogIndex + args.entries.length ≤ A.length) :
    Matched W s (rf.matched peer args) where
  length_le := by
    simpa [Raft.matched] using h.length_le
  sound := by
    intro hlead j m hm
    change (rf.matchIndex.set peer _)[j.val]? = some m at hm
    by_cases hjp : j = peer
    · subst hjp
      rw [List.getElem?_set_self' ] at hm
      obtain ⟨_, _, rfl⟩ := Option.map_eq_some_iff.mp hm
      exact Or.inr ⟨A, hacked, hle⟩
    · have hne : peer.val ≠ j.val := fun heq ↦ hjp (Fin.ext heq.symm)
      rw [List.getElem?_set_ne hne] at hm
      exact h.sound hlead j m hm

/-- What the commit scan of a leader finds replicated is committed. -/
theorem commit (hsafe : SafeInv entryTerm W) (hmirrors : Mirrors W s rf)
    (h : Matched W s rf) (hme : rf.me = s)
    (hlead : W.leads s rf.currentTerm) {t : Fin n} (hother : t ≠ s) {N : ℤ}
    {count : ℕ} (hcount : rf.countReplicas N 0 rf.matchIndex = some count)
    (hmajority : count > n / 2) : KnownUpTo W s N := by
  rcases le_or_gt N 0 with hneg | hpos
  · exact Or.inl hneg
  have hlen := h.length_le
  obtain ⟨Q, hcard, hQ⟩ :=
    Raft.countReplicas_counted (by omega) hcount
  obtain ⟨q, hq, hqs⟩ : ∃ q ∈ Q, q ≠ s := by
    refine Finset.exists_mem_ne ?_ s
    have := s.isLt
    have := t.isLt
    have : t.val ≠ s.val := fun heq ↦ hother (Fin.ext heq)
    omega
  have hentry : ∃ e, elemAt rf.log (rf.v2pIndex N) = some e ∧
      e.logTerm = rf.currentTerm := by
    rcases ((hQ q).mp hq).1.2 with hself | ⟨m, e, _, _, he, hterm⟩
    · exact absurd (hself.trans hme) hqs
    · exact ⟨e, he, hterm⟩
  obtain ⟨e, he, hterm⟩ := hentry
  obtain ⟨_, hhigh, hread⟩ := hmirrors.memory.elemAt_term he
  have hcommit := hsafe.commit (N := N.toNat) (Q := Q) hlead hmirrors.term
    (by omega) (by omega) (hread.symm.trans hterm)
    (by
      unfold Majority
      rw [Fintype.card_fin, hcard]
      exact hmajority)
    (by
      intro g hg
      rcases ((hQ g).mp hg).1.2 with hself | ⟨m, _, hm, hNm, _⟩
      · exact Or.inl (hself.trans hme)
      · rcases h.sound hlead g m hm with hneg | ⟨A, hA, hle⟩
        · omega
        · exact Or.inr ⟨A, hA, by omega⟩)
  refine Or.inr ⟨_, Known.of_committed hsafe.base hcommit
    (List.take_prefix _ _), ?_⟩
  rw [List.length_take]
  omega

end Matched

end DistLabs
