import DistLabs.Raft.Bookkeeping

/-!
# The reads of the commit scan

The commit scan tries the indices from the end of the log down to
`CommitIndex + 1`, and reads the log at an index as soon as some other server's
match index reaches it.  It stops at the first index that it counts on a
majority.  Nothing stops it at `LastIncludedIndex`: a leader that was restarted
from a compacted log has `CommitIndex` zero, and if no entry above the sentinel
is counted on a majority, the scan goes on below the sentinel.
-/

namespace DistLabs

variable {n : ℕ} {Cmd : Type}

namespace Raft

/-- The scan reads the log at index `N`: the match index of some other server
reaches `N`. -/
def reads (rf : Raft n Cmd) (N : ℤ) : Bool :=
  rf.matchIndex.zipIdx.any fun (m, j) ↦ decide (j ≠ rf.me.val ∧ N ≤ m)

theorem reads_iff {rf : Raft n Cmd} {N : ℤ} :
    rf.reads N = true ↔
      ∃ j m, rf.matchIndex[j]? = some m ∧ j ≠ rf.me.val ∧ N ≤ m := by
  constructor
  · intro h
    obtain ⟨⟨m, j⟩, hmem, hread⟩ := List.any_eq_true.mp h
    exact ⟨j, m, List.mk_mem_zipIdx_iff_getElem?.mp hmem,
      of_decide_eq_true hread⟩
  · rintro ⟨j, m, hget, hread⟩
    exact List.any_eq_true.mpr ⟨(m, j),
      List.mk_mem_zipIdx_iff_getElem?.mpr hget, decide_eq_true hread⟩

/-- The scan goes on below index `N`, which it counts on no majority. -/
def passes (rf : Raft n Cmd) (N : ℤ) : Bool :=
  match rf.countReplicas N 0 rf.matchIndex with
  | none => false
  | some count => decide (count ≤ n / 2)

/-- The indices at which the commit scan reads the log, with `k` candidate
indices above `CommitIndex` left. -/
def scanned (rf : Raft n Cmd) : ℕ → List ℤ
  | 0 => []
  | k + 1 =>
      let N := rf.commitIndex + (k + 1 : ℕ)
      (if rf.reads N then [N] else []) ++
        if rf.passes N then rf.scanned k else []

/-- The read `Log[V2PIndex(N)]` is in range. -/
def InLog (rf : Raft n Cmd) (N : ℤ) : Prop :=
  0 ≤ rf.v2pIndex N ∧ rf.v2pIndex N < rf.log.length

/-- The servers that count as holding index `N`: the leader itself and those
whose match index reaches `N`. -/
def holders (rf : Raft n Cmd) (N : ℤ) : Finset (Fin n) :=
  Finset.univ.filter fun j ↦
    j = rf.me ∨ ∃ m ∈ rf.matchIndex[j.val]?, N ≤ m

/-- Raft's rule for committing index `N`: it is new, it lies in the log, its
entry is of the current term and more than half of the servers hold it. -/
structure Committable (rf : Raft n Cmd) (N : ℤ) : Prop where
  new : rf.commitIndex < N
  inLog : N ≤ rf.logLength - 1
  current : ∃ e, elemAt rf.log (rf.v2pIndex N) = some e ∧
    e.logTerm = rf.currentTerm
  majority : n / 2 < (rf.holders N).card

instance (rf : Raft n Cmd) (N : ℤ) : Decidable (rf.Committable N) :=
  decidable_of_iff (rf.commitIndex < N ∧ N ≤ rf.logLength - 1 ∧
      (∃ e ∈ elemAt rf.log (rf.v2pIndex N), e.logTerm = rf.currentTerm) ∧
      n / 2 < (rf.holders N).card)
    ⟨fun h ↦ ⟨h.1, h.2.1, h.2.2.1, h.2.2.2⟩,
      fun h ↦ ⟨h.new, h.inLog, h.current, h.majority⟩⟩

/-- The scan ends before it reads below the log: `CommitIndex` is not below the
sentinel, no match index of another server is above `CommitIndex`, or an index
from the sentinel on may be committed. -/
def ScanStops (rf : Raft n Cmd) : Prop :=
  rf.lastIncludedIndex ≤ rf.commitIndex + 1 ∨
  (∀ j m, rf.matchIndex[j]? = some m → j ≠ rf.me.val →
    m ≤ rf.commitIndex) ∨
  ∃ N, rf.lastIncludedIndex ≤ N ∧ rf.Committable N

/-! ## Counting one index -/

theorem inLog_iff {rf : Raft n Cmd} {N : ℤ} :
    rf.InLog N ↔ ∃ entry, elemAt rf.log (rf.v2pIndex N) = some entry := by
  rw [← Option.isSome_iff_exists, elemAt_isSome_iff]
  rfl

/-- The inner loop leaves the log exactly when it reads outside of it. -/
theorem countReplicas_eq_none_iff {rf : Raft n Cmd} {N : ℤ} {ms : List ℤ}
    {j : ℕ} :
    rf.countReplicas N j ms = none ↔
      elemAt rf.log (rf.v2pIndex N) = none ∧
        ∃ i m, ms[i]? = some m ∧ j + i ≠ rf.me.val ∧ N ≤ m := by
  induction ms generalizing j with
  | nil => simp [countReplicas]
  | cons m ms ih =>
      have hshift : (∃ i m', (m :: ms)[i]? = some m' ∧ j + i ≠ rf.me.val ∧
          N ≤ m') ↔ (j ≠ rf.me.val ∧ N ≤ m) ∨
          ∃ i m', ms[i]? = some m' ∧ j + 1 + i ≠ rf.me.val ∧ N ≤ m' := by
        constructor
        · rintro ⟨i, m', hget, hread⟩
          cases i with
          | zero =>
              obtain rfl : m = m' := by simpa using hget
              exact Or.inl (by simpa using hread)
          | succ i =>
              refine Or.inr ⟨i, m', by simpa using hget, ?_⟩
              rwa [Nat.add_assoc, Nat.add_comm 1 i]
        · rintro (hread | ⟨i, m', hget, hread⟩)
          · exact ⟨0, m, rfl, by simpa using hread⟩
          · refine ⟨i + 1, m', by simpa using hget, ?_⟩
            rwa [Nat.add_assoc, Nat.add_comm 1 i] at hread
      rw [hshift]
      unfold countReplicas
      split
      · next hnone =>
          obtain ⟨hout, hread⟩ := ih.mp hnone
          exact ⟨fun _ ↦ ⟨hout, Or.inr hread⟩, fun _ ↦ rfl⟩
      · next count hcount =>
          have htail : ¬ (elemAt rf.log (rf.v2pIndex N) = none ∧
              ∃ i m', ms[i]? = some m' ∧ j + 1 + i ≠ rf.me.val ∧
                N ≤ m') := by
            intro h
            rw [ih.mpr h] at hcount
            cases hcount
          split
          · next hme =>
              refine ⟨fun h ↦ (by cases h), ?_⟩
              rintro ⟨hout, ⟨hne, _⟩ | hread⟩
              · exact absurd hme hne
              · exact absurd ⟨hout, hread⟩ htail
          · next hme =>
              split
              · next hle =>
                  split
                  · next hout =>
                      exact ⟨fun _ ↦ ⟨hout, Or.inl ⟨hme, hle⟩⟩, fun _ ↦ rfl⟩
                  · next entry hentry =>
                      split <;> simp [hentry]
              · next hlt =>
                  refine ⟨fun h ↦ (by cases h), ?_⟩
                  rintro ⟨hout, ⟨_, hle⟩ | hread⟩
                  · exact absurd hle hlt
                  · exact absurd ⟨hout, hread⟩ htail

/-- An index that is not read is counted on the leader alone. -/
theorem countReplicas_le_one {rf : Raft n Cmd} {N : ℤ} {ms : List ℤ}
    {j count : ℕ}
    (hread : ∀ i m, ms[i]? = some m → j + i ≠ rf.me.val → m < N)
    (h : rf.countReplicas N j ms = some count) :
    count ≤ if j ≤ rf.me.val then 1 else 0 := by
  induction ms generalizing j count with
  | nil =>
      cases h
      exact Nat.zero_le _
  | cons m ms ih =>
      unfold countReplicas at h
      split at h
      · cases h
      · next rest hrest =>
          have htail := ih (fun i m' hget hne ↦ hread (i + 1) m'
            (by simpa using hget) (by omega)) hrest
          have hhead := hread 0 m rfl
          split at h
          · next hme =>
              cases h
              split_ifs at htail ⊢ <;> omega
          · next hme =>
              split at h
              · next hle =>
                  have := hhead (by simpa using hme)
                  omega
              · cases h
                split_ifs at htail ⊢ <;> omega

theorem mem_holders {rf : Raft n Cmd} {N : ℤ} {j : Fin n} :
    j ∈ rf.holders N ↔
      j = rf.me ∨ ∃ m, rf.matchIndex[j.val]? = some m ∧ N ≤ m := by
  simp [holders]

/-- An index that is counted on a majority is one of the current term that a
majority holds, and conversely. -/
theorem countReplicas_majority {rf : Raft n Cmd} (hn : 2 ≤ n)
    (hmatch : rf.matchIndex.length = n) {N : ℤ} {e : LogEntry Cmd}
    (hentry : elemAt rf.log (rf.v2pIndex N) = some e) :
    ∃ count, rf.countReplicas N 0 rf.matchIndex = some count ∧
      (count > n / 2 ↔
        e.logTerm = rf.currentTerm ∧ n / 2 < (rf.holders N).card) := by
  cases hcount : rf.countReplicas N 0 rf.matchIndex with
  | none =>
      have hnone := (countReplicas_eq_none_iff.mp hcount).1
      rw [hentry] at hnone
      cases hnone
  | some count =>
      refine ⟨count, rfl, ?_⟩
      obtain ⟨Q, rfl, hQ⟩ := countReplicas_counted (by omega) hcount
      by_cases hterm : e.logTerm = rf.currentTerm
      · have hsame : Q = rf.holders N := by
          ext q
          have hlt : q.val < 0 + rf.matchIndex.length := by
            have := q.isLt
            omega
          rw [hQ, mem_holders, and_iff_left hlt]
          constructor
          · rintro ⟨_, heq | ⟨m, _, hm, hle, _⟩⟩
            · exact Or.inl heq
            · exact Or.inr ⟨m, hm, hle⟩
          · rintro (heq | ⟨m, hm, hle⟩)
            · exact ⟨Nat.zero_le _, Or.inl heq⟩
            · exact ⟨Nat.zero_le _, Or.inr ⟨m, e, hm, hle, hentry, hterm⟩⟩
        rw [hsame]
        exact ⟨fun h ↦ ⟨hterm, h⟩, And.right⟩
      · have hone : Q ⊆ {rf.me} := by
          intro q hq
          rcases ((hQ q).mp hq).1.2 with heq | ⟨_, e', _, _, he', hterm'⟩
          · exact Finset.mem_singleton.mpr heq
          · rw [Option.some.inj (hentry.symm.trans he')] at hterm
            exact absurd hterm' hterm
        have hcard := Finset.card_le_card hone
        rw [Finset.card_singleton] at hcard
        refine ⟨fun h ↦ ?_, fun h ↦ absurd h.1 hterm⟩
        omega

theorem passes_iff {rf : Raft n Cmd} {N : ℤ} :
    rf.passes N = true ↔ ∃ count,
      rf.countReplicas N 0 rf.matchIndex = some count ∧ count ≤ n / 2 := by
  unfold passes
  split
  · next hnone => simp [hnone]
  · next count hcount => simp [hcount]

/-- An index that is not read does not stop the scan. -/
theorem passes_of_not_reads {rf : Raft n Cmd} (hn : 2 ≤ n) {N : ℤ}
    (h : rf.reads N = false) : rf.passes N = true := by
  have hnone : ∀ j m, rf.matchIndex[j]? = some m →
      0 + j ≠ rf.me.val → m < N := by
    intro j m hget hne
    by_contra hle
    rw [reads_iff.mpr ⟨j, m, hget, by simpa using hne, not_lt.mp hle⟩] at h
    cases h
  cases hsome : rf.countReplicas N 0 rf.matchIndex with
  | none =>
      obtain ⟨_, j, m, hget, hne, hle⟩ := countReplicas_eq_none_iff.mp hsome
      exact absurd hle (not_le.mpr (hnone j m hget hne))
  | some count =>
      have hone := countReplicas_le_one hnone hsome
      simp only [Nat.zero_le, if_true] at hone
      exact passes_iff.mpr ⟨count, hsome, by omega⟩

/-! ## The whole scan -/

theorem mem_scanned_succ {rf : Raft n Cmd} {k : ℕ} {N : ℤ} :
    N ∈ rf.scanned (k + 1) ↔
      (N = rf.commitIndex + (k + 1 : ℕ) ∧ rf.reads N = true) ∨
      (rf.passes (rf.commitIndex + (k + 1 : ℕ)) = true ∧
        N ∈ rf.scanned k) := by
  rw [scanned, List.mem_append]
  refine or_congr ?_ ?_
  · split
    · next hread =>
        rw [List.mem_singleton]
        exact ⟨fun h ↦ ⟨h, by rwa [h]⟩, And.left⟩
    · next hread =>
        refine ⟨fun h ↦ (nomatch h), ?_⟩
        rintro ⟨rfl, h⟩
        exact absurd h hread
  · split
    · next hpass => exact ⟨fun h ↦ ⟨hpass, h⟩, And.right⟩
    · next hpass => exact ⟨fun h ↦ (nomatch h), fun h ↦ absurd h.1 hpass⟩

theorem mem_scanned {rf : Raft n Cmd} {k : ℕ} {N : ℤ}
    (h : N ∈ rf.scanned k) :
    rf.commitIndex < N ∧ N ≤ rf.commitIndex + k ∧ rf.reads N = true := by
  induction k with
  | zero => cases h
  | succ k ih =>
      rcases mem_scanned_succ.mp h with ⟨rfl, hread⟩ | ⟨_, hrest⟩
      · exact ⟨by omega, le_rfl, hread⟩
      · obtain ⟨hlow, hhigh, hread⟩ := ih hrest
        exact ⟨hlow, by omega, hread⟩

/-- The scan does not go below an index that it counts on a majority. -/
theorem le_of_mem_scanned {rf : Raft n Cmd} {k : ℕ} {M N : ℤ}
    (hM : rf.passes M = false) (hle : M ≤ rf.commitIndex + k)
    (h : N ∈ rf.scanned k) : M ≤ N := by
  induction k with
  | zero => cases h
  | succ k ih =>
      rcases mem_scanned_succ.mp h with ⟨rfl, _⟩ | ⟨hpass, hrest⟩
      · exact hle
      · have hne : M ≠ rf.commitIndex + (k + 1 : ℕ) := by
          rintro rfl
          rw [hpass] at hM
          cases hM
        exact ih (by omega) hrest

/-- A scan that stays in the log, and that no index from the sentinel on stops,
reads nothing below the sentinel. -/
theorem not_reads_of_scanned {rf : Raft n Cmd} (hn : 2 ≤ n) {k : ℕ}
    (hinLog : ∀ N ∈ rf.scanned k, rf.InLog N)
    (hpass : ∀ N, rf.lastIncludedIndex ≤ N → rf.commitIndex < N →
      N ≤ rf.commitIndex + k → rf.passes N = true)
    {N : ℤ} (hlow : rf.commitIndex < N) (hhigh : N ≤ rf.commitIndex + k)
    (hbelow : N < rf.lastIncludedIndex) : rf.reads N = false := by
  induction k with
  | zero => omega
  | succ k ih =>
      set M := rf.commitIndex + (k + 1 : ℕ) with hM
      have hunread : M < rf.lastIncludedIndex → rf.reads M = false := by
        intro hlt
        by_contra hread
        have hmem := hinLog M
          (mem_scanned_succ.mpr (Or.inl ⟨rfl, by simpa using hread⟩))
        unfold InLog v2pIndex at hmem
        omega
      have hgoes : rf.passes M = true := by
        by_cases hsentinel : rf.lastIncludedIndex ≤ M
        · exact hpass M hsentinel (by omega) le_rfl
        · exact passes_of_not_reads hn (hunread (by omega))
      by_cases hlast : N = M
      · rw [hlast]
        exact hunread (by omega)
      · exact ih
          (fun N hmem ↦ hinLog N (mem_scanned_succ.mpr (Or.inr ⟨hgoes, hmem⟩)))
          (fun N hle hlt hup ↦ hpass N hle hlt (by omega)) (by omega)

/-- The commit scan stays in the log exactly when it ends before the
sentinel. -/
theorem scanned_inLog_iff {rf : Raft n Cmd} (hn : 2 ≤ n)
    (hmatch : rf.matchIndex.length = n) (hpos : 1 ≤ rf.log.length)
    (hlen : rf.logLength = rf.lastIncludedIndex + rf.log.length) :
    (∀ N ∈ rf.scanned (rf.logLength - 1 - rf.commitIndex).toNat,
      rf.InLog N) ↔ rf.ScanStops := by
  have hinLog : ∀ {N}, rf.lastIncludedIndex ≤ N → N ≤ rf.logLength - 1 →
      rf.InLog N := by
    intro N hlow hhigh
    unfold InLog v2pIndex
    omega
  constructor
  · intro hall
    by_contra hstops
    unfold ScanStops at hstops
    push Not at hstops
    obtain ⟨hsentinel, ⟨j, m, hget, hne, hm⟩, hfew⟩ := hstops
    have hpass : ∀ N, rf.lastIncludedIndex ≤ N → rf.commitIndex < N →
        N ≤ rf.commitIndex + (rf.logLength - 1 - rf.commitIndex).toNat →
        rf.passes N = true := by
      intro N hle hlt hup
      have hup' : N ≤ rf.logLength - 1 := by omega
      obtain ⟨entry, hentry⟩ := inLog_iff.mp (hinLog hle hup')
      obtain ⟨count, hcount, hiff⟩ := countReplicas_majority hn hmatch hentry
      refine passes_iff.mpr ⟨count, hcount, not_lt.mp fun hmajority ↦ ?_⟩
      obtain ⟨hterm, hheld⟩ := hiff.mp hmajority
      exact hfew N hle ⟨hlt, hup', ⟨entry, hentry, hterm⟩, hheld⟩
    have hread := not_reads_of_scanned hn hall hpass
      (N := rf.commitIndex + 1) (by omega) (by omega) hsentinel
    rw [reads_iff.mpr ⟨j, m, hget, hne, by omega⟩] at hread
    cases hread
  · intro hstops N hmem
    obtain ⟨hlow, hhigh, hread⟩ := mem_scanned hmem
    refine hinLog ?_ (by omega)
    rcases hstops with hle | hnone | ⟨M, hM, hcommittable⟩
    · omega
    · obtain ⟨j, m, hget, hne, hm⟩ := reads_iff.mp hread
      have := hnone j m hget hne
      omega
    · obtain ⟨hMlow, hMhigh, ⟨entry, hentry, hterm⟩, hheld⟩ := hcommittable
      obtain ⟨count, hcount, hiff⟩ := countReplicas_majority hn hmatch hentry
      have hmajority : count > n / 2 := hiff.mpr ⟨hterm, hheld⟩
      have hstop : rf.passes M = false := by
        simp [passes, hcount, hmajority]
      exact le_trans hM (le_of_mem_scanned hstop (by omega) hmem)

/-- The scan returns exactly when all its reads are in range. -/
theorem commitScan_done_iff {rf : Raft n Cmd} {k : ℕ} :
    (∃ rf', rf.commitScan k = .done rf' ()) ↔
      ∀ N ∈ rf.scanned k, rf.InLog N := by
  induction k with
  | zero => simp [commitScan, scanned]
  | succ k ih =>
      have hout : rf.countReplicas (rf.commitIndex + (k + 1 : ℕ)) 0
          rf.matchIndex = none ↔
          elemAt rf.log (rf.v2pIndex (rf.commitIndex + (k + 1 : ℕ))) = none ∧
            rf.reads (rf.commitIndex + (k + 1 : ℕ)) = true := by
        rw [countReplicas_eq_none_iff, reads_iff]
        simp only [Nat.zero_add]
      have hhere : rf.countReplicas (rf.commitIndex + (k + 1 : ℕ)) 0
          rf.matchIndex ≠ none →
          ∀ N, N = rf.commitIndex + (k + 1 : ℕ) ∧ rf.reads N = true →
            rf.InLog N := by
        rintro hsome N ⟨rfl, hread⟩
        rw [inLog_iff]
        by_contra hnone
        push Not at hnone
        exact hsome (hout.mpr ⟨Option.eq_none_iff_forall_ne_some.mpr hnone,
          hread⟩)
      constructor
      · rintro ⟨rf', hdone⟩ N hmem
        unfold commitScan at hdone
        dsimp only at hdone
        split at hdone
        · cases hdone
        · next count hcount =>
            rcases mem_scanned_succ.mp hmem with hfirst | ⟨hpass, hrest⟩
            · exact hhere (by rw [hcount]; exact Option.some_ne_none _) N
                hfirst
            · obtain ⟨count', hcount', hfew⟩ := passes_iff.mp hpass
              obtain rfl := Option.some.inj (hcount.symm.trans hcount')
              rw [if_neg (not_lt.mpr hfew)] at hdone
              exact ih.mp ⟨rf', hdone⟩ N hrest
      · intro hall
        unfold commitScan
        dsimp only
        split
        · next hnone =>
            obtain ⟨hnone, hread⟩ := hout.mp hnone
            obtain ⟨entry, hentry⟩ := inLog_iff.mp
              (hall _ (mem_scanned_succ.mpr (Or.inl ⟨rfl, hread⟩)))
            rw [hnone] at hentry
            cases hentry
        · next count hcount =>
            split
            · exact ⟨_, rfl⟩
            · next hfew =>
                have hpass := passes_iff.mpr ⟨count, hcount, not_lt.mp hfew⟩
                exact ih.mpr fun N hrest ↦ hall N
                  (mem_scanned_succ.mpr (Or.inr ⟨hpass, hrest⟩))

theorem recordSuccess_eq {rf : Raft n Cmd} {peer : Fin n}
    {args : AppendEntriesArgs n Cmd} (hmatch : rf.matchIndex.length = n)
    (hnext : peer.val < rf.nextIndex.length) :
    rf.recordSuccess peer args =
      if args.entries.length ≠ 0 then
        (rf.matched peer args).commitScan
          (rf.logLength - 1 - rf.commitIndex).toNat
      else .done (rf.matched peer args) () := by
  unfold recordSuccess
  rw [if_pos ⟨hmatch.symm ▸ peer.isLt, hnext⟩]
  rfl

/-- Recording a successful reply fails only in the commit scan, which follows
when the request had entries. -/
theorem recordSuccess_done_iff {rf : Raft n Cmd} {peer : Fin n}
    {args : AppendEntriesArgs n Cmd} (hn : 2 ≤ n)
    (hmatch : rf.matchIndex.length = n) (hnext : peer.val < rf.nextIndex.length)
    (hpos : 1 ≤ rf.log.length)
    (hlen : rf.logLength = rf.lastIncludedIndex + rf.log.length) :
    (∃ rf', rf.recordSuccess peer args = .done rf' ()) ↔
      (args.entries ≠ [] → (rf.matched peer args).ScanStops) := by
  rw [recordSuccess_eq hmatch hnext]
  by_cases hentries : args.entries = []
  · simp [hentries]
  · have hlength : args.entries.length ≠ 0 := by simpa using hentries
    have hmatch' : (rf.matched peer args).matchIndex.length = n := by
      rw [matched, List.length_set, hmatch]
    rw [if_pos hlength]
    refine Iff.trans ?_ (imp_iff_right hentries).symm
    exact commitScan_done_iff.trans (scanned_inLog_iff hn hmatch' hpos hlen)

/-- `SendHeartbeat` returns from a successful reply exactly when recording it
does. -/
theorem sendHeartbeat_done_iff {rf : Raft n Cmd} {peer : Fin n}
    {args : AppendEntriesArgs n Cmd} {reply : AppendEntriesReply}
    (hterm : rf.currentTerm = args.term) (hreply : reply.term ≤ args.term)
    (hsuccess : reply.success = true) :
    (∃ rf' snap, rf.sendHeartbeat peer args reply = .done rf' snap) ↔
      ∃ rf', rf.recordSuccess peer args = .done rf' () := by
  unfold sendHeartbeat
  rw [if_neg (not_not.mpr hterm), if_neg (not_lt.mpr hreply),
    if_pos hsuccess]
  cases rf.recordSuccess peer args with
  | done rf' => exact ⟨fun _ ↦ ⟨rf', rfl⟩, fun _ ↦ ⟨rf', none, rfl⟩⟩
  | panic rf' =>
      constructor
      · rintro ⟨_, _, h⟩
        cases h
      · rintro ⟨_, h⟩
        cases h

end Raft

namespace Cluster

variable [Zero Cmd] {σ : Cluster n Cmd}

/-- Whenever `SendHeartbeat` processes the reply to an accepted request with
entries in the current term, the reads of the commit scan are all in range
exactly when the scan ends before the sentinel, and this is also when the
section returns. -/
theorem commit_scan_inRange {visited : List (Cluster n Cmd)}
    (hrun : Run step (fun _ _ ↦ True) init visited σ)
    {call : AppendCall n Cmd} {reply : AppendEntriesReply}
    (hcall : call ∈ σ.appendCalls)
    (hresumes : σ.Resumes call.caller call.incarnation)
    (hterm : (σ.server call.caller).rf.currentTerm = call.args.term)
    (hreply : reply.term ≤ call.args.term) (hsuccess : reply.success = true)
    (hentries : call.args.entries ≠ []) {rf : Raft n Cmd}
    (hrf : rf = (σ.server call.caller).rf.matched call.peer call.args) :
    ((∀ N ∈ rf.scanned (rf.logLength - 1 - rf.commitIndex).toNat,
      0 ≤ rf.v2pIndex N ∧ rf.v2pIndex N < rf.log.length) ↔
        rf.ScanStops) ∧
    ((∃ rf' snap, (σ.server call.caller).rf.sendHeartbeat call.peer call.args
      reply = .done rf' snap) ↔ rf.ScanStops) := by
  have hn : 2 ≤ n := by
    have hne := peer_ne_caller hrun hcall
    have hpeer := call.peer.isLt
    have hcaller := call.caller.isLt
    have hval : call.peer.val ≠ call.caller.val := fun h ↦ hne (Fin.ext h)
    omega
  subst hrf
  have hrep := (ordered_of_run hrun).servers call.caller
  have hindexed := indexed_of_run hrun
  have hfilled := (hindexed.calls call hcall).2 hresumes.2.symm
  have hmatch : (σ.server call.caller).rf.matchIndex.length = n :=
    le_antisymm (hindexed.atMost call.caller) hfilled.matched
  refine ⟨Raft.scanned_inLog_iff hn ?_ hrep.ordered.length_pos hrep.length, ?_⟩
  · rw [Raft.matched, List.length_set, hmatch]
  · rw [Raft.sendHeartbeat_done_iff hterm hreply hsuccess,
      Raft.recordSuccess_done_iff hn hmatch
        (lt_of_lt_of_le call.peer.isLt hfilled.next)
        hrep.ordered.length_pos hrep.length]
    exact imp_iff_right hentries

/-- Server 0 commits two commands of term 1, compacts both, is restarted and
wins term 2. -/
def recoveringRun : List (Action ℕ 3) :=
  committingRun ++ [.apply 0, .receive 0 0, .apply 0, .receive 0 0, .start 0 7,
    .snapshot 0 2 [2], .restart 0] ++ winning 0 2 ++ [.deliverAppend 4,
    .replyAppend 4]

/-- A command of term 2 reaches server 1 together with the command of term 1
that was not committed before the crash. -/
def recommittingRun : List (Action ℕ 3) :=
  recoveringRun ++ [.start 0 8, .heartbeat 0, .deliverAppend 6]

/-- The scan of the restarted leader stops at the command of its term. -/
theorem commit_scan_inRange_restarted :
    ∃ (visited : List (Cluster 3 ℕ)) (σ : Cluster 3 ℕ),
      Run step (fun _ _ ↦ True) init visited σ ∧
      ∃ call ∈ σ.appendCalls[6]?, ∃ reply ∈ call.phase.reply,
        (call.caller = 0 ∧ (σ.server 0).rf.lastIncludedIndex = 2 ∧
          (σ.server 0).rf.commitIndex = 0) ∧
        ∃ rf' snap, (σ.server call.caller).rf.sendHeartbeat call.peer
          call.args reply = .done rf' snap := by
  obtain ⟨visited, σ, hrun, call, hcall, reply, hreplied, hresumes, hterm,
    hreply, hsuccess, hentries, hindices, hcommittable⟩ :=
    Run.exists_of_exec step (fun _ _ ↦ True) init recommittingRun
      (fun σ : Cluster 3 ℕ ↦ ∃ call ∈ σ.appendCalls[6]?,
        ∃ reply ∈ call.phase.reply,
        σ.Resumes call.caller call.incarnation ∧
        (σ.server call.caller).rf.currentTerm = call.args.term ∧
        reply.term ≤ call.args.term ∧ reply.success = true ∧
        call.args.entries ≠ [] ∧
        (call.caller = 0 ∧ (σ.server 0).rf.lastIncludedIndex = 2 ∧
          (σ.server 0).rf.commitIndex = 0) ∧
        ((σ.server 0).rf.matched call.peer call.args).Committable 4)
      (by decide +kernel)
  refine ⟨visited, σ, hrun, call, hcall, reply, hreplied, hindices, ?_⟩
  obtain ⟨hcaller, hincluded, _⟩ := hindices
  refine (commit_scan_inRange hrun (List.mem_of_getElem? hcall) hresumes hterm
    hreply hsuccess hentries rfl).2.mpr ?_
  rw [hcaller]
  exact Or.inr (Or.inr ⟨4, by simp [Raft.matched, hincluded], hcommittable⟩)

/-- Only the command of term 1 reaches server 1. -/
def overscanningRun : List (Action ℕ 3) :=
  recoveringRun ++ [.heartbeat 0, .deliverAppend 6]

/-- A restarted leader that has no entry of its term to commit reads below its
sentinel and stops. -/
theorem commit_scan_outOfRange :
    ∃ (visited : List (Cluster 3 ℕ)) (σ : Cluster 3 ℕ),
      Run step (fun _ _ ↦ True) init visited σ ∧
      (∃ call ∈ σ.appendCalls[6]?, ∃ reply ∈ call.phase.reply,
        call.caller = 0 ∧
        (σ.server 0).rf.currentTerm = call.args.term ∧
        reply.term ≤ call.args.term ∧ reply.success = true ∧
        call.args.entries ≠ [] ∧ (σ.server 0).rf.lastIncludedIndex = 2 ∧
        (σ.server 0).rf.commitIndex = 0 ∧
        1 ∈ ((σ.server 0).rf.matched call.peer call.args).scanned 3 ∧
        (σ.server 0).rf.logLength - 1 - (σ.server 0).rf.commitIndex = 3 ∧
        (σ.server 0).rf.v2pIndex 1 = -1) ∧
      (σ.server 0).alive ∧
      ∃ σ' ∈ σ.step (.replyAppend 6), (σ'.server 0).alive = false := by
  exact Run.exists_of_exec step (fun _ _ ↦ True) init overscanningRun
    (fun σ : Cluster 3 ℕ ↦
      (∃ call ∈ σ.appendCalls[6]?, ∃ reply ∈ call.phase.reply,
        call.caller = 0 ∧
        (σ.server 0).rf.currentTerm = call.args.term ∧
        reply.term ≤ call.args.term ∧ reply.success = true ∧
        call.args.entries ≠ [] ∧ (σ.server 0).rf.lastIncludedIndex = 2 ∧
        (σ.server 0).rf.commitIndex = 0 ∧
        1 ∈ ((σ.server 0).rf.matched call.peer call.args).scanned 3 ∧
        (σ.server 0).rf.logLength - 1 - (σ.server 0).rf.commitIndex = 3 ∧
        (σ.server 0).rf.v2pIndex 1 = -1) ∧
      (σ.server 0).alive ∧
      ∃ σ' ∈ σ.step (.replyAppend 6), (σ'.server 0).alive = false)
    (by decide +kernel)

end Cluster

end DistLabs
