import DistLabs.Porcupine.CheckSingle
import DistLabs.Porcupine.Parallel
import DistLabs.Support.Run
import Mathlib.Algebra.Order.BigOperators.Group.Finset

/-!
# What the parallel checker returns

In every interleaving of the goroutines, the timer and the receiving loop, what
`checkParallel` returns is right.  It returns after a bounded number of steps,
unless there is nothing to wait for.
-/

namespace DistLabs.Porcupine

open Linearizability

variable {St I O : Type}

/-! ## What is known in every state -/

/-- What the result of a goroutine says about its partition; a result of a
goroutine that was asked to stop may say nothing. -/
structure Verdict (m : SequentialModel St I O) (computeInfo kill : Bool)
    (h : List (HistoryEvent ℕ I O)) (ok : Bool) (longest : Longest) :
    Prop where
  yes : ok = true → Linearizable m h
  no : ok = false → kill = false → ¬ Linearizable m h
  partials : computeInfo = true → kill = false → LongestPartials m h longest

theorem Verdict.mono {m : SequentialModel St I O}
    {computeInfo kill kill' : Bool} {h : List (HistoryEvent ℕ I O)} {ok : Bool}
    {longest : Longest}
    (hv : Verdict m computeInfo kill h ok longest)
    (hkill : kill' = false → kill = false) :
    Verdict m computeInfo kill' h ok longest where
  yes := hv.yes
  no := fun hok hk ↦ hv.no hok (hkill hk)
  partials := fun hinfo hk ↦ hv.partials hinfo (hkill hk)

/-- A goroutine is in step with a search, or its result is right.  It takes at
most `b` more steps. -/
def Worker.Sound (model : FullModel St I O) (computeInfo kill : Bool)
    (entries : List (Entry I O)) (b : ℕ) : Worker St I O → Prop
  | .running σ => ∃ s, InStep model computeInfo (eventsOf entries) σ s ∧
      SearchProblem.measure (fun c ↦ (remaining (eventsOf entries)
        c.ids).length) (eventsOf entries).length s + 2 ≤ b
  | .checked ok longest => Verdict model.toSequentialModel computeInfo kill
      (eventsOf entries) ok longest ∧ 1 ≤ b
  | .sent ok longest => Verdict model.toSequentialModel computeInfo kill
      (eventsOf entries) ok longest

theorem Worker.Sound.mono {model : FullModel St I O}
    {computeInfo kill kill' : Bool} {entries : List (Entry I O)} {b : ℕ}
    {w : Worker St I O} (hw : w.Sound model computeInfo kill entries b)
    (hkill : kill' = false → kill = false) :
    w.Sound model computeInfo kill' entries b := by
  cases w with
  | running σ => exact hw
  | checked ok longest => exact ⟨hw.1.mono hkill, hw.2⟩
  | sent ok longest => exact Verdict.mono hw hkill

/-- A goroutine after a round of its loop. -/
def Worker.next : Round St I O → Worker St I O
  | .running σ => .running σ
  | .finished ok longest => .checked ok longest

/-- A round does not panic and keeps the goroutine sound. -/
theorem Worker.Sound.round {model : FullModel St I O} {computeInfo kill : Bool}
    {entries : List (Entry I O)} {b : ℕ} {σ : CheckState St I O}
    (hequal : model.EqualSound) (henc : Encodes entries (eventsOf entries))
    (hsound : (Worker.running σ).Sound model computeInfo kill entries b) :
    ∃ r, checkRound model computeInfo entries.length kill σ = some r ∧
      ∃ b' < b, (Worker.next r).Sound model computeInfo kill entries b' := by
  obtain ⟨s, hin, hle⟩ := hsound
  rw [henc.length_eq]
  rcases hin.round henc kill with ⟨hgoal, hround⟩ | ⟨hgoal, hwhy, hround⟩ |
    ⟨σ', s', hstep, hround, hin'⟩
  · refine ⟨_, hround, 1, by omega, ⟨fun _ ↦ ?_, fun hfalse ↦ ?_,
      fun _ _ ↦ hin.longest_of_goal henc hgoal⟩, le_rfl⟩
    · exact (linearizable_iff_goal model.equal henc.complete).mpr
        ⟨s.node, hin.explored.reached _ List.mem_cons_self, hgoal⟩
    · cases hfalse
  · refine ⟨_, hround, 1, by omega, ⟨fun hfalse ↦ ?_, fun _ hkill hlin ↦ ?_,
      fun hinfo hkill ↦ ?_⟩, le_rfl⟩
    · cases hfalse
    · have hstep := hwhy.resolve_left (by simp [hkill])
      obtain ⟨c, hreach, hc⟩ := (linearizable_iff_goal model.equal
        henc.complete).mp hlin
      cases (hin.explored.no_goal (simulates_linearizationSearch hequal) hgoal
        hstep hreach).symm.trans hc
    · subst hinfo
      exact hin.longest_of_exhausted hequal henc hgoal
        (hwhy.resolve_left (by simp [hkill]))
  · have hless := SearchProblem.measure_step
      (bounded_linearizationSearch _ _ _) hin.explored hstep
    exact ⟨_, hround, _, lt_of_lt_of_le (Nat.add_lt_add_right hless 2) hle,
      s', hin', le_rfl⟩

/-- One for a goroutine that has sent its result. -/
def Worker.sentCount : Worker St I O → ℕ
  | .sent _ _ => 1
  | _ => 0

/-- One for a goroutine that has sent that its partition is not ok. -/
def Worker.failCount : Worker St I O → ℕ
  | .sent false _ => 1
  | _ => 0

section Total

variable {β : Type*} {n i : ℕ}

/-- The sum over all goroutines. -/
def total (n : ℕ) (f : β → ℕ) (w : ℕ → β) : ℕ :=
  ∑ i ∈ Finset.range n, f (w i)

theorem total_update (hi : i < n) (f : β → ℕ) (w : ℕ → β) (x : β) :
    total n f (Function.update w i x) + f (w i) = total n f w + f x := by
  have hmem := Finset.mem_range.mpr hi
  have hrest : ∑ j ∈ (Finset.range n).erase i, f (Function.update w i x j) =
      ∑ j ∈ (Finset.range n).erase i, f (w j) := by
    refine Finset.sum_congr rfl fun j hj ↦ ?_
    rw [Function.update_of_ne (Finset.ne_of_mem_erase hj)]
  unfold total
  rw [← Finset.add_sum_erase _ _ hmem, ← Finset.add_sum_erase _ _ hmem, hrest,
    Function.update_self]
  omega

theorem exists_of_total_pos {f : β → ℕ} {w : ℕ → β} (h : 0 < total n f w) :
    ∃ i < n, 0 < f (w i) := by
  by_contra hnone
  have hzero : total n f w = 0 := by
    refine Finset.sum_eq_zero fun i hi ↦ ?_
    by_contra hne
    exact hnone ⟨i, Finset.mem_range.mp hi, Nat.pos_of_ne_zero hne⟩
  omega

theorem eq_zero_of_total {f : β → ℕ} {w : ℕ → β} (h : total n f w = 0)
    (hi : i < n) : f (w i) = 0 :=
  Finset.sum_eq_zero_iff.mp h i (Finset.mem_range.mpr hi)

theorem total_le {f : β → ℕ} {w : ℕ → β} (hle : ∀ x, f x ≤ 1) :
    total n f w ≤ n := by
  calc
    total n f w ≤ ∑ _i ∈ Finset.range n, 1 :=
      Finset.sum_le_sum fun _ _ ↦ hle _
    _ = n := by simp

/-- If all of them could count at most one and the sum is `n`, each counts. -/
theorem eq_one_of_total {f : β → ℕ} {w : ℕ → β} (hle : ∀ x, f x ≤ 1)
    (h : n ≤ total n f w) (hi : i < n) : f (w i) = 1 := by
  by_contra hne
  have hzero : f (w i) = 0 := by
    have := hle (w i)
    omega
  have hlt : total n f w < ∑ _i ∈ Finset.range n, 1 :=
    Finset.sum_lt_sum (fun _ _ ↦ hle _)
      ⟨i, Finset.mem_range.mpr hi, by omega⟩
  simp at hlt
  omega

end Total

theorem Worker.sentCount_le (w : Worker St I O) : w.sentCount ≤ 1 := by
  cases w <;> simp [Worker.sentCount]

theorem Worker.eq_sent {w : Worker St I O} (h : w.sentCount = 1) :
    ∃ ok longest, w = .sent ok longest := by
  cases w with
  | running σ => cases h
  | checked ok longest => cases h
  | sent ok longest => exact ⟨ok, longest, rfl⟩

theorem Worker.eq_sent_false {w : Worker St I O} (h : 0 < w.failCount) :
    ∃ longest, w = .sent false longest := by
  cases w with
  | running σ => cases h
  | checked ok longest => cases h
  | sent ok longest =>
      cases ok with
      | true => cases h
      | false => exact ⟨longest, rfl⟩

/-- Partial linearizations such that every other one is matched by one of them
that contains a given operation and is not shorter. -/
structure PartialsRight (m : SequentialModel St I O)
    (h : List (HistoryEvent ℕ I O)) (partials : List (List ℕ)) : Prop where
  sound : ∀ seq ∈ partials, ∃ ops st, PartialLinearization m h ops st ∧
    ops.map Operation.id = seq
  maximal : ∀ ops st, PartialLinearization m h ops st →
    ∀ i ∈ ops.map Operation.id, ∃ seq ∈ partials, i ∈ seq ∧
      ops.length ≤ seq.length

theorem LongestPartials.partialsRight {m : SequentialModel St I O}
    {h : List (HistoryEvent ℕ I O)} {longest : Longest}
    (hl : LongestPartials m h longest) :
    PartialsRight m h (uniqueLinearizations longest) := by
  have hmem : ∀ seq, seq ∈ uniqueLinearizations longest ↔
      ∃ i : ℕ, longest[i]? = some (some seq) := by
    intro seq
    rw [uniqueLinearizations, List.mem_dedup, List.mem_filterMap]
    constructor
    · rintro ⟨entry, hentry, rfl⟩
      exact List.mem_iff_getElem?.mp hentry
    · rintro ⟨i, hi⟩
      exact ⟨some seq, List.mem_of_getElem? hi, rfl⟩
  constructor
  · intro seq hseq
    obtain ⟨i, hi⟩ := (hmem seq).mp hseq
    exact (hl.sound i seq hi).2
  · intro ops st hops i hi
    obtain ⟨seq, hseq, hle⟩ := hl.maximal ops st hops i hi
    exact ⟨seq, (hmem seq).mpr ⟨i, hseq⟩, (hl.sound i seq hseq).1, hle⟩

namespace ParallelCall

variable (call : ParallelCall St I O)

def AllLinearizable : Prop :=
  ∀ entries ∈ call.history,
    Linearizable call.model.toSequentialModel (eventsOf entries)

/-- The info has the right partial linearizations of every partition. -/
def InfoRight (info : LinearizationInfo I O) : Prop :=
  info.history = call.history ∧ ∀ (i : ℕ) entries,
    call.history[i]? = some entries → ∃ partials,
      info.partialLinearizations[i]? = some partials ∧
      PartialsRight call.model.toSequentialModel (eventsOf entries) partials

/-- In the loop: `sent` goroutines have sent their results, `fails` of them
that their partition is not ok. -/
structure Collecting (count : ℕ) (ok kill : Bool) (results : List Bool)
    (sent fails : ℕ) : Prop where
  alive : kill = false
  no : ok = false → ¬ call.AllLinearizable
  missing : 0 < call.history.length → count < call.history.length
  received : count + results.length = sent
  fails_le : results.count false ≤ fails
  fails_eq : ok = true → results.count false = fails

/-- After the loop. -/
structure Draining (count : ℕ) (ok timedOut kill : Bool) (results : List Bool)
    (sent : ℕ) : Prop where
  info : call.computeInfo = true
  alive : timedOut = false → kill = false
  timeout : timedOut = true → 0 < call.timeout
  yes : ok = true → timedOut = false → call.AllLinearizable
  no : ok = false → ¬ call.AllLinearizable
  received : count + results.length = sent

/-- What a caller may rely on. -/
structure Returned (result : CheckResult) (info : LinearizationInfo I O) :
    Prop where
  ok : result = .ok → call.AllLinearizable
  illegal : result = .illegal → ¬ call.AllLinearizable
  unknown : result = .unknown → 0 < call.timeout
  info : call.computeInfo = true → result = .ok ∨ call.timeout ≤ 0 →
    call.InfoRight info

/-- Without a timeout the result decides. -/
theorem Returned.decides {call : ParallelCall St I O} {result : CheckResult}
    {info : LinearizationInfo I O} (h : call.Returned result info)
    (htimeout : call.timeout ≤ 0) :
    (result = .ok ↔ call.AllLinearizable) ∧
      (result = .illegal ↔ ¬ call.AllLinearizable) := by
  cases result with
  | ok =>
      exact ⟨⟨h.ok, fun _ ↦ rfl⟩,
        ⟨h.illegal, fun hnot ↦ absurd (h.ok rfl) hnot⟩⟩
  | illegal =>
      exact ⟨⟨h.ok, fun hall ↦ absurd hall (h.illegal rfl)⟩,
        ⟨h.illegal, fun _ ↦ rfl⟩⟩
  | unknown => exact absurd (h.unknown rfl) (not_lt.mpr htimeout)

/-- What is known where `checkParallel` is. -/
def MainSound (kill : Bool) (results : List Bool) (sent fails : ℕ) :
    Main I O → Prop
  | .collecting count ok => call.Collecting count ok kill results sent fails
  | .draining count ok timedOut =>
      call.Draining count ok timedOut kill results sent
  | .returned result info => call.Returned result info
  | .panicked => False

/-- The steps that `checkParallel` itself can take. -/
def mainSteps : Main I O → ℕ
  | .collecting count _ => call.history.length - count + 3
  | .draining count _ _ => call.history.length - count + 1
  | _ => 0

/-- What holds in every state; at most `k` steps are left. -/
structure Good (k : ℕ) (s : ParallelState St I O) : Prop where
  workers : ∃ b : ℕ → ℕ, (∀ i < call.history.length,
      (s.worker i).Sound call.model call.computeInfo s.kill
        (call.subhistory i) (b i)) ∧
    total call.history.length id b + call.mainSteps s.main ≤ k
  main : call.MainSound s.kill s.results
    (total call.history.length Worker.sentCount s.worker)
    (total call.history.length Worker.failCount s.worker) s.main

section Steps

variable {call} {k : ℕ} {s s' : ParallelState St I O} {i : ℕ}

theorem subhistory_mem (hi : i < call.history.length) :
    call.subhistory i ∈ call.history := by
  unfold subhistory
  rw [List.getElem?_eq_getElem hi]
  exact List.getElem_mem hi

/-- Goroutine `i` goes on without sending. -/
theorem Good.work (hgood : call.Good k s) (hi : i < call.history.length)
    {σ : CheckState St I O} (hworker : s.worker i = .running σ)
    {w : Worker St I O} (hsent : w.sentCount = 0) (hfail : w.failCount = 0)
    (hw : ∀ b, (s.worker i).Sound call.model call.computeInfo s.kill
      (call.subhistory i) b → ∃ b' < b, w.Sound call.model call.computeInfo
        s.kill (call.subhistory i) b') :
    ∃ k' < k, call.Good k'
      { s with worker := Function.update s.worker i w } := by
  obtain ⟨b, hsound, hle⟩ := hgood.workers
  obtain ⟨b', hlt, hw'⟩ := hw (b i) (hsound i hi)
  have hsum := total_update hi id b b'
  have hsent' := total_update hi Worker.sentCount s.worker w
  have hfail' := total_update hi Worker.failCount s.worker w
  rw [hworker] at hsent' hfail'
  rw [hsent] at hsent'
  rw [hfail] at hfail'
  simp only [id_eq] at hsum
  refine ⟨k - (b i - b'), by omega, ⟨Function.update b i b', ?_, ?_⟩, ?_⟩
  · intro j hj
    by_cases hji : j = i
    · subst hji
      simpa using hw'
    · simpa [hji] using hsound j hj
  · simp only at hle ⊢
    omega
  · have hmain := hgood.main
    have hs : total call.history.length Worker.sentCount
        (Function.update s.worker i w) =
          total call.history.length Worker.sentCount s.worker := hsent'
    have hf : total call.history.length Worker.failCount
        (Function.update s.worker i w) =
          total call.history.length Worker.failCount s.worker := hfail'
    simp only [hs, hf]
    exact hmain

variable (hencodes : ∀ entries ∈ call.history,
  Encodes entries (eventsOf entries))

include hencodes in
theorem Good.round (hequal : call.model.EqualSound) (hgood : call.Good k s)
    (hstep : call.round s i = some s') : ∃ k' < k, call.Good k' s' := by
  unfold ParallelCall.round at hstep
  split at hstep
  · next hi =>
      have henc := hencodes _ (subhistory_mem hi)
      cases hworker : s.worker i with
      | checked ok longest =>
          rw [hworker] at hstep
          cases hstep
      | sent ok longest =>
          rw [hworker] at hstep
          cases hstep
      | running σ =>
          rw [hworker] at hstep
          have hround : ∀ b, (s.worker i).Sound call.model call.computeInfo
              s.kill (call.subhistory i) b →
              ∃ r, checkRound call.model call.computeInfo
                (call.subhistory i).length s.kill σ = some r ∧
                ∃ b' < b, (Worker.next r).Sound call.model call.computeInfo
                  s.kill (call.subhistory i) b' := by
            intro b hb
            rw [hworker] at hb
            exact hb.round hequal henc
          obtain ⟨b, hsound, _⟩ := hgood.workers
          obtain ⟨r, hr, _⟩ := hround (b i) (hsound i hi)
          have hnext : ∀ b, (s.worker i).Sound call.model call.computeInfo
              s.kill (call.subhistory i) b →
              ∃ b' < b, (Worker.next r).Sound call.model call.computeInfo
                s.kill (call.subhistory i) b' := by
            intro b hb
            obtain ⟨r', hr', hb'⟩ := hround b hb
            obtain rfl := Option.some.inj (hr.symm.trans hr')
            exact hb'
          dsimp only at hstep
          rw [hr] at hstep
          cases r with
          | running σ' =>
              obtain rfl := Option.some.inj hstep
              exact hgood.work hi hworker rfl rfl hnext
          | finished ok longest =>
              obtain rfl := Option.some.inj hstep
              exact hgood.work hi hworker rfl rfl hnext
  · cases hstep

/-- One more result is in the channel. -/
theorem MainSound.send {main : Main I O} {kill : Bool} {results : List Bool}
    {sent fails : ℕ} (hmain : call.MainSound kill results sent fails main)
    (ok : Bool) (longest : Longest) :
    call.MainSound kill (results ++ [ok]) (sent + 1)
      (fails + (Worker.sent ok longest : Worker St I O).failCount) main := by
  have hcount : (results ++ [ok]).count false = results.count false +
      (Worker.sent ok longest : Worker St I O).failCount := by
    cases ok <;> simp [Worker.failCount]
  have hlength : (results ++ [ok]).length = results.length + 1 := by simp
  cases main with
  | collecting count ok' =>
      refine ⟨hmain.alive, hmain.no, hmain.missing, ?_, ?_, fun hok ↦ ?_⟩
      · rw [hlength, ← Nat.add_assoc, hmain.received]
      · rw [hcount]
        exact Nat.add_le_add_right hmain.fails_le _
      · rw [hcount, hmain.fails_eq hok]
  | draining count ok' timedOut =>
      refine ⟨hmain.info, hmain.alive, hmain.timeout, hmain.yes, hmain.no, ?_⟩
      rw [hlength, ← Nat.add_assoc, hmain.received]
  | returned result info => exact hmain
  | panicked => exact hmain

theorem Good.send (hgood : call.Good k s) (hstep : call.send s i = some s') :
    ∃ k' < k, call.Good k' s' := by
  unfold ParallelCall.send at hstep
  split at hstep
  · next hi =>
      split at hstep
      · next ok longest hworker =>
          obtain rfl := Option.some.inj hstep
          obtain ⟨b, hsound, hle⟩ := hgood.workers
          have hchecked := hsound i hi
          rw [hworker] at hchecked
          have hpos := hchecked.2
          have hsum := total_update hi id b 0
          have hsent := total_update hi Worker.sentCount s.worker
            (.sent ok longest)
          have hfail := total_update hi Worker.failCount s.worker
            (.sent ok longest)
          rw [hworker] at hsent hfail
          simp only [id_eq] at hsum
          refine ⟨k - b i, by omega, ⟨Function.update b i 0, ?_, ?_⟩, ?_⟩
          · intro j hj
            by_cases hji : j = i
            · subst hji
              simp only [Function.update_self]
              exact hchecked.1
            · simpa [hji] using hsound j hj
          · dsimp only
            omega
          · have hmain := hgood.main.send ok longest
            rw [← hfail] at hmain
            have hone : (Worker.sent ok longest : Worker St I O).sentCount =
              1 := rfl
            rw [← hone, ← hsent] at hmain
            exact hmain
      · cases hstep
  · cases hstep

/-- A step of `checkParallel` itself. -/
theorem Good.advance (hgood : call.Good k s) {results : List Bool}
    {kill : Bool} {main : Main I O} (hkill : kill = false → s.kill = false)
    (hless : call.mainSteps main < call.mainSteps s.main)
    (hmain : call.MainSound kill results
      (total call.history.length Worker.sentCount s.worker)
      (total call.history.length Worker.failCount s.worker) main) :
    ∃ k' < k, call.Good k'
      { s with results := results, kill := kill, main := main } := by
  obtain ⟨b, hsound, hle⟩ := hgood.workers
  exact ⟨total call.history.length id b + call.mainSteps main, by omega,
    ⟨b, fun i hi ↦ (hsound i hi).mono hkill, le_rfl⟩, hmain⟩

/-- Some goroutine has found a partition that is not linearizable. -/
theorem Good.not_all (hgood : call.Good k s) (hkill : s.kill = false)
    (hfail : 0 < total call.history.length Worker.failCount s.worker) :
    ¬ call.AllLinearizable := by
  obtain ⟨b, hsound, _⟩ := hgood.workers
  obtain ⟨i, hi, hpos⟩ := exists_of_total_pos hfail
  obtain ⟨longest, hworker⟩ := Worker.eq_sent_false hpos
  have hverdict := hsound i hi
  rw [hworker] at hverdict
  exact fun hall ↦ Verdict.no hverdict rfl hkill (hall _ (subhistory_mem hi))

/-- When as many results were received as there are goroutines, all have sent
theirs. -/
theorem Good.all_sent {count : ℕ} (hgood : call.Good k s)
    (hcount : call.history.length ≤ count)
    (hreceived : count ≤
      total call.history.length Worker.sentCount s.worker) :
    ∀ i < call.history.length, ∃ ok longest,
      s.worker i = .sent ok longest ∧
      Verdict call.model.toSequentialModel call.computeInfo s.kill
        (eventsOf (call.subhistory i)) ok longest := by
  obtain ⟨b, hsound, _⟩ := hgood.workers
  intro i hi
  obtain ⟨ok, longest, hworker⟩ := Worker.eq_sent
    (eq_one_of_total Worker.sentCount_le (hcount.trans hreceived) hi)
  have hverdict := hsound i hi
  rw [hworker] at hverdict
  exact ⟨ok, longest, hworker, hverdict⟩

/-- All results were received and none of them was false. -/
theorem Good.all_linearizable {count : ℕ} (hgood : call.Good k s)
    (hcount : call.history.length ≤ count)
    (hreceived : count ≤
      total call.history.length Worker.sentCount s.worker)
    (hfail : total call.history.length Worker.failCount s.worker = 0) :
    call.AllLinearizable := by
  intro entries hentries
  obtain ⟨i, hi⟩ := List.mem_iff_getElem?.mp hentries
  obtain ⟨hlt, _⟩ := List.getElem?_eq_some_iff.mp hi
  obtain ⟨ok, longest, hworker, hverdict⟩ :=
    hgood.all_sent hcount hreceived i hlt
  have hzero := eq_zero_of_total hfail hlt
  have hok : ok = true := by
    cases ok with
    | true => rfl
    | false =>
        rw [hworker] at hzero
        cases hzero
  have hsub : call.subhistory i = entries := by
    rw [subhistory, hi, Option.getD_some]
  rw [← hsub]
  exact hverdict.yes hok

/-- The loop is left with a right answer. -/
theorem mainSound_leaveLoop {count : ℕ} {ok timedOut kill : Bool}
    {results : List Bool} {sent fails : ℕ}
    (halive : call.computeInfo = true → timedOut = false → kill = false)
    (htimeout : timedOut = true → 0 < call.timeout)
    (hyes : ok = true → timedOut = false → call.AllLinearizable)
    (hno : ok = false → ¬ call.AllLinearizable)
    (hreceived : count + results.length = sent) :
    call.MainSound kill results sent fails
      (call.leaveLoop count ok timedOut) := by
  unfold leaveLoop
  split
  · next hinfo =>
      exact ⟨hinfo, halive hinfo, htimeout, hyes, hno, hreceived⟩
  · next hinfo =>
      refine ⟨?_, ?_, ?_, fun htrue ↦ absurd htrue hinfo⟩ <;>
        cases ok <;> cases timedOut <;> simp_all [checkResult]

theorem mainSteps_leaveLoop (call : ParallelCall St I O) (count : ℕ)
    (ok timedOut : Bool) :
    call.mainSteps (call.leaveLoop count ok timedOut) ≤
      call.history.length - count + 1 := by
  unfold leaveLoop
  split
  · exact le_rfl
  · exact Nat.zero_le _

theorem Good.receive (hgood : call.Good k s)
    (hstep : call.receive s = some s') : ∃ k' < k, call.Good k' s' := by
  unfold ParallelCall.receive at hstep
  split at hstep
  · next count ok result results hphase hresults =>
      have hmain := hgood.main
      rw [hphase, hresults] at hmain
      have hsteps : call.mainSteps s.main =
          call.history.length - count + 3 := by rw [hphase]; rfl
      have hreceived : count + 1 + results.length =
          total call.history.length Worker.sentCount s.worker := by
        rw [← hmain.received, List.length_cons]
        omega
      have hno : (ok && result) = false → ¬ call.AllLinearizable := by
        intro hfalse
        rcases Bool.and_eq_false_iff.mp hfalse with hok | rfl
        · exact hmain.no hok
        · refine hgood.not_all hmain.alive (lt_of_lt_of_le ?_ hmain.fails_le)
          simp
      dsimp only at hstep
      split at hstep
      · next hstop =>
          obtain ⟨hnot, hinfo⟩ := Bool.and_eq_true_iff.mp hstop
          rw [Bool.not_eq_true'] at hnot hinfo
          obtain rfl := Option.some.inj hstep
          have hle := mainSteps_leaveLoop call (count + 1)
            (ok && result) false
          refine hgood.advance (by simp) (by omega)
            (mainSound_leaveLoop ?_ (by simp) ?_ hno hreceived)
          · intro htrue
            cases htrue.symm.trans hinfo
          · intro htrue
            cases htrue.symm.trans hnot
      · split at hstep
        · next hall =>
            obtain rfl := Option.some.inj hstep
            have hle := mainSteps_leaveLoop call (count + 1)
              (ok && result) false
            refine hgood.advance id (by omega)
              (mainSound_leaveLoop (fun _ _ ↦ hmain.alive) (by simp) ?_ hno
                hreceived)
            intro htrue _
            obtain ⟨hok, rfl⟩ := Bool.and_eq_true_iff.mp htrue
            have hlast : results = [] := by
              have hmost := total_le (n := call.history.length)
                (w := s.worker) Worker.sentCount_le
              rw [← List.length_eq_zero_iff]
              omega
            refine hgood.all_linearizable hall (by omega) ?_
            rw [← hmain.fails_eq hok, hlast]
            rfl
        · next hmore =>
            obtain rfl := Option.some.inj hstep
            refine hgood.advance id ?_
              ⟨hmain.alive, hno, fun _ ↦ not_le.mp hmore, hreceived, ?_, ?_⟩
            · rw [hsteps]
              simp only [mainSteps]
              omega
            · exact le_trans List.count_le_count_cons hmain.fails_le
            · intro htrue
              obtain ⟨hok, rfl⟩ := Bool.and_eq_true_iff.mp htrue
              rw [← hmain.fails_eq hok]
              simp
  · cases hstep

theorem Good.expire (hgood : call.Good k s)
    (hstep : call.expire s = some s') : ∃ k' < k, call.Good k' s' := by
  unfold ParallelCall.expire at hstep
  split at hstep
  · next count ok hphase =>
      have hmain := hgood.main
      rw [hphase] at hmain
      have hsteps : call.mainSteps s.main =
          call.history.length - count + 3 := by rw [hphase]; rfl
      split at hstep
      · next htimeout =>
          obtain rfl := Option.some.inj hstep
          have hle := mainSteps_leaveLoop call count ok true
          refine hgood.advance (by simp) (by omega)
            (mainSound_leaveLoop (by simp) (fun _ ↦ htimeout) (by simp)
              hmain.no hmain.received)
      · cases hstep
  · cases hstep

theorem Good.drain (hgood : call.Good k s)
    (hstep : call.drain s = some s') : ∃ k' < k, call.Good k' s' := by
  unfold ParallelCall.drain at hstep
  split at hstep
  · next count ok timedOut result results hphase hresults =>
      have hmain := hgood.main
      rw [hphase, hresults] at hmain
      split at hstep
      · next hless =>
          obtain rfl := Option.some.inj hstep
          refine hgood.advance id ?_ ⟨hmain.info, hmain.alive, hmain.timeout,
            hmain.yes, hmain.no, ?_⟩
          · rw [hphase]
            simp only [mainSteps]
            omega
          · rw [← hmain.received, List.length_cons]
            omega
      · cases hstep
  · cases hstep

/-- All results are in, and the answer of the loop is returned. -/
theorem returned_of_draining {count : ℕ} {ok timedOut kill : Bool}
    {results : List Bool} {sent : ℕ} {info : LinearizationInfo I O}
    (hmain : call.Draining count ok timedOut kill results sent)
    (hinfo : timedOut = false → call.InfoRight info) :
    call.Returned (checkResult ok timedOut) info where
  ok := by
    intro hresult
    cases ok with
    | false => cases hresult
    | true =>
        cases timedOut with
        | false => exact hmain.yes rfl rfl
        | true => cases hresult
  illegal := by
    intro hresult
    cases ok with
    | false => exact hmain.no rfl
    | true => cases timedOut <;> cases hresult
  unknown := by
    intro hresult
    cases timedOut with
    | true => exact hmain.timeout rfl
    | false => cases ok <;> cases hresult
  info := by
    intro _ hcomplete
    cases timedOut with
    | false => exact hinfo rfl
    | true =>
        rcases hcomplete with hresult | hnever
        · cases ok <;> cases hresult
        · exact absurd (hmain.timeout rfl) (not_lt.mpr hnever)

theorem Good.finish (hgood : call.Good k s)
    (hstep : call.finish s = some s') : ∃ k' < k, call.Good k' s' := by
  unfold ParallelCall.finish at hstep
  split at hstep
  · next count ok timedOut hphase =>
      have hmain := hgood.main
      rw [hphase] at hmain
      split at hstep
      · cases hstep
      · next hall =>
          obtain rfl := Option.some.inj hstep
          refine hgood.advance id ?_ (returned_of_draining hmain ?_)
          · rw [hphase]
            exact Nat.succ_pos _
          · intro htimedOut
            refine ⟨rfl, fun i entries hi ↦ ?_⟩
            obtain ⟨hlt, _⟩ := List.getElem?_eq_some_iff.mp hi
            obtain ⟨ok', longest, hworker, hverdict⟩ := hgood.all_sent
              (not_lt.mp hall) (hmain.received ▸ Nat.le_add_right _ _) i hlt
            have hsub : call.subhistory i = entries := by
              rw [subhistory, hi, Option.getD_some]
            rw [hsub] at hverdict
            refine ⟨uniqueLinearizations longest, ?_,
              (hverdict.partials hmain.info
                (hmain.alive htimedOut)).partialsRight⟩
            unfold partialLinearizations
            rw [List.getElem?_map, List.getElem?_range hlt, Option.map_some,
              hworker]
            rfl
  · cases hstep

include hencodes in
theorem Good.step (hequal : call.model.EqualSound) {a : ParallelAction}
    (hgood : call.Good k s) (hstep : call.step s a = some s') :
    ∃ k' < k, call.Good k' s' := by
  cases a with
  | round i => exact hgood.round hencodes hequal hstep
  | send i => exact hgood.send hstep
  | receive => exact hgood.receive hstep
  | timeout => exact hgood.expire hstep
  | drain => exact hgood.drain hstep
  | finish => exact hgood.finish hstep

/-! ## Whole runs -/

/-- Steps that are enough for all goroutines and `checkParallel` itself. -/
def enoughSteps (call : ParallelCall St I O) : ℕ :=
  total call.history.length
    (fun i ↦ SearchProblem.nodeCost (call.subhistory i).length
      (call.subhistory i).length + 2) id + (call.history.length + 3)

include hencodes in
theorem Good.start : call.Good call.enoughSteps call.start where
  workers := by
    refine ⟨fun i ↦ SearchProblem.nodeCost (call.subhistory i).length
      (call.subhistory i).length + 2, fun i hi ↦ ?_, le_rfl⟩
    have henc := hencodes _ (subhistory_mem hi)
    refine ⟨_, InStep.start call.computeInfo henc, ?_⟩
    dsimp only
    rw [henc.length_eq]
    exact Nat.add_le_add_right measure_start_le 2
  main := by
    have hzero : ∀ f : Worker St I O → ℕ, (∀ σ, f (.running σ) = 0) →
        total call.history.length f call.start.worker = 0 :=
      fun f hf ↦ Finset.sum_eq_zero fun i _ ↦ hf _
    rw [hzero Worker.sentCount fun _ ↦ rfl,
      hzero Worker.failCount fun _ ↦ rfl]
    refine ⟨rfl, fun hfalse ↦ ?_, id, rfl, le_rfl, fun _ ↦ rfl⟩
    cases hfalse

/-- A state in which nothing can happen. -/
def Stuck (call : ParallelCall St I O) (s : ParallelState St I O) : Prop :=
  ∀ a, call.step s a = none

/-- When nothing can happen, all goroutines are done. -/
theorem Stuck.all_sent (hstuck : call.Stuck s) :
    ∀ i < call.history.length, ∃ ok longest,
      s.worker i = .sent ok longest := by
  intro i hi
  cases hworker : s.worker i with
  | sent ok longest => exact ⟨ok, longest, rfl⟩
  | checked ok longest =>
      have hnone : call.send s i = none := hstuck (.send i)
      unfold ParallelCall.send at hnone
      rw [if_pos hi, hworker] at hnone
      cases hnone
  | running σ =>
      have hnone : call.round s i = none := hstuck (.round i)
      unfold ParallelCall.round at hnone
      rw [if_pos hi, hworker] at hnone
      dsimp only at hnone
      split at hnone <;> cases hnone

theorem receive_ne_none {count : ℕ} {ok : Bool}
    (hphase : s.main = .collecting count ok) (hresults : s.results ≠ []) :
    call.receive s ≠ none := by
  obtain ⟨result, results, hcons⟩ := List.exists_cons_of_ne_nil hresults
  unfold ParallelCall.receive
  rw [hphase, hcons]
  dsimp only
  split
  · exact Option.some_ne_none _
  · split <;> exact Option.some_ne_none _

/-- It stops only after it has returned, or when there is no goroutine and no
timer to wait for. -/
theorem Good.stuck (hgood : call.Good k s) (hstuck : call.Stuck s) :
    (∃ result info, s.main = .returned result info) ∨
      (call.history = [] ∧ call.timeout ≤ 0) := by
  have hsent : total call.history.length Worker.sentCount s.worker =
      call.history.length := by
    unfold total
    rw [Finset.sum_congr rfl (g := fun _ ↦ 1) fun i hi ↦ by
      obtain ⟨ok, longest, hworker⟩ :=
        hstuck.all_sent i (Finset.mem_range.mp hi)
      rw [hworker]
      rfl]
    simp
  have hmain := hgood.main
  rw [hsent] at hmain
  cases hphase : s.main with
  | panicked =>
      rw [hphase] at hmain
      exact hmain.elim
  | returned result info => exact Or.inl ⟨result, info, rfl⟩
  | draining count ok timedOut =>
      rw [hphase] at hmain
      have hreceived := hmain.received
      by_cases hless : count < call.history.length
      · have hnone : call.drain s = none := hstuck .drain
        unfold ParallelCall.drain at hnone
        cases hresults : s.results with
        | nil =>
            rw [hresults, List.length_nil] at hreceived
            omega
        | cons result results =>
            rw [hphase, hresults] at hnone
            dsimp only at hnone
            rw [if_pos hless] at hnone
            cases hnone
      · have hnone : call.finish s = none := hstuck .finish
        unfold ParallelCall.finish at hnone
        rw [hphase] at hnone
        dsimp only at hnone
        rw [if_neg hless] at hnone
        cases hnone
  | collecting count ok =>
      rw [hphase] at hmain
      refine Or.inr ?_
      have hempty : s.results = [] := by
        by_contra hne
        exact receive_ne_none hphase hne (hstuck .receive)
      have hreceived := hmain.received
      rw [hempty, List.length_nil] at hreceived
      have hlength : call.history.length = 0 := by
        by_contra hne
        have hmissing := hmain.missing (Nat.pos_of_ne_zero hne)
        omega
      refine ⟨List.length_eq_zero_iff.mp hlength, ?_⟩
      by_contra htimeout
      have hnone : call.expire s = none := hstuck .timeout
      unfold ParallelCall.expire at hnone
      rw [hphase] at hnone
      dsimp only at hnone
      rw [if_pos (not_le.mp htimeout)] at hnone
      cases hnone

include hencodes in
/-- Every run is good, and cannot be longer than `enoughSteps`. -/
theorem good_run (hequal : call.model.EqualSound)
    {visited : List (ParallelState St I O)}
    (hrun : Run call.step (fun _ _ ↦ True) call.start visited s) :
    ∃ k, call.Good k s ∧ visited.length + k ≤ call.enoughSteps + 1 :=
  hrun.bounded (Good.start hencodes) fun hgood _ hstep ↦
    hgood.step hencodes hequal hstep

end Steps

section Results

variable {call : ParallelCall St I O} {s : ParallelState St I O}
  {visited : List (ParallelState St I O)}

/-- What `checkParallel` has returned is right. -/
theorem returned_of_run
    (hencodes : ∀ entries ∈ call.history, Encodes entries (eventsOf entries))
    (hequal : call.model.EqualSound)
    (hrun : Run call.step (fun _ _ ↦ True) call.start visited s)
    {result : CheckResult} {info : LinearizationInfo I O}
    (hreturned : s.main = .returned result info) :
    call.Returned result info := by
  obtain ⟨k, hgood, _⟩ := good_run hencodes hequal hrun
  have hmain := hgood.main
  rwa [hreturned] at hmain

/-- A run is bounded, and has returned when it cannot go on. -/
theorem returns_of_run
    (hencodes : ∀ entries ∈ call.history, Encodes entries (eventsOf entries))
    (hequal : call.model.EqualSound)
    (hwait : call.history ≠ [] ∨ 0 < call.timeout)
    (hrun : Run call.step (fun _ _ ↦ True) call.start visited s) :
    visited.length ≤ call.enoughSteps + 1 ∧ (call.Stuck s →
      ∃ result info, s.main = .returned result info) := by
  obtain ⟨k, hgood, hlength⟩ := good_run hencodes hequal hrun
  refine ⟨by omega, fun hstuck ↦ ?_⟩
  rcases hgood.stuck hstuck with hreturned | ⟨hempty, htimeout⟩
  · exact hreturned
  · rcases hwait with hne | hpos
    · exact absurd hempty hne
    · exact absurd hpos (not_lt.mpr htimeout)

/-- Without a partition and without a timeout nothing ever happens, and
`checkParallel` does not return. -/
theorem stuck_start (hempty : call.history = [])
    (htimeout : call.timeout ≤ 0) : call.Stuck call.start := by
  intro a
  cases a with
  | round i => simp [step, ParallelCall.round, hempty]
  | send i => simp [step, ParallelCall.send, hempty]
  | receive => rfl
  | timeout =>
      change (if call.timeout > 0 then _ else none) = none
      rw [if_neg (not_lt.mpr htimeout)]
  | drain => rfl
  | finish => rfl

/-- In every interleaving `checkParallel` does not panic, and what it returns is
right, the partial linearizations included. -/
theorem checkParallel_sound
    (hencodes : ∀ entries ∈ call.history, Encodes entries (eventsOf entries))
    (hequal : call.model.EqualSound)
    (hrun : Run call.step (fun _ _ ↦ True) call.start visited s) :
    s.main ≠ .panicked ∧ ∀ result info, s.main = .returned result info →
      call.Returned result info := by
  refine ⟨fun hpanicked ↦ ?_, fun result info ↦
    returned_of_run hencodes hequal hrun⟩
  obtain ⟨k, hgood, _⟩ := good_run hencodes hequal hrun
  have hmain := hgood.main
  rw [hpanicked] at hmain
  exact hmain

/-- Two partitions, of which the second is not linearizable. -/
def registerCall : ParallelCall ℕ (Option ℕ) ℕ where
  model := fillDefault register
  history :=
    [makeEntries .insertionSort registerLog,
      makeEntries .insertionSort [⟨0, some 1, 0, 0, 1⟩, ⟨0, none, 2, 0, 3⟩]]
  computeInfo := true
  timeout := 0

theorem encodes_registerCall : ∀ entries ∈ registerCall.history,
    Encodes entries (eventsOf entries) := by
  intro entries hentries
  rcases List.mem_cons.mp hentries with rfl | hentries
  · exact encodes_makeEntries .insertionSort (by decide)
  · obtain rfl := List.mem_singleton.mp hentries
    exact encodes_makeEntries .insertionSort (by decide)

/-- Both goroutines run to their end, and both results are received. -/
def registerRun : List ParallelAction :=
  [.round 0, .round 1, .round 1, .round 0, .round 0, .round 1, .round 1,
    .send 1, .receive, .round 0, .round 0, .send 0, .receive, .finish]

/-- The result that `checkParallel` has returned. -/
def result? (s : ParallelState St I O) : Option CheckResult :=
  match s.main with
  | .returned result _ => some result
  | _ => none

theorem checkParallel_sound_register :
    ∃ s : ParallelState ℕ (Option ℕ) ℕ, result? s = some .illegal ∧
      s.main ≠ .panicked ∧ ∀ result info, s.main = .returned result info →
        registerCall.Returned result info := by
  obtain ⟨visited, s, hrun, hresult⟩ :=
    Run.exists_of_exec registerCall.step (fun _ _ ↦ True) registerCall.start
      registerRun (fun s ↦ result? s = some .illegal) (by decide +kernel)
  exact ⟨s, hresult, checkParallel_sound encodes_registerCall
    (equalSound_fillDefault rfl) hrun⟩

/-- All runs of `checkParallel` are bounded, and those that cannot go on have
returned, exactly if there is a partition or a timeout. -/
theorem checkParallel_returns_iff
    (hencodes : ∀ entries ∈ call.history, Encodes entries (eventsOf entries))
    (hequal : call.model.EqualSound) :
    (∀ visited s, Run call.step (fun _ _ ↦ True) call.start visited s →
      visited.length ≤ call.enoughSteps + 1 ∧ (call.Stuck s →
        ∃ result info, s.main = .returned result info)) ↔
      call.history ≠ [] ∨ 0 < call.timeout := by
  refine ⟨fun hall ↦ ?_, fun hwait visited s ↦
    returns_of_run hencodes hequal hwait⟩
  by_contra hnone
  obtain ⟨hempty, htimeout⟩ := not_or.mp hnone
  obtain ⟨result, info, hreturned⟩ := (hall _ _ .start).2
    (stuck_start (not_not.mp hempty) (not_lt.mp htimeout))
  cases hreturned

theorem checkParallel_returns_iff_register :
    (∀ visited s, Run registerCall.step (fun _ _ ↦ True) registerCall.start
      visited s → visited.length ≤ registerCall.enoughSteps + 1 ∧
        (registerCall.Stuck s →
          ∃ result info, s.main = .returned result info)) ↔
      registerCall.history ≠ [] ∨ 0 < registerCall.timeout :=
  checkParallel_returns_iff encodes_registerCall (equalSound_fillDefault rfl)

end Results

end ParallelCall

end DistLabs.Porcupine
