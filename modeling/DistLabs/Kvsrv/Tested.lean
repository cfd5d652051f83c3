import DistLabs.Kvsrv.Tester

/-!
# The tests never report an error

Every event of the service's history is stamped with the time at which it
happened.  A client's operation was invoked no earlier than its call and had
responded no later than its return, so whatever the times in the log order is
ordered in the history too.
-/

namespace DistLabs.Kvsrv

open Linearizability
open Porcupine (checkOperations ParallelState ByTime observed)

/-! ## Proper histories -/

/-- Every operation is invoked at most once and then responds at most once. -/
structure Proper (h : List (HistoryEvent OpReg KvInput KvOutput)) : Prop where
  invokes : (invokedIds h).Nodup
  responds : (respondedIds h).Nodup
  ordered : ∀ h₁ h₂ id output, h = h₁ ++ .respond id output :: h₂ →
    id ∈ invokedIds h₁

section Proper

variable {h : List (HistoryEvent OpReg KvInput KvOutput)} {opReg : OpReg}

/-- A response in a longer history is the last event or an old one. -/
theorem respond_split {e : HistoryEvent OpReg KvInput KvOutput}
    {h₁ h₂ : List (HistoryEvent OpReg KvInput KvOutput)} {id : OpReg}
    {output : KvOutput} (hsplit : h ++ [e] = h₁ ++ .respond id output :: h₂) :
    (e = .respond id output ∧ h = h₁) ∨
      ∃ h₃, h = h₁ ++ .respond id output :: h₃ := by
  rcases List.eq_nil_or_concat h₂ with rfl | ⟨h₃, e', rfl⟩
  · obtain ⟨rfl, hlast⟩ := List.append_inj' hsplit rfl
    exact Or.inl ⟨by simpa using hlast, rfl⟩
  · rw [List.concat_eq_append, ← List.cons_append, ← List.append_assoc]
      at hsplit
    obtain ⟨rfl, -⟩ := List.append_inj' hsplit rfl
    exact Or.inr ⟨h₃, rfl⟩

theorem Proper.invoke (hp : Proper h) (hfresh : opReg ∉ invokedIds h)
    (input : KvInput) : Proper (h ++ [.invoke opReg input]) where
  invokes := by
    rw [invokedIds, List.filterMap_append]
    exact hp.invokes.append (List.nodup_singleton opReg)
      (List.disjoint_singleton.mpr hfresh)
  responds := by
    rw [respondedIds, List.filterMap_append]
    exact (List.append_nil (respondedIds h)).symm ▸ hp.responds
  ordered := by
    intro h₁ h₂ id output hsplit
    rcases respond_split hsplit with ⟨heq, _⟩ | ⟨h₃, hold⟩
    · cases heq
    · exact hp.ordered h₁ h₃ id output hold

theorem Proper.respond (hp : Proper h) (hinvoked : opReg ∈ invokedIds h)
    (hsilent : opReg ∉ respondedIds h) (output : KvOutput) :
    Proper (h ++ [.respond opReg output]) where
  invokes := by
    rw [invokedIds, List.filterMap_append]
    exact (List.append_nil (invokedIds h)).symm ▸ hp.invokes
  responds := by
    rw [respondedIds, List.filterMap_append]
    exact hp.responds.append (List.nodup_singleton opReg)
      (List.disjoint_singleton.mpr hsilent)
  ordered := by
    intro h₁ h₂ id output' hsplit
    rcases respond_split hsplit with ⟨heq, rfl⟩ | ⟨h₃, hold⟩
    · cases heq
      exact hinvoked
    · exact hp.ordered h₁ h₃ id output' hold

end Proper

/-! ## Stamped histories -/

/-- Events with the times at which they happened. -/
abbrev Stamped := List (HistoryEvent OpReg KvInput KvOutput × ℤ)

/-- Operation `opReg` was invoked at `start` or later. -/
def Called (H : Stamped) (opReg : OpReg) (input : KvInput) (start : ℤ) :
    Prop :=
  ∃ t, start ≤ t ∧ (.invoke opReg input, t) ∈ H

/-- Operation `opReg` has responded at `stop` or earlier. -/
def Answered (H : Stamped) (opReg : OpReg) (output : KvOutput) (stop : ℤ) :
    Prop :=
  ∃ t, t ≤ stop ∧ (.respond opReg output, t) ∈ H

/-- The stamps of the history `h` do not go back in time. -/
structure Stamps (H : Stamped) (h : List (HistoryEvent OpReg KvInput KvOutput))
    (clock : ℤ) : Prop where
  events : H.map Prod.fst = h
  sorted : H.Pairwise fun x y ↦ x.2 ≤ y.2
  past : ∀ x ∈ H, x.2 ≤ clock

section Stamps

variable {H H' : Stamped} {h : List (HistoryEvent OpReg KvInput KvOutput)}
  {clock : ℤ} {opReg : OpReg}

theorem Called.mono {input : KvInput} {start : ℤ}
    (hcalled : Called H opReg input start) (hsub : H ⊆ H') :
    Called H' opReg input start := by
  obtain ⟨t, hle, hmem⟩ := hcalled
  exact ⟨t, hle, hsub hmem⟩

theorem Answered.mono {output : KvOutput} {stop stop' : ℤ}
    (hanswered : Answered H opReg output stop) (hsub : H ⊆ H')
    (hstop : stop ≤ stop') : Answered H' opReg output stop' := by
  obtain ⟨t, hle, hmem⟩ := hanswered
  exact ⟨t, hle.trans hstop, hsub hmem⟩

theorem Stamps.append (hs : Stamps H h clock)
    (e : HistoryEvent OpReg KvInput KvOutput) :
    Stamps (H ++ [(e, clock)]) (h ++ [e]) clock where
  events := by rw [List.map_append, hs.events]; rfl
  sorted := by
    refine List.pairwise_append.mpr ⟨hs.sorted, List.pairwise_singleton _ _,
      fun x hx y hy ↦ ?_⟩
    obtain rfl := List.mem_singleton.mp hy
    exact hs.past x hx
  past := by
    intro x hx
    rcases List.mem_append.mp hx with hx | hx
    · exact hs.past x hx
    · obtain rfl := List.mem_singleton.mp hx
      exact le_rfl

/-- What responded before another operation was called precedes it. -/
theorem Stamps.precedes (hs : Stamps H h clock) {a b : OpReg}
    {output : KvOutput} {input : KvInput} {stop start : ℤ}
    (ha : Answered H a output stop) (hb : Called H b input start)
    (hlt : stop < start) : Precedes h a b := by
  obtain ⟨t, hstop, hrespond⟩ := ha
  obtain ⟨t', hstart, hinvoke⟩ := hb
  obtain ⟨H₁, H₂, rfl⟩ := List.append_of_mem hrespond
  rw [← hs.events]
  refine ⟨(H₁ ++ [(HistoryEvent.respond a output, t)]).map Prod.fst,
    H₂.map Prod.fst, output, input, by simp, by simp, ?_⟩
  rcases List.mem_append.mp hinvoke with hbefore | hafter
  · have hle := (List.pairwise_append.mp hs.sorted).2.2 _ hbefore _
      List.mem_cons_self
    dsimp only at hle
    omega
  · rcases List.mem_cons.mp hafter with heq | hafter
    · cases heq
    · exact List.mem_map_of_mem hafter

end Stamps

/-! ## What the clients know -/

/-- A client has an operation that is not in the log. -/
def TestPhase.Busy : TestPhase → Prop
  | .idle => False
  | .started _ => False
  | .waiting _ => True
  | .returned _ _ => True
  | .ended _ _ _ => True

/-- What a client knows of its operation `opReg`; `present` and `req` are the
operation and the request that its clerk works on. -/
def TestPhase.Knows (H : Stamped) (clock : ℤ) (opReg : OpReg)
    (present : Option OpReg) (req : Option Request) : TestPhase → Prop
  | .idle => present = none
  | .started call => present = none ∧ call.start ≤ clock
  | .waiting call => present = some opReg ∧ req = some call.req ∧
      call.start ≤ clock ∧ Called H opReg call.req.input call.start
  | .returned call value => present = none ∧ call.start ≤ clock ∧
      Called H opReg call.req.input call.start ∧
      Answered H opReg (call.req.output value) clock
  | .ended call value stop => present = none ∧ call.start ≤ stop ∧
      Called H opReg call.req.input call.start ∧
      Answered H opReg (call.req.output value) stop

theorem TestPhase.Knows.mono {H H' : Stamped} {clock clock' : ℤ}
    {opReg : OpReg} {present : Option OpReg} {req : Option Request}
    {phase : TestPhase} (hknows : phase.Knows H clock opReg present req)
    (hsub : H ⊆ H') (hclock : clock ≤ clock') :
    phase.Knows H' clock' opReg present req := by
  cases phase with
  | idle => exact hknows
  | started call => exact ⟨hknows.1, hknows.2.trans hclock⟩
  | waiting call =>
      obtain ⟨hpresent, hreq, hstart, hcalled⟩ := hknows
      exact ⟨hpresent, hreq, hstart.trans hclock, hcalled.mono hsub⟩
  | returned call value =>
      obtain ⟨hpresent, hstart, hcalled, hanswered⟩ := hknows
      exact ⟨hpresent, hstart.trans hclock, hcalled.mono hsub,
        hanswered.mono hsub hclock⟩
  | ended call value stop =>
      obtain ⟨hpresent, hstart, hcalled, hanswered⟩ := hknows
      exact ⟨hpresent, hstart, hcalled.mono hsub, hanswered.mono hsub le_rfl⟩

/-- An operation of the log and its number. -/
abbrev Entry := Porcupine.Operation KvInput KvOutput × OpReg

/-- The times of an operation of the log enclose its events. -/
structure Logged (H : Stamped) (x : Entry) : Prop where
  called : Called H x.2 x.1.input x.1.call
  answered : Answered H x.2 x.1.output x.1.ret
  forward : x.1.call ≤ x.1.ret

theorem Logged.mono {H H' : Stamped} {x : Entry} (hlogged : Logged H x)
    (hsub : H ⊆ H') : Logged H' x :=
  ⟨hlogged.called.mono hsub, hlogged.answered.mono hsub le_rfl,
    hlogged.forward⟩

variable {Clerk : Type}

/-- All that is known during a test: the stamps of the history, the present
operation of every client, and the numbers of the operations of the log. -/
structure Watched (T : Tester Clerk) (H : Stamped) (owner : Clerk → OpReg)
    (entries : List Entry) : Prop where
  stamps : Stamps H T.service.history T.clock
  proper : Proper T.service.history
  explained : ∃ ops, T.service.Explained ops
  log : entries.map Prod.fst = T.log
  logged : ∀ x ∈ entries, Logged H x
  names : (entries.map Prod.snd).Nodup
  clients : ∀ c, (T.phase c).Knows H T.clock (owner c)
    (T.service.clerk c).opReg (T.service.clerk c).request
  unlogged : ∀ c, (T.phase c).Busy → owner c ∉ entries.map Prod.snd
  distinct : ∀ c c', (T.phase c).Busy → (T.phase c').Busy →
    owner c = owner c' → c = c'
  all : ∀ id ∈ invokedIds T.service.history,
    id ∈ entries.map Prod.snd ∨ ∃ c, (T.phase c).Busy ∧ owner c = id

namespace Watched

variable {T T' : Tester Clerk} {H : Stamped} {owner : Clerk → OpReg}
  {entries : List Entry} {c : Clerk}

theorem init (owner : Clerk → OpReg) :
    Watched (Tester.init : Tester Clerk) [] owner [] where
  stamps := ⟨rfl, List.Pairwise.nil, by simp⟩
  proper := by
    refine ⟨List.nodup_nil, List.nodup_nil, fun h₁ h₂ id output hsplit ↦ ?_⟩
    cases h₁ <;> cases hsplit
  explained := ⟨[], Service.Explained.init⟩
  log := rfl
  logged := by simp
  names := List.nodup_nil
  clients := fun _ ↦ rfl
  unlogged := by
    intro c hbusy
    cases hbusy
  distinct := by
    intro c c' hbusy
    cases hbusy
  all := by
    intro id hid
    cases hid

theorem tick (hw : Watched T H owner entries) (d : ℕ) :
    Watched { T with clock := T.clock + d } H owner entries :=
  { hw with
    stamps := ⟨hw.stamps.events, hw.stamps.sorted, fun x hx ↦ by
      have hpast := hw.stamps.past x hx
      dsimp only
      omega⟩
    clients := fun c ↦ (hw.clients c).mono (List.Subset.refl _) (by
      dsimp only
      omega) }

/-- The service goes on with the same operations. -/
theorem keep {σ : Service Clerk} (hw : Watched T H owner entries)
    (hkeeps : T.service.Keeps σ) (hexplained : ∃ ops, σ.Explained ops) :
    Watched { T with service := σ } H owner entries :=
  { hw with
    stamps := by
      dsimp only
      rw [hkeeps.history]
      exact hw.stamps
    proper := by
      dsimp only
      rw [hkeeps.history]
      exact hw.proper
    explained := hexplained
    clients := by
      intro c
      dsimp only
      rw [hkeeps.opReg, hkeeps.request]
      exact hw.clients c
    all := by
      dsimp only
      rw [hkeeps.history]
      exact hw.all }

variable [DecidableEq Clerk]

/-- Client `c` goes on by itself, with the same operation. -/
theorem setPhase {phase : TestPhase} (hw : Watched T H owner entries)
    (hbusy : phase.Busy ↔ (T.phase c).Busy)
    (hknows : phase.Knows H T.clock (owner c) (T.service.clerk c).opReg
      (T.service.clerk c).request) :
    Watched (T.setPhase c phase) H owner entries := by
  have hiff : ∀ c', ((T.setPhase c phase).phase c').Busy ↔
      (T.phase c').Busy := by
    intro c'
    unfold Tester.setPhase
    by_cases hc : c' = c
    · rw [hc]
      dsimp only
      rw [Function.update_self]
      exact hbusy
    · dsimp only
      rw [Function.update_of_ne hc]
  exact
    { hw with
      clients := by
        intro c'
        unfold Tester.setPhase
        by_cases hc : c' = c
        · rw [hc]
          dsimp only
          rw [Function.update_self]
          exact hknows
        · dsimp only
          rw [Function.update_of_ne hc]
          exact hw.clients c'
      unlogged := fun c' hb ↦ hw.unlogged c' ((hiff c').mp hb)
      distinct := fun c₁ c₂ h₁ h₂ ↦
        hw.distinct c₁ c₂ ((hiff c₁).mp h₁) ((hiff c₂).mp h₂)
      all := by
        intro id hid
        refine (hw.all id hid).imp_right ?_
        rintro ⟨c', hb, hown⟩
        exact ⟨c', (hiff c').mpr hb, hown⟩ }

/-- Client `c` does something with its clerk; nothing changes for the others. -/
theorem clients_update {H' : Stamped} {owner' : Clerk → OpReg}
    {phase : TestPhase} {p : Phase} (hw : Watched T H owner entries)
    (hsub : H ⊆ H') (hclock : T'.clock = T.clock)
    (hphase : T'.phase = Function.update T.phase c phase)
    (hclerk : T'.service.clerk = Function.update T.service.clerk c p)
    (howner : ∀ c' ≠ c, owner' c' = owner c')
    (hknows : phase.Knows H' T.clock (owner' c) p.opReg p.request) :
    ∀ c', (T'.phase c').Knows H' T'.clock (owner' c')
      (T'.service.clerk c').opReg (T'.service.clerk c').request := by
  intro c'
  rw [hphase, hclerk, hclock]
  by_cases hc : c' = c
  · rw [hc, Function.update_self, Function.update_self]
    exact hknows
  · rw [Function.update_of_ne hc, Function.update_of_ne hc, howner c' hc]
    exact (hw.clients c').mono hsub le_rfl

omit [DecidableEq Clerk] in
theorem mem_invokedIds_of_called {opReg : OpReg} {input : KvInput} {start : ℤ}
    (hw : Watched T H owner entries) (hcalled : Called H opReg input start) :
    opReg ∈ invokedIds T.service.history := by
  obtain ⟨t, _, hmem⟩ := hcalled
  rw [← hw.stamps.events]
  exact mem_invokedIds.mpr ⟨input, List.mem_map_of_mem hmem⟩

omit [DecidableEq Clerk] in
/-- The operation of a busy client has been called. -/
theorem called_of_busy (hw : Watched T H owner entries)
    (hbusy : (T.phase c).Busy) :
    ∃ input start, Called H (owner c) input start := by
  have hknows := hw.clients c
  cases hphase : T.phase c with
  | idle => rw [hphase] at hbusy; cases hbusy
  | started call => rw [hphase] at hbusy; cases hbusy
  | waiting call => rw [hphase] at hknows; exact ⟨_, _, hknows.2.2.2⟩
  | returned call value =>
      rw [hphase] at hknows
      exact ⟨_, _, hknows.2.2.1⟩
  | ended call value stop =>
      rw [hphase] at hknows
      exact ⟨_, _, hknows.2.2.1⟩

/-- Client `c` calls its clerk. -/
theorem call {call : TestCall} {opReg : OpReg}
    (hw : Watched T H owner entries) (hphase : T.phase c = .started call)
    (hfresh : opReg ∉ invokedIds T.service.history)
    (hexplained : ∃ ops, (T.service.start c call.req opReg).Explained ops) :
    Watched
      { T.setPhase c (.waiting call) with
        service := T.service.start c call.req opReg }
      (H ++ [(.invoke opReg call.req.input, T.clock)])
      (Function.update owner c opReg) entries := by
  have hsub : H ⊆ H ++ [(.invoke opReg call.req.input, T.clock)] :=
    List.subset_append_left _ _
  have hstart : call.start ≤ T.clock := by
    have hknows := hw.clients c
    rw [hphase] at hknows
    exact hknows.2
  -- The number is new, so no other client has it.
  have hothers : ∀ c', (T.phase c').Busy → owner c' ≠ opReg := by
    rintro c' hbusy rfl
    obtain ⟨input, start, hcalled⟩ := hw.called_of_busy hbusy
    exact hfresh (hw.mem_invokedIds_of_called hcalled)
  have hbusy : ∀ c', (Function.update T.phase c (.waiting call) c').Busy →
      (c' = c ∧ Function.update owner c opReg c' = opReg) ∨ (c' ≠ c ∧
        (T.phase c').Busy ∧
        Function.update owner c opReg c' = owner c') := by
    intro c' hb
    by_cases hc : c' = c
    · subst hc
      exact Or.inl ⟨rfl, Function.update_self _ _ _⟩
    · rw [Function.update_of_ne hc] at hb
      exact Or.inr ⟨hc, hb, Function.update_of_ne hc _ _⟩
  exact
    { stamps := hw.stamps.append _
      proper := hw.proper.invoke hfresh _
      explained := hexplained
      log := hw.log
      logged := fun x hx ↦ (hw.logged x hx).mono hsub
      names := hw.names
      clients := by
        refine hw.clients_update hsub rfl rfl rfl
          (fun c' hc ↦ Function.update_of_ne hc _ _) ?_
        rw [Function.update_self]
        exact ⟨rfl, rfl, hstart, T.clock, hstart,
          List.mem_append_right _ List.mem_cons_self⟩
      unlogged := by
        intro c' hb hmem
        rcases hbusy c' hb with ⟨_, hown⟩ | ⟨_, hb', hown⟩
        · rw [hown] at hmem
          obtain ⟨x, hx, rfl⟩ := List.mem_map.mp hmem
          exact hfresh (hw.mem_invokedIds_of_called (hw.logged x hx).called)
        · rw [hown] at hmem
          exact hw.unlogged c' hb' hmem
      distinct := by
        intro c₁ c₂ h₁ h₂ hown
        rcases hbusy c₁ h₁ with ⟨rfl, hown₁⟩ | ⟨_, hb₁, hown₁⟩
        · rcases hbusy c₂ h₂ with ⟨rfl, _⟩ | ⟨_, hb₂, hown₂⟩
          · rfl
          · rw [hown₁, hown₂] at hown
            exact absurd hown.symm (hothers c₂ hb₂)
        · rcases hbusy c₂ h₂ with ⟨rfl, hown₂⟩ | ⟨_, hb₂, hown₂⟩
          · rw [hown₁, hown₂] at hown
            exact absurd hown (hothers c₁ hb₁)
          · rw [hown₁, hown₂] at hown
            exact hw.distinct c₁ c₂ hb₁ hb₂ hown
      all := by
        intro id hid
        change id ∈ invokedIds (T.service.history ++ _) at hid
        rw [invokedIds, List.filterMap_append] at hid
        rcases List.mem_append.mp hid with hold | hnew
        · refine (hw.all id hold).imp_right ?_
          rintro ⟨c', hb, hown⟩
          refine ⟨c', ?_⟩
          have hc : c' ≠ c := by
            rintro rfl
            rw [hphase] at hb
            cases hb
          unfold Tester.setPhase
          dsimp only
          rw [Function.update_of_ne hc, Function.update_of_ne hc]
          exact ⟨hb, hown⟩
        · obtain rfl : id = opReg := by simpa using hnew
          refine Or.inr ⟨c, ?_, Function.update_self _ _ _⟩
          unfold Tester.setPhase
          dsimp only
          rw [Function.update_self]
          trivial }

/-- The method that client `c` has called returns. -/
theorem finish {call : TestCall} {value : String}
    (hw : Watched T H owner entries) (hphase : T.phase c = .waiting call)
    (hexplained : ∃ ops,
      (T.service.finish c call.req (owner c) value).Explained ops) :
    Watched
      { T.setPhase c (.returned call value) with
        service := T.service.finish c call.req (owner c) value }
      (H ++ [(.respond (owner c) (call.req.output value), T.clock)]) owner
      entries := by
  have hsub : H ⊆
      H ++ [(.respond (owner c) (call.req.output value), T.clock)] :=
    List.subset_append_left _ _
  have hknows := hw.clients c
  rw [hphase] at hknows
  obtain ⟨hpresent, _, hstart, hcalled⟩ := hknows
  have hinvoked := hw.mem_invokedIds_of_called hcalled
  have hsilent : owner c ∉ respondedIds T.service.history := by
    obtain ⟨ops, hex⟩ := hw.explained
    obtain ⟨req, hpending⟩ := (hex.clerks c).exists_pending hpresent
    intro hmem
    obtain ⟨output, hrespond⟩ := mem_respondedIds.mp hmem
    exact hpending.silent output hrespond
  have hiff : ∀ c', (Function.update T.phase c (.returned call value)
      c').Busy ↔ (T.phase c').Busy := by
    intro c'
    by_cases hc : c' = c
    · rw [hc, Function.update_self, hphase]
      exact Iff.rfl
    · rw [Function.update_of_ne hc]
  exact
    { stamps := hw.stamps.append _
      proper := hw.proper.respond hinvoked hsilent _
      explained := hexplained
      log := hw.log
      logged := fun x hx ↦ (hw.logged x hx).mono hsub
      names := hw.names
      clients := hw.clients_update hsub rfl rfl rfl (fun _ _ ↦ rfl)
        ⟨rfl, hstart, hcalled.mono hsub, T.clock, le_rfl,
          List.mem_append_right _ List.mem_cons_self⟩
      unlogged := fun c' hb ↦ hw.unlogged c' ((hiff c').mp hb)
      distinct := fun c₁ c₂ h₁ h₂ ↦
        hw.distinct c₁ c₂ ((hiff c₁).mp h₁) ((hiff c₂).mp h₂)
      all := by
        intro id hid
        change id ∈ invokedIds (T.service.history ++ _) at hid
        rw [invokedIds, List.filterMap_append] at hid
        rcases List.mem_append.mp hid with hold | hnew
        · refine (hw.all id hold).imp_right ?_
          rintro ⟨c', hb, hown⟩
          exact ⟨c', (hiff c').mpr hb, hown⟩
        · cases hnew }

/-- Client `c` appends its operation to the log. -/
theorem record {call : TestCall} {value : String} {stop : ℤ}
    (hw : Watched T H owner entries)
    (hphase : T.phase c = .ended call value stop) :
    Watched
      { T.setPhase c .idle with
        log := T.log ++ [call.operation value stop] } H owner
      (entries ++ [(call.operation value stop, owner c)]) := by
  have hknows := hw.clients c
  rw [hphase] at hknows
  obtain ⟨hpresent, hforward, hcalled, hanswered⟩ := hknows
  have hbusy : (T.phase c).Busy := by rw [hphase]; trivial
  have hrest : ∀ c', (Function.update T.phase c .idle c').Busy →
      c' ≠ c ∧ (T.phase c').Busy := by
    intro c' hb
    by_cases hc : c' = c
    · rw [hc, Function.update_self] at hb
      cases hb
    · rw [Function.update_of_ne hc] at hb
      exact ⟨hc, hb⟩
  have hnames : (entries ++ [(call.operation value stop, owner c)]).map
      Prod.snd = entries.map Prod.snd ++ [owner c] := by simp
  exact
    { stamps := hw.stamps
      proper := hw.proper
      explained := hw.explained
      log := by
        rw [List.map_append, hw.log]
        rfl
      logged := by
        intro x hx
        rcases List.mem_append.mp hx with hx | hx
        · exact hw.logged x hx
        · obtain rfl := List.mem_singleton.mp hx
          exact ⟨hcalled, hanswered, hforward⟩
      names := by
        rw [hnames]
        exact hw.names.append (List.nodup_singleton _)
          (List.disjoint_singleton.mpr (hw.unlogged c hbusy))
      clients := by
        intro c'
        unfold Tester.setPhase
        dsimp only
        by_cases hc : c' = c
        · rw [hc, Function.update_self]
          exact hpresent
        · rw [Function.update_of_ne hc]
          exact hw.clients c'
      unlogged := by
        intro c' hb hmem
        obtain ⟨hc, hb'⟩ := hrest c' hb
        rw [hnames] at hmem
        rcases List.mem_append.mp hmem with hmem | hmem
        · exact hw.unlogged c' hb' hmem
        · exact hc (hw.distinct c' c hb' hbusy (List.mem_singleton.mp hmem))
      distinct := fun c₁ c₂ h₁ h₂ ↦
        hw.distinct c₁ c₂ (hrest c₁ h₁).2 (hrest c₂ h₂).2
      all := by
        intro id hid
        rw [hnames]
        rcases hw.all id hid with hmem | ⟨c', hb, hown⟩
        · exact Or.inl (List.mem_append_left _ hmem)
        · by_cases hc : c' = c
          · rw [← hown, hc]
            exact Or.inl (List.mem_append_right _ List.mem_cons_self)
          · refine Or.inr ⟨c', ?_, hown⟩
            unfold Tester.setPhase
            dsimp only
            rwa [Function.update_of_ne hc] }

/-- Every step of a test keeps what is known. -/
theorem step {a : TestAction Clerk} (hw : Watched T H owner entries)
    (hfresh : T.Fresh a) (hstep : T.step a = some T') :
    ∃ H' owner' entries', Watched T' H' owner' entries' := by
  cases a with
  | tick d =>
      obtain rfl := Option.some.inj hstep
      exact ⟨H, owner, entries, hw.tick d⟩
  | start c req cli =>
      simp only [Tester.step] at hstep
      split at hstep
      · next hphase =>
          obtain rfl := Option.some.inj hstep
          have hknows := hw.clients c
          rw [hphase] at hknows
          refine ⟨H, owner, entries, hw.setPhase ?_ ⟨hknows, le_rfl⟩⟩
          rw [hphase]
          exact Iff.rfl
      · cases hstep
  | call c opReg =>
      simp only [Tester.step] at hstep
      split at hstep
      · next call hphase =>
          obtain ⟨σ, hservice, rfl⟩ := Option.map_eq_some_iff.mp hstep
          obtain ⟨ops, hex⟩ := hw.explained
          have hex' := hex.step (a := .invoke c call.req opReg) hfresh hservice
          cases Service.step_transition hservice with
          | invoke _ =>
              exact ⟨_, _, entries, hw.call hphase hfresh hex'⟩
      · cases hstep
  | execute c =>
      obtain ⟨σ, hservice, rfl⟩ := Option.map_eq_some_iff.mp hstep
      obtain ⟨ops, hex⟩ := hw.explained
      exact ⟨H, owner, entries, hw.keep (Service.keeps_of_execute hservice)
        (hex.step (a := .execute c) trivial hservice)⟩
  | fail c =>
      obtain ⟨σ, hservice, rfl⟩ := Option.map_eq_some_iff.mp hstep
      obtain ⟨ops, hex⟩ := hw.explained
      exact ⟨H, owner, entries, hw.keep (Service.keeps_of_fail hservice)
        (hex.step (a := .fail c) trivial hservice)⟩
  | reply c =>
      simp only [Tester.step, Tester.reply] at hstep
      split at hstep
      · next σ call hservice hphase =>
          obtain ⟨ops, hex⟩ := hw.explained
          have hex' := hex.step (a := .reply c) trivial hservice
          have hknows := hw.clients c
          rw [hphase] at hknows
          obtain ⟨hpresent, hrequest, _⟩ := hknows
          rcases Service.reply_cases hservice with
            ⟨req, opReg, value, hvalue, hopReg, hreq, rfl⟩ | ⟨hnone, hkeeps⟩
          · rw [hvalue] at hstep
            obtain rfl := Option.some.inj hstep
            obtain rfl := Option.some.inj (hreq.symm.trans hrequest)
            obtain rfl := Option.some.inj (hopReg.symm.trans hpresent)
            exact ⟨_, owner, entries, hw.finish hphase hex'⟩
          · rw [hnone] at hstep
            obtain rfl := Option.some.inj hstep
            exact ⟨H, owner, entries, hw.keep hkeeps hex'⟩
      · cases hstep
  | stop c =>
      simp only [Tester.step] at hstep
      split at hstep
      · next call value hphase =>
          obtain rfl := Option.some.inj hstep
          have hknows := hw.clients c
          rw [hphase] at hknows
          refine ⟨H, owner, entries, hw.setPhase ?_ hknows⟩
          rw [hphase]
          exact Iff.rfl
      · cases hstep
  | record c =>
      simp only [Tester.step] at hstep
      split at hstep
      · next call value stop hphase =>
          obtain rfl := Option.some.inj hstep
          exact ⟨H, owner, _, hw.record hphase⟩
      · cases hstep

end Watched

/-! ## The check of the log -/

section Check

variable [DecidableEq Clerk] {T : Tester Clerk} {H : Stamped}
  {owner : Clerk → OpReg} {entries : List Entry}

omit [DecidableEq Clerk] in
/-- When all clients are done, the log reports the whole history. -/
theorem Watched.reports (hw : Watched T H owner entries)
    (hidle : ∀ c, T.phase c = .idle) :
    Reports (observed.comap Prod.fst) Prod.snd T.service.history entries := by
  have hmem : ∀ {e t}, (e, t) ∈ H → e ∈ T.service.history := by
    intro e t he
    rw [← hw.stamps.events]
    exact List.mem_map_of_mem he
  have hall : ∀ id ∈ invokedIds T.service.history,
      id ∈ entries.map Prod.snd := by
    intro id hid
    refine (hw.all id hid).resolve_right ?_
    rintro ⟨c, hbusy, _⟩
    rw [hidle c] at hbusy
    cases hbusy
  refine ⟨⟨hw.proper.invokes, hw.proper.responds, hw.proper.ordered,
    fun id hid ↦ ?_⟩, hw.names, fun x hx ↦ ?_, fun x hx ↦ ?_,
    fun id i hinvoke ↦ ?_⟩
  · obtain ⟨x, hx, rfl⟩ := List.mem_map.mp (hall id hid)
    obtain ⟨t, _, hrespond⟩ := (hw.logged x hx).answered
    exact mem_respondedIds.mpr ⟨_, hmem hrespond⟩
  · obtain ⟨t, _, hinvoke⟩ := (hw.logged x hx).called
    exact hmem hinvoke
  · obtain ⟨t, _, hrespond⟩ := (hw.logged x hx).answered
    exact hmem hrespond
  · exact List.mem_map.mp (hall id (mem_invokedIds.mpr ⟨i, hinvoke⟩))

omit [DecidableEq Clerk] in
/-- The log of finished clients is linearizable. -/
theorem Watched.timedLinearizable (hw : Watched T H owner entries)
    (hidle : ∀ c, T.phase c = .idle) :
    TimedLinearizable kvModels observed T.log := by
  obtain ⟨ops, hex⟩ := hw.explained
  rw [← hw.log, timedLinearizable_map]
  refine (hw.reports hidle).timedLinearizable (fun x hx y hy hlt ↦ ?_)
    ⟨ops, _, hex.linear⟩
  exact hw.stamps.precedes (hw.logged x hx).answered (hw.logged y hy).called
    hlt

end Check

end DistLabs.Kvsrv
