import DistLabs.Labrpc.Calls
import Mathlib.Algebra.Order.BigOperators.Group.List
import Mathlib.Algebra.Order.Ring.Nat

/-!
# Calls return

A call waits for nothing but its own handler, and for that only as long as the
server is there.  Every other step of a call brings it nearer to its end, so
that a call returns unless its handler does not return, and no other goroutine
is left behind.
-/

namespace DistLabs.Labrpc

/-- A bound on the steps that a call still has to take. -/
@[simp] def Phase.remaining {Name Obj : Type} : Phase Name Obj → ℕ
  | .sending => 10
  | .accepted => 9
  | .admitted _ => 8
  | .waiting _ => 3
  | .answered _ _ => 2
  | .forsaken _ => 2
  | .replying _ => 1
  | .returned _ => 0

/-- A bound on the steps that the goroutine of a handler still has to take; of
the sections of the handler only the last one counts. -/
@[simp] def Work.remaining {Obj κ : Type} : Work Obj κ → ℕ
  | .absent => 0
  | .launched _ => 4
  | .dispatched _ => 3
  | .running _ _ => 2
  | .finished _ _ => 1
  | .collected _ _ => 0

/-- The goroutine of the handler has ended, or was never started. -/
def Work.IsOver {Obj κ : Type} : Work Obj κ → Prop
  | .absent => True
  | .collected _ _ => True
  | _ => False

/-- The moves of the network, as opposed to those of a server. -/
def Move.IsNetwork : Move → Prop
  | .dispatch => False
  | .invoke => False
  | .handle => False
  | _ => True

/-- All moves of a call. -/
def Move.all : List Move :=
  [.accept, .abandon, .readInfo, .dropRequest, .launch, .dispatch, .invoke,
    .handle, .receive, .poll, .drain, .conclude false, .conclude true, .deliver]

theorem Move.mem_all (m : Move) : m ∈ Move.all := by
  cases m with
  | conclude dropReply => cases dropReply <;> decide
  | _ => decide

def Call.remaining {End Name Obj κ : Type} (call : Call End Name Obj κ) : ℕ :=
  call.phase.remaining + call.work.remaining

theorem sum_map_set_lt {α : Type} {f : α → ℕ} {y : α} :
    ∀ {l : List α} {c : ℕ} {x : α}, l[c]? = some x → f y < f x →
      ((l.set c y).map f).sum < (l.map f).sum
  | [], _, _, h, _ => by cases h
  | _ :: l, 0, _, h, hlt => by
      obtain rfl := Option.some.inj h
      simpa using hlt
  | _ :: l, c + 1, _, h, hlt => by
      simpa using sum_map_set_lt (l := l) h hlt

/-- The loop of `processReq` is about to find the server dead. -/
def Phase.FindsDead {End Name Obj : Type} [DecidableEq Obj]
    (rn : Network End Name Obj) (endname : End) : Phase Name Obj → Prop
  | .waiting route =>
      rn.isServerDead endname route.servername route.server = true
  | _ => False

instance {End Name Obj : Type} [DecidableEq Obj] (rn : Network End Name Obj)
    (endname : End) (phase : Phase Name Obj) :
    Decidable (phase.FindsDead rn endname) := by
  induction phase using Phase.casesOn <;> dsimp only [Phase.FindsDead] <;>
    infer_instance

namespace System

variable {End Name Obj σ κ : Type} [DecidableEq Obj]

/-- A bound on the steps that the calls which have begun can still take; a crash
takes one step more. -/
def pending (s : System End Name Obj σ κ) : ℕ :=
  (s.calls.map Call.remaining).sum + if s.fatal then 0 else 1

variable {s s' : System End Name Obj σ κ} {c : ℕ} {call : Call End Name Obj κ}

omit [DecidableEq Obj] in
theorem pending_lt_of_set (hcall : s.calls[c]? = some call)
    {call' : Call End Name Obj κ} (hcalls : s'.calls = s.calls.set c call')
    (hfatal : s'.fatal = s.fatal) (hlt : call'.remaining < call.remaining) :
    s'.pending < s.pending := by
  have hsum := sum_map_set_lt hcall hlt
  rw [pending, pending, hcalls, hfatal]
  omega

omit [DecidableEq Obj] in
theorem pending_eq_of_set (hcall : s.calls[c]? = some call)
    {call' : Call End Name Obj κ} (hcalls : s'.calls = s.calls.set c call')
    (hfatal : s'.fatal = s.fatal)
    (hsame : call'.remaining = call.remaining) : s'.pending = s.pending := by
  have hmap : (s.calls.map Call.remaining)[c]? = some call'.remaining := by
    rw [List.getElem?_map, hcall, Option.map_some, hsame]
  rw [pending, pending, hcalls, hfatal, List.map_set, set_eq_self hmap]

omit [DecidableEq Obj] in
theorem pending_lt_of_phase (hcall : s.calls[c]? = some call)
    {phase : Phase Name Obj}
    (hcalls : s'.calls = s.calls.set c { call with phase := phase })
    (hfatal : s'.fatal = s.fatal)
    (hlt : phase.remaining < call.phase.remaining) :
    s'.pending < s.pending :=
  pending_lt_of_set hcall hcalls hfatal (Nat.add_lt_add_right hlt _)

omit [DecidableEq Obj] in
theorem pending_lt_of_work (hcall : s.calls[c]? = some call)
    {work : Work Obj κ}
    (hcalls : s'.calls = s.calls.set c { call with work := work })
    (hfatal : s'.fatal = s.fatal)
    (hlt : work.remaining < call.work.remaining) :
    s'.pending < s.pending :=
  pending_lt_of_set hcall hcalls hfatal (Nat.add_lt_add_left hlt _)

omit [DecidableEq Obj] in
theorem pending_lt_of_crash (hcalls : s'.calls = s.calls)
    (hbefore : s.fatal = false) (hafter : s'.fatal = true) :
    s'.pending < s.pending := by
  rw [pending, pending, hcalls, hbefore, hafter]
  simp

/-- Call number `c` waits for a server that is dead. -/
def FindsDead (s : System End Name Obj σ κ) (c : ℕ) : Prop :=
  ∃ call ∈ s.calls[c]?, call.phase.FindsDead s.net call.req.endname

instance (s : System End Name Obj σ κ) (c : ℕ) : Decidable (s.FindsDead c) :=
  inferInstanceAs (Decidable (∃ call ∈ s.calls[c]?, _))

/-- The next section of the handler of call number `c` is not its last. -/
def GoesOn (s : System End Name Obj σ κ) (c : ℕ) : Prop :=
  ∃ call server handler state handler', s.calls[c]? = some call ∧
    call.work = .running server handler ∧
      (s.heap server).run handler (s.heap server).state =
        some (state, .goesOn handler')

/-- A call makes a step that is neither a mere look at the server nor a section
after which its handler goes on. -/
def Productive (s : System End Name Obj σ κ) : Action End Name Obj → Prop
  | .move c .poll => s.FindsDead c
  | .move c .handle => ¬ s.GoesOn c
  | .move _ _ => True
  | _ => False

/-- Every productive move brings a call nearer to its end, and no other move
takes it away from it. -/
theorem Moved.pending {m : Move} (hcall : s.calls[c]? = some call)
    (hmoved : Moved s c call m s') (hfatal : s.fatal = false) :
    s'.pending < s.pending ∨
      s'.pending = s.pending ∧ ¬ s.Productive (.move c m) := by
  cases hmoved with
  | goOn hwork hsection =>
      refine Or.inr ⟨?_, fun hlast ↦
        hlast ⟨call, _, _, _, _, hcall, hwork, hsection⟩⟩
      exact pending_eq_of_set hcall rfl rfl (by simp [Call.remaining, hwork])
  | keepWaiting hphase halive =>
      refine Or.inr ⟨rfl, ?_⟩
      rintro ⟨call₁, hcall₁, hdead⟩
      obtain rfl : call = call₁ := Option.some.inj (hcall.symm.trans hcall₁)
      rw [hphase, Phase.FindsDead, halive] at hdead
      cases hdead
  | accept hphase =>
      exact Or.inl (pending_lt_of_phase hcall rfl rfl (by simp [hphase]))
  | abandon hphase =>
      exact Or.inl (pending_lt_of_phase hcall rfl rfl (by simp [hphase]))
  | found hphase =>
      exact Or.inl (pending_lt_of_phase hcall rfl rfl (by simp [hphase]))
  | refuse hphase =>
      exact Or.inl (pending_lt_of_phase hcall rfl rfl (by simp [hphase]))
  | dropRequest hphase =>
      exact Or.inl (pending_lt_of_phase hcall rfl rfl (by simp [hphase]))
  | launch hphase =>
      refine Or.inl (pending_lt_of_set hcall rfl rfl ?_)
      simp only [Call.remaining, hphase, Phase.remaining, Work.remaining]
      omega
  | dispatch hwork =>
      exact Or.inl (pending_lt_of_work hcall rfl rfl (by simp [hwork]))
  | unknownService => exact Or.inl (pending_lt_of_crash rfl hfatal rfl)
  | invoke hwork =>
      exact Or.inl (pending_lt_of_work hcall rfl rfl (by simp [hwork]))
  | unknownMethod => exact Or.inl (pending_lt_of_crash rfl hfatal rfl)
  | finish hwork =>
      exact Or.inl (pending_lt_of_work hcall rfl rfl (by simp [hwork]))
  | panic => exact Or.inl (pending_lt_of_crash rfl hfatal rfl)
  | receive hphase hwork =>
      exact Or.inl (pending_lt_of_set hcall rfl rfl
        (by simp [Call.remaining, hphase, hwork]))
  | forsake hphase =>
      exact Or.inl (pending_lt_of_phase hcall rfl rfl (by simp [hphase]))
  | drain _ hwork =>
      exact Or.inl (pending_lt_of_work hcall rfl rfl (by simp [hwork]))
  | giveUp hphase =>
      exact Or.inl (pending_lt_of_phase hcall rfl rfl (by simp [hphase]))
  | disown hphase =>
      exact Or.inl (pending_lt_of_phase hcall rfl rfl (by simp [hphase]))
  | dropReply hphase =>
      exact Or.inl (pending_lt_of_phase hcall rfl rfl (by simp [hphase]))
  | confirm hphase =>
      exact Or.inl (pending_lt_of_phase hcall rfl rfl (by simp [hphase]))
  | deliver hphase =>
      exact Or.inl (pending_lt_of_phase hcall rfl rfl (by simp [hphase]))

variable [DecidableEq End] [DecidableEq Name]

theorem step_move (hfatal : s.fatal = false) (hcall : s.calls[c]? = some call)
    (m : Move) : s.step (.move c m) = s.move c call m := by
  rw [step.eq_def, hfatal]
  simp [hcall]

omit [DecidableEq Obj] [DecidableEq End] [DecidableEq Name] in
/-- The goroutine of `MakeNetwork` ends only when the network is destroyed. -/
def Serves (s : System End Name Obj σ κ) : Prop :=
  s.listening = true ∨ s.done = true

theorem Serves.step (h : s.Serves) {a : Action End Name Obj}
    (hstep : s.step a = some s') : s'.Serves := by
  cases (step_stepped hstep).2 with
  | move _ hmoved => cases hmoved <;> exact h
  | cleanup => exact Or.inr rfl
  | stop hdone => exact Or.inr hdone
  | _ => exact h

/-- Call number `c` can go on without its server. -/
def CanMove (s : System End Name Obj σ κ) (c : ℕ) : Prop :=
  ∃ m : Move, m.IsNetwork ∧ s.Productive (.move c m) ∧
    (s.step (.move c m)).isSome

/-- A move other than `poll` that the call can make. -/
theorem CanMove.of_move (hfatal : s.fatal = false)
    (hcall : s.calls[c]? = some call) {m : Move} (hnetwork : m.IsNetwork)
    (hpoll : m ≠ .poll) (hmove : (s.move c call m).isSome) : s.CanMove c := by
  refine ⟨m, hnetwork, ?_, ?_⟩
  · cases m <;> first
      | exact trivial | exact absurd rfl hpoll | exact hnetwork.elim
  · rwa [step_move hfatal hcall]

/-- A call that has not returned can go on, or waits for its handler on a server
that is there. -/
theorem canMove_or_waiting (hconsistent : s.Consistent) (hserves : s.Serves)
    (hfatal : s.fatal = false) (hcall : s.calls[c]? = some call) :
    (∃ reply, call.phase = .returned reply) ∨ s.CanMove c ∨
      ∃ route, call.phase = .waiting route ∧
        call.work.IsRunning route.server ∧
          s.net.isServerDead call.req.endname route.servername
            route.server = false := by
  have hcoherent := hconsistent.coherent hcall
  have hcan : ∀ {m : Move}, m.IsNetwork → m ≠ .poll →
      (s.move c call m).isSome → s.CanMove c :=
    fun hnetwork hpoll hmove ↦ .of_move hfatal hcall hnetwork hpoll hmove
  unfold Call.Coherent at hcoherent
  cases hphase : call.phase with
  | sending =>
      refine Or.inr (Or.inl ?_)
      obtain hlistening | hdone := hserves
      · exact hcan (m := .accept) trivial (by decide)
          (by simp [move, accept, hphase, hlistening])
      · exact hcan (m := .abandon) trivial (by decide)
          (by simp [move, abandon, hphase, hdone])
  | accepted =>
      refine Or.inr (Or.inl (hcan (m := .readInfo) trivial (by decide) ?_))
      simp only [move, readInfo, hphase]
      split <;> rfl
  | admitted route =>
      exact Or.inr (Or.inl (hcan (m := .launch) trivial (by decide)
        (by simp [move, launch, hphase])))
  | waiting route =>
      simp only [hphase] at hcoherent
      cases hdead : s.net.isServerDead call.req.endname route.servername
          route.server with
      | true =>
          refine Or.inr (Or.inl ⟨.poll, trivial, ⟨call, hcall, ?_⟩, ?_⟩)
          · rw [hphase]
            exact hdead
          · rw [step_move hfatal hcall]
            simp [move, poll, hphase, hdead]
      | false =>
          obtain hrunning | ⟨reply, hwork⟩ := hcoherent
          · exact Or.inr (Or.inr ⟨route, rfl, hrunning, hdead⟩)
          · exact Or.inr (Or.inl (hcan (m := .receive) trivial (by decide)
              (by simp [move, receive, hphase, hwork])))
  | answered route reply =>
      refine Or.inr (Or.inl
        (hcan (m := .conclude false) trivial (by decide) ?_))
      simp only [move, conclude, hphase]
      split <;> rfl
  | forsaken route =>
      exact Or.inr (Or.inl (hcan (m := .conclude false) trivial (by decide)
        (by simp [move, conclude, hphase])))
  | replying reply =>
      exact Or.inr (Or.inl (hcan (m := .deliver) trivial (by decide)
        (by simp [move, deliver, hphase])))
  | returned reply => exact Or.inl ⟨reply, rfl⟩

/-- The handler waits on its server. -/
def Blocked (s : System End Name Obj σ κ) (call : Call End Name Obj κ)
    (server : Obj) : Prop :=
  ∃ handler, call.work = .running server handler ∧
    (s.heap server).run handler (s.heap server).state = none

/-- No call can go on except by a look at a server that is there. -/
def Quiet (s : System End Name Obj σ κ) : Prop :=
  ∀ c m, (m = .poll → s.FindsDead c) → s.step (.move c m) = none

theorem quiet_iff :
    s.Quiet ↔ ∀ c < s.calls.length, ∀ m ∈ Move.all,
      (m = .poll → s.FindsDead c) → (s.step (.move c m)).isNone := by
  refine ⟨?_, ?_⟩
  · intro h c _ m _ hpoll
    rw [h c m hpoll]
    rfl
  · intro h c m hpoll
    by_cases hc : c < s.calls.length
    · exact Option.isNone_iff_eq_none.mp (h c hc m m.mem_all hpoll)
    · rw [step.eq_def]
      simp [List.getElem?_eq_none (Nat.le_of_not_lt hc)]

instance (s : System End Name Obj σ κ) : Decidable s.Quiet :=
  decidable_of_iff _ quiet_iff.symm

theorem Quiet.move_eq_none (h : s.Quiet) (hfatal : s.fatal = false)
    (hcall : s.calls[c]? = some call) {m : Move} (hpoll : m ≠ .poll) :
    s.move c call m = none := by
  rw [← step_move hfatal hcall]
  exact h c m fun hm ↦ absurd hm hpoll

/-- When no call can go on, a handler that has not returned waits. -/
theorem Quiet.blocked (h : s.Quiet) (hfatal : s.fatal = false)
    (hcall : s.calls[c]? = some call) {server : Obj}
    (hrunning : call.work.IsRunning server) : s.Blocked call server := by
  obtain hwork | hwork | ⟨handler, hwork⟩ := hrunning
  · have hnone := h.move_eq_none hfatal hcall (m := .dispatch) (by decide)
    simp only [move, dispatch, hwork] at hnone
    split at hnone <;> cases hnone
  · have hnone := h.move_eq_none hfatal hcall (m := .invoke) (by decide)
    simp only [move, invoke, hwork] at hnone
    split at hnone <;> cases hnone
  · have hnone := h.move_eq_none hfatal hcall (m := .handle) (by decide)
    simp only [move, handle, hwork] at hnone
    refine ⟨handler, hwork, ?_⟩
    split at hnone
    · cases hnone
    · cases hnone
    · cases hnone
    · assumption

variable {heap : Obj → Server σ κ} {visited : List (System End Name Obj σ κ)}

theorem serves_of_run
    (hrun : Run step (fun _ _ ↦ True) (start heap) visited s) : s.Serves :=
  hrun.invariant (I := Serves) (Or.inl rfl) fun h _ hstep ↦ h.step hstep

/-- In a program that has not crashed, a call that has not returned can go on,
or it waits for its handler on a server that has not been deleted behind an end
that is enabled. -/
theorem call_waits_for_handler
    (hrun : Run step (fun _ _ ↦ True) (start heap) visited s)
    (hfatal : s.fatal = false) (hcall : s.calls[c]? = some call) :
    (∃ reply, call.phase = .returned reply) ∨ s.CanMove c ∨
      ∃ route, call.phase = .waiting route ∧
        call.work.IsRunning route.server ∧
          s.net.enabled call.req.endname = true ∧
            s.net.servers route.servername = some route.server := by
  obtain hret | hcan | ⟨route, hphase, hrunning, halive⟩ :=
    canMove_or_waiting (consistent_of_run hrun) (serves_of_run hrun) hfatal
      hcall
  · exact Or.inl hret
  · exact Or.inr (Or.inl hcan)
  · refine Or.inr (Or.inr ⟨route, hphase, hrunning, ?_⟩)
    simpa [Network.isServerDead] using halive

/-- The handler of the first call has not returned when its server is
deleted. -/
theorem call_waits_for_handler_adder :
    ∃ (s : System Unit (Fin 1) Unit ℕ AdderHandler)
      (call : Call Unit (Fin 1) Unit AdderHandler),
      s.calls[0]? = some call ∧ s.net.servers 0 = none ∧
        ((∃ reply, call.phase = .returned reply) ∨ s.CanMove 0 ∨
          ∃ route, call.phase = .waiting route ∧
            call.work.IsRunning route.server ∧
              s.net.enabled call.req.endname = true ∧
                s.net.servers route.servername = some route.server) := by
  obtain ⟨visited, s, hrun, hfatal, hsome, hdeleted⟩ :=
    Run.exists_of_exec step (fun _ _ ↦ True) (start adder)
      (adderSetup ++ adderCall 0 ++ [.control (.deleteServer 0)])
      (fun s ↦ s.fatal = false ∧ (s.calls[0]?).isSome ∧
        s.net.servers 0 = none)
      (by decide +kernel)
  obtain ⟨call, hcall⟩ := Option.isSome_iff_exists.mp hsome
  exact ⟨s, call, hcall, hdeleted, call_waits_for_handler hrun hfatal hcall⟩

end System

end DistLabs.Labrpc
