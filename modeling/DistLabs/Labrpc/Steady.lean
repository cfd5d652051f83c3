import DistLabs.Labrpc.Progress

/-!
# Nothing runs after its call has returned

A call whose server is deleted, or whose end is disabled, returns while its
handler may still run.  If a test spares the calls that are in progress, this
cannot happen: when a call returns, true or false, its handler has run to its
end or will never run.
-/

namespace DistLabs.Labrpc

def Phase.IsReturned {Name Obj : Type} : Phase Name Obj → Prop
  | .returned _ => True
  | _ => False

instance {Name Obj : Type} (phase : Phase Name Obj) :
    Decidable phase.IsReturned := by
  induction phase using Phase.casesOn <;> dsimp only [Phase.IsReturned] <;>
    infer_instance

/-- The server that `processReq` has found. -/
def Phase.route? {Name Obj : Type} : Phase Name Obj → Option (Route Name Obj)
  | .admitted route => some route
  | .waiting route => some route
  | .answered route _ => some route
  | .forsaken route => some route
  | _ => none

/-- The goroutine of the handler has ended when `processReq` has decided on its
reply, and the server has not been found dead. -/
def Call.Settled {End Name Obj κ : Type} (call : Call End Name Obj κ) : Prop :=
  match call.phase with
  | .forsaken _ => False
  | .replying _ => call.work.IsOver
  | .returned _ => call.work.IsOver
  | _ => True

/-- A test does nothing that ends a call in progress. -/
def Control.Spares {End Name Obj κ : Type} (call : Call End Name Obj κ) :
    Control End Name Obj → Prop
  | .makeEnd endname => call.phase.IsReturned ∨ call.req.endname ≠ endname
  | .deleteEnd endname => call.phase.IsReturned ∨ call.req.endname ≠ endname
  | .enable endname enabled =>
      enabled = true ∨ call.phase.IsReturned ∨ call.req.endname ≠ endname
  | .addServer servername _ =>
      ∀ route ∈ call.phase.route?, route.servername ≠ servername
  | .deleteServer servername =>
      ∀ route ∈ call.phase.route?, route.servername ≠ servername
  | _ => True

instance {End Name Obj κ : Type} [DecidableEq End] [DecidableEq Name]
    (call : Call End Name Obj κ) (ctl : Control End Name Obj) :
    Decidable (ctl.Spares call) := by
  induction ctl using Control.casesOn <;> dsimp only [Control.Spares] <;>
    infer_instance

theorem Call.Settled.of_running {End Name Obj κ : Type}
    {call : Call End Name Obj κ} (h : call.Settled) (hwork : ¬ call.work.IsOver)
    (work : Work Obj κ) :
    ({ call with work := work } : Call End Name Obj κ).Settled := by
  unfold Call.Settled at h ⊢
  cases hphase : call.phase <;> simp_all

namespace Network

variable {End Name Obj : Type} [DecidableEq Obj]

/-- A server is alive when it has just been found. -/
theorem isServerDead_of_route {rn : Network End Name Obj} {endname : End}
    {route : Route Name Obj}
    (h : (rn.readEndnameInfo endname).route = some route) :
    rn.isServerDead endname route.servername route.server = false := by
  unfold EndnameInfo.route readEndnameInfo at h
  dsimp only at h
  split at h
  · next henabled hname hserver =>
      obtain rfl := Option.some.inj h
      rw [hname] at hserver
      simp only [Option.bind_some] at hserver
      simp [isServerDead, henabled, hserver]
  · cases h

theorem alive_of_eq {rn rn' : Network End Name Obj} {endname : End}
    {servername : Name} {server : Obj}
    (halive : rn.isServerDead endname servername server = false)
    (henabled : rn'.enabled endname = rn.enabled endname)
    (hservers : rn'.servers servername = rn.servers servername) :
    rn'.isServerDead endname servername server = false := by
  rwa [isServerDead, henabled, hservers]

end Network

namespace System

variable {End Name Obj σ κ : Type} [DecidableEq Obj]

/-- The servers of the calls in progress are there, and no goroutine outlives
its call. -/
structure Steady (s : System End Name Obj σ κ) : Prop where
  alive : ∀ call ∈ s.calls, ∀ route ∈ call.phase.route?,
    s.net.isServerDead call.req.endname route.servername route.server = false
  settled : ∀ call ∈ s.calls, call.Settled

variable {s s' : System End Name Obj σ κ} {c : ℕ} {call : Call End Name Obj κ}

theorem Steady.of_calls_nil (h : s.calls = []) : s.Steady where
  alive := by simp [h]
  settled := by simp [h]

theorem Steady.setCall (h : s.Steady) {call' : Call End Name Obj κ}
    (hcalls : s'.calls = s.calls.set c call')
    (henabled : s'.net.enabled = s.net.enabled)
    (hservers : s'.net.servers = s.net.servers)
    (halive : ∀ route ∈ call'.phase.route?,
      s.net.isServerDead call'.req.endname route.servername
        route.server = false)
    (hsettled : call'.Settled) : s'.Steady where
  alive := by
    intro call₁ hmem route hroute
    have hbefore : s.net.isServerDead call₁.req.endname route.servername
        route.server = false := by
      rw [hcalls] at hmem
      obtain hold | rfl := List.mem_or_eq_of_mem_set hmem
      · exact h.alive call₁ hold route hroute
      · exact halive route hroute
    exact Network.alive_of_eq hbefore (congrFun henabled _)
      (congrFun hservers _)
  settled := by
    intro call₁ hmem
    rw [hcalls] at hmem
    obtain hold | rfl := List.mem_or_eq_of_mem_set hmem
    · exact h.settled call₁ hold
    · exact hsettled

/-- The call has no server yet, or it needs it no longer. -/
theorem Steady.setCall_of_none (h : s.Steady) {call' : Call End Name Obj κ}
    (hcalls : s'.calls = s.calls.set c call')
    (henabled : s'.net.enabled = s.net.enabled)
    (hservers : s'.net.servers = s.net.servers)
    (hroute : call'.phase.route? = none) (hsettled : call'.Settled) :
    s'.Steady := by
  refine h.setCall hcalls henabled hservers ?_ hsettled
  intro route hsome
  rw [hroute] at hsome
  cases hsome

theorem Steady.move (h : s.Steady) (hconsistent : s.Consistent) {m : Move}
    (hcall : s.calls[c]? = some call) (hmoved : Moved s c call m s') :
    s'.Steady := by
  have hmem := List.mem_of_getElem? hcall
  have halive := h.alive call hmem
  have hsettled := h.settled call hmem
  have hcoherent := hconsistent.coherent hcall
  unfold Call.Coherent at hcoherent
  cases hmoved with
  | accept hphase =>
      exact h.setCall_of_none rfl rfl rfl rfl trivial
  | abandon hphase =>
      simp only [hphase] at hcoherent
      refine h.setCall_of_none rfl rfl rfl rfl ?_
      simp [Call.Settled, hcoherent, Work.IsOver]
  | found hphase hroute =>
      refine h.setCall rfl rfl rfl ?_ trivial
      intro route₁ hroute₁
      obtain rfl := Option.some.inj hroute₁
      exact Network.isServerDead_of_route hroute
  | refuse hphase =>
      simp only [hphase] at hcoherent
      refine h.setCall_of_none rfl rfl rfl rfl ?_
      simp [Call.Settled, hcoherent, Work.IsOver]
  | dropRequest hphase =>
      simp only [hphase] at hcoherent
      refine h.setCall_of_none rfl rfl rfl rfl ?_
      simp [Call.Settled, hcoherent, Work.IsOver]
  | launch hphase =>
      refine h.setCall rfl rfl rfl ?_ trivial
      rw [hphase] at halive
      exact halive
  | dispatch hwork =>
      refine h.setCall rfl rfl rfl halive (hsettled.of_running ?_ _)
      simp [hwork, Work.IsOver]
  | unknownService => exact ⟨h.alive, h.settled⟩
  | invoke hwork =>
      refine h.setCall rfl rfl rfl halive (hsettled.of_running ?_ _)
      simp [hwork, Work.IsOver]
  | unknownMethod => exact ⟨h.alive, h.settled⟩
  | goOn hwork =>
      refine h.setCall rfl rfl rfl halive (hsettled.of_running ?_ _)
      simp [hwork, Work.IsOver]
  | finish hwork =>
      refine h.setCall rfl rfl rfl halive (hsettled.of_running ?_ _)
      simp [hwork, Work.IsOver]
  | panic => exact ⟨h.alive, h.settled⟩
  | receive hphase hwork =>
      refine h.setCall rfl rfl rfl ?_ trivial
      rw [hphase] at halive
      exact halive
  | forsake hphase hdead =>
      rw [hphase] at halive
      rw [halive _ rfl] at hdead
      cases hdead
  | keepWaiting => exact h
  | drain _ hwork =>
      refine h.setCall rfl rfl rfl halive (hsettled.of_running ?_ _)
      simp [hwork, Work.IsOver]
  | giveUp hphase =>
      simp only [Call.Settled, hphase] at hsettled
  | disown hphase hdead =>
      rw [hphase] at halive
      rw [halive _ rfl] at hdead
      cases hdead
  | dropReply hphase =>
      simp only [hphase] at hcoherent
      refine h.setCall_of_none rfl rfl rfl rfl ?_
      simp [Call.Settled, hcoherent, Work.IsOver]
  | confirm hphase =>
      simp only [hphase] at hcoherent
      refine h.setCall_of_none rfl rfl rfl rfl ?_
      simp [Call.Settled, hcoherent, Work.IsOver]
  | deliver hphase =>
      refine h.setCall_of_none rfl rfl rfl rfl ?_
      simpa only [Call.Settled, hphase] using hsettled

/-- A call in progress still finds its server after the test has spared it. -/
theorem isServerDead_of_spares [DecidableEq End] [DecidableEq Name]
    {ctl : Control End Name Obj} {net : Network End Name Obj}
    (hnet : s.net.control ctl = some net) (hspares : ctl.Spares call)
    {route : Route Name Obj} (hroute : route ∈ call.phase.route?)
    (halive : s.net.isServerDead call.req.endname route.servername
      route.server = false) :
    net.isServerDead call.req.endname route.servername
      route.server = false := by
  have hprogress : ¬ call.phase.IsReturned := by
    intro hreturned
    unfold Phase.IsReturned at hreturned
    split at hreturned
    · next hphase =>
        rw [hphase] at hroute
        cases hroute
    · exact hreturned
  cases ctl with
  | makeEnd endname =>
      have hne := hspares.resolve_left hprogress
      simp only [Network.control, Network.makeEnd] at hnet
      split at hnet
      · cases hnet
      · obtain rfl := Option.some.inj hnet
        exact Network.alive_of_eq halive (Function.update_of_ne hne _ _) rfl
  | deleteEnd endname =>
      have hne := hspares.resolve_left hprogress
      simp only [Network.control, Network.deleteEnd] at hnet
      split at hnet
      · obtain rfl := Option.some.inj hnet
        exact Network.alive_of_eq halive (Function.update_of_ne hne _ _) rfl
      · cases hnet
  | enable endname enabled =>
      obtain rfl := Option.some.inj hnet
      by_cases hend : call.req.endname = endname
      · obtain rfl : enabled = true := by
          obtain h | h | h := hspares
          · exact h
          · exact absurd h hprogress
          · exact absurd hend h
        simp_all [Network.isServerDead]
      · exact Network.alive_of_eq halive (Function.update_of_ne hend _ _) rfl
  | addServer servername rs =>
      obtain rfl := Option.some.inj hnet
      exact Network.alive_of_eq halive rfl
        (Function.update_of_ne (hspares route hroute) _ _)
  | deleteServer servername =>
      obtain rfl := Option.some.inj hnet
      exact Network.alive_of_eq halive rfl
        (Function.update_of_ne (hspares route hroute) _ _)
  | reliable yes =>
      obtain rfl := Option.some.inj hnet
      exact halive
  | longReordering yes =>
      obtain rfl := Option.some.inj hnet
      exact halive
  | connect endname servername =>
      obtain rfl := Option.some.inj hnet
      exact halive

variable [DecidableEq End] [DecidableEq Name]

omit [DecidableEq Obj] [DecidableEq End] [DecidableEq Name] in
/-- The test spares all calls in progress. -/
def Undisturbed (s : System End Name Obj σ κ) : Action End Name Obj → Prop
  | .control ctl => ∀ call ∈ s.calls, ctl.Spares call
  | _ => True

instance (s : System End Name Obj σ κ) (a : Action End Name Obj) :
    Decidable (s.Undisturbed a) := by
  induction a using Action.casesOn <;> dsimp only [Undisturbed] <;>
    infer_instance

theorem Steady.step (h : s.Steady) (hconsistent : s.Consistent)
    {a : Action End Name Obj} (hundisturbed : s.Undisturbed a)
    (hstep : s.step a = some s') : s'.Steady := by
  cases (step_stepped hstep).2 with
  | call =>
      refine ⟨?_, ?_⟩
      · intro call hmem route hroute
        rw [List.mem_append, List.mem_singleton] at hmem
        obtain hold | rfl := hmem
        · exact h.alive call hold route hroute
        · cases hroute
      · intro call hmem
        rw [List.mem_append, List.mem_singleton] at hmem
        obtain hold | rfl := hmem
        · exact h.settled call hold
        · exact trivial
  | move hcall hmoved => exact h.move hconsistent hcall hmoved
  | control hnet =>
      refine ⟨?_, h.settled⟩
      intro call hmem route hroute
      exact isServerDead_of_spares hnet (hundisturbed call hmem) hroute
        (h.alive call hmem route hroute)
  | _ => exact ⟨h.alive, h.settled⟩

/-- The executions of a call whose handler's goroutine has ended. -/
def Ended (c : ℕ) (executions : List (Execution End Obj))
    (s : System End Name Obj σ κ) : Prop :=
  s.executionsOf c = executions ∧
    ∃ call, s.calls[c]? = some call ∧ call.phase.IsReturned ∧ call.work.IsOver

omit [DecidableEq End] [DecidableEq Name] in
/-- A call that has returned and whose handler's goroutine has ended does
nothing more. -/
theorem Moved.not_ended {m : Move} (hmoved : Moved s c call m s')
    (hphase : call.phase.IsReturned) : ¬ call.work.IsOver := by
  intro hwork
  cases hmoved <;> simp_all [Phase.IsReturned, Work.IsOver]

theorem Ended.step {executions : List (Execution End Obj)}
    (h : Ended c executions s) {a : Action End Name Obj}
    (hstep : s.step a = some s') : Ended c executions s' := by
  obtain ⟨hexecutions, call, hcall, hphase, hwork⟩ := h
  cases (step_stepped hstep).2 with
  | call =>
      refine ⟨hexecutions, call, ?_, hphase, hwork⟩
      obtain ⟨hlt, -⟩ := List.getElem?_eq_some_iff.mp hcall
      rwa [List.getElem?_append_left hlt]
  | @move c₁ call₁ m _ hcall₁ hmoved =>
      have hne : c₁ ≠ c := by
        rintro rfl
        obtain rfl := Option.some.inj (hcall.symm.trans hcall₁)
        exact hmoved.not_ended hphase hwork
      obtain ⟨call', hcalls, -⟩ := hmoved.succeeds hcall₁
      refine ⟨?_, call, ?_, hphase, hwork⟩
      · rw [← hexecutions, executionsOf, executionsOf]
        obtain hsame | ⟨server, handler, reply, -, hadd⟩ := hmoved.executions
        · rw [hsame]
        · rw [hadd, List.filter_append]
          simp [hne]
      · rwa [hcalls, List.getElem?_set_ne hne]
  | _ => exact ⟨hexecutions, call, hcall, hphase, hwork⟩

/-- If the test spares the calls in progress, the handler of a call that has
returned does not run any more, whatever happens later. -/
theorem no_execution_after_return {heap : Obj → Server σ κ}
    {visited visited' : List (System End Name Obj σ κ)}
    (hrun : Run step Undisturbed (start heap) visited s)
    (hcall : s.calls[c]? = some call) {reply : ReplyMsg}
    (hphase : call.phase = .returned reply)
    (hlater : Run step (fun _ _ ↦ True) s visited' s') :
    s'.executionsOf c = s.executionsOf c ∧
      ∀ call', s'.calls[c]? = some call' → call'.work.IsOver := by
  obtain ⟨-, hsteady⟩ := hrun.invariant
    (I := fun s ↦ s.Consistent ∧ s.Steady)
    ⟨.start heap, .of_calls_nil rfl⟩
    fun h hok hstep ↦ ⟨h.1.step hstep, h.2.step h.1 hok hstep⟩
  have hsettled := hsteady.settled call (List.mem_of_getElem? hcall)
  have hended : Ended c (s.executionsOf c) s := by
    refine ⟨rfl, call, hcall, ?_, ?_⟩
    · rw [hphase]
      exact trivial
    · simpa only [Call.Settled, hphase] using hsettled
  have hstill : Ended c (s.executionsOf c) s' :=
    hlater.invariant hended fun h _ hstep ↦ h.step hstep
  obtain ⟨hexecutions, call₁, hcall₁, -, hwork₁⟩ := hstill
  refine ⟨hexecutions, ?_⟩
  intro call' hcall'
  obtain rfl := Option.some.inj (hcall₁.symm.trans hcall')
  exact hwork₁

/-- The first call returns and then the server is deleted. -/
theorem no_execution_after_return_adder :
    ∃ s s' : System Unit (Fin 1) Unit ℕ AdderHandler,
      s'.executions.length = 2 ∧ s'.executionsOf 0 = s.executionsOf 0 ∧
        ∀ call, s'.calls[0]? = some call → call.work.IsOver := by
  obtain ⟨visited, s, hrun, hsome, hreturned, hlater⟩ :=
    Run.exists_of_exec step Undisturbed (start adder)
      (adderSetup ++ adderCall 0 ++ adderReturn 0 ++ adderCall 1)
      (fun s ↦ s.calls[0]?.isSome ∧
        (∀ call ∈ s.calls[0]?, call.phase = .returned ⟨true, [7]⟩) ∧
        (exec step (fun _ _ ↦ True) s
          ([.control (.deleteServer 0)] ++ adderReturn 1)).any
            (fun s' ↦ decide (s'.executions.length = 2)) = true)
      (by decide +kernel)
  obtain ⟨call, hcall⟩ := Option.isSome_iff_exists.mp hsome
  obtain ⟨visited', s', hrun', hlength⟩ :=
    Run.exists_of_exec step (fun _ _ ↦ True) s
      ([.control (.deleteServer 0)] ++ adderReturn 1)
      (fun s' ↦ s'.executions.length = 2) hlater
  exact ⟨s, s', hlength,
    no_execution_after_return hrun hcall (hreturned call hcall) hrun'⟩

end System

/-! ## Answers -/

section Answers

variable {End Name Obj σ κ : Type}

/-- The reply of the handler once it has run. -/
def Call.answer? (call : Call End Name Obj κ) : Option ReplyMsg :=
  match call.work with
  | .finished _ reply => some reply
  | .collected _ reply => some reply
  | _ => none

/-- The call has returned and its handler's goroutine has ended. -/
def Call.IsOver (call : Call End Name Obj κ) : Prop :=
  call.phase.IsReturned ∧ call.work.IsOver

namespace System

def answer? (s : System End Name Obj σ κ) (n : ℕ) : Option ReplyMsg :=
  s.calls[n]?.bind Call.answer?

/-- A call that has returned true has the answer of its handler. -/
theorem Consistent.answer?_of_returned {s : System End Name Obj σ κ}
    (h : s.Consistent) {n : ℕ} {reply : ReplyMsg}
    (hreturned : s.returned? n = some reply) (hok : reply.ok = true) :
    s.answer? n = some reply := by
  obtain ⟨call, hcall, hphase⟩ := returned?_eq_some hreturned
  have hcoherent := h.coherent hcall
  simp only [Call.Coherent, hphase] at hcoherent
  obtain ⟨server, hwork⟩ := hcoherent hok
  simp [answer?, hcall, Call.answer?, hwork]

theorem answer?_set_self {s s' : System End Name Obj σ κ} {n : ℕ}
    {call call' : Call End Name Obj κ} (hcall : s.calls[n]? = some call)
    (hcalls : s'.calls = s.calls.set n call') :
    s'.answer? n = call'.answer? := by
  obtain ⟨hlt, -⟩ := List.getElem?_eq_some_iff.mp hcall
  rw [answer?, hcalls, List.getElem?_set_self hlt, Option.bind_some]

theorem answer?_set_of_ne {s s' : System End Name Obj σ κ} {n m : ℕ}
    {call' : Call End Name Obj κ} (hcalls : s'.calls = s.calls.set n call')
    (hne : m ≠ n) : s'.answer? m = s.answer? m := by
  rw [answer?, hcalls, List.getElem?_set_ne hne.symm, answer?]

variable [DecidableEq Obj]

theorem Steady.isOver_of_returned {s : System End Name Obj σ κ} (h : s.Steady)
    {n : ℕ} {reply : ReplyMsg} (hreturned : s.returned? n = some reply) :
    ∃ call, s.calls[n]? = some call ∧ call.IsOver := by
  obtain ⟨call, hcall, hphase⟩ := returned?_eq_some hreturned
  have hsettled := h.settled call (List.mem_of_getElem? hcall)
  simp only [Call.Settled, hphase] at hsettled
  refine ⟨call, hcall, ?_, hsettled⟩
  rw [hphase]
  exact trivial

/-- A move is a section of the handler of its call, or it changes no answer and
no server.  A handler that runs was running before or has just been started. -/
theorem Moved.answer? {s s' : System End Name Obj σ κ} {c : ℕ}
    {call : Call End Name Obj κ} {m : Move} (hcall : s.calls[c]? = some call)
    (hcoherent : call.Coherent) (hmoved : Moved s c call m s') :
    (∃ call', s'.calls = s.calls.set c call' ∧ call'.req = call.req ∧
      call'.answer? = call.answer? ∧
      (∀ server handler, call'.work = .running server handler →
        call.work = .running server handler ∨
          (s.heap server).handler call.req.svcMeth call.req.args =
            some handler) ∧
      ∀ o, (s'.heap o).state = (s.heap o).state ∧
        (s'.heap o).toObjects = (s.heap o).toObjects) ∨
    ∃ server handler state outcome, call.work = .running server handler ∧
      (s.heap server).run handler (s.heap server).state =
        some (state, outcome) ∧
      s'.heap = Function.update s.heap server
        { s.heap server with state := state } ∧
      ((∃ handler', outcome = .goesOn handler') ∨
        ∃ bytes, outcome = .returns bytes ∧
          s'.calls = s.calls.set c { call with
            work := .finished server { ok := true, reply := bytes } }) := by
  have hcount : ∀ (server : Obj) (n : ℕ) (o : Obj),
      (Function.update s.heap server
          { s.heap server with count := n } o).state =
          (s.heap o).state ∧
        (Function.update s.heap server
          { s.heap server with count := n } o).toObjects =
            (s.heap o).toObjects := by
    intro server n o
    by_cases ho : o = server
    · subst ho
      simp
    · simp [ho]
  have hself := (set_eq_self hcall).symm
  have hheap : ∀ o, (s.heap o).state = (s.heap o).state ∧
      (s.heap o).toObjects = (s.heap o).toObjects := fun _ ↦ ⟨rfl, rfl⟩
  cases hmoved with
  | launch hphase =>
      simp only [Call.Coherent, hphase] at hcoherent
      exact Or.inl ⟨_, rfl, rfl, by simp [Call.answer?, hcoherent],
        fun _ _ h ↦ (by cases h), hheap⟩
  | dispatch hwork =>
      exact Or.inl ⟨_, rfl, rfl, by simp [Call.answer?, hwork],
        fun _ _ h ↦ (by cases h), hcount _ _⟩
  | unknownService hwork =>
      exact Or.inl ⟨_, hself, rfl, rfl, fun _ _ ↦ Or.inl, hcount _ _⟩
  | invoke hwork hhandler =>
      refine Or.inl ⟨_, rfl, rfl, by simp [Call.answer?, hwork], ?_, hheap⟩
      intro server handler h
      obtain ⟨rfl, rfl⟩ := Work.running.inj h
      exact Or.inr hhandler
  | unknownMethod =>
      exact Or.inl ⟨_, hself, rfl, rfl, fun _ _ ↦ Or.inl, hheap⟩
  | goOn hwork hsection =>
      exact Or.inr ⟨_, _, _, _, hwork, hsection, rfl, Or.inl ⟨_, rfl⟩⟩
  | finish hwork hsection =>
      exact Or.inr ⟨_, _, _, _, hwork, hsection, rfl, Or.inr ⟨_, rfl, rfl⟩⟩
  | panic => exact Or.inl ⟨_, hself, rfl, rfl, fun _ _ ↦ Or.inl, hheap⟩
  | receive hphase hwork =>
      exact Or.inl ⟨_, rfl, rfl, by simp [Call.answer?, hwork],
        fun _ _ h ↦ (by cases h), hheap⟩
  | keepWaiting =>
      exact Or.inl ⟨_, hself, rfl, rfl, fun _ _ ↦ Or.inl, hheap⟩
  | drain hphase hwork =>
      exact Or.inl ⟨_, rfl, rfl, by simp [Call.answer?, hwork],
        fun _ _ h ↦ (by cases h), hheap⟩
  | _ => exact Or.inl ⟨_, rfl, rfl, rfl, fun _ _ ↦ Or.inl, hheap⟩

end System

end Answers

end DistLabs.Labrpc
