import DistLabs.Kvsrv.Deployment

/-!
# The deployed service is linearizable

The network and the clerks together refine `Service`.  A handler that runs is
the execution of the present call of a clerk, because a call that has returned
has no handler left; a `Call` that returns true brings the reply of this
execution.  All other steps of the network are invisible.
-/

namespace DistLabs.Kvsrv

open Linearizability

/-! ## The abstraction -/

/-- The phase of a clerk of `Service` when `answer` is what the handler of the
present call has replied. -/
def ClerkState.phase (gob : Gob) (answer : Option Labrpc.ReplyMsg) :
    ClerkState → Phase
  | .idle => .idle
  | .calling req opReg _ =>
      .calling req opReg (answer.map fun reply ↦ req.value gob reply.reply)
  | .clearing req opReg value _ => .clearing req opReg value answer.isSome

/-- The request of the present call of a clerk. -/
def ClerkState.message {Clerk : Type} (gob : Gob) (c : Clerk) :
    ClerkState → Option (Labrpc.ReqMsg Clerk)
  | .idle => none
  | .calling req opReg _ => some (req.message gob c opReg)
  | .clearing _ opReg _ _ => some (clearMessage gob c opReg)

theorem ClerkState.endname_message {Clerk : Type} {gob : Gob} {c : Clerk}
    {state : ClerkState} {msg : Labrpc.ReqMsg Clerk}
    (h : state.message gob c = some msg) : msg.endname = c := by
  cases state with
  | idle => cases h
  | calling req opReg n =>
      obtain rfl := Option.some.inj h
      exact req.endname_message c opReg
  | clearing req opReg value n =>
      obtain rfl := Option.some.inj h
      rfl

namespace Deployment

variable {Clerk : Type}

def answer? (D : Deployment Clerk) (c : Clerk) : Option Labrpc.ReplyMsg :=
  (D.clerk c).call?.bind D.sys.answer?

/-- The service that the deployment implements. -/
def toService (gob : Gob) (D : Deployment Clerk) : Service Clerk where
  server := (D.sys.heap ()).state
  clerk := fun c ↦ (D.clerk c).phase gob (D.answer? c)
  history := D.history

/-- Every call that is not over is the present call of its clerk. -/
structure Sound (gob : Gob) (D : Deployment Clerk) : Prop where
  consistent : D.sys.Consistent
  steady : D.sys.Steady
  objects : (D.sys.heap ()).toObjects = kvObjects gob
  asked : ∀ {c : Clerk} {n : ℕ}, (D.clerk c).call? = some n →
    ∃ call, D.sys.calls[n]? = some call ∧
      (D.clerk c).message gob c = some call.req
  current : ∀ {n : ℕ} {call : Labrpc.Call Clerk ℕ Unit KvHandler},
    D.sys.calls[n]? = some call → ¬ call.IsOver →
      (D.clerk call.req.endname).call? = some n
  started : ∀ {n : ℕ} {call : Labrpc.Call Clerk ℕ Unit KvHandler}
    {handler : KvHandler}, D.sys.calls[n]? = some call →
      call.work = .running () handler →
        (kvObjects gob).handler call.req.svcMeth call.req.args = some handler

variable {gob : Gob} {D D' : Deployment Clerk} {c : Clerk}

theorem Sound.init : (init gob : Deployment Clerk).Sound gob where
  consistent := .start _
  steady := .of_calls_nil rfl
  objects := rfl
  asked := fun h ↦ by cases h
  current := fun h ↦ by cases h
  started := fun h ↦ by cases h

/-- The present calls of two clerks are different. -/
theorem Sound.call?_ne (h : D.Sound gob) {n : ℕ}
    {call : Labrpc.Call Clerk ℕ Unit KvHandler}
    (hcall : D.sys.calls[n]? = some call)
    (hc : call.req.endname ≠ c) : (D.clerk c).call? ≠ some n := by
  intro hn
  obtain ⟨call₁, hcall₁, hmessage⟩ := h.asked hn
  obtain rfl := Option.some.inj (hcall.symm.trans hcall₁)
  exact hc (ClerkState.endname_message hmessage)

variable [DecidableEq Clerk]

/-! ## Steps of the clerks -/

/-- What `call` leaves behind. -/
theorem call_eq_some {msg : Labrpc.ReqMsg Clerk} {state : ℕ → ClerkState}
    (h : D.call c msg state = some D') :
    D.sys.step (.call msg) = some D'.sys ∧
      D' = { D with
        sys := { D.sys with
          calls := D.sys.calls ++
            [{ req := msg, phase := .sending, work := .absent }] }
        clerk := Function.update D.clerk c (state D.sys.calls.length) } := by
  obtain ⟨sys, hstep, rfl⟩ := Option.map_eq_some_iff.mp h
  refine ⟨hstep, ?_⟩
  cases (Labrpc.System.step_stepped hstep).2 with
  | call => rfl

/-- Clerk `c` begins a new call when it has none, or its call is over. -/
theorem Sound.call (h : D.Sound gob) {msg : Labrpc.ReqMsg Clerk}
    {state : ℕ → ClerkState} (hstate : ∀ n, (state n).call? = some n)
    (hmessage : ∀ n, (state n).message gob c = some msg)
    (hfree : ∀ n, (D.clerk c).call? = some n →
      ∃ call, D.sys.calls[n]? = some call ∧ call.IsOver)
    (hcall : D.call c msg state = some D') : D'.Sound gob := by
  obtain ⟨hstep, hD'⟩ := call_eq_some hcall
  have hok : D.sys.Undisturbed (.call msg) := trivial
  refine ⟨h.consistent.step hstep, h.steady.step h.consistent hok hstep,
    ?_, ?_, ?_, ?_⟩
  · rw [hD']
    exact h.objects
  · intro c₁ n hn
    subst hD'
    by_cases hc : c₁ = c
    · subst hc
      simp only [Function.update_self, hstate, Option.some.injEq] at hn ⊢
      subst hn
      exact ⟨_, List.getElem?_concat_length, hmessage _⟩
    · simp only [Function.update_of_ne hc] at hn ⊢
      obtain ⟨call₁, hcall₁, hasked⟩ := h.asked hn
      obtain ⟨hlt, -⟩ := List.getElem?_eq_some_iff.mp hcall₁
      refine ⟨call₁, ?_, hasked⟩
      rwa [List.getElem?_append_left hlt]
  · intro n call₁ hcall₁ hover
    subst hD'
    obtain hold | ⟨rfl, rfl⟩ := Labrpc.System.getElem?_append_cases hcall₁
    · have hn := h.current hold hover
      by_cases hc : call₁.req.endname = c
      · rw [hc] at hn
        obtain ⟨call₂, hcall₂, hover₂⟩ := hfree n hn
        obtain rfl := Option.some.inj (hold.symm.trans hcall₂)
        exact absurd hover₂ hover
      · simpa only [Function.update_of_ne hc] using hn
    · have hc : msg.endname = c := ClerkState.endname_message (hmessage 0)
      simp only [hc, Function.update_self, hstate]
  · intro n call₁ handler hcall₁ hwork
    subst hD'
    obtain hold | ⟨rfl, rfl⟩ := Labrpc.System.getElem?_append_cases hcall₁
    · exact h.started hold hwork
    · cases hwork

theorem Sound.toService_call (h : D.Sound gob) {msg : Labrpc.ReqMsg Clerk}
    {state : ℕ → ClerkState} (hstate : ∀ n, (state n).call? = some n)
    (hcall : D.call c msg state = some D') :
    D'.toService gob =
      (D.toService gob).setPhase c
        ((state D.sys.calls.length).phase gob none) := by
  obtain ⟨-, rfl⟩ := call_eq_some hcall
  refine congrArg (fun clerk ↦ Service.mk _ clerk _) (funext fun c₁ ↦ ?_)
  by_cases hc : c₁ = c
  · subst hc
    simp [answer?, hstate, Labrpc.System.answer?, Labrpc.Call.answer?]
  · simp only [toService, Function.update_of_ne hc, answer?]
    congr 1
    cases hn : (D.clerk c₁).call? with
    | none => rfl
    | some n =>
        obtain ⟨call₁, hcall₁, -⟩ := h.asked hn
        obtain ⟨hlt, -⟩ := List.getElem?_eq_some_iff.mp hcall₁
        simp [Labrpc.System.answer?, List.getElem?_append_left hlt]

/-- Clerk `c` returns when its call is over. -/
theorem Sound.finish (h : D.Sound gob) {n : ℕ}
    (hn : (D.clerk c).call? = some n)
    (hover : ∃ call, D.sys.calls[n]? = some call ∧ call.IsOver)
    (req : Request) (opReg : OpReg) (value : String) :
    (D.finish c req opReg value).Sound gob where
  consistent := h.consistent
  steady := h.steady
  objects := h.objects
  asked := by
    intro c₁ n₁ hn₁
    by_cases hc : c₁ = c
    · subst hc
      simp [Deployment.finish, ClerkState.call?] at hn₁
    · simp only [Deployment.finish, Function.update_of_ne hc] at hn₁ ⊢
      exact h.asked hn₁
  current := by
    intro n₁ call₁ hcall₁ hover₁
    have hn₁ := h.current hcall₁ hover₁
    by_cases hc : call₁.req.endname = c
    · rw [hc, hn] at hn₁
      obtain rfl := Option.some.inj hn₁
      obtain ⟨call₂, hcall₂, hover₂⟩ := hover
      obtain rfl := Option.some.inj (hcall₁.symm.trans hcall₂)
      exact absurd hover₂ hover₁
    · simpa only [Deployment.finish, Function.update_of_ne hc] using hn₁
  started := h.started

theorem toService_finish (req : Request) (opReg : OpReg) (value : String) :
    (D.finish c req opReg value).toService gob =
      (D.toService gob).finish c req opReg value := by
  refine congrArg (fun clerk ↦ Service.mk _ clerk _) (funext fun c₁ ↦ ?_)
  by_cases hc : c₁ = c
  · subst hc
    simp [Deployment.finish, ClerkState.phase, Service.setPhase]
  · simp [Deployment.finish, toService, answer?, Service.setPhase, hc]

/-! ## Steps of the network -/

variable {sys : Labrpc.System Clerk ℕ Unit KVServer KvHandler} {n : ℕ}
variable {call call' : Labrpc.Call Clerk ℕ Unit KvHandler}

omit [DecidableEq Clerk] in
/-- Call number `n`, which is not over, goes on. -/
theorem Sound.setCall (h : D.Sound gob) (hconsistent : sys.Consistent)
    (hsteady : sys.Steady) (hcall : D.sys.calls[n]? = some call)
    (hover : ¬ call.IsOver) (hcalls : sys.calls = D.sys.calls.set n call')
    (hreq : call'.req = call.req)
    (hobjects : (sys.heap ()).toObjects = (D.sys.heap ()).toObjects)
    (hstarted : ∀ handler, call'.work = .running () handler →
      call.work = .running () handler ∨
        (D.sys.heap ()).handler call.req.svcMeth call.req.args =
          some handler) :
    ({ D with sys := sys } : Deployment Clerk).Sound gob where
  consistent := hconsistent
  steady := hsteady
  objects := hobjects.trans h.objects
  asked := by
    intro c₁ n₁ hn₁
    obtain ⟨call₁, hcall₁, hasked⟩ := h.asked hn₁
    by_cases hn : n₁ = n
    · subst hn
      obtain rfl := Option.some.inj (hcall.symm.trans hcall₁)
      obtain ⟨hlt, -⟩ := List.getElem?_eq_some_iff.mp hcall
      refine ⟨call', ?_, hreq ▸ hasked⟩
      rw [hcalls, List.getElem?_set_self hlt]
    · refine ⟨call₁, ?_, hasked⟩
      rwa [hcalls, List.getElem?_set_ne (Ne.symm hn)]
  current := by
    intro n₁ call₁ hcall₁ hover₁
    rw [hcalls] at hcall₁
    obtain ⟨rfl, rfl⟩ | ⟨-, hold⟩ :=
      Labrpc.System.getElem?_set_cases hcall₁
    · rw [hreq]
      exact h.current hcall hover
    · exact h.current hold hover₁
  started := by
    intro n₁ call₁ handler hcall₁ hwork
    rw [hcalls] at hcall₁
    obtain ⟨rfl, rfl⟩ | ⟨-, hold⟩ :=
      Labrpc.System.getElem?_set_cases hcall₁
    · rw [hreq]
      obtain hrunning | hnew := hstarted handler hwork
      · exact h.started hcall hrunning
      · rwa [h.objects] at hnew
    · exact h.started hold hwork

omit [DecidableEq Clerk] in
/-- The network changes, but no call goes on. -/
theorem Sound.of_calls_eq (h : D.Sound gob) (hconsistent : sys.Consistent)
    (hsteady : sys.Steady) (hcalls : sys.calls = D.sys.calls)
    (hheap : sys.heap = D.sys.heap) :
    ({ D with sys := sys } : Deployment Clerk).Sound gob where
  consistent := hconsistent
  steady := hsteady
  objects := by
    rw [hheap]
    exact h.objects
  asked := by
    rw [hcalls]
    exact h.asked
  current := by
    rw [hcalls]
    exact h.current
  started := by
    rw [hcalls]
    exact h.started

omit [DecidableEq Clerk] in
theorem toService_congr (hanswer : ∀ n, sys.answer? n = D.sys.answer? n)
    (hstate : (sys.heap ()).state = (D.sys.heap ()).state) :
    ({ D with sys := sys } : Deployment Clerk).toService gob =
      D.toService gob := by
  have hsame : sys.answer? = D.sys.answer? := funext hanswer
  simp only [toService, answer?, hsame, hstate]

/-- A handler has replied to the present call of its clerk. -/
theorem Sound.toService_answered (h : D.Sound gob)
    (hcall : D.sys.calls[n]? = some call)
    (hcurrent : (D.clerk call.req.endname).call? = some n)
    (hcalls : sys.calls = D.sys.calls.set n call') :
    ({ D with sys := sys } : Deployment Clerk).toService gob =
      { (D.toService gob).setPhase call.req.endname
          ((D.clerk call.req.endname).phase gob call'.answer?) with
        server := (sys.heap ()).state } := by
  refine congrArg (fun clerk ↦ Service.mk _ clerk _) (funext fun c₁ ↦ ?_)
  by_cases hc : c₁ = call.req.endname
  · subst hc
    simp only [answer?, hcurrent, Option.bind_some, Service.setPhase,
      Function.update_self]
    rw [Labrpc.System.answer?_set_self hcall hcalls]
  · simp only [toService, answer?, Service.setPhase, Function.update_of_ne hc]
    congr 1
    cases hn : (D.clerk c₁).call? with
    | none => rfl
    | some n₁ =>
        have hne : n₁ ≠ n := by
          rintro rfl
          exact h.call?_ne hcall (Ne.symm hc) hn
        exact Labrpc.System.answer?_set_of_ne hcalls hne

/-- When a handler runs, the service executes the present call of its clerk. -/
theorem Sound.execute (h : D.Sound gob) (hcall : D.sys.calls[n]? = some call)
    (hcurrent : (D.clerk call.req.endname).call? = some n)
    {handler : KvHandler} (hwork : call.work = .running () handler)
    (hcalls : sys.calls = D.sys.calls.set n { call with
      work := .finished ()
        { ok := true, reply := (handler.run gob (D.sys.heap ()).state).2 } })
    (hstate : (sys.heap ()).state =
      (handler.run gob (D.sys.heap ()).state).1) :
    (D.toService gob).execute call.req.endname =
      some (({ D with sys := sys } : Deployment Clerk).toService gob) := by
  rw [h.toService_answered hcall hcurrent hcalls, hstate]
  have hanswer : D.answer? call.req.endname = none := by
    simp [answer?, hcurrent, Labrpc.System.answer?, hcall,
      Labrpc.Call.answer?, hwork]
  have hstarted := h.started hcall hwork
  obtain ⟨call₁, hcall₁, hasked⟩ := h.asked hcurrent
  obtain rfl := Option.some.inj (hcall.symm.trans hcall₁)
  generalize hc : call.req.endname = c at *
  cases hclerk : D.clerk c with
  | idle =>
      rw [hclerk] at hcurrent
      cases hcurrent
  | calling req opReg n₁ =>
      have hphase : (D.toService gob).clerk c = .calling req opReg none := by
        simp [toService, hclerk, hanswer, ClerkState.phase]
      rw [hclerk] at hasked
      rw [← Option.some.inj hasked, handler_message] at hstarted
      obtain rfl := Option.some.inj hstarted
      obtain ⟨hserver, hvalue⟩ :=
        run_handler gob (D.sys.heap ()).state opReg req
      simp only [Service.execute, hphase, hserver]
      simp [ClerkState.phase, Labrpc.Call.answer?, hvalue, toService]
  | clearing req opReg value n₁ =>
      have hphase : (D.toService gob).clerk c =
          .clearing req opReg value false := by
        simp [toService, hclerk, hanswer, ClerkState.phase]
      rw [hclerk] at hasked
      rw [← Option.some.inj hasked, handler_clearMessage] at hstarted
      obtain rfl := Option.some.inj hstarted
      simp only [Service.execute, hphase]
      simp [ClerkState.phase, Labrpc.Call.answer?, toService, KvHandler.run]

/-- A step of the network is invisible, or it executes the call of a clerk. -/
theorem Sound.network (h : D.Sound gob) {a : Labrpc.Action Clerk ℕ Unit}
    (hok : D.sys.Undisturbed a) (hnetwork : D.network a = some D') :
    D'.Sound gob ∧
      (D'.toService gob = D.toService gob ∨
        ∃ c, (D.toService gob).execute c = some (D'.toService gob)) := by
  obtain ⟨sys, hstep, rfl⟩ : ∃ sys, D.sys.step a = some sys ∧
      { D with sys := sys } = D' := by
    unfold Deployment.network at hnetwork
    split at hnetwork
    · cases hnetwork
    · exact Option.map_eq_some_iff.mp hnetwork
  have hconsistent := h.consistent.step hstep
  have hsteady := h.steady.step h.consistent hok hstep
  cases (Labrpc.System.step_stepped hstep).2 with
  | call => cases hnetwork
  | @move n call m _ hcall hmoved =>
      have hover : ¬ call.IsOver := fun hover ↦
        hmoved.not_ended hover.1 hover.2
      have hcurrent := h.current hcall hover
      obtain ⟨call', hcalls, hreq, hanswer, hstarted, hheap⟩ |
          ⟨⟨⟩, handler, state, outcome, hwork, hsection, hheap, hend⟩ :=
        hmoved.answer? hcall (h.consistent.coherent hcall)
      · refine ⟨h.setCall hconsistent hsteady hcall hover hcalls hreq
          (hheap ()).2 (hstarted ()), Or.inl ?_⟩
        refine toService_congr (fun m ↦ ?_) (hheap ()).1
        by_cases hm : m = n
        · subst hm
          rw [Labrpc.System.answer?_set_self hcall hcalls, hanswer,
            Labrpc.System.answer?, hcall, Option.bind_some]
        · exact Labrpc.System.answer?_set_of_ne hcalls hm
      · -- The methods of the server have one section.
        rw [h.objects] at hsection
        obtain ⟨rfl, rfl⟩ := Prod.mk.inj (Option.some.inj hsection)
        obtain ⟨handler', ⟨⟩⟩ | ⟨bytes, hbytes, hcalls⟩ := hend
        obtain rfl := Labrpc.Outcome.returns.inj hbytes
        refine ⟨h.setCall hconsistent hsteady hcall hover hcalls rfl ?_ ?_,
          Or.inr ⟨_, h.execute hcall hcurrent hwork hcalls ?_⟩⟩
        · rw [hheap, Function.update_self]
        · intro handler₁ hrunning
          cases hrunning
        · rw [hheap, Function.update_self]
  | background hstate =>
      rw [h.objects] at hstate
      cases hstate
  | _ => exact ⟨h.of_calls_eq hconsistent hsteady rfl rfl, Or.inl rfl⟩

/-! ## The refinement -/

/-- A clerk begins an operation. -/
theorem Sound.invoke (h : D.Sound gob) {req : Request} {opReg : OpReg}
    (hinvoke : D.invoke gob c req opReg = some D') :
    D'.Sound gob ∧
      (D.toService gob).step (.invoke c req opReg) =
        some (D'.toService gob) := by
  unfold Deployment.invoke at hinvoke
  split at hinvoke
  · next hclerk =>
      have hbegun : Sound gob
          { D with history := D.history ++ [.invoke opReg req.input] } :=
        ⟨h.consistent, h.steady, h.objects, h.asked, h.current, h.started⟩
      refine ⟨hbegun.call (fun _ ↦ rfl) (fun _ ↦ rfl) ?_ hinvoke, ?_⟩
      · intro n hn
        rw [hclerk] at hn
        cases hn
      · rw [hbegun.toService_call (fun _ ↦ rfl) hinvoke]
        have hphase : (D.toService gob).clerk c = .idle := by
          simp [toService, hclerk, ClerkState.phase]
        simp only [Service.step, hphase]
        rfl
  · cases hinvoke

omit [DecidableEq Clerk] in
/-- The call of a clerk is over once it has returned. -/
theorem Sound.free (h : D.Sound gob) {reply : Labrpc.ReplyMsg}
    (hn : (D.clerk c).call? = some n)
    (hreturned : D.sys.returned? n = some reply) :
    ∀ m, (D.clerk c).call? = some m →
      ∃ call, D.sys.calls[m]? = some call ∧ call.IsOver := by
  intro m hm
  obtain rfl := Option.some.inj (hn.symm.trans hm)
  exact h.steady.isOver_of_returned hreturned

omit [DecidableEq Clerk] in
theorem Sound.answer?_of_returned (h : D.Sound gob) {reply : Labrpc.ReplyMsg}
    (hn : (D.clerk c).call? = some n)
    (hreturned : D.sys.returned? n = some reply) (hok : reply.ok = true) :
    D.answer? c = some reply := by
  rw [answer?, hn, Option.bind_some]
  exact h.consistent.answer?_of_returned hreturned hok

/-- After its call has returned, a clerk returns or calls again. -/
theorem Sound.resume (h : D.Sound gob) (hresume : D.resume gob c = some D') :
    D'.Sound gob ∧
      ((D.toService gob).step (.reply c) = some (D'.toService gob) ∨
        (D.toService gob).step (.fail c) = some (D'.toService gob)) := by
  unfold Deployment.resume at hresume
  split at hresume
  · cases hresume
  · next req opReg n hclerk =>
      have hn : (D.clerk c).call? = some n := hclerk ▸ rfl
      split at hresume
      · cases hresume
      · next reply hreturned =>
          have hfree := h.free hn hreturned
          split at hresume
          · next hok =>
              have hphase : (D.toService gob).clerk c =
                  .calling req opReg (some (req.value gob reply.reply)) := by
                simp [toService, hclerk, ClerkState.phase,
                  h.answer?_of_returned hn hreturned hok]
              split at hresume
              · next key =>
                  obtain rfl := Option.some.inj hresume
                  refine ⟨h.finish hn (hfree n hn) _ _ _, Or.inl ?_⟩
                  simp only [Service.step, Service.reply, hphase,
                    toService_finish]
              · next hwrite =>
                  refine ⟨h.call (fun _ ↦ rfl) (fun _ ↦ rfl) hfree hresume,
                    Or.inl ?_⟩
                  rw [h.toService_call (fun _ ↦ rfl) hresume]
                  simp only [Service.step, Service.reply, hphase]
                  cases req with
                  | get key => exact absurd rfl (hwrite key)
                  | put key value => rfl
                  | append key value => rfl
          · refine ⟨h.call (fun _ ↦ rfl) (fun _ ↦ rfl) hfree hresume,
              Or.inr ?_⟩
            rw [h.toService_call (fun _ ↦ rfl) hresume]
            simp [Service.step, Service.fail, toService, hclerk,
              ClerkState.phase]
  · next req opReg value n hclerk =>
      have hn : (D.clerk c).call? = some n := hclerk ▸ rfl
      split at hresume
      · cases hresume
      · next reply hreturned =>
          have hfree := h.free hn hreturned
          split at hresume
          · next hok =>
              have hphase : (D.toService gob).clerk c =
                  .clearing req opReg value true := by
                simp [toService, hclerk, ClerkState.phase,
                  h.answer?_of_returned hn hreturned hok]
              obtain rfl := Option.some.inj hresume
              refine ⟨h.finish hn (hfree n hn) _ _ _, Or.inl ?_⟩
              simp only [Service.step, Service.reply, hphase,
                toService_finish]
          · refine ⟨h.call (fun _ ↦ rfl) (fun _ ↦ rfl) hfree hresume,
              Or.inr ?_⟩
            rw [h.toService_call (fun _ ↦ rfl) hresume]
            simp [Service.step, Service.fail, toService, hclerk,
              ClerkState.phase]

/-- Every step of the deployment is a step of the service or none. -/
theorem Sound.step (h : D.Sound gob) {a : DeployedAction Clerk}
    (hok : D.Allowed a) (hstep : D.step gob a = some D') :
    D'.Sound gob ∧
      (D'.toService gob = D.toService gob ∨
        ∃ b, (D.toService gob).FreshOpReg b ∧
          (D.toService gob).step b = some (D'.toService gob)) := by
  rw [Deployment.step.eq_def] at hstep
  split at hstep
  · cases hstep
  · cases a with
    | invoke c req opReg =>
        obtain ⟨hsound, hservice⟩ := h.invoke hstep
        exact ⟨hsound, Or.inr ⟨.invoke c req opReg, hok, hservice⟩⟩
    | resume c =>
        obtain ⟨hsound, hservice | hservice⟩ := h.resume hstep
        · exact ⟨hsound, Or.inr ⟨.reply c, trivial, hservice⟩⟩
        · exact ⟨hsound, Or.inr ⟨.fail c, trivial, hservice⟩⟩
    | network a =>
        obtain ⟨hsound, hsame | ⟨c, hservice⟩⟩ := h.network hok hstep
        · exact ⟨hsound, Or.inl hsame⟩
        · exact ⟨hsound, Or.inr ⟨.execute c, trivial, hservice⟩⟩

variable {visited : List (Deployment Clerk)}

/-- Every run of the deployment is a run of the service. -/
theorem exists_run_service
    (hrun : Run (step gob) Allowed (init gob) visited D) :
    ∃ visited', Run Service.step Service.FreshOpReg Service.init visited'
      (D.toService gob) := by
  have hmatch : ∃ visited' σ,
      Run Service.step Service.FreshOpReg Service.init visited' σ ∧
        (D.Sound gob ∧ D.toService gob = σ) := by
    refine hrun.simulates (R := fun D σ ↦ D.Sound gob ∧ D.toService gob = σ)
      ⟨Sound.init, rfl⟩ ?_
    rintro D D' a _ ⟨hsound, rfl⟩ hok hstep
    obtain ⟨hsound', hsame | ⟨b, hfresh, hservice⟩⟩ := hsound.step hok hstep
    · exact Or.inl ⟨hsound', hsame⟩
    · exact Or.inr ⟨b, _, hfresh, hservice, hsound', rfl⟩
  obtain ⟨visited', σ, hservice, -, rfl⟩ := hmatch
  exact ⟨visited', hservice⟩

/-- On a network that may be unreliable and delay replies, the deployment does
what the service can do, and so its history is linearizable. -/
theorem deployed_linearizable
    (hrun : Run (step gob) Allowed (init gob) visited D) :
    (∃ visited', Run Service.step Service.FreshOpReg Service.init visited'
      (D.toService gob)) ∧ Linearizable kvModels D.history := by
  obtain ⟨visited', hservice⟩ := exists_run_service hrun
  obtain ⟨ops, hex⟩ : ∃ ops, (D.toService gob).Explained ops := by
    refine hservice.invariant (I := fun σ ↦ ∃ ops, Service.Explained σ ops)
      ⟨[], Service.Explained.init⟩ ?_
    rintro σ σ' a ⟨ops, hex⟩ hfresh hstep
    exact hex.step hfresh hstep
  exact ⟨⟨visited', hservice⟩, ops, _, hex.linear⟩

/-- The network with the server and the end of clerk `c`, which is
unreliable. -/
def unreliableSetup : List (DeployedAction (Fin 2)) :=
  [.network (.control (.addServer 0 ())), .network (.control (.reliable false)),
    .network (.control (.makeEnd 0)), .network (.control (.connect 0 0)),
    .network (.control (.enable 0 true))]

/-- Call number `n` is executed, and its reply is dropped or not. -/
def callThrough (n : ℕ) (dropReply : Bool) : List (DeployedAction (Fin 2)) :=
  [.accept, .readInfo, .launch, .dispatch, .invoke, .handle, .receive,
    .conclude dropReply, .deliver].map
      fun m ↦ DeployedAction.network (.move n m)

/-- The reply to an `Append` is dropped and the call is repeated. -/
def retriedAppend : List (DeployedAction (Fin 2)) :=
  unreliableSetup ++ [.invoke 0 (.append "k" "a") 1] ++
    callThrough 0 true ++ [.resume 0] ++ callThrough 1 false ++ [.resume 0] ++
      callThrough 2 false ++ [.resume 0]

theorem deployed_linearizable_retried :
    ∃ D : Deployment (Fin 2),
      D.history = [.invoke 1 (Request.append "k" "a").input,
        .respond 1 ⟨""⟩] ∧
      Linearizable kvModels D.history := by
  obtain ⟨visited, D, hrun, hhistory⟩ :=
    Run.exists_of_exec (step unaryGob) Allowed (init unaryGob) retriedAppend
      (fun D ↦ D.history = [.invoke 1 (Request.append "k" "a").input,
        .respond 1 ⟨""⟩])
      (by decide +kernel)
  exact ⟨D, hhistory, (deployed_linearizable hrun).2⟩

/-- The end is disabled while the handler of an `Append` is about to run.  The
call is repeated and its number cleared before the first handler runs. -/
def orphanedAppend : List (DeployedAction (Fin 2)) :=
  unreliableSetup ++ [.invoke 0 (.append "k" "a") 1] ++
    [.network (.move 0 .accept), .network (.move 0 .readInfo),
      .network (.move 0 .launch), .network (.move 0 .dispatch),
      .network (.move 0 .invoke),
      .network (.control (.enable 0 false)), .network (.move 0 .poll),
      .network (.move 0 (.conclude false)), .network (.move 0 .deliver),
      .network (.control (.enable 0 true)), .resume 0] ++
    callThrough 1 false ++ [.resume 0] ++ callThrough 2 false ++
      [.resume 0, .network (.move 0 .handle)]

-- A test that does not spare the calls in progress can see one `Append` twice.
example : (exec (step unaryGob) (fun _ _ ↦ True) (init unaryGob)
    orphanedAppend).map (fun D ↦ (D.sys.heap ()).state.value "k") =
      some "aa" := by
  decide +kernel

end Deployment

end DistLabs.Kvsrv
