import DistLabs.Labrpc.Steps

/-!
# Calls are executed at most once

Whatever a test does to the network, the handler of a call is started at most
once, and a call that returns true was executed exactly once and returns the
reply of that execution.  Once a server has been deleted, or an end disabled,
nothing that the server executes for this end is acknowledged any more.
-/

namespace DistLabs.Labrpc

/-! ## A call and its handler -/

/-- The reply that is sent, or was sent, is a success. -/
def Phase.Succeeds {Name Obj : Type} : Phase Name Obj → Prop
  | .replying reply => reply.ok = true
  | .returned reply => reply.ok = true
  | _ => False

/-- The handler is still to run, or running. -/
def Work.IsRunning {Obj κ : Type} (work : Work Obj κ) (server : Obj) : Prop :=
  work = .launched server ∨ work = .dispatched server ∨
    ∃ handler, work = .running server handler

namespace Work.IsRunning

variable {Obj κ : Type} {server : Obj}

theorem launched : (Work.launched server : Work Obj κ).IsRunning server :=
  Or.inl rfl

theorem dispatched : (Work.dispatched server : Work Obj κ).IsRunning server :=
  Or.inr (Or.inl rfl)

theorem running (handler : κ) :
    (Work.running server handler).IsRunning server :=
  Or.inr (Or.inr ⟨handler, rfl⟩)

end Work.IsRunning

namespace Call

variable {End Name Obj κ : Type}

/-- The goroutine of the handler fits what `processReq` knows about it: only the
reply of a handler is answered as a success. -/
def Coherent (call : Call End Name Obj κ) : Prop :=
  match call.phase with
  | .sending => call.work = .absent
  | .accepted => call.work = .absent
  | .admitted _ => call.work = .absent
  | .waiting route =>
      call.work.IsRunning route.server ∨
        ∃ reply, call.work = .finished route.server reply
  | .answered route reply => call.work = .collected route.server reply
  | .forsaken _ => True
  | .replying reply =>
      reply.ok = true → ∃ server, call.work = .collected server reply
  | .returned reply =>
      reply.ok = true → ∃ server, call.work = .collected server reply

/-- How often the handler was started, as its goroutine tells. -/
def starts (call : Call End Name Obj κ) : ℕ :=
  match call.work with
  | .absent => 0
  | .launched _ => 0
  | .dispatched _ => 0
  | .running _ _ => 1
  | .finished _ _ => 1
  | .collected _ _ => 1

/-- The executions of call number `c`, as its handler's goroutine tells. -/
def runs (call : Call End Name Obj κ) (c : ℕ) : List (Execution End Obj) :=
  match call.work with
  | .absent => []
  | .launched _ => []
  | .dispatched _ => []
  | .running _ _ => []
  | .finished server reply =>
      [{ call := c, server := server, req := call.req, reply := reply }]
  | .collected server reply =>
      [{ call := c, server := server, req := call.req, reply := reply }]

theorem starts_le_one (call : Call End Name Obj κ) : call.starts ≤ 1 := by
  unfold starts
  split <;> simp

theorem length_runs_le (call : Call End Name Obj κ) (c : ℕ) :
    (call.runs c).length ≤ call.starts := by
  unfold runs starts
  split <;> simp

theorem coherent_replying_failure (call : Call End Name Obj κ) :
    ({ call with phase := .replying .failure } :
      Call End Name Obj κ).Coherent :=
  fun hok ↦ absurd hok (by decide)

theorem coherent_returned_failure (call : Call End Name Obj κ) :
    ({ call with phase := .returned .failure } :
      Call End Name Obj κ).Coherent :=
  fun hok ↦ absurd hok (by decide)

/-- The goroutine of the handler goes on. -/
theorem Coherent.advance {call : Call End Name Obj κ} (h : call.Coherent)
    {server : Obj} (hrunning : call.work.IsRunning server) {work : Work Obj κ}
    (hwork : work.IsRunning server ∨ ∃ reply, work = .finished server reply) :
    ({ call with work := work } : Call End Name Obj κ).Coherent := by
  obtain h₀ | h₀ | ⟨handler, h₀⟩ := hrunning <;> unfold Coherent at h ⊢ <;>
    cases hphase : call.phase <;> simp_all [Work.IsRunning]

theorem Coherent.drain {call : Call End Name Obj κ} (h : call.Coherent)
    {server : Obj} {reply : ReplyMsg} (hover : call.phase.IsOver)
    (hwork : call.work = .finished server reply) :
    ({ call with work := .collected server reply } :
      Call End Name Obj κ).Coherent := by
  unfold Coherent at h ⊢
  cases hphase : call.phase <;> simp_all [Phase.IsOver]

theorem Coherent.receive {call : Call End Name Obj κ} (h : call.Coherent)
    {route : Route Name Obj} {server : Obj} {reply : ReplyMsg}
    (hphase : call.phase = .waiting route)
    (hwork : call.work = .finished server reply) :
    ({ call with
      phase := .answered route reply, work := .collected server reply } :
        Call End Name Obj κ).Coherent := by
  unfold Coherent at h ⊢
  simp_all [Work.IsRunning]

theorem Coherent.runs_of_returned {call : Call End Name Obj κ}
    (h : call.Coherent) {reply : ReplyMsg}
    (hphase : call.phase = .returned reply) (hok : reply.ok = true) (c : ℕ) :
    ∃ server, call.runs c =
      [{ call := c, server := server, req := call.req, reply := reply }] := by
  simp only [Coherent, hphase] at h
  obtain ⟨server, hwork⟩ := h hok
  exact ⟨server, by simp only [runs, hwork]⟩

end Call

namespace System

variable {End Name Obj σ κ : Type}

/-- The executions of call number `c`. -/
def executionsOf (s : System End Name Obj σ κ) (c : ℕ) :
    List (Execution End Obj) :=
  s.executions.filter fun e ↦ e.call = c

/-- The goroutines of each call agree with each other and with the records. -/
structure Consistent (s : System End Name Obj σ κ) : Prop where
  coherent : ∀ {c : ℕ} {call : Call End Name Obj κ},
    s.calls[c]? = some call → call.Coherent
  executed : ∀ {c : ℕ} {call : Call End Name Obj κ},
    s.calls[c]? = some call → s.executionsOf c = call.runs c
  invoked : ∀ {c : ℕ} {call : Call End Name Obj κ},
    s.calls[c]? = some call → s.invocations.count c = call.starts
  begun : ∀ e ∈ s.executions, e.call < s.calls.length
  known : ∀ c ∈ s.invocations, c < s.calls.length

/-- After call number `c` has gone on, a call is this one or an old one. -/
theorem getElem?_set_cases {α : Type} {l : List α} {c c₁ : ℕ} {x y : α}
    (h : (l.set c x)[c₁]? = some y) :
    (c₁ = c ∧ y = x) ∨ (c₁ ≠ c ∧ l[c₁]? = some y) := by
  rw [List.getElem?_set] at h
  split at h
  · next hc =>
      split at h
      · exact Or.inl ⟨hc.symm, (Option.some.inj h).symm⟩
      · cases h
  · next hc => exact Or.inr ⟨Ne.symm hc, h⟩

/-- After a new call has begun, a call is this one or an old one. -/
theorem getElem?_append_cases {α : Type} {l : List α} {c : ℕ} {x y : α}
    (h : (l ++ [x])[c]? = some y) :
    l[c]? = some y ∨ c = l.length ∧ y = x := by
  rw [List.getElem?_append] at h
  split at h
  · exact Or.inl h
  · next hle =>
      rw [List.getElem?_singleton] at h
      split at h
      · next hzero => exact Or.inr ⟨by omega, (Option.some.inj h).symm⟩
      · cases h

theorem set_eq_self {α : Type} {l : List α} {c : ℕ} {x : α}
    (h : l[c]? = some x) : l.set c x = l := by
  obtain ⟨hlt, rfl⟩ := List.getElem?_eq_some_iff.mp h
  exact List.set_getElem_self hlt

namespace Consistent

variable {s s' : System End Name Obj σ κ} {c : ℕ}
variable {call call' : Call End Name Obj κ}

theorem of_eq (h : s.Consistent) (hcalls : s'.calls = s.calls)
    (hexecutions : s'.executions = s.executions)
    (hinvocations : s'.invocations = s.invocations) : s'.Consistent where
  coherent := by
    rw [hcalls]
    exact h.coherent
  executed := by
    unfold executionsOf
    rw [hcalls, hexecutions]
    exact h.executed
  invoked := by
    rw [hcalls, hinvocations]
    exact h.invoked
  begun := by
    rw [hcalls, hexecutions]
    exact h.begun
  known := by
    rw [hcalls, hinvocations]
    exact h.known

/-- Call number `c` goes on, and what is recorded is about this call. -/
theorem update (h : s.Consistent) (hcall : s.calls[c]? = some call)
    (hcalls : s'.calls = s.calls.set c call') (hcoherent : call'.Coherent)
    {executions : List (Execution End Obj)}
    (hexecutions : s'.executions = s.executions ++ executions)
    (hown : ∀ e ∈ executions, e.call = c)
    (hruns : call'.runs c = call.runs c ++ executions) {k : ℕ}
    (hinvocations : s'.invocations = s.invocations ++ List.replicate k c)
    (hstarts : call'.starts = call.starts + k) : s'.Consistent where
  coherent := by
    intro c₁ call₁ h₁
    rw [hcalls] at h₁
    obtain ⟨rfl, rfl⟩ | ⟨-, hold⟩ := getElem?_set_cases h₁
    · exact hcoherent
    · exact h.coherent hold
  executed := by
    intro c₁ call₁ h₁
    rw [hcalls] at h₁
    rw [executionsOf, hexecutions, List.filter_append]
    obtain ⟨rfl, rfl⟩ | ⟨hne, hold⟩ := getElem?_set_cases h₁
    · have hall : executions.filter (fun e ↦ e.call = c₁) = executions := by
        refine List.filter_eq_self.mpr ?_
        intro e he
        exact decide_eq_true (hown e he)
      rw [hall, hruns, ← h.executed hcall, executionsOf]
    · have hnone : executions.filter (fun e ↦ e.call = c₁) = [] := by
        refine List.filter_eq_nil_iff.mpr ?_
        intro e he
        simpa only [decide_eq_true_eq, hown e he] using Ne.symm hne
      rw [hnone, List.append_nil, ← h.executed hold, executionsOf]
  invoked := by
    intro c₁ call₁ h₁
    rw [hcalls] at h₁
    rw [hinvocations, List.count_append]
    obtain ⟨rfl, rfl⟩ | ⟨hne, hold⟩ := getElem?_set_cases h₁
    · rw [List.count_replicate_self, h.invoked hcall, hstarts]
    · rw [List.count_replicate, if_neg (by simpa using Ne.symm hne),
        Nat.add_zero, h.invoked hold]
  begun := by
    intro e he
    rw [hcalls, List.length_set]
    rw [hexecutions, List.mem_append] at he
    obtain hold | hnew := he
    · exact h.begun e hold
    · rw [hown e hnew]
      exact (List.getElem?_eq_some_iff.mp hcall).1
  known := by
    intro c₁ hc₁
    rw [hcalls, List.length_set]
    rw [hinvocations, List.mem_append] at hc₁
    obtain hold | hnew := hc₁
    · exact h.known c₁ hold
    · rw [List.eq_of_mem_replicate hnew]
      exact (List.getElem?_eq_some_iff.mp hcall).1

/-- A step of call number `c` that starts no handler and ends none. -/
theorem setCall (h : s.Consistent) (hcall : s.calls[c]? = some call)
    (hcalls : s'.calls = s.calls.set c call')
    (hexecutions : s'.executions = s.executions)
    (hinvocations : s'.invocations = s.invocations)
    (hcoherent : call'.Coherent) (hruns : call'.runs c = call.runs c)
    (hstarts : call'.starts = call.starts) : s'.Consistent :=
  h.update hcall hcalls hcoherent
    (hexecutions.trans (List.append_nil _).symm) (fun _ he ↦ by cases he)
    (hruns.trans (List.append_nil _).symm) (k := 0)
    (hinvocations.trans (List.append_nil _).symm) hstarts

/-- A new call begins. -/
theorem begin (h : s.Consistent) (req : ReqMsg End) :
    ({ s with
      calls := s.calls ++
        [{ req := req, phase := .sending, work := .absent }] } :
          System End Name Obj σ κ).Consistent := by
  refine ⟨?_, ?_, ?_, ?_, ?_⟩
  · intro c₁ call₁ h₁
    obtain hold | ⟨-, rfl⟩ := getElem?_append_cases h₁
    · exact h.coherent hold
    · exact rfl
  · intro c₁ call₁ h₁
    obtain hold | ⟨rfl, rfl⟩ := getElem?_append_cases h₁
    · exact h.executed hold
    · refine List.filter_eq_nil_iff.mpr ?_
      intro e he
      have hlt := h.begun e he
      simp only [decide_eq_true_eq]
      omega
  · intro c₁ call₁ h₁
    obtain hold | ⟨rfl, rfl⟩ := getElem?_append_cases h₁
    · exact h.invoked hold
    · refine List.count_eq_zero.mpr fun hmem ↦ ?_
      exact Nat.lt_irrefl _ (h.known _ hmem)
  · intro e he
    have hlt := h.begun e he
    simp only [List.length_append, List.length_singleton]
    omega
  · intro c₁ hc₁
    have hlt := h.known c₁ hc₁
    simp only [List.length_append, List.length_singleton]
    omega

variable [DecidableEq Obj]

theorem move (h : s.Consistent) {m : Move} (hcall : s.calls[c]? = some call)
    (hmoved : Moved s c call m s') : s'.Consistent := by
  have hcoherent := h.coherent hcall
  have hset : ∀ {call' : Call End Name Obj κ} {t : System End Name Obj σ κ},
      t.calls = s.calls.set c call' → t.executions = s.executions →
        t.invocations = s.invocations → call'.Coherent →
          call'.runs c = call.runs c → call'.starts = call.starts →
            t.Consistent :=
    fun hcalls hexecutions hinvocations ↦
      h.setCall hcall hcalls hexecutions hinvocations
  cases hmoved with
  | accept hphase =>
      simp only [Call.Coherent, hphase] at hcoherent
      exact hset rfl rfl rfl hcoherent rfl rfl
  | abandon => exact hset rfl rfl rfl call.coherent_returned_failure rfl rfl
  | found hphase =>
      simp only [Call.Coherent, hphase] at hcoherent
      exact hset rfl rfl rfl hcoherent rfl rfl
  | refuse => exact hset rfl rfl rfl call.coherent_replying_failure rfl rfl
  | dropRequest =>
      exact hset rfl rfl rfl call.coherent_replying_failure rfl rfl
  | launch hphase =>
      simp only [Call.Coherent, hphase] at hcoherent
      refine hset rfl rfl rfl (Or.inl .launched) ?_ ?_
      · simp only [Call.runs, hcoherent]
      · simp only [Call.starts, hcoherent]
  | dispatch hwork =>
      refine hset rfl rfl rfl
        (hcoherent.advance (hwork ▸ .launched) (Or.inl .dispatched)) ?_ ?_
      · simp only [Call.runs, hwork]
      · simp only [Call.starts, hwork]
  | unknownService => exact h.of_eq rfl rfl rfl
  | invoke hwork =>
      refine h.update hcall rfl
        (hcoherent.advance (hwork ▸ .dispatched) (Or.inl (.running _)))
        (List.append_nil _).symm (fun _ he ↦ by cases he) ?_ (k := 1) rfl ?_
      · simp only [Call.runs, hwork, List.append_nil]
      · simp only [Call.starts, hwork]
  | unknownMethod => exact h.of_eq rfl rfl rfl
  | goOn hwork =>
      refine hset rfl rfl rfl
        (hcoherent.advance (hwork ▸ .running _) (Or.inl (.running _))) ?_ ?_
      · simp only [Call.runs, hwork]
      · simp only [Call.starts, hwork]
  | finish hwork =>
      refine h.update hcall rfl
        (hcoherent.advance (hwork ▸ .running _) (Or.inr ⟨_, rfl⟩)) rfl ?_ ?_
        (k := 0) (List.append_nil _).symm ?_
      · intro e he
        obtain rfl := List.mem_singleton.mp he
        rfl
      · simp only [Call.runs, hwork, List.nil_append]
      · simp only [Call.starts, hwork]
  | panic => exact h.of_eq rfl rfl rfl
  | receive hphase hwork =>
      refine hset rfl rfl rfl (hcoherent.receive hphase hwork) ?_ ?_
      · simp only [Call.runs, hwork]
      · simp only [Call.starts, hwork]
  | forsake => exact hset rfl rfl rfl trivial rfl rfl
  | keepWaiting => exact h
  | drain hover hwork =>
      refine hset rfl rfl rfl (hcoherent.drain hover hwork) ?_ ?_
      · simp only [Call.runs, hwork]
      · simp only [Call.starts, hwork]
  | giveUp => exact hset rfl rfl rfl call.coherent_replying_failure rfl rfl
  | disown => exact hset rfl rfl rfl call.coherent_replying_failure rfl rfl
  | dropReply => exact hset rfl rfl rfl call.coherent_replying_failure rfl rfl
  | confirm hphase =>
      simp only [Call.Coherent, hphase] at hcoherent
      exact hset rfl rfl rfl (fun _ ↦ ⟨_, hcoherent⟩) rfl rfl
  | deliver hphase =>
      simp only [Call.Coherent, hphase] at hcoherent
      exact hset rfl rfl rfl hcoherent rfl rfl

variable [DecidableEq End] [DecidableEq Name]

theorem step (h : s.Consistent) {a : Action End Name Obj}
    (hstep : s.step a = some s') : s'.Consistent := by
  cases (step_stepped hstep).2 with
  | call => exact h.begin _
  | move hcall hmoved => exact h.move hcall hmoved
  | _ => exact h.of_eq rfl rfl rfl

omit [DecidableEq Obj] [DecidableEq End] [DecidableEq Name] in
theorem start (heap : Obj → Server σ κ) :
    (System.start heap : System End Name Obj σ κ).Consistent where
  coherent := fun h ↦ by cases h
  executed := fun h ↦ by cases h
  invoked := fun h ↦ by cases h
  begun := fun e he ↦ by cases he
  known := fun c hc ↦ by cases hc

end Consistent

theorem consistent_of_run [DecidableEq Obj] [DecidableEq End]
    [DecidableEq Name] {heap : Obj → Server σ κ} {s : System End Name Obj σ κ}
    {visited : List (System End Name Obj σ κ)}
    (hrun : Run step (fun _ _ ↦ True) (start heap) visited s) :
    s.Consistent :=
  hrun.invariant (Consistent.start heap) fun h _ hstep ↦ h.step hstep

/-! ## At most one execution -/

/-- A handler of the server below, with what it has received. -/
inductive AdderHandler
  | add (args : Bytes)
  | reply (args : Bytes)
  | await (args : Bytes)

/-- A server that adds up the lengths of what `Add` receives; `Await` waits
until the sum has reached the length of what it receives. -/
def adder : Unit → Server ℕ AdderHandler := fun _ ↦
  { services := fun serviceName ↦
      if serviceName = "Adder" then
        some { methods := fun methname ↦
          if methname = "Add" then
            some .add
          else if methname = "Await" then
            some .await
          else
            none }
      else
        none
    run := fun handler n ↦
      match handler with
      | .add args => some (n + args.length, .goesOn (.reply args))
      | .reply args => some (n, .returns args)
      | .await args =>
          if args.length ≤ n then some (n, .returns args) else none
    background := fun _ _ ↦ none
    count := 0
    state := 0 }

/-- One end, which is connected to the one server. -/
def adderSetup : List (Action Unit (Fin 1) Unit) :=
  [.control (.addServer 0 ()), .control (.makeEnd ()),
    .control (.connect () 0), .control (.enable () true)]

/-- Call number `c` until its handler has been started. -/
def startCall (c : ℕ) (svcMeth : String) (args : Bytes) :
    List (Action Unit (Fin 1) Unit) :=
  [.call { endname := (), svcMeth := svcMeth, args := args }, .move c .accept,
    .move c .readInfo, .move c .launch, .move c .dispatch, .move c .invoke]

def adderCall (c : ℕ) : List (Action Unit (Fin 1) Unit) :=
  startCall c "Adder.Add" [7]

/-- The rest of call number `c`. -/
def adderReturn (c : ℕ) : List (Action Unit (Fin 1) Unit) :=
  [.move c .handle, .move c .handle, .move c .receive,
    .move c (.conclude false), .move c .deliver]

/-- What call number `c` has returned. -/
def returned? (s : System End Name Obj σ κ) (c : ℕ) : Option ReplyMsg :=
  match s.calls[c]? with
  | some { req := _, phase := .returned reply, work := _ } => some reply
  | _ => none

theorem returned?_eq_some {s : System End Name Obj σ κ} {n : ℕ}
    {reply : ReplyMsg} (h : s.returned? n = some reply) :
    ∃ call, s.calls[n]? = some call ∧ call.phase = .returned reply := by
  unfold returned? at h
  split at h
  · next hcall =>
      obtain rfl := Option.some.inj h
      exact ⟨_, hcall, rfl⟩
  · cases h

/-- The handler of a call is started at most once and returns at most once, and
a call that returned true has the reply of the one execution of its handler. -/
theorem calls_executed_once [DecidableEq Obj] [DecidableEq End]
    [DecidableEq Name] {heap : Obj → Server σ κ} {s : System End Name Obj σ κ}
    {visited : List (System End Name Obj σ κ)}
    (hrun : Run step (fun _ _ ↦ True) (start heap) visited s) {c : ℕ}
    {call : Call End Name Obj κ} (hcall : s.calls[c]? = some call) :
    s.invocations.count c ≤ 1 ∧
      (s.executionsOf c).length ≤ s.invocations.count c ∧
        ∀ reply, call.phase = .returned reply → reply.ok = true →
          ∃ server, s.executionsOf c =
            [{ call := c, server := server, req := call.req
               reply := reply }] := by
  have hconsistent := consistent_of_run hrun
  rw [hconsistent.executed hcall, hconsistent.invoked hcall]
  refine ⟨call.starts_le_one, call.length_runs_le c, ?_⟩
  intro reply hphase hok
  exact (hconsistent.coherent hcall).runs_of_returned hphase hok c

/-- Two calls overlap, and the second one has returned. -/
theorem calls_executed_once_adder :
    ∃ s : System Unit (Fin 1) Unit ℕ AdderHandler,
      s.returned? 1 = some ⟨true, [7]⟩ ∧ s.invocations = [0, 1] ∧
        s.invocations.count 0 ≤ 1 ∧ s.invocations.count 1 ≤ 1 ∧
          ∃ server req, s.executionsOf 1 =
            [{ call := 1, server := server, req := req
               reply := ⟨true, [7]⟩ }] := by
  obtain ⟨visited, s, hrun, hreturned, hfirst, hinvocations⟩ :=
    Run.exists_of_exec step (fun _ _ ↦ True) (start adder)
      (adderSetup ++ adderCall 0 ++ [.move 0 .handle] ++ adderCall 1 ++
        adderReturn 1)
      (fun s ↦ s.returned? 1 = some ⟨true, [7]⟩ ∧ (s.calls[0]?).isSome ∧
        s.invocations = [0, 1]) (by decide +kernel)
  obtain ⟨call₀, hcall₀⟩ := Option.isSome_iff_exists.mp hfirst
  obtain ⟨call₁, hcall₁, hphase⟩ := returned?_eq_some hreturned
  obtain ⟨hstart, -, hreply⟩ := calls_executed_once hrun hcall₁
  obtain ⟨server, hexecutions⟩ := hreply _ hphase rfl
  exact ⟨s, hreturned, hinvocations, (calls_executed_once hrun hcall₀).1,
    hstart, server, call₁.req, hexecutions⟩

/-! ## Acknowledgements -/

section Acknowledgements

variable [DecidableEq Obj]

/-- No check of the network finds `server` alive behind `endname`. -/
def CutOff (s : System End Name Obj σ κ) (endname : End) (server : Obj) :
    Prop :=
  s.net.enabled endname = false ∨
    ∀ servername, s.net.servers servername ≠ some server

instance (s : System End Name Obj σ κ) (endname : End) (server : Obj)
    [Decidable (∀ servername, s.net.servers servername ≠ some server)] :
    Decidable (s.CutOff endname server) :=
  inferInstanceAs (Decidable (_ ∨ _))

theorem CutOff.isServerDead {s : System End Name Obj σ κ} {endname : End}
    {server : Obj} (h : s.CutOff endname server) (servername : Name) :
    s.net.isServerDead endname servername server = true := by
  rw [Network.isServerDead, decide_eq_true_eq]
  exact h.imp_right fun hgone ↦ hgone servername

variable {s s' s₀ : System End Name Obj σ κ} {c : ℕ}
variable {call : Call End Name Obj κ}

/-- A reply becomes a success only in a check that finds the server alive. -/
theorem Moved.succeeds {m : Move} (hcall : s.calls[c]? = some call)
    (hmoved : Moved s c call m s') :
    ∃ call', s'.calls = s.calls.set c call' ∧
      (call'.phase.Succeeds → call.phase.Succeeds ∨
        ∃ route reply, call.phase = .answered route reply ∧
          s.net.isServerDead call.req.endname route.servername
            route.server = false) := by
  cases hmoved with
  | accept => exact ⟨_, rfl, fun h ↦ h.elim⟩
  | abandon => exact ⟨_, rfl, fun h ↦ (Bool.false_ne_true h).elim⟩
  | found => exact ⟨_, rfl, fun h ↦ h.elim⟩
  | refuse => exact ⟨_, rfl, fun h ↦ (Bool.false_ne_true h).elim⟩
  | dropRequest => exact ⟨_, rfl, fun h ↦ (Bool.false_ne_true h).elim⟩
  | launch => exact ⟨_, rfl, fun h ↦ h.elim⟩
  | dispatch => exact ⟨_, rfl, Or.inl⟩
  | unknownService =>
      exact ⟨call, (set_eq_self hcall).symm, Or.inl⟩
  | invoke => exact ⟨_, rfl, Or.inl⟩
  | unknownMethod =>
      exact ⟨call, (set_eq_self hcall).symm, Or.inl⟩
  | goOn => exact ⟨_, rfl, Or.inl⟩
  | finish => exact ⟨_, rfl, Or.inl⟩
  | panic =>
      exact ⟨call, (set_eq_self hcall).symm, Or.inl⟩
  | receive => exact ⟨_, rfl, fun h ↦ h.elim⟩
  | forsake => exact ⟨_, rfl, fun h ↦ h.elim⟩
  | keepWaiting =>
      exact ⟨call, (set_eq_self hcall).symm, Or.inl⟩
  | drain => exact ⟨_, rfl, Or.inl⟩
  | giveUp => exact ⟨_, rfl, fun h ↦ (Bool.false_ne_true h).elim⟩
  | disown => exact ⟨_, rfl, fun h ↦ (Bool.false_ne_true h).elim⟩
  | dropReply => exact ⟨_, rfl, fun h ↦ (Bool.false_ne_true h).elim⟩
  | confirm hphase halive =>
      exact ⟨_, rfl, fun _ ↦ Or.inr ⟨_, _, hphase, halive⟩⟩
  | deliver hphase =>
      refine ⟨_, rfl, fun h ↦ Or.inl ?_⟩
      rw [hphase]
      exact h

/-- Executions of handlers are only added, and only while nobody has been told
that the call succeeded. -/
theorem Moved.executions {m : Move} (hmoved : Moved s c call m s') :
    s'.executions = s.executions ∨
      ∃ server handler reply, call.work = .running server handler ∧
        s'.executions = s.executions ++
          [{ call := c, server := server, req := call.req
             reply := reply }] := by
  cases hmoved with
  | finish hwork => exact Or.inr ⟨_, _, _, hwork, rfl⟩
  | _ => exact Or.inl rfl

/-- What `server` has executed for `endname` since `s₀` is not acknowledged. -/
def Unacknowledged (s₀ : System End Name Obj σ κ) (endname : End) (server : Obj)
    (s : System End Name Obj σ κ) : Prop :=
  ∀ e ∈ s.executions, e.server = server → e.req.endname = endname →
    e ∉ s₀.executions → ∀ call : Call End Name Obj κ,
      s.calls[e.call]? = some call → ¬ call.phase.Succeeds

variable {endname : End} {server : Obj}

theorem Unacknowledged.move (h : Unacknowledged s₀ endname server s)
    (hconsistent : s.Consistent) (hcut : s.CutOff endname server) {m : Move}
    (hcall : s.calls[c]? = some call) (hmoved : Moved s c call m s') :
    Unacknowledged s₀ endname server s' := by
  intro e he hserver hend hnew call₁ hcall₁ hsucceeds
  obtain ⟨call', hcalls, hphase⟩ := hmoved.succeeds hcall
  rw [hcalls] at hcall₁
  have hcoherent := hconsistent.coherent hcall
  have hexecuted := hconsistent.executed hcall
  obtain hsame | ⟨o, handler, reply, hwork, hadd⟩ := hmoved.executions
  · rw [hsame] at he
    obtain ⟨hc, rfl⟩ | ⟨-, hold⟩ := getElem?_set_cases hcall₁
    · obtain hbefore | ⟨route, reply, hanswered, halive⟩ := hphase hsucceeds
      · exact h e he hserver hend hnew call (hc ▸ hcall) hbefore
      · -- The server that answered is the one that executed the call.
        have hwork : call.work = .collected route.server reply := by
          simpa only [Call.Coherent, hanswered] using hcoherent
        have hmem : e ∈ s.executionsOf c :=
          List.mem_filter.mpr ⟨he, by simpa using hc⟩
        rw [hexecuted, Call.runs, hwork, List.mem_singleton] at hmem
        subst hmem
        subst hserver hend
        rw [hcut.isServerDead] at halive
        cases halive
    · exact h e he hserver hend hnew call₁ hold hsucceeds
  · -- The call has not succeeded, because its handler was still running.
    have hfailing : ¬ call.phase.Succeeds := by
      unfold Call.Coherent at hcoherent
      cases hp : call.phase <;> simp_all [Phase.Succeeds]
    obtain ⟨hc, rfl⟩ | ⟨hne, hold⟩ := getElem?_set_cases hcall₁
    · obtain hbefore | ⟨route, reply, hanswered, -⟩ := hphase hsucceeds
      · exact hfailing hbefore
      · simp_all [Call.Coherent]
    · rw [hadd, List.mem_append, List.mem_singleton] at he
      obtain he | rfl := he
      · exact h e he hserver hend hnew call₁ hold hsucceeds
      · exact hne rfl

variable [DecidableEq End] [DecidableEq Name]

theorem Unacknowledged.step (h : Unacknowledged s₀ endname server s)
    (hconsistent : s.Consistent) (hcut : s.CutOff endname server)
    {a : Action End Name Obj} (hstep : s.step a = some s') :
    Unacknowledged s₀ endname server s' := by
  cases (step_stepped hstep).2 with
  | call =>
      intro e he hserver hend hnew call₁ hcall₁
      rw [List.getElem?_append_left (hconsistent.begun e he)] at hcall₁
      exact h e he hserver hend hnew call₁ hcall₁
  | move hcall hmoved => exact h.move hconsistent hcut hcall hmoved
  | _ => exact h

/-- While `server` is deleted, or `endname` disabled, `server` may still execute
requests of `endname`, but only calls that it had executed before return
true. -/
theorem acknowledged_before_cutOff {heap : Obj → Server σ κ}
    {visited₀ visited : List (System End Name Obj σ κ)}
    (hreach : Run step (fun _ _ ↦ True) (start heap) visited₀ s₀)
    (hrun : Run step (fun t _ ↦ t.CutOff endname server) s₀ visited s)
    {e : Execution End Obj} (he : e ∈ s.executions)
    (hserver : e.server = server) (hend : e.req.endname = endname)
    {reply : ReplyMsg} (hcall : s.calls[e.call]? = some call)
    (hphase : call.phase = .returned reply) (hok : reply.ok = true) :
    e ∈ s₀.executions := by
  have hstart : s₀.Consistent ∧ Unacknowledged s₀ endname server s₀ :=
    ⟨consistent_of_run hreach, fun e he _ _ hnew ↦ absurd he hnew⟩
  obtain ⟨-, hun⟩ := hrun.invariant
    (I := fun s ↦ s.Consistent ∧ Unacknowledged s₀ endname server s) hstart
    fun h hcut hstep ↦ ⟨h.1.step hstep, h.2.step h.1 hcut hstep⟩
  by_contra hnew
  refine hun e he hserver hend hnew call hcall ?_
  rw [hphase]
  exact hok

/-- The first call returns, the server is deleted, and it executes the second
call in vain. -/
theorem acknowledged_before_cutOff_adder :
    ∃ s₀ s : System Unit (Fin 1) Unit ℕ AdderHandler,
      (s₀.executions.length = 1 ∧ s.executions.length = 2) ∧
        s.returned? 1 = some .failure ∧
        ∀ e ∈ s.executions, ∀ call, s.calls[e.call]? = some call →
          ∀ reply, call.phase = .returned reply → reply.ok = true →
            e ∈ s₀.executions := by
  obtain ⟨visited₀, s₀, hreach, hone, hlater⟩ :=
    Run.exists_of_exec step (fun _ _ ↦ True) (start adder)
      (adderSetup ++ adderCall 0 ++ adderReturn 0 ++ adderCall 1 ++
        [.control (.deleteServer 0)])
      (fun s₀ ↦ s₀.executions.length = 1 ∧
        (exec step (fun t _ ↦ t.CutOff () ()) s₀ (adderReturn 1)).any
          (fun s ↦ decide (s.executions.length = 2 ∧
            s.returned? 1 = some .failure)) = true)
      (by decide +kernel)
  obtain ⟨visited, s, hrun, htwo, hfailure⟩ :=
    Run.exists_of_exec step (fun t _ ↦ t.CutOff () ()) s₀ (adderReturn 1)
      (fun s ↦ s.executions.length = 2 ∧ s.returned? 1 = some .failure) hlater
  refine ⟨s₀, s, ⟨hone, htwo⟩, hfailure, ?_⟩
  intro e he call hcall reply hphase hok
  exact acknowledged_before_cutOff hreach hrun he rfl rfl hcall hphase hok

end Acknowledgements

end System

end DistLabs.Labrpc
