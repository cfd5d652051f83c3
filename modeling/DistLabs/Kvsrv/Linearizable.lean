import DistLabs.Kvsrv.Service

/-!
# The key/value service is linearizable

A `Put` or `Append` takes effect when its handler is executed for the first
time.  From then until the clerk sends `Clear` the cache holds its reply, so
repeated requests change nothing.  A `Get` takes effect at the last execution of
its handler, whose reply is the one that the clerk returns.

The invariant keeps an order of the operations that have taken effect.  The
server's data is the state that this order leads to.
-/

namespace DistLabs.Kvsrv

open Linearizability

/-! ## Handlers and the model of the tests -/

theorem Request.isRead_input {req : Request} (h : ¬ req.IsWrite) :
    kvModels.IsRead req.input := by
  cases req with
  | get key =>
      refine SequentialModel.IsRead.keyed fun st out ↦ ?_
      simp [kvModel, Request.input]
  | put key value => exact absurd trivial h
  | append key value => exact absurd trivial h

namespace KVServer

variable {kv : KVServer} {req : Request} {opReg other : OpReg}
  {value : String}

theorem value_update (key new : String) (cache : OpReg → Option String) :
    KVServer.value
        { data := Function.update kv.data key (some new), opCache := cache } =
      Function.update kv.value key new := by
  funext k
  by_cases hk : k = key
  · subst hk
    simp [KVServer.value]
  · simp [KVServer.value, hk]

/-- A repeated `Put` or `Append` gets the cached reply and does nothing. -/
theorem handle_repeated (hwrite : req.IsWrite)
    (hcached : kv.opCache opReg = some value) :
    kv.handle opReg req = (kv, value) := by
  cases req with
  | get key => exact hwrite.elim
  | put key new => simp [handle, put, putAppend, hcached]
  | append key new => simp [handle, append, putAppend, hcached]

/-- A request that is not cached does what the model of the tests does. -/
theorem handle_step (hnew : req.IsWrite → kv.opCache opReg = none) :
    kvModels.step kv.value req.input
        (req.output (kv.handle opReg req).2) =
      (true, (kv.handle opReg req).1.value) := by
  cases req with
  | get key =>
      simp [kvModels, SequentialModel.keyed, kvModel, Request.input,
        Request.output, handle, get]
  | put key new =>
      simp [kvModels, SequentialModel.keyed, kvModel, Request.input,
        handle, put, putAppend, hnew trivial, value_update]
  | append key new =>
      simp [kvModels, SequentialModel.keyed, kvModel, Request.input,
        Request.output, handle, append, putAppend, hnew trivial, value_update]

theorem handle_opCache_self (hwrite : req.IsWrite)
    (hnew : kv.opCache opReg = none) :
    (kv.handle opReg req).1.opCache opReg =
      some (kv.handle opReg req).2 := by
  cases req with
  | get key => exact hwrite.elim
  | put key new => simp [handle, put, putAppend, hnew]
  | append key new => simp [handle, append, putAppend, hnew]

theorem putAppend_opCache_of_ne {args : PutAppendArgs}
    {work : String → String} (h : other ≠ args.opReg) :
    (kv.putAppend args work).1.opCache other = kv.opCache other := by
  unfold putAppend
  split
  · rfl
  · exact Function.update_of_ne h _ _

theorem handle_opCache_of_ne (h : other ≠ opReg) :
    (kv.handle opReg req).1.opCache other = kv.opCache other := by
  cases req with
  | get key => rfl
  | put key new => exact putAppend_opCache_of_ne h
  | append key new => exact putAppend_opCache_of_ne h

theorem clear_opCache_of_ne (h : other ≠ opReg) :
    (kv.clear { opReg := opReg }).1.opCache other = kv.opCache other :=
  Function.update_of_ne h _ _

end KVServer

/-! ## The invariant -/

/-- Operations that have taken effect, in the order in which they did. -/
abbrev Order := List (Operation OpReg KvInput KvOutput)

/-- The entry of an operation with reply `value`. -/
def Request.operation (req : Request) (opReg : OpReg) (value : String) :
    Operation OpReg KvInput KvOutput :=
  ⟨opReg, req.input, req.output value⟩

namespace Service

variable {Clerk : Type}

/-- Operation `opReg` was invoked with `req` and has not responded. -/
structure Pending (σ : Service Clerk) (req : Request) (opReg : OpReg) :
    Prop where
  invoked : ∀ input, .invoke opReg input ∈ σ.history ↔ input = req.input
  silent : ∀ output, .respond opReg output ∉ σ.history

/-- What is known of a clerk that calls `Get`, `Put` or `Append`. -/
structure Calling (σ : Service Clerk) (ops : Order) (req : Request)
    (opReg : OpReg) (reply : Option String) : Prop where
  pending : σ.Pending req opReg
  replied : ∀ value ∈ reply, req.operation opReg value ∈ ops
  cached : req.IsWrite → ∀ value, σ.server.opCache opReg = some value →
    req.operation opReg value ∈ ops
  executed : req.IsWrite → σ.server.opCache opReg = none →
    ∀ op ∈ ops, op.id ≠ opReg

/-- What is known of a clerk that calls `Clear`. -/
structure Clearing (σ : Service Clerk) (ops : Order) (req : Request)
    (opReg : OpReg) (value : String) : Prop where
  pending : σ.Pending req opReg
  replied : req.operation opReg value ∈ ops

/-- What is known of a clerk. -/
def Knows (σ : Service Clerk) (ops : Order) : Phase → Prop
  | .idle => True
  | .calling req opReg reply => σ.Calling ops req opReg reply
  | .clearing req opReg value _ => σ.Clearing ops req opReg value

/-- The order `ops` explains what the clerks have seen. -/
structure Explained (σ : Service Clerk) (ops : Order) : Prop where
  linear : Linearization kvModels σ.history ops σ.server.value
  clerks : ∀ c, σ.Knows ops (σ.clerk c)
  owner : ∀ c c' opReg, (σ.clerk c).opReg = some opReg →
    (σ.clerk c').opReg = some opReg → c = c'
  invoked : ∀ opReg value, σ.server.opCache opReg = some value →
    opReg ∈ invokedIds σ.history

/-! ## Frames -/

/-- Nothing has changed for operation `opReg`. -/
structure SameOp (σ σ' : Service Clerk) (ops ops' : Order)
    (opReg : OpReg) : Prop where
  cache : σ'.server.opCache opReg = σ.server.opCache opReg
  order : ∀ op : Operation OpReg KvInput KvOutput, op.id = opReg →
    (op ∈ ops' ↔ op ∈ ops)
  invoke : ∀ input,
    .invoke opReg input ∈ σ'.history ↔ .invoke opReg input ∈ σ.history
  respond : ∀ output,
    .respond opReg output ∈ σ'.history ↔ .respond opReg output ∈ σ.history

section Frame

variable {σ σ' : Service Clerk} {ops ops' : Order} {req : Request}
  {opReg : OpReg}

theorem Pending.frame (h : σ.Pending req opReg)
    (hsame : SameOp σ σ' ops ops' opReg) : σ'.Pending req opReg where
  invoked := fun input ↦ (hsame.invoke input).trans (h.invoked input)
  silent := fun output hmem ↦ h.silent output ((hsame.respond output).mp hmem)

theorem Calling.frame {reply : Option String}
    (h : σ.Calling ops req opReg reply)
    (hsame : SameOp σ σ' ops ops' opReg) :
    σ'.Calling ops' req opReg reply where
  pending := h.pending.frame hsame
  replied := fun value hvalue ↦
    (hsame.order _ rfl).mpr (h.replied value hvalue)
  cached := fun hwrite value hvalue ↦
    (hsame.order _ rfl).mpr
      (h.cached hwrite value (hsame.cache.symm.trans hvalue))
  executed := fun hwrite hnone op hop hid ↦
    h.executed hwrite (hsame.cache.symm.trans hnone) op
      ((hsame.order op hid).mp hop) hid

theorem Clearing.frame {value : String}
    (h : σ.Clearing ops req opReg value)
    (hsame : SameOp σ σ' ops ops' opReg) :
    σ'.Clearing ops' req opReg value where
  pending := h.pending.frame hsame
  replied := (hsame.order _ rfl).mpr h.replied

theorem Knows.frame {phase : Phase} (h : σ.Knows ops phase)
    (hsame : ∀ opReg, phase.opReg = some opReg →
      SameOp σ σ' ops ops' opReg) : σ'.Knows ops' phase := by
  cases phase with
  | idle => trivial
  | calling req opReg reply => exact Calling.frame h (hsame opReg rfl)
  | clearing req opReg value cleared =>
      exact Clearing.frame h (hsame opReg rfl)

theorem Knows.exists_pending {phase : Phase} (h : σ.Knows ops phase)
    (hop : phase.opReg = some opReg) : ∃ req, σ.Pending req opReg := by
  cases phase with
  | idle => cases hop
  | calling req r reply =>
      obtain rfl := Option.some.inj hop
      exact ⟨req, Calling.pending h⟩
  | clearing req r value cleared =>
      obtain rfl := Option.some.inj hop
      exact ⟨req, Clearing.pending h⟩

end Frame

/-! ## Steps -/

variable [DecidableEq Clerk] {σ σ' : Service Clerk} {ops ops' : Order}
  {c : Clerk} {req : Request} {opReg : OpReg} {value : String}

omit [DecidableEq Clerk] in
theorem Explained.init : (Service.init : Service Clerk).Explained [] where
  linear := Linearization.empty kvModels
  clerks := fun _ ↦ trivial
  owner := by
    intro c c' opReg h
    cases h
  invoked := by
    intro opReg value h
    cases h

omit [DecidableEq Clerk] in
/-- No other clerk works on the operation of clerk `c`. -/
theorem Explained.alone (hex : σ.Explained ops)
    (hop : (σ.clerk c).opReg = some opReg) :
    ∀ c' ≠ c, (σ.clerk c').opReg ≠ some opReg :=
  fun c' hne hop' ↦ hne (hex.owner c' c opReg hop' hop)

omit [DecidableEq Clerk] in
/-- No clerk works on an operation that was not invoked. -/
theorem Explained.unused (hex : σ.Explained ops)
    (hfresh : opReg ∉ invokedIds σ.history) (c : Clerk) :
    (σ.clerk c).opReg ≠ some opReg := by
  intro hop
  obtain ⟨req, hpending⟩ := (hex.clerks c).exists_pending hop
  exact hfresh (mem_invokedIds.mpr ⟨_, (hpending.invoked _).mpr rfl⟩)

/-- A step of clerk `c` in its operation `opReg`. -/
theorem Explained.advance {phase : Phase} (hex : σ.Explained ops)
    (hclerk : σ'.clerk = Function.update σ.clerk c phase)
    (hmine : ∀ c' ≠ c, (σ.clerk c').opReg ≠ some opReg)
    (hphase : ∀ other, phase.opReg = some other → other = opReg)
    (hsame : ∀ other ≠ opReg, SameOp σ σ' ops ops' other)
    (hinvoked : ∃ input, .invoke opReg input ∈ σ'.history)
    (hlinear : Linearization kvModels σ'.history ops' σ'.server.value)
    (hknows : σ'.Knows ops' phase) : σ'.Explained ops' where
  linear := hlinear
  clerks := by
    intro c'
    rw [hclerk]
    by_cases hc : c' = c
    · rw [hc, Function.update_self]
      exact hknows
    · rw [Function.update_of_ne hc]
      refine (hex.clerks c').frame fun other hop ↦ hsame other ?_
      rintro rfl
      exact hmine c' hc hop
  owner := by
    have hself : ∀ c' other,
        (Function.update σ.clerk c phase c').opReg = some other →
          (c' = c ∧ other = opReg) ∨
            (c' ≠ c ∧ (σ.clerk c').opReg = some other) := by
      intro c' other hop
      by_cases hc : c' = c
      · rw [hc, Function.update_self] at hop
        exact Or.inl ⟨hc, hphase other hop⟩
      · rw [Function.update_of_ne hc] at hop
        exact Or.inr ⟨hc, hop⟩
    intro c₁ c₂ other h₁ h₂
    rw [hclerk] at h₁ h₂
    rcases hself c₁ other h₁ with ⟨rfl, rfl⟩ | ⟨hne₁, hop₁⟩
    · rcases hself c₂ other h₂ with ⟨rfl, _⟩ | ⟨hne₂, hop₂⟩
      · rfl
      · exact absurd hop₂ (hmine c₂ hne₂)
    · rcases hself c₂ other h₂ with ⟨rfl, rfl⟩ | ⟨_, hop₂⟩
      · exact absurd hop₁ (hmine c₁ hne₁)
      · exact hex.owner c₁ c₂ other hop₁ hop₂
  invoked := by
    intro other value hcached
    by_cases hne : other = opReg
    · rw [hne]
      exact mem_invokedIds.mpr hinvoked
    · rw [(hsame other hne).cache] at hcached
      obtain ⟨input, hmem⟩ :=
        mem_invokedIds.mp (hex.invoked other value hcached)
      exact mem_invokedIds.mpr
        ⟨input, ((hsame other hne).invoke input).mpr hmem⟩

theorem sameOp_setPhase (σ : Service Clerk) (c : Clerk) (phase : Phase)
    (ops : Order) (other : OpReg) :
    SameOp σ (σ.setPhase c phase) ops ops other where
  cache := rfl
  order := fun _ _ ↦ Iff.rfl
  invoke := fun _ ↦ Iff.rfl
  respond := fun _ ↦ Iff.rfl

/-- Clerk `c` goes on without the server. -/
theorem Explained.setPhase {phase : Phase} (hex : σ.Explained ops)
    (hop : (σ.clerk c).opReg = some opReg)
    (hphase : phase.opReg = some opReg) (hknows : σ.Knows ops phase) :
    (σ.setPhase c phase).Explained ops := by
  obtain ⟨req, hpending⟩ := (hex.clerks c).exists_pending hop
  have hsame := sameOp_setPhase σ c phase ops
  refine hex.advance rfl (hex.alone hop) ?_ (fun other _ ↦ hsame other)
    ⟨_, (hpending.invoked _).mpr rfl⟩ hex.linear
    (hknows.frame fun other _ ↦ hsame other)
  intro other hother
  exact Option.some.inj (hother.symm.trans hphase)

/-- Clerk `c` starts a new operation. -/
theorem Explained.start (hex : σ.Explained ops)
    (hfresh : opReg ∉ invokedIds σ.history) :
    (σ.start c req opReg).Explained ops := by
  have hnew : ∀ input, .invoke opReg input ∉ σ.history :=
    fun input hmem ↦ hfresh (mem_invokedIds.mpr ⟨input, hmem⟩)
  have habsent : ∀ op ∈ ops, op.id ≠ opReg := by
    rintro op hop rfl
    exact hnew _ (hex.linear.invoked op hop)
  have hsilent : ∀ output, .respond opReg output ∉ σ.history := by
    intro output hmem
    obtain ⟨input, hop⟩ := hex.linear.completed opReg output hmem
    exact habsent _ hop rfl
  refine hex.advance rfl (fun c' _ ↦ hex.unused hfresh c') ?_ ?_
    ⟨req.input, ?_⟩ (hex.linear.invoke hnew) ?_
  · intro other hother
    exact (Option.some.inj hother).symm
  · intro other hne
    refine ⟨rfl, fun _ _ ↦ Iff.rfl, fun input ↦ ?_, fun output ↦ ?_⟩
    · simp [Service.start, hne]
    · simp [Service.start]
  · exact List.mem_append_right _ List.mem_cons_self
  · refine ⟨⟨fun input ↦ ?_, fun output ↦ ?_⟩, ?_, ?_, ?_⟩
    · simp [Service.start, hnew]
    · simpa [Service.start] using hsilent output
    · intro value hvalue
      cases hvalue
    · intro _ value hcached
      exact absurd (hex.invoked opReg value hcached) hfresh
    · intro _ _
      exact habsent

/-- Clerk `c` returns from its operation. -/
theorem Explained.finish (hex : σ.Explained ops)
    (hop : (σ.clerk c).opReg = some opReg)
    (hmem : req.operation opReg value ∈ ops) :
    (σ.finish c req opReg value).Explained ops := by
  refine hex.advance rfl (hex.alone hop) ?_ ?_ ⟨req.input, ?_⟩
    (hex.linear.respond hmem) trivial
  · intro other hother
    cases hother
  · intro other hne
    refine ⟨rfl, fun _ _ ↦ Iff.rfl, fun input ↦ ?_, fun output ↦ ?_⟩
    · simp [Service.finish]
    · simp [Service.finish, hne]
  · exact List.mem_append_left _ (hex.linear.invoked _ hmem)

/-- The cache entry of the operation is removed after the clerk has its
reply. -/
theorem Explained.executeClear (hex : σ.Explained ops)
    (hphase : σ.clerk c = .clearing req opReg value false) :
    Explained
      { σ.setPhase c (.clearing req opReg value true) with
        server := (σ.server.clear { opReg := opReg }).1 } ops := by
  have hop : (σ.clerk c).opReg = some opReg := by rw [hphase]; rfl
  have hknown : σ.Clearing ops req opReg value := by
    have hclerk := hex.clerks c
    rwa [hphase] at hclerk
  refine hex.advance rfl (hex.alone hop) ?_ ?_
    ⟨_, (hknown.pending.invoked _).mpr rfl⟩ hex.linear ?_
  · intro other hother
    exact (Option.some.inj hother).symm
  · intro other hne
    exact ⟨KVServer.clear_opCache_of_ne hne, fun _ _ ↦ Iff.rfl,
      fun _ ↦ Iff.rfl, fun _ ↦ Iff.rfl⟩
  · exact ⟨⟨hknown.pending.invoked, hknown.pending.silent⟩, hknown.replied⟩

/-- The state after the handler of `req` was executed for clerk `c`. -/
def executed (σ : Service Clerk) (c : Clerk) (req : Request)
    (opReg : OpReg) : Service Clerk :=
  { σ.setPhase c
      (.calling req opReg (some (σ.server.handle opReg req).2)) with
    server := (σ.server.handle opReg req).1 }

/-- A repeated `Put` or `Append` gets the reply of its first execution. -/
theorem Explained.execute_repeated (hex : σ.Explained ops)
    (hphase : σ.clerk c = .calling req opReg none)
    (hknown : σ.Calling ops req opReg none) (hwrite : req.IsWrite)
    (hcached : σ.server.opCache opReg = some value) :
    (σ.executed c req opReg).Explained ops := by
  have hop : (σ.clerk c).opReg = some opReg := by rw [hphase]; rfl
  have hstate : σ.executed c req opReg =
      σ.setPhase c (.calling req opReg (some value)) := by
    rw [executed, KVServer.handle_repeated hwrite hcached]
    rfl
  rw [hstate]
  refine hex.setPhase hop rfl
    ⟨hknown.pending, ?_, hknown.cached, hknown.executed⟩
  intro v hv
  obtain rfl := Option.some.inj hv
  exact hknown.cached hwrite value hcached

/-- A request that is not cached takes effect now.  A `Get` may have taken
effect before; its earlier reply was lost. -/
theorem Explained.execute_new (hex : σ.Explained ops)
    (hphase : σ.clerk c = .calling req opReg none)
    (hknown : σ.Calling ops req opReg none)
    (hnew : req.IsWrite → σ.server.opCache opReg = none) :
    (σ.executed c req opReg).Explained
      (without opReg ops ++
        [req.operation opReg (σ.server.handle opReg req).2]) := by
  have hop : (σ.clerk c).opReg = some opReg := by rw [hphase]; rfl
  have hread : ∀ op ∈ ops, op.id = opReg → kvModels.IsRead op.input := by
    rintro op hmem rfl
    rw [(hknown.pending.invoked _).mp (hex.linear.invoked op hmem)]
    refine Request.isRead_input fun hwrite ↦ ?_
    exact hknown.executed hwrite (hnew hwrite) op hmem rfl
  have hlast : req.operation opReg (σ.server.handle opReg req).2 ∈
      without opReg ops ++
        [req.operation opReg (σ.server.handle opReg req).2] :=
    List.mem_append_right _ List.mem_cons_self
  refine hex.advance rfl (hex.alone hop) ?_ ?_
    ⟨_, (hknown.pending.invoked _).mpr rfl⟩
    (hex.linear.execute ((hknown.pending.invoked _).mpr rfl)
      hknown.pending.silent hread (KVServer.handle_step hnew)) ?_
  · intro other hother
    exact (Option.some.inj hother).symm
  · intro other hne
    refine ⟨KVServer.handle_opCache_of_ne hne, ?_, fun _ ↦ Iff.rfl,
      fun _ ↦ Iff.rfl⟩
    rintro op rfl
    have hentry : op ≠
        req.operation opReg (σ.server.handle opReg req).2 :=
      fun heq ↦ hne (congrArg Operation.id heq)
    simp [mem_without, hne, hentry]
  · refine ⟨⟨hknown.pending.invoked, hknown.pending.silent⟩, ?_, ?_, ?_⟩
    · intro v hv
      obtain rfl := Option.some.inj hv
      exact hlast
    · intro hwrite v hv
      obtain rfl := Option.some.inj
        ((KVServer.handle_opCache_self hwrite (hnew hwrite)).symm.trans hv)
      exact hlast
    · intro hwrite hnone
      cases (KVServer.handle_opCache_self hwrite (hnew hwrite)).symm.trans
        hnone

theorem Explained.execute (hex : σ.Explained ops)
    (hphase : σ.clerk c = .calling req opReg none) :
    ∃ ops', (σ.executed c req opReg).Explained ops' := by
  have hknown : σ.Calling ops req opReg none := by
    have hclerk := hex.clerks c
    rwa [hphase] at hclerk
  by_cases hnew : req.IsWrite → σ.server.opCache opReg = none
  · exact ⟨_, hex.execute_new hphase hknown hnew⟩
  · obtain ⟨hwrite, hsome⟩ := Classical.not_imp.mp hnew
    obtain ⟨value, hcached⟩ := Option.ne_none_iff_exists'.mp hsome
    exact ⟨ops, hex.execute_repeated hphase hknown hwrite hcached⟩

/-- Every step keeps an order that explains the history. -/
theorem Explained.step {a : Action Clerk} (hex : σ.Explained ops)
    (hfresh : σ.FreshOpReg a) (hstep : σ.step a = some σ') :
    ∃ ops', σ'.Explained ops' := by
  cases step_transition hstep with
  | invoke hphase => exact ⟨ops, hex.start hfresh⟩
  | execute hphase => exact hex.execute hphase
  | executeClear hphase => exact ⟨ops, hex.executeClear hphase⟩
  | @fail c req opReg reply hphase =>
      have hknown := hex.clerks c
      rw [hphase] at hknown
      refine ⟨ops, hex.setPhase (by rw [hphase]; rfl) rfl
        ⟨hknown.pending, ?_, hknown.cached, hknown.executed⟩⟩
      intro value hvalue
      cases hvalue
  | @failClear c req opReg value cleared hphase =>
      have hknown := hex.clerks c
      rw [hphase] at hknown
      exact ⟨ops, hex.setPhase (by rw [hphase]; rfl) rfl hknown⟩
  | @returnGet c key opReg value hphase =>
      have hknown := hex.clerks c
      rw [hphase] at hknown
      exact ⟨ops, hex.finish (by rw [hphase]; rfl)
        (hknown.replied value rfl)⟩
  | @returnWrite c req opReg value hphase =>
      have hknown := hex.clerks c
      rw [hphase] at hknown
      exact ⟨ops, hex.setPhase (by rw [hphase]; rfl) rfl
        ⟨hknown.pending, hknown.replied value rfl⟩⟩
  | @returnClear c req opReg value hphase =>
      have hknown := hex.clerks c
      rw [hphase] at hknown
      exact ⟨ops, hex.finish (by rw [hphase]; rfl) hknown.replied⟩

/-- In every interleaving of the clerks' calls, their repetitions and the
`Clear` calls, the history is linearizable with respect to the model of the
tests. -/
theorem history_linearizable {visited : List (Service Clerk)}
    (hrun : Run step FreshOpReg init visited σ) :
    Linearizable kvModels σ.history := by
  obtain ⟨ops, hex⟩ : ∃ ops, σ.Explained ops := by
    refine hrun.invariant (I := fun s ↦ ∃ ops, Explained s ops)
      ⟨[], Explained.init⟩ ?_
    rintro s s' a ⟨ops, hex⟩ hfresh hstep
    exact hex.step hfresh hstep
  exact ⟨ops, _, hex.linear⟩

/-- The reply to an `Append` is lost and it is repeated; a `Get` is executed
before and after a `Put` of the other clerk. -/
def retryingRun : List (Action (Fin 2)) :=
  [.invoke 0 (.append "k" "a") 1, .execute 0, .fail 0,
    .invoke 1 (.get "k") 2, .execute 1, .fail 1,
    .execute 0, .reply 0, .execute 0, .fail 0, .execute 0, .reply 0,
    .invoke 0 (.put "k" "b") 3, .execute 0, .execute 1, .reply 1]

theorem history_linearizable_retried :
    ∃ σ : Service (Fin 2),
      σ.history =
        [.invoke 1 (Request.append "k" "a").input,
          .invoke 2 (Request.get "k").input, .respond 1 ⟨""⟩,
          .invoke 3 (Request.put "k" "b").input, .respond 2 ⟨"b"⟩] ∧
      Linearizable kvModels σ.history := by
  obtain ⟨visited, σ, hrun, hhistory⟩ :=
    Run.exists_of_exec step FreshOpReg init retryingRun
      (fun σ : Service (Fin 2) ↦ σ.history =
        [.invoke 1 (Request.append "k" "a").input,
          .invoke 2 (Request.get "k").input, .respond 1 ⟨""⟩,
          .invoke 3 (Request.put "k" "b").input, .respond 2 ⟨"b"⟩])
      (by decide +kernel)
  exact ⟨σ, hhistory, history_linearizable hrun⟩

end Service

end DistLabs.Kvsrv
