import DistLabs.Kvsrv.KvModel
import DistLabs.Kvsrv.Linearizable

/-!
# The tests of the key/value service

The clients of a test call a clerk, read a clock before and after, and append
what they have seen to a log.  When all of them are done, the log is checked.
The check never reports an error, however the clients, the network and the clock
are interleaved.
-/

namespace DistLabs.Kvsrv

open Linearizability
open Porcupine (checkOperations ParallelState ByTime observed)

/-- A call of `Get`, `Put` or `Append` of the tests, with the time at which it
began. -/
structure TestCall where
  req : Request
  cli : ℤ
  start : ℤ

/-- Where a client is: the clock was read, the clerk was called, it has
returned, the clock was read again. -/
inductive TestPhase
  | idle
  | started (call : TestCall)
  | waiting (call : TestCall)
  | returned (call : TestCall) (value : String)
  | ended (call : TestCall) (value : String) (stop : ℤ)

/-- What the client appends to the log. -/
def TestCall.operation (call : TestCall) (value : String) (stop : ℤ) :
    Porcupine.Operation KvInput KvOutput where
  clientId := call.cli
  input := call.req.input
  call := call.start
  output := call.req.output value
  ret := stop

/-- Clients, each with a clerk of its own; `clock` is `time.Since(t0)`. -/
structure Tester (Clerk : Type) where
  service : Service Clerk
  clock : ℤ
  phase : Clerk → TestPhase
  log : List (Porcupine.Operation KvInput KvOutput)

inductive TestAction (Clerk : Type)
  | tick (d : ℕ)
  | start (c : Clerk) (req : Request) (cli : ℤ)
  | call (c : Clerk) (opReg : OpReg)
  | execute (c : Clerk)
  | fail (c : Clerk)
  | reply (c : Clerk)
  | stop (c : Clerk)
  | record (c : Clerk)

/-- What the method of the clerk returns when the present call succeeds. -/
def Phase.returnValue : Phase → Option String
  | .calling (.get _) _ (some value) => some value
  | .clearing _ _ value true => some value
  | _ => none

def Phase.request : Phase → Option Request
  | .idle => none
  | .calling req _ _ => some req
  | .clearing req _ _ _ => some req

namespace Tester

variable {Clerk : Type} [DecidableEq Clerk]

omit [DecidableEq Clerk] in
def init : Tester Clerk where
  service := Service.init
  clock := 0
  phase := fun _ ↦ .idle
  log := []

def setPhase (T : Tester Clerk) (c : Clerk) (phase : TestPhase) :
    Tester Clerk :=
  { T with phase := Function.update T.phase c phase }

/-- The present call of the clerk of `c` succeeds. -/
def reply (T : Tester Clerk) (c : Clerk) : Option (Tester Clerk) :=
  match T.service.reply c, T.phase c with
  | some σ, .waiting call =>
      match (T.service.clerk c).returnValue with
      | some value =>
          some { T.setPhase c (.returned call value) with service := σ }
      | none => some { T with service := σ }
  | _, _ => none

def step (T : Tester Clerk) : TestAction Clerk → Option (Tester Clerk)
  | .tick d => some { T with clock := T.clock + d }
  | .start c req cli =>
      match T.phase c with
      | .idle => some (T.setPhase c (.started ⟨req, cli, T.clock⟩))
      | _ => none
  | .call c opReg =>
      match T.phase c with
      | .started call =>
          (T.service.step (.invoke c call.req opReg)).map fun σ ↦
            { T.setPhase c (.waiting call) with service := σ }
      | _ => none
  | .execute c => (T.service.execute c).map fun σ ↦ { T with service := σ }
  | .fail c => (T.service.fail c).map fun σ ↦ { T with service := σ }
  | .reply c => T.reply c
  | .stop c =>
      match T.phase c with
      | .returned call value =>
          some (T.setPhase c (.ended call value T.clock))
      | _ => none
  | .record c =>
      match T.phase c with
      | .ended call value stop =>
          some { T.setPhase c .idle with
            log := T.log ++ [call.operation value stop] }
      | _ => none

omit [DecidableEq Clerk] in
/-- Every operation has a number of its own. -/
def Fresh (T : Tester Clerk) : TestAction Clerk → Prop
  | .call _ opReg => opReg ∉ invokedIds T.service.history
  | _ => True

instance (T : Tester Clerk) (a : TestAction Clerk) :
    Decidable (T.Fresh a) := by
  induction a using TestAction.casesOn <;> dsimp only [Fresh] <;>
    infer_instance

end Tester

/-! ## What the service does for a client -/

namespace Service

variable {Clerk : Type} [DecidableEq Clerk] {σ σ' : Service Clerk} {c : Clerk}

/-- The service works on the same operations as before. -/
structure Keeps (σ σ' : Service Clerk) : Prop where
  history : σ'.history = σ.history
  opReg : ∀ c, (σ'.clerk c).opReg = (σ.clerk c).opReg
  request : ∀ c, (σ'.clerk c).request = (σ.clerk c).request

/-- Clerk `c` goes on with its operation. -/
theorem Keeps.of_update {phase : Phase} (hhistory : σ'.history = σ.history)
    (hclerk : σ'.clerk = Function.update σ.clerk c phase)
    (hopReg : phase.opReg = (σ.clerk c).opReg)
    (hrequest : phase.request = (σ.clerk c).request) : Keeps σ σ' where
  history := hhistory
  opReg := by
    intro c'
    rw [hclerk]
    by_cases hc : c' = c
    · rw [hc, Function.update_self, hopReg]
    · rw [Function.update_of_ne hc]
  request := by
    intro c'
    rw [hclerk]
    by_cases hc : c' = c
    · rw [hc, Function.update_self, hrequest]
    · rw [Function.update_of_ne hc]

theorem keeps_of_execute (h : σ.execute c = some σ') : Keeps σ σ' := by
  unfold Service.execute at h
  split at h
  · next hphase =>
      obtain rfl := Option.some.inj h
      exact .of_update rfl rfl (by rw [hphase]; rfl) (by rw [hphase]; rfl)
  · next hphase =>
      obtain rfl := Option.some.inj h
      exact .of_update rfl rfl (by rw [hphase]; rfl) (by rw [hphase]; rfl)
  · cases h

theorem keeps_of_fail (h : σ.fail c = some σ') : Keeps σ σ' := by
  unfold Service.fail at h
  split at h
  · next hphase =>
      obtain rfl := Option.some.inj h
      exact .of_update rfl rfl (by rw [hphase]; rfl) (by rw [hphase]; rfl)
  · next hphase =>
      obtain rfl := Option.some.inj h
      exact .of_update rfl rfl (by rw [hphase]; rfl) (by rw [hphase]; rfl)
  · cases h

/-- A call succeeds: the method returns, or goes on to `Clear`. -/
theorem reply_cases (h : σ.reply c = some σ') :
    (∃ req opReg value, (σ.clerk c).returnValue = some value ∧
      (σ.clerk c).opReg = some opReg ∧ (σ.clerk c).request = some req ∧
      σ' = σ.finish c req opReg value) ∨
    ((σ.clerk c).returnValue = none ∧ Keeps σ σ') := by
  unfold Service.reply at h
  split at h
  · next key opReg value hphase =>
      obtain rfl := Option.some.inj h
      exact Or.inl ⟨.get key, opReg, value, by rw [hphase]; rfl,
        by rw [hphase]; rfl, by rw [hphase]; rfl, rfl⟩
  · next req opReg value hget hphase =>
      obtain rfl := Option.some.inj h
      refine Or.inr ⟨?_, .of_update rfl rfl (by rw [hphase]; rfl)
        (by rw [hphase]; rfl)⟩
      rw [hphase]
      cases req with
      | get key => exact absurd rfl (hget key)
      | put key v => rfl
      | append key v => rfl
  · next req opReg value hphase =>
      obtain rfl := Option.some.inj h
      exact Or.inl ⟨req, opReg, value, by rw [hphase]; rfl, by rw [hphase]; rfl,
        by rw [hphase]; rfl, rfl⟩
  · cases h

end Service

end DistLabs.Kvsrv
