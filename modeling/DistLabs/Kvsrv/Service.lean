import DistLabs.Support.Linearizability
import DistLabs.Support.Run
import Mathlib.Algebra.GroupWithZero.Nat

/-!
# The key/value service

One server keeps the data and a cache of the replies to `Put` and `Append`.  Any
number of clerks issue their operations one after another.  A clerk repeats
every `Call` until it returns true; after a `Put` or `Append` it repeats `Clear`
in the same way before it returns.

A `Call` is dropped, or its handler is executed once and the reply is lost or
delivered.  It does not return before its handler has finished or will never
run, so a clerk has one call at a time.
-/

namespace DistLabs.Kvsrv

open Linearizability

/-- The number that `nrand` draws for an operation. -/
abbrev OpReg := ℕ

structure PutAppendArgs where
  key : String
  value : String
  opReg : OpReg

structure PutAppendReply where
  value : String

structure GetArgs where
  key : String
  opReg : OpReg

structure GetReply where
  value : String

structure ClearArgs where
  opReg : OpReg

/-- The reply of `Clear`, which the server leaves at its zero value. -/
structure ClearReply where
  opReg : OpReg

/-! ## The server -/

structure KVServer where
  data : String → Option String
  opCache : OpReg → Option String

namespace KVServer

/-- `kv.data[key]`, which is empty for a missing key. -/
def value (kv : KVServer) (key : String) : String :=
  (kv.data key).getD ""

def clear (kv : KVServer) (args : ClearArgs) : KVServer × ClearReply :=
  ({ kv with opCache := Function.update kv.opCache args.opReg none },
    { opReg := 0 })

def get (kv : KVServer) (args : GetArgs) : KVServer × GetReply :=
  (kv, { value := kv.value args.key })

/-- The common part of `Put` and `Append`: a repeated request gets the cached
reply, a new one caches the old value and does its work. -/
def putAppend (kv : KVServer) (args : PutAppendArgs)
    (work : String → String) : KVServer × PutAppendReply :=
  match kv.opCache args.opReg with
  | some value => (kv, { value := value })
  | none =>
      ({ data := Function.update kv.data args.key
            (some (work (kv.value args.key)))
         opCache := Function.update kv.opCache args.opReg
            (some (kv.value args.key)) },
        { value := kv.value args.key })

def put (kv : KVServer) (args : PutAppendArgs) : KVServer × PutAppendReply :=
  kv.putAppend args fun _ ↦ args.value

def append (kv : KVServer) (args : PutAppendArgs) :
    KVServer × PutAppendReply :=
  kv.putAppend args fun old ↦ old ++ args.value

end KVServer

def startKVServer : KVServer where
  data := fun _ ↦ none
  opCache := fun _ ↦ none

/-! ## The model of the tests -/

/-- The input of an operation: 0 is get, 1 put, 2 append and everything else
append with a return value. -/
structure KvInput where
  op : UInt8
  key : String
  value : String
deriving DecidableEq

structure KvOutput where
  value : String
deriving DecidableEq

/-- `models.KvModel` for the value of one key. -/
def kvModel : SequentialModel String KvInput KvOutput where
  init := ""
  step := fun st inp out ↦
    if inp.op = 0 then
      (out.value = st, st)
    else if inp.op = 1 then
      (true, inp.value)
    else if inp.op = 2 then
      (true, st ++ inp.value)
    else
      (out.value = st, st ++ inp.value)

/-- `models.KvModel` with the partition of its operations by key. -/
def kvModels : SequentialModel (String → String) KvInput KvOutput :=
  kvModel.keyed KvInput.key

/-! ## Clerks -/

/-- A call of one of the methods of a clerk. -/
inductive Request
  | get (key : String)
  | put (key value : String)
  | append (key value : String)
deriving DecidableEq

namespace Request

/-- What the tests log as the input. -/
def input : Request → KvInput
  | .get key => { op := 0, key := key, value := "" }
  | .put key value => { op := 1, key := key, value := value }
  | .append key value => { op := 3, key := key, value := value }

/-- What the tests log as the output; `Clerk.Put` returns nothing. -/
def output : Request → String → KvOutput
  | .get _, value => { value := value }
  | .put _ _, _ => { value := "" }
  | .append _ _, value => { value := value }

/-- Requests that the server caches. -/
def IsWrite : Request → Prop
  | .get _ => False
  | .put _ _ => True
  | .append _ _ => True

end Request

/-- The server executes the handler that the request names. -/
def KVServer.handle (kv : KVServer) (opReg : OpReg) :
    Request → KVServer × String
  | .get key =>
      let result := kv.get { key := key, opReg := opReg }
      (result.1, result.2.value)
  | .put key value =>
      let result := kv.put { key := key, value := value, opReg := opReg }
      (result.1, result.2.value)
  | .append key value =>
      let result := kv.append { key := key, value := value, opReg := opReg }
      (result.1, result.2.value)

/-- What a clerk is doing.  `reply` is the reply of the present call once its
handler has been executed, `value` the reply that `PutAppend` will return, and
`cleared` tells whether the handler of the present `Clear` call has been
executed. -/
inductive Phase
  | idle
  | calling (req : Request) (opReg : OpReg) (reply : Option String)
  | clearing (req : Request) (opReg : OpReg) (value : String)
      (cleared : Bool)

/-- The operation of a clerk that is not idle. -/
def Phase.opReg : Phase → Option OpReg
  | .idle => none
  | .calling _ opReg _ => some opReg
  | .clearing _ opReg _ _ => some opReg

/-- What happens to the call of a clerk: a method is called, the handler is
executed, the call returns false and is repeated, or it returns true. -/
inductive Action (Clerk : Type)
  | invoke (c : Clerk) (req : Request) (opReg : OpReg)
  | execute (c : Clerk)
  | fail (c : Clerk)
  | reply (c : Clerk)

/-- For the numerals that name two clerks. -/
instance instNeZeroTwo : NeZero 2 := ⟨by decide⟩

structure Service (Clerk : Type) where
  server : KVServer
  clerk : Clerk → Phase
  history : List (HistoryEvent OpReg KvInput KvOutput)

namespace Service

variable {Clerk : Type} [DecidableEq Clerk]

omit [DecidableEq Clerk] in
def init : Service Clerk where
  server := startKVServer
  clerk := fun _ ↦ .idle
  history := []

/-- Clerk `c` goes on to `phase`. -/
def setPhase (σ : Service Clerk) (c : Clerk) (phase : Phase) :
    Service Clerk :=
  { σ with clerk := Function.update σ.clerk c phase }

/-- Clerk `c` starts operation `opReg`. -/
def start (σ : Service Clerk) (c : Clerk) (req : Request) (opReg : OpReg) :
    Service Clerk :=
  { σ.setPhase c (.calling req opReg none) with
    history := σ.history ++ [.invoke opReg req.input] }

/-- Clerk `c` returns from operation `opReg` with `value`. -/
def finish (σ : Service Clerk) (c : Clerk) (req : Request) (opReg : OpReg)
    (value : String) : Service Clerk :=
  { σ.setPhase c .idle with
    history := σ.history ++ [.respond opReg (req.output value)] }

/-- The handler of the present call of clerk `c` is executed. -/
def execute (σ : Service Clerk) (c : Clerk) : Option (Service Clerk) :=
  match σ.clerk c with
  | .calling req opReg none =>
      let result := σ.server.handle opReg req
      some { σ.setPhase c (.calling req opReg (some result.2)) with
        server := result.1 }
  | .clearing req opReg value false =>
      some { σ.setPhase c (.clearing req opReg value true) with
        server := (σ.server.clear { opReg := opReg }).1 }
  | _ => none

/-- The present call of clerk `c` returns false, because the request was dropped
or the reply is lost, and the loop repeats it. -/
def fail (σ : Service Clerk) (c : Clerk) : Option (Service Clerk) :=
  match σ.clerk c with
  | .calling req opReg _ => some (σ.setPhase c (.calling req opReg none))
  | .clearing req opReg value _ =>
      some (σ.setPhase c (.clearing req opReg value false))
  | .idle => none

/-- The present call of clerk `c` returns true. -/
def reply (σ : Service Clerk) (c : Clerk) : Option (Service Clerk) :=
  match σ.clerk c with
  | .calling (.get key) opReg (some value) =>
      some (σ.finish c (.get key) opReg value)
  | .calling req opReg (some value) =>
      some (σ.setPhase c (.clearing req opReg value false))
  | .clearing req opReg value true => some (σ.finish c req opReg value)
  | _ => none

def step (σ : Service Clerk) : Action Clerk → Option (Service Clerk)
  | .invoke c req opReg =>
      match σ.clerk c with
      | .idle => some (σ.start c req opReg)
      | _ => none
  | .execute c => σ.execute c
  | .fail c => σ.fail c
  | .reply c => σ.reply c

omit [DecidableEq Clerk] in
/-- Every operation has a number of its own. -/
def FreshOpReg (σ : Service Clerk) : Action Clerk → Prop
  | .invoke _ _ opReg => opReg ∉ invokedIds σ.history
  | _ => True

instance (σ : Service Clerk) (a : Action Clerk) :
    Decidable (σ.FreshOpReg a) := by
  induction a using Action.casesOn <;> dsimp only [FreshOpReg] <;>
    infer_instance

/-! ## What one step can do -/

/-- The branches of `step`, each with its conditions. -/
inductive Transition (σ : Service Clerk) :
    Action Clerk → Service Clerk → Prop
  | invoke {c req opReg} (hphase : σ.clerk c = .idle) :
      Transition σ (.invoke c req opReg) (σ.start c req opReg)
  | execute {c req opReg} (hphase : σ.clerk c = .calling req opReg none) :
      Transition σ (.execute c)
        { σ.setPhase c
            (.calling req opReg (some (σ.server.handle opReg req).2)) with
          server := (σ.server.handle opReg req).1 }
  | executeClear {c req opReg value}
      (hphase : σ.clerk c = .clearing req opReg value false) :
      Transition σ (.execute c)
        { σ.setPhase c (.clearing req opReg value true) with
          server := (σ.server.clear { opReg := opReg }).1 }
  | fail {c req opReg reply} (hphase : σ.clerk c = .calling req opReg reply) :
      Transition σ (.fail c) (σ.setPhase c (.calling req opReg none))
  | failClear {c req opReg value cleared}
      (hphase : σ.clerk c = .clearing req opReg value cleared) :
      Transition σ (.fail c)
        (σ.setPhase c (.clearing req opReg value false))
  | returnGet {c key opReg value}
      (hphase : σ.clerk c = .calling (.get key) opReg (some value)) :
      Transition σ (.reply c) (σ.finish c (.get key) opReg value)
  | returnWrite {c req opReg value}
      (hphase : σ.clerk c = .calling req opReg (some value)) :
      Transition σ (.reply c)
        (σ.setPhase c (.clearing req opReg value false))
  | returnClear {c req opReg value}
      (hphase : σ.clerk c = .clearing req opReg value true) :
      Transition σ (.reply c) (σ.finish c req opReg value)

theorem step_transition {σ σ' : Service Clerk} {a : Action Clerk}
    (h : σ.step a = some σ') : Transition σ a σ' := by
  cases a with
  | invoke c req opReg =>
      simp only [step] at h
      split at h
      · next hphase =>
          obtain rfl := Option.some.inj h
          exact .invoke hphase
      · cases h
  | execute c =>
      simp only [step, Service.execute] at h
      split at h
      · next hphase =>
          obtain rfl := Option.some.inj h
          exact .execute hphase
      · next hphase =>
          obtain rfl := Option.some.inj h
          exact .executeClear hphase
      · cases h
  | fail c =>
      simp only [step, Service.fail] at h
      split at h
      · next hphase =>
          obtain rfl := Option.some.inj h
          exact .fail hphase
      · next hphase =>
          obtain rfl := Option.some.inj h
          exact .failClear hphase
      · cases h
  | reply c =>
      simp only [step, Service.reply] at h
      split at h
      · next hphase =>
          obtain rfl := Option.some.inj h
          exact .returnGet hphase
      · next hphase =>
          obtain rfl := Option.some.inj h
          exact .returnWrite hphase
      · next hphase =>
          obtain rfl := Option.some.inj h
          exact .returnClear hphase
      · cases h

end Service

end DistLabs.Kvsrv
