import DistLabs.Kvsrv.Linearizable
import DistLabs.Labrpc.Steady

/-!
# The key/value service on the simulated network

The clerks call the server through `labrpc`, each over an end of its own.  As
long as a test spares the calls in progress, what the network does to a call is
what `Service` allows: it is executed once or never before it returns, and it
returns the reply of the execution or false.
-/

namespace DistLabs.Kvsrv

open Linearizability

/-! ## Requests and replies on the wire -/

/-- What `labgob` encodes it decodes again. -/
structure Codec (α : Type) where
  encode : α → Labrpc.Bytes
  decode : Labrpc.Bytes → α
  decode_encode : ∀ x, decode (encode x) = x

/-- The types that the service sends. -/
structure Gob where
  getArgs : Codec GetArgs
  getReply : Codec GetReply
  putAppendArgs : Codec PutAppendArgs
  putAppendReply : Codec PutAppendReply
  clearArgs : Codec ClearArgs
  clearReply : Codec ClearReply

/-- A handler of the server with its decoded arguments. -/
inductive KvHandler
  | get (args : GetArgs)
  | put (args : PutAppendArgs)
  | append (args : PutAppendArgs)
  | clear (args : ClearArgs)

/-- The methods that `MakeService` finds; `ClearClients` has no reply. -/
def kvService (gob : Gob) : Labrpc.Service KvHandler where
  methods := fun methname ↦
    if methname = "Get" then
      some fun args ↦ .get (gob.getArgs.decode args)
    else if methname = "Put" then
      some fun args ↦ .put (gob.putAppendArgs.decode args)
    else if methname = "Append" then
      some fun args ↦ .append (gob.putAppendArgs.decode args)
    else if methname = "Clear" then
      some fun args ↦ .clear (gob.clearArgs.decode args)
    else
      none

/-- A method and the encoding of its reply. -/
def KvHandler.run (gob : Gob) (kv : KVServer) :
    KvHandler → KVServer × Labrpc.Bytes
  | .get args => ((kv.get args).1, gob.getReply.encode (kv.get args).2)
  | .put args => ((kv.put args).1, gob.putAppendReply.encode (kv.put args).2)
  | .append args =>
      ((kv.append args).1, gob.putAppendReply.encode (kv.append args).2)
  | .clear args => ((kv.clear args).1, gob.clearReply.encode (kv.clear args).2)

/-- All methods hold `kv.mu` until they return, and `StartKVServer` starts no
goroutine. -/
def kvObjects (gob : Gob) : Labrpc.Objects KVServer KvHandler where
  services := fun serviceName ↦
    if serviceName = "KVServer" then some (kvService gob) else none
  run := fun handler kv ↦
    some ((handler.run gob kv).1, .returns (handler.run gob kv).2)
  background := fun _ _ ↦ none

/-- The server that `StartServer` makes. -/
def kvServer (gob : Gob) : Labrpc.Server KVServer KvHandler where
  toObjects := kvObjects gob
  count := 0
  state := startKVServer

section Messages

variable {Clerk : Type}

/-- The request of a `Call` in `Get` and `PutAppend`. -/
def Request.message (gob : Gob) (c : Clerk) (opReg : OpReg) :
    Request → Labrpc.ReqMsg Clerk
  | .get key =>
      { endname := c, svcMeth := "KVServer.Get"
        args := gob.getArgs.encode { key := key, opReg := opReg } }
  | .put key value =>
      { endname := c, svcMeth := "KVServer." ++ "Put"
        args := gob.putAppendArgs.encode
          { key := key, value := value, opReg := opReg } }
  | .append key value =>
      { endname := c, svcMeth := "KVServer." ++ "Append"
        args := gob.putAppendArgs.encode
          { key := key, value := value, opReg := opReg } }

def clearMessage (gob : Gob) (c : Clerk) (opReg : OpReg) :
    Labrpc.ReqMsg Clerk where
  endname := c
  svcMeth := "KVServer.Clear"
  args := gob.clearArgs.encode { opReg := opReg }

/-- The field `reply.Value` after `Call` has decoded the reply. -/
def Request.value (gob : Gob) (bytes : Labrpc.Bytes) : Request → String
  | .get _ => (gob.getReply.decode bytes).value
  | .put _ _ => (gob.putAppendReply.decode bytes).value
  | .append _ _ => (gob.putAppendReply.decode bytes).value

/-- The handler that a request of a clerk starts. -/
def Request.handler (opReg : OpReg) : Request → KvHandler
  | .get key => .get { key := key, opReg := opReg }
  | .put key value => .put { key := key, value := value, opReg := opReg }
  | .append key value => .append { key := key, value := value, opReg := opReg }

variable {gob : Gob}

@[simp] theorem Request.endname_message (c : Clerk) (opReg : OpReg)
    (req : Request) : (req.message gob c opReg).endname = c := by
  cases req <;> rfl

/-- `Service.dispatch` decodes the arguments of the method it finds. -/
theorem handler_of_split {svcMeth methname : String}
    (hsplit : Labrpc.splitMethod svcMeth = some ("KVServer", methname))
    {start : Labrpc.Bytes → KvHandler}
    (hmethod : (kvService gob).methods methname = some start)
    (args : Labrpc.Bytes) :
    (kvObjects gob).handler svcMeth args = some (start args) := by
  simp [Labrpc.Objects.handler, Labrpc.Objects.resolve, hsplit, kvObjects,
    Labrpc.Service.dispatch, hmethod]

/-- The server starts the handler that the clerk asked for. -/
theorem handler_message (c : Clerk) (opReg : OpReg) (req : Request) :
    (kvObjects gob).handler (req.message gob c opReg).svcMeth
      (req.message gob c opReg).args = some (req.handler opReg) := by
  cases req with
  | get key =>
      have hsplit : Labrpc.splitMethod "KVServer.Get" =
          some ("KVServer", "Get") := by decide
      refine (handler_of_split hsplit rfl _).trans ?_
      exact congrArg (fun args ↦ some (KvHandler.get args))
        (gob.getArgs.decode_encode _)
  | put key value =>
      have hsplit : Labrpc.splitMethod ("KVServer." ++ "Put") =
          some ("KVServer", "Put") := by decide
      refine (handler_of_split hsplit rfl _).trans ?_
      exact congrArg (fun args ↦ some (KvHandler.put args))
        (gob.putAppendArgs.decode_encode _)
  | append key value =>
      have hsplit : Labrpc.splitMethod ("KVServer." ++ "Append") =
          some ("KVServer", "Append") := by decide
      refine (handler_of_split hsplit rfl _).trans ?_
      exact congrArg (fun args ↦ some (KvHandler.append args))
        (gob.putAppendArgs.decode_encode _)

theorem handler_clearMessage (c : Clerk) (opReg : OpReg) :
    (kvObjects gob).handler (clearMessage gob c opReg).svcMeth
      (clearMessage gob c opReg).args = some (.clear { opReg := opReg }) := by
  have hsplit : Labrpc.splitMethod "KVServer.Clear" =
      some ("KVServer", "Clear") := by decide
  refine (handler_of_split hsplit rfl _).trans ?_
  exact congrArg (fun args ↦ some (KvHandler.clear args))
    (gob.clearArgs.decode_encode _)

/-- The handler does what the service does with the request. -/
theorem run_handler (gob : Gob) (kv : KVServer) (opReg : OpReg)
    (req : Request) :
    ((req.handler opReg).run gob kv).1 = (kv.handle opReg req).1 ∧
      req.value gob ((req.handler opReg).run gob kv).2 =
        (kv.handle opReg req).2 := by
  cases req with
  | get key =>
      refine ⟨rfl, ?_⟩
      exact congrArg GetReply.value (gob.getReply.decode_encode _)
  | put key value =>
      refine ⟨rfl, ?_⟩
      exact congrArg PutAppendReply.value (gob.putAppendReply.decode_encode _)
  | append key value =>
      refine ⟨rfl, ?_⟩
      exact congrArg PutAppendReply.value (gob.putAppendReply.decode_encode _)

end Messages

/-! ## A codec that can be evaluated -/

/-- A number in unary, ended by a zero. -/
def unary (n : ℕ) : Labrpc.Bytes :=
  List.replicate n 1 ++ [0]

/-- The numbers in a sequence of bytes, `n` ones having been read. -/
def readUnary (n : ℕ) : Labrpc.Bytes → List ℕ
  | [] => []
  | b :: bytes =>
      if b = 0 then n :: readUnary 0 bytes else readUnary (n + 1) bytes

theorem readUnary_unary_append (k : ℕ) (rest : Labrpc.Bytes) :
    ∀ n, readUnary n (unary k ++ rest) = (n + k) :: readUnary 0 rest := by
  induction k with
  | zero =>
      intro n
      rfl
  | succ k ih =>
      intro n
      have hone : readUnary n (unary (k + 1) ++ rest) =
          readUnary (n + 1) (unary k ++ rest) := rfl
      rw [hone, ih, Nat.add_right_comm, Nat.add_assoc]

theorem readUnary_flatMap (l : List ℕ) :
    readUnary 0 (l.flatMap unary) = l := by
  induction l with
  | nil => rfl
  | cons k l ih =>
      rw [List.flatMap_cons, readUnary_unary_append, ih, Nat.zero_add]

/-- A codec for what can be written as a list of numbers. -/
def Codec.ofNats {α : Type} (toNats : α → List ℕ) (fromNats : List ℕ → α)
    (h : ∀ x, fromNats (toNats x) = x) : Codec α where
  encode := fun x ↦ (toNats x).flatMap unary
  decode := fun bytes ↦ fromNats (readUnary 0 bytes)
  decode_encode := by
    intro x
    rw [readUnary_flatMap, h]

def charNats (s : String) : List ℕ :=
  s.toList.map Char.toNat

def natsString (l : List ℕ) : String :=
  String.ofList (l.map Char.ofNat)

@[simp] theorem natsString_charNats (s : String) :
    natsString (charNats s) = s := by
  have hchars : Char.ofNat ∘ Char.toNat = id :=
    funext fun c ↦ Char.ofNat_toNat c
  simp [natsString, charNats, hchars]

/-- The number of an operation, the length of the key, the key and the
value. -/
def unaryGob : Gob where
  getArgs := .ofNats (fun args ↦ args.opReg :: charNats args.key)
    (fun l ↦ { key := natsString l.tail, opReg := l.headD 0 }) (by simp)
  getReply := .ofNats (fun reply ↦ charNats reply.value)
    (fun l ↦ { value := natsString l }) (by simp)
  putAppendArgs := .ofNats
    (fun args ↦ args.opReg :: (charNats args.key).length ::
      (charNats args.key ++ charNats args.value))
    (fun l ↦
      { key := natsString (l.tail.tail.take (l.tail.headD 0))
        value := natsString (l.tail.tail.drop (l.tail.headD 0))
        opReg := l.headD 0 }) (by simp)
  putAppendReply := .ofNats (fun reply ↦ charNats reply.value)
    (fun l ↦ { value := natsString l }) (by simp)
  clearArgs := .ofNats (fun args ↦ [args.opReg])
    (fun l ↦ { opReg := l.headD 0 }) (by simp)
  clearReply := .ofNats (fun reply ↦ [reply.opReg])
    (fun l ↦ { opReg := l.headD 0 }) (by simp)

/-! ## Clerks on the network -/

/-- What a clerk is doing, with the number of its present call. -/
inductive ClerkState
  | idle
  | calling (req : Request) (opReg : OpReg) (call : ℕ)
  | clearing (req : Request) (opReg : OpReg) (value : String) (call : ℕ)

/-- The present call of a clerk. -/
def ClerkState.call? : ClerkState → Option ℕ
  | .idle => none
  | .calling _ _ n => some n
  | .clearing _ _ _ n => some n

/-- The clerks, the server and the network between them.  The ends are named by
the clerks, and the server is the one object on the network. -/
structure Deployment (Clerk : Type) where
  sys : Labrpc.System Clerk ℕ Unit KVServer KvHandler
  clerk : Clerk → ClerkState
  history : List (HistoryEvent OpReg KvInput KvOutput)

/-- A clerk calls a method, goes on after its present `Call` has returned, or
something happens on the network. -/
inductive DeployedAction (Clerk : Type)
  | invoke (c : Clerk) (req : Request) (opReg : OpReg)
  | resume (c : Clerk)
  | network (a : Labrpc.Action Clerk ℕ Unit)

namespace Deployment

variable {Clerk : Type} [DecidableEq Clerk]

omit [DecidableEq Clerk] in
def init (gob : Gob) : Deployment Clerk where
  sys := Labrpc.System.start fun _ ↦ kvServer gob
  clerk := fun _ ↦ .idle
  history := []

/-- Clerk `c` begins a `Call` and goes on to `state` with its number. -/
def call (D : Deployment Clerk) (c : Clerk) (msg : Labrpc.ReqMsg Clerk)
    (state : ℕ → ClerkState) : Option (Deployment Clerk) :=
  (D.sys.step (.call msg)).map fun sys ↦
    { D with
      sys := sys
      clerk := Function.update D.clerk c (state D.sys.calls.length) }

/-- Clerk `c` returns from operation `opReg` with `value`. -/
def finish (D : Deployment Clerk) (c : Clerk) (req : Request) (opReg : OpReg)
    (value : String) : Deployment Clerk :=
  { D with
    clerk := Function.update D.clerk c .idle
    history := D.history ++ [.respond opReg (req.output value)] }

def invoke (gob : Gob) (D : Deployment Clerk) (c : Clerk) (req : Request)
    (opReg : OpReg) : Option (Deployment Clerk) :=
  match D.clerk c with
  | .idle =>
      call { D with history := D.history ++ [.invoke opReg req.input] } c
        (req.message gob c opReg) (.calling req opReg)
  | _ => none

/-- The loops of `Get` and `PutAppend`: a `Call` that has returned false is
repeated. -/
def resume (gob : Gob) (D : Deployment Clerk) (c : Clerk) :
    Option (Deployment Clerk) :=
  match D.clerk c with
  | .idle => none
  | .calling req opReg n =>
      match D.sys.returned? n with
      | none => none
      | some reply =>
          if reply.ok then
            match req with
            | .get key =>
                some (D.finish c (.get key) opReg
                  (Request.value gob reply.reply (.get key)))
            | _ =>
                D.call c (clearMessage gob c opReg)
                  (.clearing req opReg (req.value gob reply.reply))
          else
            D.call c (req.message gob c opReg) (.calling req opReg)
  | .clearing req opReg value n =>
      match D.sys.returned? n with
      | none => none
      | some reply =>
          if reply.ok then
            some (D.finish c req opReg value)
          else
            D.call c (clearMessage gob c opReg) (.clearing req opReg value)

/-- The calls on the network are those of the clerks. -/
def network (D : Deployment Clerk) (a : Labrpc.Action Clerk ℕ Unit) :
    Option (Deployment Clerk) :=
  match a with
  | .call _ => none
  | a => (D.sys.step a).map fun sys ↦ { D with sys := sys }

def step (gob : Gob) (D : Deployment Clerk) (a : DeployedAction Clerk) :
    Option (Deployment Clerk) :=
  if D.sys.fatal then
    none
  else
    match a with
    | .invoke c req opReg => D.invoke gob c req opReg
    | .resume c => D.resume gob c
    | .network a => D.network a

/-- Operations have numbers of their own, and the test spares the calls in
progress. -/
def Allowed (D : Deployment Clerk) : DeployedAction Clerk → Prop
  | .invoke _ _ opReg => opReg ∉ invokedIds D.history
  | .resume _ => True
  | .network a => D.sys.Undisturbed a

instance (D : Deployment Clerk) (a : DeployedAction Clerk) :
    Decidable (D.Allowed a) := by
  induction a using DeployedAction.casesOn <;> dsimp only [Allowed] <;>
    infer_instance

end Deployment

end DistLabs.Kvsrv
