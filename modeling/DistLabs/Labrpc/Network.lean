import DistLabs.Support.Run
import Mathlib.Logic.Function.Basic

/-!
# The simulated network

The tests connect clients and servers by `labrpc`.  A `Call` hands its request
to the one goroutine that `MakeNetwork` starts, which gives every request a
`processReq` of its own.  `processReq` starts the handler in a further goroutine
and waits for it, looking every 100 ms whether the server is still there.
Meanwhile the test deletes servers, disables ends and makes the network
unreliable.

Every critical section is one step and so is every meeting on a channel.  What
`rand` decides is part of the action, and a timer may go off at any moment.
Handlers run section by section: they overlap, other goroutines change the
server in between, and a handler may wait for ever.
-/

namespace DistLabs.Labrpc

abbrev Bytes := List UInt8

structure ReqMsg (End : Type) where
  endname : End
  svcMeth : String
  args : Bytes
deriving DecidableEq

structure ReplyMsg where
  ok : Bool
  reply : Bytes
deriving DecidableEq

/-- The reply `replyMsg{false, nil}`. -/
def ReplyMsg.failure : ReplyMsg where
  ok := false
  reply := []

/-! ## Servers -/

/-- An object with its exported methods.  A method decodes its argument and
starts a handler; `κ` says where the code of a handler is and holds its
variables. -/
structure Service (κ : Type) where
  methods : String → Option (Bytes → κ)

/-- A missing method ends the program. -/
def Service.dispatch {κ : Type} (svc : Service κ) (methname : String)
    (args : Bytes) : Option κ :=
  (svc.methods methname).map fun method ↦ method args

/-- How a section of a handler ends. -/
inductive Outcome (κ : Type)
  | goesOn (handler : κ)
  | returns (reply : Bytes)
  | panics

/-- The objects behind a server, which share their state.  `run` takes a handler
to the point where it next gives up a lock or uses a channel, and is `none`
while the handler has to wait.  `background` is what changes the objects
besides: goroutines of their own and direct calls of their methods. -/
structure Objects (σ κ : Type) where
  services : String → Option (Service κ)
  run : κ → σ → Option (σ × Outcome κ)
  background : ℕ → σ → Option σ

structure Server (σ κ : Type) extends Objects σ κ where
  count : ℕ
  state : σ

/-- Split `Raft.AppendEntries` at its last dot into service and method.  Without
a dot the source slices with the index -1, which panics. -/
def splitMethod (svcMeth : String) : Option (String × String) :=
  let backwards := svcMeth.toList.reverse
  match backwards.dropWhile (· ≠ '.') with
  | [] => none
  | _ :: service =>
      some (String.ofList service.reverse,
        String.ofList (backwards.takeWhile (· ≠ '.')).reverse)

namespace Objects

variable {σ κ : Type}

/-- The service and the name of the method that `svcMeth` asks for. -/
def resolve (rs : Objects σ κ) (svcMeth : String) :
    Option (Service κ × String) :=
  match splitMethod svcMeth with
  | some (serviceName, methodName) =>
      (rs.services serviceName).map fun service ↦ (service, methodName)
  | none => none

/-- The handler that a request starts. -/
def handler (rs : Objects σ κ) (svcMeth : String) (args : Bytes) : Option κ :=
  match rs.resolve svcMeth with
  | some (service, methodName) => service.dispatch methodName args
  | none => none

end Objects

/-! ## The network -/

/-- Servers are registered under names; `Obj` is the type of the pointers to
them. -/
structure Network (End Name Obj : Type) where
  reliable : Bool
  longReordering : Bool
  ends : End → Bool
  enabled : End → Bool
  servers : Name → Option Obj
  connections : End → Option Name
  count : ℕ
  bytes : ℕ

/-- What a test does to the network. -/
inductive Control (End Name Obj : Type)
  | reliable (yes : Bool)
  | longReordering (yes : Bool)
  | makeEnd (endname : End)
  | deleteEnd (endname : End)
  | addServer (servername : Name) (rs : Obj)
  | deleteServer (servername : Name)
  | connect (endname : End) (servername : Name)
  | enable (endname : End) (enabled : Bool)

/-- What `readEndnameInfo` returns. -/
structure EndnameInfo (Name Obj : Type) where
  enabled : Bool
  servername : Option Name
  server : Option Obj
  reliable : Bool
  longreordering : Bool

/-- The variables of a `processReq` whose end is enabled and connected to a
server. -/
structure Route (Name Obj : Type) where
  servername : Name
  server : Obj
  reliable : Bool
  longreordering : Bool
deriving DecidableEq

/-- The condition `enabled && servername != nil && server != nil`. -/
def EndnameInfo.route {Name Obj : Type} (info : EndnameInfo Name Obj) :
    Option (Route Name Obj) :=
  match info.enabled, info.servername, info.server with
  | true, some servername, some server =>
      some { servername := servername, server := server
             reliable := info.reliable, longreordering := info.longreordering }
  | _, _, _ => none

def makeNetwork {End Name Obj : Type} : Network End Name Obj where
  reliable := true
  longReordering := false
  ends := fun _ ↦ false
  enabled := fun _ ↦ false
  servers := fun _ ↦ none
  connections := fun _ ↦ none
  count := 0
  bytes := 0

namespace Network

variable {End Name Obj : Type}

def readEndnameInfo (rn : Network End Name Obj) (endname : End) :
    EndnameInfo Name Obj where
  enabled := rn.enabled endname
  servername := rn.connections endname
  server := (rn.connections endname).bind rn.servers
  reliable := rn.reliable
  longreordering := rn.longReordering

variable [DecidableEq Obj]

def isServerDead (rn : Network End Name Obj) (endname : End)
    (servername : Name) (server : Obj) : Bool :=
  rn.enabled endname = false ∨ rn.servers servername ≠ some server

variable [DecidableEq End] [DecidableEq Name]

omit [DecidableEq Obj] [DecidableEq Name] in
/-- An end that exists already ends the program. -/
def makeEnd (rn : Network End Name Obj) (endname : End) :
    Option (Network End Name Obj) :=
  if rn.ends endname then
    none
  else
    some { rn with
      ends := Function.update rn.ends endname true
      enabled := Function.update rn.enabled endname false
      connections := Function.update rn.connections endname none }

omit [DecidableEq Obj] [DecidableEq Name] in
/-- An end that does not exist ends the program. -/
def deleteEnd (rn : Network End Name Obj) (endname : End) :
    Option (Network End Name Obj) :=
  if rn.ends endname then
    some { rn with
      ends := Function.update rn.ends endname false
      enabled := Function.update rn.enabled endname false
      connections := Function.update rn.connections endname none }
  else
    none

omit [DecidableEq Obj] in
def control (rn : Network End Name Obj) :
    Control End Name Obj → Option (Network End Name Obj)
  | .reliable yes => some { rn with reliable := yes }
  | .longReordering yes => some { rn with longReordering := yes }
  | .makeEnd endname => rn.makeEnd endname
  | .deleteEnd endname => rn.deleteEnd endname
  | .addServer servername rs =>
      some { rn with
        servers := Function.update rn.servers servername (some rs) }
  | .deleteServer servername =>
      some { rn with servers := Function.update rn.servers servername none }
  | .connect endname servername =>
      some { rn with
        connections :=
          Function.update rn.connections endname (some servername) }
  | .enable endname enabled =>
      some { rn with enabled := Function.update rn.enabled endname enabled }

end Network

/-! ## Calls -/

/-- How far a `Call` and its `processReq` are. -/
inductive Phase (Name Obj : Type)
  /-- `Call` offers the request to the network. -/
  | sending
  /-- `processReq` has been started. -/
  | accepted
  /-- `processReq` has found the server. -/
  | admitted (route : Route Name Obj)
  /-- `processReq` waits for the handler. -/
  | waiting (route : Route Name Obj)
  /-- The loop has ended with a reply of the handler. -/
  | answered (route : Route Name Obj) (reply : ReplyMsg)
  /-- The loop has ended because the server is dead. -/
  | forsaken (route : Route Name Obj)
  /-- The reply is about to be sent on `replyCh`. -/
  | replying (reply : ReplyMsg)
  /-- `Call` has received the reply and returned its `ok`. -/
  | returned (reply : ReplyMsg)
deriving DecidableEq

/-- The loop of `processReq` has been left, or never entered. -/
def Phase.IsOver {Name Obj : Type} : Phase Name Obj → Prop
  | .forsaken _ => True
  | .replying _ => True
  | .returned _ => True
  | _ => False

instance {Name Obj : Type} (phase : Phase Name Obj) :
    Decidable phase.IsOver := by
  induction phase using Phase.casesOn <;> dsimp only [Phase.IsOver] <;>
    infer_instance

/-- How far the goroutine of the handler is. -/
inductive Work (Obj κ : Type)
  | absent
  /-- The goroutine exists. -/
  | launched (server : Obj)
  /-- The server has counted the request and found its service. -/
  | dispatched (server : Obj)
  /-- The handler has been started. -/
  | running (server : Obj) (handler : κ)
  /-- The handler has returned and its reply is offered on `ech`. -/
  | finished (server : Obj) (reply : ReplyMsg)
  /-- The reply has been received on `ech`. -/
  | collected (server : Obj) (reply : ReplyMsg)
deriving DecidableEq

structure Call (End Name Obj κ : Type) where
  req : ReqMsg End
  phase : Phase Name Obj
  work : Work Obj κ

/-- A run of a handler from its start to its return. -/
structure Execution (End Obj : Type) where
  call : ℕ
  server : Obj
  req : ReqMsg End
  reply : ReplyMsg
deriving DecidableEq

/-- All goroutines of a program that uses one network.  The calls are numbered
in the order in which they begin.  `invocations` records the calls whose
handlers were started and `executions` the handlers that have returned. -/
structure System (End Name Obj σ κ : Type) where
  net : Network End Name Obj
  heap : Obj → Server σ κ
  done : Bool
  listening : Bool
  calls : List (Call End Name Obj κ)
  invocations : List ℕ
  executions : List (Execution End Obj)
  fatal : Bool

/-- What the goroutines of one call do next. -/
inductive Move
  | accept
  | abandon
  | readInfo
  | dropRequest
  | launch
  | dispatch
  | invoke
  | handle
  | receive
  | poll
  | drain
  | conclude (dropReply : Bool)
  | deliver
deriving DecidableEq

inductive Action (End Name Obj : Type)
  | call (req : ReqMsg End)
  | move (c : ℕ) (m : Move)
  | control (ctl : Control End Name Obj)
  | background (server : Obj) (n : ℕ)
  | cleanup
  | stop

namespace System

variable {End Name Obj σ κ : Type}

/-- A network whose servers have been made. -/
def start (heap : Obj → Server σ κ) : System End Name Obj σ κ where
  net := makeNetwork
  heap := heap
  done := false
  listening := true
  calls := []
  invocations := []
  executions := []
  fatal := false

/-- `log.Fatalf` or a panic. -/
def crash (s : System End Name Obj σ κ) : System End Name Obj σ κ :=
  { s with fatal := true }

/-- Call number `c` goes on as `call`. -/
def setCall (s : System End Name Obj σ κ) (c : ℕ) (call : Call End Name Obj κ) :
    System End Name Obj σ κ :=
  { s with calls := s.calls.set c call }

/-- The goroutine of `MakeNetwork` takes the request. -/
def accept (s : System End Name Obj σ κ) (c : ℕ) (call : Call End Name Obj κ) :
    Option (System End Name Obj σ κ) :=
  match call.phase with
  | .sending =>
      if s.listening then
        some { s.setCall c { call with phase := .accepted } with
          net := { s.net with
            count := s.net.count + 1
            bytes := s.net.bytes + call.req.args.length } }
      else
        none
  | _ => none

/-- `Call` finds the network destroyed. -/
def abandon (s : System End Name Obj σ κ) (c : ℕ) (call : Call End Name Obj κ) :
    Option (System End Name Obj σ κ) :=
  match call.phase with
  | .sending =>
      if s.done then
        some (s.setCall c { call with phase := .returned .failure })
      else
        none
  | _ => none

/-- `processReq` reads where the end leads; without a server it replies false
after a delay. -/
def readInfo (s : System End Name Obj σ κ) (c : ℕ)
    (call : Call End Name Obj κ) : Option (System End Name Obj σ κ) :=
  match call.phase with
  | .accepted =>
      match (s.net.readEndnameInfo call.req.endname).route with
      | some route => some (s.setCall c { call with phase := .admitted route })
      | none =>
          some (s.setCall c { call with phase := .replying .failure })
  | _ => none

/-- An unreliable network may drop the request. -/
def dropRequest (s : System End Name Obj σ κ) (c : ℕ)
    (call : Call End Name Obj κ) : Option (System End Name Obj σ κ) :=
  match call.phase with
  | .admitted route =>
      if route.reliable then
        none
      else
        some (s.setCall c { call with phase := .replying .failure })
  | _ => none

/-- `processReq` starts the goroutine of the handler. -/
def launch (s : System End Name Obj σ κ) (c : ℕ) (call : Call End Name Obj κ) :
    Option (System End Name Obj σ κ) :=
  match call.phase with
  | .admitted route =>
      some (s.setCall c
        { call with phase := .waiting route, work := .launched route.server })
  | _ => none

variable [DecidableEq Obj]

/-- The locked part of `Server.dispatch`. -/
def dispatch (s : System End Name Obj σ κ) (c : ℕ)
    (call : Call End Name Obj κ) : Option (System End Name Obj σ κ) :=
  match call.work with
  | .launched server =>
      let rs := { s.heap server with count := (s.heap server).count + 1 }
      let counted := { s with heap := Function.update s.heap server rs }
      if (rs.resolve call.req.svcMeth).isSome then
        some (counted.setCall c { call with work := .dispatched server })
      else
        some counted.crash
  | _ => none

omit [DecidableEq Obj] in
/-- `Service.dispatch` starts the handler. -/
def invoke (s : System End Name Obj σ κ) (c : ℕ) (call : Call End Name Obj κ) :
    Option (System End Name Obj σ κ) :=
  match call.work with
  | .dispatched server =>
      match (s.heap server).handler call.req.svcMeth call.req.args with
      | some handler =>
          some { s.setCall c { call with work := .running server handler } with
            invocations := s.invocations ++ [c] }
      | none => some s.crash
  | _ => none

/-- The objects behind a server have changed to `state`. -/
def setState (s : System End Name Obj σ κ) (server : Obj) (state : σ) :
    System End Name Obj σ κ :=
  { s with
    heap := Function.update s.heap server
      { s.heap server with state := state } }

/-- A section of the handler. -/
def handle (s : System End Name Obj σ κ) (c : ℕ) (call : Call End Name Obj κ) :
    Option (System End Name Obj σ κ) :=
  match call.work with
  | .running server handler =>
      match (s.heap server).run handler (s.heap server).state with
      | some (state, .goesOn handler') =>
          some ((s.setState server state).setCall c
            { call with work := .running server handler' })
      | some (state, .returns bytes) =>
          let reply := { ok := true, reply := bytes }
          some { (s.setState server state).setCall c
              { call with work := .finished server reply } with
            executions := s.executions ++
              [{ call := c, server := server, req := call.req
                 reply := reply }] }
      | some (_, .panics) => some s.crash
      | none => none
  | _ => none

omit [DecidableEq Obj] in
/-- The loop of `processReq` receives the reply of the handler. -/
def receive (s : System End Name Obj σ κ) (c : ℕ) (call : Call End Name Obj κ) :
    Option (System End Name Obj σ κ) :=
  match call.phase, call.work with
  | .waiting route, .finished server reply =>
      some (s.setCall c
        { call with
          phase := .answered route reply, work := .collected server reply })
  | _, _ => none

/-- The timer of the loop goes off. -/
def poll (s : System End Name Obj σ κ) (c : ℕ) (call : Call End Name Obj κ) :
    Option (System End Name Obj σ κ) :=
  match call.phase with
  | .waiting route =>
      if s.net.isServerDead call.req.endname route.servername route.server then
        some (s.setCall c { call with phase := .forsaken route })
      else
        some s
  | _ => none

omit [DecidableEq Obj] in
/-- The goroutine that the loop leaves behind receives the reply of the
handler. -/
def drain (s : System End Name Obj σ κ) (c : ℕ) (call : Call End Name Obj κ) :
    Option (System End Name Obj σ κ) :=
  match call.work with
  | .finished server reply =>
      if call.phase.IsOver then
        some (s.setCall c { call with work := .collected server reply })
      else
        none
  | _ => none

/-- `processReq` looks once more whether the server is there and decides on the
reply; an unreliable network may drop it. -/
def conclude (s : System End Name Obj σ κ) (dropReply : Bool) (c : ℕ)
    (call : Call End Name Obj κ) : Option (System End Name Obj σ κ) :=
  match call.phase with
  | .forsaken _ =>
      some (s.setCall c { call with phase := .replying .failure })
  | .answered route reply =>
      if s.net.isServerDead call.req.endname route.servername route.server then
        some (s.setCall c { call with phase := .replying .failure })
      else if dropReply then
        if route.reliable then
          none
        else
          some (s.setCall c { call with phase := .replying .failure })
      else
        -- With `longreordering` the reply may be delayed.
        some (s.setCall c { call with phase := .replying reply })
  | _ => none

omit [DecidableEq Obj] in
/-- The reply is sent and `Call` returns. -/
def deliver (s : System End Name Obj σ κ) (c : ℕ) (call : Call End Name Obj κ) :
    Option (System End Name Obj σ κ) :=
  match call.phase with
  | .replying reply =>
      some { s.setCall c { call with phase := .returned reply } with
        net := { s.net with bytes := s.net.bytes + reply.reply.length } }
  | _ => none

def move (s : System End Name Obj σ κ) (c : ℕ) (call : Call End Name Obj κ) :
    Move → Option (System End Name Obj σ κ)
  | .accept => s.accept c call
  | .abandon => s.abandon c call
  | .readInfo => s.readInfo c call
  | .dropRequest => s.dropRequest c call
  | .launch => s.launch c call
  | .dispatch => s.dispatch c call
  | .invoke => s.invoke c call
  | .handle => s.handle c call
  | .receive => s.receive c call
  | .poll => s.poll c call
  | .drain => s.drain c call
  | .conclude dropReply => s.conclude dropReply c call
  | .deliver => s.deliver c call

variable [DecidableEq End] [DecidableEq Name]

def step (s : System End Name Obj σ κ) (a : Action End Name Obj) :
    Option (System End Name Obj σ κ) :=
  if s.fatal then
    none
  else
    match a with
    | .call req =>
        some { s with
          calls := s.calls ++
            [{ req := req, phase := .sending, work := .absent }] }
    | .move c m => s.calls[c]?.bind fun call ↦ s.move c call m
    | .control ctl =>
        match s.net.control ctl with
        | some net => some { s with net := net }
        | none => some s.crash
    | .background server n =>
        ((s.heap server).background n (s.heap server).state).map fun state ↦
          s.setState server state
    -- A channel that is closed twice panics.
    | .cleanup => some (if s.done then s.crash else { s with done := true })
    | .stop => if s.done then some { s with listening := false } else none

end System

end DistLabs.Labrpc
