import DistLabs.Labrpc.Network

/-!
# What one step of the network can do

`Moved` lists the branches of the goroutines of one call and `Stepped` those of
the whole system, each with its conditions.
-/

namespace DistLabs.Labrpc

namespace System

variable {End Name Obj σ κ : Type}

variable [DecidableEq Obj]

/-- The branches of `move`, each with its conditions. -/
inductive Moved (s : System End Name Obj σ κ) (c : ℕ)
    (call : Call End Name Obj κ) : Move → System End Name Obj σ κ → Prop
  | accept (hphase : call.phase = .sending) (hlistening : s.listening = true) :
      Moved s c call .accept
        { s.setCall c { call with phase := .accepted } with
          net := { s.net with
            count := s.net.count + 1
            bytes := s.net.bytes + call.req.args.length } }
  | abandon (hphase : call.phase = .sending) (hdone : s.done = true) :
      Moved s c call .abandon
        (s.setCall c { call with phase := .returned .failure })
  | found {route} (hphase : call.phase = .accepted)
      (hroute : (s.net.readEndnameInfo call.req.endname).route = some route) :
      Moved s c call .readInfo
        (s.setCall c { call with phase := .admitted route })
  | refuse (hphase : call.phase = .accepted)
      (hroute : (s.net.readEndnameInfo call.req.endname).route = none) :
      Moved s c call .readInfo
        (s.setCall c { call with phase := .replying .failure })
  | dropRequest {route} (hphase : call.phase = .admitted route)
      (hreliable : route.reliable = false) :
      Moved s c call .dropRequest
        (s.setCall c { call with phase := .replying .failure })
  | launch {route} (hphase : call.phase = .admitted route) :
      Moved s c call .launch
        (s.setCall c
          { call with phase := .waiting route, work := .launched route.server })
  | dispatch {server} (hwork : call.work = .launched server)
      (hknown : ((s.heap server).resolve call.req.svcMeth).isSome) :
      Moved s c call .dispatch
        { s.setCall c { call with work := .dispatched server } with
          heap := Function.update s.heap server
            { s.heap server with count := (s.heap server).count + 1 } }
  | unknownService {server} (hwork : call.work = .launched server)
      (hunknown : (s.heap server).resolve call.req.svcMeth = none) :
      Moved s c call .dispatch
        { s.crash with
          heap := Function.update s.heap server
            { s.heap server with count := (s.heap server).count + 1 } }
  | invoke {server handler} (hwork : call.work = .dispatched server)
      (hhandler : (s.heap server).handler call.req.svcMeth call.req.args =
        some handler) :
      Moved s c call .invoke
        { s.setCall c { call with work := .running server handler } with
          invocations := s.invocations ++ [c] }
  | unknownMethod {server} (hwork : call.work = .dispatched server)
      (hhandler : (s.heap server).handler call.req.svcMeth call.req.args =
        none) :
      Moved s c call .invoke s.crash
  | goOn {server handler state handler'}
      (hwork : call.work = .running server handler)
      (hsection : (s.heap server).run handler (s.heap server).state =
        some (state, .goesOn handler')) :
      Moved s c call .handle
        ((s.setState server state).setCall c
          { call with work := .running server handler' })
  | finish {server handler state bytes}
      (hwork : call.work = .running server handler)
      (hsection : (s.heap server).run handler (s.heap server).state =
        some (state, .returns bytes)) :
      Moved s c call .handle
        { (s.setState server state).setCall c
            { call with
              work := .finished server { ok := true, reply := bytes } } with
          executions := s.executions ++
            [{ call := c, server := server, req := call.req
               reply := { ok := true, reply := bytes } }] }
  | panic {server handler state}
      (hwork : call.work = .running server handler)
      (hsection : (s.heap server).run handler (s.heap server).state =
        some (state, .panics)) :
      Moved s c call .handle s.crash
  | receive {route server reply} (hphase : call.phase = .waiting route)
      (hwork : call.work = .finished server reply) :
      Moved s c call .receive
        (s.setCall c
          { call with
            phase := .answered route reply
            work := .collected server reply })
  | forsake {route} (hphase : call.phase = .waiting route)
      (hdead : s.net.isServerDead call.req.endname route.servername
        route.server = true) :
      Moved s c call .poll (s.setCall c { call with phase := .forsaken route })
  | keepWaiting {route} (hphase : call.phase = .waiting route)
      (halive : s.net.isServerDead call.req.endname route.servername
        route.server = false) :
      Moved s c call .poll s
  | drain {server reply} (hphase : call.phase.IsOver)
      (hwork : call.work = .finished server reply) :
      Moved s c call .drain
        (s.setCall c { call with work := .collected server reply })
  | giveUp {route dropReply} (hphase : call.phase = .forsaken route) :
      Moved s c call (.conclude dropReply)
        (s.setCall c { call with phase := .replying .failure })
  | disown {route reply dropReply}
      (hphase : call.phase = .answered route reply)
      (hdead : s.net.isServerDead call.req.endname route.servername
        route.server = true) :
      Moved s c call (.conclude dropReply)
        (s.setCall c { call with phase := .replying .failure })
  | dropReply {route reply} (hphase : call.phase = .answered route reply)
      (halive : s.net.isServerDead call.req.endname route.servername
        route.server = false)
      (hreliable : route.reliable = false) :
      Moved s c call (.conclude true)
        (s.setCall c { call with phase := .replying .failure })
  | confirm {route reply} (hphase : call.phase = .answered route reply)
      (halive : s.net.isServerDead call.req.endname route.servername
        route.server = false) :
      Moved s c call (.conclude false)
        (s.setCall c { call with phase := .replying reply })
  | deliver {reply} (hphase : call.phase = .replying reply) :
      Moved s c call .deliver
        { s.setCall c { call with phase := .returned reply } with
          net := { s.net with bytes := s.net.bytes + reply.reply.length } }

theorem move_moved {s s' : System End Name Obj σ κ} {c : ℕ}
    {call : Call End Name Obj κ} {m : Move} (h : s.move c call m = some s') :
    Moved s c call m s' := by
  cases m with
  | accept =>
      simp only [move, System.accept] at h
      split at h
      · next hphase =>
          split at h
          · next hlistening =>
              obtain rfl := Option.some.inj h
              exact .accept hphase hlistening
          · cases h
      · cases h
  | abandon =>
      simp only [move, System.abandon] at h
      split at h
      · next hphase =>
          split at h
          · next hdone =>
              obtain rfl := Option.some.inj h
              exact .abandon hphase hdone
          · cases h
      · cases h
  | readInfo =>
      simp only [move, System.readInfo] at h
      split at h
      · next hphase =>
          split at h
          · next hroute =>
              obtain rfl := Option.some.inj h
              exact .found hphase hroute
          · next hroute =>
              obtain rfl := Option.some.inj h
              exact .refuse hphase hroute
      · cases h
  | dropRequest =>
      simp only [move, System.dropRequest] at h
      split at h
      · next hphase =>
          split at h
          · cases h
          · next hreliable =>
              obtain rfl := Option.some.inj h
              exact .dropRequest hphase (Bool.not_eq_true _ ▸ hreliable)
      · cases h
  | launch =>
      simp only [move, System.launch] at h
      split at h
      · next hphase =>
          obtain rfl := Option.some.inj h
          exact .launch hphase
      · cases h
  | dispatch =>
      simp only [move, System.dispatch] at h
      split at h
      · next hwork =>
          split at h
          · next hknown =>
              obtain rfl := Option.some.inj h
              exact .dispatch hwork hknown
          · next hunknown =>
              obtain rfl := Option.some.inj h
              exact .unknownService hwork
                (Option.not_isSome_iff_eq_none.mp hunknown)
      · cases h
  | invoke =>
      simp only [move, System.invoke] at h
      split at h
      · next hwork =>
          split at h
          · next hhandler =>
              obtain rfl := Option.some.inj h
              exact .invoke hwork hhandler
          · next hhandler =>
              obtain rfl := Option.some.inj h
              exact .unknownMethod hwork hhandler
      · cases h
  | handle =>
      simp only [move, System.handle] at h
      split at h
      · next hwork =>
          split at h
          · next hsection =>
              obtain rfl := Option.some.inj h
              exact .goOn hwork hsection
          · next hsection =>
              obtain rfl := Option.some.inj h
              exact .finish hwork hsection
          · next hsection =>
              obtain rfl := Option.some.inj h
              exact .panic hwork hsection
          · cases h
      · cases h
  | receive =>
      simp only [move, System.receive] at h
      split at h
      · next hphase hwork =>
          obtain rfl := Option.some.inj h
          exact .receive hphase hwork
      · cases h
  | poll =>
      simp only [move, System.poll] at h
      split at h
      · next hphase =>
          split at h
          · next hdead =>
              obtain rfl := Option.some.inj h
              exact .forsake hphase hdead
          · next halive =>
              obtain rfl := Option.some.inj h
              exact .keepWaiting hphase (Bool.not_eq_true _ ▸ halive)
      · cases h
  | drain =>
      simp only [move, System.drain] at h
      split at h
      · next hwork =>
          split at h
          · next hphase =>
              obtain rfl := Option.some.inj h
              exact .drain hphase hwork
          · cases h
      · cases h
  | conclude dropReply =>
      simp only [move, System.conclude] at h
      split at h
      · next hphase =>
          obtain rfl := Option.some.inj h
          exact .giveUp hphase
      · next hphase =>
          split at h
          · next hdead =>
              obtain rfl := Option.some.inj h
              exact .disown hphase hdead
          · next halive =>
              have halive := Bool.not_eq_true _ ▸ halive
              cases dropReply with
              | true =>
                  simp only [if_true] at h
                  split at h
                  · cases h
                  · next hreliable =>
                      obtain rfl := Option.some.inj h
                      exact .dropReply hphase halive
                        (Bool.not_eq_true _ ▸ hreliable)
              | false =>
                  obtain rfl := Option.some.inj h
                  exact .confirm hphase halive
      · cases h
  | deliver =>
      simp only [move, System.deliver] at h
      split at h
      · next hphase =>
          obtain rfl := Option.some.inj h
          exact .deliver hphase
      · cases h

variable [DecidableEq End] [DecidableEq Name]

/-- The branches of `step`. -/
inductive Stepped (s : System End Name Obj σ κ) :
    Action End Name Obj → System End Name Obj σ κ → Prop
  | call {req} :
      Stepped s (.call req)
        { s with
          calls := s.calls ++
            [{ req := req, phase := .sending, work := .absent }] }
  | move {c call m s'} (hcall : s.calls[c]? = some call)
      (hmoved : Moved s c call m s') : Stepped s (.move c m) s'
  | control {ctl net} (hnet : s.net.control ctl = some net) :
      Stepped s (.control ctl) { s with net := net }
  | controlFatal {ctl} (hnet : s.net.control ctl = none) :
      Stepped s (.control ctl) s.crash
  | background {server n state}
      (hstate : (s.heap server).background n (s.heap server).state =
        some state) :
      Stepped s (.background server n) (s.setState server state)
  | cleanup (hdone : s.done = false) :
      Stepped s .cleanup { s with done := true }
  | cleanupTwice (hdone : s.done = true) : Stepped s .cleanup s.crash
  | stop (hdone : s.done = true) :
      Stepped s .stop { s with listening := false }

theorem step_stepped {s s' : System End Name Obj σ κ} {a : Action End Name Obj}
    (h : s.step a = some s') : s.fatal = false ∧ Stepped s a s' := by
  rw [step.eq_def] at h
  split at h
  · cases h
  · next hfatal =>
      refine ⟨Bool.not_eq_true _ ▸ hfatal, ?_⟩
      cases a with
      | call req =>
          obtain rfl := Option.some.inj h
          exact .call
      | move c m =>
          obtain ⟨call, hcall, hmove⟩ := Option.bind_eq_some_iff.mp h
          exact .move hcall (move_moved hmove)
      | control ctl =>
          dsimp only at h
          split at h
          · next hnet =>
              obtain rfl := Option.some.inj h
              exact .control hnet
          · next hnet =>
              obtain rfl := Option.some.inj h
              exact .controlFatal hnet
      | background server n =>
          obtain ⟨state, hstate, rfl⟩ := Option.map_eq_some_iff.mp h
          exact .background hstate
      | cleanup =>
          obtain rfl := Option.some.inj h
          split
          · next hdone => exact .cleanupTwice hdone
          · next hdone => exact .cleanup (Bool.not_eq_true _ ▸ hdone)
      | stop =>
          dsimp only at h
          split at h
          · next hdone =>
              obtain rfl := Option.some.inj h
              exact .stop hdone
          · cases h

end System

end DistLabs.Labrpc
