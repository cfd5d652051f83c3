import DistLabs.Consensus.Effects
import DistLabs.Raft.FullLog
import DistLabs.Raft.Representation

/-!
# One server and its abstract log

A server mirrors the abstract world when its log in memory and the log in its
persister both stand for the same full log, and the saved term is the durable
term.  Every section of the server is then a sequence of steps of the abstract
protocol.  A crash is none, because memory and persister stand for one log.
-/

namespace DistLabs

open Consensus

variable {n : ℕ} {Cmd : Type}

/-- The abstract world that a cluster stands for. -/
abbrev LogWorld (n : ℕ) (Cmd : Type) :=
  World (Fin n) (LogEntry Cmd)

/-- Server `s` of the world `W` is what `rf` stands for.  A leader may send any
part of its log. -/
structure Mirrors (W : LogWorld n Cmd) (s : Fin n) (rf : Raft n Cmd) :
    Prop where
  memory : RepLog (W.log s) rf.lastIncludedIndex rf.lastIncludedTerm rf.log
  term : W.term s ≤ rf.currentTerm
  saved : ∀ saved, rf.persister.raftstate = some saved →
    RepLog (W.log s) saved.lastIncludedIndex saved.lastIncludedTerm
      saved.log ∧ saved.currentTerm = W.term s
  unsaved : rf.persister.raftstate = none → W.log s = [] ∧ W.term s = 0
  leader : rf.state = .leader → W.leads s rf.currentTerm ∧
    ∀ K, K <+: W.log s → W.published rf.currentTerm K

namespace Mirrors

variable {W W' : LogWorld n Cmd} {s : Fin n} {rf rf' : Raft n Cmd}

theorem logLength (h : Mirrors W s rf) (hrep : Represented rf) :
    rf.logLength = (W.log s).length + 1 := by
  rw [hrep.length]
  exact h.memory.length_eq

/-- Fields other than those of the log do not matter.  The term in memory may
grow, and a server may cease to lead. -/
theorem of_eq (h : Mirrors W s rf) (hlog : rf'.log = rf.log)
    (hlii : rf'.lastIncludedIndex = rf.lastIncludedIndex)
    (hlit : rf'.lastIncludedTerm = rf.lastIncludedTerm)
    (hsaved : rf'.persister = rf.persister)
    (hterm : rf.currentTerm ≤ rf'.currentTerm)
    (hleader : rf'.state = .leader →
      rf.state = .leader ∧ rf'.currentTerm = rf.currentTerm) :
    Mirrors W s rf' where
  memory := by
    rw [hlog, hlii, hlit]
    exact h.memory
  term := le_trans h.term hterm
  saved := by
    rw [hsaved]
    exact h.saved
  unsaved := by
    rw [hsaved]
    exact h.unsaved
  leader := by
    intro hstate
    obtain ⟨hold, heq⟩ := hleader hstate
    rw [heq]
    exact h.leader hold

/-- A server that has just saved its state. -/
theorem persist
    (hmem : RepLog (W.log s) rf.lastIncludedIndex rf.lastIncludedTerm rf.log)
    (hterm : W.term s = rf.currentTerm)
    (hleader : rf.state = .leader → W.leads s rf.currentTerm ∧
      ∀ K, K <+: W.log s → W.published rf.currentTerm K) :
    Mirrors W s rf.persist where
  memory := hmem
  term := hterm.le
  saved := by
    intro saved hsaved
    cases hsaved
    exact ⟨hmem, hterm.symm⟩
  unsaved := fun hnone ↦ nomatch hnone
  leader := hleader

/-- What happens to other servers and what is added to the history does not
matter. -/
theorem frame (h : Mirrors W s rf) (hgrows : Grows W W')
    (hlog : W'.log s = W.log s) (hterm : W'.term s = W.term s) :
    Mirrors W' s rf where
  memory := by
    rw [hlog]
    exact h.memory
  term := by
    rw [hterm]
    exact h.term
  saved := by
    rw [hlog, hterm]
    exact h.saved
  unsaved := by
    rw [hlog, hterm]
    exact h.unsaved
  leader := by
    intro hstate
    obtain ⟨hleads, hpub⟩ := h.leader hstate
    refine ⟨hgrows.leads _ _ hleads, fun K hK ↦ hgrows.published _ _ ?_⟩
    rw [hlog] at hK
    exact hpub K hK

/-- A restart loses nothing that the world knows. -/
theorem make [Zero Cmd] (h : Mirrors W s rf) (me : Fin n) :
    Mirrors W s (Raft.make me rf.persister) := by
  rcases Raft.make_cases me rf.persister with
    ⟨hnone, hmake⟩ | ⟨saved, hsaved, hmake⟩ <;> rw [hmake]
  · obtain ⟨hlog, hterm⟩ := h.unsaved hnone
    refine ⟨?_, hterm.le, h.saved, h.unsaved, fun hstate ↦ nomatch hstate⟩
    rw [hlog]
    exact RepLog.nil 0
  · obtain ⟨hmem, hterm⟩ := h.saved saved hsaved
    exact ⟨hmem, hterm.ge, h.saved, h.unsaved, fun hstate ↦ nomatch hstate⟩

end Mirrors

/-! ## Requests -/

/-- A vote request was asked with the log `L`, in a term that its sender has
saved. -/
structure Asks (W : LogWorld n Cmd) (args : RequestVoteArgs n)
    (L : List (LogEntry Cmd)) : Prop where
  term : args.term ≤ W.term args.candidateId
  asked : W.asked args.candidateId args.term L
  lastLogIndex : args.lastLogIndex = L.length
  lastLogTerm : args.lastLogTerm = lastTerm entryTerm L

/-- An AppendEntries request carries the published log `L` from index `p`
on. -/
structure Carries (W : LogWorld n Cmd) (args : AppendEntriesArgs n Cmd)
    (L : List (LogEntry Cmd)) (p : ℕ) : Prop where
  published : W.published args.term L
  le_length : p ≤ L.length
  prevLogIndex : args.prevLogIndex = p
  prevLogTerm : args.prevLogTerm = termAt entryTerm L p
  entries : args.entries = L.drop p

/-- A snapshot with last index `lii` and last term `lit`, sent in term `T`,
stands for the published log `L`. -/
structure StandsFor (W : LogWorld n Cmd) (T : ℕ) (lii : ℤ) (lit : ℕ)
    (L : List (LogEntry Cmd)) : Prop where
  published : W.published T L
  index : lii = L.length
  term : lit = lastTerm entryTerm L

/-- A server other than `s` leads term `T`. -/
def LedByOther (W : LogWorld n Cmd) (s : Fin n) (T : ℕ) : Prop :=
  ∃ c, c ≠ s ∧ W.leads c T

section Growth

variable {W W' : LogWorld n Cmd} {L : List (LogEntry Cmd)}

theorem Asks.mono {args : RequestVoteArgs n} (h : Asks W args L)
    (hgrows : Grows W W') : Asks W' args L :=
  ⟨le_trans h.term (hgrows.term _), hgrows.asked _ _ _ h.asked,
    h.lastLogIndex, h.lastLogTerm⟩

theorem Carries.mono {args : AppendEntriesArgs n Cmd} {p : ℕ}
    (h : Carries W args L p) (hgrows : Grows W W') : Carries W' args L p :=
  { h with published := hgrows.published _ _ h.published }

theorem StandsFor.mono {T lit : ℕ} {lii : ℤ} (h : StandsFor W T lii lit L)
    (hgrows : Grows W W') : StandsFor W' T lii lit L :=
  { h with published := hgrows.published _ _ h.published }

theorem LedByOther.mono {s : Fin n} {T : ℕ} (h : LedByOther W s T)
    (hgrows : Grows W W') : LedByOther W' s T := by
  obtain ⟨c, hne, hleads⟩ := h
  exact ⟨c, hne, hgrows.leads c T hleads⟩

theorem LedByOther.not_leads {s : Fin n} {T : ℕ} (h : LedByOther W s T)
    (hinv : Inv entryTerm W) : ¬ W.leads s T := by
  obtain ⟨c, hne, hleads⟩ := h
  exact fun hs ↦ hne (hinv.leadsUnique hleads hs)

end Growth

/-! ## Following a server -/

/-- The world goes from `W` to `W'` while server `s` goes to `rf`. -/
structure Follows (safe : Prop) (s : Fin n) (W W' : LogWorld n Cmd)
    (rf : Raft n Cmd) : Prop where
  effects : Effects entryTerm safe W W'
  others : ∀ t, t ≠ s → W'.log t = W.log t ∧ W'.term t = W.term t
  leads : W'.leads = W.leads
  mirrors : Mirrors W' s rf

namespace Follows

variable {safe : Prop} {s : Fin n} {W W₁ W' : LogWorld n Cmd}
  {rf rf₁ rf' : Raft n Cmd}

theorem stay (h : Mirrors W s rf) : Follows safe s W W rf :=
  ⟨.refl, fun _ _ ↦ ⟨rfl, rfl⟩, rfl, h⟩

theorem trans (h : Follows safe s W W₁ rf₁) (h' : Follows safe s W₁ W' rf) :
    Follows safe s W W' rf where
  effects := h.effects.trans h'.effects
  others := by
    intro t ht
    obtain ⟨hlog, hterm⟩ := h.others t ht
    obtain ⟨hlog', hterm'⟩ := h'.others t ht
    exact ⟨hlog'.trans hlog, hterm'.trans hterm⟩
  leads := h'.leads.trans h.leads
  mirrors := h'.mirrors

/-- One effect at server `s`. -/
theorem single (heffect : Effect entryTerm safe W W')
    (hlog : ∀ t, t ≠ s → W'.log t = W.log t)
    (hterm : ∀ t, t ≠ s → W'.term t = W.term t)
    (hleads : W'.leads = W.leads) (h : Mirrors W' s rf) :
    Follows safe s W W' rf :=
  ⟨.single heffect, fun t ht ↦ ⟨hlog t ht, hterm t ht⟩, hleads, h⟩

/-- Saving a state with a log that stands for the same full log. -/
theorem persist
    (hmem : RepLog (W.log s) rf.lastIncludedIndex rf.lastIncludedTerm rf.log)
    (hterm : W.term s ≤ rf.currentTerm)
    (hleader : rf.state = .leader → W.leads s rf.currentTerm ∧
      ∀ K, K <+: W.log s → W.published rf.currentTerm K) :
    Follows safe s W (W.raise s rf.currentTerm) rf.persist := by
  refine single (.raise hterm) (fun _ _ ↦ rfl) ?_ rfl ?_
  · intro t ht
    exact Function.update_of_ne ht _ _
  · exact .persist hmem (Function.update_self _ _ _) hleader

/-- A server that does not lead its term saves a published log. -/
theorem adopt {L : List (LogEntry Cmd)} {T : ℕ} (hle : W.term s ≤ T)
    (hpub : W.published T L) (hother : ¬ W.leads s T)
    (hsafe : safe → L <+: W.log s → L = W.log s)
    (hmem : RepLog L rf.lastIncludedIndex rf.lastIncludedTerm rf.log)
    (hterm : rf.currentTerm = T) (hfollower : rf.state ≠ .leader) :
    Follows safe s W (W.adopt s T L) rf.persist := by
  have hlog : (W.adopt s T L).log s = L := Function.update_self _ _ _
  refine single (.adopt hpub hother hle hsafe) ?_ ?_ rfl ?_
  · intro t ht
    exact Function.update_of_ne ht _ _
  · intro t ht
    exact Function.update_of_ne ht _ _
  · refine .persist ?_ ((Function.update_self _ _ _).trans hterm.symm)
      fun hstate ↦ absurd hstate hfollower
    rw [hlog]
    exact hmem

/-- The world need not move when the log is kept. -/
theorem of_eq (h : Follows safe s W W' rf) (hlog : rf'.log = rf.log)
    (hlii : rf'.lastIncludedIndex = rf.lastIncludedIndex)
    (hlit : rf'.lastIncludedTerm = rf.lastIncludedTerm)
    (hsaved : rf'.persister = rf.persister)
    (hterm : rf.currentTerm ≤ rf'.currentTerm)
    (hleader : rf'.state = .leader →
      rf.state = .leader ∧ rf'.currentTerm = rf.currentTerm) :
    Follows safe s W W' rf' :=
  { h with
    mirrors := h.mirrors.of_eq hlog hlii hlit hsaved hterm hleader }

end Follows

/-! ## Elections -/

section Elections

variable {safe : Prop} {s : Fin n} {W : LogWorld n Cmd} {rf : Raft n Cmd}

/-- The last entry that a server compares is the last one of its full log. -/
theorem Mirrors.last_term (h : Mirrors W s rf) (hrep : Represented rf)
    {last : LogEntry Cmd}
    (hlast : elemAt rf.log (rf.v2pIndex rf.logLength - 1) = some last) :
    last.logTerm = lastTerm entryTerm (W.log s) := by
  have hphys : rf.v2pIndex rf.logLength - 1 =
      rf.logLength - 1 - rf.lastIncludedIndex := by
    unfold Raft.v2pIndex
    omega
  rw [hphys] at hlast
  obtain ⟨_, _, hterm⟩ := h.memory.elemAt_term hlast
  have hlen := h.logLength hrep
  rwa [show (rf.logLength - 1).toNat = (W.log s).length by omega] at hterm

theorem Follows.elect (h : Mirrors W s rf) (hstate : rf.state = .follower) :
    Follows safe s W (W.campaign s (rf.currentTerm + 1))
      rf.electLauncher.rf := by
  have hlt : W.term s < rf.currentTerm + 1 := Nat.lt_succ_of_le h.term
  rw [Raft.electLauncher_rf]
  refine .single (.campaign hlt) (fun _ _ ↦ rfl) ?_ rfl ?_
  · intro t ht
    exact Function.update_of_ne ht _ _
  · refine .persist h.memory (Function.update_self _ _ _) ?_
    intro hleader
    have hleader' : rf.state = .leader := hleader
    rw [hstate] at hleader'
    cases hleader'

/-- The log that a candidate asks with is its full log. -/
theorem Mirrors.asks (h : Mirrors W s rf) (hrep : Represented rf)
    (hme : rf.me = s) {rf' : Raft n Cmd} {args : RequestVoteArgs n}
    (hrun : rf.electLauncher = .done rf' args) :
    Asks (W.campaign s (rf.currentTerm + 1)) args (W.log s) := by
  obtain ⟨_, last, hlast, rfl⟩ := Raft.electLauncher_done hrun
  have hlen := h.logLength hrep
  have hself : (W.campaign s (rf.currentTerm + 1)).term s =
      rf.currentTerm + 1 := Function.update_self _ _ _
  refine ⟨?_, Or.inr ⟨hme, rfl, rfl⟩, ?_, h.last_term hrep hlast⟩
  · dsimp only
    rw [hme, hself]
  · dsimp only
    omega

theorem Mirrors.followCandidate (h : Mirrors W s rf) (term : ℕ) :
    Mirrors W s (rf.followCandidate term) := by
  unfold Raft.followCandidate
  split
  · next hlt =>
      exact h.of_eq rfl rfl rfl rfl (le_of_lt hlt) fun hstate ↦ nomatch hstate
  · exact h

/-- A granted vote goes to a candidate whose full log is recent enough. -/
theorem Follows.grant (h : Mirrors W s rf) (hrep : Represented rf)
    {args : RequestVoteArgs n} {L : List (LogEntry Cmd)}
    (hasks : Asks W args L) {last : LogEntry Cmd}
    (hgrants : Raft.Grants rf args last) :
    Follows safe s W (W.grant s args.term args.candidateId)
      (Raft.persist { rf with votedFor := some args.candidateId }) := by
  have hterm : W.term s ≤ args.term := hgrants.term ▸ h.term
  have hlen := h.logLength hrep
  have hlast := h.last_term hrep hgrants.lastEntry
  have hrecent : UpToDate entryTerm L (W.log s) := by
    have hindex := hasks.lastLogIndex
    rcases hgrants.recent with hgt | ⟨heq, hge⟩
    · left
      rw [← hlast, ← hasks.lastLogTerm]
      exact hgt
    · right
      rw [← hlast, ← hasks.lastLogTerm]
      exact ⟨heq, by omega⟩
  refine .single (.grant hterm hasks.asked hrecent) (fun _ _ ↦ rfl) ?_ rfl ?_
  · intro t ht
    exact Function.update_of_ne ht _ _
  · refine .persist h.memory ?_ h.leader
    exact (Function.update_self _ _ _).trans hgrants.term.symm

theorem Follows.vote (h : Mirrors W s rf) (hrep : Represented rf)
    {args : RequestVoteArgs n} {L : List (LogEntry Cmd)}
    (hasks : Asks W args L) :
    ∃ W', Follows safe s W W' (rf.requestVoteHandler args).rf ∧
      ∀ rf' reply, rf.requestVoteHandler args = .done rf' reply →
        reply.voteGranted = true →
          W'.voted s args.term args.candidateId := by
  have hfollow := h.followCandidate args.term
  rcases rf.requestVoteHandler_cases args with
    hcase | hcase | ⟨last, hgrants, hcase⟩ <;> rw [hcase]
  · refine ⟨W, .stay hfollow, ?_⟩
    intro rf' reply hrun
    cases hrun
  · refine ⟨W, .stay hfollow, ?_⟩
    intro rf' reply hrun hgranted
    cases hrun
    cases hgranted
  · refine ⟨_, .grant hfollow (hrep.followCandidate _) hasks hgrants, ?_⟩
    intro rf' reply _ _
    exact Or.inr ⟨rfl, rfl, rfl⟩

/-- A server that leads its term publishes its log when it is promoted. -/
theorem Follows.lead (h : Mirrors W s rf)
    (hleads : W.leads s rf.currentTerm) :
    Follows safe s W (W.publish rf.currentTerm (W.log s))
      rf.becomeLeader := by
  have hpublished : ∀ K, K <+: W.log s →
      (W.publish rf.currentTerm (W.log s)).published rf.currentTerm K :=
    fun K hK ↦ Or.inr ⟨rfl, hK⟩
  exact .single (.publish hleads h.term List.prefix_rfl) (fun _ _ ↦ rfl)
    (fun _ _ ↦ rfl) rfl
    ⟨h.memory, h.term, h.saved, h.unsaved, fun _ ↦ ⟨hleads, hpublished⟩⟩

end Elections

/-! ## Sections without a request -/

section Quiet

variable {safe : Prop} {s : Fin n} {W : LogWorld n Cmd}
  {rf rf' : Raft n Cmd}

/-- A leader appends to its full log and publishes the result. -/
theorem Follows.start (h : Mirrors W s rf) (hstate : rf.state = .leader)
    (command : Cmd) :
    ∃ W', Follows safe s W W' (rf.extended command) := by
  obtain ⟨hleads, _⟩ := h.leader hstate
  set e : LogEntry Cmd := ⟨rf.currentTerm, command⟩ with he
  set W₁ := W.append s rf.currentTerm e with hW₁
  have hlog : W₁.log s = W.log s ++ [e] := Function.update_self _ _ _
  have hterm : W₁.term s = rf.currentTerm := Function.update_self _ _ _
  have hpublish : Effect entryTerm safe W₁
      (W₁.publish rf.currentTerm (W₁.log s)) :=
    .publish hleads hterm.le List.prefix_rfl
  refine ⟨_, .tail (.single (.append hleads h.term rfl)) hpublish, ?_, rfl, ?_⟩
  · intro t ht
    exact ⟨Function.update_of_ne ht _ _, Function.update_of_ne ht _ _⟩
  · refine .persist ?_ hterm fun _ ↦ ⟨hleads, fun K hK ↦ Or.inr ⟨rfl, hK⟩⟩
    change RepLog (W₁.log s) _ _ _
    rw [hlog]
    exact h.memory.append e

/-- Neither a request nor the last vote of an election arrives. -/
structure Inputs.Quiet (In : Inputs n Cmd) : Prop where
  vote : ∀ args, ¬ In.vote args
  append : ∀ args, ¬ In.append args
  snap : ∀ args, ¬ In.snap args
  won : ∀ args T, ¬ In.won args T

variable [Zero Cmd] {In : Inputs n Cmd}

theorem Follows.quiet_change (hquiet : In.Quiet)
    (hchange : Change In rf rf') (h : Mirrors W s rf) :
    ∃ W', Follows safe s W W' rf' := by
  cases hchange with
  | elect hstate => exact ⟨_, .elect h hstate⟩
  | follow hlt =>
      exact ⟨W, .stay (h.of_eq rfl rfl rfl rfl (le_of_lt hlt)
        fun hstate ↦ nomatch hstate)⟩
  | demote =>
      exact ⟨W, .stay (h.of_eq rfl rfl rfl rfl le_rfl
        fun hstate ↦ nomatch hstate)⟩
  | raise hlt =>
      exact ⟨_, .persist h.memory (le_trans h.term (le_of_lt hlt))
        fun hstate ↦ nomatch hstate⟩
  | reindex | matched | commit | apply =>
      exact ⟨W, .stay (h.of_eq rfl rfl rfl rfl le_rfl
        fun hstate ↦ ⟨hstate, rfl⟩)⟩
  | start _ hstate => exact Follows.start h hstate _
  | snapshot _ hentry =>
      exact ⟨_, .persist (h.memory.compact hentry) h.term h.leader⟩
  | grant hin => exact absurd hin (hquiet.vote _)
  | lead hin => exact absurd hin (hquiet.won _ _)
  | conflict hin | accept hin => exact absurd hin (hquiet.append _)
  | install hin => exact absurd hin (hquiet.snap _)

theorem Follows.quiet (hquiet : In.Quiet) (hchanges : Changes In rf rf')
    (h : Mirrors W s rf) : ∃ W', Follows safe s W W' rf' := by
  induction hchanges with
  | refl => exact ⟨W, .stay h⟩
  | @tail _ rf' _ hchange ih =>
      obtain ⟨W₁, hfirst⟩ := ih
      have hlast : ∃ W', Follows safe s W₁ W' rf' :=
        Follows.quiet_change hquiet hchange hfirst.mirrors
      obtain ⟨W', hsecond⟩ := hlast
      exact ⟨W', hfirst.trans hsecond⟩

end Quiet

/-! ## Requests of a leader -/

/-- The entries of an accepted request do not all agree with the log already
while the log goes on behind them. -/
def Raft.KeepsAgreeing (rf : Raft n Cmd) (args : AppendEntriesArgs n Cmd) :
    Prop :=
  rf.currentTerm ≤ args.term →
  (elemAt rf.log (rf.v2pIndex args.prevLogIndex)).map LogEntry.logTerm =
    some args.prevLogTerm →
  args.entries ≠ [] →
  args.entries <+:
    rf.log.drop ((rf.v2pIndex args.prevLogIndex).toNat + 1) →
  rf.logLength - 1 ≤ args.prevLogIndex + args.entries.length

instance [DecidableEq Cmd] (rf : Raft n Cmd)
    (args : AppendEntriesArgs n Cmd) : Decidable (rf.KeepsAgreeing args) :=
  inferInstanceAs (Decidable (_ → _ → _ → _ → _))

section Append

variable {safe : Prop} {s : Fin n} {W : LogWorld n Cmd} {rf : Raft n Cmd}
  {args : AppendEntriesArgs n Cmd} {L : List (LogEntry Cmd)} {p : ℕ}
  {entry : LogEntry Cmd}

/-- A server in a term that another one leads is not a leader. -/
theorem Mirrors.not_leader (hinv : Inv entryTerm W) (h : Mirrors W s rf)
    {T : ℕ} (hled : LedByOther W s T) (hterm : rf.currentTerm = T) :
    rf.state ≠ .leader := by
  intro hstate
  subst hterm
  exact hled.not_leads hinv (h.leader hstate).1

theorem Follows.raiseTerm (h : Mirrors W s rf) (term : ℕ) :
    ∃ W', Follows safe s W W' (rf.followLeader term) := by
  unfold Raft.followLeader
  split
  · next hlt =>
      exact ⟨_, .persist h.memory (le_trans h.term (le_of_lt hlt))
        fun hstate ↦ nomatch hstate⟩
  · exact ⟨W, .stay h⟩

/-- Deleting a conflicting entry cuts the full log at a conflict with the
leader's. -/
theorem Follows.conflict (hinv : Inv entryTerm W) (h : Mirrors W s rf)
    (hled : LedByOther W s args.term) (hcarries : Carries W args L p)
    (hterm : rf.currentTerm = args.term)
    (hentry : elemAt rf.log (rf.v2pIndex args.prevLogIndex) = some entry)
    (hne : args.prevLogTerm ≠ entry.logTerm) :
    ∃ W', Follows safe s W W'
      (rf.deleteConflict (rf.v2pIndex args.prevLogIndex)) := by
  obtain ⟨hlow, hhigh, hentryTerm⟩ := h.memory.elemAt_term hentry
  have hprev := hcarries.prevLogIndex
  have hnonneg := h.memory.nonneg
  obtain ⟨m, hm, _⟩ := elemAt_eq_some_iff.mp hentry
  have hindex : rf.lastIncludedIndex + m = p := by
    unfold Raft.v2pIndex at hm
    omega
  have hconflict : termAt entryTerm L p ≠ termAt entryTerm (W.log s) p := by
    rw [← hcarries.prevLogTerm]
    rw [hprev, Int.toNat_natCast] at hentryTerm
    rwa [← hentryTerm]
  have hpos : 0 < p := by
    rcases Nat.eq_zero_or_pos p with hzero | hpos
    · rw [hzero] at hconflict
      exact absurd rfl hconflict
    · exact hpos
  have hsucc : p - 1 + 1 = p := by omega
  have hwterm : W.term s ≤ args.term := hterm ▸ h.term
  have hfollower := h.not_leader hinv hled hterm
  have hcut : Effect entryTerm safe W
      (W.cut s args.term (rf.lastIncludedIndex.toNat + (m - 1))) := by
    refine .cut (i := p - 1) (hled.not_leads hinv) hwterm hcarries.published
      (by omega) ?_ (by omega) ?_
    · have := hcarries.le_length
      omega
    · rwa [hsucc]
  have hlog : (W.cut s args.term
      (rf.lastIncludedIndex.toNat + (m - 1))).log s =
        (W.log s).take (rf.lastIncludedIndex.toNat + (m - 1)) :=
    Function.update_self _ _ _
  have htake : (if rf.v2pIndex args.prevLogIndex = 0 then rf.log.take 1
      else rf.log.take (rf.v2pIndex args.prevLogIndex).toNat) =
        rf.log.take (m - 1 + 1) := by
    rw [hm, Int.toNat_natCast]
    split
    · next hzero =>
        obtain rfl : m = 0 := by omega
        rfl
    · next hnonzero =>
        have : m - 1 + 1 = m := by omega
        rw [this]
  refine ⟨_, .single hcut ?_ ?_ rfl ?_⟩
  · intro t ht
    exact Function.update_of_ne ht _ _
  · intro t ht
    exact Function.update_of_ne ht _ _
  · refine .persist ?_ ((Function.update_self _ _ _).trans hterm.symm)
      fun hstate ↦ absurd hstate hfollower
    rw [hlog]
    dsimp only
    rw [htake]
    exact h.memory.cut (by omega)

/-- An accepted request leaves the full log of its sender in place of the old
one, or confirms that it is held. -/
theorem Follows.accept (hinv : Inv entryTerm W) (h : Mirrors W s rf)
    (hrep : Represented rf) (hled : LedByOther W s args.term)
    (hcarries : Carries W args L p) (hterm : rf.currentTerm = args.term)
    (hentry : elemAt rf.log (rf.v2pIndex args.prevLogIndex) = some entry)
    (heq : args.prevLogTerm = entry.logTerm)
    (hsafe : safe → rf.KeepsAgreeing args) :
    ∃ W', Follows safe s W W'
        (rf.appendLog (rf.v2pIndex args.prevLogIndex) args.entries) ∧
      W'.acked s args.term L ∧ L <+: W'.log s := by
  obtain ⟨hlow, hhigh, hentryTerm⟩ := h.memory.elemAt_term hentry
  rw [hcarries.prevLogIndex] at hlow hhigh
  have hpL := hcarries.le_length
  have hps : p ≤ (W.log s).length := by omega
  have hagree : (W.log s).take p = L.take p := by
    refine hinv.published_matching hcarries.published hps hpL ?_
    rw [hcarries.prevLogIndex, Int.toNat_natCast] at hentryTerm
    rw [← hentryTerm, ← heq, hcarries.prevLogTerm]
  have hother := hled.not_leads hinv
  have hfollower := h.not_leader hinv hled hterm
  by_cases hnil : args.entries = []
  · have hpre : L <+: W.log s := by
      have hfull : L.take p = L := by
        have hdrop := hcarries.entries
        rw [hnil] at hdrop
        exact List.take_of_length_le (List.drop_eq_nil_iff.mp hdrop.symm)
      rw [← hfull, ← hagree]
      exact List.take_prefix _ _
    have hsame : rf.appendLog (rf.v2pIndex args.prevLogIndex)
        args.entries = rf := by
      rw [hnil]
      rfl
    rw [hsame]
    refine ⟨W.ack s args.term L, .single
      (.ack hcarries.published hpre (hterm ▸ h.term)) (fun _ _ ↦ rfl)
      (fun _ _ ↦ rfl) rfl ?_, Or.inr ⟨rfl, rfl, rfl⟩, hpre⟩
    exact ⟨h.memory, h.term, h.saved, h.unsaved, h.leader⟩
  · have hmem := h.memory.splice hlow hps hpL hagree
    have hkeep : safe → L <+: W.log s → L = W.log s := by
      intro hyes hpre
      refine hpre.eq_of_length_le ?_
      have hdrop : args.entries <+: rf.log.drop
          ((rf.v2pIndex args.prevLogIndex).toNat + 1) := by
        rw [Raft.v2pIndex, h.memory.drop_succ hcarries.prevLogIndex hlow,
          hcarries.entries]
        exact hpre.drop p
      have hlen := hsafe hyes hterm.le (by rw [hentry, heq]; rfl) hnil hdrop
      rw [h.logLength hrep, hcarries.prevLogIndex, hcarries.entries,
        List.length_drop] at hlen
      omega
    have hadopt : Follows safe s W (W.adopt s args.term L)
        (rf.appendLog (rf.v2pIndex args.prevLogIndex) args.entries) := by
      have hlength : args.entries.length ≠ 0 := by
        rwa [Ne, List.length_eq_zero_iff]
      rw [Raft.appendLog, if_pos hlength]
      refine .adopt (hterm ▸ h.term) hcarries.published hother hkeep ?_ hterm
        hfollower
      dsimp only [Raft.v2pIndex]
      rw [hcarries.prevLogIndex, hcarries.entries]
      exact hmem
    have hlog : (W.adopt s args.term L).log s = L :=
      Function.update_self _ _ _
    have hheld : L <+: (W.adopt s args.term L).log s := by rw [hlog]
    have hwterm : (W.adopt s args.term L).term s = args.term :=
      Function.update_self _ _ _
    have hm := hadopt.mirrors
    exact ⟨_, hadopt.trans
      (.single (.ack hcarries.published hheld hwterm.le) (fun _ _ ↦ rfl)
        (fun _ _ ↦ rfl) rfl
        ⟨hm.memory, hm.term, hm.saved, hm.unsaved, hm.leader⟩),
      Or.inr ⟨rfl, rfl, rfl⟩, hheld⟩

theorem Follows.advanceCommit {W' : LogWorld n Cmd}
    (h : Follows safe s W W' rf) (leaderCommit : ℤ) :
    Follows safe s W W' (rf.advanceCommit leaderCommit) := by
  unfold Raft.advanceCommit
  split
  · exact h.of_eq rfl rfl rfl rfl le_rfl fun hstate ↦ ⟨hstate, rfl⟩
  · exact h

theorem Raft.KeepsAgreeing.followLeader (h : rf.KeepsAgreeing args) :
    (rf.followLeader args.term).KeepsAgreeing args := by
  unfold Raft.followLeader
  split
  · next hlt => exact fun _ ↦ h (le_of_lt hlt)
  · exact h

theorem Follows.append (hinv : Inv entryTerm W) (h : Mirrors W s rf)
    (hrep : Represented rf) (hled : LedByOther W s args.term)
    (hcarries : Carries W args L p)
    (hsafe : safe → rf.KeepsAgreeing args) :
    ∃ W', Follows safe s W W' (rf.heartbeatHandler args).rf ∧
      ∀ rf' reply, rf.heartbeatHandler args = .done rf' reply →
        reply.success = true →
          W'.acked s args.term L ∧ L <+: W'.log s := by
  have hraised : ∃ W₁, Follows safe s W W₁ (rf.followLeader args.term) :=
    Follows.raiseTerm h args.term
  obtain ⟨W₁, hraise⟩ := hraised
  rcases rf.heartbeatHandler_cases args with
    ⟨reply, hfail, hcase⟩ | hcase |
      ⟨rf₁, entry, k, rfl, hterm, rfl, _, hentry, hcase⟩
  · rw [hcase]
    refine ⟨W₁, hraise, ?_⟩
    intro rf' reply' hrun hsuccess
    cases hrun
    rw [hfail] at hsuccess
    cases hsuccess
  · rw [hcase]
    refine ⟨W₁, hraise, ?_⟩
    intro rf' reply hrun
    cases hrun
  · have hgrows := hraise.effects.grows
    have hinv₁ := hraise.effects.inv hinv
    have hrep₁ := hrep.followLeader args.term
    have hled₁ := hled.mono hgrows
    have hcarries₁ := hcarries.mono hgrows
    rw [hrep₁.hasSentinel.stamped_eq,
      hrep₁.hasSentinel.checkTerm_eq hentry] at hcase
    rcases hcase with ⟨hne, reply, hfail, hcase⟩ | ⟨heq, reply, _, hcase⟩
    · have hcut : ∃ W', Follows safe s W₁ W' _ := Follows.conflict hinv₁
        hraise.mirrors hled₁ hcarries₁ hterm hentry hne
      obtain ⟨W', hcut⟩ := hcut
      rw [hcase]
      refine ⟨W', hraise.trans hcut, ?_⟩
      intro rf' reply' hrun hsuccess
      cases hrun
      rw [hfail] at hsuccess
      cases hsuccess
    · obtain ⟨W', hadopt, hheld⟩ := Follows.accept hinv₁ hraise.mirrors
        hrep₁ hled₁ hcarries₁ hterm hentry heq
        fun hyes ↦ (hsafe hyes).followLeader
      rw [hcase]
      exact ⟨W', hraise.trans (hadopt.advanceCommit _), fun _ _ _ _ ↦ hheld⟩

end Append

/-- An accepted snapshot is not older than the server's own. -/
def Raft.MovesForward (rf : Raft n Cmd) (args : SnapshotArgs n) : Prop :=
  rf.currentTerm ≤ args.term →
    rf.lastIncludedIndex ≤ args.lastIncludedIndex

instance (rf : Raft n Cmd) (args : SnapshotArgs n) :
    Decidable (rf.MovesForward args) :=
  inferInstanceAs (Decidable (_ → _))

section Install

variable {safe : Prop} {s : Fin n} {W : LogWorld n Cmd} {rf : Raft n Cmd}
  {args : SnapshotArgs n} {L : List (LogEntry Cmd)}

theorem Mirrors.followInstaller (h : Mirrors W s rf) (term : ℕ) :
    Mirrors W s (rf.followInstaller term) := by
  unfold Raft.followInstaller
  split
  · next hlt =>
      exact h.of_eq rfl rfl rfl rfl (le_of_lt hlt) fun hstate ↦ nomatch hstate
  · exact h

variable [Zero Cmd]

/-- A snapshot compacts the log that it is part of and replaces any other. -/
theorem Follows.install (hinv : Inv entryTerm W) (h : Mirrors W s rf)
    (hrep : Represented rf) (hled : LedByOther W s args.term)
    (hstands : StandsFor W args.term args.lastIncludedIndex
      args.lastIncludedTerm L) (hterm : rf.currentTerm = args.term)
    {log : List (LogEntry Cmd)} (hlog : rf.remainingLog args = some log)
    (hsafe : safe → rf.MovesForward args) :
    ∃ W', Follows safe s W W' (rf.installed args log) := by
  have hfollower := h.not_leader hinv hled hterm
  rcases Raft.remainingLog_cases hlog with
    ⟨entry, _, _, hentry, hlit, rfl⟩ | ⟨rfl, hother⟩
  · refine ⟨_, .persist ?_ h.term fun hstate ↦ absurd hstate hfollower⟩
    rw [← hlit]
    exact h.memory.compact hentry
  · have hkeep : safe → L <+: W.log s → L = W.log s := by
      intro hyes hpre
      have hlow := hsafe hyes hterm.le
      have hlen := h.logLength hrep
      have hle := hpre.length_le
      have hhigh : args.lastIncludedIndex ≤ rf.logLength - 1 := by
        rw [hstands.index]
        omega
      obtain ⟨entry, hentry⟩ := Option.isSome_iff_exists.mp
        (elemAt_isSome_iff.mpr (show
          0 ≤ rf.v2pIndex args.lastIncludedIndex ∧
            rf.v2pIndex args.lastIncludedIndex < rf.log.length by
              have := hrep.length
              unfold Raft.v2pIndex
              omega))
      obtain ⟨_, _, hread⟩ := h.memory.elemAt_term hentry
      refine absurd ?_ (hother entry hlow hhigh hentry)
      rw [hread, hstands.index, Int.toNat_natCast,
        hstands.term, lastTerm_prefix_eq entryTerm hpre]
    refine ⟨_, .adopt (hterm ▸ h.term) hstands.published
      (hled.not_leads hinv) hkeep ?_ hterm hfollower⟩
    dsimp only
    rw [hstands.index, hstands.term]
    exact RepLog.single L 0

theorem Follows.snap (hinv : Inv entryTerm W) (h : Mirrors W s rf)
    (hrep : Represented rf) (hled : LedByOther W s args.term)
    (hstands : StandsFor W args.term args.lastIncludedIndex
      args.lastIncludedTerm L)
    (hsafe : safe → rf.MovesForward args) :
    ∃ W', Follows safe s W W' (rf.installSnapshot args).rf := by
  have hfollow := h.followInstaller args.term
  rcases rf.installSnapshot_cases args with
    ⟨_, hcase⟩ | ⟨hle, ⟨_, hcase⟩ | ⟨log, hlog, hcase⟩⟩ <;> rw [hcase]
  · exact ⟨W, .stay h⟩
  · exact ⟨W, .stay hfollow⟩
  · have hterm : (rf.followInstaller args.term).currentTerm = args.term :=
      (rf.followInstaller_currentTerm args.term).trans (max_eq_right hle)
    refine Follows.install hinv hfollow (hrep.followInstaller _) hled hstands
      hterm hlog fun hyes _ ↦ ?_
    have hforward := hsafe hyes hle
    unfold Raft.followInstaller
    split
    · exact hforward
    · exact hforward

end Install

end DistLabs
