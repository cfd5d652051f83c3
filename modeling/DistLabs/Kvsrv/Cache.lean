import DistLabs.Kvsrv.Linearizable
import Mathlib.Data.Set.Card

/-!
# The reply cache does not leak

A reply is cached when the handler of `Put` or `Append` is executed, and it is
removed by another call, `Clear`, which is also repeated.  No call of `Put` or
`Append` is executed after the `Clear` of its clerk, since a call returns before
the next one is made.
-/

namespace DistLabs.Kvsrv

namespace KVServer

variable {kv : KVServer} {req : Request} {opReg other : OpReg}

/-- Only the entry of a `Put` or `Append` is added to the cache. -/
theorem handle_cached
    (h : (kv.handle opReg req).1.opCache other ≠ none) :
    kv.opCache other ≠ none ∨ other = opReg ∧ req.IsWrite := by
  by_cases heq : other = opReg
  · cases req with
    | get key => exact Or.inl h
    | put key value => exact Or.inr ⟨heq, trivial⟩
    | append key value => exact Or.inr ⟨heq, trivial⟩
  · rw [handle_opCache_of_ne heq] at h
    exact Or.inl h

theorem clear_cached
    (h : (kv.clear { opReg := opReg }).1.opCache other ≠ none) :
    kv.opCache other ≠ none ∧ other ≠ opReg := by
  by_cases heq : other = opReg
  · rw [heq] at h
    exact absurd (Function.update_self _ _ _) h
  · rw [clear_opCache_of_ne heq] at h
    exact ⟨h, heq⟩

end KVServer

/-- A `Put` or `Append` whose entry may be in the cache: the handler of its
`Clear` has not been executed. -/
inductive Phase.Holds (opReg : OpReg) : Phase → Prop
  | calling {req reply} (hwrite : req.IsWrite) :
      Holds opReg (.calling req opReg reply)
  | clearing {req value} (hwrite : req.IsWrite) :
      Holds opReg (.clearing req opReg value false)

namespace Service

variable {Clerk : Type} {σ σ' : Service Clerk} {c : Clerk} {opReg : OpReg}

/-- Clerk `c` has started a `Put` or `Append` with number `opReg` that has not
returned. -/
def InProgress (σ : Service Clerk) (c : Clerk) (opReg : OpReg) : Prop :=
  ∃ req : Request, req.IsWrite ∧
    ((∃ reply, σ.clerk c = .calling req opReg reply) ∨
      ∃ value cleared, σ.clerk c = .clearing req opReg value cleared)

theorem InProgress.opReg_eq (h : σ.InProgress c opReg) :
    (σ.clerk c).opReg = some opReg := by
  obtain ⟨req, _, ⟨reply, hphase⟩ | ⟨value, cleared, hphase⟩⟩ := h
  · rw [hphase]
    rfl
  · rw [hphase]
    rfl

theorem inProgress_of_holds (h : (σ.clerk c).Holds opReg) :
    σ.InProgress c opReg := by
  generalize hphase : σ.clerk c = phase at h
  cases h with
  | calling hwrite => exact ⟨_, hwrite, Or.inl ⟨_, hphase⟩⟩
  | clearing hwrite => exact ⟨_, hwrite, Or.inr ⟨_, _, hphase⟩⟩

/-- Every entry of the cache has a clerk that will clear it. -/
def Held (σ : Service Clerk) : Prop :=
  ∀ opReg, σ.server.opCache opReg ≠ none → ∃ c, (σ.clerk c).Holds opReg

variable [DecidableEq Clerk]

/-- A step of clerk `c` keeps the entries held when no new one appears without
a holder and `c` gives up none. -/
theorem Held.update (h : σ.Held) {phase : Phase}
    (hclerk : σ'.clerk = Function.update σ.clerk c phase)
    (hcache : ∀ opReg, σ'.server.opCache opReg ≠ none →
      σ.server.opCache opReg ≠ none ∧
        ((σ.clerk c).Holds opReg → phase.Holds opReg) ∨
      phase.Holds opReg) : σ'.Held := by
  intro opReg hcached
  rw [hclerk]
  rcases hcache opReg hcached with ⟨hold, hkeeps⟩ | hnew
  · obtain ⟨c', hholds⟩ := h opReg hold
    by_cases hc : c' = c
    · subst hc
      exact ⟨c', by rw [Function.update_self]; exact hkeeps hholds⟩
    · exact ⟨c', by rw [Function.update_of_ne hc]; exact hholds⟩
  · exact ⟨c, by rw [Function.update_self]; exact hnew⟩

theorem Held.step {a : Action Clerk} (h : σ.Held)
    (hstep : σ.step a = some σ') : σ'.Held := by
  cases step_transition hstep with
  | invoke hphase =>
      refine h.update rfl fun opReg hcached ↦ Or.inl ⟨hcached, fun hholds ↦ ?_⟩
      rw [hphase] at hholds
      cases hholds
  | execute hphase =>
      refine h.update rfl fun opReg hcached ↦ ?_
      rcases KVServer.handle_cached hcached with hold | ⟨rfl, hwrite⟩
      · refine Or.inl ⟨hold, fun hholds ↦ ?_⟩
        rw [hphase] at hholds
        cases hholds with
        | calling hwrite => exact .calling hwrite
      · exact Or.inr (.calling hwrite)
  | executeClear hphase =>
      refine h.update rfl fun opReg hcached ↦ ?_
      obtain ⟨hold, hne⟩ := KVServer.clear_cached hcached
      refine Or.inl ⟨hold, fun hholds ↦ ?_⟩
      rw [hphase] at hholds
      cases hholds
      exact absurd rfl hne
  | fail hphase =>
      refine h.update rfl fun opReg hcached ↦ Or.inl ⟨hcached, fun hholds ↦ ?_⟩
      rw [hphase] at hholds
      cases hholds with
      | calling hwrite => exact .calling hwrite
  | failClear hphase =>
      refine h.update rfl fun opReg hcached ↦ Or.inl ⟨hcached, fun hholds ↦ ?_⟩
      rw [hphase] at hholds
      cases hholds with
      | clearing hwrite => exact .clearing hwrite
  | returnGet hphase =>
      refine h.update rfl fun opReg hcached ↦ Or.inl ⟨hcached, fun hholds ↦ ?_⟩
      rw [hphase] at hholds
      cases hholds with
      | calling hwrite => exact hwrite.elim
  | returnWrite hphase =>
      refine h.update rfl fun opReg hcached ↦ Or.inl ⟨hcached, fun hholds ↦ ?_⟩
      rw [hphase] at hholds
      cases hholds with
      | calling hwrite => exact .clearing hwrite
  | returnClear hphase =>
      refine h.update rfl fun opReg hcached ↦ Or.inl ⟨hcached, fun hholds ↦ ?_⟩
      rw [hphase] at hholds
      cases hholds

/-- In every interleaving every entry of the cache belongs to a `Put` or
`Append` in progress.  A clerk has at most one, so there are at most as many
entries as clerks with an operation in progress. -/
theorem cache_held {visited : List (Service Clerk)}
    (hrun : Run step FreshOpReg init visited σ) :
    (∀ opReg, σ.server.opCache opReg ≠ none → ∃ c, σ.InProgress c opReg) ∧
    (∀ c, Set.Subsingleton
      {opReg | σ.server.opCache opReg ≠ none ∧ σ.InProgress c opReg}) ∧
    {opReg | σ.server.opCache opReg ≠ none}.encard ≤
      {c | σ.clerk c ≠ .idle}.encard ∧
    ((∀ c, σ.clerk c = .idle) → ∀ opReg, σ.server.opCache opReg = none) := by
  have hheld : σ.Held := by
    refine hrun.invariant (I := Held) ?_ fun h _ hstep ↦ Held.step h hstep
    intro opReg hcached
    exact absurd rfl hcached
  have howned : ∀ opReg, σ.server.opCache opReg ≠ none →
      ∃ c, σ.InProgress c opReg := by
    intro opReg hcached
    obtain ⟨c, hholds⟩ := hheld opReg hcached
    exact ⟨c, inProgress_of_holds hholds⟩
  have hbusy : ∀ {c opReg}, σ.InProgress c opReg → σ.clerk c ≠ .idle := by
    intro c opReg h hidle
    have hop := h.opReg_eq
    rw [hidle] at hop
    cases hop
  have hone : ∀ {c opReg opReg'}, σ.InProgress c opReg →
      σ.InProgress c opReg' → opReg = opReg' :=
    fun h h' ↦ Option.some.inj (h.opReg_eq.symm.trans h'.opReg_eq)
  refine ⟨howned, fun c opReg h opReg' h' ↦ hone h.2 h'.2, ?_, ?_⟩
  · choose owner howner using howned
    refine Function.Embedding.encard_le
      ⟨fun opReg ↦ ⟨owner opReg.1 opReg.2, hbusy (howner _ opReg.2)⟩, ?_⟩
    intro opReg opReg' heq
    have hclerk : owner opReg.1 opReg.2 = owner opReg'.1 opReg'.2 :=
      congrArg Subtype.val heq
    have hsame := howner _ opReg'.2
    rw [← hclerk] at hsame
    exact Subtype.ext (hone (howner _ opReg.2) hsame)
  · intro hidle opReg
    by_contra hcached
    obtain ⟨c, hprogress⟩ := howned opReg hcached
    exact hbusy hprogress (hidle c)

/-- The reply of an `Append` is lost twice while another clerk's `Put` is being
cleared. -/
def cachingRun : List (Action (Fin 2)) :=
  [.invoke 0 (.append "k" "a") 1, .execute 0, .fail 0,
    .invoke 1 (.put "k" "b") 2, .execute 1, .reply 1, .fail 1, .execute 1,
    .execute 0, .fail 0]

theorem cache_held_retried :
    ∃ σ : Service (Fin 2), σ.server.opCache 1 = some "" ∧
      σ.server.opCache 2 = none ∧ ∃ c, σ.InProgress c 1 := by
  obtain ⟨visited, σ, hrun, hfirst, hsecond⟩ :=
    Run.exists_of_exec step FreshOpReg init cachingRun
      (fun σ : Service (Fin 2) ↦ σ.server.opCache 1 = some "" ∧
        σ.server.opCache 2 = none) (by decide +kernel)
  refine ⟨σ, hfirst, hsecond, (cache_held hrun).1 1 ?_⟩
  rw [hfirst]
  exact Option.some_ne_none _

end Service

end DistLabs.Kvsrv
