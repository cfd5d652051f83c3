import Mathlib.Data.Fintype.Card
import Mathlib.Logic.Relation
import DistLabs.Consensus.LogTree

/-!
# Log replication over durable state

The abstract protocol describes a leader-based replicated log through what
survives a crash: the whole log of every server and its durable term.  Volatile
state does not appear, so a crash is no step at all.  The remaining components
are history: who has led which term, which logs were ever made by appending an
entry, which logs leaders have published, and the votes, vote requests and
acknowledgements given so far.

`Step` lets followers adopt or cut their logs freely.  It already keeps the
logs in a tree, whence log matching, as long as every term has one leader.
-/

namespace DistLabs.Consensus

/-- Durable state of the servers together with the history of the protocol. -/
structure World (S E : Type*) where
  log : S → List E
  term : S → ℕ
  leads : S → ℕ → Prop
  made : List E → Prop
  published : ℕ → List E → Prop
  voted : S → ℕ → S → Prop
  asked : S → ℕ → List E → Prop
  acked : S → ℕ → List E → Prop
  first : ℕ → List E
  latest : ℕ → List E

namespace World

variable {S E : Type*}

/-- Nothing has happened yet. -/
def init : World S E where
  log := fun _ ↦ []
  term := fun _ ↦ 0
  leads := fun _ _ ↦ False
  made := fun L ↦ L = []
  published := fun _ _ ↦ False
  voted := fun _ _ _ ↦ False
  asked := fun _ _ _ ↦ False
  acked := fun _ _ _ ↦ False
  first := fun _ ↦ []
  latest := fun _ ↦ []

/-- Some server has led term `T`. -/
def Led (W : World S E) (T : ℕ) : Prop :=
  ∃ s, W.leads s T

variable [DecidableEq S]

/-- Server `s` makes a higher term durable. -/
def raise (W : World S E) (s : S) (T : ℕ) : World S E :=
  { W with term := Function.update W.term s T }

/-- Server `s` votes for itself in term `T` and asks the others. -/
def campaign (W : World S E) (s : S) (T : ℕ) : World S E :=
  { W with
    term := Function.update W.term s T
    voted := fun g U c ↦ W.voted g U c ∨ (g = s ∧ U = T ∧ c = s)
    asked := fun c U L ↦ W.asked c U L ∨ (c = s ∧ U = T ∧ L = W.log s) }

/-- Server `g` votes for candidate `c` in term `T`. -/
def grant (W : World S E) (g : S) (T : ℕ) (c : S) : World S E :=
  { W with
    term := Function.update W.term g T
    voted := fun g' U c' ↦ W.voted g' U c' ∨ (g' = g ∧ U = T ∧ c' = c) }

/-- Server `s` becomes the leader of term `T`. -/
def win (W : World S E) (s : S) (T : ℕ) : World S E :=
  { W with
    leads := fun t U ↦ W.leads t U ∨ (t = s ∧ U = T)
    first := Function.update W.first T (W.log s)
    latest := Function.update W.latest T (W.log s) }

/-- The leader `s` of term `T` appends an entry and thereby acknowledges its
own new log. -/
def append (W : World S E) (s : S) (T : ℕ) (e : E) : World S E :=
  { W with
    log := Function.update W.log s (W.log s ++ [e])
    term := Function.update W.term s T
    made := fun L ↦ W.made L ∨ L = W.log s ++ [e]
    acked := fun f U A ↦
      W.acked f U A ∨ (f = s ∧ U = T ∧ A = W.log s ++ [e])
    latest := Function.update W.latest T (W.log s ++ [e]) }

/-- A leader of term `T` may send out the log `L` and any part of it. -/
def publish (W : World S E) (T : ℕ) (L : List E) : World S E :=
  { W with published := fun U K ↦ W.published U K ∨ (U = T ∧ K <+: L) }

/-- Server `f` replaces its log by one published in term `T`. -/
def adopt (W : World S E) (f : S) (T : ℕ) (L : List E) : World S E :=
  { W with
    log := Function.update W.log f L
    term := Function.update W.term f T }

/-- Server `f` keeps only the first `k` entries of its log. -/
def cut (W : World S E) (f : S) (T k : ℕ) : World S E :=
  { W with
    log := Function.update W.log f ((W.log f).take k)
    term := Function.update W.term f T }

/-- Server `f` acknowledges the log `L` of term `T`. -/
def ack (W : World S E) (f : S) (T : ℕ) (L : List E) : World S E :=
  { W with acked := fun g U A ↦ W.acked g U A ∨ (g = f ∧ U = T ∧ A = L) }

end World

section Steps

variable {S E : Type*} (τ : E → ℕ)

/-- One step of the protocol, with the guards that log matching needs. -/
inductive Step [DecidableEq S] (W : World S E) : World S E → Prop
  | raise {s : S} {T : ℕ} (hterm : W.term s ≤ T) : Step W (W.raise s T)
  | campaign {s : S} {T : ℕ} (hterm : W.term s < T) :
      Step W (W.campaign s T)
  | grant {g : S} {T : ℕ} {c : S} (hterm : W.term g ≤ T) :
      Step W (W.grant g T c)
  | win {s : S} {T : ℕ} (honly : ∀ t, W.leads t T → t = s) :
      Step W (W.win s T)
  | append {s : S} {T : ℕ} {e : E} (hlead : W.leads s T)
      (hterm : W.term s ≤ T) (hentry : τ e = T) : Step W (W.append s T e)
  | publish {T : ℕ} {L : List E} (hmade : W.made L)
      (hlast : lastTerm τ L ≤ T) : Step W (W.publish T L)
  | adopt {f : S} {T : ℕ} {L : List E} (hpub : W.published T L)
      (hother : ¬ W.leads f T) (hterm : W.term f ≤ T) :
      Step W (W.adopt f T L)
  | cut {f : S} {T k : ℕ} (hother : ¬ W.leads f T)
      (hterm : W.term f ≤ T) : Step W (W.cut f T k)
  | ack {f : S} {T : ℕ} {L : List E} : Step W (W.ack f T L)

/-- What every reachable world satisfies. -/
structure Inv (W : World S E) : Prop where
  tree : LogTree τ W.made
  sorted : ∀ {L}, W.made L → TermSorted τ L
  logMade : ∀ s, W.made (W.log s)
  logBound : ∀ s, lastTerm τ (W.log s) ≤ W.term s
  publishedMade : ∀ {T L}, W.published T L → W.made L ∧ lastTerm τ L ≤ T
  leadsUnique : ∀ {s t T}, W.leads s T → W.leads t T → s = t
  owner : ∀ {K}, W.made K → 0 < K.length →
    ∃ s, W.leads s (lastTerm τ K) ∧ lastTerm τ K ≤ W.term s ∧
      (W.term s = lastTerm τ K → K <+: W.log s)

theorem inv_init : Inv τ (World.init : World S E) where
  tree := logTree_singleton_nil τ
  sorted := by
    intro L hL
    rw [show L = [] from hL]
    exact termSorted_nil τ
  logMade := fun _ ↦ rfl
  logBound := fun _ ↦ Nat.le_refl _
  publishedMade := fun h ↦ h.elim
  leadsUnique := fun h ↦ h.elim
  owner := by
    intro K hK hpos
    rw [show K = [] from hK] at hpos
    exact absurd hpos (by simp)

variable {τ} {W : World S E}

/-- Votes, requests, acknowledgements and the leaders' recorded logs do not
matter for the invariant. -/
theorem Inv.congr {V : World S E} (hinv : Inv τ W) (hlog : V.log = W.log)
    (hterm : V.term = W.term) (hleads : V.leads = W.leads)
    (hmade : V.made = W.made) (hpub : V.published = W.published) :
    Inv τ V where
  tree := by rw [hmade]; exact hinv.tree
  sorted := by rw [hmade]; exact hinv.sorted
  logMade := by rw [hmade, hlog]; exact hinv.logMade
  logBound := by rw [hlog, hterm]; exact hinv.logBound
  publishedMade := by rw [hpub, hmade]; exact hinv.publishedMade
  leadsUnique := by rw [hleads]; exact hinv.leadsUnique
  owner := by rw [hmade, hleads, hterm, hlog]; exact hinv.owner

theorem Inv.win (hinv : Inv τ W) {s : S} {T : ℕ}
    (honly : ∀ t, W.leads t T → t = s) : Inv τ (W.win s T) where
  tree := hinv.tree
  sorted := hinv.sorted
  logMade := hinv.logMade
  logBound := hinv.logBound
  publishedMade := hinv.publishedMade
  leadsUnique := by
    rintro t u U (ht | ⟨rfl, rfl⟩) (hu | ⟨rfl, hU⟩)
    · exact hinv.leadsUnique ht hu
    · subst hU
      exact honly t ht
    · exact (honly u hu).symm
    · rfl
  owner := by
    intro K hK hpos
    obtain ⟨t, hleads, hrest⟩ := hinv.owner hK hpos
    exact ⟨t, Or.inl hleads, hrest⟩

/-- The leader of a term holds every log made in that term. -/
theorem Inv.leader_prefix_log (hinv : Inv τ W) {s : S} {T : ℕ}
    (hlead : W.leads s T) (hterm : W.term s ≤ T)
    {K : List E} (hK : W.made K) (hpos : 0 < K.length)
    (hlast : lastTerm τ K = T) : K <+: W.log s := by
  obtain ⟨t, hleads, hle, hpre⟩ := hinv.owner hK hpos
  rw [hlast] at hleads hle hpre
  obtain rfl := hinv.leadsUnique hleads hlead
  exact hpre (le_antisymm hterm hle)

theorem Inv.publish (hinv : Inv τ W) {T : ℕ} {L : List E}
    (hmade : W.made L) (hlast : lastTerm τ L ≤ T) :
    Inv τ (W.publish T L) where
  tree := hinv.tree
  sorted := hinv.sorted
  logMade := hinv.logMade
  logBound := hinv.logBound
  publishedMade := by
    rintro U K (hK | ⟨rfl, hKL⟩)
    · exact hinv.publishedMade hK
    · exact ⟨hinv.tree.closed hmade hKL,
        ((hinv.sorted hmade).lastTerm_le τ hKL).trans hlast⟩
  leadsUnique := hinv.leadsUnique
  owner := hinv.owner

/-- Log matching for the servers' logs in every world that satisfies the
invariant. -/
theorem Inv.log_take_eq (hinv : Inv τ W) {s t : S} {i : ℕ}
    (his : i ≤ (W.log s).length) (hit : i ≤ (W.log t).length)
    (hterm : termAt τ (W.log s) i = termAt τ (W.log t) i) :
    (W.log s).take i = (W.log t).take i :=
  hinv.tree.matching (hinv.logMade s) (hinv.logMade t) his hit hterm

/-- A server whose log carries the term of a published log at some position
agrees with it up to there. -/
theorem Inv.published_matching (hinv : Inv τ W) {s : S} {T i : ℕ}
    {L : List E} (hpub : W.published T L) (his : i ≤ (W.log s).length)
    (hiL : i ≤ L.length)
    (hterm : termAt τ (W.log s) i = termAt τ L i) :
    (W.log s).take i = L.take i :=
  hinv.tree.matching (hinv.logMade s) (hinv.publishedMade hpub).1 his hiL
    hterm

variable [DecidableEq S]

/-- Changing one server's log and raising its term keeps the owner of every
made log, provided the server's own leaderships are not disturbed. -/
theorem Inv.owner_update (hinv : Inv τ W) {f : S} {T : ℕ} {L : List E}
    (hterm : W.term f ≤ T)
    (hkeep : W.leads f T → W.term f = T → W.log f <+: L)
    {K : List E} (hK : W.made K) (hpos : 0 < K.length) :
    ∃ s, W.leads s (lastTerm τ K) ∧
      lastTerm τ K ≤ Function.update W.term f T s ∧
      (Function.update W.term f T s = lastTerm τ K →
        K <+: Function.update W.log f L s) := by
  obtain ⟨s, hleads, hle, hpre⟩ := hinv.owner hK hpos
  refine ⟨s, hleads, ?_⟩
  by_cases hsf : s = f
  · subst hsf
    simp only [Function.update_self]
    refine ⟨hle.trans hterm, ?_⟩
    intro hT
    have hold : W.term s = T := le_antisymm hterm (hT ▸ hle)
    have hlead : W.leads s T := by rwa [hT]
    exact (hpre (hold.trans hT)).trans (hkeep hlead hold)
  · rw [Function.update_of_ne hsf, Function.update_of_ne hsf]
    exact ⟨hle, hpre⟩

theorem Inv.raise (hinv : Inv τ W) {s : S} {T : ℕ} (hterm : W.term s ≤ T) :
    Inv τ (W.raise s T) where
  tree := hinv.tree
  sorted := hinv.sorted
  logMade := hinv.logMade
  logBound := by
    intro t
    by_cases hts : t = s
    · subst hts
      simpa [World.raise] using (hinv.logBound t).trans hterm
    · simpa [World.raise, Function.update_of_ne hts] using hinv.logBound t
  publishedMade := hinv.publishedMade
  leadsUnique := hinv.leadsUnique
  owner := by
    intro K hK hpos
    have hsame : Function.update W.log s (W.log s) = W.log :=
      Function.update_eq_self s W.log
    have h := hinv.owner_update (L := W.log s) hterm
      (fun _ _ ↦ List.prefix_rfl) hK hpos
    rw [hsame] at h
    exact h

theorem Inv.campaign (hinv : Inv τ W) {s : S} {T : ℕ} (hterm : W.term s < T) :
    Inv τ (W.campaign s T) :=
  (hinv.raise hterm.le).congr rfl rfl rfl rfl rfl

theorem Inv.grant (hinv : Inv τ W) {g : S} {T : ℕ} {c : S}
    (hterm : W.term g ≤ T) : Inv τ (W.grant g T c) :=
  (hinv.raise hterm).congr rfl rfl rfl rfl rfl

omit [DecidableEq S] in
theorem Inv.ack (hinv : Inv τ W) {f : S} {T : ℕ} {L : List E} :
    Inv τ (W.ack f T L) :=
  hinv.congr rfl rfl rfl rfl rfl

theorem Inv.append (hinv : Inv τ W) {s : S} {T : ℕ} {e : E}
    (hlead : W.leads s T) (hterm : W.term s ≤ T) (hentry : τ e = T) :
    Inv τ (W.append s T e) where
  tree := by
    refine hinv.tree.insert (hinv.logMade s) ?_
    intro K hK hlen hlast
    have hpre := hinv.leader_prefix_log hlead hterm hK (by omega)
      (hlast.trans hentry)
    have := hpre.length_le
    omega
  sorted := by
    rintro L (hL | rfl)
    · exact hinv.sorted hL
    · exact (hinv.sorted (hinv.logMade s)).append_singleton τ
        (((hinv.logBound s).trans hterm).trans hentry.ge)
  logMade := by
    intro t
    by_cases hts : t = s
    · subst hts
      exact Or.inr (by simp [World.append])
    · exact Or.inl (by
        simpa [World.append, Function.update_of_ne hts] using hinv.logMade t)
  logBound := by
    intro t
    by_cases hts : t = s
    · subst hts
      simp [World.append, hentry]
    · simpa [World.append, Function.update_of_ne hts] using hinv.logBound t
  publishedMade := fun h ↦ ⟨Or.inl (hinv.publishedMade h).1,
    (hinv.publishedMade h).2⟩
  leadsUnique := hinv.leadsUnique
  owner := by
    rintro K (hK | rfl) hpos
    · exact hinv.owner_update hterm
        (fun _ _ ↦ List.prefix_append _ _) hK hpos
    · refine ⟨s, ?_, ?_, ?_⟩
      · simpa [World.append, hentry] using hlead
      · simp [World.append, hentry]
      · intro _
        simp [World.append]

/-- A server that does not lead the term may take over any made log. -/
theorem Inv.replace (hinv : Inv τ W) {f : S} {T : ℕ} {L : List E}
    (hmade : W.made L) (hlast : lastTerm τ L ≤ T)
    (hother : ¬ W.leads f T) (hterm : W.term f ≤ T) :
    Inv τ (W.adopt f T L) where
  tree := hinv.tree
  sorted := hinv.sorted
  logMade := by
    intro t
    by_cases htf : t = f
    · subst htf
      simpa [World.adopt] using hmade
    · simpa [World.adopt, Function.update_of_ne htf] using hinv.logMade t
  logBound := by
    intro t
    by_cases htf : t = f
    · subst htf
      simpa [World.adopt] using hlast
    · simpa [World.adopt, Function.update_of_ne htf] using hinv.logBound t
  publishedMade := hinv.publishedMade
  leadsUnique := hinv.leadsUnique
  owner := fun hK hpos ↦ hinv.owner_update hterm
    (fun hlead _ ↦ absurd hlead hother) hK hpos

theorem Inv.adopt (hinv : Inv τ W) {f : S} {T : ℕ} {L : List E}
    (hpub : W.published T L) (hother : ¬ W.leads f T)
    (hterm : W.term f ≤ T) : Inv τ (W.adopt f T L) :=
  hinv.replace (hinv.publishedMade hpub).1 (hinv.publishedMade hpub).2
    hother hterm

theorem Inv.cut (hinv : Inv τ W) {f : S} {T k : ℕ}
    (hother : ¬ W.leads f T) (hterm : W.term f ≤ T) :
    Inv τ (W.cut f T k) := by
  have hpre : (W.log f).take k <+: W.log f := List.take_prefix _ _
  have hlast : lastTerm τ ((W.log f).take k) ≤ T :=
    (((hinv.sorted (hinv.logMade f)).lastTerm_le τ hpre).trans
      (hinv.logBound f)).trans hterm
  exact hinv.replace (hinv.tree.closed (hinv.logMade f) hpre) hlast
    hother hterm

theorem Inv.step {W' : World S E} (hinv : Inv τ W) (hstep : Step τ W W') :
    Inv τ W' := by
  cases hstep with
  | raise hterm => exact hinv.raise hterm
  | campaign hterm => exact hinv.campaign hterm
  | grant hterm => exact hinv.grant hterm
  | win honly => exact hinv.win honly
  | append hlead hterm hentry => exact hinv.append hlead hterm hentry
  | publish hmade hlast => exact hinv.publish hmade hlast
  | adopt hpub hother hterm => exact hinv.adopt hpub hother hterm
  | cut hother hterm => exact hinv.cut hother hterm
  | ack => exact hinv.ack

end Steps

end DistLabs.Consensus
