import DistLabs.Consensus.Protocol

/-!
# Leader completeness and agreement

`SafeStep` adds the guards a consensus protocol needs on top of log matching:
votes go to candidates whose logs are recent enough, a leader is backed by a
majority, a follower never gives up entries that agree with its leader, and
only published logs that are held are acknowledged.

The invariant follows each acknowledged log.  A server either still holds it,
or some later leader started without it.  Votes pass this alternative on to
the candidate, so by strong induction on terms no later leader can start
without a log that a majority has acknowledged.
-/

namespace DistLabs.Consensus

/-- More than half of all servers. -/
def Majority {S : Type*} [Fintype S] (Q : Finset S) : Prop :=
  Fintype.card S / 2 < Q.card

theorem Majority.exists_mem_both {S : Type*} [Fintype S] [DecidableEq S]
    {Q R : Finset S} (hQ : Majority Q) (hR : Majority R) :
    ∃ g, g ∈ Q ∧ g ∈ R := by
  by_contra hnone
  have hdisjoint : Disjoint Q R := by
    rw [Finset.disjoint_left]
    intro g hgQ hgR
    exact hnone ⟨g, hgQ, hgR⟩
  have hunion := Finset.card_union_of_disjoint hdisjoint
  have hcard := Finset.card_le_univ (Q ∪ R)
  unfold Majority at hQ hR
  omega

variable {S E : Type*} (τ : E → ℕ)

/-- Server `f` has acknowledged `P`, whose last entry is of term `T`, to the
leader of that term. -/
def AckedIn (W : World S E) (f : S) (T : ℕ) (P : List E) : Prop :=
  lastTerm τ P = T ∧ ∃ A, W.acked f T A ∧ P <+: A

/-- The leader of term `U` started without `P`. -/
def Lacks (W : World S E) (P : List E) (U : ℕ) : Prop :=
  W.Led U ∧ ¬ P <+: W.first U

/-- `P` is contained in `L`, or it was lacking in some term strictly between
`lo` and `hi`. -/
def Carried (W : World S E) (P L : List E) (lo hi : ℕ) : Prop :=
  P <+: L ∨ ∃ U, lo < U ∧ U < hi ∧ Lacks W P U

/-- The steps of a careful execution. -/
inductive SafeStep [DecidableEq S] [Fintype S] (W : World S E) :
    World S E → Prop
  | raise {s : S} {T : ℕ} (hterm : W.term s ≤ T) : SafeStep W (W.raise s T)
  | campaign {s : S} {T : ℕ} (hterm : W.term s < T) :
      SafeStep W (W.campaign s T)
  | grant {g : S} {T : ℕ} {c : S} {L : List E} (hterm : W.term g ≤ T)
      (hasked : W.asked c T L) (hrecent : UpToDate τ L (W.log g)) :
      SafeStep W (W.grant g T c)
  | win {s : S} {T : ℕ} {Q : Finset S} (hfresh : ¬ W.Led T)
      (hterm : W.term s = T) (hmajority : Majority Q)
      (hvotes : ∀ g ∈ Q, W.voted g T s) : SafeStep W (W.win s T)
  | append {s : S} {T : ℕ} {e : E} (hlead : W.leads s T)
      (hterm : W.term s = T) (hentry : τ e = T) :
      SafeStep W (W.append s T e)
  | publish {s : S} {T : ℕ} {L : List E} (hlead : W.leads s T)
      (hterm : W.term s = T) (hpre : L <+: W.log s) :
      SafeStep W (W.publish T L)
  | adopt {f : S} {T : ℕ} {L : List E} (hpub : W.published T L)
      (hother : ¬ W.leads f T) (hterm : W.term f ≤ T)
      (hnew : ¬ L <+: W.log f) : SafeStep W (W.adopt f T L)
  | cut {f : S} {T k i : ℕ} {L : List E} (hother : ¬ W.leads f T)
      (hterm : W.term f ≤ T) (hpub : W.published T L) (hik : i ≤ k)
      (hiL : i < L.length) (hif : i < (W.log f).length)
      (hconflict : termAt τ L (i + 1) ≠ termAt τ (W.log f) (i + 1)) :
      SafeStep W (W.cut f T k)
  | ack {f : S} {T : ℕ} {L : List E} (hpub : W.published T L)
      (hpre : L <+: W.log f) (hterm : W.term f ≤ T) :
      SafeStep W (W.ack f T L)

variable [Fintype S]

/-- The invariant of careful executions. -/
structure SafeInv (W : World S E) : Prop where
  base : Inv τ W
  leader : ∀ {s T}, W.leads s T →
    T ≤ W.term s ∧ (W.term s = T → W.log s = W.latest T)
  firstPrefix : ∀ {T}, W.Led T → W.first T <+: W.latest T
  latestMade : ∀ {T}, W.Led T → W.made (W.latest T)
  publishedLatest : ∀ {T L}, W.published T L →
    W.Led T ∧ L <+: W.latest T
  ackedLatest : ∀ {f T A}, W.acked f T A → W.Led T ∧ A <+: W.latest T
  madeLatest : ∀ {K}, W.made K → 0 < K.length →
    K <+: W.latest (lastTerm τ K) ∧ W.first (lastTerm τ K) <+: K
  ownAcked : ∀ {K}, W.made K → 0 < K.length →
    ∃ s A, W.leads s (lastTerm τ K) ∧ W.acked s (lastTerm τ K) A ∧ K <+: A
  ackedTerm : ∀ {f T P}, AckedIn τ W f T P → T ≤ W.term f
  retained : ∀ {f T P}, AckedIn τ W f T P →
    Carried W P (W.log f) T (W.term f + 1)
  askedTerm : ∀ {c T L}, W.asked c T L → T ≤ W.term c
  askedUnique : ∀ {c T K L}, W.asked c T K → W.asked c T L → K = L
  askedLog : ∀ {c T L}, W.asked c T L → W.made L ∧ lastTerm τ L < T
  askedStable : ∀ {c T L}, W.asked c T L → ¬ W.Led T → W.term c = T →
    W.log c = L
  votedTerm : ∀ {g T c}, W.voted g T c → T ≤ W.term g
  votedAsked : ∀ {g T c}, W.voted g T c → ∃ L, W.asked c T L
  votedCarries : ∀ {g T c L U P}, W.voted g T c → ¬ W.Led T →
    W.asked c T L → AckedIn τ W g U P → U < T → Carried W P L U T
  elected : ∀ {T}, W.Led T → ∃ Q : Finset S, Majority Q ∧
    ∀ g ∈ Q, T ≤ W.term g ∧
      ∀ {U P}, AckedIn τ W g U P → U < T → Carried W P (W.first T) U T

theorem safeInv_init : SafeInv τ (World.init : World S E) where
  base := inv_init τ
  leader := fun h ↦ h.elim
  firstPrefix := fun ⟨_, h⟩ ↦ h.elim
  latestMade := fun ⟨_, h⟩ ↦ h.elim
  publishedLatest := fun h ↦ h.elim
  ackedLatest := fun h ↦ h.elim
  madeLatest := by
    intro K hK hpos
    rw [show K = [] from hK] at hpos
    exact absurd hpos (by simp)
  ownAcked := by
    intro K hK hpos
    rw [show K = [] from hK] at hpos
    exact absurd hpos (by simp)
  ackedTerm := fun ⟨_, _, h, _⟩ ↦ h.elim
  retained := fun ⟨_, _, h, _⟩ ↦ h.elim
  askedTerm := fun h ↦ h.elim
  askedUnique := fun h ↦ h.elim
  askedLog := fun h ↦ h.elim
  askedStable := fun h ↦ h.elim
  votedTerm := fun h ↦ h.elim
  votedAsked := fun h ↦ h.elim
  votedCarries := fun h ↦ h.elim
  elected := fun ⟨_, h⟩ ↦ h.elim

variable {τ} {W : World S E}

omit [Fintype S] in
theorem Carried.mono_hi {P L : List E} {lo hi hi' : ℕ}
    (h : Carried W P L lo hi) (hle : hi ≤ hi') : Carried W P L lo hi' := by
  rcases h with hpre | ⟨U, hlo, hhi, hlacks⟩
  · exact Or.inl hpre
  · exact Or.inr ⟨U, hlo, hhi.trans_le hle, hlacks⟩

omit [Fintype S] in
theorem Carried.mono_log {P L M : List E} {lo hi : ℕ}
    (h : Carried W P L lo hi) (hLM : L <+: M) : Carried W P M lo hi := by
  rcases h with hpre | hlacks
  · exact Or.inl (hpre.trans hLM)
  · exact Or.inr hlacks

/-! ## What the invariant says about one term -/

namespace SafeInv

theorem led_lastTerm (hinv : SafeInv τ W) {K : List E} (hK : W.made K)
    (hpos : 0 < K.length) : W.Led (lastTerm τ K) := by
  obtain ⟨s, hs, _⟩ := hinv.base.owner hK hpos
  exact ⟨s, hs⟩

/-- Two logs made in one term are comparable. -/
theorem prefix_of_lastTerm_eq (hinv : SafeInv τ W) {K L : List E}
    (hK : W.made K) (hL : W.made L) (hpos : 0 < K.length)
    (hlen : K.length ≤ L.length) (hterm : lastTerm τ K = lastTerm τ L) :
    K <+: L := by
  have hKlatest := (hinv.madeLatest hK hpos).1
  have hLlatest := (hinv.madeLatest hL (hpos.trans_le hlen)).1
  rw [hterm] at hKlatest
  exact List.prefix_of_prefix_length_le hKlatest hLlatest hlen

/-- A log at least as recent as one that contains `P` contains it too, unless
the leader of its last term started without `P`. -/
theorem upToDate_carried (hinv : SafeInv τ W) {P L M : List E}
    (hL : W.made L) (hM : W.made M) (hPM : P <+: M)
    (hrecent : UpToDate τ L M) {T : ℕ} (hlast : lastTerm τ L < T) :
    Carried W P L (lastTerm τ P) T := by
  have hPle : lastTerm τ P ≤ lastTerm τ M :=
    (hinv.base.sorted hM).lastTerm_le τ hPM
  by_cases hempty : P.length = 0
  · rw [List.length_eq_zero_iff] at hempty
    rw [hempty]
    exact Or.inl List.nil_prefix
  by_cases hlater : lastTerm τ P < lastTerm τ L
  · have hLpos : 0 < L.length := by
      rcases Nat.eq_zero_or_pos L.length with hzero | hpos
      · rw [List.length_eq_zero_iff] at hzero
        simp [hzero] at hlater
      · exact hpos
    have hfirst := (hinv.madeLatest hL hLpos).2
    by_cases hP : P <+: W.first (lastTerm τ L)
    · exact Or.inl (hP.trans hfirst)
    · exact Or.inr ⟨lastTerm τ L, hlater, hlast,
        hinv.led_lastTerm hL hLpos, hP⟩
  · rcases hrecent with hlt | ⟨hterm, hlen⟩
    · omega
    · have hMpos : 0 < M.length := by
        have := hPM.length_le
        omega
      exact Or.inl (hPM.trans
        (hinv.prefix_of_lastTerm_eq hM hL hMpos hlen hterm.symm))

/-- A prefix that the follower shares with the leader of the term survives
adopting a published log that is not already held. -/
theorem prefix_adopt (hinv : SafeInv τ W) {T : ℕ} {P M L : List E}
    (hPM : P <+: M) (hP : P <+: W.latest T) (hpub : W.published T L)
    (hnew : ¬ L <+: M) : P <+: L := by
  have hL := (hinv.publishedLatest hpub).2
  rcases Nat.le_total P.length L.length with hle | hle
  · exact List.prefix_of_prefix_length_le hP hL hle
  · exact absurd ((List.prefix_of_prefix_length_le hL hP hle).trans hPM) hnew

/-- A prefix that the follower shares with the leader of the term ends before
the first position at which a published log conflicts. -/
theorem prefix_cut (hinv : SafeInv τ W) {T i k : ℕ} {P M L : List E}
    (hPM : P <+: M) (hP : P <+: W.latest T) (hpub : W.published T L)
    (hik : i ≤ k) (hiL : i < L.length)
    (hconflict : termAt τ L (i + 1) ≠ termAt τ M (i + 1)) :
    P <+: M.take k := by
  have hL := (hinv.publishedLatest hpub).2
  have hPi : P.length ≤ i := by
    by_contra hnot
    apply hconflict
    rw [termAt_prefix_eq τ hL hiL, ← termAt_prefix_eq τ hPM (by omega),
      termAt_prefix_eq τ hP (by omega)]
  exact List.prefix_of_prefix_length_le hPM (List.take_prefix k M) (by
    rw [List.length_take]
    have := hPM.length_le
    omega)

/-- What the leader of a term was given to start with, or has been
acknowledged in that term, it holds. -/
theorem prefix_latest (hinv : SafeInv τ W) {f : S} {T U : ℕ} {P : List E}
    (hack : AckedIn τ W f T P) (hTU : T ≤ U) (hled : W.Led U)
    (hhas : T < U → P <+: W.first U) : P <+: W.latest U := by
  rcases hTU.lt_or_eq with hlt | rfl
  · exact (hhas hlt).trans (hinv.firstPrefix hled)
  · obtain ⟨_, A, hA, hPA⟩ := hack
    exact hPA.trans (hinv.ackedLatest hA).2

end SafeInv

/-! ## Preservation -/

section Preservation

variable [DecidableEq S]

omit [Fintype S] in
theorem term_le_update {s : S} {T : ℕ} (hterm : W.term s ≤ T) (t : S) :
    W.term t ≤ Function.update W.term s T t := by
  by_cases hts : t = s
  · subst hts
    simpa using hterm
  · rw [Function.update_of_ne hts]

theorem SafeInv.raise (hinv : SafeInv τ W) {s : S} {T : ℕ}
    (hterm : W.term s ≤ T) : SafeInv τ (W.raise s T) := by
  have hmono : ∀ t, W.term t ≤ (W.raise s T).term t := term_le_update hterm
  have hback : ∀ {t U}, U ≤ W.term t → (W.raise s T).term t = U →
      W.term t = U := by
    intro t U hle heq
    exact le_antisymm ((hmono t).trans heq.le) hle
  exact
    { base := hinv.base.raise hterm
      leader := fun h ↦ ⟨(hinv.leader h).1.trans (hmono _),
        fun heq ↦ (hinv.leader h).2 (hback (hinv.leader h).1 heq)⟩
      firstPrefix := hinv.firstPrefix
      latestMade := hinv.latestMade
      publishedLatest := hinv.publishedLatest
      ackedLatest := hinv.ackedLatest
      madeLatest := hinv.madeLatest
      ownAcked := hinv.ownAcked
      ackedTerm := fun h ↦ (hinv.ackedTerm h).trans (hmono _)
      retained := fun h ↦ (hinv.retained h).mono_hi
        (Nat.succ_le_succ (hmono _))
      askedTerm := fun h ↦ (hinv.askedTerm h).trans (hmono _)
      askedUnique := hinv.askedUnique
      askedLog := hinv.askedLog
      askedStable := fun h hled heq ↦
        hinv.askedStable h hled (hback (hinv.askedTerm h) heq)
      votedTerm := fun h ↦ (hinv.votedTerm h).trans (hmono _)
      votedAsked := hinv.votedAsked
      votedCarries := hinv.votedCarries
      elected := by
        intro U hU
        obtain ⟨Q, hQ, hall⟩ := hinv.elected hU
        exact ⟨Q, hQ, fun g hg ↦
          ⟨(hall g hg).1.trans (hmono g), (hall g hg).2⟩⟩ }

theorem SafeInv.campaign (hinv : SafeInv τ W) {s : S} {T : ℕ}
    (hterm : W.term s < T) : SafeInv τ (W.campaign s T) := by
  have hraised := hinv.raise hterm.le
  have hnone : ∀ L, ¬ W.asked s T L := by
    intro L hL
    exact absurd (hinv.askedTerm hL) (Nat.not_le.mpr hterm)
  have hself : (W.raise s T).term s = T := by simp [World.raise]
  exact
    { hraised with
      base := hinv.base.campaign hterm
      askedTerm := by
        rintro c U L (hL | ⟨rfl, rfl, -⟩)
        · exact hraised.askedTerm hL
        · exact hself.ge
      askedUnique := by
        rintro c U K L (hK | ⟨rfl, rfl, rfl⟩) (hL | ⟨hc, hU, hlog⟩)
        · exact hinv.askedUnique hK hL
        · subst hc
          subst hU
          exact absurd hK (hnone K)
        · exact absurd hL (hnone L)
        · exact hlog.symm
      askedLog := by
        rintro c U L (hL | ⟨rfl, rfl, rfl⟩)
        · exact hinv.askedLog hL
        · exact ⟨hinv.base.logMade c, (hinv.base.logBound c).trans_lt hterm⟩
      askedStable := by
        rintro c U L (hL | ⟨rfl, rfl, rfl⟩) hled heq
        · exact hraised.askedStable hL hled heq
        · rfl
      votedTerm := by
        rintro g U c (hv | ⟨rfl, rfl, -⟩)
        · exact hraised.votedTerm hv
        · exact hself.ge
      votedAsked := by
        rintro g U c (hv | ⟨rfl, rfl, rfl⟩)
        · obtain ⟨L, hL⟩ := hinv.votedAsked hv
          exact ⟨L, Or.inl hL⟩
        · exact ⟨W.log c, Or.inr ⟨rfl, rfl, rfl⟩⟩
      votedCarries := by
        rintro g U c L V P hv hled hasked hack hVU
        rcases hv with hv | ⟨rfl, rfl, rfl⟩
        · rcases hasked with hL | ⟨rfl, rfl, rfl⟩
          · exact hinv.votedCarries hv hled hL hack hVU
          · obtain ⟨K, hK⟩ := hinv.votedAsked hv
            exact absurd hK (hnone K)
        · rcases hasked with hL | ⟨-, -, rfl⟩
          · exact absurd hL (hnone L)
          · exact (hinv.retained hack).mono_hi hterm }

theorem SafeInv.grant (hinv : SafeInv τ W) {g : S} {T : ℕ} {c : S}
    {L : List E} (hterm : W.term g ≤ T) (hasked : W.asked c T L)
    (hrecent : UpToDate τ L (W.log g)) : SafeInv τ (W.grant g T c) := by
  have hraised := hinv.raise hterm
  exact
    { hraised with
      base := hinv.base.grant hterm
      votedTerm := by
        rintro g' U c' (hv | ⟨rfl, rfl, -⟩)
        · exact hraised.votedTerm hv
        · exact (show (W.raise g' U).term g' = U by simp [World.raise]).ge
      votedAsked := by
        rintro g' U c' (hv | ⟨-, rfl, rfl⟩)
        · exact hinv.votedAsked hv
        · exact ⟨L, hasked⟩
      votedCarries := by
        rintro g' U c' K V P (hv | ⟨rfl, rfl, rfl⟩) hled hK hack hVU
        · exact hinv.votedCarries hv hled hK hack hVU
        · obtain rfl := hinv.askedUnique hasked hK
          obtain ⟨hmade, hlast⟩ := hinv.askedLog hasked
          rcases hinv.retained hack with hpre | ⟨X, hVX, hXg, hlacks⟩
          · have hcarried := hinv.upToDate_carried hmade
              (hinv.base.logMade g') hpre hrecent hlast
            rwa [hack.1] at hcarried
          · have hXne : X ≠ U := by
              rintro rfl
              exact hled hlacks.1
            exact Or.inr ⟨X, hVX, by omega, hlacks⟩ }

omit [Fintype S] [DecidableEq S] in
/-- Electing a leader in a fresh term takes nothing away from what was lacking
before. -/
theorem Lacks.win {s : S} {T : ℕ} (hfresh : ¬ W.Led T) {P : List E} {U : ℕ}
    (h : Lacks W P U) : Lacks (W.win s T) P U := by
  obtain ⟨⟨t, ht⟩, hnot⟩ := h
  have hUT : U ≠ T := by
    rintro rfl
    exact hfresh ⟨t, ht⟩
  refine ⟨⟨t, Or.inl ht⟩, ?_⟩
  simpa [World.win, Function.update_of_ne hUT] using hnot

omit [Fintype S] [DecidableEq S] in
theorem Carried.win {s : S} {T : ℕ} (hfresh : ¬ W.Led T) {P L : List E}
    {lo hi : ℕ} (h : Carried W P L lo hi) :
    Carried (W.win s T) P L lo hi := by
  rcases h with hpre | ⟨U, hlo, hhi, hlacks⟩
  · exact Or.inl hpre
  · exact Or.inr ⟨U, hlo, hhi, hlacks.win hfresh⟩

omit [DecidableEq S] in
theorem SafeInv.win (hinv : SafeInv τ W) {s : S} {T : ℕ} {Q : Finset S}
    (hfresh : ¬ W.Led T) (hterm : W.term s = T) (hmajority : Majority Q)
    (hvotes : ∀ g ∈ Q, W.voted g T s) : SafeInv τ (W.win s T) := by
  have hfirst : ∀ {U}, W.Led U → (W.win s T).first U = W.first U := by
    intro U hU
    have hUT : U ≠ T := fun h ↦ hfresh (h ▸ hU)
    simp [World.win, Function.update_of_ne hUT]
  have hlatest : ∀ {U}, W.Led U → (W.win s T).latest U = W.latest U := by
    intro U hU
    have hUT : U ≠ T := fun h ↦ hfresh (h ▸ hU)
    simp [World.win, Function.update_of_ne hUT]
  have hnewFirst : (W.win s T).first T = W.log s := by simp [World.win]
  have hnewLatest : (W.win s T).latest T = W.log s := by simp [World.win]
  have hold : ∀ {U}, ¬ (W.win s T).Led U → ¬ W.Led U :=
    fun h ⟨t, ht⟩ ↦ h ⟨t, Or.inl ht⟩
  exact
    { base := hinv.base.win fun t ht ↦ absurd ⟨t, ht⟩ hfresh
      leader := by
        rintro t U (ht | ⟨rfl, rfl⟩)
        · rw [hlatest ⟨t, ht⟩]
          exact hinv.leader ht
        · exact ⟨hterm.ge, fun _ ↦ hnewLatest.symm⟩
      firstPrefix := by
        rintro U ⟨t, ht | ⟨rfl, rfl⟩⟩
        · rw [hfirst ⟨t, ht⟩, hlatest ⟨t, ht⟩]
          exact hinv.firstPrefix ⟨t, ht⟩
        · rw [hnewFirst, hnewLatest]
      latestMade := by
        rintro U ⟨t, ht | ⟨rfl, rfl⟩⟩
        · rw [hlatest ⟨t, ht⟩]
          exact hinv.latestMade ⟨t, ht⟩
        · rw [hnewLatest]
          exact hinv.base.logMade t
      publishedLatest := by
        intro U L hL
        obtain ⟨⟨t, ht⟩, hpre⟩ := hinv.publishedLatest hL
        exact ⟨⟨t, Or.inl ht⟩, by rwa [hlatest ⟨t, ht⟩]⟩
      ackedLatest := by
        intro f U A hA
        obtain ⟨⟨t, ht⟩, hpre⟩ := hinv.ackedLatest hA
        exact ⟨⟨t, Or.inl ht⟩, by rwa [hlatest ⟨t, ht⟩]⟩
      madeLatest := by
        intro K hK hpos
        have hled := hinv.led_lastTerm hK hpos
        rw [hlatest hled, hfirst hled]
        exact hinv.madeLatest hK hpos
      ownAcked := by
        intro K hK hpos
        obtain ⟨t, A, ht, hA⟩ := hinv.ownAcked hK hpos
        exact ⟨t, A, Or.inl ht, hA⟩
      ackedTerm := hinv.ackedTerm
      retained := fun h ↦ (hinv.retained h).win hfresh
      askedTerm := hinv.askedTerm
      askedUnique := hinv.askedUnique
      askedLog := hinv.askedLog
      askedStable := fun h hled ↦ hinv.askedStable h (hold hled)
      votedTerm := hinv.votedTerm
      votedAsked := hinv.votedAsked
      votedCarries := fun hv hled hL hack hUT ↦
        (hinv.votedCarries hv (hold hled) hL hack hUT).win hfresh
      elected := by
        rintro U ⟨t, ht | ⟨rfl, rfl⟩⟩
        · obtain ⟨R, hR, hall⟩ := hinv.elected ⟨t, ht⟩
          refine ⟨R, hR, fun g hg ↦ ⟨(hall g hg).1, ?_⟩⟩
          intro V P hack hVU
          rw [hfirst ⟨t, ht⟩]
          exact ((hall g hg).2 hack hVU).win hfresh
        · refine ⟨Q, hmajority, fun g hg ↦
            ⟨hinv.votedTerm (hvotes g hg), ?_⟩⟩
          intro V P hack hVU
          obtain ⟨L, hL⟩ := hinv.votedAsked (hvotes g hg)
          rw [hnewFirst, hinv.askedStable hL hfresh hterm]
          exact (hinv.votedCarries (hvotes g hg) hfresh hL hack hVU).win
            hfresh }

omit [Fintype S] in
theorem append_log_self (s : S) (T : ℕ) (e : E) :
    (W.append s T e).log s = W.log s ++ [e] := by
  simp [World.append]

omit [Fintype S] in
theorem append_latest_self (s : S) (T : ℕ) (e : E) :
    (W.append s T e).latest T = W.log s ++ [e] := by
  simp [World.append]

omit [Fintype S] in
theorem log_prefix_append (s : S) (T : ℕ) (e : E) (t : S) :
    W.log t <+: (W.append s T e).log t := by
  by_cases hts : t = s
  · subst hts
    rw [append_log_self]
    exact List.prefix_append _ _
  · simp [World.append, Function.update_of_ne hts]

omit [Fintype S] in
theorem latest_prefix_append {s : S} {T : ℕ} (e : E)
    (hlog : W.log s = W.latest T) (U : ℕ) :
    W.latest U <+: (W.append s T e).latest U := by
  by_cases hUT : U = T
  · subst hUT
    rw [append_latest_self, hlog]
    exact List.prefix_append _ _
  · simp [World.append, Function.update_of_ne hUT]

omit [Fintype S] in
/-- What was acknowledged after an append was so before, or is the leader's
own. -/
theorem ackedIn_append {s f : S} {T U : ℕ} {e : E} {P : List E}
    (h : AckedIn τ (W.append s T e) f U P) :
    AckedIn τ W f U P ∨ (f = s ∧ U = T ∧ P <+: W.log s ++ [e]) := by
  obtain ⟨hlast, A, hA | ⟨rfl, rfl, rfl⟩, hPA⟩ := h
  · exact Or.inl ⟨hlast, A, hA, hPA⟩
  · exact Or.inr ⟨rfl, rfl, hPA⟩

theorem SafeInv.append (hinv : SafeInv τ W) {s : S} {T : ℕ} {e : E}
    (hlead : W.leads s T) (hterm : W.term s = T) (hentry : τ e = T) :
    SafeInv τ (W.append s T e) := by
  have hlog : W.log s = W.latest T := (hinv.leader hlead).2 hterm
  have hsame : (W.append s T e).term = W.term := by
    simp [World.append, ← hterm]
  have hlatest := latest_prefix_append e hlog
  exact
    { base := hinv.base.append hlead hterm.le hentry
      leader := by
        intro t U ht
        rw [hsame]
        refine ⟨(hinv.leader ht).1, fun heq ↦ ?_⟩
        by_cases hts : t = s
        · subst hts
          obtain rfl : U = T := heq.symm.trans hterm
          rw [append_log_self, append_latest_self]
        · have hUT : U ≠ T := by
            rintro rfl
            exact hts (hinv.base.leadsUnique ht hlead)
          simpa [World.append, Function.update_of_ne hts,
            Function.update_of_ne hUT] using (hinv.leader ht).2 heq
      firstPrefix := fun h ↦ (hinv.firstPrefix h).trans (hlatest _)
      latestMade := by
        intro U hU
        by_cases hUT : U = T
        · subst hUT
          exact Or.inr (append_latest_self s U e)
        · refine Or.inl ?_
          simpa [World.append, Function.update_of_ne hUT] using
            hinv.latestMade hU
      publishedLatest := fun h ↦ ⟨(hinv.publishedLatest h).1,
        (hinv.publishedLatest h).2.trans (hlatest _)⟩
      ackedLatest := by
        rintro f U A (hA | ⟨rfl, rfl, rfl⟩)
        · exact ⟨(hinv.ackedLatest hA).1,
            (hinv.ackedLatest hA).2.trans (hlatest _)⟩
        · exact ⟨⟨f, hlead⟩, by rw [append_latest_self]⟩
      madeLatest := by
        rintro K (hK | rfl) hpos
        · exact ⟨(hinv.madeLatest hK hpos).1.trans (hlatest _),
            (hinv.madeLatest hK hpos).2⟩
        · rw [lastTerm_append_singleton, hentry, append_latest_self]
          refine ⟨List.prefix_rfl, ?_⟩
          have hfirst := hinv.firstPrefix ⟨s, hlead⟩
          rw [← hlog] at hfirst
          exact hfirst.trans (List.prefix_append _ _)
      ownAcked := by
        rintro K (hK | rfl) hpos
        · obtain ⟨t, A, ht, hA, hKA⟩ := hinv.ownAcked hK hpos
          exact ⟨t, A, ht, Or.inl hA, hKA⟩
        · have hlast : lastTerm τ (W.log s ++ [e]) = T := by
            rw [lastTerm_append_singleton, hentry]
          rw [hlast]
          exact ⟨s, _, hlead, Or.inr ⟨rfl, rfl, rfl⟩, List.prefix_rfl⟩
      ackedTerm := by
        intro f U P hack
        rw [hsame]
        rcases ackedIn_append hack with hold | ⟨rfl, rfl, -⟩
        · exact hinv.ackedTerm hold
        · exact hterm.ge
      retained := by
        intro f U P hack
        rw [hsame]
        rcases ackedIn_append hack with hold | ⟨rfl, rfl, hP⟩
        · exact (hinv.retained hold).mono_log (log_prefix_append s T e f)
        · exact Or.inl (append_log_self f U e ▸ hP)
      askedTerm := by
        rw [hsame]
        exact hinv.askedTerm
      askedUnique := hinv.askedUnique
      askedLog := fun h ↦ ⟨Or.inl (hinv.askedLog h).1, (hinv.askedLog h).2⟩
      askedStable := by
        intro c U L hL hled heq
        rw [hsame] at heq
        have hcs : c ≠ s := by
          rintro rfl
          exact hled ⟨c, by rwa [← heq, hterm]⟩
        simpa [World.append, Function.update_of_ne hcs] using
          hinv.askedStable hL hled heq
      votedTerm := by
        rw [hsame]
        exact hinv.votedTerm
      votedAsked := hinv.votedAsked
      votedCarries := by
        intro g U c L V P hv hled hL hack hVU
        rcases ackedIn_append hack with hold | ⟨rfl, rfl, -⟩
        · exact hinv.votedCarries hv hled hL hold hVU
        · have := hinv.votedTerm hv
          omega
      elected := by
        intro U hU
        obtain ⟨Q, hQ, hall⟩ := hinv.elected hU
        refine ⟨Q, hQ, fun g hg ↦ ⟨?_, ?_⟩⟩
        · rw [hsame]
          exact (hall g hg).1
        · intro V P hack hVU
          rcases ackedIn_append hack with hold | ⟨rfl, rfl, -⟩
          · exact (hall g hg).2 hold hVU
          · have := (hall g hg).1
            omega }

omit [DecidableEq S] in
theorem SafeInv.publish (hinv : SafeInv τ W) {s : S} {T : ℕ} {L : List E}
    (hlead : W.leads s T) (hterm : W.term s = T) (hpre : L <+: W.log s) :
    SafeInv τ (W.publish T L) := by
  have hmade := hinv.base.tree.closed (hinv.base.logMade s) hpre
  have hlast : lastTerm τ L ≤ T :=
    (((hinv.base.sorted (hinv.base.logMade s)).lastTerm_le τ hpre).trans
      (hinv.base.logBound s)).trans hterm.le
  exact
    { hinv with
      base := hinv.base.publish hmade hlast
      publishedLatest := by
        rintro U K (hK | ⟨rfl, hKL⟩)
        · exact hinv.publishedLatest hK
        · exact ⟨⟨s, hlead⟩,
            hKL.trans ((hinv.leader hlead).2 hterm ▸ hpre)⟩ }

/-- Replacing a follower's log is harmless when everything it shares with the
leader of the term is kept. -/
theorem SafeInv.replace (hinv : SafeInv τ W) {f : S} {T : ℕ} {M : List E}
    (hbase : Inv τ (W.adopt f T M)) (hled : W.Led T)
    (hother : ¬ W.leads f T) (hterm : W.term f ≤ T)
    (hkeep : ∀ P, P <+: W.log f → P <+: W.latest T → P <+: M) :
    SafeInv τ (W.adopt f T M) := by
  have hraised := hinv.raise hterm
  have hself : (W.raise f T).term f = T := by simp [World.raise]
  exact
    { hraised with
      base := hbase
      leader := by
        intro t U ht
        refine ⟨(hraised.leader ht).1, fun heq ↦ ?_⟩
        by_cases htf : t = f
        · subst htf
          obtain rfl : U = T := heq.symm.trans hself
          exact absurd ht hother
        · have := (hraised.leader ht).2 heq
          simpa [World.adopt, World.raise, Function.update_of_ne htf] using
            this
      retained := by
        intro g U P hack
        by_cases hgf : g = f
        · subst hgf
          have hUT : U ≤ T := (hinv.ackedTerm hack).trans hterm
          have hnew : (W.adopt g T M).term g + 1 = T + 1 := by
            simp [World.adopt]
          have hlog : (W.adopt g T M).log g = M := by simp [World.adopt]
          rw [hnew, hlog]
          rcases hinv.retained hack with hpre | ⟨V, hUV, hV, hlacks⟩
          · by_cases hhas : U < T → P <+: W.first T
            · exact Or.inl (hkeep P hpre
                (hinv.prefix_latest hack hUT hled hhas))
            · push Not at hhas
              exact Or.inr ⟨T, hhas.1, Nat.lt_succ_self T, hled, hhas.2⟩
          · exact Or.inr ⟨V, hUV, by omega, hlacks⟩
        · have := hraised.retained hack
          simpa [World.adopt, World.raise, Function.update_of_ne hgf,
            Carried, Lacks, World.Led] using this
      askedStable := by
        intro c U L hL hnot heq
        by_cases hcf : c = f
        · subst hcf
          obtain rfl : U = T := heq.symm.trans hself
          exact absurd hled hnot
        · have := hraised.askedStable hL hnot heq
          simpa [World.adopt, World.raise, Function.update_of_ne hcf] using
            this }

theorem SafeInv.adopt (hinv : SafeInv τ W) {f : S} {T : ℕ} {L : List E}
    (hpub : W.published T L) (hother : ¬ W.leads f T)
    (hterm : W.term f ≤ T) (hnew : ¬ L <+: W.log f) :
    SafeInv τ (W.adopt f T L) :=
  hinv.replace (hinv.base.adopt hpub hother hterm)
    (hinv.publishedLatest hpub).1 hother hterm
    fun _ hPM hP ↦ hinv.prefix_adopt hPM hP hpub hnew

theorem SafeInv.cut (hinv : SafeInv τ W) {f : S} {T k i : ℕ} {L : List E}
    (hother : ¬ W.leads f T) (hterm : W.term f ≤ T)
    (hpub : W.published T L) (hik : i ≤ k) (hiL : i < L.length)
    (hconflict : termAt τ L (i + 1) ≠ termAt τ (W.log f) (i + 1)) :
    SafeInv τ (W.cut f T k) :=
  hinv.replace (hinv.base.cut hother hterm)
    (hinv.publishedLatest hpub).1 hother hterm
    fun _ hPM hP ↦ hinv.prefix_cut hPM hP hpub hik hiL hconflict

omit [DecidableEq S] in
theorem SafeInv.ack (hinv : SafeInv τ W) {f : S} {T : ℕ} {L : List E}
    (hpub : W.published T L) (hpre : L <+: W.log f)
    (hterm : W.term f ≤ T) : SafeInv τ (W.ack f T L) := by
  have hcases : ∀ {g U P}, AckedIn τ (W.ack f T L) g U P →
      AckedIn τ W g U P ∨
        (g = f ∧ U = T ∧ P <+: L ∧ lastTerm τ P = T) := by
    rintro g U P ⟨hlast, A, hA | ⟨rfl, rfl, rfl⟩, hPA⟩
    · exact Or.inl ⟨hlast, A, hA, hPA⟩
    · exact Or.inr ⟨rfl, rfl, hPA, hlast⟩
  exact
    { hinv with
      base := hinv.base.ack
      ackedLatest := by
        rintro g U A (hA | ⟨rfl, rfl, rfl⟩)
        · exact hinv.ackedLatest hA
        · exact hinv.publishedLatest hpub
      ownAcked := by
        intro K hK hpos
        obtain ⟨t, A, ht, hA, hKA⟩ := hinv.ownAcked hK hpos
        exact ⟨t, A, ht, Or.inl hA, hKA⟩
      ackedTerm := by
        intro g U P hack
        rcases hcases hack with hold | ⟨rfl, rfl, hP, hlast⟩
        · exact hinv.ackedTerm hold
        · have hle := (hinv.base.sorted (hinv.base.logMade g)).lastTerm_le τ
            (hP.trans hpre)
          rw [hlast] at hle
          exact hle.trans (hinv.base.logBound g)
      retained := by
        intro g U P hack
        rcases hcases hack with hold | ⟨rfl, rfl, hP, -⟩
        · exact hinv.retained hold
        · exact Or.inl (hP.trans hpre)
      votedCarries := by
        intro g U c K V P hv hled hK hack hVU
        rcases hcases hack with hold | ⟨rfl, rfl, -, -⟩
        · exact hinv.votedCarries hv hled hK hold hVU
        · have := hinv.votedTerm hv
          omega
      elected := by
        intro U hU
        obtain ⟨Q, hQ, hall⟩ := hinv.elected hU
        refine ⟨Q, hQ, fun g hg ↦ ⟨(hall g hg).1, ?_⟩⟩
        intro V P hack hVU
        rcases hcases hack with hold | ⟨rfl, rfl, -, -⟩
        · exact (hall g hg).2 hold hVU
        · have := (hall g hg).1
          omega }

theorem SafeInv.step {W' : World S E} (hinv : SafeInv τ W)
    (hstep : SafeStep τ W W') : SafeInv τ W' := by
  cases hstep with
  | raise hterm => exact hinv.raise hterm
  | campaign hterm => exact hinv.campaign hterm
  | grant hterm hasked hrecent => exact hinv.grant hterm hasked hrecent
  | win hfresh hterm hmajority hvotes =>
      exact hinv.win hfresh hterm hmajority hvotes
  | append hlead hterm hentry => exact hinv.append hlead hterm hentry
  | publish hlead hterm hpre => exact hinv.publish hlead hterm hpre
  | adopt hpub hother hterm hnew => exact hinv.adopt hpub hother hterm hnew
  | cut hother hterm hpub hik hiL _ hconflict =>
      exact hinv.cut hother hterm hpub hik hiL hconflict
  | ack hpub hpre hterm => exact hinv.ack hpub hpre hterm

end Preservation

/-! ## Committed logs -/

/-- A majority has acknowledged `P` to the leader of its last term `T`. -/
def Committed (τ : E → ℕ) (W : World S E) (T : ℕ) (P : List E) : Prop :=
  ∃ Q : Finset S, Majority Q ∧ ∀ f ∈ Q, AckedIn τ W f T P

/-- Acknowledgements are never withdrawn. -/
theorem Committed.mono {W' : World S E} {T : ℕ} {P : List E}
    (hack : ∀ f U A, W.acked f U A → W'.acked f U A)
    (h : Committed τ W T P) : Committed τ W' T P := by
  obtain ⟨Q, hQ, hall⟩ := h
  refine ⟨Q, hQ, fun f hf ↦ ?_⟩
  obtain ⟨hlast, A, hA, hPA⟩ := hall f hf
  exact ⟨hlast, A, hack f T A hA, hPA⟩

theorem Committed.exists_acked {T : ℕ} {P : List E}
    (h : Committed τ W T P) : ∃ f, AckedIn τ W f T P := by
  obtain ⟨Q, hQ, hall⟩ := h
  unfold Majority at hQ
  obtain ⟨f, hf⟩ := Finset.card_pos.mp (by omega : 0 < Q.card)
  exact ⟨f, hall f hf⟩

theorem Committed.led (hinv : SafeInv τ W) {T : ℕ} {P : List E}
    (hcommit : Committed τ W T P) : W.Led T := by
  obtain ⟨f, _, A, hA, _⟩ := hcommit.exists_acked
  exact (hinv.ackedLatest hA).1

variable [DecidableEq S]

/-- Leader completeness: every later leader started with each committed log. -/
theorem SafeInv.committed_prefix_first (hinv : SafeInv τ W) {T : ℕ}
    {P : List E} (hcommit : Committed τ W T P) :
    ∀ U, T < U → W.Led U → P <+: W.first U := by
  intro U
  induction U using Nat.strong_induction_on with
  | _ U ih =>
      intro hTU hled
      obtain ⟨Q, hQ, hacks⟩ := hcommit
      obtain ⟨R, hR, hvoters⟩ := hinv.elected hled
      obtain ⟨g, hgQ, hgR⟩ := hQ.exists_mem_both hR
      rcases (hvoters g hgR).2 (hacks g hgQ) hTU with
        hpre | ⟨V, hTV, hVU, hledV, hnot⟩
      · exact hpre
      · exact absurd (ih V hVU hTV hledV) hnot

theorem SafeInv.committed_prefix_latest (hinv : SafeInv τ W) {T U : ℕ}
    {P : List E} (hcommit : Committed τ W T P) (hTU : T ≤ U)
    (hled : W.Led U) : P <+: W.latest U := by
  obtain ⟨f, hf⟩ := hcommit.exists_acked
  exact hinv.prefix_latest hf hTU hled fun hlt ↦
    hinv.committed_prefix_first hcommit U hlt hled

/-- Agreement: of two committed logs, one extends the other. -/
theorem SafeInv.committed_comparable (hinv : SafeInv τ W) {T U : ℕ}
    {P R : List E} (hP : Committed τ W T P) (hR : Committed τ W U R) :
    P <+: R ∨ R <+: P := by
  have hcommon : ∃ M, P <+: M ∧ R <+: M := by
    rcases Nat.le_total T U with hle | hle
    · exact ⟨_, hinv.committed_prefix_latest hP hle (hR.led hinv),
        hinv.committed_prefix_latest hR (Nat.le_refl U) (hR.led hinv)⟩
    · exact ⟨_, hinv.committed_prefix_latest hP (Nat.le_refl T) (hP.led hinv),
        hinv.committed_prefix_latest hR hle (hP.led hinv)⟩
  obtain ⟨M, hPM, hRM⟩ := hcommon
  exact List.prefix_or_prefix_of_prefix hPM hRM

/-- Server `f` holds `K`, and `K` is part of a log that was committed in a term
its durable term has reached. -/
def Known (τ : E → ℕ) (W : World S E) (f : S) (K : List E) : Prop :=
  K <+: W.log f ∧
    ∃ T P, Committed τ W T P ∧ T ≤ W.term f ∧ K <+: P

/-- No careful step takes a known log away from a server. -/
theorem Known.step (hinv : SafeInv τ W) {W' : World S E}
    (hstep : SafeStep τ W W') {f : S} {K : List E} (h : Known τ W f K) :
    Known τ W' f K := by
  obtain ⟨hlog, T, P, hcommit, hterm, hKP⟩ := h
  have hlatest : ∀ {U}, W.term f ≤ U → W.Led U → K <+: W.latest U :=
    fun hU hled ↦ hKP.trans
      (hinv.committed_prefix_latest hcommit (hterm.trans hU) hled)
  cases hstep with
  | raise hraise =>
      exact ⟨hlog, T, P, hcommit, hterm.trans (term_le_update hraise f), hKP⟩
  | campaign hraise =>
      exact ⟨hlog, T, P, hcommit,
        hterm.trans (term_le_update hraise.le f), hKP⟩
  | grant hraise _ _ =>
      exact ⟨hlog, T, P, hcommit, hterm.trans (term_le_update hraise f), hKP⟩
  | win _ _ _ _ => exact ⟨hlog, T, P, hcommit, hterm, hKP⟩
  | @append s U e _ hU _ =>
      refine ⟨?_, T, P, hcommit.mono fun _ _ _ h ↦ Or.inl h,
        hterm.trans (term_le_update hU.le f), hKP⟩
      by_cases hfs : f = s
      · subst hfs
        simpa [World.append] using hlog.trans (List.prefix_append _ [e])
      · simpa [World.append, Function.update_of_ne hfs] using hlog
  | publish _ _ _ => exact ⟨hlog, T, P, hcommit, hterm, hKP⟩
  | @adopt g U L hpub _ hraise hnew =>
      refine ⟨?_, T, P, hcommit, hterm.trans (term_le_update hraise f), hKP⟩
      by_cases hfg : f = g
      · subst hfg
        simpa [World.adopt] using hinv.prefix_adopt hlog
          (hlatest hraise (hinv.publishedLatest hpub).1) hpub hnew
      · simpa [World.adopt, Function.update_of_ne hfg] using hlog
  | @cut g U k i L _ hraise hpub hik hiL _ hconflict =>
      refine ⟨?_, T, P, hcommit, hterm.trans (term_le_update hraise f), hKP⟩
      by_cases hfg : f = g
      · subst hfg
        simpa [World.cut] using hinv.prefix_cut hlog
          (hlatest hraise (hinv.publishedLatest hpub).1) hpub hik hiL
          hconflict
      · simpa [World.cut, Function.update_of_ne hfg] using hlog
  | ack _ _ _ =>
      exact ⟨hlog, T, P, hcommit.mono fun _ _ _ h ↦ Or.inl h, hterm, hKP⟩

/-! ## Learning what is committed -/

omit [DecidableEq S] in
/-- A server that holds a committed log has reached its term. -/
theorem Known.of_committed (hinv : Inv τ W) {f : S} {T : ℕ} {P : List E}
    (hcommit : Committed τ W T P) (hpre : P <+: W.log f) : Known τ W f P := by
  obtain ⟨_, hlast, _⟩ := hcommit.exists_acked
  have hle := (hinv.sorted (hinv.logMade f)).lastTerm_le τ hpre
  rw [hlast] at hle
  exact ⟨hpre, T, P, hcommit, hle.trans (hinv.logBound f), List.prefix_rfl⟩

/-- What two servers know never conflicts. -/
theorem Known.comparable (hinv : SafeInv τ W) {f g : S} {J K : List E}
    (hJ : Known τ W f J) (hK : Known τ W g K) : J <+: K ∨ K <+: J := by
  obtain ⟨_, T, P, hP, _, hJP⟩ := hJ
  obtain ⟨_, U, R, hR, _, hKR⟩ := hK
  rcases hinv.committed_comparable hP hR with hPR | hRP
  · exact List.prefix_or_prefix_of_prefix (hJP.trans hPR) hKR
  · exact List.prefix_or_prefix_of_prefix hJP (hKR.trans hRP)

/-- A leader holds a whole committed log around everything it knows. -/
theorem Known.exists_committed (hinv : SafeInv τ W) {s : S} {T : ℕ}
    {K : List E} (h : Known τ W s K) (hlead : W.leads s T)
    (hterm : W.term s ≤ T) :
    ∃ U P, Committed τ W U P ∧ P <+: W.log s ∧ K <+: P := by
  obtain ⟨_, U, P, hcommit, hU, hKP⟩ := h
  obtain ⟨hle, hlatest⟩ := hinv.leader hlead
  rw [hlatest (le_antisymm hterm hle)]
  exact ⟨U, P, hcommit, hinv.committed_prefix_latest hcommit
    (hU.trans hterm) ⟨s, hlead⟩, hKP⟩

omit [DecidableEq S] in
/-- The commit rule: a leader may commit an entry of its own term that a
majority has acknowledged, counting itself. -/
theorem SafeInv.commit (hinv : SafeInv τ W) {s : S} {T N : ℕ}
    (hlead : W.leads s T) (hterm : W.term s ≤ T) (hpos : 0 < N)
    (hN : N ≤ (W.log s).length) (hlast : termAt τ (W.log s) N = T)
    {Q : Finset S} (hQ : Majority Q)
    (hacks : ∀ g ∈ Q, g = s ∨ ∃ A, W.acked g T A ∧ N ≤ A.length) :
    Committed τ W T ((W.log s).take N) := by
  have hpre : (W.log s).take N <+: W.log s := List.take_prefix _ _
  have hmade := hinv.base.tree.closed (hinv.base.logMade s) hpre
  have hlen : ((W.log s).take N).length = N := by simp [hN]
  have hP : lastTerm τ ((W.log s).take N) = T := by
    rw [lastTerm_take τ hN, hlast]
  obtain ⟨hle, hlatest⟩ := hinv.leader hlead
  have hlog := hlatest (le_antisymm hterm hle)
  refine ⟨Q, hQ, fun g hg ↦ ⟨hP, ?_⟩⟩
  rcases hacks g hg with rfl | ⟨A, hA, hNA⟩
  · obtain ⟨t, A, ht, hA, hPA⟩ := hinv.ownAcked hmade (by omega)
    rw [hP] at ht hA
    obtain rfl := hinv.base.leadsUnique ht hlead
    exact ⟨A, hA, hPA⟩
  · refine ⟨A, hA, List.prefix_of_prefix_length_le
      (hlog ▸ hpre) (hinv.ackedLatest hA).2 (by omega)⟩

end DistLabs.Consensus
