import DistLabs.Consensus.Completeness

/-!
# Steps whose care depends on a condition

An implementation may take careful steps only under a side condition.  `Effect`
carries the guards that always hold and, as implications, those that hold under
the condition `safe`.  Every effect is a step of the protocol, and a careful one
when the condition holds.  The rules for sequences of effects are what a
simulation proof uses.
-/

namespace DistLabs.Consensus

variable {S E : Type*} (τ : E → ℕ) [DecidableEq S] [Fintype S]

/-- One step of the protocol as an implementation performs it. -/
inductive Effect (safe : Prop) (W : World S E) : World S E → Prop
  | raise {s : S} {T : ℕ} (hterm : W.term s ≤ T) :
      Effect safe W (W.raise s T)
  | campaign {s : S} {T : ℕ} (hterm : W.term s < T) :
      Effect safe W (W.campaign s T)
  | grant {g : S} {T : ℕ} {c : S} {L : List E} (hterm : W.term g ≤ T)
      (hasked : W.asked c T L) (hrecent : UpToDate τ L (W.log g)) :
      Effect safe W (W.grant g T c)
  | win {s : S} {T : ℕ} (honly : ∀ t, W.leads t T → t = s)
      (hnew : ¬ W.leads s T)
      (hsafe : safe → W.term s = T ∧
        ∃ Q : Finset S, Majority Q ∧ ∀ g ∈ Q, W.voted g T s) :
      Effect safe W (W.win s T)
  | append {s : S} {T : ℕ} {e : E} (hlead : W.leads s T)
      (hterm : W.term s ≤ T) (hentry : τ e = T) :
      Effect safe W (W.append s T e)
  | publish {s : S} {T : ℕ} {L : List E} (hlead : W.leads s T)
      (hterm : W.term s ≤ T) (hpre : L <+: W.log s) :
      Effect safe W (W.publish T L)
  | adopt {f : S} {T : ℕ} {L : List E} (hpub : W.published T L)
      (hother : ¬ W.leads f T) (hterm : W.term f ≤ T)
      (hsafe : safe → L <+: W.log f → L = W.log f) :
      Effect safe W (W.adopt f T L)
  | cut {f : S} {T k i : ℕ} {L : List E} (hother : ¬ W.leads f T)
      (hterm : W.term f ≤ T) (hpub : W.published T L) (hik : i ≤ k)
      (hiL : i < L.length) (hif : i < (W.log f).length)
      (hconflict : termAt τ L (i + 1) ≠ termAt τ (W.log f) (i + 1)) :
      Effect safe W (W.cut f T k)
  | ack {f : S} {T : ℕ} {L : List E} (hpub : W.published T L)
      (hpre : L <+: W.log f) (hterm : W.term f ≤ T) :
      Effect safe W (W.ack f T L)

/-- A sequence of effects. -/
abbrev Effects (safe : Prop) : World S E → World S E → Prop :=
  Relation.ReflTransGen (Effect τ safe)

/-- The history of `W'` contains that of `W`, and no durable term is lower. -/
structure Grows (W W' : World S E) : Prop where
  term : ∀ s, W.term s ≤ W'.term s
  leads : ∀ s T, W.leads s T → W'.leads s T
  published : ∀ T L, W.published T L → W'.published T L
  voted : ∀ g T c, W.voted g T c → W'.voted g T c
  asked : ∀ c T L, W.asked c T L → W'.asked c T L
  acked : ∀ f T A, W.acked f T A → W'.acked f T A

omit [DecidableEq S] [Fintype S] in
theorem Grows.refl (W : World S E) : Grows W W :=
  ⟨fun _ ↦ Nat.le_refl _, fun _ _ h ↦ h, fun _ _ h ↦ h, fun _ _ _ h ↦ h,
    fun _ _ _ h ↦ h, fun _ _ _ h ↦ h⟩

omit [DecidableEq S] [Fintype S] in
theorem Grows.trans {W W' W'' : World S E} (h : Grows W W')
    (h' : Grows W' W'') : Grows W W'' where
  term := fun s ↦ (h.term s).trans (h'.term s)
  leads := fun s T hold ↦ h'.leads s T (h.leads s T hold)
  published := fun T L hold ↦ h'.published T L (h.published T L hold)
  voted := fun g T c hold ↦ h'.voted g T c (h.voted g T c hold)
  asked := fun c T L hold ↦ h'.asked c T L (h.asked c T L hold)
  acked := fun f T A hold ↦ h'.acked f T A (h.acked f T A hold)

variable {τ} {safe : Prop} {W W' : World S E}

theorem Effect.grows (h : Effect τ safe W W') : Grows W W' := by
  cases h with
  | campaign hterm =>
      exact { Grows.refl W with
        term := term_le_update hterm.le
        voted := fun _ _ _ h ↦ Or.inl h
        asked := fun _ _ _ h ↦ Or.inl h }
  | grant hterm =>
      exact { Grows.refl W with
        term := term_le_update hterm
        voted := fun _ _ _ h ↦ Or.inl h }
  | win => exact { Grows.refl W with leads := fun _ _ h ↦ Or.inl h }
  | append _ hterm =>
      exact { Grows.refl W with
        term := term_le_update hterm
        acked := fun _ _ _ h ↦ Or.inl h }
  | publish =>
      exact { Grows.refl W with published := fun _ _ h ↦ Or.inl h }
  | ack => exact { Grows.refl W with acked := fun _ _ _ h ↦ Or.inl h }
  | raise hterm | adopt _ _ hterm | cut _ hterm =>
      exact { Grows.refl W with term := term_le_update hterm }

/-- Every effect is a step of the protocol. -/
theorem Effect.step (hinv : Inv τ W) (h : Effect τ safe W W') :
    Step τ W W' := by
  cases h with
  | raise hterm => exact .raise hterm
  | campaign hterm => exact .campaign hterm
  | grant hterm => exact .grant hterm
  | win honly => exact .win honly
  | append hlead hterm hentry => exact .append hlead hterm hentry
  | @publish s T L _ hterm hpre =>
      have hmade := hinv.tree.closed (hinv.logMade s) hpre
      have hlast := (hinv.sorted (hinv.logMade s)).lastTerm_le τ hpre
      exact .publish hmade ((hlast.trans (hinv.logBound s)).trans hterm)
  | adopt hpub hother hterm => exact .adopt hpub hother hterm
  | cut hother hterm => exact .cut hother hterm
  | ack => exact .ack

/-- Under the condition every effect is a careful step. -/
theorem Effect.safeStep (hsafe : safe) (hinv : SafeInv τ W)
    (h : Effect τ safe W W') : SafeStep τ W W' := by
  have hself : ∀ {s T}, W.leads s T → W.term s ≤ T → W.term s = T :=
    fun hlead hterm ↦ le_antisymm hterm (hinv.leader hlead).1
  cases h with
  | raise hterm => exact .raise hterm
  | campaign hterm => exact .campaign hterm
  | grant hterm hasked hrecent => exact .grant hterm hasked hrecent
  | @win s T honly hnew hmore =>
      obtain ⟨hterm, Q, hQ, hvotes⟩ := hmore hsafe
      refine .win ?_ hterm hQ hvotes
      rintro ⟨t, ht⟩
      rw [honly t ht] at ht
      exact hnew ht
  | append hlead hterm hentry =>
      exact .append hlead (hself hlead hterm) hentry
  | publish hlead hterm hpre => exact .publish hlead (hself hlead hterm) hpre
  | @adopt f T L hpub hother hterm hmore =>
      by_cases hheld : L <+: W.log f
      · have hsame : W.adopt f T L = W.raise f T := by
          rw [hmore hsafe hheld]
          simp [World.adopt, World.raise]
        rw [hsame]
        exact .raise hterm
      · exact .adopt hpub hother hterm hheld
  | cut hother hterm hpub hik hiL hif hconflict =>
      exact .cut hother hterm hpub hik hiL hif hconflict
  | ack hpub hpre hterm => exact .ack hpub hpre hterm

namespace Effects

theorem grows (h : Effects τ safe W W') : Grows W W' := by
  induction h with
  | refl => exact Grows.refl W
  | tail _ heffect ih => exact ih.trans heffect.grows

theorem inv (h : Effects τ safe W W') (hinv : Inv τ W) : Inv τ W' := by
  induction h with
  | refl => exact hinv
  | tail _ heffect ih => exact ih.step (heffect.step ih)

theorem safeInv (h : Effects τ safe W W') (hsafe : safe)
    (hinv : SafeInv τ W) : SafeInv τ W' := by
  induction h with
  | refl => exact hinv
  | tail _ heffect ih => exact ih.step (heffect.safeStep hsafe ih)

theorem known (h : Effects τ safe W W') (hsafe : safe)
    (hinv : SafeInv τ W) {f : S} {K : List E} (hknown : Known τ W f K) :
    Known τ W' f K := by
  induction h with
  | refl => exact hknown
  | tail hsteps heffect ih =>
      have hmid := safeInv hsteps hsafe hinv
      exact ih.step hmid (heffect.safeStep hsafe hmid)

variable (τ) in
/-- A server that may win a term can be made its leader. -/
theorem exists_leads {s : S} {T : ℕ} (honly : ∀ t, W.leads t T → t = s)
    (hbacked : safe → W.term s = T ∧
      ∃ Q : Finset S, Majority Q ∧ ∀ g ∈ Q, W.voted g T s) :
    ∃ W', Effects τ safe W W' ∧ W'.log = W.log ∧ W'.term = W.term ∧
      W'.leads s T ∧
      ∀ t U, W'.leads t U → W.leads t U ∨ (t = s ∧ U = T) := by
  by_cases hleads : W.leads s T
  · exact ⟨W, .refl, rfl, rfl, hleads, fun _ _ hold ↦ Or.inl hold⟩
  · exact ⟨W.win s T, .single (.win honly hleads hbacked), rfl, rfl,
      Or.inr ⟨rfl, rfl⟩, fun _ _ hnew ↦ hnew⟩

end Effects

end DistLabs.Consensus
