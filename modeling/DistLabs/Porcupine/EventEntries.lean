import DistLabs.Porcupine.Entries
import DistLabs.Support.Renaming

/-!
# Entries of events

A history may also be given as a list of calls and returns.  `renumber` gives
its operations the numbers from zero on, in the order in which they come up, and
`convertEntries` makes an entry of every event.
-/

namespace DistLabs.Porcupine

open Linearizability

variable {St I O : Type}

/-- The event of a history, if the value fits the kind. -/
def Event.historyEvent (v : Event I O) : Option (HistoryEvent ℤ I O) :=
  match v.kind, v.value with
  | .callEvent, .input i => some (.invoke v.id i)
  | .returnEvent, .output o => some (.respond v.id o)
  | _, _ => none

/-- The events are the calls and returns of a complete history. -/
structure Records (events : List (Event I O))
    (g : List (HistoryEvent ℤ I O)) : Prop where
  events : events.map Event.historyEvent = g.map some
  complete : Complete g

/-! ## Renumbering -/

/-- The numbers given so far are those below `id`, and no two operations share
one. -/
structure Numbering (m : ℤ → Option ℕ) (id : ℕ) : Prop where
  lt : ∀ a r, m a = some r → r < id
  inj : ∀ a b r, m a = some r → m b = some r → a = b

theorem Numbering.insert {m : ℤ → Option ℕ} {id : ℕ} (h : Numbering m id)
    (a : ℤ) : Numbering (Function.update m a (some id)) (id + 1) where
  lt := by
    intro b r hb
    by_cases hba : b = a
    · rw [hba, Function.update_self] at hb
      cases hb
      exact Nat.lt_succ_self id
    · rw [Function.update_of_ne hba] at hb
      exact (h.lt b r hb).trans (Nat.lt_succ_self id)
  inj := by
    have hold : ∀ b, b ≠ a → Function.update m a (some id) b ≠ some id := by
      intro b hba hb
      rw [Function.update_of_ne hba] at hb
      exact lt_irrefl _ (h.lt b id hb)
    intro b c r hb hc
    by_cases hba : b = a
    · rw [hba, Function.update_self] at hb
      cases hb
      by_cases hca : c = a
      · rw [hba, hca]
      · exact absurd hc (hold c hca)
    · by_cases hca : c = a
      · rw [hca, Function.update_self] at hc
        cases hc
        exact absurd hb (hold b hba)
      · rw [Function.update_of_ne hba] at hb
        rw [Function.update_of_ne hca] at hc
        exact h.inj b c r hb hc

/-- What `renumber` has done: `f` gives the new numbers, `n` of which are
new. -/
structure Renumbered (m : ℤ → Option ℕ) (id : ℕ) (events : List (Event I O))
    (f : ℤ → ℕ) (n : ℕ) : Prop where
  keeps : ∀ a r, m a = some r → f a = r
  renumbered : renumberFrom m id events =
    events.map fun v ↦ { v with id := f v.id }
  inj : ∀ a b, ((m a).isSome ∨ a ∈ events.map Event.id) →
    ((m b).isSome ∨ b ∈ events.map Event.id) → f a = f b → a = b
  lt : ∀ v ∈ events, f v.id < id + n
  surj : ∀ r, id ≤ r → r < id + n → ∃ v ∈ events, f v.id = r

theorem exists_renumbered {m : ℤ → Option ℕ} {id : ℕ} (hm : Numbering m id)
    (events : List (Event I O)) : ∃ f n, Renumbered m id events f n := by
  induction events generalizing m id with
  | nil =>
      refine ⟨fun a ↦ (m a).getD 0, 0, fun a r ha ↦ ?_, rfl,
        fun a b ha hb hab ↦ ?_, by simp, fun r hle hlt ↦ ?_⟩
      · rw [ha, Option.getD_some]
      · obtain ⟨r, hr⟩ :=
          Option.isSome_iff_exists.mp (ha.resolve_right (by simp))
        obtain ⟨q, hq⟩ :=
          Option.isSome_iff_exists.mp (hb.resolve_right (by simp))
        rw [hr, hq, Option.getD_some, Option.getD_some] at hab
        exact hm.inj a b r hr (hab ▸ hq)
      · omega
  | cons v events ih =>
      cases hv : m v.id with
      | some r =>
          -- The operation has come up before.
          obtain ⟨f, n, hf⟩ := ih hm
          have hvf := hf.keeps v.id r hv
          have hknown : ∀ a, ((m a).isSome ∨ a ∈ (v :: events).map Event.id) →
              ((m a).isSome ∨ a ∈ events.map Event.id) := by
            rintro a (ha | ha)
            · exact Or.inl ha
            · rcases List.mem_cons.mp ha with rfl | ha
              · exact Or.inl (by rw [hv]; rfl)
              · exact Or.inr ha
          refine ⟨f, n, hf.keeps, ?_, fun a b ha hb ↦
            hf.inj a b (hknown a ha) (hknown b hb), ?_, fun r hle hlt ↦ ?_⟩
          · rw [renumberFrom, hv, List.map_cons, hf.renumbered, hvf]
          · intro w hw
            rcases List.mem_cons.mp hw with rfl | hw
            · have hlt := hm.lt _ r hv
              omega
            · exact hf.lt w hw
          · obtain ⟨w, hw, hwr⟩ := hf.surj r hle hlt
            exact ⟨w, List.mem_cons_of_mem _ hw, hwr⟩
      | none =>
          obtain ⟨f, n, hf⟩ := ih (hm.insert v.id)
          have hvf : f v.id = id :=
            hf.keeps v.id id (Function.update_self _ _ _)
          have hknown : ∀ a, ((m a).isSome ∨ a ∈ (v :: events).map Event.id) →
              ((Function.update m v.id (some id) a).isSome ∨
                a ∈ events.map Event.id) := by
            intro a ha
            by_cases hav : a = v.id
            · rw [hav, Function.update_self]
              exact Or.inl rfl
            · rw [Function.update_of_ne hav]
              refine ha.imp_right fun hmem ↦ ?_
              exact (List.mem_cons.mp hmem).resolve_left hav
          refine ⟨f, n + 1, fun a r ha ↦ hf.keeps a r ?_, ?_, fun a b ha hb ↦
            hf.inj a b (hknown a ha) (hknown b hb), ?_, fun r hle hlt ↦ ?_⟩
          · rw [Function.update_of_ne]
            · exact ha
            · rintro rfl
              cases hv.symm.trans ha
          · rw [renumberFrom, hv, List.map_cons, hf.renumbered, hvf]
          · intro w hw
            rcases List.mem_cons.mp hw with rfl | hw
            · omega
            · have hlt := hf.lt w hw
              omega
          · rcases Nat.eq_or_lt_of_le hle with rfl | hless
            · exact ⟨v, List.mem_cons_self, hvf⟩
            · obtain ⟨w, hw, hwr⟩ := hf.surj r hless (by omega)
              exact ⟨w, List.mem_cons_of_mem _ hw, hwr⟩

/-! ## The entries -/

section Convert

variable {events : List (Event I O)} {g : List (HistoryEvent ℤ I O)}

theorem Records.mem_iff (hrec : Records events g) {ev : HistoryEvent ℤ I O} :
    ev ∈ g ↔ ∃ v ∈ events, v.historyEvent = some ev := by
  have hmem : some ev ∈ g.map some ↔ ev ∈ g := by simp
  rw [← hmem, ← hrec.events, List.mem_map]

theorem Event.id_historyEvent {v : Event I O} {ev : HistoryEvent ℤ I O}
    (h : v.historyEvent = some ev) : ev.id = v.id := by
  unfold Event.historyEvent at h
  split at h
  · cases h
    rfl
  · cases h
    rfl
  · cases h

/-- An entry stands for the event with its new number. -/
theorem event_convert (v : Event I O) (f : ℤ → ℕ) (i : ℕ) :
    Entry.event
      { kind := if v.kind = .returnEvent then .returnEntry else .callEntry
        value := v.value
        id := ((f v.id : ℕ) : ℤ).toNat
        time := i
        clientId := v.clientId } = v.historyEvent.map (.rename f) := by
  obtain ⟨clientId, kind, value, id⟩ := v
  cases kind <;> cases value <;> rfl

/-- The entries of the renumbered events stand for the history under new
names. -/
theorem Records.encodes (hrec : Records events g) :
    ∃ f : ℤ → ℕ, Distinguishes f g ∧
      Encodes (convertEntries (renumber events)) (g.map (.rename f)) := by
  have hnone : Numbering (fun _ ↦ none) 0 := ⟨by simp, by simp⟩
  obtain ⟨f, n, hf⟩ := exists_renumbered hnone events
  have hid : ∀ ev ∈ g, ∃ v ∈ events, ev.id = v.id := by
    intro ev hev
    obtain ⟨v, hv, heq⟩ := hrec.mem_iff.mp hev
    exact ⟨v, hv, Event.id_historyEvent heq⟩
  have hdist : Distinguishes f g := by
    intro ev hev ev' hev' heq
    obtain ⟨v, hv, hvid⟩ := hid ev hev
    obtain ⟨v', hv', hvid'⟩ := hid ev' hev'
    rw [hvid, hvid'] at heq ⊢
    exact hf.inj _ _ (Or.inr (List.mem_map_of_mem hv))
      (Or.inr (List.mem_map_of_mem hv')) heq
  refine ⟨f, hdist, ?_, hrec.complete.rename hdist, ?_⟩
  · unfold convertEntries renumber
    rw [hf.renumbered, List.zipIdx_map, List.map_map, List.map_map]
    have hentry : ∀ (l : List (Event I O)) (k : ℕ),
        (l.zipIdx k).map (fun x ↦ Option.map (HistoryEvent.rename f)
          x.1.historyEvent) =
        (l.map Event.historyEvent).map (Option.map (HistoryEvent.rename f)) :=
      by
        intro l k
        rw [List.map_map]
        conv_rhs => rw [← List.zipIdx_map_fst k l, List.map_map]
        rfl
    calc
      _ = (events.zipIdx 0).map fun x ↦ Option.map (HistoryEvent.rename f)
          x.1.historyEvent :=
        List.map_congr_left fun x _ ↦ event_convert x.1 f x.2
      _ = _ := by
        rw [hentry, hrec.events, List.map_map, List.map_map]
        rfl
  · have hc := hrec.complete.rename hdist
    -- The numbers below `n` are those of the invoked operations.
    have hle : n ≤ (g.map (HistoryEvent.rename f)).length / 2 := by
      rw [← hc.length_invokedIds]
      have hsub : List.range n ⊆
          invokedIds (g.map (HistoryEvent.rename f)) := by
        intro r hr
        obtain ⟨v, hv, hvr⟩ := hf.surj r (Nat.zero_le r)
          (by rw [Nat.zero_add]; exact List.mem_range.mp hr)
        have hmem : v.historyEvent ∈ g.map some := by
          rw [← hrec.events]
          exact List.mem_map_of_mem hv
        obtain ⟨ev, hev, heq⟩ := List.mem_map.mp hmem
        have hevid := Event.id_historyEvent heq.symm
        rw [invokedIds_rename]
        refine List.mem_map.mpr ⟨v.id, ?_, hvr⟩
        cases ev with
        | invoke id i =>
            exact mem_invokedIds.mpr ⟨i, hevid ▸ hev⟩
        | respond id o =>
            exact hrec.complete.mem_invokedIds_of_responded
              (mem_respondedIds.mpr ⟨o, hevid ▸ hev⟩)
      have hlength := (List.subperm_of_subset List.nodup_range
        hsub).length_le
      rwa [List.length_range] at hlength
    intro e he
    obtain ⟨ev, hev, rfl⟩ := List.mem_map.mp he
    obtain ⟨v, hv, hvid⟩ := hid ev hev
    have hlt := hf.lt v hv
    have hname : (ev.rename f).id = f ev.id := by cases ev <;> rfl
    rw [hname, hvid]
    omega

end Convert

end DistLabs.Porcupine
