import Mathlib.Data.Finset.Card
import Mathlib.Order.Nat

/-!
# Sets of operations as bits

The checker keeps the operations that it has put into an order as a bitset, and
its cache is a hash map of such sets.
-/

namespace DistLabs.Porcupine

/-- Bits 0-63 are in the first word, the next are in the second, and so on. -/
structure Bitset where
  data : List (BitVec 64)
deriving DecidableEq

def newBitset (bits : ℕ) : Bitset where
  data := List.replicate (bits / 64 + if bits % 64 ≠ 0 then 1 else 0) 0

def bitsetIndex (pos : ℕ) : ℕ × ℕ :=
  (pos / 64, pos % 64)

/-- `bits.OnesCount64`. -/
def onesCount64 (v : BitVec 64) : ℕ :=
  (List.range 64).countP v.getLsbD

namespace Bitset

/-- An index out of range is `none`, as in `clear` and `get`. -/
def set (b : Bitset) (pos : ℕ) : Option Bitset :=
  match b.data[(bitsetIndex pos).1]? with
  | none => none
  | some v =>
      some { data := b.data.set (bitsetIndex pos).1
              (v ||| (1#64 <<< (bitsetIndex pos).2)) }

def clear (b : Bitset) (pos : ℕ) : Option Bitset :=
  match b.data[(bitsetIndex pos).1]? with
  | none => none
  | some v =>
      some { data := b.data.set (bitsetIndex pos).1
              (v &&& ~~~(1#64 <<< (bitsetIndex pos).2)) }

def get (b : Bitset) (pos : ℕ) : Option Bool :=
  match b.data[(bitsetIndex pos).1]? with
  | none => none
  | some v => some (v &&& (1#64 <<< (bitsetIndex pos).2) != 0)

def popcnt (b : Bitset) : ℕ :=
  b.data.foldl (fun total v ↦ total + onesCount64 v) 0

def hash (b : Bitset) : BitVec 64 :=
  b.data.foldl (fun hash v ↦ hash ^^^ v) (BitVec.ofNat 64 b.popcnt)

def equals (b b2 : Bitset) : Bool :=
  if b.data.length ≠ b2.data.length then
    false
  else
    (List.range b.data.length).all fun i ↦ b.data[i]? == b2.data[i]?

theorem equals_iff {b b2 : Bitset} : b.equals b2 = true ↔ b = b2 := by
  constructor
  · intro h
    unfold equals at h
    split at h
    · cases h
    · next hlength =>
        have hlen : b.data.length = b2.data.length := not_not.mp hlength
        have hdata : b.data = b2.data := by
          refine List.ext_getElem? fun i ↦ ?_
          rcases lt_or_ge i b.data.length with hi | hi
          · exact eq_of_beq (List.all_eq_true.mp h i (List.mem_range.mpr hi))
          · rw [List.getElem?_eq_none hi,
              List.getElem?_eq_none (hlen ▸ hi)]
        cases b
        cases b2
        exact congrArg Bitset.mk hdata
  · rintro rfl
    simp [equals]

/-- Whether `pos` is in the set. -/
def bit (b : Bitset) (pos : ℕ) : Bool :=
  (b.data[pos / 64]?.getD 0).getLsbD (pos % 64)

/-- The number of positions. -/
def capacity (b : Bitset) : ℕ :=
  64 * b.data.length

variable {b b2 : Bitset} {pos p : ℕ}

theorem index_lt (h : pos < b.capacity) : pos / 64 < b.data.length :=
  Nat.div_lt_of_lt_mul h

theorem getLsbD_shiftLeft_one (v : ℕ) (hv : v < 64) (i : ℕ) :
    (1#64 <<< v).getLsbD i = decide (i = v) := by
  rcases lt_or_ge i 64 with hi | hi
  · rw [BitVec.getLsbD_shiftLeft, BitVec.getLsbD_one]
    by_cases heq : i = v
    · subst heq
      simp [hi]
    · rcases lt_or_gt_of_ne heq with hlt | hgt
      · simp [hi, hlt, heq]
      · have hne : i - v ≠ 0 := by omega
        simp [heq, hne]
  · rw [BitVec.getLsbD_of_ge _ _ hi]
    have hne : i ≠ v := by omega
    simp [hne]

theorem eq_of_index_eq (hmajor : p / 64 = pos / 64)
    (hminor : p % 64 = pos % 64) : p = pos := by
  rw [← Nat.div_add_mod p 64, ← Nat.div_add_mod pos 64, hmajor, hminor]

theorem get_eq (h : pos < b.capacity) : b.get pos = some (b.bit pos) := by
  have hindex := index_lt h
  unfold get bit bitsetIndex
  rw [List.getElem?_eq_getElem hindex]
  simp only [Option.getD_some, Option.some.injEq]
  have hminor : pos % 64 < 64 := Nat.mod_lt _ (by decide)
  set v := b.data[pos / 64]
  cases hbit : v.getLsbD (pos % 64) with
  | false =>
      have hzero : v &&& (1#64 <<< (pos % 64)) = 0 := by
        refine BitVec.eq_of_getLsbD_eq fun i _ ↦ ?_
        rw [BitVec.getLsbD_and, getLsbD_shiftLeft_one _ hminor]
        by_cases hi : i = pos % 64
        · subst hi
          simp [hbit]
        · simp [hi]
      simp [hzero]
  | true =>
      rw [bne_iff_ne]
      intro hzero
      have hlsb := congrArg (fun w : BitVec 64 ↦ w.getLsbD (pos % 64)) hzero
      simp only [BitVec.getLsbD_and, hbit, Bool.true_and,
        getLsbD_shiftLeft_one _ hminor] at hlsb
      simp at hlsb

/-- A word is replaced, and one bit of it changes. -/
theorem bit_set_word {f : BitVec 64 → BitVec 64} (value : Bool)
    (h : pos < b.capacity)
    (hf : ∀ v i, (f v).getLsbD i =
      if i = pos % 64 then value else v.getLsbD i) (p : ℕ) :
    bit { data := b.data.set (pos / 64) (f (b.data[pos / 64]?.getD 0)) } p =
      if p = pos then value else b.bit p := by
  have hindex := index_lt h
  unfold bit
  simp only [List.getElem?_set]
  by_cases hmajor : pos / 64 = p / 64
  · rw [if_pos hmajor, if_pos (hmajor ▸ hindex), Option.getD_some, hf]
    by_cases hminor : p % 64 = pos % 64
    · rw [if_pos hminor, if_pos (eq_of_index_eq hmajor.symm hminor)]
    · rw [if_neg hminor, if_neg (by rintro rfl; exact hminor rfl), hmajor]
  · rw [if_neg hmajor, if_neg (by rintro rfl; exact hmajor rfl)]

theorem set_eq (b : Bitset) (h : pos < b.capacity) : ∃ b', b.set pos = some b' ∧
    b'.capacity = b.capacity ∧
    ∀ p, b'.bit p = (decide (p = pos) || b.bit p) := by
  have hindex := index_lt h
  have hword : b.data[pos / 64]? = some (b.data[pos / 64]?.getD 0) := by
    rw [List.getElem?_eq_getElem hindex, Option.getD_some]
  refine ⟨_, by unfold set bitsetIndex; rw [hword], ?_, fun p ↦ ?_⟩
  · simp [capacity]
  · have hminor : pos % 64 < 64 := Nat.mod_lt _ (by decide)
    refine (bit_set_word true (f := fun v ↦ v ||| 1#64 <<< (pos % 64)) h
      (fun v i ↦ ?_) p).trans ?_
    · rw [BitVec.getLsbD_or, getLsbD_shiftLeft_one _ hminor]
      by_cases hi : i = pos % 64 <;> simp [hi]
    · by_cases hp : p = pos <;> simp [hp]

theorem clear_eq (b : Bitset) (h : pos < b.capacity) :
    ∃ b', b.clear pos = some b' ∧ b'.capacity = b.capacity ∧
    ∀ p, b'.bit p = (!decide (p = pos) && b.bit p) := by
  have hindex := index_lt h
  have hword : b.data[pos / 64]? = some (b.data[pos / 64]?.getD 0) := by
    rw [List.getElem?_eq_getElem hindex, Option.getD_some]
  refine ⟨_, by unfold clear bitsetIndex; rw [hword], ?_, fun p ↦ ?_⟩
  · simp [capacity]
  · have hminor : pos % 64 < 64 := Nat.mod_lt _ (by decide)
    refine (bit_set_word false (f := fun v ↦ v &&& ~~~(1#64 <<< (pos % 64))) h
      (fun v i ↦ ?_) p).trans ?_
    · rw [BitVec.getLsbD_and, BitVec.getLsbD_not,
        getLsbD_shiftLeft_one _ hminor]
      by_cases hi : i = pos % 64
      · simp [hi]
      · rcases lt_or_ge i 64 with hlt | hge
        · simp [hi, hlt]
        · simp [hi, BitVec.getLsbD_of_ge v i hge]
    · by_cases hp : p = pos <;> simp [hp]

theorem eq_of_bit_eq (hcap : b.capacity = b2.capacity)
    (h : ∀ p < b.capacity, b.bit p = b2.bit p) : b = b2 := by
  have hlen : b.data.length = b2.data.length := by
    unfold capacity at hcap
    omega
  have hdata : b.data = b2.data := by
    refine List.ext_getElem hlen fun k hk hk2 ↦ ?_
    refine BitVec.eq_of_getLsbD_eq fun i hi ↦ ?_
    have hbit := h (64 * k + i) (by unfold capacity; omega)
    have hdiv : (64 * k + i) / 64 = k := by omega
    have hmod : (64 * k + i) % 64 = i := by omega
    simpa [bit, hdiv, hmod, hk, hk2] using hbit
  cases b
  cases b2
  exact congrArg Bitset.mk hdata

/-- The bitset has room for `n` positions and holds the set `s`. -/
structure Represents (b : Bitset) (n : ℕ) (s : Finset ℕ) : Prop where
  capacity : b.capacity = (newBitset n).capacity
  bit : ∀ p, b.bit p = decide (p ∈ s)

theorem lt_capacity_newBitset {n : ℕ} (h : p < n) :
    p < (newBitset n).capacity := by
  unfold Bitset.capacity newBitset
  rw [List.length_replicate]
  split <;> omega

theorem represents_newBitset (n : ℕ) : (newBitset n).Represents n ∅ where
  capacity := rfl
  bit := by
    intro p
    unfold Bitset.bit newBitset
    have hword : ∀ k, (List.replicate k (0 : BitVec 64))[p / 64]?.getD 0 =
        0 := by
      intro k
      rw [List.getElem?_replicate]
      split <;> rfl
    rw [hword]
    simp

namespace Represents

variable {n : ℕ} {s t : Finset ℕ}

theorem set (h : b.Represents n s) (hpos : pos < n) :
    ∃ b', b.set pos = some b' ∧ b'.Represents n (insert pos s) := by
  obtain ⟨b', hset, hcap, hbit⟩ := set_eq b
    (by rw [h.capacity]; exact lt_capacity_newBitset hpos)
  refine ⟨b', hset, hcap.trans h.capacity, fun p ↦ ?_⟩
  rw [hbit, h.bit]
  simp

theorem clear (h : b.Represents n s) (hpos : pos < n) :
    ∃ b', b.clear pos = some b' ∧ b'.Represents n (s.erase pos) := by
  obtain ⟨b', hclear, hcap, hbit⟩ := clear_eq b
    (by rw [h.capacity]; exact lt_capacity_newBitset hpos)
  refine ⟨b', hclear, hcap.trans h.capacity, fun p ↦ ?_⟩
  rw [hbit, h.bit]
  simp

/-- Bitsets are equal when their sets are. -/
theorem eq_iff (h : b.Represents n s) (h2 : b2.Represents n t) :
    b = b2 ↔ s = t := by
  constructor
  · rintro rfl
    ext p
    have hbit := (h.bit p).symm.trans (h2.bit p)
    simpa using hbit
  · rintro rfl
    refine eq_of_bit_eq (h.capacity.trans h2.capacity.symm) fun p _ ↦ ?_
    rw [h.bit, h2.bit]

theorem lt_capacity (h : b.Represents n s) (hp : p ∈ s) : p < b.capacity := by
  have hbit := h.bit p
  rw [decide_eq_true hp] at hbit
  by_contra hout
  have hnone : b.data[p / 64]? = none := by
    rw [List.getElem?_eq_none_iff]
    unfold Bitset.capacity at hout
    omega
  unfold Bitset.bit at hbit
  rw [hnone] at hbit
  simp at hbit

end Represents

/-- The words count their bits one after another. -/
theorem popcnt_eq (b : Bitset) :
    b.popcnt = (List.range b.capacity).countP b.bit := by
  have hfold : ∀ (words : List (BitVec 64)) (total : ℕ),
      words.foldl (fun total v ↦ total + onesCount64 v) total =
        total + (List.range (64 * words.length)).countP
          (bit { data := words }) := by
    intro words
    induction words with
    | nil => exact fun total ↦ rfl
    | cons v words ih =>
        intro total
        have hlow : ∀ p ∈ List.range 64,
            bit { data := v :: words } p = v.getLsbD p := by
          intro p hp
          have hp' := List.mem_range.mp hp
          unfold bit
          rw [Nat.div_eq_of_lt hp', Nat.mod_eq_of_lt hp']
          rfl
        have hhigh : ∀ p, bit { data := v :: words } (64 + p) =
            bit { data := words } p := by
          intro p
          unfold bit
          rw [Nat.add_div_left p (by decide), Nat.add_mod_left]
          rfl
        rw [List.foldl_cons, ih, List.length_cons, Nat.mul_add, Nat.mul_one,
          Nat.add_comm (64 * words.length) 64, List.range_add,
          List.countP_append, List.countP_map, List.countP_congr (p :=
            bit { data := v :: words }) (q := v.getLsbD) fun p hp ↦ by
              rw [hlow p hp]]
        have hshift : (bit { data := v :: words } ∘ fun x ↦ 64 + x) =
            bit { data := words } := funext hhigh
        rw [hshift]
        unfold onesCount64
        omega
  have hpop := hfold b.data 0
  rwa [Nat.zero_add] at hpop

theorem Represents.popcnt_eq_card {n : ℕ} {s : Finset ℕ}
    (h : b.Represents n s) : b.popcnt = s.card := by
  have hsub : s = ((List.range b.capacity).filter b.bit).toFinset := by
    ext p
    rw [List.mem_toFinset, List.mem_filter, List.mem_range, h.bit,
      decide_eq_true_iff]
    exact ⟨fun hp ↦ ⟨h.lt_capacity hp, hp⟩, fun hp ↦ hp.2⟩
  rw [popcnt_eq, List.countP_eq_length_filter]
  conv_rhs => rw [hsub]
  exact (List.toFinset_card_of_nodup (List.nodup_range.filter _)).symm

end Bitset

/-! ## Sequences of changes -/

/-- A change of a bitset. -/
inductive BitOp
  | set (pos : ℕ)
  | clear (pos : ℕ)

namespace BitOp

def pos : BitOp → ℕ
  | .set pos => pos
  | .clear pos => pos

def run (b : Bitset) : BitOp → Option Bitset
  | .set pos => b.set pos
  | .clear pos => b.clear pos

/-- The same change of a finite set. -/
def change (s : Finset ℕ) : BitOp → Finset ℕ
  | .set pos => insert pos s
  | .clear pos => s.erase pos

end BitOp

/-- The set that the changes lead to. -/
def members (ops : List BitOp) : Finset ℕ :=
  ops.foldl BitOp.change ∅

section Refinement

variable {b : Bitset} {n : ℕ} {s : Finset ℕ} {op : BitOp} {ops : List BitOp}

theorem BitOp.run_eq (h : b.Represents n s) (hpos : op.pos < n) :
    ∃ b', op.run b = some b' ∧ b'.Represents n (op.change s) := by
  cases op with
  | set pos => exact h.set hpos
  | clear pos => exact h.clear hpos

theorem foldlM_run_eq (h : b.Represents n s)
    (hops : ∀ op ∈ ops, op.pos < n) :
    ∃ b', ops.foldlM BitOp.run b = some b' ∧
      b'.Represents n (ops.foldl BitOp.change s) := by
  induction ops generalizing b s with
  | nil => exact ⟨b, rfl, h⟩
  | cons op ops ih =>
      obtain ⟨b₁, hrun, h₁⟩ := BitOp.run_eq h (hops op List.mem_cons_self)
      obtain ⟨b₂, hrest, h₂⟩ := ih h₁ fun o ho ↦
        hops o (List.mem_cons_of_mem _ ho)
      refine ⟨b₂, ?_, h₂⟩
      rw [List.foldlM_cons, hrun]
      exact hrest

/-- A bitset for `n` positions behaves like a set of numbers below `n`: no
sequence of changes panics, and `get`, `popcnt`, `equals` and `hash` depend on
the set alone. -/
theorem bitset_refines (n : ℕ) (ops : List BitOp)
    (hops : ∀ op ∈ ops, op.pos < n) :
    ∃ b, ops.foldlM BitOp.run (newBitset n) = some b ∧
      (∀ p < n, b.get p = some (decide (p ∈ members ops))) ∧
      b.popcnt = (members ops).card ∧
      ∀ ops' b', (∀ op ∈ ops', op.pos < n) →
        ops'.foldlM BitOp.run (newBitset n) = some b' →
        (b.equals b' = true ↔ members ops = members ops') ∧
        (members ops = members ops' → b.hash = b'.hash) := by
  obtain ⟨b, hrun, hrep⟩ := foldlM_run_eq (Bitset.represents_newBitset n) hops
  refine ⟨b, hrun, fun p hp ↦ ?_, hrep.popcnt_eq_card,
    fun ops' b' hops' hrun' ↦ ?_⟩
  · rw [Bitset.get_eq, hrep.bit]
    · rfl
    · rw [hrep.capacity]
      exact Bitset.lt_capacity_newBitset hp
  · obtain ⟨b₂, hrun₂, hrep'⟩ :=
      foldlM_run_eq (Bitset.represents_newBitset n) hops'
    obtain rfl := Option.some.inj (hrun'.symm.trans hrun₂)
    have hiff := hrep.eq_iff hrep'
    exact ⟨Bitset.equals_iff.trans hiff, fun hsame ↦
      congrArg Bitset.hash (hiff.mpr hsame)⟩

theorem bitset_refines_words :
    ∃ b, [BitOp.set 3, .set 64, .clear 3].foldlM BitOp.run (newBitset 70) =
        some b ∧
      (∀ p < 70, b.get p =
        some (decide (p ∈ members [.set 3, .set 64, .clear 3]))) ∧
      b.popcnt = (members [.set 3, .set 64, .clear 3]).card ∧
      ∀ ops' b', (∀ op ∈ ops', op.pos < 70) →
        ops'.foldlM BitOp.run (newBitset 70) = some b' →
        (b.equals b' = true ↔
          members [.set 3, .set 64, .clear 3] = members ops') ∧
        (members [.set 3, .set 64, .clear 3] = members ops' →
          b.hash = b'.hash) :=
  bitset_refines 70 [.set 3, .set 64, .clear 3] (by
    intro op hop
    simp only [List.mem_cons, List.not_mem_nil, or_false] at hop
    rcases hop with rfl | rfl | rfl <;> decide)

end Refinement

end DistLabs.Porcupine
