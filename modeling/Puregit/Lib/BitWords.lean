import Mathlib.Data.Nat.Bitwise
import Mathlib.Order.Lattice
import Mathlib.Tactic.Ring

/-! # Bit vectors in words

A list of 64-bit words holds a vector of bits, bit `i` in word `i / 64`.  A bit is set in
place, and the set bits are listed word by word up to a length.
-/
namespace Puregit.BitWords

/-- The word whose only bit is `b`. -/
def mask (b : Nat) : UInt64 := 1 <<< UInt64.ofNat b

/-- Whether a word has bit `b`. -/
def has (w : UInt64) (b : Nat) : Bool := w &&& mask b != 0

/-- Bit `i` of a vector, which has no bits past its words. -/
def bit (ws : List UInt64) (i : Nat) : Bool := has (ws.getD (i / 64) 0) (i % 64)

/-- Sets bit `i`. -/
def setBit (ws : List UInt64) (i : Nat) : List UInt64 := ws.modify (i / 64) (· ||| mask (i % 64))

/-- The set bits below `size` of words that begin at bit `base`. -/
def setBitsFrom (size : Nat) : Nat → List UInt64 → List Nat
  | _, [] => []
  | base, w :: ws =>
    if w = 0 then setBitsFrom size (base + 64) ws
    else
      -- the bits of the word that are visited, all of them unless the last bit is in it
      let visited := min 64 (size - base)
      let here := ((List.range visited).filter (has w)).map (base + ·)
      if visited < 64 then here else here ++ setBitsFrom size (base + 64) ws

theorem toNat_mask {b : Nat} (hb : b < 64) : (mask b).toNat = 2 ^ b := by
  have hpow : 2 ^ b < 2 ^ 64 := Nat.pow_lt_pow_right (by decide) hb
  unfold mask
  rw [UInt64.toNat_shiftLeft, UInt64.toNat_ofNat', Nat.mod_eq_of_lt (show b < 2 ^ 64 by omega),
    Nat.mod_eq_of_lt hb, show (1 : UInt64).toNat = 1 from rfl, Nat.shiftLeft_eq, Nat.one_mul,
    Nat.mod_eq_of_lt hpow]

theorem has_eq_testBit (w : UInt64) {b : Nat} (hb : b < 64) : has w b = w.toNat.testBit b := by
  have hand : (w &&& mask b).toNat = (w.toNat.testBit b).toNat * 2 ^ b := by
    rw [UInt64.toNat_and, toNat_mask hb, Nat.and_two_pow]
  have hpos : 0 < 2 ^ b := Nat.two_pow_pos b
  unfold has
  rw [bne, Bool.not_eq_eq_eq_not]
  cases hbit : w.toNat.testBit b with
  | false =>
    rw [hbit, Bool.toNat_false, Nat.zero_mul] at hand
    simpa using UInt64.toNat_inj.mp hand
  | true =>
    rw [hbit, Bool.toNat_true, Nat.one_mul] at hand
    have hne : w &&& mask b ≠ 0 := fun h => by
      rw [h] at hand
      exact hpos.ne hand
    simpa using hne

@[simp] theorem has_zero (b : Nat) : has 0 b = false := by
  unfold has
  rw [UInt64.zero_and]
  rfl

theorem has_or_mask (w : UInt64) {b c : Nat} (hb : b < 64) (hc : c < 64) :
    has (w ||| mask c) b = (has w b || decide (b = c)) := by
  rw [has_eq_testBit _ hb, has_eq_testBit _ hb, UInt64.toNat_or, Nat.testBit_or, toNat_mask hc,
    Nat.testBit_two_pow]
  simp [eq_comm]

@[simp] theorem bit_replicate_zero (n i : Nat) : bit (List.replicate n 0) i = false := by
  have hword : (List.replicate n (0 : UInt64)).getD (i / 64) 0 = 0 := by
    rw [List.getD_eq_getElem?_getD, List.getElem?_replicate]
    split <;> rfl
  unfold bit
  rw [hword, has_zero]

/-- **Setting a bit sets it and no other.** -/
theorem bit_setBit {ws : List UInt64} {i : Nat} (hi : i / 64 < ws.length) (j : Nat) :
    bit (setBit ws i) j = (bit ws j || decide (j = i)) := by
  have hlt : ∀ k, k % 64 < 64 := fun k => Nat.mod_lt k (by decide)
  unfold bit setBit
  rw [List.getD_eq_getElem?_getD, List.getElem?_modify]
  by_cases hword : i / 64 = j / 64
  · have hsame : (j % 64 = i % 64) ↔ j = i := by omega
    simp only [if_pos hword]
    rw [List.getElem?_eq_getElem (hword ▸ hi)]
    show has (ws[j / 64] ||| mask (i % 64)) (j % 64) = _
    rw [has_or_mask _ (hlt j) (hlt i), List.getD_eq_getElem _ _ (hword ▸ hi)]
    simp only [hsame]
  · have hne : j ≠ i := fun h => hword (by rw [h])
    simp only [if_neg hword]
    rw [decide_eq_false hne, Bool.or_false, List.getD_eq_getElem?_getD]
    cases ws[j / 64]? <;> rfl

@[simp] theorem length_setBit (ws : List UInt64) (i : Nat) : (setBit ws i).length = ws.length :=
  List.length_modify ..

theorem length_foldl_setBit (set : List Nat) (ws : List UInt64) :
    (set.foldl setBit ws).length = ws.length := by
  induction set generalizing ws with
  | nil => rfl
  | cons b set ih => rw [List.foldl_cons, ih, length_setBit]

theorem mem_setBitsFrom {size : Nat} {ws : List UInt64} {base pos : Nat} :
    pos ∈ setBitsFrom size base ws ↔ ∃ i, pos = base + i ∧ pos < size ∧ bit ws i = true := by
  induction ws generalizing base with
  | nil =>
    have hnone : ∀ i, bit [] i = false := fun i => has_zero (i % 64)
    simp [setBitsFrom, hnone]
  | cons w ws ih =>
    -- a bit is in the first word, or one of the bits of the others
    have hfirst : ∀ i < 64, bit (w :: ws) i = has w i := fun i hi => by
      unfold bit
      rw [Nat.div_eq_of_lt hi, Nat.mod_eq_of_lt hi]
      rfl
    have hlater : ∀ i, bit (w :: ws) (64 + i) = bit ws i := fun i => by
      unfold bit
      rw [Nat.add_mod_left, Nat.add_div_left _ (by decide)]
      rfl
    have hrest : (∃ i, pos = base + 64 + i ∧ pos < size ∧ bit ws i = true) ↔
        ∃ i, pos = base + i ∧ pos < size ∧ 64 ≤ i ∧ bit (w :: ws) i = true := by
      constructor
      · intro ⟨i, hpos, hlt, hbit⟩
        exact ⟨64 + i, by omega, hlt, by omega, by rw [hlater, hbit]⟩
      · intro ⟨i, hpos, hlt, hle, hbit⟩
        obtain ⟨k, rfl⟩ : ∃ k, i = 64 + k := ⟨i - 64, by omega⟩
        exact ⟨k, by omega, hlt, by rw [← hlater, hbit]⟩
    unfold setBitsFrom
    by_cases hzero : w = 0
    · rw [if_pos hzero, ih, hrest]
      constructor
      · intro ⟨i, hpos, hlt, _, hbit⟩
        exact ⟨i, hpos, hlt, hbit⟩
      · intro ⟨i, hpos, hlt, hbit⟩
        refine ⟨i, hpos, hlt, Nat.le_of_not_lt fun hi => ?_, hbit⟩
        rw [hfirst i hi, hzero, has_zero] at hbit
        cases hbit
    · have hhere : pos ∈ ((List.range (min 64 (size - base))).filter (has w)).map (base + ·) ↔
          ∃ i, pos = base + i ∧ pos < size ∧ i < 64 ∧ bit (w :: ws) i = true := by
        rw [List.mem_map]
        constructor
        · intro ⟨i, hi, hpos⟩
          obtain ⟨hrange, hbit⟩ := List.mem_filter.mp hi
          have hlt := List.mem_range.mp hrange
          exact ⟨i, hpos.symm, by omega, by omega, by rw [hfirst i (by omega), hbit]⟩
        · intro ⟨i, hpos, hlt, hi, hbit⟩
          refine ⟨i, List.mem_filter.mpr ⟨List.mem_range.mpr (by omega), ?_⟩, hpos.symm⟩
          rw [← hfirst i hi, hbit]
      rw [if_neg hzero]
      by_cases hend : min 64 (size - base) < 64
      · rw [if_pos hend, hhere]
        constructor
        · intro ⟨i, hpos, hlt, _, hbit⟩
          exact ⟨i, hpos, hlt, hbit⟩
        · intro ⟨i, hpos, hlt, hbit⟩
          exact ⟨i, hpos, hlt, by omega, hbit⟩
      · rw [if_neg hend, List.mem_append, hhere, ih, hrest]
        constructor
        · rintro (⟨i, hpos, hlt, _, hbit⟩ | ⟨i, hpos, hlt, _, hbit⟩)
          · exact ⟨i, hpos, hlt, hbit⟩
          · exact ⟨i, hpos, hlt, hbit⟩
        · intro ⟨i, hpos, hlt, hbit⟩
          by_cases hi : i < 64
          · exact Or.inl ⟨i, hpos, hlt, hi, hbit⟩
          · exact Or.inr ⟨i, hpos, hlt, by omega, hbit⟩

/-- The bits are listed in order. -/
theorem pairwise_setBitsFrom (size base : Nat) (ws : List UInt64) :
    (setBitsFrom size base ws).Pairwise (· < ·) := by
  induction ws generalizing base with
  | nil => exact List.Pairwise.nil
  | cons w ws ih =>
    have hhere : (((List.range (min 64 (size - base))).filter (has w)).map
        (base + ·)).Pairwise (· < ·) :=
      (List.pairwise_lt_range.filter _).map _ fun _ _ h => Nat.add_lt_add_left h _
    rw [setBitsFrom]
    split
    · exact ih _
    simp only
    split
    · exact hhere
    · refine List.pairwise_append.mpr ⟨hhere, ih _, fun a ha b hb => ?_⟩
      obtain ⟨i, hi, rfl⟩ := List.mem_map.mp ha
      obtain ⟨k, rfl, -, -⟩ := mem_setBitsFrom.mp hb
      have hlt := List.mem_range.mp (List.mem_filter.mp hi).1
      omega

/-- The bits of a vector after some were set. -/
theorem bit_foldl_setBit {set : List Nat} {ws : List UInt64}
    (h : ∀ b ∈ set, b / 64 < ws.length) (i : Nat) :
    bit (set.foldl setBit ws) i = true ↔ i ∈ set ∨ bit ws i = true := by
  induction set generalizing ws with
  | nil => simp
  | cons b set ih =>
    obtain ⟨hb, hset⟩ := List.forall_mem_cons.mp h
    rw [List.foldl_cons, ih (by simpa using hset), bit_setBit hb, Bool.or_eq_true,
      decide_eq_true_iff,
      List.mem_cons]
    tauto

end Puregit.BitWords
