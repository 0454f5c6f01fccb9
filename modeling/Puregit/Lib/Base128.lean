import Puregit.Lib.Exec
import Puregit.Lib.Text
import Mathlib.Tactic.Ring

/-! # Base-128 numbers

Two ways to spell a number in bytes of seven bits each, the top bit telling whether
another byte follows.  `groups` puts the least significant group first; a reader may
start at a shift above zero, when the low bits of the number were read elsewhere.
`biased` puts the most significant group first and takes one off the number at every
further byte, so that no number has two spellings.  Numbers are of 64 bits: a reader
loses the bits above, and refuses a group that would lie above them entirely.

`readGroups_groups` and `readBiased_biased` say that reading what was written gives
the number back and leaves what follows it; `readGroups_ok` and `readBiased_ok` say what
is made of any other bytes.
-/
namespace Puregit
namespace Base128

variable {ε : Type}

/-! ## Least significant group first -/

/-- The groups of a number; `fuel` bounds their count. -/
def groupsUpTo : Nat → Nat → Bytes
  | 0, _ => []
  | fuel + 1, n =>
    if n / 128 = 0 then [UInt8.ofNat (n % 128)]
    else UInt8.ofNat (128 + n % 128) :: groupsUpTo fuel (n / 128)

/-- The groups of a number, least significant first. -/
def groups (n : Nat) : Bytes := groupsUpTo (n + 1) n

/-- Reads groups into a number of which the bits below `shift` are known. -/
def readGroups (short tooLong : ε) : Bytes → Nat → Nat → Except ε (Nat × Bytes)
  | [], _, _ => .error short
  | b :: rest, value, shift =>
    if 64 ≤ shift then .error tooLong
    else
      let value := value ||| (b.toNat % 128) <<< shift % 2 ^ 64
      if b.toNat < 128 then .ok (value, rest)
      else readGroups short tooLong rest value (shift + 7)

/-- Reading groups ends with the last of them. -/
theorem readGroups_local {short tooLong : ε} {data left : Bytes} {value shift n : Nat}
    (h : readGroups short tooLong data value shift = .ok (n, left)) :
    ∃ used, data = used ++ left ∧ ∀ left', readGroups short tooLong (used ++ left') value shift =
      .ok (n, left') := by
  induction data generalizing value shift with
  | nil => cases h
  | cons b rest ih =>
      rw [readGroups] at h
      split at h
      · cases h
      rename_i hshift
      simp only at h
      by_cases hlast : b.toNat < 128
      · rw [if_pos hlast] at h
        cases h
        refine ⟨[b], rfl, fun left' => ?_⟩
        rw [List.singleton_append, readGroups, if_neg hshift]
        exact if_pos hlast
      · rw [if_neg hlast] at h
        obtain ⟨used, rfl, hsame⟩ := ih h
        refine ⟨b :: used, rfl, fun left' => ?_⟩
        rw [List.cons_append, readGroups, if_neg hshift]
        exact (if_neg hlast).trans (hsame left')

theorem length_groupsUpTo_le : ∀ (fuel n : Nat), n < fuel → (groupsUpTo fuel n).length ≤ n + 1 := by
  intro fuel
  induction fuel with
  | zero =>
    intro n h
    omega
  | succ fuel ih =>
    intro n h
    rw [groupsUpTo]
    split
    · simp
    · next hn =>
      have hrest : (groupsUpTo fuel (n / 128)).length ≤ n / 128 + 1 := ih _ (by omega)
      rw [List.length_cons]
      omega

theorem length_groups_le (n : Nat) : (groups n).length ≤ n + 1 :=
  length_groupsUpTo_le _ _ (Nat.lt_succ_self n)

/-- A group below the others, as a sum. -/
theorem lor_shift {value shift x : Nat} (hv : value < 2 ^ shift) (hx : x * 2 ^ shift < 2 ^ 64) :
    value ||| x <<< shift % 2 ^ 64 = value + x * 2 ^ shift := by
  rw [Nat.shiftLeft_eq, Nat.mod_eq_of_lt hx, ← Nat.shiftLeft_eq, Nat.or_comm,
    ← Nat.shiftLeft_add_eq_or_of_lt hv]
  omega

theorem readGroups_groupsUpTo (short tooLong : ε) (rest : Bytes) : ∀ (fuel n value shift : Nat),
    n < fuel → value < 2 ^ shift → shift < 64 → n * 2 ^ shift < 2 ^ 64 →
    readGroups short tooLong (groupsUpTo fuel n ++ rest) value shift =
      .ok (value + n * 2 ^ shift, rest) := by
  intro fuel
  induction fuel with
  | zero =>
    intro n _ _ h
    omega
  | succ fuel ih =>
    intro n value shift hn hv hs hlt
    have hpow : 2 ^ (shift + 7) = 128 * 2 ^ shift := by
      rw [Nat.pow_add]
      omega
    have hparts : n * 2 ^ shift = n % 128 * 2 ^ shift + n / 128 * 2 ^ (shift + 7) := by
      rw [hpow]
      have hsplit : n = n % 128 + 128 * (n / 128) := (Nat.mod_add_div n 128).symm
      calc n * 2 ^ shift = (n % 128 + 128 * (n / 128)) * 2 ^ shift := by rw [← hsplit]
        _ = n % 128 * 2 ^ shift + n / 128 * (128 * 2 ^ shift) := by ring
    have hor : value ||| (n % 128) <<< shift % 2 ^ 64 = value + n % 128 * 2 ^ shift :=
      lor_shift hv (by omega)
    rw [groupsUpTo]
    split
    · next hq =>
      have hb : (UInt8.ofNat (n % 128)).toNat = n % 128 := UInt8.toNat_ofNat_of_lt' (by
        show n % 128 < 256
        omega)
      rw [List.singleton_append, readGroups, if_neg (by omega), hb, Nat.mod_mod, hor,
        if_pos (by omega), hparts, hq]
      simp
    · next hq =>
      have hb : (UInt8.ofNat (128 + n % 128)).toNat = 128 + n % 128 :=
        UInt8.toNat_ofNat_of_lt' (by
          show 128 + n % 128 < 256
          omega)
      have hlow : (128 + n % 128) % 128 = n % 128 := by omega
      -- a further group is not zero, so that it lies below bit 64
      have hshift : shift + 7 < 64 := by
        by_contra hge
        have h64 : 2 ^ 64 ≤ 2 ^ (shift + 7) := Nat.pow_le_pow_right (by omega) (by omega)
        have hone : 2 ^ (shift + 7) ≤ n / 128 * 2 ^ (shift + 7) :=
          Nat.le_mul_of_pos_left _ (by omega)
        omega
      have hvalue : value + n % 128 * 2 ^ shift < 2 ^ (shift + 7) := by
        have hle : n % 128 * 2 ^ shift ≤ 127 * 2 ^ shift := Nat.mul_le_mul_right _ (by omega)
        omega
      rw [List.cons_append, readGroups, if_neg (by omega), hb, hlow, hor, if_neg (by omega),
        ih _ _ _ (by omega) hvalue hshift (by omega), hparts, Nat.add_assoc]

/-- **Reading the groups of a number at a shift adds it there.** -/
theorem readGroups_groups (short tooLong : ε) (rest : Bytes) (n : Nat) {value shift : Nat}
    (hv : value < 2 ^ shift) (hs : shift < 64) (hn : n * 2 ^ shift < 2 ^ 64) :
    readGroups short tooLong (groups n ++ rest) value shift = .ok (value + n * 2 ^ shift, rest) :=
  readGroups_groupsUpTo short tooLong rest _ n value shift (Nat.lt_succ_self n) hv hs hn

/-! ## Most significant group first, biased -/

/-- The groups above the lowest, put before `acc`; `fuel` bounds their count. -/
def biasedUpTo : Nat → Nat → Bytes → Bytes
  | 0, _, acc => acc
  | fuel + 1, n, acc =>
    if n = 0 then acc
    else biasedUpTo fuel ((n - 1) / 128) (UInt8.ofNat (128 + (n - 1) % 128) :: acc)

/-- The biased groups of a number, most significant first. -/
def biased (n : Nat) : Bytes := biasedUpTo (n / 128) (n / 128) [UInt8.ofNat (n % 128)]

/-- Reads the groups that follow those of value `value`. -/
def readBiasedFrom (short : ε) : Bytes → Nat → Except ε (Nat × Bytes)
  | [], _ => .error short
  | b :: rest, value =>
    let value := ((value + 1) <<< 7 ||| b.toNat % 128) % 2 ^ 64
    if b.toNat < 128 then .ok (value, rest) else readBiasedFrom short rest value

/-- Reads a biased number. -/
def readBiased (short : ε) : Bytes → Except ε (Nat × Bytes)
  | [] => .error short
  | b :: rest =>
    if b.toNat < 128 then .ok (b.toNat % 128, rest)
    else readBiasedFrom short rest (b.toNat % 128)

theorem readBiasedFrom_local {short : ε} {data left : Bytes} {value n : Nat}
    (h : readBiasedFrom short data value = .ok (n, left)) :
    ∃ used, data = used ++ left ∧ ∀ left', readBiasedFrom short (used ++ left') value =
      .ok (n, left') := by
  induction data generalizing value with
  | nil => cases h
  | cons b rest ih =>
      rw [readBiasedFrom] at h
      by_cases hlast : b.toNat < 128
      · rw [if_pos hlast] at h
        cases h
        refine ⟨[b], rfl, fun left' => ?_⟩
        rw [List.singleton_append, readBiasedFrom]
        exact if_pos hlast
      · rw [if_neg hlast] at h
        obtain ⟨used, rfl, hsame⟩ := ih h
        refine ⟨b :: used, rfl, fun left' => ?_⟩
        rw [List.cons_append, readBiasedFrom]
        exact (if_neg hlast).trans (hsame left')

/-- Reading a biased number ends with its last group. -/
theorem readBiased_local {short : ε} {data left : Bytes} {n : Nat}
    (h : readBiased short data = .ok (n, left)) :
    ∃ used, data = used ++ left ∧ ∀ left', readBiased short (used ++ left') = .ok (n, left') := by
  cases data with
  | nil => cases h
  | cons b rest =>
      rw [readBiased] at h
      by_cases hlast : b.toNat < 128
      · rw [if_pos hlast] at h
        cases h
        refine ⟨[b], rfl, fun left' => ?_⟩
        rw [List.singleton_append, readBiased, if_pos hlast]
      · rw [if_neg hlast] at h
        obtain ⟨used, rfl, hsame⟩ := readBiasedFrom_local h
        refine ⟨b :: used, rfl, fun left' => ?_⟩
        rw [List.cons_append, readBiased, if_neg hlast, hsame]

theorem lor_group {value x : Nat} (hx : x < 128) (h : (value + 1) * 128 + x < 2 ^ 64) :
    ((value + 1) <<< 7 ||| x) % 2 ^ 64 = (value + 1) * 128 + x := by
  rw [← Nat.shiftLeft_add_eq_or_of_lt (by omega : x < 2 ^ 7), Nat.shiftLeft_eq,
    Nat.mod_eq_of_lt (by omega)]

/-- Reads the groups that follow those of value `value`, refusing a number of 65 bits. -/
def readCheckedFrom (short tooLong : ε) : Bytes → Nat → Except ε (Nat × Bytes)
  | [], _ => .error short
  | b :: rest, value =>
    if 2 ^ 64 ≤ (value + 1) * 128 then .error tooLong
    else
      let value := (value + 1) * 128 ||| b.toNat % 128
      if b.toNat < 128 then .ok (value, rest) else readCheckedFrom short tooLong rest value

/-- Reads a biased number, refusing one of 65 bits. -/
def readChecked (short tooLong : ε) : Bytes → Except ε (Nat × Bytes)
  | [] => .error short
  | b :: rest =>
    if b.toNat < 128 then .ok (b.toNat % 128, rest)
    else readCheckedFrom short tooLong rest (b.toNat % 128)

/-- A group that follows others. -/
theorem lor_checked {value x : Nat} (hx : x < 128) :
    (value + 1) * 128 ||| x = (value + 1) * 128 + x := by
  have hshift : (value + 1) <<< 7 = (value + 1) * 128 := Nat.shiftLeft_eq _ _
  rw [← hshift, Nat.shiftLeft_add_eq_or_of_lt (by omega : x < 2 ^ 7)]

/-- Where nothing overflows, the two readers agree. -/
theorem readBiasedFrom_of_checked {short tooLong : ε} {bs : Bytes} {value : Nat} {r : Nat × Bytes}
    (h : readCheckedFrom short tooLong bs value = .ok r) :
    readBiasedFrom short bs value = .ok r := by
  induction bs generalizing value with
  | nil => cases h
  | cons b bs ih =>
    unfold readCheckedFrom at h
    unfold readBiasedFrom
    by_cases hlong : 2 ^ 64 ≤ (value + 1) * 128
    · rw [if_pos hlong] at h
      cases h
    · rw [if_neg hlong] at h
      have hx : b.toNat % 128 < 128 := Nat.mod_lt _ (by decide)
      have hsame : ((value + 1) <<< 7 ||| b.toNat % 128) % 2 ^ 64 =
          (value + 1) * 128 ||| b.toNat % 128 := by
        rw [lor_group hx (by omega), lor_checked hx]
      rw [hsame]
      by_cases hlast : b.toNat < 128
      · rw [if_pos hlast] at h ⊢
        exact h
      · rw [if_neg hlast] at h ⊢
        exact ih h

theorem readBiased_of_checked {short tooLong : ε} {bs : Bytes} {r : Nat × Bytes}
    (h : readChecked short tooLong bs = .ok r) : readBiased short bs = .ok r := by
  cases bs with
  | nil => cases h
  | cons b bs =>
    rw [readChecked] at h
    rw [readBiased]
    by_cases hlast : b.toNat < 128
    · rw [if_pos hlast] at h ⊢
      exact h
    · rw [if_neg hlast] at h ⊢
      exact readBiasedFrom_of_checked h

/-- Reading groups put before `acc` comes to reading `acc` after their number, less one. -/
theorem readChecked_biasedUpTo (short tooLong : ε) :
    ∀ (fuel n : Nat) (acc : Bytes), 0 < n → n ≤ fuel →
    n ≤ 2 ^ 57 → readChecked short tooLong (biasedUpTo fuel n acc) =
      readCheckedFrom short tooLong acc (n - 1) := by
  intro fuel
  induction fuel with
  | zero =>
    intro n acc h0 hn
    omega
  | succ fuel ih =>
    intro n acc h0 hn hlt
    have hb : (UInt8.ofNat (128 + (n - 1) % 128)).toNat = 128 + (n - 1) % 128 :=
      UInt8.toNat_ofNat_of_lt' (by
        show 128 + (n - 1) % 128 < 256
        omega)
    have hlow : (128 + (n - 1) % 128) % 128 = (n - 1) % 128 := by omega
    rw [biasedUpTo, if_neg (by omega)]
    by_cases hq : (n - 1) / 128 = 0
    · have hzero : biasedUpTo fuel ((n - 1) / 128) (UInt8.ofNat (128 + (n - 1) % 128) :: acc) =
          UInt8.ofNat (128 + (n - 1) % 128) :: acc := by
        rw [hq]
        cases fuel <;> simp [biasedUpTo]
      have hval : (n - 1) % 128 = n - 1 := by omega
      rw [hzero, readChecked, if_neg (by omega), hb, hlow, hval]
    · have hval : ((n - 1) / 128 - 1 + 1) * 128 + (n - 1) % 128 = n - 1 := by omega
      rw [ih _ _ (by omega) (by omega) (by omega), readCheckedFrom, if_neg (by omega), hb, hlow,
        lor_checked (by omega), hval, if_neg (by omega)]

theorem biasedUpTo_append (rest : Bytes) : ∀ (fuel n : Nat) (acc : Bytes),
    biasedUpTo fuel n acc ++ rest = biasedUpTo fuel n (acc ++ rest) := by
  intro fuel
  induction fuel with
  | zero =>
    intro n acc
    rfl
  | succ fuel ih =>
    intro n acc
    rw [biasedUpTo, biasedUpTo]
    split
    · rfl
    · rw [ih, List.cons_append]

/-- **Reading a biased number gives it back.** -/
theorem readChecked_biased (short tooLong : ε) (rest : Bytes) {n : Nat} (hn : n < 2 ^ 64) :
    readChecked short tooLong (biased n ++ rest) = .ok (n, rest) := by
  have hb : (UInt8.ofNat (n % 128)).toNat = n % 128 := UInt8.toNat_ofNat_of_lt' (by
    show n % 128 < 256
    omega)
  rw [biased, biasedUpTo_append, List.singleton_append]
  by_cases hq : n / 128 = 0
  · have hval : n % 128 = n := by omega
    rw [hq, biasedUpTo, readChecked, if_pos (by omega), hb, Nat.mod_mod, hval]
  · have hval : (n / 128 - 1 + 1) * 128 + n % 128 = n := by omega
    rw [readChecked_biasedUpTo short tooLong _ _ _ (by omega) (le_refl _) (by omega),
      readCheckedFrom,
      if_neg (by omega), hb, Nat.mod_mod, lor_checked (by omega), hval, if_pos (by omega)]

theorem readBiased_biased (short : ε) (rest : Bytes) {n : Nat} (hn : n < 2 ^ 64) :
    readBiased short (biased n ++ rest) = .ok (n, rest) :=
  readBiased_of_checked (readChecked_biased short short rest hn)

/-! ## What bytes spell -/

/-- The number that groups spell, however many there are, and what follows them. -/
def spelled : Bytes → Option (Nat × Bytes)
  | [] => none
  | b :: rest =>
    if b.toNat < 128 then some (b.toNat, rest)
    else (spelled rest).map fun r => (b.toNat % 128 + 128 * r.1, r.2)

/-- The number that biased groups spell which follow those of value `value`. -/
def spelledBiasedFrom : Bytes → Nat → Option (Nat × Bytes)
  | [], _ => none
  | b :: rest, value =>
    let value := (value + 1) * 128 + b.toNat % 128
    if b.toNat < 128 then some (value, rest) else spelledBiasedFrom rest value

/-- The number that biased groups spell. -/
def spelledBiased : Bytes → Option (Nat × Bytes)
  | [] => none
  | b :: rest => if b.toNat < 128 then some (b.toNat % 128,
    rest) else spelledBiasedFrom rest (b.toNat % 128)

theorem spelled_length {data left : Bytes} {n : Nat} (h : spelled data = some (n, left)) :
    left.length < data.length := by
  induction data generalizing n left with
  | nil => cases h
  | cons b data ih =>
    rw [spelled] at h
    split at h
    · cases h
      exact Nat.lt_succ_self _
    · obtain ⟨r, hr, h⟩ := Option.map_eq_some_iff.mp h
      cases h
      exact Nat.lt_succ_of_lt (ih hr)

/-- A group above the others, of which the bits from 64 on are lost. -/
theorem lor_shift_mod {value shift x : Nat} (hv : value < 2 ^ shift) (hs : shift < 64) :
    value ||| x <<< shift % 2 ^ 64 = (value + x * 2 ^ shift) % 2 ^ 64 := by
  have hpow : (2 : Nat) ^ 64 = 2 ^ (64 - shift) * 2 ^ shift := by
    rw [← Nat.pow_add, Nat.sub_add_cancel (by omega)]
  have hkept : x <<< shift % 2 ^ 64 = (x % 2 ^ (64 - shift)) <<< shift := by
    rw [Nat.shiftLeft_eq, Nat.shiftLeft_eq, hpow, Nat.mul_mod_mul_right]
  have hsum : value + x * 2 ^ shift % 2 ^ 64 < 2 ^ 64 := by
    have hlt : x % 2 ^ (64 - shift) < 2 ^ (64 - shift) := Nat.mod_lt _ (Nat.two_pow_pos _)
    calc value + x * 2 ^ shift % 2 ^ 64 = value + x % 2 ^ (64 - shift) * 2 ^ shift := by
          rw [hpow, Nat.mul_mod_mul_right]
      _ < 2 ^ shift + x % 2 ^ (64 - shift) * 2 ^ shift := Nat.add_lt_add_right hv _
      _ = (x % 2 ^ (64 - shift) + 1) * 2 ^ shift := by ring
      _ ≤ 2 ^ (64 - shift) * 2 ^ shift := Nat.mul_le_mul_right _ hlt
      _ = 2 ^ 64 := hpow.symm
  calc value ||| x <<< shift % 2 ^ 64 = x <<< shift % 2 ^ 64 + value := by
        rw [hkept, Nat.or_comm, ← Nat.shiftLeft_add_eq_or_of_lt hv]
    _ = value + x * 2 ^ shift % 2 ^ 64 := by rw [Nat.shiftLeft_eq, Nat.add_comm]
    _ = (value + x * 2 ^ shift % 2 ^ 64) % 2 ^ 64 := (Nat.mod_eq_of_lt hsum).symm
    _ = (value + x * 2 ^ shift) % 2 ^ 64 := Nat.add_mod_mod _ _ _

/-- **Groups are read modulo `2 ^ 64`**, if the last of them begins below bit 64. -/
theorem readGroups_ok {short tooLong : ε} {data left : Bytes} {value shift v : Nat}
    (hvalue : value < 2 ^ 64) (hv : value < 2 ^ shift) :
    readGroups short tooLong data value shift = .ok (v, left) ↔
      ∃ n, spelled data = some (n, left) ∧ shift + 7 * (data.length - left.length) < 71 ∧
        v = (value + n * 2 ^ shift) % 2 ^ 64 := by
  induction data generalizing value shift with
  | nil => simp [readGroups, spelled]
  | cons b data ih =>
    rw [readGroups, spelled]
    by_cases hs : 64 ≤ shift
    · rw [if_pos hs]
      constructor
      · intro h
        cases h
      · rintro ⟨n, hn, hlen, -⟩
        have hleft : left.length < (b :: data).length := by
          split at hn
          · cases hn
            exact Nat.lt_succ_self _
          · obtain ⟨r, hr, hn⟩ := Option.map_eq_some_iff.mp hn
            cases hn
            exact Nat.lt_succ_of_lt (spelled_length hr)
        omega
    rw [if_neg hs, lor_shift_mod hv (by omega)]
    by_cases hlast : b.toNat < 128
    · rw [if_pos hlast, if_pos hlast, Nat.mod_eq_of_lt hlast]
      constructor
      · intro h
        cases h
        refine ⟨_, rfl, ?_, rfl⟩
        rw [List.length_cons]
        omega
      · rintro ⟨n, hn, -, rfl⟩
        cases hn
        rfl
    · rw [if_neg hlast, if_neg hlast]
      have hnext : (value + b.toNat % 128 * 2 ^ shift) % 2 ^ 64 < 2 ^ (shift + 7) := by
        have hgroup : b.toNat % 128 * 2 ^ shift ≤ 127 * 2 ^ shift :=
          Nat.mul_le_mul_right _ (by omega)
        have hpow : 2 ^ (shift + 7) = 128 * 2 ^ shift := by
          rw [Nat.pow_add]
          ring
        have hle := Nat.mod_le (value + b.toNat % 128 * 2 ^ shift) (2 ^ 64)
        omega
      have hsum : ∀ n, ((value + b.toNat % 128 * 2 ^ shift) % 2 ^ 64 +
        n * 2 ^ (shift + 7)) % 2 ^ 64 =
          (value + (b.toNat % 128 + 128 * n) * 2 ^ shift) % 2 ^ 64 := by
        intro n
        rw [Nat.mod_add_mod, Nat.pow_add]
        congr 1
        ring
      rw [ih (Nat.mod_lt _ (by decide)) hnext]
      constructor
      · rintro ⟨n, hn, hlen, rfl⟩
        have hleft := spelled_length hn
        refine ⟨_, by rw [hn]; rfl, ?_, hsum n⟩
        rw [List.length_cons]
        omega
      · rintro ⟨n, hn, hlen, rfl⟩
        obtain ⟨⟨m, rest⟩, hm, hn⟩ := Option.map_eq_some_iff.mp hn
        cases hn
        have hleft := spelled_length hm
        rw [List.length_cons] at hlen
        exact ⟨m, hm, by omega, (hsum m).symm⟩

theorem readBiasedFrom_ok {short : ε} {data left : Bytes} {value v : Nat} :
    readBiasedFrom short data (value % 2 ^ 64) = .ok (v, left) ↔
      ∃ n, spelledBiasedFrom data value = some (n, left) ∧ v = n % 2 ^ 64 := by
  induction data generalizing value with
  | nil => simp [readBiasedFrom, spelledBiasedFrom]
  | cons b data ih =>
    have hgroup : ((value % 2 ^ 64 + 1) <<< 7 ||| b.toNat % 128) % 2 ^ 64 =
        ((value + 1) * 128 + b.toNat % 128) % 2 ^ 64 := by
      rw [← Nat.shiftLeft_add_eq_or_of_lt (by omega : b.toNat % 128 < 2 ^ 7), Nat.shiftLeft_eq]
      omega
    rw [readBiasedFrom, spelledBiasedFrom]
    simp only [hgroup]
    by_cases hlast : b.toNat < 128
    · rw [if_pos hlast, if_pos hlast]
      constructor
      · intro h
        cases h
        exact ⟨_, rfl, rfl⟩
      · rintro ⟨n, hn, rfl⟩
        cases hn
        rfl
    · rw [if_neg hlast, if_neg hlast]
      exact ih

/-- **Biased groups are read modulo `2 ^ 64`.** -/
theorem readBiased_ok {short : ε} {data left : Bytes} {v : Nat} :
    readBiased short data = .ok (v, left) ↔ ∃ n, spelledBiased data = some (n, left) ∧
      v = n % 2 ^ 64 := by
  cases data with
  | nil => simp [readBiased, spelledBiased]
  | cons b data =>
    have hsmall : b.toNat % 128 % 2 ^ 64 = b.toNat % 128 := Nat.mod_eq_of_lt (by omega)
    rw [readBiased, spelledBiased]
    by_cases hlast : b.toNat < 128
    · rw [if_pos hlast, if_pos hlast]
      constructor
      · intro h
        cases h
        exact ⟨_, rfl, hsmall.symm⟩
      · rintro ⟨n, hn, rfl⟩
        cases hn
        rw [hsmall]
    · rw [if_neg hlast, if_neg hlast, ← hsmall]
      rw [readBiasedFrom_ok, hsmall]

end Base128
end Puregit
