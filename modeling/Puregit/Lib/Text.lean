import Mathlib.Data.Char
import Mathlib.Data.List.DropRight
import Mathlib.Data.List.Infix
import Mathlib.Data.List.Lex
import Mathlib.Order.Lattice
import Mathlib.Tactic.Ring

/-! # Byte strings and texts

A byte string is a list of bytes and a text a list of Unicode scalar values, so
that slicing, splitting and searching are list functions.  `toUtf8` is the text's
encoding and `fromUtf8` the strict decoder: it rejects overlong forms, surrogates
and values past the last plane.  `fromUtf8_toUtf8` says that decoding an encoded
text gives it back.
-/
namespace Puregit

/-- A byte string. -/
abbrev Bytes := List UInt8

/-- A text, as its Unicode scalar values. -/
abbrev Str := List Char

instance instLinearOrderUInt8 : LinearOrder UInt8 where
  le_refl := UInt8.le_refl
  le_trans := fun _ _ _ => UInt8.le_trans
  le_antisymm := fun _ _ => UInt8.le_antisymm
  le_total := UInt8.le_total
  lt_iff_le_not_ge := by
    intro a b
    rw [UInt8.lt_iff_toNat_lt, UInt8.le_iff_toNat_le, UInt8.le_iff_toNat_le]
    omega
  toDecidableLE := inferInstance

/-- The text a string literal denotes. -/
def str (s : String) : Str := s.toList

/-! ## UTF-8 -/

/-- The encoding of one scalar value. -/
def utf8Char (c : Char) : Bytes :=
  let n := c.toNat
  if n < 0x80 then [UInt8.ofNat n]
  else if n < 0x800 then [UInt8.ofNat (0xC0 + n / 64), UInt8.ofNat (0x80 + n % 64)]
  else if n < 0x10000 then
    [UInt8.ofNat (0xE0 + n / 4096), UInt8.ofNat (0x80 + n / 64 % 64), UInt8.ofNat (0x80 + n % 64)]
  else
    [UInt8.ofNat (0xF0 + n / 262144), UInt8.ofNat (0x80 + n / 4096 % 64),
      UInt8.ofNat (0x80 + n / 64 % 64), UInt8.ofNat (0x80 + n % 64)]

/-- The encoding of a text. -/
def toUtf8 (s : Str) : Bytes := s.flatMap utf8Char

/-- The bytes a string literal denotes. -/
def bytes (s : String) : Bytes := toUtf8 s.toList

/-- The scalar value `n`, if it is one at or above the least value `lo` that a
sequence of its length may encode. -/
def scalar (lo n : Nat) : Option Char :=
  if lo ≤ n ∧ n.isValidChar then some (Char.ofNat n) else none

/-- The low six bits of a continuation byte. -/
def contBits (b : UInt8) : Option Nat :=
  if 0x80 ≤ b.toNat ∧ b.toNat < 0xC0 then some (b.toNat - 0x80) else none

/-- The decoder's loop.  `k` continuation bytes are still due to the sequence being
read, whose bits so far are `acc` and whose least allowed value is `lo`; between
sequences `k` is zero. -/
def utf8Go (lo acc k : Nat) : Bytes → Option Str
  | [] => if k = 0 then some [] else none
  | b :: r =>
      if k = 0 then
        if b.toNat < 0x80 then (utf8Go 0 0 0 r).map (Char.ofNat b.toNat :: ·)
        else if b.toNat < 0xC0 then none
        else if b.toNat < 0xE0 then utf8Go 0x80 (b.toNat - 0xC0) 1 r
        else if b.toNat < 0xF0 then utf8Go 0x800 (b.toNat - 0xE0) 2 r
        else if b.toNat < 0xF8 then utf8Go 0x10000 (b.toNat - 0xF0) 3 r
        else none
      else
        (contBits b).bind fun x =>
          if k = 1 then
            (scalar lo (acc * 64 + x)).bind fun c => (utf8Go 0 0 0 r).map (c :: ·)
          else utf8Go lo (acc * 64 + x) (k - 1) r

/-- The text a byte string encodes, if it is well-formed UTF-8. -/
def fromUtf8 (b : Bytes) : Option Str := utf8Go 0 0 0 b

@[simp] theorem toUtf8_nil : toUtf8 [] = [] := rfl

@[simp] theorem toUtf8_cons (c : Char) (s : Str) : toUtf8 (c :: s) = utf8Char c ++ toUtf8 s := rfl

@[simp] theorem toUtf8_append (s t : Str) : toUtf8 (s ++ t) = toUtf8 s ++ toUtf8 t := by
  simp [toUtf8]

theorem toNat_lead {k x : Nat} (h : k + x < 256) : (UInt8.ofNat (k + x)).toNat = k + x :=
  UInt8.toNat_ofNat_of_lt' h

theorem contBits_ofNat {x : Nat} (h : x < 64) : contBits (UInt8.ofNat (0x80 + x)) = some x := by
  have hn : (UInt8.ofNat (0x80 + x)).toNat = 0x80 + x := toNat_lead (by omega)
  unfold contBits
  rw [hn, if_pos ⟨by omega, by omega⟩, Nat.add_sub_cancel_left]

theorem scalar_toNat (lo : Nat) (c : Char) (h : lo ≤ c.toNat) : scalar lo c.toNat = some c := by
  have hv : c.toNat.isValidChar := c.valid
  simp [scalar, h, hv, Char.ofNat_toNat]

/-- A continuation byte that is not the last of its sequence. -/
theorem utf8Go_cont {lo acc k x : Nat} (hk : 1 < k) (hx : x < 64) (r : Bytes) :
    utf8Go lo acc k (UInt8.ofNat (0x80 + x) :: r) = utf8Go lo (acc * 64 + x) (k - 1) r := by
  have h0 : k ≠ 0 := by omega
  have h1 : k ≠ 1 := by omega
  simp only [utf8Go, h0, h1, if_false, contBits_ofNat hx, Option.bind_some]

/-- The last continuation byte of the sequence that encodes `c`. -/
theorem utf8Go_last {lo acc x : Nat} {c : Char} (hx : x < 64) (hc : acc * 64 + x = c.toNat)
    (hlo : lo ≤ c.toNat) (r : Bytes) :
    utf8Go lo acc 1 (UInt8.ofNat (0x80 + x) :: r) = (fromUtf8 r).map (c :: ·) := by
  simp only [utf8Go, Nat.one_ne_zero, if_false, if_true, contBits_ofNat hx, Option.bind_some, hc,
    scalar_toNat lo c hlo, fromUtf8]

/-- One encoded scalar value is decoded first, whatever follows it. -/
theorem fromUtf8_utf8Char (c : Char) (rest : Bytes) :
    fromUtf8 (utf8Char c ++ rest) = (fromUtf8 rest).map (c :: ·) := by
  have hmax : c.toNat < 0x110000 := by
    rcases c.valid with h | h
    · exact Nat.lt_trans h (by decide)
    · exact h.2
  unfold utf8Char fromUtf8
  by_cases h1 : c.toNat < 0x80
  · have hn : (UInt8.ofNat c.toNat).toNat = c.toNat :=
      UInt8.toNat_ofNat_of_lt' (Nat.lt_trans h1 (by decide))
    simp only [h1, if_true, List.cons_append, List.nil_append, utf8Go, hn, Char.ofNat_toNat]
  by_cases h2 : c.toNat < 0x800
  · have hlead : (UInt8.ofNat (0xC0 + c.toNat / 64)).toNat = 0xC0 + c.toNat / 64 :=
      toNat_lead (by omega)
    simp only [h1, h2, if_false, if_true, List.cons_append, List.nil_append]
    rw [utf8Go, if_pos rfl, hlead, if_neg (by omega), if_neg (by omega), if_pos (by omega)]
    exact utf8Go_last (Nat.mod_lt _ (by decide)) (by omega) (by omega) rest
  by_cases h3 : c.toNat < 0x10000
  · have hlead : (UInt8.ofNat (0xE0 + c.toNat / 4096)).toNat = 0xE0 + c.toNat / 4096 :=
      toNat_lead (by omega)
    simp only [h1, h2, h3, if_false, if_true, List.cons_append, List.nil_append]
    rw [utf8Go, if_pos rfl, hlead, if_neg (by omega), if_neg (by omega), if_neg (by omega),
      if_pos (by omega), utf8Go_cont (by decide) (Nat.mod_lt _ (by decide))]
    exact utf8Go_last (Nat.mod_lt _ (by decide)) (by omega) (by omega) rest
  · have hlead : (UInt8.ofNat (0xF0 + c.toNat / 262144)).toNat = 0xF0 + c.toNat / 262144 :=
      toNat_lead (by omega)
    simp only [h1, h2, h3, if_false, List.cons_append, List.nil_append]
    rw [utf8Go, if_pos rfl, hlead, if_neg (by omega), if_neg (by omega), if_neg (by omega),
      if_neg (by omega), if_pos (by omega), utf8Go_cont (by decide) (Nat.mod_lt _ (by decide)),
      utf8Go_cont (by decide) (Nat.mod_lt _ (by decide))]
    exact utf8Go_last (Nat.mod_lt _ (by decide)) (by omega) (by omega) rest

/-- **Decoding an encoded text gives the text back.** -/
@[simp] theorem fromUtf8_toUtf8 (s : Str) : fromUtf8 (toUtf8 s) = some s := by
  induction s with
  | nil => rfl
  | cons c s ih => rw [toUtf8_cons, fromUtf8_utf8Char, ih]; rfl

/-- A byte within a sequence is a continuation byte. -/
theorem utf8Go_byte {lo acc k : Nat} {bs : Bytes} {s : Str}
    (h : utf8Go lo acc (k + 1) bs = some s) :
    ∃ x < 64, ∃ r, bs = UInt8.ofNat (0x80 + x) :: r ∧
      (if k + 1 = 1 then (scalar lo (acc * 64 + x)).bind fun c => (utf8Go 0 0 0 r).map (c :: ·)
        else utf8Go lo (acc * 64 + x) k r) = some s := by
  cases bs with
  | nil => simp [utf8Go] at h
  | cons b r =>
    rw [utf8Go, if_neg (by omega)] at h
    obtain ⟨x, hx, h⟩ := Option.bind_eq_some_iff.mp h
    rw [contBits] at hx
    split at hx
    · next hrange =>
      have hbits := Option.some.inj hx
      have hbyte : UInt8.ofNat (0x80 + x) = b := by
        rw [show 0x80 + x = b.toNat by omega, UInt8.ofNat_toNat]
      exact ⟨x, by omega, r, by rw [hbyte], h⟩
    · cases hx

theorem utf8Go_more {lo acc k : Nat} {bs : Bytes} {s : Str}
    (h : utf8Go lo acc (k + 2) bs = some s) :
    ∃ x < 64, ∃ r, bs = UInt8.ofNat (0x80 + x) :: r ∧
      utf8Go lo (acc * 64 + x) (k + 1) r = some s := by
  obtain ⟨x, hx, r, hbs, h⟩ := utf8Go_byte h
  rw [if_neg (by omega)] at h
  exact ⟨x, hx, r, hbs, h⟩

/-- The last byte of a sequence makes a scalar value. -/
theorem utf8Go_one {lo acc : Nat} {bs : Bytes} {s : Str} (h : utf8Go lo acc 1 bs = some s) :
    ∃ x < 64, ∃ r c t, bs = UInt8.ofNat (0x80 + x) :: r ∧ s = c :: t ∧ lo ≤ c.toNat ∧
      c.toNat = acc * 64 + x ∧
      fromUtf8 r = some t := by
  obtain ⟨x, hx, r, hbs, h⟩ := utf8Go_byte h
  rw [if_pos rfl] at h
  obtain ⟨c, hc, h⟩ := Option.bind_eq_some_iff.mp h
  obtain ⟨t, ht, rfl⟩ := Option.map_eq_some_iff.mp h
  rw [scalar] at hc
  split at hc
  · next hvalid =>
    obtain ⟨hlo, hvalid⟩ := hvalid
    have hn : c.toNat = acc * 64 + x := by
      rw [← Option.some.inj hc, Char.ofNat, dif_pos hvalid]
      rfl
    exact ⟨x, hx, r, c, t, hbs, rfl, hn ▸ hlo, hn, ht⟩
  · cases hc

/-- **A text encodes to what it was decoded from.** -/
theorem toUtf8_of_fromUtf8 {bs : Bytes} {s : Str} (h : fromUtf8 bs = some s) : toUtf8 s = bs := by
  induction hn : bs.length using Nat.strong_induction_on generalizing bs s with
  | _ n ih =>
    subst hn
    cases bs with
    | nil =>
      cases h
      rfl
    | cons b r =>
      rw [fromUtf8, utf8Go, if_pos rfl] at h
      have hlead : ∀ n, n = b.toNat → UInt8.ofNat n = b := fun n hn => by rw [hn, UInt8.ofNat_toNat]
      split at h
      · next hone =>
        obtain ⟨t, ht, rfl⟩ := Option.map_eq_some_iff.mp h
        have hchar : (Char.ofNat b.toNat).toNat = b.toNat := by
          rw [Char.ofNat, dif_pos (Or.inl (by omega))]
          rfl
        rw [toUtf8_cons, ih _ (by simp) ht rfl, utf8Char, hchar, if_pos hone, UInt8.ofNat_toNat]
        rfl
      split at h
      · cases h
      split at h
      · obtain ⟨x, hx, r₁, c, t, rfl, rfl, hlo, hc, ht⟩ := utf8Go_one h
        rw [toUtf8_cons, ih _ (by simp only [List.length_cons]; omega) ht rfl, utf8Char,
          if_neg (by omega), if_pos (by omega),
          hlead _ (by omega), show 0x80 + c.toNat % 64 = 0x80 + x by omega]
        rfl
      split at h
      · obtain ⟨x, hx, r₁, rfl, h₁⟩ := utf8Go_more h
        obtain ⟨y, hy, r₂, c, t, rfl, rfl, hlo, hc, ht⟩ := utf8Go_one h₁
        rw [toUtf8_cons, ih _ (by simp only [List.length_cons]; omega) ht rfl, utf8Char,
          if_neg (by omega), if_neg (by omega),
          if_pos (by omega), hlead _ (by omega), show 0x80 + c.toNat / 64 % 64 = 0x80 + x by omega,
          show 0x80 + c.toNat % 64 = 0x80 + y by omega]
        rfl
      split at h
      · obtain ⟨x, hx, r₁, rfl, h₁⟩ := utf8Go_more h
        obtain ⟨y, hy, r₂, rfl, h₂⟩ := utf8Go_more h₁
        obtain ⟨z, hz, r₃, c, t, rfl, rfl, hlo, hc, ht⟩ := utf8Go_one h₂
        rw [toUtf8_cons, ih _ (by simp only [List.length_cons]; omega) ht rfl, utf8Char,
          if_neg (by omega), if_neg (by omega),
          if_neg (by omega), hlead _ (by omega), show 0x80 + c.toNat / 4096 % 64 =
            0x80 + x by omega,
          show 0x80 + c.toNat / 64 % 64 = 0x80 +
            y by omega, show 0x80 + c.toNat % 64 = 0x80 + z by omega]
        rfl
      · cases h

/-- An encoding determines its text. -/
theorem toUtf8_injective {s t : Str} (h : toUtf8 s = toUtf8 t) : s = t := by
  have := congrArg fromUtf8 h
  simpa using this

/-- A byte below 128 is the encoding of the character of its value and part of no other. -/
theorem ascii_mem_utf8Char {c : Char} {b : UInt8} (hb : b.toNat < 0x80) :
    b ∈ utf8Char c ↔ c = Char.ofNat b.toNat := by
  have hbyte : ∀ k, 0x80 ≤ k → k < 256 → b ≠ UInt8.ofNat k := by
    rintro k hlow hhigh rfl
    rw [UInt8.toNat_ofNat_of_lt' (by simpa [UInt8.size] using hhigh)] at hb
    omega
  have hmax : c.toNat < 0x110000 := by
    rcases c.valid with h | h
    · exact Nat.lt_trans h (by decide)
    · exact h.2
  have hvalue : c = Char.ofNat b.toNat ↔ c.toNat = b.toNat := by
    have hvalid : b.toNat.isValidChar := Or.inl (by omega)
    constructor
    · rintro rfl
      rw [Char.ofNat, dif_pos hvalid]
      rfl
    · intro h
      rw [← Char.ofNat_toNat c, h]
  rw [hvalue, utf8Char]
  split
  · next hlt =>
    rw [List.mem_singleton, ← UInt8.toNat_inj,
      UInt8.toNat_ofNat_of_lt' (by simp [UInt8.size]; omega), eq_comm]
  · have hother : c.toNat ≠ b.toNat := by omega
    simp only [hother, iff_false]
    split
    · simp only [List.mem_cons, List.not_mem_nil, or_false, not_or]
      exact ⟨hbyte _ (by omega) (by omega), hbyte _ (by omega) (by omega)⟩
    split
    · simp only [List.mem_cons, List.not_mem_nil, or_false, not_or]
      exact ⟨hbyte _ (by omega) (by omega), hbyte _ (by omega) (by omega),
        hbyte _ (by omega) (by omega)⟩
    · simp only [List.mem_cons, List.not_mem_nil, or_false, not_or]
      exact ⟨hbyte _ (by omega) (by omega), hbyte _ (by omega) (by omega),
        hbyte _ (by omega) (by omega), hbyte _ (by omega) (by omega)⟩

theorem ascii_mem_toUtf8 {s : Str} {b : UInt8} (hb : b.toNat < 0x80) :
    b ∈ toUtf8 s ↔ Char.ofNat b.toNat ∈ s := by
  induction s with
  | nil => simp
  | cons c s ih => rw [toUtf8_cons, List.mem_append, ih, ascii_mem_utf8Char hb,
    List.mem_cons, eq_comm]

/-- Bytes below 128 are characters. -/
theorem fromUtf8_ascii {b : Bytes} (h : ∀ x ∈ b, x.toNat < 128) :
    fromUtf8 b = some (b.map fun x => Char.ofNat x.toNat) := by
  rw [fromUtf8]
  induction b with
  | nil => rfl
  | cons x b ih =>
      rw [List.forall_mem_cons] at h
      rw [utf8Go, if_pos rfl, if_pos h.1, ih h.2]
      rfl

/-! ## Lossy decoding -/

/-- A multi-byte sequence being read: how many continuation bytes are due, the bits so
far, and the range the next byte has to be in. -/
structure Utf8Lead where
  need : Nat
  acc : Nat
  lo : Nat
  hi : Nat

/-- What a leading byte at or above `0x80` starts. -/
def utf8Lead (n : Nat) : Option Utf8Lead :=
  if 0xC2 ≤ n ∧ n ≤ 0xDF then some ⟨1, n - 0xC0, 0x80, 0xBF⟩
  else if n = 0xE0 then some ⟨2, 0, 0xA0, 0xBF⟩
  else if n = 0xED then some ⟨2, 0xD, 0x80, 0x9F⟩
  else if 0xE1 ≤ n ∧ n ≤ 0xEF then some ⟨2, n - 0xE0, 0x80, 0xBF⟩
  else if n = 0xF0 then some ⟨3, 0, 0x90, 0xBF⟩
  else if n = 0xF4 then some ⟨3, 4, 0x80, 0x8F⟩
  else if 0xF1 ≤ n ∧ n ≤ 0xF3 then some ⟨3, n - 0xF0, 0x80, 0xBF⟩
  else none

/-- The replacement character. -/
def replacementChar : Char := Char.ofNat 0xFFFD

/-- The text of one byte between sequences, and the sequence it starts. -/
def lossyStart (b : UInt8) : Str × Option Utf8Lead :=
  if b.toNat < 0x80 then ([Char.ofNat b.toNat], none)
  else match utf8Lead b.toNat with
    | some l => ([], some l)
    | none => ([replacementChar], none)

/-- `String::from_utf8_lossy`: a sequence that breaks off is one replacement character,
and the byte that broke it is read again. -/
def lossyGo (st : Option Utf8Lead) : Bytes → Str
  | [] => if st.isSome then [replacementChar] else []
  | b :: r =>
    match st with
    | none => (lossyStart b).1 ++ lossyGo (lossyStart b).2 r
    | some l =>
      if l.lo ≤ b.toNat ∧ b.toNat ≤ l.hi then
        let acc := l.acc * 64 + (b.toNat - 0x80)
        if l.need = 1 then Char.ofNat acc :: lossyGo none r
        else lossyGo (some ⟨l.need - 1, acc, 0x80, 0xBF⟩) r
      else replacementChar :: (lossyStart b).1 ++ lossyGo (lossyStart b).2 r

/-- The text a byte string encodes, ill-formed parts replaced. -/
def fromUtf8Lossy (b : Bytes) : Str := lossyGo none b

/-! ## What is well-formed loses nothing -/

/-- A continuation byte in the range it has to be in. -/
theorem lossyGo_cont {need acc lo hi x : Nat} (hx : x < 64) (hlo : lo ≤ 0x80 + x)
    (hhi : 0x80 + x ≤ hi) (r : Bytes) : lossyGo (some ⟨need, acc, lo, hi⟩)
      (UInt8.ofNat (0x80 + x) :: r) =
      if need = 1 then Char.ofNat (acc * 64 + x) :: lossyGo none r
      else lossyGo (some ⟨need - 1, acc * 64 + x, 0x80, 0xBF⟩) r := by
  have hn : (UInt8.ofNat (0x80 + x)).toNat = 0x80 + x := toNat_lead (by omega)
  simp only [lossyGo]
  rw [hn, if_pos ⟨hlo, hhi⟩, Nat.add_sub_cancel_left]

/-- The byte a sequence begins with. -/
theorem lossyGo_lead {n : Nat} (hn : n < 256) (hlow : 0x80 ≤ n) {l : Utf8Lead}
    (hl : utf8Lead n = some l) (r : Bytes) :
    lossyGo none (UInt8.ofNat n :: r) = lossyGo (some l) r := by
  have hto : (UInt8.ofNat n).toNat = n := UInt8.toNat_ofNat_of_lt' hn
  rw [lossyGo, lossyStart, hto, if_neg (by omega), hl]
  rfl

theorem utf8Lead_two {c : Nat} (hlow : 0x80 ≤ c) (hhigh : c < 0x800) :
    utf8Lead (0xC0 + c / 64) = some ⟨1, c / 64, 0x80, 0xBF⟩ := by
  rw [utf8Lead, if_pos ⟨by omega, by omega⟩, Nat.add_sub_cancel_left]

/-- The second byte of three stays out of the ranges of overlong forms and of surrogates. -/
theorem utf8Lead_three {c : Nat} (hlow : 0x800 ≤ c) (hhigh : c < 0x10000)
    (hvalid : c < 0xD800 ∨ 0xDFFF < c) :
    ∃ lo hi, utf8Lead (0xE0 + c / 4096) = some ⟨2, c / 4096, lo, hi⟩ ∧
      lo ≤ 0x80 + c / 64 % 64 ∧ 0x80 + c / 64 % 64 ≤ hi := by
  rw [utf8Lead, if_neg (by omega)]
  by_cases hfirst : 0xE0 + c / 4096 = 0xE0
  · rw [if_pos hfirst]
    have hacc : c / 4096 = 0 := by omega
    exact ⟨0xA0, 0xBF, by rw [hacc], by omega, by omega⟩
  rw [if_neg hfirst]
  by_cases hsurrogate : 0xE0 + c / 4096 = 0xED
  · rw [if_pos hsurrogate]
    have hacc : c / 4096 = 0xD := by omega
    exact ⟨0x80, 0x9F, by rw [hacc], by omega, by omega⟩
  rw [if_neg hsurrogate, if_pos ⟨by omega, by omega⟩]
  exact ⟨0x80, 0xBF, by rw [Nat.add_sub_cancel_left], by omega, by omega⟩

/-- The second byte of four stays out of the ranges of overlong forms and past the last
character. -/
theorem utf8Lead_four {c : Nat} (hlow : 0x10000 ≤ c) (hhigh : c < 0x110000) :
    ∃ lo hi, utf8Lead (0xF0 + c / 262144) = some ⟨3, c / 262144, lo, hi⟩ ∧
      lo ≤ 0x80 + c / 4096 % 64 ∧ 0x80 + c / 4096 % 64 ≤ hi := by
  rw [utf8Lead, if_neg (by omega), if_neg (by omega), if_neg (by omega), if_neg (by omega)]
  by_cases hfirst : 0xF0 + c / 262144 = 0xF0
  · rw [if_pos hfirst]
    have hacc : c / 262144 = 0 := by omega
    exact ⟨0x90, 0xBF, by rw [hacc], by omega, by omega⟩
  rw [if_neg hfirst]
  by_cases hlast : 0xF0 + c / 262144 = 0xF4
  · rw [if_pos hlast]
    have hacc : c / 262144 = 4 := by omega
    exact ⟨0x80, 0x8F, by rw [hacc], by omega, by omega⟩
  rw [if_neg hlast, if_pos ⟨by omega, by omega⟩]
  exact ⟨0x80, 0xBF, by rw [Nat.add_sub_cancel_left], by omega, by omega⟩

theorem lossyGo_utf8Char (c : Char) (rest : Bytes) :
    lossyGo none (utf8Char c ++ rest) = c :: lossyGo none rest := by
  have hvalid : c.toNat < 0xD800 ∨ 0xDFFF < c.toNat := by
    rcases c.valid with h | h
    · exact Or.inl h
    · exact Or.inr h.1
  have hmax : c.toNat < 0x110000 := by
    rcases c.valid with h | h
    · exact Nat.lt_trans h (by decide)
    · exact h.2
  have hback : ∀ n, n = c.toNat → Char.ofNat n :: lossyGo none rest = c :: lossyGo none rest := by
    rintro n rfl
    rw [Char.ofNat_toNat]
  have hmod : ∀ n, n % 64 < 64 := fun n => Nat.mod_lt n (by decide)
  unfold utf8Char
  by_cases h1 : c.toNat < 0x80
  · have hn : (UInt8.ofNat c.toNat).toNat = c.toNat :=
      UInt8.toNat_ofNat_of_lt' (Nat.lt_trans h1 (by decide))
    simp only [h1, if_true, List.cons_append, List.nil_append, lossyGo, lossyStart, hn,
      Char.ofNat_toNat]
  by_cases h2 : c.toNat < 0x800
  · simp only [h1, h2, if_false, if_true, List.cons_append, List.nil_append]
    rw [lossyGo_lead (by omega) (by omega) (utf8Lead_two (by omega) h2),
      lossyGo_cont (hmod _) (by omega) (by omega), if_pos rfl]
    exact hback _ (by omega)
  by_cases h3 : c.toNat < 0x10000
  · obtain ⟨lo, hi, hlead, hlo, hhi⟩ := utf8Lead_three (by omega) h3 hvalid
    simp only [h1, h2, h3, if_false, if_true, List.cons_append, List.nil_append]
    rw [lossyGo_lead (by omega) (by omega) hlead, lossyGo_cont (hmod _) hlo hhi, if_neg (by decide),
      lossyGo_cont (hmod _) (by omega) (by omega), if_pos rfl]
    exact hback _ (by omega)
  · obtain ⟨lo, hi, hlead, hlo, hhi⟩ := utf8Lead_four (by omega) hmax
    simp only [h1, h2, h3, if_false, List.cons_append, List.nil_append]
    rw [lossyGo_lead (by omega) (by omega) hlead, lossyGo_cont (hmod _) hlo hhi, if_neg (by decide),
      lossyGo_cont (hmod _) (by omega) (by omega), if_neg (by decide),
      lossyGo_cont (hmod _) (by omega) (by omega), if_pos rfl]
    exact hback _ (by omega)

/-- **Decoding an encoded text lossily gives the text back.** -/
@[simp] theorem fromUtf8Lossy_toUtf8 (s : Str) : fromUtf8Lossy (toUtf8 s) = s := by
  unfold fromUtf8Lossy
  induction s with
  | nil => rfl
  | cons c s ih => rw [toUtf8_cons, lossyGo_utf8Char, ih]

/-! ## Searching and splitting -/

/-- `White_Space`, the property `str::trim` strips. -/
def isWhitespace (c : Char) : Bool :=
  let n := c.toNat
  (0x09 ≤ n && n ≤ 0x0D) || n == 0x20 || n == 0x85 || n == 0xA0 || n == 0x1680
    || (0x2000 ≤ n && n ≤ 0x200A) || n == 0x2028 || n == 0x2029 || n == 0x202F || n == 0x205F
    || n == 0x3000

/-- The text without leading and trailing white space. -/
def trim (s : Str) : Str :=
  ((s.dropWhile isWhitespace).reverse.dropWhile isWhitespace).reverse

/-- A text without white space is trimmed. -/
theorem trim_of_not_whitespace {s : Str} (h : ∀ c ∈ s, isWhitespace c = false) : trim s = s := by
  have hfree : ∀ t : Str, (∀ c ∈ t, isWhitespace c = false) → t.dropWhile isWhitespace = t := by
    intro t ht
    cases t with
    | nil => rfl
    | cons c t => rw [List.dropWhile_cons_of_neg (by simp [ht c List.mem_cons_self])]
  rw [trim, hfree s h, hfree _ fun c hc => h c (List.mem_reverse.mp hc), List.reverse_reverse]

/-- **Trimming twice is trimming once.** -/
theorem trim_trim (s : Str) : trim (trim s) = trim s := by
  have hr : ∀ t : Str, trim t = (t.dropWhile isWhitespace).rdropWhile isWhitespace := fun _ => rfl
  have hhead : ∀ t : Str, t.head? = (s.dropWhile isWhitespace).head? →
      t.dropWhile isWhitespace = t := by
    intro t ht
    cases t with
    | nil => rfl
    | cons c t =>
        rw [List.head?_cons] at ht
        have hc := List.head?_dropWhile_not isWhitespace s
        rw [← ht] at hc
        rw [List.dropWhile_cons_of_neg (by simpa using hc)]
  have hdrop : (trim s).dropWhile isWhitespace = trim s := by
    by_cases hnil : trim s = []
    · rw [hnil, List.dropWhile_nil]
    · obtain ⟨t, ht⟩ := List.rdropWhile_prefix isWhitespace (s.dropWhile isWhitespace)
      rw [← hr] at ht
      refine hhead _ ?_
      rw [← ht]
      cases h : trim s with
      | nil => exact absurd h hnil
      | cons c r => rfl
  rw [hr (trim s), hdrop, hr s, List.rdropWhile_idempotent]

theorem trim_eq (s : Str) : trim s = (s.dropWhile isWhitespace).rdropWhile isWhitespace := rfl

/-- A text without white space at its ends. -/
def Unpadded (s : Str) : Prop :=
  (∀ c ∈ s.head?, isWhitespace c = false) ∧ ∀ c ∈ s.getLast?, isWhitespace c = false

/-- **Trimming changes no text but a padded one.** -/
theorem trim_eq_self_iff {s : Str} : trim s = s ↔ Unpadded s := by
  rw [trim_eq]
  constructor
  · intro h
    have hprefix := List.rdropWhile_prefix isWhitespace (s.dropWhile isWhitespace)
    have hdrop : s.dropWhile isWhitespace = s := by
      refine (List.dropWhile_suffix isWhitespace).eq_of_length_le ?_
      rw [h] at hprefix
      exact hprefix.length_le
    rw [hdrop] at h
    refine ⟨fun c hc => ?_, fun c hc => ?_⟩
    · have hhead := List.head?_dropWhile_not isWhitespace s
      rw [hdrop, hc] at hhead
      exact hhead
    · obtain ⟨hne, hlast⟩ := List.mem_getLast?_eq_getLast hc
      rw [hlast]
      exact Bool.not_eq_true _ ▸ List.rdropWhile_eq_self_iff.mp h hne
  · rintro ⟨hhead, hlast⟩
    have hdrop : s.dropWhile isWhitespace = s := by
      cases s with
      | nil => rfl
      | cons c s => rw [List.dropWhile_cons_of_neg (by simp [hhead c rfl])]
    rw [hdrop, List.rdropWhile_eq_self_iff]
    intro hne
    rw [hlast _ (List.getLast?_eq_some_getLast hne)]
    exact Bool.false_ne_true

/-- A text with a character that is no white space is not trimmed away. -/
theorem trim_ne_nil {s : Str} {c : Char} (hc : c ∈ s) (hspace : isWhitespace c = false) :
    trim s ≠ [] := by
  intro hnil
  rw [trim, List.reverse_eq_nil_iff, List.dropWhile_eq_nil_iff] at hnil
  have hdrop : s.dropWhile isWhitespace = [] := by
    by_contra hne
    obtain ⟨d, r, hd⟩ := List.exists_cons_of_ne_nil hne
    have hhead := List.head?_dropWhile_not isWhitespace s
    rw [hd, List.head?_cons] at hhead
    have hfirst : isWhitespace d = false := hhead
    rw [hd] at hnil
    rw [hnil d (List.mem_reverse.mpr List.mem_cons_self)] at hfirst
    cases hfirst
  rw [List.dropWhile_eq_nil_iff.mp hdrop c hc] at hspace
  cases hspace

section Lists
variable {α : Type} [DecidableEq α]

/-- What follows the prefix `p`, if the list starts with it. -/
def stripPrefix? : List α → List α → Option (List α)
  | [], s => some s
  | _ :: _, [] => none
  | a :: p, b :: s => if a = b then stripPrefix? p s else none

/-- What precedes the suffix `p`, if the list ends with it. -/
def stripSuffix? (p s : List α) : Option (List α) :=
  (stripPrefix? p.reverse s.reverse).map List.reverse

/-- The parts before and after the first `a`. -/
def splitOnce (a : α) : List α → Option (List α × List α)
  | [] => none
  | b :: s => if b = a then some ([], s) else (splitOnce a s).map fun r => (b :: r.1, r.2)

theorem stripPrefix?_eq_some {p s r : List α} : stripPrefix? p s = some r ↔ s = p ++ r := by
  induction p generalizing s with
  | nil => simp [stripPrefix?, eq_comm]
  | cons a p ih =>
      cases s with
      | nil => simp [stripPrefix?]
      | cons b s =>
          by_cases h : a = b
          · simp [stripPrefix?, h, ih]
          · simp [stripPrefix?, h, Ne.symm h]

theorem splitOnce_eq_some {a : α} {s x y : List α} :
    splitOnce a s = some (x, y) ↔ s = x ++ a :: y ∧ a ∉ x := by
  induction s generalizing x with
  | nil => simp [splitOnce]
  | cons b s ih =>
      by_cases h : b = a
      · subst h
        cases x with
        | nil => simp [splitOnce]
        | cons c x =>
            simp only [splitOnce, if_true, List.cons_append, List.cons.injEq, List.mem_cons,
              not_or]
            constructor
            · intro hc; simp at hc
            · rintro ⟨⟨rfl, -⟩, hn, -⟩; exact absurd rfl hn
      · cases x with
        | nil => simp [splitOnce, h]
        | cons c x =>
            simp only [splitOnce, h, if_false, Option.map_eq_some_iff, Prod.mk.injEq,
              List.cons_append, List.cons.injEq, List.mem_cons, not_or]
            constructor
            · rintro ⟨⟨x', y'⟩, he, ⟨rfl, rfl⟩, rfl⟩
              obtain ⟨hs, hx⟩ := ih.mp he
              exact ⟨⟨rfl, hs⟩, Ne.symm h, hx⟩
            · rintro ⟨⟨rfl, rfl⟩, -, hx⟩
              exact ⟨(x, y), ih.mpr ⟨rfl, hx⟩, ⟨rfl, rfl⟩, rfl⟩

theorem splitOnce_eq_none {a : α} {s : List α} : splitOnce a s = none ↔ a ∉ s := by
  induction s with
  | nil => simp [splitOnce]
  | cons b s ih =>
      rw [splitOnce, List.mem_cons, not_or]
      by_cases h : b = a
      · rw [if_pos h]
        simp [h]
      · rw [if_neg h, Option.map_eq_none_iff, ih]
        exact ⟨fun hs => ⟨Ne.symm h, hs⟩, fun hs => hs.2⟩

/-- The parts of a split list are of its members, but for what it was split at. -/
theorem mem_part_splitOn {a : α} {s part : List α} (h : part ∈ s.splitOn a) :
    ∀ x ∈ part, x ≠ a ∧ x ∈ s := by
  induction s generalizing part with
  | nil =>
      rw [List.splitOn_nil, List.mem_singleton] at h
      rw [h]
      exact List.forall_mem_nil _
  | cons b s ih =>
      have hcons : ∀ part ∈ s.splitOn a, ∀ x ∈ part, x ≠ a ∧ x ∈ b :: s := fun part hpart x hx =>
        ⟨(ih hpart x hx).1, List.mem_cons_of_mem b (ih hpart x hx).2⟩
      rw [List.splitOn_cons_eq_if_modifyHead] at h
      by_cases hb : b = a
      · rw [if_pos (by simpa using hb)] at h
        rcases List.mem_cons.mp h with rfl | h
        · exact List.forall_mem_nil _
        · exact hcons part h
      · rw [if_neg (by simpa using hb)] at h
        cases hs : s.splitOn a with
        | nil => exact absurd hs (List.splitOn_ne_nil a s)
        | cons head parts =>
            rw [hs] at h hcons
            rcases List.mem_cons.mp h with rfl | h
            · exact List.forall_mem_cons.mpr ⟨⟨hb, List.mem_cons_self⟩,
                hcons head List.mem_cons_self⟩
            · exact hcons part (List.mem_cons_of_mem head h)

/-- The parts of a split list do not hold what it was split at. -/
theorem not_mem_of_mem_splitOn {a : α} {s part : List α} (h : part ∈ s.splitOn a) :
    a ∉ part := fun ha =>
  (mem_part_splitOn h a ha).1 rfl

/-- What is in a part is in the list. -/
theorem mem_of_mem_splitOn {a x : α} {s part : List α} (h : part ∈ s.splitOn a)
    (hx : x ∈ part) : x ∈ s :=
  (mem_part_splitOn h x hx).2

end Lists

/-- The parts of a text between white space. -/
def splitWhitespace (s : Str) : List Str := (s.splitOnP isWhitespace).filter (· ≠ [])

theorem splitWhitespace_word {a : Str} (ha : a ≠ [])
    (hspace : ∀ c ∈ a, isWhitespace c = false) (s : Str) :
    splitWhitespace (a ++ ' ' :: s) = a :: splitWhitespace s := by
  rw [splitWhitespace, List.splitOnP_append_cons_of_forall_mem hspace ' ' (by decide),
    List.filter_cons_of_pos (by simpa using ha)]
  rfl

theorem splitWhitespace_single {a : Str} (ha : a ≠ []) (hspace : ∀ c ∈ a, isWhitespace c = false) :
    splitWhitespace a = [a] := by
  rw [splitWhitespace, List.splitOnP_eq_singleton hspace,
    List.filter_cons_of_pos (by simpa using ha), List.filter_nil]

/-- Whether `t` occurs in `s`. -/
def occurs (t s : Str) : Bool := decide (t <:+: s)

/-- Whether `s` starts with `t`. -/
def startsWith (s t : Str) : Bool := t.isPrefixOf s

/-- Whether `s` ends with `t`. -/
def endsWith (s t : Str) : Bool := t.isSuffixOf s

/-- A line without the carriage return before its end. -/
def chompCr (l : Str) : Str :=
  if l.getLast? = some (Char.ofNat 13) then l.dropLast else l

/-- `str::lines`: the parts between newlines, an empty last part dropped and a
carriage return before a newline with it. -/
def lines (s : Str) : List Str :=
  let parts := s.splitOn '\n'
  if parts.getLast? = some [] then parts.dropLast.map chompCr
  else parts.dropLast.map chompCr ++ parts.getLast?.toList

/-- Parts that were ended by a mark are split at it again. -/
theorem splitOn_flatMap {α : Type} [DecidableEq α] {a : α} {ls : List (List α)}
    (h : ∀ l ∈ ls, a ∉ l) :
    (ls.flatMap (· ++ [a])).splitOn a = ls ++ [[]] := by
  induction ls with
  | nil => rfl
  | cons l ls ih =>
    obtain ⟨hl, hls⟩ := List.forall_mem_cons.mp h
    rw [List.flatMap_cons, List.append_assoc, List.singleton_append,
      List.splitOn_append_cons_self_of_not_mem hl, ih hls, List.cons_append]

/-- **Lines that hold no newline and do not end in a carriage return are read back.** -/
theorem lines_flatMap {ls : List Str} (hnl : ∀ l ∈ ls, '\n' ∉ l)
    (hcr : ∀ l ∈ ls, l.getLast? ≠ some (Char.ofNat 13)) :
    lines (ls.flatMap (· ++ ['\n'])) = ls := by
  have hsplit := splitOn_flatMap hnl
  have hmap : ls.map chompCr = ls := by
    conv_rhs => rw [← List.map_id ls]
    refine List.map_congr_left fun l hl => ?_
    rw [chompCr, if_neg (hcr l hl), id]
  simp only [lines]
  rw [hsplit, List.getLast?_concat, if_pos rfl, List.dropLast_concat, hmap]

/-! ## Numbers -/

/-- The value of a run of decimal digits; the empty run has none. -/
def parseDigits (s : Str) : Option Nat :=
  if s.isEmpty then none
  else s.foldl (fun acc c => acc.bind fun n =>
    if '0' ≤ c ∧ c ≤ '9' then some (n * 10 + (c.toNat - 48)) else none) (some 0)

/-- `str::parse::<i64>`: an optional sign and digits, in range. -/
def parseI64 (s : Str) : Option Int :=
  let value : Option Int := match s with
    | '-' :: r => (parseDigits r).map fun n => -(n : Int)
    | '+' :: r => (parseDigits r).map Int.ofNat
    | r => (parseDigits r).map Int.ofNat
  value.bind fun n => if -(2 ^ 63) ≤ n ∧ n < 2 ^ 63 then some n else none

/-- `str::parse` of an unsigned type: an optional plus sign and digits, below `bound`. -/
def parseUnsigned (bound : Nat) (s : Str) : Option Nat :=
  let value := match s with
    | '+' :: r => parseDigits r
    | r => parseDigits r
  value.bind fun n => if n < bound then some n else none

/-- `str::parse::<u32>`. -/
def parseU32 (s : Str) : Option Nat := parseUnsigned (2 ^ 32) s

/-- `str::parse::<u64>`. -/
def parseU64 (s : Str) : Option Nat := parseUnsigned (2 ^ 64) s

end Puregit
