import Puregit.Lib.Text

/-! # Base 64

Three bytes are spelled in four characters of six bits each.  One or two last bytes are spelled in
two or three characters, and `=` fills the group.  The decoder shifts six bits at a time into a
register of 32 and takes a byte out whenever eight have arrived; it passes over white space and
`=`, so it does not matter into which lines a text was cut.

`decode_encode` says that what was spelled is read back.  Cut into lines of whole groups, no line
starts with the filler: `chunks_encode`.
-/
namespace Puregit
namespace Base64

variable {ε : Type}

/-- The 64 characters. -/
def alphabet : Str := str "ABCDEFGHIJKLMNOPQRSTUVWXYZabcdefghijklmnopqrstuvwxyz0123456789+/"

/-- The character of six bits. -/
def digit (n : Nat) : Char := alphabet.getD n 'A'

/-- The six bits of a character. -/
def value (c : UInt8) : Option Nat :=
  let n := c.toNat
  if 65 ≤ n ∧ n ≤ 90 then some (n - 65)
  else if 97 ≤ n ∧ n ≤ 122 then some (n - 97 + 26)
  else if 48 ≤ n ∧ n ≤ 57 then some (n - 48 + 52)
  else if n = 43 then some 62
  else if n = 47 then some 63
  else none

/-- A byte that the decoder passes over: `=` and ASCII white space. -/
def isFiller (c : UInt8) : Bool := c = 61 || c = 32 || c = 9 || c = 10 || c = 12 || c = 13

/-- Spells bytes. -/
def encode : Bytes → Str
  | [] => []
  | [a] => [digit (a.toNat / 4), digit (a.toNat % 4 * 16), '=', '=']
  | [a, b] => [digit (a.toNat / 4), digit (a.toNat % 4 * 16 + b.toNat / 16),
    digit (b.toNat % 16 * 4), '=']
  | a :: b :: c :: rest =>
    digit (a.toNat / 4) :: digit (a.toNat % 4 * 16 + b.toNat / 16) ::
      digit (b.toNat % 16 * 4 + c.toNat / 64) :: digit (c.toNat % 64) :: encode rest

/-- Reads characters, of which `bits` bits that make no byte yet are the low ones of `acc`. -/
def decodeLoop (bad : ε) : Bytes → Nat → Nat → Except ε Bytes
  | [], _, _ => .ok []
  | c :: rest, acc, bits =>
    if isFiller c then decodeLoop bad rest acc bits
    else
      match value c with
      | none => .error bad
      | some v =>
        let acc := (acc * 64 + v) % 2 ^ 32
        if 8 ≤ bits + 6 then do
          let out ← decodeLoop bad rest acc (bits + 6 - 8)
          .ok (UInt8.ofNat (acc / 2 ^ (bits + 6 - 8)) :: out)
        else decodeLoop bad rest acc (bits + 6)

/-- Reads a text. -/
def decode (bad : ε) (text : Str) : Except ε Bytes := decodeLoop bad (toUtf8 text) 0 0

/-! ## Reading back -/

/-- A character is one byte, that of its six bits. -/
theorem utf8Char_digit {n : Nat} (h : n < 64) : ∃ c, utf8Char (digit n) = [c] ∧ value c = some n ∧
    isFiller c = false := by
  have hall : ∀ n < 64, (utf8Char (digit n)).length = 1 ∧
    value ((utf8Char (digit n)).headD 0) = some n ∧
      isFiller ((utf8Char (digit n)).headD 0) = false := by decide +kernel
  obtain ⟨hlen, hvalue, hfiller⟩ := hall n h
  obtain ⟨c, hc⟩ := List.length_eq_one_iff.mp hlen
  rw [hc] at hvalue hfiller
  exact ⟨c, hc, hvalue, hfiller⟩

/-- The step: six bits are shifted in. -/
theorem decodeLoop_digit (bad : ε) {n : Nat} (h : n < 64) (rest : Str) (acc bits : Nat) :
    decodeLoop bad (toUtf8 (digit n :: rest)) acc bits =
      if 8 ≤ bits + 6 then do
        let out ← decodeLoop bad (toUtf8 rest) ((acc * 64 + n) % 2 ^ 32) (bits + 6 - 8)
        .ok (UInt8.ofNat ((acc * 64 + n) % 2 ^ 32 / 2 ^ (bits + 6 - 8)) :: out)
      else decodeLoop bad (toUtf8 rest) ((acc * 64 + n) % 2 ^ 32) (bits + 6) := by
  obtain ⟨c, hc, hvalue, hfiller⟩ := utf8Char_digit h
  rw [toUtf8_cons, hc, List.singleton_append, decodeLoop, if_neg (by simp [hfiller])]
  simp only [hvalue]

theorem decodeLoop_filler (bad : ε) (rest : Str) (acc bits : Nat) :
    decodeLoop bad (toUtf8 ('=' :: rest)) acc bits = decodeLoop bad (toUtf8 rest) acc bits := by
  have hchar : utf8Char '=' = [61] := rfl
  rw [toUtf8_cons, hchar, List.singleton_append, decodeLoop]
  exact if_pos rfl

theorem ofNat_eq {n : Nat} {b : UInt8} (h : n % 256 = b.toNat) : UInt8.ofNat n = b := by
  rw [← UInt8.toNat_inj, UInt8.toNat_ofNat', h]

/-- What is in the register above the bits that count does not matter. -/
theorem decodeLoop_encode (bad : ε) (bs : Bytes) (acc : Nat) :
    decodeLoop bad (toUtf8 (encode bs)) acc 0 = .ok bs := by
  induction bs using encode.induct generalizing acc with
  | case1 => rfl
  | case2 a =>
    have ha := a.toNat_lt
    rw [encode, decodeLoop_digit bad (by omega), if_neg (by decide),
      decodeLoop_digit bad (by omega),
      if_pos (by decide), decodeLoop_filler, decodeLoop_filler]
    show Except.ok [_] = _
    rw [ofNat_eq (b := a) (by omega)]
  | case3 a b =>
    have ha := a.toNat_lt
    have hb := b.toNat_lt
    rw [encode, decodeLoop_digit bad (by omega), if_neg (by decide),
      decodeLoop_digit bad (by omega),
      if_pos (by decide), decodeLoop_digit bad (by omega), if_pos (by decide), decodeLoop_filler]
    show Except.ok [_, _] = _
    rw [ofNat_eq (b := a) (by omega), ofNat_eq (b := b) (by omega)]
  | case4 a b c rest ih =>
    have ha := a.toNat_lt
    have hb := b.toNat_lt
    have hc := c.toNat_lt
    rw [encode, decodeLoop_digit bad (by omega), if_neg (by decide),
      decodeLoop_digit bad (by omega),
      if_pos (by decide), decodeLoop_digit bad (by omega), if_pos (by decide),
        decodeLoop_digit bad (by omega),
      if_pos (by decide), ih]
    show Except.ok (_ :: _ :: _ :: rest) = _
    rw [ofNat_eq (b := a) (by omega), ofNat_eq (b := b) (by omega), ofNat_eq (b := c) (by omega)]

/-- **What was spelled is read back.** -/
theorem decode_encode (bad : ε) (bs : Bytes) : decode bad (encode bs) = .ok bs :=
  decodeLoop_encode bad bs 0

/-! ## In lines -/

/-- Cuts a list into parts of `width` each; the last may be shorter. -/
def chunks {α : Type} (width : Nat) : List α → List (List α)
  | [] => []
  | a :: rest => (a :: rest.take (width - 1)) :: chunks width (rest.drop (width - 1))
termination_by l => l.length
decreasing_by
  rw [List.length_drop, List.length_cons]
  omega

theorem flatten_chunks {α : Type} (width : Nat) (l : List α) : (chunks width l).flatten = l := by
  induction l using chunks.induct width with
  | case1 => rw [chunks, List.flatten_nil]
  | case2 a rest ih => rw [chunks, List.flatten_cons, ih, List.cons_append, List.take_append_drop]

theorem mem_of_mem_chunks {α : Type} {width : Nat} {l part : List α} (h : part ∈ chunks width l) :
    part ≠ [] ∧ ∀ a ∈ part, a ∈ l := by
  constructor
  · induction l using chunks.induct width with
    | case1 =>
      rw [chunks] at h
      cases h
    | case2 a rest ih =>
      rw [chunks] at h
      rcases List.mem_cons.mp h with rfl | h
      · exact List.cons_ne_nil _ _
      · exact ih h
  · intro a ha
    rw [← flatten_chunks width l]
    exact List.mem_flatten_of_mem h ha

theorem mem_encode {bs : Bytes} {c : Char} (h : c ∈ encode bs) :
    c = '=' ∨ ∃ n < 64, c = digit n := by
  induction bs using encode.induct with
  | case1 => cases h
  | case2 a =>
    have ha := a.toNat_lt
    rw [encode] at h
    simp only [List.mem_cons, List.not_mem_nil, or_false] at h
    rcases h with rfl | rfl | rfl | rfl
    · exact Or.inr ⟨_, by omega, rfl⟩
    · exact Or.inr ⟨_, by omega, rfl⟩
    · exact Or.inl rfl
    · exact Or.inl rfl
  | case3 a b =>
    have ha := a.toNat_lt
    have hb := b.toNat_lt
    rw [encode] at h
    simp only [List.mem_cons, List.not_mem_nil, or_false] at h
    rcases h with rfl | rfl | rfl | rfl
    · exact Or.inr ⟨_, by omega, rfl⟩
    · exact Or.inr ⟨_, by omega, rfl⟩
    · exact Or.inr ⟨_, by omega, rfl⟩
    · exact Or.inl rfl
  | case4 a b c rest ih =>
    have ha := a.toNat_lt
    have hb := b.toNat_lt
    have hc := c.toNat_lt
    rw [encode] at h
    simp only [List.mem_cons] at h
    rcases h with rfl | rfl | rfl | rfl | h
    · exact Or.inr ⟨_, by omega, rfl⟩
    · exact Or.inr ⟨_, by omega, rfl⟩
    · exact Or.inr ⟨_, by omega, rfl⟩
    · exact Or.inr ⟨_, by omega, rfl⟩
    · exact ih h

/-- A character that is used is one byte, no white space and no dash. -/
theorem char_spec {bs : Bytes} {c : Char} (h : c ∈ encode bs) :
    isWhitespace c = false ∧ c ≠ '-' := by
  have hall : ∀ n < 64, isWhitespace (digit n) = false ∧ digit n ≠ '-' := by decide +kernel
  rcases mem_encode h with rfl | ⟨n, hn, rfl⟩
  · decide
  · exact hall n hn

theorem encode_ne_nil {bs : Bytes} (h : bs ≠ []) : encode bs ≠ [] := by
  cases bs using encode.induct with
  | case1 => exact absurd rfl h
  | case2 a => exact List.cons_ne_nil _ _
  | case3 a b => exact List.cons_ne_nil _ _
  | case4 a b c rest => exact List.cons_ne_nil _ _

/-- A text starts with a group, so not with the filler. -/
theorem head?_encode (bs : Bytes) : (encode bs).head? ≠ some '=' := by
  have hall : ∀ n < 64, digit n ≠ '=' := by decide +kernel
  have hdigit : ∀ a : UInt8, digit (a.toNat / 4) ≠ '=' :=
    fun a => hall _ (by have := a.toNat_lt; omega)
  cases bs using encode.induct with
  | case1 => exact nofun
  | case2 a => exact fun h => hdigit a (Option.some.inj h)
  | case3 a b => exact fun h => hdigit a (Option.some.inj h)
  | case4 a b c rest => exact fun h => hdigit a (Option.some.inj h)

/-- Behind whole groups are the groups of the bytes behind. -/
theorem drop_encode (groups : Nat) (bs : Bytes) :
    (encode bs).drop (groups * 4) = encode (bs.drop (groups * 3)) := by
  induction groups generalizing bs with
  | zero => simp
  | succ groups ih =>
    have hmul4 : (groups + 1) * 4 = groups * 4 + 1 + 1 + 1 + 1 := by omega
    have hmul3 : (groups + 1) * 3 = groups * 3 + 1 + 1 + 1 := by omega
    rw [hmul4, hmul3]
    cases bs using encode.induct with
    | case1 => simp [encode]
    | case2 a => simp [encode]
    | case3 a b => simp [encode]
    | case4 a b c rest =>
      rw [encode]
      simp only [List.drop_succ_cons]
      exact ih rest

/-- **No line of whole groups starts with the filler.** -/
theorem chunks_encode {groups : Nat} (hgroups : 0 < groups) {bs : Bytes} {part : Str}
    (h : part ∈ chunks (groups * 4) (encode bs)) : part.head? ≠ some '=' := by
  induction hn : bs.length using Nat.strong_induction_on generalizing bs with
  | _ n ih =>
    subst hn
    cases htext : encode bs with
    | nil =>
      rw [htext, chunks] at h
      cases h
    | cons c rest =>
      have hhead := head?_encode bs
      rw [htext] at h hhead
      rw [chunks] at h
      rcases List.mem_cons.mp h with rfl | h
      · exact hhead
      · have hdrop := drop_encode groups bs
        rw [htext] at hdrop
        obtain ⟨w, hw⟩ : ∃ w, groups * 4 = w + 1 := ⟨groups * 4 - 1, by omega⟩
        rw [hw, Nat.add_sub_cancel] at h
        rw [hw, List.drop_succ_cons] at hdrop
        rw [hdrop, ← hw] at h
        have hne : bs ≠ [] := by
          rintro rfl
          cases htext
        have hlen := List.length_pos_iff.mpr hne
        exact ih _ (by rw [List.length_drop]; omega) h rfl

end Base64
end Puregit
