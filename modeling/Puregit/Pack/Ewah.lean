import Puregit.Lib.BitWords
import Puregit.Oid

/-! # Compressed bitmaps

A bitmap is compressed word by word: a run of clean words, all zeros or all ones, becomes a
count in a run-length word, which also counts the literal words that follow.  `Encodes`
relates compressed words to the words they stand for; `compress` establishes it and
`decompress` undoes it, so what is lost is nothing but a clean tail the bit size cuts off.
-/
namespace Puregit

/-- A compressed bitmap, the number of its bits, and where its last run-length word is. -/
structure Ewah where
  bitSize : Nat
  words : List UInt64
  rlwPosition : Nat
  deriving DecidableEq

namespace Ewah

/-- The word of a clean run. -/
def fill (bit : Bool) : UInt64 := if bit then 0xFFFFFFFFFFFFFFFF else 0

/-- Whether a word is not clean. -/
def isLiteral (w : UInt64) : Bool := w != fill false && w != fill true

/-- Packs a run-length word. -/
def makeRlw (bit : Bool) (runLen literals : Nat) : UInt64 :=
  (if bit then (1 : UInt64) else 0) ||| (UInt64.ofNat runLen <<< 1) |||
    (UInt64.ofNat literals <<< 33)

/-- Unpacks a run-length word. -/
def splitRlw (rlw : UInt64) : Bool × Nat × Nat :=
  (rlw &&& 1 != 0, ((rlw >>> 1) &&& 0xFFFFFFFF).toNat, ((rlw >>> 33) &&& 0x7FFFFFFF).toNat)

/-- Compresses words after those already written; each round takes one word at least. -/
def compressLoop : Nat → List UInt64 → List UInt64 → Nat → List UInt64 × Nat
  | 0, _, words, rlwPosition => (words, rlwPosition)
  | _ + 1, [], words, rlwPosition => (words, rlwPosition)
  | fuel + 1, w :: bits, words, _ =>
    let (bit, run, rest) :=
      if w = fill false ∨ w = fill true then
        (w == fill true, (w :: bits).takeWhile (· == w), (w :: bits).dropWhile (· == w))
      -- a literal without a clean run before it: an empty run
      else (false, [], w :: bits)
    let literals := rest.takeWhile isLiteral
    compressLoop fuel (rest.dropWhile isLiteral)
      (words ++ makeRlw bit run.length literals.length :: literals) words.length

/-- Compresses a bitmap of `bitSize` bits given as words. -/
def compress (bits : List UInt64) (bitSize : Nat) : Ewah :=
  let (words, rlwPosition) := compressLoop bits.length bits [] 0
  ⟨bitSize, if words.isEmpty then [makeRlw false 0 0] else words, rlwPosition⟩

/-- The words of a bitmap given as its set bits. -/
def setWords (set : List Nat) (bitSize : Nat) : List UInt64 :=
  set.foldl (fun ws b => if b < bitSize then BitWords.setBit ws b else ws)
    (List.replicate ((bitSize + 63) / 64) 0)

/-- Compresses a bitmap given as its set bits. -/
def fromSetBits (set : List Nat) (bitSize : Nat) : Ewah := compress (setWords set bitSize) bitSize

/-- The serialized form. -/
def toBytes (e : Ewah) : Bytes :=
  Sha.bigEndian 4 e.bitSize ++ Sha.bigEndian 4 e.words.length ++
    e.words.flatMap (fun w => Sha.bigEndian 8 w.toNat) ++ Sha.bigEndian 4 e.rlwPosition

/-- Reads words of eight bytes. -/
def readWords : Nat → Bytes → List UInt64
  | 0, _ => []
  | count + 1, data => UInt64.ofNat (number data 0 8) :: readWords count (data.drop 8)

/-- Parses the bitmap at the front of `data`, with the number of bytes it takes. -/
def fromBytes (data : Bytes) : Except Error (Ewah × Nat) :=
  if data.length < 8 then .error (.parse (str "ewah: truncated header"))
  else
    let wordCount := number data 4 4
    let wordsEnd := 8 + wordCount * 8
    if data.length < wordsEnd + 4 then .error (.parse (str "ewah: truncated words"))
    else .ok (⟨number data 0 4, readWords wordCount (data.drop 8),
      number data wordsEnd 4⟩, wordsEnd + 4)

/-- Decompresses words; each round takes one at least. -/
def decompressFrom : Nat → List UInt64 → List UInt64
  | 0, _ => []
  | _ + 1, [] => []
  | fuel + 1, rlw :: words =>
    let (bit, runLen, literals) := splitRlw rlw
    List.replicate runLen (fill bit) ++ words.take literals ++
      decompressFrom fuel (words.drop literals)

/-- The words of a bitmap. -/
def decompress (e : Ewah) : List UInt64 := decompressFrom e.words.length e.words

/-- The set bits of a bitmap. -/
def setBits (e : Ewah) : List Nat := BitWords.setBitsFrom e.bitSize 0 e.decompress

/-! ## Compression loses nothing -/

theorem splitRlw_makeRlw {bit : Bool} {runLen literals : Nat} (hrun : runLen < 2 ^ 32)
    (hliterals : literals < 2 ^ 31) :
    splitRlw (makeRlw bit runLen literals) = (bit, runLen, literals) := by
  -- the three fields do not overlap
  have hvalue : (makeRlw bit runLen literals).toNat =
      literals * 2 ^ 33 + (runLen * 2 + bit.toNat) := by
    have hbit : bit.toNat < 2 ^ 1 := by cases bit <;> decide
    have hlow : runLen * 2 ^ 1 + bit.toNat < 2 ^ 33 := by omega
    have hfirst : (if bit then (1 : UInt64) else 0).toNat = bit.toNat := by cases bit <;> rfl
    have hsecond : (UInt64.ofNat runLen <<< 1).toNat = runLen <<< 1 := by
      rw [UInt64.toNat_shiftLeft, UInt64.toNat_ofNat',
        Nat.mod_eq_of_lt (show runLen < 2 ^ 64 by omega)]
      show runLen <<< 1 % 2 ^ 64 = _
      rw [Nat.shiftLeft_eq]
      omega
    have hthird : (UInt64.ofNat literals <<< 33).toNat = literals <<< 33 := by
      rw [UInt64.toNat_shiftLeft, UInt64.toNat_ofNat',
        Nat.mod_eq_of_lt (show literals < 2 ^ 64 by omega)]
      show literals <<< 33 % 2 ^ 64 = _
      rw [Nat.shiftLeft_eq]
      omega
    unfold makeRlw
    rw [UInt64.toNat_or, UInt64.toNat_or, hfirst, hsecond, hthird, Nat.or_comm bit.toNat,
      ← Nat.shiftLeft_add_eq_or_of_lt hbit, Nat.or_comm, Nat.shiftLeft_eq runLen,
      ← Nat.shiftLeft_add_eq_or_of_lt hlow, Nat.shiftLeft_eq, Nat.pow_one]
  unfold splitRlw
  generalize makeRlw bit runLen literals = rlw at hvalue
  have hbit : (rlw &&& 1 != 0) = bit := by
    have hand : (rlw &&& 1).toNat = bit.toNat := by
      rw [UInt64.toNat_and, show (1 : UInt64).toNat = 1 from rfl, Nat.and_one_is_mod, hvalue]
      cases bit <;> simp only [Bool.toNat_true, Bool.toNat_false] <;> omega
    have hword : rlw &&& 1 = if bit then 1 else 0 := by
      apply UInt64.toNat_inj.mp
      rw [hand]
      cases bit <;> rfl
    rw [hword]
    cases bit <;> rfl
  have hsecond : ((rlw >>> 1) &&& 0xFFFFFFFF).toNat = runLen := by
    rw [UInt64.toNat_and, UInt64.toNat_shiftRight, show (0xFFFFFFFF : UInt64).toNat =
      2 ^ 32 - 1 from rfl,
      Nat.and_two_pow_sub_one_eq_mod, hvalue]
    show (literals * 2 ^ 33 + (runLen * 2 + bit.toNat)) >>> 1 % 2 ^ 32 = runLen
    rw [Nat.shiftRight_eq_div_pow]
    cases bit <;> simp only [Bool.toNat_true, Bool.toNat_false] <;> omega
  have hthird : ((rlw >>> 33) &&& 0x7FFFFFFF).toNat = literals := by
    rw [UInt64.toNat_and, UInt64.toNat_shiftRight, show (0x7FFFFFFF : UInt64).toNat =
      2 ^ 31 - 1 from rfl,
      Nat.and_two_pow_sub_one_eq_mod, hvalue]
    show (literals * 2 ^ 33 + (runLen * 2 + bit.toNat)) >>> 33 % 2 ^ 31 = literals
    rw [Nat.shiftRight_eq_div_pow]
    cases bit <;> simp only [Bool.toNat_true, Bool.toNat_false] <;> omega
  rw [hbit, hsecond, hthird]

/-- Compressed words and the words they stand for. -/
inductive Encodes : List UInt64 → List UInt64 → Prop
  | nil : Encodes [] []
  | run (bit : Bool) (runLen : Nat) (literals : List UInt64) {words bits : List UInt64}
      (hrun : runLen < 2 ^ 32) (hliterals : literals.length < 2 ^ 31) (hrest : Encodes words bits) :
      Encodes (makeRlw bit runLen literals.length :: literals ++ words)
        (List.replicate runLen (fill bit) ++ literals ++ bits)

variable {words words' bits bits' : List UInt64}

theorem Encodes.append (h : Encodes words bits) (h' : Encodes words' bits') :
    Encodes (words ++ words') (bits ++ bits') := by
  induction h with
  | nil => exact h'
  | run bit runLen literals hrun hliterals _ ih =>
    have hstep := Encodes.run bit runLen literals hrun hliterals ih
    rwa [← List.append_assoc, ← List.append_assoc] at hstep

theorem Encodes.decompress (h : Encodes words bits) {fuel : Nat} (hfuel : words.length ≤ fuel) :
    decompressFrom fuel words = bits := by
  induction h generalizing fuel with
  | nil => cases fuel <;> rfl
  | @run bit runLen literals words bits hrun hliterals _ ih =>
    cases fuel with
    | zero => simp at hfuel
    | succ fuel =>
      have hfuel' : words.length ≤ fuel := by
        simp only [List.cons_append, List.length_cons, List.length_append] at hfuel
        omega
      rw [List.cons_append, decompressFrom, splitRlw_makeRlw hrun hliterals]
      simp only [List.take_left, List.drop_left, ih hfuel']

theorem takeWhile_eq_replicate (w : UInt64) (l : List UInt64) :
    l.takeWhile (· == w) = List.replicate (l.takeWhile (· == w)).length w :=
  List.eq_replicate_iff.mpr ⟨rfl, fun x hx => by simpa using List.mem_takeWhile_imp hx⟩

/-- A round takes a run and literals, not both empty. -/
theorem compressLoop_round (fuel : Nat) (w : UInt64) (bits words : List UInt64)
    (rlwPosition : Nat) :
    ∃ bit runLen literals rest,
      w :: bits = List.replicate runLen (fill bit) ++ literals ++ rest ∧
        0 < runLen + literals.length ∧
      compressLoop (fuel + 1) (w :: bits) words rlwPosition = compressLoop fuel rest
        (words ++ makeRlw bit runLen literals.length :: literals) words.length := by
  rw [compressLoop]
  by_cases hclean : w = fill false ∨ w = fill true
  · rw [if_pos hclean]
    have hfill : fill (w == fill true) = w := by
      rcases hclean with rfl | rfl <;> rfl
    generalize hrest : (w :: bits).dropWhile (· == w) = rest
    refine ⟨w == fill true, ((w :: bits).takeWhile (· == w)).length, rest.takeWhile isLiteral,
      rest.dropWhile isLiteral, ?_, ?_, rfl⟩
    · rw [hfill, ← takeWhile_eq_replicate, List.append_assoc,
        List.takeWhile_append_dropWhile, ← hrest,
        List.takeWhile_append_dropWhile]
    · rw [List.takeWhile_cons_of_pos (by simp), List.length_cons]
      omega
  · rw [if_neg hclean]
    obtain ⟨hzero, hones⟩ := not_or.mp hclean
    have hliteral : isLiteral w = true := by simp [isLiteral, hzero, hones]
    refine ⟨false, 0, (w :: bits).takeWhile isLiteral, (w :: bits).dropWhile isLiteral, ?_, ?_, rfl⟩
    · rw [List.replicate_zero, List.nil_append, List.takeWhile_append_dropWhile]
    · rw [List.takeWhile_cons_of_pos hliteral, List.length_cons]
      omega

/-- **What is written stands for the words read.** -/
theorem compressLoop_encodes {fuel rlwPosition : Nat} {before : List UInt64}
    (hfuel : bits.length ≤ fuel) (hlen : bits.length < 2 ^ 31) (hwords : Encodes words before) :
    Encodes (compressLoop fuel bits words rlwPosition).1 (before ++ bits) := by
  induction fuel generalizing bits words before rlwPosition with
  | zero =>
    obtain rfl := List.length_eq_zero_iff.mp (Nat.le_zero.mp hfuel)
    rw [List.append_nil]
    exact hwords
  | succ fuel ih =>
    cases bits with
    | nil =>
      rw [List.append_nil]
      exact hwords
    | cons w bits =>
      obtain ⟨bit, runLen, literals, rest, hsplit, hprogress, hround⟩ :=
        compressLoop_round fuel w bits words rlwPosition
      rw [hsplit, List.length_append, List.length_append, List.length_replicate] at hfuel hlen
      have hwritten :=
        hwords.append (Encodes.run bit runLen literals (by omega) (by omega) Encodes.nil)
      rw [List.append_nil, List.append_nil] at hwritten
      rw [hround, hsplit, ← List.append_assoc]
      exact ih (by omega) (by omega) hwritten

/-- A round writes one word more than it takes literals. -/
theorem compressLoop_length {fuel rlwPosition : Nat} (hposition : rlwPosition ≤ words.length) :
    (compressLoop fuel bits words rlwPosition).1.length ≤ words.length + 2 * bits.length ∧
      (compressLoop fuel bits words rlwPosition).2 ≤
        (compressLoop fuel bits words rlwPosition).1.length := by
  induction fuel generalizing bits words rlwPosition with
  | zero => exact ⟨Nat.le_add_right _ _, hposition⟩
  | succ fuel ih =>
    cases bits with
    | nil => exact ⟨Nat.le_add_right _ _, hposition⟩
    | cons w bits =>
      obtain ⟨bit, runLen, literals, rest, hsplit, hprogress, hround⟩ :=
        compressLoop_round fuel w bits words rlwPosition
      have hlen := congrArg List.length hsplit
      rw [List.length_append, List.length_append, List.length_replicate] at hlen
      have hwritten : (words ++ makeRlw bit runLen literals.length :: literals).length =
          words.length + literals.length + 1 := by
        rw [List.length_append, List.length_cons, Nat.add_assoc]
      obtain ⟨hwords, hlast⟩ := @ih (words ++ makeRlw bit runLen literals.length :: literals) rest
        words.length (by omega)
      rw [hround, hlen]
      exact ⟨by omega, hlast⟩

/-! ## The last run-length word -/

/-- Where a walk over some words, the first of them word `i`, finds run-length words, `skip` literal
words being left of the last one. -/
def rlwPositions : Nat → Nat → List UInt64 → List Nat
  | _, _, [] => []
  | 0, i, rlw :: words => i :: rlwPositions (splitRlw rlw).2.2 (i + 1) words
  | skip + 1, i, _ :: words => rlwPositions skip (i + 1) words

theorem rlwPositions_skip (literals words : List UInt64) (i : Nat) :
    rlwPositions literals.length i (literals ++ words) =
      rlwPositions 0 (i + literals.length) words := by
  induction literals generalizing i with
  | nil => rfl
  | cons l literals ih =>
    rw [List.length_cons, List.cons_append, rlwPositions, ih]
    congr 1
    omega

/-- A walk over a run-length word and its literals goes on behind them. -/
theorem rlwPositions_run {bit : Bool} {runLen : Nat} {literals : List UInt64}
    (hrun : runLen < 2 ^ 32) (hliterals : literals.length < 2 ^ 31)
    (words : List UInt64) (i : Nat) :
    rlwPositions 0 i (makeRlw bit runLen literals.length :: (literals ++ words)) =
      i :: rlwPositions 0 (i + 1 + literals.length) words := by
  rw [rlwPositions, splitRlw_makeRlw hrun hliterals, rlwPositions_skip]

theorem Encodes.rlwPositions_append (h : Encodes words bits) (words' : List UInt64) (i : Nat) :
    rlwPositions 0 i (words ++ words') = rlwPositions 0 i words ++
      rlwPositions 0 (i + words.length) words' := by
  induction h generalizing i with
  | nil => rfl
  | @run bit runLen literals words bits hrun hliterals _ ih =>
    have hlen : i + 1 + literals.length + words.length =
        i + (makeRlw bit runLen literals.length :: (literals ++ words)).length := by
      rw [List.length_cons, List.length_append]
      omega
    rw [List.cons_append, List.cons_append, List.append_assoc, rlwPositions_run hrun hliterals,
      rlwPositions_run hrun hliterals, ih, List.cons_append, hlen]

/-- **The position that is kept is that of the last run-length word.** -/
theorem compressLoop_last {fuel rlwPosition : Nat} {before : List UInt64}
    (hfuel : bits.length ≤ fuel) (hlen : bits.length < 2 ^ 31) (hwords : Encodes words before)
    (hlast : bits = [] → (rlwPositions 0 0 words).getLast? = some rlwPosition) :
    (rlwPositions 0 0 (compressLoop fuel bits words rlwPosition).1).getLast? =
      some (compressLoop fuel bits words rlwPosition).2 := by
  induction fuel generalizing bits words before rlwPosition with
  | zero => exact hlast (List.length_eq_zero_iff.mp (Nat.le_zero.mp hfuel))
  | succ fuel ih =>
    cases bits with
    | nil => exact hlast rfl
    | cons w bits =>
      obtain ⟨bit, runLen, literals, rest, hsplit, hprogress, hround⟩ :=
        compressLoop_round fuel w bits words rlwPosition
      rw [hsplit, List.length_append, List.length_append, List.length_replicate] at hfuel hlen
      have hwritten :=
        hwords.append (Encodes.run bit runLen literals (by omega) (by omega) Encodes.nil)
      have hround' := @rlwPositions_run bit runLen literals (by omega) (by omega) [] words.length
      rw [List.append_nil] at hwritten hround'
      rw [hround]
      refine ih (by omega) (by omega) hwritten fun _ => ?_
      rw [hwords.rlwPositions_append, Nat.zero_add, hround', rlwPositions, List.getLast?_append,
        List.getLast?_singleton, Option.some_or]

/-! ## The bits of a bitmap -/

/-- **Decompression undoes compression.** -/
theorem decompress_compress (hlen : bits.length < 2 ^ 31) (bitSize : Nat) :
    (compress bits bitSize).decompress = bits := by
  have hencodes : Encodes (compressLoop bits.length bits [] 0).1 ([] ++ bits) :=
    compressLoop_encodes (Nat.le_refl _) hlen Encodes.nil
  rw [List.nil_append] at hencodes
  unfold compress decompress
  by_cases hempty : (compressLoop bits.length bits [] 0).1.isEmpty
  · rw [List.isEmpty_iff] at hempty
    simp only [hempty]
    rw [hempty] at hencodes
    exact (Encodes.run false 0 [] (by decide) (by decide) hencodes).decompress (Nat.le_refl _)
  · simp only [hempty]
    exact hencodes.decompress (Nat.le_refl _)

theorem setWords_eq (set : List Nat) (bitSize : Nat) : setWords set bitSize =
    (set.filter (· < bitSize)).foldl BitWords.setBit (List.replicate ((bitSize + 63) / 64) 0) := by
  unfold setWords
  rw [List.foldl_filter]
  simp only [decide_eq_true_eq]

theorem length_setWords (set : List Nat) (bitSize : Nat) :
    (setWords set bitSize).length = (bitSize + 63) / 64 := by
  rw [setWords_eq, BitWords.length_foldl_setBit, List.length_replicate]

theorem bit_setWords {set : List Nat} {bitSize i : Nat} :
    BitWords.bit (setWords set bitSize) i = true ↔ i ∈ set ∧ i < bitSize := by
  have hinside : ∀ b ∈ set.filter (· < bitSize),
      b / 64 < (List.replicate ((bitSize + 63) / 64) (0 : UInt64)).length := by
    intro b hb
    have hlt : b < bitSize := by simpa using (List.mem_filter.mp hb).2
    rw [List.length_replicate]
    omega
  rw [setWords_eq, BitWords.bit_foldl_setBit hinside, BitWords.bit_replicate_zero, List.mem_filter]
  simp

/-- **The set bits are those the bitmap was made of**, below its size. -/
theorem mem_setBits_fromSetBits {set : List Nat} {bitSize : Nat}
    (hsize : bitSize < 2 ^ 32) {pos : Nat} :
    pos ∈ (fromSetBits set bitSize).setBits ↔ pos ∈ set ∧ pos < bitSize := by
  have hlen : (setWords set bitSize).length < 2 ^ 31 := by
    rw [length_setWords]
    omega
  unfold setBits fromSetBits
  rw [decompress_compress hlen, BitWords.mem_setBitsFrom]
  show (∃ i, pos = 0 + i ∧ pos < bitSize ∧ _) ↔ _
  simp only [Nat.zero_add, exists_eq_left', bit_setWords]
  tauto

/-! ## The serialized form -/

/-- The numbers of a bitmap fit its serialized form. -/
structure Fits (e : Ewah) : Prop where
  bitSize : e.bitSize < 2 ^ 32
  words : e.words.length < 2 ^ 32
  rlwPosition : e.rlwPosition < 2 ^ 32

theorem fits_compress {bitSize : Nat} (hsize : bitSize < 2 ^ 32) (hlen : bits.length < 2 ^ 31) :
    (compress bits bitSize).Fits := by
  obtain ⟨hwords, hlast⟩ := @compressLoop_length [] bits bits.length 0 (Nat.le_refl _)
  rw [List.length_nil] at hwords
  unfold compress
  refine ⟨hsize, ?_, ?_⟩
  · show (if _ then _ else _ : List UInt64).length < _
    split
    · decide
    · omega
  · show (compressLoop _ _ _ _).2 < _
    omega

theorem fits_fromSetBits {bitSize : Nat} (hsize : bitSize < 2 ^ 32) (set : List Nat) :
    (fromSetBits set bitSize).Fits :=
  fits_compress hsize (by rw [length_setWords]; omega)

theorem readWords_flatMap (ws : List UInt64) (rest : Bytes) :
    readWords ws.length (ws.flatMap (fun w => Sha.bigEndian 8 w.toNat) ++ rest) = ws := by
  induction ws with
  | nil => rfl
  | cons w ws ih =>
    have hdrop : (Sha.bigEndian 8 w.toNat ++
      (ws.flatMap (fun w => Sha.bigEndian 8 w.toNat) ++ rest)).drop 8 =
        ws.flatMap (fun w => Sha.bigEndian 8 w.toNat) ++ rest :=
          List.drop_left' (Sha.length_bigEndian _ _)
    rw [List.length_cons, readWords, List.flatMap_cons, List.append_assoc,
      number_bigEndian 8 (show w.toNat < 256 ^ 8 from w.toNat_lt), hdrop, ih, UInt64.ofNat_toNat]

theorem length_toBytes (e : Ewah) : e.toBytes.length = 12 + e.words.length * 8 := by
  unfold toBytes
  rw [List.length_append, List.length_append, List.length_append, length_table 8 UInt64.toNat,
    Sha.length_bigEndian, Sha.length_bigEndian, Sha.length_bigEndian]
  omega

/-- **A bitmap is read back from its serialized form**, whatever follows. -/
theorem fromBytes_toBytes {e : Ewah} (he : e.Fits) (rest : Bytes) :
    fromBytes (e.toBytes ++ rest) = .ok (e, e.toBytes.length) := by
  generalize hwords : e.words.flatMap (fun w => Sha.bigEndian 8 w.toNat) = words
  have hlen : words.length = e.words.length * 8 := hwords ▸ length_table 8 UInt64.toNat e.words
  have hbytes : e.toBytes ++ rest = Sha.bigEndian 4 e.bitSize ++ (Sha.bigEndian 4 e.words.length ++
      (words ++ (Sha.bigEndian 4 e.rlwPosition ++ rest))) := by
    unfold toBytes
    rw [hwords]
    simp only [List.append_assoc]
  have hfront : (Sha.bigEndian 4 e.bitSize ++ Sha.bigEndian 4 e.words.length).length = 8 := by
    rw [List.length_append, Sha.length_bigEndian, Sha.length_bigEndian]
  have htotal : (e.toBytes ++ rest).length = 12 + e.words.length * 8 + rest.length := by
    rw [List.length_append, length_toBytes]
  have hsize : number (e.toBytes ++ rest) 0 4 = e.bitSize := by
    rw [hbytes]
    exact number_bigEndian 4 he.bitSize _
  have hcount : number (e.toBytes ++ rest) 4 4 = e.words.length := by
    rw [hbytes]
    exact number_bigEndian_at (Sha.length_bigEndian 4 _) 4 he.words _
  have hread : readWords e.words.length ((e.toBytes ++ rest).drop 8) = e.words := by
    rw [hbytes, ← List.append_assoc, List.drop_left' hfront, ← hwords]
    exact readWords_flatMap e.words _
  have hlast : number (e.toBytes ++ rest) (8 + e.words.length * 8) 4 = e.rlwPosition := by
    rw [hbytes, ← List.append_assoc, ← List.append_assoc]
    refine number_bigEndian_at ?_ 4 he.rlwPosition _
    rw [List.length_append, hfront, hlen]
  unfold fromBytes
  rw [if_neg (by omega)]
  simp only [hsize, hcount, hread, hlast]
  rw [if_neg (by omega), length_toBytes]
  congr 2
  omega

/-! ## There and back -/

/-- The set bits are the positions the bitmap was made of, in order. -/
theorem setBits_fromSetBits {set : List Nat} {bitSize : Nat} (hsize : bitSize < 2 ^ 32)
    (hsorted : set.Pairwise (· < ·)) (hset : ∀ b ∈ set, b < bitSize) :
    (fromSetBits set bitSize).setBits = set := by
  have hpair : (fromSetBits set bitSize).setBits.Pairwise (· < ·) :=
    BitWords.pairwise_setBitsFrom _ _ _
  have hperm : (fromSetBits set bitSize).setBits.Perm set := by
    refine (List.perm_ext_iff_of_nodup (hpair.imp fun h => Nat.ne_of_lt h)
      (hsorted.imp fun h => Nat.ne_of_lt h)).mpr fun pos => ?_
    rw [mem_setBits_fromSetBits hsize]
    exact ⟨fun h => h.1, fun h => ⟨h, hset pos h⟩⟩
  exact hperm.eq_of_pairwise (fun _ _ _ _ hab hba => absurd hab (Nat.lt_asymm hba)) hpair hsorted

/-- The walk over compressed words lands last on the position that is kept. -/
theorem getLast?_rlwPositions (hlen : bits.length < 2 ^ 31) (bitSize : Nat) :
    (rlwPositions 0 0 (compress bits bitSize).words).getLast? =
      some (compress bits bitSize).rlwPosition := by
  cases bits with
  | nil => rfl
  | cons w bits =>
    have hlast : (rlwPositions 0 0 (compressLoop (w :: bits).length (w :: bits) [] 0).1).getLast? =
        some (compressLoop (w :: bits).length (w :: bits) [] 0).2 :=
      compressLoop_last (le_refl _) hlen Encodes.nil nofun
    unfold compress
    by_cases hempty : (compressLoop (w :: bits).length (w :: bits) [] 0).1.isEmpty
    · rw [List.isEmpty_iff.mp hempty] at hlast
      cases hlast
    · simp only [hempty]
      exact hlast

/-- **A bitmap comes back from its compressed and serialized form**, word by word and bit by bit. -/
theorem compress_roundTrip {bitSize : Nat} (hsize : bitSize < 2 ^ 32) :
    (∀ bits : List UInt64, bits.length < 2 ^ 31 →
      (∀ rest, ∃ e, fromBytes ((compress bits bitSize).toBytes ++ rest) =
        .ok (e, (compress bits bitSize).toBytes.length) ∧ e.decompress = bits ∧
          e = compress bits bitSize) ∧
      (rlwPositions 0 0 (compress bits bitSize).words).getLast? =
        some (compress bits bitSize).rlwPosition) ∧
    ∀ set : List Nat, set.Pairwise (· < ·) → (∀ b ∈ set, b < bitSize) →
      (fromSetBits set bitSize).setBits = set := by
  refine ⟨fun bits hlen => ⟨fun rest => ?_, getLast?_rlwPositions hlen bitSize⟩, fun set => ?_⟩
  · exact ⟨_, fromBytes_toBytes (fits_compress hsize hlen) rest,
      decompress_compress hlen bitSize, rfl⟩
  · exact setBits_fromSetBits hsize

theorem compress_roundTrip_words :
    (∃ e, fromBytes ((compress [0, 0, 5, 0xFFFFFFFFFFFFFFFF] 200).toBytes ++ [7]) =
      .ok (e, (compress [0, 0, 5, 0xFFFFFFFFFFFFFFFF] 200).toBytes.length) ∧
        e.decompress = [0, 0, 5, 0xFFFFFFFFFFFFFFFF]) ∧
      (fromSetBits [3, 64, 199] 200).setBits = [3, 64, 199] := by
  obtain ⟨hwords, hset⟩ := @compress_roundTrip 200 (by decide)
  obtain ⟨e, hread, hback, -⟩ := (hwords [0, 0, 5, 0xFFFFFFFFFFFFFFFF] (by decide)).1 [7]
  exact ⟨⟨e, hread, hback⟩, hset [3, 64, 199] (by decide) (by decide)⟩

end Ewah
end Puregit
