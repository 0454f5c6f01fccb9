import Puregit.Lib.Text

/-! # The SHA-1 and SHA-256 digests

Both digests over byte strings, on words kept as numbers below `2 ^ 32`.  The message
schedule is a window of sixteen words: a round consumes the first and appends the next.
-/
namespace Puregit.Sha

/-- The low 32 bits. -/
def word (n : Nat) : Nat := n % 4294967296

/-- Rotation of a word to the left. -/
def rotl (k x : Nat) : Nat := word (x <<< k) ||| (x >>> (32 - k))

/-- Rotation of a word to the right. -/
def rotr (k x : Nat) : Nat := rotl (32 - k) x

/-- The complement of a word. -/
def not32 (x : Nat) : Nat := 4294967295 - x

/-- The `k` low bytes of a number, most significant first. -/
def bigEndian : Nat → Nat → Bytes
  | 0, _ => []
  | k + 1, n => UInt8.ofNat (n / 256 ^ k) :: bigEndian k n

theorem length_bigEndian (k n : Nat) : (bigEndian k n).length = k := by
  induction k with
  | zero => rfl
  | succ k ih => rw [bigEndian, List.length_cons, ih]

/-- The message, a one bit, zeros, and the length in bits as the last eight bytes. -/
def pad (m : Bytes) : Bytes :=
  m ++ 0x80 :: List.replicate ((119 - m.length % 64) % 64) 0 ++ bigEndian 8 (m.length * 8)

/-- The words of a byte string whose length is a multiple of four. -/
def wordsOf : Bytes → List Nat
  | a :: b :: c :: d :: r =>
      (((a.toNat * 256 + b.toNat) * 256 + c.toNat) * 256 + d.toNat) :: wordsOf r
  | _ => []

/-- The first `n` blocks of sixteen words. -/
def blocks : Nat → List Nat → List (List Nat)
  | 0, _ => []
  | n + 1, l => l.take 16 :: blocks n (l.drop 16)

/-- The blocks of a padded message. -/
def blocksOf (m : Bytes) : List (List Nat) :=
  let ws := wordsOf (pad m)
  blocks (ws.length / 16) ws

/-! ## SHA-1 -/

/-- The chaining value of SHA-1. -/
structure State1 where
  a : Nat
  b : Nat
  c : Nat
  d : Nat
  e : Nat

/-- Round `t` with the schedule word `w`. -/
def round1 (t w : Nat) (s : State1) : State1 :=
  let (f, k) :=
    if t < 20 then ((s.b &&& s.c) ||| (not32 s.b &&& s.d), 0x5A827999)
    else if t < 40 then (s.b ^^^ s.c ^^^ s.d, 0x6ED9EBA1)
    else if t < 60 then ((s.b &&& s.c) ||| (s.b &&& s.d) ||| (s.c &&& s.d), 0x8F1BBCDC)
    else (s.b ^^^ s.c ^^^ s.d, 0xCA62C1D6)
  ⟨word (rotl 5 s.a + f + s.e + k + w), s.a, rotl 30 s.b, s.c, s.d⟩

/-- The schedule word that follows a window. -/
def next1 (w : List Nat) : Nat :=
  rotl 1 (w.getD 13 0 ^^^ w.getD 8 0 ^^^ w.getD 2 0 ^^^ w.getD 0 0)

/-- `n` rounds from round `t` on. -/
def rounds1 : Nat → Nat → List Nat → State1 → State1
  | 0, _, _, s => s
  | n + 1, t, w, s => rounds1 n (t + 1) (w.drop 1 ++ [next1 w]) (round1 t (w.getD 0 0) s)

/-- Absorbs one block. -/
def block1 (h : State1) (b : List Nat) : State1 :=
  let s := rounds1 80 0 b h
  ⟨word (h.a + s.a), word (h.b + s.b), word (h.c + s.c), word (h.d + s.d), word (h.e + s.e)⟩

/-- The SHA-1 digest. -/
def sha1 (m : Bytes) : Bytes :=
  let h := (blocksOf m).foldl block1
    ⟨0x67452301, 0xEFCDAB89, 0x98BADCFE, 0x10325476, 0xC3D2E1F0⟩
  [h.a, h.b, h.c, h.d, h.e].flatMap (bigEndian 4)

/-! ## SHA-256 -/

/-- The round constants of SHA-256. -/
def k256 : List Nat :=
  [0x428a2f98, 0x71374491, 0xb5c0fbcf, 0xe9b5dba5, 0x3956c25b, 0x59f111f1, 0x923f82a4,
   0xab1c5ed5, 0xd807aa98, 0x12835b01, 0x243185be, 0x550c7dc3, 0x72be5d74, 0x80deb1fe,
   0x9bdc06a7, 0xc19bf174, 0xe49b69c1, 0xefbe4786, 0x0fc19dc6, 0x240ca1cc, 0x2de92c6f,
   0x4a7484aa, 0x5cb0a9dc, 0x76f988da, 0x983e5152, 0xa831c66d, 0xb00327c8, 0xbf597fc7,
   0xc6e00bf3, 0xd5a79147, 0x06ca6351, 0x14292967, 0x27b70a85, 0x2e1b2138, 0x4d2c6dfc,
   0x53380d13, 0x650a7354, 0x766a0abb, 0x81c2c92e, 0x92722c85, 0xa2bfe8a1, 0xa81a664b,
   0xc24b8b70, 0xc76c51a3, 0xd192e819, 0xd6990624, 0xf40e3585, 0x106aa070, 0x19a4c116,
   0x1e376c08, 0x2748774c, 0x34b0bcb5, 0x391c0cb3, 0x4ed8aa4a, 0x5b9cca4f, 0x682e6ff3,
   0x748f82ee, 0x78a5636f, 0x84c87814, 0x8cc70208, 0x90befffa, 0xa4506ceb, 0xbef9a3f7,
   0xc67178f2]

/-- The chaining value of SHA-256. -/
structure State2 where
  a : Nat
  b : Nat
  c : Nat
  d : Nat
  e : Nat
  f : Nat
  g : Nat
  h : Nat

/-- One round with the constant `k` and the schedule word `w`. -/
def round2 (k w : Nat) (s : State2) : State2 :=
  let t1 := s.h + (rotr 6 s.e ^^^ rotr 11 s.e ^^^ rotr 25 s.e)
    + ((s.e &&& s.f) ^^^ (not32 s.e &&& s.g)) + k + w
  let t2 := (rotr 2 s.a ^^^ rotr 13 s.a ^^^ rotr 22 s.a)
    + ((s.a &&& s.b) ^^^ (s.a &&& s.c) ^^^ (s.b &&& s.c))
  ⟨word (t1 + t2), s.a, s.b, s.c, word (s.d + t1), s.e, s.f, s.g⟩

/-- The schedule word that follows a window. -/
def next2 (w : List Nat) : Nat :=
  let x := w.getD 1 0
  let y := w.getD 14 0
  word (w.getD 0 0 + (rotr 7 x ^^^ rotr 18 x ^^^ (x >>> 3)) + w.getD 9 0
    + (rotr 17 y ^^^ rotr 19 y ^^^ (y >>> 10)))

/-- The rounds of a list of constants. -/
def rounds2 : List Nat → List Nat → State2 → State2
  | [], _, s => s
  | k :: ks, w, s => rounds2 ks (w.drop 1 ++ [next2 w]) (round2 k (w.getD 0 0) s)

/-- Absorbs one block. -/
def block2 (i : State2) (b : List Nat) : State2 :=
  let s := rounds2 k256 b i
  ⟨word (i.a + s.a), word (i.b + s.b), word (i.c + s.c), word (i.d + s.d), word (i.e + s.e),
    word (i.f + s.f), word (i.g + s.g), word (i.h + s.h)⟩

/-- The SHA-256 digest. -/
def sha256 (m : Bytes) : Bytes :=
  let i := (blocksOf m).foldl block2
    ⟨0x6a09e667, 0xbb67ae85, 0x3c6ef372, 0xa54ff53a, 0x510e527f, 0x9b05688c, 0x1f83d9ab,
     0x5be0cd19⟩
  [i.a, i.b, i.c, i.d, i.e, i.f, i.g, i.h].flatMap (bigEndian 4)

theorem length_sha1 (m : Bytes) : (sha1 m).length = 20 := by
  simp [sha1, length_bigEndian]

theorem length_sha256 (m : Bytes) : (sha256 m).length = 32 := by
  simp [sha256, length_bigEndian]

/-- The digest of the empty message. -/
example : (sha1 []).take 4 = [0xda, 0x39, 0xa3, 0xee] := by decide +kernel

example : (sha256 []).take 4 = [0xe3, 0xb0, 0xc4, 0x42] := by decide

end Puregit.Sha
