import Puregit.Error
import Puregit.Lib.Exec

/-! # zlib compression

The codec is external code.  `inflateCounted` drives its streaming decoder past the
front of a byte string and may report a few bytes more than the stream has;
`inflateExact` finds the true end by decoding shorter and shorter input.

`Zlib.Exact` is what a pack relies on: inflating what was deflated gives it back and
stops where the stream ends, whatever follows.  `Zlib.stored` is a codec that has it,
whose streams hold their data in one stored block.
-/
namespace Puregit

/-- The zlib codec. -/
structure Zlib where
  /-- Compresses data into a zlib stream. -/
  deflate : Bytes → Except Error Bytes
  /-- Decompresses the stream at the front of some data, refusing to produce more than
  `max` bytes; with the output comes the number of bytes the decoder took. -/
  inflateCounted : Bytes → Nat → Except Error (Bytes × Nat)

namespace Zlib

/-- The output of a stream of at most `max` bytes. -/
def inflateCapped (z : Zlib) (data : Bytes) (max : Nat) : Except Error Bytes :=
  (z.inflateCounted data max).map (·.1)

/-- The least length, down to `floor`, at which the front of `data` still decodes to `out`
when it does at every length between. -/
def shrink (z : Zlib) (data : Bytes) (max : Nat) (out : Bytes) (floor : Nat) : Nat → Nat
  | 0 => 0
  | cand + 1 =>
    if floor < cand + 1 then
      match z.inflateCounted (data.take cand) max with
      | .ok (o, _) => if o = out then shrink z data max out floor cand else cand + 1
      | .error _ => cand + 1
    else cand + 1

/-- How far the decoder may have read past the end of a stream. -/
def maxOverread : Nat := 64

/-- The output of a stream and its exact length. -/
def inflateExact (z : Zlib) (data : Bytes) (max : Nat) : Except Error (Bytes × Nat) :=
  (z.inflateCounted data max).map fun (out, past) =>
    (out, shrink z data max out (past - maxOverread) past)

/-- Inflating the deflated form of some data, with anything behind it, gives the data back
and the length of that form. -/
def Exact (z : Zlib) : Prop := ∀ x zx rest, z.deflate x = .ok zx →
  z.inflateExact (zx ++ rest) x.length = .ok (x, zx.length)

/-- Every error of the decoder is one of compression, as its wrapper maps them. -/
def ReportsCompression (z : Zlib) : Prop := ∀ data max, FailsOnly
  (fun e => ∃ m, e = .compression m) (z.inflateCounted data max)

theorem inflateExact_ok {z : Zlib} {data out : Bytes} {max n : Nat}
    (h : z.inflateExact data max = .ok (out, n)) : z.inflateCapped data max = .ok out := by
  obtain ⟨⟨o, past⟩, hcounted, heq⟩ := except_map_ok.mp h
  cases heq
  rw [inflateCapped, hcounted]
  rfl

/-! ## Stored blocks -/

/-- The Adler-32 checksum, big-endian. -/
def adler32 (data : Bytes) : Bytes :=
  let (a, b) := data.foldl (fun (a, b) x =>
    let a := (a + x.toNat) % 65521
    (a, (b + a) % 65521)) (1, 0)
  [UInt8.ofNat (b / 256), UInt8.ofNat (b % 256), UInt8.ofNat (a / 256), UInt8.ofNat (a % 256)]

/-- The error of a stream that is not one stored block. -/
def notStored : Error := .compression (str "not a stored block")

/-- The bytes before a stored block of `n` bytes. -/
def blockHeader (n : Nat) : Bytes :=
  [0x78, 0x01, 0x01, UInt8.ofNat (n % 256), UInt8.ofNat (n / 256), UInt8.ofNat (255 - n % 256),
    UInt8.ofNat (255 - n / 256)]

/-- A stream of one stored block. -/
def deflateStored (x : Bytes) : Except Error Bytes :=
  if x.length < 65536 then .ok (blockHeader x.length ++ (x ++ adler32 x)) else .error notStored

/-- The error of a stream that ends too early. -/
def truncatedStream : Error := .compression (str "truncated zlib stream")

/-- Reads a stream of one stored block. -/
def inflateStored (data : Bytes) (max : Nat) : Except Error (Bytes × Nat) :=
  match data with
  | 0x78 :: 0x01 :: 0x01 :: l0 :: l1 :: n0 :: n1 :: body =>
    let len := l0.toNat + 256 * l1.toNat
    if n0.toNat + l0.toNat ≠ 255 ∨ n1.toNat + l1.toNat ≠ 255 then .error notStored
    else if body.length < len + 4 then .error truncatedStream
    else if (body.drop len).take 4 ≠ adler32 (body.take len) then .error notStored
    else if max < len then .error (.compression (str "inflate exceeded declared size"))
    else .ok (body.take len, len + 11)
  | _ => .error notStored

/-- A codec that compresses nothing. -/
def stored : Zlib := ⟨deflateStored, inflateStored⟩

@[simp] theorem length_adler32 (x : Bytes) : (adler32 x).length = 4 := rfl

@[simp] theorem length_blockHeader (n : Nat) : (blockHeader n).length = 7 := rfl

theorem stored_reportsCompression : stored.ReportsCompression := by
  intro data max
  show FailsOnly _ (inflateStored data max)
  unfold inflateStored
  split
  · simp only
    split_ifs
    · exact failsOnly_error ⟨_, rfl⟩
    · exact failsOnly_error ⟨_, rfl⟩
    · exact failsOnly_error ⟨_, rfl⟩
    · exact failsOnly_error ⟨_, rfl⟩
    · exact failsOnly_ok _
  · exact failsOnly_error ⟨_, rfl⟩

/-- What follows the header of a block decides. -/
theorem inflateStored_block {n : Nat} (hn : n < 65536) (body : Bytes) :
    inflateStored (blockHeader n ++ body) n =
      if body.length < n + 4 then .error truncatedStream
      else if (body.drop n).take 4 ≠ adler32 (body.take n) then .error notStored
      else .ok (body.take n, n + 11) := by
  have hbyte : ∀ n < 256, (UInt8.ofNat n).toNat = n := fun n hn => UInt8.toNat_ofNat_of_lt' hn
  have hlen : (UInt8.ofNat (n % 256)).toNat + 256 * (UInt8.ofNat (n / 256)).toNat = n := by
    rw [hbyte _ (by omega), hbyte _ (by omega)]
    omega
  have hcheck : ¬ ((UInt8.ofNat (255 - n % 256)).toNat + (UInt8.ofNat (n % 256)).toNat ≠ 255 ∨
      (UInt8.ofNat (255 - n / 256)).toNat + (UInt8.ofNat (n / 256)).toNat ≠ 255) := by
    rw [hbyte _ (by omega), hbyte _ (by omega), hbyte _ (by omega), hbyte _ (by omega)]
    omega
  simp only [blockHeader, List.cons_append, List.nil_append, inflateStored, hlen, if_neg hcheck,
    lt_irrefl, if_false]

/-- **The stored codec is exact.** -/
theorem stored_exact : stored.Exact := by
  intro x zx rest h
  have hcounted : stored.inflateCounted = inflateStored := rfl
  have hdeflate : deflateStored x = .ok zx := h
  rw [deflateStored] at hdeflate
  split at hdeflate
  · next hx =>
    cases hdeflate
    have hwhole : inflateStored (blockHeader x.length ++ (x ++ adler32 x) ++ rest) x.length =
        .ok (x, x.length + 11) := by
      rw [List.append_assoc, List.append_assoc, inflateStored_block hx, if_neg (by simp),
        List.drop_left, List.take_left, List.take_left' (length_adler32 x), if_neg (by simp)]
    -- the stream without its last byte is refused, so that nothing is taken off its length
    have hcut : inflateStored ((blockHeader x.length ++ (x ++ adler32 x) ++ rest).take
        (x.length + 10)) x.length = .error truncatedStream := by
      have hfront : x.length + 10 = (blockHeader x.length).length + (x.length + 3) := by
        rw [length_blockHeader]
        omega
      rw [List.append_assoc, hfront, List.take_length_add_append, inflateStored_block hx,
        if_pos (by rw [List.length_take]; omega)]
    have hshrink : shrink stored (blockHeader x.length ++ (x ++ adler32 x) ++ rest) x.length x
        (x.length + 11 - maxOverread) (x.length + 11) = x.length + 11 := by
      rw [shrink, if_pos (by rw [maxOverread]; omega), hcounted, hcut]
    have hlen : (blockHeader x.length ++ (x ++ adler32 x)).length = x.length + 11 := by
      simp
      omega
    rw [inflateExact, hcounted, hwhole, hlen]
    simp only [Except.map, hshrink]
  · cases hdeflate

end Zlib
end Puregit
