import Puregit.Lib.BinarySearch
import Puregit.Pack.Reader

/-! # Pack indexes

A pack index lists the ids of a pack's objects in order and, in a second table, where
each object's entry begins; an offset of 2 GiB or more is in a third.  `parse` checks
that the tables are there, not that the ids are sorted nor where the offsets point.
-/
namespace Puregit

/-- A parsed index: its tables hold as many rows as it counts, fewer than four bytes count. -/
structure PackIndex where
  algo : HashAlgo
  oids : Bytes
  offsets : Bytes
  largeOffsets : Bytes
  count : Nat
  oids_length : oids.length = count * algo.rawLen
  offsets_length : offsets.length = count * 4
  count_lt : count < 2 ^ 32
  deriving DecidableEq

/-- The magic number of an index. -/
def idxMagic : Bytes := [0xff, 0x74, 0x4f, 0x63]

namespace PackIndex

/-- Where the ids of an index begin, after the fanout table. -/
def oidsStart : Nat := 8 + 256 * 4

/-- Parses an index. -/
def parse (algo : HashAlgo) (data : Bytes) : Except Error PackIndex :=
  if data.length < oidsStart then .error (.pack (str "idx: too short"))
  else if data.take 4 ≠ idxMagic then
    .error (.pack (str "idx: bad magic (v1 indexes unsupported)"))
  else
    let version := number data 4 4
    if version ≠ 2 then .error (.pack (str "idx: unsupported version " ++ natStr version))
    else
      -- the last of the cumulative counts is the total
      let count := number data (8 + 255 * 4) 4
      let crcStart := oidsStart + count * algo.rawLen
      let offStart := crcStart + count * 4
      let largeStart := offStart + count * 4
      if h : data.length < largeStart then .error (.pack (str "idx: truncated"))
      else
        let largeEnd := data.length - 2 * algo.rawLen
        .ok {
          algo := algo
          oids := slice data oidsStart (count * algo.rawLen)
          offsets := slice data offStart (count * 4)
          largeOffsets := slice data largeStart (max largeEnd largeStart - largeStart)
          count := count
          oids_length := length_slice (by omega)
          offsets_length := length_slice (by omega)
          count_lt := number_lt data _ 4 }

variable (idx : PackIndex)

/-- The id of a row, as bytes. -/
def row (i : Nat) : Bytes := slice idx.oids (i * idx.algo.rawLen) idx.algo.rawLen

/-- The id of a row. -/
def idAt (i : Nat) : Option ObjectId := (ObjectId.fromBytes idx.algo (idx.row i)).toOption

/-- The row of an id. -/
def positionOf (id : ObjectId) : Option Nat :=
  if id.algo ≠ idx.algo then none
  else BinarySearch.search idx.row id.bytes idx.count 0 idx.count

/-- Whether an index lists an id. -/
def contains (id : ObjectId) : Bool := (idx.positionOf id).isSome

/-- The offset of a row; one with its highest bit set is the row of the large offset. -/
def offsetAt (i : Nat) : Option Nat :=
  if idx.offsets.length < i * 4 + 4 then none
  else
    let raw := number idx.offsets (i * 4) 4
    if raw < 2 ^ 31 then some raw
    else
      let off := (raw - 2 ^ 31) * 8
      if idx.largeOffsets.length < off + 8 then none else some (number idx.largeOffsets off 8)

/-- The offset of an id. -/
def offsetOf (id : ObjectId) : Option Nat := (idx.positionOf id).bind idx.offsetAt

variable {idx} {i : Nat} {id : ObjectId}

theorem length_row (h : i < idx.count) : (idx.row i).length = idx.algo.rawLen := by
  apply length_slice
  rw [idx.oids_length]
  calc i * idx.algo.rawLen + idx.algo.rawLen = (i + 1) * idx.algo.rawLen := (Nat.succ_mul _ _).symm
    _ ≤ idx.count * idx.algo.rawLen := Nat.mul_le_mul_right _ h

/-- Every row has an id. -/
theorem idAt_of_lt (h : i < idx.count) :
    idx.idAt i = some ⟨idx.algo, idx.row i, length_row h⟩ := by
  unfold idAt ObjectId.fromBytes
  rw [dif_pos (length_row h)]
  rfl

theorem lt_of_idAt (h : idx.idAt i = some id) : i < idx.count := by
  refine Nat.lt_of_not_le fun hle => ?_
  have hlen : idx.oids.length ≤ i * idx.algo.rawLen := by
    rw [idx.oids_length]
    exact Nat.mul_le_mul_right _ hle
  have hnil : idx.row i = [] := by
    unfold row slice
    rw [List.drop_eq_nil_of_le hlen, List.take_nil]
  have hpos : ([] : Bytes).length ≠ idx.algo.rawLen := by
    cases idx.algo <;> decide
  unfold idAt ObjectId.fromBytes at h
  rw [hnil, dif_neg hpos] at h
  cases h

/-- **The row found for an id holds it.** -/
theorem positionOf_some (h : idx.positionOf id = some i) :
    i < idx.count ∧ idx.idAt i = some id := by
  unfold positionOf at h
  by_cases halgo : id.algo ≠ idx.algo
  · rw [if_pos halgo] at h
    cases h
  · rw [if_neg halgo] at h
    obtain ⟨-, hlt, hrow⟩ := BinarySearch.search_sound h
    refine ⟨hlt, ?_⟩
    rw [idAt_of_lt hlt]
    exact congrArg some (ObjectId.ext_bytes (not_not.mp halgo).symm hrow)

theorem contains_iff : idx.contains id = true ↔ ∃ i, idx.positionOf id = some i :=
  Option.isSome_iff_exists

end PackIndex
end Puregit
