import Puregit.Pack.Agreement
import Puregit.Pack.Index

/-! # Looking an object up in a finished pack

`finish` notes the offset of every entry and `buildIndex` writes the ids in order, each with its
offset.  `parse` takes the tables apart again, and what `offsetOf` finds for an id is the offset
that was noted.  There the object stands whole, or as a delta against one that does, so the
reader needs neither the index nor anything outside of the pack to rebuild it.
-/
namespace Puregit

/-! ## The tables of an index -/

namespace PackIndex

/-- An index is taken apart into the parts it was put together from. -/
theorem parse_parts {algo : HashAlgo} {fanout oids crcs offs large tail : Bytes} {count : Nat}
    (hfanout : fanout.length = 256 * 4)
    (hcount : ∀ rest, number (fanout ++ rest) (255 * 4) 4 = count)
    (hoids : oids.length = count * algo.rawLen) (hcrcs : crcs.length = count * 4)
    (hoffs : offs.length = count * 4) (htail : tail.length = 2 * algo.rawLen) :
    ∃ idx, parse algo (idxMagic ++ (Sha.bigEndian 4 2 ++
        (fanout ++ (oids ++ (crcs ++ (offs ++ (large ++ tail))))))) = .ok idx ∧
      idx.algo = algo ∧ idx.count = count ∧ idx.oids = oids ∧ idx.offsets = offs ∧
      idx.largeOffsets = large := by
  have hhead : (idxMagic ++ Sha.bigEndian 4 2).length = 8 := rfl
  obtain ⟨data, hdata⟩ : ∃ data, data = idxMagic ++ Sha.bigEndian 4 2 ++
      (fanout ++ (oids ++ (crcs ++ (offs ++ (large ++ tail))))) := ⟨_, rfl⟩
  have hlen : data.length = oidsStart + count * algo.rawLen + count * 4 + count * 4 + large.length +
      2 * algo.rawLen := by
    rw [hdata]
    simp only [List.length_append, hfanout, hoids, hcrcs, hoffs, htail]
    show 8 + _ = 8 + _ + _ + _ + _ + _ + _
    omega
  have hmagic : data.take 4 = idxMagic := by
    rw [hdata]
    rfl
  have hversion : number data 4 4 = 2 := by
    rw [hdata, List.append_assoc]
    exact number_bigEndian_at rfl 4 (by decide) _
  have htotal : number data (8 + 255 * 4) 4 = count := by
    rw [hdata, ← hhead, number_append, hcount]
  have hbefore : (idxMagic ++ Sha.bigEndian 4 2 ++ fanout).length = oidsStart := by
    rw [List.length_append, hhead, hfanout]
    rfl
  have hoidsAt : slice data oidsStart (count * algo.rawLen) = oids := by
    rw [hdata, ← List.append_assoc]
    exact slice_at hbefore hoids _
  have hoffsAt : slice data (oidsStart + count * algo.rawLen + count * 4) (count * 4) = offs := by
    have hfront : (idxMagic ++ Sha.bigEndian 4 2 ++ fanout ++ oids ++ crcs).length =
        oidsStart + count * algo.rawLen + count * 4 := by
      rw [List.length_append, List.length_append, hbefore, hoids, hcrcs]
    have hsplit : data = idxMagic ++ Sha.bigEndian 4 2 ++ fanout ++ oids ++ crcs ++
        (offs ++ (large ++ tail)) := by
      rw [hdata]
      simp only [List.append_assoc]
    rw [hsplit]
    exact slice_at hfront hoffs _
  have hlargeAt : slice data (oidsStart + count * algo.rawLen + count * 4 + count * 4)
    large.length =
      large := by
    have hfront : (idxMagic ++ Sha.bigEndian 4 2 ++ fanout ++ oids ++ crcs ++ offs).length =
        oidsStart + count * algo.rawLen + count * 4 + count * 4 := by
      rw [List.length_append, List.length_append, List.length_append, hbefore, hoids, hcrcs, hoffs]
    have hsplit : data = idxMagic ++ Sha.bigEndian 4 2 ++ fanout ++ oids ++ crcs ++ offs ++
        (large ++ tail) := by
      rw [hdata]
      simp only [List.append_assoc]
    rw [hsplit]
    exact slice_at hfront rfl _
  have hend : max (data.length - 2 * algo.rawLen)
    (oidsStart + count * algo.rawLen + count * 4 + count * 4) -
      (oidsStart + count * algo.rawLen + count * 4 + count * 4) = large.length := by
    omega
  rw [← List.append_assoc idxMagic, ← hdata]
  clear hdata
  subst htotal
  unfold parse
  rw [if_neg (by omega), if_neg (not_not.mpr hmagic)]
  simp only
  rw [if_neg (not_not.mpr hversion), dif_neg (by omega)]
  refine ⟨_, rfl, rfl, rfl, hoidsAt, hoffsAt, ?_⟩
  show slice data _ _ = large
  rw [hend, hlargeAt]

end PackIndex

namespace PackWriter

/-- The rows of an index, in order. -/
def sortedRows (index : List (ObjectId × Nat × Nat)) : List (ObjectId × Nat × Nat) :=
  index.mergeSort fun a b => decide (a.1.bytes ≤ b.1.bytes)

/-- The tables of an index hold these rows. -/
structure Tables (idx : PackIndex) (algo : HashAlgo)
    (rows : List (ObjectId × Nat × Nat)) : Prop where
  algo : idx.algo = algo
  count : idx.count = rows.length
  oids : idx.oids = rows.flatMap (·.1.bytes)
  offsets : idx.offsets = (indexOffsets (rows.map (·.2.1)) 0).1
  largeOffsets : idx.largeOffsets = (indexOffsets (rows.map (·.2.1)) 0).2.flatMap (Sha.bigEndian 8)

variable {hasher : Hasher} {algo : HashAlgo} {index : List (ObjectId × Nat × Nat)}
  {packHash : Bytes}

/-- The parts of an index, one behind the other. -/
theorem buildIndex_eq (hasher : Hasher) (algo : HashAlgo) (index : List (ObjectId × Nat × Nat))
    (packHash : Bytes) : ∃ digest, digest.length = algo.rawLen ∧
      buildIndex hasher algo index packHash = idxMagic ++ (Sha.bigEndian 4 2 ++
        ((List.range 256).flatMap (fun n => Sha.bigEndian 4
          ((sortedRows index).countP fun m => (m.1.bytes.headD 0).toNat ≤ n)) ++
        ((sortedRows index).flatMap (·.1.bytes) ++
        ((sortedRows index).flatMap (fun m => Sha.bigEndian 4 m.2.2) ++
        ((indexOffsets ((sortedRows index).map (·.2.1)) 0).1 ++
        ((indexOffsets ((sortedRows index).map (·.2.1)) 0).2.flatMap (Sha.bigEndian 8) ++
        (packHash ++ digest))))))) := by
  rw [buildIndex]
  simp only [List.append_assoc]
  refine ⟨_, ?_, rfl⟩
  exact hasher.digest_length algo _

theorem length_indexOffsets (offsets : List Nat) (large : Nat) :
    (indexOffsets offsets large).1.length = offsets.length * 4 := by
  induction offsets generalizing large with
  | nil => rfl
  | cons offset offsets ih =>
    rw [indexOffsets]
    split
    · rw [List.length_append, Sha.length_bigEndian, ih, List.length_cons]
      ring
    · rw [List.length_append, Sha.length_bigEndian, ih, List.length_cons]
      ring

theorem mem_sortedRows {m : ObjectId × Nat × Nat} : m ∈ sortedRows index ↔ m ∈ index :=
  List.mem_mergeSort

theorem length_sortedRows (index : List (ObjectId × Nat × Nat)) :
    (sortedRows index).length = index.length :=
  (List.mergeSort_perm _ _).length_eq

/-- The ids are in order, and no two are the same. -/
theorem pairwise_sortedRows (halgo : ∀ m ∈ index, m.1.algo = algo)
    (hnodup : (index.map Prod.fst).Nodup) :
    (sortedRows index).Pairwise fun a b => a.1.bytes < b.1.bytes := by
  have hle : (sortedRows index).Pairwise fun a b => a.1.bytes ≤ b.1.bytes :=
    pairwise_mergeSort_key (fun m : ObjectId × Nat × Nat => m.1.bytes) index
  have hne : (sortedRows index).Pairwise fun a b => a.1 ≠ b.1 := by
    have hperm : ((sortedRows index).map Prod.fst).Perm (index.map Prod.fst) :=
      (List.mergeSort_perm _ _).map _
    exact List.pairwise_map.mp (hperm.nodup_iff.mpr hnodup)
  refine (hle.and hne).imp_of_mem ?_
  intro a b ha hb ⟨hab, hid⟩
  have halgos : a.1.algo = b.1.algo := by
    rw [halgo a (mem_sortedRows.mp ha), halgo b (mem_sortedRows.mp hb)]
  exact lt_of_le_of_ne hab fun h => hid (ObjectId.ext_bytes halgos h)

theorem length_flatMap_bytes {rows : List (ObjectId × Nat × Nat)}
    (halgo : ∀ m ∈ rows, m.1.algo = algo) :
    (rows.flatMap (·.1.bytes)).length = rows.length * algo.rawLen := by
  induction rows with
  | nil => rw [List.flatMap_nil, List.length_nil, List.length_nil, Nat.zero_mul]
  | cons m rows ih =>
    obtain ⟨hm, hrows⟩ := List.forall_mem_cons.mp halgo
    rw [List.flatMap_cons, List.length_append, ih hrows, m.1.length_eq, hm, List.length_cons]
    ring

/-- **An index is taken apart into its tables.** -/
theorem parse_buildIndex (hasher : Hasher) (halgo : ∀ m ∈ index, m.1.algo = algo)
    (hhash : packHash.length = algo.rawLen) (hcount : index.length < 2 ^ 32) :
    ∃ idx, PackIndex.parse algo (buildIndex hasher algo index packHash) = .ok idx ∧
      Tables idx algo (sortedRows index) := by
  obtain ⟨digest, hdigest, hdata⟩ := buildIndex_eq hasher algo index packHash
  have hlen := length_sortedRows index
  -- the last count of the fanout is of the ids whose first byte is a byte
  have hlast : ∀ rest, number ((List.range 256).flatMap (fun n => Sha.bigEndian 4
      ((sortedRows index).countP fun m => (m.1.bytes.headD 0).toNat ≤ n)) ++ rest) (255 * 4) 4 =
      (sortedRows index).length := by
    intro rest
    have hfits : ∀ n ∈ List.range 256,
        ((sortedRows index).countP fun m => (m.1.bytes.headD 0).toNat ≤ n) < 256 ^ 4 := by
      intro n _
      have hle : ((sortedRows index).countP fun m => decide ((m.1.bytes.headD 0).toNat ≤ n)) ≤
          (sortedRows index).length := List.countP_le_length
      omega
    have hrow : (List.range 256)[255]? = some 255 := by decide
    rw [number_table hfits hrow]
    refine List.countP_eq_length.mpr fun m _ => ?_
    have hbyte := (m.1.bytes.headD 0).toNat_lt
    rw [decide_eq_true_iff]
    omega
  have hfanLen : ((List.range 256).flatMap fun n => Sha.bigEndian 4
      ((sortedRows index).countP fun m => (m.1.bytes.headD 0).toNat ≤ n)).length = 256 * 4 := by
    rw [length_table, List.length_range]
  have htail : (packHash ++ digest).length = 2 * algo.rawLen := by
    rw [List.length_append, hhash, hdigest]
    ring
  have hoffsLen : (indexOffsets ((sortedRows index).map (·.2.1)) 0).1.length =
      (sortedRows index).length * 4 := by
    rw [length_indexOffsets, List.length_map]
  obtain ⟨idx, hparse, hidx, hcountIs, hoids, hoffs, hlarge⟩ := @PackIndex.parse_parts algo _ _ _ _
    ((indexOffsets ((sortedRows index).map (·.2.1)) 0).2.flatMap (Sha.bigEndian 8)) _ _
    hfanLen hlast (length_flatMap_bytes fun m hm => halgo m (mem_sortedRows.mp hm))
    (length_table 4 (fun m => m.2.2) _) hoffsLen htail
  refine ⟨idx, ?_, hidx, hcountIs, hoids, hoffs, hlarge⟩
  rw [hdata]
  exact hparse

/-! ## Finding an offset -/

/-- What the offset tables say of an offset: itself, or the row of the large one that it is. -/
theorem indexOffsets_spec {offsets : List Nat} {large i offset : Nat}
    (h : offsets[i]? = some offset) (hlarge : large + offsets.length ≤ 2 ^ 31) (rest : Bytes) :
    (offset < 2 ^ 31 ∧ number ((indexOffsets offsets large).1 ++ rest) (i * 4) 4 = offset) ∨
      ∃ j, (indexOffsets offsets large).2[j]? = some offset ∧
        number ((indexOffsets offsets large).1 ++ rest) (i * 4) 4 = 2 ^ 31 + (large + j) := by
  induction offsets generalizing large i with
  | nil => cases h
  | cons first offsets ih =>
    rw [List.length_cons] at hlarge
    have hskip : ∀ (raw : Nat) (bytes : Bytes),
      number (Sha.bigEndian 4 raw ++ bytes ++ rest) ((i - 1 + 1) * 4) 4 =
        number (bytes ++ rest) ((i - 1) * 4) 4 := by
      intro raw bytes
      have hmul : (i - 1 + 1) * 4 = (Sha.bigEndian 4 raw).length + (i - 1) * 4 := by
        rw [Sha.length_bigEndian]
        ring
      rw [hmul, List.append_assoc, number_append]
    rw [indexOffsets]
    by_cases hsmall : first < 0x80000000
    · rw [if_pos hsmall]
      cases i with
      | zero =>
        cases h
        refine Or.inl ⟨hsmall, ?_⟩
        rw [Nat.zero_mul, List.append_assoc]
        exact number_bigEndian 4 (by omega) _
      | succ i =>
        have hlarge' : large + offsets.length ≤ 2 ^ 31 := by omega
        have hrest := ih h hlarge'
        simp only [Nat.add_sub_cancel] at hskip
        rw [hskip]
        exact hrest
    · rw [if_neg hsmall]
      have hor : 0x80000000 ||| large % 2 ^ 32 = 2 ^ 31 + large := by
        rw [Nat.mod_eq_of_lt (by omega)]
        exact (Nat.two_pow_add_eq_or_of_lt (by omega : large < 2 ^ 31) 1).symm
      cases i with
      | zero =>
        cases h
        refine Or.inr ⟨0, rfl, ?_⟩
        rw [Nat.zero_mul, List.append_assoc, hor]
        exact number_bigEndian 4 (by omega) _
      | succ i =>
        simp only [Nat.add_sub_cancel] at hskip
        rw [hskip]
        have hlarge' : large + 1 + offsets.length ≤ 2 ^ 31 := by omega
        rcases ih h hlarge' with hoffset | ⟨j, hj, hnumber⟩
        · exact Or.inl hoffset
        · exact Or.inr ⟨j + 1, hj, by rw [hnumber]; ring⟩

theorem mem_of_mem_large {offsets : List Nat} {large offset : Nat}
    (h : offset ∈ (indexOffsets offsets large).2) : offset ∈ offsets := by
  induction offsets generalizing large with
  | nil => exact h
  | cons first offsets ih =>
    rw [indexOffsets] at h
    split at h
    · exact List.mem_cons_of_mem _ (ih h)
    · rcases List.mem_cons.mp h with rfl | h
      · exact List.mem_cons_self
      · exact List.mem_cons_of_mem _ (ih h)

section Tables
variable {idx : PackIndex} {rows : List (ObjectId × Nat × Nat)} {m : ObjectId × Nat × Nat} {i : Nat}

theorem Tables.row (ht : Tables idx algo rows) (halgo : ∀ m ∈ rows, m.1.algo = algo)
    (hrow : rows[i]? = some m) : idx.row i = m.1.bytes := by
  have hlen : ∀ m ∈ rows, m.1.bytes.length = idx.algo.rawLen := by
    intro m hm
    rw [m.1.length_eq, halgo m hm, ht.algo]
  have hslice := slice_table hlen hrow []
  rw [List.append_nil] at hslice
  rw [PackIndex.row, ht.oids, hslice]

theorem Tables.offsetAt (ht : Tables idx algo rows) (hcount : rows.length ≤ 2 ^ 31)
    (hoffset : ∀ m ∈ rows, m.2.1 < 2 ^ 64) (hrow : rows[i]? = some m) :
    idx.offsetAt i = some m.2.1 := by
  have hlt : i < rows.length := (List.getElem?_eq_some_iff.mp hrow).1
  have hmap : (rows.map (·.2.1))[i]? = some m.2.1 := by
    rw [List.getElem?_map, hrow]
    rfl
  have hspec := indexOffsets_spec hmap (by rw [Nat.zero_add, List.length_map]; exact hcount) []
  rw [List.append_nil, ← ht.offsets] at hspec
  have hthere : ¬ idx.offsets.length < i * 4 + 4 := by
    rw [idx.offsets_length, ht.count]
    omega
  rw [PackIndex.offsetAt, if_neg hthere]
  rcases hspec with ⟨hsmall, hnumber⟩ | ⟨j, hj, hnumber⟩
  · simp only [hnumber]
    rw [if_pos hsmall]
  · have hjlt : j < (indexOffsets (rows.map (·.2.1)) 0).2.length :=
      (List.getElem?_eq_some_iff.mp hj).1
    have hfits : ∀ offset ∈ (indexOffsets (rows.map (·.2.1)) 0).2, offset < 256 ^ 8 := by
      intro offset hmem
      obtain ⟨m', hm', rfl⟩ := List.mem_map.mp (mem_of_mem_large hmem)
      exact hoffset m' hm'
    have hlarge := number_table hfits hj []
    rw [List.append_nil] at hlarge
    have hback : (2 ^ 31 + (0 + j) - 2 ^ 31) * 8 = j * 8 := by omega
    simp only [hnumber]
    rw [if_neg (by omega), hback, ht.largeOffsets, if_neg, hlarge]
    rw [length_table]
    omega

/-- An id is found in the row that is its own. -/
theorem Tables.positionOf (ht : Tables idx algo rows) (halgo : ∀ m ∈ rows, m.1.algo = algo)
    (hsorted : rows.Pairwise fun a b => a.1.bytes < b.1.bytes) {id : ObjectId} :
    idx.positionOf id = some i ↔ ∃ m, rows[i]? = some m ∧ m.1 = id := by
  constructor
  · intro h
    obtain ⟨hlt, hid⟩ := PackIndex.positionOf_some h
    rw [PackIndex.idAt_of_lt hlt] at hid
    have hlen : i < rows.length := by rwa [← ht.count]
    have hrow : rows[i]? = some rows[i] := List.getElem?_eq_getElem hlen
    refine ⟨rows[i], hrow, ObjectId.ext_bytes ?_ ?_⟩
    · rw [← Option.some.inj hid]
      exact (halgo _ (List.getElem_mem hlen)).trans ht.algo.symm
    · rw [← Option.some.inj hid]
      exact (ht.row halgo hrow).symm
  · rintro ⟨m, hrow, rfl⟩
    obtain ⟨hlt, hm⟩ := List.getElem?_eq_some_iff.mp hrow
    have hmem : m ∈ rows := List.mem_of_getElem? hrow
    rw [PackIndex.positionOf, if_neg (not_not.mpr ((halgo m hmem).trans ht.algo.symm))]
    refine BinarySearch.search_complete ?_ (Nat.zero_le i) (by rwa [ht.count]) (ht.row halgo hrow)
      (Nat.sub_le _ _)
    intro a b hab hb
    rw [ht.count] at hb
    have ha : a < rows.length := hab.trans hb
    rw [ht.row halgo (List.getElem?_eq_getElem ha), ht.row halgo (List.getElem?_eq_getElem hb)]
    exact List.pairwise_iff_getElem.mp hsorted a b ha hb hab

/-- **The offset found for an id is the one noted for it.** -/
theorem Tables.offsetOf (ht : Tables idx algo rows) (halgo : ∀ m ∈ rows, m.1.algo = algo)
    (hsorted : rows.Pairwise fun a b => a.1.bytes < b.1.bytes) (hcount : rows.length ≤ 2 ^ 31)
    (hoffset : ∀ m ∈ rows, m.2.1 < 2 ^ 64) {id : ObjectId} {offset : Nat} :
    idx.offsetOf id = some offset ↔ ∃ m ∈ rows, m.1 = id ∧ m.2.1 = offset := by
  rw [PackIndex.offsetOf, Option.bind_eq_some_iff]
  constructor
  · rintro ⟨i, hi, hat⟩
    obtain ⟨m, hrow, rfl⟩ := (ht.positionOf halgo hsorted).mp hi
    rw [ht.offsetAt hcount hoffset hrow] at hat
    exact ⟨m, List.mem_of_getElem? hrow, rfl, Option.some.inj hat⟩
  · rintro ⟨m, hm, rfl, rfl⟩
    obtain ⟨i, hrow⟩ := List.mem_iff_getElem?.mp hm
    exact ⟨i, (ht.positionOf halgo hsorted).mpr ⟨m, hrow, rfl⟩, ht.offsetAt hcount hoffset hrow⟩

/-- An index lists the ids it was made for. -/
theorem Tables.contains (ht : Tables idx algo rows) (halgo : ∀ m ∈ rows, m.1.algo = algo)
    (hsorted : rows.Pairwise fun a b => a.1.bytes < b.1.bytes) {id : ObjectId} :
    idx.contains id = true ↔ ∃ m ∈ rows, m.1 = id := by
  rw [PackIndex.contains_iff]
  constructor
  · rintro ⟨i, hi⟩
    obtain ⟨m, hrow, hm⟩ := (ht.positionOf halgo hsorted).mp hi
    exact ⟨m, List.mem_of_getElem? hrow, hm⟩
  · rintro ⟨m, hm, hid⟩
    obtain ⟨i, hrow⟩ := List.mem_iff_getElem?.mp hm
    exact ⟨i, (ht.positionOf halgo hsorted).mpr ⟨m, hrow, hid⟩⟩

/-- The ids of an index, row by row. -/
theorem Tables.idAt (ht : Tables idx algo rows) (halgo : ∀ m ∈ rows, m.1.algo = algo) (i : Nat) :
    idx.idAt i = rows[i]?.map Prod.fst := by
  cases hrow : rows[i]? with
  | none =>
    rw [Option.map_none]
    cases hid : idx.idAt i with
    | none => rfl
    | some id =>
      have hlt := PackIndex.lt_of_idAt hid
      rw [ht.count] at hlt
      exact absurd (List.getElem?_eq_none_iff.mp hrow) (Nat.not_le.mpr hlt)
  | some m =>
    have hlt := (List.getElem?_eq_some_iff.mp hrow).1
    rw [PackIndex.idAt_of_lt (by rwa [ht.count]), Option.map_some]
    refine congrArg some (ObjectId.ext_bytes ?_ (ht.row halgo hrow))
    exact ht.algo.trans (halgo m (List.mem_of_getElem? hrow)).symm

/-- The offsets of an index, row by row. -/
theorem Tables.offsetAt_eq (ht : Tables idx algo rows) (hcount : rows.length ≤ 2 ^ 31)
    (hoffset : ∀ m ∈ rows, m.2.1 < 2 ^ 64) (i : Nat) : idx.offsetAt i = rows[i]?.map (·.2.1) := by
  cases hrow : rows[i]? with
  | none =>
    have hle := List.getElem?_eq_none_iff.mp hrow
    have hpast : idx.offsets.length < i * 4 + 4 := by
      rw [idx.offsets_length, ht.count]
      omega
    rw [PackIndex.offsetAt, if_pos hpast, Option.map_none]
  | some m => rw [ht.offsetAt hcount hoffset hrow, Option.map_some]

end Tables

/-- **An index gives back the offset of every id**, and its rows are the list, sorted by id. -/
theorem parse_buildIndex_lookup (hasher : Hasher) (halgo : ∀ m ∈ index, m.1.algo = algo)
    (hnodup : (index.map Prod.fst).Nodup) (hcount : index.length < 2 ^ 31)
    (hoffset : ∀ m ∈ index, m.2.1 < 2 ^ 64) (hhash : packHash.length = algo.rawLen) :
    ∃ idx, PackIndex.parse algo (buildIndex hasher algo index packHash) = .ok idx ∧
      (∀ id offset, idx.offsetOf id = some offset ↔ ∃ crc, (id, offset, crc) ∈ index) ∧
      (∀ id, idx.offsetOf id = none ↔ ∀ m ∈ index, m.1 ≠ id) ∧
      ∃ rows : List (ObjectId × Nat × Nat), rows.Perm index ∧
        (rows.Pairwise fun a b => a.1.bytes < b.1.bytes) ∧
        idx.count = rows.length ∧
        ∀ i, idx.idAt i = rows[i]?.map Prod.fst ∧ idx.offsetAt i = rows[i]?.map (·.2.1) := by
  obtain ⟨idx, hparse, htables⟩ := parse_buildIndex hasher halgo hhash (by omega)
  have halgos : ∀ m ∈ sortedRows index, m.1.algo = algo :=
    fun m hm => halgo m (mem_sortedRows.mp hm)
  have hoffsets : ∀ m ∈ sortedRows index, m.2.1 < 2 ^ 64 :=
    fun m hm => hoffset m (mem_sortedRows.mp hm)
  have hsorted := pairwise_sortedRows halgo hnodup
  have hlen : (sortedRows index).length ≤ 2 ^ 31 := by
    rw [length_sortedRows]
    omega
  have hfound : ∀ id offset, idx.offsetOf id = some offset ↔ ∃ crc, (id, offset, crc) ∈ index := by
    intro id offset
    rw [htables.offsetOf halgos hsorted hlen hoffsets]
    constructor
    · rintro ⟨⟨_, _, crc⟩, hm, rfl, rfl⟩
      exact ⟨crc, mem_sortedRows.mp hm⟩
    · rintro ⟨crc, hm⟩
      exact ⟨_, mem_sortedRows.mpr hm, rfl, rfl⟩
  refine ⟨idx, hparse, hfound, fun id => ?_, sortedRows index, List.mergeSort_perm _ _, hsorted,
    htables.count, fun i => ⟨htables.idAt halgos i, htables.offsetAt_eq hlen hoffsets i⟩⟩
  rw [Option.eq_none_iff_forall_ne_some]
  constructor
  · rintro hnone m hm rfl
    exact hnone m.2.1 ((hfound m.1 m.2.1).mpr ⟨m.2.2, hm⟩)
  · intro hnone offset hsome
    obtain ⟨crc, hm⟩ := (hfound id offset).mp hsome
    exact hnone _ hm rfl

/-- The id of twenty equal bytes. -/
def repeatedId (b : UInt8) : ObjectId := .filled b

/-- Two rows, one of them beyond 2 GiB. -/
def twoRows : List (ObjectId × Nat × Nat) := [(repeatedId 2, 2 ^ 33, 7), (repeatedId 1, 12, 5)]

theorem parse_buildIndex_twoRows : ∃ idx,
    PackIndex.parse .sha1 (buildIndex .sha .sha1 twoRows (List.replicate 20 0)) = .ok idx ∧
      idx.offsetOf (repeatedId 2) = some (2 ^ 33) ∧ idx.offsetOf (repeatedId 3) = none := by
  have hlookup := @parse_buildIndex_lookup .sha1 twoRows (List.replicate 20 0) .sha
    (by decide) (by decide) (by decide) (by decide) (by decide)
  obtain ⟨idx, hparse, hfound, hnone, -⟩ := hlookup
  exact ⟨idx, hparse, (hfound _ _).mpr ⟨7, List.mem_cons_self⟩, (hnone _).mpr (by decide)⟩

end PackWriter

/-! ## Objects that stand by themselves -/

namespace Pack

/-- The object at an offset is whole, or a delta against a whole one before it. -/
inductive Stands (z : Zlib) (algo : HashAlgo) (data : Bytes) (offset : Nat) :
    ObjectType → Bytes → Prop
  | whole {ty : ObjectType} {content : Bytes} {next : Nat}
      (entry : EntryAt z algo data offset (.whole ty content) next) :
        Stands z algo data offset ty content
  | delta {ty : ObjectType} {source delta content : Bytes} {rel next next' : Nat}
      (entry : EntryAt z algo data offset (.ofs rel delta) next) (pos : rel ≠ 0) (le : rel ≤ offset)
      (base : EntryAt z algo data (offset - rel) (.whole ty source) next')
      (apply : applyDelta source delta = .ok content) : Stands z algo data offset ty content

/-- **What stands by itself is read, whatever the index and the other packs say.** -/
theorem Stands.readAtWith {z : Zlib} {p : Pack} {offset : Nat} {ty : ObjectType} {content : Bytes}
    (h : Stands z p.algo p.data offset ty content) (locate : ObjectId → Option Nat)
    (resolve : ExternalResolver) : p.readAtWith z offset locate resolve = .ok (ty, content) := by
  have hfresh : ¬ (BTreeSet.empty : BTreeSet Nat).contains offset = true := by
    rw [BTreeSet.contains_iff_mem]
    exact BTreeSet.not_mem_empty _
  rw [Pack.readAtWith]
  cases h with
  | whole entry =>
    rw [walkChain_whole entry hfresh]
    rfl
  | @delta source delta _ rel _ _ entry pos le base apply =>
    have hnew : ¬ ((BTreeSet.empty : BTreeSet Nat).insert offset).contains
        (offset - rel) = true := by
      rw [BTreeSet.contains_iff_mem, BTreeSet.mem_insert]
      rintro (heq | hmem)
      · omega
      · exact BTreeSet.not_mem_empty _ hmem
    have hdepth : maxDeltaChainDepth + 1 = maxDeltaChainDepth - 1 + 1 + 1 := rfl
    rw [hdepth, walkChain_ofs entry hfresh pos le, walkChain_whole base hnew]
    show (applyAll source ([] ++ [delta]) >>= _) = _
    rw [List.nil_append, applyAll_cons]
    show (applyDelta source delta >>= _) = _
    rw [apply]
    rfl

end Pack

namespace PackWriter
open Pack

variable {z : Zlib} {w : PackWriter}

/-- The writer has noted where each object of `done` stands. -/
structure Notes (z : Zlib) (algo : HashAlgo) (s : Written) (done : List PackEntry) : Prop where
  bases : ∀ c ∈ s.bases, c.offset < s.pack.length ∧
    ∀ tail, ∃ next, EntryAt z algo (s.pack ++ tail) c.offset (.whole c.ty c.payload) next
  ids : s.index.map Prod.fst = done.map PackEntry.id
  stands : ∀ m ∈ s.index, m.2.1 < s.pack.length ∧ ∃ e ∈ done, e.id = m.1 ∧
    ∀ tail, Stands z algo (s.pack ++ tail) m.2.1 e.ty e.payload

/-- **Writing an object notes where it stands.** -/
theorem Notes.writeObject (hz : z.Exact) (hbases : w.externalBases = []) {s s' : Written}
    {done : List PackEntry} {e : PackEntry} (hn : Notes z w.algo s done)
    (hwrite : w.writeObject z s e = .ok s') (hsize : e.payload.length < 2 ^ 64)
    (hlen : s'.pack.length < 2 ^ 64) : Notes z w.algo s' (done ++ [e]) := by
  have hids : ∀ b ∈ w.externalBases, b.id.algo = w.algo := by
    rw [hbases]
    exact fun b hb => absurd hb List.not_mem_nil
  obtain ⟨entry, crc, hindex, happended, hat⟩ := writeObject_appends hz hwrite hsize hlen hids
  obtain ⟨part, hne, hpack⟩ := writeObject_pack hwrite
  have hpos : 0 < part.length := List.length_pos_iff.mpr hne
  have hgrow : s.pack.length < s'.pack.length := by
    rw [hpack, List.length_append]
    omega
  have hsplit : ∀ tail, s'.pack ++ tail = s.pack ++ (part ++ tail) := by
    intro tail
    rw [hpack, List.append_assoc]
  have holdBases : ∀ c ∈ s.bases, c.offset < s'.pack.length ∧
      ∀ tail, ∃ next, EntryAt z w.algo (s'.pack ++ tail) c.offset (.whole c.ty c.payload) next := by
    intro c hc
    obtain ⟨hlt, hentry⟩ := hn.bases c hc
    refine ⟨hlt.trans hgrow, fun tail => ?_⟩
    rw [hsplit]
    exact hentry (part ++ tail)
  have hids' : s'.index.map Prod.fst = (done ++ [e]).map PackEntry.id := by
    rw [hindex, List.map_append, List.map_append, hn.ids]
    rfl
  have hstands : (∀ tail, Stands z w.algo (s'.pack ++ tail) s.pack.length e.ty e.payload) →
      ∀ m ∈ s'.index, m.2.1 < s'.pack.length ∧ ∃ e' ∈ done ++ [e], e'.id = m.1 ∧
        ∀ tail, Stands z w.algo (s'.pack ++ tail) m.2.1 e'.ty e'.payload := by
    intro hnew m hm
    rw [hindex] at hm
    rcases List.mem_append.mp hm with hm | hm
    · obtain ⟨hlt, e', he', hid, hold⟩ := hn.stands m hm
      refine ⟨hlt.trans hgrow, e', List.mem_append_left _ he', hid, fun tail => ?_⟩
      rw [hsplit]
      exact hold (part ++ tail)
    · rw [List.mem_singleton] at hm
      subst hm
      exact ⟨hgrow, e, List.mem_append_right _ List.mem_cons_self, rfl, hnew⟩
  cases happended with
  | whole bases alone =>
    refine ⟨?_, hids', hstands fun tail => .whole (hat tail)⟩
    intro c hc
    rw [bases] at hc
    rcases List.mem_append.mp hc with hc | hc
    · exact holdBases c hc
    · rw [List.mem_singleton] at hc
      subst hc
      exact ⟨hgrow, fun tail => ⟨_, hat tail⟩⟩
  | @ofs b delta bases mem ty apply alone =>
    refine ⟨by rwa [bases], hids', hstands fun tail => ?_⟩
    have hlt := (hn.bases b mem).1
    obtain ⟨next, hbase⟩ := (holdBases b mem).2 tail
    have hback : s.pack.length - (s.pack.length - b.offset) = b.offset := by omega
    rw [← hback, ty] at hbase
    exact .delta (hat tail) (by omega) (by omega) hbase apply
  | @ref b delta refers =>
    have hmem := (mem_externalWindow refers.1).1
    rw [hbases] at hmem
    cases hmem

/-- The run: every object written is noted. -/
theorem Notes.run (hz : z.Exact) (hbases : w.externalBases = []) {es : List PackEntry}
    (hsize : ∀ e ∈ es, e.payload.length < 2 ^ 64) {done : List PackEntry} {s s' : Written}
    (hn : Notes z w.algo s done) (hrun : es.foldlM (w.writeObject z) s = .ok s')
    (hlen : s'.pack.length < 2 ^ 64) : Notes z w.algo s' (done ++ es) := by
  induction es generalizing done s with
  | nil =>
    cases hrun
    rwa [List.append_nil]
  | cons e es ih =>
    obtain ⟨hsizeE, hsizeEs⟩ := List.forall_mem_cons.mp hsize
    rw [List.foldlM_cons] at hrun
    obtain ⟨s₁, hwrite, hrun⟩ := except_bind_ok.mp hrun
    obtain ⟨more, hmore⟩ := foldlM_writeObject_pack hrun
    have hlen₁ : s₁.pack.length < 2 ^ 64 := by
      rw [hmore, List.length_append] at hlen
      omega
    have hn₁ := hn.writeObject hz hbases hwrite hsizeE hlen₁
    have hrest := ih hsizeEs hn₁ hrun
    rwa [List.append_assoc] at hrest

/-- **A finished pack gives back every object by its id**, and lists no other id. -/
theorem finish_lookup (hz : z.Exact) (hv : w.Valid) (hbases : w.externalBases = [])
    (hsize : ∀ e ∈ w.entries, e.payload.length < 2 ^ 64) (hcount : w.entries.length < 2 ^ 31)
    {out : PackOutput} (hout : w.finish z = .ok out) (hlen : out.pack.length < 2 ^ 64) :
    ∃ idx p, PackIndex.parse w.algo out.idx = .ok idx ∧ Pack.new out.pack w.algo = .ok p ∧
      (∀ id, idx.contains id = true ↔ ∃ e ∈ w.entries, e.id = id) ∧
      ∀ e ∈ w.entries, ∃ offset, idx.offsetOf e.id = some offset ∧
        ∀ locate resolve, p.readAtWith z offset locate resolve = .ok (e.ty, e.payload) := by
  obtain ⟨s, hrun, hout⟩ := except_bind_ok.mp hout
  cases hout
  have hlenS : s.pack.length < 2 ^ 64 := by
    simp only [List.length_append] at hlen
    omega
  have hstart : Notes z w.algo w.start [] :=
    ⟨fun c hc => absurd hc List.not_mem_nil, rfl, fun m hm => absurd hm List.not_mem_nil⟩
  have hnotes := hstart.run hz hbases hsize hrun hlenS
  rw [List.nil_append] at hnotes
  obtain ⟨more, hmore⟩ : ∃ more, s.pack = packHeader w.entries.length ++ more :=
    foldlM_writeObject_pack hrun
  -- the rows of the index are the objects of the pack
  have halgo : ∀ m ∈ s.index, m.1.algo = w.algo := by
    intro m hm
    obtain ⟨-, e, he, hid, -⟩ := hnotes.stands m hm
    rw [← hid, hv.ids e he]
    rfl
  have hlength : s.index.length = w.entries.length := by
    have hids := congrArg List.length hnotes.ids
    rwa [List.length_map, List.length_map] at hids
  have hnodup : (s.index.map Prod.fst).Nodup := by
    rw [hnotes.ids]
    exact hv.nodup
  obtain ⟨idx, hparse, htables⟩ := parse_buildIndex w.hasher halgo
    (w.hasher.digest_length w.algo s.pack) (by omega)
  have halgos : ∀ m ∈ sortedRows s.index, m.1.algo = w.algo :=
    fun m hm => halgo m (mem_sortedRows.mp hm)
  have hsorted := pairwise_sortedRows halgo hnodup
  have hmem : ∀ e ∈ w.entries, ∃ m ∈ sortedRows s.index, m.1 = e.id := by
    intro e he
    have hid : e.id ∈ s.index.map Prod.fst := by
      rw [hnotes.ids]
      exact List.mem_map_of_mem he
    obtain ⟨m, hm, hid⟩ := List.mem_map.mp hid
    exact ⟨m, mem_sortedRows.mpr hm, hid⟩
  have hnew : Pack.new (s.pack ++ w.hasher.digest w.algo s.pack) w.algo =
      .ok ⟨s.pack ++ w.hasher.digest w.algo s.pack, w.algo, ObjectId.natOfBytes
        (((s.pack ++ w.hasher.digest w.algo s.pack).drop 8).take 4)⟩ := by
    have hsig : packSignature.length = 4 := by decide
    have hfront : s.pack ++ w.hasher.digest w.algo s.pack = packSignature ++ (Sha.bigEndian 4 2 ++
        (Sha.bigEndian 4 (w.entries.length % 2 ^ 32) ++
          (more ++ w.hasher.digest w.algo s.pack))) := by
      rw [hmore, packHeader]
      simp only [List.append_assoc]
    rw [Pack.new, if_neg, if_neg, if_neg]
    · rw [hfront, List.drop_left' hsig, List.take_left' (Sha.length_bigEndian _ _)]
      decide
    · rw [hfront, List.take_left' hsig]
      exact not_not.mpr rfl
    · rw [hmore, List.length_append, List.length_append, length_packHeader]
      omega
  refine ⟨idx, _, hparse, hnew, fun id => ?_, fun e he => ?_⟩
  · rw [htables.contains halgos hsorted]
    constructor
    · rintro ⟨m, hm, rfl⟩
      obtain ⟨-, e, he, hid, -⟩ := hnotes.stands m (mem_sortedRows.mp hm)
      exact ⟨e, he, hid⟩
    · rintro ⟨e, he, rfl⟩
      exact hmem e he
  · obtain ⟨m, hm, hid⟩ := hmem e he
    obtain ⟨-, e', he', hid', hstands⟩ := hnotes.stands m (mem_sortedRows.mp hm)
    have heq : e' = e := List.inj_on_of_nodup_map hv.nodup he' he (hid'.trans hid)
    subst heq
    have hoffset := (htables.offsetOf halgos hsorted (by rw [length_sortedRows]; omega) (fun m hm =>
      (hnotes.stands m (mem_sortedRows.mp hm)).1.trans hlenS)).mpr ⟨m, hm, hid, rfl⟩
    exact ⟨m.2.1, hoffset, fun locate resolve => (hstands _).readAtWith locate resolve⟩

end PackWriter
end Puregit
