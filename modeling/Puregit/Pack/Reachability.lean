import Puregit.Pack.Bitmap

/-! # What the bitmaps say

A bitmap is written for positions and the reverse index for rows, each after a sort of its
own.  Where the two sorts put the rows in one order, `Alike`, or no other order is possible,
the reverse index gives for each position the row of the object the bitmap means.  Then the
bits of an entry stand for what its commit reaches, `writeBitmap_readsBack`.
-/
namespace Puregit
open ObjectDatabase ObjectGraph

namespace Bitmap

/-! ## The layout is read back -/

theorem unsealed_sealed (h : Hasher) (algo : HashAlgo) (body : Bytes) :
    unsealed h algo (body ++ h.digest algo body) = some body := by
  have hlen : (body ++ h.digest algo body).length - algo.rawLen = body.length := by
    rw [List.length_append, h.digest_length]
    omega
  unfold unsealed
  rw [hlen, List.take_left]
  exact if_pos List.drop_left

theorem readEwah_toBytes {e : Ewah} (he : e.Fits) (rest : Bytes) :
    readEwah (e.toBytes ++ rest) = some (e, rest) := by
  unfold readEwah
  rw [Ewah.fromBytes_toBytes he]
  show some (e, (e.toBytes ++ rest).drop e.toBytes.length) = _
  rw [List.drop_left]

/-- The bytes of an entry that stands alone. -/
def entryBytes (e : BitmapEntry) : Bytes := Sha.bigEndian 4 e.row ++ [0, 0] ++ e.bits.toBytes

/-- An entry that stands alone, of numbers that fit. -/
structure Standalone (e : BitmapEntry) : Prop where
  row : e.row < 2 ^ 32
  xorOffset : e.xorOffset = 0
  flags : e.flags = 0
  bits : e.bits.Fits

theorem readBitmapEntry_entryBytes {e : BitmapEntry} (he : Standalone e) (rest : Bytes) :
    readBitmapEntry (entryBytes e ++ rest) = some (e, rest) := by
  have hshape : entryBytes e ++ rest =
      Sha.bigEndian 4 e.row ++ (Sha.bigEndian 1 0 ++
        (Sha.bigEndian 1 0 ++ (e.bits.toBytes ++ rest))) := by
    unfold entryBytes
    simp [Sha.bigEndian]
  have hfour : (Sha.bigEndian 4 e.row).length = 4 := Sha.length_bigEndian _ _
  have hfive : (Sha.bigEndian 4 e.row ++ Sha.bigEndian 1 0).length = 5 := by
    rw [List.length_append, hfour, Sha.length_bigEndian]
  have hsix : (Sha.bigEndian 4 e.row ++ Sha.bigEndian 1 0 ++ Sha.bigEndian 1 0).length = 6 := by
    rw [List.length_append, hfive, Sha.length_bigEndian]
  have hrow : number (entryBytes e ++ rest) 0 4 = e.row := by
    rw [hshape]
    exact number_bigEndian 4 he.row _
  have hxor : number (entryBytes e ++ rest) 4 1 = e.xorOffset := by
    rw [hshape, he.xorOffset]
    exact number_bigEndian_at hfour 1 (by decide) _
  have hflags : number (entryBytes e ++ rest) 5 1 = e.flags := by
    rw [hshape, ← List.append_assoc, he.flags]
    exact number_bigEndian_at hfive 1 (by decide) _
  have hdrop : (entryBytes e ++ rest).drop 6 = e.bits.toBytes ++ rest := by
    rw [hshape, ← List.append_assoc, ← List.append_assoc]
    exact List.drop_left' hsix
  unfold readBitmapEntry
  rw [hdrop, readEwah_toBytes he.bits, hrow, hxor, hflags]
  rfl

/-- **The entries are read back**, all of them. -/
theorem readBitmapEntries_entryBytes {es : List BitmapEntry}
    (hes : ∀ e ∈ es, Standalone e) {fuel : Nat} (hfuel : (es.flatMap entryBytes).length ≤ fuel) :
    readBitmapEntries fuel (es.flatMap entryBytes) = some es := by
  induction es generalizing fuel with
  | nil => cases fuel <;> rfl
  | cons e es ih =>
    obtain ⟨he, hes⟩ := List.forall_mem_cons.mp hes
    have hread := readBitmapEntry_entryBytes he (es.flatMap entryBytes)
    have hlen : (entryBytes e).length = 18 + e.bits.words.length * 8 := by
      unfold entryBytes
      rw [List.length_append, List.length_append, Sha.length_bigEndian, Ewah.length_toBytes,
        List.length_cons, List.length_singleton]
      omega
    rw [List.flatMap_cons, List.length_append, hlen] at hfuel
    rw [List.flatMap_cons]
    cases fuel with
    | zero => omega
    | succ fuel =>
      have hrest := ih hes (show (es.flatMap entryBytes).length ≤ fuel by omega)
      generalize hdata : entryBytes e ++ es.flatMap entryBytes = data at hread
      cases data with
      | nil =>
        rw [← List.length_eq_zero_iff, List.length_append, hlen] at hdata
        omega
      | cons x data =>
        rw [readBitmapEntries, hread]
        · show (readBitmapEntries fuel (es.flatMap entryBytes)).bind _ = _
          rw [hrest]
          rfl
        · nofun

/-- The bytes of a bitmap file before its checksum. -/
def fileBytes (count : Nat) (packHash : ObjectId) (types : ObjectType → Ewah)
    (entries : Bytes) : Bytes :=
  bitmapMagic ++ Sha.bigEndian 2 bitmapVersion ++ Sha.bigEndian 2 flagFullDag ++
    Sha.bigEndian 4 count ++
    packHash.bytes ++ bitmapTypes.flatMap (fun ty => (types ty).toBytes) ++ entries

/-- **A bitmap file is read back**; its entry count is the number given for it, cut to four
bytes. -/
theorem readBitmap_fileBytes (h : Hasher) (algo : HashAlgo) (count : Nat) (packHash : ObjectId)
    {types : ObjectType → Ewah} {es : List BitmapEntry} (htypes : ∀ ty, (types ty).Fits)
    (hes : ∀ e ∈ es, Standalone e) :
    readBitmap h algo packHash.algo (fileBytes count packHash types (es.flatMap entryBytes) ++
      h.digest algo (fileBytes count packHash types (es.flatMap entryBytes))) =
      some ⟨bitmapVersion, flagFullDag, count % 2 ^ 32, packHash.bytes, types, es⟩ := by
  have hcut : Sha.bigEndian 4 count = Sha.bigEndian 4 (count % 2 ^ 32) := by
    apply ObjectId.natOfBytes_injective
    · rw [Sha.length_bigEndian, Sha.length_bigEndian]
    · rw [ObjectId.natOfBytes_bigEndian, ObjectId.natOfBytes_bigEndian]
      exact (Nat.mod_mod _ _).symm
  have hlt : count % 2 ^ 32 < 256 ^ 4 := Nat.mod_lt _ (by decide)
  generalize count % 2 ^ 32 = entryCount at hcut hlt
  generalize hbody : fileBytes count packHash types (es.flatMap entryBytes) = body
  -- the header ends after twelve bytes and the pack's checksum
  let rest := (types .commit).toBytes ++ ((types .tree).toBytes ++ ((types .blob).toBytes ++
    ((types .tag).toBytes ++ es.flatMap entryBytes)))
  have hshape : body = bitmapMagic ++
    (Sha.bigEndian 2 bitmapVersion ++ (Sha.bigEndian 2 flagFullDag ++
      (Sha.bigEndian 4 entryCount ++ (packHash.bytes ++ rest)))) := by
    rw [← hbody, fileBytes, hcut]
    simp [bitmapTypes, rest]
  have hsix : (bitmapMagic ++ Sha.bigEndian 2 bitmapVersion).length = 6 := rfl
  have height : (bitmapMagic ++ Sha.bigEndian 2 bitmapVersion ++
    Sha.bigEndian 2 flagFullDag).length = 8 := rfl
  have htwelve : (bitmapMagic ++ Sha.bigEndian 2 bitmapVersion ++ Sha.bigEndian 2 flagFullDag ++
      Sha.bigEndian 4 entryCount).length = 12 := rfl
  have hversion : number body 4 2 = bitmapVersion := by
    rw [hshape]
    exact number_bigEndian_at rfl 2 (by decide) _
  have hflags : number body 6 2 = flagFullDag := by
    rw [hshape, ← List.append_assoc]
    exact number_bigEndian_at hsix 2 (by decide) _
  have hcount : number body 8 4 = entryCount := by
    rw [hshape, ← List.append_assoc, ← List.append_assoc]
    exact number_bigEndian_at height 4 hlt _
  have hhash : slice body 12 packHash.algo.rawLen = packHash.bytes := by
    have hslice := slice_append (bitmapMagic ++ Sha.bigEndian 2 bitmapVersion ++
      Sha.bigEndian 2 flagFullDag ++
      Sha.bigEndian 4 entryCount) (packHash.bytes ++ rest) 0 packHash.bytes.length
    rw [slice_front, htwelve, packHash.length_eq] at hslice
    rw [hshape, ← List.append_assoc, ← List.append_assoc, ← List.append_assoc]
    exact hslice
  have hdrop : body.drop (12 + packHash.algo.rawLen) = rest := by
    rw [hshape, ← List.append_assoc, ← List.append_assoc, ← List.append_assoc, ← List.append_assoc]
    apply List.drop_left'
    rw [List.length_append, htwelve, packHash.length_eq]
  have hmagic : ¬body.take 4 ≠ bitmapMagic := by
    rw [hshape]
    exact not_not.mpr (List.take_left' rfl)
  unfold readBitmap
  rw [unsealed_sealed]
  simp only [Option.bind_eq_bind, Option.bind_some]
  rw [if_neg hmagic, hdrop, readEwah_toBytes (htypes .commit)]
  simp only [Option.bind_some]
  rw [readEwah_toBytes (htypes .tree)]
  simp only [Option.bind_some]
  rw [readEwah_toBytes (htypes .blob)]
  simp only [Option.bind_some]
  rw [readEwah_toBytes (htypes .tag)]
  simp only [Option.bind_some]
  rw [readBitmapEntries_entryBytes hes (Nat.le_refl _)]
  simp only [Option.bind_some, hversion, hflags, hcount, hhash]
  congr 2
  funext ty
  cases ty <;> rfl

/-! ## The reverse index is read back -/

theorem readReverseIndex_rows (h : Hasher) (algo : HashAlgo) {rows : List Nat}
    (hrows : ∀ row ∈ rows, row < 2 ^ 32) (hash : Nat) (packHash : ObjectId) :
    let out := revIndexMagic ++ Sha.bigEndian 4 1 ++ Sha.bigEndian 4 hash ++
      rows.flatMap (fun row => Sha.bigEndian 4 row) ++ packHash.bytes
    readReverseIndex h algo rows.length (out ++ h.digest algo out) = some rows := by
  intro out
  have htwelve : (revIndexMagic ++ Sha.bigEndian 4 1 ++ Sha.bigEndian 4 hash).length = 12 := rfl
  have hmagic : out.take 4 = revIndexMagic := by
    show (revIndexMagic ++ _ ++ _ ++ _ ++ _).take 4 = _
    rw [List.append_assoc, List.append_assoc, List.append_assoc]
    exact List.take_left' rfl
  have hversion : number out 4 4 = 1 := by
    show number (revIndexMagic ++ _ ++ _ ++ _ ++ _) 4 4 = 1
    rw [List.append_assoc, List.append_assoc, List.append_assoc]
    exact number_bigEndian_at rfl 4 (by decide) _
  have hlen : 12 + rows.length * 4 ≤ out.length := by
    show _ ≤ (revIndexMagic ++ Sha.bigEndian 4 1 ++ Sha.bigEndian 4 hash ++ _ ++ _).length
    rw [List.length_append, List.length_append, htwelve, length_table 4 fun row => row]
    omega
  have hrow : ∀ pos (hpos : pos < rows.length), number out (12 + pos * 4) 4 = rows[pos] := by
    intro pos hpos
    have happend := number_append (revIndexMagic ++ Sha.bigEndian 4 1 ++ Sha.bigEndian 4 hash)
      (rows.flatMap (fun row => Sha.bigEndian 4 row) ++ packHash.bytes) (pos * 4) 4
    rw [htwelve, ← List.append_assoc] at happend
    rw [happend]
    exact number_table (f := fun row => row) hrows (List.getElem?_eq_getElem hpos) _
  have hnone : ¬(out.take 4 ≠ revIndexMagic ∨ number out 4 4 ≠ 1 ∨
      out.length < 12 + rows.length * 4) := by
    rintro (hne | hne | hlt)
    · exact hne hmagic
    · exact hne hversion
    · omega
  unfold readReverseIndex
  rw [unsealed_sealed]
  show (if _ then _ else _) = _
  rw [if_neg hnone]
  refine congrArg some (List.ext_getElem ?_ fun pos hpos hpos' => ?_)
  · rw [List.length_map, List.length_range]
  · rw [List.getElem_map, List.getElem_range, hrow pos hpos']

/-! ## The order of the pack -/

variable {s s' : UnstableSort} {idx : PackIndex}

/-- No two rows of an index have the same offset. -/
def DistinctOffsets (idx : PackIndex) : Prop :=
  ∀ i < idx.count, ∀ j < idx.count, idx.offsetAt i = idx.offsetAt j → i = j

/-- Every row of an index has an offset. -/
def HasOffsets (idx : PackIndex) : Prop := ∀ row < idx.count, ∃ off, idx.offsetAt row = some off

/-- The offset of a row that has one. -/
def rowOffset (idx : PackIndex) (row : Nat) : Nat := (idx.offsetAt row).getD 0

/-- The id of a row that there is. -/
def rowId (idx : PackIndex) (row : Nat) : ObjectId := (idx.idAt row).getD (ObjectId.zero idx.algo)

theorem idAt_rowId {row : Nat} (h : row < idx.count) : idx.idAt row = some (rowId idx row) := by
  unfold rowId
  rw [PackIndex.idAt_of_lt h, Option.getD_some]

/-- The rows of an index in pack order. -/
def packRows (s : UnstableSort) (idx : PackIndex) : List Nat :=
  s.sortByKey (rowOffset idx) (List.range idx.count)

theorem mem_packRows {row : Nat} : row ∈ packRows s idx ↔ row < idx.count := by
  unfold packRows
  rw [UnstableSort.mem_sortByKey, List.mem_range]

theorem length_packRows : (packRows s idx).length = idx.count := by
  unfold packRows
  rw [(s.perm _ _).length_eq, List.length_range]

section
variable {α : Type} {value : Nat → Option α} {message : Str}

theorem hasOffsets_of_byOffset {order : List (Nat × α)}
    (h : byOffset s idx value message = .ok order) :
    HasOffsets idx := by
  unfold byOffset at h
  intro row hrow
  by_cases hlen : ((List.range idx.count).filterMap fun row =>
      (idx.offsetAt row).bind fun off => (value row).map fun v => (off, v)).length = idx.count
  · have hsome := List.filterMap_length_eq_length.mp (hlen.trans List.length_range.symm) row
      (List.mem_range.mpr hrow)
    cases hoff : idx.offsetAt row with
    | some off => exact ⟨off, rfl⟩
    | none =>
      rw [hoff] at hsome
      cases hsome
  · rw [if_pos hlen] at h
    cases h

/-- **Both writers put the rows in one order**, if equal offsets do not set them apart. -/
theorem byOffset_packRows {g : Nat → α} (hvalue : ∀ row < idx.count, value row = some (g row))
    (hoffsets : HasOffsets idx) (hties : DistinctOffsets idx ∨ s.Alike s') :
    byOffset s idx value message = .ok ((packRows s' idx).map fun row =>
      (rowOffset idx row, g row)) := by
  have hrows : ((List.range idx.count).filterMap fun row =>
      (idx.offsetAt row).bind fun off => (value row).map fun v => (off, v)) =
      (List.range idx.count).map fun row => (rowOffset idx row, g row) := by
    rw [← List.filterMap_eq_map]
    refine List.filterMap_congr fun row hrow => ?_
    have hlt := List.mem_range.mp hrow
    obtain ⟨off, hoff⟩ := hoffsets row hlt
    rw [hvalue row hlt, hoff]
    show some (off, g row) = some (rowOffset idx row, g row)
    rw [rowOffset, hoff, Option.getD_some]
  have hkeys : (∀ i ∈ List.range idx.count, ∀ j ∈ List.range idx.count,
      rowOffset idx i = rowOffset idx j → i = j) ∨ s.Alike s' := by
    refine hties.imp_left fun hdistinct i hi j hj hsame => ?_
    have hi' := List.mem_range.mp hi
    have hj' := List.mem_range.mp hj
    obtain ⟨off, hoff⟩ := hoffsets i hi'
    obtain ⟨off', hoff'⟩ := hoffsets j hj'
    unfold rowOffset at hsame
    rw [hoff, hoff', Option.getD_some, Option.getD_some] at hsame
    exact hdistinct i hi' j hj' (by rw [hoff, hoff', hsame])
  unfold byOffset
  rw [hrows, if_neg (by simp)]
  exact congrArg Except.ok (UnstableSort.sortByKey_map hkeys)

end

/-- **The reverse index gives the rows in pack order.** -/
theorem writeReverseIndex_packRows (h : Hasher) (packHash : ObjectId) (hoffsets : HasOffsets idx)
    (hties : DistinctOffsets idx ∨ s'.Alike s') :
    ∃ rev, writeReverseIndex s' h idx packHash = .ok rev ∧
      readReverseIndex h idx.algo idx.count rev = some (packRows s' idx) := by
  have horder : byOffset s' idx some (str "rev-index: idx row out of range") =
      .ok ((packRows s' idx).map fun row => (rowOffset idx row, row)) :=
    byOffset_packRows (fun _ _ => rfl) hoffsets hties
  have hread := readReverseIndex_rows h idx.algo
    (fun row hrow => (mem_packRows.mp hrow).trans idx.count_lt :
      ∀ row ∈ packRows s' idx, row < 2 ^ 32)
    (hashId idx.algo) packHash
  rw [length_packRows] at hread
  refine ⟨_, ?_, hread⟩
  unfold writeReverseIndex
  rw [horder]
  simp only [bind, Except.bind, List.flatMap_map]

/-! ## Bitmaps of positions -/

section
variable {set : List Nat} {n : Nat}

theorem typeBitmap_eq (hsorted : set.Pairwise (· ≤ ·)) (hlt : ∀ b ∈ set, b < n) :
    ∃ size ≤ n, typeBitmap set = Ewah.fromSetBits set size ∧ ∀ b ∈ set, b < size := by
  rcases List.eq_nil_or_concat set with rfl | ⟨init, last, rfl⟩
  · exact ⟨0, Nat.zero_le n, rfl, nofun⟩
  · rw [List.concat_eq_append] at hsorted hlt ⊢
    refine ⟨last + 1, hlt last (by simp), ?_, fun b hb => ?_⟩
    · unfold typeBitmap
      rw [List.getLast?_append_cons]
      rfl
    · rcases List.mem_append.mp hb with hinit | hlast
      · have hle := (List.pairwise_append.mp hsorted).2.2 b hinit last (by simp)
        omega
      · rw [List.mem_singleton.mp hlast]
        exact Nat.lt_succ_self last

theorem fits_typeBitmap (hsorted : set.Pairwise (· ≤ ·)) (hlt : ∀ b ∈ set, b < n)
    (hn : n < 2 ^ 32) :
    (typeBitmap set).Fits := by
  obtain ⟨size, hle, heq, -⟩ := typeBitmap_eq hsorted hlt
  rw [heq]
  exact Ewah.fits_fromSetBits (hle.trans_lt hn) set

/-- **The set bits of a bitmap of positions are the positions.** -/
theorem mem_setBits_typeBitmap (hsorted : set.Pairwise (· ≤ ·)) (hlt : ∀ b ∈ set, b < n)
    (hn : n < 2 ^ 32) {pos : Nat} : pos ∈ (typeBitmap set).setBits ↔ pos ∈ set := by
  obtain ⟨size, hle, heq, hinside⟩ := typeBitmap_eq hsorted hlt
  rw [heq, Ewah.mem_setBits_fromSetBits (hle.trans_lt hn)]
  exact ⟨fun h => h.1, fun h => ⟨h, hinside pos h⟩⟩

end

theorem mem_positionsOf {types : List ObjectType} {ty : ObjectType} {pos : Nat} :
    pos ∈ positionsOf types ty ↔ types[pos]? = some ty := by
  unfold positionsOf
  rw [List.mem_filterMap]
  constructor
  · intro ⟨⟨t, p⟩, hmem, hkept⟩
    have hget := List.mk_mem_zipIdx_iff_getElem?.mp hmem
    change (if t = ty then some p else none) = some pos at hkept
    by_cases ht : t = ty
    · rw [if_pos ht] at hkept
      cases hkept
      rw [hget, ht]
    · rw [if_neg ht] at hkept
      cases hkept
  · intro hget
    exact ⟨(ty, pos), List.mk_mem_zipIdx_iff_getElem?.mpr hget, if_pos rfl⟩

theorem positionsOf_sorted (types : List ObjectType) (ty : ObjectType) :
    (positionsOf types ty).Pairwise (· ≤ ·) := by
  have hrange : (types.zipIdx.map Prod.snd).Pairwise (· < ·) := by
    rw [List.zipIdx_map_snd]
    exact List.pairwise_lt_range'
  refine (List.pairwise_map.mp hrange).filterMap _ ?_
  intro ⟨t, p⟩ ⟨t', p'⟩ hlt b hb b' hb'
  have hkept : ∀ {t : ObjectType} {p q : Nat}, (if t = ty then some p else none) =
      some q → q = p := by
    intro t p q hq
    by_cases ht : t = ty
    · rw [if_pos ht] at hq
      exact (Option.some.inj hq).symm
    · rw [if_neg ht] at hq
      cases hq
  rw [hkept hb, hkept hb']
  exact Nat.le_of_lt hlt

/-! ## The object at a position -/

/-- The object at a position, through the rows a reverse index gives. -/
def objectAt (idx : PackIndex) (rows : List Nat) (pos : Nat) : Option ObjectId :=
  rows[pos]?.bind idx.idAt

/-- The position of each object, as the writer numbers them. -/
def positionMap (s : UnstableSort) (idx : PackIndex) : BTreeMap ObjectId Nat :=
  BTreeMap.ofList (((packRows s idx).map fun row => (rowOffset idx row, rowId idx row)).zipIdx.map
    fun (e, pos) => (e.2, pos))

/-- **An object is at its position.** -/
theorem objectAt_of_positionMap {id : ObjectId} {pos : Nat}
    (h : (positionMap s idx).get? id = some pos) :
    pos < idx.count ∧ objectAt idx (packRows s idx) pos = some id := by
  obtain ⟨⟨e, p⟩, hmem, heq⟩ := List.mem_map.mp (BTreeMap.mem_of_get?_ofList h)
  have hget := List.mk_mem_zipIdx_iff_getElem?.mp hmem
  rw [List.getElem?_map] at hget
  obtain ⟨row, hrow, rfl⟩ := Option.map_eq_some_iff.mp hget
  cases heq
  have hlt := mem_packRows.mp (List.mem_of_getElem? hrow)
  have hpos := (List.getElem?_eq_some_iff.mp hrow).1
  rw [length_packRows] at hpos
  refine ⟨hpos, ?_⟩
  unfold objectAt
  rw [hrow, Option.bind_some, idAt_rowId hlt]

/-- What an index lists has a position. -/
theorem exists_positionMap {id : ObjectId} {row : Nat} (h : idx.idAt row = some id) :
    ∃ pos, (positionMap s idx).get? id = some pos := by
  have hlt := PackIndex.lt_of_idAt h
  obtain ⟨pos, hpos⟩ := List.mem_iff_getElem?.mp (mem_packRows (s := s).mpr hlt)
  have hid : rowId idx row = id := Option.some.inj ((idAt_rowId hlt).symm.trans h)
  refine BTreeMap.exists_get?_ofList (List.mem_map.mpr ⟨((rowOffset idx row, id), pos), ?_, rfl⟩)
  rw [List.mk_mem_zipIdx_iff_getElem?, List.getElem?_map, hpos, ← hid]
  rfl

/-! ## What a file says -/

variable {D : Type} [ObjectDatabase D] {odb : D}

/-- What a bitmap file says of a pack, through the rows a reverse index gives: the type
bitmaps part the positions by the type of the object there, and the bits of each entry stand
for what its commit reaches. -/
structure Describes (odb : D) (idx : PackIndex) (commits : List ObjectId) (file : BitmapFile)
    (rows : List Nat) : Prop where
  covered : ∀ pos, (∃ ty, pos ∈ (file.types ty).setBits) ↔ pos < idx.count
  apart : ∀ pos ty ty', pos ∈ (file.types ty).setBits → pos ∈ (file.types ty').setBits → ty = ty'
  typed : ∀ pos ty, pos ∈ (file.types ty).setBits → ∃ id payload,
    objectAt idx rows pos = some id ∧ read odb id = .ok (ty, payload)
  listed : (file.entries.map fun e => idx.idAt e.row).Perm (commits.map some)
  standalone : ∀ e ∈ file.entries, e.xorOffset = 0
  reaches : ∀ e ∈ file.entries, ∃ commit reachable, idx.idAt e.row = some commit ∧
    reachableObjects odb [commit] = .ok reachable ∧
    (∀ b ∈ e.bits.setBits, ∃ id, objectAt idx rows b = some id) ∧
    ∀ id, id ∈ reachable ↔ ∃ b ∈ e.bits.setBits, objectAt idx rows b = some id

/-- Every object a commit reaches is in the pack. -/
def Within (odb : D) (idx : PackIndex) (commits : List ObjectId) : Prop :=
  ∀ commit ∈ commits, ∀ id, Relation.ReflTransGen (Refers (graph odb)) commit id →
    ∃ row, idx.idAt row = some id

/-- The positions of what was reached, in order. -/
def reachedPositions (s s' : UnstableSort) (idx : PackIndex)
    (reachable : BTreeSet ObjectId) : List Nat :=
  s.sortByKey id (reachable.toList.filterMap (positionMap s' idx).get?)

theorem mem_reachedPositions {reachable : BTreeSet ObjectId} {pos : Nat} :
    pos ∈ reachedPositions s s' idx reachable ↔ ∃ id ∈ reachable, (positionMap s' idx).get? id =
      some pos := by
  unfold reachedPositions
  rw [UnstableSort.mem_sortByKey, List.mem_filterMap]
  simp only [BTreeSet.mem_toList]

theorem reachedPositions_lt {reachable : BTreeSet ObjectId} {pos : Nat}
    (h : pos ∈ reachedPositions s s' idx reachable) : pos < idx.count := by
  obtain ⟨id, -, hid⟩ := mem_reachedPositions.mp h
  exact (objectAt_of_positionMap hid).1

/-- An entry that is right about its commit. -/
structure EntryOf (s s' : UnstableSort) (odb : D) (idx : PackIndex) (named : Nat × ObjectId)
    (e : BitmapEntry) : Prop where
  row : e.row = named.1
  xorOffset : e.xorOffset = 0
  flags : e.flags = 0
  bits : ∃ reachable, reachableObjects odb [named.2] = .ok reachable ∧
    e.bits = typeBitmap (reachedPositions s s' idx reachable)

theorem exists_mem_of_forall₂ {α β : Type} {R : α → β → Prop} {l : List α} {l' : List β}
    (h : List.Forall₂ R l l') {b : β} (hb : b ∈ l') : ∃ a ∈ l, R a b := by
  induction h with
  | nil => cases hb
  | cons hab _ ih =>
    rcases List.mem_cons.mp hb with rfl | hb
    · exact ⟨_, List.mem_cons_self, hab⟩
    · obtain ⟨a, ha, hab⟩ := ih hb
      exact ⟨a, List.mem_cons_of_mem _ ha, hab⟩

/-- The entries written are entries of their commits. -/
theorem entries_of_chunks {named : List (Nat × ObjectId)} {chunks : List Bytes}
    (h : List.Forall₂ (fun n chunk => bitmapEntry s odb (positionMap s' idx) n = .ok chunk)
      named chunks) :
    ∃ es, List.Forall₂ (EntryOf s s' odb idx) named es ∧
      chunks.flatten = es.flatMap entryBytes := by
  induction h with
  | nil => exact ⟨[], List.Forall₂.nil, rfl⟩
  | @cons n chunk named chunks hchunk _ ih =>
    obtain ⟨es, hes, hflatten⟩ := ih
    unfold bitmapEntry at hchunk
    obtain ⟨reachable, hreachable, hchunk⟩ := except_bind_ok.mp hchunk
    cases hchunk
    refine ⟨⟨n.1, 0, 0, typeBitmap (reachedPositions s s' idx reachable)⟩ :: es,
      List.Forall₂.cons ⟨rfl, rfl, rfl, reachable, hreachable, rfl⟩ hes, ?_⟩
    rw [List.flatten_cons, List.flatMap_cons, hflatten]
    rfl

theorem EntryOf.standalone {named : Nat × ObjectId} {e : BitmapEntry}
    (he : EntryOf s s' odb idx named e) (hrow : named.1 < idx.count) : Standalone e where
  row := by
    rw [he.row]
    exact hrow.trans idx.count_lt
  xorOffset := he.xorOffset
  flags := he.flags
  bits := by
    obtain ⟨reachable, -, hbits⟩ := he.bits
    rw [hbits]
    exact fits_typeBitmap (s.sorted id _) (fun _ => reachedPositions_lt) idx.count_lt

/-- **The bits of an entry stand for what its commit reaches.** -/
theorem EntryOf.reaches {named : Nat × ObjectId} {e : BitmapEntry}
    (he : EntryOf s s' odb idx named e) (hid : idx.idAt named.1 = some named.2)
    (hin : Within odb idx [named.2]) :
    ∃ commit reachable, idx.idAt e.row = some commit ∧
      reachableObjects odb [commit] = .ok reachable ∧
      (∀ b ∈ e.bits.setBits, ∃ id, objectAt idx (packRows s' idx) b = some id) ∧
      ∀ id, id ∈ reachable ↔ ∃ b ∈ e.bits.setBits, objectAt idx (packRows s' idx) b = some id := by
  obtain ⟨reachable, hreachable, hbits⟩ := he.bits
  have hset : ∀ b, b ∈ e.bits.setBits ↔ b ∈ reachedPositions s s' idx reachable := fun b => by
    rw [hbits]
    exact mem_setBits_typeBitmap (s.sorted id _) (fun _ => reachedPositions_lt) idx.count_lt
  refine ⟨named.2, reachable,
    by rw [he.row, hid], hreachable, fun b hb => ?_, fun id => ⟨fun h => ?_, ?_⟩⟩
  · obtain ⟨id, -, hpos⟩ := mem_reachedPositions.mp ((hset b).mp hb)
    exact ⟨id, (objectAt_of_positionMap hpos).2⟩
  · obtain ⟨root, hroot, hreach⟩ := (mem_reachableObjects hreachable).mp h
    obtain ⟨row, hrow⟩ := hin root hroot id hreach
    obtain ⟨pos, hpos⟩ := exists_positionMap (s := s') hrow
    exact ⟨pos, (hset pos).mpr (mem_reachedPositions.mpr ⟨id, h, hpos⟩),
      (objectAt_of_positionMap hpos).2⟩
  · intro ⟨b, hb, hat⟩
    obtain ⟨id', hid', hpos⟩ := mem_reachedPositions.mp ((hset b).mp hb)
    rw [(objectAt_of_positionMap hpos).2, Option.some.injEq] at hat
    rwa [← hat]

/-- The row of each id, as the writer finds it. -/
def rowMap (idx : PackIndex) : BTreeMap ObjectId Nat :=
  BTreeMap.ofList ((List.range idx.count).filterMap fun row =>
    (idx.idAt row).map fun id => (id, row))

theorem idAt_of_rowMap {id : ObjectId} {row : Nat} (h : (rowMap idx).get? id = some row) :
    idx.idAt row = some id := by
  obtain ⟨row', -, hrow'⟩ := List.mem_filterMap.mp (BTreeMap.mem_of_get?_ofList h)
  obtain ⟨id', hid', heq⟩ := Option.map_eq_some_iff.mp hrow'
  cases heq
  exact hid'

theorem exists_rowMap {id : ObjectId} {row : Nat} (h : idx.idAt row = some id) :
    ∃ row', (rowMap idx).get? id = some row' := by
  refine BTreeMap.exists_get?_ofList (List.mem_filterMap.mpr ⟨row, ?_,
    Option.map_eq_some_iff.mpr ⟨id, h, rfl⟩⟩)
  exact List.mem_range.mpr (PackIndex.lt_of_idAt h)

/-- The listed commits with their rows. -/
def namedRows (idx : PackIndex) (commits : List ObjectId) : List (Nat × ObjectId) :=
  commits.filterMap fun c => ((rowMap idx).get? c).map fun row => (row, c)

theorem idAt_of_mem_namedRows {commits : List ObjectId} {named : Nat × ObjectId}
    (h : named ∈ namedRows idx commits) : named.2 ∈ commits ∧ idx.idAt named.1 = some named.2 := by
  obtain ⟨c, hc, hnamed⟩ := List.mem_filterMap.mp h
  obtain ⟨row, hrow, rfl⟩ := Option.map_eq_some_iff.mp hnamed
  exact ⟨hc, idAt_of_rowMap hrow⟩

/-- No commit of the pack is left out. -/
theorem map_namedRows {commits : List ObjectId} (h : ∀ c ∈ commits, ∃ row, idx.idAt row = some c) :
    (namedRows idx commits).map Prod.snd = commits := by
  induction commits with
  | nil => rfl
  | cons c commits ih =>
    obtain ⟨⟨row, hrow⟩, hrest⟩ := List.forall_mem_cons.mp h
    obtain ⟨row', hrow'⟩ := exists_rowMap hrow
    unfold namedRows at ih ⊢
    rw [List.filterMap_cons, hrow']
    exact congrArg (c :: ·) (ih hrest)

/-! ## Writing and reading back -/

section
variable {h : Hasher} {packHash : ObjectId} {commits : List ObjectId} {bytes : Bytes}

/-- The types of the objects in pack order. -/
def TypesOf (odb : D) (idx : PackIndex) (rows : List Nat) (types : List ObjectType) : Prop :=
  List.Forall₂ (fun row ty => (read odb (rowId idx row)).map Prod.fst = .ok ty) rows types

/-- The type bitmaps of a pack whose types are given. -/
def typeBitmaps (types : List ObjectType) (ty : ObjectType) : Ewah :=
  typeBitmap (positionsOf types ty)

/-- **What the writer does**, where equal offsets do not set the sorts apart: the types are
read in pack order, and every listed commit of the pack gets an entry. -/
theorem writeBitmap_ok (hties : DistinctOffsets idx ∨ s.Alike s') :
    writeBitmap s h odb idx packHash commits = .ok bytes ↔ HasOffsets idx ∧ ∃ types chunks,
      TypesOf odb idx (packRows s' idx) types ∧
      List.Forall₂ (fun n chunk => bitmapEntry s odb (positionMap s' idx) n = .ok chunk)
        (s.sortByKey Prod.fst (namedRows idx commits)) chunks ∧
      bytes = fileBytes commits.length packHash (typeBitmaps types) chunks.flatten ++
        h.digest (algo odb)
          (fileBytes commits.length packHash (typeBitmaps types) chunks.flatten) := by
  have horder : HasOffsets idx → byOffset s idx idx.idAt (str "bitmap: idx row out of range") =
      .ok ((packRows s' idx).map fun row => (rowOffset idx row, rowId idx row)) := fun hoffsets =>
    byOffset_packRows (fun _ hrow => idAt_rowId hrow) hoffsets hties
  unfold writeBitmap
  constructor
  · intro hwrite
    obtain ⟨order, hok, hwrite⟩ := except_bind_ok.mp hwrite
    have hoffsets := hasOffsets_of_byOffset hok
    rw [horder hoffsets] at hok
    cases hok
    obtain ⟨types, htypes, hwrite⟩ := except_bind_ok.mp hwrite
    obtain ⟨chunks, hchunks, hwrite⟩ := except_bind_ok.mp hwrite
    cases hwrite
    exact ⟨hoffsets, types, chunks, List.forall₂_map_left_iff.mp (except_mapM_ok.mp htypes),
      except_mapM_ok.mp hchunks, rfl⟩
  · rintro ⟨hoffsets, types, chunks, htypes, hchunks, rfl⟩
    refine except_bind_ok.mpr ⟨_, horder hoffsets, except_bind_ok.mpr ⟨types, ?_, ?_⟩⟩
    · exact except_mapM_ok.mpr (List.forall₂_map_left_iff.mpr htypes)
    · exact except_bind_ok.mpr ⟨chunks, except_mapM_ok.mpr hchunks, rfl⟩

theorem typeAt_iff {types : List ObjectType}
    (htypes : TypesOf odb idx (packRows s idx) types) {pos : Nat}
    {ty : ObjectType} : pos ∈ positionsOf types ty ↔
      ∃ row payload, (packRows s idx)[pos]? = some row ∧
      read odb (rowId idx row) = .ok (ty, payload) := by
  rw [mem_positionsOf]
  constructor
  · intro hty
    obtain ⟨hpos, hget⟩ := List.getElem?_eq_some_iff.mp hty
    have hpos' : pos < (packRows s idx).length := by rwa [htypes.length_eq]
    obtain ⟨⟨ty', payload⟩, hread, rfl⟩ := except_map_ok.mp (htypes.get hpos' hpos)
    refine ⟨(packRows s idx)[pos], payload, List.getElem?_eq_getElem hpos', ?_⟩
    rw [← hget]
    exact hread
  · intro ⟨row, payload, hrow, hread⟩
    obtain ⟨hpos, rfl⟩ := List.getElem?_eq_some_iff.mp hrow
    have hpos' : pos < types.length := by rwa [← htypes.length_eq]
    have hty := htypes.get hpos hpos'
    rw [List.get_eq_getElem, hread] at hty
    cases hty
    exact List.getElem?_eq_getElem hpos'

theorem positionsOf_lt {types : List ObjectType}
    (htypes : TypesOf odb idx (packRows s idx) types) {pos : Nat}
    {ty : ObjectType} (h : pos ∈ positionsOf types ty) : pos < idx.count := by
  obtain ⟨hpos, -⟩ := List.getElem?_eq_some_iff.mp (mem_positionsOf.mp h)
  rwa [← htypes.length_eq, length_packRows] at hpos

theorem mem_setBits_typeBitmaps {types : List ObjectType}
    (htypes : TypesOf odb idx (packRows s idx) types) {pos : Nat} {ty : ObjectType} :
    pos ∈ (typeBitmaps types ty).setBits ↔ pos ∈ positionsOf types ty :=
  mem_setBits_typeBitmap (positionsOf_sorted types ty) (fun _ => positionsOf_lt htypes) idx.count_lt

/-- **The file that is written describes the pack.** -/
theorem describes_written {types : List ObjectType} {es : List BitmapEntry}
    (hin : Within odb idx commits) (htypes : TypesOf odb idx (packRows s' idx) types)
    (hes : List.Forall₂ (EntryOf s s' odb idx) (s.sortByKey Prod.fst (namedRows idx commits)) es)
    (count : Nat) (hash : Bytes) : Describes odb idx commits
      ⟨bitmapVersion, flagFullDag, count, hash, typeBitmaps types, es⟩ (packRows s' idx) where
  covered pos := by
    simp only [mem_setBits_typeBitmaps htypes]
    constructor
    · intro ⟨ty, hty⟩
      exact positionsOf_lt htypes hty
    · intro hpos
      have hpos' : pos < types.length := by rwa [← htypes.length_eq, length_packRows]
      exact ⟨types[pos], mem_positionsOf.mpr (List.getElem?_eq_getElem hpos')⟩
  apart pos ty ty' hty hty' := by
    have hget := mem_positionsOf.mp ((mem_setBits_typeBitmaps htypes).mp hty)
    have hget' := mem_positionsOf.mp ((mem_setBits_typeBitmaps htypes).mp hty')
    exact Option.some.inj (hget.symm.trans hget')
  typed pos ty hty := by
    obtain ⟨row, payload, hrow, hread⟩ :=
      (typeAt_iff htypes).mp ((mem_setBits_typeBitmaps htypes).mp hty)
    refine ⟨rowId idx row, payload, ?_, hread⟩
    unfold objectAt
    rw [hrow, Option.bind_some, idAt_rowId (mem_packRows.mp (List.mem_of_getElem? hrow))]
  listed := by
    have hpack : ∀ c ∈ commits, ∃ row, idx.idAt row = some c := fun c hc =>
      hin c hc c Relation.ReflTransGen.refl
    have hrows : (s.sortByKey Prod.fst (namedRows idx commits)).map (fun n => some n.2) =
        es.map fun e => idx.idAt e.row := by
      have hmapped : List.Forall₂ Eq
          ((s.sortByKey Prod.fst (namedRows idx commits)).map fun n => some n.2)
          (es.map fun e => idx.idAt e.row) := by
        rw [List.forall₂_map_left_iff, List.forall₂_map_right_iff]
        have hnamed : ∀ n ∈ s.sortByKey Prod.fst (namedRows idx commits), idx.idAt n.1 = some n.2 :=
          fun n hn => (idAt_of_mem_namedRows (UnstableSort.mem_sortByKey.mp hn)).2
        refine ((List.forall₂_and_left _ _).mpr ⟨hnamed, hes⟩).imp ?_
        intro n e ⟨hn, he⟩
        rw [he.row, hn]
      rwa [List.forall₂_eq_eq_eq] at hmapped
    show (es.map fun e => idx.idAt e.row).Perm _
    rw [← hrows]
    have hperm := (s.perm Prod.fst (namedRows idx commits)).map fun n => some n.2
    have hall : (namedRows idx commits).map (fun n => some n.2) = commits.map some := by
      rw [← map_namedRows hpack, List.map_map, map_namedRows hpack]
      rfl
    rwa [hall] at hperm
  standalone e he := by
    obtain ⟨n, -, hn⟩ := exists_mem_of_forall₂ hes he
    exact hn.xorOffset
  reaches e he := by
    obtain ⟨n, hmem, hn⟩ := exists_mem_of_forall₂ hes he
    obtain ⟨hlisted, hid⟩ := idAt_of_mem_namedRows (UnstableSort.mem_sortByKey.mp hmem)
    refine hn.reaches hid fun c hc => ?_
    rw [List.mem_singleton.mp hc]
    exact hin n.2 hlisted

/-- A bitmap is read back, as the reverse index is: there are as many entries as it counts, and
it describes the pack. -/
def ReadsBack (s' : UnstableSort) (h : Hasher) (odb : D) (idx : PackIndex) (packHash : ObjectId)
    (commits : List ObjectId) (bytes : Bytes) : Prop :=
  ∃ file rev rows, readBitmap h (algo odb) packHash.algo bytes = some file ∧
    writeReverseIndex s' h idx packHash = .ok rev ∧
      readReverseIndex h idx.algo idx.count rev = some rows ∧
    file.entryCount = file.entries.length ∧ Describes odb idx commits file rows

/-- **What is written, read back**: everything but the entry count, which is cut to four bytes. -/
theorem read_written (hin : Within odb idx commits) (hties : DistinctOffsets idx ∨ s.Alike s')
    (hwrite : writeBitmap s h odb idx packHash commits = .ok bytes) :
    ∃ file rev, readBitmap h (algo odb) packHash.algo bytes = some file ∧
      writeReverseIndex s' h idx packHash = .ok rev ∧
      readReverseIndex h idx.algo idx.count rev = some (packRows s' idx) ∧
      file.entryCount = commits.length % 2 ^ 32 ∧ file.entries.length = commits.length ∧
      Describes odb idx commits file (packRows s' idx) := by
  obtain ⟨hoffsets, types, chunks, htypes, hchunks, rfl⟩ := (writeBitmap_ok hties).mp hwrite
  obtain ⟨es, hes, hflatten⟩ := entries_of_chunks hchunks
  obtain ⟨rev, hrev, hrows⟩ := writeReverseIndex_packRows h packHash hoffsets
    (hties.imp_right UnstableSort.Alike.self)
  have hstandalone : ∀ e ∈ es, Standalone e := by
    intro e he
    obtain ⟨n, hn, hentry⟩ := exists_mem_of_forall₂ hes he
    exact hentry.standalone
      (PackIndex.lt_of_idAt (idAt_of_mem_namedRows (UnstableSort.mem_sortByKey.mp hn)).2)
  have hdescribes := describes_written hin htypes hes (commits.length % 2 ^ 32) packHash.bytes
  refine ⟨_, rev, ?_, hrev, hrows, rfl, ?_, hdescribes⟩
  · rw [hflatten]
    exact readBitmap_fileBytes h (algo odb) commits.length packHash
      (fun ty => fits_typeBitmap (positionsOf_sorted types ty) (fun _ =>
        positionsOf_lt htypes) idx.count_lt)
      hstandalone
  · have hlen := hdescribes.listed.length_eq
    rwa [List.length_map, List.length_map] at hlen

/-- **A bitmap and its reverse index say what the commits reach.** -/
theorem writeBitmap_readsBack (hin : Within odb idx commits) (hcount : commits.length < 2 ^ 32)
    (hties : DistinctOffsets idx ∨ s.Alike s')
    (hwrite : writeBitmap s h odb idx packHash commits = .ok bytes) :
    ReadsBack s' h odb idx packHash commits bytes := by
  obtain ⟨file, rev, hfile, hrev, hrows, hentries, hlen, hdescribes⟩ :=
    read_written hin hties hwrite
  refine ⟨file, rev, packRows s' idx, hfile, hrev, hrows, ?_, hdescribes⟩
  rw [hentries, hlen, Nat.mod_eq_of_lt hcount]

theorem exists_forall₂ {α β : Type} {R : α → β → Prop} {l : List α} (h : ∀ a ∈ l, ∃ b, R a b) :
    ∃ l', List.Forall₂ R l l' := by
  induction l with
  | nil => exact ⟨[], List.Forall₂.nil⟩
  | cons a l ih =>
    obtain ⟨⟨b, hb⟩, hrest⟩ := List.forall_mem_cons.mp h
    obtain ⟨l', hl'⟩ := ih hrest
    exact ⟨b :: l', List.Forall₂.cons hb hl'⟩

/-- A bitmap is written where the objects of the pack and the closures of the commits can be
read. -/
theorem exists_writeBitmap (hties : DistinctOffsets idx ∨ s.Alike s') (hoffsets : HasOffsets idx)
    (hread : ∀ row < idx.count, ∃ r, read odb (rowId idx row) = .ok r)
    (hreach : ∀ c ∈ commits, ∃ r, reachableObjects odb [c] = .ok r) :
    ∃ bytes, writeBitmap s h odb idx packHash commits = .ok bytes := by
  obtain ⟨types, htypes⟩ : ∃ types, TypesOf odb idx (packRows s' idx) types := by
    refine exists_forall₂ fun row hrow => ?_
    obtain ⟨r, hr⟩ := hread row (mem_packRows.mp hrow)
    exact ⟨r.1, except_map_ok.mpr ⟨r, hr, rfl⟩⟩
  obtain ⟨chunks, hchunks⟩ : ∃ chunks, List.Forall₂
      (fun n chunk => bitmapEntry s odb (positionMap s' idx) n = .ok chunk)
      (s.sortByKey Prod.fst (namedRows idx commits)) chunks := by
    refine exists_forall₂ fun n hn => ?_
    obtain ⟨hlisted, -⟩ := idAt_of_mem_namedRows (UnstableSort.mem_sortByKey.mp hn)
    obtain ⟨reachable, hreachable⟩ := hreach n.2 hlisted
    exact ⟨_, except_bind_ok.mpr ⟨reachable, hreachable, rfl⟩⟩
  exact ⟨_, (writeBitmap_ok hties).mpr ⟨hoffsets, types, chunks, htypes, hchunks, rfl⟩⟩

end

end Bitmap

/-! ## A pack of a commit and its tree -/

namespace BitmapSample
open Bitmap

/-- The id of the empty tree. -/
def tree : ObjectId := .emptyTree

/-- What a commit of it hashes to. -/
def tipBytes : Bytes := [0x56, 0x6e, 0x8a, 0xd8, 0xa3, 0x30, 0x74, 0x68, 0x7c, 0xd9,
  0x8b, 0xea, 0xfe, 0x38, 0xd3, 0xa5, 0x44, 0x59, 0x0a, 0xd9]

/-- The id of the commit. -/
def tip : ObjectId := ⟨.sha1, tipBytes, rfl⟩

/-- The stamp `a <a> 50 +0000`. -/
def stamp : Signature := ⟨[97], [97], 50, [43, 48, 48, 48, 48]⟩

/-- A store of the two. -/
def store : MemoryOdb where
  hasher := .sha
  algo := .sha1
  objects := BTreeMap.ofList [(tree, .tree, []),
    (tip, .commit, (Commit.serialize ⟨tree, [], stamp, stamp, [], [114]⟩))]

/-- An index of the two, the tree at offset 12. -/
def index (offset : UInt8) : PackIndex :=
  ⟨.sha1, tree.bytes ++ tip.bytes, [0, 0, 0, 12, 0, 0, 0, offset], [], 2, rfl, rfl, by decide⟩

/-- The checksum of the pack. -/
def packHash : ObjectId := ObjectId.zero .sha1

theorem closure_tip : ∃ r, reachableObjects store [tip] = .ok r ∧ ∀ id, id ∈ r ↔
    id = tree ∨ id = tip := by
  have hlist : (reachableObjects store [tip]).map (·.toList) = .ok [tree, tip] := by decide +kernel
  obtain ⟨r, hr, hids⟩ := except_map_ok.mp hlist
  refine ⟨r, hr, fun id => ?_⟩
  rw [← BTreeSet.mem_toList, hids]
  simp

theorem within_tip {offset : UInt8} {commits : List ObjectId} (h : ∀ c ∈ commits, c = tip) :
    Within store (index offset) commits := by
  obtain ⟨r, hr, hids⟩ := closure_tip
  intro c hc id hreach
  rcases (hids id).mp ((mem_reachableObjects hr).mpr ⟨c,
    by rw [h c hc]; exact List.mem_cons_self, hreach⟩) with
    rfl | rfl
  · exact ⟨0, rfl⟩
  · exact ⟨1, rfl⟩

theorem exists_written {offset : UInt8} (hoffsets : ∀ row < 2, ((index offset).offsetAt row).isSome)
    {commits : List ObjectId} (h : ∀ c ∈ commits, c = tip) :
    ∃ bytes, writeBitmap .stable .sha store (index offset) packHash commits = .ok bytes := by
  have hread : ∀ id, id = tree ∨ id = tip → ∃ r, read store id = .ok r := by
    rintro id (rfl | rfl)
    · exact ⟨(.tree, []), rfl⟩
    · exact exists_ok (show (read store tip).toBool = true by decide)
  refine exists_writeBitmap (Or.inr UnstableSort.stable_alike) ?_ ?_ fun c hc => ?_
  · exact fun row hrow => Option.isSome_iff_exists.mp (hoffsets row hrow)
  · intro row hrow
    apply hread
    rcases Nat.le_one_iff_eq_zero_or_eq_one.mp (Nat.le_of_lt_succ hrow) with rfl | rfl
    · exact Or.inl rfl
    · exact Or.inr rfl
  · obtain ⟨r, hr, -⟩ := closure_tip
    rw [h c hc]
    exact ⟨r, hr⟩

/-- The bitmap of the commit reads back. -/
theorem readsBack_tip :
    ∃ bytes, writeBitmap .stable .sha store (index 40) packHash [tip] = .ok bytes ∧
    ReadsBack .reversing .sha store (index 40) packHash [tip] bytes := by
  obtain ⟨bytes, hwrite⟩ := @exists_written 40 (by decide) [tip] fun c hc =>
    List.mem_singleton.mp hc
  refine ⟨bytes, hwrite, ?_⟩
  apply writeBitmap_readsBack (s := .stable) (within_tip fun c hc => List.mem_singleton.mp hc)
    (by decide) ?_ hwrite
  left
  unfold DistinctOffsets
  decide

/-- The entries of a list of 2 ^ 32 commits are not as many as the count says; and where two
objects have one offset and the sorts put them in different orders, the reverse index gives
the row of the other. -/
theorem not_readsBack :
    (∃ bytes, Within store (index 40) (List.replicate (2 ^ 32) tip) ∧
      writeBitmap .stable .sha store (index 40) packHash (List.replicate (2 ^ 32) tip) = .ok bytes ∧
      ¬ReadsBack .stable .sha store (index 40) packHash (List.replicate (2 ^ 32) tip) bytes) ∧
    ∃ bytes, Within store (index 12) [tip] ∧
      writeBitmap .stable .sha store (index 12) packHash [tip] = .ok bytes ∧
      ¬ReadsBack .reversing .sha store (index 12) packHash [tip] bytes := by
  constructor
  · have hall : ∀ c ∈ List.replicate (2 ^ 32) tip, c = tip :=
      fun c hc => List.eq_of_mem_replicate hc
    have hlen : (List.replicate (2 ^ 32) tip).length = 2 ^ 32 := List.length_replicate
    generalize List.replicate (2 ^ 32) tip = commits at hall hlen
    obtain ⟨bytes, hwrite⟩ := @exists_written 40 (by decide) commits hall
    refine ⟨bytes, within_tip hall, hwrite, ?_⟩
    intro ⟨file, _, _, hfile, _, _, hcount, _⟩
    obtain ⟨file', _, hfile', _, _, hentries, hnumber, _⟩ :=
      read_written (within_tip hall) (Or.inr UnstableSort.stable_alike) hwrite
    rw [hfile, Option.some.injEq] at hfile'
    subst hfile'
    rw [hcount, hnumber, hlen, Nat.mod_self] at hentries
    cases hentries
  · have hall : ∀ c ∈ [tip], c = tip := fun c hc => List.mem_singleton.mp hc
    obtain ⟨bytes, hwrite⟩ := @exists_written 12 (by decide) [tip] hall
    refine ⟨bytes, within_tip hall, hwrite, ?_⟩
    intro ⟨file, rev, rows, hfile, hrev, hrows, _, hdescribes⟩
    obtain ⟨file', _, hfile', _, _, _, _, hdescribes'⟩ :=
      read_written (within_tip hall) (Or.inr UnstableSort.stable_alike) hwrite
    rw [hfile, Option.some.injEq] at hfile'
    subst hfile'
    have hoffsets : HasOffsets (index 12) := by
      intro row hrow
      exact Option.isSome_iff_exists.mp
        ((show ∀ row < 2, ((index 12).offsetAt row).isSome by decide) row hrow)
    obtain ⟨rev', hrev', hrows'⟩ := writeReverseIndex_packRows .sha packHash hoffsets
      (Or.inr UnstableSort.reversing_alike)
    rw [hrev, Except.ok.injEq] at hrev'
    subst hrev'
    rw [hrows, Option.some.injEq] at hrows'
    subst hrows'
    -- the object at the first position is of one type, but there is a tree or the commit
    obtain ⟨ty, hty⟩ := (hdescribes.covered 0).mpr (by decide)
    obtain ⟨id, payload, hat, hread⟩ := hdescribes.typed 0 ty hty
    obtain ⟨id', payload', hat', hread'⟩ := hdescribes'.typed 0 ty hty
    have htip : objectAt (index 12) (packRows .reversing (index 12)) 0 = some tip := by decide
    have htree : objectAt (index 12) (packRows .stable (index 12)) 0 = some tree := by decide
    rw [htip, Option.some.injEq] at hat
    rw [htree, Option.some.injEq] at hat'
    subst hat hat'
    have hcommit : (read store tip).map Prod.fst = .ok .commit := by decide
    have htree' : (read store tree).map Prod.fst = .ok .tree := by decide
    rw [hread] at hcommit
    rw [hread'] at htree'
    cases hcommit
    cases htree'

end BitmapSample
end Puregit
