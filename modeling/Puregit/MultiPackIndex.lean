import Puregit.ChunkFile
import Puregit.Pack.Lookup

/-! # The multi-pack-index

One table for the objects of several packs.  Writing it goes through four numberings: the packs are
sorted by name and their position is their number; the objects are collected pack by pack, an id
only where it comes first; the objects are sorted by id; and an offset of 2 GiB or more is a row of
a chunk of its own.  `find` goes the way back.  A pack's number is of 32 bits and the row of a large
offset of 31, so that is how many packs and objects an index can hold.
-/
namespace Puregit

/-- An object of a multi-pack-index: its id, the number of its pack and its offset there. -/
abbrev MidxEntry := ObjectId × Nat × Nat

/-- The signature of a multi-pack-index. -/
def midxSignature : Bytes := bytes "MIDX"

namespace MultiPackIndex

/-- The names of the packs. -/
def chunkPnam : Nat := 0x504e414d

/-- The fanout of the ids. -/
def chunkOidf : Nat := 0x4f494446

/-- The ids. -/
def chunkOidl : Nat := 0x4f49444c

/-- The pack and the offset of every object. -/
def chunkOoff : Nat := 0x4f4f4646

/-- The large offsets. -/
def chunkLoff : Nat := 0x4c4f4646

/-- Packs in the order of their names. -/
def sortPacks (packs : List (Str × PackIndex)) : List (Str × PackIndex) :=
  packs.mergeSort fun a b => decide (toUtf8 a.1 ≤ toUtf8 b.1)

/-- Objects collected, and the ids among them. -/
abbrev Collected := List MidxEntry × BTreeSet ObjectId

/-- Collects an object of pack `packId` unless its id was seen. -/
def keepFirst (packId : Nat) (s : Collected) (id : ObjectId) (off : Nat) : Collected :=
  if s.2.contains id then s else (s.1 ++ [(id, packId % 2 ^ 32, off)], s.2.insert id)

/-- Collects rows of a pack from `row` on, `left` of them. -/
def collectRows (packId : Nat) (index : PackIndex) : Nat → Nat → Collected → Except Error Collected
  | 0, _, s => .ok s
  | left + 1, row, s =>
    match index.idAt row with
    | none => .error (.pack (str "midx: bad idx id"))
    | some id =>
      match index.offsetAt row with
      | none => .error (.pack (str "midx: bad idx offset"))
      | some off => collectRows packId index left (row + 1) (keepFirst packId s id off)

/-- Collects the objects of packs, the first of them of number `packId`. -/
def collect : Nat → List (Str × PackIndex) → Collected → Except Error Collected
  | _, [], s => .ok s
  | packId, p :: packs, s => do
    let s ← collectRows packId p.2 p.2.count 0 s
    collect (packId + 1) packs s

/-- Objects in the order of their ids. -/
def sortEntries (entries : List MidxEntry) : List MidxEntry :=
  entries.mergeSort fun a b => decide (a.1.bytes ≤ b.1.bytes)

/-- The names, each ended by a zero, and zeros up to a multiple of four bytes. -/
def pnamChunk (packs : List (Str × PackIndex)) : Bytes :=
  let names := packs.flatMap fun p => toUtf8 p.1 ++ [0]
  names ++ List.replicate ((4 - names.length % 4) % 4) 0

/-- How many ids have a first byte that is not greater, for every byte. -/
def oidfChunk (entries : List MidxEntry) : Bytes :=
  (List.range 256).flatMap fun n => Sha.bigEndian 4 (entries.countP fun e =>
    (e.1.bytes.headD 0).toNat ≤ n)

/-- The pack and the offset of every object, and the offsets that do not fit, `large` rows of which
were written before. -/
def ooffChunk : List MidxEntry → Nat → Bytes × List Nat
  | [], _ => ([], [])
  | e :: entries, large =>
    if e.2.2 < 0x80000000 then
      let (bytes, loff) := ooffChunk entries large
      (Sha.bigEndian 4 e.2.1 ++ (Sha.bigEndian 4 e.2.2 ++ bytes), loff)
    else
      let (bytes, loff) := ooffChunk entries (large + 1)
      (Sha.bigEndian 4 e.2.1 ++ (Sha.bigEndian 4 (0x80000000 ||| large % 2 ^ 32) ++ bytes),
        e.2.2 :: loff)

/-- The chunks of a multi-pack-index; the one of large offsets is there if there are some. -/
def chunks (packs : List (Str × PackIndex)) (entries : List MidxEntry) : List (Nat × Bytes) :=
  let loff := (ooffChunk entries 0).2.flatMap (Sha.bigEndian 8)
  [(chunkPnam, pnamChunk packs), (chunkOidf, oidfChunk entries),
    (chunkOidl, entries.flatMap (·.1.bytes)),
    (chunkOoff, (ooffChunk entries 0).1)] ++ if loff.isEmpty then [] else [(chunkLoff, loff)]

/-- The bytes before the chunk table. -/
def header (algo : HashAlgo) (numChunks numPacks : Nat) : Bytes :=
  midxSignature ++ (1 :: (if algo = .sha256 then 2 else 1) :: UInt8.ofNat numChunks :: 0 ::
    Sha.bigEndian 4 numPacks)

/-- A multi-pack-index before its checksum. -/
def body (algo : HashAlgo) (packs : List (Str × PackIndex)) (entries : List MidxEntry) : Bytes :=
  let chunks := chunks packs entries
  header algo chunks.length packs.length ++
    (ChunkFile.table (12 + (chunks.length + 1) * 12) chunks ++ chunks.flatMap Prod.snd)

end MultiPackIndex
open MultiPackIndex

/-- The multi-pack-index of some packs. -/
def writeMultiPackIndex (hasher : Hasher) (algo : HashAlgo) (packs : List (Str × PackIndex)) :
    Except Error Bytes := do
  let packs := sortPacks packs
  let (entries, _) ← collect 0 packs ([], BTreeSet.empty)
  let out := body algo packs (sortEntries entries)
  .ok (out ++ hasher.digest algo out)

/-- A parsed multi-pack-index: it has a row of each table for every object. -/
structure MultiPackIndex where
  algo : HashAlgo
  packNames : List Str
  oids : Bytes
  ooff : Bytes
  loff : Bytes
  count : Nat
  count_le : count * algo.rawLen ≤ oids.length
  ooff_length : ooff.length = count * 8

namespace MultiPackIndex

/-- The first chunk of an id that lies in the body. -/
def chunkOf (data : Bytes) (bodyLen : Nat) (rows : List (Nat × Nat)) (want : Nat) : Option Bytes :=
  ((ChunkFile.windows rows).find? fun w => w.1 == want && w.2.1 ≤ w.2.2 && w.2.2 ≤ bodyLen).map
    fun w => slice data w.2.1 (w.2.2 - w.2.1)

/-- The chunk of an id, which has to be there. -/
def needChunk (data : Bytes) (bodyLen : Nat) (rows : List (Nat × Nat)) (want : Nat)
    (message : Str) :
    Except Error Bytes :=
  match chunkOf data bodyLen rows want with
  | some chunk => .ok chunk
  | none => .error (.pack message)

/-- Parses a multi-pack-index. -/
def parse (hasher : Hasher) (algo : HashAlgo) (data : Bytes) : Except Error MultiPackIndex :=
  if data.length < 12 + algo.rawLen ∨ data.take 4 ≠ midxSignature then
    .error (.pack (str "midx: bad header"))
  else if number data 4 1 ≠ 1 then .error (.unsupported (str "midx: unsupported version"))
  else
    let bodyLen := data.length - algo.rawLen
    if hasher.digest algo (data.take bodyLen) ≠ data.drop bodyLen then
      .error (.pack (str "midx: checksum mismatch"))
    else do
      let rows ← ChunkFile.readTable (.pack (str "midx: truncated chunk table")) data bodyLen
        (number data 6 1 + 1) 12
      let names ← needChunk data bodyLen rows chunkPnam (str "midx: no PNAM")
      let oids ← needChunk data bodyLen rows chunkOidl (str "midx: no OIDL")
      let ooff ← needChunk data bodyLen rows chunkOoff (str "midx: no OOFF")
      if h : oids.length / algo.rawLen * 8 ≠ ooff.length then
        .error (.pack (str "midx: OIDL/OOFF size mismatch"))
      else .ok {
        algo := algo
        packNames := ((names.splitOn 0).filter (· ≠ [])).map fromUtf8Lossy
        oids := oids
        ooff := ooff
        loff := (chunkOf data bodyLen rows chunkLoff).getD []
        count := oids.length / algo.rawLen
        count_le := ChunkFile.count_le algo oids
        ooff_length := (not_not.mp h).symm }

variable (m : MultiPackIndex)

/-- The id of a row, as bytes. -/
def row (i : Nat) : Bytes := slice m.oids (i * m.algo.rawLen) m.algo.rawLen

/-- The offset of a row. -/
def offsetAt (i : Nat) : Option Nat :=
  let raw := number m.ooff (i * 8 + 4) 4
  if raw < 2 ^ 31 then some raw
  else
    let off := (raw - 2 ^ 31) * 8
    if m.loff.length < off + 8 then none else some (number m.loff off 8)

/-- The pack of an id, by name, and its offset there. -/
def find (id : ObjectId) : Option (Str × Nat) :=
  if id.algo ≠ m.algo then none
  else do
    let i ← BinarySearch.search m.row id.bytes m.count 0 m.count
    let offset ← m.offsetAt i
    let name ← m.packNames[number m.ooff (i * 8) 4]?
    some (name, offset)

/-! ## The objects that are collected -/

/-- The rows of an index: an id and its offset each. -/
structure Lists (idx : PackIndex) (algo : HashAlgo) (rows : List (ObjectId × Nat)) : Prop where
  count : idx.count = rows.length
  idAt : ∀ i, idx.idAt i = rows[i]?.map Prod.fst
  offsetAt : ∀ i, idx.offsetAt i = rows[i]?.map Prod.snd
  offsetOf : ∀ id off, idx.offsetOf id = some off ↔ (id, off) ∈ rows
  nodup : (rows.map Prod.fst).Nodup
  algo : ∀ r ∈ rows, r.1.algo = algo
  offsets : ∀ r ∈ rows, r.2 < 2 ^ 64

/-- An index is as `buildIndex` makes it, of ids of one algorithm. -/
def Built (algo : HashAlgo) (idx : PackIndex) : Prop :=
  ∃ (hasher : Hasher) (index : List (ObjectId × Nat × Nat)) (packHash : Bytes),
    (∀ m ∈ index, m.1.algo = algo) ∧ (index.map Prod.fst).Nodup ∧ index.length < 2 ^ 31 ∧
      (∀ m ∈ index, m.2.1 < 2 ^ 64) ∧ packHash.length = algo.rawLen ∧
      PackIndex.parse algo (PackWriter.buildIndex hasher algo index packHash) = .ok idx

section Lists
variable {algo : HashAlgo} {index : List (ObjectId × Nat × Nat)}

/-- A built index lists the rows that it was built of. -/
theorem lists_sortedRows (hasher : Hasher) {packHash : Bytes} (halgo : ∀ m ∈ index, m.1.algo = algo)
    (hnodup : (index.map Prod.fst).Nodup) (hcount : index.length < 2 ^ 31)
    (hoffset : ∀ m ∈ index, m.2.1 < 2 ^ 64) (hhash : packHash.length = algo.rawLen) :
    ∃ idx, PackIndex.parse algo (PackWriter.buildIndex hasher algo index packHash) = .ok idx ∧
      Lists idx algo ((PackWriter.sortedRows index).map fun m => (m.1, m.2.1)) := by
  obtain ⟨idx, hparse, htables⟩ := PackWriter.parse_buildIndex hasher halgo hhash (by omega)
  have hmem : ∀ m, m ∈ PackWriter.sortedRows index ↔ m ∈ index := fun m => PackWriter.mem_sortedRows
  have halgos : ∀ m ∈ PackWriter.sortedRows index, m.1.algo = algo :=
    fun m hm => halgo m ((hmem m).mp hm)
  have hoffsets : ∀ m ∈ PackWriter.sortedRows index, m.2.1 < 2 ^ 64 :=
    fun m hm => hoffset m ((hmem m).mp hm)
  have hsorted := PackWriter.pairwise_sortedRows halgo hnodup
  have hlen : (PackWriter.sortedRows index).length ≤ 2 ^ 31 := by
    rw [PackWriter.length_sortedRows]
    omega
  have hperm : ((PackWriter.sortedRows index).map Prod.fst).Perm (index.map Prod.fst) :=
    (List.mergeSort_perm _ _).map _
  refine ⟨idx, hparse, ?_, fun i => ?_, fun i => ?_, fun id off => ?_, ?_, ?_, ?_⟩
  · rw [htables.count, List.length_map]
  · rw [htables.idAt halgos, List.getElem?_map, Option.map_map]
    rfl
  · rw [htables.offsetAt_eq hlen hoffsets, List.getElem?_map, Option.map_map]
    rfl
  · rw [htables.offsetOf halgos hsorted hlen hoffsets, List.mem_map]
    simp only [Prod.mk.injEq]
  · rw [List.map_map]
    exact hperm.nodup_iff.mpr hnodup
  · rw [List.forall_mem_map]
    exact halgos
  · rw [List.forall_mem_map]
    exact hoffsets

theorem Built.lists {idx : PackIndex} (h : Built algo idx) : ∃ rows, Lists idx algo rows := by
  obtain ⟨hasher, index, packHash, halgo, hnodup, hcount, hoffset, hhash, hparse⟩ := h
  obtain ⟨idx', hparse', hlists⟩ := lists_sortedRows hasher halgo hnodup hcount hoffset hhash
  cases hparse.symm.trans hparse'
  exact ⟨_, hlists⟩

/-- An index of one object. -/
theorem oneObject (id : ObjectId) (offset : Nat) (halgo : id.algo = algo)
    (hoffset : offset < 2 ^ 64) :
    ∃ idx, Built algo idx ∧ Lists idx algo [(id, offset)] := by
  obtain ⟨idx, hparse, hlists⟩ := @lists_sortedRows algo [(id, offset, 0)] .sha
    (List.replicate algo.rawLen 0) (by simpa using halgo) (List.nodup_singleton _)
      (show 1 < 2 ^ 31 by decide)
    (by simpa using hoffset) List.length_replicate
  refine ⟨idx, ⟨.sha, [(id, offset, 0)], _, by simpa using halgo, List.nodup_singleton _,
    show 1 < 2 ^ 31 by decide, by simpa using hoffset, List.length_replicate, hparse⟩, ?_⟩
  rwa [PackWriter.sortedRows, List.mergeSort_singleton] at hlists

/-- An index of no object. -/
theorem noObject (algo : HashAlgo) : ∃ idx, Built algo idx ∧ Lists idx algo [] := by
  obtain ⟨idx, hparse, hlists⟩ :=
    @lists_sortedRows algo [] .sha (List.replicate algo.rawLen 0) nofun List.nodup_nil
    (show 0 < 2 ^ 31 by decide) nofun List.length_replicate
  refine ⟨idx, ⟨.sha, [], _, nofun, List.nodup_nil,
    show 0 < 2 ^ 31 by decide, nofun, List.length_replicate,
    hparse⟩, ?_⟩
  rwa [PackWriter.sortedRows, List.mergeSort_nil] at hlists

end Lists

variable {algo : HashAlgo}

/-- Collecting the rows of an index goes through them in order. -/
theorem collectRows_eq {idx : PackIndex} {rows : List (ObjectId × Nat)} (h : Lists idx algo rows)
    (packId : Nat) {left row : Nat} (hleft : left + row = rows.length) (s : Collected) :
    collectRows packId idx left row s =
      .ok ((rows.drop row).foldl (fun s r => keepFirst packId s r.1 r.2) s) := by
  induction left generalizing row s with
  | zero =>
    rw [List.drop_eq_nil_of_le (by omega)]
    rfl
  | succ left ih =>
    have hlt : row < rows.length := by omega
    have hrow : rows[row]? = some rows[row] := List.getElem?_eq_getElem hlt
    rw [collectRows, h.idAt, h.offsetAt, hrow, List.drop_eq_getElem_cons hlt, List.foldl_cons]
    exact ih (by omega) _

/-- The rows of a pack that are kept are those whose ids were not seen. -/
theorem foldl_keepFirst {rows : List (ObjectId × Nat)} (hnodup : (rows.map Prod.fst).Nodup)
    (packId : Nat) (s : Collected) :
    let s' := rows.foldl (fun s r => keepFirst packId s r.1 r.2) s
    s'.1 = s.1 ++ (rows.filter fun r => !s.2.contains r.1).map (fun r =>
      (r.1, packId % 2 ^ 32, r.2)) ∧
      ∀ id, id ∈ s'.2 ↔ id ∈ s.2 ∨ id ∈ rows.map Prod.fst := by
  induction rows generalizing s with
  | nil => exact ⟨(List.append_nil _).symm, fun id => by simp⟩
  | cons r rows ih =>
    obtain ⟨hfresh, hnodup⟩ := List.nodup_cons.mp hnodup
    obtain ⟨hkept, hseen⟩ := ih hnodup (keepFirst packId s r.1 r.2)
    have hfilter : rows.filter (fun r' => !(keepFirst packId s r.1 r.2).2.contains r'.1) =
        rows.filter fun r' => !s.2.contains r'.1 := by
      refine List.filter_congr fun r' hr' => ?_
      have hne : r'.1 ≠ r.1 := fun h => hfresh (h ▸ List.mem_map_of_mem hr')
      unfold keepFirst
      split
      · rfl
      · rw [Bool.eq_iff_iff]
        simp [hne]
    simp only [List.foldl_cons]
    refine ⟨?_, fun id => ?_⟩
    · rw [hkept, hfilter]
      by_cases hr : s.2.contains r.1 = true
      · rw [keepFirst, if_pos hr, List.filter_cons_of_neg (by simp [hr])]
      · rw [keepFirst, if_neg hr, List.filter_cons_of_pos (by simpa using hr), List.map_cons,
          List.append_assoc, List.singleton_append]
    · rw [hseen, List.map_cons, List.mem_cons]
      unfold keepFirst
      split
      · next hr =>
        rw [BTreeSet.contains_iff_mem] at hr
        constructor
        · rintro (h | h)
          · exact Or.inl h
          · exact Or.inr (Or.inr h)
        · rintro (h | rfl | h)
          · exact Or.inl h
          · exact Or.inl hr
          · exact Or.inr h
      · rw [BTreeSet.mem_insert]
        tauto

/-- The first of some packs that has an offset for an id is of number `packId`, with that offset. -/
def First (packs : List (Str × PackIndex)) (e : MidxEntry) : Prop :=
  ∃ k p, packs[k]? = some p ∧ e.2.1 = k % 2 ^ 32 ∧ p.2.offsetOf e.1 = some e.2.2 ∧
    ∀ q ∈ packs.take k, q.2.offsetOf e.1 = none

/-- How many rows of an index have an offset of 2 GiB or more. -/
def largeRows (idx : PackIndex) : Nat :=
  (List.range idx.count).countP fun row => (idx.offsetAt row).any fun off => decide (2 ^ 31 ≤ off)

theorem Lists.largeRows_eq {idx : PackIndex} {rows : List (ObjectId × Nat)}
    (h : Lists idx algo rows) :
    largeRows idx = rows.countP fun r => decide (2 ^ 31 ≤ r.2) := by
  have hrange : (List.range idx.count).map (fun row => rows[row]?) = rows.map some := by
    rw [h.count]
    refine List.ext_getElem (by simp) fun i hi _ => ?_
    have hlt : i < rows.length := by simpa using hi
    rw [List.getElem_map, List.getElem_range, List.getElem_map, List.getElem?_eq_getElem hlt]
  have hcount := congrArg (List.countP fun r => (r.map Prod.snd).any fun off =>
    decide (2 ^ 31 ≤ off)) hrange
  rw [List.countP_map, List.countP_map] at hcount
  rw [largeRows]
  simp only [h.offsetAt]
  exact hcount

/-- What was collected from packs. -/
structure CollectedFrom (algo : HashAlgo) (packs : List (Str × PackIndex))
    (s : Collected) : Prop where
  mem : ∀ e, e ∈ s.1 ↔ First packs e
  seen : ∀ id, id ∈ s.2 ↔ ∃ p ∈ packs, p.2.offsetOf id ≠ none
  nodup : (s.1.map Prod.fst).Nodup
  algo : ∀ e ∈ s.1, e.1.algo = algo
  offsets : ∀ e ∈ s.1, e.2.2 < 2 ^ 64
  length : s.1.length ≤ (packs.map fun p => p.2.count).sum
  large : s.1.countP (fun e => decide (2 ^ 31 ≤ e.2.2)) ≤ (packs.map fun p => largeRows p.2).sum

theorem CollectedFrom.nil : CollectedFrom algo [] ([], BTreeSet.empty) :=
  ⟨fun e => ⟨nofun, fun ⟨_, _, h, _⟩ => by cases h⟩,
    fun id => by simp, List.nodup_nil, nofun, nofun, Nat.le_refl 0,
    Nat.le_refl 0⟩

/-- The first pack with an id among packs and one more. -/
theorem first_snoc {packs : List (Str × PackIndex)} {p : Str × PackIndex} {e : MidxEntry} :
    First (packs ++ [p]) e ↔ First packs e ∨ e.2.1 = packs.length % 2 ^ 32 ∧
      p.2.offsetOf e.1 = some e.2.2 ∧
      ∀ q ∈ packs, q.2.offsetOf e.1 = none := by
  constructor
  · rintro ⟨k, q, hq, hnumber, hoffset, hbefore⟩
    by_cases hk : k < packs.length
    · rw [List.getElem?_append_left hk] at hq
      rw [List.take_append_of_le_length hk.le] at hbefore
      exact Or.inl ⟨k, q, hq, hnumber, hoffset, hbefore⟩
    · have hlt := (List.getElem?_eq_some_iff.mp hq).1
      rw [List.length_append, List.length_singleton] at hlt
      obtain rfl : k = packs.length := by omega
      rw [List.getElem?_concat_length] at hq
      cases hq
      rw [List.take_left] at hbefore
      exact Or.inr ⟨hnumber, hoffset, hbefore⟩
  · rintro (⟨k, q, hq, hnumber, hoffset, hbefore⟩ | ⟨hnumber, hoffset, hbefore⟩)
    · have hk := (List.getElem?_eq_some_iff.mp hq).1
      exact ⟨k, q, by rw [List.getElem?_append_left hk, hq], hnumber, hoffset, by
        rwa [List.take_append_of_le_length hk.le]⟩
    · exact ⟨packs.length, p, List.getElem?_concat_length, hnumber, hoffset,
        by rwa [List.take_left]⟩

/-- The step: a pack adds the objects that no pack before it has. -/
theorem CollectedFrom.pack {packs : List (Str × PackIndex)} {s : Collected}
    (hs : CollectedFrom algo packs s) {p : Str × PackIndex} {rows : List (ObjectId × Nat)}
    (hrows : Lists p.2 algo rows) :
    CollectedFrom algo (packs ++ [p])
      (rows.foldl (fun s r => keepFirst packs.length s r.1 r.2) s) := by
  obtain ⟨hkept, hseen⟩ := foldl_keepFirst hrows.nodup packs.length s
  have hlisted : ∀ id, id ∈ rows.map Prod.fst ↔ p.2.offsetOf id ≠ none := by
    intro id
    rw [Option.ne_none_iff_exists', List.mem_map]
    constructor
    · rintro ⟨r, hr, rfl⟩
      exact ⟨r.2, (hrows.offsetOf _ _).mpr hr⟩
    · rintro ⟨off, hoff⟩
      exact ⟨_, (hrows.offsetOf _ _).mp hoff, rfl⟩
  have hunseen : ∀ id, s.2.contains id = false ↔ ∀ q ∈ packs, q.2.offsetOf id = none := by
    intro id
    rw [BTreeSet.contains_eq_false, hs.seen]
    push Not
    rfl
  have hadded : ∀ e, e ∈ (rows.filter fun r => !s.2.contains r.1).map (fun r =>
    (r.1, packs.length % 2 ^ 32, r.2)) →
      (e.1, e.2.2) ∈ rows := by
    intro e he
    obtain ⟨r, hr, rfl⟩ := List.mem_map.mp he
    exact (List.mem_filter.mp hr).1
  refine ⟨fun e => ?_, fun id => ?_, ?_, fun e he => ?_, fun e he => ?_, ?_, ?_⟩
  · rw [hkept, List.mem_append, hs.mem, first_snoc, List.mem_map]
    refine or_congr_right ⟨?_, ?_⟩
    · rintro ⟨r, hr, rfl⟩
      obtain ⟨hr, hfresh⟩ := List.mem_filter.mp hr
      exact ⟨rfl, (hrows.offsetOf _ _).mpr hr, (hunseen _).mp (by simpa using hfresh)⟩
    · rintro ⟨hnumber, hoffset, hbefore⟩
      refine ⟨(e.1, e.2.2), List.mem_filter.mpr ⟨(hrows.offsetOf _ _).mp hoffset, ?_⟩, ?_⟩
      · rw [(hunseen e.1).mpr hbefore]
        rfl
      · rw [← hnumber]
  · rw [hseen, hs.seen, hlisted]
    simp only [List.mem_append, List.mem_singleton, or_and_right, exists_or, exists_eq_left]
  · rw [hkept, List.map_append, List.map_map]
    refine List.nodup_append.mpr ⟨hs.nodup, ?_, ?_⟩
    · exact (List.filter_sublist.map Prod.fst).nodup hrows.nodup
    · rintro id hid _ hid' rfl
      obtain ⟨e, he, rfl⟩ := List.mem_map.mp hid
      obtain ⟨r, hr, hre⟩ := List.mem_map.mp hid'
      have hre : r.1 = e.1 := hre
      obtain ⟨-, hfresh⟩ := List.mem_filter.mp hr
      obtain ⟨k, q, hq, -, hoffset, -⟩ := (hs.mem e).mp he
      have hnone := (hunseen r.1).mp (by simpa using hfresh) q (List.mem_of_getElem? hq)
      rw [hre, hoffset] at hnone
      cases hnone
  · rw [hkept] at he
    exact (List.mem_append.mp he).elim (hs.algo e) fun he => hrows.algo _ (hadded e he)
  · rw [hkept] at he
    exact (List.mem_append.mp he).elim (hs.offsets e) fun he => hrows.offsets _ (hadded e he)
  · rw [hkept, List.length_append, List.length_map, List.map_append, List.sum_append,
      List.map_singleton,
      List.sum_singleton, hrows.count]
    exact Nat.add_le_add hs.length (List.length_filter_le _ _)
  · rw [hkept, List.countP_append, List.countP_map, List.map_append, List.sum_append,
      List.map_singleton,
      List.sum_singleton, hrows.largeRows_eq]
    exact Nat.add_le_add hs.large (List.filter_sublist.countP_le)

/-- **Collecting keeps, of every id, the first pack that has it.** -/
theorem collect_ok {packs done : List (Str × PackIndex)}
    (hpacks : ∀ p ∈ packs, ∃ rows, Lists p.2 algo rows) {s : Collected}
    (hs : CollectedFrom algo done s) :
    ∃ s', collect done.length packs s = .ok s' ∧ CollectedFrom algo (done ++ packs) s' := by
  induction packs generalizing done s with
  | nil => exact ⟨s, rfl, by rwa [List.append_nil]⟩
  | cons p packs ih =>
    obtain ⟨⟨rows, hrows⟩, hpacks⟩ := List.forall_mem_cons.mp hpacks
    have hrun := collectRows_eq hrows done.length (Nat.add_zero _) s
    rw [List.drop_zero, ← hrows.count] at hrun
    obtain ⟨s', hrest, hs'⟩ := ih hpacks (hs.pack hrows)
    rw [List.length_append, List.length_singleton] at hrest
    rw [List.append_assoc, List.singleton_append] at hs'
    refine ⟨s', ?_, hs'⟩
    rw [collect, hrun]
    exact hrest

/-! ## The tables that are read -/

/-- The tables of a multi-pack-index hold these names and these rows. -/
structure Holds (m : MultiPackIndex) (algo : HashAlgo) (names : List Str)
    (entries : List MidxEntry) : Prop where
  algo : m.algo = algo
  packNames : m.packNames = names
  count : m.count = entries.length
  oids : m.oids = entries.flatMap (·.1.bytes)
  ooff : m.ooff = (ooffChunk entries 0).1
  loff : m.loff = (ooffChunk entries 0).2.flatMap (Sha.bigEndian 8)

theorem length_ooffChunk (entries : List MidxEntry) (large : Nat) :
    (ooffChunk entries large).1.length = entries.length * 8 := by
  induction entries generalizing large with
  | nil => rfl
  | cons e entries ih =>
    rw [ooffChunk]
    split
    · rw [List.length_append, List.length_append, Sha.length_bigEndian, Sha.length_bigEndian, ih,
        List.length_cons]
      ring
    · rw [List.length_append, List.length_append, Sha.length_bigEndian, Sha.length_bigEndian, ih,
        List.length_cons]
      ring

/-- What the tables say of an object: its pack, and its offset or the row of the large one that it
is. -/
theorem ooffChunk_spec {entries : List MidxEntry} {large i : Nat} {e : MidxEntry}
    (h : entries[i]? = some e)
    (hlarge : large + entries.countP (fun e => decide (2 ^ 31 ≤ e.2.2)) ≤ 2 ^ 31) :
    number (ooffChunk entries large).1 (i * 8) 4 = e.2.1 % 2 ^ 32 ∧
      (e.2.2 < 2 ^ 31 ∧ number (ooffChunk entries large).1 (i * 8 + 4) 4 = e.2.2 ∨
        ∃ j, (ooffChunk entries large).2[j]? = some e.2.2 ∧
          number (ooffChunk entries large).1 (i * 8 + 4) 4 = 2 ^ 31 + (large + j)) := by
  induction entries generalizing large i with
  | nil => cases h
  | cons first entries ih =>
    -- a row of eight bytes in front
    have hskip : ∀ (a b : Nat) (rest : Bytes) (k : Nat),
        number (Sha.bigEndian 4 a ++ (Sha.bigEndian 4 b ++ rest)) (8 + k) 4 = number rest k 4 := by
      intro a b rest k
      have hfront : (Sha.bigEndian 4 a ++ Sha.bigEndian 4 b).length = 8 := by
        rw [List.length_append, Sha.length_bigEndian, Sha.length_bigEndian]
      rw [← List.append_assoc, ← hfront, number_append]
    have hpack : ∀ (a : Nat) (rest : Bytes), number (Sha.bigEndian 4 a ++ rest) 0 4 =
        a % 2 ^ 32 := by
      intro a rest
      have hfront := slice_front (Sha.bigEndian 4 a) rest
      rw [Sha.length_bigEndian] at hfront
      have hpow : (256 : Nat) ^ 4 = 2 ^ 32 := by decide
      rw [number, hfront, ObjectId.natOfBytes_bigEndian, hpow]
    have hrow : ∀ (a b : Nat) (rest : Bytes), b < 2 ^ 32 →
        number (Sha.bigEndian 4 a ++ (Sha.bigEndian 4 b ++ rest)) 4 4 = b := fun a b rest hb =>
      number_bigEndian_at (Sha.length_bigEndian 4 a) 4 hb rest
    have hnext : ∀ k, (k + 1) * 8 = 8 + k * 8 := fun k => by ring
    rw [ooffChunk]
    by_cases hsmall : first.2.2 < 0x80000000
    · rw [List.countP_cons_of_neg (by simpa using hsmall)] at hlarge
      rw [if_pos hsmall]
      cases i with
      | zero =>
        cases h
        simp only [Nat.zero_mul, Nat.zero_add]
        exact ⟨hpack _ _, Or.inl ⟨hsmall, hrow _ _ _ (by omega)⟩⟩
      | succ i =>
        simp only [hnext, Nat.add_assoc, hskip]
        exact ih h hlarge
    · rw [List.countP_cons_of_pos (by simpa using hsmall)] at hlarge
      rw [if_neg hsmall]
      have hor : 0x80000000 ||| large % 2 ^ 32 = 2 ^ 31 + large := by
        rw [Nat.mod_eq_of_lt (by omega)]
        exact (Nat.two_pow_add_eq_or_of_lt (by omega : large < 2 ^ 31) 1).symm
      cases i with
      | zero =>
        cases h
        simp only [Nat.zero_mul, Nat.zero_add]
        refine ⟨hpack _ _, Or.inr ⟨0, rfl, ?_⟩⟩
        rw [hor]
        exact hrow _ _ _ (by omega)
      | succ i =>
        simp only [hnext, Nat.add_assoc, hskip]
        obtain ⟨hid, hoffset⟩ := @ih (large + 1) i h (by omega)
        refine ⟨hid, hoffset.imp_right ?_⟩
        rintro ⟨j, hj, hnumber⟩
        exact ⟨j + 1, hj, by rw [hnumber]; ring⟩

theorem mem_of_mem_loff {entries : List MidxEntry} {large off : Nat}
    (h : off ∈ (ooffChunk entries large).2) :
    ∃ e ∈ entries, e.2.2 = off := by
  induction entries generalizing large with
  | nil => cases h
  | cons e entries ih =>
    rw [ooffChunk] at h
    split at h
    · obtain ⟨e', he', hoff⟩ := ih h
      exact ⟨e', List.mem_cons_of_mem _ he', hoff⟩
    · rcases List.mem_cons.mp h with rfl | h
      · exact ⟨e, List.mem_cons_self, rfl⟩
      · obtain ⟨e', he', hoff⟩ := ih h
        exact ⟨e', List.mem_cons_of_mem _ he', hoff⟩

section Find
variable {m : MultiPackIndex} {names : List Str} {entries : List MidxEntry}

theorem Holds.row (hm : Holds m algo names entries)
    (halgo : ∀ e ∈ entries, e.1.algo = algo) {i : Nat} {e : MidxEntry} (he : entries[i]? = some e) :
    m.row i = e.1.bytes := by
  have hlen : ∀ e ∈ entries, e.1.bytes.length = m.algo.rawLen := by
    intro e he
    rw [e.1.length_eq, halgo e he, hm.algo]
  have hslice := slice_table hlen he []
  rw [List.append_nil] at hslice
  rw [MultiPackIndex.row, hm.oids, hslice]

theorem Holds.offsetAt (hm : Holds m algo names entries)
    (hlarge : entries.countP (fun e => decide (2 ^ 31 ≤ e.2.2)) ≤ 2 ^ 31)
    (hoffset : ∀ e ∈ entries, e.2.2 < 2 ^ 64) {i : Nat} {e : MidxEntry}
    (he : entries[i]? = some e) :
    m.offsetAt i = some e.2.2 := by
  obtain ⟨-, hspec⟩ := @ooffChunk_spec entries 0 i e he (by omega)
  rw [MultiPackIndex.offsetAt, hm.ooff]
  rcases hspec with ⟨hsmall, hnumber⟩ | ⟨j, hj, hnumber⟩
  · simp only [hnumber]
    rw [if_pos hsmall]
  · have hfits : ∀ off ∈ (ooffChunk entries 0).2, off < 256 ^ 8 := by
      intro off hmem
      obtain ⟨e', he', rfl⟩ := mem_of_mem_loff hmem
      exact hoffset e' he'
    have hjlt := (List.getElem?_eq_some_iff.mp hj).1
    have hrow := number_table hfits hj []
    rw [List.append_nil] at hrow
    have hback : (2 ^ 31 + (0 + j) - 2 ^ 31) * 8 = j * 8 := by omega
    simp only [hnumber]
    rw [if_neg (by omega), hback, hm.loff, if_neg, hrow]
    rw [length_table]
    omega

/-- **What is found for an id is its row**: the name at the number of its pack, and its offset. -/
theorem Holds.find (hm : Holds m algo names entries) (halgo : ∀ e ∈ entries, e.1.algo = algo)
    (hsorted : entries.Pairwise fun a b => a.1.bytes < b.1.bytes)
    (hlarge : entries.countP (fun e => decide (2 ^ 31 ≤ e.2.2)) ≤ 2 ^ 31)
    (hoffset : ∀ e ∈ entries, e.2.2 < 2 ^ 64) {id : ObjectId} :
    (∀ e ∈ entries, e.1 = id → m.find id = names[e.2.1 % 2 ^ 32]?.map fun name => (name, e.2.2)) ∧
      ((∀ e ∈ entries, e.1 ≠ id) → m.find id = none) := by
  constructor
  · rintro e he rfl
    obtain ⟨i, hi⟩ := List.mem_iff_getElem?.mp he
    have hlt := (List.getElem?_eq_some_iff.mp hi).1
    have hsearch : BinarySearch.search m.row e.1.bytes m.count 0 m.count = some i := by
      refine BinarySearch.search_complete ?_ (Nat.zero_le i) (by rwa [hm.count]) (hm.row halgo hi)
        (Nat.sub_le _ _)
      intro a b hab hb
      rw [hm.count] at hb
      have ha : a < entries.length := hab.trans hb
      rw [hm.row halgo (List.getElem?_eq_getElem ha), hm.row halgo (List.getElem?_eq_getElem hb)]
      exact List.pairwise_iff_getElem.mp hsorted a b ha hb hab
    have hpack := (@ooffChunk_spec entries 0 i e hi (by omega)).1
    rw [MultiPackIndex.find, if_neg (not_not.mpr ((halgo e he).trans hm.algo.symm)), hsearch]
    simp only [Option.bind_eq_bind, Option.bind_some, hm.offsetAt hlarge hoffset hi]
    rw [hm.ooff, hpack, hm.packNames]
    cases names[e.2.1 % 2 ^ 32]? <;> rfl
  · intro hnone
    rw [MultiPackIndex.find]
    by_cases hid : id.algo ≠ m.algo
    · rw [if_pos hid]
    rw [if_neg hid]
    have hsearch : BinarySearch.search m.row id.bytes m.count 0 m.count = none := by
      cases hfound : BinarySearch.search m.row id.bytes m.count 0 m.count with
      | none => rfl
      | some i =>
        obtain ⟨-, hlt, hrow⟩ := BinarySearch.search_sound hfound
        rw [hm.count] at hlt
        have hmem := List.getElem_mem hlt
        rw [hm.row halgo (List.getElem?_eq_getElem hlt)] at hrow
        exact absurd (ObjectId.ext_bytes
          ((halgo _ hmem).trans (hm.algo.symm.trans (not_not.mp hid).symm)) hrow)
          (hnone _ hmem)
    rw [hsearch]
    rfl

end Find

/-! ## Writing and parsing -/

/-- Names that are ended by zeros are taken apart at them. -/
theorem splitOn_names {names : List Str}
    (hgood : ∀ name ∈ names, (0 : UInt8) ∉ toUtf8 name ∧ toUtf8 name ≠ [])
    (zeros : Nat) :
      (((names.flatMap fun name => toUtf8 name ++ [0]) ++ List.replicate zeros 0).splitOn 0).filter
      (· ≠ []) = names.map toUtf8 := by
  induction names with
  | nil =>
    rw [List.flatMap_nil, List.nil_append, List.map_nil]
    induction zeros with
    | zero => rfl
    | succ zeros ih =>
      have hsplit : ((0 : UInt8) :: List.replicate zeros 0).splitOn 0 =
          [] :: (List.replicate zeros 0).splitOn 0 :=
        @List.splitOn_append_cons_self_of_not_mem UInt8 [] _ _ 0 List.not_mem_nil _
      rw [List.replicate_succ, hsplit, List.filter_cons_of_neg (by simp)]
      exact ih
  | cons name names ih =>
    obtain ⟨⟨hzero, hne⟩, hgood⟩ := List.forall_mem_cons.mp hgood
    have hfront : (List.flatMap (fun name => toUtf8 name ++ [0]) (name :: names) ++
      List.replicate zeros 0) =
        toUtf8 name ++ 0 :: ((names.flatMap fun name => toUtf8 name ++ [0]) ++
          List.replicate zeros 0) := by
      rw [List.flatMap_cons]
      simp only [List.append_assoc, List.cons_append, List.nil_append]
    rw [hfront, List.splitOn_append_cons_self_of_not_mem hzero,
      List.filter_cons_of_pos (by simpa using hne),
      ih hgood, List.map_cons]

section Chunks
variable {chunks : List (Nat × Bytes)} {front rest : Bytes} {want : Nat}

/-- A chunk is found by its id. -/
theorem chunkOf_eq {d : Bytes} {pre post : List (Nat × Bytes)}
    (hchunks : chunks = pre ++ (want, d) :: post) (hpre : ∀ c ∈ pre, c.1 ≠ want) :
    chunkOf (front ++ (chunks.flatMap Prod.snd ++ rest))
      (front.length + (chunks.flatMap Prod.snd).length)
      (ChunkFile.rows front.length chunks) want = some d := by
  have hspan : (want, front.length + (pre.flatMap Prod.snd).length,
      front.length + (pre.flatMap Prod.snd).length + d.length) ∈ ChunkFile.spans
        front.length chunks := by
    rw [hchunks, ChunkFile.spans_append]
    exact List.mem_append_right _ List.mem_cons_self
  have hnone : (ChunkFile.spans front.length pre).find? (fun w => w.1 == want && w.2.1 ≤ w.2.2 &&
      w.2.2 ≤ front.length + (chunks.flatMap Prod.snd).length) = none := by
    refine List.find?_eq_none.mpr fun w hw => ?_
    obtain ⟨⟨c, hc, hid⟩, -⟩ := ChunkFile.mem_spans hw
    have hne := hpre c hc
    rw [hid] at hne
    simp [hne]
  have hinside := (ChunkFile.mem_spans hspan).2.2
  have hfind : (ChunkFile.spans front.length chunks).find? (fun w => w.1 == want && w.2.1 ≤ w.2.2 &&
      w.2.2 ≤ front.length + (chunks.flatMap Prod.snd).length) = some (want,
        front.length + (pre.flatMap Prod.snd).length,
          front.length + (pre.flatMap Prod.snd).length + d.length) := by
    rw [hchunks] at hinside hnone ⊢
    rw [ChunkFile.spans_append, List.find?_append, hnone, Option.none_or, ChunkFile.spans,
      List.find?_cons_of_pos]
    simpa using hinside
  have hslice := @ChunkFile.slice_chunk front rest d want
    (front.length + (pre.flatMap Prod.snd).length) pre post rfl
  rw [← hchunks] at hslice
  rw [chunkOf, ChunkFile.windows_rows, hfind, Option.map_some, Nat.add_sub_cancel_left, hslice]

theorem chunkOf_none {data : Bytes} {bodyLen offset : Nat} (h : ∀ c ∈ chunks, c.1 ≠ want) :
    chunkOf data bodyLen (ChunkFile.rows offset chunks) want = none := by
  rw [chunkOf, ChunkFile.windows_rows, Option.map_eq_none_iff, List.find?_eq_none]
  intro w hw
  obtain ⟨⟨c, hc, hid⟩, -⟩ := ChunkFile.mem_spans hw
  have hne := h c hc
  rw [hid] at hne
  simp [hne]

end Chunks

/-- The ids of the chunks, of which there are four or five. -/
theorem chunks_spec (packs : List (Str × PackIndex)) (entries : List MidxEntry) :
    (∀ c ∈ chunks packs entries, c.1 < 2 ^ 32) ∧ (chunks packs entries).length < 256 := by
  unfold chunks
  simp only
  split <;> simp [chunkPnam, chunkOidf, chunkOidl, chunkOoff, chunkLoff]

theorem length_header (algo : HashAlgo) (numChunks numPacks : Nat) :
    (header algo numChunks numPacks).length = 12 :=
  rfl

theorem length_oids {entries : List MidxEntry} (halgo : ∀ e ∈ entries, e.1.algo = algo) :
    (entries.flatMap fun e : MidxEntry => e.1.bytes).length = entries.length * algo.rawLen := by
  induction entries with
  | nil => rw [List.flatMap_nil, List.length_nil, List.length_nil, Nat.zero_mul]
  | cons e entries ih =>
    obtain ⟨he, hentries⟩ := List.forall_mem_cons.mp halgo
    rw [List.flatMap_cons, List.length_append, ih hentries, e.1.length_eq, he, List.length_cons]
    ring

/-- **What was written is parsed**, if it is not as long as no file is. -/
theorem parse_body (hasher : Hasher) {packs : List (Str × PackIndex)} {entries : List MidxEntry}
    (halgo : ∀ e ∈ entries, e.1.algo = algo)
    (hgood : ∀ p ∈ packs, (0 : UInt8) ∉ toUtf8 p.1 ∧ toUtf8 p.1 ≠ [])
    (hlen : (body algo packs entries).length < 2 ^ 64) :
    ∃ m, parse hasher algo (body algo packs entries ++
      hasher.digest algo (body algo packs entries)) = .ok m ∧
      Holds m algo (packs.map Prod.fst) entries := by
  obtain ⟨hids, hcount⟩ := chunks_spec packs entries
  obtain ⟨digest, hdigest⟩ : ∃ d, d = hasher.digest algo (body algo packs entries) := ⟨_, rfl⟩
  have hdigestLen : digest.length = algo.rawLen := hdigest ▸ hasher.digest_length algo _
  obtain ⟨cs, hcs⟩ : ∃ cs, cs = chunks packs entries := ⟨_, rfl⟩
  obtain ⟨head, hhead⟩ : ∃ head, head = header algo cs.length packs.length := ⟨_, rfl⟩
  have hheadLen : head.length = 12 := hhead ▸ length_header _ _ _
  obtain ⟨front, hfront⟩ : ∃ front, front = head ++
    ChunkFile.table (12 + (cs.length + 1) * 12) cs := ⟨_, rfl⟩
  have hfrontLen : front.length = 12 + (cs.length + 1) * 12 := by
    rw [hfront, List.length_append, hheadLen, ChunkFile.length_table]
  have hbody : body algo packs entries = front ++ cs.flatMap Prod.snd := by
    rw [body, hfront, hhead, hcs, List.append_assoc]
  have hbodyLen : (body algo packs entries).length =
      front.length + (cs.flatMap Prod.snd).length := by
    rw [hbody, List.length_append]
  rw [← hdigest]
  -- the parts of the file, as the parser meets them
  obtain ⟨data, hdata⟩ : ∃ data, data = body algo packs entries ++ digest := ⟨_, rfl⟩
  have hchunked : data = front ++ (cs.flatMap Prod.snd ++ digest) := by
    rw [hdata, hbody, List.append_assoc]
  have htabled : data = head ++ (ChunkFile.table front.length cs ++
      (cs.flatMap Prod.snd ++ digest)) := by
    rw [hchunked, hfrontLen, hfront, List.append_assoc]
  have hdataLen : data.length - algo.rawLen = (body algo packs entries).length := by
    rw [hdata, List.length_append, hdigestLen, Nat.add_sub_cancel]
  have hsig : data.take 4 = midxSignature := by
    rw [htabled, hhead]
    rfl
  have hversion : number data 4 1 = 1 := by
    rw [htabled, hhead]
    rfl
  have hnumber : number data 6 1 = cs.length := by
    have hread : number data 6 1 = ObjectId.natOfBytes [UInt8.ofNat cs.length] := by
      rw [htabled, hhead]
      rfl
    have hbyte : ObjectId.natOfBytes [UInt8.ofNat cs.length] =
      0 * 256 + (UInt8.ofNat cs.length).toNat := rfl
    rw [hread, hbyte, UInt8.toNat_ofNat_of_lt' (show cs.length < 256 by rwa [hcs])]
    omega
  have htake : data.take (body algo packs entries).length = body algo packs entries := by
    rw [hdata, List.take_left]
  have hdrop : data.drop (body algo packs entries).length = digest := by
    rw [hdata, List.drop_left]
  have hrows : ChunkFile.readTable (.pack (str "midx: truncated chunk table")) data
      (body algo packs entries).length (cs.length + 1) 12 =
        .ok (ChunkFile.rows front.length cs) := by
    rw [htabled]
    refine ChunkFile.readTable_table hheadLen (by rwa [hcs]) ?_ ?_
    · rwa [← hbodyLen]
    · rw [hbodyLen, hfrontLen]
      omega
  -- the chunks it looks for
  have hfound : ∀ {want : Nat} {d : Bytes} {pre post : List (Nat × Bytes)},
    cs = pre ++ (want, d) :: post →
      (∀ c ∈ pre, c.1 ≠ want) →
      chunkOf data (body algo packs entries).length (ChunkFile.rows front.length cs)
        want = some d := by
    intro want d pre post hsplit hpre
    rw [hchunked, hbodyLen]
    exact chunkOf_eq hsplit hpre
  obtain ⟨tail, htail⟩ : ∃ tail, cs = (chunkPnam, pnamChunk packs) :: (chunkOidf,
    oidfChunk entries) ::
      (chunkOidl, entries.flatMap fun e : MidxEntry => e.1.bytes) :: (chunkOoff,
        (ooffChunk entries 0).1) :: tail := ⟨_, hcs⟩
  have hpnam := @hfound chunkPnam (pnamChunk packs) [] _ htail (by simp)
  have hoidl := @hfound chunkOidl (entries.flatMap fun e : MidxEntry => e.1.bytes)
    [(chunkPnam, pnamChunk packs), (chunkOidf, oidfChunk entries)] _ htail
    (by simp [chunkPnam, chunkOidf, chunkOidl])
  have hooff := @hfound chunkOoff (ooffChunk entries 0).1 [(chunkPnam, pnamChunk packs),
    (chunkOidf, oidfChunk entries), (chunkOidl, entries.flatMap fun e : MidxEntry =>
      e.1.bytes)] _ htail
    (by simp [chunkPnam, chunkOidf, chunkOidl, chunkOoff])
  have hloff : (chunkOf data (body algo packs entries).length
        (ChunkFile.rows front.length cs) chunkLoff).getD [] =
      (ooffChunk entries 0).2.flatMap (Sha.bigEndian 8) := by
    by_cases hempty : ((ooffChunk entries 0).2.flatMap (Sha.bigEndian 8)).isEmpty = true
    · rw [chunkOf_none, List.isEmpty_iff.mp hempty]
      · rfl
      · rw [hcs, chunks, if_pos hempty]
        simp [chunkPnam, chunkOidf, chunkOidl, chunkOoff, chunkLoff]
    · have hsplit : cs = [(chunkPnam, pnamChunk packs), (chunkOidf, oidfChunk entries),
          (chunkOidl, entries.flatMap fun e : MidxEntry => e.1.bytes),
            (chunkOoff, (ooffChunk entries 0).1)] ++
          (chunkLoff, (ooffChunk entries 0).2.flatMap (Sha.bigEndian 8)) :: [] := by
        rw [hcs, chunks, if_neg hempty]
      rw [hfound hsplit (by simp [chunkPnam, chunkOidf, chunkOidl, chunkOoff, chunkLoff])]
      rfl
  have hpos : 0 < algo.rawLen := by cases algo <;> decide
  have hoids : (entries.flatMap fun e : MidxEntry => e.1.bytes).length / algo.rawLen =
      entries.length := by
    rw [length_oids halgo, Nat.mul_div_cancel _ hpos]
  rw [← hdata, parse, if_neg, if_neg (not_not.mpr hversion)]
  · simp only [hdataLen, htake, hdrop, hnumber, hrows]
    rw [if_neg (not_not.mpr hdigest.symm)]
    simp only [bind, Except.bind, needChunk, hpnam, hoidl, hooff]
    rw [dif_neg (not_not.mpr (by rw [hoids, length_ooffChunk]))]
    refine ⟨_, rfl, rfl, ?_, hoids, rfl, rfl, hloff⟩
    show (((pnamChunk packs).splitOn 0).filter (· ≠ [])).map fromUtf8Lossy = _
    have hnames := @splitOn_names (packs.map Prod.fst) (by
      rw [List.forall_mem_map]
      exact hgood) ((4 - (packs.flatMap fun p => toUtf8 p.1 ++ [0]).length % 4) % 4)
    rw [List.flatMap_map] at hnames
    rw [pnamChunk, hnames, List.map_map]
    exact List.map_id'' (fun name => fromUtf8Lossy_toUtf8 name) _
  · rintro (hshort | hne)
    · rw [hdata, List.length_append, hdigestLen, hbodyLen, hfrontLen] at hshort
      omega
    · exact hne hsig

theorem pairwise_sortPacks (packs : List (Str × PackIndex)) :
    (sortPacks packs).Pairwise fun a b => toUtf8 a.1 ≤ toUtf8 b.1 :=
  pairwise_mergeSort_key (fun pack : Str × PackIndex => toUtf8 pack.1) packs

/-- Objects of different ids are sorted strictly. -/
theorem pairwise_sortEntries {entries : List MidxEntry} (halgo : ∀ e ∈ entries, e.1.algo = algo)
    (hnodup : (entries.map Prod.fst).Nodup) :
    (sortEntries entries).Pairwise fun a b => a.1.bytes < b.1.bytes :=
  PackWriter.pairwise_sortedRows halgo hnodup

/-! ## How long a multi-pack-index is -/

theorem length_loff_le (entries : List MidxEntry) (large : Nat) :
    (ooffChunk entries large).2.length ≤ entries.length := by
  induction entries generalizing large with
  | nil => exact Nat.le_refl 0
  | cons e entries ih =>
    rw [ooffChunk, List.length_cons]
    split
    · exact (ih large).trans (Nat.le_succ _)
    · exact Nat.succ_le_succ (ih (large + 1))

theorem length_body_le {packs : List (Str × PackIndex)} {entries : List MidxEntry}
    (halgo : ∀ e ∈ entries, e.1.algo = algo) : (body algo packs entries).length ≤
      1111 + (packs.flatMap fun p => toUtf8 p.1 ++ [0]).length + 48 * entries.length := by
  have hpnam : (pnamChunk packs).length ≤ (packs.flatMap fun p =>
      toUtf8 p.1 ++ [0]).length + 3 := by
    rw [pnamChunk, List.length_append, List.length_replicate]
    omega
  have hoidf : (oidfChunk entries).length = 1024 := by
    rw [oidfChunk, length_table, List.length_range]
  have hoidl := length_oids halgo
  have hooff := length_ooffChunk entries 0
  have hloff : ((ooffChunk entries 0).2.flatMap (Sha.bigEndian 8)).length =
      (ooffChunk entries 0).2.length * 8 :=
    length_table 8 id _
  have hrows := length_loff_le entries 0
  have hraw : algo.rawLen ≤ 32 := by cases algo <;> decide
  have hids : entries.length * algo.rawLen ≤ entries.length * 32 := Nat.mul_le_mul_left _ hraw
  have htable : (body algo packs entries).length =
      12 + ((chunks packs entries).length + 1) * 12 +
        ((chunks packs entries).flatMap Prod.snd).length := by
    rw [body, List.length_append, List.length_append, length_header, ChunkFile.length_table]
    omega
  rw [htable, chunks]
  split
  · simp only [List.append_nil, List.length_cons, List.length_nil, List.flatMap_cons,
      List.flatMap_nil,
      List.length_append]
    omega
  · simp only [List.cons_append, List.nil_append, List.length_cons, List.length_nil,
      List.flatMap_cons,
      List.flatMap_nil, List.length_append]
    omega

/-- Packs that an index can be written of: of names that are ended by a zero, and of built
indexes. -/
def Writable (algo : HashAlgo) (packs : List (Str × PackIndex)) : Prop :=
  ∀ p ∈ packs, (0 : UInt8) ∉ toUtf8 p.1 ∧ p.1 ≠ [] ∧ Built algo p.2

/-- An id is found in the pack of the least name that has it, at that pack's own offset. -/
def Resolves (packs : List (Str × PackIndex)) (m : MultiPackIndex) : Prop :=
  ∀ id, ((∀ p ∈ packs, p.2.offsetOf id = none) → m.find id = none) ∧
    ∀ p ∈ packs, ∀ offset, p.2.offsetOf id = some offset →
      (∀ q ∈ packs, q.2.offsetOf id ≠ none → toUtf8 p.1 ≤ toUtf8 q.1) →
        m.find id = some (p.1, offset)

section Written
variable {packs : List (Str × PackIndex)}

/-- What is written is made of the objects of the sorted packs. -/
theorem write_ok (hasher : Hasher) (hpacks : Writable algo packs) :
    ∃ s, CollectedFrom algo (sortPacks packs) s ∧
    writeMultiPackIndex hasher algo packs = .ok (body algo (sortPacks packs) (sortEntries s.1) ++
      hasher.digest algo (body algo (sortPacks packs) (sortEntries s.1))) := by
  have hperm : (sortPacks packs).Perm packs := List.mergeSort_perm _ _
  have hlists : ∀ p ∈ sortPacks packs, ∃ rows, Lists p.2 algo rows := fun p hp =>
    (hpacks p (hperm.mem_iff.mp hp)).2.2.lists
  obtain ⟨s, hcollect, hs⟩ := collect_ok hlists CollectedFrom.nil
  rw [List.nil_append] at hs
  rw [List.length_nil] at hcollect
  refine ⟨s, hs, ?_⟩
  rw [writeMultiPackIndex, hcollect]
  rfl

theorem length_write_le {hasher : Hasher} (hpacks : Writable algo packs) {out : Bytes}
    (hout : writeMultiPackIndex hasher algo packs = .ok out) : out.length ≤
      1143 + (packs.map fun p => (toUtf8 p.1).length + 1).sum +
        48 * (packs.map fun p => p.2.count).sum := by
  obtain ⟨s, hs, hwrite⟩ := write_ok hasher hpacks
  cases hwrite.symm.trans hout
  have hperm : (sortPacks packs).Perm packs := List.mergeSort_perm _ _
  have hentries : (sortEntries s.1).Perm s.1 := List.mergeSort_perm _ _
  have hbody := @length_body_le algo (sortPacks packs) (sortEntries s.1) fun e he =>
    hs.algo e (hentries.mem_iff.mp he)
  have hraw : algo.rawLen ≤ 32 := by cases algo <;> decide
  have hnames : ((sortPacks packs).flatMap fun p => toUtf8 p.1 ++ [0]).length =
      (packs.map fun p => (toUtf8 p.1).length + 1).sum := by
    rw [List.length_flatMap, ← (hperm.map fun p : Str × PackIndex =>
      (toUtf8 p.1).length + 1).sum_nat]
    simp only [List.length_append, List.length_singleton]
  have hcount := hs.length
  rw [(hperm.map fun p : Str × PackIndex => p.2.count).sum_nat, ← hentries.length_eq] at hcount
  rw [List.length_append, hasher.digest_length]
  omega

/-- What is written is found again: the offset of the first of the sorted packs with an id, and the
name that stands at its number. -/
theorem find_first (hasher : Hasher) (hpacks : Writable algo packs)
    (hlarge : (packs.map fun p => largeRows p.2).sum ≤ 2 ^ 31)
    (hlen : ∀ out, writeMultiPackIndex hasher algo packs = .ok out → out.length < 2 ^ 64) :
    ∃ out m, writeMultiPackIndex hasher algo packs = .ok out ∧ parse hasher algo out = .ok m ∧
      (∀ e, First (sortPacks packs) e →
        m.find e.1 = ((sortPacks packs).map Prod.fst)[e.2.1]?.map fun name => (name, e.2.2)) ∧
      ∀ id, (∀ p ∈ packs, p.2.offsetOf id = none) → m.find id = none := by
  have hperm : (sortPacks packs).Perm packs := List.mergeSort_perm _ _
  obtain ⟨s, hs, hwrite⟩ := write_ok hasher hpacks
  have hentries : (sortEntries s.1).Perm s.1 := List.mergeSort_perm _ _
  have halgo : ∀ e ∈ sortEntries s.1, e.1.algo = algo :=
    fun e he => hs.algo e (hentries.mem_iff.mp he)
  have hoffset : ∀ e ∈ sortEntries s.1, e.2.2 < 2 ^ 64 :=
    fun e he => hs.offsets e (hentries.mem_iff.mp he)
  have hsorted := pairwise_sortEntries hs.algo hs.nodup
  have hcount : (sortEntries s.1).countP (fun e => decide (2 ^ 31 ≤ e.2.2)) ≤ 2 ^ 31 := by
    rw [hentries.countP_eq]
    refine hs.large.trans ?_
    rwa [(hperm.map fun p : Str × PackIndex => largeRows p.2).sum_nat]
  have hgood : ∀ p ∈ sortPacks packs, (0 : UInt8) ∉ toUtf8 p.1 ∧ toUtf8 p.1 ≠ [] := by
    intro p hp
    obtain ⟨hzero, hne, -⟩ := hpacks p (hperm.mem_iff.mp hp)
    exact ⟨hzero, fun h => hne (toUtf8_injective (t := []) h)⟩
  have hshort := hlen _ hwrite
  rw [List.length_append] at hshort
  obtain ⟨m, hparse, hm⟩ := parse_body hasher halgo hgood (by omega)
  obtain hfind := fun id => @Holds.find algo m _ _ hm halgo hsorted hcount hoffset id
  refine ⟨_, m, hwrite, hparse, fun e he => ?_, fun id hid => ?_⟩
  · have hmem := hentries.mem_iff.mpr ((hs.mem e).mpr he)
    obtain ⟨k, -, -, hnumber, -⟩ := he
    rw [(hfind e.1).1 e hmem rfl, hnumber, Nat.mod_mod]
  · refine (hfind id).2 ?_
    rintro e he rfl
    obtain ⟨k, p, hp, -, hoff, -⟩ := (hs.mem e).mp (hentries.mem_iff.mp he)
    rw [hid p (hperm.mem_iff.mp (List.mem_of_getElem? hp))] at hoff
    cases hoff

/-- **A multi-pack-index resolves every id to the pack of the least name that has it**, at that
pack's own offset, for as many packs and large offsets as there are numbers. -/
theorem parse_writeMultiPackIndex (hasher : Hasher) (hpacks : Writable algo packs)
    (hnodup : (packs.map Prod.fst).Nodup) (hcount : packs.length ≤ 2 ^ 32)
    (hlarge : (packs.map fun p => largeRows p.2).sum ≤ 2 ^ 31)
    (hlen : ∀ out, writeMultiPackIndex hasher algo packs = .ok out → out.length < 2 ^ 64) :
    ∃ out m, writeMultiPackIndex hasher algo packs = .ok out ∧ parse hasher algo out = .ok m ∧
      Resolves packs m := by
  obtain ⟨out, m, hwrite, hparse, hfirst, hnone⟩ := find_first hasher hpacks hlarge hlen
  have hperm : (sortPacks packs).Perm packs := List.mergeSort_perm _ _
  refine ⟨out, m, hwrite, hparse, fun id => ⟨hnone id, fun p hp offset hoffset hleast => ?_⟩⟩
  obtain ⟨k, hk⟩ := List.mem_iff_getElem?.mp (hperm.mem_iff.mpr hp)
  have hlt := (List.getElem?_eq_some_iff.mp hk).1
  have hlength := hperm.length_eq
  -- a pack before it has a name that is less, so it does not have the id
  have hbefore : ∀ q ∈ (sortPacks packs).take k, q.2.offsetOf id = none := by
    intro q hq
    by_contra hsome
    obtain ⟨j, hj, rfl⟩ := List.mem_take_iff_getElem.mp hq
    have hjk : j < k := by omega
    have hle := List.pairwise_iff_getElem.mp (pairwise_sortPacks packs) j k (by omega) hlt hjk
    have hge := hleast _ (hperm.mem_iff.mp (List.getElem_mem (by omega))) hsome
    rw [(List.getElem?_eq_some_iff.mp hk).2] at hle
    have hname := toUtf8_injective (le_antisymm hle hge)
    have hsortedNodup := (hperm.map Prod.fst).nodup_iff.mpr hnodup
    have hne := List.pairwise_iff_getElem.mp (List.pairwise_map.mp hsortedNodup) j k
      (by omega) hlt hjk
    rw [(List.getElem?_eq_some_iff.mp hk).2] at hne
    exact hne hname
  have hfound := hfirst (id, k % 2 ^ 32, offset) ⟨k, p, hk, rfl, hoffset, hbefore⟩
  rw [hfound, Nat.mod_eq_of_lt (by omega), List.getElem?_map, hk]
  rfl

end Written

/-- Two packs with the same object, the second of them with an offset of 8 GiB and the lesser
name. -/
theorem parse_writeMultiPackIndex_two : ∃ (a b : PackIndex) (out : Bytes) (m : MultiPackIndex),
    a.offsetOf (PackWriter.repeatedId 1) = some 12 ∧ b.offsetOf (PackWriter.repeatedId 1) =
      some (2 ^ 33) ∧
      writeMultiPackIndex .sha .sha1 [(str "b", a), (str "a", b)] = .ok out ∧
      parse .sha .sha1 out = .ok m ∧ m.find (PackWriter.repeatedId 1) = some (str "a", 2 ^ 33) := by
  obtain ⟨a, ha, hla⟩ := oneObject (PackWriter.repeatedId 1) 12 rfl (by decide)
  obtain ⟨b, hb, hlb⟩ := oneObject (PackWriter.repeatedId 1) (2 ^ 33) rfl (by decide)
  have hoffset := (hlb.offsetOf _ _).mpr List.mem_cons_self
  have hpacks : Writable .sha1 [(str "b", a), (str "a", b)] := by
    simp only [Writable, List.forall_mem_cons]
    exact ⟨⟨by decide, by decide, ha⟩, ⟨by decide, by decide, hb⟩, nofun⟩
  have hlarge : ([(str "b", a), (str "a", b)].map fun p => largeRows p.2).sum ≤ 2 ^ 31 := by
    simp only [List.map_cons, List.map_nil, hla.largeRows_eq, hlb.largeRows_eq]
    decide
  obtain ⟨out, m, hwrite, hparse, hresolves⟩ := parse_writeMultiPackIndex .sha hpacks
    (show [str "b", str "a"].Nodup by decide) (show 2 ≤ 2 ^ 32 by decide) hlarge fun out hout => by
      have hlen := length_write_le hpacks hout
      simp only [List.map_cons, List.map_nil, hla.count, hlb.count] at hlen
      exact hlen.trans_lt (by decide)
  refine ⟨a, b, out, m, (hla.offsetOf _ _).mpr List.mem_cons_self, hoffset, hwrite, hparse, ?_⟩
  refine (hresolves (PackWriter.repeatedId 1)).2 (str "a", b) (by simp) _ hoffset ?_
  simp only [List.forall_mem_cons]
  exact ⟨fun _ => by decide, fun _ => le_refl _, nofun⟩

/-! ## More packs than there are numbers

Of `2 ^ 32 + 1` packs the last has the number of the first, so an object that only the last one has
is found in the first one.
-/

/-- A name for every number of 33 bits, less than `b`. -/
def bitName (i : Nat) : Str := 'a' :: (List.range 33).map fun k => if i.testBit k then '1' else '0'

theorem bitName_inj {i j : Nat} (hi : i < 2 ^ 33) (hj : j < 2 ^ 33)
    (h : bitName i = bitName j) : i = j := by
  refine Nat.eq_of_testBit_eq fun k => ?_
  by_cases hk : k < 33
  · have hbit := List.map_inj_left.mp (List.cons.inj h).2 k (List.mem_range.mpr hk)
    cases hik : i.testBit k <;> cases hjk : j.testBit k <;> simp [hik, hjk] at hbit ⊢
  · have hpow : 2 ^ 33 ≤ 2 ^ k := Nat.pow_le_pow_right (by decide) (by omega)
    rw [Nat.testBit_lt_two_pow (hi.trans_le hpow), Nat.testBit_lt_two_pow (hj.trans_le hpow)]

theorem toUtf8_bitName (i : Nat) : toUtf8 (bitName i) =
    97 :: (List.range 33).map fun k => if i.testBit k then 49 else 48 := by
  have hbits : ∀ ks : List Nat, toUtf8 (ks.map fun k => if i.testBit k then '1' else '0') =
      ks.map fun k => if i.testBit k then 49 else 48 := by
    intro ks
    induction ks with
    | nil => rfl
    | cons k ks ih =>
      rw [List.map_cons, toUtf8_cons, ih, List.map_cons]
      cases i.testBit k <;> rfl
  rw [bitName, toUtf8_cons, hbits]
  rfl

/-- Packs of which only the last, of the greatest name, has an object. -/
def manyPacks (n : Nat) (a b : PackIndex) : List (Str × PackIndex) :=
  (List.range n).map (fun i => (bitName i, a)) ++ [(str "b", b)]

/-- A pack of the greatest name is sorted behind the others. -/
theorem sortPacks_snoc {packs : List (Str × PackIndex)} {p : Str × PackIndex}
    (hnodup : ((packs ++ [p]).map Prod.fst).Nodup) (hle : ∀ q ∈ packs, toUtf8 q.1 ≤ toUtf8 p.1) :
    sortPacks (packs ++ [p]) = sortPacks packs ++ [p] := by
  have hperm : (sortPacks packs).Perm packs := List.mergeSort_perm _ _
  have hsnoc : (sortPacks (packs ++ [p])).Perm (packs ++ [p]) := List.mergeSort_perm _ _
  refine List.Perm.eq_of_pairwise ?_ (pairwise_sortPacks _) ?_
    (hsnoc.trans (hperm.append_right [p]).symm)
  · intro a b ha hb hab hba
    exact List.inj_on_of_nodup_map hnodup (hsnoc.mem_iff.mp ha)
      ((hperm.append_right [p]).mem_iff.mp hb)
      (toUtf8_injective (le_antisymm hab hba))
  · refine List.pairwise_append.mpr ⟨pairwise_sortPacks _, List.pairwise_singleton _ _,
      fun q hq r hr => ?_⟩
    rw [List.mem_singleton.mp hr]
    exact hle q (hperm.mem_iff.mp hq)

section Many
variable {n : Nat} {a b : PackIndex}

theorem manyPacks_nodup (hn : n ≤ 2 ^ 33) : ((manyPacks n a b).map Prod.fst).Nodup := by
  rw [manyPacks, List.map_append, List.map_map]
  refine List.nodup_append.mpr ⟨?_, List.nodup_singleton _, ?_⟩
  · refine List.Nodup.map_on ?_ List.nodup_range
    intro i hi j hj h
    rw [List.mem_range] at hi hj
    exact bitName_inj (by omega) (by omega) h
  · rintro name hname _ hb rfl
    obtain ⟨i, -, rfl⟩ := List.mem_map.mp hname
    have hhead := congrArg List.head? (List.mem_singleton.mp hb)
    exact absurd hhead (by simp [bitName, str])

theorem sortPacks_manyPacks (hn : n ≤ 2 ^ 33) :
    sortPacks (manyPacks n a b) = sortPacks ((List.range n).map fun i => (bitName i, a)) ++
      [(str "b", b)] := by
  refine sortPacks_snoc (manyPacks_nodup hn) ?_
  rw [List.forall_mem_map]
  intro i _
  rw [toUtf8_bitName]
  exact le_of_lt (List.cons_lt_cons_iff.mpr (Or.inl (by decide)))

theorem manyPacks_writable (ha : Built algo a) (hb : Built algo b) :
    Writable algo (manyPacks n a b) := by
  intro p hp
  rcases List.mem_append.mp hp with hp | hp
  · obtain ⟨i, -, rfl⟩ := List.mem_map.mp hp
    refine ⟨?_, List.cons_ne_nil _ _, ha⟩
    rw [toUtf8_bitName, List.mem_cons, List.mem_map]
    rintro (h | ⟨k, -, h⟩)
    · exact absurd h (by decide)
    · split at h <;> exact absurd h (by decide)
  · rw [List.mem_singleton.mp hp]
    exact ⟨show (0 : UInt8) ∉ toUtf8 (str "b") by decide, show str "b" ≠ [] by decide, hb⟩

theorem manyPacks_length_le (ha : a.count = 0) (hb : b.count = 1) :
    1143 + ((manyPacks n a b).map fun p => (toUtf8 p.1).length + 1).sum +
      48 * ((manyPacks n a b).map fun p => p.2.count).sum = 1193 + n * 35 := by
  have hname : ∀ i, (toUtf8 (bitName i)).length = 34 := fun i => by
    rw [toUtf8_bitName, List.length_cons, List.length_map, List.length_range]
  rw [manyPacks, List.map_append, List.map_append, List.sum_append, List.sum_append,
    List.map_map, List.map_map]
  simp only [Function.comp_def, hname, ha, hb, List.map_const', List.length_range,
    List.sum_replicate_nat, List.map_cons, List.map_nil, List.sum_cons, List.sum_nil]
  have hlast : (toUtf8 (str "b")).length = 1 := rfl
  omega

end Many

/-- **An index of more packs than there are numbers does not resolve**: the pack `b` has an object,
and it is found in another one. -/
theorem not_resolves :
    ¬ ∀ (hasher : Hasher) (algo : HashAlgo) (packs : List (Str × PackIndex)), packs ≠ [] →
    Writable algo packs → (packs.map Prod.fst).Nodup →
      ∃ out m, writeMultiPackIndex hasher algo packs = .ok out ∧ parse hasher algo out = .ok m ∧
        Resolves packs m := by
  intro h
  obtain ⟨id, hid⟩ : ∃ id, id = PackWriter.repeatedId 1 := ⟨_, rfl⟩
  obtain ⟨a, ha, hla⟩ := noObject .sha1
  obtain ⟨b, hb, hlb⟩ := @oneObject .sha1 id 12 (by rw [hid]; rfl) (by decide)
  -- the number is kept apart, so that nothing counts up to it
  obtain ⟨n, hn⟩ : ∃ n : Nat, n = 2 ^ 32 := ⟨_, rfl⟩
  have hoffset : b.offsetOf id = some 12 := (hlb.offsetOf _ _).mpr List.mem_cons_self
  have hempty : ∀ i, a.offsetOf i = none :=
      fun i => Option.eq_none_iff_forall_ne_some.mpr fun off hoff => by
    cases (hla.offsetOf i off).mp hoff
  have hpacks := @manyPacks_writable .sha1 n a b ha hb
  have hnodup := @manyPacks_nodup n a b (by omega)
  have hsort := @sortPacks_manyPacks n a b (by omega)
  obtain ⟨out, m, hwrite, hparse, hresolves⟩ :=
    h .sha .sha1 (manyPacks n a b) (by simp [manyPacks]) hpacks hnodup
  have hlargeA : largeRows a = 0 := hla.largeRows_eq
  have hlargeB : largeRows b = 0 := hlb.largeRows_eq
  have hlarge : ((manyPacks n a b).map fun p => largeRows p.2).sum ≤ 2 ^ 31 := by
    rw [manyPacks, List.map_append, List.sum_append, List.map_map]
    simp [Function.comp_def, hlargeA, hlargeB]
  obtain ⟨out', m', hwrite', hparse', hfirst, -⟩ := find_first .sha hpacks hlarge fun out hout => by
    have hlen := length_write_le hpacks hout
    rw [manyPacks_length_le hla.count hlb.count] at hlen
    omega
  cases hwrite.symm.trans hwrite'
  cases hparse.symm.trans hparse'
  obtain ⟨others, hothers⟩ : ∃ others, others = (List.range n).map fun i =>
    (bitName i, a) := ⟨_, rfl⟩
  rw [← hothers] at hsort
  have hperm : (sortPacks others).Perm others := List.mergeSort_perm _ _
  have hlen : (sortPacks others).length = n := by
    rw [hperm.length_eq, hothers, List.length_map, List.length_range]
  -- the pack that has the object is the last one, and its number wraps to the first
  have hlast : First (sortPacks (manyPacks n a b)) (id, 0, 12) := by
    refine ⟨n, (str "b", b), ?_, by simp only [hn, Nat.mod_self], hoffset, fun q hq => ?_⟩
    · rw [hsort, ← hlen, List.getElem?_concat_length]
    · rw [hsort, ← hlen, List.take_left] at hq
      obtain ⟨i, -, rfl⟩ := List.mem_map.mp (hothers ▸ hperm.mem_iff.mp hq)
      exact hempty id
  have hright := (hresolves id).2 (str "b", b) (List.mem_append_right _ List.mem_cons_self)
    12 hoffset (by
    intro q hq hsome
    rcases List.mem_append.mp hq with hq | hq
    · obtain ⟨i, -, rfl⟩ := List.mem_map.mp hq
      exact absurd (hempty id) hsome
    · rw [List.mem_singleton.mp hq])
  have hpos : 0 < (sortPacks others).length := by omega
  rw [hfirst _ hlast, hsort, List.map_append, List.getElem?_append_left (by rwa [List.length_map]),
    List.getElem?_map, List.getElem?_eq_getElem hpos] at hright
  have hmem := hperm.mem_iff.mp (List.getElem_mem hpos)
  obtain ⟨q, hq⟩ : ∃ q, q = (sortPacks others)[0] := ⟨_, rfl⟩
  rw [← hq, hothers] at hmem
  obtain ⟨i, -, hi⟩ := List.mem_map.mp hmem
  rw [← hq, ← hi] at hright
  have hhead := congrArg (fun found => found.bind fun found => found.1.head?) hright
  exact absurd hhead (by simp [bitName, str])

end MultiPackIndex
end Puregit
