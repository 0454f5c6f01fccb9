import Puregit.Pack.Index

/-! # Verifying a pack against its index

`verifyPack` decodes every object of a pack, looks each id up in the index and compares
the counts.  It does not look at the offsets of the index.  What it does find out is a
matter of counting: where no object is decoded twice, as many different rows are found
as there are, so that the index lists the decoded ids and no other.
-/
namespace Puregit

/-- The outcome of a verification: how many objects were decoded, and what is wrong. -/
structure PackVerification where
  objects : Nat
  problems : List Str
  deriving DecidableEq

/-- Whether nothing is wrong. -/
def PackVerification.isOk (v : PackVerification) : Bool := v.problems.isEmpty

/-- The problem of an object that the index does not list. -/
def absentFromIndex (id : ObjectId) : Str :=
  str "object " ++ id.toHex ++
    str " decoded from the pack is absent from the index (corrupt or wrong idx)"

/-- The problem of an index that lists more or fewer objects than the pack has. -/
def countsDiffer (objects rows : Nat) : Str :=
  str "pack contains " ++ natStr objects ++ str " object(s) but the index lists " ++ natStr rows

/-- Verifies a pack against its index. -/
def verifyPack (z : Zlib) (h : Hasher) (pack idx : Bytes) (algo : HashAlgo)
    (resolve : ExternalResolver) : Except Error PackVerification := do
  let index ← PackIndex.parse algo idx
  let objects ← explodePack z h pack algo resolve
  let unlisted := (objects.filter fun o => !index.contains o.1).map fun o => absentFromIndex o.1
  let miscounted := if objects.length ≠ index.count then
    [countsDiffer objects.length index.count] else []
  .ok ⟨objects.length, unlisted ++ miscounted⟩

namespace Pack

variable {z : Zlib} {h : Hasher} {algo : HashAlgo} {pack idx : Bytes} {resolve : ExternalResolver}

/-- What a verification without problems has looked at: every decoded id is listed, and
as many as there are rows. -/
structure Verified (z : Zlib) (h : Hasher) (algo : HashAlgo) (resolve : ExternalResolver)
    (pack idx : Bytes) (index : PackIndex) (objects : List ExplodedObject) : Prop where
  parsed : PackIndex.parse algo idx = .ok index
  decoded : explodePack z h pack algo resolve = .ok objects
  listed : ∀ o ∈ objects, ∃ row, index.positionOf o.1 = some row
  count : objects.length = index.count

/-- **A pack verifies exactly when its objects are as many as the rows of the index and
each of them is listed.** -/
theorem verifyPack_isOk {v : PackVerification} (hv : verifyPack z h pack idx algo resolve = .ok v)
    (hok : v.isOk = true) :
    ∃ index objects, Verified z h algo resolve pack idx index objects ∧
      v.objects = objects.length := by
  unfold verifyPack at hv
  obtain ⟨index, hparse, hv⟩ := except_bind_ok.mp hv
  obtain ⟨objects, hexplode, hv⟩ := except_bind_ok.mp hv
  cases hv
  unfold PackVerification.isOk at hok
  rw [List.isEmpty_iff, List.append_eq_nil_iff, List.map_eq_nil_iff, List.filter_eq_nil_iff] at hok
  obtain ⟨hlisted, hcount⟩ := hok
  refine ⟨index, objects, ⟨hparse, hexplode, fun o ho => ?_, ?_⟩, rfl⟩
  · exact PackIndex.contains_iff.mp (by simpa using hlisted o ho)
  · by_cases hne : objects.length ≠ index.count
    · rw [if_pos hne] at hcount
      cases hcount
    · exact not_not.mp hne

/-- **The index of a verified pack lists the decoded ids**, if no object is decoded twice. -/
theorem Verified.exists_row_iff {index : PackIndex} {objects : List ExplodedObject}
    (hv : Verified z h algo resolve pack idx index objects) (hnd : (objects.map Prod.fst).Nodup)
    (row : Nat) (id : ObjectId) :
    index.idAt row = some id ↔ id ∈ objects.map Prod.fst ∧ index.positionOf id = some row := by
  -- the rows of the decoded ids are all the rows there are
  let rows := objects.map fun o => (index.positionOf o.1).getD 0
  have hposition : ∀ o ∈ objects, ∃ i < index.count, index.positionOf o.1 = some i ∧
      index.idAt i = some o.1 := by
    intro o ho
    obtain ⟨i, hi⟩ := hv.listed o ho
    obtain ⟨hlt, hid⟩ := PackIndex.positionOf_some hi
    exact ⟨i, hlt, hi, hid⟩
  have hlt : rows ⊆ List.range index.count := by
    intro i hi
    obtain ⟨o, ho, rfl⟩ := List.mem_map.mp hi
    obtain ⟨i, hlt, hi, -⟩ := hposition o ho
    show (index.positionOf o.1).getD 0 ∈ _
    rw [hi]
    exact List.mem_range.mpr hlt
  have hdistinct : rows.Nodup := by
    refine List.Nodup.map_on ?_ hnd.of_map
    intro o ho o' ho' hsame
    obtain ⟨i, -, hi, hid⟩ := hposition o ho
    obtain ⟨i', -, hi', hid'⟩ := hposition o' ho'
    rw [hi, hi'] at hsame
    obtain rfl : i = i' := hsame
    exact List.inj_on_of_nodup_map hnd ho ho' (Option.some.inj (hid.symm.trans hid'))
  have hall : rows.Perm (List.range index.count) := by
    refine (hdistinct.subperm hlt).perm_of_length_le ?_
    rw [List.length_range, List.length_map, hv.count]
  constructor
  · intro hid
    have hrow := hall.mem_iff.mpr (List.mem_range.mpr (PackIndex.lt_of_idAt hid))
    obtain ⟨o, ho, rfl⟩ := List.mem_map.mp hrow
    obtain ⟨i, -, hi, hid'⟩ := hposition o ho
    rw [hi, Option.getD_some] at hid ⊢
    obtain rfl : o.1 = id := Option.some.inj (hid'.symm.trans hid)
    exact ⟨List.mem_map_of_mem ho, hi⟩
  · intro ⟨_, hi⟩
    exact (PackIndex.positionOf_some hi).2

/-- **What a verification finds out.**  The index parses, every delta of the pack resolves,
each decoded id is listed and found, and the counts agree; where no object is decoded
twice, the index lists the decoded ids and no other, each in the row it is found at. -/
theorem verifyPack_sound {v : PackVerification} (hv : verifyPack z h pack idx algo resolve = .ok v)
    (hok : v.isOk = true) : ∃ index objects,
      PackIndex.parse algo idx = .ok index ∧ explodePack z h pack algo resolve = .ok objects ∧
      v.objects = objects.length ∧ objects.length = index.count ∧
      (∀ o ∈ objects, ∃ row, index.positionOf o.1 = some row ∧ index.idAt row = some o.1) ∧
      ((objects.map Prod.fst).Nodup → ∀ row id, index.idAt row = some id ↔
        id ∈ objects.map Prod.fst ∧ index.positionOf id = some row) := by
  obtain ⟨index, objects, hverified, hobjects⟩ := verifyPack_isOk hv hok
  refine ⟨index, objects, hverified.parsed, hverified.decoded, hobjects, hverified.count, ?_,
    hverified.exists_row_iff⟩
  intro o ho
  obtain ⟨row, hrow⟩ := hverified.listed o ho
  exact ⟨row, hrow, (PackIndex.positionOf_some hrow).2⟩

/-- Every id of an index is at the offset of an entry that is decoded to an object of it. -/
def OffsetsRight (z : Zlib) (h : Hasher) (algo : HashAlgo) (resolve : ExternalResolver)
    (pack : Bytes) (index : PackIndex) (objects : List ExplodedObject) : Prop :=
  ∀ row id, index.idAt row = some id → ∃ k s o,
    explodeEntries z h algo resolve pack k Exploded.start = .ok s ∧ objects[k]? = some o ∧
      o.1 = id ∧ index.offsetOf id = some s.offset

/-- An index lists the decoded ids and no other. -/
def SameIds (index : PackIndex) (objects : List ExplodedObject) : Prop :=
  ∀ id, (∃ row, index.idAt row = some id) ↔ id ∈ objects.map Prod.fst

end Pack

/-! ## Indexes that verify -/

namespace VerifySample
open Pack

/-- The id of the only object. -/
@[irreducible] def letter : ObjectId := hashObject Hasher.sha .sha1 .blob [120]

/-- The entry of the blob. -/
def entry : Bytes := 0x31 :: (Zlib.blockHeader 1 ++ [120] ++ Zlib.adler32 [120])

/-- A pack of the blob, once or twice. -/
def letterPack (count : UInt8) : Bytes :=
  packSignature ++ [0, 0, 0, 2, 0, 0, 0, count] ++ (List.replicate count.toNat entry).flatten ++
    List.replicate 20 0

/-- An index of the blob and of some more ids, with one offset for them all. -/
def letterIdx (others : List ObjectId) (offset : UInt8) : Bytes :=
  let count := UInt8.ofNat (others.length + 1)
  idxMagic ++ [0, 0, 0, 2] ++ (List.replicate 256 [0, 0, 0, count]).flatten ++
    (letter :: others).flatMap ObjectId.bytes ++ (letter :: others).flatMap (fun _ =>
      [0, 0, 0, 0]) ++
    (letter :: others).flatMap (fun _ => [0, 0, 0, offset]) ++ List.replicate 40 0

/-- An id that no object of the packs has. -/
def stranger : ObjectId := .filled 255

/-- Nothing is outside of the packs. -/
def noBase : ExternalResolver := fun id => .error (objectNotFound id)

/-- The verification of a pack and an index finds nothing wrong. -/
def Accepted (pack idx : Bytes) (resolve : ExternalResolver) : Prop :=
  ∃ v, verifyPack Zlib.stored Hasher.sha pack idx .sha1 resolve = .ok v ∧ v.isOk = true

/-- An index of some ids in order, with their offsets. -/
def idx (rows : List (ObjectId × UInt8)) : Bytes :=
  idxMagic ++ [0, 0, 0, 2] ++
    (List.range 256).flatMap (fun n =>
      [0, 0, 0, UInt8.ofNat (rows.countP fun r => (r.1.bytes.headD 0).toNat ≤ n)]) ++
    rows.flatMap (·.1.bytes) ++ rows.flatMap (fun _ => [0, 0, 0, 0]) ++
    rows.flatMap (fun r => [0, 0, 0, r.2]) ++ List.replicate 40 0

/-- A blob of another letter, as a delta against the blob before it. -/
def nextEntry : Bytes :=
  0x64 :: UInt8.ofNat entry.length :: (Zlib.blockHeader 4 ++ [1, 1, 1, 121] ++
    Zlib.adler32 [1, 1, 1, 121])

/-- A pack of the two. -/
def lettersPack : Bytes :=
  packSignature ++ [0, 0, 0, 2, 0, 0, 0, 2] ++ entry ++ nextEntry ++ List.replicate 20 0

/-- Its index. -/
def lettersIdx : Bytes :=
  idx [(letter, 12), (hashObject Hasher.sha .sha1 .blob [121], 12 + UInt8.ofNat entry.length)]

/-- The index of two blobs verifies, and lists these two, each in the row it is found at. -/
theorem verify_letters : ∃ index objects, PackIndex.parse .sha1 lettersIdx = .ok index ∧
    explodePack Zlib.stored Hasher.sha lettersPack .sha1 noBase = .ok objects ∧
      2 = objects.length ∧ objects.length = index.count ∧
      (∀ o ∈ objects, ∃ row, index.positionOf o.1 = some row ∧ index.idAt row = some o.1) ∧
      (objects.map Prod.fst).Nodup ∧ ∀ row id, index.idAt row = some id ↔
        id ∈ objects.map Prod.fst ∧ index.positionOf id = some row := by
  have hruns : verifyPack Zlib.stored Hasher.sha lettersPack lettersIdx .sha1 noBase = .ok ⟨2, []⟩ ∧
      (explodePack Zlib.stored Hasher.sha lettersPack .sha1 noBase).map
        (fun objects => decide (objects.map Prod.fst).Nodup) = .ok true := by
    decide +kernel
  obtain ⟨index, objects, hindex, hobjects, hcount, hrows, hlisted, hexact⟩ :=
    verifyPack_sound hruns.1 rfl
  have hnodup : (objects.map Prod.fst).Nodup := by
    have hdecide := hruns.2
    rw [hobjects] at hdecide
    exact of_decide_eq_true (Except.ok.inj hdecide)
  exact ⟨index, objects, hindex, hobjects, hcount, hrows, hlisted, hnodup, hexact hnodup⟩

theorem explode_letterPack : explodePack Zlib.stored Hasher.sha (letterPack 1) .sha1 noBase =
    .ok [(letter, .blob, [120])] := by
  decide +kernel

/-- An index with a wrong offset verifies, and so does one that lists an id which the pack
does not have, where the pack has an object twice. -/
theorem accepted_wrongIndex :
    (¬∀ pack idx resolve index objects, Accepted pack idx resolve →
      PackIndex.parse .sha1 idx = .ok index →
      explodePack Zlib.stored Hasher.sha pack .sha1 resolve = .ok objects →
      OffsetsRight Zlib.stored Hasher.sha .sha1 resolve pack index objects) ∧
    (¬∀ pack idx resolve index objects, Accepted pack idx resolve →
      PackIndex.parse .sha1 idx = .ok index →
      explodePack Zlib.stored Hasher.sha pack .sha1 resolve = .ok objects →
        SameIds index objects) := by
  constructor
  · intro h
    have haccepted : Accepted (letterPack 1) (letterIdx [] 0) noBase :=
      ⟨⟨1, []⟩, by decide +kernel, rfl⟩
    obtain ⟨index, hindex⟩ := exists_ok
      (show (PackIndex.parse .sha1 (letterIdx [] 0)).toBool = true by decide +kernel)
    have hrow : (PackIndex.parse .sha1 (letterIdx [] 0)).toOption.bind (·.idAt 0) =
        some letter := by
      decide +kernel
    have hwrong : (PackIndex.parse .sha1 (letterIdx [] 0)).toOption.bind
        (·.offsetOf letter) = some 0 := by
      decide +kernel
    rw [hindex] at hrow hwrong
    obtain ⟨k, s, o, hrun, ho, -, hoffset⟩ :=
      h _ _ _ _ _ haccepted hindex explode_letterPack 0 letter hrow
    obtain rfl : k = 0 := Nat.lt_one_iff.mp (List.getElem?_eq_some_iff.mp ho).1
    cases hrun
    cases hoffset.symm.trans hwrong
  · intro h
    have haccepted : Accepted (letterPack 2) (letterIdx [stranger] 12) noBase :=
      ⟨⟨2, []⟩, by decide +kernel, rfl⟩
    obtain ⟨index, hindex⟩ := exists_ok
      (show (PackIndex.parse .sha1 (letterIdx [stranger] 12)).toBool = true by decide +kernel)
    obtain ⟨objects, hobjects⟩ := exists_ok
      (show (explodePack Zlib.stored Hasher.sha (letterPack 2) .sha1 noBase).toBool =
        true by decide +kernel)
    have hrow : (PackIndex.parse .sha1 (letterIdx [stranger] 12)).toOption.bind (·.idAt 1) =
        some stranger := by
      decide +kernel
    have hids : (explodePack Zlib.stored Hasher.sha (letterPack 2) .sha1 noBase).toOption.all
        (fun objects => !(objects.map Prod.fst).contains stranger) = true := by
      decide +kernel
    rw [hindex] at hrow
    rw [hobjects] at hids
    have hmem := (h _ _ _ _ _ haccepted hindex hobjects stranger).mp ⟨1, hrow⟩
    have hno : (!(objects.map Prod.fst).contains stranger) = true := hids
    rw [List.contains_iff_mem.mpr hmem] at hno
    cases hno

end VerifySample
end Puregit
