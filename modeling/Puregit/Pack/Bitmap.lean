import Puregit.Lib.UnstableSort
import Puregit.Graph
import Puregit.Pack.Ewah
import Puregit.Pack.Index

/-! # Reachability bitmaps

A bitmap file says what commits of a pack reach.  Two numberings of the objects are in it: a
bit stands for the object's position in the pack, by offset, but an entry names its commit by
the row of the index, which is sorted by id.  The reverse index, a second file, gives the row
of each position.

Both writers sort the rows by offset with a sort that is not stable.  The files are read back
by their layout; the program itself has no reader for them.
-/
namespace Puregit
open ObjectDatabase

/-- The magic number of a bitmap file. -/
def bitmapMagic : Bytes := [0x42, 0x49, 0x54, 0x4d]

/-- The magic number of a reverse index. -/
def revIndexMagic : Bytes := [0x52, 0x49, 0x44, 0x58]

/-- The version of a bitmap file. -/
def bitmapVersion : Nat := 1

/-- The bitmaps span the pack's whole history. -/
def flagFullDag : Nat := 1

/-- The number of a hash algorithm in a reverse index. -/
def hashId : HashAlgo → Nat
  | .sha1 => 1
  | .sha256 => 2

section Order
variable {α : Type}

/-- The offsets of an index with what `value` gives for their rows, in pack order. -/
def byOffset (s : UnstableSort) (idx : PackIndex) (value : Nat → Option α) (message : Str) :
    Except Error (List (Nat × α)) :=
  let rows := (List.range idx.count).filterMap fun row =>
    (idx.offsetAt row).bind fun off => (value row).map fun v => (off, v)
  if rows.length ≠ idx.count then .error (.pack message) else .ok (s.sortByKey Prod.fst rows)

end Order

/-- A bitmap of `set`, of as many bits as its last member needs. -/
def typeBitmap (set : List Nat) : Ewah := Ewah.fromSetBits set (set.getLast?.elim 0 (· + 1))

/-- The positions that have a type. -/
def positionsOf (types : List ObjectType) (ty : ObjectType) : List Nat :=
  types.zipIdx.filterMap fun (t, pos) => if t = ty then some pos else none

/-- The order of the type bitmaps. -/
def bitmapTypes : List ObjectType := [.commit, .tree, .blob, .tag]

variable {D : Type} [ObjectDatabase D]

/-- The entry of a commit, whose row is given: the positions of what it reaches. -/
def bitmapEntry (s : UnstableSort) (odb : D) (position : BTreeMap ObjectId Nat)
    (entry : Nat × ObjectId) : Except Error Bytes := do
  let reachable ← reachableObjects odb [entry.2]
  let positions := s.sortByKey id (reachable.toList.filterMap position.get?)
  .ok (Sha.bigEndian 4 entry.1 ++ [0, 0] ++ (typeBitmap positions).toBytes)

/-- Writes the bitmap file of `commits` over the pack of an index. -/
def writeBitmap (s : UnstableSort) (h : Hasher) (odb : D) (idx : PackIndex) (packHash : ObjectId)
    (commits : List ObjectId) : Except Error Bytes := do
  let order ← byOffset s idx idx.idAt (str "bitmap: idx row out of range")
  let position := BTreeMap.ofList (order.zipIdx.map fun (e, pos) => (e.2, pos))
  let idxRow := BTreeMap.ofList
    ((List.range idx.count).filterMap fun row => (idx.idAt row).map fun id => (id, row))
  let types ← order.mapM fun e => (read odb e.2).map Prod.fst
  let entries := commits.filterMap fun c => (idxRow.get? c).map fun row => (row, c)
  let chunks ← (s.sortByKey Prod.fst entries).mapM (bitmapEntry s odb position)
  let out := bitmapMagic ++ Sha.bigEndian 2 bitmapVersion ++ Sha.bigEndian 2 flagFullDag ++
    Sha.bigEndian 4 commits.length ++ packHash.bytes ++
    bitmapTypes.flatMap (fun ty => (typeBitmap (positionsOf types ty)).toBytes) ++ chunks.flatten
  .ok (out ++ h.digest (algo odb) out)

/-- Writes the reverse index of a pack: the row of each position. -/
def writeReverseIndex (s : UnstableSort) (h : Hasher) (idx : PackIndex) (packHash : ObjectId) :
    Except Error Bytes := do
  let order ← byOffset s idx some (str "rev-index: idx row out of range")
  let out := revIndexMagic ++ Sha.bigEndian 4 1 ++ Sha.bigEndian 4 (hashId idx.algo) ++
    order.flatMap (fun e => Sha.bigEndian 4 e.2) ++ packHash.bytes
  .ok (out ++ h.digest idx.algo out)

/-! ## Reading the files back -/

/-- What comes before a right checksum. -/
def unsealed (h : Hasher) (algo : HashAlgo) (data : Bytes) : Option Bytes :=
  let body := data.take (data.length - algo.rawLen)
  if data.drop body.length = h.digest algo body then some body else none

/-- The entry of a commit: its row, and what it reaches. -/
structure BitmapEntry where
  row : Nat
  xorOffset : Nat
  flags : Nat
  bits : Ewah

/-- A bitmap file. -/
structure BitmapFile where
  version : Nat
  flags : Nat
  entryCount : Nat
  packHash : Bytes
  types : ObjectType → Ewah
  entries : List BitmapEntry

/-- The bitmap at the front of `data`, and what follows it. -/
def readEwah (data : Bytes) : Option (Ewah × Bytes) :=
  (Ewah.fromBytes data).toOption.map fun (e, n) => (e, data.drop n)

/-- The entry at the front of `data`, and what follows it. -/
def readBitmapEntry (data : Bytes) : Option (BitmapEntry × Bytes) := do
  let (bits, rest) ← readEwah (data.drop 6)
  some (⟨number data 0 4, number data 4 1, number data 5 1, bits⟩, rest)

/-- The entries that make up `data`; each takes 18 bytes at least. -/
def readBitmapEntries : Nat → Bytes → Option (List BitmapEntry)
  | _, [] => some []
  | 0, _ :: _ => none
  | fuel + 1, data => do
    let (e, rest) ← readBitmapEntry data
    let es ← readBitmapEntries fuel rest
    some (e :: es)

/-- Reads a bitmap file; `algo` is that of its checksum, `packAlgo` that of the pack's. -/
def readBitmap (h : Hasher) (algo packAlgo : HashAlgo) (data : Bytes) : Option BitmapFile := do
  let body ← unsealed h algo data
  if body.take 4 ≠ bitmapMagic then none
  else
    let (commits, rest) ← readEwah (body.drop (12 + packAlgo.rawLen))
    let (trees, rest) ← readEwah rest
    let (blobs, rest) ← readEwah rest
    let (tags, rest) ← readEwah rest
    let entries ← readBitmapEntries rest.length rest
    some {
      version := number body 4 2
      flags := number body 6 2
      entryCount := number body 8 4
      packHash := slice body 12 packAlgo.rawLen
      types := fun
        | .commit => commits
        | .tree => trees
        | .blob => blobs
        | .tag => tags
      entries := entries }

/-- Reads a reverse index of `count` positions. -/
def readReverseIndex (h : Hasher) (algo : HashAlgo) (count : Nat) (data : Bytes) :
    Option (List Nat) := do
  let body ← unsealed h algo data
  if body.take 4 ≠ revIndexMagic ∨ number body 4 4 ≠ 1 ∨ body.length < 12 + count * 4 then none
  else some ((List.range count).map fun pos => number body (12 + pos * 4) 4)

end Puregit
