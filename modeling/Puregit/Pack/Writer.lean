import Puregit.Pack.Reader

/-! # Writing packfiles

A `PackWriter` collects objects by id.  `finish` writes them one after the other, each
as a delta where some base makes that shorter than the object itself: one of the last
whole objects of its type in the pack, named by distance, or one of the objects the
receiver has, named by id.  A delta is not used as a base.
-/
namespace Puregit

/-- An object queued for a pack. -/
structure PackEntry where
  id : ObjectId
  ty : ObjectType
  payload : Bytes
  deriving DecidableEq

/-- The objects queued for a pack, and those the receiver has, offered as delta bases. -/
structure PackWriter where
  hasher : Hasher
  algo : HashAlgo
  entries : List PackEntry
  externalBases : List PackEntry

namespace PackWriter

/-- An empty writer. -/
def new (hasher : Hasher) (algo : HashAlgo) : PackWriter := ⟨hasher, algo, [], []⟩

/-- Queues an object under an id, unless one of that id is queued. -/
def addEntry (entries : List PackEntry) (e : PackEntry) : List PackEntry :=
  if entries.any (·.id == e.id) then entries else entries ++ [e]

/-- Adds an object. -/
def add (w : PackWriter) (ty : ObjectType) (payload : Bytes) : PackWriter :=
  { w with entries := addEntry w.entries ⟨hashObject w.hasher w.algo ty payload, ty, payload⟩ }

/-- Registers an object the receiver already has. -/
def addExternalBase (w : PackWriter) (ty : ObjectType) (payload : Bytes) : PackWriter :=
  { w with externalBases :=
            addEntry w.externalBases ⟨hashObject w.hasher w.algo ty payload, ty, payload⟩ }

theorem mem_addEntry {entries : List PackEntry} {e x : PackEntry} (h : x ∈ addEntry entries e) :
    x ∈ entries ∨ x = e := by
  rw [addEntry] at h
  split at h
  · exact Or.inl h
  · exact (List.mem_append.mp h).imp_right List.mem_singleton.mp

theorem mem_addEntry_of_mem {entries : List PackEntry} {e x : PackEntry} (h : x ∈ entries) :
    x ∈ addEntry entries e := by
  rw [addEntry]
  split
  · exact h
  · exact List.mem_append_left _ h

/-- After an object is queued there is one of its id. -/
theorem exists_mem_addEntry (entries : List PackEntry) (e : PackEntry) :
    ∃ x ∈ addEntry entries e, x.id = e.id := by
  rw [addEntry]
  split
  · rename_i hany
    obtain ⟨x, hx, hid⟩ := List.any_eq_true.mp hany
    exact ⟨x, hx, beq_iff_eq.mp hid⟩
  · exact ⟨e, List.mem_append_right _ (List.mem_singleton.mpr rfl), rfl⟩

/-! ## Choosing an encoding -/

/-- How many external bases of a matching type are tried for an object. -/
def externalBaseWindow : Nat := 16

/-- The size above which an object is neither deltified nor used as a base. -/
def maxDeltaSize : Nat := 2 ^ 20

/-- How many of the last bases in the pack are tried for an object. -/
def deltaWindow : Nat := 10

/-- A whole object of the pack, a base for what follows. -/
structure BaseCand where
  ty : ObjectType
  offset : Nat
  payload : Bytes

/-- How an entry names the base of its delta. -/
inductive BaseRef where
  | ofs (distance : Nat)
  | ref (id : ObjectId)

namespace BaseRef

/-- The bytes that name a base. -/
def bytes : BaseRef → Bytes
  | ofs distance => Base128.biased distance
  | ref id => id.bytes

/-- The type tag of the entry. -/
def tag : BaseRef → Nat
  | ofs _ => 6
  | ref _ => 7

end BaseRef

/-- A base to try for an object. -/
structure Candidate where
  base : Bytes
  name : BaseRef

/-- A delta against a candidate, deflated. -/
structure Encoding where
  cand : Candidate
  zdelta : Bytes
  deltaLen : Nat

/-- The bytes a delta takes, its entry header apart. -/
def Encoding.cost (b : Encoding) : Nat := b.zdelta.length + b.cand.name.bytes.length

/-- Whether a delta is shorter than the whole object and than the best delta so far. -/
def better (raw : Bytes) (b : Encoding) (best : Option Encoding) : Bool :=
  b.cost < raw.length && best.all fun c => b.cost < c.cost

/-- The deflated delta of an object against a candidate. -/
def encode (z : Zlib) (payload : Bytes) (c : Candidate) : Except Error Encoding :=
  let delta := createDelta c.base payload
  (z.deflate delta).map fun zdelta => ⟨c, zdelta, delta.length⟩

/-- Tries candidates in turn. -/
def consider (z : Zlib) (raw payload : Bytes) :
    List Candidate → Option Encoding → Except Error (Option Encoding)
  | [], best => .ok best
  | c :: cs, best => do
    let b ← encode z payload c
    consider z raw payload cs (if better raw b best then some b else best)

/-- The last whole objects of a type, by their distance from `offset`. -/
def ofsCandidates (bases : List BaseCand) (ty : ObjectType) (offset : Nat) : List Candidate :=
  ((bases.reverse.filter (·.ty = ty)).take deltaWindow).filterMap fun c =>
    if maxDeltaSize < c.payload.length then none
    else some ⟨c.payload, .ofs (offset - c.offset)⟩

/-- The external bases tried for an object of a type. -/
def externalWindow (externalBases : List PackEntry) (ty : ObjectType) : List PackEntry :=
  (externalBases.filter fun b => b.ty = ty && b.payload.length ≤ maxDeltaSize).take
    externalBaseWindow

/-- The candidates for an object of a type at an offset. -/
def candidates (w : PackWriter) (bases : List BaseCand) (ty : ObjectType) (offset : Nat) :
    List Candidate :=
  ofsCandidates bases ty offset ++
    (externalWindow w.externalBases ty).map fun b => ⟨b.payload, .ref b.id⟩

/-- The delta an object is written as, if one is shorter than the object. -/
def choose (z : Zlib) (w : PackWriter) (bases : List BaseCand) (offset : Nat) (e : PackEntry)
    (raw : Bytes) : Except Error (Option Encoding) :=
  if e.payload.length ≤ maxDeltaSize then
    consider z raw e.payload (w.candidates bases e.ty offset) none
  else .ok none

/-! ## The pack -/

/-- The type tag of a whole object. -/
def packTag : ObjectType → Nat
  | .commit => 1
  | .tree => 2
  | .blob => 3
  | .tag => 4

/-- The header of an entry: its type tag and uncompressed size. -/
def entryHeader (tag size : Nat) : Bytes :=
  if size / 16 = 0 then [UInt8.ofNat (tag * 16 + size % 16)]
  else UInt8.ofNat (128 + tag * 16 + size % 16) :: Base128.groups (size / 16)

/-- One step of the checksum. -/
def crcBit (crc : Nat) : Nat := if crc % 2 = 1 then crc / 2 ^^^ 0xedb88320 else crc / 2

/-- The CRC-32 of an entry. -/
def crc32 (data : Bytes) : Nat :=
  0xffffffff ^^^ data.foldl (fun crc b => crcBit^[8] (crc ^^^ b.toNat)) 0xffffffff

/-- The pack so far: its bytes, its whole objects, and the offset and checksum of each of its
entries. -/
structure Written where
  pack : Bytes
  bases : List BaseCand
  index : List (ObjectId × Nat × Nat)

/-- Writes an object. -/
def writeObject (z : Zlib) (w : PackWriter) (s : Written) (e : PackEntry) :
    Except Error Written := do
  let raw ← z.deflate e.payload
  let best ← w.choose z s.bases s.pack.length e raw
  match best with
  | some b =>
    let entry := entryHeader b.cand.name.tag b.deltaLen ++ (b.cand.name.bytes ++ b.zdelta)
    .ok ⟨s.pack ++ entry, s.bases, s.index ++ [(e.id, s.pack.length, crc32 entry)]⟩
  | none =>
    let entry := entryHeader (packTag e.ty) e.payload.length ++ raw
    .ok ⟨s.pack ++ entry, s.bases ++ [⟨e.ty, s.pack.length, e.payload⟩],
      s.index ++ [(e.id, s.pack.length, crc32 entry)]⟩

/-- The header of a pack of `count` objects. -/
def packHeader (count : Nat) : Bytes :=
  packSignature ++ (Sha.bigEndian 4 2 ++ Sha.bigEndian 4 (count % 2 ^ 32))

/-- The offset of an entry in the index, and the table of those that do not fit in 31 bits. -/
def indexOffsets : List Nat → Nat → Bytes × List Nat
  | [], _ => ([], [])
  | offset :: offsets, large =>
    if offset < 0x80000000 then
      let (bytes, table) := indexOffsets offsets large
      (Sha.bigEndian 4 offset ++ bytes, table)
    else
      let (bytes, table) := indexOffsets offsets (large + 1)
      (Sha.bigEndian 4 (0x80000000 ||| large % 2 ^ 32) ++ bytes, offset :: table)

/-- The index of a pack. -/
def buildIndex (hasher : Hasher) (algo : HashAlgo) (index : List (ObjectId × Nat × Nat))
    (packHash : Bytes) : Bytes :=
  let index := index.mergeSort fun a b => decide (a.1.bytes ≤ b.1.bytes)
  let fanout := (List.range 256).flatMap fun n =>
    Sha.bigEndian 4 (index.countP fun m => (m.1.bytes.headD 0).toNat ≤ n)
  let (offsets, table) := indexOffsets (index.map (·.2.1)) 0
  let idx := [0xff, 0x74, 0x4f, 0x63] ++ Sha.bigEndian 4 2 ++ fanout ++
    index.flatMap (·.1.bytes) ++ index.flatMap (fun m => Sha.bigEndian 4 m.2.2) ++ offsets ++
    table.flatMap (Sha.bigEndian 8) ++ packHash
  idx ++ hasher.digest algo idx

/-- A pack, its index, and the name the two share. -/
structure PackOutput where
  pack : Bytes
  idx : Bytes
  hash : ObjectId

/-- The pack before its first entry. -/
def start (w : PackWriter) : Written := ⟨packHeader w.entries.length, [], []⟩

/-- Writes the queued objects. -/
def finish (z : Zlib) (w : PackWriter) : Except Error PackOutput := do
  let s ← w.entries.foldlM (w.writeObject z) w.start
  let packHash := w.hasher.digest w.algo s.pack
  .ok {
    pack := s.pack ++ packHash
    idx := buildIndex w.hasher w.algo s.index packHash
    hash := ⟨w.algo, packHash, w.hasher.digest_length w.algo s.pack⟩ }

end PackWriter
end Puregit
