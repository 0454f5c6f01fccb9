import Puregit.Lib.Base128
import Puregit.Odb
import Puregit.Tree
import Mathlib.Data.List.Sort

/-! # The staging index

An index file is a header, the entries, extension blocks and a checksum.  An entry has
fixed fields, flags and a path: versions 2 and 3 write the whole path and pad the entry
to eight bytes, version 4 writes how much of the previous path to drop and what to
append.  An index that was parsed remembers its entries as they were in the file, and
keeps its extensions when it is written only if they are the same.
-/
namespace Puregit

/-- An entry of the index. -/
structure IndexEntry where
  ctime : UInt32 × UInt32
  mtime : UInt32 × UInt32
  dev : UInt32
  ino : UInt32
  mode : UInt32
  uid : UInt32
  gid : UInt32
  size : UInt32
  id : ObjectId
  stage : UInt8
  assumeValid : Bool
  extendedFlags : UInt16
  path : Bytes
  deriving DecidableEq

namespace IndexEntry

/-- The stat fields, in the order they are written. -/
def fields (e : IndexEntry) : List UInt32 :=
  [e.ctime.1, e.ctime.2, e.mtime.1, e.mtime.2, e.dev, e.ino, e.mode, e.uid, e.gid, e.size]

/-- What entries are sorted by. -/
def key (e : IndexEntry) : Lex (Bytes × UInt8) := toLex (e.path, e.stage)

end IndexEntry

/-- Whether every component of a path is safe. -/
def isSafeIndexPath (path : Bytes) : Bool :=
  !path.isEmpty && (path.splitOn slash).all isSafePathComponent

namespace Index

/-- The signature of an index file. -/
def signature : Bytes := bytes "DIRC"

/-! ## Reading -/

/-- The error of an entry that ends too early. -/
def truncatedEntry : Error := .parse (str "index: truncated entry")

/-- The error of a path that ends behind the file. -/
def pathPastEnd : Error := .parse (str "index: path past end")

/-- The number of bytes of a path dropped from the end of the previous one, and the bytes
that follow. -/
def readVarint (data : Bytes) : Except Error (Nat × Bytes) :=
  Base128.readChecked (.parse (str "index: truncated varint"))
    (.parse (str "index: varint overflow")) data

/-- Where a whole path that begins at `p` ends; a length of 0xfff stands for any length from
there on. -/
def nameEnd (nameLen : Nat) (data : Bytes) (p : Nat) : Except Error Nat :=
  if nameLen < 0xfff then .ok (p + nameLen)
  else match (data.drop p).findIdx? (· = 0) with
    | some i => .ok (p + i)
    | none => .error (.parse (str "index: unterminated long path"))

/-- The path of the entry at the front of `data`, which begins at `p`, and where the entry
ends; `nameLen` is the length in its flags. -/
def entryPath (version nameLen : Nat) (prevPath data : Bytes) (p : Nat) :
    Except Error (Bytes × Nat) :=
  if 4 ≤ version then do
    let (strip, left) ← readVarint (data.drop p)
    let p := p + ((data.drop p).length - left.length)
    if prevPath.length < strip then
      .error (.parse (str "index: v4 prefix longer than previous path"))
    else match (data.drop p).findIdx? (· = 0) with
      | none => .error (.parse (str "index: unterminated path"))
      | some nul =>
        .ok (prevPath.take (prevPath.length - strip) ++ slice data p nul, p + nul + 1)
  else do
    let nameEnd ← nameEnd nameLen data p
    if data.length < nameEnd then .error pathPastEnd
    else .ok (slice data p (nameEnd - p), (nameEnd + 1 + 7) / 8 * 8)

/-- The extended flags of the entry at the front of `data`, and where they end. -/
def extendedFlags (algo : HashAlgo) (version flags : Nat) (data : Bytes) :
    Except Error (Nat × Nat) :=
  let fixed := 40 + algo.rawLen + 2
  if flags / 2 ^ 14 % 2 = 1 then
    if version < 3 then .error (.parse (str "index: extended flag in v2 entry"))
    else if data.length < fixed + 2 then .error truncatedEntry
    else .ok (number data fixed 2, fixed + 2)
  else .ok (0, fixed)

/-- Parses the entry at the front of `data`; what follows it is left. -/
def parseEntry (algo : HashAlgo) (version : Nat) (prevPath data : Bytes) :
    Except Error (IndexEntry × Bytes) :=
  if data.length < 40 + algo.rawLen + 2 then .error truncatedEntry
  else do
    let f := fun i => UInt32.ofNat (number data (i * 4) 4)
    let id ← ObjectId.fromBytes algo (slice data 40 algo.rawLen)
    let flags := number data (40 + algo.rawLen) 2
    let (extended, p) ← extendedFlags algo version flags data
    let (path, next) ← entryPath version (flags % 2 ^ 12) prevPath data p
    if data.length < next then .error pathPastEnd
    else if isSafeIndexPath path = false then .error (.parse (str "index: unsafe entry path"))
    else .ok ({
      ctime := (f 0, f 1), mtime := (f 2, f 3), dev := f 4, ino := f 5, mode := f 6, uid := f 7
      gid := f 8, size := f 9, id := id, stage := UInt8.ofNat (flags / 2 ^ 12 % 4)
      assumeValid := flags / 2 ^ 15 % 2 = 1, extendedFlags := UInt16.ofNat extended, path := path },
      data.drop next)

/-- Parses `count` entries, the path before them being `prevPath`. -/
def parseEntries (algo : HashAlgo) (version : Nat) : Nat → Bytes → Bytes →
    Except Error (List IndexEntry × Bytes)
  | 0, _, data => .ok ([], data)
  | count + 1, prevPath, data => do
    let (e, rest) ← parseEntry algo version prevPath data
    let (es, rest) ← parseEntries algo version count e.path rest
    .ok (e :: es, rest)

/-- The extension blocks at the front of `data`, each with its signature; the first that is
not whole ends them.  `fuel` bounds their number. -/
def blocksUpTo : Nat → Bytes → List (Bytes × Bytes)
  | 0, _ => []
  | fuel + 1, data =>
    if data.length < 8 then []
    else
      let size := number data 4 4 + 8
      if data.length < size then []
      else (data.take 4, data.take size) :: blocksUpTo fuel (data.drop size)

/-- The extension blocks at the front of `data`: each takes eight bytes at least. -/
def extensionBlocks (data : Bytes) : List (Bytes × Bytes) := blocksUpTo data.length data

/-- No block says that entries are in another file. -/
def NoLink (data : Bytes) : Prop := ∀ b ∈ extensionBlocks data, b.1 ≠ bytes "link"

instance (data : Bytes) : Decidable (NoLink data) :=
  inferInstanceAs (Decidable (∀ b ∈ extensionBlocks data, _))

end Index

/-- An index.  The extensions and what was parsed are set by parsing only, which refuses a
split index. -/
structure Index where
  version : Nat
  algo : HashAlgo
  entries : List IndexEntry
  extensions : Bytes
  parsed : Option (Nat × Bytes)
  noLink : Index.NoLink extensions

namespace Index

theorem noLink_nil : NoLink [] := by decide

/-- An empty index. -/
def new (algo : HashAlgo) : Index := ⟨2, algo, [], [], none, noLink_nil⟩

/-- Parses an index file. -/
def parse (h : Hasher) (algo : HashAlgo) (data : Bytes) : Except Error Index :=
  if data.length < 12 + algo.rawLen then .error (.parse (str "index: file too short"))
  else
    let body := data.take (data.length - algo.rawLen)
    let stored := data.drop (data.length - algo.rawLen)
    -- a checksum of zeros was not computed
    if stored.any (· ≠ 0) && stored ≠ h.digest algo body then
      .error (.parse (str "index: checksum mismatch"))
    else if data.take 4 ≠ signature then .error (.parse (str "index: bad signature"))
    else
      let version := number data 4 4
      if version < 2 ∨ 4 < version then
        .error (.unsupported (str "index version " ++ natStr version ++
          str " (only 2, 3 and 4 are supported)"))
      else do
        let count := number data 8 4
        let (entries, rest) ← parseEntries algo version count [] (body.drop 12)
        if hlink : NoLink rest then
          .ok ⟨version, algo, entries, rest,
            some (version, (body.drop 12).take ((body.drop 12).length - rest.length)), hlink⟩
        else .error (.unsupported (str "index: split index (core.splitIndex) is not supported"))

theorem parseEntry_safe {algo : HashAlgo} {version : Nat} {prevPath data rest : Bytes}
    {e : IndexEntry} (h : parseEntry algo version prevPath data = .ok (e, rest)) :
    isSafeIndexPath e.path = true := by
  rw [parseEntry] at h
  split at h
  · cases h
  obtain ⟨id, -, h⟩ := except_bind_ok.mp h
  obtain ⟨⟨extended, p⟩, -, h⟩ := except_bind_ok.mp h
  obtain ⟨⟨path, next⟩, -, h⟩ := except_bind_ok.mp h
  simp only at h
  split at h
  · cases h
  split at h
  · cases h
  · next hsafe =>
    cases h
    simpa using hsafe

/-- **Every entry that is read has a safe path.** -/
theorem parse_safe {hasher : Hasher} {algo : HashAlgo} {data : Bytes} {idx : Index}
    (h : parse hasher algo data = .ok idx) : ∀ e ∈ idx.entries, isSafeIndexPath e.path = true := by
  have hentries : ∀ {version count : Nat} {prevPath data rest : Bytes} {es : List IndexEntry},
      parseEntries algo version count prevPath data = .ok (es, rest) →
        ∀ e ∈ es, isSafeIndexPath e.path = true := by
    intro version count
    induction count with
    | zero =>
      rintro prevPath data rest es ⟨⟩
      exact nofun
    | succ count ih =>
      intro prevPath data rest es hes
      obtain ⟨⟨e, rest₁⟩, hentry, hes⟩ := except_bind_ok.mp hes
      obtain ⟨⟨es', rest₂⟩, hmore, hes⟩ := except_bind_ok.mp hes
      cases hes
      exact List.forall_mem_cons.mpr ⟨parseEntry_safe hentry, ih hmore⟩
  rw [parse] at h
  split at h
  · cases h
  simp only at h
  split at h
  · cases h
  split at h
  · cases h
  split at h
  · cases h
  obtain ⟨⟨es, rest⟩, hes, h⟩ := except_bind_ok.mp h
  simp only at h
  split at h
  · cases h
    exact hentries hes
  · cases h

/-! ## Writing -/

/-- Whether the extended flags of an entry are written. -/
def Extended (version : Nat) (e : IndexEntry) : Prop := 3 ≤ version ∧ e.extendedFlags ≠ 0

instance (version : Nat) (e : IndexEntry) : Decidable (Extended version e) :=
  inferInstanceAs (Decidable (_ ∧ _))

/-- The flags of an entry: its parts take different bits. -/
def entryFlags (version : Nat) (e : IndexEntry) : Nat :=
  min e.path.length 0xfff + e.stage.toNat % 4 * 2 ^ 12 +
    (if Extended version e then 2 ^ 14 else 0) + (if e.assumeValid then 2 ^ 15 else 0)

/-- The length of the longest common prefix. -/
def commonLength : Bytes → Bytes → Nat
  | a :: as, b :: bs => if a = b then commonLength as bs + 1 else 0
  | _, _ => 0

/-- The fixed fields and the flags of an entry. -/
def entryHead (version : Nat) (e : IndexEntry) : Bytes :=
  e.fields.flatMap (fun x => Sha.bigEndian 4 x.toNat) ++ e.id.bytes ++
    Sha.bigEndian 2 (entryFlags version e) ++
    (if Extended version e then Sha.bigEndian 2 e.extendedFlags.toNat else [])

/-- An entry as it is written after one with the path `prevPath`. -/
def writeEntry (version : Nat) (prevPath : Bytes) (e : IndexEntry) : Bytes :=
  let head := entryHead version e
  if 4 ≤ version then
    let common := commonLength prevPath e.path
    head ++ Base128.biased (prevPath.length - common) ++ e.path.drop common ++ [0]
  else
    let unpadded := head ++ e.path ++ [0]
    unpadded ++ List.replicate ((unpadded.length + 7) / 8 * 8 - unpadded.length) 0

/-- Entries as they are written, the path before them being `prevPath`. -/
def writeEntries (version : Nat) : Bytes → List IndexEntry → Bytes
  | _, [] => []
  | prevPath, e :: es => writeEntry version prevPath e ++ writeEntries version e.path es

/-- The entries in the order they are written. -/
def sorted (idx : Index) : List IndexEntry := idx.entries.insertionSort fun a b => a.key ≤ b.key

/-- The version an index is written in: 2 and 3 differ by the extended flags. -/
def writtenVersion (idx : Index) : Nat :=
  if idx.version = 4 then 4
  else if idx.entries.any (fun e => e.extendedFlags ≠ 0) then 3
  else 2

/-- The entries as they are written. -/
def entryBlock (idx : Index) : Bytes := writeEntries idx.writtenVersion [] idx.sorted

/-- The resolve-undo blocks among the extensions. -/
def resolveUndo (data : Bytes) : Bytes :=
  ((extensionBlocks data).filter fun b => b.1 = bytes "REUC").flatMap Prod.snd

/-- The extensions that are written: all of them if the entries are as they were parsed. -/
def writtenExtensions (idx : Index) : Bytes :=
  if idx.parsed = some (idx.writtenVersion, idx.entryBlock) then idx.extensions
  else resolveUndo idx.extensions

/-- The bytes of an index file before its checksum. -/
def fileBody (version count : Nat) (block extensions : Bytes) : Bytes :=
  signature ++ Sha.bigEndian 4 version ++ Sha.bigEndian 4 count ++ block ++ extensions

/-- Appends the checksum. -/
def withChecksum (h : Hasher) (algo : HashAlgo) (body : Bytes) : Bytes := body ++ h.digest algo body

/-- Serializes an index. -/
def serialize (h : Hasher) (idx : Index) : Bytes :=
  withChecksum h idx.algo
    (fileBody idx.writtenVersion idx.sorted.length idx.entryBlock idx.writtenExtensions)

end Index
end Puregit
