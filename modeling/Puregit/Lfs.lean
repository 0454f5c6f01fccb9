import Puregit.Lib.Sha
import Puregit.Oid
import Puregit.Vfs

/-! # Large files

In place of a large file a small text is committed, a pointer: the digest of the content and its
size.  The contents are kept in a store of their own, `lfs/` in the git directory, under their
digests.  Which paths are meant is said by the attributes of the work tree.
-/
namespace Puregit

/-- The digest, in hex digits, and the size of a content. -/
structure Pointer where
  oid : Str
  size : Nat
  deriving DecidableEq

namespace Pointer

/-- The version of the format. -/
def versionUrl : Str := str "https://git-lfs.github.com/spec/v1"

/-- The largest size of a blob that may be a pointer. -/
def maxPointerLen : Nat := 1024

/-- The pointer of a content. -/
def forContent (content : Bytes) : Pointer :=
  ⟨(Sha.sha256 content).flatMap fun b =>
    [ObjectId.hexDigit (b.toNat / 16), ObjectId.hexDigit (b.toNat % 16)],
    content.length⟩

/-- The text of a pointer. -/
def serialize (p : Pointer) : Bytes :=
  toUtf8 (str "version " ++ versionUrl ++ str "\noid sha256:" ++ p.oid ++ str "\nsize " ++
    natStr p.size ++ ['\n'])

/-- Whether a blob looks like a pointer. -/
def isPointer (blob : Bytes) : Bool :=
  blob.length ≤ maxPointerLen &&
    (bytes "version https://git-lfs.github.com/spec/v1").isPrefixOf blob

/-- A lower-case hex digit. -/
def isLowerHex (c : Char) : Bool := ('0' ≤ c && c ≤ '9') || ('a' ≤ c && c ≤ 'f')

/-- The values of the keys read so far. -/
structure Fields where
  version : Option Str
  oid : Option Str
  size : Option Str

/-- Reads a line; a later line replaces an earlier one of the same key, and other keys are
ignored. -/
def line (f : Fields) (line : Str) : Except Error Fields :=
  if line = [] then .ok f
  else match splitOnce ' ' line with
    | none => .error (.parse (str "lfs pointer: malformed line"))
    | some (key, value) =>
      .ok (if key = str "version" then { f with version := some value }
        else if key = str "oid" then { f with oid := some value }
        else if key = str "size" then { f with size := some value }
        else f)

/-- Parses a pointer. -/
def parse (blob : Bytes) : Except Error Pointer :=
  if maxPointerLen < blob.length then .error (.parse (str "lfs pointer: too large"))
  else match fromUtf8 blob with
    | none => .error (.parse (str "lfs pointer: non-utf8"))
    | some text => do
      let f ← (lines text).foldlM line ⟨none, none, none⟩
      if f.version ≠ some versionUrl then
        .error (.parse (str "lfs pointer: wrong or missing version"))
      else match f.oid with
        | none => .error (.parse (str "lfs pointer: missing oid"))
        | some oid => match stripPrefix? (str "sha256:") oid with
          | none => .error (.parse (str "lfs pointer: oid is not sha256"))
          | some oid =>
            if oid.length ≠ 64 ∨ oid.all isLowerHex = false then
              .error (.parse (str "lfs pointer: invalid sha256 oid"))
            else match f.size with
              | none => .error (.parse (str "lfs pointer: missing size"))
              | some size => match parseU64 size with
                | none => .error (.parse (str "lfs pointer: invalid size"))
                | some size => .ok ⟨oid, size⟩

end Pointer

/-! ## The store -/

namespace LfsStore

/-- The error of an id that is no digest. -/
def badOid (oid : Str) : Error :=
  .invalidOid (str "lfs oid is not 64 lowercase hex chars: " ++ debugStr oid)

/-- Whether an id is a digest. -/
def validOid (oid : Str) : Bool := oid.length = 64 && oid.all Pointer.isLowerHex

/-- The file of an object, in the git directory. -/
def objectPath (oid : Str) : Str :=
  str "lfs/objects/" ++ oid.take 2 ++ '/' :: (oid.drop 2).take 2 ++ '/' :: oid

/-- Whether an object is in the store. -/
def contains (fs : GitDir) (oid : Str) : Bool := validOid oid && Vfs.pathExists fs (objectPath oid)

/-- Reads an object, verifying its digest. -/
def read (fs : GitDir) (oid : Str) : Except Error Bytes :=
  if validOid oid = false then .error (badOid oid)
  else if contains fs oid = false then .error (.notFound (.object oid))
  else do
    let content ← Vfs.read fs (objectPath oid)
    let actual := Pointer.forContent content
    if actual.oid ≠ oid then
      .error (.invalidOid (str "lfs object " ++ oid ++ str " hashes to " ++ actual.oid))
    else .ok content

/-- The content a blob stands for: of a pointer whose object is in the store the object, of anything
else the blob. -/
def smudge (fs : GitDir) (blob : Bytes) : Except Error Bytes :=
  if Pointer.isPointer blob then
    match Pointer.parse blob with
    | .ok pointer => if contains fs pointer.oid then read fs pointer.oid else .ok blob
    | .error _ => .ok blob
  else .ok blob

end LfsStore
end Puregit
