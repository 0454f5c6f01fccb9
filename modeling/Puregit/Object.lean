import Puregit.Tree

/-! # Commits, tags and the object model

A commit or a tag is a block of header lines, a blank line and a message.  A header
line that starts with a space continues the line before it.  The well-known headers
are read into fields, the first error in line order winning; a later line of the same
header replaces an earlier one, but for `parent`, which accumulates.
-/
namespace Puregit

/-- The object type of a keyword. -/
def ObjectType.fromStr (s : Str) : Except Error ObjectType :=
  if s = str "blob" then .ok .blob
  else if s = str "tree" then .ok .tree
  else if s = str "commit" then .ok .commit
  else if s = str "tag" then .ok .tag
  else .error (.parse (str "unknown object type " ++ debugStr s))

/-- A `name <email> <unix-seconds> <tz>` stamp. -/
structure Signature where
  name : Bytes
  email : Bytes
  time : Int
  tz : Bytes
  deriving DecidableEq

namespace Signature

/-- Parses a signature line. -/
def parse (line : Bytes) : Except Error Signature :=
  match line.idxOf? 60, line.idxOf? 62 with
  | none, _ => .error (.parse (str "signature: missing '<'"))
  | some _, none => .error (.parse (str "signature: missing '>'"))
  | some lt, some gt =>
    if gt < lt then .error (.parse (str "signature: '>' before '<'"))
    else
      let name := ((line.take lt).reverse.dropWhile (· == 32)).reverse
      let email := (line.take gt).drop (lt + 1)
      match splitOnce 32 ((line.drop (gt + 1)).dropWhile (· == 32)) with
      | none => .error (.parse (str "signature: missing time/tz separator"))
      | some (secs, tz) =>
        match (fromUtf8 secs).bind parseI64 with
        | none => .error (.parse (str "signature: invalid timestamp"))
        | some time => .ok ⟨name, email, time, tz⟩

/-- The canonical form of a stamp. -/
def serialize (s : Signature) : Bytes :=
  let secs : Str := match s.time with
    | .ofNat n => natStr n
    | .negSucc n => '-' :: natStr (n + 1)
  s.name ++ bytes " <" ++ s.email ++ bytes "> " ++ toUtf8 secs ++ 32 :: s.tz

end Signature

/-- The parts of a payload before and after its first blank line. -/
def splitBlankLine : Bytes → Option (Bytes × Bytes)
  | 10 :: 10 :: r => some ([], r)
  | b :: r => (splitBlankLine r).map fun p => (b :: p.1, p.2)
  | [] => none

/-- The logical lines of a header block; `acc` is the line so far, last byte first. -/
def headerLines (acc : Bytes) : Bytes → List Bytes
  | [] => if acc.isEmpty then [] else [acc.reverse]
  | b :: r =>
      -- a newline before a space belongs to a continued line
      if b = 10 ∧ r.head? ≠ some 32 then acc.reverse :: headerLines [] r
      else headerLines (b :: acc) r

/-- A commit object. -/
structure Commit where
  tree : ObjectId
  parents : List ObjectId
  author : Signature
  committer : Signature
  extraHeaders : Bytes
  message : Bytes
  deriving DecidableEq

namespace Commit

/-- The header fields read so far. -/
structure Header where
  tree : Option ObjectId
  parents : List ObjectId
  author : Option Signature
  committer : Option Signature
  extra : Bytes

/-- Parses an id in a header line. -/
def parseHexOid (algo : HashAlgo) (v : Bytes) : Except Error ObjectId :=
  match fromUtf8 v with
  | none => .error (.parse (str "commit: non-utf8 oid"))
  | some s => ObjectId.fromHex algo (trim s)

/-- Reads one logical header line. -/
def headerLine (algo : HashAlgo) (h : Header) (line : Bytes) : Except Error Header :=
  match stripPrefix? (bytes "tree ") line with
  | some v => (parseHexOid algo v).map fun id => { h with tree := some id }
  | none =>
    match stripPrefix? (bytes "parent ") line with
    | some v => (parseHexOid algo v).map fun id => { h with parents := h.parents ++ [id] }
    | none =>
      match stripPrefix? (bytes "author ") line with
      | some v => (Signature.parse v).map fun s => { h with author := some s }
      | none =>
        match stripPrefix? (bytes "committer ") line with
        | some v => (Signature.parse v).map fun s => { h with committer := some s }
        | none => .ok { h with extra := h.extra ++ line ++ [10] }

/-- The commit of a header block and a message. -/
def ofHeader (h : Header) (message : Bytes) : Except Error Commit :=
  match h.tree, h.author, h.committer with
  | none, _, _ => .error (.parse (str "commit: missing tree"))
  | some _, none, _ => .error (.parse (str "commit: missing author"))
  | some _, some _, none => .error (.parse (str "commit: missing committer"))
  | some tree, some author, some committer =>
      .ok ⟨tree, h.parents, author, committer, h.extra, message⟩

/-- Parses a commit payload. -/
def parse (algo : HashAlgo) (payload : Bytes) : Except Error Commit :=
  match splitBlankLine payload with
  | none => .error (.parse (str "commit: missing blank line before message"))
  | some (header, message) =>
    match (headerLines [] header).foldlM (headerLine algo) ⟨none, [], none, none, []⟩ with
    | .error e => .error e
    | .ok h => ofHeader h message

/-- Serializes the commit. -/
def serialize (c : Commit) : Bytes :=
  bytes "tree " ++ toUtf8 c.tree.toHex ++ [10]
    ++ c.parents.flatMap (fun p => bytes "parent " ++ toUtf8 p.toHex ++ [10])
    ++ bytes "author " ++ c.author.serialize ++ [10]
    ++ bytes "committer " ++ c.committer.serialize ++ [10]
    ++ c.extraHeaders ++ [10] ++ c.message

end Commit

/-- An annotated tag. -/
structure Tag where
  object : ObjectId
  objectType : ObjectType
  name : Bytes
  tagger : Option Signature
  message : Bytes
  deriving DecidableEq

namespace Tag

/-- The header fields read so far. -/
structure Header where
  object : Option ObjectId
  objectType : Option ObjectType
  name : Option Bytes
  tagger : Option Signature

/-- Reads one header line; an unknown one is skipped. -/
def headerLine (algo : HashAlgo) (h : Header) (line : Bytes) : Except Error Header :=
  match stripPrefix? (bytes "object ") line with
  | some v =>
    match fromUtf8 v with
    | none => .error (.parse (str "tag: non-utf8 oid"))
    | some s => (ObjectId.fromHex algo (trim s)).map fun id => { h with object := some id }
  | none =>
    match stripPrefix? (bytes "type ") line with
    | some v =>
      match fromUtf8 v with
      | none => .error (.parse (str "tag: non-utf8 type"))
      | some s => (ObjectType.fromStr (trim s)).map fun ty => { h with objectType := some ty }
    | none =>
      match stripPrefix? (bytes "tag ") line with
      | some v => .ok { h with name := some v }
      | none =>
        match stripPrefix? (bytes "tagger ") line with
        | some v => (Signature.parse v).map fun s => { h with tagger := some s }
        | none => .ok h

/-- The tag of a header block and a message. -/
def ofHeader (h : Header) (message : Bytes) : Except Error Tag :=
  match h.object, h.objectType, h.name with
  | none, _, _ => .error (.parse (str "tag: missing object"))
  | some _, none, _ => .error (.parse (str "tag: missing type"))
  | some _, some _, none => .error (.parse (str "tag: missing tag name"))
  | some object, some ty, some name => .ok ⟨object, ty, name, h.tagger, message⟩

/-- Parses a tag payload. -/
def parse (algo : HashAlgo) (payload : Bytes) : Except Error Tag :=
  match splitBlankLine payload with
  | none => .error (.parse (str "tag: missing blank line before message"))
  | some (header, message) =>
    match (header.splitOn 10).foldlM (headerLine algo) ⟨none, none, none, none⟩ with
    | .error e => .error e
    | .ok h => ofHeader h message

/-- Serializes the tag. -/
def serialize (t : Tag) : Bytes :=
  bytes "object " ++ toUtf8 t.object.toHex ++ [10]
    ++ bytes "type " ++ toUtf8 t.objectType.asStr ++ [10]
    ++ bytes "tag " ++ t.name ++ [10]
    ++ (match t.tagger with
      | some s => bytes "tagger " ++ s.serialize ++ [10]
      | none => [])
    ++ [10] ++ t.message

end Tag

/-- A parsed git object. -/
inductive Object where
  | blob (content : Bytes)
  | tree (t : Tree)
  | commit (c : Commit)
  | tag (t : Tag)
  deriving DecidableEq

namespace Object

/-- The object's type. -/
def objectType : Object → ObjectType
  | blob _ => .blob
  | tree _ => .tree
  | commit _ => .commit
  | tag _ => .tag

/-- Decodes an object of a type from its payload. -/
def parse (algo : HashAlgo) (ty : ObjectType) (payload : Bytes) : Except Error Object :=
  match ty with
  | .blob => .ok (blob payload)
  | .tree => (Tree.parse algo payload).map tree
  | .commit => (Commit.parse algo payload).map commit
  | .tag => (Tag.parse algo payload).map tag

/-- Serializes the object back to its payload. -/
def payload : Object → Bytes
  | blob b => b
  | tree t => t.serialize
  | commit c => c.serialize
  | tag t => t.serialize

/-- What is decoded has the type it was decoded as. -/
theorem objectType_parse {algo : HashAlgo} {ty : ObjectType} {payload : Bytes} {o : Object}
    (h : parse algo ty payload = .ok o) : o.objectType = ty := by
  cases ty with
  | blob => cases h; rfl
  | tree | commit | tag =>
      obtain ⟨a, -, rfl⟩ := except_map_ok.mp h
      rfl

end Object

namespace ObjectDatabase
variable {D : Type} [ObjectDatabase D]

/-- Reads and parses an object. -/
def readObject (odb : D) (id : ObjectId) : Except Error Object := do
  let (ty, payload) ← read odb id
  Object.parse (algo odb) ty payload

theorem readTyped_ok {odb : D} {id : ObjectId} {ty : ObjectType} {payload : Bytes} :
    readTyped odb id ty = .ok payload ↔ read odb id = .ok (ty, payload) := by
  rw [readTyped]
  cases hr : read odb id with
  | error e => simp [bind, Except.bind]
  | ok r =>
      obtain ⟨ty', payload'⟩ := r
      by_cases hty : ty' = ty
      · subst hty
        simp [bind, Except.bind]
      · simp [bind, Except.bind, hty]

end ObjectDatabase
end Puregit
