import Puregit.Odb
import Mathlib.Data.List.Sort
import Mathlib.Order.Lattice

/-! # Tree objects

A tree is a list of entries, each a mode, a name and the id of what it names.  The
encoding of an entry is `<mode> SP <name> NUL <raw id>`.  `Tree.parse` accepts only
names that are single path components, `Tree.parse_names`; `Tree.serialize` writes
the entries in git's order, in which a subtree's name counts as ending in a slash.
-/
namespace Puregit

/-- The byte `/`. -/
def slash : UInt8 := 47

/-- A file mode in a tree entry. -/
inductive FileMode where
  | tree
  | regular
  | executable
  | symlink
  | gitlink
  deriving DecidableEq, Repr

namespace FileMode

/-- The octal form written in a tree, with no leading zero. -/
def asOctal : FileMode → Bytes
  | tree => bytes "40000"
  | regular => bytes "100644"
  | executable => bytes "100755"
  | symlink => bytes "120000"
  | gitlink => bytes "160000"

/-- The message of an octal form that is none of the five modes. -/
def unknownModeMsg (s : Bytes) : Str :=
  str "tree: unknown file mode " ++ debugStr ((fromUtf8 s).getD (str "<non-utf8>"))

/-- Parses the octal form of a mode. -/
def fromOctal (s : Bytes) : Except Error FileMode :=
  if s = bytes "40000" ∨ s = bytes "040000" then .ok tree
  else if s = bytes "100644" then .ok regular
  else if s = bytes "100755" then .ok executable
  else if s = bytes "120000" then .ok symlink
  else if s = bytes "160000" then .ok gitlink
  else .error (.parse (unknownModeMsg s))

/-- Whether the entry names a subtree. -/
def isTree (m : FileMode) : Bool := m == tree

/-- Maps a raw index mode to a tree mode; an unknown file type is refused. -/
def fromModeBits (mode : Nat) : Except Error FileMode :=
  let fmt := mode &&& 0o170000
  if fmt = 0o040000 then .ok tree
  else if fmt = 0o120000 then .ok symlink
  else if fmt = 0o160000 then .ok gitlink
  else if fmt = 0o100000 then
    if mode &&& 0o111 ≠ 0 then .ok executable else .ok regular
  else .error (.parse (str "tree: unrepresentable mode " ++ Nat.toDigits 8 mode))

/-- Every mode's octal form parses back to it. -/
theorem fromOctal_asOctal (m : FileMode) : fromOctal m.asOctal = .ok m := by
  cases m <;> decide

end FileMode

/-- One entry of a tree. -/
structure TreeEntry where
  mode : FileMode
  name : Bytes
  id : ObjectId
  deriving DecidableEq

/-- The name an entry sorts by: a subtree's ends in a slash. -/
def effectiveName (e : TreeEntry) : Bytes :=
  if e.mode.isTree then e.name ++ [slash] else e.name

/-- A tree object. -/
structure Tree where
  entries : List TreeEntry
  deriving DecidableEq

namespace Tree

/-- Whether a name is a single path component: neither empty nor with a slash or NUL. -/
def isComponent (name : Bytes) : Bool :=
  !(name.isEmpty || name.contains slash || name.contains 0)

/-- Parses the entries of a payload in turn. -/
def parseEntries (algo : HashAlgo) (payload : Bytes) : Except Error (List TreeEntry) :=
  if payload = [] then .ok []
  else match _h : splitOnce 32 payload with
    | none => .error (.parse (str "tree: entry missing mode separator"))
    | some (octal, rest) =>
      match FileMode.fromOctal octal with
      | .error e => .error e
      | .ok mode =>
        match _h' : splitOnce 0 rest with
        | none => .error (.parse (str "tree: entry missing name terminator"))
        | some (name, afterName) =>
          if isComponent name = false then
            .error (.parse (str "tree: entry name is not a single path component"))
          else if afterName.length < algo.rawLen then
            .error (.parse (str "tree: truncated entry id"))
          else
            match ObjectId.fromBytes algo (afterName.take algo.rawLen) with
            | .error e => .error e
            | .ok id =>
              match parseEntries algo (afterName.drop algo.rawLen) with
              | .error e => .error e
              | .ok es => .ok (⟨mode, name, id⟩ :: es)
termination_by payload.length
decreasing_by
  obtain ⟨rfl, -⟩ := splitOnce_eq_some.mp _h
  obtain ⟨rfl, -⟩ := splitOnce_eq_some.mp _h'
  simp only [List.length_append, List.length_cons, List.length_drop]
  omega

/-- Parses a tree payload. -/
def parse (algo : HashAlgo) (payload : Bytes) : Except Error Tree :=
  (parseEntries algo payload).map Tree.mk

/-- The bytes of one entry. -/
def entryBytes (e : TreeEntry) : Bytes :=
  e.mode.asOctal ++ 32 :: e.name ++ 0 :: e.id.bytes

/-- Serializes the tree, its entries stably sorted by effective name. -/
def serialize (t : Tree) : Bytes :=
  (t.entries.insertionSort (fun a b => effectiveName a ≤ effectiveName b)).flatMap entryBytes

/-- Finds an entry by name. -/
def get (t : Tree) (name : Bytes) : Option TreeEntry := t.entries.find? (·.name == name)

/-- No two entries have the same name. -/
def DistinctNames (t : Tree) : Prop := (t.entries.map TreeEntry.name).Nodup

instance (t : Tree) : Decidable t.DistinctNames := inferInstanceAs (Decidable (List.Nodup _))

theorem isComponent_iff {name : Bytes} :
    isComponent name = true ↔ name ≠ [] ∧ slash ∉ name ∧ 0 ∉ name := by
  simp [isComponent, and_assoc]

/-- Every entry read is named by a single path component. -/
theorem parseEntries_names {algo : HashAlgo} {payload : Bytes} {es : List TreeEntry}
    (h : parseEntries algo payload = .ok es) : ∀ e ∈ es, isComponent e.name = true := by
  fun_induction parseEntries algo payload generalizing es with
  | case1 => cases h; simp
  | case2 | case3 | case4 | case5 | case6 | case7 | case8 => cases h
  | case9 payload _ octal rest _ mode _ name afterName _ hname _ id _ es' hes' ih =>
      cases h
      intro e he
      rcases List.mem_cons.mp he with rfl | he
      · exact eq_true_of_ne_false hname
      · exact ih hes' e he

theorem parse_names {algo : HashAlgo} {payload : Bytes} {t : Tree}
    (h : parse algo payload = .ok t) : ∀ e ∈ t.entries, isComponent e.name = true := by
  obtain ⟨es, hes, rfl⟩ := except_map_ok.mp h
  exact parseEntries_names hes

end Tree

/-! ## Safe names -/

/-- A byte with its ASCII upper-case letter folded to lower case. -/
def asciiLower (b : UInt8) : UInt8 := if 65 ≤ b ∧ b ≤ 90 then b + 32 else b

/-- Equality up to ASCII case. -/
def asciiEqIgnoreCase (a b : Bytes) : Bool := a.map asciiLower == b.map asciiLower

/-- Whether a name resolves to the metadata directory under some file system's naming
rules: trailing dots and spaces are dropped, and `git~1` is its short name. -/
def isDotGitComponent (name : Bytes) : Bool :=
  let trimmed := (name.reverse.dropWhile (fun b => b == 46 || b == 32)).reverse
  asciiEqIgnoreCase trimmed (bytes ".git") || asciiEqIgnoreCase name (bytes "git~1")

/-- Whether a name is a single path component that is safe to join onto a path. -/
def isSafePathComponent (name : Bytes) : Bool :=
  if name.isEmpty || name == bytes "." || name == bytes ".." then false
  else if name.any (fun b => b == slash || b == 92 || b == 0 || b == 58) then false
  else !isDotGitComponent name

end Puregit
