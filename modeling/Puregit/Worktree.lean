import Puregit.Disk
import Puregit.Lfs
import Puregit.Porcelain

/-! # The work tree

`checkoutTree` writes the blobs of a tree below a directory of the disk.  Switching to a tree is
done in two places, by the repository and by the command line: what the index tracks and the tree
does not have is removed, the tree is written, and the index is made to mirror it.

The work tree is a directory of a disk with links in it, and whatever else the disk holds.  The
files of the repository are not among it. -/
namespace Puregit
open ObjectDatabase

/-- A repository and the disk that its work tree is on. -/
structure Checkout where
  repo : Repository
  disk : Disk

namespace Worktree

/-- The components of a path from the work tree. -/
def components (path : Bytes) : List Bytes := path.splitOn slash

/-! ## Writing a tree -/

/-- Reads a blob. -/
def readBlob (repo : Repository) (id : ObjectId) : Except Error Bytes := do
  match ← readObject repo.odb id with
  | .blob content => .ok content
  | other => .error (.unexpectedType .blob other.objectType)

/-- A step on the disk. -/
def onDisk (f : Disk → Except Error Disk) : Exec Disk Error Unit := fun disk =>
  match f disk with
  | .ok disk => some (.ok (), disk)
  | .error e => some (.error e, disk)

/-- The refusal of an entry that is no safe name. -/
def unsafeName (name : Bytes) : Error :=
  .unsupported (str "checkout: unsafe tree entry name " ++ debugStr (fromUtf8Lossy name))

/-- The refusal of a name that is no text. -/
def notUtf8 : Error := .unsupported (str "non-utf8 path component in checkout")

/-- The refusal of an entry in whose place a link is. -/
def throughLink (name : Str) : Error :=
  .unsupported (str "checkout: refusing to write through existing symlink " ++ debugStr name)

/-- Writes an entry of a tree that is no tree itself at a path. -/
def writeLeaf (repo : Repository) (entry : TreeEntry) (path : List Bytes) :
    Exec Disk Error Unit := do
  match entry.mode with
  | .tree => pure ()
  | .regular | .executable =>
    let content ← Exec.ofExcept (readBlob repo entry.id >>= LfsStore.smudge repo.fs)
    onDisk fun disk => disk.writeFile path content (entry.mode = .executable)
  | .symlink =>
    let target ← Exec.ofExcept (readBlob repo entry.id)
    onDisk fun disk => disk.symlink target path
  | .gitlink => onDisk fun disk => disk.createDirAll path

/-- Confirms that an entry may be written below a directory: its name is a safe one, and there is no
link in its place.  The parent of its path is the directory, so the canonical parent is the
canonical directory. -/
def guardEntry (entry : TreeEntry) (dest : List Bytes) : Exec Disk Error Unit :=
  if isSafePathComponent entry.name = false then Exec.throw (unsafeName entry.name)
  else match fromUtf8 entry.name with
    | none => Exec.throw notUtf8
    | some name => Exec.read fun disk => match disk.lstat (dest ++ [entry.name]) with
      | some (.leaf (.link _)) => .error (throughLink name)
      | _ => .ok ()

/-- Writes an entry of a tree at a path, what is below the entry by `writeSub`. -/
def writeAt (repo : Repository) (writeSub : Tree → List Bytes → Exec Disk Error Unit)
    (entry : TreeEntry) (path : List Bytes) : Exec Disk Error Unit :=
  if entry.mode = .tree then do
    let sub ← Exec.ofExcept (do
      match ← readObject repo.odb entry.id with
      | .tree t => .ok t
      | _ => .error (.parse (str "checkout: tree entry is not a tree")))
    writeSub sub path
  else writeLeaf repo entry path

/-- Writes a tree below a directory, with `depth` frames of stack left. -/
def writeTree (repo : Repository) : Nat → Tree → List Bytes → Exec Disk Error Unit
  | 0, _, _ => fun _ => none
  | depth + 1, tree, dest => do
    onDisk fun disk => disk.createDirAll dest
    tree.entries.forM fun entry => do
      guardEntry entry dest
      writeAt repo (writeTree repo depth) entry (dest ++ [entry.name])

/-- Writes the contents of a tree below a directory. -/
def checkoutTree (repo : Repository) (depth : Nat) (tree : ObjectId) (dest : List Bytes) :
    Exec Disk Error Unit := do
  let t ← Exec.ofExcept (do
    match ← readObject repo.odb tree with
    | .tree t => .ok t
    | other => .error (.unexpectedType .tree other.objectType))
  writeTree repo depth t dest

/-! ## Removing what is stale -/

/-- Removes the directories of some names below the work tree, the last name first, that are
empty. -/
def pruneDirs (work : List Bytes) : List Bytes → Disk → Disk
  | [], disk => disk
  | name :: above, disk =>
    match disk.removeDir (work ++ (name :: above).reverse) with
    | .ok disk => pruneDirs work above disk
    | .error _ => disk

/-- Whether a path may be joined onto the work tree, as the command line has it. -/
def safeRelPath (path : Bytes) : Bool :=
  !path.isEmpty && (components path).all fun c =>
    !c.isEmpty && c != bytes "." && c != bytes ".." && !asciiEqIgnoreCase c (bytes ".git") &&
      !c.contains 92

/-- Removes what is below the work tree at some names and then the directories it was alone in. -/
def removePath (work names : List Bytes) (disk : Disk) : Disk :=
  match disk.removeFile (work ++ names) with
  | .ok disk => pruneDirs work names.reverse.tail disk
  | .error _ => disk

/-- Removes an entry of the index that the target does not have, as the command line does. -/
def removeStale (flat : FlatMap) (work : List Bytes) (e : IndexEntry) (disk : Disk) : Disk :=
  if (flat.get? e.path).isNone && safeRelPath e.path then
    removePath work (components (toUtf8 (fromUtf8Lossy e.path))) disk
  else disk

/-- Whether an entry is recorded as a symbolic link. -/
def isLink (e : IndexEntry) : Bool := e.mode &&& 0o170000 == 0o120000

/-- Removes a path unless it is a directory. -/
def removeNonDir (path : List Bytes) (disk : Disk) : Except Error Disk :=
  match disk.lstat path with
  | some (.leaf _) => disk.removeFile path
  | _ => .ok disk

/-- Removes what is below the work tree at some names, and then the directories above that are
empty. -/
def clearPath (work names : List Bytes) (disk : Disk) : Except Error Disk := do
  let disk ← removeNonDir (work ++ names) disk
  .ok (pruneDirs work names.reverse.tail disk)

/-- Removes an entry of the index that the target does not have, or that is a link, as the
repository does. -/
def clearEntry (flat : FlatMap) (work : List Bytes) (e : IndexEntry) (disk : Disk) :
    Except Error Disk :=
  let stale := (flat.get? e.path).isNone
  if !(stale || isLink e) || !isSafeIndexPath e.path then .ok disk
  else match fromUtf8 e.path with
    | none => .ok disk
    | some rel => clearPath work (components (toUtf8 rel)) disk

/-! ## Switching -/

/-- A computation over the disk. -/
def onDiskOf {α : Type} (x : Repository → Exec Disk Error α) : Exec Checkout Error α := fun c =>
  (x c.repo c.disk).map fun r => (r.1, { c with disk := r.2 })

/-- A computation over the repository. -/
def onRepo {α : Type} (x : Exec Repository Error α) : Exec Checkout Error α :=
  Exec.zoom Checkout.repo (fun repo c => { c with repo := repo }) x

/-- Replaces the work tree and the index with a tree. -/
def switchWorktree (depth : Nat) (tree : ObjectId) (work : List Bytes) :
    Exec Checkout Error Unit := do
  let flat ← Exec.eval fun c => flattenTree depth c.repo.odb tree
  let index ← Exec.read fun c => c.repo.index
  index.entries.forM fun e => onDiskOf fun _ => onDisk (clearEntry flat work e)
  onDiskOf fun repo => checkoutTree repo depth tree work
  onRepo (Repository.readTree depth tree)

/-- Makes the work tree and the index those of a tree, as the command line does before it moves
`HEAD`. -/
def switchHead (depth : Nat) (tree : ObjectId) (work : List Bytes) : Exec Checkout Error Unit := do
  let flat ← Exec.eval fun c => flattenTree depth c.repo.odb tree
  let index ← Exec.read fun c => c.repo.index
  index.entries.forM fun e => onDiskOf fun _ => onDisk fun disk =>
    .ok (removeStale flat work e disk)
  onDiskOf fun repo => checkoutTree repo depth tree work
  onRepo (Repository.readTree depth tree)

end Worktree
end Puregit
