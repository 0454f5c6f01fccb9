import Puregit.Config
import Puregit.Flatten
import Puregit.Odb.Files
import Puregit.Repository
import Puregit.TreeBuilder
import Puregit.Walk

/-! # Commits, branches, tags and linked worktrees

The operations that add objects to a repository and move its refs.  Each is a computation over
the repository; it keeps the writes it made before it failed.

The reflogs are not among the files, since nothing here reads them.  Nor is the work tree: what
an operation reads of it, and whether writing to it succeeds, are arguments.
-/
namespace Puregit
open ObjectDatabase

/-- How a command fails. -/
inductive Fail where
  | fatal (text : Str)
  | code (exit : Nat) (text : Str)
  deriving DecidableEq

/-- An error ends a command with its text. -/
def Fail.ofError (e : Error) : Fail := .fatal e.toStr

/-- The raw index bits of a mode. -/
def FileMode.modeBits : FileMode → UInt32
  | .tree => 0o040000
  | .regular => 0o100644
  | .executable => 0o100755
  | .symlink => 0o120000
  | .gitlink => 0o160000

/-- The extended flag of an entry that is a placeholder. -/
def IndexEntry.extIntentToAdd : UInt16 := 0x2000

/-- Adds an entry of the index to those of the tree; a placeholder is left out. -/
def flattenIndexEntry (flat : List FlatEntry) (e : IndexEntry) : Except Error (List FlatEntry) :=
  if e.stage ≠ 0 then
    .error (.reference (str "cannot write-tree: index has unmerged (conflict) entries"))
  else if e.extendedFlags &&& IndexEntry.extIntentToAdd ≠ 0 then .ok flat
  else (FileMode.fromModeBits e.mode.toNat).map fun mode => flat ++ [⟨e.path, mode, e.id⟩]

/-- Writes the trees of the index. -/
def writeTreeFromIndex {D : Type} [ObjectDatabase D] (index : Index) : Exec D Error ObjectId := do
  let flat ← Exec.ofExcept (index.entries.foldlM flattenIndexEntry [])
  writeTreeFromEntries flat

namespace Repository

/-- Opens the object directory of a repository again. -/
def reloadOdb (out : Outside) (repo : Repository) : Except Error Repository :=
  (out.openOdb repo.odb.loose.zlib repo.odb.loose.hasher repo.odb.loose.fs repo.algo).map fun odb =>
    { repo with odb := odb }

/-- The files with a new directory. -/
def withDir (fs : GitDir) (dir : String) : GitDir :=
  (Vfs.createDirAll fs (str dir)).toOption.getD fs

/-- The object directory of a new repository. -/
def newObjects : GitDir := withDir (withDir FileTree.empty "pack") "info"

/-- A new repository: no objects, no refs, and `HEAD` on a branch to come. -/
def init (z : Zlib) (h : Hasher) (algo : HashAlgo) : Repository where
  fs :=
    let put (fs : GitDir) (name : String) (data : Bytes) :=
      (Vfs.write fs (str name) data).toOption.getD fs
    let core (cfg : Config) (name value : String) :=
      cfg.set (str "core") none (str name) (str value)
    let config := core (core (core Config.new "repositoryformatversion"
      (if algo = .sha256 then "1" else "0")) "filemode" "true") "bare" "false"
    let config := if algo = .sha256 then
      config.set (str "extensions") none (str "objectformat") (str "sha256") else config
    let fs := withDir (withDir FileTree.empty "refs/heads") "refs/tags"
    put (put fs "config" (toUtf8 config.serialize)) "HEAD" (bytes "ref: refs/heads/main\n")
  odb := ⟨⟨LooseOdb.new z h newObjects algo, []⟩, []⟩

/-! ## Computations over a repository -/

section
variable {ε α : Type}

/-- A computation over the object store. -/
def onOdb (x : Exec CombinedOdb ε α) : Exec Repository ε α :=
  Exec.zoom Repository.odb (fun odb repo => { repo with odb := odb }) x

/-- A change of the refs. -/
def onRefs (f : RefStore → Except Error α × RefStore) : Exec Repository Error α :=
  Exec.step fun repo => ((f repo.refs).1, { repo with fs := (f repo.refs).2.vfs })

/-- Writes a file of the git directory. -/
def writeFile (name : Str) (data : Bytes) : Exec Repository Error Unit :=
  Exec.step fun repo => match Vfs.write repo.fs name data with
    | .ok fs => (.ok (), { repo with fs := fs })
    | .error e => (.error e, repo)

/-- The computation of a command: an error of a part ends it. -/
def command (x : Exec Repository Error α) : Exec Repository Fail α := fun repo =>
  (x repo).map fun r => (r.1.mapError Fail.ofError, r.2)

end

/-- Reads and parses a commit. -/
def readCommit (repo : Repository) (id : ObjectId) (other : Object → Error) :
    Except Error Commit := do
  match ← readObject repo.odb id with
  | .commit c => .ok c
  | o => .error (other o)

/-! ## The index -/

/-- Writes the staging index. -/
def writeIndex (index : Index) : Exec Repository Error Unit := do
  let h ← Exec.read fun repo => .ok repo.odb.loose.hasher
  writeFile (str "index") (index.serialize h)

/-- An index that mirrors a tree, its stat fields zero; `depth` bounds the stack. -/
def indexFromTree (depth : Nat) (tree : ObjectId) : Exec Repository Error Index := do
  let flat ← Exec.eval fun repo => flattenTree depth repo.odb tree
  let algo ← Exec.read fun repo => .ok repo.algo
  pure { Index.new algo with
    entries := flat.toList.map fun b => {
      ctime := (0, 0), mtime := (0, 0), dev := 0, ino := 0, mode :=
        b.2.1.modeBits, uid := 0, gid := 0
      size := 0, id := b.2.2, stage := 0, assumeValid := false, extendedFlags := 0, path := b.1 } }

/-- Reads a tree into the index. -/
def readTree (depth : Nat) (tree : ObjectId) : Exec Repository Error Unit := do
  let index ← indexFromTree depth tree
  writeIndex index

/-- A file of the work tree as it is staged: the bytes of its blob and its stat fields. -/
structure StagedFile where
  blob : Bytes
  ctime : UInt32 × UInt32
  mtime : UInt32 × UInt32
  dev : UInt32
  ino : UInt32
  mode : UInt32
  uid : UInt32
  gid : UInt32
  size : UInt32
  deriving DecidableEq

/-- The index entry of a staged file. -/
def StagedFile.entry (file : StagedFile) (path : Bytes) (id : ObjectId) : IndexEntry where
  ctime := file.ctime
  mtime := file.mtime
  dev := file.dev
  ino := file.ino
  mode := file.mode
  uid := file.uid
  gid := file.gid
  size := file.size
  id := id
  stage := 0
  assumeValid := false
  extendedFlags := 0
  path := path

/-- The index with the entries of a path replaced. -/
def restage (index : Index) (path : Bytes) (entry : List IndexEntry) : Index :=
  { index with entries := index.entries.filter (fun e => e.path ≠ path) ++ entry }

/-- Stages what the work tree has at a path; a file that is gone is staged as deleted. -/
def stage (path : Bytes) : Option StagedFile → Exec Repository Error ObjectId
  | none => do
    let index ← Exec.read Repository.index
    writeIndex (restage index path [])
    let algo ← Exec.read fun repo => .ok repo.algo
    pure (ObjectId.zero algo)
  | some file => do
    let id ← onOdb (put .blob file.blob)
    let index ← Exec.read Repository.index
    writeIndex (restage index path [file.entry path id])
    pure id

/-! ## Commits, branches and tags -/

/-- Points the branch of `HEAD` at a commit, or `HEAD` itself if it is detached. -/
def updateCurrentBranch (id : ObjectId) : Exec Repository Error Unit := do
  match ← Exec.read fun repo => repo.refs.lookup (str "HEAD") with
  | .symbolic branch => onRefs fun refs => refs.update branch (.direct id)
  | .direct _ => onRefs fun refs => refs.update (str "HEAD") (.direct id)

/-- Commits the index and advances the current branch. -/
def commit (message : Bytes) (author committer : Signature) : Exec Repository Error ObjectId := do
  let index ← Exec.read Repository.index
  let tree ← onOdb (writeTreeFromIndex index)
  let parent ← Exec.read fun repo => .ok repo.headId.toOption
  let commit : Commit := ⟨tree, parent.toList, author, committer, [], message⟩
  let id ← onOdb (put .commit commit.serialize)
  updateCurrentBranch id
  pure id

/-- The full name of a branch. -/
def branchRef (name : Str) : Str := str "refs/heads/" ++ name

/-- The full name of a tag. -/
def tagRef (name : Str) : Str := str "refs/tags/" ++ name

/-- Creates a branch. -/
def createBranch (name : Str) (target : Option ObjectId) : Exec Repository Error Unit := do
  let id ← Exec.read fun repo =>
    if (repo.refs.lookup (branchRef name)).toBool then
      .error (.reference (str "branch " ++ name ++ str " already exists"))
    else match target with
      | some id => .ok id
      | none => repo.headId
  onRefs fun refs => refs.update (branchRef name) (.direct id)

/-- Replaces the work tree and the index with a tree; `written` is how writing the work tree
ends. -/
def switchWorktree (depth : Nat) (tree : ObjectId) (written : Except Error Unit) :
    Exec Repository Error Unit := do
  let _ ← Exec.eval fun repo => flattenTree depth repo.odb tree
  let _ ← Exec.read Repository.index
  Exec.ofExcept written
  readTree depth tree

/-- Checks a branch out. -/
def checkout (depth : Nat) (name : Str) (written : Except Error Unit) :
    Exec Repository Error Unit := do
  let id ← Exec.read fun repo => repo.refs.resolve (branchRef name)
  let commit ← Exec.read fun repo =>
    repo.readCommit id fun _ => .parse (str "checkout: ref is not a commit")
  switchWorktree depth commit.tree written
  onRefs fun refs => refs.update (str "HEAD") (.symbolic (branchRef name))

/-- Deletes a branch that is not checked out: one that is merged into `HEAD`, or any if forced. -/
def deleteBranch (force : Bool) (name : Str) : Exec Repository Fail Unit := do
  let id ← Exec.read fun repo => match repo.refs.resolve (branchRef name) with
    | .ok id => .ok id
    | .error _ => .error (.code 1 (str "error: branch '" ++ name ++ str "' not found"))
  Exec.read fun repo =>
    if repo.refs.value? (str "HEAD") = some (.symbolic (branchRef name)) then
      .error (.code 1 (str "error: cannot delete branch '" ++ name ++ str "' used by worktree"))
    else match force, repo.headId with
      | false, .ok head => match isAncestor repo.odb id head with
        | .error e => .error (.ofError e)
        | .ok true => .ok ()
        | .ok false => .error (.code 1 (str "error: the branch '" ++ name ++
            str "' is not fully merged\nhint: If you are sure you want to delete it, " ++
            str "run 'git branch -D " ++ name ++ str "'"))
      | _, _ => .ok ()
  command (onRefs fun refs => refs.delete (branchRef name))

/-- What a tag of `target` names: the target, or a tag object with a tagger and a message. -/
def tagObject (name : Str) (target : ObjectId) :
    Option (Signature × Bytes) → Exec Repository Error ObjectId
  | none => pure target
  | some (tagger, message) => do
    let (ty, _) ← Exec.read fun repo => repo.odb.read target
    onOdb (put .tag (Tag.serialize ⟨target, ty, toUtf8 name, some tagger, message⟩))

/-- Creates a tag of `target`, or of `HEAD`. -/
def tag (force : Bool) (name : Str) (target : Option ObjectId)
    (annotated : Option (Signature × Bytes)) :
    Exec Repository Fail Unit := do
  let target ← Exec.read fun repo =>
    if isValidRefName (tagRef name) = false then
      .error (.fatal (str "'" ++ name ++ str "' is not a valid tag name."))
    else if !force && (repo.refs.lookup (tagRef name)).toBool then
      .error (.fatal (str "tag '" ++ name ++ str "' already exists"))
    else match target, repo.headId with
      | some id, _ => .ok id
      | none, .ok id => .ok id
      | none, .error _ => .error (.fatal (str "Failed to resolve 'HEAD' as a valid ref."))
  let id ← command (tagObject name target annotated)
  command (onRefs fun refs => refs.update (tagRef name) (.direct id))

/-- Deletes a tag. -/
def deleteTag (name : Str) : Exec Repository Fail Unit := do
  Exec.read fun repo => match repo.refs.resolve (tagRef name) with
    | .ok _ => .ok ()
    | .error _ => .error (.code 1 (str "error: tag '" ++ name ++ str "' not found."))
  command (onRefs fun refs => refs.delete (tagRef name))

/-! ## Linked worktrees -/

/-- A file of the directory of a linked worktree. -/
def worktreeFile (name : Str) (file : String) : Str := str "worktrees/" ++ name ++ '/' :: str file

/-- Adds a linked worktree at a commit.  `link` is the path of the `.git` file of its work tree,
and `written` is how writing that tree ends. -/
def addWorktree (depth : Nat) (name : Str) (commit : ObjectId) (link : Bytes)
    (written : Except Error Unit) :
    Exec Repository Error Unit := do
  Exec.read fun repo =>
    if Vfs.pathExists repo.fs (str "worktrees/" ++ name) then
      .error (.io (str "worktree " ++ debugStr name ++ str " already exists"))
    else .ok ()
  let c ← Exec.read fun repo => repo.readCommit commit fun o => .unexpectedType .commit o.objectType
  writeFile (worktreeFile name "HEAD") (toUtf8 commit.toHex ++ [10])
  writeFile (worktreeFile name "commondir") (bytes "../..\n")
  writeFile (worktreeFile name "gitdir") (link ++ [10])
  Exec.ofExcept written
  let index ← indexFromTree depth c.tree
  let h ← Exec.read fun repo => .ok repo.odb.loose.hasher
  writeFile (worktreeFile name "index") (index.serialize h)

end Repository
end Puregit
