import Puregit.Tree
import Puregit.Vfs

/-! # A disk with symbolic links

The operations of the operating system that the work tree is read and written with.  A path is
absolute, a list of names from the root of the disk.  The links on it are followed, a target being
taken from the directory of the link or, if it starts with a slash, from the root; the last name of
a path is not followed where the operation is on the link itself.

As for the files of a git directory, an operation fails only where the shape of the tree makes it,
and leaves the disk as it is.
-/
namespace Puregit

/-- What a path that is no directory holds. -/
inductive Leaf where
  | file (content : Bytes) (executable : Bool)
  | link (target : Bytes)
  deriving DecidableEq

/-- The files, links and directories of a disk. -/
abbrev Disk := FileTree Bytes Leaf

namespace Disk
open Vfs

/-! ## Where a path leads -/

/-- How following names ends: at a path, before a link with names left, or nowhere. -/
inductive Walk where
  | arrived (path : List Bytes)
  | link (dir : List Bytes) (target : Bytes) (rest : List Bytes)
  | nowhere

/-- Follows names from a directory up to the first link. -/
def walk (disk : Disk) : List Bytes → List Bytes → Walk
  | dir, [] => .arrived dir
  | dir, name :: rest =>
    if disk.isDir dir = false then .nowhere
    else if name = [] ∨ name = bytes "." then walk disk dir rest
    else if name = bytes ".." then walk disk dir.dropLast rest
    else match disk.get? (dir ++ [name]) with
      | none => .nowhere
      | some (.leaf (.link target)) => .link dir target rest
      | some _ => walk disk (dir ++ [name]) rest

/-- Follows names from a directory, and the links on the way. -/
def follow (disk : Disk) : Nat → List Bytes → List Bytes → Option (List Bytes)
  | links, dir, names =>
    match disk.walk dir names with
    | .arrived path => some path
    | .nowhere => none
    | .link dir target rest =>
      match links with
      | 0 => none
      | links + 1 => follow disk links (if target.head? = some slash then [] else dir)
        (target.splitOn slash ++ rest)

/-- How many links are followed on one path. -/
def maxLinks : Nat := 40

/-- What a path leads to, a link at its end being followed. -/
def stat (disk : Disk) (path : List Bytes) : Option (Entry Leaf) :=
  (disk.follow maxLinks [] path).bind disk.get?

/-- Where the last name of a path is, not followed. -/
def locate (disk : Disk) (path : List Bytes) : Option (List Bytes) :=
  match path.getLast? with
  | none => some []
  | some name => (disk.follow maxLinks [] path.dropLast).map (· ++ [name])

/-- What is at a path, a link being itself. -/
def lstat (disk : Disk) (path : List Bytes) : Option (Entry Leaf) :=
  (disk.locate path).bind disk.get?

/-! ## Operations -/

/-- The error of a directory that is to be removed and is not empty. -/
def notEmpty : Error := .io (str "Directory not empty (os error 39)")

/-- Removes a file or a link. -/
def removeFile (disk : Disk) (path : List Bytes) : Except Error Disk :=
  match (disk.locate path).bind disk.removeLeaf with
  | some disk => .ok disk
  | none => .error (if disk.lstat path = some .dir then isADirectory else noSuchFile)

/-- Removes an empty directory. -/
def removeDir (disk : Disk) (path : List Bytes) : Except Error Disk :=
  match (disk.locate path).bind (FileTree.removeDir disk) with
  | some disk => .ok disk
  | none => .error (match disk.lstat path with
    | some .dir => notEmpty
    | some _ => notADirectory
    | none => noSuchFile)

/-- Creates a directory. -/
def createDir (disk : Disk) (path : List Bytes) : Except Error Disk :=
  match (disk.locate path).bind disk.makeDir with
  | some disk => .ok disk
  | none => .error (if (disk.lstat path).isSome then fileExists else noSuchFile)

/-- Creates the directories that are missing of the names behind a path. -/
def createDirsFrom (disk : Disk) (path : List Bytes) : List Bytes → Except Error Disk
  | [] => .ok disk
  | name :: names =>
    if disk.stat (path ++ [name]) = some .dir then createDirsFrom disk (path ++ [name]) names
    else do
      let disk ← disk.createDir (path ++ [name])
      createDirsFrom disk (path ++ [name]) names

/-- Creates a directory and those above it.  Where a file is on the way the error is that of a file
that exists, and not that of a file that is no directory. -/
def createDirAll (disk : Disk) (path : List Bytes) : Except Error Disk :=
  createDirsFrom disk [] path

/-- Puts a file or a link in place of whatever leaf is at a path. -/
def place (disk : Disk) (path : List Bytes) (leaf : Leaf) : Except Error Disk :=
  match (disk.locate path).bind fun p => FileTree.putLeaf disk p leaf with
  | some disk => .ok disk
  | none => .error (if disk.lstat path = some .dir then isADirectory else noSuchFile)

/-- Writes a file, creating or replacing it, and sets whether it is executable.  It is not for a
path with a link at its end, which would be followed. -/
def writeFile (disk : Disk) (path : List Bytes) (content : Bytes) (executable : Bool) :
    Except Error Disk :=
  disk.place path (.file content executable)

/-- Creates a link; nothing may be in its place. -/
def symlink (disk : Disk) (target : Bytes) (path : List Bytes) : Except Error Disk :=
  if 0 ∈ target then .error (.io (str "file name contained an unexpected NUL byte"))
  else if target = [] then .error noSuchFile
  else if (disk.lstat path).isSome then .error fileExists
  else disk.place path (.link target)

/-! ## What the operations do -/

variable {disk disk' : Disk} {path p : List Bytes}

theorem removeFile_ok : disk.removeFile path = .ok disk' ↔
    ∃ p, disk.locate path = some p ∧ disk.removeLeaf p = some disk' := by
  rw [removeFile, ← Option.bind_eq_some_iff]
  split
  · next h => rw [h, Except.ok.injEq, Option.some.injEq]
  · next h => simp [h]

theorem removeDir_ok : disk.removeDir path = .ok disk' ↔
    ∃ p, disk.locate path = some p ∧ FileTree.removeDir disk p = some disk' := by
  rw [removeDir, ← Option.bind_eq_some_iff]
  split
  · next h => rw [h, Except.ok.injEq, Option.some.injEq]
  · next h => simp [h]

theorem createDir_ok : disk.createDir path = .ok disk' ↔
    ∃ p, disk.locate path = some p ∧ disk.makeDir p = some disk' := by
  rw [createDir, ← Option.bind_eq_some_iff]
  split
  · next h => rw [h, Except.ok.injEq, Option.some.injEq]
  · next h => simp [h]

theorem place_ok {leaf : Leaf} : disk.place path leaf = .ok disk' ↔
    ∃ p, disk.locate path = some p ∧ FileTree.putLeaf disk p leaf = some disk' := by
  have hbind : ((disk.locate path).bind fun p => FileTree.putLeaf disk p leaf) = some disk' ↔
      ∃ p, disk.locate path = some p ∧ FileTree.putLeaf disk p leaf = some disk' :=
        Option.bind_eq_some_iff
  rw [place, ← hbind]
  split
  · next h => rw [h, Except.ok.injEq, Option.some.injEq]
  · next h => simp [h]

theorem lstat_eq_some {e : Entry Leaf} : disk.lstat path = some e ↔
    ∃ p, disk.locate path = some p ∧ disk.get? p = some e :=
  Option.bind_eq_some_iff

/-- There is a file or a link at a path. -/
def Occupied (disk : Disk) (path : List Bytes) : Prop := ∃ leaf, disk.lstat path = some (.leaf leaf)

/-- **A file or a link that is there is removed**, and nothing else is. -/
theorem removeFile_iff : (∃ disk', disk.removeFile path = .ok disk') ↔ disk.Occupied path := by
  constructor
  · rintro ⟨disk', h⟩
    obtain ⟨p, hp, hremove⟩ := removeFile_ok.mp h
    obtain ⟨leaf, hleaf⟩ := FileTree.removeLeaf_isSome.mp (Option.isSome_of_eq_some hremove)
    exact ⟨leaf, lstat_eq_some.mpr ⟨p, hp, hleaf⟩⟩
  · rintro ⟨leaf, h⟩
    obtain ⟨p, hp, hleaf⟩ := lstat_eq_some.mp h
    obtain ⟨disk', hremove⟩ :=
      Option.isSome_iff_exists.mp (FileTree.removeLeaf_isSome.mpr ⟨leaf, hleaf⟩)
    exact ⟨disk', removeFile_ok.mpr ⟨p, hp, hremove⟩⟩

/-! ## Removing -/

/-- Everything on one disk is on another. -/
def Within (disk disk' : Disk) : Prop := ∀ p e, disk.get? p = some e → disk'.get? p = some e

theorem Within.trans {disk'' : Disk} (h : disk.Within disk') (h' : disk'.Within disk'') :
    disk.Within disk'' :=
  fun p e hp => h' p e (h p e hp)

/-- What is removed leaves less. -/
theorem within_of_erased {p : List Bytes}
    (h : ∀ q, disk'.get? q = if q = p then none else disk.get? q) :
    disk'.Within disk := by
  intro q e hq
  rw [h] at hq
  split at hq
  · cases hq
  · exact hq

theorem removeFile_within (h : disk.removeFile path = .ok disk') :
    disk'.Within disk ∧ ∃ p, disk.get? p ≠ none ∧ disk'.get? p = none := by
  obtain ⟨p, -, hremove⟩ := removeFile_ok.mp h
  obtain ⟨leaf, hleaf⟩ := FileTree.removeLeaf_isSome.mp (Option.isSome_of_eq_some hremove)
  have hget : ∀ q, disk'.get? q = if q = p then none else disk.get? q :=
    fun q => FileTree.get?_removeLeaf hremove q
  exact ⟨within_of_erased hget, p, by simp [hleaf], by rw [hget, if_pos rfl]⟩

theorem removeDir_within (h : disk.removeDir path = .ok disk') :
    disk'.Within disk ∧ ∃ p, disk.get? p ≠ none ∧ disk'.get? p = none := by
  obtain ⟨p, -, hremove⟩ := removeDir_ok.mp h
  obtain ⟨-, hdir, -⟩ := FileTree.removeDir_isSome.mp (Option.isSome_of_eq_some hremove)
  have hget : ∀ q, disk'.get? q = if q = p then none else disk.get? q :=
    fun q => FileTree.get?_removeDir hremove q
  exact ⟨within_of_erased hget, p, by simp [hdir], by rw [hget, if_pos rfl]⟩

/-- Less of less is not the same. -/
theorem Within.ne {disk'' : Disk} (h : disk''.Within disk')
    (hless : ∃ p, disk.get? p ≠ none ∧ disk'.get? p = none) :
    disk'' ≠ disk := by
  rintro rfl
  obtain ⟨p, hsome, hnone⟩ := hless
  obtain ⟨e, he⟩ := Option.ne_none_iff_exists'.mp hsome
  rw [h p e he] at hnone
  cases hnone

/-! ## Adding -/

/-- The directories and the links of a disk are on another. -/
structure Keeps (disk disk' : Disk) : Prop where
  dir : ∀ p, disk.get? p = some .dir → disk'.get? p = some .dir
  link : ∀ p target, disk.get? p = some (.leaf (.link target)) →
    disk'.get? p = some (.leaf (.link target))

theorem Keeps.refl (disk : Disk) : disk.Keeps disk := ⟨fun _ h => h, fun _ _ h => h⟩

theorem Keeps.trans {disk'' : Disk} (h : disk.Keeps disk') (h' : disk'.Keeps disk'') :
    disk.Keeps disk'' :=
  ⟨fun p hp => h'.dir p (h.dir p hp), fun p target hp => h'.link p target (h.link p target hp)⟩

/-- What is put where no directory and no link is changes none. -/
theorem keeps_of_put {e : Entry Leaf} (hdir : disk.get? p ≠ some .dir)
    (hlink : ∀ target, disk.get? p ≠ some (.leaf (.link target)))
    (h : ∀ q, disk'.get? q = if q = p then some e else disk.get? q) : disk.Keeps disk' := by
  constructor
  · intro q hq
    rw [h, if_neg]
    · exact hq
    · rintro rfl
      exact hdir hq
  · intro q target hq
    rw [h, if_neg]
    · exact hq
    · rintro rfl
      exact hlink target hq

theorem createDir_keeps (h : disk.createDir path = .ok disk') : disk.Keeps disk' := by
  obtain ⟨p, -, hmake⟩ := createDir_ok.mp h
  obtain ⟨-, -, hnone⟩ := FileTree.makeDir_isSome.mp (Option.isSome_of_eq_some hmake)
  exact keeps_of_put (by simp [hnone]) (by simp [hnone]) fun q => FileTree.get?_makeDir hmake q

theorem walk_keeps (h : disk.Keeps disk') {names dir : List Bytes} :
    (∀ p, disk.walk dir names = .arrived p → disk.get? p = some .dir →
      disk'.walk dir names = .arrived p) ∧
    ∀ d target rest, disk.walk dir names = .link d target rest →
      disk'.walk dir names = .link d target rest := by
  induction names generalizing dir with
  | nil => exact ⟨fun p hp _ => hp, fun d target rest hl => by cases hl⟩
  | cons name names ih =>
    cases hdir : disk.isDir dir with
    | false => simp [walk, hdir]
    | true =>
      have hdir' : disk'.isDir dir = true :=
        FileTree.isDir_iff.mpr (h.dir dir (FileTree.isDir_iff.mp hdir))
      simp only [walk, hdir, hdir', Bool.true_eq_false, if_false]
      split
      · exact ih
      split
      · exact ih
      cases hentry : disk.get? (dir ++ [name]) with
      | none => simp
      | some e =>
        cases e with
        | dir =>
          rw [h.dir _ hentry]
          exact ih
        | leaf leaf =>
          cases leaf with
          | link target =>
            rw [h.link _ _ hentry]
            simp
          | file content executable =>
            -- a file is followed by nothing
            have hfile : disk.isDir (dir ++ [name]) = false := by simp [FileTree.isDir, hentry]
            cases names with
            | nil =>
              simp only [walk]
              refine ⟨fun p hp hpdir => ?_, fun d target rest hl => by cases hl⟩
              cases hp
              rw [hentry] at hpdir
              cases hpdir
            | cons next names => simp [walk, hfile]

theorem follow_keeps (h : disk.Keeps disk') {links : Nat} {dir names p : List Bytes}
    (hfollow : disk.follow links dir names = some p) (hp : disk.get? p = some .dir) :
    disk'.follow links dir names = some p := by
  induction links generalizing dir names with
  | zero =>
    rw [follow] at hfollow ⊢
    cases hwalk : disk.walk dir names with
    | nowhere => simp [hwalk] at hfollow
    | link d target rest => simp [hwalk] at hfollow
    | arrived q =>
      obtain rfl : q = p := by simpa [hwalk] using hfollow
      rw [(walk_keeps h).1 q hwalk hp]
  | succ links ih =>
    rw [follow] at hfollow ⊢
    cases hwalk : disk.walk dir names with
    | nowhere => simp [hwalk] at hfollow
    | link d target rest =>
      rw [(walk_keeps h).2 d target rest hwalk]
      simp only [hwalk] at hfollow
      exact ih hfollow
    | arrived q =>
      obtain rfl : q = p := by simpa [hwalk] using hfollow
      rw [(walk_keeps h).1 q hwalk hp]

/-! ## Directories that a path leads to -/

variable {dir : List Bytes} {name : Bytes}

/-- The name is one of an entry: neither nothing nor dots. -/
def IsEntryName (name : Bytes) : Prop := name ≠ [] ∧ name ≠ bytes "." ∧ name ≠ bytes ".."

/-- All names of a path are names of entries. -/
def Plain (path : List Bytes) : Prop := ∀ n ∈ path, IsEntryName n

theorem Plain.left {q : List Bytes} (h : Plain (p ++ q)) : Plain p :=
  fun n hn => h n (List.mem_append_left q hn)

theorem Plain.concat (h : Plain p) (hname : IsEntryName name) : Plain (p ++ [name]) := by
  intro n hn
  rcases List.mem_append.mp hn with hn | hn
  · exact h n hn
  · rw [List.mem_singleton.mp hn]
    exact hname

theorem walk_cons {rest : List Bytes} (hname : IsEntryName name) (hdir : disk.get? dir = some .dir)
    (hlink : ∀ target, disk.get? (dir ++ [name]) ≠ some (.leaf (.link target))) :
    disk.walk dir (name :: rest) =
      if disk.get? (dir ++ [name]) = none then .nowhere else disk.walk (dir ++ [name]) rest := by
  obtain ⟨hne, hdot, hdots⟩ := hname
  rw [walk, if_neg (by rw [FileTree.isDir_iff.mpr hdir]; exact Bool.noConfusion),
    if_neg (not_or.mpr ⟨hne, hdot⟩),
    if_neg hdots]
  cases hentry : disk.get? (dir ++ [name]) with
  | none => rfl
  | some e =>
    cases e with
    | dir => rfl
    | leaf leaf =>
      cases leaf with
      | file content executable => rfl
      | link target => exact absurd hentry (hlink target)

/-- Names are followed up to where the first of them lead, and on from there. -/
theorem walk_append (dir path rest : List Bytes) : disk.walk dir (path ++ rest) =
    match disk.walk dir path with
    | .arrived q => disk.walk q rest
    | .link d target left => .link d target (left ++ rest)
    | .nowhere => .nowhere := by
  induction path generalizing dir with
  | nil => rfl
  | cons n path ih =>
    rw [List.cons_append, walk, walk]
    split_ifs
    · rfl
    · exact ih dir
    · exact ih dir.dropLast
    · split
      · rfl
      · rfl
      · exact ih _

theorem follow_of_arrived {links : Nat} {q : List Bytes} (h : disk.walk dir path = .arrived q) :
    disk.follow links dir path = some q := by
  cases links with
  | zero => rw [follow, h]
  | succ links => rw [follow, h]

theorem follow_append {links : Nat} (rest : List Bytes) :
    (disk.follow links dir path = none → disk.follow links dir (path ++ rest) = none) ∧
    ∀ q, disk.follow links dir path = some q →
      ∃ left, disk.follow links dir (path ++ rest) = disk.follow left q rest := by
  induction links generalizing dir path with
  | zero =>
    rw [follow, follow, walk_append]
    cases hwalk : disk.walk dir path with
    | nowhere => simp
    | link d target left => simp
    | arrived q =>
      refine ⟨fun h => absurd h (by simp), fun q' hq => ⟨0, ?_⟩⟩
      cases hq
      rw [follow]
  | succ links ih =>
    rw [follow, follow, walk_append]
    cases hwalk : disk.walk dir path with
    | nowhere => simp
    | link d target left =>
      simp only [← List.append_assoc]
      exact ih
    | arrived q =>
      refine ⟨fun h => absurd h (by simp), fun q' hq => ⟨links + 1, ?_⟩⟩
      cases hq
      rw [follow]

/-- A path leads to a directory, the links on it being followed. -/
structure Leads (disk : Disk) (path p : List Bytes) : Prop where
  follow : disk.follow maxLinks [] path = some p
  dir : disk.get? p = some .dir

theorem stat_eq_dir : disk.stat path = some .dir ↔ ∃ p, Leads disk path p := by
  rw [stat, Option.bind_eq_some_iff]
  exact exists_congr fun p => ⟨fun h => ⟨h.1, h.2⟩, fun h => ⟨h.1, h.2⟩⟩

theorem leads_nil (disk : Disk) : Leads disk [] [] :=
  ⟨follow_of_arrived rfl, FileTree.get?_nil disk⟩

theorem Leads.keeps (h : Leads disk path p) (hkeeps : disk.Keeps disk') : Leads disk' path p :=
  ⟨follow_keeps hkeeps h.follow h.dir, hkeeps.dir p h.dir⟩

theorem Leads.unique {q : List Bytes} (h : Leads disk path p) (h' : Leads disk path q) : p = q :=
  Option.some.inj (h.follow.symm.trans h'.follow)

/-- A directory in it is led to by its name. -/
theorem Leads.below (h : Leads disk path p) (hname : IsEntryName name)
    (hdir : disk.get? (p ++ [name]) = some .dir) :
    Leads disk (path ++ [name]) (p ++ [name]) := by
  obtain ⟨left, hleft⟩ := (follow_append [name]).2 p h.follow
  have hwalk : disk.walk p [name] = .arrived (p ++ [name]) := by
    rw [walk_cons hname h.dir (by rw [hdir]; simp), if_neg (by rw [hdir]; simp), walk]
  exact ⟨hleft.trans (follow_of_arrived hwalk), hdir⟩

/-- The directories on the way are led to as well. -/
theorem Leads.above {rest : List Bytes} (h : Leads disk (path ++ rest) p) :
    ∃ q, Leads disk path q := by
  cases hfollow : disk.follow maxLinks [] path with
  | none => cases ((follow_append rest).1 hfollow).symm.trans h.follow
  | some q =>
    obtain ⟨left, hleft⟩ := (follow_append rest).2 q hfollow
    rw [h.follow] at hleft
    cases rest with
    | nil =>
      cases Option.some.inj (hleft.trans (follow_of_arrived rfl))
      exact ⟨p, hfollow, h.dir⟩
    | cons n rest =>
      refine ⟨q, hfollow, FileTree.isDir_iff.mp ?_⟩
      -- from what is no directory nothing is followed
      by_contra hdir
      rw [Bool.not_eq_true] at hdir
      have hwalk : disk.walk q (n :: rest) = .nowhere := by rw [walk, if_pos hdir]
      cases left with
      | zero =>
        rw [Disk.follow, hwalk] at hleft
        cases hleft
      | succ left =>
        rw [Disk.follow, hwalk] at hleft
        cases hleft

/-- Names of entries that are those of a directory lead to it. -/
theorem leads_of_dir (hplain : Plain path) (h : disk.get? path = some .dir) :
    Leads disk path path := by
  induction path using List.reverseRecOn with
  | nil => exact leads_nil disk
  | append_singleton path name ih =>
    have hparent :=
      FileTree.get?_dropLast (List.append_ne_nil_of_right_ne_nil _ (List.cons_ne_nil name [])) h
    rw [List.dropLast_concat] at hparent
    exact (ih hplain.left hparent).below
      (hplain name (List.mem_append_right _ List.mem_cons_self)) h

/-- A name of an entry of a directory is where it says. -/
theorem locate_below (h : Leads disk path p) :
    disk.locate (path ++ [name]) = some (p ++ [name]) := by
  rw [locate, List.getLast?_concat, List.dropLast_concat]
  simp only
  rw [h.follow]
  rfl

theorem lstat_below (h : Leads disk path p) :
    disk.lstat (path ++ [name]) = disk.get? (p ++ [name]) := by
  rw [lstat, locate_below h]
  rfl

/-- What is no link is found where it is. -/
theorem stat_below (h : Leads disk path p) (hname : IsEntryName name)
    (hlink : ∀ target, disk.get? (p ++ [name]) ≠ some (.leaf (.link target))) :
    disk.stat (path ++ [name]) = disk.get? (p ++ [name]) := by
  obtain ⟨left, hleft⟩ := (follow_append [name]).2 p h.follow
  have hwalk := @walk_cons disk p name [] hname h.dir hlink
  by_cases hnone : disk.get? (p ++ [name]) = none
  · rw [if_pos hnone] at hwalk
    have hnowhere : disk.follow left p [name] = none := by
      cases left with
      | zero => rw [follow, hwalk]
      | succ left => rw [follow, hwalk]
    rw [stat, hleft, hnowhere, hnone]
    rfl
  · rw [if_neg hnone] at hwalk
    have harrived : disk.walk p [name] = .arrived (p ++ [name]) := hwalk
    rw [stat, hleft, follow_of_arrived harrived]
    rfl

theorem createDirsFrom_append {names rest : List Bytes} {q : List Bytes}
    (h : Leads disk (path ++ names) q) :
    disk.createDirsFrom path (names ++ rest) = disk.createDirsFrom (path ++ names) rest := by
  induction names generalizing path with
  | nil => rw [List.nil_append, List.append_nil]
  | cons n names ih =>
    rw [List.append_cons] at h ⊢
    rw [List.cons_append, createDirsFrom, if_pos (stat_eq_dir.mpr h.above)]
    exact ih h

/-- A directory that is there is not created. -/
theorem createDirAll_of_dir (h : Leads disk path p) : disk.createDirAll path = .ok disk := by
  have hall := @createDirsFrom_append disk [] path [] p h
  rw [List.append_nil] at hall
  exact hall

/-- A name that is not one of an entry leads from a directory to one. -/
theorem Leads.of_not_isEntryName (h : Leads disk path p) (hname : ¬IsEntryName name) :
    ∃ q, Leads disk (path ++ [name]) q := by
  obtain ⟨left, hleft⟩ := (follow_append [name]).2 p h.follow
  have hdir : ¬disk.isDir p = false := by rw [FileTree.isDir_iff.mpr h.dir]; exact Bool.noConfusion
  by_cases hsame : name = [] ∨ name = bytes "."
  · have hwalk : disk.walk p [name] = .arrived p := by rw [walk, if_neg hdir, if_pos hsame, walk]
    exact ⟨p, hleft.trans (follow_of_arrived hwalk), h.dir⟩
  · have hdots : name = bytes ".." := by
      by_contra hdots
      exact hname ⟨fun hnil => hsame (Or.inl hnil), fun hdot => hsame (Or.inr hdot), hdots⟩
    have hwalk : disk.walk p [name] = .arrived p.dropLast := by
      rw [walk, if_neg hdir, if_neg hsame, if_pos hdots, walk]
    refine ⟨p.dropLast, hleft.trans (follow_of_arrived hwalk), ?_⟩
    by_cases hp : p = []
    · rw [hp]
      exact FileTree.get?_nil disk
    · exact FileTree.get?_dropLast hp h.dir

/-- Directories that have been created are led to. -/
theorem leads_createDirsFrom {names : List Bytes} (h : Leads disk path p)
    (hcreate : disk.createDirsFrom path names = .ok disk') :
    ∃ q, Leads disk' (path ++ names) q := by
  induction names generalizing disk path p with
  | nil =>
    cases hcreate
    exact ⟨p, by rw [List.append_nil]; exact h⟩
  | cons n names ih =>
    rw [List.append_cons]
    rw [createDirsFrom] at hcreate
    split at hcreate
    · rename_i hthere
      obtain ⟨q, hq⟩ := stat_eq_dir.mp hthere
      exact ih hq hcreate
    · rename_i habsent
      obtain ⟨disk₁, hmake, hrest⟩ := except_bind_ok.mp hcreate
      have hname : IsEntryName n := by
        by_contra hname
        exact habsent (stat_eq_dir.mpr (h.of_not_isEntryName hname))
      obtain ⟨q, hq, hmade⟩ := createDir_ok.mp hmake
      obtain rfl := Option.some.inj ((locate_below h).symm.trans hq)
      have hdir : disk₁.get? (p ++ [n]) = some .dir := by
        rw [FileTree.get?_makeDir hmade, if_pos rfl]
      exact ih ((h.keeps (createDir_keeps hmake)).below hname hdir) hrest

theorem leads_createDirAll (h : disk.createDirAll path = .ok disk') : ∃ p, Leads disk' path p :=
  leads_createDirsFrom (leads_nil disk) h

/-- Below a directory, a directory is created where nothing is, or is there. -/
theorem createDirAll_below (h : Leads disk path p) (hname : IsEntryName name)
    (hlink : ∀ target, disk.get? (p ++ [name]) ≠ some (.leaf (.link target))) :
    disk.createDirAll (path ++ [name]) = .ok disk' ↔
      (disk.get? (p ++ [name]) = none ∨ disk.get? (p ++ [name]) = some .dir) ∧
        ∀ q, disk'.get? q = if q = p ++ [name] then some .dir else disk.get? q := by
  rw [createDirAll, @createDirsFrom_append disk [] path [name] p h, List.nil_append, createDirsFrom,
    stat_below h hname hlink]
  by_cases hthere : disk.get? (p ++ [name]) = some .dir
  · rw [if_pos hthere, createDirsFrom, Except.ok.injEq, and_iff_right (Or.inr hthere)]
    constructor
    · rintro rfl q
      split
      · rename_i hq
        rw [hq, hthere]
      · rfl
    · intro hget
      refine FileTree.ext_get? fun q => ?_
      rw [hget]
      split
      · rename_i hq
        rw [hq, hthere]
      · rfl
  rw [if_neg hthere, or_iff_left hthere]
  have hcreate : disk.createDir (path ++ [name]) >>=
    (fun disk => disk.createDirsFrom (path ++ [name]) []) =
      disk.createDir (path ++ [name]) := by
    cases disk.createDir (path ++ [name]) <;> rfl
  rw [hcreate, createDir_ok]
  constructor
  · rintro ⟨q, hq, hmake⟩
    obtain rfl := Option.some.inj ((locate_below h).symm.trans hq)
    exact ⟨(FileTree.makeDir_isSome.mp (Option.isSome_of_eq_some hmake)).2.2, fun q =>
      FileTree.get?_makeDir hmake q⟩
  · rintro ⟨hnone, hget⟩
    obtain ⟨made, hmake⟩ :=
      Option.isSome_iff_exists.mp ((FileTree.makeDir_isSome (t := disk) (p := p ++ [name])).mpr
      ⟨by simp, by rw [List.dropLast_concat]; exact h.dir, hnone⟩)
    have hsame : made = disk' := FileTree.ext_get? fun q => by
      rw [FileTree.get?_makeDir hmake, hget]
    exact ⟨_, locate_below h, hsame ▸ hmake⟩

/-- Below a directory, a leaf is put where it says. -/
theorem place_below {leaf : Leaf} (h : Leads disk path p) :
    disk.place (path ++ [name]) leaf = .ok disk' ↔ disk.get? (p ++ [name]) ≠ some .dir ∧
      ∀ q, disk'.get? q = if q = p ++ [name] then some (.leaf leaf) else disk.get? q := by
  rw [place_ok]
  constructor
  · rintro ⟨q, hq, hput⟩
    obtain rfl := Option.some.inj ((locate_below h).symm.trans hq)
    exact ⟨(FileTree.putLeaf_isSome.mp (Option.isSome_of_eq_some hput)).2.2, fun q =>
      FileTree.get?_putLeaf hput q⟩
  · rintro ⟨hdir, hget⟩
    obtain ⟨put, hput⟩ := Option.isSome_iff_exists.mp
      ((FileTree.putLeaf_isSome (t := disk) (p := p ++ [name]) (d := leaf)).mpr
      ⟨by simp, by rw [List.dropLast_concat]; exact h.dir, hdir⟩)
    have hsame : put = disk' := FileTree.ext_get? fun q => by rw [FileTree.get?_putLeaf hput, hget]
    exact ⟨_, locate_below h, hsame ▸ hput⟩

end Disk
end Puregit
