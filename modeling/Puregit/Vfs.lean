import Puregit.Error
import Puregit.Lib.Exec
import Puregit.Lib.FileTree

/-! # The file system below a root

The operations of the standard backend on the files of a git directory.  A name is
resolved below the root first: an absolute one, or one with a `..` component, is
refused.  Every operation that fails leaves the files as they are.

There are no symbolic links and no devices below the root, and an operation fails only
where the shape of the tree makes it.
-/
namespace Puregit

/-- The files and directories below a root. -/
abbrev GitDir := FileTree Str Bytes

namespace Vfs
open FileTree

/-- The errors of the operating system. -/
def noSuchFile : Error := .io (str "No such file or directory (os error 2)")
def fileExists : Error := .io (str "File exists (os error 17)")
def notADirectory : Error := .io (str "Not a directory (os error 20)")
def isADirectory : Error := .io (str "Is a directory (os error 21)")

/-- Where a name leads; one that ends in a slash or in `.` leads to a directory only. -/
structure Resolved where
  path : List Str
  dirOnly : Bool
  deriving DecidableEq

/-- The components of a name that count. -/
def isNormalComponent (c : Str) : Bool := c ≠ [] && c ≠ ['.']

/-- Joins a name onto the root after confirming that it stays below it.  A name with a
NUL is refused by the operating system. -/
def resolve (path : Str) : Except Error Resolved :=
  let components := path.splitOn '/'
  if path.head? = some '/' then .error (.io (str "vfs: absolute path rejected: " ++ debugStr path))
  else if components.contains (str "..") then
    .error (.io (str "vfs: path escapes the root via `..`: " ++ debugStr path))
  else if path.contains (Char.ofNat 0) then
    .error (.io (str "file name contained an unexpected NUL byte"))
  else .ok ⟨components.filter isNormalComponent,
    !(components.getLast?.map isNormalComponent).getD true⟩

/-- The error of a path with nothing at it. -/
def absent (fs : GitDir) (p : List Str) : Error :=
  if p.inits.any fun q => (fs.leaf? q).isSome then notADirectory else noSuchFile

/-- What a name leads to. -/
def stat (fs : GitDir) (path : Str) : Except Error (Entry Bytes) := do
  let r ← resolve path
  match fs.get? r.path with
  | some (.leaf d) => if r.dirOnly then .error notADirectory else .ok (.leaf d)
  | some .dir => .ok .dir
  | none => .error (absent fs r.path)

/-- Whether a name leads to anything. -/
def pathExists (fs : GitDir) (path : Str) : Bool := (stat fs path).toBool

/-- Reads a file. -/
def read (fs : GitDir) (path : Str) : Except Error Bytes := do
  match ← stat fs path with
  | .leaf d => .ok d
  | .dir => .error isADirectory

/-- Creates a directory and those above it. -/
def makeDirs (fs : GitDir) (p : List Str) : Except Error GitDir :=
  match fs.createDirAll p with
  | some fs' => .ok fs'
  | none => .error (if (fs.leaf? p).isSome then fileExists else notADirectory)

/-- Creates the directory of a name and those above it. -/
def createDirAll (fs : GitDir) (path : Str) : Except Error GitDir := do
  let r ← resolve path
  makeDirs fs r.path

/-- Puts a file in place of whatever file is there. -/
def replaceFile (fs : GitDir) (r : Resolved) (data : Bytes) : Except Error GitDir :=
  if fs.isDir r.path then .error isADirectory
  else if r.dirOnly then .error notADirectory
  else match fs.putLeaf r.path data with
    | some fs' => .ok fs'
    | none => .error (absent fs r.path.dropLast)

/-- Writes a file, creating or replacing it. -/
def write (fs : GitDir) (path : Str) (data : Bytes) : Except Error GitDir := do
  let r ← resolve path
  let fs ← makeDirs fs r.path.dropLast
  replaceFile fs r data

/-- Adds to a file, creating it and its directories where they are not there. -/
def append (fs : GitDir) (path : Str) (data : Bytes) : Except Error GitDir := do
  let r ← resolve path
  let fs ← makeDirs fs r.path.dropLast
  replaceFile fs r ((fs.leaf? r.path).getD [] ++ data)

/-- Creates a file that must not exist. -/
def createNew (fs : GitDir) (path : Str) (data : Bytes) : Except Error GitDir := do
  let r ← resolve path
  let fs ← makeDirs fs r.path.dropLast
  if (fs.get? r.path).isSome then .error fileExists else replaceFile fs r data

/-- Removes a file. -/
def removeFile (fs : GitDir) (path : Str) : Except Error GitDir := do
  match ← stat fs path with
  | .dir => .error isADirectory
  | .leaf _ =>
    let r ← resolve path
    match fs.removeLeaf r.path with
    | some fs' => .ok fs'
    | none => .error noSuchFile

/-- Renames a file, replacing the file of the new name. -/
def rename (fs : GitDir) (src dst : Str) : Except Error GitDir := do
  let data ← read fs src
  let r ← resolve dst
  let fs ← removeFile fs src
  replaceFile fs r data

/-- The entries of a directory. -/
def readDir (fs : GitDir) (path : Str) : Except Error (List (Str × Entry Bytes)) := do
  let r ← resolve path
  match fs.get? r.path with
  | some .dir => .ok (fs.children r.path)
  | some (.leaf _) => .error notADirectory
  | none => .error (absent fs r.path)

/-! ## What the operations do -/

variable {fs fs' : GitDir} {name : Str} {p : List Str} {data : Bytes}

theorem readDir_ok_iff {r : Resolved} (h : resolve name = .ok r)
    {entries : List (Str × Entry Bytes)} :
    readDir fs name = .ok entries ↔ fs.get? r.path = some .dir ∧ entries = fs.children r.path := by
  rw [readDir, h, except_ok_bind]
  cases hget : fs.get? r.path with
  | none => exact iff_of_false (fun h => by cases h) fun h => by cases h.1
  | some e =>
      cases e with
      | dir => exact ⟨fun h => ⟨rfl, (Except.ok.inj h).symm⟩, fun h => by rw [h.2]⟩
      | leaf d => exact iff_of_false (fun h => by cases h) fun h => by cases h.1

/-- A name of normal components other than `..`, and without a NUL, leads where it says. -/
theorem resolve_normal (hnul : Char.ofNat 0 ∉ name) (hdots : str ".." ∉ name.splitOn '/')
    (hc : ∀ c ∈ name.splitOn '/', isNormalComponent c = true) :
    resolve name = .ok ⟨name.splitOn '/', false⟩ := by
  have habs : name.head? ≠ some '/' := by
    intro h
    obtain ⟨rest, rfl⟩ : ∃ rest, name = '/' :: rest := by
      cases name with
      | nil => cases h
      | cons c rest => exact ⟨rest, by simpa using h⟩
    have hnil := hc [] (by rw [List.splitOn_cons_eq_if_modifyHead]; simp)
    simp [isNormalComponent] at hnil
  have hlast : ((name.splitOn '/').getLast?.map isNormalComponent).getD true = true := by
    cases h : (name.splitOn '/').getLast? with
    | none => rfl
    | some c => exact hc c (List.mem_of_getLast? h)
  rw [resolve, if_neg habs, if_neg (by simpa using hdots), if_neg (by simpa using hnul),
    List.filter_eq_self.mpr hc, hlast]
  rfl

theorem stat_of_resolve (fs : GitDir) (hr : resolve name = .ok ⟨p, false⟩) :
    stat fs name = match fs.get? p with
      | some e => .ok e
      | none => .error (absent fs p) := by
  rw [stat, hr]
  simp only [bind, Except.bind]
  split <;> simp_all

/-- A directory is found whatever its name ends in, a file only under a plain name. -/
theorem stat_ok {e : Entry Bytes} : stat fs name = .ok e ↔
    ∃ r, resolve name = .ok r ∧ fs.get? r.path = some e ∧ (r.dirOnly = true → e = .dir) := by
  rw [stat, except_bind_ok]
  refine exists_congr fun r => and_congr_right fun _ => ?_
  split
  · rename_i d h
    rw [h]
    cases hd : r.dirOnly <;> simp
    · rintro ⟨⟩
      simp
  · rename_i h
    rw [h]
    simp
    rintro rfl _
    rfl
  · rename_i h
    rw [h]
    simp

theorem pathExists_iff : pathExists fs name = true ↔ ∃ e, stat fs name = .ok e := by
  rw [pathExists]
  cases stat fs name <;> simp [Except.toBool]

theorem read_ok : read fs name = .ok data ↔ stat fs name = .ok (.leaf data) := by
  rw [read, except_bind_ok]
  constructor
  · rintro ⟨e, he, h⟩
    cases e with
    | leaf d =>
        cases h
        exact he
    | dir => cases h
  · exact fun h => ⟨_, h, rfl⟩

theorem makeDirs_ok : makeDirs fs p = .ok fs' ↔ fs.createDirAll p = some fs' := by
  rw [makeDirs]
  split
  · rename_i fs₁ h
    rw [h]
    simp
  · rename_i h
    rw [h]
    simp

theorem replaceFile_ok {r : Resolved} : replaceFile fs r data = .ok fs' ↔
    r.dirOnly = false ∧ fs.putLeaf r.path data = some fs' := by
  rw [replaceFile]
  split
  · rename_i h
    refine ⟨fun h' => (by cases h'), fun h' => ?_⟩
    have hsome := putLeaf_isSome.mp (Option.isSome_iff_exists.mpr ⟨_, h'.2⟩)
    exact absurd (isDir_iff.mp h) hsome.2.2
  split
  · rename_i h
    refine ⟨fun h' => (by cases h'), fun h' => ?_⟩
    rw [h'.1] at h
    cases h
  · rename_i h
    have hfalse : r.dirOnly = false := by simpa using h
    split <;> simp_all

/-- A write makes the file and its directories, and nothing else. -/
theorem get?_write (hr : resolve name = .ok ⟨p, false⟩) (h : write fs name data = .ok fs')
    (q : List Str) :
    fs'.get? q = if q = p then some (.leaf data) else if q <+: p.dropLast then some .dir
      else fs.get? q := by
  obtain ⟨r, hr', h⟩ := except_bind_ok.mp h
  cases hr.symm.trans hr'
  obtain ⟨fs₁, hdirs, hput⟩ := except_bind_ok.mp h
  rw [makeDirs_ok] at hdirs
  obtain ⟨-, hput⟩ := replaceFile_ok.mp hput
  rw [get?_putLeaf hput, get?_createDirAll hdirs]

/-- **A file is written** unless a file is in the place of one of its directories, or a directory in
its own. -/
theorem write_returns (hr : resolve name = .ok ⟨p, false⟩) (hp : p ≠ []) :
    (∃ fs', write fs name data = .ok fs') ↔ fs.NoLeafTo p.dropLast ∧ fs.get? p ≠ some .dir := by
  have hbelow : ¬p <+: p.dropLast := by
    intro hprefix
    have hle := hprefix.length_le
    have hpos := List.length_pos_of_ne_nil hp
    rw [List.length_dropLast] at hle
    omega
  constructor
  · rintro ⟨fs', h⟩
    obtain ⟨r, hr', h⟩ := except_bind_ok.mp h
    cases hr.symm.trans hr'
    obtain ⟨fs₁, hdirs, hput⟩ := except_bind_ok.mp h
    rw [makeDirs_ok] at hdirs
    have hplaced := putLeaf_isSome.mp (Option.isSome_of_eq_some (replaceFile_ok.mp hput).2)
    refine ⟨createDirAll_isSome.mp (Option.isSome_of_eq_some hdirs), ?_⟩
    rw [← if_neg (c := p <+: p.dropLast) (t := some Entry.dir) (e := fs.get? p) hbelow,
      ← get?_createDirAll hdirs]
    exact hplaced.2.2
  · rintro ⟨hway, hdir⟩
    obtain ⟨fs₁, hdirs⟩ := Option.isSome_iff_exists.mp (createDirAll_isSome.mpr hway)
    have hparent : fs₁.get? p.dropLast = some .dir := by
      rw [get?_createDirAll hdirs, if_pos List.prefix_rfl]
    have hfree : fs₁.get? p ≠ some .dir := by
      rwa [get?_createDirAll hdirs, if_neg hbelow]
    obtain ⟨fs', hput⟩ := Option.isSome_iff_exists.mp
      ((putLeaf_isSome (d := data)).mpr ⟨hp, hparent, hfree⟩)
    exact ⟨fs', except_bind_ok.mpr ⟨_, hr, except_bind_ok.mpr ⟨fs₁, makeDirs_ok.mpr hdirs,
      replaceFile_ok.mpr ⟨rfl, hput⟩⟩⟩⟩

/-- Adding to a file keeps every other file. -/
theorem get?_append (hr : resolve name = .ok ⟨p, false⟩) (h : append fs name data = .ok fs') :
    fs'.get? p = some (.leaf ((fs.leaf? p).getD [] ++ data)) ∧
    ∀ q d, q ≠ p → fs.get? q = some (.leaf d) → fs'.get? q = some (.leaf d) := by
  obtain ⟨r, hr', h⟩ := except_bind_ok.mp h
  cases hr.symm.trans hr'
  obtain ⟨fs₁, hdirs, hput⟩ := except_bind_ok.mp h
  rw [makeDirs_ok] at hdirs
  obtain ⟨-, hput⟩ := replaceFile_ok.mp hput
  have hway := createDirAll_isSome.mp (Option.isSome_iff_exists.mpr ⟨_, hdirs⟩)
  have hkept : ∀ q d, fs.get? q = some (.leaf d) → fs₁.get? q = some (.leaf d) := by
    intro q d hq
    rw [get?_createDirAll hdirs, if_neg fun hprefix => hway q d hprefix hq, hq]
  have hne : p ≠ [] := (putLeaf_isSome.mp (Option.isSome_iff_exists.mpr ⟨_, hput⟩)).1
  have hleaf : fs₁.leaf? p = fs.leaf? p := by
    rw [leaf?, leaf?, get?_createDirAll hdirs, if_neg]
    intro hprefix
    have hlen : p.length ≤ p.dropLast.length := hprefix.length_le
    rw [List.length_dropLast] at hlen
    have := List.length_pos_iff.mpr hne
    omega
  constructor
  · rw [get?_putLeaf hput, if_pos rfl, hleaf]
  · intro q d hqp hq
    rw [get?_putLeaf hput, if_neg hqp, hkept q d hq]

/-- What is read under a plain name is the file there. -/
theorem read_of_resolve (hr : resolve name = .ok ⟨p, false⟩) : read fs name = .ok data ↔
    fs.get? p = some (.leaf data) := by
  rw [read_ok, stat_of_resolve fs hr]
  split
  · rename_i e he
    rw [he]
    simp
  · rename_i he
    rw [he]
    simp

/-- A file is removed under a plain name that leads to it. -/
theorem removeFile_ok : removeFile fs name = .ok fs' ↔
    ∃ p, resolve name = .ok ⟨p, false⟩ ∧ fs.removeLeaf p = some fs' := by
  rw [removeFile, except_bind_ok]
  constructor
  · rintro ⟨e, he, h⟩
    obtain ⟨⟨p, dirOnly⟩, hr, hget, hdir⟩ := stat_ok.mp he
    cases e with
    | dir => cases h
    | leaf d =>
        have hplain : dirOnly = false := by
          cases dirOnly with
          | true => cases hdir rfl
          | false => rfl
        subst hplain
        refine ⟨p, hr, ?_⟩
        simp only [hr, bind, Except.bind] at h
        split at h <;> simp_all
  · rintro ⟨p, hr, h⟩
    obtain ⟨d, hd⟩ := removeLeaf_isSome.mp (Option.isSome_iff_exists.mpr ⟨_, h⟩)
    refine ⟨.leaf d, stat_ok.mpr ⟨_, hr, hd, by simp⟩, ?_⟩
    simp [hr, bind, Except.bind, h]

end Vfs
end Puregit
