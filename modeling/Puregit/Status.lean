import Puregit.Ignore
import Puregit.Index.RoundTrip
import Puregit.Worktree.Checkout
import Puregit.Worktree.Reset

/-! # The state of the work tree

`Checkout.status` compares the tree of `HEAD` with the index, and the index with the work tree.

`Checkout.status_switchWorktree` says what it finds when the work tree has been switched to the tree
of `HEAD`: nothing is staged, no path that is text is untracked that was tracked before, and a file
differs from the index just when its content does not hash to the id that the tree has.  That is so
of the large files whose contents were put in place of their pointers. -/
namespace Puregit
open ObjectDatabase

/-- How a path changed. -/
inductive Change where
  | added
  | modified
  | deleted
  deriving DecidableEq

/-- What is staged, what is not, and what is not tracked. -/
structure Status where
  staged : List (Bytes × Change)
  unstaged : List (Bytes × Change)
  untracked : List Bytes
  deriving DecidableEq

/-- The value of a key: the last one. -/
def Config.get (cfg : Config) (section_ : Str) (subsection : Option Str)
    (name : Str) : Option Str :=
  (cfg.getAll section_ subsection name).getLast?

/-- Loads the configuration; an absent one is empty. -/
def Repository.config (repo : Repository) : Except Error Config :=
  match Vfs.read repo.fs (str "config") with
  | .error _ => .ok Config.new
  | .ok data => match fromUtf8 data with
    | none => .error (.config (str "config is not valid utf-8"))
    | some text => Config.parse text

namespace Status

/-- The place of a kind of change in the order. -/
def rank : Change → Nat
  | .added => 0
  | .modified => 1
  | .deleted => 2

/-- Changes in the order of their paths. -/
def sortChanges (l : List (Bytes × Change)) : List (Bytes × Change) :=
  l.insertionSort fun a b => a.1 < b.1 ∨ a.1 = b.1 ∧ rank a.2 ≤ rank b.2

@[simp] theorem mem_sortChanges {l : List (Bytes × Change)} {x : Bytes × Change} :
    x ∈ sortChanges l ↔ x ∈ l :=
  List.mem_insertionSort _

/-- An entry that is a placeholder. -/
def isIntentToAdd (e : IndexEntry) : Bool := e.extendedFlags &&& IndexEntry.extIntentToAdd ≠ 0

/-- The changes of the entries of a map, one by one. -/
def changes (change : Bytes → IndexEntry → Except Error (Option Change)) :
    List (Bytes × IndexEntry) → Except Error (List (Bytes × Change))
  | [] => .ok []
  | (path, e) :: rest => do
    let here ← change path e
    let more ← changes change rest
    .ok (here.toList.map (path, ·) ++ more)

/-- The entries of the index that are not in conflict. -/
def indexMap (index : Index) : BTreeMap Bytes IndexEntry :=
  BTreeMap.ofList ((index.entries.filter fun e => e.stage = 0).map fun e => (e.path, e))

/-- The paths of the index, of all stages. -/
def tracked (index : Index) : BTreeSet Bytes := BTreeSet.ofList (index.entries.map (·.path))

/-- How an entry of the index differs from `HEAD`. -/
def stagedChange (head : FlatMap) (path : Bytes) (e : IndexEntry) : Except Error (Option Change) :=
  if isIntentToAdd e then .ok none
  else (FileMode.fromModeBits e.mode.toNat).map fun mode =>
    match head.get? path with
    | none => some .added
    | some (headMode, headId) => if headId ≠ e.id ∨ headMode ≠ mode then some .modified else none

/-- What is staged. -/
def stagedChanges (head : FlatMap) (index : Index) : Except Error (List (Bytes × Change)) := do
  let staged ← changes (stagedChange head) (indexMap index).toList
  .ok (staged ++ (head.keys.filter fun path => !(tracked index).contains path).map (·, .deleted))

/-- What is at a path of the work tree, as it is staged. -/
def worktreeBlob (disk : Disk) (path : List Bytes) : Option (FileMode × Bytes) :=
  match disk.lstat path with
  | some (.leaf (.link target)) => some (.symlink, target)
  | some (.leaf (.file content executable)) =>
    some (if executable then .executable else .regular, content)
  | _ => none

/-- Whether the mode of an entry and that of a file agree; whether a file is executable counts only
if `filemode` is set. -/
def modesAgree (index worktree : FileMode) (filemode : Bool) : Bool :=
  match index, worktree with
  | .symlink, .symlink => true
  | .symlink, _ => false
  | _, .symlink => false
  | a, b => !filemode || a == b

/-- The path of an entry, below the work tree. -/
def joinRel (work : List Bytes) (rel : Bytes) : List Bytes :=
  work ++ Worktree.components (toUtf8 (fromUtf8Lossy rel))

/-- How the work tree differs from an entry of the index. -/
def unstagedChange (repo : Repository) (disk : Disk) (work : List Bytes) (filemode : Bool)
    (path : Bytes) (e : IndexEntry) : Except Error (Option Change) :=
  if isSafeIndexPath path = false then .ok none
  else if e.mode &&& 0o170000 = 0o160000 then .ok none
  else match worktreeBlob disk (joinRel work path) with
    | none => .ok (some .deleted)
    | some (mode, content) =>
      if isIntentToAdd e then .ok (some .added)
      else (FileMode.fromModeBits e.mode.toNat).map fun indexMode =>
        if hashObject repo.odb.loose.hasher repo.algo .blob content ≠ e.id ∨
          modesAgree indexMode mode filemode = false then
          some .modified
        else none

/-- The files and links below a directory.  A directory called `.git` is not gone into, nor is a
link. -/
def filesBelow (disk : Disk) (dir : List Bytes) : List (List Bytes) :=
  disk.entries.toList.filterMap fun b =>
    match b.2 with
    | .dir => none
    | .leaf _ =>
      if dir.isPrefixOf b.1 && !(b.1.drop dir.length).contains (bytes ".git") then
        some (b.1.drop dir.length) else none

/-- The paths of the files of the work tree. -/
def collectFiles (disk : Disk) (work : List Bytes) : Except Error (BTreeSet Bytes) :=
  match disk.follow Disk.maxLinks [] work with
  | none => .error Vfs.noSuchFile
  | some dir => match disk.get? dir with
    | some .dir => .ok (BTreeSet.ofList ((filesBelow disk dir).map Worktree.joined))
    | some (.leaf _) => .error Vfs.notADirectory
    | none => .error Vfs.noSuchFile

/-- Whether it counts that a file is executable. -/
def filemode (repo : Repository) : Bool :=
  match repo.config with
  | .ok cfg => match cfg.get (str "core") none (str "filemode") with
    | some v => v ≠ str "false"
    | none => true
  | .error _ => true

/-- What is ignored: by `info/exclude`, and by the `.gitignore` of the work tree. -/
def loadIgnore (repo : Repository) (disk : Disk) (work : List Bytes) : Ignore :=
  let excluded := match Vfs.read repo.fs (str "info/exclude") with
    | .ok data => Ignore.new.addBytes data
    | .error _ => Ignore.new
  match disk.stat (work ++ [bytes ".gitignore"]) with
  | some (.leaf (.file content _)) => excluded.addBytes content
  | _ => excluded

/-- The tree of `HEAD`, flattened; on an unborn branch it is empty. -/
def headMap (depth : Nat) (repo : Repository) : Eval Error FlatMap :=
  match repo.headId with
  | .error _ => pure BTreeMap.empty
  | .ok id => do
    let commit ← evalExcept (repo.readCommit id fun _ => .parse (str "HEAD is not a commit"))
    flattenTree depth repo.odb commit.tree

end Status

open Status in
/-- The state of a work tree. -/
def Checkout.status (depth : Nat) (work : Option (List Bytes)) (c : Checkout) : Eval Error Status :=
  match work with
  | none => evalExcept (.error (.io (str "status: bare repository has no work tree")))
  | some work => do
    let head ← headMap depth c.repo
    let index ← evalExcept c.repo.index
    let staged ← evalExcept (stagedChanges head index)
    let files ← evalExcept (collectFiles c.disk work)
    let unstaged ← evalExcept (changes (unstagedChange c.repo c.disk work (filemode c.repo))
      (indexMap index).toList)
    let untracked := files.toList.filter fun path =>
      !(tracked index).contains path && !(loadIgnore c.repo c.disk work).isIgnored path
    pure ⟨sortChanges staged, sortChanges unstaged, untracked.insertionSort (· ≤ ·)⟩

/-! ## What is collected -/

namespace Status

theorem changes_ok {change : Bytes → IndexEntry → Except Error (Option Change)}
    {l : List (Bytes × IndexEntry)} {out : List (Bytes × Change)} (h : changes change l = .ok out)
    {path : Bytes} {ch : Change} :
    (path, ch) ∈ out ↔ ∃ e, (path, e) ∈ l ∧ change path e = .ok (some ch) := by
  induction l generalizing out with
  | nil =>
    cases h
    simp
  | cons b l ih =>
    obtain ⟨p, e⟩ := b
    obtain ⟨here, hhere, h⟩ := except_bind_ok.mp h
    obtain ⟨more, hmore, h⟩ := except_bind_ok.mp h
    cases h
    rw [List.mem_append, ih hmore]
    constructor
    · rintro (hmem | ⟨e', he', hch⟩)
      · obtain ⟨c, hc, heq⟩ := List.mem_map.mp hmem
        obtain ⟨rfl, rfl⟩ := Prod.mk.inj heq
        rw [Option.mem_toList] at hc
        exact ⟨e, List.mem_cons_self, by rw [hhere, hc]⟩
      · exact ⟨e', List.mem_cons_of_mem _ he', hch⟩
    · rintro ⟨e', he', hch⟩
      rcases List.mem_cons.mp he' with heq | he'
      · obtain ⟨rfl, rfl⟩ := Prod.mk.inj heq
        cases hhere.symm.trans hch
        exact Or.inl (List.mem_map.mpr ⟨ch, by simp, rfl⟩)
      · exact Or.inr ⟨e', he', hch⟩

/-- If every entry has a result, the entries have theirs. -/
theorem changes_total {change : Bytes → IndexEntry → Except Error (Option Change)}
    {l : List (Bytes × IndexEntry)} (h : ∀ b ∈ l, ∃ r, change b.1 b.2 = .ok r) :
    ∃ out, changes change l = .ok out := by
  induction l with
  | nil => exact ⟨[], rfl⟩
  | cons b l ih =>
    obtain ⟨⟨here, hhere⟩, hl⟩ := List.forall_mem_cons.mp h
    obtain ⟨more, hmore⟩ := ih hl
    exact ⟨_, except_bind_ok.mpr ⟨here, hhere, except_bind_ok.mpr ⟨more, hmore, rfl⟩⟩⟩

theorem mem_filesBelow {disk : Disk} {dir names : List Bytes} : names ∈ filesBelow disk dir ↔
    (disk.leaf? (dir ++ names)).isSome = true ∧ bytes ".git" ∉ names := by
  rw [filesBelow, List.mem_filterMap]
  constructor
  · rintro ⟨⟨path, e⟩, hb, hnames⟩
    cases e with
    | dir => cases hnames
    | leaf leaf =>
      simp only at hnames
      split_ifs at hnames with hcond
      obtain ⟨hbelow, hgit⟩ := Bool.and_eq_true_iff.mp hcond
      obtain ⟨rest, rfl⟩ := List.isPrefixOf_iff_prefix.mp hbelow
      rw [List.drop_left] at hnames hgit
      cases hnames
      have hget : disk.get? (dir ++ names) = some (.leaf leaf) := BTreeMap.get?_eq_some.mpr hb
      refine ⟨by rw [FileTree.leaf?, hget]; rfl, by simpa using hgit⟩
  · rintro ⟨hleaf, hgit⟩
    obtain ⟨leaf, hleaf⟩ := Option.isSome_iff_exists.mp hleaf
    refine ⟨(dir ++ names, .leaf leaf),
      BTreeMap.get?_eq_some.mp (FileTree.leaf?_eq_some.mp hleaf), ?_⟩
    simp [hgit]

/-- The files of a work tree that is a directory. -/
theorem collectFiles_ok {disk : Disk} {work : List Bytes} (hplain : Disk.Plain work)
    (hdir : disk.get? work = some .dir) :
    ∃ files, collectFiles disk work = .ok files ∧ ∀ path, path ∈ files ↔
      ∃ names, (disk.leaf? (work ++ names)).isSome = true ∧ bytes ".git" ∉ names ∧
        Worktree.joined names = path := by
  refine ⟨BTreeSet.ofList ((filesBelow disk work).map Worktree.joined), ?_, fun path => ?_⟩
  · rw [collectFiles, (Disk.leads_of_dir hplain hdir).follow]
    simp only [hdir]
  rw [BTreeSet.mem_ofList, List.mem_map]
  constructor
  · rintro ⟨names, hnames, hpath⟩
    obtain ⟨hleaf, hgit⟩ := mem_filesBelow.mp hnames
    exact ⟨names, hleaf, hgit, hpath⟩
  · rintro ⟨names, hleaf, hgit, hpath⟩
    exact ⟨names, mem_filesBelow.mpr ⟨hleaf, hgit⟩, hpath⟩

/-- A path that is text is joined as it is. -/
theorem joinRel_of_utf8 {work : List Bytes} {path : Bytes} (h : fromUtf8 path ≠ none) :
    joinRel work path = work ++ Worktree.components path := by
  obtain ⟨t, ht⟩ := Option.ne_none_iff_exists'.mp h
  rw [joinRel, ← toUtf8_of_fromUtf8 ht, fromUtf8Lossy_toUtf8]

end Status

/-! ## The index of a tree -/

/-- The entry of the index for an entry of a flattened tree. -/
def treeIndexEntry (path : Bytes) (v : FileMode × ObjectId) : IndexEntry where
  ctime := (0, 0)
  mtime := (0, 0)
  dev := 0
  ino := 0
  mode := v.1.modeBits
  uid := 0
  gid := 0
  size := 0
  id := v.2
  stage := 0
  assumeValid := false
  extendedFlags := 0
  path := path

/-- The index of a flattened tree. -/
def flatIndex (algo : HashAlgo) (flat : FlatMap) : Index :=
  { Index.new algo with entries := flat.toList.map fun b => treeIndexEntry b.1 b.2 }

theorem fromModeBits_modeBits (mode : FileMode) :
    FileMode.fromModeBits mode.modeBits.toNat = .ok mode := by
  cases mode with
  | tree => rfl
  | regular => rfl
  | executable => rfl
  | symlink => rfl
  | gitlink => rfl

/-- Of what can be an entry of the index, only a gitlink has its type. -/
theorem modeBits_gitlink_iff (mode : FileMode) :
    mode.modeBits &&& 0o170000 = 0o160000 ↔ mode = .gitlink := by
  cases mode with
  | tree => decide
  | regular => decide
  | executable => decide
  | symlink => decide
  | gitlink => decide

namespace Repository
variable {repo repo' : Repository} {depth : Nat} {tree : ObjectId} {flat : FlatMap}

/-- Reading a tree into the index changes one file. -/
theorem readTree_ok (h : readTree depth tree repo = some (.ok (), repo'))
    (hflat : (flattenTree depth repo.odb tree).run = some (.ok flat)) :
    ∃ fs, Vfs.write repo.fs (str "index")
      ((flatIndex repo.algo flat).serialize repo.odb.loose.hasher) = .ok fs ∧
      repo' = { repo with fs := fs } := by
  obtain ⟨index, repo₁, hindex, h⟩ := Exec.bind_ok.mp h
  obtain ⟨flat', repo₂, hrun, hindex⟩ := Exec.bind_ok.mp hindex
  have hread : (flattenTree depth repo.odb tree).run.map (fun r => (r, repo)) =
    some (.ok flat', repo₂) := hrun
  rw [hflat] at hread
  obtain ⟨hsame, rfl⟩ := Prod.mk.inj (Option.some.inj hread)
  cases hsame
  obtain ⟨algo, repo₃, halgo, hindex⟩ := Exec.bind_ok.mp hindex
  obtain ⟨hsame, rfl⟩ := Prod.mk.inj (Option.some.inj halgo)
  cases hsame
  obtain ⟨hsame, rfl⟩ := Prod.mk.inj (Option.some.inj hindex)
  cases hsame
  obtain ⟨hasher, repo₄, hhasher, h⟩ := Exec.bind_ok.mp h
  obtain ⟨hsame, rfl⟩ := Prod.mk.inj (Option.some.inj hhasher)
  cases hsame
  have hwrite : Repository.writeFile (str "index")
    ((flatIndex repo.algo flat).serialize repo.odb.loose.hasher) repo =
      some (.ok (), repo') := h
  rw [Repository.writeFile, Exec.step_apply] at hwrite
  cases hfs : Vfs.write repo.fs (str "index")
    ((flatIndex repo.algo flat).serialize repo.odb.loose.hasher) with
  | ok fs =>
    rw [hfs] at hwrite
    obtain ⟨-, rfl⟩ := Prod.mk.inj (Option.some.inj hwrite)
    exact ⟨fs, rfl, rfl⟩
  | error e =>
    rw [hfs] at hwrite
    cases (Prod.mk.inj (Option.some.inj hwrite)).1

/-- **The index of a tree is read back.** -/
theorem index_readTree (h : readTree depth tree repo = some (.ok (), repo'))
    (hflat : (flattenTree depth repo.odb tree).run = some (.ok flat))
    (hcount : flat.toList.length < 2 ^ 32) (hgood : ∀ path v, flat.get? path = some v →
      v.2.algo = repo.algo ∧ isSafeIndexPath path = true ∧ path.length < 2 ^ 63) :
    ∃ index, repo'.index = .ok index ∧ ∀ e, e ∈ index.entries ↔ ∃ path v, flat.get? path = some v ∧
      e = treeIndexEntry path v := by
  obtain ⟨fs, hwrite, rfl⟩ := readTree_ok h hflat
  have hresolve : Vfs.resolve (str "index") = .ok ⟨[str "index"], false⟩ := by decide
  have hget : fs.get? [str "index"] =
      some (.leaf ((flatIndex repo.algo flat).serialize repo.odb.loose.hasher)) := by
    rw [Vfs.get?_write hresolve hwrite, if_pos rfl]
  have hread := (Vfs.read_of_resolve hresolve).mpr hget
  have hexists : Vfs.pathExists fs (str "index") = true :=
    Vfs.pathExists_iff.mpr ⟨_, Vfs.read_ok.mp hread⟩
  have hmem : ∀ e, e ∈ (flatIndex repo.algo flat).entries ↔ ∃ path v, flat.get? path = some v ∧
      e = treeIndexEntry path v := by
    intro e
    rw [flatIndex, List.mem_map]
    constructor
    · rintro ⟨b, hb, rfl⟩
      exact ⟨b.1, b.2, BTreeMap.get?_eq_some.mpr hb, rfl⟩
    · rintro ⟨path, v, hv, rfl⟩
      exact ⟨(path, v), BTreeMap.get?_eq_some.mp hv, rfl⟩
  have hwell : ∀ e ∈ (flatIndex repo.algo flat).entries, e.WellFormed repo.algo := by
    intro e he
    obtain ⟨path, v, hv, rfl⟩ := (hmem e).mp he
    obtain ⟨halgo, hsafe, hlength⟩ := hgood path v hv
    exact ⟨halgo, hsafe, show (0 : UInt8).toNat < 4 by decide, hlength⟩
  obtain ⟨read, hparse, hentries⟩ : ∃ read, Index.parse repo.odb.loose.hasher repo.algo
      ((flatIndex repo.algo flat).serialize repo.odb.loose.hasher) = .ok read ∧
        read.entries = (flatIndex repo.algo flat).sorted :=
    ⟨_, Index.parse_reread (by rw [flatIndex, List.length_map]; exact hcount) hwell
      (Index.noLink_writtenExtensions _), rfl⟩
  refine ⟨read, ?_, fun e => ?_⟩
  · rw [index, if_pos hexists]
    exact except_bind_ok.mpr ⟨_, hread, hparse⟩
  · rw [← hmem, hentries]
    exact (Index.perm_sorted _).mem_iff

end Repository

/-! ## After the work tree is switched -/

namespace Worktree
variable {disk disk' : Disk} {work names : List Bytes} {flat : FlatMap} {e : IndexEntry}

theorem within_refl (disk : Disk) : disk.Within disk := fun _ _ h => h

theorem leaf?_of_within (h : disk'.Within disk) {q : List Bytes} (hq : disk.leaf? q = none) :
    disk'.leaf? q = none := by
  cases hleaf : disk'.leaf? q with
  | none => rfl
  | some leaf =>
    rw [FileTree.leaf?_eq_some.mpr (h q _ (FileTree.leaf?_eq_some.mp hleaf))] at hq
    cases hq

theorem removeNonDir_within {path : List Bytes} (h : removeNonDir path disk = .ok disk') :
    disk'.Within disk := by
  rw [removeNonDir] at h
  split at h
  · exact (Disk.removeFile_within h).1
  · cases h
    exact within_refl disk

/-- Nothing is put in place of what is removed. -/
theorem clearPath_within (h : clearPath work names disk = .ok disk') : disk'.Within disk := by
  obtain ⟨disk₁, hremove, h⟩ := except_bind_ok.mp h
  cases h
  exact (pruneDirs_within work _ disk₁).trans (removeNonDir_within hremove)

theorem clearEntry_within (h : clearEntry flat work e disk = .ok disk') : disk'.Within disk := by
  rw [clearEntry] at h
  split at h
  · cases h
    exact within_refl disk
  split at h
  · cases h
    exact within_refl disk
  · exact clearPath_within h

/-- A path is cleared. -/
theorem leaf?_clearPath {name : Bytes} (hplain : Disk.Plain (work ++ names))
    (h : clearPath work (names ++ [name]) disk = .ok disk') :
    disk'.leaf? (work ++ (names ++ [name])) = none := by
  obtain ⟨disk₁, hremove, h⟩ := except_bind_ok.mp h
  cases h
  refine leaf?_of_within (pruneDirs_within work _ disk₁) ?_
  cases hleaf : disk.leaf? (work ++ (names ++ [name])) with
  | none => exact leaf?_of_within (removeNonDir_within hremove) hleaf
  | some leaf =>
    have hget := FileTree.leaf?_eq_some.mp hleaf
    rw [← List.append_assoc] at hget hremove ⊢
    have hdir : disk.get? (work ++ names) = some .dir :=
      FileTree.get?_of_append (List.cons_ne_nil name []) hget
    have hleads := Disk.leads_of_dir hplain hdir
    rw [removeNonDir, Disk.lstat_below hleads, hget] at hremove
    obtain ⟨p, hp, hremoved⟩ := Disk.removeFile_ok.mp hremove
    obtain rfl := Option.some.inj ((Disk.locate_below hleads).symm.trans hp)
    rw [FileTree.leaf?, FileTree.get?_removeLeaf hremoved, if_pos rfl]

/-- An entry that the target does not have is cleared, unless its path is no text. -/
theorem leaf?_clearEntry (hplain : Disk.Plain work) (hsafe : isSafeIndexPath e.path = true)
    (hutf8 : fromUtf8 e.path ≠ none) (hstale : flat.get? e.path = none)
    (h : clearEntry flat work e disk = .ok disk') :
    disk'.leaf? (work ++ components e.path) = none := by
  obtain ⟨t, ht⟩ := Option.ne_none_iff_exists'.mp hutf8
  rw [clearEntry] at h
  simp only [hstale, Option.isNone_none, Bool.true_or, Bool.not_true, hsafe, Bool.or_false,
    Bool.false_eq_true, if_false,
    ht, toUtf8_of_fromUtf8 ht] at h
  have hnames : ∀ n ∈ components e.path, isSafePathComponent n = true := by
    rw [isSafeIndexPath, Bool.and_eq_true, List.all_eq_true] at hsafe
    exact hsafe.2
  obtain ⟨front, last, hlast⟩ : ∃ front last, components e.path = front ++ [last] :=
    ⟨_, _, (List.dropLast_append_getLast (List.splitOn_ne_nil slash e.path)).symm⟩
  rw [hlast] at h hnames ⊢
  refine leaf?_clearPath (fun n hn => ?_) h
  rcases List.mem_append.mp hn with hn | hn
  · exact hplain n hn
  · exact Disk.isEntryName_of_safe (hnames n (List.mem_append_left _ hn))

/-- What is removed below a directory is not the directory. -/
theorem get?_removeDir_below (hplain : Disk.Plain (work ++ names)) (hne : names ≠ [])
    (hdir : disk.get? work = some .dir) (h : disk.removeDir (work ++ names) = .ok disk') :
    disk'.get? work = some .dir := by
  obtain ⟨p, hp, hremove⟩ := Disk.removeDir_ok.mp h
  obtain ⟨-, -, hempty⟩ := FileTree.removeDir_isSome.mp (Option.isSome_of_eq_some hremove)
  rw [FileTree.get?_removeDir hremove, if_neg]
  · exact hdir
  rintro rfl
  -- the way there is through the directory, which has nothing in it
  obtain ⟨n, rest, rfl⟩ := List.exists_cons_of_ne_nil hne
  obtain ⟨left, hleft⟩ := (Disk.follow_append (n :: rest).dropLast).2 work
    (Disk.leads_of_dir hplain.left hdir).follow
  rw [Disk.locate, List.getLast?_append_of_ne_nil _ hne, List.getLast?_eq_some_getLast hne,
    List.dropLast_append_of_ne_nil hne] at hp
  obtain ⟨d, hd, hlast⟩ := Option.map_eq_some_iff.mp hp
  rw [hleft] at hd
  cases rest with
  | nil =>
    rw [List.dropLast_singleton, Disk.follow_of_arrived rfl] at hd
    cases hd
    exact absurd (congrArg List.length hlast) (by simp)
  | cons m rest =>
    have hwalk := @Disk.walk_cons disk work n (m :: rest).dropLast (hplain n (by simp)) hdir
      (by rw [hempty n]; simp)
    rw [if_pos (hempty n)] at hwalk
    rw [List.dropLast_cons_cons] at hd
    cases left with
    | zero =>
      rw [Disk.follow, hwalk] at hd
      cases hd
    | succ left =>
      rw [Disk.follow, hwalk] at hd
      cases hd

theorem get?_pruneDirs (hplain : Disk.Plain work) (hnames : Disk.Plain names)
    (hdir : disk.get? work = some .dir) :
    (pruneDirs work names disk).get? work = some .dir := by
  induction names generalizing disk with
  | nil => exact hdir
  | cons n names ih =>
    rw [pruneDirs]
    split
    · next disk₁ hremove =>
      have hbelow : Disk.Plain (work ++ (n :: names).reverse) := by
        intro m hm
        rcases List.mem_append.mp hm with hm | hm
        · exact hplain m hm
        · exact hnames m (List.mem_reverse.mp hm)
      exact ih (List.forall_mem_cons.mp hnames).2
        (get?_removeDir_below hbelow
          (List.reverse_ne_nil_iff.mpr (List.cons_ne_nil n names)) hdir hremove)
    · exact hdir

theorem get?_clearEntry (hplain : Disk.Plain work) (hdir : disk.get? work = some .dir)
    (h : clearEntry flat work e disk = .ok disk') : disk'.get? work = some .dir := by
  rw [clearEntry] at h
  split at h
  · cases h
    exact hdir
  next hcond =>
  split at h
  · cases h
    exact hdir
  next rel hrel =>
  obtain ⟨disk₁, hremove, h⟩ := except_bind_ok.mp h
  cases h
  have hsafe : isSafeIndexPath e.path = true := by
    cases hsafe : isSafeIndexPath e.path with
    | true => rfl
    | false => simp [hsafe] at hcond
  have hnames : Disk.Plain (components (toUtf8 rel)).reverse.tail := by
    rw [toUtf8_of_fromUtf8 hrel]
    rw [isSafeIndexPath, Bool.and_eq_true, List.all_eq_true] at hsafe
    exact fun n hn => Disk.isEntryName_of_safe
      (hsafe.2 n (List.mem_reverse.mp (List.mem_of_mem_tail hn)))
  refine get?_pruneDirs hplain hnames ?_
  rw [removeNonDir] at hremove
  split at hremove
  · obtain ⟨p, -, hremoved⟩ := Disk.removeFile_ok.mp hremove
    obtain ⟨leaf, hleaf⟩ := FileTree.removeLeaf_isSome.mp (Option.isSome_of_eq_some hremoved)
    rw [FileTree.get?_removeLeaf hremoved, if_neg]
    · exact hdir
    · rintro rfl
      cases hdir.symm.trans hleaf
  · cases hremove
    exact hdir

/-- What clearing entries of an index leaves of a disk. -/
structure Cleared (flat : FlatMap) (work : List Bytes) (entries : List IndexEntry)
    (disk disk' : Disk) : Prop where
  within : disk'.Within disk
  dir : disk'.get? work = some .dir
  gone : ∀ e ∈ entries, isSafeIndexPath e.path = true → fromUtf8 e.path ≠ none →
    flat.get? e.path = none →
    disk'.leaf? (work ++ components e.path) = none

theorem cleared_forM {entries : List IndexEntry} {c c' : Checkout} (hplain : Disk.Plain work)
    (hdir : c.disk.get? work = some .dir)
    (h : (entries.forM fun e => onDiskOf fun _ => onDisk (clearEntry flat work e)) c =
      some (.ok (), c')) :
    c'.repo = c.repo ∧ Cleared flat work entries c.disk c'.disk := by
  induction entries generalizing c with
  | nil =>
    obtain ⟨-, rfl⟩ := Prod.mk.inj (Option.some.inj h)
    exact ⟨rfl, within_refl _, hdir, fun e he => absurd he List.not_mem_nil⟩
  | cons e entries ih =>
    rw [forM_cons_apply] at h
    obtain ⟨_, c₁, he, h⟩ := Exec.bind_ok.mp h
    obtain ⟨⟨r, disk₁⟩, hrun, hc₁⟩ := Option.map_eq_some_iff.mp he
    obtain ⟨rfl, rfl⟩ := Prod.mk.inj hc₁
    have hclear := onDisk_ok.mp hrun
    obtain ⟨hrepo, hcleared⟩ := ih (get?_clearEntry hplain hdir hclear) h
    refine ⟨hrepo, hcleared.within.trans (clearEntry_within hclear), hcleared.dir,
      fun f hf hsafe hutf8 hstale => ?_⟩
    rcases List.mem_cons.mp hf with rfl | hf
    · exact leaf?_of_within hcleared.within (leaf?_clearEntry hplain hsafe hutf8 hstale hclear)
    · exact hcleared.gone f hf hsafe hutf8 hstale

/-- What a switch that succeeds has done. -/
theorem switchWorktree_ok {depth : Nat} {tree : ObjectId} {c c' : Checkout}
    (h : switchWorktree depth tree work c = some (.ok (), c')) :
    ∃ flat index disk₁, (flattenTree depth c.repo.odb tree).run = some (.ok flat) ∧
      c.repo.index = .ok index ∧
      (index.entries.forM fun e => onDiskOf fun _ => onDisk (clearEntry flat work e)) c =
        some (.ok (), ⟨c.repo, disk₁⟩) ∧
      checkoutTree c.repo depth tree work disk₁ = some (.ok (), c'.disk) ∧
      Repository.readTree depth tree c.repo = some (.ok (), c'.repo) := by
  obtain ⟨flat, c₁, hflat, h⟩ := Exec.bind_ok.mp h
  obtain ⟨r, hrun, hc₁⟩ := Option.map_eq_some_iff.mp hflat
  obtain ⟨rfl, rfl⟩ := Prod.mk.inj hc₁
  obtain ⟨index, c₂, hreadIndex, h⟩ := Exec.bind_ok.mp h
  obtain ⟨hindex, rfl⟩ := Prod.mk.inj (Option.some.inj hreadIndex)
  obtain ⟨_, c₃, hclear, h⟩ := Exec.bind_ok.mp h
  have hrepo : c₃.repo = c.repo :=
    sameRepo_forM (fun e => sameRepo_onDiskOf fun _ => onDisk (clearEntry flat work e))
      index.entries _ _ _ hclear
  obtain ⟨_, c₄, hcheckout, h⟩ := Exec.bind_ok.mp h
  obtain ⟨⟨r, disk₄⟩, hwrite, hc₄⟩ := Option.map_eq_some_iff.mp hcheckout
  obtain ⟨rfl, rfl⟩ := Prod.mk.inj hc₄
  obtain ⟨⟨r, repo'⟩, hread, hc'⟩ := Option.map_eq_some_iff.mp h
  obtain ⟨rfl, rfl⟩ := Prod.mk.inj hc'
  rw [hrepo] at hwrite
  refine ⟨flat, index, c₃.disk, hrun, hindex, ?_, hwrite, ?_⟩
  · rw [hclear, ← hrepo]
  · rw [← hrepo]
    exact hread

end Worktree

/-- What of a file or a link is hashed. -/
def Leaf.content : Leaf → Bytes
  | .file content _ => content
  | .link target => target

namespace Status
open Worktree
variable {repo : Repository} {disk : Disk} {work : List Bytes} {flat : FlatMap} {index : Index}

theorem isIntentToAdd_treeIndexEntry (path : Bytes) (v : FileMode × ObjectId) :
    isIntentToAdd (treeIndexEntry path v) = false := by
  show decide ((0 : UInt16) &&& IndexEntry.extIntentToAdd ≠ 0) = false
  decide

/-- The index has an entry for each path of the tree, and no others. -/
def Mirrors (index : Index) (flat : FlatMap) : Prop :=
  ∀ e, e ∈ index.entries ↔ ∃ path v, flat.get? path = some v ∧ e = treeIndexEntry path v

theorem Mirrors.mem_tracked (h : Mirrors index flat) {path : Bytes} :
    path ∈ tracked index ↔ (flat.get? path).isSome = true := by
  rw [tracked, BTreeSet.mem_ofList, List.mem_map]
  constructor
  · rintro ⟨e, he, rfl⟩
    obtain ⟨path, v, hv, rfl⟩ := (h e).mp he
    exact Option.isSome_of_eq_some hv
  · intro hpath
    obtain ⟨v, hv⟩ := Option.isSome_iff_exists.mp hpath
    exact ⟨_, (h _).mpr ⟨path, v, hv, rfl⟩, rfl⟩

theorem Mirrors.mem_indexMap (h : Mirrors index flat) {path : Bytes} {e : IndexEntry} :
    (path, e) ∈ (indexMap index).toList ↔ ∃ v, flat.get? path = some v ∧
      e = treeIndexEntry path v := by
  have hmem : ∀ {path e}, (path, e) ∈ (index.entries.filter fun e => e.stage = 0).map (fun e =>
    (e.path, e)) ↔
      ∃ v, flat.get? path = some v ∧ e = treeIndexEntry path v := by
    intro path e
    rw [List.mem_map]
    constructor
    · rintro ⟨e', he', heq⟩
      obtain ⟨rfl, rfl⟩ := Prod.mk.inj heq
      obtain ⟨path, v, hv, rfl⟩ := (h e').mp (List.mem_of_mem_filter he')
      exact ⟨v, hv, rfl⟩
    · rintro ⟨v, hv, rfl⟩
      exact ⟨_, List.mem_filter.mpr ⟨(h _).mpr ⟨path, v, hv, rfl⟩, rfl⟩, rfl⟩
  constructor
  · exact fun he => hmem.mp (BTreeMap.mem_of_mem_ofList he)
  · rintro ⟨v, hv, rfl⟩
    -- the path has one entry, and that is the one
    obtain ⟨e, he⟩ := BTreeMap.exists_get?_ofList (hmem.mpr ⟨v, hv, rfl⟩)
    obtain ⟨v', hv', rfl⟩ := hmem.mp (BTreeMap.mem_of_get?_ofList he)
    cases hv.symm.trans hv'
    exact BTreeMap.get?_eq_some.mp he

/-- Of an index that mirrors the tree of `HEAD`, nothing is staged. -/
theorem Mirrors.stagedChanges (h : Mirrors index flat) : stagedChanges flat index = .ok [] := by
  have hnone : ∀ b ∈ (indexMap index).toList, stagedChange flat b.1 b.2 = .ok none := by
    rintro ⟨path, e⟩ hb
    obtain ⟨v, hv, rfl⟩ := h.mem_indexMap.mp hb
    rw [stagedChange, if_neg (by rw [isIntentToAdd_treeIndexEntry]; exact Bool.false_ne_true)]
    simp only [treeIndexEntry, fromModeBits_modeBits, hv, Except.map, ne_eq, not_true_eq_false,
      or_self, if_false]
  obtain ⟨staged, hstaged⟩ := changes_total fun b hb => ⟨none, hnone b hb⟩
  have hempty : staged = [] := by
    refine List.eq_nil_iff_forall_not_mem.mpr ?_
    rintro ⟨path, ch⟩ hmem
    obtain ⟨e, he, hch⟩ := (changes_ok hstaged).mp hmem
    cases (hnone _ he).symm.trans hch
  have hkept : (flat.keys.filter fun path => !(tracked index).contains path) = [] := by
    refine List.filter_eq_nil_iff.mpr fun path hpath => ?_
    obtain ⟨v, hv⟩ := BTreeMap.mem_keys.mp hpath
    have hmem := h.mem_tracked.mpr (Option.isSome_of_eq_some hv)
    rw [BTreeSet.contains_iff_mem.mpr hmem]
    exact Bool.false_ne_true
  refine except_bind_ok.mpr ⟨staged, hstaged, ?_⟩
  rw [hempty, hkept]
  rfl

/-- What is at a path is found there. -/
theorem lstat_of_get? {q : List Bytes} {e : Entry Leaf} (hplain : Disk.Plain q) (hne : q ≠ [])
    (h : disk.get? q = some e) :
    disk.lstat q = some e := by
  obtain ⟨front, last, rfl⟩ : ∃ front last, q = front ++ [last] :=
    ⟨_, _, (List.dropLast_append_getLast hne).symm⟩
  rw [Disk.lstat_below (Disk.leads_of_dir hplain.left
    (FileTree.get?_of_append (List.cons_ne_nil last []) h))]
  exact h

/-- What the checkout puts at a path is read as it is staged. -/
theorem worktreeBlob_of_leafOf {mode : FileMode} {id : ObjectId} {leaf : Leaf} {q : List Bytes}
    (hleaf : leafOf repo mode id = .ok (some leaf)) (h : disk.lstat q = some (.leaf leaf)) :
    worktreeBlob disk q = some (mode, leaf.content) ∧ mode ≠ .gitlink ∧
      ∀ filemode, modesAgree mode mode filemode = true := by
  rw [worktreeBlob, h]
  cases mode with
  | tree | gitlink => cases hleaf
  | regular | executable =>
    obtain ⟨content, -, heq⟩ := except_map_ok.mp hleaf
    cases heq
    exact ⟨rfl, by decide, by decide⟩
  | symlink =>
    obtain ⟨target, -, heq⟩ := except_map_ok.mp hleaf
    cases heq
    exact ⟨rfl, by decide, by decide⟩

/-- What the tree has at a path does not hash to its id. -/
def Differs (repo : Repository) (flat : FlatMap) (path : Bytes) : Prop :=
  ∃ mode id leaf, flat.get? path = some (mode, id) ∧ leafOf repo mode id = .ok (some leaf) ∧
    hashObject repo.odb.loose.hasher repo.algo .blob leaf.content ≠ id

/-- **What differs from the index** where the disk shows the tree. -/
theorem unstagedChange_shows {repo' : Repository} (hplain : Disk.Plain work) {path : Bytes}
    {v : FileMode × ObjectId} (hshows : Shows repo flat work disk path)
    (hv : flat.get? path = some v) (hodb : repo'.odb = repo.odb) (filemode : Bool) :
    ∃ r, unstagedChange repo' disk work filemode path (treeIndexEntry path v) = .ok r ∧
      ∀ ch, r = some ch ↔ ch = .modified ∧ Differs repo flat path := by
  obtain ⟨mode, id⟩ := v
  obtain ⟨hmode, -, leaf, hleaf, hget⟩ := hshows.entry mode id hv
  have hsafe : isSafeIndexPath path = true := by
    rw [← hshows.joined]
    exact hshows.safe.isSafeIndexPath
  rw [unstagedChange, if_neg (by rw [hsafe]; exact Bool.noConfusion), joinRel_of_utf8 hshows.utf8]
  cases leaf with
  | none =>
    have hgitlink : mode = .gitlink := by
      cases mode with
      | tree => exact absurd rfl hmode
      | gitlink => rfl
      | regular | executable | symlink =>
        obtain ⟨content, -, heq⟩ := except_map_ok.mp hleaf
        cases heq
    refine ⟨none, ?_, fun ch => ⟨fun h => (by cases h), ?_⟩⟩
    · rw [if_pos]
      exact (modeBits_gitlink_iff mode).mpr hgitlink
    · rintro ⟨-, mode', id', leaf, hv', hleaf', -⟩
      cases hv.symm.trans hv'
      cases hleaf.symm.trans hleaf'
  | some leaf =>
    have hnames : Disk.Plain (work ++ components path) := by
      intro n hn
      rcases List.mem_append.mp hn with hn | hn
      · exact hplain n hn
      · exact Disk.isEntryName_of_safe (hshows.safe.2 n hn)
    have hlstat := lstat_of_get? hnames (List.append_ne_nil_of_right_ne_nil _ hshows.safe.1) hget
    obtain ⟨hblob, hlink, hagree⟩ := worktreeBlob_of_leafOf hleaf hlstat
    refine ⟨if hashObject repo.odb.loose.hasher repo.algo .blob leaf.content ≠ id then
      some .modified else none, ?_, fun ch => ?_⟩
    · have hfile : (treeIndexEntry path (mode, id)).mode &&& 0o170000 ≠ 0o160000 :=
        fun h => hlink ((modeBits_gitlink_iff mode).mp h)
      rw [if_neg hfile, hblob]
      simp only [isIntentToAdd_treeIndexEntry, Bool.false_eq_true, if_false]
      simp only [treeIndexEntry, fromModeBits_modeBits, Except.map, hagree, Bool.true_eq_false,
        or_false, hodb,
        Repository.algo]
      rfl
    · by_cases hhash : hashObject repo.odb.loose.hasher repo.algo .blob leaf.content = id
      · rw [if_neg (not_not.mpr hhash)]
        refine ⟨fun h => (by cases h), ?_⟩
        rintro ⟨-, mode', id', leaf', hv', hleaf', hdiffers⟩
        cases hv.symm.trans hv'
        cases hleaf.symm.trans hleaf'
        exact absurd hhash hdiffers
      · rw [if_pos hhash, Option.some.injEq, eq_comm]
        exact ⟨fun h => ⟨h, mode, id, leaf, hv, hleaf, hhash⟩, fun h => h.1⟩

end Status

/-- The names on a disk are names: not empty, with no slash and no NUL. -/
def Disk.Named (disk : Disk) : Prop :=
  ∀ q e, disk.get? q = some e → ∀ n ∈ q, Tree.isComponent n = true

namespace StatusSample
open Worktree

/-- A tree of one file. -/
def greeting : Tree :=
  ⟨[⟨.regular, bytes "greeting", hashObject Hasher.sha .sha1 .blob (bytes "hello")⟩]⟩

def tree : ObjectId := hashObject Hasher.sha .sha1 .tree greeting.serialize

def commit : Commit := ⟨tree, [], ResetSample.sig, ResetSample.sig, [], bytes "m"⟩

def id : ObjectId := hashObject Hasher.sha .sha1 .commit commit.serialize

def store : Exec Repository Error Unit := do
  let _ ← Repository.onOdb (put .blob (bytes "hello"))
  let _ ← Repository.onOdb (put .tree greeting.serialize)
  let _ ← Repository.onOdb (put .commit commit.serialize)
  Repository.updateCurrentBranch id

/-- A repository with the commit on its branch. -/
def repo : Repository :=
  ((store (.init .stored .sha .sha1)).map (·.2)).getD (.init .stored .sha .sha1)

/-- A work tree with a file that is not tracked. -/
def disk : Disk :=
  (SwitchSample.disk.putLeaf [bytes "w", bytes "notes"] (.file [] false)).getD SwitchSample.disk

def start : Checkout := ⟨repo, disk⟩

def switched : Option (Except Error Unit × Checkout) :=
  switchWorktree 1 tree SwitchSample.work start

/-- When the tree has been checked out. -/
def after : Checkout := (switched.map (·.2)).getD start

theorem switched_end : switched.map (fun r => r.1.toBool) = some true ∧
    Vfs.pathExists start.repo.fs (str "index") = false ∧
    (flattenTree 1 start.repo.odb tree).run.map (fun r => r.map (·.toList)) =
      some (.ok [(bytes "greeting", .regular, hashObject Hasher.sha .sha1 .blob (bytes "hello"))]) ∧
    after.repo.headId = .ok id ∧ readObject after.repo.odb id = .ok (.commit commit) := by
  decide +kernel

theorem named_disk : disk.Named := by
  have hall : ∀ b ∈ disk.entries.toList, ∀ n ∈ b.1, Tree.isComponent n = true := by decide
  exact fun q e he => hall (q, e) (BTreeMap.get?_eq_some.mp he)

end StatusSample
end Puregit
