import Puregit.Worktree

/-! # The two ways to switch the work tree

The repository and the command line differ in what they remove before the tree is written.  The
repository also removes a tracked link that the tree keeps, passes over a path that is no text, and
prunes directories even if there was nothing to remove.  Either way it is one sweep over a list of
paths, `forM_removeStale` and `forM_clearEntry`, and the same work after it, `switchHead_eq` and
`switchWorktree_eq`.
-/
namespace Puregit
open ObjectDatabase

/-! ## Paths -/

section Paths

theorem foldl_joinPath {names : List Bytes} {dir : Bytes} (hdir : dir ≠ []) :
    names.foldl joinPath dir = dir ++ names.flatMap (slash :: ·) := by
  induction names generalizing dir with
  | nil => simp
  | cons name names ih =>
    have hjoin : joinPath dir name = dir ++ slash :: name := if_neg (by simpa using hdir)
    rw [List.foldl_cons, hjoin, ih (by simp), List.flatMap_cons]
    simp

theorem splitOn_flatMap_slash {names : List Bytes} (h : ∀ n ∈ names, slash ∉ n) {first : Bytes}
    (hfirst : slash ∉ first) :
    (first ++ names.flatMap (slash :: ·)).splitOn slash = first :: names := by
  induction names generalizing first with
  | nil => rw [List.flatMap_nil, List.append_nil, List.splitOn_eq_singleton hfirst]
  | cons name names ih =>
    obtain ⟨hname, hnames⟩ := List.forall_mem_cons.mp h
    rw [List.flatMap_cons, List.cons_append, List.splitOn_append_cons_self_of_not_mem hfirst,
      ih hnames hname]

/-- The components of joined names are the names. -/
theorem components_joinPath {names : List Bytes} (hne : names ≠ [])
    (h : ∀ n ∈ names, Tree.isComponent n = true) :
    Worktree.components (names.foldl joinPath []) = names := by
  obtain ⟨name, rest, rfl⟩ := List.exists_cons_of_ne_nil hne
  obtain ⟨hname, hrest⟩ := List.forall_mem_cons.mp h
  obtain ⟨hnonempty, hslash, -⟩ := Tree.isComponent_iff.mp hname
  rw [List.foldl_cons, show joinPath [] name = name from rfl, foldl_joinPath hnonempty]
  exact splitOn_flatMap_slash (fun n hn => (Tree.isComponent_iff.mp (hrest n hn)).2.1) hslash

end Paths

namespace Worktree

/-- A component that is safe for the index is safe for the command line. -/
theorem safeComponent {c : Bytes} (h : isSafePathComponent c = true) :
    c.isEmpty = false ∧ c ≠ bytes "." ∧ c ≠ bytes ".." ∧ asciiEqIgnoreCase c (bytes ".git") =
      false ∧ 92 ∉ c := by
  rw [isSafePathComponent] at h
  split at h
  · cases h
  next hdots =>
  split at h
  · cases h
  next hbytes =>
  simp only [Bool.or_eq_true, beq_iff_eq, not_or, Bool.not_eq_true] at hdots
  have hbackslash : 92 ∉ c := fun hmem => hbytes (List.any_eq_true.mpr ⟨92, hmem, by decide⟩)
  refine ⟨hdots.1.1, hdots.1.2, hdots.2, ?_, hbackslash⟩
  -- a name that is `.git` but for its case ends in a letter, so nothing is trimmed off it
  by_contra hgit
  rw [Bool.not_eq_false] at hgit
  have hlower : c.map asciiLower = (bytes ".git").map asciiLower := by
    simpa [asciiEqIgnoreCase] using hgit
  have hlast : c.reverse.dropWhile (fun b => b == 46 || b == 32) = c.reverse := by
    have hreverse := congrArg List.reverse hlower
    rw [← List.map_reverse] at hreverse
    cases hc : c.reverse with
    | nil =>
      rw [hc] at hreverse
      exact absurd hreverse (by decide)
    | cons b rest =>
      rw [hc, List.map_cons] at hreverse
      have hb : asciiLower b = 116 := (List.cons.inj hreverse).1
      have hother : (b == 46 || b == 32) = false := by
        by_contra hb'
        rw [Bool.not_eq_false, Bool.or_eq_true, beq_iff_eq, beq_iff_eq] at hb'
        rcases hb' with rfl | rfl <;> exact absurd hb (by decide)
      rw [List.dropWhile_cons_of_neg (by simp [hother])]
  simp [isDotGitComponent, hlast, hgit] at h

theorem safeRelPath_of_safe {path : Bytes} (h : isSafeIndexPath path = true) :
    safeRelPath path = true := by
  rw [isSafeIndexPath, Bool.and_eq_true] at h
  rw [safeRelPath, Bool.and_eq_true]
  refine ⟨h.1, List.all_eq_true.mpr fun c hc => ?_⟩
  obtain ⟨hempty, hdot, hdots, hgit, hbackslash⟩ := safeComponent (List.all_eq_true.mp h.2 c hc)
  simp [hempty, hdot, hdots, hgit, hbackslash]

/-! ## Sweeping paths -/

section Sweep
variable {flat : FlatMap} {work names : List Bytes} {e : IndexEntry} {entries : List IndexEntry}
  {disk disk' : Disk} {c : Checkout}

/-- The disk without the file or link at some names below the work tree, and without the directories
above it that are then empty; `always` has them taken away even if nothing was there. -/
def sweep (always : Bool) (work names : List Bytes) (disk : Disk) : Disk :=
  match disk.removeFile (work ++ names) with
  | .ok disk => pruneDirs work names.reverse.tail disk
  | .error _ => if always then pruneDirs work names.reverse.tail disk else disk

/-- Sweeps one path after the other. -/
def sweepAll (always : Bool) (work : List Bytes) (paths : List (List Bytes)) (disk : Disk) : Disk :=
  paths.foldl (fun disk names => sweep always work names disk) disk

/-- The paths of the entries that a tree does not have, read as text whatever they are. -/
def stalePaths (flat : FlatMap) (entries : List IndexEntry) : List (List Bytes) :=
  (entries.filter fun e => (flat.get? e.path).isNone).map fun e =>
    components (toUtf8 (fromUtf8Lossy e.path))

/-- The paths that are text, of the entries that a tree does not have or that are links. -/
def clearedPaths (flat : FlatMap) (entries : List IndexEntry) : List (List Bytes) :=
  (entries.filter fun e => (flat.get? e.path).isNone || isLink e).filterMap fun e =>
    (fromUtf8 e.path).map fun rel => components (toUtf8 rel)

/-- Pruning takes away, if anything. -/
theorem pruneDirs_within (work names : List Bytes) (disk : Disk) :
    (pruneDirs work names disk).Within disk := by
  induction names generalizing disk with
  | nil => exact fun p e h => h
  | cons name above ih =>
    rw [pruneDirs]
    split
    · next hremove => exact (ih _).trans (Disk.removeDir_within hremove).1
    · exact fun p e h => h

/-- So does the repository, whether or not something is there. -/
theorem clearPath_eq (work names : List Bytes) (disk : Disk) :
    clearPath work names disk = .ok (sweep true work names disk) := by
  rw [clearPath, removeNonDir, sweep]
  by_cases hoccupied : disk.Occupied (work ++ names)
  · obtain ⟨disk₁, hremove⟩ := Disk.removeFile_iff.mpr hoccupied
    obtain ⟨leaf, hleaf⟩ := hoccupied
    rw [hleaf, hremove]
    rfl
  · cases hremove : disk.removeFile (work ++ names) with
    | ok disk₁ => exact absurd (Disk.removeFile_iff.mp ⟨disk₁, hremove⟩) hoccupied
    | error err =>
      split
      · next leaf hleaf => exact absurd ⟨leaf, hleaf⟩ hoccupied
      · rfl

theorem forM_cons_apply {α σ : Type} {f : α → Exec σ Error Unit} {a : α} {l : List α} (s : σ) :
    ((a :: l).forM f) s = (f a >>= fun _ => l.forM f) s := rfl

/-- **The loop of the command line sweeps the paths of the stale entries.** -/
theorem forM_removeStale (hsafe : ∀ e ∈ entries, isSafeIndexPath e.path = true) (c : Checkout) :
    (entries.forM fun e => onDiskOf fun _ => onDisk fun disk =>
      .ok (removeStale flat work e disk)) c =
      some (.ok (), { c with disk := sweepAll false work (stalePaths flat entries) c.disk }) := by
  induction entries generalizing c with
  | nil => rfl
  | cons e entries ih =>
    obtain ⟨he, hentries⟩ := List.forall_mem_cons.mp hsafe
    rw [forM_cons_apply, Exec.bind_apply, Exec.andThen]
    refine (ih hentries _).trans ?_
    rw [stalePaths, stalePaths, List.filter_cons, removeStale, safeRelPath_of_safe he,
      Bool.and_true]
    split
    · rfl
    · rfl

/-- **The loop of the repository sweeps the paths of the stale entries and of the links.** -/
theorem forM_clearEntry (hsafe : ∀ e ∈ entries, isSafeIndexPath e.path = true) (c : Checkout) :
    (entries.forM fun e => onDiskOf fun _ => onDisk (clearEntry flat work e)) c =
      some (.ok (), { c with disk := sweepAll true work (clearedPaths flat entries) c.disk }) := by
  induction entries generalizing c with
  | nil => rfl
  | cons e entries ih =>
    obtain ⟨he, hentries⟩ := List.forall_mem_cons.mp hsafe
    have hclear : clearEntry flat work e c.disk =
        .ok (sweepAll true work (clearedPaths flat [e]) c.disk) := by
      rw [clearEntry, clearedPaths, List.filter_cons, List.filter_nil]
      simp only [he, Bool.not_true, Bool.or_false, Bool.not_eq_true']
      cases hkind : (flat.get? e.path).isNone || isLink e with
      | false => rfl
      | true =>
        simp only [Bool.true_eq_false, if_false, if_true, List.filterMap_cons, List.filterMap_nil]
        cases fromUtf8 e.path with
        | none => rfl
        | some rel => exact clearPath_eq _ _ _
    have hstep : (onDiskOf fun _ => onDisk (clearEntry flat work e)) c =
        some (.ok (), { c with disk := sweepAll true work (clearedPaths flat [e]) c.disk }) := by
      rw [onDiskOf, onDisk, hclear]
      rfl
    have hpaths : clearedPaths flat (e :: entries) =
        clearedPaths flat [e] ++ clearedPaths flat entries := by
      rw [clearedPaths, clearedPaths, clearedPaths, ← List.filterMap_append, ← List.filter_append,
        List.singleton_append]
    rw [forM_cons_apply, Exec.bind_apply, Exec.andThen, hstep, hpaths]
    refine (ih hentries _).trans ?_
    rw [sweepAll, sweepAll, sweepAll, List.foldl_append]

end Sweep

/-! ## What a guarded entry is -/

section Guard
variable {disk disk' : Disk} {dest : List Bytes}

/-- A step on the disk that succeeded. -/
theorem onDisk_ok {f : Disk → Except Error Disk} :
    onDisk f disk = some (.ok (), disk') ↔ f disk = .ok disk' := by
  rw [onDisk]
  cases f disk with
  | ok d => simp
  | error err => simp

/-- An entry that may be written is not in the place of a link. -/
theorem guardEntry_ok {entry : TreeEntry} (h : guardEntry entry dest disk = some (.ok (), disk')) :
    disk' = disk ∧ isSafePathComponent entry.name = true ∧ fromUtf8 entry.name ≠ none ∧
      ∀ target, disk.lstat (dest ++ [entry.name]) ≠ some (.leaf (.link target)) := by
  rw [guardEntry] at h
  split at h
  · cases h
  next hsafe =>
  cases hname : fromUtf8 entry.name with
  | none =>
    rw [hname] at h
    cases h
  | some name =>
    rw [hname] at h
    simp only at h
    rw [Exec.read, Option.some.injEq, Prod.mk.injEq] at h
    obtain ⟨hcheck, rfl⟩ := h
    refine ⟨rfl, by simpa using hsafe, by simp, fun target htarget => ?_⟩
    rw [htarget] at hcheck
    cases hcheck

end Guard

/-! ## Switching -/

section Switching
variable {depth : Nat} {tree : ObjectId} {flat : FlatMap} {index : Index} {work : List Bytes}
  {c : Checkout}

/-- The entries of the index of a repository have paths that are safe. -/
theorem index_safe {repo : Repository} (h : repo.index = .ok index) :
    ∀ e ∈ index.entries, isSafeIndexPath e.path = true := by
  rw [Repository.index] at h
  split at h
  · obtain ⟨bytes, -, hparse⟩ := except_bind_ok.mp h
    exact Index.parse_safe hparse
  · cases h
    exact nofun

/-- What is written and read behind the removals. -/
def finish (depth : Nat) (tree : ObjectId) (work : List Bytes) : Exec Checkout Error Unit := do
  onDiskOf fun repo => checkoutTree repo depth tree work
  onRepo (Repository.readTree depth tree)

theorem switchHead_eq (hflat : (flattenTree depth c.repo.odb tree).run = some (.ok flat))
    (hindex : c.repo.index = .ok index) : switchHead depth tree work c =
      finish depth tree work
        { c with disk := sweepAll false work (stalePaths flat index.entries) c.disk } := by
  rw [switchHead]
  simp only [Exec.bind_apply, Exec.andThen, Exec.eval, Exec.read, hflat, hindex, Option.map_some]
  rw [forM_removeStale (index_safe hindex)]
  rfl

theorem switchWorktree_eq (hflat : (flattenTree depth c.repo.odb tree).run = some (.ok flat))
    (hindex : c.repo.index = .ok index) : switchWorktree depth tree work c =
      finish depth tree work
        { c with disk := sweepAll true work (clearedPaths flat index.entries) c.disk } := by
  rw [switchWorktree]
  simp only [Exec.bind_apply, Exec.andThen, Exec.eval, Exec.read, hflat, hindex, Option.map_some]
  rw [forM_clearEntry (index_safe hindex)]
  rfl

/-- Without a flattening or an index neither goes on. -/
theorem switch_eq_of_unread (h : ∀ flat index, (flattenTree depth c.repo.odb tree).run =
    some (.ok flat) →
    c.repo.index ≠ .ok index) : switchHead depth tree work c =
      switchWorktree depth tree work c := by
  rw [switchHead, switchWorktree]
  simp only [Exec.bind_apply, Exec.andThen, Exec.eval, Exec.read]
  cases hflat : (flattenTree depth c.repo.odb tree).run with
  | none => rfl
  | some r =>
    cases r with
    | error err => rfl
    | ok flat =>
      cases hindex : c.repo.index with
      | error err => simp only [Option.map_some, hindex]
      | ok index => exact absurd hindex (h flat index hflat)

end Switching

end Worktree
end Puregit
