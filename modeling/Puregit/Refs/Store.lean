import Puregit.Refs.Format
import Puregit.Vfs

/-! # The ref store

Loose refs are files below the git directory; what has no loose file is looked up in
packed-refs.  An update writes a lock file and renames it into place; a delete removes
the loose file, then the packed entry.

`update_of_canUpdate` and `update_of_not_canUpdate` say all an update does, and
`delete_of_canDelete` and `delete_of_not_canDelete` all a delete does.
-/
namespace Puregit

/-- A reference store over the files of a git directory. -/
@[ext]
structure RefStore where
  vfs : GitDir
  algo : HashAlgo

namespace RefStore

/-- The greatest number of symbolic refs followed, the last value included. -/
def maxSymrefDepth : Nat := 5

/-- Reads and parses packed-refs; empty if there is none. -/
def packed (refs : RefStore) : Except Error (List PackedRef) :=
  if Vfs.pathExists refs.vfs (str "packed-refs") then do
    let contents ← Vfs.read refs.vfs (str "packed-refs")
    parsePackedRefs refs.algo contents
  else .ok []

/-- Reads one ref's value without following symbolic refs. -/
def lookup (refs : RefStore) (name : Str) : Except Error Reference :=
  if Vfs.pathExists refs.vfs name then do
    let contents ← Vfs.read refs.vfs name
    Reference.parse refs.algo contents
  else do
    let entries ← refs.packed
    match entries.find? (·.name = name) with
    | some entry => .ok (.direct entry.id)
    | none => .error (.notFound (.reference name))

/-- Follows symbolic refs from `current`, at most as many as there is fuel for. -/
def resolveFrom (refs : RefStore) (name : Str) : Nat → Str → Except Error ObjectId
  | 0, _ => .error (.reference (str "symref chain too deep starting at " ++ name))
  | n + 1, current => do
    match ← refs.lookup current with
    | .direct id => .ok id
    | .symbolic target => resolveFrom refs name n target

/-- Resolves a ref all the way to an id. -/
def resolve (refs : RefStore) (name : Str) : Except Error ObjectId :=
  refs.resolveFrom name maxSymrefDepth name

/-- The value of a ref, if it has one. -/
def value? (refs : RefStore) (name : Str) : Option Reference := (refs.lookup name).toOption

/-- The id a ref resolves to, if it resolves. -/
def current (refs : RefStore) (name : Str) : Option ObjectId := (refs.resolve name).toOption

/-- The lock file of a ref. -/
def lockName (name : Str) : Str := name ++ str ".lock"

/-- Creates the lock file of a ref, holding the value to come. -/
def lockRef (refs : RefStore) (name : Str) (value : Reference) : Except Error RefStore :=
  if !isValidRefName name && name ≠ str "HEAD" then
    .error (.reference (str "invalid ref name " ++ debugStr name))
  else match Vfs.createNew refs.vfs (lockName name) value.toFileContents with
    | .ok vfs => .ok { refs with vfs := vfs }
    | .error _ => .error (.reference (str "cannot lock ref " ++ debugStr name ++
        str ": it is already locked (another update in progress?)"))

/-- Renames the lock file into place; where that fails the lock file is removed. -/
def commitLock (refs : RefStore) (name : Str) : Except Error Unit × RefStore :=
  match Vfs.rename refs.vfs (lockName name) name with
  | .ok vfs => (.ok (), { refs with vfs := vfs })
  | .error e =>
    match Vfs.removeFile refs.vfs (lockName name) with
    | .ok vfs => (.error e, { refs with vfs := vfs })
    | .error _ => (.error e, refs)

/-- Writes a ref's value as a loose file. -/
def update (refs : RefStore) (name : Str) (value : Reference) : Except Error Unit × RefStore :=
  match refs.lockRef name value with
  | .ok locked => locked.commitLock name
  | .error e => (.error e, refs)

/-- Removes the loose file of a ref, if there is one. -/
def deleteLoose (refs : RefStore) (name : Str) : Except Error RefStore :=
  if Vfs.pathExists refs.vfs name then
    (Vfs.removeFile refs.vfs name).map fun vfs => { refs with vfs := vfs }
  else .ok refs

/-- What packed-refs is to be rewritten as to drop the entries of a ref, if it has any. -/
def packedWithout (refs : RefStore) (name : Str) : Except Error (Option Bytes) :=
  if Vfs.pathExists refs.vfs (str "packed-refs") then do
    let contents ← Vfs.read refs.vfs (str "packed-refs")
    let entries ← parsePackedRefs refs.algo contents
    if entries.any fun e => e.name = name then
      .ok (some (serializePackedRefs (entries.filter fun e => e.name ≠ name)))
    else .ok none
  else .ok none

/-- Rewrites packed-refs, if there is anything to write. -/
def writePacked (refs : RefStore) : Option Bytes → Except Error RefStore
  | none => .ok refs
  | some contents =>
    (Vfs.write refs.vfs (str "packed-refs") contents).map fun vfs => { refs with vfs := vfs }

/-- Drops the entries of a ref from packed-refs, if it has any. -/
def deletePacked (refs : RefStore) (name : Str) : Except Error RefStore := do
  let contents ← refs.packedWithout name
  refs.writePacked contents

/-- Deletes a ref, its loose file first. -/
def delete (refs : RefStore) (name : Str) : Except Error Unit × RefStore :=
  match refs.deleteLoose name with
  | .error e => (.error e, refs)
  | .ok refs =>
    match refs.deletePacked name with
    | .error e => (.error e, refs)
    | .ok refs => (.ok (), refs)

/-! ## The paths of a ref -/

/-- A name a ref can be written under. -/
def IsRefName (name : Str) : Prop := isValidRefName name = true ∨ name = str "HEAD"

instance (name : Str) : Decidable (IsRefName name) := inferInstanceAs (Decidable (_ ∨ _))

/-- A valid name below `refs/`. -/
def IsBelowRefs (name : Str) : Prop :=
  isValidRefName name = true ∧ startsWith name (str "refs/") = true

instance (name : Str) : Decidable (IsBelowRefs name) := inferInstanceAs (Decidable (_ ∧ _))

/-- The path of the loose file of a ref. -/
def refPath (name : Str) : List Str := name.splitOn '/'

/-- The path of the packed refs. -/
def packedPath : List Str := [str "packed-refs"]

theorem refPath_injective {a b : Str} (h : refPath a = refPath b) : a = b := by
  have := congrArg (fun p => [('/' : Char)].intercalate p) h
  simpa [refPath] using this

theorem refPath_ne_nil (name : Str) : refPath name ≠ [] := List.splitOn_ne_nil '/' name

/-- The path of a name below `refs/` starts there. -/
theorem refPath_of_isBelowRefs {name : Str} (h : IsBelowRefs name) :
    ∃ c cs, refPath name = str "refs" :: c :: cs := by
  obtain ⟨rest, rfl⟩ : ∃ rest, name = str "refs" ++ '/' :: rest := by
    obtain ⟨rest, hrest⟩ := List.isPrefixOf_iff_prefix.mp h.2
    exact ⟨rest, by rw [← hrest]; rfl⟩
  obtain ⟨c, cs, hcs⟩ := List.exists_cons_of_ne_nil (refPath_ne_nil rest)
  refine ⟨c, cs, ?_⟩
  rw [← hcs, refPath, List.splitOn_append_cons_self_of_not_mem (by decide), refPath]

/-- Adding to a name adds to the last component. -/
theorem refPath_append {name t : Str} (ht : '/' ∉ t) :
    refPath (name ++ t) = (refPath name).dropLast ++
      [(refPath name).getLast (refPath_ne_nil name) ++ t] := by
  induction name with
  | nil =>
      rw [List.nil_append, refPath, List.splitOn_eq_singleton ht]
      rfl
  | cons c name ih =>
      have hne := refPath_ne_nil name
      simp only [refPath, List.cons_append, List.splitOn_cons_eq_if_modifyHead] at ih hne ⊢
      split
      · rw [ih, List.dropLast_cons_of_ne_nil hne, List.getLast_cons hne, List.cons_append]
      · rw [ih]
        have hhead : ∀ (l : List Str) (h : l ≠ []) (h' : l.modifyHead (c :: ·) ≠ []),
            (l.dropLast ++ [l.getLast h ++ t]).modifyHead (c :: ·) =
              (l.modifyHead (c :: ·)).dropLast ++ [(l.modifyHead (c :: ·)).getLast h' ++ t] := by
          intro l h h'
          cases l with
          | nil => exact absurd rfl h
          | cons a r =>
              cases r with
              | nil => simp
              | cons b r => simp
        exact hhead _ hne _

/-- The path of the lock file of a ref. -/
def lockPath (name : Str) : List Str := refPath (lockName name)

theorem lockPath_eq (name : Str) : lockPath name =
    (refPath name).dropLast ++ [(refPath name).getLast (refPath_ne_nil name) ++ str ".lock"] :=
  refPath_append (by decide)

theorem dropLast_lockPath (name : Str) : (lockPath name).dropLast = (refPath name).dropLast := by
  rw [lockPath_eq, List.dropLast_concat]

/-- The components of a ref name are neither empty nor hidden. -/
theorem component_of_isRefName {name c : Str} (h : IsRefName name) (hc : c ∈ refPath name) :
    c ≠ [] ∧ startsWith c ['.'] = false := by
  rcases h with h | rfl
  · obtain ⟨hne, hdot, -⟩ := component_of_isValidRefName h hc
    exact ⟨hne, hdot⟩
  · revert c
    decide

theorem nul_notMem_of_isRefName {name : Str} (h : IsRefName name) : Char.ofNat 0 ∉ name := by
  rcases h with h | rfl
  · intro hc
    have hf := not_forbidden_of_isValidRefName h hc
    revert hf
    decide
  · decide

/-- A name of such components leads to its path. -/
theorem resolve_of_components {name : Str} (hnul : Char.ofNat 0 ∉ name)
    (h : ∀ c ∈ refPath name, c ≠ [] ∧ startsWith c ['.'] = false) :
    Vfs.resolve name = .ok ⟨refPath name, false⟩ := by
  have hne : ∀ c ∈ refPath name, ∀ r, c ≠ '.' :: r := by
    rintro c hc r rfl
    have hdot := (h _ hc).2
    simp [startsWith, List.isPrefixOf] at hdot
  refine Vfs.resolve_normal hnul (fun hc => hne _ hc _ rfl) fun c hc => ?_
  have hc1 := (h c hc).1
  have hc2 := hne c hc []
  simp [Vfs.isNormalComponent, hc1, hc2]

/-- A ref name leads to its path. -/
theorem resolve_refPath {name : Str} (h : IsRefName name) :
    Vfs.resolve name = .ok ⟨refPath name, false⟩ :=
  resolve_of_components (nul_notMem_of_isRefName h) fun _ => component_of_isRefName h

/-- So does the name of its lock. -/
theorem resolve_lockPath {name : Str} (h : IsRefName name) :
    Vfs.resolve (lockName name) = .ok ⟨lockPath name, false⟩ := by
  refine resolve_of_components ?_ fun c hc => ?_
  · intro hc
    rcases List.mem_append.mp hc with hc | hc
    · exact nul_notMem_of_isRefName h hc
    · revert hc
      decide
  · rw [← lockPath, lockPath_eq, List.mem_append, List.mem_singleton] at hc
    rcases hc with hc | rfl
    · exact component_of_isRefName h (List.dropLast_subset _ hc)
    · obtain ⟨hne, hdot⟩ := component_of_isRefName h
        (List.getLast_mem (refPath_ne_nil name))
      cases hl : (refPath name).getLast (refPath_ne_nil name) with
      | nil => exact absurd hl hne
      | cons a r =>
          rw [hl] at hdot
          refine ⟨by simp, ?_⟩
          simpa [startsWith, List.isPrefixOf] using hdot

/-- No ref is a lock file. -/
theorem lockPath_ne_refPath {a b : Str} (hb : IsRefName b) : lockPath a ≠ refPath b := by
  intro h
  have hlast : (refPath b).getLast (refPath_ne_nil b) =
      (refPath a).getLast (refPath_ne_nil a) ++ str ".lock" := by
    have := congrArg List.getLast? h
    rw [lockPath_eq, List.getLast?_concat, List.getLast?_eq_some_getLast (refPath_ne_nil b)] at this
    exact (Option.some_injective _ this).symm
  have hend : endsWith ((refPath b).getLast (refPath_ne_nil b)) (str ".lock") = true := by
    rw [hlast, endsWith, List.isSuffixOf_iff_suffix]
    exact List.suffix_append _ _
  rcases hb with hb | rfl
  · have := (component_of_isValidRefName hb (List.getLast_mem (refPath_ne_nil b))).2.2
    rw [this] at hend
    cases hend
  · revert hend
    decide

/-! ## What an update does -/

variable {refs refs' : RefStore} {name : Str} {value : Reference}

/-- A ref can be locked if its name is one, no file is in the way of its directory, and
nothing is at the path of its lock. -/
structure CanLock (fs : GitDir) (name : Str) : Prop where
  isRefName : IsRefName name
  way : fs.NoLeafTo (refPath name).dropLast
  unlocked : fs.get? (lockPath name) = none

theorem lockPath_ne_nil (name : Str) : lockPath name ≠ [] := refPath_ne_nil _

theorem not_lockPath_prefix_dropLast (name : Str) :
    ¬ lockPath name <+: (refPath name).dropLast := by
  intro h
  have hlen := h.length_le
  rw [lockPath_eq, List.length_append, List.length_singleton] at hlen
  omega

theorem createNew_lock (h : IsRefName name) (fs : GitDir) (data : Bytes) :
    (∀ fs', Vfs.createNew fs (lockName name) data = .ok fs' →
      fs.NoLeafTo (refPath name).dropLast ∧ fs.get? (lockPath name) = none ∧
      ∀ q, fs'.get? q = if q = lockPath name then some (.leaf data)
        else if q <+: (refPath name).dropLast then some .dir else fs.get? q) ∧
    (fs.NoLeafTo (refPath name).dropLast → fs.get? (lockPath name) = none →
      ∃ fs', Vfs.createNew fs (lockName name) data = .ok fs') := by
  have hcreate : Vfs.createNew fs (lockName name) data =
      (Vfs.makeDirs fs (refPath name).dropLast >>= fun fs₁ =>
        if (fs₁.get? (lockPath name)).isSome then .error Vfs.fileExists
        else Vfs.replaceFile fs₁ ⟨lockPath name, false⟩ data) := by
    rw [Vfs.createNew, resolve_lockPath h]
    simp only [bind, Except.bind, dropLast_lockPath]
  have hlock : ∀ fs₁, fs.createDirAll (refPath name).dropLast = some fs₁ →
      fs₁.get? (lockPath name) = fs.get? (lockPath name) := by
    intro fs₁ h₁
    rw [FileTree.get?_createDirAll h₁, if_neg (not_lockPath_prefix_dropLast name)]
  rw [hcreate]
  constructor
  · intro fs' hok
    obtain ⟨fs₁, h₁, hok⟩ := except_bind_ok.mp hok
    rw [Vfs.makeDirs_ok] at h₁
    have hway := FileTree.createDirAll_isSome.mp (Option.isSome_iff_exists.mpr ⟨_, h₁⟩)
    split at hok
    · cases hok
    rename_i hnone
    rw [hlock fs₁ h₁, Option.not_isSome_iff_eq_none] at hnone
    obtain ⟨-, hput⟩ := Vfs.replaceFile_ok.mp hok
    refine ⟨hway, hnone, fun q => ?_⟩
    rw [FileTree.get?_putLeaf hput, FileTree.get?_createDirAll h₁]
  · intro hway hnone
    obtain ⟨fs₁, h₁⟩ := Option.isSome_iff_exists.mp (FileTree.createDirAll_isSome.mpr hway)
    have hdir : fs₁.get? (refPath name).dropLast = some .dir := by
      rw [FileTree.get?_createDirAll h₁, if_pos List.prefix_rfl]
    obtain ⟨fs', h'⟩ := Option.isSome_iff_exists.mp (FileTree.putLeaf_isSome
      (t := fs₁) (p := lockPath name) (d := data) |>.mpr ⟨lockPath_ne_nil name, by
        rwa [dropLast_lockPath], by rw [hlock fs₁ h₁, hnone]; simp⟩)
    refine ⟨fs', except_bind_ok.mpr ⟨fs₁, Vfs.makeDirs_ok.mpr h₁, ?_⟩⟩
    rw [hlock fs₁ h₁, hnone, if_neg (by simp)]
    exact Vfs.replaceFile_ok.mpr ⟨rfl, h'⟩

/-- **A ref is locked when it can be; its lock file then holds the new value, in a
directory made for it, and nothing else changes.** -/
theorem lockRef_ok (value : Reference) :
    (∃ refs', refs.lockRef name value = .ok refs') ↔ CanLock refs.vfs name := by
  rw [lockRef]
  split
  · rename_i hname
    refine ⟨fun ⟨_, h⟩ => (by cases h), fun h => ?_⟩
    rcases h.isRefName with hv | hv
    · simp [hv] at hname
    · simp [hv] at hname
  · rename_i hname
    have hname' : IsRefName name := by
      by_contra hn
      rw [IsRefName, not_or] at hn
      exact hname (by simp [hn.1, hn.2])
    obtain ⟨hok, hcan⟩ := createNew_lock hname' refs.vfs value.toFileContents
    constructor
    · rintro ⟨refs', h⟩
      split at h
      · rename_i fs' hfs
        obtain ⟨hway, hfree, -⟩ := hok fs' hfs
        exact ⟨hname', hway, hfree⟩
      · cases h
    · intro h
      obtain ⟨fs', hfs⟩ := hcan h.way h.unlocked
      rw [hfs]
      exact ⟨_, rfl⟩

theorem get?_lockRef (h : refs.lockRef name value = .ok refs') : refs'.algo = refs.algo ∧
    ∀ q, refs'.vfs.get? q = if q = lockPath name then some (.leaf value.toFileContents)
      else if q <+: (refPath name).dropLast then some .dir else refs.vfs.get? q := by
  have hcan := (lockRef_ok value).mp ⟨refs', h⟩
  obtain ⟨hok, -⟩ := createNew_lock hcan.isRefName refs.vfs value.toFileContents
  rw [lockRef] at h
  split at h
  · cases h
  split at h
  · rename_i fs' hfs
    cases h
    exact ⟨rfl, (hok fs' hfs).2.2⟩
  · cases h

/-- **A held lock is renamed into place unless a directory is there; either way it is
gone afterwards.** -/
theorem commitLock_spec {data : Bytes} (hname : IsRefName name)
    (hlock : refs.vfs.get? (lockPath name) = some (.leaf data)) :
    (refs.commitLock name).2.algo = refs.algo ∧
    if refs.vfs.get? (refPath name) = some .dir then
      (∃ e, (refs.commitLock name).1 = .error e) ∧ ∀ q, (refs.commitLock name).2.vfs.get? q =
        if q = lockPath name then none else refs.vfs.get? q
    else (refs.commitLock name).1 = .ok () ∧ ∀ q, (refs.commitLock name).2.vfs.get? q =
        if q = refPath name then some (.leaf data)
        else if q = lockPath name then none else refs.vfs.get? q := by
  have hread : Vfs.read refs.vfs (lockName name) = .ok data :=
    Vfs.read_ok.mpr (Vfs.stat_ok.mpr ⟨_, resolve_lockPath hname, hlock, by simp⟩)
  obtain ⟨fs₁, h₁⟩ := Option.isSome_iff_exists.mp (FileTree.removeLeaf_isSome.mpr ⟨data, hlock⟩)
  have hremove : Vfs.removeFile refs.vfs (lockName name) = .ok fs₁ :=
    Vfs.removeFile_ok.mpr ⟨_, resolve_lockPath hname, h₁⟩
  have hget := fun q => FileTree.get?_removeLeaf h₁ q
  have hne : refPath name ≠ lockPath name := Ne.symm (lockPath_ne_refPath hname)
  have hrename : Vfs.rename refs.vfs (lockName name) name =
      Vfs.replaceFile fs₁ ⟨refPath name, false⟩ data := by
    simp only [Vfs.rename, hread, resolve_refPath hname, hremove, bind, Except.bind]
  rw [commitLock, hrename]
  by_cases hdir : refs.vfs.get? (refPath name) = some .dir
  · rw [if_pos hdir]
    have hdir₁ : fs₁.isDir (refPath name) = true := by
      rw [FileTree.isDir_iff, hget, if_neg hne, hdir]
    have hfail : Vfs.replaceFile fs₁ ⟨refPath name, false⟩ data = .error Vfs.isADirectory := by
      rw [Vfs.replaceFile, if_pos hdir₁]
    rw [hfail, hremove]
    exact ⟨rfl, ⟨_, rfl⟩, hget⟩
  · rw [if_neg hdir]
    have hparent : fs₁.get? (refPath name).dropLast = some .dir := by
      rw [hget, if_neg]
      · rw [← dropLast_lockPath]
        exact FileTree.get?_dropLast (lockPath_ne_nil name) hlock
      · intro h
        exact not_lockPath_prefix_dropLast name (h ▸ List.prefix_rfl)
    obtain ⟨fs', h'⟩ := Option.isSome_iff_exists.mp (FileTree.putLeaf_isSome
      (t := fs₁) (p := refPath name) (d := data) |>.mpr ⟨refPath_ne_nil name, hparent, by
        rwa [hget, if_neg hne]⟩)
    rw [Vfs.replaceFile_ok.mpr ⟨rfl, h'⟩]
    refine ⟨rfl, rfl, fun q => ?_⟩
    show fs'.get? q = _
    rw [FileTree.get?_putLeaf h', hget]

/-- What an update needs. -/
structure CanUpdate (fs : GitDir) (name : Str) : Prop extends CanLock fs name where
  file : fs.get? (refPath name) ≠ some .dir

/-- **An update that can be made is made: the loose file holds the value, in a directory
made for it, and nothing else changes.** -/
theorem update_of_canUpdate (value : Reference) (h : CanUpdate refs.vfs name) :
    (refs.update name value).1 = .ok () ∧ (refs.update name value).2.algo = refs.algo ∧
    ∀ q, (refs.update name value).2.vfs.get? q =
      if q = refPath name then some (.leaf value.toFileContents)
      else if q <+: (refPath name).dropLast then some .dir else refs.vfs.get? q := by
  obtain ⟨locked, hl⟩ := (lockRef_ok value).mpr h.toCanLock
  obtain ⟨halgo, hget⟩ := get?_lockRef hl
  have hlock : locked.vfs.get? (lockPath name) = some (.leaf value.toFileContents) := by
    rw [hget, if_pos rfl]
  have hfile : locked.vfs.get? (refPath name) ≠ some .dir := by
    rw [hget, if_neg (Ne.symm (lockPath_ne_refPath h.isRefName)), if_neg]
    · exact h.file
    · intro hp
      have hlen := hp.length_le
      rw [List.length_dropLast] at hlen
      have := List.length_pos_iff.mpr (refPath_ne_nil name)
      omega
  obtain ⟨halgo', hspec⟩ := commitLock_spec h.isRefName hlock
  rw [if_neg hfile] at hspec
  rw [update, hl]
  refine ⟨hspec.1, halgo'.trans halgo, fun q => ?_⟩
  rw [hspec.2, hget]
  split
  · rfl
  split
  · rename_i hq
    rw [hq, if_neg (not_lockPath_prefix_dropLast name), h.unlocked]
  · rfl

/-- **An update that cannot be made changes nothing.** -/
theorem update_of_not_canUpdate (value : Reference) (h : ¬ CanUpdate refs.vfs name) :
    ∃ e, refs.update name value = (.error e, refs) := by
  rw [update]
  cases hl : refs.lockRef name value with
  | error e => exact ⟨e, rfl⟩
  | ok locked =>
      have hcan := (lockRef_ok value).mp ⟨locked, hl⟩
      obtain ⟨halgo, hget⟩ := get?_lockRef hl
      have hdir : refs.vfs.get? (refPath name) = some .dir := by
        by_contra hn
        exact h ⟨hcan, hn⟩
      -- the directories of the lock were there: a directory is at the ref's path
      have hway : ∀ q, q <+: (refPath name).dropLast → refs.vfs.get? q = some .dir := by
        intro q hq
        refine FileTree.get?_of_isPrefix (hq.trans (List.dropLast_prefix _)) ?_ hdir
        rintro rfl
        have hlen := hq.length_le
        rw [List.length_dropLast] at hlen
        have := List.length_pos_iff.mpr (refPath_ne_nil name)
        omega
      have hlock : locked.vfs.get? (lockPath name) = some (.leaf value.toFileContents) := by
        rw [hget, if_pos rfl]
      have hfile : locked.vfs.get? (refPath name) = some .dir := by
        rw [hget, if_neg (Ne.symm (lockPath_ne_refPath hcan.isRefName))]
        split
        · rfl
        · exact hdir
      obtain ⟨halgo', hspec⟩ := commitLock_spec hcan.isRefName hlock
      rw [if_pos hfile] at hspec
      obtain ⟨⟨e, he⟩, hspec⟩ := hspec
      refine ⟨e, Prod.ext he ?_⟩
      have hvfs : (locked.commitLock name).2.vfs = refs.vfs := by
        refine FileTree.ext_get? fun q => ?_
        rw [hspec, hget]
        split
        · rename_i hq
          rw [hq, hcan.unlocked]
        split
        · rename_i hq
          exact (hway q hq).symm
        · rfl
      exact RefStore.ext hvfs (halgo'.trans halgo)

/-! ## What a lookup reads -/

theorem resolve_packed : Vfs.resolve (str "packed-refs") = .ok ⟨packedPath, false⟩ :=
  resolve_refPath (by decide)

/-- The packed refs are what is at their path. -/
theorem packed_eq (refs : RefStore) : refs.packed =
    match refs.vfs.get? packedPath with
    | none => .ok []
    | some .dir => .error Vfs.isADirectory
    | some (.leaf d) => parsePackedRefs refs.algo d := by
  rw [packed, Vfs.pathExists, Vfs.read, Vfs.stat_of_resolve _ resolve_packed]
  cases refs.vfs.get? packedPath with
  | none => rfl
  | some e => cases e <;> rfl

/-- The id packed-refs gives a name. -/
def packedId (refs : RefStore) (name : Str) : Option ObjectId :=
  refs.packed.toOption.bind fun entries => (entries.find? (·.name = name)).map (·.id)

/-- Packed refs have valid names. -/
theorem isValidRefName_of_packedId {id : ObjectId} (h : refs.packedId name = some id) :
    isValidRefName name = true := by
  obtain ⟨entries, he, h⟩ := Option.bind_eq_some_iff.mp h
  obtain ⟨e, hfind, -⟩ := Option.map_eq_some_iff.mp h
  have hwf : ∀ e ∈ entries, isValidRefName e.name = true := by
    rw [packed_eq] at he
    split at he
    · cases he
      simp
    · cases he
    · rename_i d _
      cases hp : parsePackedRefs refs.algo d with
      | error e => rw [hp] at he; cases he
      | ok es =>
          rw [hp] at he
          cases he
          exact fun e he => (parsePackedRefs_wellFormed hp e he).valid
  have hname : e.name = name := by simpa using List.find?_some hfind
  rw [← hname]
  exact hwf e (List.mem_of_find?_eq_some hfind)

/-- The value of a ref is what its file holds, or what packed-refs says where there is
none. -/
theorem value?_eq (refs : RefStore) (name : Str) : refs.value? name =
    match (Vfs.stat refs.vfs name).toOption with
    | some (.leaf d) => (Reference.parse refs.algo d).toOption
    | some .dir => none
    | none => (refs.packedId name).map .direct := by
  rw [value?, lookup, Vfs.pathExists, Vfs.read, packedId]
  cases Vfs.stat refs.vfs name with
  | ok e => cases e <;> rfl
  | error e =>
      cases refs.packed with
      | error e => rfl
      | ok entries =>
          simp only [Except.toBool, Bool.false_eq_true, if_false, bind, Except.bind,
            Except.toOption,
            Option.bind_some]
          cases entries.find? (·.name = name) <;> rfl

/-- What a name resolves to depends on the values of the names only. -/
theorem resolveFrom_toOption (refs : RefStore) (name : Str) (n : Nat) (cur : Str) :
    (refs.resolveFrom name (n + 1) cur).toOption = match refs.value? cur with
      | none => none
      | some (.direct id) => some id
      | some (.symbolic target) => (refs.resolveFrom name n target).toOption := by
  rw [resolveFrom, value?]
  cases h : refs.lookup cur with
  | error e => rfl
  | ok r => cases r <;> rfl

theorem current_of_direct {id : ObjectId} (h : refs.value? name = some (.direct id)) :
    refs.current name = some id := by
  rw [current, resolve, maxSymrefDepth, resolveFrom_toOption, h]

theorem current_of_none (h : refs.value? name = none) : refs.current name = none := by
  rw [current, resolve, maxSymrefDepth, resolveFrom_toOption, h]

/-- A ref whose file holds an id has that id. -/
theorem current_of_leaf? {p : List Str} {id : ObjectId} (hr : Vfs.resolve name = .ok ⟨p, false⟩)
    (halgo : id.algo = refs.algo)
    (h : refs.vfs.leaf? p = some (Reference.direct id).toFileContents) :
    refs.current name = some id := by
  refine current_of_direct ?_
  rw [value?_eq, Vfs.stat_ok.mpr ⟨_, hr, FileTree.leaf?_eq_some.mp h, by simp⟩, ← halgo]
  simp only [Except.toOption, Reference.parse_direct]

/-- A ref without a file has the id packed-refs gives it, unless a directory is there. -/
theorem current_of_no_leaf {p : List Str} (hr : Vfs.resolve name = .ok ⟨p, false⟩)
    (h : refs.vfs.leaf? p = none) :
    refs.current name = if refs.vfs.get? p = some .dir then none else refs.packedId name := by
  have hstat := Vfs.stat_of_resolve refs.vfs hr
  have hvalue := value?_eq refs name
  rw [hstat] at hvalue
  cases hget : refs.vfs.get? p with
  | none =>
      rw [hget] at hvalue
      rw [if_neg (by simp)]
      cases hp : refs.packedId name with
      | none => exact current_of_none (by rw [hvalue]; simp [Except.toOption, hp])
      | some id => exact current_of_direct (by rw [hvalue]; simp [Except.toOption, hp])
  | some e =>
      cases e with
      | dir =>
          rw [hget] at hvalue
          rw [if_pos rfl]
          exact current_of_none (by rw [hvalue]; rfl)
      | leaf d =>
          rw [FileTree.leaf?_eq_some.mpr hget] at h
          cases h

/-- What a name resolves to where every name has its value, or none. -/
theorem resolveFrom_of_fewer {refs' : RefStore}
    (h : ∀ name, refs'.value? name = refs.value? name ∨ refs'.value? name = none) (name : Str)
    (n : Nat) (cur : Str) : (refs'.resolveFrom name n cur).toOption =
      (refs.resolveFrom name n cur).toOption ∨
      (refs'.resolveFrom name n cur).toOption = none := by
  induction n generalizing cur with
  | zero => exact Or.inr rfl
  | succ n ih =>
      rw [resolveFrom_toOption, resolveFrom_toOption]
      rcases h cur with hv | hv
      · rw [hv]
        cases refs.value? cur with
        | none => exact Or.inl rfl
        | some r =>
            cases r with
            | direct id => exact Or.inl rfl
            | symbolic t => exact ih t
      · rw [hv]
        exact Or.inr rfl

/-- More fuel resolves the same. -/
theorem resolveFrom_mono {name cur : Str} {n m : Nat} (hnm : n ≤ m) {id : ObjectId}
    (h : (refs.resolveFrom name n cur).toOption = some id) :
    (refs.resolveFrom name m cur).toOption = some id := by
  induction n generalizing m cur with
  | zero => cases h
  | succ n ih =>
      obtain ⟨m, rfl⟩ : ∃ k, m = k + 1 := ⟨m - 1, by omega⟩
      rw [resolveFrom_toOption] at h ⊢
      cases hv : refs.value? cur with
      | none =>
          rw [hv] at h
          cases h
      | some r =>
          rw [hv] at h
          cases r with
          | direct id' => exact h
          | symbolic t => exact ih (by omega) h

/-- The name a chain started from is for the error message only. -/
theorem resolveFrom_name (a b : Str) (n : Nat) (cur : Str) :
    (refs.resolveFrom a n cur).toOption = (refs.resolveFrom b n cur).toOption := by
  induction n generalizing cur with
  | zero => rfl
  | succ n ih =>
      rw [resolveFrom_toOption, resolveFrom_toOption]
      split
      · rfl
      · rfl
      · exact ih _

/-- A name that resolves does so as before, where only names that do not resolve lose
their value. -/
theorem resolveFrom_of_kept {refs' : RefStore} {name cur : Str} {n : Nat} {id : ObjectId}
    (hn : n ≤ maxSymrefDepth)
    (h : ∀ cur, refs'.value? cur = refs.value? cur ∨ refs.current cur = none)
    (hr : (refs.resolveFrom name n cur).toOption = some id) :
    (refs'.resolveFrom name n cur).toOption = some id := by
  induction n generalizing cur with
  | zero => cases hr
  | succ n ih =>
      have hcur : refs.current cur = some id := by
        rw [current, resolve, resolveFrom_name cur name]
        exact resolveFrom_mono hn hr
      have hv := (h cur).resolve_right (by rw [hcur]; simp)
      rw [resolveFrom_toOption] at hr ⊢
      rw [hv]
      cases hc : refs.value? cur with
      | none =>
          rw [hc] at hr
          cases hr
      | some r =>
          rw [hc] at hr
          cases r with
          | direct id' => exact hr
          | symbolic t => exact ih (by omega) hr

/-- Two names of one value resolve alike. -/
theorem current_congr {a b : Str} (h : refs.value? a = refs.value? b) :
    refs.current a = refs.current b := by
  rw [current, current, resolve, resolve, resolveFrom_name a b, maxSymrefDepth,
    resolveFrom_toOption,
    resolveFrom_toOption, h]

/-- Removing a file where the packed refs cannot be read takes its value away, and no
other. -/
theorem value?_of_removed {p : List Str} {e : Error} (halgo : refs'.algo = refs.algo)
    (hpacked : refs.packed = .error e) (hpacked' : refs'.packed = .error e)
    (hget : ∀ q, refs'.vfs.get? q = if q = p then none else refs.vfs.get? q)
    {d : Bytes} (hleaf : refs.vfs.get? p = some (.leaf d)) (name : Str) :
    refs'.value? name = if Vfs.resolve name = .ok ⟨p, false⟩ then none else refs.value? name := by
  have hid : ∀ r : RefStore, r.packed = .error e → r.packedId name = none := by
    intro r hr
    rw [packedId, hr]
    rfl
  rw [value?_eq, value?_eq, hid _ hpacked, hid _ hpacked', halgo]
  cases hr : Vfs.resolve name with
  | error e' =>
      rw [Vfs.stat, Vfs.stat, hr]
      simp [bind, Except.bind, Except.toOption]
  | ok r =>
      obtain ⟨q, dirOnly⟩ := r
      have hq := hget q
      by_cases hqp : q = p
      · subst hqp
        rw [if_pos rfl] at hq
        rw [Vfs.stat, Vfs.stat, hr]
        cases dirOnly <;> simp [bind, Except.bind, Except.toOption, hq, hleaf]
      · rw [if_neg hqp] at hq
        rw [Vfs.stat, Vfs.stat, hr]
        simp only [bind, Except.bind, hq]
        rw [if_neg (by simpa using fun h => absurd h hqp)]
        cases refs.vfs.get? q with
        | none => rfl
        | some e => cases e <;> cases dirOnly <;> rfl

/-! ## What a delete does -/

/-- The file a name leads to. -/
def filePath (fs : GitDir) (name : Str) : Option (List Str) :=
  match Vfs.resolve name with
  | .ok ⟨p, false⟩ => if (fs.leaf? p).isSome then some p else none
  | _ => none

theorem filePath_eq_some {fs : GitDir} {p : List Str} :
    filePath fs name = some p ↔ ∃ d, Vfs.resolve name = .ok ⟨p, false⟩ ∧
      fs.get? p = some (.leaf d) := by
  rw [filePath]
  split
  · rename_i p' h
    rw [h]
    split
    · rename_i hsome
      obtain ⟨d, hd⟩ := Option.isSome_iff_exists.mp hsome
      constructor
      · rintro ⟨⟩
        exact ⟨d, rfl, FileTree.leaf?_eq_some.mp hd⟩
      · rintro ⟨d', h', -⟩
        cases h'
        rfl
    · rename_i hnone
      refine ⟨fun h' => (by cases h'), ?_⟩
      rintro ⟨d, h', hd⟩
      cases h'
      rw [FileTree.leaf?_eq_some.mpr hd] at hnone
      simp at hnone
  · rename_i hne
    refine ⟨fun h' => (by cases h'), ?_⟩
    rintro ⟨d, h', -⟩
    exact absurd h' (hne p)

/-- A name that leads to a directory leads to no file. -/
theorem filePath_of_dir {fs : GitDir} (h : Vfs.stat fs name = .ok .dir) :
    filePath fs name = none := by
  by_contra hn
  obtain ⟨p, hp⟩ := Option.ne_none_iff_exists'.mp hn
  obtain ⟨d, hr, hd⟩ := filePath_eq_some.mp hp
  obtain ⟨r, hr', hget, -⟩ := Vfs.stat_ok.mp h
  rw [hr] at hr'
  cases hr'
  rw [hd] at hget
  cases hget

/-- A name that leads to a file leads to its path. -/
theorem filePath_of_leaf {fs : GitDir} {d : Bytes} (h : Vfs.stat fs name = .ok (.leaf d)) :
    ∃ p, filePath fs name = some p ∧ Vfs.resolve name = .ok ⟨p, false⟩ ∧
      fs.get? p = some (.leaf d) := by
  obtain ⟨⟨p, dirOnly⟩, hr, hp, hd⟩ := Vfs.stat_ok.mp h
  have hplain : dirOnly = false := by
    cases dirOnly with
    | true => cases hd rfl
    | false => rfl
  subst hplain
  exact ⟨p, filePath_eq_some.mpr ⟨d, hr, hp⟩, hr, hp⟩

/-- A name that leads nowhere leads to no file. -/
theorem filePath_of_absent {fs : GitDir} (h : ∀ e, Vfs.stat fs name ≠ .ok e) :
    filePath fs name = none := by
  by_contra hn
  obtain ⟨p, hp⟩ := Option.ne_none_iff_exists'.mp hn
  obtain ⟨d, hr, hd⟩ := filePath_eq_some.mp hp
  exact h _ (Vfs.stat_ok.mpr ⟨_, hr, hd, by simp⟩)

/-- **The loose file is removed, unless a directory is there.** -/
theorem deleteLoose_spec (h : Vfs.stat refs.vfs name ≠ .ok .dir) :
    ∃ refs', refs.deleteLoose name = .ok refs' ∧ refs'.algo = refs.algo ∧
    ∀ q, refs'.vfs.get? q = if filePath refs.vfs name = some q then none else refs.vfs.get? q := by
  rw [deleteLoose]
  split
  · rename_i hexists
    obtain ⟨e, he⟩ := Vfs.pathExists_iff.mp hexists
    cases e with
    | dir => exact absurd he h
    | leaf d =>
        obtain ⟨p, hpath, hr, hp⟩ := filePath_of_leaf he
        obtain ⟨fs', hfs⟩ := Option.isSome_iff_exists.mp (FileTree.removeLeaf_isSome.mpr ⟨d, hp⟩)
        rw [Vfs.removeFile_ok.mpr ⟨p, hr, hfs⟩]
        refine ⟨_, rfl, rfl, fun q => ?_⟩
        show fs'.get? q = _
        rw [FileTree.get?_removeLeaf hfs, hpath]
        simp only [Option.some.injEq, eq_comm]
  · rename_i hexists
    refine ⟨refs, rfl, rfl, fun q => ?_⟩
    rw [filePath_of_absent fun e he => hexists (Vfs.pathExists_iff.mpr ⟨e, he⟩), if_neg (by simp)]

theorem deleteLoose_of_dir (h : Vfs.stat refs.vfs name = .ok .dir) :
    refs.deleteLoose name = .error Vfs.isADirectory := by
  rw [deleteLoose, if_pos (Vfs.pathExists_iff.mpr ⟨_, h⟩), Vfs.removeFile, h]
  rfl

/-- **Dropping the packed entries of a name rewrites packed-refs without them, where it
can be read.** -/
theorem deletePacked_spec (refs : RefStore) (name : Str) :
    (∀ e, refs.packed = .error e → refs.deletePacked name = .error e) ∧
    ∀ entries, refs.packed = .ok entries → ∃ refs', refs.deletePacked name = .ok refs' ∧
      refs'.algo = refs.algo ∧ refs'.packed = .ok (entries.filter fun e => e.name ≠ name) ∧
      (∀ q, q ≠ packedPath → refs'.vfs.get? q = refs.vfs.get? q) ∧
      (refs'.vfs.get? packedPath = none ↔ refs.vfs.get? packedPath = none) := by
  have hstat := Vfs.stat_of_resolve refs.vfs resolve_packed
  rw [packed_eq, deletePacked, packedWithout, Vfs.pathExists, Vfs.read, hstat]
  cases hp : refs.vfs.get? packedPath with
  | none =>
      refine ⟨fun e h => (by cases h), fun entries h => ?_⟩
      cases h
      exact ⟨refs, rfl, rfl, by rw [packed_eq, hp]; rfl, fun _ _ => rfl, by rw [hp]⟩
  | some e =>
      cases e with
      | dir => exact ⟨fun e h => (by cases h; rfl), fun entries h => (by cases h)⟩
      | leaf d =>
          simp only [Except.toBool, if_true, bind, Except.bind]
          cases hparse : parsePackedRefs refs.algo d with
          | error e => exact ⟨fun e' h => (by cases h; rfl), fun entries h => (by cases h)⟩
          | ok entries =>
              refine ⟨fun e h => (by cases h), fun entries' h => ?_⟩
              cases h
              by_cases hany : (entries.any fun e => e.name = name) = true
              · simp only [if_pos hany, writePacked]
                obtain ⟨fs', hfs⟩ := Option.isSome_iff_exists.mp (FileTree.putLeaf_isSome
                  (t := refs.vfs) (p := packedPath)
                  (d := serializePackedRefs (entries.filter fun e => e.name ≠ name)) |>.mpr
                  ⟨by simp [packedPath], by simp [packedPath], by rw [hp]; simp⟩)
                have hwrite : Vfs.write refs.vfs (str "packed-refs")
                    (serializePackedRefs (entries.filter fun e => e.name ≠ name)) = .ok fs' := by
                  rw [Vfs.write, resolve_packed]
                  refine except_bind_ok.mpr ⟨_, rfl, except_bind_ok.mpr ⟨refs.vfs, ?_, ?_⟩⟩
                  · exact Vfs.makeDirs_ok.mpr
                      (FileTree.createDirAll_of_isDir (by simp [packedPath]))
                  · exact Vfs.replaceFile_ok.mpr ⟨rfl, hfs⟩
                rw [hwrite]
                refine ⟨{ refs with vfs := fs' }, rfl, rfl, ?_, fun q hq => ?_, ?_⟩
                · have hget : ({ refs with vfs := fs' } : RefStore).vfs.get? packedPath =
                      some (.leaf (serializePackedRefs (entries.filter fun e =>
                        e.name ≠ name))) := by
                    show fs'.get? packedPath = _
                    rw [FileTree.get?_putLeaf hfs, if_pos rfl]
                  rw [packed_eq, hget]
                  exact parsePackedRefs_serialize fun e he =>
                    parsePackedRefs_wellFormed hparse e (List.mem_filter.mp he).1
                · show fs'.get? q = _
                  rw [FileTree.get?_putLeaf hfs, if_neg hq]
                · show fs'.get? packedPath = none ↔ _
                  rw [FileTree.get?_putLeaf hfs, if_pos rfl]
                  simp
              · simp only [if_neg hany, writePacked]
                refine ⟨refs, rfl, rfl, ?_, fun _ _ => rfl, by rw [hp]⟩
                rw [packed_eq, hp, List.filter_eq_self.mpr]
                · exact hparse
                · intro e he
                  by_contra hc
                  exact hany (List.any_eq_true.mpr ⟨e, he, by simpa using hc⟩)

theorem packed_congr {refs refs' : RefStore} (halgo : refs'.algo = refs.algo)
    (h : refs'.vfs.get? packedPath = refs.vfs.get? packedPath) : refs'.packed = refs.packed := by
  rw [packed_eq, packed_eq, h, halgo]

/-- What a delete needs: no directory at its path, and packed refs that can be read,
unless they are what is deleted. -/
def CanDelete (refs : RefStore) (name : Str) : Prop :=
  Vfs.stat refs.vfs name ≠ .ok .dir ∧
    (filePath refs.vfs name = some packedPath ∨ ∃ entries, refs.packed = .ok entries)

/-- **A delete that can be made removes the loose file and the packed entries of the name,
and changes nothing else.** -/
theorem delete_of_canDelete (h : CanDelete refs name) :
    (refs.delete name).1 = .ok () ∧ (refs.delete name).2.algo = refs.algo ∧
    (∀ q, q ≠ packedPath → (refs.delete name).2.vfs.get? q =
      if filePath refs.vfs name = some q then none else refs.vfs.get? q) ∧
    (filePath refs.vfs name = some packedPath → (refs.delete name).2.vfs.get? packedPath = none) ∧
    (filePath refs.vfs name ≠ some packedPath →
      ((refs.delete name).2.vfs.get? packedPath = none ↔ refs.vfs.get? packedPath = none) ∧
      ∀ entries, refs.packed = .ok entries →
        (refs.delete name).2.packed = .ok (entries.filter fun e => e.name ≠ name)) := by
  obtain ⟨hdir, hpacked⟩ := h
  obtain ⟨mid, hmid, halgo, hget⟩ := deleteLoose_spec hdir
  have hmidpacked : ∃ entries, mid.packed = .ok entries ∧
      (filePath refs.vfs name ≠ some packedPath → refs.packed = .ok entries) := by
    by_cases hpath : filePath refs.vfs name = some packedPath
    · refine ⟨[], ?_, fun hn => absurd hpath hn⟩
      rw [packed_eq, hget, if_pos hpath]
    · obtain ⟨entries, he⟩ := hpacked.resolve_left hpath
      refine ⟨entries, ?_, fun _ => he⟩
      rw [packed_congr halgo (by rw [hget, if_neg hpath]), he]
  obtain ⟨entries, hentries, hsame⟩ := hmidpacked
  obtain ⟨refs', hdelete, halgo', hpacked', hother, hnone⟩ :=
    (deletePacked_spec mid name).2 entries hentries
  have hall : refs.delete name = (.ok (), refs') := by
    rw [delete, hmid]
    simp only [hdelete]
  rw [hall]
  refine ⟨rfl, halgo'.trans halgo, fun q hq => ?_, fun hpath => ?_, fun hpath => ⟨?_, ?_⟩⟩
  · rw [hother q hq, hget]
  · rw [hnone, hget, if_pos hpath]
  · rw [hnone, hget, if_neg hpath]
  · intro entries' he
    rw [hsame hpath] at he
    cases he
    exact hpacked'

/-- **A delete that cannot be made removes the loose file, and changes nothing else.** -/
theorem delete_of_not_canDelete (h : ¬ CanDelete refs name) :
    (∃ e, (refs.delete name).1 = .error e) ∧ (refs.delete name).2.algo = refs.algo ∧
    ∀ q, (refs.delete name).2.vfs.get? q =
      if filePath refs.vfs name = some q then none else refs.vfs.get? q := by
  by_cases hdir : Vfs.stat refs.vfs name = .ok .dir
  · rw [delete, deleteLoose_of_dir hdir, filePath_of_dir hdir]
    exact ⟨⟨_, rfl⟩, rfl, fun q => by simp⟩
  · obtain ⟨mid, hmid, halgo, hget⟩ := deleteLoose_spec hdir
    have hn : ¬ (filePath refs.vfs name = some packedPath ∨ ∃ entries, refs.packed = .ok entries) :=
      fun hp => h ⟨hdir, hp⟩
    rw [not_or] at hn
    have herror : ∃ e, mid.packed = .error e := by
      rw [packed_congr halgo (by rw [hget, if_neg hn.1])]
      cases hp : refs.packed with
      | error e => exact ⟨e, rfl⟩
      | ok entries => exact absurd ⟨entries, hp⟩ hn.2
    obtain ⟨e, he⟩ := herror
    rw [delete, hmid]
    simp only [(deletePacked_spec mid name).1 e he]
    exact ⟨⟨e, rfl⟩, halgo, hget⟩

end RefStore
end Puregit
