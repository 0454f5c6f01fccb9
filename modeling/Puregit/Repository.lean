import Puregit.Index
import Puregit.Odb.Files

/-! # The repository

A repository is the files of its git directory and its object store: the refs, the index
and the shallow boundary are read from the files each time they are asked for.

The object directory is no part of the files here: it is that of the object store.
-/
namespace Puregit

/-- An opened repository. -/
structure Repository where
  fs : GitDir
  odb : CombinedOdb

namespace Repository

/-- The hash algorithm of the repository. -/
def algo (repo : Repository) : HashAlgo := repo.odb.loose.algo

/-- The reference store. -/
def refs (repo : Repository) : RefStore := ⟨repo.fs, repo.algo⟩

/-- The id `HEAD` resolves to. -/
def headId (repo : Repository) : Except Error ObjectId := repo.refs.resolve (str "HEAD")

/-- Loads the staging index; an absent one is empty. -/
def index (repo : Repository) : Except Error Index :=
  if Vfs.pathExists repo.fs (str "index") then do
    let bytes ← Vfs.read repo.fs (str "index")
    Index.parse repo.odb.loose.hasher repo.algo bytes
  else .ok (Index.new repo.algo)

/-- Reads the shallow boundary; without the file there is none. -/
def shallow (repo : Repository) : Except Error (List ObjectId) :=
  match Vfs.read repo.fs (str "shallow") with
  | .error _ => .ok []
  | .ok bytes => match fromUtf8 bytes with
    | none => .error (.parse (str "shallow: not utf-8"))
    | some text =>
      (((lines text).map trim).filter fun line => !line.isEmpty).mapM (ObjectId.fromHex repo.algo)

/-- Whether a file name is `len` hex digits. -/
def isHexName (len : Nat) (name : Str) : Bool :=
  name.length = len && name.all fun c =>
    ('0' ≤ c && c ≤ '9') || ('a' ≤ c && c ≤ 'f') || ('A' ≤ c && c ≤ 'F')

/-- The ids the files of a directory of loose objects stand for. -/
def looseIdsIn (repo : Repository) (dir : Str) : Except Error (List ObjectId) :=
  (Vfs.readDir repo.odb.loose.fs dir).map fun files => files.filterMap fun file =>
    if isHexName (repo.algo.hexLen - 2) file.1 then
      (ObjectId.fromHex repo.algo (dir ++ file.1)).toOption
    else none

/-- Enumerates the ids of all loose objects. -/
def looseObjectIds (repo : Repository) : Except Error (List ObjectId) :=
  match Vfs.readDir repo.odb.loose.fs [] with
  | .error _ => .ok []
  | .ok subs => do
    -- directories that hold no loose objects are passed over
    let ids ← (subs.filter fun sub => isHexName 2 sub.1).mapM fun sub => repo.looseIdsIn sub.1
    .ok ids.flatten

theorem isHexName_of_sublist {s : Str} {id : ObjectId} (h : s.Sublist id.toHex) :
    isHexName s.length s = true := by
  rw [isHexName, decide_eq_true rfl, Bool.true_and, List.all_eq_true]
  intro c hc
  rcases ObjectId.mem_toHex (h.subset hc) with ⟨hlo, hhi⟩ | ⟨hlo, hhi⟩
  · have hdigit : '0' ≤ c ∧ c ≤ '9' := ⟨hlo, hhi⟩
    simp [hdigit]
  · have hletter : 'a' ≤ c ∧ c ≤ 'f' := ⟨hlo, hhi⟩
    simp [hletter]

/-- **Every object with a file is enumerated.** -/
theorem mem_looseObjectIds {repo : Repository} {ids : List ObjectId}
    (h : repo.looseObjectIds = .ok ids) {id : ObjectId} {e : Entry Bytes}
    (halgo : id.algo = repo.algo)
    (hfile : repo.odb.loose.fs.get? (LooseOdb.loosePath id) = some e) : id ∈ ids := by
  have hlen := LooseOdb.length_toHex id
  have htwo := LooseOdb.two_lt_length_toHex id
  have hroot : Vfs.readDir repo.odb.loose.fs [] = .ok (repo.odb.loose.fs.children []) := by
    rw [Vfs.readDir, show Vfs.resolve [] = .ok ⟨[], true⟩ by decide]
    simp only [bind, Except.bind, FileTree.get?_nil]
  have hdir : repo.odb.loose.fs.get? [id.toHex.take 2] = some .dir :=
    FileTree.get?_dropLast (p := LooseOdb.loosePath id) (by simp [LooseOdb.loosePath]) hfile
  have hsub : (id.toHex.take 2, Entry.dir) ∈
      (repo.odb.loose.fs.children []).filter fun sub => isHexName 2 sub.1 := by
    refine List.mem_filter.mpr ⟨FileTree.mem_children.mpr hdir, ?_⟩
    have hname := isHexName_of_sublist (List.take_sublist 2 id.toHex)
    rwa [List.length_take, min_eq_left htwo.le] at hname
  have hfiles : Vfs.readDir repo.odb.loose.fs (id.toHex.take 2) =
      .ok (repo.odb.loose.fs.children [id.toHex.take 2]) := by
    rw [Vfs.readDir, LooseOdb.resolve_looseDir]
    simp only [bind, Except.bind, hdir]
  have hin : ∀ found, repo.looseIdsIn (id.toHex.take 2) = .ok found → id ∈ found := by
    intro found hfound
    rw [looseIdsIn, hfiles] at hfound
    cases hfound
    refine List.mem_filterMap.mpr ⟨(id.toHex.drop 2, e), FileTree.mem_children.mpr hfile, ?_⟩
    have hname := isHexName_of_sublist (List.drop_sublist 2 id.toHex)
    rw [List.length_drop, hlen, halgo] at hname
    rw [if_pos hname, List.take_append_drop, ← halgo, ObjectId.fromHex_toHex]
    rfl
  rw [looseObjectIds, hroot] at h
  obtain ⟨lists, hlists, h⟩ := except_bind_ok.mp h
  cases h
  obtain ⟨found, hmem, hfound⟩ := except_mapM_mem hlists hsub
  exact List.mem_flatten.mpr ⟨found, hmem, hin found hfound⟩

end Repository
end Puregit
