import Mathlib.Data.List.ReduceOption
import Puregit.Odb.Combined
import Puregit.Refs.List

/-! # The files of an object directory

The file of a loose object is named by the hex form of its id, two digits of which are the
directory; no two ids share a file.  A pack is loaded with its index when the store is opened,
from the files of the directory `pack`, in the order the file system lists them.
-/
namespace Puregit

namespace LooseOdb

/-- Where the file of an object is. -/
def loosePath (id : ObjectId) : List Str := [id.toHex.take 2, id.toHex.drop 2]

theorem length_toHex (id : ObjectId) : id.toHex.length = id.algo.hexLen := by
  rw [ObjectId.toHex, List.length_flatMap]
  simp [HashAlgo.hexLen, id.length_eq]

theorem two_lt_length_toHex (id : ObjectId) : 2 < id.toHex.length := by
  rw [length_toHex]
  cases id.algo <;> decide

theorem not_separator_of_mem_toHex {id : ObjectId} {c : Char} (h : c ∈ id.toHex) :
    c ≠ '/' ∧ c ≠ '.' ∧ c ≠ Char.ofNat 0 := by
  have hrange := ObjectId.mem_toHex h
  refine ⟨?_, ?_, ?_⟩
  all_goals
    rintro rfl
    revert hrange
    decide

theorem refPath_objectPath (id : ObjectId) : RefStore.refPath (objectPath id) = loosePath id := by
  have hslash : ∀ s : Str, s.Sublist id.toHex → '/' ∉ s := fun s hs hc =>
    (not_separator_of_mem_toHex (hs.subset hc)).1 rfl
  rw [objectPath, RefStore.refPath_child _ (hslash _ (List.drop_sublist 2 _)), RefStore.refPath,
    List.splitOn_eq_singleton (hslash _ (List.take_sublist 2 _))]
  rfl

theorem component_of_loosePath {id : ObjectId} {c : Str} (h : c ∈ loosePath id) :
    c ≠ [] ∧ startsWith c ['.'] = false := by
  have hlen := two_lt_length_toHex id
  have hsub : c.Sublist id.toHex ∧ c ≠ [] := by
    rcases List.mem_cons.mp h with rfl | h
    · refine ⟨List.take_sublist 2 _, fun hnil => ?_⟩
      have := congrArg List.length hnil
      simp only [List.length_take, List.length_nil] at this
      omega
    · rw [List.mem_singleton.mp h]
      refine ⟨List.drop_sublist 2 _, fun hnil => ?_⟩
      have := congrArg List.length hnil
      simp only [List.length_drop, List.length_nil] at this
      omega
  refine ⟨hsub.2, ?_⟩
  cases c with
  | nil => rfl
  | cons d r =>
    have hd := (not_separator_of_mem_toHex (hsub.1.subset List.mem_cons_self)).2.1
    simpa [startsWith, List.isPrefixOf] using Ne.symm hd

/-- The name of an object's file leads to it. -/
theorem resolve_objectPath (id : ObjectId) :
    Vfs.resolve (objectPath id) = .ok ⟨loosePath id, false⟩ := by
  rw [← refPath_objectPath]
  refine RefStore.resolve_of_components (fun hc => ?_) fun c hc => ?_
  · rcases List.mem_append.mp hc with hc | hc
    · exact (not_separator_of_mem_toHex (List.mem_of_mem_take hc)).2.2 rfl
    · rcases List.mem_cons.mp hc with hc | hc
      · revert hc
        decide
      · exact (not_separator_of_mem_toHex (List.mem_of_mem_drop hc)).2.2 rfl
  · rw [refPath_objectPath] at hc
    exact component_of_loosePath hc

/-- The directory of an object's file leads to it. -/
theorem resolve_looseDir (id : ObjectId) :
    Vfs.resolve (id.toHex.take 2) = .ok ⟨[id.toHex.take 2], false⟩ := by
  have hsplit : RefStore.refPath (id.toHex.take 2) = [id.toHex.take 2] :=
    List.splitOn_eq_singleton fun hc => (not_separator_of_mem_toHex (List.mem_of_mem_take hc)).1 rfl
  have hresolve := @RefStore.resolve_of_components (id.toHex.take 2)
    (fun hc => (not_separator_of_mem_toHex (List.mem_of_mem_take hc)).2.2 rfl) fun c hc => by
      rw [hsplit, List.mem_singleton] at hc
      exact component_of_loosePath (by rw [hc]; exact List.mem_cons_self)
  rwa [hsplit] at hresolve

/-- **No two objects share a file.** -/
theorem loosePath_injective {a b : ObjectId} (h : loosePath a = loosePath b) : a = b := by
  refine ObjectId.toHex_injective ?_
  rw [← List.take_append_drop 2 a.toHex, ← List.take_append_drop 2 b.toHex]
  simp only [loosePath, List.cons.injEq, and_true] at h
  rw [h.1, h.2]

variable {odb : LooseOdb} {id : ObjectId}

theorem stat_objectPath (fs : GitDir) (id : ObjectId) : Vfs.stat fs (objectPath id) =
    match fs.get? (loosePath id) with
    | some e => .ok e
    | none => .error (Vfs.absent fs (loosePath id)) :=
  Vfs.stat_of_resolve fs (resolve_objectPath id)

theorem contains_eq (odb : LooseOdb) (id : ObjectId) :
    odb.contains id = (odb.fs.get? (loosePath id)).isSome := by
  rw [contains, Vfs.pathExists, stat_objectPath]
  cases odb.fs.get? (loosePath id) <;> rfl

/-- What is read for an id depends on its file alone. -/
theorem read_congr {fs : GitDir} (h : fs.get? (loosePath id) = odb.fs.get? (loosePath id)) :
    ({ odb with fs := fs } : LooseOdb).read id = odb.read id := by
  have hcontains : ({ odb with fs := fs } : LooseOdb).contains id = odb.contains id := by
    rw [contains_eq, contains_eq, h]
  rw [read, read, hcontains]
  split
  · rfl
  · rename_i hpresent
    rw [contains_eq, Bool.not_eq_false, Option.isSome_iff_exists] at hpresent
    obtain ⟨e, he⟩ := hpresent
    have hfile : Vfs.read fs (objectPath id) = Vfs.read odb.fs (objectPath id) := by
      rw [Vfs.read, Vfs.read, stat_objectPath, stat_objectPath, h, he]
    simp only [hfile]

/-- An object that is read is a file, and its id is of the algorithm of the store. -/
theorem leaf_of_read {r : ObjectType × Bytes} (h : odb.read id = .ok r) :
    (∃ data, odb.fs.get? (loosePath id) = some (.leaf data)) ∧ id.algo = odb.algo := by
  rw [read] at h
  split at h
  · cases h
  obtain ⟨compressed, hfile, h⟩ := except_bind_ok.mp h
  obtain ⟨raw, -, h⟩ := except_bind_ok.mp h
  obtain ⟨⟨ty, payload⟩, -, h⟩ := except_bind_ok.mp h
  simp only at h
  split at h
  · cases h
  rename_i hid
  constructor
  · rw [Vfs.read_ok, stat_objectPath] at hfile
    split at hfile
    · rename_i e he
      cases hfile
      exact ⟨compressed, he⟩
    · cases hfile
  · rw [← not_not.mp hid]
    rfl

/-! ## Writing and removing -/

/-- A write makes the file of an object, and its directory. -/
theorem write_spec (odb : LooseOdb) (ty : ObjectType) (payload : Bytes) :
    ∃ fs, (odb.write ty payload).2 = { odb with fs := fs } ∧ ∀ q, fs.get? q = odb.fs.get? q ∨
      ∃ id, q <+: loosePath id := by
  have hkeep : ∃ fs, odb = { odb with fs := fs } ∧ ∀ q, fs.get? q = odb.fs.get? q ∨
      ∃ id, q <+: loosePath id := ⟨odb.fs, rfl, fun q => Or.inl rfl⟩
  rw [write]
  split
  · exact hkeep
  split
  · exact hkeep
  split
  · exact hkeep
  rename_i fs hwrite
  refine ⟨fs, rfl, fun q => ?_⟩
  rw [Vfs.get?_write (resolve_objectPath _) hwrite]
  split
  · rename_i hq
    subst hq
    exact Or.inr ⟨_, List.prefix_rfl⟩
  split
  · rename_i hq
    exact Or.inr ⟨_, hq.trans (List.dropLast_prefix _)⟩
  · exact Or.inl rfl

/-- A write removes nothing. -/
theorem contains_write {ty : ObjectType} {payload : Bytes} (h : odb.contains id = true) :
    (odb.write ty payload).2.contains id = true := by
  rw [write]
  split
  · exact h
  split
  · exact h
  split
  · exact h
  rename_i fs hwrite
  rw [contains_eq] at h ⊢
  show (fs.get? (loosePath id)).isSome = true
  rw [Vfs.get?_write (resolve_objectPath _) hwrite]
  split_ifs
  · rfl
  · rfl
  · exact h

/-- An object is named by its content. -/
theorem write_ok {ty : ObjectType} {payload : Bytes}
    (h : (odb.write ty payload).1 = .ok id) : id = hashObject odb.hasher odb.algo ty payload := by
  rw [write] at h
  split at h
  · exact (Except.ok.inj h).symm
  split at h
  · cases h
  split at h
  · cases h
  · exact (Except.ok.inj h).symm

/-- **What has been written is there.** -/
theorem contains_of_write {ty : ObjectType} {payload : Bytes}
    (h : (odb.write ty payload).1 = .ok id) :
    (odb.write ty payload).2.contains (hashObject odb.hasher odb.algo ty payload) = true := by
  rw [write] at h ⊢
  split
  · assumption
  rename_i hnew
  rw [if_neg hnew] at h
  split at h
  · cases h
  split at h
  · cases h
  rename_i fs hwrite
  rw [contains_eq]
  show (fs.get? (loosePath _)).isSome = true
  rw [Vfs.get?_write (resolve_objectPath _) hwrite, if_pos rfl]
  rfl

/-- Removes the file of an object; where that fails nothing happens. -/
def removeLoose (fs : GitDir) (id : ObjectId) : GitDir :=
  (Vfs.removeFile fs (objectPath id)).toOption.getD fs

theorem get?_removeLoose {fs : GitDir} {id : ObjectId} {q : List Str} : (removeLoose fs id).get? q =
    if q = loosePath id ∧ (fs.leaf? q).isSome = true then none else fs.get? q := by
  have hremove : ∀ fs', Vfs.removeFile fs (objectPath id) = .ok fs' ↔
      fs.removeLeaf (loosePath id) = some fs' := by
    intro fs'
    rw [Vfs.removeFile_ok, resolve_objectPath]
    constructor
    · rintro ⟨p, hp, h⟩
      cases hp
      exact h
    · exact fun h => ⟨_, rfl, h⟩
  rw [removeLoose]
  by_cases hleaf : ∃ data, fs.get? (loosePath id) = some (.leaf data)
  · obtain ⟨fs', h⟩ := Option.isSome_iff_exists.mp (FileTree.removeLeaf_isSome.mpr hleaf)
    rw [(hremove fs').mpr h]
    show fs'.get? q = _
    rw [FileTree.get?_removeLeaf h]
    refine if_congr (and_iff_left_of_imp ?_).symm rfl rfl
    rintro rfl
    obtain ⟨data, hdata⟩ := hleaf
    rw [FileTree.leaf?_eq_some.mpr hdata]
    rfl
  · cases hfile : Vfs.removeFile fs (objectPath id) with
    | ok fs' =>
      have hsome := Option.isSome_iff_exists.mpr ⟨fs', (hremove fs').mp hfile⟩
      exact absurd (FileTree.removeLeaf_isSome.mp hsome) hleaf
    | error e =>
      rw [if_neg]
      · rfl
      rintro ⟨rfl, hsome⟩
      obtain ⟨data, hdata⟩ := Option.isSome_iff_exists.mp hsome
      exact hleaf ⟨data, FileTree.leaf?_eq_some.mp hdata⟩

/-- **Removing objects leaves all other files.** -/
theorem get?_foldl_removeLoose {ids : List ObjectId} {fs : GitDir} {q : List Str}
    (h : ∀ id ∈ ids, q ≠ loosePath id) : (ids.foldl removeLoose fs).get? q = fs.get? q := by
  induction ids generalizing fs with
  | nil => rfl
  | cons id ids ih =>
    rw [List.foldl_cons, ih fun id' hid => h id' (List.mem_cons_of_mem _ hid), get?_removeLoose,
      if_neg fun hq => h id List.mem_cons_self hq.1]

/-- **The files of the objects are gone.** -/
theorem get?_foldl_removeLoose_gone {ids : List ObjectId} {fs : GitDir} {q : List Str}
    (h : fs.get? q = none ∨ (∃ id ∈ ids, q = loosePath id) ∧ (fs.leaf? q).isSome = true) :
    (ids.foldl removeLoose fs).get? q = none := by
  induction ids generalizing fs with
  | nil => exact h.resolve_right fun ⟨⟨id, hid, _⟩, _⟩ => List.not_mem_nil hid
  | cons a ids ih =>
    rw [List.foldl_cons]
    refine ih ?_
    rw [FileTree.leaf?, get?_removeLoose]
    rcases h with h | ⟨⟨id, hid, hq⟩, hleaf⟩
    · exact Or.inl (by rw [h, ite_self])
    · by_cases ha : q = loosePath a
      · exact Or.inl (if_pos ⟨ha, hleaf⟩)
      · rw [if_neg fun h => ha h.1]
        refine Or.inr ⟨⟨id, (List.mem_cons.mp hid).resolve_left ?_, hq⟩, hleaf⟩
        rintro rfl
        exact ha hq

end LooseOdb

/-! ## Opening a store -/

/-- What is outside of the files of a repository: the order in which the entries of a directory
are listed, and the object directories that alternates name. -/
structure Outside where
  order : List (Str × Entry Bytes) → List (Str × Entry Bytes)
  order_perm : ∀ l, (order l).Perm l
  openRelative : Str → GitDir

namespace Outside

/-- Directories are listed by name, and there are no other object directories. -/
def sorted : Outside := ⟨id, fun _ => .rfl, fun _ => FileTree.empty⟩

/-- Loads the pack of an index file; any other file and an index without its pack are passed
over. -/
def loadPack (fs : GitDir) (algo : HashAlgo) (name : Str) : Except Error (Option LoadedPack) :=
  let packPath := str "pack/" ++ name.take (name.length - 4) ++ str ".pack"
  if endsWith name (str ".idx") && Vfs.pathExists fs packPath then do
    let idx ← Vfs.read fs (str "pack/" ++ name)
    let index ← PackIndex.parse algo idx
    let data ← Vfs.read fs packPath
    let pack ← Pack.new data algo
    .ok (some ⟨index, pack⟩)
  else .ok none

/-- Loads all packs. -/
def loadPacks (out : Outside) (fs : GitDir) (algo : HashAlgo) : Except Error (List LoadedPack) :=
  if Vfs.pathExists fs (str "pack") then do
    let entries ← Vfs.readDir fs (str "pack")
    let packs ← (out.order entries).mapM fun entry => loadPack fs algo entry.1
    .ok packs.reduceOption
  else .ok []

/-- Opens the loose objects and the packs of an object directory. -/
def openInner (out : Outside) (z : Zlib) (h : Hasher) (fs : GitDir) (algo : HashAlgo) :
    Except Error ObjectStore :=
  (out.loadPacks fs algo).map fun packs => ⟨LooseOdb.new z h fs algo, packs⟩

/-- Opens the alternates; one that cannot be opened is passed over. -/
def loadAlternates (out : Outside) (z : Zlib) (h : Hasher) (fs : GitDir) (algo : HashAlgo) :
    List ObjectStore :=
  match Vfs.read fs (str "info/alternates") with
  | .error _ => []
  | .ok bytes =>
    let named := ((lines ((fromUtf8 bytes).getD [])).map trim).filter fun line =>
      !(line.isEmpty || startsWith line ['#'])
    named.filterMap fun line => (out.openInner z h (out.openRelative line) algo).toOption

/-- Opens an object directory with its alternates. -/
def openOdb (out : Outside) (z : Zlib) (h : Hasher) (fs : GitDir) (algo : HashAlgo) :
    Except Error CombinedOdb :=
  (out.openInner z h fs algo).map fun store => ⟨store, out.loadAlternates z h fs algo⟩

/-! ## The pack directory -/

/-- A name that is a file's. -/
def PlainName (c : Str) : Prop :=
  Vfs.isNormalComponent c = true ∧ c ≠ str ".." ∧ '/' ∉ c ∧ Char.ofNat 0 ∉ c

/-- The file of the pack of an index file. -/
def packFile (name : Str) : Str := name.take (name.length - 4) ++ str ".pack"

variable {fs fs' : GitDir} {algo : HashAlgo} {name : Str} {out : Outside}

/-- The name of a file in the pack directory leads to it. -/
theorem resolve_inPack (h : PlainName name) :
    Vfs.resolve (str "pack/" ++ name) = .ok ⟨[str "pack", name], false⟩ := by
  have hsplit : (str "pack/" ++ name).splitOn '/' = [str "pack", name] := by
    show RefStore.refPath (str "pack" ++ '/' :: name) = _
    rw [RefStore.refPath_child _ h.2.2.1, show RefStore.refPath (str "pack") =
      [str "pack"] by decide]
    rfl
  have hresolve := @Vfs.resolve_normal (str "pack/" ++ name) ?_ ?_ ?_
  · rwa [hsplit] at hresolve
  · rw [List.mem_append]
    rintro (hnul | hnul)
    · revert hnul
      decide
    · exact h.2.2.2 hnul
  · rw [hsplit]
    intro hdots
    rcases List.mem_cons.mp hdots with hdots | hdots
    · revert hdots
      decide
    · exact h.2.1 (List.mem_singleton.mp hdots).symm
  · rw [hsplit]
    intro c hc
    rcases List.mem_cons.mp hc with rfl | hc
    · decide
    · rw [List.mem_singleton.mp hc]
      exact h.1

theorem plainName_packFile (h : PlainName name) : PlainName (packFile name) := by
  have hlen : 5 ≤ (packFile name).length := by
    rw [packFile, List.length_append, show (str ".pack").length = 5 by decide]
    omega
  have hmem : ∀ c ∈ packFile name, c ∈ name ∨ c ∈ str ".pack" := by
    intro c hc
    exact (List.mem_append.mp hc).imp_left List.mem_of_mem_take
  refine ⟨?_, ?_, fun hc => ?_, fun hc => ?_⟩
  · rw [Vfs.isNormalComponent, Bool.and_eq_true, decide_eq_true_iff, decide_eq_true_iff]
    constructor <;>
    · intro heq
      rw [heq] at hlen
      revert hlen
      decide
  · intro heq
    rw [heq] at hlen
    revert hlen
    decide
  · rcases hmem _ hc with hc | hc
    · exact h.2.2.1 hc
    · revert hc
      decide
  · rcases hmem _ hc with hc | hc
    · exact h.2.2.2 hc
    · revert hc
      decide

/-- A pack is loaded from an index file and the pack file of its name. -/
theorem loadPack_ok (h : PlainName name) {lp : LoadedPack} : loadPack fs algo name = .ok (some lp) ↔
    endsWith name (str ".idx") = true ∧ ∃ idx data, fs.get? [str "pack", name] = some (.leaf idx) ∧
      fs.get? [str "pack", packFile name] = some (.leaf data) ∧
      PackIndex.parse algo idx = .ok lp.index ∧ Pack.new data algo = .ok lp.pack := by
  have hidx := resolve_inPack h
  have hpack := resolve_inPack (plainName_packFile h)
  have hpath : str "pack/" ++ name.take (name.length - 4) ++ str ".pack" =
      str "pack/" ++ packFile name :=
    List.append_assoc _ _ _
  rw [loadPack]
  simp only [hpath]
  split
  · rename_i hcond
    rw [Bool.and_eq_true] at hcond
    constructor
    · intro hload
      obtain ⟨idx, hread, hload⟩ := except_bind_ok.mp hload
      obtain ⟨index, hparse, hload⟩ := except_bind_ok.mp hload
      obtain ⟨data, hdata, hload⟩ := except_bind_ok.mp hload
      obtain ⟨pack, hnew, hload⟩ := except_bind_ok.mp hload
      cases hload
      exact ⟨hcond.1, idx, data, (Vfs.read_of_resolve hidx).mp hread,
        (Vfs.read_of_resolve hpack).mp hdata,
        hparse, hnew⟩
    · rintro ⟨-, idx, data, hfile, hdata, hparse, hnew⟩
      exact except_bind_ok.mpr ⟨idx, (Vfs.read_of_resolve hidx).mpr hfile,
        except_bind_ok.mpr ⟨_, hparse,
          except_bind_ok.mpr ⟨data, (Vfs.read_of_resolve hpack).mpr hdata,
          except_bind_ok.mpr ⟨_, hnew, rfl⟩⟩⟩⟩
  · rename_i hcond
    constructor
    · intro hload
      cases hload
    · rintro ⟨hends, idx, data, -, hdata, -, -⟩
      refine absurd ?_ hcond
      rw [hends, Vfs.pathExists, Vfs.stat_of_resolve fs hpack, hdata]
      rfl

/-- The packs are loaded from the entries of the pack directory. -/
theorem loadPacks_ok {packs : List LoadedPack} (h : out.loadPacks fs algo = .ok packs) :
    ∃ (entries : List (Str × Entry Bytes)) (loaded : List (Option LoadedPack)),
      (∀ name e, (name, e) ∈ entries ↔ fs.get? [str "pack", name] = some e) ∧
      (entries.mapM fun entry => loadPack fs algo entry.1) = .ok loaded ∧
        packs = loaded.reduceOption := by
  have hresolve : Vfs.resolve (str "pack") = .ok ⟨[str "pack"], false⟩ := by decide
  rw [loadPacks] at h
  split at h
  · obtain ⟨entries, hread, h⟩ := except_bind_ok.mp h
    obtain ⟨loaded, hloaded, h⟩ := except_bind_ok.mp h
    cases h
    refine ⟨out.order entries, loaded, fun name e => ?_, hloaded, rfl⟩
    rw [(out.order_perm entries).mem_iff]
    rw [Vfs.readDir, hresolve] at hread
    simp only [bind, Except.bind] at hread
    split at hread <;> cases hread
    exact FileTree.mem_children
  · rename_i hnone
    cases h
    refine ⟨[], [], fun name e => iff_of_false List.not_mem_nil fun he => hnone ?_, rfl, rfl⟩
    have hdir : fs.get? [str "pack"] = some .dir := FileTree.get?_dropLast (by simp) he
    rw [Vfs.pathExists, Vfs.stat_of_resolve fs hresolve, hdir]
    rfl

/-- **The packs are those of the index files of the pack directory.** -/
theorem mem_loadPacks {packs : List LoadedPack} (h : out.loadPacks fs algo = .ok packs)
    {lp : LoadedPack} :
    lp ∈ packs ↔ ∃ name e, fs.get? [str "pack", name] = some e ∧
      loadPack fs algo name = .ok (some lp) := by
  obtain ⟨entries, loaded, hentries, hloaded, rfl⟩ := loadPacks_ok h
  rw [List.reduceOption_mem_iff]
  constructor
  · intro hmem
    obtain ⟨⟨name, e⟩, he, hload⟩ := mem_of_except_mapM hloaded hmem
    exact ⟨name, e, (hentries name e).mp he, hload⟩
  · rintro ⟨name, e, he, hload⟩
    obtain ⟨r, hr, hload'⟩ := except_mapM_mem hloaded ((hentries name e).mpr he)
    cases hload.symm.trans hload'
    exact hr

/-- Each entry of the pack directory of a store that is opened can be loaded. -/
theorem loadPack_of_loadPacks {packs : List LoadedPack} (h : out.loadPacks fs algo = .ok packs)
    {e : Entry Bytes} (he : fs.get? [str "pack", name] = some e) :
    ∃ loaded, loadPack fs algo name = .ok loaded := by
  obtain ⟨entries, loaded, hentries, hloaded, -⟩ := loadPacks_ok h
  obtain ⟨r, -, hload⟩ := except_mapM_mem hloaded ((hentries name e).mpr he)
  exact ⟨r, hload⟩

/-- The alternates depend on one file. -/
theorem loadAlternates_congr (out : Outside) (z : Zlib) (h : Hasher) (algo : HashAlgo)
    (hfile : fs'.get? [str "info", str "alternates"] = fs.get? [str "info", str "alternates"]) :
    out.loadAlternates z h fs' algo = out.loadAlternates z h fs algo := by
  have hresolve : Vfs.resolve (str "info/alternates") =
      .ok ⟨[str "info", str "alternates"], false⟩ := by
    decide
  have hread : ∀ data, Vfs.read fs' (str "info/alternates") = .ok data ↔
      Vfs.read fs (str "info/alternates") = .ok data := by
    intro data
    rw [Vfs.read_of_resolve hresolve, Vfs.read_of_resolve hresolve, hfile]
  rw [loadAlternates, loadAlternates]
  cases hnew : Vfs.read fs' (str "info/alternates") with
  | ok data => rw [(hread data).mp hnew]
  | error e =>
    cases hold : Vfs.read fs (str "info/alternates") with
    | ok data => cases hnew.symm.trans ((hread data).mpr hold)
    | error e' => rfl

/-- What is opened has the loose objects, the packs and the alternates of its files. -/
theorem openOdb_ok {z : Zlib} {h : Hasher} {odb : CombinedOdb}
    (hopen : out.openOdb z h fs algo = .ok odb) : odb.loose = LooseOdb.new z h fs algo ∧
      out.loadPacks fs algo = .ok odb.packs ∧ odb.alternates = out.loadAlternates z h fs algo := by
  obtain ⟨store, hstore, rfl⟩ := except_map_ok.mp hopen
  obtain ⟨packs, hpacks, rfl⟩ := except_map_ok.mp hstore
  exact ⟨rfl, hpacks, rfl⟩

end Outside

namespace CombinedOdb

/-- A store that was opened from its files. -/
def Opened (out : Outside) (odb : CombinedOdb) : Prop :=
  out.openOdb odb.loose.zlib odb.loose.hasher odb.loose.fs odb.loose.algo = .ok odb

end CombinedOdb
end Puregit
