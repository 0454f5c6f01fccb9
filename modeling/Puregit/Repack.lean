import Puregit.Pack.Bitmap
import Puregit.Pack.Lookup
import Puregit.Prune

/-! # Repacking

`repack` writes the loose objects into one pack, `repackWithBitmap` what the refs lead to; both
then remove the loose copies and open the object directory again.  A read looks for the loose
copy first, so that what was read from it is now read from a pack: from the new one, in which
every object stands by itself, or from another that lists the id.  Which of them comes first
depends on the order in which the file system lists the directory.
-/
namespace Puregit
open ObjectDatabase

namespace Repository

/-- What the names of the files of a pack begin with. -/
def packName (hash : ObjectId) : Str := str "pack-" ++ hash.toHex

/-- The repository with other files in its object directory. -/
def withObjects (repo : Repository) (fs : GitDir) : Repository :=
  { repo with odb := { repo.odb with loose := { repo.odb.loose with fs := fs } } }

/-- Writes a file of the pack directory. -/
def writePackFile (name : Str) (data : Bytes) : Exec Repository Error Unit :=
  Exec.step fun repo => match Vfs.write repo.odb.loose.fs (str "pack/" ++ name) data with
    | .ok fs => (.ok (), repo.withObjects fs)
    | .error e => (.error e, repo)

/-- Writes a pack and its index. -/
def writePack (output : PackWriter.PackOutput) : Exec Repository Error Unit := do
  writePackFile (packName output.hash ++ str ".pack") output.pack
  writePackFile (packName output.hash ++ str ".idx") output.idx

/-- Reads objects. -/
def readObjects (repo : Repository) (ids : List ObjectId) :
    Except Error (List (ObjectId × RawObject)) :=
  ids.mapM fun id => (repo.odb.read id).map fun o => (id, o)

/-- Packs objects. -/
def packObjects (repo : Repository) (objects : List (ObjectId × RawObject)) :
    Except Error PackWriter.PackOutput :=
  (objects.foldl (fun w o => w.add o.2.1 o.2.2)
    (PackWriter.new repo.odb.loose.hasher repo.algo)).finish repo.odb.loose.zlib

/-- Removes loose copies and opens the object directory again. -/
def dropLoose (out : Outside) (ids : List ObjectId) : Exec Repository Error Unit := do
  Exec.step fun repo => (.ok (), repo.removeLoose ids)
  Exec.step fun repo => match repo.reloadOdb out with
    | .ok reloaded => (.ok (), reloaded)
    | .error e => (.error e, repo)

/-- Packs every loose object into a single pack and removes the loose copies; `order` is the
order in which the loose objects are enumerated. -/
def repack (out : Outside) (order : List ObjectId → List ObjectId) : Exec Repository Error Nat := do
  let ids ← Exec.read fun repo => repo.looseObjectIds.map order
  if ids.isEmpty then pure 0
  else do
    let objects ← Exec.read fun repo => repo.readObjects ids
    let output ← Exec.read fun repo => repo.packObjects objects
    writePack output
    dropLoose out ids
    pure ids.length

/-- Packs every object reachable from a ref into one pack with a bitmap and a reverse index, and
removes the loose copies. -/
def repackWithBitmap (out : Outside) (s : UnstableSort) : Exec Repository Error Nat := do
  let refs ← Exec.read fun repo => repo.refs.list
  let tips := refs.toList.map Prod.snd
  if tips.isEmpty then pure 0
  else do
    let reachable ← Exec.read fun repo => (reachableObjects repo.odb tips).map BTreeSet.toList
    if reachable.isEmpty then pure 0
    else do
      let objects ← Exec.read fun repo => repo.readObjects reachable
      let commits := (objects.filter fun o => o.2.1 = .commit).map Prod.fst
      let output ← Exec.read fun repo => repo.packObjects objects
      writePack output
      let idx ← Exec.read fun repo => PackIndex.parse repo.algo output.idx
      let bitmap ← Exec.read fun repo =>
        writeBitmap s repo.odb.loose.hasher repo.odb idx output.hash commits
      let rev ← Exec.read fun repo => writeReverseIndex s repo.odb.loose.hasher idx output.hash
      writePackFile (packName output.hash ++ str ".bitmap") bitmap
      writePackFile (packName output.hash ++ str ".rev") rev
      dropLoose out reachable
      pure reachable.length

/-! ## What a repack does to the files -/

/-- What the names of the files of a pack end in. -/
def extensions : List Str := [str ".pack", str ".idx", str ".bitmap", str ".rev"]

/-- The file of a pack with an extension. -/
def packPath (hash : ObjectId) (ext : Str) : List Str := [str "pack", packName hash ++ ext]

/-- A pack and its index are among the files, and what is no file of the pack is as it was. -/
structure Written (output : PackWriter.PackOutput) (fs fs' : GitDir) : Prop where
  pack : fs'.get? (packPath output.hash (str ".pack")) = some (.leaf output.pack)
  idx : fs'.get? (packPath output.hash (str ".idx")) = some (.leaf output.idx)
  other : ∀ q, q ≠ [str "pack"] → (∀ ext ∈ extensions, q ≠ packPath output.hash ext) →
    fs'.get? q = fs.get? q

variable {out : Outside} {repo repo' : Repository} {output : PackWriter.PackOutput}

theorem plainName_packName (hash : ObjectId) {ext : Str} (hext : ext ∈ extensions) :
    Outside.PlainName (packName hash ++ ext) := by
  have hlen : 5 ≤ (packName hash ++ ext).length := by
    rw [packName, List.length_append, List.length_append, show (str "pack-").length = 5 by decide]
    omega
  have hmem : ∀ c ∈ packName hash ++ ext, c ≠ '/' ∧ c ≠ Char.ofNat 0 := by
    have habsent : ∀ e ∈ str "pack-" :: extensions, '/' ∉ e ∧ Char.ofNat 0 ∉ e := by decide
    have hext' : ∀ e ∈ str "pack-" :: extensions, ∀ c ∈ e, c ≠ '/' ∧ c ≠ Char.ofNat 0 :=
        fun e he c hc =>
      ⟨fun h => (habsent e he).1 (h ▸ hc), fun h => (habsent e he).2 (h ▸ hc)⟩
    intro c hc
    rcases List.mem_append.mp hc with hc | hc
    · rcases List.mem_append.mp hc with hc | hc
      · exact hext' _ List.mem_cons_self c hc
      · obtain ⟨hslash, -, hnul⟩ := LooseOdb.not_separator_of_mem_toHex hc
        exact ⟨hslash, hnul⟩
    · exact hext' _ (List.mem_cons_of_mem _ hext) c hc
  refine ⟨?_, ?_, fun hc => (hmem _ hc).1 rfl, fun hc => (hmem _ hc).2 rfl⟩
  · rw [Vfs.isNormalComponent, Bool.and_eq_true, decide_eq_true_iff, decide_eq_true_iff]
    constructor <;>
    · intro heq
      rw [heq] at hlen
      revert hlen
      decide
  · intro heq
    rw [heq] at hlen
    revert hlen
    decide

/-- Writing a file of a pack makes it and the directory, and nothing else. -/
theorem writePackFile_ok {hash : ObjectId} {ext : Str} {data : Bytes} (hext : ext ∈ extensions)
    (h : writePackFile (packName hash ++ ext) data repo = some (.ok (), repo')) :
    ∃ fs, repo' = repo.withObjects fs ∧ ∀ q, fs.get? q =
      if q = packPath hash ext then some (.leaf data)
      else if q = [str "pack"] then some .dir else repo.odb.loose.fs.get? q := by
  rw [writePackFile, Exec.step] at h
  split at h
  · rename_i fs hwrite
    cases h
    refine ⟨fs, rfl, fun q => ?_⟩
    rw [Vfs.get?_write (Outside.resolve_inPack (plainName_packName hash hext)) hwrite]
    refine if_congr Iff.rfl rfl ?_
    by_cases hpack : q = [str "pack"]
    · rw [if_pos hpack, hpack]
      exact if_pos List.prefix_rfl
    · rw [if_neg hpack]
      by_cases hq : q <+: [str "pack", packName hash ++ ext].dropLast
      · rcases List.prefix_concat_iff.mp (show q <+: [] ++ [str "pack"] from hq) with rfl | hnil
        · exact absurd rfl hpack
        · rw [if_pos hq, List.prefix_nil.mp hnil, FileTree.get?_nil]
      · rw [if_neg hq]
  · cases h

theorem packPath_inj {hash : ObjectId} {ext ext' : Str} :
    packPath hash ext = packPath hash ext' ↔ ext = ext' := by
  simp [packPath]

/-- Writing a pack writes it and its index. -/
theorem writePack_ok (h : writePack output repo = some (.ok (), repo')) :
    ∃ fs, repo' = repo.withObjects fs ∧ Written output repo.odb.loose.fs fs := by
  obtain ⟨_, repo₁, hpack, hidx⟩ := Exec.bind_ok.mp h
  obtain ⟨fs₁, rfl, hfs₁⟩ := writePackFile_ok (by decide) hpack
  obtain ⟨fs₂, rfl, hfs₂⟩ := writePackFile_ok (by decide) hidx
  refine ⟨fs₂, rfl, ?_, ?_, ?_⟩
  · rw [hfs₂, if_neg (by rw [packPath_inj]; decide), if_neg (by simp [packPath])]
    show fs₁.get? _ = _
    rw [hfs₁, if_pos rfl]
  · rw [hfs₂, if_pos rfl]
  · intro q hdir hq
    rw [hfs₂, if_neg (hq _ (by decide)), if_neg hdir]
    show fs₁.get? _ = _
    rw [hfs₁, if_neg (hq _ (by decide)), if_neg hdir]

/-- Another file of the pack may be written beside them. -/
theorem Written.writePackFile {fs : GitDir} {ext : Str} {data : Bytes}
    (hw : Written output fs repo.odb.loose.fs) (hext : ext ∈ extensions) (hpack : ext ≠ str ".pack")
    (hidx : ext ≠ str ".idx") (h : writePackFile (packName output.hash ++ ext) data repo =
      some (.ok (), repo')) :
    ∃ fs', repo' = repo.withObjects fs' ∧ Written output fs fs' := by
  obtain ⟨fs', rfl, hfs'⟩ := writePackFile_ok hext h
  refine ⟨fs', rfl, ?_, ?_, ?_⟩
  · rw [hfs', if_neg (by rw [packPath_inj]; exact hpack.symm), if_neg (by simp [packPath]), hw.pack]
  · rw [hfs', if_neg (by rw [packPath_inj]; exact hidx.symm), if_neg (by simp [packPath]), hw.idx]
  · intro q hdir hq
    rw [hfs', if_neg (hq _ hext), if_neg hdir, hw.other q hdir hq]

/-- The objects of some ids were packed, and their loose copies are gone. -/
structure Repacked (out : Outside) (repo : Repository) (ids : List ObjectId)
    (objects : List (ObjectId × RawObject)) (output : PackWriter.PackOutput) (fs : GitDir)
    (repo' : Repository) : Prop where
  read : repo.readObjects ids = .ok objects
  packed : repo.packObjects objects = .ok output
  written : Written output repo.odb.loose.fs fs
  opened : out.openOdb repo.odb.loose.zlib repo.odb.loose.hasher (ids.foldl LooseOdb.removeLoose fs)
    repo.algo = .ok repo'.odb

theorem dropLoose_ok {ids : List ObjectId} (h : dropLoose out ids repo = some (.ok (), repo')) :
    out.openOdb repo.odb.loose.zlib repo.odb.loose.hasher
      (ids.foldl LooseOdb.removeLoose repo.odb.loose.fs)
      repo.algo = .ok repo'.odb := by
  obtain ⟨_, repo₁, hremove, hreload⟩ := Exec.bind_ok.mp h
  cases hremove
  rw [Exec.step_apply] at hreload
  split at hreload
  · rename_i reloaded hreloaded
    cases hreload
    obtain ⟨odb, hopen, rfl⟩ := except_map_ok.mp hreloaded
    exact hopen
  · cases hreload

/-- **A repack packs the loose objects**, if there are any. -/
theorem repack_ok {order : List ObjectId → List ObjectId} {n : Nat}
    (h : repack out order repo = some (.ok n, repo')) : ∃ ids, repo.looseObjectIds = .ok ids ∧
      (repo' = repo ∨ ∃ objects output fs,
        Repacked out repo (order ids) objects output fs repo') := by
  obtain ⟨ids, hids, h⟩ := Exec.read_bind_ok.mp h
  obtain ⟨ids, hlisted, rfl⟩ := except_map_ok.mp hids
  refine ⟨ids, hlisted, ?_⟩
  split at h
  · cases h
    exact Or.inl rfl
  · obtain ⟨objects, hobjects, h⟩ := Exec.read_bind_ok.mp h
    obtain ⟨output, houtput, h⟩ := Exec.read_bind_ok.mp h
    obtain ⟨_, repo₁, hwrite, h⟩ := Exec.bind_ok.mp h
    obtain ⟨fs, rfl, hwritten⟩ := writePack_ok hwrite
    obtain ⟨_, repo₂, hdrop, h⟩ := Exec.bind_ok.mp h
    cases h
    exact Or.inr ⟨objects, output, fs, hobjects, houtput, hwritten, dropLoose_ok hdrop⟩

/-- **A repack with a bitmap packs what the refs lead to**, if there are any. -/
theorem repackWithBitmap_ok {s : UnstableSort} {n : Nat}
    (h : repackWithBitmap out s repo = some (.ok n, repo')) : ∃ refs, repo.refs.list = .ok refs ∧
      (repo' = repo ∨ ∃ reachable, reachableObjects repo.odb (refs.toList.map Prod.snd) =
        .ok reachable ∧
        ∃ objects output fs, Repacked out repo reachable.toList objects output fs repo') := by
  obtain ⟨refs, hrefs, h⟩ := Exec.read_bind_ok.mp h
  refine ⟨refs, hrefs, ?_⟩
  split at h
  · cases h
    exact Or.inl rfl
  obtain ⟨ids, hids, h⟩ := Exec.read_bind_ok.mp h
  obtain ⟨reachable, hreachable, rfl⟩ := except_map_ok.mp hids
  split at h
  · cases h
    exact Or.inl rfl
  obtain ⟨objects, hobjects, h⟩ := Exec.read_bind_ok.mp h
  obtain ⟨output, houtput, h⟩ := Exec.read_bind_ok.mp h
  obtain ⟨_, repo₁, hwrite, h⟩ := Exec.bind_ok.mp h
  obtain ⟨fs, rfl, hwritten⟩ := writePack_ok hwrite
  obtain ⟨idx, -, h⟩ := Exec.read_bind_ok.mp h
  obtain ⟨bitmap, -, h⟩ := Exec.read_bind_ok.mp h
  obtain ⟨rev, -, h⟩ := Exec.read_bind_ok.mp h
  obtain ⟨_, repo₁, hfile, h⟩ := Exec.bind_ok.mp h
  obtain ⟨fs₁, rfl, hwritten⟩ :=
    Written.writePackFile hwritten (by decide) (by decide) (by decide) hfile
  obtain ⟨_, repo₁, hfile, h⟩ := Exec.bind_ok.mp h
  obtain ⟨fs₂, rfl, hwritten⟩ :=
    Written.writePackFile hwritten (by decide) (by decide) (by decide) hfile
  obtain ⟨_, repo₂, hdrop, h⟩ := Exec.bind_ok.mp h
  cases h
  exact Or.inr ⟨reachable, hreachable, objects, output, fs₂, hobjects, houtput, hwritten,
    dropLoose_ok hdrop⟩

/-! ## The new pack -/

/-- **The new pack lists the packed ids and gives their objects back.** -/
theorem Repacked.newPack {ids : List ObjectId} {objects : List (ObjectId × RawObject)} {fs : GitDir}
    (h : Repacked out repo ids objects output fs repo') (hz : repo.odb.loose.zlib.Exact)
    (hnamed : ∀ id ∈ ids, ∀ o, repo.odb.read id = .ok o →
      hashObject repo.odb.loose.hasher repo.algo o.1 o.2 = id)
    (hsize : ∀ id ∈ ids, ∀ o, repo.odb.read id = .ok o → o.2.length < 2 ^ 64)
    (hcount : ids.length < 2 ^ 31) (hlen : output.pack.length < 2 ^ 64) :
    ∃ lp : LoadedPack, PackIndex.parse repo.algo output.idx = .ok lp.index ∧
      Pack.new output.pack repo.algo = .ok lp.pack ∧
        (∀ id, lp.index.contains id = true ↔ id ∈ ids) ∧
      ∀ id ∈ ids, ∃ o offset, repo.odb.read id = .ok o ∧ lp.index.offsetOf id = some offset ∧
        ∀ locate resolve, lp.pack.readAtWith repo.odb.loose.zlib offset locate resolve = .ok o := by
  -- what was read for an id, and the entry it became
  have hread : ∀ o ∈ objects, o.1 ∈ ids ∧ repo.odb.read o.1 = .ok o.2 := by
    intro o ho
    obtain ⟨id, hid, hmap⟩ := mem_of_except_mapM h.read ho
    obtain ⟨r, hr, rfl⟩ := except_map_ok.mp hmap
    exact ⟨hid, hr⟩
  have hhash : ∀ o ∈ objects, hashObject repo.odb.loose.hasher repo.algo o.2.1 o.2.2 =
      o.1 := fun o ho =>
    hnamed o.1 (hread o ho).1 o.2 (hread o ho).2
  let ops := objects.map fun o => PackWriter.Op.add o.2.1 o.2.2
  have hops : ops.map PackWriter.Op.object = objects.map Prod.snd := by
    rw [List.map_map]
    rfl
  have hfree : PackWriter.CollisionFree repo.odb.loose.hasher repo.algo
      (ops.map PackWriter.Op.object) := by
    rw [hops]
    intro r hr r' hr' heq
    obtain ⟨o, ho, rfl⟩ := List.mem_map.mp hr
    obtain ⟨o', ho', rfl⟩ := List.mem_map.mp hr'
    rw [hhash o ho, hhash o' ho'] at heq
    have hsame := (hread o ho).2
    rw [heq, (hread o' ho').2] at hsame
    exact (Except.ok.inj hsame).symm
  obtain ⟨w, hw⟩ : ∃ w, w = PackWriter.run repo.odb.loose.hasher repo.algo ops := ⟨_, rfl⟩
  have hfinish : w.finish repo.odb.loose.zlib = .ok output := by
    rw [hw, PackWriter.run, List.foldl_map]
    exact h.packed
  obtain ⟨hentries, hexternal⟩ := PackWriter.run_entries hfree
  obtain ⟨hhasher, halgo⟩ := PackWriter.run_hasher repo.odb.loose.hasher repo.algo ops
  rw [← hw] at hentries hexternal hhasher halgo
  have hnone : w.externalBases = [] := by
    have hfilter : ops.filterMap PackWriter.Op.external? = [] := by
      rw [List.filterMap_map]
      exact List.filterMap_eq_nil_iff.mpr fun _ _ => rfl
    rw [hexternal, PackWriter.external, hfilter]
    rfl
  have hmem : ∀ e, e ∈ w.entries ↔ ∃ o ∈ objects, e = ⟨o.1, o.2.1, o.2.2⟩ := by
    have hadded : ops.filterMap PackWriter.Op.added? = objects.map Prod.snd := by
      rw [List.filterMap_map]
      exact congrFun List.filterMap_eq_map objects
    intro e
    rw [hentries, PackWriter.queued, hadded, List.mem_map]
    constructor
    · rintro ⟨r, hr, rfl⟩
      obtain ⟨o, ho, rfl⟩ := List.mem_map.mp (List.mem_eraseDups.mp hr)
      exact ⟨o, ho, by rw [PackWriter.entryOf, hhash o ho]⟩
    · rintro ⟨o, ho, rfl⟩
      exact ⟨o.2, List.mem_eraseDups.mpr (List.mem_map_of_mem ho),
        by rw [PackWriter.entryOf, hhash o ho]⟩
  have hvalid : w.Valid := by
    rw [hw]
    exact PackWriter.run_valid _ _ ops
  have hlength : w.entries.length < 2 ^ 31 := by
    have hsubset : w.entries.map PackEntry.id ⊆ ids := by
      intro id hid
      obtain ⟨e, he, rfl⟩ := List.mem_map.mp hid
      obtain ⟨o, ho, rfl⟩ := (hmem e).mp he
      exact (hread o ho).1
    have hle := (hvalid.nodup.subperm hsubset).length_le
    rw [List.length_map] at hle
    omega
  obtain ⟨idx, p, hparse, hnew, hlists, hreads⟩ := PackWriter.finish_lookup hz hvalid hnone
    (fun e he => by
      obtain ⟨o, ho, rfl⟩ := (hmem e).mp he
      exact hsize o.1 (hread o ho).1 o.2 (hread o ho).2)
    hlength hfinish hlen
  rw [halgo] at hparse hnew
  have hobject : ∀ id ∈ ids, ∃ o ∈ objects, o.1 = id := by
    intro id hid
    obtain ⟨o, ho, hmap⟩ := except_mapM_mem h.read hid
    obtain ⟨r, -, rfl⟩ := except_map_ok.mp hmap
    exact ⟨_, ho, rfl⟩
  refine ⟨⟨idx, p⟩, hparse, hnew, fun id => ?_, fun id hid => ?_⟩
  · rw [hlists]
    constructor
    · rintro ⟨e, he, rfl⟩
      obtain ⟨o, ho, rfl⟩ := (hmem e).mp he
      exact (hread o ho).1
    · intro hid
      obtain ⟨o, ho, rfl⟩ := hobject id hid
      exact ⟨_, (hmem _).mpr ⟨o, ho, rfl⟩, rfl⟩
  · obtain ⟨o, ho, rfl⟩ := hobject id hid
    obtain ⟨offset, hoffset, hat⟩ := hreads _ ((hmem _).mpr ⟨o, ho, rfl⟩)
    exact ⟨o.2, offset, (hread o ho).2, hoffset, hat⟩

end Repository

/-! ## Stores that differ in where some objects are -/

namespace ObjectStore

variable {s s' : ObjectStore} {id : ObjectId}

theorem locate_some {lp : LoadedPack} {offset : Nat} (h : s.locate id = some (lp, offset)) :
    lp ∈ s.packs ∧ lp.index.offsetOf id = some offset := by
  obtain ⟨lp', hmem, hmap⟩ := List.exists_of_findSome?_eq_some h
  obtain ⟨offset', hoffset, heq⟩ := Option.map_eq_some_iff.mp hmap
  cases heq
  exact ⟨hmem, hoffset⟩

theorem locate_none : s.locate id = none ↔ ∀ lp ∈ s.packs, lp.index.offsetOf id = none := by
  rw [locate, List.findSome?_eq_none_iff]
  exact forall₂_congr fun lp _ => Option.map_eq_none_iff

/-- What a store reads it holds, unless it is elsewhere. -/
theorem contains_of_readDepth {elsewhere : Nat → ObjectId → Option RawObject} {left : Nat}
    {o : RawObject} (h : s.readDepth elsewhere left id = .ok o) :
    s.contains id = true ∨ ∃ left, elsewhere left id = some o := by
  cases left with
  | zero => cases h
  | succ left =>
    rw [readDepth] at h
    rw [contains, Bool.or_eq_true, List.any_eq_true]
    by_cases hloose : s.loose.contains id = true
    · exact Or.inl (Or.inl hloose)
    rw [if_neg hloose] at h
    cases hlocate : s.locate id with
    | some found =>
      obtain ⟨lp, offset⟩ := found
      obtain ⟨hmem, hoffset⟩ := locate_some hlocate
      obtain ⟨i, hi, -⟩ := Option.bind_eq_some_iff.mp hoffset
      exact Or.inl (Or.inr ⟨lp, hmem, PackIndex.contains_iff.mpr ⟨i, hi⟩⟩)
    | none =>
      rw [hlocate] at h
      simp only at h
      split at h
      · rename_i object hobject
        cases h
        exact Or.inr ⟨left + 1, hobject⟩
      · cases h

/-- What the pack of a located object reads, given the bases outside of it. -/
def readLocated (z : Zlib) (found : LoadedPack × Nat) (resolve : ExternalResolver) :
    Except Error RawObject :=
  found.1.pack.readAtWith z found.2 found.1.index.offsetOf resolve

/-- **Stores that read some objects alike at every depth, and hold the others alike, read all
objects alike.**  The induction is along the chains of bases from pack to pack. -/
theorem readDepth_congr {elsewhere : Nat → ObjectId → Option RawObject} {moved : ObjectId → Prop}
    (hmoved : ∀ id, moved id → ∀ left,
      s'.readDepth elsewhere (left + 1) id = s.readDepth elsewhere (left + 1) id)
    (hloose : ∀ id, ¬ moved id → s'.loose.contains id = s.loose.contains id ∧
      s'.loose.read id = s.loose.read id)
    (hlocate : ∀ id, ¬ moved id → ∀ resolve,
      (s'.locate id).map (fun found => readLocated s'.loose.zlib found resolve) =
        (s.locate id).map fun found => readLocated s.loose.zlib found resolve)
    (left : Nat) (id : ObjectId) :
    s'.readDepth elsewhere left id = s.readDepth elsewhere left id := by
  induction left generalizing id with
  | zero => rfl
  | succ left ih =>
    by_cases hid : moved id
    · exact hmoved id hid left
    obtain ⟨hcontains, hread⟩ := hloose id hid
    have hresolve : (fun base => s'.readDepth elsewhere left base) = fun base =>
        s.readDepth elsewhere left base :=
      funext ih
    have hfound := hlocate id hid fun base => s.readDepth elsewhere left base
    rw [readDepth, readDepth, hcontains, hread, hresolve]
    refine if_congr Iff.rfl rfl ?_
    cases hnew : s'.locate id with
    | none =>
      rw [hnew, Option.map_none, eq_comm, Option.map_eq_none_iff] at hfound
      rw [hfound]
    | some found =>
      rw [hnew, Option.map_some, eq_comm, Option.map_eq_some_iff] at hfound
      obtain ⟨found', hold, heq⟩ := hfound
      rw [hold]
      exact heq.symm

end ObjectStore
/-! ## What is asked of a store -/

namespace CombinedOdb

/-- What a store reads it holds. -/
theorem contains_of_read {odb : CombinedOdb} {id : ObjectId} {o : RawObject}
    (h : odb.read id = .ok o) :
    odb.contains id = true := by
  rw [contains, Bool.or_eq_true]
  rcases ObjectStore.contains_of_readDepth h with hheld | ⟨left, helsewhere⟩
  · exact Or.inl hheld
  · right
    obtain ⟨alt, hmem, halt⟩ := List.exists_of_findSome?_eq_some helsewhere
    rw [List.any_eq_true]
    refine ⟨alt, hmem, ?_⟩
    cases hread : alt.readDepth (fun _ _ => none) left id with
    | error e =>
      rw [hread] at halt
      cases halt
    | ok o' =>
      rcases ObjectStore.contains_of_readDepth hread with hheld | ⟨_, hnone⟩
      · exact hheld
      · cases hnone

/-- The objects of some ids are what the ids say, and read the same however many bases lead to
them. -/
structure Settled (odb : CombinedOdb) (ids : List ObjectId) : Prop where
  named : ∀ id ∈ ids, ∀ o, odb.read id = .ok o →
    hashObject odb.loose.hasher odb.loose.algo o.1 o.2 = id
  alone : ∀ id ∈ ids, ∀ left, odb.readDepth odb.readAlternate (left + 1) id = odb.read id

/-- Loose objects are settled: each was hashed when it was read, and needs no base. -/
theorem settled_of_loose {odb : CombinedOdb} {ids : List ObjectId}
    (h : ∀ id ∈ ids, ∃ o, odb.loose.read id = .ok o) : odb.Settled ids := by
  have hcontains : ∀ id ∈ ids, odb.loose.contains id = true := by
    intro id hid
    obtain ⟨o, ho⟩ := h id hid
    obtain ⟨⟨data, hdata⟩, -⟩ := LooseOdb.leaf_of_read ho
    rw [LooseOdb.contains_eq, hdata]
    rfl
  have hread : ∀ id ∈ ids, ∀ left, odb.readDepth odb.readAlternate (left + 1) id =
      odb.loose.read id := by
    intro id hid left
    rw [ObjectStore.readDepth, if_pos (hcontains id hid)]
  refine ⟨fun id hid o ho => ?_, fun id hid left => ?_⟩
  · rw [read, hread id hid] at ho
    exact LooseOdb.hashObject_of_read ho
  · rw [read, hread id hid, hread id hid]

/-- The packs of a store agree on what they share: one that lists an id of `ids` holds its object
whole in itself, and any two that list an id hold it alike. -/
structure Consistent (odb : CombinedOdb) (ids : List ObjectId) : Prop where
  held : ∀ lp ∈ odb.packs, ∀ id ∈ ids, ∀ offset, lp.index.offsetOf id = some offset →
    ∀ resolve, ObjectStore.readLocated odb.loose.zlib (lp, offset) resolve = odb.read id
  alike : ∀ lp ∈ odb.packs, ∀ lp' ∈ odb.packs, ∀ id offset offset',
    lp.index.offsetOf id = some offset →
    lp'.index.offsetOf id = some offset' → ∀ resolve,
      ObjectStore.readLocated odb.loose.zlib (lp, offset) resolve =
        ObjectStore.readLocated odb.loose.zlib (lp', offset') resolve

end CombinedOdb

namespace Repository

/-- What a repack of some objects relies on: the store is what its files say, its packs agree, no
other pack has the name of the new one, and lengths and counts fit their fields. -/
structure Repackable (out : Outside) (repo : Repository) (ids : List ObjectId) : Prop where
  opened : repo.odb.Opened out
  plain : RefStore.PlainNames repo.odb.loose.fs
  zlib : repo.odb.loose.zlib.Exact
  consistent : repo.odb.Consistent ids
  count : ids.length < 2 ^ 31
  sizes : ∀ id ∈ ids, ∀ o, repo.odb.read id = .ok o → o.2.length < 2 ^ 64
  name : ∀ objects output, repo.readObjects ids = .ok objects →
    repo.packObjects objects = .ok output →
    output.pack.length < 2 ^ 64 ∧
    (∀ data, repo.odb.loose.fs.get? (packPath output.hash (str ".pack")) = some (.leaf data) →
      data = output.pack) ∧
    ∀ data, repo.odb.loose.fs.get? (packPath output.hash (str ".idx")) = some (.leaf data) →
      data = output.idx

end Repository

namespace Repository

variable {out : Outside} {repo repo' : Repository} {output : PackWriter.PackOutput}
  {ids : List ObjectId} {objects : List (ObjectId × RawObject)} {fs : GitDir}

/-- A file of a pack is an index file only if it is the index of the pack. -/
theorem ne_of_endsWith {hash : ObjectId} {name : Str} (hends : endsWith name (str ".idx") = true)
    (hne : name ≠ packName hash ++ str ".idx") : (∀ ext ∈ extensions, name ≠ packName hash ++ ext) ∧
      ∀ ext ∈ extensions, Outside.packFile name ≠ packName hash ++ ext := by
  obtain ⟨stem, hstem⟩ := List.isSuffixOf_iff_suffix.mp hends
  have hlast : ∀ ext ∈ extensions, ext ≠ [] ∧ (ext.getLast? = some 'x' → ext = str ".idx") ∧
      (ext.getLast? = some 'k' → ext = str ".pack") := by decide
  have hgetLast : ∀ (front ext : Str), ext ≠ [] → (front ++ ext).getLast? = ext.getLast? := by
    intro front ext hext
    rw [List.getLast?_append, List.getLast?_eq_some_getLast hext]
    rfl
  constructor
  · rintro ext hext rfl
    obtain ⟨hnil, hidx, -⟩ := hlast ext hext
    have hchar := congrArg List.getLast? hstem
    rw [hgetLast _ _ (by decide), hgetLast _ _ hnil] at hchar
    exact hne (by rw [hidx hchar.symm])
  · intro ext hext heq
    obtain ⟨hnil, -, hpack⟩ := hlast ext hext
    have hchar := congrArg List.getLast? heq
    rw [Outside.packFile, hgetLast _ _ (by decide), hgetLast _ _ hnil] at hchar
    have htake : name.take (name.length - 4) = stem := by
      rw [← hstem, List.length_append, show (str ".idx").length =
        4 by decide, Nat.add_sub_cancel, List.take_left]
    rw [Outside.packFile, htake, hpack hchar.symm, List.append_left_inj] at heq
    exact hne (by rw [← hstem, heq])

/-- The packs afterwards are the new one and those from before. -/
theorem Repacked.mem_packs (h : Repacked out repo ids objects output fs repo')
    (hrepo : Repackable out repo ids) {new : LoadedPack}
    (hindex : PackIndex.parse repo.algo output.idx = .ok new.index)
    (hpack : Pack.new output.pack repo.algo = .ok new.pack) {lp : LoadedPack} :
    lp ∈ repo'.odb.packs ↔ lp = new ∨ lp ∈ repo.odb.packs := by
  obtain ⟨-, hbefore, -⟩ := Outside.openOdb_ok hrepo.opened
  obtain ⟨-, hafter, -⟩ := Outside.openOdb_ok h.opened
  obtain ⟨-, hsamePack, hsameIdx⟩ := hrepo.name objects output h.read h.packed
  rw [Outside.mem_loadPacks hafter, Outside.mem_loadPacks hbefore]
  have hstay : ∀ name, (ids.foldl LooseOdb.removeLoose fs).get? [str "pack", name] =
      fs.get? [str "pack", name] := by
    intro name
    refine LooseOdb.get?_foldl_removeLoose fun id _ heq => ?_
    have hdir : str "pack" = id.toHex.take 2 := (List.cons.inj heq).1
    have hlen := congrArg List.length hdir
    rw [List.length_take] at hlen
    have hfour : (str "pack").length = 4 := by decide
    omega
  have hother : ∀ name, (∀ ext ∈ extensions, name ≠ packName output.hash ++ ext) →
      (ids.foldl LooseOdb.removeLoose fs).get? [str "pack", name] =
        repo.odb.loose.fs.get? [str "pack", name] := by
    intro name hname
    rw [hstay]
    refine h.written.other _ (by simp) fun ext hext heq => hname ext hext ?_
    exact (List.cons.inj (List.cons.inj heq).2).1
  have hnewFile : Outside.packFile (packName output.hash ++ str ".idx") =
      packName output.hash ++ str ".pack" := by
    rw [Outside.packFile, List.length_append, show (str ".idx").length = 4 by
      decide, Nat.add_sub_cancel,
      List.take_left]
  have hnewIdx : (ids.foldl LooseOdb.removeLoose fs).get? [str "pack",
    packName output.hash ++ str ".idx"] =
      some (.leaf output.idx) := by
    rw [hstay]
    exact h.written.idx
  have hnewPack : (ids.foldl LooseOdb.removeLoose fs).get? [str "pack",
    packName output.hash ++ str ".pack"] =
      some (.leaf output.pack) := by
    rw [hstay]
    exact h.written.pack
  have hplainNew : Outside.PlainName (packName output.hash ++ str ".idx") :=
    plainName_packName _ (by decide)
  constructor
  · rintro ⟨name, e, he, hload⟩
    have hplain : Outside.PlainName name := by
      by_cases hname : ∀ ext ∈ extensions, name ≠ packName output.hash ++ ext
      · rw [hother name hname] at he
        exact hrepo.plain _ e he name (by simp)
      · push Not at hname
        obtain ⟨ext, hext, rfl⟩ := hname
        exact plainName_packName _ hext
    obtain ⟨hends, idx, data, hidx, hdata, hparse, hnew⟩ := (Outside.loadPack_ok hplain).mp hload
    by_cases hname : name = packName output.hash ++ str ".idx"
    · subst hname
      rw [hnewFile] at hdata
      cases hnewIdx.symm.trans hidx
      cases hnewPack.symm.trans hdata
      left
      cases lp
      cases new
      cases hindex.symm.trans hparse
      cases hpack.symm.trans hnew
      rfl
    · obtain ⟨hneIdx, hnePack⟩ := ne_of_endsWith hends hname
      rw [hother _ hneIdx] at he hidx
      rw [hother _ hnePack] at hdata
      exact Or.inr ⟨name, e, he, (Outside.loadPack_ok hplain).mpr ⟨hends, idx, data, hidx, hdata,
        hparse, hnew⟩⟩
  · have hnewLoaded : ∃ name e, (ids.foldl LooseOdb.removeLoose fs).get? [str "pack",
      name] = some e ∧
        Outside.loadPack (ids.foldl LooseOdb.removeLoose fs) repo.algo name = .ok (some new) := by
      refine ⟨_, _, hnewIdx, (Outside.loadPack_ok hplainNew).mpr ⟨?_, _, _, hnewIdx, ?_,
        hindex, hpack⟩⟩
      · exact List.isSuffixOf_iff_suffix.mpr (List.suffix_append _ _)
      · rw [hnewFile]
        exact hnewPack
    rintro (rfl | ⟨name, e, he, hload⟩)
    · exact hnewLoaded
    · have hplain : Outside.PlainName name := hrepo.plain _ e he name (by simp)
      obtain ⟨hends, idx, data, hidx, hdata, hparse, hnew⟩ := (Outside.loadPack_ok hplain).mp hload
      by_cases hname : name = packName output.hash ++ str ".idx"
      · subst hname
        rw [hnewFile] at hdata
        cases hsameIdx idx hidx
        cases hsamePack data hdata
        have heq : lp = new := by
          cases lp
          cases new
          cases hindex.symm.trans hparse
          cases hpack.symm.trans hnew
          rfl
        rw [heq]
        exact hnewLoaded
      · obtain ⟨hneIdx, hnePack⟩ := ne_of_endsWith hends hname
        rw [← hother _ hneIdx] at he hidx
        rw [← hother _ hnePack] at hdata
        exact ⟨name, e, he, (Outside.loadPack_ok hplain).mpr ⟨hends, idx, data, hidx, hdata,
          hparse, hnew⟩⟩

/-- **The packed objects are no longer loose, and the other files of objects are as they were.** -/
theorem Repacked.get?_loosePath (h : Repacked out repo ids objects output fs repo')
    (id : ObjectId) :
    (ids.foldl LooseOdb.removeLoose fs).get? (LooseOdb.loosePath id) =
      if id ∈ ids then none else repo.odb.loose.fs.get? (LooseOdb.loosePath id) := by
  have hother : fs.get? (LooseOdb.loosePath id) =
      repo.odb.loose.fs.get? (LooseOdb.loosePath id) := by
    have hdir : id.toHex.take 2 ≠ str "pack" := by
      intro heq
      have hlen := congrArg List.length heq
      rw [List.length_take] at hlen
      have hfour : (str "pack").length = 4 := by decide
      omega
    refine h.written.other _ (by simp [LooseOdb.loosePath]) fun ext _ heq => ?_
    exact hdir (List.cons.inj heq).1
  by_cases hid : id ∈ ids
  · rw [if_pos hid]
    refine LooseOdb.get?_foldl_removeLoose_gone ?_
    rw [FileTree.leaf?, hother]
    cases hfile : repo.odb.loose.fs.get? (LooseOdb.loosePath id) with
    | none => exact Or.inl rfl
    | some e =>
      -- the object was read, so that its file is one
      obtain ⟨o, -, hread⟩ := except_mapM_mem h.read hid
      obtain ⟨r, hread, -⟩ := except_map_ok.mp hread
      have hcontains : repo.odb.loose.contains id = true := by
        rw [LooseOdb.contains_eq, hfile]
        rfl
      rw [CombinedOdb.read, ObjectStore.readDepth, if_pos hcontains] at hread
      obtain ⟨⟨data, hdata⟩, -⟩ := LooseOdb.leaf_of_read hread
      cases hfile.symm.trans hdata
      exact Or.inr ⟨⟨id, hid, rfl⟩, rfl⟩
  · rw [if_neg hid, ← hother]
    exact LooseOdb.get?_foldl_removeLoose fun id' hid' heq =>
      hid (LooseOdb.loosePath_injective heq ▸ hid')

/-- **A repack leaves what the store holds and reads as it is.** -/
theorem Repacked.preserves (h : Repacked out repo ids objects output fs repo')
    (hrepo : Repackable out repo ids) (hsettled : repo.odb.Settled ids) (id : ObjectId) :
    repo'.odb.read id = repo.odb.read id ∧ repo'.odb.contains id = repo.odb.contains id := by
  obtain ⟨new, hindex, hpack, hlists, hnew⟩ :=
    h.newPack hrepo.zlib hsettled.named hrepo.sizes hrepo.count
    (hrepo.name objects output h.read h.packed).1
  obtain ⟨hlooseBefore, -, halternatesBefore⟩ := Outside.openOdb_ok hrepo.opened
  obtain ⟨hloose, -, halternates⟩ := Outside.openOdb_ok h.opened
  have hpacks : ∀ lp, lp ∈ repo'.odb.packs ↔ lp = new ∨ lp ∈ repo.odb.packs := fun lp =>
    h.mem_packs hrepo hindex hpack
  have hsame : repo'.odb.loose =
      { repo.odb.loose with fs := ids.foldl LooseOdb.removeLoose fs } := by
    rw [hloose, hlooseBefore]
    rfl
  have hcontains : ∀ id, repo'.odb.loose.contains id =
      if id ∈ ids then false else repo.odb.loose.contains id := by
    intro id
    rw [LooseOdb.contains_eq, hsame]
    simp only
    rw [h.get?_loosePath]
    split
    · rfl
    · rw [LooseOdb.contains_eq]
  have halternate : repo'.odb.alternates = repo.odb.alternates := by
    rw [halternates, halternatesBefore]
    refine Outside.loadAlternates_congr _ _ _ _ ?_
    have hinfo : str "info" ≠ str "pack" := by decide
    rw [LooseOdb.get?_foldl_removeLoose]
    · refine h.written.other _ (by simp) fun ext _ heq => hinfo (List.cons.inj heq).1
    · intro id _ heq
      have hlen := congrArg List.length (List.cons.inj heq).1
      rw [List.length_take] at hlen
      have hfour : (str "info").length = 4 := by decide
      omega
  -- an id that was not packed is in the packs that listed it before
  have hunlisted : ∀ id, id ∉ ids → new.index.contains id = false := fun id hid =>
    eq_false_of_ne_true fun hlisted => hid ((hlists id).mp hlisted)
  have hnoOffset : ∀ id, id ∉ ids → new.index.offsetOf id = none := by
    intro id hid
    have hnone : new.index.positionOf id = none := by
      have hcontains := hunlisted id hid
      rwa [PackIndex.contains, Option.isSome_eq_false_iff, Option.isNone_iff_eq_none] at hcontains
    rw [PackIndex.offsetOf, hnone]
    rfl
  constructor
  · have hread : repo'.odb.readAlternate = repo.odb.readAlternate := by
      funext left id
      rw [CombinedOdb.readAlternate, CombinedOdb.readAlternate, halternate]
    rw [CombinedOdb.read, CombinedOdb.read, hread]
    refine @ObjectStore.readDepth_congr _ _ _ (· ∈ ids) ?_ ?_ ?_ _ id
    · intro id hid left
      obtain ⟨o, offset, ho, hoffset, hat⟩ := hnew id hid
      rw [hsettled.alone id hid left, ho, ObjectStore.readDepth, hcontains, if_pos hid]
      simp only [Bool.false_eq_true, if_false]
      cases hlocate : repo'.odb.locate id with
      | none =>
        have hnone := ObjectStore.locate_none.mp hlocate new ((hpacks new).mpr (Or.inl rfl))
        cases hnone.symm.trans hoffset
      | some found =>
        obtain ⟨lp, offset'⟩ := found
        obtain ⟨hmem, hoffset'⟩ := ObjectStore.locate_some hlocate
        simp only
        rw [hsame]
        rcases (hpacks lp).mp hmem with rfl | hmem
        · cases hoffset.symm.trans hoffset'
          exact hat _ _
        · rw [← ho]
          exact hrepo.consistent.held lp hmem id hid offset' hoffset' _
    · intro id hid
      refine ⟨by rw [hcontains, if_neg hid], ?_⟩
      rw [hsame]
      exact LooseOdb.read_congr (by rw [h.get?_loosePath, if_neg hid])
    · intro id hid resolve
      cases hafter : repo'.odb.locate id with
      | none =>
        have hnone : repo.odb.locate id = none := ObjectStore.locate_none.mpr fun lp hmem =>
          ObjectStore.locate_none.mp hafter lp ((hpacks lp).mpr (Or.inr hmem))
        rw [hnone]
        rfl
      | some found =>
        obtain ⟨lp, offset⟩ := found
        obtain ⟨hmem, hoffset⟩ := ObjectStore.locate_some hafter
        have hold : lp ∈ repo.odb.packs := by
          refine ((hpacks lp).mp hmem).resolve_left ?_
          rintro rfl
          cases (hnoOffset id hid).symm.trans hoffset
        cases hbefore : repo.odb.locate id with
        | none => cases (ObjectStore.locate_none.mp hbefore lp hold).symm.trans hoffset
        | some found' =>
          obtain ⟨lp', offset'⟩ := found'
          obtain ⟨hmem', hoffset'⟩ := ObjectStore.locate_some hbefore
          rw [Option.map_some, Option.map_some, hsame]
          exact congrArg some
            (hrepo.consistent.alike lp hold lp' hmem' id offset offset' hoffset hoffset' resolve)
  · by_cases hid : id ∈ ids
    · obtain ⟨o, -, hread⟩ := except_mapM_mem h.read hid
      obtain ⟨r, hread, -⟩ := except_map_ok.mp hread
      have hlisted : repo'.odb.packs.any (fun lp => lp.index.contains id) = true :=
        List.any_eq_true.mpr ⟨new, (hpacks new).mpr (Or.inl rfl), (hlists id).mpr hid⟩
      rw [CombinedOdb.contains_of_read hread, CombinedOdb.contains, ObjectStore.contains,
        hlisted, Bool.or_true,
        Bool.true_or]
    · have hlisted : repo'.odb.packs.any (fun lp => lp.index.contains id) =
          repo.odb.packs.any fun lp => lp.index.contains id := by
        rw [Bool.eq_iff_iff, List.any_eq_true, List.any_eq_true]
        constructor
        · rintro ⟨lp, hmem, hlp⟩
          refine ⟨lp, ((hpacks lp).mp hmem).resolve_left ?_, hlp⟩
          rintro rfl
          cases (hunlisted id hid).symm.trans hlp
        · rintro ⟨lp, hmem, hlp⟩
          exact ⟨lp, (hpacks lp).mpr (Or.inr hmem), hlp⟩
      rw [CombinedOdb.contains, CombinedOdb.contains, ObjectStore.contains,
        ObjectStore.contains, halternate,
        hcontains, if_neg hid, hlisted]

/-- **Repacking preserves the object store.**  After a successful repack every id reads as before
and is held as before; likewise after a repack with a bitmap, if what the refs lead to is what its
ids say and reads the same at every depth. -/
theorem repack_preserves (out : Outside) (repo : Repository) :
    (∀ order n repo', repack out order repo = some (.ok n, repo') →
      (∀ l, (order l).Perm l) →
      (∀ ids, repo.looseObjectIds = .ok ids → (∀ id ∈ ids, ∃ o, repo.odb.loose.read id = .ok o) ∧
        Repackable out repo (order ids)) →
      ∀ id, repo'.odb.read id = repo.odb.read id ∧ repo'.odb.contains id = repo.odb.contains id) ∧
    (∀ s n repo', repackWithBitmap out s repo = some (.ok n, repo') →
      (∀ refs reachable, repo.refs.list = .ok refs →
        reachableObjects repo.odb (refs.toList.map Prod.snd) = .ok reachable →
        repo.odb.Settled reachable.toList ∧ Repackable out repo reachable.toList) →
      ∀ id, repo'.odb.read id = repo.odb.read id ∧
        repo'.odb.contains id = repo.odb.contains id) := by
  constructor
  · intro order n repo' hrun horder hids
    obtain ⟨ids, hlisted, hdone⟩ := repack_ok hrun
    obtain ⟨hloose, hrepo⟩ := hids ids hlisted
    rcases hdone with rfl | ⟨objects, output, fs, hrepacked⟩
    · exact fun id => ⟨rfl, rfl⟩
    · exact hrepacked.preserves hrepo (CombinedOdb.settled_of_loose fun id hid =>
        hloose id ((horder ids).mem_iff.mp hid))
  · intro s n repo' hrun hids
    obtain ⟨refs, hrefs, hdone⟩ := repackWithBitmap_ok hrun
    rcases hdone with rfl | ⟨reachable, hreachable, objects, output, fs, hrepacked⟩
    · exact fun id => ⟨rfl, rfl⟩
    · obtain ⟨hsettled, hrepo⟩ := hids refs reachable hrefs hreachable
      exact hrepacked.preserves hrepo hsettled

end Repository
/-! ## A pack that was there -/

namespace RepackSample
open Repository PackSample

/-- A repository with a pack that lists an id, some loose blobs and a ref. -/
def sample (packed : PackEntry) (loose : List Bytes) (ref : ObjectId) :
    Except Error Repository := do
  let old ← (⟨.sha, .sha1, [packed], []⟩ : PackWriter).finish .stored
  let fs ← Vfs.write newObjects (str "pack/pack-0.pack") old.pack
  let fs ← Vfs.write fs (str "pack/pack-0.idx") old.idx
  let odb := loose.foldl (fun odb content => (odb.write .blob content).2)
    (LooseOdb.new .stored .sha fs .sha1)
  let odb ← Outside.sorted.openOdb .stored .sha odb.fs .sha1
  let refs ← Vfs.write FileTree.empty (str "refs/tags/fox") (toUtf8 ref.toHex)
  .ok ⟨refs, odb⟩

theorem sample_opened {packed : PackEntry} {loose : List Bytes} {ref : ObjectId} {repo : Repository}
    (h : sample packed loose ref = .ok repo) :
    repo.odb.Opened .sorted ∧ repo.odb.loose.zlib.Exact := by
  obtain ⟨old, -, h⟩ := except_bind_ok.mp h
  obtain ⟨fs, -, h⟩ := except_bind_ok.mp h
  obtain ⟨fs, -, h⟩ := except_bind_ok.mp h
  obtain ⟨odb, hopen, h⟩ := except_bind_ok.mp h
  obtain ⟨refs, -, h⟩ := except_bind_ok.mp h
  cases h
  have hloose := (Outside.openOdb_ok hopen).1
  refine ⟨?_, ?_⟩
  · rw [CombinedOdb.Opened, hloose]
    exact hopen
  · rw [hloose]
    exact Zlib.stored_exact

/-- A repository to repack: it has one pack, which lists other ids. -/
def ready (repo : Repository) (ids : List ObjectId) : Bool :=
  repo.odb.packs.length == 1 && ids.length < 2 ^ 31 &&
    repo.odb.packs.all (fun lp => ids.all fun id => (lp.index.offsetOf id).isNone) &&
    ids.all (fun id => match repo.odb.loose.read id, repo.odb.read id with
      | .ok _, .ok o => o.2.length < 2 ^ 64
      | _, _ => false) &&
    repo.odb.loose.fs.entries.toList.all (fun b => b.1.all fun c => Vfs.isNormalComponent c &&
      c != str ".." && !c.contains '/' && !c.contains (Char.ofNat 0)) &&
    match repo.readObjects ids >>= repo.packObjects with
    | .ok output => output.pack.length < 2 ^ 64 &&
        (repo.odb.loose.fs.get? (packPath output.hash (str ".pack"))).isNone &&
        (repo.odb.loose.fs.get? (packPath output.hash (str ".idx"))).isNone
    | .error _ => true

theorem repackable_of_ready {repo : Repository} {ids : List ObjectId}
    (hopened : repo.odb.Opened .sorted) (hz : repo.odb.loose.zlib.Exact)
    (h : ready repo ids = true) :
    (∀ id ∈ ids, ∃ o, repo.odb.loose.read id = .ok o) ∧ Repackable .sorted repo ids := by
  simp only [ready, Bool.and_eq_true, beq_iff_eq, List.all_eq_true, decide_eq_true_iff,
    Option.isNone_iff_eq_none] at h
  obtain ⟨⟨⟨⟨⟨hone, hcount⟩, hunlisted⟩, hread⟩, hplain⟩, hname⟩ := h
  obtain ⟨only, honly⟩ := List.length_eq_one_iff.mp hone
  refine ⟨fun id hid => ?_, hopened, ?_, hz, ⟨?_, ?_⟩, hcount, ?_, ?_⟩
  · have hid := hread id hid
    split at hid
    · rename_i o _ ho _
      exact ⟨o, ho⟩
    · cases hid
  · intro p e hp c hc
    have hb := hplain _ (BTreeMap.get?_eq_some.mp hp) c hc
    simpa [and_assoc] using hb
  · intro lp hlp id hid offset hoffset
    cases (hunlisted lp hlp id hid).symm.trans hoffset
  · intro lp hlp lp' hlp' id offset offset' hoffset hoffset' resolve
    rw [honly, List.mem_singleton] at hlp hlp'
    subst hlp hlp'
    cases hoffset.symm.trans hoffset'
    rfl
  · intro id hid o ho
    have hid := hread id hid
    rw [ho] at hid
    split at hid
    · rename_i o' _ heq
      cases heq
      exact of_decide_eq_true hid
    · cases hid
  · intro objects output hobjects houtput
    rw [hobjects] at hname
    simp only [bind, Except.bind, houtput, Bool.and_eq_true, decide_eq_true_iff,
      Option.isNone_iff_eq_none] at hname
    obtain ⟨⟨hlen, hpack⟩, hidx⟩ := hname
    refine ⟨hlen, fun data hdata => ?_, fun data hdata => ?_⟩
    · cases hpack.symm.trans hdata
    · cases hidx.symm.trans hdata

/-- A blob in a pack and a loose one, which a tag names. -/
theorem ready_fox : (sample ⟨blobId held, .blob, held⟩ [fox] (blobId fox)).toOption.map (fun repo =>
    (repo.looseObjectIds.toOption.map (ready repo), (repack .sorted id repo).map Prod.fst,
      (repo.refs.list.toOption.bind fun refs =>
        (reachableObjects repo.odb (refs.toList.map Prod.snd)).toOption).map fun r =>
          ready repo r.toList,
      (repackWithBitmap .sorted .stable repo).map Prod.fst)) =
    some (some true, some (.ok 1), some true, some (.ok 1)) := by
  decide +kernel

theorem eq_ok_of_toOption {α : Type} {x : Except Error α} {a : α} (h : x.toOption = some a) :
    x = .ok a := by
  cases x with
  | error e => cases h
  | ok b => exact congrArg Except.ok (Option.some.inj h)

/-- Both repacks of the repository keep all there is. -/
theorem repack_fox : ∃ repo repo₁ repo₂, repack .sorted id repo = some (.ok 1, repo₁) ∧
    repackWithBitmap .sorted .stable repo = some (.ok 1, repo₂) ∧
    (∀ id, repo₁.odb.read id = repo.odb.read id ∧ repo₁.odb.contains id = repo.odb.contains id) ∧
    ∀ id, repo₂.odb.read id = repo.odb.read id ∧ repo₂.odb.contains id = repo.odb.contains id := by
  obtain ⟨repo, hsample, hready⟩ := Option.map_eq_some_iff.mp ready_fox
  obtain ⟨hopened, hz⟩ := sample_opened (eq_ok_of_toOption hsample)
  simp only [Prod.mk.injEq] at hready
  obtain ⟨hloose, hrepack, hreachable, hbitmap⟩ := hready
  obtain ⟨⟨r, repo₁⟩, hrepack, hr⟩ := Option.map_eq_some_iff.mp hrepack
  cases hr
  obtain ⟨⟨r, repo₂⟩, hbitmap, hr⟩ := Option.map_eq_some_iff.mp hbitmap
  cases hr
  refine ⟨repo, repo₁, repo₂, hrepack, hbitmap, ?_, ?_⟩
  · refine (repack_preserves .sorted repo).1 id 1 repo₁ hrepack (fun l => .rfl) fun ids hids => ?_
    rw [hids] at hloose
    exact repackable_of_ready hopened hz (Option.some.inj hloose)
  · refine (repack_preserves .sorted repo).2 .stable 1 repo₂ hbitmap fun refs reachable
      hrefs hids => ?_
    rw [hrefs] at hreachable
    simp only [Except.toOption, Option.bind_some, hids, Option.map_some,
      Option.some.injEq] at hreachable
    obtain ⟨hread, hrepo⟩ := repackable_of_ready hopened hz hreachable
    exact ⟨CombinedOdb.settled_of_loose hread, hrepo⟩

/-- A pack lists the id of a loose blob for another blob, which the repack brings up. -/
def spoiled (repo repo' : Repository) : Bool :=
  repo.looseObjectIds.toOption == some [blobId [66]] &&
    (repo.odb.loose.read (blobId [66])).toOption == some (.blob, [66]) &&
    (repo.odb.read (blobId [66])).toOption == some (.blob, [66]) &&
    (repo'.odb.read (blobId [66])).toOption == some (.blob, [65]) &&
    repo.odb.packs.all (fun lp => lp.index.count == 1 && lp.index.idAt 0 == some (blobId [66])) &&
    repo.odb.alternates.length == 0 &&
    repo.odb.loose.fs.entries.toList.all fun b =>
      b.1.length != 2 || b.1.head? == some (str "pack") || b.1 == LooseOdb.loosePath (blobId [66])

theorem bad_repack :
    (sample ⟨blobId [66], .blob, [65]⟩ [[66]] (blobId [66])).toOption.bind (fun repo =>
    (repack .sorted id repo).map fun r => (r.1, spoiled repo r.2)) = some (.ok 1, true) := by
  decide +kernel

/-- **Repacking may change what an id reads.**  The object of a pack that lists the id of a loose
object comes up once the loose one is gone. -/
theorem not_repack_preserves :
    ¬ ∀ (out : Outside) (repo repo' : Repository) (ids : List ObjectId) (n : Nat),
    repo.odb.Opened out → repo.odb.loose.zlib.Exact → repo.looseObjectIds = .ok ids →
    (∀ id ∈ ids, ∃ o, repo.odb.loose.read id = .ok o) →
    (∀ id id' o o', repo.odb.read id = .ok o → repo.odb.read id' = .ok o' →
      hashObject repo.odb.loose.hasher repo.algo o.1 o.2 =
        hashObject repo.odb.loose.hasher repo.algo o'.1 o'.2 →
        o = o') →
    repack out id repo = some (.ok n, repo') → ∀ id, repo'.odb.read id = repo.odb.read id := by
  intro h
  obtain ⟨repo, hsample, hrun⟩ := Option.bind_eq_some_iff.mp bad_repack
  obtain ⟨⟨r, repo'⟩, hrepack, hrun⟩ := Option.map_eq_some_iff.mp hrun
  simp only [Prod.mk.injEq, spoiled, List.all_eq_true, Bool.and_eq_true,
    Bool.or_eq_true, beq_iff_eq,
    bne_iff_ne] at hrun
  obtain ⟨rfl, ⟨⟨⟨⟨⟨hids, hloose⟩, hbefore⟩, hafter⟩, hpacks⟩, halternates⟩, hfiles⟩ := hrun
  obtain ⟨hopened, hz⟩ := sample_opened (eq_ok_of_toOption hsample)
  -- there is one object to read
  have honly : ∀ id o, repo.odb.read id = .ok o → id = blobId [66] := by
    intro id o hread
    have hcontains := CombinedOdb.contains_of_read hread
    rw [CombinedOdb.contains, List.length_eq_zero_iff.mp halternates, List.any_nil, Bool.or_false,
      ObjectStore.contains, Bool.or_eq_true, List.any_eq_true] at hcontains
    rcases hcontains with hcontains | ⟨lp, hlp, hlisted⟩
    · rw [LooseOdb.contains_eq, Option.isSome_iff_exists] at hcontains
      obtain ⟨e, he⟩ := hcontains
      rcases hfiles _ (BTreeMap.get?_eq_some.mp he) with (hlength | hpack) | hpath
      · exact absurd rfl hlength
      · have hlen := congrArg List.length (Option.some.inj hpack)
        rw [List.length_take] at hlen
        have hfour : (str "pack").length = 4 := by decide
        omega
      · exact LooseOdb.loosePath_injective hpath
    · obtain ⟨hcount, hid⟩ := hpacks lp hlp
      obtain ⟨i, hi⟩ := PackIndex.contains_iff.mp hlisted
      obtain ⟨hlt, hat⟩ := PackIndex.positionOf_some hi
      have hzero : i = 0 := by omega
      subst hzero
      exact Option.some.inj (hat.symm.trans hid)
  have hread := h .sorted repo repo' _ 1 hopened hz (eq_ok_of_toOption hids) ?_ ?_
    hrepack (blobId [66])
  · rw [eq_ok_of_toOption hbefore, eq_ok_of_toOption hafter] at hread
    cases hread
  · intro id hid
    rw [List.mem_singleton.mp hid]
    exact ⟨_, eq_ok_of_toOption hloose⟩
  · intro id id' o o' ho ho' _
    rw [honly id o ho] at ho
    rw [honly id' o' ho', ho] at ho'
    exact Except.ok.inj ho'

end RepackSample
end Puregit
