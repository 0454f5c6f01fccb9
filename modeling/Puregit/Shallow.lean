import Puregit.Porcelain
import Puregit.Refs.History

/-! # Recording the shallow boundary

The boundary is the file `shallow`, one id a line; a complete repository has no such file.
Writing it changes no other file, so no ref, and it is read back as it was written.
-/
namespace Puregit
namespace Repository

/-- Where the boundary is recorded. -/
def shallowPath : List Str := [str "shallow"]

/-- Records the shallow boundary; of a complete repository the file is removed. -/
def writeShallow (oids : List ObjectId) : Exec Repository Error Unit :=
  if oids.isEmpty then
    Exec.step fun repo =>
      (.ok (), { repo with fs := (Vfs.removeFile repo.fs (str "shallow")).toOption.getD repo.fs })
  else writeFile (str "shallow") (toUtf8 (oids.flatMap fun id => id.toHex ++ ['\n']))

/-- The ids of the recorded boundary. -/
def shallowSet (repo : Repository) : Except Error (BTreeSet ObjectId) :=
  repo.shallow.map BTreeSet.ofList

/-- Only the file of the boundary differs. -/
structure BesideShallow (repo repo' : Repository) : Prop where
  algo : repo'.algo = repo.algo
  files : ∀ q, q ≠ shallowPath → repo'.fs.get? q = repo.fs.get? q

theorem BesideShallow.trans {repo₁ repo₂ repo₃ : Repository} (h : BesideShallow repo₁ repo₂)
    (h' : BesideShallow repo₂ repo₃) : BesideShallow repo₁ repo₃ :=
  ⟨h'.algo.trans h.algo, fun q hq => (h'.files q hq).trans (h.files q hq)⟩

/-- **Every ref has the value it had**, the boundary's file being none. -/
theorem BesideShallow.lookup {repo repo' : Repository} (h : BesideShallow repo repo') {name : Str}
    (hname : RefStore.IsRefName name) (hne : name ≠ str "shallow") :
    repo'.refs.lookup name = repo.refs.lookup name := by
  have hpath : RefStore.refPath name ≠ shallowPath := by
    intro heq
    exact hne (RefStore.refPath_injective
      (heq.trans (show shallowPath = RefStore.refPath (str "shallow") by decide)))
  have hpacked : repo'.refs.packed = repo.refs.packed :=
    RefStore.packed_congr h.algo (h.files _ (by decide))
  have hfile : repo'.refs.vfs.get? (RefStore.refPath name) =
      repo.refs.vfs.get? (RefStore.refPath name) :=
    h.files _ hpath
  have halgo : repo'.refs.algo = repo.refs.algo := h.algo
  rw [RefStore.lookup_eq hname, RefStore.lookup_eq hname, RefStore.packedLookup,
    RefStore.packedLookup, hpacked,
    hfile, halgo]

/-! ## Reading the boundary back -/

theorem resolve_shallow : Vfs.resolve (str "shallow") = .ok ⟨shallowPath, false⟩ := by decide

/-- Without a file there is no boundary. -/
theorem shallow_of_no_leaf {repo : Repository}
    (h : ∀ d, repo.fs.get? shallowPath ≠ some (.leaf d)) :
    repo.shallow = .ok [] := by
  rw [shallow]
  split
  · rfl
  · rename_i d hread
    exact absurd ((Vfs.read_of_resolve resolve_shallow).mp hread) (h d)

/-- What was recorded is read back. -/
theorem shallow_of_leaf {repo : Repository} {oids : List ObjectId}
    (halgo : ∀ id ∈ oids, id.algo = repo.algo) (h : repo.fs.get? shallowPath =
      some (.leaf (toUtf8 (oids.flatMap fun id => id.toHex ++ ['\n'])))) :
    repo.shallow = .ok oids := by
  have hlines : lines (oids.flatMap fun id => id.toHex ++ ['\n']) = oids.map ObjectId.toHex := by
    have hl := @lines_flatMap (oids.map ObjectId.toHex)
      (fun l hl => by
        obtain ⟨id, -, rfl⟩ := List.mem_map.mp hl
        exact fun hc => (not_whitespace_of_mem_toHex hc).2.2.1 rfl)
      (fun l hl => by
        obtain ⟨id, -, rfl⟩ := List.mem_map.mp hl
        exact fun hc => (not_whitespace_of_mem_toHex (List.mem_of_getLast? hc)).2.2.2.1 rfl)
    rwa [List.flatMap_map] at hl
  have htrim : ((oids.map ObjectId.toHex).map trim).filter (fun line => !line.isEmpty) =
      oids.map ObjectId.toHex := by
    have hmap : (oids.map ObjectId.toHex).map trim = oids.map ObjectId.toHex := by
      rw [List.map_map]
      exact List.map_congr_left fun id _ => ObjectId.trim_toHex id
    rw [hmap, List.filter_eq_self]
    intro l hl
    obtain ⟨id, -, rfl⟩ := List.mem_map.mp hl
    obtain ⟨c, r, hcr, -, -⟩ := toHex_eq_cons id
    rw [hcr]
    rfl
  have hread := (Vfs.read_of_resolve resolve_shallow).mpr h
  rw [shallow, hread]
  simp only
  rw [fromUtf8_toUtf8]
  simp only
  rw [hlines, htrim, except_mapM_ok, List.forall₂_map_left_iff, List.forall₂_same]
  intro id hid
  rw [← halgo id hid]
  exact ObjectId.fromHex_toHex id

/-- The ids of the boundary are of the repository's hash. -/
theorem algo_of_shallow {repo : Repository} {oids : List ObjectId} (h : repo.shallow = .ok oids) :
    ∀ id ∈ oids, id.algo = repo.algo := by
  intro id hid
  rw [shallow] at h
  split at h
  · cases h
    cases hid
  · split at h
    · cases h
    · obtain ⟨line, -, hline⟩ := mem_of_except_mapM h hid
      exact ObjectId.fromHex_algo hline

/-- What writing the file comes to. -/
theorem write_shallow_eq (fs : GitDir) (data : Bytes) : Vfs.write fs (str "shallow") data =
    Vfs.replaceFile fs ⟨shallowPath, false⟩ data := by
  have hdirs : Vfs.makeDirs fs [] = .ok fs :=
    Vfs.makeDirs_ok.mpr (FileTree.createDirAll_of_isDir (FileTree.get?_nil fs))
  rw [Vfs.write, resolve_shallow, except_ok_bind]
  show (Vfs.makeDirs fs [] >>= _) = _
  rw [hdirs, except_ok_bind]

/-- **Recording a boundary** changes no other file, and the boundary is read back; it fails only
where a directory is in the way. -/
theorem writeShallow_spec (oids : List ObjectId) (repo : Repository) :
    (repo.fs.get? shallowPath = some .dir ∧ writeShallow oids repo =
        some (if oids.isEmpty then .ok () else .error Vfs.isADirectory, repo)) ∨
    repo.fs.get? shallowPath ≠ some .dir ∧ ∃ repo', writeShallow oids repo = some (.ok (), repo') ∧
      repo'.odb = repo.odb ∧ BesideShallow repo repo' ∧
      ((∀ id ∈ oids, id.algo = repo.algo) → repo'.shallow = .ok oids) := by
  by_cases hdir : repo.fs.get? shallowPath = some .dir
  · refine Or.inl ⟨hdir, ?_⟩
    unfold writeShallow
    split
    · have hfail : Vfs.removeFile repo.fs (str "shallow") = .error Vfs.isADirectory := by
        rw [Vfs.removeFile, Vfs.stat_of_resolve _ resolve_shallow, hdir]
        rfl
      rw [Exec.step_apply, hfail]
      rfl
    · have hfail : ∀ data, Vfs.write repo.fs (str "shallow") data = .error Vfs.isADirectory := by
        intro data
        rw [write_shallow_eq, Vfs.replaceFile, if_pos (FileTree.isDir_iff.mpr hdir)]
      rw [writeFile, Exec.step_apply, hfail]
  · refine Or.inr ⟨hdir, ?_⟩
    unfold writeShallow
    split
    · rename_i hempty
      rw [List.isEmpty_iff] at hempty
      subst hempty
      refine ⟨_, rfl, rfl, ?_⟩
      cases hremove : Vfs.removeFile repo.fs (str "shallow") with
      | ok fs =>
          obtain ⟨p, hp, hleaf⟩ := Vfs.removeFile_ok.mp hremove
          cases resolve_shallow.symm.trans hp
          have hget := FileTree.get?_removeLeaf hleaf
          refine ⟨⟨rfl, fun q hq => ?_⟩, fun _ => shallow_of_no_leaf fun d hd => ?_⟩
          · exact (hget q).trans (if_neg hq)
          · cases ((hget shallowPath).trans (if_pos rfl)).symm.trans hd
      | error e =>
          refine ⟨⟨rfl, fun q _ => rfl⟩, fun _ => shallow_of_no_leaf fun d hd => ?_⟩
          -- a file could have been removed
          obtain ⟨fs, hfs⟩ := Option.isSome_iff_exists.mp (FileTree.removeLeaf_isSome.mpr ⟨d, hd⟩)
          cases hremove.symm.trans (Vfs.removeFile_ok.mpr ⟨_, resolve_shallow, hfs⟩)
    · have hput : ∀ data, ∃ fs, repo.fs.putLeaf shallowPath data = some fs := fun data =>
        Option.isSome_iff_exists.mp (FileTree.putLeaf_isSome.mpr
          ⟨List.cons_ne_nil _ _, FileTree.get?_nil repo.fs, hdir⟩)
      obtain ⟨fs, hfs⟩ := hput (toUtf8 (oids.flatMap fun id => id.toHex ++ ['\n']))
      have hwrite := (write_shallow_eq repo.fs _).trans (Vfs.replaceFile_ok.mpr ⟨rfl, hfs⟩)
      have hget := FileTree.get?_putLeaf hfs
      refine ⟨{ repo with fs := fs }, ?_, rfl, ⟨rfl, fun q hq => (hget q).trans (if_neg hq)⟩,
        fun halgo => ?_⟩
      · rw [writeFile, Exec.step_apply, hwrite]
      · exact shallow_of_leaf halgo ((hget shallowPath).trans (if_pos rfl))

end Repository
end Puregit
