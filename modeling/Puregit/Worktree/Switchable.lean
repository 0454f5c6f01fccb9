import Puregit.Worktree.Agreement

/-! # When the work tree can be switched

`switchWorktree_fails` names the causes for which a switch of the work tree fails: a tree that
cannot be read or written, an index that cannot be read, a disk that does not take the tree.  They
are stated on the objects, the files of the git directory and the disk, so that they can be told of
a state that a ref has been moved in since. -/
namespace Puregit
open ObjectDatabase

/-! ## Large files -/

namespace LfsStore
variable {fs : GitDir} {oid : Str} {blob content : Bytes}

/-- The blob is a pointer with a digest. -/
def PointsTo (blob : Bytes) (oid : Str) : Prop :=
  Pointer.isPointer blob = true ∧ (Pointer.parse blob).map Pointer.oid = .ok oid ∧
    validOid oid = true

/-- What is in the place of an object is nothing, or a file with its digest. -/
def Sound (oid : Str) (there : Option (Entry Bytes)) : Prop :=
  there = none ∨ ∃ content, there = some (.leaf content) ∧ (Pointer.forContent content).oid = oid

theorem length_of_validOid (h : validOid oid = true) : oid.length = 64 := by
  rw [validOid, Bool.and_eq_true, decide_eq_true_eq] at h
  exact h.1

/-- A digit of a digest does not part the names of a path. -/
theorem not_separator_of_validOid (h : validOid oid = true) {c : Char} (hc : c ∈ oid) :
    c ≠ '/' ∧ c ≠ '.' ∧ c ≠ Char.ofNat 0 := by
  rw [validOid, Bool.and_eq_true, List.all_eq_true] at h
  have hlower := h.2 c hc
  refine ⟨?_, ?_, ?_⟩
  all_goals
    rintro rfl
    revert hlower
    decide

theorem refPath_objectPath (h : validOid oid = true) : RefStore.refPath (objectPath oid) =
    [str "lfs", str "objects", oid.take 2, (oid.drop 2).take 2, oid] := by
  have hslash : ∀ s : Str, s.Sublist oid → '/' ∉ s := fun s hs hc =>
    (not_separator_of_validOid h (hs.subset hc)).1 rfl
  have hsplit : objectPath oid = str "lfs" ++ '/' :: (str "objects" ++ '/' :: (oid.take 2 ++ '/' ::
      ((oid.drop 2).take 2 ++ '/' :: oid))) := by
    rw [objectPath, show str "lfs/objects/" = str "lfs" ++ '/' :: (str "objects" ++ ['/']) from rfl]
    simp only [List.append_assoc, List.cons_append, List.nil_append]
  rw [RefStore.refPath, hsplit, List.splitOn_append_cons_self_of_not_mem (by decide),
    List.splitOn_append_cons_self_of_not_mem (by decide),
    List.splitOn_append_cons_self_of_not_mem (hslash _ (List.take_sublist 2 _)),
    List.splitOn_append_cons_self_of_not_mem
      (hslash _ ((List.take_sublist 2 _).trans (List.drop_sublist 2 _))),
    List.splitOn_eq_singleton (hslash _ (List.Sublist.refl _))]

/-- The objects are below `lfs/`. -/
theorem head?_objectPath (h : validOid oid = true) :
    (RefStore.refPath (objectPath oid)).head? = some (str "lfs") := by
  rw [refPath_objectPath h, List.head?_cons]

theorem component_of_objectPath (h : validOid oid = true) {c : Str}
    (hc : c ∈ RefStore.refPath (objectPath oid)) : c ≠ [] ∧ startsWith c ['.'] = false := by
  have hlength := length_of_validOid h
  have hdigits : ∀ s : Str, s.Sublist oid → 0 < s.length → s ≠ [] ∧ startsWith s ['.'] = false := by
    intro s hs hpos
    obtain ⟨d, r, rfl⟩ := List.exists_cons_of_length_pos hpos
    have hdot := (not_separator_of_validOid h (hs.subset List.mem_cons_self)).2.1
    exact ⟨List.cons_ne_nil d r, by simpa [startsWith, List.isPrefixOf] using Ne.symm hdot⟩
  rw [refPath_objectPath h] at hc
  simp only [List.mem_cons, List.not_mem_nil, or_false] at hc
  rcases hc with rfl | rfl | rfl | rfl | rfl
  · decide
  · decide
  · exact hdigits _ (List.take_sublist 2 _) (by simp [hlength])
  · exact hdigits _ ((List.take_sublist 2 _).trans (List.drop_sublist 2 _)) (by simp [hlength])
  · exact hdigits _ (List.Sublist.refl _) (by omega)

/-- The name of an object's file leads to it. -/
theorem resolve_objectPath (h : validOid oid = true) :
    Vfs.resolve (objectPath oid) = .ok ⟨RefStore.refPath (objectPath oid), false⟩ := by
  refine RefStore.resolve_of_components (fun hnul => ?_) fun c hc => component_of_objectPath h hc
  have hdigits : ∀ {s : Str}, s.Sublist oid → Char.ofNat 0 ∉ s := fun hs hc =>
    (not_separator_of_validOid h (hs.subset hc)).2.2 rfl
  have hfixed : Char.ofNat 0 ∉ str "lfs/objects/" ∧ Char.ofNat 0 ≠ '/' := by decide
  rw [objectPath] at hnul
  simp only [List.append_assoc, List.cons_append, List.mem_append, List.mem_cons] at hnul
  rcases hnul with hnul | hnul | hnul | hnul | hnul | hnul
  · exact hfixed.1 hnul
  · exact hdigits (List.take_sublist 2 _) hnul
  · exact hfixed.2 hnul
  · exact hdigits ((List.take_sublist 2 _).trans (List.drop_sublist 2 _)) hnul
  · exact hfixed.2 hnul
  · exact hdigits (List.Sublist.refl _) hnul

/-- An object that is there is read if it is sound. -/
theorem read_returns (h : validOid oid = true) :
    (contains fs oid = true → ∃ content, read fs oid = .ok content) ↔
    Sound oid (fs.get? (RefStore.refPath (objectPath oid))) := by
  have hresolve := resolve_objectPath h
  have hthere : contains fs oid = true ↔ fs.get? (RefStore.refPath (objectPath oid)) ≠ none := by
    rw [contains, h, Bool.true_and, Vfs.pathExists_iff, Vfs.stat_of_resolve fs hresolve]
    cases fs.get? (RefStore.refPath (objectPath oid)) <;> simp
  have hread : contains fs oid = true → ((∃ content, read fs oid = .ok content) ↔
      ∃ content, Vfs.read fs (objectPath oid) = .ok content ∧
        (Pointer.forContent content).oid = oid) := by
    intro hcontains
    rw [read, if_neg (by simp [h]), if_neg (by simp [hcontains])]
    simp only [except_bind_ok]
    constructor
    · rintro ⟨content, data, hdata, hrest⟩
      split at hrest
      · cases hrest
      · next hdigest => exact ⟨data, hdata, by simpa using hdigest⟩
    · rintro ⟨data, hdata, hdigest⟩
      exact ⟨data, data, hdata, by rw [if_neg (by simp [hdigest])]⟩
  by_cases hcontains : contains fs oid = true
  · rw [forall_prop_of_true hcontains, hread hcontains, Sound, or_iff_right (hthere.mp hcontains)]
    exact exists_congr fun content => and_congr_left fun _ => Vfs.read_of_resolve hresolve
  · refine iff_of_true (fun htrue => absurd htrue hcontains) (Or.inl ?_)
    by_contra hsome
    exact hcontains (hthere.mpr hsome)

/-- **A content is made of a blob** unless it is a pointer to an object that is not sound. -/
theorem smudge_returns : (∃ content, smudge fs blob = .ok content) ↔
    ∀ oid, PointsTo blob oid → Sound oid (fs.get? (RefStore.refPath (objectPath oid))) := by
  rw [smudge]
  by_cases hpointer : Pointer.isPointer blob = true
  swap
  · rw [if_neg hpointer]
    exact iff_of_true ⟨blob, rfl⟩ fun oid hoid => absurd hoid.1 hpointer
  rw [if_pos hpointer]
  cases hparse : Pointer.parse blob with
  | error e =>
    refine iff_of_true ⟨blob, rfl⟩ fun oid hoid => ?_
    have hnone := hoid.2.1
    rw [hparse] at hnone
    cases hnone
  | ok pointer =>
    have hpoints : ∀ oid, PointsTo blob oid ↔ oid = pointer.oid ∧ validOid oid = true := by
      intro oid
      rw [PointsTo, and_iff_right hpointer, hparse]
      exact and_congr_left fun _ => ⟨fun h => (Except.ok.inj h).symm, fun h =>
        congrArg Except.ok h.symm⟩
    simp only [hpoints]
    by_cases hvalid : validOid pointer.oid = true
    · trans contains fs pointer.oid = true → ∃ content, read fs pointer.oid = .ok content
      · by_cases hcontains : contains fs pointer.oid = true
        · rw [if_pos hcontains, forall_prop_of_true hcontains]
        · rw [if_neg hcontains]
          exact iff_of_true ⟨blob, rfl⟩ fun htrue => absurd htrue hcontains
      · rw [read_returns hvalid]
        refine ⟨?_, fun h => h _ ⟨rfl, hvalid⟩⟩
        rintro hsound _ ⟨rfl, -⟩
        exact hsound
    · have hnone : contains fs pointer.oid = false := by simp [contains, hvalid]
      rw [if_neg (by simp [hnone])]
      refine iff_of_true ⟨blob, rfl⟩ ?_
      rintro _ ⟨rfl, htrue⟩
      exact absurd htrue hvalid

end LfsStore

namespace Worktree

/-- What is at the paths of a git directory. -/
abbrev Files := List Str → Option (Entry Bytes)

section
variable {repo : Repository} {odb : CombinedOdb} {files files' : Files} {depth : Nat}
  {tree : ObjectId}
  {disk disk' : Disk} {dest dir : List Bytes} {e : TreeEntry} {l : List (List Bytes × TreeEntry)}

/-! ## The causes -/

/-- What an entry stands for can be read: a blob, and of one that is a pointer the object is sound;
a link has a target. -/
def Readable (odb : CombinedOdb) (files : Files) (e : TreeEntry) : Prop :=
  match e.mode with
  | .tree | .gitlink => True
  | .regular | .executable => ∃ content, readObject odb e.id = .ok (.blob content) ∧
    ∀ oid, LfsStore.PointsTo content oid →
      LfsStore.Sound oid (files (RefStore.refPath (LfsStore.objectPath oid)))
  | .symlink => ∃ target, readObject odb e.id = .ok (.blob target) ∧ target ≠ [] ∧ 0 ∉ target

theorem readBlob_ok {id : ObjectId} {content : Bytes} :
    readBlob repo id = .ok content ↔ readObject repo.odb id = .ok (.blob content) := by
  constructor
  · intro h
    obtain ⟨o, ho, h⟩ := except_bind_ok.mp h
    cases o with
    | blob content' =>
      cases h
      exact ho
    | tree | commit | tag => cases h
  · intro h
    exact except_bind_ok.mpr ⟨_, h, rfl⟩

/-- **An entry is writable** if its name is safe and text, and what it stands for can be read. -/
theorem writable_iff : Writable repo e ↔
    isSafePathComponent e.name = true ∧ fromUtf8 e.name ≠ none ∧
      Readable repo.odb repo.fs.get? e := by
  have hcontent : (∃ leaf, leafOf repo e.mode e.id = .ok leaf ∧
      ∀ target, leaf = some (.link target) → target ≠ [] ∧ 0 ∉ target) ↔
        Readable repo.odb repo.fs.get? e := by
    obtain ⟨mode, name, id⟩ := e
    cases mode with
    | tree | gitlink => exact iff_of_true ⟨none, rfl, fun _ h => absurd h (by simp)⟩ trivial
    | regular | executable =>
      simp only [Readable, leafOf, except_map_ok, except_bind_ok, readBlob_ok,
        ← LfsStore.smudge_returns]
      constructor
      · rintro ⟨_, ⟨content, ⟨blob, hblob, hcontent⟩, -⟩, -⟩
        exact ⟨blob, hblob, content, hcontent⟩
      · rintro ⟨blob, hblob, content, hcontent⟩
        exact ⟨_, ⟨content, ⟨blob, hblob, hcontent⟩, rfl⟩, fun _ h => absurd h (by simp)⟩
    | symlink =>
      simp only [Readable, leafOf, except_map_ok, readBlob_ok]
      constructor
      · rintro ⟨_, ⟨target, htarget, rfl⟩, hgood⟩
        exact ⟨target, htarget, hgood target rfl⟩
      · rintro ⟨target, htarget, hgood⟩
        refine ⟨_, ⟨target, htarget, rfl⟩, fun target' h => ?_⟩
        cases h
        exact hgood
  rw [← hcontent]
  exact ⟨fun h => ⟨h.safe, h.utf8, h.content⟩, fun h => ⟨h.1, h.2.1, h.2.2⟩⟩

/-- The index that is in the files of a git directory: that of its file, or an empty one. -/
def IndexHeld (odb : CombinedOdb) (files : Files) (index : Index) : Prop :=
  (files [str "index"] = none ∧ index = Index.new odb.loose.algo) ∨
    ∃ data, files [str "index"] = some (.leaf data) ∧
      Index.parse odb.loose.hasher odb.loose.algo data = .ok index

theorem index_ok {index : Index} :
    repo.index = .ok index ↔ IndexHeld repo.odb repo.fs.get? index := by
  have hthere : Vfs.pathExists repo.fs (str "index") = true ↔
      repo.fs.get? [str "index"] ≠ none := by
    rw [Vfs.pathExists_iff, Vfs.stat_of_resolve _ resolve_index]
    cases repo.fs.get? [str "index"] <;> simp
  rw [Repository.index, IndexHeld]
  by_cases hindex : Vfs.pathExists repo.fs (str "index") = true
  · rw [if_pos hindex, except_bind_ok, or_iff_right fun h => hthere.mp hindex h.1]
    exact exists_congr fun data => and_congr_left fun _ => Vfs.read_of_resolve resolve_index
  · have hnone : repo.fs.get? [str "index"] = none := by
      by_contra hsome
      exact hindex (hthere.mpr hsome)
    rw [if_neg hindex, hnone, Except.ok.injEq]
    refine ⟨fun h => Or.inl ⟨rfl, h.symm⟩, ?_⟩
    rintro (⟨-, h⟩ | ⟨data, h, -⟩)
    · exact h.symm
    · cases h

/-- What reading a tree into the index needs: the tree is flattened, and no directory is in the
place of the index. -/
def Indexable (files : Files) (flattened : Except Error FlatMap) : Prop :=
  (∃ flat, flattened = .ok flat) ∧ files [str "index"] ≠ some .dir

/-- **What a switch of the work tree to a tree needs**: the tree is flattened, the index is read,
the entries of the tree are safe, readable and coherent, and the disk takes them when the files and
links of the stale entries and of the links are gone from it. -/
def Switchable (odb : CombinedOdb) (files : Files) (disk : Disk) (tree : ObjectId)
    (dir : List Bytes) (flattened : Except Error FlatMap) : Prop :=
  ∃ flat index t below l above p, flattened = .ok flat ∧ IndexHeld odb files index ∧
    readObject odb tree = .ok (.tree t) ∧ Plan odb below t.entries l ∧
    (∀ x ∈ l, isSafePathComponent x.2.name = true ∧ fromUtf8 x.2.name ≠ none ∧
      Readable odb files x.2) ∧
    Coherent l ∧ Takes dir l (sweepAll true dir (clearedPaths flat index.entries) disk) above p

/-- Only the index and the store of large files matter of the git directory. -/
theorem Switchable.congr {flattened : Except Error FlatMap}
    (hindex : files [str "index"] = files' [str "index"]) (hlfs : ∀ oid,
      LfsStore.validOid oid = true → files (RefStore.refPath (LfsStore.objectPath oid)) =
      files' (RefStore.refPath (LfsStore.objectPath oid))) :
    Switchable odb files disk tree dir flattened ↔
      Switchable odb files' disk tree dir flattened := by
  have hreadable : ∀ e, Readable odb files e ↔ Readable odb files' e := by
    intro e
    rw [Readable, Readable]
    cases e.mode with
    | tree | gitlink | symlink => exact Iff.rfl
    | regular | executable =>
      refine exists_congr fun content => and_congr_right fun _ => forall_congr' fun oid => ?_
      refine imp_congr_right fun hoid => ?_
      rw [hlfs oid hoid.2.2]
  have hheld : ∀ index, IndexHeld odb files index ↔ IndexHeld odb files' index := by
    intro index
    rw [IndexHeld, IndexHeld, hindex]
  simp only [Switchable, hreadable, hheld]

/-! ## Failing -/

theorem onDisk_returns (f : Disk → Except Error Disk) (disk : Disk) :
    (onDisk f).Returns disk fun _ _ => True := by
  cases h : f disk with
  | ok disk' => exact ⟨.ok (), disk', by rw [onDisk, h], trivial⟩
  | error err => exact ⟨.error err, disk, by rw [onDisk, h], trivial⟩

theorem guardEntry_returns (e : TreeEntry) (dest : List Bytes) (disk : Disk) :
    (guardEntry e dest).Returns disk fun _ _ => True := by
  rw [guardEntry]
  by_cases hsafe : isSafePathComponent e.name = false
  · rw [if_pos hsafe]
    exact ⟨_, disk, rfl, trivial⟩
  · rw [if_neg hsafe]
    cases fromUtf8 e.name with
    | none => exact ⟨_, disk, rfl, trivial⟩
    | some name => exact ⟨_, disk, rfl, trivial⟩

theorem writeLeaf_returns (e : TreeEntry) (path : List Bytes) (disk : Disk) :
    (writeLeaf repo e path).Returns disk fun _ _ => True := by
  rw [writeLeaf]
  cases e.mode with
  | tree => exact ⟨.ok (), disk, rfl, trivial⟩
  | regular | executable | symlink =>
    exact Exec.Returns.ofExcept_bind (fun _ _ => trivial) fun _ _ => onDisk_returns _ disk
  | gitlink => exact onDisk_returns _ disk

/-- Writing the entries of a tree comes to an end where the stack is deep enough for the tree. -/
theorem entries_end {es : List TreeEntry} (hplan : Plan repo.odb depth es l) (dest : List Bytes)
    (disk : Disk) :
    (es.forM (writeEntry repo depth dest)).Returns disk fun _ _ => True := by
  induction hplan generalizing dest disk with
  | nil => exact ⟨.ok (), disk, rfl, trivial⟩
  | @leaf depth e es l hmode _ ih =>
    have hentry : ∀ disk, (writeEntry repo depth dest e).Returns disk fun _ _ => True := by
      intro disk
      refine (guardEntry_returns e dest disk).bind (fun _ _ _ => trivial) fun _ disk₁ _ => ?_
      rw [writeAt, if_neg hmode]
      exact writeLeaf_returns e _ disk₁
    exact (hentry disk).bind (fun _ _ _ => trivial) fun _ disk₁ _ => ih dest disk₁
  | @tree depth e es sub _ _ hmode hread _ _ ihBelow ih =>
    have hentry : ∀ disk, (writeEntry repo (depth + 1) dest e).Returns disk fun _ _ => True := by
      intro disk
      refine (guardEntry_returns e dest disk).bind (fun _ _ _ => trivial) fun _ disk₁ _ => ?_
      rw [writeAt, if_pos hmode]
      refine Exec.Returns.ofExcept_bind (fun _ _ => trivial) fun t ht => ?_
      cases (readSub_ok.mp ht).symm.trans hread
      rw [writeTree_succ]
      exact (onDisk_returns _ disk₁).bind (fun _ _ _ => trivial) fun _ disk₂ _ => ihBelow _ disk₂
    exact (hentry disk).bind (fun _ _ _ => trivial) fun _ disk₁ _ => ih dest disk₁

/-- So does a checkout. -/
theorem checkoutTree_end {t : Tree} (hread : readObject repo.odb tree = .ok (.tree t))
    (hplan : Plan repo.odb depth t.entries l) (dest : List Bytes) (disk : Disk) :
    (checkoutTree repo (depth + 1) tree dest).Returns disk fun _ _ => True := by
  refine Exec.Returns.ofExcept_bind (fun _ _ => trivial) fun t' ht => ?_
  obtain ⟨_, ho, ht⟩ := except_bind_ok.mp ht
  cases hread.symm.trans ho
  cases ht
  rw [writeTree_succ]
  exact (onDisk_returns _ disk).bind (fun _ _ _ => trivial) fun _ disk₁ _ =>
    entries_end hplan dest disk₁

/-- **Why reading a tree into the index fails**, if it comes to an end. -/
theorem readTree_fails : (Repository.readTree depth tree).Fails repo ↔
    ∃ flattened, (flattenTree depth repo.odb tree).run = some flattened ∧
      ¬Indexable repo.fs.get? flattened := by
  cases hflat : (flattenTree depth repo.odb tree).run with
  | none =>
    refine iff_of_false ?_ ?_
    · rintro ⟨err, repo', h⟩
      rw [Repository.readTree, Repository.indexFromTree, Exec.bind_apply, Exec.andThen,
        Exec.bind_apply, Exec.andThen,
        Exec.eval, hflat] at h
      cases h
    · rintro ⟨flattened, h, -⟩
      cases h
  | some flattened =>
    simp only [Option.some.injEq, exists_eq_left']
    cases flattened with
    | error err =>
      refine iff_of_true ⟨err, repo, ?_⟩ ?_
      · rw [Repository.readTree, Repository.indexFromTree, Exec.bind_apply, Exec.andThen,
          Exec.bind_apply, Exec.andThen,
          Exec.eval, hflat]
        rfl
      · rintro ⟨⟨_, h⟩, -⟩
        cases h
    | ok flat =>
      obtain ⟨data, heq⟩ := readTree_eq hflat
      have hend : (Repository.readTree depth tree).Returns repo fun _ _ => True := by
        rw [Exec.Returns, heq]
        exact ⟨_, _, rfl, trivial⟩
      rw [hend.fails_iff, Indexable, and_iff_right ⟨flat, rfl⟩,
        ← readTree_returns hflat, not_iff_not]
      constructor
      · rintro ⟨_, repo', h⟩
        exact ⟨repo', h⟩
      · rintro ⟨repo', h⟩
        exact ⟨(), repo', h⟩

/-- What is behind the removals succeeds just if the tree can be written on the disk they leave. -/
theorem finish_fails {c : Checkout} {flat : FlatMap} {index : Index}
    (hflat : (flattenTree depth c.repo.odb tree).run = some (.ok flat))
    (hindex : c.repo.index = .ok index) :
    (finish depth tree dir).Fails c ↔ ¬∃ disk', checkoutTree c.repo depth tree dir c.disk =
      some (.ok (), disk') := by
  obtain ⟨repo', hread⟩ := (readTree_returns hflat).mpr (index_not_dir hindex)
  obtain ⟨below, t, l, rfl, htree, hplan, -⟩ := flattenInto_plan hflat
  have hend : (finish (below + 1) tree dir).Returns c fun _ _ => True := by
    obtain ⟨r, disk', hrun, -⟩ := checkoutTree_end htree hplan dir c.disk
    have hwrite : (onDiskOf fun repo => checkoutTree repo (below + 1) tree dir).Returns c fun _
        c' => c'.repo = c.repo :=
      ⟨r, { c with disk := disk' }, by rw [onDiskOf, hrun]; rfl, rfl⟩
    refine hwrite.bind (fun _ _ _ => trivial) fun _ c' hrepo => ?_
    exact ⟨.ok (), { c' with repo := repo' }, by rw [onRepo, Exec.zoom, hrepo, hread]; rfl, trivial⟩
  rw [hend.fails_iff, not_iff_not]
  constructor
  · rintro ⟨_, c', h⟩
    exact ⟨c'.disk, (finish_ok.mp h).1⟩
  · rintro ⟨disk', h⟩
    exact ⟨(), ⟨repo', disk'⟩, finish_ok.mpr ⟨h, hread⟩⟩

/-- **A switch of the work tree has what it needs** where the disk that the removals leave takes the
tree. -/
theorem switchable_iff {c : Checkout} {flat : FlatMap} {index : Index}
    (hflat : (flattenTree depth c.repo.odb tree).run = some (.ok flat))
    (hindex : c.repo.index = .ok index) :
    Switchable c.repo.odb c.repo.fs.get? c.disk tree dir (.ok flat) ↔
      ∃ disk', checkoutTree c.repo depth tree dir
        (sweepAll true dir (clearedPaths flat index.entries) c.disk) = some (.ok (), disk') := by
  obtain ⟨below, t, l, rfl, htree, hplan, -⟩ := flattenInto_plan hflat
  constructor
  · rintro ⟨flat', index', t', below', l', above, p, hf, hheld, htree', hplan', hwritable,
      hcoherent, htakes⟩
    cases hf
    cases hindex.symm.trans (index_ok.mpr hheld)
    cases htree.symm.trans htree'
    obtain rfl := hplan.unique hplan'
    have hall : ∀ x ∈ l, Writable c.repo x.2 := fun x hx => writable_iff.mpr (hwritable x hx)
    exact checkoutTree_returns htree hplan htakes.made htakes.leads hall
      ((admitsAll_iff hall).mpr ⟨hcoherent, htakes.admits⟩)
  · rintro ⟨_, h⟩
    obtain ⟨hwritable, hcoherent, above, p, htakes, -⟩ := checkoutTree_takes htree hplan h
    exact ⟨flat, index, t, below, l, above, p, rfl, index_ok.mp hindex, htree, hplan,
      fun x hx => writable_iff.mp (hwritable x hx), hcoherent, htakes⟩

/-- **Why a switch of the work tree fails**, if it comes to an end. -/
theorem switchWorktree_fails {c : Checkout} : (switchWorktree depth tree dir).Fails c ↔
    ∃ flattened, (flattenTree depth c.repo.odb tree).run = some flattened ∧
      ¬Switchable c.repo.odb c.repo.fs.get? c.disk tree dir flattened := by
  rw [switchWorktree, Exec.fails_eval_bind]
  refine exists_congr fun flattened => and_congr_right fun hflat => ?_
  cases flattened with
  | error err =>
    refine iff_of_true (fun _ h => by cases h) ?_
    rintro ⟨_, _, _, _, _, _, _, h, -⟩
    cases h
  | ok flat =>
    simp only [Except.ok.injEq, forall_eq', Exec.fails_read_bind]
    cases hindex : c.repo.index with
    | error err =>
      refine iff_of_true (fun _ h => by cases h) ?_
      rintro ⟨_, index, _, _, _, _, _, -, hheld, -⟩
      cases hindex.symm.trans (index_ok.mpr hheld)
    | ok index =>
      simp only [Except.ok.injEq, forall_eq']
      rw [switchable_iff hflat hindex, Exec.Fails, Exec.bind_apply, Exec.andThen,
        forM_clearEntry (index_safe hindex)]
      exact finish_fails hflat hindex

end

end Worktree
end Puregit
