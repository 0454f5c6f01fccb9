import Puregit.Fsck
import Puregit.Porcelain

/-! # Pruning

`prune` removes the loose objects that a walk from `HEAD`, the refs and the index does not come
to.  In a repository made by commits, branches, tags, staging and linked worktrees all objects
are loose, and what the walk comes to reads as before: `prune_reachable`.

The `HEAD` and the index of a linked worktree are no roots of the walk.  What they lead to is
kept exactly if the walk comes to it from elsewhere.
-/
namespace Puregit
open ObjectDatabase ObjectGraph Relation

namespace Repository

/-- Removes loose objects; a file that cannot be removed stays. -/
def removeLoose (repo : Repository) (ids : List ObjectId) : Repository :=
  { repo with odb := { repo.odb with
      loose := { repo.odb.loose with fs := ids.foldl LooseOdb.removeLoose repo.odb.loose.fs } } }

/-- Removes unreachable loose objects, and counts them. -/
def prune (out : Outside) (repo : Repository) : Except Error Nat × Repository :=
  match repo.fsck with
  | .error e => (.error e, repo)
  | .ok report =>
    if report.dangling.isEmpty then (.ok 0, repo)
    else match (repo.removeLoose report.dangling).reloadOdb out with
      | .error e => (.error e, repo.removeLoose report.dangling)
      | .ok reloaded => (.ok report.dangling.length, reloaded)

/-! ## Linked worktrees -/

/-- What the `HEAD` or the index of a linked worktree names. -/
inductive WorktreeRoot (repo : Repository) : ObjectId → Prop
  | direct {name : Str} {bytes : Bytes} {id : ObjectId}
      (file : Vfs.read repo.fs (worktreeFile name "HEAD") = .ok bytes)
      (value : Reference.parse repo.algo bytes = .ok (.direct id)) : WorktreeRoot repo id
  | symbolic {name target : Str} {bytes : Bytes} {id : ObjectId}
      (file : Vfs.read repo.fs (worktreeFile name "HEAD") = .ok bytes)
      (value : Reference.parse repo.algo bytes = .ok (.symbolic target))
      (resolved : repo.refs.resolve target = .ok id) : WorktreeRoot repo id
  | staged {name : Str} {bytes : Bytes} {index : Index} {e : IndexEntry}
      (file : Vfs.read repo.fs (worktreeFile name "index") = .ok bytes)
      (value : Index.parse repo.odb.loose.hasher repo.algo bytes = .ok index)
      (mem : e ∈ index.entries) : WorktreeRoot repo e.id

/-- What is reached from the `HEAD` or the index of a linked worktree. -/
def InWorktree (repo : Repository) (id : ObjectId) : Prop :=
  ∃ root, repo.WorktreeRoot root ∧ ReflTransGen (Refers (graph repo.odb)) root id

/-! ## Histories -/

/-- An operation on a repository. -/
inductive Operation where
  | stage (path : Bytes) (file : Option StagedFile)
  | commit (message : Bytes) (author committer : Signature)
  | createBranch (name : Str) (target : Option ObjectId)
  | checkout (depth : Nat) (name : Str) (written : Except Error Unit)
  | deleteBranch (force : Bool) (name : Str)
  | tag (force : Bool) (name : Str) (target : Option ObjectId)
    (annotated : Option (Signature × Bytes))
  | deleteTag (name : Str)
  | addWorktree (depth : Nat) (name : Str) (commit : ObjectId) (link : Bytes)
    (written : Except Error Unit)

/-- The repository an operation leaves, whether it succeeds or fails; none if it does not end. -/
def Operation.run (op : Operation) (repo : Repository) : Option Repository :=
  match op with
  | .stage path file => (Repository.stage path file repo).map Prod.snd
  | .commit message author committer =>
    (Repository.commit message author committer repo).map Prod.snd
  | .createBranch name target => (Repository.createBranch name target repo).map Prod.snd
  | .checkout depth name written => (Repository.checkout depth name written repo).map Prod.snd
  | .deleteBranch force name => (Repository.deleteBranch force name repo).map Prod.snd
  | .tag force name target annotated =>
    (Repository.tag force name target annotated repo).map Prod.snd
  | .deleteTag name => (Repository.deleteTag name repo).map Prod.snd
  | .addWorktree depth name id link written =>
    (Repository.addWorktree depth name id link written repo).map Prod.snd

/-- The repositories that operations make of a new one. -/
inductive Made (z : Zlib) (h : Hasher) (algo : HashAlgo) : Repository → Prop
  | init : Made z h algo (init z h algo)
  | step {repo repo' : Repository} (op : Operation) (made : Made z h algo repo)
      (run : op.run repo = some repo') : Made z h algo repo'

end Repository

/-! ## Stores without packs -/

/-- An opened store all objects of which are loose. -/
structure CombinedOdb.OnlyLoose (odb : CombinedOdb) : Prop where
  loose : odb.loose = LooseOdb.new odb.loose.zlib odb.loose.hasher odb.loose.fs odb.loose.algo
  packs : odb.packs = []
  alternates : odb.alternates = []
  packDir : odb.loose.fs.get? [str "pack"] = some .dir
  noPacks : ∀ name, odb.loose.fs.get? [str "pack", name] = none
  noAlternates : odb.loose.fs.get? [str "info", str "alternates"] = none

namespace CombinedOdb.OnlyLoose

variable {odb : CombinedOdb}

/-- Such a store reads and holds what its loose store does. -/
theorem read_eq (h : odb.OnlyLoose) (id : ObjectId) : odb.read id = odb.loose.read id := by
  rw [CombinedOdb.read, ObjectStore.readDepth]
  split
  · rfl
  · rename_i habsent
    rw [LooseOdb.read, if_pos (eq_false_of_ne_true habsent), ObjectStore.locate, h.packs]
    simp only [List.findSome?_nil, CombinedOdb.readAlternate, h.alternates]

theorem contains_eq (h : odb.OnlyLoose) (id : ObjectId) :
    odb.contains id = odb.loose.contains id := by
  rw [CombinedOdb.contains, ObjectStore.contains, h.packs, h.alternates]
  simp

/-- What does not touch the directories of packs and alternates leaves a store as it is. -/
theorem withFiles (h : odb.OnlyLoose) {fs : GitDir}
    (hfs : ∀ q, (∀ id, ¬ q <+: LooseOdb.loosePath id) → fs.get? q = odb.loose.fs.get? q) :
    ({ odb with loose := { odb.loose with fs := fs } } : CombinedOdb).OnlyLoose := by
  have hother : ∀ (dir : Str) (q : List Str), dir.length ≠ 2 →
      fs.get? (dir :: q) = odb.loose.fs.get? (dir :: q) := by
    intro dir q hdir
    refine hfs _ fun id hid => hdir ?_
    have hhead := (List.cons_prefix_cons.mp hid).1
    have hlen := LooseOdb.two_lt_length_toHex id
    rw [hhead, List.length_take]
    omega
  refine ⟨?_, h.packs, h.alternates, ?_, fun name => ?_, ?_⟩
  · show ({ odb.loose with fs := fs } : LooseOdb) = LooseOdb.new _ _ fs _
    conv_lhs => rw [h.loose]
    rfl
  · exact (hother _ [] (by decide)).trans h.packDir
  · exact (hother _ _ (by decide)).trans (h.noPacks name)
  · exact (hother _ _ (by decide)).trans h.noAlternates

theorem write (h : odb.OnlyLoose) (ty : ObjectType) (payload : Bytes) :
    (odb.write ty payload).2.OnlyLoose := by
  obtain ⟨fs, hloose, hfs⟩ := LooseOdb.write_spec odb.loose ty payload
  have heq : (odb.write ty payload).2 = { odb with loose := { odb.loose with fs := fs } } := by
    rw [CombinedOdb.write, ← hloose]
  rw [heq]
  exact h.withFiles fun q hq => (hfs q).resolve_right fun ⟨id, hid⟩ => hq id hid

/-- Opening such a store again gives the store. -/
theorem opened (h : odb.OnlyLoose) (out : Outside) : odb.Opened out := by
  have hpack : Vfs.resolve (str "pack") = .ok ⟨[str "pack"], false⟩ := by decide
  have halternates : Vfs.resolve (str "info/alternates") =
      .ok ⟨[str "info", str "alternates"], false⟩ := by
    decide
  have hlisted : odb.loose.fs.children [str "pack"] = [] := by
    refine List.eq_nil_iff_forall_not_mem.mpr fun ⟨name, e⟩ hmem => ?_
    have he := FileTree.mem_children.mp hmem
    rw [List.singleton_append, h.noPacks name] at he
    cases he
  have hpacks : out.loadPacks odb.loose.fs odb.loose.algo = .ok [] := by
    have hexists : Vfs.pathExists odb.loose.fs (str "pack") = true := by
      rw [Vfs.pathExists, Vfs.stat_of_resolve _ hpack, h.packDir]
      rfl
    have hread : Vfs.readDir odb.loose.fs (str "pack") = .ok [] := by
      rw [Vfs.readDir, hpack]
      simp only [bind, Except.bind, h.packDir, hlisted]
    have horder : out.order [] = [] := List.perm_nil.mp (out.order_perm [])
    rw [Outside.loadPacks, if_pos hexists, hread]
    simp only [bind, Except.bind, horder, List.mapM_nil]
    rfl
  have hnone : ∀ z hasher algo, out.loadAlternates z hasher odb.loose.fs algo = [] := by
    intro z hasher algo
    have hread : Vfs.read odb.loose.fs (str "info/alternates") =
        .error (Vfs.absent odb.loose.fs [str "info", str "alternates"]) := by
      rw [Vfs.read, Vfs.stat_of_resolve _ halternates, h.noAlternates]
      rfl
    rw [Outside.loadAlternates, hread]
  rw [CombinedOdb.Opened, Outside.openOdb, Outside.openInner, hpacks, hnone]
  obtain ⟨⟨loose, packs⟩, alternates⟩ := odb
  obtain ⟨hloose, rfl, rfl, -, -, -⟩ := h
  show Except.ok _ = _
  rw [← hloose]

end CombinedOdb.OnlyLoose

/-! ## Operations keep all objects loose -/

/-- The second store has loose objects only if the first has. -/
def CombinedOdb.StaysLoose (odb odb' : CombinedOdb) : Prop := odb.OnlyLoose → odb'.OnlyLoose

instance : Std.Refl CombinedOdb.StaysLoose := ⟨fun _ h => h⟩

instance : IsTrans CombinedOdb CombinedOdb.StaysLoose := ⟨fun _ _ _ h h' hodb => h' (h hodb)⟩

namespace Repository

/-- The second repository has loose objects only if the first has. -/
def StaysLoose (repo repo' : Repository) : Prop := repo.odb.StaysLoose repo'.odb

instance : Std.Refl StaysLoose := ⟨fun _ h => h⟩

instance : IsTrans Repository StaysLoose := ⟨fun _ _ _ h h' hodb => h' (h hodb)⟩

section
variable {ε α : Type}

theorem staysLoose_put (ty : ObjectType) (payload : Bytes) :
    Exec.Keeps CombinedOdb.StaysLoose (put ty payload : Exec CombinedOdb Error ObjectId) :=
  Exec.Keeps.step fun _ h => h.write ty payload

theorem staysLoose_onOdb {x : Exec CombinedOdb ε α} (h : Exec.Keeps CombinedOdb.StaysLoose x) :
    Exec.Keeps StaysLoose (onOdb x) := by
  intro repo r repo' hrun
  obtain ⟨⟨r', odb⟩, hx, hr⟩ := Option.map_eq_some_iff.mp hrun
  cases hr
  exact h _ _ _ hx

theorem staysLoose_onRefs (f : RefStore → Except Error α × RefStore) :
    Exec.Keeps StaysLoose (onRefs f) :=
  Exec.Keeps.step fun _ h => h

theorem staysLoose_writeFile (name : Str) (data : Bytes) :
    Exec.Keeps StaysLoose (writeFile name data) := by
  refine Exec.Keeps.step fun repo h => ?_
  split <;> exact h

theorem staysLoose_ofExcept (x : Except ε α) : Exec.Keeps StaysLoose (Exec.ofExcept x) := by
  intro repo r repo' h
  cases h
  exact id

theorem staysLoose_command {x : Exec Repository Error α} (h : Exec.Keeps StaysLoose x) :
    Exec.Keeps StaysLoose (command x) := by
  intro repo r repo' hrun
  obtain ⟨⟨r', repo₁⟩, hx, hr⟩ := Option.map_eq_some_iff.mp hrun
  cases hr
  exact h _ _ _ hx

end

theorem staysLoose_indexFromTree (depth : Nat) (tree : ObjectId) :
    Exec.Keeps StaysLoose (indexFromTree depth tree) :=
  (Exec.Keeps.eval _).bind fun _ => (Exec.Keeps.read _).bind fun _ => Exec.Keeps.pure _

theorem staysLoose_writeIndex (index : Index) : Exec.Keeps StaysLoose (writeIndex index) :=
  (Exec.Keeps.read _).bind fun _ => staysLoose_writeFile _ _

theorem staysLoose_stage (path : Bytes) (file : Option StagedFile) :
    Exec.Keeps StaysLoose (stage path file) := by
  cases file with
  | none =>
    exact (Exec.Keeps.read _).bind fun _ => (staysLoose_writeIndex _).bind fun _ =>
      (Exec.Keeps.read _).bind fun _ => Exec.Keeps.pure _
  | some file =>
    exact (staysLoose_onOdb (staysLoose_put _ _)).bind fun _ => (Exec.Keeps.read _).bind fun _ =>
      (staysLoose_writeIndex _).bind fun _ => Exec.Keeps.pure _

theorem staysLoose_updateCurrentBranch (id : ObjectId) :
    Exec.Keeps StaysLoose (updateCurrentBranch id) := by
  refine (Exec.Keeps.read _).bind fun head => ?_
  cases head <;> exact staysLoose_onRefs _

theorem staysLoose_commit (message : Bytes) (author committer : Signature) :
    Exec.Keeps StaysLoose (commit message author committer) := by
  have htree : ∀ index : Index, Exec.Keeps CombinedOdb.StaysLoose
      (writeTreeFromIndex index : Exec CombinedOdb Error ObjectId) := by
    intro index
    refine Exec.Keeps.bind ?_ fun flat => keeps_writeTree_of_put (fun _ => staysLoose_put _ _) _
    intro odb r odb' h
    cases h
    exact id
  exact (Exec.Keeps.read _).bind fun _ => (staysLoose_onOdb (htree _)).bind fun _ =>
    (Exec.Keeps.read _).bind fun _ => (staysLoose_onOdb (staysLoose_put _ _)).bind fun _ =>
    (staysLoose_updateCurrentBranch _).bind fun _ => Exec.Keeps.pure _

theorem staysLoose_createBranch (name : Str) (target : Option ObjectId) :
    Exec.Keeps StaysLoose (createBranch name target) :=
  (Exec.Keeps.read _).bind fun _ => staysLoose_onRefs _

theorem staysLoose_checkout (depth : Nat) (name : Str) (written : Except Error Unit) :
    Exec.Keeps StaysLoose (checkout depth name written) := by
  have hswitch : ∀ tree, Exec.Keeps StaysLoose (switchWorktree depth tree written) := fun tree =>
    (Exec.Keeps.eval _).bind fun _ => (Exec.Keeps.read _).bind fun _ =>
      (staysLoose_ofExcept _).bind fun _ =>
      (staysLoose_indexFromTree depth tree).bind fun _ => staysLoose_writeIndex _
  exact (Exec.Keeps.read _).bind fun _ => (Exec.Keeps.read _).bind fun _ =>
    (hswitch _).bind fun _ => staysLoose_onRefs _

theorem staysLoose_deleteBranch (force : Bool) (name : Str) :
    Exec.Keeps StaysLoose (deleteBranch force name) :=
  (Exec.Keeps.read _).bind fun _ => (Exec.Keeps.read _).bind fun _ =>
    staysLoose_command (staysLoose_onRefs _)

theorem staysLoose_tag (force : Bool) (name : Str) (target : Option ObjectId)
    (annotated : Option (Signature × Bytes)) :
    Exec.Keeps StaysLoose (tag force name target annotated) := by
  have hobject : ∀ target, Exec.Keeps StaysLoose (tagObject name target annotated) := by
    intro target
    cases annotated with
    | none => exact Exec.Keeps.pure _
    | some a => exact (Exec.Keeps.read _).bind fun _ => staysLoose_onOdb (staysLoose_put _ _)
  exact (Exec.Keeps.read _).bind fun _ => (staysLoose_command (hobject _)).bind fun _ =>
    staysLoose_command (staysLoose_onRefs _)

theorem staysLoose_deleteTag (name : Str) : Exec.Keeps StaysLoose (deleteTag name) :=
  (Exec.Keeps.read _).bind fun _ => staysLoose_command (staysLoose_onRefs _)

theorem staysLoose_addWorktree (depth : Nat) (name : Str) (id : ObjectId) (link : Bytes)
    (written : Except Error Unit) :
    Exec.Keeps StaysLoose (addWorktree depth name id link written) :=
  (Exec.Keeps.read _).bind fun _ => (Exec.Keeps.read _).bind fun _ =>
    (staysLoose_writeFile _ _).bind fun _ => (staysLoose_writeFile _ _).bind fun _ =>
    (staysLoose_writeFile _ _).bind fun _ => (staysLoose_ofExcept _).bind fun _ =>
    (staysLoose_indexFromTree _ _).bind fun _ => (Exec.Keeps.read _).bind fun _ =>
      staysLoose_writeFile _ _

/-- An operation keeps all objects loose. -/
theorem Operation.staysLoose {repo repo' : Repository} {op : Operation}
    (h : op.run repo = some repo') :
    StaysLoose repo repo' := by
  cases op <;> obtain ⟨⟨r, repo₁⟩, hrun, rfl⟩ := Option.map_eq_some_iff.mp h
  case stage => exact staysLoose_stage _ _ _ _ _ hrun
  case commit => exact staysLoose_commit _ _ _ _ _ _ hrun
  case createBranch => exact staysLoose_createBranch _ _ _ _ _ hrun
  case checkout => exact staysLoose_checkout _ _ _ _ _ _ hrun
  case deleteBranch => exact staysLoose_deleteBranch _ _ _ _ _ hrun
  case tag => exact staysLoose_tag _ _ _ _ _ _ _ hrun
  case deleteTag => exact staysLoose_deleteTag _ _ _ _ hrun
  case addWorktree => exact staysLoose_addWorktree _ _ _ _ _ _ _ _ hrun

/-- **In a repository that operations made all objects are loose.** -/
theorem Made.onlyLoose {z : Zlib} {h : Hasher} {algo : HashAlgo} {repo : Repository}
    (hmade : Made z h algo repo) : repo.odb.OnlyLoose := by
  induction hmade with
  | init =>
    have hdir : newObjects.get? [str "pack"] = some .dir := by decide
    have hlisted : newObjects.children [str "pack"] = [] := by decide
    have hnone : newObjects.get? [str "info", str "alternates"] = none := by decide
    refine ⟨rfl, rfl, rfl, hdir, fun name => ?_, hnone⟩
    refine Option.eq_none_iff_forall_not_mem.mpr fun e he => ?_
    have hmem : (name, e) ∈ newObjects.children [str "pack"] := FileTree.mem_children.mpr he
    rw [hlisted] at hmem
    cases hmem
  | step op _ hrun ih => exact Operation.staysLoose hrun ih

/-! ## What a prune leaves -/

variable {out : Outside} {repo : Repository}

theorem onlyLoose_removeLoose (h : repo.odb.OnlyLoose) (ids : List ObjectId) :
    (repo.removeLoose ids).odb.OnlyLoose := by
  refine h.withFiles fun q hq => LooseOdb.get?_foldl_removeLoose fun id _ heq => hq id ?_
  rw [heq]

/-- **A prune removes what is dangling**, unless the walk fails. -/
theorem prune_eq (h : repo.odb.OnlyLoose) : repo.prune out = match repo.fsck with
    | .error e => (.error e, repo)
    | .ok report => (.ok report.dangling.length, repo.removeLoose report.dangling) := by
  rw [prune]
  cases repo.fsck with
  | error e => rfl
  | ok report =>
    simp only
    split
    · rename_i hempty
      rw [List.isEmpty_iff] at hempty
      rw [hempty]
      rfl
    · have hopened := (onlyLoose_removeLoose h report.dangling).opened out
      have hreload : (repo.removeLoose report.dangling).reloadOdb out =
          .ok (repo.removeLoose report.dangling) := by
        rw [reloadOdb, algo, hopened]
        rfl
      rw [hreload]

theorem read_removeLoose (h : repo.odb.OnlyLoose) {ids : List ObjectId} {id : ObjectId}
    (hid : id ∉ ids) :
    (repo.removeLoose ids).odb.read id = repo.odb.read id ∧
      (repo.removeLoose ids).odb.contains id = repo.odb.contains id := by
  have hfile : (ids.foldl LooseOdb.removeLoose repo.odb.loose.fs).get? (LooseOdb.loosePath id) =
      repo.odb.loose.fs.get? (LooseOdb.loosePath id) := by
    refine LooseOdb.get?_foldl_removeLoose fun id' hid' heq => hid ?_
    rw [LooseOdb.loosePath_injective heq]
    exact hid'
  have h' := onlyLoose_removeLoose h ids
  rw [h'.read_eq, h.read_eq, h'.contains_eq, h.contains_eq, LooseOdb.contains_eq,
    LooseOdb.contains_eq]
  exact ⟨LooseOdb.read_congr hfile, congrArg Option.isSome hfile⟩

/-- An object that is removed is gone. -/
theorem read_of_mem (h : repo.odb.OnlyLoose) {ids : List ObjectId} {id : ObjectId} (hid : id ∈ ids)
    {r : RawObject} (hread : repo.odb.read id = .ok r) :
    (repo.removeLoose ids).odb.read id = .error (objectNotFound id) := by
  rw [h.read_eq] at hread
  obtain ⟨⟨data, hdata⟩, -⟩ := LooseOdb.leaf_of_read hread
  have hgone : (ids.foldl LooseOdb.removeLoose repo.odb.loose.fs).get?
      (LooseOdb.loosePath id) = none :=
    LooseOdb.get?_foldl_removeLoose_gone
      (Or.inr ⟨⟨id, hid, rfl⟩, by rw [FileTree.leaf?_eq_some.mpr hdata]; rfl⟩)
  rw [(onlyLoose_removeLoose h ids).read_eq, LooseOdb.read, if_pos]
  rw [LooseOdb.contains_eq]
  exact congrArg Option.isSome hgone

/-- **A prune keeps what `HEAD`, a ref or the index leads to.**  It keeps the objects that a linked
worktree leads to exactly if each of them is reached from these as well. -/
theorem prune_reachable {z : Zlib} {hasher : Hasher} {algo : HashAlgo}
    (hmade : Made z hasher algo repo) (out : Outside) :
    (∀ id, repo.Examined id → (repo.prune out).2.odb.read id = repo.odb.read id ∧
      (repo.prune out).2.odb.contains id = repo.odb.contains id) ∧
    ∀ n, (repo.prune out).1 = .ok n →
      ((∀ id r, repo.InWorktree id → repo.odb.read id = .ok r →
        (repo.prune out).2.odb.read id = .ok r) ↔
        ∀ id r, repo.InWorktree id → repo.odb.read id = .ok r → repo.Examined id) := by
  have hloose := hmade.onlyLoose
  rw [prune_eq hloose]
  cases hfsck : repo.fsck with
  | error e => exact ⟨fun id _ => ⟨rfl, rfl⟩, nofun⟩
  | ok report =>
    obtain ⟨-, ids, hids, hdangling⟩ := fsck_examined hfsck
    have hkept : ∀ id, repo.Examined id →
        (repo.removeLoose report.dangling).odb.read id = repo.odb.read id ∧
          (repo.removeLoose report.dangling).odb.contains id = repo.odb.contains id := fun id hid =>
      read_removeLoose hloose fun hmem => ((hdangling id).mp hmem).2 hid
    refine ⟨hkept, fun n _ => ⟨fun hall id r hin hread => ?_, fun hall id r hin hread => ?_⟩⟩
    · -- an object that is not examined is dangling, so it is removed
      by_contra hout
      have hread' := hread
      rw [hloose.read_eq] at hread'
      obtain ⟨⟨data, hdata⟩, halgo⟩ := LooseOdb.leaf_of_read hread'
      have hmem := (hdangling id).mpr ⟨mem_looseObjectIds hids halgo hdata, hout⟩
      cases (read_of_mem hloose hmem hread).symm.trans (hall id r hin hread)
    · exact (hkept id (hall id r hin hread)).1.trans hread

end Repository

/-! ## A worktree on a deleted branch -/

namespace PruneSample
open Repository

/-- Who commits. -/
def someone : Signature := ⟨bytes "T", bytes "t@e", 0, bytes "+0000"⟩

/-- The commit on the branch. -/
def tip : ObjectId :=
  ⟨.sha1, [0x9b, 0x33, 0xc6, 0x3e, 0xf7, 0x11, 0x9d, 0x99, 0x85, 0xf3, 0xfb, 0x28,
  0xcb, 0xc7, 0xb6, 0x12, 0xe0, 0xe7, 0x56, 0x63], rfl⟩

/-- A branch is made, checked out, advanced and left again; a worktree is added at its commit,
and it is deleted. -/
def operations : List Operation := [
  .commit (bytes "c\n") someone someone,
  .createBranch (str "topic") none,
  .checkout 1 (str "topic") (.ok ()),
  .commit (bytes "d\n") someone someone,
  .checkout 1 (str "main") (.ok ()),
  .addWorktree 1 (str "wt") tip (bytes "/wt/.git") (.ok ()),
  .deleteBranch true (str "topic")]

/-- The repository some operations make. -/
def after (ops : List Operation) : Option Repository :=
  ops.foldlM (fun repo op => op.run repo) (Repository.init .stored .sha .sha1)

theorem made_after (ops : List Operation) {repo : Repository} (h : after ops = some repo) :
    Made .stored .sha .sha1 repo := by
  have hrun : ∀ (ops : List Operation) (start : Repository), Made .stored .sha .sha1 start →
      ops.foldlM (fun repo op => op.run repo) start = some repo → Made .stored .sha .sha1 repo := by
    intro ops
    induction ops with
    | nil =>
      rintro start hstart ⟨⟩
      exact hstart
    | cons op ops ih =>
      intro start hstart h
      rw [List.foldlM_cons] at h
      obtain ⟨next, hnext, h⟩ := Option.bind_eq_some_iff.mp h
      exact ih next (.step op hstart hnext) h
  exact hrun ops _ .init h

/-- The `HEAD` of the worktree, and whether its commit is there before and after a prune. -/
def observe (repo : Repository) : Except Error Reference × Bool × Bool :=
  (Vfs.read repo.fs (worktreeFile (str "wt") "HEAD") >>= Reference.parse repo.algo,
    repo.odb.contains tip, (repo.prune .sorted).2.odb.contains tip)

/-- The repository with the worktree. -/
theorem exists_repo : ∃ repo, Made .stored .sha .sha1 repo ∧
    observe repo = (.ok (.direct tip), true, false) := by
  have hrun : (after operations).map observe = some (.ok (.direct tip), true, false) := by
    decide +kernel
  obtain ⟨repo, hrepo, hobserve⟩ := Option.map_eq_some_iff.mp hrun
  exact ⟨repo, made_after operations hrepo, hobserve⟩

/-- Pruning the repository with the worktree. -/
theorem prune_repo : ∃ repo, observe repo = (.ok (.direct tip), true, false) ∧
    (∀ id, repo.Examined id → (repo.prune .sorted).2.odb.read id = repo.odb.read id ∧
      (repo.prune .sorted).2.odb.contains id = repo.odb.contains id) ∧
    ∀ n, (repo.prune .sorted).1 = .ok n →
      ((∀ id r, repo.InWorktree id → repo.odb.read id = .ok r →
        (repo.prune .sorted).2.odb.read id = .ok r) ↔
        ∀ id r, repo.InWorktree id → repo.odb.read id = .ok r → repo.Examined id) := by
  obtain ⟨repo, hmade, hobserve⟩ := exists_repo
  exact ⟨repo, hobserve, prune_reachable hmade .sorted⟩

/-- The commit of the worktree is pruned. -/
theorem not_prune_worktree : ¬ ∀ (repo : Repository) (out : Outside),
    Made .stored .sha .sha1 repo → ∀ id, repo.Examined id ∨ repo.InWorktree id →
      (repo.prune out).2.odb.read id = repo.odb.read id ∧
        (repo.prune out).2.odb.contains id = repo.odb.contains id := by
  intro h
  obtain ⟨repo, hmade, hobserve⟩ := exists_repo
  simp only [observe, Prod.mk.injEq] at hobserve
  obtain ⟨hhead, hbefore, hafter⟩ := hobserve
  obtain ⟨head, hfile, hvalue⟩ := except_bind_ok.mp hhead
  have hkept := (h repo .sorted hmade tip (Or.inr ⟨tip, .direct hfile hvalue, .refl⟩)).2
  rw [hbefore, hafter] at hkept
  cases hkept

end PruneSample
end Puregit
