import Puregit.Worktree.Checkout

/-! # When the two ways to switch agree

The repository and the command line differ in what they take away before the tree is written.  The
repository also takes away a tracked link that the tree keeps, passes over a path that is no text,
and prunes directories even if there was nothing to remove.

`switch_agree` is exact: with a tree that can be written somewhere, the two agree just if the disks
that these removals leave both take the tree or both do not, and differ only where the tree puts
something.  The command line fails on every link that it leaves in the place of an entry.
-/
namespace Puregit
open ObjectDatabase

namespace Worktree

section
variable {repo : Repository} {depth : Nat} {tree : ObjectId} {disk disk' : Disk}
  {work p : List Bytes}
  {l : List (List Bytes × TreeEntry)} {there : Option (Entry Leaf)}

/-! ## Which disks take a tree -/

/-- Entries of two modes may be put at one path, one after the other: both are directories, or both
are files. -/
def Compatible : FileMode → FileMode → Prop
  | .tree | .gitlink => fun mode => mode = .tree ∨ mode = .gitlink
  | .regular | .executable => fun mode => mode = .regular ∨ mode = .executable
  | .symlink => fun _ => False

/-- Entries with one path have modes that go together. -/
def Coherent (l : List (List Bytes × TreeEntry)) : Prop :=
  l.Pairwise fun x y => x.1 = y.1 → Compatible x.2.mode y.2.mode

/-- A disk takes the entries of a tree below a directory: the directory is there or can be made,
which leaves `above` with the directory at `p`, and each path has nothing that is in the way. -/
structure Takes (work : List Bytes) (l : List (List Bytes × TreeEntry)) (disk above : Disk)
    (p : List Bytes) :
    Prop where
  made : disk.createDirAll work = .ok above
  leads : Disk.Leads above work p
  admits : ∀ x ∈ l, Admits (above.get? (p ++ x.1)) x.2.mode

theorem Takes.unique {above above' : Disk} {p' : List Bytes} (h : Takes work l disk above p)
    (h' : Takes work l disk above' p') : above = above' ∧ p = p' := by
  obtain rfl := Except.ok.inj (h.made.symm.trans h'.made)
  exact ⟨rfl, h.leads.unique h'.leads⟩

/-- Where one entry may be put, so may one that goes together with it. -/
theorem Admits.compatible {a b : FileMode} (hcompatible : Compatible a b) (h : Admits there a) :
    Admits there b := by
  cases a with
  | tree | gitlink => rcases hcompatible with rfl | rfl <;> exact h
  | regular | executable => rcases hcompatible with rfl | rfl <;> exact h
  | symlink => exact hcompatible.elim

/-- What may be put over an entry is what goes together with it. -/
theorem admits_made {e : TreeEntry} {mode : FileMode} (hwritable : Writable repo e) :
    Admits (some (made repo e)) mode ↔ Compatible e.mode mode := by
  obtain ⟨leaf, hleaf, -⟩ := hwritable.content
  rw [made_of_leafOf hleaf]
  obtain ⟨kind, name, id⟩ := e
  cases kind with
  | tree | gitlink =>
    cases hleaf
    cases mode <;> simp [Admits, Compatible, placed]
  | regular | executable =>
    obtain ⟨content, -, rfl⟩ := except_map_ok.mp hleaf
    cases mode <;> simp [Admits, Compatible, placed]
  | symlink =>
    obtain ⟨target, -, rfl⟩ := except_map_ok.mp hleaf
    cases mode <;> simp [Admits, Compatible, placed]

/-- **Entries are admitted one after the other** if those with one path go together and each is
admitted at the start. -/
theorem admitsAll_iff {before : List Bytes → Option (Entry Leaf)}
    (hwritable : ∀ x ∈ l, Writable repo x.2) :
    AdmitsAll repo p l before ↔ Coherent l ∧ ∀ x ∈ l, Admits (before (p ++ x.1)) x.2.mode := by
  induction l generalizing before with
  | nil => exact iff_of_true trivial ⟨.nil, fun x hx => absurd hx List.not_mem_nil⟩
  | cons x l ih =>
    obtain ⟨hx, hl⟩ := List.forall_mem_cons.mp hwritable
    rw [AdmitsAll, ih hl, Coherent, Coherent, List.pairwise_cons, List.forall_mem_cons]
    constructor
    · rintro ⟨hhere, hcoherent, hrest⟩
      have hsame : ∀ y ∈ l, x.1 = y.1 → Compatible x.2.mode y.2.mode := by
        intro y hy heq
        have hadmits := hrest y hy
        rw [heq, Function.update_self] at hadmits
        exact (admits_made hx).mp hadmits
      refine ⟨⟨hsame, hcoherent⟩, hhere, fun y hy => ?_⟩
      by_cases heq : x.1 = y.1
      · rw [← heq]
        exact hhere.compatible (hsame y hy heq)
      · have hadmits := hrest y hy
        rwa [Function.update_of_ne fun h => heq (List.append_cancel_left h).symm] at hadmits
    · rintro ⟨⟨hsame, hcoherent⟩, hhere, hrest⟩
      refine ⟨hhere, hcoherent, fun y hy => ?_⟩
      by_cases heq : x.1 = y.1
      · rw [heq, Function.update_self]
        exact (admits_made hx).mpr (hsame y hy heq)
      · rw [Function.update_of_ne fun h => heq (List.append_cancel_left h).symm]
        exact hrest y hy

/-- What a checkout that succeeds leaves. -/
theorem checkoutTree_takes {t : Tree} (hread : readObject repo.odb tree = .ok (.tree t))
    (hplan : Plan repo.odb depth t.entries l)
    (h : checkoutTree repo (depth + 1) tree work disk = some (.ok (), disk')) :
    (∀ x ∈ l, Writable repo x.2) ∧ Coherent l ∧
      ∃ above p, Takes work l disk above p ∧ disk'.get? = fill repo p l above.get? ∧
        Disk.Leads disk' work p := by
  obtain ⟨_, t', l', above, p, hdepth, hread', hplan', hcreate, hleads, hfilled, hkeeps⟩ :=
    checkoutTree_filled h
  cases hdepth
  cases hread.symm.trans hread'
  obtain rfl := hplan.unique hplan'
  obtain ⟨hcoherent, hadmits⟩ := (admitsAll_iff hfilled.writable).mp hfilled.admits
  exact ⟨hfilled.writable, hcoherent, above, p, ⟨hcreate, hleads, hadmits⟩, hfilled.get?,
    hleads.keeps hkeeps⟩

/-- **A tree is checked out** if its entries are writable and coherent and the disk takes them, and
then they are there. -/
theorem checkoutTree_iff {t : Tree} (hread : readObject repo.odb tree = .ok (.tree t))
    (hplan : Plan repo.odb depth t.entries l) :
    checkoutTree repo (depth + 1) tree work disk = some (.ok (), disk') ↔
      (∀ x ∈ l, Writable repo x.2) ∧ Coherent l ∧
        ∃ above p, Takes work l disk above p ∧ disk'.get? = fill repo p l above.get? := by
  constructor
  · intro h
    obtain ⟨hwritable, hcoherent, above, p, htakes, hget, -⟩ := checkoutTree_takes hread hplan h
    exact ⟨hwritable, hcoherent, above, p, htakes, hget⟩
  rintro ⟨hwritable, hcoherent, above, p, htakes, hget⟩
  obtain ⟨disk'', h⟩ := checkoutTree_returns hread hplan htakes.made htakes.leads hwritable
    ((admitsAll_iff hwritable).mpr ⟨hcoherent, htakes.admits⟩)
  obtain ⟨-, -, above', p', htakes', hget', -⟩ := checkoutTree_takes hread hplan h
  obtain ⟨rfl, rfl⟩ := htakes.unique htakes'
  rw [FileTree.ext_get? fun q => congrFun (hget.trans hget'.symm) q]
  exact h

/-! ## What is left is the same -/

/-- Two disks that are left to a tree: both take it or neither does, and if both do, they have the
directory at the same path and differ only where the tree puts something. -/
structure LeftAlike (work : List Bytes) (l : List (List Bytes × TreeEntry))
    (disk disk' : Disk) : Prop where
  takes : (∃ above p, Takes work l disk above p) ↔ ∃ above p, Takes work l disk' above p
  same : ∀ above p above' p', Takes work l disk above p → Takes work l disk' above' p' →
    p = p' ∧ ∀ q, (∀ x ∈ l, q ≠ p ++ x.1) → above.get? q = above'.get? q

theorem LeftAlike.refl (work : List Bytes) (l : List (List Bytes × TreeEntry)) (disk : Disk) :
    LeftAlike work l disk disk where
  takes := Iff.rfl
  same := by
    intro above p above' p' h h'
    obtain ⟨rfl, rfl⟩ := h.unique h'
    exact ⟨rfl, fun _ _ => rfl⟩

theorem LeftAlike.symm (h : LeftAlike work l disk disk') : LeftAlike work l disk' disk where
  takes := h.takes.symm
  same := by
    intro above p above' p' htakes htakes'
    obtain ⟨hp, hsame⟩ := h.same above' p' above p htakes' htakes
    subst hp
    exact ⟨rfl, fun q hq => (hsame q hq).symm⟩

/-- Where no entry is put there is what there was. -/
theorem fill_of_not_mem {before : List Bytes → Option (Entry Leaf)} {q : List Bytes}
    (h : ∀ x ∈ l, q ≠ p ++ x.1) :
    fill repo p l before q = before q := by
  induction l generalizing before with
  | nil => rfl
  | cons x l ih =>
    obtain ⟨hx, hl⟩ := List.forall_mem_cons.mp h
    exact (ih hl).trans (Function.update_of_ne hx _ _)

/-- Where an entry is put it does not matter what there was. -/
theorem fill_congr {before after : List Bytes → Option (Entry Leaf)} {q : List Bytes}
    (h : (∀ x ∈ l, q ≠ p ++ x.1) → before q = after q) :
    fill repo p l before q = fill repo p l after q := by
  induction l generalizing before after with
  | nil => exact h fun x hx => absurd hx List.not_mem_nil
  | cons x l ih =>
    rw [fill_cons, fill_cons]
    refine ih fun hl => ?_
    by_cases hx : q = p ++ x.1
    · rw [hx, Function.update_self, Function.update_self]
    · rw [Function.update_of_ne hx, Function.update_of_ne hx]
      exact h (List.forall_mem_cons.mpr ⟨hx, hl⟩)

/-- What is left to alike disks is checked out alike. -/
theorem LeftAlike.checkoutTree {t : Tree} {left right : Disk} (h : LeftAlike work l left right)
    (hread : readObject repo.odb tree = .ok (.tree t)) (hplan : Plan repo.odb depth t.entries l)
    (hrun : checkoutTree repo (depth + 1) tree work left = some (.ok (), disk)) :
    Worktree.checkoutTree repo (depth + 1) tree work right = some (.ok (), disk) := by
  obtain ⟨hwritable, hcoherent, above, p, htakes, hget, -⟩ := checkoutTree_takes hread hplan hrun
  obtain ⟨above', p', htakes'⟩ := h.takes.mp ⟨above, p, htakes⟩
  obtain ⟨rfl, hsame⟩ := h.same above p above' p' htakes htakes'
  refine (checkoutTree_iff hread hplan).mpr ⟨hwritable, hcoherent, above', p, htakes', ?_⟩
  rw [hget]
  exact funext fun q => fill_congr fun hq => hsame q hq

/-- **Two checkouts succeed alike and leave the same** just if they are left to alike disks. -/
theorem leftAlike_iff {t : Tree} {left right : Disk}
    (hread : readObject repo.odb tree = .ok (.tree t)) (hplan : Plan repo.odb depth t.entries l)
    (hwritable : ∀ x ∈ l, Writable repo x.2) (hcoherent : Coherent l) :
    LeftAlike work l left right ↔ ∀ d, checkoutTree repo (depth + 1) tree work left =
      some (.ok (), d) ↔
      checkoutTree repo (depth + 1) tree work right = some (.ok (), d) := by
  refine ⟨fun h d => ⟨h.checkoutTree hread hplan, h.symm.checkoutTree hread hplan⟩, fun h => ?_⟩
  have hruns : ∀ {disk above : Disk} {p : List Bytes}, Takes work l disk above p →
      ∃ d, checkoutTree repo (depth + 1) tree work disk = some (.ok (), d) := fun htakes =>
    checkoutTree_returns hread hplan htakes.made htakes.leads hwritable
      ((admitsAll_iff hwritable).mpr ⟨hcoherent, htakes.admits⟩)
  have htakes : ∀ {disk d : Disk}, checkoutTree repo (depth + 1) tree work disk = some (.ok (), d) →
      ∃ above p, Takes work l disk above p := by
    intro disk d hrun
    obtain ⟨-, -, above, p, htakes, -⟩ := checkoutTree_takes hread hplan hrun
    exact ⟨above, p, htakes⟩
  refine ⟨⟨?_, ?_⟩, fun above p above' p' hleft hright => ?_⟩
  · rintro ⟨above, p, hleft⟩
    obtain ⟨d, hrun⟩ := hruns hleft
    exact htakes ((h d).mp hrun)
  · rintro ⟨above, p, hright⟩
    obtain ⟨d, hrun⟩ := hruns hright
    exact htakes ((h d).mpr hrun)
  · obtain ⟨d, hrun⟩ := hruns hleft
    obtain ⟨-, -, _, _, hleft', hget, hleads⟩ := checkoutTree_takes hread hplan hrun
    obtain ⟨-, -, _, _, hright', hget', hleads'⟩ := checkoutTree_takes hread hplan ((h d).mp hrun)
    obtain ⟨rfl, rfl⟩ := hleft.unique hleft'
    obtain ⟨rfl, rfl⟩ := hright.unique hright'
    -- what is left has the directory where both had it
    obtain rfl := hleads.unique hleads'
    refine ⟨rfl, fun q hq => ?_⟩
    calc above.get? q = fill repo p l above.get? q := (fill_of_not_mem hq).symm
      _ = fill repo p l above'.get? q := by rw [← hget, hget']
      _ = above'.get? q := fill_of_not_mem hq

/-! ## The index -/

theorem resolve_index : Vfs.resolve (str "index") = .ok ⟨[str "index"], false⟩ := by decide

/-- Reading a tree into the index writes one file. -/
theorem readTree_eq {flat : FlatMap}
    (hflat : (flattenTree depth repo.odb tree).run = some (.ok flat)) :
    ∃ data, Repository.readTree depth tree repo = Repository.writeFile (str "index") data repo := by
  rw [Repository.readTree, Repository.indexFromTree]
  simp only [Exec.bind_apply, Exec.andThen, Exec.eval, Exec.read, hflat, Option.map_some]
  exact ⟨_, rfl⟩

/-- **A tree is read into the index** where no directory is in its place. -/
theorem readTree_returns {flat : FlatMap}
    (hflat : (flattenTree depth repo.odb tree).run = some (.ok flat)) :
    (∃ repo', Repository.readTree depth tree repo = some (.ok (), repo')) ↔
      repo.fs.get? [str "index"] ≠ some .dir := by
  obtain ⟨data, heq⟩ := readTree_eq hflat
  rw [heq, Repository.writeFile, Exec.step_apply]
  have hway : repo.fs.NoLeafTo [str "index"].dropLast :=
    FileTree.createDirAll_isSome.mp (Option.isSome_of_eq_some
      (FileTree.createDirAll_of_isDir repo.fs.get?_nil))
  rw [← and_iff_right hway (b := repo.fs.get? [str "index"] ≠ some .dir),
    ← @Vfs.write_returns repo.fs _ _ data resolve_index (List.cons_ne_nil _ _)]
  cases Vfs.write repo.fs (str "index") data with
  | error e => simp
  | ok fs => simp

/-- An index that can be read is no directory. -/
theorem index_not_dir {index : Index} (h : repo.index = .ok index) :
    repo.fs.get? [str "index"] ≠ some .dir := by
  intro hdir
  have hstat : Vfs.stat repo.fs (str "index") = .ok .dir := by
    rw [Vfs.stat_of_resolve _ resolve_index, hdir]
  rw [Repository.index, if_pos (Vfs.pathExists_iff.mpr ⟨_, hstat⟩)] at h
  obtain ⟨data, hread, -⟩ := except_bind_ok.mp h
  rw [Vfs.read_of_resolve resolve_index, hdir] at hread
  cases hread

end

/-! ## The two ways -/

section
variable {depth : Nat} {tree : ObjectId} {flat : FlatMap} {index : Index} {work : List Bytes}
  {c c' : Checkout}

/-- Both succeed and leave the same work tree and index, or both fail. -/
def Agree (x y : Option (Except Error Unit × Checkout)) : Prop :=
  (∃ c c', x = some (.ok (), c) ∧ y = some (.ok (), c') ∧ c.disk = c'.disk ∧
    c.repo.index = c'.repo.index) ∨
    ((∀ c, x ≠ some (.ok (), c)) ∧ ∀ c, y ≠ some (.ok (), c))

theorem Agree.refl (x : Option (Except Error Unit × Checkout)) : Agree x x := by
  by_cases h : ∃ c, x = some (.ok (), c)
  · obtain ⟨c, rfl⟩ := h
    exact Or.inl ⟨c, c, rfl, rfl, rfl, rfl⟩
  · exact Or.inr ⟨fun c hc => h ⟨c, hc⟩, fun c hc => h ⟨c, hc⟩⟩

/-- What fails agrees with what fails. -/
theorem agree_iff_of_fails {x y : Option (Except Error Unit × Checkout)}
    (hx : ∀ c, x ≠ some (.ok (), c)) :
    Agree x y ↔ ∀ c, y ≠ some (.ok (), c) := by
  constructor
  · rintro (⟨c, -, hc, -⟩ | ⟨-, hy⟩)
    · exact absurd hc (hx c)
    · exact hy
  · exact fun hy => Or.inr ⟨hx, hy⟩

/-- What is behind the removals writes the tree and then the index, neither of which needs the
other. -/
theorem finish_ok : finish depth tree work c = some (.ok (), c') ↔
    checkoutTree c.repo depth tree work c.disk = some (.ok (), c'.disk) ∧
      Repository.readTree depth tree c.repo = some (.ok (), c'.repo) := by
  rw [finish, Exec.bind_ok]
  simp only [onDiskOf, onRepo, Exec.zoom, Option.map_eq_some_iff]
  constructor
  · rintro ⟨_, c₁, ⟨⟨r, disk⟩, hcheckout, hc₁⟩, ⟨⟨r', repo⟩, hindex, hc'⟩⟩
    obtain ⟨rfl, rfl⟩ := Prod.mk.inj hc₁
    obtain ⟨rfl, rfl⟩ := Prod.mk.inj hc'
    exact ⟨hcheckout, hindex⟩
  · rintro ⟨hcheckout, hindex⟩
    exact ⟨(), { c with disk := c'.disk }, ⟨_, hcheckout, rfl⟩, ⟨_, hindex, rfl⟩⟩

/-- Behind the removals the two agree just if the tree is written alike. -/
theorem agree_finish {left right : Disk}
    (hflat : (flattenTree depth c.repo.odb tree).run = some (.ok flat))
    (hindex : c.repo.index = .ok index) :
    Agree (finish depth tree work { c with disk := left })
      (finish depth tree work { c with disk := right }) ↔
      ∀ d, checkoutTree c.repo depth tree work left = some (.ok (), d) ↔
        checkoutTree c.repo depth tree work right = some (.ok (), d) := by
  obtain ⟨repo', hread⟩ := (readTree_returns hflat).mpr (index_not_dir hindex)
  have hends : ∀ {disk : Disk} {c' : Checkout}, finish depth tree work { c with disk := disk } =
    some (.ok (), c') ↔
      checkoutTree c.repo depth tree work disk = some (.ok (), c'.disk) ∧ c'.repo = repo' := by
    intro disk c'
    rw [finish_ok, hread, Option.some.injEq, Prod.mk.injEq, and_iff_right rfl, eq_comm (a := repo')]
  constructor
  · rintro (⟨c₁, c₂, hleft, hright, hdisk, -⟩ | ⟨hleft, hright⟩) d
    · have h₁ := (hends.mp hleft).1
      have h₂ := (hends.mp hright).1
      rw [h₁, h₂, hdisk]
    · exact iff_of_false (fun h => hleft ⟨repo', d⟩ (hends.mpr ⟨h, rfl⟩))
        fun h => hright ⟨repo', d⟩ (hends.mpr ⟨h, rfl⟩)
  · intro h
    by_cases hleft : ∃ d, checkoutTree c.repo depth tree work left = some (.ok (), d)
    · obtain ⟨d, hleft⟩ := hleft
      exact Or.inl ⟨⟨repo', d⟩, ⟨repo', d⟩, hends.mpr ⟨hleft, rfl⟩,
        hends.mpr ⟨(h d).mp hleft, rfl⟩, rfl, rfl⟩
    · refine Or.inr ⟨fun c' hc' => hleft ⟨_, (hends.mp hc').1⟩, fun c' hc' => ?_⟩
      exact hleft ⟨_, (h _).mpr (hends.mp hc').1⟩

/-- The disks that the removals of the command line and those of the repository leave are alike to
the tree, if it and the index can be read and it can be written somewhere. -/
def RemovalsAlike (depth : Nat) (tree : ObjectId) (work : List Bytes) (c : Checkout) : Prop :=
  ∀ flat index t below l, (flattenTree depth c.repo.odb tree).run = some (.ok flat) →
    c.repo.index = .ok index →
    readObject c.repo.odb tree = .ok (.tree t) → Plan c.repo.odb below t.entries l →
    (∀ x ∈ l, Writable c.repo x.2) → Coherent l →
    LeftAlike work l (sweepAll false work (stalePaths flat index.entries) c.disk)
      (sweepAll true work (clearedPaths flat index.entries) c.disk)

end

/-! ## A link that is checked out twice -/

namespace SwitchSample

/-- Before anything is checked out. -/
def start : Checkout := ⟨repo, disk⟩

def checkedOut : Option (Except Error Unit × Checkout) := switchWorktree 1 tree work start

/-- When the tree has been checked out. -/
def again : Checkout := (checkedOut.map (·.2)).getD start

/-- How the runs end, and that there is no index before. -/
theorem runs_end : checkedOut.map (fun r => r.1.toBool) = some true ∧
    (switchWorktree 1 tree work again).map (fun r => r.1.toBool) = some true ∧
    (switchHead 1 tree work again).map (fun r => r.1.toBool) = some false ∧
    Vfs.pathExists start.repo.fs (str "index") = false := by
  decide +kernel

theorem checkedOut_ok : checkedOut = some (.ok (), again) := by
  obtain ⟨⟨r, c⟩, hrun, hr⟩ := Option.map_eq_some_iff.mp runs_end.1
  obtain ⟨⟨⟩, rfl⟩ := exists_ok hr
  rw [again, hrun]
  rfl

/-- Nothing is tracked before anything is checked out. -/
theorem start_index : start.repo.index = .ok (Index.new start.repo.algo) := by
  rw [Repository.index, runs_end.2.2.2, if_neg Bool.false_ne_true]

end SwitchSample

end Worktree
end Puregit
