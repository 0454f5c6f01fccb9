import Puregit.Worktree.Switch

/-! # What a checkout leaves on the disk

`Worktree.checkoutTree_confined` holds of every checkout below a directory, whether it succeeds or
not and whatever the tree and the disk are: nothing changes but what is below the directory under
safe names, and no directory and no link that was there is gone.

`Worktree.checkoutTree_leaves` says what a checkout leaves that succeeds: at each path of the
flattened tree what the tree has there, and elsewhere the files and links that were there before.
-/
namespace Puregit
open ObjectDatabase

theorem Disk.isEntryName_of_safe (h : isSafePathComponent name = true) : IsEntryName name := by
  obtain ⟨hempty, hdot, hdots, -⟩ := Worktree.safeComponent h
  exact ⟨by simpa using hempty, hdot, hdots⟩

namespace Worktree

section
variable {repo : Repository} {depth : Nat} {disk disk' : Disk} {dest p : List Bytes} {name : Bytes}
  {r : Except Error Unit}
  {e : TreeEntry} {mode : FileMode} {there : Option (Entry Leaf)}

/-! ## What an entry puts where -/

/-- What an entry that is no tree puts at its path: a file or a link, or nothing where a directory
is to be. -/
def leafOf (repo : Repository) (mode : FileMode) (id : ObjectId) : Except Error (Option Leaf) :=
  match mode with
  | .tree | .gitlink => .ok none
  | .regular | .executable =>
    (readBlob repo id >>= LfsStore.smudge repo.fs).map fun content =>
      some (.file content (mode = .executable))
  | .symlink => (readBlob repo id).map fun target => some (.link target)

/-- What a checkout puts at a path: a file or a link, or a directory. -/
def placed : Option Leaf → Entry Leaf
  | some leaf => .leaf leaf
  | none => .dir

/-- What an entry puts at its path, if its content can be read. -/
def made (repo : Repository) (e : TreeEntry) : Entry Leaf :=
  placed ((leafOf repo e.mode e.id).toOption.getD none)

theorem made_of_leafOf {leaf : Option Leaf} (h : leafOf repo e.mode e.id = .ok leaf) :
    made repo e = placed leaf := by
  rw [made, h]
  rfl

theorem made_tree (hmode : e.mode = .tree) : made repo e = .dir := by
  rw [made, hmode]
  rfl

/-- What may be at a path where an entry of a mode is put: for a directory nothing or a directory,
for a file nothing or a file, for a link nothing. -/
def Admits (there : Option (Entry Leaf)) : FileMode → Prop
  | .tree | .gitlink => there = none ∨ there = some .dir
  | .regular | .executable =>
    there = none ∨ ∃ content executable, there = some (.leaf (.file content executable))
  | .symlink => there = none

/-- Where something is put there is no link. -/
theorem Admits.not_link (h : Admits there mode) (target : Bytes) :
    there ≠ some (.leaf (.link target)) := by
  rintro rfl
  cases mode with
  | tree | gitlink => rcases h with h | h <;> cases h
  | regular | executable =>
    rcases h with h | ⟨content, executable, h⟩
    · cases h
    · cases h
  | symlink => cases h

/-- The name of an entry is safe and text, its content can be read, and a link has a target. -/
structure Writable (repo : Repository) (e : TreeEntry) : Prop where
  safe : isSafePathComponent e.name = true
  utf8 : fromUtf8 e.name ≠ none
  content : ∃ leaf, leafOf repo e.mode e.id = .ok leaf ∧ ∀ target, leaf = some (.link target) →
    target ≠ [] ∧ 0 ∉ target

/-- A path of a disk is filled that an entry of a mode may be put at. -/
structure Put (disk disk' : Disk) (path : List Bytes) (mode : FileMode)
    (e : Entry Leaf) : Prop where
  admits : Admits (disk.get? path) mode
  get? : ∀ q, disk'.get? q = if q = path then some e else disk.get? q

/-- A leaf is made for a file or a link. -/
theorem leafOf_dir (h : leafOf repo mode e.id = .ok none) : mode = .tree ∨ mode = .gitlink := by
  cases mode with
  | tree => exact Or.inl rfl
  | gitlink => exact Or.inr rfl
  | regular | executable | symlink =>
    obtain ⟨_, -, h⟩ := except_map_ok.mp h
    cases h

theorem leafOf_leaf {leaf : Leaf} (h : leafOf repo mode e.id = .ok (some leaf)) :
    mode ≠ .tree ∧ mode ≠ .gitlink := by
  refine ⟨?_, ?_⟩ <;> rintro rfl <;> cases h

/-- **What is put keeps the directories and the links.** -/
theorem Put.keeps {path : List Bytes} {leaf : Option Leaf}
    (h : Put disk disk' path e.mode (placed leaf)) (hleaf : leafOf repo e.mode e.id = .ok leaf) :
    disk.Keeps disk' := by
  refine ⟨fun q hq => ?_, fun q target hq => ?_⟩
  · rw [h.get?]
    split
    · rename_i hsame
      subst hsame
      cases leaf with
      | none => rfl
      | some leaf =>
        obtain ⟨htree, hgitlink⟩ := leafOf_leaf hleaf
        have hadmits := h.admits
        rw [hq] at hadmits
        cases hmode : e.mode with
        | tree => exact absurd hmode htree
        | gitlink => exact absurd hmode hgitlink
        | regular | executable =>
          rw [hmode] at hadmits
          rcases hadmits with hadmits | ⟨_, _, hadmits⟩ <;> cases hadmits
        | symlink =>
          rw [hmode] at hadmits
          cases hadmits
    · exact hq
  · rw [h.get?, if_neg]
    · exact hq
    · rintro rfl
      exact h.admits.not_link target hq

theorem Put.keeps_of_writable {path : List Bytes} (h : Put disk disk' path e.mode (made repo e))
    (hwritable : Writable repo e) : disk.Keeps disk' := by
  obtain ⟨leaf, hleaf, -⟩ := hwritable.content
  rw [made_of_leafOf hleaf] at h
  exact h.keeps hleaf

/-! ## One entry -/

/-- Writes an entry of a tree below a directory. -/
def writeEntry (repo : Repository) (depth : Nat) (dest : List Bytes) (entry : TreeEntry) :
    Exec Disk Error Unit := do
  guardEntry entry dest
  writeAt repo (writeTree repo depth) entry (dest ++ [entry.name])

theorem writeTree_succ (repo : Repository) (depth : Nat) (t : Tree) (dest : List Bytes) :
    writeTree repo (depth + 1) t dest =
      onDisk (fun disk => disk.createDirAll dest) >>= fun _ =>
        t.entries.forM (writeEntry repo depth dest) := rfl

/-- A tree below an entry. -/
def readSub (repo : Repository) (id : ObjectId) : Except Error Tree := do
  match ← readObject repo.odb id with
  | .tree t => .ok t
  | _ => .error (.parse (str "checkout: tree entry is not a tree"))

theorem readSub_ok {id : ObjectId} {t : Tree} :
    readSub repo id = .ok t ↔ readObject repo.odb id = .ok (.tree t) := by
  constructor
  · intro h
    obtain ⟨o, ho, h⟩ := except_bind_ok.mp h
    cases o with
    | tree t' =>
      cases h
      exact ho
    | blob | commit | tag => cases h
  · intro h
    exact except_bind_ok.mpr ⟨_, h, rfl⟩

/-- **An entry is guarded** if its name is safe and text and no link is in its place. -/
theorem guardEntry_iff (hleads : Disk.Leads disk dest p) :
    guardEntry e dest disk = some (.ok (), disk') ↔
    disk' = disk ∧ isSafePathComponent e.name = true ∧ fromUtf8 e.name ≠ none ∧
      ∀ target, disk.get? (p ++ [e.name]) ≠ some (.leaf (.link target)) := by
  constructor
  · intro h
    obtain ⟨hsame, hsafe, hutf8, hlink⟩ := guardEntry_ok h
    refine ⟨hsame, hsafe, hutf8, fun target => ?_⟩
    rw [← Disk.lstat_below hleads]
    exact hlink target
  · rintro ⟨rfl, hsafe, hutf8, hlink⟩
    obtain ⟨name, hname⟩ := Option.ne_none_iff_exists'.mp hutf8
    rw [guardEntry, if_neg (by simp [hsafe]), hname]
    simp only
    rw [Exec.read, Disk.lstat_below hleads]
    split
    · rename_i target hthere
      exact absurd hthere (hlink target)
    · rfl

/-- The content of a file is written where nothing but a file is. -/
theorem writeContent_iff {mode : FileMode} {name : Bytes} {id : ObjectId} {executable : Bool}
    (hleads : Disk.Leads disk dest p)
    (hleaf : leafOf repo mode id = (readBlob repo id >>= LfsStore.smudge repo.fs).map
      fun content => some (.file content executable))
    (hadmits : ∀ there, Admits there mode ↔ there = none ∨ ∃ content executable,
      there = some (.leaf (.file content executable)))
    (hlink : ∀ target, disk.get? (p ++ [name]) ≠ some (.leaf (.link target))) :
    (Exec.ofExcept (readBlob repo id >>= LfsStore.smudge repo.fs) >>= fun content =>
      onDisk fun disk => disk.writeFile (dest ++ [name]) content executable) disk =
        some (.ok (), disk') ↔
      ∃ leaf, leafOf repo mode id = .ok leaf ∧
        (∀ target, leaf = some (.link target) → target ≠ [] ∧ 0 ∉ target) ∧
        Put disk disk' (p ++ [name]) mode (placed leaf) := by
  rw [Exec.ofExcept_bind_ok, hleaf]
  simp only [onDisk_ok, Disk.writeFile, Disk.place_below hleads, except_map_ok]
  constructor
  · rintro ⟨content, hcontent, hdir, hget⟩
    refine ⟨_, ⟨content, hcontent, rfl⟩, fun target h => absurd h (by simp),
      (hadmits _).mpr ?_, hget⟩
    cases hthere : disk.get? (p ++ [name]) with
    | none => exact Or.inl rfl
    | some e =>
      cases e with
      | dir => exact absurd hthere hdir
      | leaf leaf =>
        cases leaf with
        | file content executable => exact Or.inr ⟨_, _, rfl⟩
        | link target => exact absurd hthere (hlink target)
  · rintro ⟨_, ⟨content, hcontent, rfl⟩, -, hput⟩
    refine ⟨content, hcontent, ?_, hput.get?⟩
    rcases (hadmits _).mp hput.admits with hthere | ⟨_, _, hthere⟩ <;> rw [hthere] <;> simp

/-- What is no tree is written where it may be. -/
theorem writeLeaf_iff (hleads : Disk.Leads disk dest p) (hmode : e.mode ≠ .tree)
    (hname : Disk.IsEntryName e.name)
    (hlink : ∀ target, disk.get? (p ++ [e.name]) ≠ some (.leaf (.link target))) :
    writeLeaf repo e (dest ++ [e.name]) disk = some (.ok (), disk') ↔
      ∃ leaf, leafOf repo e.mode e.id = .ok leaf ∧
        (∀ target, leaf = some (.link target) → target ≠ [] ∧ 0 ∉ target) ∧
        Put disk disk' (p ++ [e.name]) e.mode (placed leaf) := by
  obtain ⟨mode, name, id⟩ := e
  rw [writeLeaf]
  cases mode with
  | tree => exact absurd rfl hmode
  | regular | executable => exact writeContent_iff hleads rfl (fun _ => Iff.rfl) hlink
  | symlink =>
    simp only [Exec.ofExcept_bind_ok, onDisk_ok, leafOf, except_map_ok, Disk.symlink,
      Disk.lstat_below hleads]
    constructor
    · rintro ⟨target, htarget, h⟩
      split_ifs at h with hnul hnil hthere
      have hnone : disk.get? (p ++ [name]) = none := by simpa using hthere
      refine ⟨_, ⟨target, htarget, rfl⟩, fun target' heq => ?_, hnone,
        ((Disk.place_below hleads).mp h).2⟩
      cases heq
      exact ⟨hnil, hnul⟩
    · rintro ⟨_, ⟨target, htarget, rfl⟩, hgood, hput⟩
      obtain ⟨hnil, hnul⟩ := hgood target rfl
      have hthere : disk.get? (p ++ [name]) = none := hput.admits
      refine ⟨target, htarget, ?_⟩
      rw [if_neg hnul, if_neg hnil, if_neg (by simp [hthere]), Disk.place_below hleads]
      exact ⟨by simp [hthere], hput.get?⟩
  | gitlink =>
    simp only [onDisk_ok, leafOf, Disk.createDirAll_below hleads hname hlink]
    constructor
    · exact fun h => ⟨none, rfl, fun _ h => absurd h (by simp), h.1, h.2⟩
    · rintro ⟨_, hleaf, -, hput⟩
      cases hleaf
      exact ⟨hput.admits, hput.get?⟩

/-- **An entry that is no tree is written** if it is writable and its path admits it. -/
theorem writeEntry_leaf_iff (hleads : Disk.Leads disk dest p) (hmode : e.mode ≠ .tree) :
    writeEntry repo depth dest e disk = some (.ok (), disk') ↔
      Writable repo e ∧ Put disk disk' (p ++ [e.name]) e.mode (made repo e) := by
  rw [writeEntry, Exec.bind_ok, writeAt, if_neg hmode]
  constructor
  · rintro ⟨_, disk₁, hguard, h⟩
    obtain ⟨rfl, hsafe, hutf8, hlink⟩ := (guardEntry_iff hleads).mp hguard
    obtain ⟨leaf, hleaf, htarget, hput⟩ :=
      (writeLeaf_iff hleads hmode (Disk.isEntryName_of_safe hsafe) hlink).mp h
    exact ⟨⟨hsafe, hutf8, leaf, hleaf, htarget⟩, made_of_leafOf hleaf ▸ hput⟩
  · rintro ⟨⟨hsafe, hutf8, leaf, hleaf, htarget⟩, hput⟩
    have hlink := hput.admits.not_link
    refine ⟨(), disk, (guardEntry_iff hleads).mpr ⟨rfl, hsafe, hutf8, hlink⟩, ?_⟩
    rw [made_of_leafOf hleaf] at hput
    exact (writeLeaf_iff hleads hmode (Disk.isEntryName_of_safe hsafe) hlink).mpr
      ⟨leaf, hleaf, htarget, hput⟩

/-- A tree is written in a directory that is made. -/
theorem writeTree_iff {t : Tree} : writeTree repo (depth + 1) t dest disk = some (.ok (), disk') ↔
    ∃ disk₁, disk.createDirAll dest = .ok disk₁ ∧
      t.entries.forM (writeEntry repo depth dest) disk₁ = some (.ok (), disk') := by
  rw [writeTree_succ, Exec.bind_ok]
  constructor
  · rintro ⟨_, disk₁, hcreate, h⟩
    exact ⟨disk₁, onDisk_ok.mp hcreate, h⟩
  · rintro ⟨disk₁, hcreate, h⟩
    exact ⟨(), disk₁, onDisk_ok.mpr hcreate, h⟩

theorem writable_tree (hmode : e.mode = .tree) :
    Writable repo e ↔ isSafePathComponent e.name = true ∧ fromUtf8 e.name ≠ none := by
  refine ⟨fun h => ⟨h.safe, h.utf8⟩, fun h =>
    ⟨h.1, h.2, none, by rw [hmode]; rfl, fun _ h => by cases h⟩⟩

/-- **An entry that is a tree is written** if it is writable and its path admits it, and then what
is below it is. -/
theorem writeEntry_tree_iff {sub : Tree} (hleads : Disk.Leads disk dest p) (hmode : e.mode = .tree)
    (hread : readObject repo.odb e.id = .ok (.tree sub)) :
    writeEntry repo (depth + 1) dest e disk = some (.ok (), disk') ↔
      Writable repo e ∧ ∃ disk₁, Put disk disk₁ (p ++ [e.name]) e.mode (made repo e) ∧
        sub.entries.forM (writeEntry repo depth (dest ++ [e.name])) disk₁ =
          some (.ok (), disk') := by
  have hmade : made repo e = .dir := made_tree hmode
  have hrun : ∀ disk disk', writeAt repo (writeTree repo (depth + 1)) e (dest ++ [e.name]) disk =
    some (.ok (), disk') ↔
      writeTree repo (depth + 1) sub (dest ++ [e.name]) disk = some (.ok (), disk') := by
    intro disk disk'
    rw [writeAt, if_pos hmode]
    change (Exec.ofExcept (readSub repo e.id) >>= _) disk = _ ↔ _
    rw [Exec.ofExcept_bind_ok, readSub_ok.mpr hread]
    simp
  rw [writeEntry, Exec.bind_ok, writable_tree hmode]
  simp only [hrun, writeTree_iff]
  constructor
  · rintro ⟨_, disk₁, hguard, disk₂, hcreate, h⟩
    obtain ⟨rfl, hsafe, hutf8, hlink⟩ := (guardEntry_iff hleads).mp hguard
    obtain ⟨hadmits, hget⟩ :=
      (Disk.createDirAll_below hleads (Disk.isEntryName_of_safe hsafe) hlink).mp hcreate
    refine ⟨⟨hsafe, hutf8⟩, disk₂, ⟨by rw [hmode]; exact hadmits, by rw [hmade]; exact hget⟩, h⟩
  · rintro ⟨⟨hsafe, hutf8⟩, disk₁, hput, h⟩
    have hlink := hput.admits.not_link
    refine ⟨(), disk, (guardEntry_iff hleads).mpr ⟨rfl, hsafe, hutf8, hlink⟩, disk₁, ?_, h⟩
    have hadmits := hput.admits
    have hget := hput.get?
    rw [hmode] at hadmits
    rw [hmade] at hget
    exact (Disk.createDirAll_below hleads (Disk.isEntryName_of_safe hsafe) hlink).mpr
      ⟨hadmits, hget⟩

/-! ## Nothing else changes -/

/-- What a checkout below a directory may change. -/
structure Confined (dest : List Bytes) (disk disk' : Disk) : Prop where
  keeps : disk.Keeps disk'
  changed : ∀ q, disk'.get? q ≠ disk.get? q →
    ∃ names, names ≠ [] ∧ (∀ n ∈ names, isSafePathComponent n = true) ∧ q = dest ++ names

theorem Confined.refl (dest : List Bytes) (disk : Disk) : Confined dest disk disk :=
  ⟨.refl disk, fun _ h => absurd rfl h⟩

theorem Confined.trans {disk'' : Disk} (h : Confined dest disk disk')
    (h' : Confined dest disk' disk'') :
    Confined dest disk disk'' := by
  refine ⟨h.keeps.trans h'.keeps, fun q hq => ?_⟩
  by_cases hsame : disk'.get? q = disk.get? q
  · exact h'.changed q (by rw [hsame]; exact hq)
  · exact h.changed q hsame

/-- What is confined to a directory is confined to the one above. -/
theorem Confined.above (h : Confined (dest ++ [name]) disk disk')
    (hsafe : isSafePathComponent name = true) :
    Confined dest disk disk' := by
  refine ⟨h.keeps, fun q hq => ?_⟩
  obtain ⟨names, -, hnames, rfl⟩ := h.changed q hq
  exact ⟨name :: names, List.cons_ne_nil _ _, List.forall_mem_cons.mpr ⟨hsafe, hnames⟩,
    by rw [List.append_assoc]; rfl⟩

theorem Put.confined (h : Put disk disk' (p ++ [e.name]) e.mode (made repo e))
    (hwritable : Writable repo e) :
    Confined p disk disk' := by
  refine ⟨h.keeps_of_writable hwritable, fun q hq => ?_⟩
  have hpath : q = p ++ [e.name] := by
    by_contra hne
    exact hq (by rw [h.get?, if_neg hne])
  exact ⟨[e.name], List.cons_ne_nil _ _, by simpa using hwritable.safe, hpath⟩

theorem onDisk_cases {f : Disk → Except Error Disk} (h : onDisk f disk = some (r, disk')) :
    disk' = disk ∨ r = .ok () := by
  rw [onDisk] at h
  cases hf : f disk with
  | ok d =>
    rw [hf] at h
    exact Or.inr (Prod.mk.inj (Option.some.inj h)).1.symm
  | error err =>
    rw [hf] at h
    exact Or.inl (Prod.mk.inj (Option.some.inj h)).2.symm

theorem ofExcept_bind_cases {α : Type} {x : Except Error α} {f : α → Exec Disk Error Unit}
    (h : (Exec.ofExcept x >>= f) disk = some (r, disk')) :
    disk' = disk ∨ ∃ a, x = .ok a ∧ f a disk = some (r, disk') := by
  rw [Exec.bind_apply, Exec.andThen, Exec.ofExcept_apply] at h
  cases x with
  | error err => exact Or.inl (Prod.mk.inj (Option.some.inj h)).2.symm
  | ok a => exact Or.inr ⟨a, rfl, h⟩

/-- A step that changes nothing unless it succeeds, and what is done behind it. -/
theorem bind_cases {x : Exec Disk Error Unit} {f : Unit → Exec Disk Error Unit}
    (hx : ∀ {r disk'}, x disk = some (r, disk') → disk' = disk ∨ r = .ok ())
    (h : (x >>= f) disk = some (r, disk')) :
    disk' = disk ∨ ∃ disk₁, x disk = some (.ok (), disk₁) ∧ f () disk₁ = some (r, disk') := by
  rw [Exec.bind_apply, Exec.andThen] at h
  cases hfirst : x disk with
  | none =>
    rw [hfirst] at h
    cases h
  | some first =>
    obtain ⟨result, disk₁⟩ := first
    rw [hfirst] at h
    cases result with
    | ok _ => exact Or.inr ⟨disk₁, rfl, h⟩
    | error err =>
      obtain ⟨-, rfl⟩ := Prod.mk.inj (Option.some.inj h)
      rcases hx hfirst with hsame | hok
      · exact Or.inl hsame
      · cases hok

theorem guardEntry_same (h : guardEntry e dest disk = some (r, disk')) : disk' = disk := by
  rw [guardEntry] at h
  by_cases hsafe : isSafePathComponent e.name = false
  · rw [if_pos hsafe] at h
    exact (Prod.mk.inj (Option.some.inj h)).2.symm
  rw [if_neg hsafe] at h
  cases hname : fromUtf8 e.name with
  | none =>
    rw [hname] at h
    exact (Prod.mk.inj (Option.some.inj h)).2.symm
  | some text =>
    rw [hname] at h
    exact (Prod.mk.inj (Option.some.inj h)).2.symm

/-- What is no tree is written whole or not at all. -/
theorem writeLeaf_cases {path : List Bytes} (h : writeLeaf repo e path disk = some (r, disk')) :
    disk' = disk ∨ r = .ok () := by
  have hread : ∀ {α : Type} {x : Except Error α} {f : α → Disk → Except Error Disk},
      (Exec.ofExcept x >>= fun a => onDisk (f a)) disk = some (r, disk') →
        disk' = disk ∨ r = .ok () := by
    intro α x f h
    rcases ofExcept_bind_cases h with hsame | ⟨a, -, h⟩
    · exact Or.inl hsame
    · exact onDisk_cases h
  rw [writeLeaf] at h
  cases hmode : e.mode with
  | tree =>
    rw [hmode] at h
    exact Or.inr (Prod.mk.inj (Option.some.inj h)).1.symm
  | regular | executable | symlink =>
    rw [hmode] at h
    exact hread h
  | gitlink =>
    rw [hmode] at h
    exact onDisk_cases h

/-- **What writing an entry does**, however it ends: nothing, or the entry is put at its path, and
then what is below it if it is a tree. -/
theorem writeEntry_cases (hleads : Disk.Leads disk dest p)
    (h : writeEntry repo depth dest e disk = some (r, disk')) :
    disk' = disk ∨ Writable repo e ∧ ∃ disk₁, Put disk disk₁ (p ++ [e.name]) e.mode (made repo e) ∧
      (disk' = disk₁ ∨ e.mode = .tree ∧ ∃ sub below, depth = below + 1 ∧
        readObject repo.odb e.id = .ok (.tree sub) ∧
        sub.entries.forM (writeEntry repo below (dest ++ [e.name])) disk₁ = some (r, disk')) := by
  rw [writeEntry] at h
  rcases bind_cases (fun hguard => Or.inl (guardEntry_same hguard))
    h with hsame | ⟨disk₁, hguard, hrun⟩
  · exact Or.inl hsame
  obtain ⟨rfl, hsafe, hutf8, hlink⟩ := (guardEntry_iff hleads).mp hguard
  rw [writeAt] at hrun
  by_cases hmode : e.mode = .tree
  · rw [if_pos hmode] at hrun
    change (Exec.ofExcept (readSub repo e.id) >>= _) disk₁ = _ at hrun
    rcases ofExcept_bind_cases hrun with hsame | ⟨sub, hsub, hrun⟩
    · exact Or.inl hsame
    cases depth with
    | zero => cases hrun
    | succ below =>
      rw [writeTree_succ] at hrun
      rcases bind_cases onDisk_cases hrun with hsame | ⟨disk₂, hcreate, hrun⟩
      · exact Or.inl hsame
      obtain ⟨hadmits, hget⟩ :=
        (Disk.createDirAll_below hleads (Disk.isEntryName_of_safe hsafe) hlink).mp
        (onDisk_ok.mp hcreate)
      refine Or.inr ⟨(writable_tree hmode).mpr ⟨hsafe, hutf8⟩, disk₂,
        ⟨by rw [hmode]; exact hadmits, ?_⟩,
        Or.inr ⟨hmode, sub, below, rfl, readSub_ok.mp hsub, hrun⟩⟩
      rw [made_tree hmode]
      exact hget
  · rw [if_neg hmode] at hrun
    rcases writeLeaf_cases hrun with hsame | rfl
    · exact Or.inl hsame
    obtain ⟨leaf, hleaf, htarget, hput⟩ :=
      (writeLeaf_iff hleads hmode (Disk.isEntryName_of_safe hsafe) hlink).mp hrun
    exact Or.inr ⟨⟨hsafe, hutf8, leaf, hleaf, htarget⟩, disk',
      made_of_leafOf hleaf ▸ hput, Or.inl rfl⟩

/-- The directory of a tree that has been put is led to. -/
theorem leads_put (hleads : Disk.Leads disk dest p)
    (hput : Put disk disk' (p ++ [e.name]) e.mode (made repo e))
    (hwritable : Writable repo e) (hmode : e.mode = .tree) :
    Disk.Leads disk' (dest ++ [e.name]) (p ++ [e.name]) := by
  refine (hleads.keeps (hput.keeps_of_writable hwritable)).below
    (Disk.isEntryName_of_safe hwritable.safe) ?_
  rw [hput.get?, if_pos rfl, made_tree hmode]

/-- An entry that is a tree and has been written can be read. -/
theorem sub_of_written (hmode : e.mode = .tree)
    (h : writeEntry repo depth dest e disk = some (.ok (), disk')) :
    ∃ sub below, depth = below + 1 ∧ readObject repo.odb e.id = .ok (.tree sub) := by
  obtain ⟨_, disk₁, -, h⟩ := Exec.bind_ok.mp h
  rw [writeAt, if_pos hmode] at h
  change (Exec.ofExcept (readSub repo e.id) >>= _) disk₁ = _ at h
  obtain ⟨sub, hsub, h⟩ := Exec.ofExcept_bind_ok.mp h
  cases depth with
  | zero => cases h
  | succ below => exact ⟨sub, below, rfl, readSub_ok.mp hsub⟩

/-- Entries that are confined one by one are confined together. -/
theorem confined_forM {entries : List TreeEntry} {w : TreeEntry → Exec Disk Error Unit}
    (hw : ∀ e disk r disk', Disk.Leads disk dest p → w e disk = some (r, disk') →
      Confined p disk disk')
    (hleads : Disk.Leads disk dest p) (h : entries.forM w disk = some (r, disk')) :
    Confined p disk disk' := by
  induction entries generalizing disk with
  | nil =>
    obtain ⟨-, rfl⟩ := Prod.mk.inj (Option.some.inj h)
    exact .refl p disk
  | cons e entries ih =>
    rw [forM_cons_apply, Exec.bind_apply, Exec.andThen] at h
    cases he : w e disk with
    | none =>
      rw [he] at h
      cases h
    | some first =>
      obtain ⟨result, disk₁⟩ := first
      have hfirst := hw e disk result disk₁ hleads he
      rw [he] at h
      cases result with
      | error err =>
        obtain ⟨-, rfl⟩ := Prod.mk.inj (Option.some.inj h)
        exact hfirst
      | ok _ => exact hfirst.trans (ih (hleads.keeps hfirst.keeps) h)

theorem entries_confined {entries : List TreeEntry} (hleads : Disk.Leads disk dest p)
    (h : entries.forM (writeEntry repo depth dest) disk = some (r, disk')) :
    Confined p disk disk' := by
  induction depth using Nat.strongRecOn generalizing entries dest p disk r disk' with
  | ind depth ih =>
    refine confined_forM (fun e disk r disk' hleads he => ?_) hleads h
    rcases writeEntry_cases hleads he with
      rfl | ⟨hwritable, disk₁, hput, rfl | ⟨hmode, sub, below, rfl, -, hsub⟩⟩
    · exact .refl _ _
    · exact hput.confined hwritable
    · exact (hput.confined hwritable).trans
        ((ih below (Nat.lt_succ_self below) (leads_put hleads hput hwritable hmode) hsub).above
          hwritable.safe)

/-! ## The entries of a tree -/

/-- The entries that come up when those of a tree are written, each with the names that lead to it,
a tree before what is below it, with `depth` frames of stack left below each. -/
inductive Plan {D : Type} [ObjectDatabase D] (odb : D) :
    Nat → List TreeEntry → List (List Bytes × TreeEntry) → Prop
  | nil {depth : Nat} : Plan odb depth [] []
  | leaf {depth : Nat} {e : TreeEntry} {es : List TreeEntry} {l : List (List Bytes × TreeEntry)}
      (hmode : e.mode ≠ .tree) (h : Plan odb depth es l) :
        Plan odb depth (e :: es) (([e.name], e) :: l)
  | tree {depth : Nat} {e : TreeEntry} {es : List TreeEntry} {sub : Tree}
      {below l : List (List Bytes × TreeEntry)} (hmode : e.mode = .tree)
      (hread : readObject odb e.id = .ok (.tree sub)) (hbelow : Plan odb depth sub.entries below)
      (h : Plan odb (depth + 1) es l) :
      Plan odb (depth + 1) (e :: es)
        (([e.name], e) :: (below.map (fun x => (e.name :: x.1, x.2)) ++ l))

/-- There is one such list, whatever stack there is. -/
theorem Plan.unique {D : Type} [ObjectDatabase D] {odb : D} {es : List TreeEntry} {depth' : Nat}
    {l l' : List (List Bytes × TreeEntry)} (h : Plan odb depth es l)
    (h' : Plan odb depth' es l') : l = l' := by
  induction h generalizing depth' l' with
  | nil =>
    cases h'
    rfl
  | leaf hmode h ih =>
    cases h' with
    | leaf hmode' h' => rw [ih h']
    | tree hmode' _ _ _ => exact absurd hmode' hmode
  | tree hmode hread hbelow h ihBelow ih =>
    cases h' with
    | leaf hmode' _ => exact absurd hmode hmode'
    | tree hmode' hread' hbelow' h' =>
      cases hread.symm.trans hread'
      rw [ihBelow hbelow', ih h']

/-- What is on a disk when entries have been put at their paths below a directory. -/
def fill (repo : Repository) (p : List Bytes) (l : List (List Bytes × TreeEntry))
    (there : List Bytes → Option (Entry Leaf)) : List Bytes → Option (Entry Leaf) :=
  l.foldl (fun there x => Function.update there (p ++ x.1) (some (made repo x.2))) there

/-- Each entry may be put at its path when those before it have been put at theirs. -/
def AdmitsAll (repo : Repository) (p : List Bytes) :
    List (List Bytes × TreeEntry) → (List Bytes → Option (Entry Leaf)) → Prop
  | [], _ => True
  | x :: l, there => Admits (there (p ++ x.1)) x.2.mode ∧
    AdmitsAll repo p l (Function.update there (p ++ x.1) (some (made repo x.2)))

variable {l l' : List (List Bytes × TreeEntry)} {before : List Bytes → Option (Entry Leaf)}

theorem fill_cons {x : List Bytes × TreeEntry} : fill repo p (x :: l) before =
    fill repo p l (Function.update before (p ++ x.1) (some (made repo x.2))) := rfl

theorem fill_append : fill repo p (l ++ l') before = fill repo p l' (fill repo p l before) :=
  List.foldl_append

theorem fill_map : fill repo p (l.map fun x => (name :: x.1, x.2)) before =
    fill repo (p ++ [name]) l before := by
  rw [fill, fill, List.foldl_map]
  simp only [List.append_assoc, List.singleton_append]

theorem admitsAll_append : AdmitsAll repo p (l ++ l') before ↔
    AdmitsAll repo p l before ∧ AdmitsAll repo p l' (fill repo p l before) := by
  induction l generalizing before with
  | nil => exact (and_iff_right trivial).symm
  | cons x l ih =>
    rw [List.cons_append, AdmitsAll, AdmitsAll, ih, and_assoc]
    rfl

theorem admitsAll_map :
    AdmitsAll repo p (l.map fun x => (name :: x.1, x.2)) before ↔
      AdmitsAll repo (p ++ [name]) l before := by
  induction l generalizing before with
  | nil => exact Iff.rfl
  | cons x l ih =>
    rw [List.map_cons, AdmitsAll, AdmitsAll, ih, List.append_assoc, List.singleton_append]

/-- What is put, on the whole disk. -/
theorem Put.get?_eq {path : List Bytes} {mode : FileMode} {entry : Entry Leaf}
    (h : Put disk disk' path mode entry) :
    disk'.get? = Function.update disk.get? path (some entry) := by
  funext q
  rw [h.get?, Function.update_apply]

/-- What may be put can be put. -/
theorem exists_put (hleads : Disk.Leads disk dest p) (hwritable : Writable repo e)
    (hadmits : Admits (disk.get? (p ++ [e.name])) e.mode) :
    ∃ disk', Put disk disk' (p ++ [e.name]) e.mode (made repo e) := by
  obtain ⟨leaf, hleaf, -⟩ := hwritable.content
  have hparent : disk.get? (p ++ [e.name]).dropLast = some .dir := by
    rw [List.dropLast_concat]
    exact hleads.dir
  rw [made_of_leafOf hleaf]
  have hmode := hadmits
  cases leaf with
  | none =>
    have hthere : disk.get? (p ++ [e.name]) = none ∨ disk.get? (p ++ [e.name]) = some .dir := by
      rcases leafOf_dir hleaf with h | h
      · rwa [h] at hmode
      · rwa [h] at hmode
    rcases hthere with hnone | hdir
    · obtain ⟨disk', hmake⟩ := Option.isSome_iff_exists.mp
        (FileTree.makeDir_isSome.mpr ⟨by simp, hparent, hnone⟩)
      exact ⟨disk', hadmits, fun q => FileTree.get?_makeDir hmake q⟩
    · refine ⟨disk, hadmits, fun q => ?_⟩
      split
      · next hq => rw [hq, hdir, placed]
      · rfl
  | some leaf =>
    have hdir : disk.get? (p ++ [e.name]) ≠ some .dir := by
      intro hdir
      rw [hdir] at hmode
      obtain ⟨htree, hgitlink⟩ := leafOf_leaf hleaf
      cases hkind : e.mode with
      | tree => exact htree hkind
      | gitlink => exact hgitlink hkind
      | regular | executable =>
        rw [hkind] at hmode
        rcases hmode with hmode | ⟨_, _, hmode⟩ <;> cases hmode
      | symlink =>
        rw [hkind] at hmode
        cases hmode
    obtain ⟨disk', hput⟩ := Option.isSome_iff_exists.mp
      ((FileTree.putLeaf_isSome (d := leaf)).mpr ⟨by simp, hparent, hdir⟩)
    exact ⟨disk', hadmits, fun q => FileTree.get?_putLeaf hput q⟩

/-- Entries have been put at their paths below a directory, each writable and admitted there. -/
structure Filled (repo : Repository) (p : List Bytes) (l : List (List Bytes × TreeEntry))
    (disk disk' : Disk) :
    Prop where
  writable : ∀ x ∈ l, Writable repo x.2
  admits : AdmitsAll repo p l disk.get?
  get? : disk'.get? = fill repo p l disk.get?

theorem Filled.nil (repo : Repository) (p : List Bytes) (disk : Disk) :
    Filled repo p [] disk disk :=
  ⟨fun _ hx => absurd hx List.not_mem_nil, trivial, rfl⟩

theorem Filled.append {disk₁ : Disk} (h : Filled repo p l disk disk₁)
    (h' : Filled repo p l' disk₁ disk') :
    Filled repo p (l ++ l') disk disk' where
  writable := List.forall_mem_append.mpr ⟨h.writable, h'.writable⟩
  admits := admitsAll_append.mpr ⟨h.admits, h.get? ▸ h'.admits⟩
  get? := by rw [h'.get?, h.get?, fill_append]

/-- What is put below a directory is put below the one above. -/
theorem Filled.above (h : Filled repo (p ++ [name]) l disk disk') :
    Filled repo p (l.map fun x => (name :: x.1, x.2)) disk disk' where
  writable := List.forall_mem_map.mpr h.writable
  admits := admitsAll_map.mpr h.admits
  get? := by rw [fill_map, h.get?]

theorem Put.filled (h : Put disk disk' (p ++ [e.name]) e.mode (made repo e))
    (hwritable : Writable repo e) :
    Filled repo p [([e.name], e)] disk disk' :=
  ⟨List.forall_mem_singleton.mpr hwritable, ⟨h.admits, trivial⟩, h.get?_eq⟩

/-- **The entries of a tree that have been written are at their paths.** -/
theorem entries_filled {es : List TreeEntry} (hleads : Disk.Leads disk dest p)
    (h : es.forM (writeEntry repo depth dest) disk = some (.ok (), disk')) :
    ∃ l, Plan repo.odb depth es l ∧ Filled repo p l disk disk' := by
  induction depth using Nat.strongRecOn generalizing es dest p disk disk' with
  | ind depth ih =>
    induction es generalizing disk with
    | nil =>
      obtain ⟨-, rfl⟩ := Prod.mk.inj (Option.some.inj h)
      exact ⟨[], .nil, .nil repo p disk⟩
    | cons e es ihes =>
      rw [forM_cons_apply] at h
      obtain ⟨_, disk₂, he, hrest⟩ := Exec.bind_ok.mp h
      by_cases hmode : e.mode = .tree
      · obtain ⟨sub, below, rfl, hread⟩ := sub_of_written hmode he
        obtain ⟨hwritable, disk₁, hput, hsub⟩ := (writeEntry_tree_iff hleads hmode hread).mp he
        have hdir := leads_put hleads hput hwritable hmode
        have hkeeps := (hput.keeps_of_writable hwritable).trans (entries_confined hdir hsub).keeps
        obtain ⟨inner, hinner, hwritten⟩ := ih below (Nat.lt_succ_self below) hdir hsub
        obtain ⟨l, hl, hfilled⟩ := ihes (hleads.keeps hkeeps) hrest
        exact ⟨_, .tree hmode hread hinner hl,
          ((hput.filled hwritable).append hwritten.above).append hfilled⟩
      · obtain ⟨hwritable, hput⟩ := (writeEntry_leaf_iff hleads hmode).mp he
        obtain ⟨l, hl, hfilled⟩ := ihes (hleads.keeps (hput.keeps_of_writable hwritable)) hrest
        exact ⟨_, .leaf hmode hl, (hput.filled hwritable).append hfilled⟩

/-- **Entries that are writable and admitted are written.** -/
theorem entries_returns {es : List TreeEntry} (hplan : Plan repo.odb depth es l)
    (hleads : Disk.Leads disk dest p) (hwritable : ∀ x ∈ l, Writable repo x.2)
    (hadmits : AdmitsAll repo p l disk.get?) :
    ∃ disk', es.forM (writeEntry repo depth dest) disk = some (.ok (), disk') := by
  induction hplan generalizing dest p disk with
  | nil => exact ⟨disk, rfl⟩
  | leaf hmode _ ih =>
    obtain ⟨he, hall⟩ := List.forall_mem_cons.mp hwritable
    obtain ⟨hhere, hrest⟩ := hadmits
    obtain ⟨disk₁, hput⟩ := exists_put hleads he hhere
    rw [← hput.get?_eq] at hrest
    obtain ⟨disk', h⟩ := ih (hleads.keeps (hput.keeps_of_writable he)) hall hrest
    exact ⟨disk', Exec.bind_ok.mpr ⟨(), disk₁,
      (writeEntry_leaf_iff hleads hmode).mpr ⟨he, hput⟩, h⟩⟩
  | tree hmode hread hinside _ ihBelow ih =>
    obtain ⟨he, hall⟩ := List.forall_mem_cons.mp hwritable
    obtain ⟨hbelow, hall⟩ := List.forall_mem_append.mp hall
    obtain ⟨hhere, hrest⟩ := hadmits
    obtain ⟨hinner, hrest⟩ := admitsAll_append.mp hrest
    obtain ⟨disk₁, hput⟩ := exists_put hleads he hhere
    rw [← hput.get?_eq] at hinner hrest
    have hdir := leads_put hleads hput he hmode
    obtain ⟨disk₂, hsub⟩ := ihBelow hdir (fun x hx =>
      hbelow (_ :: x.1, x.2) (List.mem_map.mpr ⟨x, hx, rfl⟩)) (admitsAll_map.mp hinner)
    obtain ⟨_, hplanned, hfilled⟩ := entries_filled hdir hsub
    cases hinside.unique hplanned
    rw [← hfilled.above.get?] at hrest
    have hkeeps := (hput.keeps_of_writable he).trans (entries_confined hdir hsub).keeps
    obtain ⟨disk', h⟩ := ih (hleads.keeps hkeeps) hall hrest
    exact ⟨disk', Exec.bind_ok.mpr
      ⟨(), disk₂, (writeEntry_tree_iff hleads hmode hread).mpr ⟨he, disk₁, hput, hsub⟩, h⟩⟩

/-! ## The whole tree -/

/-- A checkout reads its tree, and then makes its directory and writes the entries there. -/
theorem checkoutTree_cases {tree : ObjectId}
    (h : checkoutTree repo depth tree dest disk = some (r, disk')) :
    disk' = disk ∨ ∃ t below disk₁, depth = below + 1 ∧ readObject repo.odb tree = .ok (.tree t) ∧
      disk.createDirAll dest = .ok disk₁ ∧ t.entries.forM (writeEntry repo below dest) disk₁ =
        some (r, disk') := by
  rcases ofExcept_bind_cases h with hsame | ⟨t, ht, h⟩
  · exact Or.inl hsame
  obtain ⟨o, ho, ht⟩ := except_bind_ok.mp ht
  cases o with
  | blob | commit | tag => cases ht
  | tree t' =>
    cases ht
    cases depth with
    | zero => cases h
    | succ below =>
      rw [writeTree_succ] at h
      rcases bind_cases onDisk_cases h with hsame | ⟨disk₁, hcreate, h⟩
      · exact Or.inl hsame
      · exact Or.inr ⟨t, below, disk₁, rfl, ho, onDisk_ok.mp hcreate, h⟩

/-- **A checkout changes nothing but what is below its directory under safe names**, however it
ends, and takes away no directory and no link. -/
theorem checkoutTree_confined {tree : ObjectId} (hplain : Disk.Plain dest)
    (hdir : disk.get? dest = some .dir)
    (h : checkoutTree repo depth tree dest disk = some (r, disk')) : Confined dest disk disk' := by
  have hleads := Disk.leads_of_dir hplain hdir
  rcases checkoutTree_cases h with rfl | ⟨t, below, disk₁, rfl, -, hcreate, h⟩
  · exact .refl _ _
  · cases (Disk.createDirAll_of_dir hleads).symm.trans hcreate
    exact entries_confined hleads h

/-- **A checkout that succeeds** has made its directory and put the entries of the tree there. -/
theorem checkoutTree_filled {tree : ObjectId}
    (h : checkoutTree repo depth tree dest disk = some (.ok (), disk')) :
    ∃ below t l above p, depth = below + 1 ∧ readObject repo.odb tree = .ok (.tree t) ∧
      Plan repo.odb below t.entries l ∧ disk.createDirAll dest = .ok above ∧
        Disk.Leads above dest p ∧
      Filled repo p l above disk' ∧ above.Keeps disk' := by
  obtain ⟨t, ht, h⟩ := Exec.ofExcept_bind_ok.mp h
  obtain ⟨o, ho, ht⟩ := except_bind_ok.mp ht
  cases o with
  | blob | commit | tag => cases ht
  | tree t' =>
    cases ht
    cases depth with
    | zero => cases h
    | succ below =>
      obtain ⟨above, hcreate, h⟩ := writeTree_iff.mp h
      obtain ⟨p, hleads⟩ := Disk.leads_createDirAll hcreate
      obtain ⟨l, hplan, hfilled⟩ := entries_filled hleads h
      exact ⟨below, t, l, above, p, rfl, ho, hplan, hcreate, hleads, hfilled,
        (entries_confined hleads h).keeps⟩

/-- **A checkout succeeds** whose directory can be made and whose entries are writable and admitted
there. -/
theorem checkoutTree_returns {tree : ObjectId} {t : Tree} {above : Disk}
    (hread : readObject repo.odb tree = .ok (.tree t)) (hplan : Plan repo.odb depth t.entries l)
    (hcreate : disk.createDirAll dest = .ok above) (hleads : Disk.Leads above dest p)
    (hwritable : ∀ x ∈ l, Writable repo x.2) (hadmits : AdmitsAll repo p l above.get?) :
    ∃ disk', checkoutTree repo (depth + 1) tree dest disk = some (.ok (), disk') := by
  obtain ⟨disk', h⟩ := entries_returns hplan hleads hwritable hadmits
  exact ⟨disk', Exec.ofExcept_bind_ok.mpr ⟨t, except_bind_ok.mpr ⟨_, hread, rfl⟩,
    writeTree_iff.mpr ⟨above, hcreate, h⟩⟩⟩

/-! ## What the flattened tree says of it -/

/-- The path of some names. -/
def joined (names : List Bytes) : Bytes := names.foldl joinPath []

/-- What a map has when entries have been added below a path, those that are no trees. -/
def flattened (dir : Bytes) (l : List (List Bytes × TreeEntry)) (out : FlatMap) : FlatMap :=
  l.foldl (fun out x => if x.2.mode = .tree then out
    else out.insert (x.1.foldl joinPath dir) (x.2.mode, x.2.id)) out

theorem flattened_cons {dir : Bytes} {x : List Bytes × TreeEntry} {out : FlatMap} :
    flattened dir (x :: l) out = flattened dir l (if x.2.mode = .tree then out
      else out.insert (x.1.foldl joinPath dir) (x.2.mode, x.2.id)) := rfl

theorem flattened_append {dir : Bytes} {out : FlatMap} :
    flattened dir (l ++ l') out = flattened dir l' (flattened dir l out) :=
  List.foldl_append

theorem flattened_map {dir : Bytes} {out : FlatMap} :
    flattened dir (l.map fun x => (name :: x.1, x.2)) out =
      flattened (joinPath dir name) l out := by
  rw [flattened, flattened, List.foldl_map]
  rfl

/-- **A flattened tree is what the tree has**, the last entry of a path prevailing. -/
theorem flattenInto_plan {D : Type} [ObjectDatabase D] {odb : D} {id : ObjectId} {dir : Bytes}
    {out out' : FlatMap} (h : (flattenInto odb depth id dir out).run = some (.ok out')) :
    ∃ below t l, depth = below + 1 ∧ readObject odb id = .ok (.tree t) ∧
      Plan odb below t.entries l ∧
      out' = flattened dir l out := by
  induction depth using Nat.strongRecOn generalizing id dir out out' with
  | ind depth ih =>
    cases depth with
    | zero => cases h
    | succ below =>
      rw [flattenInto] at h
      obtain ⟨payload, hread, h⟩ := eval_bind_ok.mp h
      obtain ⟨t, hparse, h⟩ := eval_bind_ok.mp h
      suffices hentries : ∀ (es : List TreeEntry) (out : FlatMap), (es.foldlM (fun out entry =>
          if entry.mode = .tree then flattenInto odb below entry.id (joinPath dir entry.name) out
          else pure (out.insert (joinPath dir entry.name) (entry.mode, entry.id))) out).run =
            some (.ok out') →
          ∃ l, Plan odb below es l ∧ out' = flattened dir l out by
        obtain ⟨l, hl, hout⟩ := hentries t.entries out h
        exact ⟨below, t, l, rfl, readObject_tree (evalExcept_ok.mp hread)
          (evalExcept_ok.mp hparse), hl, hout⟩
      intro es
      induction es with
      | nil =>
        rintro out ⟨⟩
        exact ⟨[], .nil, rfl⟩
      | cons e es ihes =>
        intro out hrun
        rw [List.foldlM_cons] at hrun
        obtain ⟨out₁, hstep, hrun⟩ := eval_bind_ok.mp hrun
        obtain ⟨l, hl, hout⟩ := ihes out₁ hrun
        by_cases hmode : e.mode = .tree
        · rw [if_pos hmode] at hstep
          obtain ⟨below', sub, inner, rfl, hsub, hinner, hout₁⟩ :=
            ih below (Nat.lt_succ_self below) hstep
          refine ⟨_, .tree hmode hsub hinner hl, ?_⟩
          rw [flattened_cons, if_pos hmode, flattened_append, flattened_map, ← hout₁, hout]
        · rw [if_neg hmode] at hstep
          obtain rfl : out.insert (joinPath dir e.name) (e.mode, e.id) = out₁ := by
            simpa using evalExcept_ok.mp hstep
          refine ⟨_, .leaf hmode hl, ?_⟩
          rw [flattened_cons, if_neg hmode, hout]
          rfl

theorem Plan.ne_nil {D : Type} [ObjectDatabase D] {odb : D} {es : List TreeEntry}
    (h : Plan odb depth es l) :
    ∀ x ∈ l, x.1 ≠ [] := by
  induction h with
  | nil => exact fun x hx => absurd hx List.not_mem_nil
  | leaf _ _ ih => exact List.forall_mem_cons.mpr ⟨List.cons_ne_nil _ _, ih⟩
  | tree _ _ _ _ _ ih =>
    exact List.forall_mem_cons.mpr ⟨List.cons_ne_nil _ _,
      List.forall_mem_append.mpr ⟨List.forall_mem_map.mpr fun x _ => List.cons_ne_nil _ _, ih⟩⟩

/-- The names that lead to an entry are those of entries. -/
theorem Plan.names {D : Type} [ObjectDatabase D] {odb : D} {es : List TreeEntry} {P : Bytes → Prop}
    (h : Plan odb depth es l) (hname : ∀ x ∈ l, P x.2.name) : ∀ x ∈ l, ∀ n ∈ x.1, P n := by
  induction h with
  | nil => exact fun x hx => absurd hx List.not_mem_nil
  | leaf _ _ ih =>
    obtain ⟨he, hl⟩ := List.forall_mem_cons.mp hname
    exact List.forall_mem_cons.mpr ⟨by simpa using he, ih hl⟩
  | tree _ _ _ _ ihBelow ih =>
    obtain ⟨he, hall⟩ := List.forall_mem_cons.mp hname
    obtain ⟨hbelow, hl⟩ := List.forall_mem_append.mp hall
    have hinner := ihBelow fun x hx => hbelow (_ :: x.1, x.2) (List.mem_map.mpr ⟨x, hx, rfl⟩)
    exact List.forall_mem_cons.mpr ⟨by simpa using he,
      List.forall_mem_append.mpr ⟨List.forall_mem_map.mpr fun x hx =>
        List.forall_mem_cons.mpr ⟨he, hinner x hx⟩, ih hl⟩⟩

theorem parseEntries_algo {algo : HashAlgo} {payload : Bytes} {es : List TreeEntry}
    (h : Tree.parseEntries algo payload = .ok es) : ∀ e ∈ es, e.id.algo = algo := by
  fun_induction Tree.parseEntries algo payload generalizing es with
  | case1 =>
    cases h
    exact fun e he => absurd he List.not_mem_nil
  | case2 | case3 | case4 | case5 | case6 | case7 | case8 => cases h
  | case9 payload _ octal rest _ mode _ name afterName _ _ _ id hid es' hes' ih =>
    cases h
    exact List.forall_mem_cons.mpr ⟨ObjectId.fromBytes_algo hid, ih hes'⟩

/-- The ids of a tree are of the algorithm of its store. -/
theorem algo_of_readObject {D : Type} [ObjectDatabase D] {odb : D} {id : ObjectId} {t : Tree}
    (h : readObject odb id = .ok (.tree t)) : ∀ e ∈ t.entries, e.id.algo = algo odb := by
  obtain ⟨⟨ty, payload⟩, -, h⟩ := except_bind_ok.mp h
  cases ty with
  | tree =>
    obtain ⟨t', ht, htree⟩ := except_map_ok.mp h
    cases htree
    obtain ⟨es, hes, rfl⟩ := except_map_ok.mp ht
    exact parseEntries_algo hes
  | blob => cases h
  | commit | tag =>
    obtain ⟨o, -, ho⟩ := except_map_ok.mp h
    cases ho

/-- The ids of what comes up are of the algorithm of the store. -/
theorem Plan.algo {D : Type} [ObjectDatabase D] {odb : D} {es : List TreeEntry}
    (h : Plan odb depth es l) (halgo : ∀ e ∈ es, e.id.algo = algo odb) :
    ∀ x ∈ l, x.2.id.algo = ObjectDatabase.algo odb := by
  induction h with
  | nil => exact fun x hx => absurd hx List.not_mem_nil
  | leaf _ _ ih =>
    obtain ⟨he, hes⟩ := List.forall_mem_cons.mp halgo
    exact List.forall_mem_cons.mpr ⟨he, ih hes⟩
  | tree _ hread _ _ ihBelow ih =>
    obtain ⟨he, hes⟩ := List.forall_mem_cons.mp halgo
    have hbelow := ihBelow (algo_of_readObject hread)
    exact List.forall_mem_cons.mpr ⟨he,
      List.forall_mem_append.mpr ⟨List.forall_mem_map.mpr fun x hx => hbelow x hx, ih hes⟩⟩

/-- Names that are there and safe. -/
def SafeNames (names : List Bytes) : Prop := names ≠ [] ∧ ∀ n ∈ names, isSafePathComponent n = true

theorem SafeNames.components {names : List Bytes} (h : SafeNames names) :
    components (joined names) = names := by
  refine components_joinPath h.1 fun n hn => ?_
  obtain ⟨hempty, -⟩ := safeComponent (h.2 n hn)
  have hbytes := h.2 n hn
  rw [isSafePathComponent] at hbytes
  split at hbytes
  · cases hbytes
  split at hbytes
  · cases hbytes
  · next hany =>
    rw [Bool.not_eq_true, List.any_eq_false] at hany
    refine Tree.isComponent_iff.mpr ⟨by simpa using hempty, fun hslash => ?_, fun hnul => ?_⟩
    · exact hany _ hslash (by simp)
    · exact hany _ hnul (by simp)

/-- Putting the entries and flattening them go together: what the map has at a path is there. -/
theorem fill_flattened (hl : ∀ x ∈ l, SafeNames x.1) (hwritable : ∀ x ∈ l, Writable repo x.2)
    (hadmits : AdmitsAll repo p l before) {out : FlatMap}
    (h : ∀ names v leaf, SafeNames names → out.get? (joined names) = some v →
      leafOf repo v.1 v.2 = .ok leaf → before (p ++ names) = some (placed leaf)) :
    ∀ names v leaf, SafeNames names → (flattened [] l out).get? (joined names) = some v →
      leafOf repo v.1 v.2 = .ok leaf → fill repo p l before (p ++ names) = some (placed leaf) := by
  induction l generalizing out before with
  | nil => exact h
  | cons x l ih =>
    obtain ⟨hx, hl⟩ := List.forall_mem_cons.mp hl
    obtain ⟨hwrite, hwritable⟩ := List.forall_mem_cons.mp hwritable
    obtain ⟨hhere, hrest⟩ := hadmits
    intro names v leaf hnames hv hleaf
    rw [flattened_cons] at hv
    refine ih hl hwritable hrest (fun names v leaf hnames hv hleaf => ?_) names v leaf
      hnames hv hleaf
    by_cases hsame : names = x.1
    · subst hsame
      rw [Function.update_self]
      by_cases hmode : x.2.mode = .tree
      · -- where a tree is put, what was there is a directory
        rw [if_pos hmode] at hv
        have hthere := h x.1 v leaf hnames hv hleaf
        rw [hmode, Admits, hthere] at hhere
        rw [made_tree hmode]
        rcases hhere with hnone | hdir
        · cases hnone
        · exact hdir.symm
      · rw [if_neg hmode, BTreeMap.get?_insert,
          if_pos (show joined x.1 = x.1.foldl joinPath [] from rfl)] at hv
        cases hv
        rw [made_of_leafOf hleaf]
    · rw [Function.update_of_ne fun heq => hsame (List.append_cancel_left heq)]
      refine h names v leaf hnames ?_ hleaf
      by_cases hmode : x.2.mode = .tree
      · rwa [if_pos hmode] at hv
      · have hpath : joined names ≠ x.1.foldl joinPath [] := fun heq =>
          hsame (by rw [← hnames.components, heq]; exact hx.components)
        rwa [if_neg hmode, BTreeMap.get?_insert, if_neg hpath] at hv

/-- Elsewhere there are the files and the links that there were. -/
theorem fill_other {q : List Bytes} {leaf : Leaf} (hadmits : AdmitsAll repo p l before)
    (h : ∀ x ∈ l, x.2.mode ≠ .tree → q ≠ p ++ x.1) :
    fill repo p l before q = some (.leaf leaf) ↔ before q = some (.leaf leaf) := by
  induction l generalizing before with
  | nil => exact Iff.rfl
  | cons x l ih =>
    obtain ⟨hx, hl⟩ := List.forall_mem_cons.mp h
    obtain ⟨hhere, hrest⟩ := hadmits
    refine (ih hrest hl).trans ?_
    by_cases hsame : q = p ++ x.1
    · subst hsame
      have hmode : x.2.mode = .tree := by
        by_contra hmode
        exact hx hmode rfl
      rw [Function.update_self, made_tree hmode]
      rw [hmode] at hhere
      rcases hhere with hnone | hdir
      · rw [hnone]
        simp
      · rw [hdir]
    · rw [Function.update_of_ne hsame]

/-- The keys of a flattened list are the paths of its entries, and each has what one of them is. -/
theorem get?_flattened {out : FlatMap} {path : Bytes} :
    (∀ v, (flattened [] l out).get? path = some v →
      out.get? path = some v ∨ ∃ x ∈ l, x.2.mode ≠ .tree ∧ joined x.1 = path ∧
        v = (x.2.mode, x.2.id)) ∧
    ((out.get? path).isSome = true ∨ (∃ x ∈ l, x.2.mode ≠ .tree ∧ joined x.1 = path) →
      ((flattened [] l out).get? path).isSome = true) := by
  induction l generalizing out with
  | nil =>
    refine ⟨fun v hv => Or.inl hv, ?_⟩
    rintro (h | ⟨x, hx, -⟩)
    · exact h
    · exact absurd hx List.not_mem_nil
  | cons x l ih =>
    rw [flattened_cons]
    by_cases hmode : x.2.mode = .tree
    · rw [if_pos hmode]
      obtain ⟨hfrom, hto⟩ := @ih out
      constructor
      · intro v hv
        rcases hfrom v hv with hv | ⟨y, hy, hentry⟩
        · exact Or.inl hv
        · exact Or.inr ⟨y, List.mem_cons_of_mem _ hy, hentry⟩
      · rintro (h | ⟨y, hy, hentry⟩)
        · exact hto (Or.inl h)
        · rcases List.mem_cons.mp hy with rfl | hy
          · exact absurd hmode hentry.1
          · exact hto (Or.inr ⟨y, hy, hentry⟩)
    · rw [if_neg hmode]
      obtain ⟨hfrom, hto⟩ := @ih (out.insert (x.1.foldl joinPath []) (x.2.mode, x.2.id))
      rw [BTreeMap.get?_insert] at hfrom hto
      by_cases hpath : path = x.1.foldl joinPath []
      · rw [if_pos hpath] at hfrom hto
        refine ⟨fun v hv => Or.inr ?_, fun _ => hto (Or.inl rfl)⟩
        rcases hfrom v hv with hv | ⟨y, hy, hentry⟩
        · exact ⟨x, List.mem_cons_self, hmode, hpath.symm, (Option.some.inj hv).symm⟩
        · exact ⟨y, List.mem_cons_of_mem _ hy, hentry⟩
      · rw [if_neg hpath] at hfrom hto
        constructor
        · intro v hv
          rcases hfrom v hv with hv | ⟨y, hy, hentry⟩
          · exact Or.inl hv
          · exact Or.inr ⟨y, List.mem_cons_of_mem _ hy, hentry⟩
        · rintro (h | ⟨y, hy, hentry⟩)
          · exact hto (Or.inl h)
          · rcases List.mem_cons.mp hy with rfl | hy
            · exact absurd hentry.2.symm hpath
            · exact hto (Or.inr ⟨y, hy, hentry⟩)

/-- Names that are text make a path that is text. -/
theorem fromUtf8_joined {names : List Bytes} (h : ∀ n ∈ names, fromUtf8 n ≠ none) :
    fromUtf8 (joined names) ≠ none := by
  have hjoin : ∀ {names : List Bytes} {dir : Str}, (∀ n ∈ names, fromUtf8 n ≠ none) →
      ∃ t, names.foldl joinPath (toUtf8 dir) = toUtf8 t := by
    intro names
    induction names with
    | nil => exact fun _ => ⟨_, rfl⟩
    | cons n names ih =>
      intro dir h
      obtain ⟨hn, hnames⟩ := List.forall_mem_cons.mp h
      obtain ⟨t, ht⟩ := Option.ne_none_iff_exists'.mp hn
      rw [List.foldl_cons, ← toUtf8_of_fromUtf8 ht, joinPath]
      by_cases hdir : (toUtf8 dir).isEmpty = true
      · rw [if_pos hdir]
        exact ih hnames
      · rw [if_neg hdir]
        have hslash : toUtf8 dir ++ slash :: toUtf8 t = toUtf8 (dir ++ '/' :: t) := by
          rw [toUtf8_append]
          rfl
        rw [hslash]
        exact ih hnames
  obtain ⟨t, ht⟩ := @hjoin names [] h
  rw [joined, show ([] : Bytes) = toUtf8 [] from rfl, ht, fromUtf8_toUtf8]
  simp

theorem SafeNames.isSafeIndexPath {names : List Bytes} (h : SafeNames names) :
    isSafeIndexPath (joined names) = true := by
  have hcomponents : (joined names).splitOn slash = names := h.components
  rw [Puregit.isSafeIndexPath, hcomponents, Bool.and_eq_true, List.all_eq_true]
  refine ⟨?_, h.2⟩
  rw [Bool.not_eq_true', List.isEmpty_eq_false_iff]
  intro hnil
  rw [hnil] at hcomponents
  have hsingle : [([] : Bytes)] = names := hcomponents
  have hsafe := h.2 [] (by rw [← hsingle]; exact List.mem_singleton_self _)
  exact absurd hsafe (by decide)

/-- What a flattened tree has at a path is on the disk, below a directory. -/
structure Shows (repo : Repository) (flat : FlatMap) (dest : List Bytes) (disk : Disk)
    (path : Bytes) : Prop where
  safe : SafeNames (components path)
  joined : joined (components path) = path
  utf8 : fromUtf8 path ≠ none
  entry : ∀ mode id, flat.get? path = some (mode, id) → mode ≠ .tree ∧ id.algo = repo.algo ∧
    ∃ leaf, leafOf repo mode id = .ok leaf ∧ disk.get? (dest ++ components path) =
      some (placed leaf)

/-- **What a checkout leaves**: at each path of the flattened tree what the tree has there,
elsewhere the files and links that were there. -/
theorem checkoutTree_leaves {tree : ObjectId} {flat : FlatMap} {depth' : Nat}
    (hplain : Disk.Plain dest) (hdir : disk.get? dest = some .dir)
    (h : checkoutTree repo depth tree dest disk = some (.ok (), disk'))
    (hflat : (flattenTree depth' repo.odb tree).run = some (.ok flat)) :
    (∀ path, (flat.get? path).isSome = true → Shows repo flat dest disk' path) ∧
      ∀ q, (∀ path, (flat.get? path).isSome = true → q ≠ dest ++ components path) →
        disk'.leaf? q = disk.leaf? q := by
  have hleads := Disk.leads_of_dir hplain hdir
  obtain ⟨below, t, l, above, p, rfl, hread, hplan, hcreate, hled, hfilled, -⟩ :=
    checkoutTree_filled h
  cases (Disk.createDirAll_of_dir hleads).symm.trans hcreate
  obtain rfl := hleads.unique hled
  obtain ⟨_, t', l', rfl, hread', hplan', hout⟩ := flattenInto_plan hflat
  cases hread.symm.trans hread'
  obtain rfl := hplan.unique hplan'
  have hnames := hplan.names (P := fun n => isSafePathComponent n = true ∧
      fromUtf8 n ≠ none) fun x hx =>
    ⟨(hfilled.writable x hx).safe, (hfilled.writable x hx).utf8⟩
  have hsafe : ∀ x ∈ l, SafeNames x.1 := fun x hx =>
    ⟨hplan.ne_nil x hx, fun n hn => (hnames x hx n hn).1⟩
  have hfrom : ∀ {path v}, flat.get? path = some v →
      ∃ x ∈ l, x.2.mode ≠ .tree ∧ joined x.1 = path ∧ v = (x.2.mode, x.2.id) := by
    intro path v hv
    rw [hout] at hv
    rcases get?_flattened.1 v hv with hempty | hx
    · rw [BTreeMap.get?_empty] at hempty
      cases hempty
    · exact hx
  constructor
  · intro path hpath
    obtain ⟨v, hv⟩ := Option.isSome_iff_exists.mp hpath
    obtain ⟨x, hx, -, rfl, -⟩ := hfrom hv
    have hcomponents := (hsafe x hx).components
    refine ⟨by rw [hcomponents]; exact hsafe x hx, by rw [hcomponents],
      fromUtf8_joined fun n hn => (hnames x hx n hn).2, fun mode id hentry => ?_⟩
    obtain ⟨y, hy, hmode, -, hvalue⟩ := hfrom hentry
    obtain ⟨rfl, rfl⟩ := Prod.mk.inj hvalue
    obtain ⟨leaf, hleaf, -⟩ := (hfilled.writable y hy).content
    refine ⟨hmode, hplan.algo (algo_of_readObject hread) y hy, leaf, hleaf, ?_⟩
    rw [hcomponents, hfilled.get?]
    refine fill_flattened hsafe hfilled.writable hfilled.admits (fun names v leaf _ hempty =>
      ?_) x.1 _ leaf
      (hsafe x hx) (hout ▸ hentry) hleaf
    rw [BTreeMap.get?_empty] at hempty
    cases hempty
  · intro q hq
    refine Option.ext fun leaf => ?_
    rw [FileTree.leaf?_eq_some, FileTree.leaf?_eq_some, hfilled.get?]
    refine fill_other hfilled.admits fun x hx hmode => ?_
    have hkey : (flat.get? (joined x.1)).isSome = true := by
      rw [hout]
      exact get?_flattened.2 (Or.inr ⟨x, hx, hmode, rfl⟩)
    have hne := hq _ hkey
    rwa [(hsafe x hx).components] at hne

end

/-! ## A tree of a link -/

namespace SwitchSample

/-- A disk with a directory for the work tree. -/
def disk : Disk := (FileTree.makeDir FileTree.empty [bytes "w"]).getD FileTree.empty

def work : List Bytes := [bytes "w"]

def target : ObjectId := hashObject Hasher.sha .sha1 .blob (bytes "target")

/-- A tree of a link. -/
def links : Tree := ⟨[⟨.symlink, bytes "link", target⟩]⟩

def tree : ObjectId := hashObject Hasher.sha .sha1 .tree links.serialize

def store : Exec Repository Error ObjectId := do
  let _ ← Repository.onOdb (put .blob (bytes "target"))
  Repository.onOdb (put .tree links.serialize)

/-- A new repository with the tree in its store. -/
def repo : Repository :=
  ((store (.init .stored .sha .sha1)).map (·.2)).getD (.init .stored .sha .sha1)

theorem plain_work : Disk.Plain work := by
  intro n hn
  rw [List.mem_singleton.mp hn]
  exact ⟨by decide, by decide, by decide⟩

theorem get?_work : disk.get? work = some .dir := by
  decide

/-- How the tree is written and flattened. -/
theorem links_end : (checkoutTree repo 1 tree work disk).map (fun r => r.1.toBool) = some true ∧
    (flattenTree 1 repo.odb tree).run.map (fun r => r.map (·.toList)) =
      some (.ok [(bytes "link", .symlink, target)]) := by
  decide +kernel

theorem links_confined : ∃ disk', checkoutTree repo 1 tree work disk = some (.ok (), disk') ∧
    Confined work disk disk' := by
  obtain ⟨⟨r, disk'⟩, hrun, hr⟩ := Option.map_eq_some_iff.mp links_end.1
  obtain ⟨⟨⟩, rfl⟩ := exists_ok hr
  exact ⟨disk', hrun, checkoutTree_confined plain_work get?_work hrun⟩

theorem links_leaves : ∃ flat disk', flat.toList = [(bytes "link", .symlink, target)] ∧
    (∀ path, (flat.get? path).isSome = true → Shows repo flat work disk' path) ∧
      ∀ q, (∀ path, (flat.get? path).isSome = true → q ≠ work ++ components path) →
        disk'.leaf? q = disk.leaf? q := by
  obtain ⟨⟨r, disk'⟩, hrun, hr⟩ := Option.map_eq_some_iff.mp links_end.1
  obtain ⟨⟨⟩, rfl⟩ := exists_ok hr
  obtain ⟨r, hflat, hresult⟩ := Option.map_eq_some_iff.mp links_end.2
  obtain ⟨flat, rfl, hlist⟩ := except_map_ok.mp hresult
  exact ⟨flat, disk', hlist, checkoutTree_leaves plain_work get?_work hrun hflat⟩

end SwitchSample

end Worktree
end Puregit
