import Puregit.Tree
import Puregit.Lib.PathSet

/-! # Building tree objects from a flat path list

`writeTreeFromEntries` sorts a list of path, mode and id and writes one tree object
per directory, children first.  `build` reads the sorted list from the front: an entry
without a slash is a leaf of this level, one with a slash opens the directory named
before it, which takes the entries that follow under the same directory.

Grouping is of consecutive entries, and nothing compares a leaf's name with a
directory's.  `writes_writeTreeFromEntries` says when this is enough: on a clash-free
list every tree written has distinct entry names.
-/
namespace Puregit
open PathSet ObjectDatabase

/-- A flat entry: a path relative to the tree, a mode and an id. -/
structure FlatEntry where
  path : Bytes
  mode : FileMode
  id : ObjectId
  deriving DecidableEq

/-- The entries at the front that lie under `dir`, with `dir/` stripped, and the rest. -/
def takeDir (dir : Bytes) : List FlatEntry → List FlatEntry × List FlatEntry
  | [] => ([], [])
  | e :: es =>
    match stripPrefix? (dir ++ [slash]) e.path with
    | none => ([], e :: es)
    | some p => ({ e with path := p } :: (takeDir dir es).1, (takeDir dir es).2)

/-- The bytes of all paths, an entry counting one more: what the recursion of `build`
descends on. -/
def pathBytes (es : List FlatEntry) : Nat := (es.map fun e => e.path.length + 1).sum

/-- Taking a directory splits the list in two, the first part under the directory. -/
theorem takeDir_spec (dir : Bytes) (es : List FlatEntry) :
    es = (takeDir dir es).1.map (fun e => { e with path := dir ++ slash :: e.path })
      ++ (takeDir dir es).2 := by
  induction es with
  | nil => rfl
  | cons e es ih =>
      rw [takeDir]
      cases hp : stripPrefix? (dir ++ [slash]) e.path with
      | none => rfl
      | some p =>
          have hpath : e.path = dir ++ slash :: p := by
            simpa using stripPrefix?_eq_some.mp hp
          simp only [List.map_cons, List.cons_append, ← hpath, ← ih]

theorem pathBytes_takeDir (dir : Bytes) (es : List FlatEntry) :
    pathBytes (takeDir dir es).1 + (takeDir dir es).1.length * (dir.length + 1)
      + pathBytes (takeDir dir es).2 = pathBytes es := by
  induction es with
  | nil => simp [takeDir, pathBytes]
  | cons e es ih =>
      rw [takeDir]
      cases hp : stripPrefix? (dir ++ [slash]) e.path with
      | none => simp [pathBytes]
      | some p =>
          have hlen : e.path.length = dir.length + 1 + p.length := by
            rw [stripPrefix?_eq_some.mp hp]
            simp only [List.length_append, List.length_singleton]
          simp only [pathBytes, List.map_cons, List.sum_cons, List.length_cons] at ih ⊢
          rw [Nat.add_one_mul]
          omega

variable {D : Type} [ObjectDatabase D]

/-- The entries of the tree of a sorted list, with the trees below it written. -/
def buildEntries : List FlatEntry → Exec D Error (List TreeEntry)
  | [] => pure []
  | e :: es =>
    match _h : splitOnce slash e.path with
    | none => do
        let rest ← buildEntries es
        pure (⟨e.mode, e.path, e.id⟩ :: rest)
    | some (dir, p) => do
        let sub ← buildEntries ({ e with path := p } :: (takeDir dir es).1)
        let subtree ← put .tree (Tree.serialize ⟨sub⟩)
        let rest ← buildEntries (takeDir dir es).2
        pure (⟨.tree, dir, subtree⟩ :: rest)
termination_by es => pathBytes es
decreasing_by
  · simp [pathBytes]
  all_goals
    have hlen : e.path.length = dir.length + 1 + p.length := by
      rw [(splitOnce_eq_some.mp _h).1, List.length_append, List.length_cons]
      omega
    have hsum := pathBytes_takeDir dir es
    simp only [pathBytes, List.map_cons, List.sum_cons] at hsum ⊢
    omega

theorem buildEntries_leaf {e : FlatEntry} {es : List FlatEntry}
    (h : splitOnce slash e.path = none) :
    buildEntries (D := D) (e :: es) =
      (buildEntries es >>= fun rest => pure (⟨e.mode, e.path, e.id⟩ :: rest)) := by
  rw [buildEntries]
  split
  · rfl
  · simp_all

theorem buildEntries_dir {e : FlatEntry} {es : List FlatEntry} {dir p : Bytes}
    (h : splitOnce slash e.path = some (dir, p)) :
    buildEntries (D := D) (e :: es) =
      (buildEntries ({ e with path := p } :: (takeDir dir es).1) >>= fun sub =>
        put .tree (Tree.serialize ⟨sub⟩) >>= fun subtree =>
        buildEntries (takeDir dir es).2 >>= fun rest =>
        pure (⟨.tree, dir, subtree⟩ :: rest)) := by
  rw [buildEntries]
  split
  · simp_all
  · rename_i dir' p' h'
    rw [h] at h'
    cases h'
    rfl

/-- Builds one tree and the trees below it. -/
def build (entries : List FlatEntry) : Exec D Error ObjectId := do
  let es ← buildEntries entries
  put .tree (Tree.serialize ⟨es⟩)

/-- Builds the nested trees of a flat entry list in any order. -/
def writeTreeFromEntries (entries : List FlatEntry) : Exec D Error ObjectId :=
  build (entries.insertionSort fun a b => a.path ≤ b.path)

/-! ## The names of the trees written -/

/-- The paths of an entry list. -/
def paths (es : List FlatEntry) : List Bytes := es.map FlatEntry.path

/-- What a written object has to be: when it is a tree, one with distinct names. -/
def GoodTree (ty : ObjectType) (payload : Bytes) : Prop :=
  ty = .tree → ∃ t : Tree, t.DistinctNames ∧ payload = t.serialize

/-- A list `build` is called with: sorted and clash-free. -/
structure Buildable (es : List FlatEntry) : Prop where
  sorted : (paths es).Pairwise (· ≤ ·)
  clashFree : ClashFree slash (paths es)

theorem Buildable.tail {e : FlatEntry} {es : List FlatEntry} (h : Buildable (e :: es)) :
    Buildable es :=
  ⟨h.sorted.of_cons, h.clashFree.sublist (List.sublist_cons_self _ _)⟩

/-- The part of a list under a directory, in terms of the part stripped of it. -/
theorem paths_takeDir (dir : Bytes) (es : List FlatEntry) :
    paths es = (paths (takeDir dir es).1).map ((dir ++ [slash]) ++ ·)
      ++ paths (takeDir dir es).2 := by
  conv => lhs; rw [takeDir_spec dir es]
  simp [paths, Function.comp_def]

theorem append_le_append_left_iff {d p q : Bytes} : d ++ p ≤ d ++ q ↔ p ≤ q := by
  induction d with
  | nil => rfl
  | cons a d ih => simp [cons_le_cons_iff, ih]

theorem Buildable.takeDir {es : List FlatEntry} (h : Buildable es) (dir : Bytes) :
    Buildable (takeDir dir es).1 ∧ Buildable (Puregit.takeDir dir es).2 := by
  obtain ⟨hs, hc⟩ := h
  rw [paths_takeDir dir es] at hs hc
  refine ⟨⟨?_, ?_⟩, ⟨?_, ?_⟩⟩
  · refine (List.pairwise_map.mp (List.pairwise_append.mp hs).1).imp fun h => ?_
    exact append_le_append_left_iff.mp h
  · exact (hc.sublist (List.sublist_append_left _ _)).of_map_append
  · exact (List.pairwise_append.mp hs).2.1
  · exact hc.sublist (List.sublist_append_right _ _)

/-- The name an entry contributes at the top level. -/
def topName (p : Bytes) : Bytes := (splitOnce slash p).elim p Prod.fst

theorem topName_eq {p n : Bytes} (h : topName p = n) : p = n ∨ Below slash n p := by
  unfold topName at h
  cases hs : splitOnce slash p with
  | none => rw [hs] at h; exact Or.inl h
  | some r =>
      rw [hs] at h
      obtain ⟨hp, -⟩ := splitOnce_eq_some.mp (show splitOnce slash p = some (r.1, r.2) from hs)
      exact Or.inr (below_iff.mpr ⟨r.2, by rw [← h]; exact hp⟩)

/-- After a directory has taken its entries, none under it is left. -/
theorem not_below_of_mem_takeDir {dir : Bytes} {e : FlatEntry} {es : List FlatEntry}
    (hs : (paths (e :: es)).Pairwise (· ≤ ·)) (he : Below slash dir e.path) :
    ∀ q ∈ paths (takeDir dir es).2, ¬ Below slash dir q := by
  induction es with
  | nil => simp [takeDir, paths]
  | cons f es ih =>
      rw [takeDir]
      cases hf : stripPrefix? (dir ++ [slash]) f.path with
      | some p =>
          refine ih ?_
          obtain ⟨h₁, h₂⟩ := List.pairwise_cons.mp hs
          exact List.pairwise_cons.mpr
            ⟨fun q hq => h₁ q (List.mem_cons_of_mem _ hq), h₂.of_cons⟩
      | none =>
          intro q hq hb
          obtain ⟨h₁, h₂⟩ := List.pairwise_cons.mp hs
          -- `f` lies between two entries of the directory, so it is in it as well
          have hfq : f.path ≤ q := by
            rcases List.mem_cons.mp hq with rfl | hq
            · exact le_refl _
            · exact (List.pairwise_cons.mp h₂).1 q hq
          obtain ⟨p, hp⟩ := prefix_of_between he hb (h₁ _ (List.mem_cons_self ..)) hfq
          rw [stripPrefix?_eq_some.mpr hp.symm] at hf
          cases hf

/-- The names at the top level are those of the entries, each at most once. -/
theorem buildEntries_names {es : List FlatEntry} {s s' : D} {ts : List TreeEntry}
    (h : buildEntries es s = some (.ok ts, s')) (hb : Buildable es) :
    (ts.map TreeEntry.name).Nodup ∧ ∀ n ∈ ts.map TreeEntry.name, ∃ p ∈ paths es, topName p = n := by
  induction es using buildEntries.induct generalizing s ts s' with
  | case1 =>
      rw [buildEntries] at h
      cases h
      simp
  | case2 e es hsplit ih =>
      rw [buildEntries_leaf hsplit] at h
      obtain ⟨rest, s₁, hrest, hpure⟩ := Exec.bind_ok.mp h
      cases hpure
      obtain ⟨hnd, hmem⟩ := ih hrest hb.tail
      have htop : topName e.path = e.path := by rw [topName, hsplit]; rfl
      refine ⟨List.nodup_cons.mpr ⟨fun hin => ?_, hnd⟩, fun n hn => ?_⟩
      · -- a later entry of this top name is this path again, or lies below it
        obtain ⟨p, hp, hpn⟩ := hmem _ hin
        obtain ⟨hne, hbelow, -⟩ := (clashFree_cons.mp hb.clashFree).1 p hp
        exact (topName_eq hpn).elim hne hbelow
      · rcases List.mem_cons.mp hn with rfl | hn
        · exact ⟨e.path, List.mem_cons_self .., htop⟩
        · obtain ⟨p, hp, hpn⟩ := hmem n hn
          exact ⟨p, List.mem_cons_of_mem _ hp, hpn⟩
  | case3 e es dir p hsplit ih₁ ih₂ =>
      rw [buildEntries_dir hsplit] at h
      obtain ⟨sub, s₁, -, h⟩ := Exec.bind_ok.mp h
      obtain ⟨subtree, s₂, -, h⟩ := Exec.bind_ok.mp h
      obtain ⟨rest, s₃, hrest, hpure⟩ := Exec.bind_ok.mp h
      cases hpure
      have hbelow : Below slash dir e.path := below_iff.mpr ⟨p, (splitOnce_eq_some.mp hsplit).1⟩
      have hsub : ∀ q ∈ paths (takeDir dir es).2, q ∈ paths es := fun q hq => by
        rw [paths_takeDir dir es]
        exact List.mem_append_right _ hq
      obtain ⟨hnd, hmem⟩ := ih₂ hrest (hb.tail.takeDir dir).2
      refine ⟨List.nodup_cons.mpr ⟨fun hin => ?_, hnd⟩, fun n hn => ?_⟩
      · obtain ⟨q, hq, hqn⟩ := hmem _ hin
        rcases topName_eq hqn with rfl | hq'
        · exact ((clashFree_cons.mp hb.clashFree).1 q (hsub q hq)).2.2 hbelow
        · exact not_below_of_mem_takeDir hb.sorted hbelow q hq hq'
      · rcases List.mem_cons.mp hn with rfl | hn
        · exact ⟨e.path, List.mem_cons_self .., by rw [topName, hsplit]; rfl⟩
        · obtain ⟨q, hq, hqn⟩ := hmem n hn
          exact ⟨q, List.mem_cons_of_mem _ (hsub q hq), hqn⟩

/-- The entries that go into a directory's own tree. -/
theorem Buildable.sub {e : FlatEntry} {es : List FlatEntry} {dir p : Bytes}
    (h : Buildable (e :: es)) (hsplit : splitOnce slash e.path = some (dir, p)) :
    Buildable ({ e with path := p } :: (Puregit.takeDir dir es).1) := by
  have hstrip : stripPrefix? (dir ++ [slash]) e.path = some p := by
    rw [stripPrefix?_eq_some, (splitOnce_eq_some.mp hsplit).1]
    simp
  have := (h.takeDir dir).1
  rwa [Puregit.takeDir, hstrip] at this

theorem keeps_buildEntries {es : List FlatEntry} (hb : Buildable es) :
    Exec.Keeps (Writes (D := D) GoodTree) (buildEntries es) := by
  induction es using buildEntries.induct with
  | case1 =>
      rw [buildEntries]
      exact Exec.Keeps.pure _
  | case2 e es hsplit ih =>
      rw [buildEntries_leaf hsplit]
      exact (ih hb.tail).bind fun _ => Exec.Keeps.pure _
  | case3 e es dir p hsplit ih₁ ih₂ =>
      rw [buildEntries_dir hsplit]
      refine (ih₁ (hb.sub hsplit)).bind_of_ok fun s sub s₁ hsub => ?_
      refine Exec.Keeps.bind (keeps_put fun _ => ?_) fun _ => ?_
      · exact ⟨⟨sub⟩, (buildEntries_names hsub (hb.sub hsplit)).1, rfl⟩
      · exact (ih₂ (hb.tail.takeDir dir).2).bind fun _ => Exec.Keeps.pure _

/-- What every write of a tree keeps, building trees keeps. -/
theorem keeps_writeTree_of_put {R : D → D → Prop} [Std.Refl R] [IsTrans D R]
    (hput : ∀ payload, Exec.Keeps R (put .tree payload)) (es : List FlatEntry) :
    Exec.Keeps R (writeTreeFromEntries es) := by
  have hbuild : ∀ es : List FlatEntry, Exec.Keeps R (buildEntries es) := by
    intro es
    induction es using buildEntries.induct with
    | case1 =>
        rw [buildEntries]
        exact Exec.Keeps.pure _
    | case2 e es hsplit ih =>
        rw [buildEntries_leaf hsplit]
        exact ih.bind fun _ => Exec.Keeps.pure _
    | case3 e es dir p hsplit ih₁ ih₂ =>
        rw [buildEntries_dir hsplit]
        exact ih₁.bind fun _ => (hput _).bind fun _ => ih₂.bind fun _ => Exec.Keeps.pure _
  exact (hbuild _).bind fun _ => hput _

theorem keeps_build {es : List FlatEntry} (hb : Buildable es) :
    Exec.Keeps (Writes (D := D) GoodTree) (build es) :=
  (keeps_buildEntries hb).bind_of_ok fun _ ts _ hts =>
    keeps_put fun _ => ⟨⟨ts⟩, (buildEntries_names hts hb).1, rfl⟩

theorem buildable_insertionSort {es : List FlatEntry} (h : ClashFree slash (paths es)) :
    Buildable (es.insertionSort fun a b => a.path ≤ b.path) := by
  have hperm := (List.perm_insertionSort (fun a b : FlatEntry => a.path ≤ b.path) es).map
    FlatEntry.path
  refine ⟨?_, hperm.nodup_iff.mpr h.1, fun p hp q hq => ?_⟩
  · refine List.pairwise_map.mpr ?_
    have : Std.Total fun a b : FlatEntry => a.path ≤ b.path := ⟨fun a b => le_total a.path b.path⟩
    have : IsTrans FlatEntry fun a b => a.path ≤ b.path := ⟨fun a b c => le_trans⟩
    exact List.pairwise_insertionSort _ es
  · exact h.2 p (hperm.mem_iff.mp hp) q (hperm.mem_iff.mp hq)

/-- **On a clash-free list every tree written has distinct entry names.** -/
theorem writes_writeTreeFromEntries {es : List FlatEntry} (h : ClashFree slash (paths es)) :
    Exec.Keeps (Writes (D := D) GoodTree) (writeTreeFromEntries es) :=
  keeps_build (buildable_insertionSort h)

end Puregit
