import Puregit.Flatten
import Puregit.Object.Canonical
import Puregit.Odb.Growth
import Puregit.TreeBuilder

/-! # Flattening what was built

`plan` is what the builder does without the database: the entries of a directory's own
tree and the payloads of the trees below it, given how payloads are named.  Over a
database that stores what is written, building a list performs its plan,
`buildEntries_eq`, and flattening the root finds the list again, entry by entry.
-/
namespace Puregit
open PathSet ObjectDatabase

/-! ## Trees that are written -/

section
variable {D : Type} [ObjectDatabase D]

/-- The database after trees were written. -/
def writeTrees (s : D) (payloads : List Bytes) : D :=
  payloads.foldl (fun s p => (write s .tree p).2) s

theorem writeTrees_append (s : D) (ps qs : List Bytes) :
    writeTrees s (ps ++ qs) = writeTrees (writeTrees s ps) qs :=
  List.foldl_append

theorem writes_writeTrees {good : ObjectType → Bytes → Prop} {s : D} {payloads : List Bytes}
    (h : ∀ p ∈ payloads, good .tree p) : Writes good s (writeTrees s payloads) := by
  induction payloads generalizing s with
  | nil => exact Relation.ReflTransGen.refl
  | cons p payloads ih =>
      refine Relation.ReflTransGen.head ⟨.tree, p, h p List.mem_cons_self, rfl⟩ ?_
      exact ih fun q hq => h q (List.mem_cons_of_mem p hq)

/-- No two of the trees share an id, nor does one with another object of the database. -/
structure NoCollision (name : Bytes → ObjectId) (s : D) (payloads : List Bytes) : Prop where
  distinct : ∀ p ∈ payloads, ∀ q ∈ payloads, name p = name q → p = q
  fresh : ∀ p ∈ payloads, ∀ r, read s (name p) = .ok r → r = (.tree, p)

variable {hasher : Hasher} {hashAlgo : HashAlgo} {Held : D → Prop}
  {Fits : ObjectType → Bytes → Prop}
  (store : ContentStore hasher hashAlgo Held Fits) {s : D} {p : Bytes} {payloads : List Bytes}
include store

theorem held_writeTrees (hheld : Held s) (hfits : ∀ p ∈ payloads, Fits .tree p) :
    Held (writeTrees s payloads) := by
  induction payloads generalizing s with
  | nil => exact hheld
  | cons p payloads ih =>
      obtain ⟨hp, hpayloads⟩ := List.forall_mem_cons.mp hfits
      exact ih (store.held_write hheld hp) hpayloads

theorem read_writeTrees_kept {id : ObjectId} {r : ObjectType × Bytes} (hheld : Held s)
    (hfits : ∀ p ∈ payloads, Fits .tree p) (h : read s id = .ok r) :
    read (writeTrees s payloads) id = .ok r := by
  induction payloads generalizing s with
  | nil => exact h
  | cons p payloads ih =>
      obtain ⟨hp, hpayloads⟩ := List.forall_mem_cons.mp hfits
      exact ih (store.held_write hheld hp) hpayloads (store.read_write hheld hp h)

/-- Writing the first of the trees brings no collision. -/
theorem NoCollision.write (hheld : Held s) (hfits : Fits .tree p)
    (h : NoCollision (hashObject hasher hashAlgo .tree) s (p :: payloads)) :
    read (write s .tree p).2 (hashObject hasher hashAlgo .tree p) = .ok (.tree, p) ∧
      NoCollision (hashObject hasher hashAlgo .tree) (ObjectDatabase.write s .tree p).2
        payloads := by
  obtain ⟨-, r, hr⟩ := store.written hheld hfits (store.write_eq hheld hfits)
  have hp : r = (.tree, p) := by
    rcases store.added hheld hfits hr with hold | ⟨-, hnew⟩
    · exact h.fresh p List.mem_cons_self r hold
    · exact hnew
  subst hp
  refine ⟨hr, fun q hq q' hq' => ?_, fun q hq r' hr' => ?_⟩
  · exact h.distinct q (List.mem_cons_of_mem p hq) q' (List.mem_cons_of_mem p hq')
  · rcases store.added hheld hfits hr' with hold | ⟨hid, rfl⟩
    · exact h.fresh q (List.mem_cons_of_mem p hq) r' hold
    · rw [h.distinct q (List.mem_cons_of_mem p hq) p List.mem_cons_self hid]

/-- **Written trees are read back.** -/
theorem read_writeTrees (hheld : Held s) (hfits : ∀ p ∈ payloads, Fits .tree p)
    (h : NoCollision (hashObject hasher hashAlgo .tree) s payloads) :
    ∀ p ∈ payloads, read (writeTrees s payloads) (hashObject hasher hashAlgo .tree p) =
      .ok (.tree, p) := by
  induction payloads generalizing s with
  | nil => exact fun p hp => absurd hp List.not_mem_nil
  | cons q payloads ih =>
      obtain ⟨hfit, hpayloads⟩ := List.forall_mem_cons.mp hfits
      obtain ⟨hq, hrest⟩ := NoCollision.write store hheld hfit h
      have hwritten := store.held_write hheld hfit
      intro p hp
      show read (writeTrees (write s .tree q).2 payloads) _ = _
      rcases List.mem_cons.mp hp with rfl | hp
      · exact read_writeTrees_kept store hwritten hpayloads hq
      · exact ih hwritten hpayloads hrest p hp

end

/-! ## The plan of a list -/

/-- The entries of the tree of a sorted list, and the payloads of the trees below it in
the order they are written, trees being named by `name`. -/
def plan (name : Bytes → ObjectId) : List FlatEntry → List TreeEntry × List Bytes
  | [] => ([], [])
  | e :: es =>
    match _h : splitOnce slash e.path with
    | none =>
        let rest := plan name es
        (⟨e.mode, e.path, e.id⟩ :: rest.1, rest.2)
    | some (dir, p) =>
        let sub := plan name ({ e with path := p } :: (takeDir dir es).1)
        let payload := Tree.serialize ⟨sub.1⟩
        let rest := plan name (takeDir dir es).2
        (⟨.tree, dir, name payload⟩ :: rest.1, sub.2 ++ payload :: rest.2)
termination_by es => pathBytes es
decreasing_by
  · simp [pathBytes]
  all_goals
    have hlen : e.path.length = dir.length + 1 + p.length := by
      rw [(splitOnce_eq_some.mp _h).1, List.length_append, List.length_cons]
      omega
    have hsum := pathBytes_takeDir dir es
    simp only [pathBytes, List.map_cons, List.sum_cons] at hsum ⊢
    omega

theorem plan_leaf {name : Bytes → ObjectId} {e : FlatEntry} {es : List FlatEntry}
    (h : splitOnce slash e.path = none) :
    plan name (e :: es) = (⟨e.mode, e.path, e.id⟩ :: (plan name es).1, (plan name es).2) := by
  rw [plan]
  split
  · rfl
  · simp_all

theorem plan_dir {name : Bytes → ObjectId} {e : FlatEntry} {es : List FlatEntry} {dir p : Bytes}
    (h : splitOnce slash e.path = some (dir, p)) :
    plan name (e :: es) =
      let sub := plan name ({ e with path := p } :: (takeDir dir es).1)
      let rest := plan name (takeDir dir es).2
      (⟨.tree, dir, name (Tree.serialize ⟨sub.1⟩)⟩ :: rest.1,
        sub.2 ++ Tree.serialize ⟨sub.1⟩ :: rest.2) := by
  rw [plan]
  split
  · simp_all
  · rename_i dir' p' h'
    rw [h] at h'
    cases h'
    rfl

/-- The payloads of all trees written for a sorted list, the root's last. -/
def planned (name : Bytes → ObjectId) (es : List FlatEntry) : List Bytes :=
  (plan name es).2 ++ [Tree.serialize ⟨(plan name es).1⟩]

section
variable {D : Type} [ObjectDatabase D] {hasher : Hasher} {hashAlgo : HashAlgo} {Held : D → Prop}
  {Fits : ObjectType → Bytes → Prop} (store : ContentStore hasher hashAlgo Held Fits) {s : D}
include store

theorem put_eq {payload : Bytes} (hheld : Held s) (hfits : Fits .tree payload) :
    put .tree payload s = some (.ok (hashObject hasher hashAlgo .tree payload),
      writeTrees s [payload]) := by
  rw [put, Exec.step_apply]
  exact congrArg some (Prod.ext (store.write_eq hheld hfits) rfl)

/-- **Building a list performs its plan.** -/
theorem buildEntries_eq (es : List FlatEntry) (hheld : Held s)
    (hfits : ∀ p ∈ (plan (hashObject hasher hashAlgo .tree) es).2, Fits .tree p) :
    buildEntries es s = some (.ok (plan (hashObject hasher hashAlgo .tree) es).1,
      writeTrees s (plan (hashObject hasher hashAlgo .tree) es).2) := by
  induction es using buildEntries.induct generalizing s with
  | case1 =>
      rw [buildEntries, plan]
      rfl
  | case2 e es hsplit ih =>
      rw [plan_leaf hsplit] at hfits ⊢
      rw [buildEntries_leaf hsplit]
      exact Exec.bind_ok.mpr ⟨_, _, ih hheld hfits, rfl⟩
  | case3 e es dir p hsplit ih₁ ih₂ =>
      rw [plan_dir hsplit] at hfits ⊢
      obtain ⟨hsub, hrest⟩ := List.forall_mem_append.mp hfits
      obtain ⟨htree, hrest⟩ := List.forall_mem_cons.mp hrest
      have hbelow := held_writeTrees store hheld hsub
      have hhere : Held (writeTrees (writeTrees s _) [_]) :=
        held_writeTrees store hbelow (List.forall_mem_singleton.mpr htree)
      rw [buildEntries_dir hsplit]
      refine Exec.bind_ok.mpr ⟨_, _, ih₁ hheld hsub,
        Exec.bind_ok.mpr ⟨_, _, put_eq store hbelow htree,
        Exec.bind_ok.mpr ⟨_, _, ih₂ hhere hrest, ?_⟩⟩⟩
      rw [Exec.pure_apply]
      simp only [← writeTrees_append]
      rw [List.append_assoc, List.singleton_append]

/-- **What building a list writes, and the root it returns.** -/
theorem build_eq (es : List FlatEntry) (hheld : Held s)
    (hfits : ∀ p ∈ planned (hashObject hasher hashAlgo .tree) es, Fits .tree p) :
    build es s = some (.ok (hashObject hasher hashAlgo .tree
      (Tree.serialize ⟨(plan (hashObject hasher hashAlgo .tree) es).1⟩)),
      writeTrees s (planned (hashObject hasher hashAlgo .tree) es)) := by
  obtain ⟨hbelow, hroot⟩ := List.forall_mem_append.mp hfits
  refine Exec.bind_ok.mpr ⟨_, _, buildEntries_eq store es hheld hbelow, ?_⟩
  rw [put_eq store (held_writeTrees store hheld hbelow) (List.forall_mem_singleton.mp hroot),
    planned, writeTrees_append]

end

/-! ## The trees of a plan -/

/-- A path whose components are neither empty nor hold a NUL. -/
def GoodPath (p : Bytes) : Prop := ∀ c ∈ p.splitOn slash, c ≠ [] ∧ 0 ∉ c

/-- Files under good paths, of the repository's algorithm. -/
def GoodFiles (algo : HashAlgo) (es : List FlatEntry) : Prop :=
  ∀ e ∈ es, GoodPath e.path ∧ e.mode ≠ .tree ∧ e.id.algo = algo

theorem GoodPath.leaf {p : Bytes} (h : GoodPath p) (hsplit : splitOnce slash p = none) :
    Tree.isComponent p = true := by
  have hp := splitOnce_eq_none.mp hsplit
  obtain ⟨hne, hnul⟩ := h p (by rw [List.splitOn_eq_singleton hp]; exact List.mem_singleton_self p)
  exact Tree.isComponent_iff.mpr ⟨hne, hp, hnul⟩

theorem GoodPath.dir {path dir p : Bytes} (h : GoodPath path)
    (hsplit : splitOnce slash path = some (dir, p)) : Tree.isComponent dir = true ∧ GoodPath p := by
  obtain ⟨rfl, hdir⟩ := splitOnce_eq_some.mp hsplit
  unfold GoodPath at h
  rw [List.splitOn_append_cons_self_of_not_mem hdir] at h
  obtain ⟨hne, hnul⟩ := h dir List.mem_cons_self
  exact ⟨Tree.isComponent_iff.mpr ⟨hne, hdir, hnul⟩, fun c hc => h c (List.mem_cons_of_mem dir hc)⟩

theorem GoodFiles.tail {algo : HashAlgo} {e : FlatEntry} {es : List FlatEntry}
    (h : GoodFiles algo (e :: es)) : GoodFiles algo es :=
  fun e' he' => h e' (List.mem_cons_of_mem e he')

/-- What goes into a directory, and what is left. -/
theorem GoodFiles.takeDir {algo : HashAlgo} {dir : Bytes} (hdir : slash ∉ dir) {es : List FlatEntry}
    (h : GoodFiles algo es) :
    GoodFiles algo (takeDir dir es).1 ∧ GoodFiles algo (Puregit.takeDir dir es).2 := by
  unfold GoodFiles at h
  rw [takeDir_spec dir es] at h
  constructor
  · intro e he
    obtain ⟨hpath, hmode, hid⟩ := h _ (List.mem_append_left _ (List.mem_map_of_mem he))
    exact ⟨(hpath.dir (splitOnce_eq_some.mpr ⟨rfl, hdir⟩)).2, hmode, hid⟩
  · exact fun e he => h e (List.mem_append_right _ he)

theorem GoodFiles.sub {algo : HashAlgo} {e : FlatEntry} {es : List FlatEntry} {dir p : Bytes}
    (h : GoodFiles algo (e :: es)) (hsplit : splitOnce slash e.path = some (dir, p)) :
    GoodFiles algo ({ e with path := p } :: (Puregit.takeDir dir es).1) := by
  intro e' he'
  rcases List.mem_cons.mp he' with rfl | he'
  · obtain ⟨hpath, hrest⟩ := h e List.mem_cons_self
    exact ⟨(hpath.dir hsplit).2, hrest⟩
  · exact (h.tail.takeDir (splitOnce_eq_some.mp hsplit).2).1 e' he'

section
variable {algo : HashAlgo} {name : Bytes → ObjectId} (hname : ∀ p, (name p).algo = algo)
include hname

/-- The entries of a plan are of components and the repository's ids. -/
theorem plan_entries {es : List FlatEntry} (h : GoodFiles algo es) :
    ∀ t ∈ (plan name es).1, Tree.isComponent t.name = true ∧ t.id.algo = algo := by
  induction es using buildEntries.induct with
  | case1 =>
      rw [plan]
      exact fun t ht => absurd ht List.not_mem_nil
  | case2 e es hsplit ih =>
      rw [plan_leaf hsplit]
      intro t ht
      rcases List.mem_cons.mp ht with rfl | ht
      · obtain ⟨hpath, -, hid⟩ := h e List.mem_cons_self
        exact ⟨hpath.leaf hsplit, hid⟩
      · exact ih h.tail t ht
  | case3 e es dir p hsplit ih₁ ih₂ =>
      rw [plan_dir hsplit]
      intro t ht
      rcases List.mem_cons.mp ht with rfl | ht
      · exact ⟨((h e List.mem_cons_self).1.dir hsplit).1, hname _⟩
      · exact ih₂ (h.tail.takeDir (splitOnce_eq_some.mp hsplit).2).2 t ht

/-- The tree of a plan is read back with its entries in git's order. -/
theorem parse_plan {es : List FlatEntry} (h : GoodFiles algo es) :
    Tree.parse algo (Tree.serialize ⟨(plan name es).1⟩) =
      .ok ⟨(plan name es).1.insertionSort fun a b => effectiveName a ≤ effectiveName b⟩ :=
  Tree.parse_serialize_entries (plan_entries hname h)

end

/-- A payload that parses as a tree in git's order with distinct names. -/
def InOrder (algo : HashAlgo) (payload : Bytes) : Prop :=
  ∃ t, Tree.parse algo payload = .ok t ∧
    t.entries.Pairwise (fun a b => effectiveName a ≤ effectiveName b) ∧ t.DistinctNames

section
variable {hasher : Hasher} {hashAlgo : HashAlgo} {es : List FlatEntry}

theorem inOrder_root (hb : Buildable es) (h : GoodFiles hashAlgo es) :
    InOrder hashAlgo (Tree.serialize ⟨(plan (hashObject hasher hashAlgo .tree) es).1⟩) := by
  have hname : ∀ p, (hashObject hasher hashAlgo .tree p).algo = hashAlgo := fun _ => rfl
  refine ⟨_, parse_plan hname h, List.pairwise_insertionSort _ _, ?_⟩
  -- an empty store in memory builds the plan
  have hbuilt := @buildEntries_eq _ _ _ _ _ _ (MemoryOdb.contentStore hasher hashAlgo)
    (MemoryOdb.new hasher hashAlgo) es ⟨rfl, rfl⟩ fun _ _ => trivial
  exact ((List.perm_insertionSort _ _).map TreeEntry.name).nodup_iff.mpr
    (buildEntries_names hbuilt hb).1

/-- **Every tree of a plan is in order.** -/
theorem inOrder_planned (hb : Buildable es) (h : GoodFiles hashAlgo es) :
    ∀ payload ∈ planned (hashObject hasher hashAlgo .tree) es, InOrder hashAlgo payload := by
  have hbelow : ∀ payload ∈ (plan (hashObject hasher hashAlgo .tree) es).2,
      InOrder hashAlgo payload := by
    induction es using buildEntries.induct with
    | case1 =>
        rw [plan]
        exact fun payload hp => absurd hp List.not_mem_nil
    | case2 e es hsplit ih =>
        rw [plan_leaf hsplit]
        exact ih hb.tail h.tail
    | case3 e es dir p hsplit ih₁ ih₂ =>
        have hdir := (splitOnce_eq_some.mp hsplit).2
        rw [plan_dir hsplit]
        intro payload hp
        rcases List.mem_append.mp hp with hp | hp
        · exact ih₁ (hb.sub hsplit) (h.sub hsplit) payload hp
        rcases List.mem_cons.mp hp with rfl | hp
        · exact inOrder_root (hb.sub hsplit) (h.sub hsplit)
        · exact ih₂ (hb.tail.takeDir dir).2 (h.tail.takeDir hdir).2 payload hp
  intro payload hp
  rcases List.mem_append.mp hp with hp | hp
  · exact hbelow payload hp
  · rw [List.mem_singleton.mp hp]
    exact inOrder_root hb h

end

/-! ## Flattening -/

theorem joinPath_injective {dir p q : Bytes} (h : joinPath dir p = joinPath dir q) : p = q := by
  unfold joinPath at h
  split at h
  · exact h
  · exact (List.cons.inj (List.append_cancel_left h)).2

theorem joinPath_joinPath {dir d p : Bytes} (hd : d ≠ []) :
    joinPath (joinPath dir d) p = joinPath dir (d ++ slash :: p) := by
  unfold joinPath
  by_cases hdir : dir.isEmpty = true
  · rw [if_pos hdir, if_pos hdir, if_neg (by simpa using hd)]
  · rw [if_neg hdir, if_neg hdir, if_neg (by simp)]
    simp

/-- The map was changed to hold the files at `dir`, and nowhere else. -/
structure Updates (dir : Bytes) (out out' : FlatMap) (es : List FlatEntry) : Prop where
  held : ∀ e ∈ es, out'.get? (joinPath dir e.path) = some (e.mode, e.id)
  other : ∀ q, (∀ e ∈ es, joinPath dir e.path ≠ q) → out'.get? q = out.get? q

theorem Updates.perm {dir : Bytes} {out out' : FlatMap} {es es' : List FlatEntry}
    (h : Updates dir out out' es) (hperm : es.Perm es') : Updates dir out out' es' :=
  ⟨fun e he => h.held e (hperm.mem_iff.mpr he),
    fun q hq => h.other q fun e he => hq e (hperm.mem_iff.mp he)⟩

/-- Files at different paths are added one after the other. -/
theorem Updates.append {dir : Bytes} {out out₁ out₂ : FlatMap} {es₁ es₂ : List FlatEntry}
    (h₁ : Updates dir out out₁ es₁) (h₂ : Updates dir out₁ out₂ es₂)
    (hnd : (paths (es₁ ++ es₂)).Nodup) : Updates dir out out₂ (es₁ ++ es₂) := by
  constructor
  · intro e he
    rcases List.mem_append.mp he with he | he
    · rw [h₂.other _ fun e' he' heq => ?_]
      · exact h₁.held e he
      · unfold paths at hnd
        rw [List.map_append] at hnd
        exact (List.nodup_append'.mp hnd).2.2 (List.mem_map_of_mem he)
          (by rw [← joinPath_injective heq]; exact List.mem_map_of_mem he')
    · exact h₂.held e he
  · intro q hq
    rw [h₂.other q fun e he => hq e (List.mem_append_right _ he),
      h₁.other q fun e he => hq e (List.mem_append_left _ he)]

/-- Files of a subdirectory are files of the directory. -/
theorem Updates.subdir {dir d : Bytes} {out out' : FlatMap} {es : List FlatEntry} (hd : d ≠ [])
    (h : Updates (joinPath dir d) out out' es) :
    Updates dir out out' (es.map fun e => { e with path := d ++ slash :: e.path }) := by
  constructor
  · intro e he
    obtain ⟨e', he', rfl⟩ := List.mem_map.mp he
    rw [← joinPath_joinPath hd]
    exact h.held e' he'
  · intro q hq
    refine h.other q fun e he => ?_
    rw [joinPath_joinPath hd]
    exact hq _ (List.mem_map_of_mem he)

section
variable {D : Type} [ObjectDatabase D] {odb : D}

/-- What `flattenInto` does with one entry of a tree. -/
def flattenEntry (odb : D) (depth : Nat) (dir : Bytes) (out : FlatMap) (t : TreeEntry) :
    Eval Error FlatMap :=
  if t.mode = .tree then flattenInto odb depth t.id (joinPath dir t.name) out
  else pure (out.insert (joinPath dir t.name) (t.mode, t.id))

theorem run_bind_ok {α β : Type} {x : Eval Error α} {f : α → Eval Error β} {a : α}
    (h : x.run = some (.ok a)) : (x >>= f).run = (f a).run := by
  rw [ExceptT.run_bind, h]
  rfl

theorem flattenInto_eq {id : ObjectId} {payload : Bytes} {tree : Tree}
    (hread : read odb id = .ok (.tree, payload)) (hparse : Tree.parse (algo odb) payload = .ok tree)
    (depth : Nat) (dir : Bytes) (out : FlatMap) :
    (flattenInto odb (depth + 1) id dir out).run =
      (tree.entries.foldlM (flattenEntry odb depth dir) out).run := by
  have htyped : (evalExcept (readTyped odb id .tree)).run = some (.ok payload) := by
    rw [readTyped_ok.mpr hread]
    rfl
  have htree : (evalExcept (Tree.parse (algo odb) payload)).run = some (.ok tree) := by
    rw [hparse]
    rfl
  rw [flattenInto, run_bind_ok htyped, run_bind_ok htree]
  rfl

/-- With enough stack, flattening the entry adds the files. -/
def Flattens (odb : D) (t : TreeEntry) (es : List FlatEntry) : Prop :=
  ∃ least, ∀ depth, least ≤ depth → ∀ dir out,
    ∃ out', (flattenEntry odb depth dir out t).run = some (.ok out') ∧ Updates dir out out' es

theorem foldlM_flattens {gs : List (TreeEntry × List FlatEntry)}
    (h : ∀ g ∈ gs, Flattens odb g.1 g.2) (hnd : (paths (gs.flatMap Prod.snd)).Nodup) :
    ∃ least, ∀ depth, least ≤ depth → ∀ dir out, ∃ out',
      ((gs.map Prod.fst).foldlM (flattenEntry odb depth dir) out).run = some (.ok out') ∧
        Updates dir out out' (gs.flatMap Prod.snd) := by
  induction gs with
  | nil => exact ⟨0, fun _ _ _ out => ⟨out, rfl, nofun, fun _ _ => rfl⟩⟩
  | cons g gs ih =>
      rw [List.flatMap_cons] at hnd ⊢
      have hnd' : (paths (gs.flatMap Prod.snd)).Nodup := by
        unfold paths at hnd ⊢
        rw [List.map_append] at hnd
        exact (List.nodup_append'.mp hnd).2.1
      obtain ⟨least₁, hleast₁⟩ := h g List.mem_cons_self
      obtain ⟨least₂, hleast₂⟩ := ih (fun g' hg' => h g' (List.mem_cons_of_mem g hg')) hnd'
      refine ⟨max least₁ least₂, fun depth hdepth dir out => ?_⟩
      obtain ⟨out₁, hrun₁, hupd₁⟩ := hleast₁ depth (by omega) dir out
      obtain ⟨out₂, hrun₂, hupd₂⟩ := hleast₂ depth (by omega) dir out₁
      refine ⟨out₂, ?_, hupd₁.append hupd₂ hnd⟩
      rw [List.map_cons, List.foldlM_cons, run_bind_ok hrun₁, hrun₂]

/-- The entries of a plan, each with the files it is for: every file is for one. -/
def Grouped (odb : D) (ts : List TreeEntry) (es : List FlatEntry) : Prop :=
  ∃ gs : List (TreeEntry × List FlatEntry), gs.map Prod.fst = ts ∧ gs.flatMap Prod.snd = es ∧
    ∀ g ∈ gs, Flattens odb g.1 g.2

/-- A tree whose entries flatten to groups of the files flattens to the files. -/
theorem flattenInto_grouped {id : ObjectId} {ts : List TreeEntry} {es : List FlatEntry}
    (hread : read odb id = .ok (.tree, Tree.serialize ⟨ts⟩))
    (hparse : Tree.parse (algo odb) (Tree.serialize ⟨ts⟩) =
      .ok ⟨ts.insertionSort fun a b => effectiveName a ≤ effectiveName b⟩)
    (hgroups : Grouped odb ts es) (hnd : (paths es).Nodup) :
    ∃ least, ∀ depth, least ≤ depth → ∀ dir out, ∃ out',
      (flattenInto odb depth id dir out).run = some (.ok out') ∧ Updates dir out out' es := by
  obtain ⟨gs, hts, hes, hflat⟩ := hgroups
  -- the groups in the order the tree is read in
  have hperm := List.perm_insertionSort (fun a b : TreeEntry × List FlatEntry =>
    effectiveName a.1 ≤ effectiveName b.1) gs
  have hsorted := List.map_insertionSort (r := fun a b : TreeEntry × List FlatEntry =>
      effectiveName a.1 ≤ effectiveName b.1) (s := fun a b => effectiveName a ≤ effectiveName b)
    Prod.fst gs fun _ _ _ _ => Iff.rfl
  have hfiles : ((gs.insertionSort fun a b => effectiveName a.1 ≤ effectiveName b.1).flatMap
      Prod.snd).Perm es := by
    rw [← hes]
    exact hperm.flatMap_right _
  obtain ⟨least, hleast⟩ := foldlM_flattens (fun g hg => hflat g (hperm.mem_iff.mp hg))
    ((hfiles.map FlatEntry.path).nodup_iff.mpr hnd)
  refine ⟨least + 1, fun depth hdepth dir out => ?_⟩
  obtain ⟨depth, rfl⟩ : ∃ d, depth = d + 1 := ⟨depth - 1, by omega⟩
  obtain ⟨out', hrun, hupd⟩ := hleast depth (by omega) dir out
  refine ⟨out', ?_, hupd.perm hfiles⟩
  rw [flattenInto_eq hread hparse, ← hrun, hsorted, hts]

/-- **The entries of a plan flatten to the files it was made for.** -/
theorem grouped_plan {name : Bytes → ObjectId} (hname : ∀ p, (name p).algo = algo odb)
    {es : List FlatEntry} (h : GoodFiles (algo odb) es) (hnd : (paths es).Nodup)
    (hread : ∀ p ∈ (plan name es).2, read odb (name p) = .ok (.tree, p)) :
    Grouped odb (plan name es).1 es := by
  induction es using buildEntries.induct with
  | case1 =>
      rw [plan]
      exact ⟨[], rfl, rfl, fun g hg => absurd hg List.not_mem_nil⟩
  | case2 e es hsplit ih =>
      rw [plan_leaf hsplit] at hread ⊢
      obtain ⟨gs, hts, hes, hflat⟩ := ih h.tail (List.nodup_cons.mp hnd).2 hread
      refine ⟨(⟨e.mode, e.path, e.id⟩, [e]) :: gs, by rw [List.map_cons, hts],
        by rw [List.flatMap_cons, hes]; rfl, fun g hg => ?_⟩
      rcases List.mem_cons.mp hg with rfl | hg
      · refine ⟨0, fun depth _ dir out =>
          ⟨out.insert (joinPath dir e.path) (e.mode, e.id), ?_, ?_, ?_⟩⟩
        · rw [flattenEntry, if_neg (h e List.mem_cons_self).2.1]
          rfl
        · intro e' he'
          rw [List.mem_singleton.mp he', BTreeMap.get?_insert, if_pos rfl]
        · intro q hq
          rw [BTreeMap.get?_insert, if_neg fun heq => hq e (List.mem_singleton_self e) heq.symm]
      · exact hflat g hg
  | case3 e es dir p hsplit ih₁ ih₂ =>
      obtain ⟨hpath, hdir⟩ := splitOnce_eq_some.mp hsplit
      have hne : dir ≠ [] := (Tree.isComponent_iff.mp ((h e List.mem_cons_self).1.dir hsplit).1).1
      -- the files under the directory and the ones left over
      have hes : e :: es = ({ e with path := p } :: (takeDir dir es).1).map
          (fun e => { e with path := dir ++ slash :: e.path }) ++ (takeDir dir es).2 := by
        rw [List.map_cons, ← hpath, List.cons_append, ← takeDir_spec]
      have hnd' := hnd
      rw [hes] at hnd'
      unfold paths at hnd'
      rw [List.map_append, List.map_map] at hnd'
      obtain ⟨hndsub, hndrest, -⟩ := List.nodup_append'.mp hnd'
      have hndsub' : (paths ({ e with path := p } :: (takeDir dir es).1)).Nodup := by
        refine List.Nodup.of_map (dir ++ slash :: ·) ?_
        rw [paths, List.map_map]
        exact hndsub
      rw [plan_dir hsplit] at hread ⊢
      have hsub := ih₁ (h.sub hsplit) hndsub' fun q hq => hread q (List.mem_append_left _ hq)
      obtain ⟨gs, hts, hgs, hflat⟩ := ih₂ (h.tail.takeDir hdir).2 hndrest fun q hq =>
        hread q (List.mem_append_right _ (List.mem_cons_of_mem _ hq))
      obtain ⟨least, hleast⟩ := flattenInto_grouped
        (hread _ (List.mem_append_right _ List.mem_cons_self))
          (parse_plan hname (h.sub hsplit)) hsub
        hndsub'
      refine ⟨(_, ({ e with path := p } :: (takeDir dir es).1).map
          fun e => { e with path := dir ++ slash :: e.path }) :: gs, by rw [List.map_cons, hts],
        by rw [List.flatMap_cons, hgs, ← hes], fun g hg => ?_⟩
      rcases List.mem_cons.mp hg with rfl | hg
      · refine ⟨least, fun depth hdepth dir' out => ?_⟩
        obtain ⟨out', hrun, hupd⟩ := hleast depth hdepth (joinPath dir' dir) out
        exact ⟨out', by rw [flattenEntry, if_pos rfl, hrun], hupd.subdir hne⟩
      · exact hflat g hg

/-- The map of a list of files. -/
def flatMapOf (es : List FlatEntry) : FlatMap :=
  BTreeMap.ofList (es.map fun e => (e.path, (e.mode, e.id)))

theorem Updates.eq_ofList {es : List FlatEntry} {out : FlatMap}
    (h : Updates [] BTreeMap.empty out es) (hnd : (paths es).Nodup) : out = flatMapOf es := by
  have hkeys : ((es.map fun e => (e.path, (e.mode, e.id))).map Prod.fst).Nodup := by
    rw [List.map_map]
    exact hnd
  refine BTreeMap.ext_get? fun q => Option.ext fun v => ?_
  unfold flatMapOf
  rw [BTreeMap.get?_ofList hkeys]
  constructor
  · intro hq
    by_cases hin : ∃ e ∈ es, e.path = q
    · obtain ⟨e, he, rfl⟩ := hin
      rw [show e.path = joinPath [] e.path from rfl, h.held e he] at hq
      cases hq
      exact List.mem_map_of_mem he
    · rw [h.other q fun e he heq => hin ⟨e, he, heq⟩] at hq
      cases hq
  · intro hmem
    obtain ⟨e, he, heq⟩ := List.mem_map.mp hmem
    cases heq
    exact h.held e he

end

/-! ## Any order -/

/-- Files at different paths are sorted the same way in any order. -/
theorem insertionSort_perm {es es' : List FlatEntry} (hperm : es'.Perm es)
    (hnd : (paths es).Nodup) :
    es'.insertionSort (fun a b => a.path ≤ b.path) = es.insertionSort fun a b =>
      a.path ≤ b.path := by
  have hsorted : (es'.insertionSort fun a b => a.path ≤ b.path).Perm
      (es.insertionSort fun a b => a.path ≤ b.path) :=
    (List.perm_insertionSort _ es').trans (hperm.trans (List.perm_insertionSort _ es).symm)
  have hpair : ∀ l : List FlatEntry,
      (l.insertionSort fun a b => a.path ≤ b.path).Pairwise fun a b => a.path ≤ b.path := by
    have : Std.Total fun a b : FlatEntry => a.path ≤ b.path := ⟨fun a b => le_total a.path b.path⟩
    have : IsTrans FlatEntry fun a b => a.path ≤ b.path := ⟨fun a b c => le_trans⟩
    exact fun l => List.pairwise_insertionSort _ l
  refine hsorted.eq_of_pairwise (fun a b ha hb hab hba => ?_) (hpair es') (hpair es)
  have ha' := hperm.mem_iff.mp ((List.mem_insertionSort _).mp ha)
  have hb' := (List.mem_insertionSort _).mp hb
  exact List.inj_on_of_nodup_map hnd ha' hb' (le_antisymm hab hba)

/-- **Building a tree from files and flattening it gives the files back.**  Whatever the
order they are given in, the trees written are in git's order with distinct names and the
root is the same. -/
theorem writeTreeFromEntries_flatten {D : Type} [ObjectDatabase D] {hasher : Hasher}
    {hashAlgo : HashAlgo} {Held : D → Prop} {Fits : ObjectType → Bytes → Prop}
    (store : ContentStore hasher hashAlgo Held Fits) {es : List FlatEntry} {s : D}
    (hclash : ClashFree slash (paths es)) (hfiles : GoodFiles hashAlgo es)
    (hheld : Held s) (hfits : ∀ p ∈ planned (hashObject hasher hashAlgo .tree)
      (es.insertionSort fun a b => a.path ≤ b.path), Fits .tree p)
    (hcollision : NoCollision (hashObject hasher hashAlgo .tree) s
      (planned (hashObject hasher hashAlgo .tree) (es.insertionSort fun a b => a.path ≤ b.path))) :
    ∃ root s', writeTreeFromEntries es s = some (.ok root, s') ∧
      (∃ least, ∀ depth, least ≤ depth →
        (flattenTree depth s' root).run = some (.ok (flatMapOf es))) ∧
      Writes (fun ty payload => ty = .tree ∧ InOrder hashAlgo payload) s s' ∧
      ∀ es' : List FlatEntry, es'.Perm es → ∀ u : D, Held u →
        ∃ u', writeTreeFromEntries es' u = some (.ok root, u') := by
  have hb := buildable_insertionSort hclash
  have hperm := List.perm_insertionSort (fun a b : FlatEntry => a.path ≤ b.path) es
  have hsorted : GoodFiles hashAlgo (es.insertionSort fun a b => a.path ≤ b.path) :=
    fun e he => hfiles e (hperm.mem_iff.mp he)
  have hnd : (paths (es.insertionSort fun a b => a.path ≤ b.path)).Nodup := hb.clashFree.1
  have hread := read_writeTrees store hheld hfits hcollision
  have halgo := store.algo_eq (held_writeTrees store hheld hfits)
  refine ⟨_, _, build_eq store _ hheld hfits, ?_, ?_, ?_⟩
  · have hgroups := grouped_plan (fun p => halgo.symm) (by rw [halgo]; exact hsorted) hnd
      fun p hp => hread p (List.mem_append_left _ hp)
    obtain ⟨least, hleast⟩ := flattenInto_grouped
      (hread _ (List.mem_append_right _ (List.mem_singleton_self _)))
      (parse_plan (fun p => halgo.symm) (by rw [halgo]; exact hsorted)) hgroups hnd
    refine ⟨least, fun depth hdepth => ?_⟩
    obtain ⟨out, hrun, hupd⟩ := hleast depth hdepth [] BTreeMap.empty
    rw [flattenTree, hrun, (hupd.perm hperm).eq_ofList hclash.1]
  · exact writes_writeTrees fun payload hp => ⟨rfl, inOrder_planned hb hsorted payload hp⟩
  · intro es' hes' u hu
    rw [writeTreeFromEntries, insertionSort_perm hes' hclash.1, build_eq store _ hu hfits]
    exact ⟨_, rfl⟩

/-! ## A repository on disk -/

namespace FlattenSample

/-- A directory beside files whose names sort around it. -/
def files : List FlatEntry :=
  [⟨bytes "a0", .regular, .filled 1⟩,
    ⟨bytes "a/x", .executable, .filled 2⟩,
    ⟨bytes "a.b", .symlink, .filled 3⟩]

/-- The trees that are written for the files. -/
def trees : List Bytes :=
  planned (hashObject .sha .sha1 .tree) (files.insertionSort fun a b => a.path ≤ b.path)

/-- They are all the objects there are. -/
def object (id : ObjectId) : Option RawObject :=
  (trees.find? fun p => hashObject .sha .sha1 .tree p == id).map fun p => (.tree, p)

/-- They have different names, and can be written. -/
theorem trees_fit : (trees.map (hashObject .sha .sha1 .tree)).Nodup ∧
    (trees.all fun p => object (hashObject .sha .sha1 .tree p) == some (.tree, p) &&
      decide ((serializeLoose .tree p).length ≤ 2 ^ 30) &&
        (Zlib.stored.deflate (serializeLoose .tree p)).toBool) = true := by
  decide +kernel

/-- The store of a new repository. -/
def store : CombinedOdb := CombinedOdb.empty .stored .sha .sha1

theorem noCollision : NoCollision (hashObject .sha .sha1 .tree) store trees where
  distinct p hp q hq hname := List.inj_on_of_nodup_map trees_fit.1 hp hq hname
  fresh p hp r hr := by
    cases (CombinedOdb.empty_contains _).symm.trans (CombinedOdb.contains_of_read hr)

/-- On disk the files are found again. -/
theorem files_flatten : ∃ root s', writeTreeFromEntries files store = some (.ok root, s') ∧
    ∃ least, ∀ depth, least ≤ depth →
      (flattenTree depth s' root).run = some (.ok (flatMapOf files)) := by
  have hfits : ∀ p ∈ trees, CombinedOdb.Kept .sha .sha1 object .tree p ∧
      ∃ compressed, Zlib.stored.deflate (serializeLoose .tree p) = .ok compressed := by
    intro p hp
    have hfit := List.all_eq_true.mp trees_fit.2 p hp
    simp only [Bool.and_eq_true, beq_iff_eq, decide_eq_true_eq] at hfit
    refine ⟨⟨hfit.1.1, hfit.1.2⟩, ?_⟩
    cases hdeflate : Zlib.stored.deflate (serializeLoose .tree p) with
    | ok compressed => exact ⟨compressed, rfl⟩
    | error e =>
      rw [hdeflate] at hfit
      cases hfit.2
  obtain ⟨root, s', hrun, hflat, -⟩ := @writeTreeFromEntries_flatten _ _ _ _ _ _
    (CombinedOdb.contentStore Zlib.stored_exact Zlib.stored_capsOnly) files store
      (by decide)
    (by unfold GoodFiles GoodPath; decide) ⟨CombinedOdb.stocked_empty,
      CombinedOdb.room_empty⟩
    hfits noCollision
  exact ⟨root, s', hrun, hflat⟩

end FlattenSample
end Puregit
