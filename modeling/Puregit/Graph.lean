import Puregit.Walk

/-! # The object graph

The abstract view of an object store: a partial map from ids to objects.  `Refers` is
one step from an object to what it names.  What the walks compute over a database is
stated here over its graph: `mem_reachableObjectsExcluding` says that a closure is the
set of ids reached without entering the excluded ones.

A store is `Consistent` with a shallow boundary when every commit outside the boundary
has its parents in the store, and every commit its whole tree.
-/
namespace Puregit
open ObjectDatabase

/-- The ids an object names, submodules excepted. -/
def Object.children : Object → List ObjectId
  | .blob _ => []
  | .tree t => (t.entries.filter fun e => e.mode != .gitlink).map TreeEntry.id
  | .commit c => c.tree :: c.parents
  | .tag t => [t.object]

/-- A store of parsed objects. -/
abbrev ObjectGraph := ObjectId → Option Object

namespace ObjectGraph

/-- The store holds an object of this id. -/
def Holds (g : ObjectGraph) (id : ObjectId) : Prop := (g id).isSome = true

/-- The object `a` names `b`. -/
def Refers (g : ObjectGraph) (a b : ObjectId) : Prop := ∃ o, g a = some o ∧ b ∈ o.children

/-- The tree `a` has an entry for `b`. -/
def InTree (g : ObjectGraph) (a b : ObjectId) : Prop :=
  ∃ t, g a = some (.tree t) ∧ b ∈ (Object.tree t).children

/-- The commit `a` has the parent `b`. -/
def Parent (g : ObjectGraph) (a b : ObjectId) : Prop :=
  ∃ c, g a = some (.commit c) ∧ b ∈ c.parents

/-- `id` is a commit of the store. -/
def IsCommit (g : ObjectGraph) (id : ObjectId) : Prop := ∃ c, g id = some (.commit c)

/-- The object `a` names `b`, other than as a parent of a commit in `cut`. -/
def CutRefers (g : ObjectGraph) (cut : Set ObjectId) (a b : ObjectId) : Prop :=
  Refers g a b ∧ (a ∈ cut → ¬ IsCommit g a ∨ ∃ c, g a = some (.commit c) ∧ b = c.tree)

/-- A store a client can work with: every commit outside the boundary has its parents,
and every commit its whole tree. -/
structure Consistent (g : ObjectGraph) (boundary : Set ObjectId) : Prop where
  parents : ∀ a b, Parent g a b → a ∉ boundary → Holds g b
  trees : ∀ a c, g a = some (.commit c) → ∀ x, Relation.ReflTransGen (InTree g) c.tree x →
    Holds g x

/-- `t` is the tree of the commit `a`, or the tree `a` itself. -/
def TreeRoot (g : ObjectGraph) (a t : ObjectId) : Prop :=
  (∃ c, g a = some (.commit c) ∧ t = c.tree) ∨ (∃ tree, g a = some (.tree tree)) ∧ t = a

theorem InTree.refers {g : ObjectGraph} {a b : ObjectId} (h : InTree g a b) : Refers g a b := by
  obtain ⟨t, ht, hb⟩ := h
  exact ⟨_, ht, hb⟩

theorem Parent.refers {g : ObjectGraph} {a b : ObjectId} (h : Parent g a b) : Refers g a b := by
  obtain ⟨c, hc, hb⟩ := h
  exact ⟨_, hc, List.mem_cons_of_mem _ hb⟩

theorem refers_tree {g : ObjectGraph} {a : ObjectId} {c : Commit} (h : g a = some (.commit c)) :
    Refers g a c.tree := ⟨_, h, List.mem_cons_self ..⟩

theorem isCommit_of_eq {g : ObjectGraph} {a : ObjectId} {o : Object} (h : g a = some o)
    (hc : IsCommit g a) : ∃ c, o = .commit c := by
  obtain ⟨c, hc⟩ := hc
  rw [h] at hc
  cases hc
  exact ⟨c, rfl⟩

/-- A step inside a tree does not go past the boundary. -/
theorem cutRefers_of_inTree {g : ObjectGraph} {cut : Set ObjectId} {a b : ObjectId}
    (h : InTree g a b) : CutRefers g cut a b := by
  refine ⟨h.refers, fun _ => Or.inl fun hcommit => ?_⟩
  obtain ⟨t, ht, -⟩ := h
  obtain ⟨c, hcc⟩ := isCommit_of_eq ht hcommit
  cases hcc

theorem cutRefers_of_treeRoot {g : ObjectGraph} {cut : Set ObjectId} {a t : ObjectId}
    (h : TreeRoot g a t) : Relation.ReflTransGen (CutRefers g cut) a t := by
  rcases h with ⟨c, hc, rfl⟩ | ⟨-, rfl⟩
  · exact .single ⟨refers_tree hc, fun _ => Or.inr ⟨c, hc, rfl⟩⟩
  · exact .refl

end ObjectGraph

open ObjectGraph

variable {D : Type} [ObjectDatabase D]

/-- The objects a database can read and parse. -/
def graph (odb : D) : ObjectGraph := fun id => (readObject odb id).toOption

theorem toOption_eq_some {ε α : Type} {x : Except ε α} {a : α} :
    x.toOption = some a ↔ x = .ok a := by
  cases x <;> simp [Except.toOption]

theorem graph_eq_some {odb : D} {id : ObjectId} {o : Object} :
    graph odb id = some o ↔ ∃ ty payload, read odb id = .ok (ty, payload) ∧
      Object.parse (algo odb) ty payload = .ok o := by
  rw [graph, toOption_eq_some, readObject, except_bind_ok]
  constructor
  · rintro ⟨⟨ty, payload⟩, hr, hp⟩
    exact ⟨ty, payload, hr, hp⟩
  · rintro ⟨ty, payload, hr, hp⟩
    exact ⟨⟨ty, payload⟩, hr, hp⟩

/-- A database that holds everything its objects name: what it cannot read is absent,
what it reads parses, and an object's parts are there with the type they are used as. -/
structure Complete (odb : D) : Prop where
  absent : ∀ id e, read odb id = .error e → e.isNotFound = true
  parses : ∀ id ty payload, read odb id = .ok (ty, payload) →
    ∃ o, Object.parse (algo odb) ty payload = .ok o
  contains_iff : ∀ id, contains odb id = true ↔ ∃ r, read odb id = .ok r
  closed : ∀ a b, Refers (graph odb) a b → Holds (graph odb) b
  parents : ∀ a b, Parent (graph odb) a b → IsCommit (graph odb) b
  trees : ∀ a c, graph odb a = some (.commit c) → ∃ t, graph odb c.tree = some (.tree t)
  entries : ∀ a b, InTree (graph odb) a b →
    (∃ t, graph odb b = some (.tree t)) ∨ ∃ content, graph odb b = some (.blob content)

theorem Complete.contains_iff_holds {odb : D} (h : Complete odb) {id : ObjectId} :
    contains odb id = true ↔ Holds (graph odb) id := by
  rw [h.contains_iff, Holds, Option.isSome_iff_exists]
  constructor
  · rintro ⟨⟨ty, payload⟩, hr⟩
    obtain ⟨o, ho⟩ := h.parses id ty payload hr
    exact ⟨o, graph_eq_some.mpr ⟨ty, payload, hr, ho⟩⟩
  · rintro ⟨o, ho⟩
    obtain ⟨ty, payload, hr, -⟩ := graph_eq_some.mp ho
    exact ⟨_, hr⟩

/-- In a complete database what a tree refers to lies in the tree. -/
theorem Complete.inTree_of_refers {odb : D} (hc : Complete odb) {t x : ObjectId} {tree : Tree}
    (ht : graph odb t = some (.tree tree)) (hx : Relation.ReflTransGen (Refers (graph odb)) t x) :
    Relation.ReflTransGen (InTree (graph odb)) t x ∧
      ((∃ tree, graph odb x = some (.tree tree)) ∨ ∃ content,
        graph odb x = some (.blob content)) := by
  induction hx with
  | refl => exact ⟨.refl, Or.inl ⟨tree, ht⟩⟩
  | @tail a b _ hab ih =>
      obtain ⟨hpath, ⟨ta, ha⟩ | ⟨content, ha⟩⟩ := ih
      · obtain ⟨o, ho, hb⟩ := hab
        rw [ha] at ho
        cases ho
        have hin : InTree (graph odb) a b := ⟨ta, ha, hb⟩
        exact ⟨hpath.tail hin, hc.entries a b hin⟩
      · obtain ⟨o, ho, hb⟩ := hab
        rw [ha] at ho
        cases ho
        cases hb

theorem Complete.treeRoot_tree {odb : D} (hc : Complete odb) {a t : ObjectId}
    (h : TreeRoot (graph odb) a t) : ∃ tree, graph odb t = some (.tree tree) := by
  rcases h with ⟨c, hcc, rfl⟩ | ⟨ht, rfl⟩
  · exact hc.trees a c hcc
  · exact ht

theorem Complete.holds_path {odb : D} (hc : Complete odb) {a b : ObjectId}
    (ha : Holds (graph odb) a) (h : Relation.ReflTransGen (Refers (graph odb)) a b) :
    Holds (graph odb) b := by
  cases h with
  | refl => exact ha
  | tail _ he => exact hc.closed _ _ he

/-- The ids a payload refers to are those its object names. -/
theorem childIds_eq (algo : HashAlgo) (ty : ObjectType) (payload : Bytes) :
    childIds algo ty payload = (Object.parse algo ty payload).map Object.children := by
  cases ty with
  | blob => rfl
  | tree =>
      rw [childIds, Object.parse]
      cases Tree.parse algo payload <;> rfl
  | commit =>
      rw [childIds, Object.parse]
      cases Commit.parse algo payload <;> rfl
  | tag =>
      rw [childIds, Object.parse]
      cases Tag.parse algo payload <;> rfl

theorem readPresent_some {odb : D} {id : ObjectId} {r : ObjectType × Bytes} :
    readPresent odb id = .ok (some r) ↔ read odb id = .ok r := by
  rw [readPresent]
  cases read odb id with
  | ok r' => simp
  | error e => by_cases he : e.isNotFound <;> simp [he]

/-- One step of a walk is one step of the graph. -/
theorem mem_objectChildren {odb : D} {a b : ObjectId} :
    (∃ ks, objectChildren odb a = .ok ks ∧ b ∈ ks) ↔ Refers (graph odb) a b := by
  constructor
  · rintro ⟨ks, hks, hb⟩
    obtain ⟨r, hr, hks⟩ := except_bind_ok.mp hks
    cases r with
    | none => cases hks; cases hb
    | some r =>
        obtain ⟨ty, payload⟩ := r
        change childIds (algo odb) ty payload = .ok ks at hks
        rw [childIds_eq] at hks
        obtain ⟨o, ho, rfl⟩ := except_map_ok.mp hks
        exact ⟨o, graph_eq_some.mpr ⟨ty, payload, readPresent_some.mp hr, ho⟩, hb⟩
  · rintro ⟨o, ho, hb⟩
    obtain ⟨ty, payload, hr, hp⟩ := graph_eq_some.mp ho
    refine ⟨o.children, except_bind_ok.mpr ⟨some (ty, payload), readPresent_some.mpr hr, ?_⟩, hb⟩
    show childIds (algo odb) ty payload = .ok o.children
    rw [childIds_eq, hp]
    rfl

theorem readCommit_some {odb : D} {id : ObjectId} {c : Commit} :
    readCommit odb id = .ok (some c) ↔ graph odb id = some (.commit c) := by
  rw [graph_eq_some]
  constructor
  · intro h
    rw [readCommit] at h
    split at h
    · rename_i payload hp
      obtain ⟨c', hc, hcc⟩ := except_map_ok.mp h
      cases hcc
      refine ⟨.commit, payload, readTyped_ok.mp hp, ?_⟩
      rw [Object.parse, hc]
      rfl
    · cases h
    · cases h
    · cases h
  · rintro ⟨ty, payload, hr, hp⟩
    obtain rfl : ty = .commit := (Object.objectType_parse hp).symm
    obtain ⟨c', hc, hcc⟩ := except_map_ok.mp hp
    cases hcc
    rw [readCommit, readTyped_ok.mpr hr]
    simp only [hc, Except.map]

/-! ## Ancestry -/

theorem mem_freshParents {p : ObjectId} {ps : List ObjectId} {seen : BTreeSet ObjectId}
    (h : p ∈ freshParents seen ps) : p ∈ ps := by
  induction ps generalizing seen with
  | nil => cases h
  | cons q ps ih =>
      rw [freshParents] at h
      split at h
      · exact List.mem_cons_of_mem q (ih h)
      · rcases List.mem_cons.mp h with rfl | h
        · exact List.mem_cons_self
        · exact List.mem_cons_of_mem q (ih h)

/-! ## Closures -/

/-- How a closure that does not enter `exclude` expands an id. -/
def expandExcluding (odb : D) (exclude : BTreeSet ObjectId) (id : ObjectId) :
    Except Error (Option (List ObjectId)) :=
  if exclude.contains id then .ok none else (objectChildren odb id).map some

theorem expandExcluding_of_mem {odb : D} {exclude : BTreeSet ObjectId} {id : ObjectId}
    (h : id ∈ exclude) : expandExcluding odb exclude id = .ok none :=
  if_pos (BTreeSet.contains_iff_mem.mpr h)

theorem expandExcluding_of_not_mem {odb : D} {exclude : BTreeSet ObjectId} {id : ObjectId}
    (h : id ∉ exclude) : expandExcluding odb exclude id = (objectChildren odb id).map some :=
  if_neg fun hc => h (BTreeSet.contains_iff_mem.mp hc)

/-- An id is refused only because it is excluded. -/
theorem taken_expandExcluding {odb : D} {exclude : BTreeSet ObjectId} {id : ObjectId} :
    Worklist.Taken (expandExcluding odb exclude) id ↔ id ∉ exclude := by
  rw [Worklist.Taken]
  constructor
  · exact fun h hid => h (expandExcluding_of_mem hid)
  · intro hid h
    rw [expandExcluding_of_not_mem hid] at h
    obtain ⟨ks, -, hks⟩ := except_map_ok.mp h
    cases hks

theorem explores_collectVisit (odb : D) (exclude : BTreeSet ObjectId) :
    Worklist.Explores id (expandExcluding odb exclude)
      (collectVisit (objectChildren odb) exclude) where
  skip seen k h := by
    rw [collectVisit] at h
    split at h
    · rename_i hc
      rcases Bool.or_eq_true_iff.mp hc with he | hs
      · exact Or.inr (expandExcluding_of_mem he)
      · exact Or.inl hs
    · obtain ⟨cs, -, h⟩ := except_bind_ok.mp h
      cases h
  act seen k seen' ks h := by
    rw [collectVisit] at h
    split at h
    · cases h
    rename_i hc
    rw [Bool.or_eq_true, not_or] at hc
    obtain ⟨cs, hcs, h⟩ := except_bind_ok.mp h
    cases h
    refine ⟨hc.2, rfl, cs, ?_, fun c hc' => (List.mem_filter.mp hc').1, fun c hc' => ?_⟩
    · rw [expandExcluding_of_not_mem hc.1, hcs]
      rfl
    · by_cases hnew : c ∈ seen.insert k
      · exact Or.inr (Or.inl hnew)
      by_cases hex : c ∈ exclude
      · exact Or.inr (Or.inr (expandExcluding_of_mem hex))
      · refine Or.inl (List.mem_filter.mpr ⟨hc', ?_⟩)
        rw [Bool.and_eq_true, Bool.not_eq_true', Bool.not_eq_true', BTreeSet.contains_eq_false,
          BTreeSet.contains_eq_false]
        exact ⟨hnew, hex⟩

/-- A step of the graph that does not enter `exclude`. -/
def RefersOutside (g : ObjectGraph) (exclude : Set ObjectId) (a b : ObjectId) : Prop :=
  Refers g a b ∧ b ∉ exclude

/-- The members of a set of ids. -/
def BTreeSet.toSet (s : BTreeSet ObjectId) : Set ObjectId := { x | x ∈ s }

@[simp] theorem BTreeSet.mem_toSet {s : BTreeSet ObjectId} {x : ObjectId} :
    x ∈ s.toSet ↔ x ∈ s := Iff.rfl

theorem edge_expandExcluding {odb : D} {exclude : BTreeSet ObjectId} {a b : ObjectId}
    (ha : a ∉ exclude) :
    Worklist.Edge (expandExcluding odb exclude) a b ↔
      RefersOutside (graph odb) exclude.toSet a b := by
  have hstep : (∃ ks, expandExcluding odb exclude a = .ok (some ks) ∧ b ∈ ks) ↔
      ∃ ks, objectChildren odb a = .ok ks ∧ b ∈ ks := by
    rw [expandExcluding_of_not_mem ha]
    constructor
    · rintro ⟨ks, hks, hb⟩
      obtain ⟨ks₁, hks₁, hk⟩ := except_map_ok.mp hks
      cases hk
      exact ⟨_, hks₁, hb⟩
    · rintro ⟨ks, hks, hb⟩
      exact ⟨ks, except_map_ok.mpr ⟨ks, hks, rfl⟩, hb⟩
  rw [Worklist.Edge, taken_expandExcluding, hstep, mem_objectChildren]
  rfl

/-- **A closure is what the roots reach without entering the excluded ids.** -/
theorem mem_reachableObjectsExcluding {odb : D} {roots : List ObjectId}
    {exclude r : BTreeSet ObjectId} (h : reachableObjectsExcluding odb roots exclude = .ok r)
    {x : ObjectId} :
    x ∈ r ↔ ∃ root ∈ roots, root ∉ exclude ∧
      Relation.ReflTransGen (RefersOutside (graph odb) exclude.toSet) root x := by
  have hmem := (explores_collectVisit odb exclude).mem_run id
    (fun ks rest k => Worklist.mem_stack) ObjectId.size_le_count
    (Nat.lt_succ_self ObjectId.count) rfl h (k := x)
  rw [id_eq] at hmem
  rw [hmem]
  clear hmem
  constructor
  · rintro ⟨root, hroot, -, hx⟩
    obtain ⟨hin, hout⟩ := List.mem_filter.mp (List.mem_reverse.mp hroot)
    have hroot' : root ∉ exclude := by simpa using hout
    refine ⟨root, hin, hroot', ?_⟩
    have hx' : Relation.ReflTransGen (RefersOutside (graph odb) exclude.toSet) root x ∧
        x ∉ exclude := by
      induction hx with
      | refl => exact ⟨Relation.ReflTransGen.refl, hroot'⟩
      | tail _ he ih =>
          have he' := (edge_expandExcluding ih.2).mp he
          exact ⟨ih.1.tail he', he'.2⟩
    exact hx'.1
  · rintro ⟨root, hroot, hout, hx⟩
    have hroot' : root ∈ (roots.filter fun id => !exclude.contains id).reverse := by
      refine List.mem_reverse.mpr (List.mem_filter.mpr ⟨hroot, ?_⟩)
      simpa using hout
    refine ⟨root, hroot', taken_expandExcluding.mpr hout, ?_⟩
    have hx' : Relation.ReflTransGen (Worklist.Edge (expandExcluding odb exclude)) root x ∧
        x ∉ exclude := by
      induction hx with
      | refl => exact ⟨Relation.ReflTransGen.refl, hout⟩
      | tail _ he ih =>
          exact ⟨ih.1.tail ((edge_expandExcluding ih.2).mpr he), he.2⟩
    exact hx'.1

/-- A closure that can be taken of some roots can be taken of any of them. -/
theorem reachableObjectsExcluding_total {odb : D} {roots roots' : List ObjectId}
    {exclude r : BTreeSet ObjectId} (hsub : ∀ x ∈ roots', x ∈ roots)
    (h : reachableObjectsExcluding odb roots exclude = .ok r) :
    ∃ r', reachableObjectsExcluding odb roots' exclude = .ok r' := by
  refine (explores_collectVisit odb exclude).run_total id ?_ (fun ks rest k => Worklist.mem_stack)
    ObjectId.size_le_count (Nat.lt_succ_self ObjectId.count) rfl ?_ h
  · intro seen k e hv
    rw [collectVisit] at hv
    split at hv
    · cases hv
    rename_i hc
    rw [Bool.or_eq_true, not_or] at hc
    rcases except_bind_error.mp hv with hcs | ⟨cs, -, hv⟩
    · refine ⟨e, ?_⟩
      rw [expandExcluding_of_not_mem hc.1, hcs]
      rfl
    · cases hv
  · intro x hx
    obtain ⟨hx, hout⟩ := List.mem_filter.mp (List.mem_reverse.mp hx)
    exact List.mem_reverse.mpr (List.mem_filter.mpr ⟨hsub x hx, hout⟩)

/-- The closure of some roots is what they reach. -/
theorem mem_reachableObjects {odb : D} {roots : List ObjectId} {r : BTreeSet ObjectId}
    (h : reachableObjects odb roots = .ok r) {x : ObjectId} :
    x ∈ r ↔ ∃ root ∈ roots, Relation.ReflTransGen (Refers (graph odb)) root x := by
  rw [mem_reachableObjectsExcluding h]
  have hrel : RefersOutside (graph odb) BTreeSet.empty.toSet = Refers (graph odb) := by
    funext a b
    exact propext ⟨fun h => h.1, fun h => ⟨h, BTreeSet.not_mem_empty b⟩⟩
  rw [hrel]
  constructor
  · rintro ⟨root, hroot, -, hx⟩
    exact ⟨root, hroot, hx⟩
  · rintro ⟨root, hroot, hx⟩
    exact ⟨root, hroot, BTreeSet.not_mem_empty root, hx⟩

/-! ## Checking a store in memory -/

namespace MemoryOdb

/-- The type of the object stored under an id. -/
def typeOf (odb : MemoryOdb) (id : ObjectId) : Option ObjectType :=
  (odb.objects.get? id).map Prod.fst

/-- Whether what an object names is stored, with the type it is used as. -/
def partsStored (odb : MemoryOdb) : Object → Bool
  | .blob _ => true
  | .tree t => (Object.tree t).children.all fun b =>
      odb.typeOf b = some .tree || odb.typeOf b = some .blob
  | .commit c => odb.typeOf c.tree = some .tree && c.parents.all fun b =>
    odb.typeOf b = some .commit
  | .tag t => (odb.typeOf t.object).isSome

/-- Whether every stored payload parses and all its parts are stored. -/
def isComplete (odb : MemoryOdb) : Bool :=
  odb.objects.toList.all fun b =>
    match Object.parse odb.algo b.2.1 b.2.2 with
    | .ok o => odb.partsStored o
    | .error _ => false

variable {odb : MemoryOdb}

theorem read_eq_ok {id : ObjectId} {r : ObjectType × Bytes} :
    read odb id = .ok r ↔ odb.objects.get? id = some r := by
  cases hr : odb.objects.get? id with
  | some r' => rw [read_of_some hr, Except.ok.injEq, Option.some.injEq]
  | none =>
      rw [read_of_none hr]
      exact iff_of_false (fun h => by cases h) (Option.some_ne_none r).symm

theorem parse_of_isComplete (h : odb.isComplete = true) {id : ObjectId} {ty : ObjectType}
    {payload : Bytes} (hr : odb.objects.get? id = some (ty, payload)) :
    ∃ o, Object.parse odb.algo ty payload = .ok o ∧ graph odb id = some o ∧
      odb.partsStored o = true := by
  have hb := List.all_eq_true.mp h _ (BTreeMap.get?_eq_some.mp hr)
  simp only at hb
  split at hb
  · rename_i o ho
    exact ⟨o, ho, graph_eq_some.mpr ⟨ty, payload, read_eq_ok.mpr hr, ho⟩, hb⟩
  · cases hb

theorem partsStored_of_graph (h : odb.isComplete = true) {id : ObjectId} {o : Object}
    (ho : graph odb id = some o) : odb.partsStored o = true := by
  obtain ⟨ty, payload, hr, -⟩ := graph_eq_some.mp ho
  obtain ⟨o', -, ho', hp⟩ := parse_of_isComplete h (read_eq_ok.mp hr)
  rw [ho] at ho'
  cases ho'
  exact hp

/-- An id stored with some type names an object of that type. -/
theorem graph_of_typeOf (h : odb.isComplete = true) {id : ObjectId} {ty : ObjectType}
    (ht : odb.typeOf id = some ty) : ∃ o, graph odb id = some o ∧ o.objectType = ty := by
  obtain ⟨⟨ty', payload⟩, hr, rfl⟩ := Option.map_eq_some_iff.mp ht
  obtain ⟨o, hp, ho, -⟩ := parse_of_isComplete h hr
  exact ⟨o, ho, Object.objectType_parse hp⟩

/-- **The check suffices.** -/
theorem complete_of_isComplete (h : odb.isComplete = true) : Complete odb where
  absent id e he := by
    cases hr : odb.objects.get? id with
    | some r =>
        rw [read_of_some hr] at he
        cases he
    | none =>
        rw [read_of_none hr] at he
        cases he
        rfl
  parses id ty payload hr := by
    obtain ⟨o, ho, -⟩ := parse_of_isComplete h (read_eq_ok.mp hr)
    exact ⟨o, ho⟩
  contains_iff id := by
    show odb.objects.contains id = true ↔ _
    rw [BTreeMap.contains_iff]
    exact exists_congr fun r => read_eq_ok.symm
  closed a b hab := by
    obtain ⟨o, ho, hb⟩ := hab
    have hp := partsStored_of_graph h ho
    have hty : ∃ ty, odb.typeOf b = some ty := by
      cases o with
      | blob _ => cases hb
      | tree t =>
          have ht := List.all_eq_true.mp hp b hb
          rcases Bool.or_eq_true_iff.mp ht with ht | ht
          · exact ⟨_, of_decide_eq_true ht⟩
          · exact ⟨_, of_decide_eq_true ht⟩
      | commit c =>
          obtain ⟨htree, hparents⟩ := Bool.and_eq_true_iff.mp hp
          rcases List.mem_cons.mp hb with rfl | hb
          · exact ⟨_, of_decide_eq_true htree⟩
          · exact ⟨_, of_decide_eq_true (List.all_eq_true.mp hparents b hb)⟩
      | tag t =>
          obtain rfl := List.mem_singleton.mp hb
          exact Option.isSome_iff_exists.mp hp
    obtain ⟨ty, hty⟩ := hty
    obtain ⟨o', ho', -⟩ := graph_of_typeOf h hty
    rw [Holds, ho']
    rfl
  parents a b hab := by
    obtain ⟨c, hc, hb⟩ := hab
    obtain ⟨-, hparents⟩ := Bool.and_eq_true_iff.mp (partsStored_of_graph h hc)
    obtain ⟨o, ho, hty⟩ := graph_of_typeOf h (of_decide_eq_true (List.all_eq_true.mp hparents b hb))
    cases o with
    | commit c' => exact ⟨c', ho⟩
    | blob _ | tree _ | tag _ => cases hty
  trees a c hc := by
    obtain ⟨htree, -⟩ := Bool.and_eq_true_iff.mp (partsStored_of_graph h hc)
    obtain ⟨o, ho, hty⟩ := graph_of_typeOf h (of_decide_eq_true htree)
    cases o with
    | tree t => exact ⟨t, ho⟩
    | blob _ | commit _ | tag _ => cases hty
  entries a b hab := by
    obtain ⟨t, ht, hb⟩ := hab
    have hp := List.all_eq_true.mp (partsStored_of_graph h ht) b hb
    rcases Bool.or_eq_true_iff.mp hp with hty | hty
    · obtain ⟨o, ho, hty⟩ := graph_of_typeOf h (of_decide_eq_true hty)
      cases o with
      | tree t => exact Or.inl ⟨t, ho⟩
      | blob _ | commit _ | tag _ => cases hty
    · obtain ⟨o, ho, hty⟩ := graph_of_typeOf h (of_decide_eq_true hty)
      cases o with
      | blob content => exact Or.inr ⟨content, ho⟩
      | tree _ | commit _ | tag _ => cases hty

end MemoryOdb

end Puregit
