import Puregit.Graph
import Puregit.Odb.Absence
import Puregit.Repository

/-! # Checking the object graph

`fsck` walks what `HEAD`, the refs and the index lead to, and lists what it cannot read or
parse.  `Examined` is what the walk comes to, and `Reachable` what belongs to the repository:
a submodule of the index and the parents of a commit on the shallow boundary do not, but the
walk follows them.

A loose object is hashed when it is read, an object in a pack is not; so an object is `Intact`
if it can be read and parsed and, where a loose file is read for it, has its id as its hash.  It
is `Sound` if it has its id as its hash wherever it is.
-/
namespace Puregit
open ObjectDatabase ObjectGraph Relation

/-- An object that is referenced and missing, or present and malformed. -/
structure Problem where
  id : ObjectId
  referencedBy : Option ObjectId
  message : Str
  deriving DecidableEq

/-- The result of a run. -/
structure Report where
  checked : Nat
  problems : List Problem
  dangling : List ObjectId
  deriving DecidableEq

namespace Fsck

/-- What the walk has seen and found. -/
structure State where
  seen : BTreeSet ObjectId
  problems : List Problem
  checked : Nat

/-- The message about an object that cannot be read. -/
def unreadable (e : Error) : Str :=
  if e.isNotFound then str "missing object" else str "unreadable object: " ++ e.toStr

/-- The message about an object that cannot be parsed. -/
def malformed (ty : ObjectType) (e : Error) : Str :=
  str "malformed " ++ ty.asStr ++ str ": " ++ e.toStr

/-- Visits an id that `parent` refers to. -/
def visit {D : Type} [ObjectDatabase D] (odb : D) (st : State) :
    ObjectId × Option ObjectId → Except Error (Option (State × List (ObjectId × Option ObjectId)))
  | (id, parent) =>
    if st.seen.contains id then .ok none
    else match read odb id with
      | .error e => .ok (some (⟨st.seen.insert id, st.problems ++ [⟨id, parent, unreadable e⟩],
        st.checked⟩, []))
      | .ok (ty, payload) =>
        match childIds (algo odb) ty payload with
        | .ok ids => .ok (some (⟨st.seen.insert id, st.problems, st.checked + 1⟩, ids.map fun c =>
          (c, some id)))
        | .error e => .ok (some (⟨st.seen.insert id, st.problems ++ [⟨id, parent, malformed ty e⟩],
            st.checked + 1⟩, []))

/-- Walks what the roots lead to. -/
def walk {D : Type} [ObjectDatabase D] (odb : D) (roots : List ObjectId) : Except Error State :=
  Worklist.run (visit odb) Worklist.queue ObjectId.fuel ⟨BTreeSet.empty, [], 0⟩
    (roots.map fun id => (id, none))

end Fsck

namespace Repository

/-- Where the walk begins: `HEAD` if it is born, every ref and every index entry. -/
def fsckRoots (repo : Repository) : Except Error (List ObjectId) := do
  let listed ← repo.refs.list
  let index ← repo.index
  .ok (repo.headId.toOption.toList ++ listed.toList.map Prod.snd ++ index.entries.map IndexEntry.id)

/-- Checks the integrity of the object graph. -/
def fsck (repo : Repository) : Except Error Report := do
  let roots ← repo.fsckRoots
  let st ← Fsck.walk repo.odb roots
  let loose ← repo.looseObjectIds
  let dangling := (loose.filter fun id => !st.seen.contains id).insertionSort (· ≤ ·)
  .ok ⟨st.checked, st.problems, dangling⟩

end Repository

/-- Whether nothing is missing or malformed. -/
def Report.isOk (report : Report) : Bool := report.problems.isEmpty

/-! ## What the walk finds -/

namespace Fsck
variable {D : Type} [ObjectDatabase D] {odb : D}

/-- What an object the walk can read and parse leads to. -/
def links (g : ObjectGraph) (id : ObjectId) : List ObjectId := ((g id).map Object.children).getD []

/-- The walk refuses nothing. -/
def expand (g : ObjectGraph) (id : ObjectId) : Except Error (Option (List ObjectId)) :=
  .ok (some (links g id))

theorem taken_expand (g : ObjectGraph) (id : ObjectId) : Worklist.Taken (expand g) id := nofun

theorem edge_expand {g : ObjectGraph} {a b : ObjectId} :
    Worklist.Edge (expand g) a b ↔ Refers g a b := by
  have hlinks : b ∈ links g a ↔ Refers g a b := by
    unfold links Refers
    cases g a <;> simp
  rw [← hlinks]
  constructor
  · rintro ⟨⟨ids, hids, hb⟩, -⟩
    cases hids
    exact hb
  · exact fun hb => ⟨⟨_, rfl, hb⟩, taken_expand g b⟩

/-- **What a visit does**: an id it has not seen is seen, and either it is held and what it
names follows, or it is listed. -/
theorem visit_some {st st' : State} {id : ObjectId} {parent : Option ObjectId}
    {items : List (ObjectId × Option ObjectId)}
    (h : visit odb st (id, parent) = .ok (some (st', items))) :
    id ∉ st.seen ∧ st'.seen = st.seen.insert id ∧ items.map Prod.fst = links (graph odb) id ∧
      ((Holds (graph odb) id ∧ st'.problems = st.problems) ∨
        ¬ Holds (graph odb) id ∧ ∃ message, st'.problems =
          st.problems ++ [⟨id, parent, message⟩]) := by
  rw [visit] at h
  split at h
  · cases h
  rename_i hnew
  refine ⟨hnew, ?_⟩
  split at h
  · rename_i e hread
    cases h
    have hnone : graph odb id = none := by
      rw [graph, readObject, hread]
      rfl
    exact ⟨rfl, by rw [links, hnone]; rfl, Or.inr ⟨by simp [Holds, hnone], _, rfl⟩⟩
  rename_i ty payload hread
  rw [childIds_eq] at h
  cases hparse : Object.parse (algo odb) ty payload with
  | error e =>
      rw [hparse] at h
      cases h
      have hnone : graph odb id = none := by
        rw [graph, readObject, hread]
        simp only [bind, Except.bind, hparse]
        rfl
      exact ⟨rfl, by rw [links, hnone]; rfl, Or.inr ⟨by simp [Holds, hnone], _, rfl⟩⟩
  | ok o =>
      rw [hparse] at h
      cases h
      have hsome : graph odb id = some o := graph_eq_some.mpr ⟨ty, payload, hread, hparse⟩
      refine ⟨rfl, ?_, Or.inl ⟨by simp [Holds, hsome], rfl⟩⟩
      rw [links, hsome, List.map_map]
      exact List.map_id _

/-- The ids of some problems. -/
abbrev ids (problems : List Problem) : List ObjectId := problems.map Problem.id

/-- The ids listed are those seen that are not held, each once. -/
def Lists (g : ObjectGraph) (st : State) : Prop :=
  (ids st.problems).Nodup ∧ ∀ id, id ∈ ids st.problems ↔ id ∈ st.seen ∧ ¬ Holds g id

theorem Lists.visit {st st' : State} {item : ObjectId × Option ObjectId}
    {items : List (ObjectId × Option ObjectId)} (h : Lists (graph odb) st)
    (hv : Fsck.visit odb st item = .ok (some (st', items))) : Lists (graph odb) st' := by
  obtain ⟨id, parent⟩ := item
  obtain ⟨hnodup, hmem⟩ := h
  obtain ⟨hnew, hseen, -, ⟨hheld, hproblems⟩ | ⟨hlost, message, hproblems⟩⟩ := visit_some hv
  · rw [Lists, hproblems, hseen]
    refine ⟨hnodup, fun x => ?_⟩
    rw [hmem, BTreeSet.mem_insert]
    constructor
    · exact fun ⟨hx, hlost⟩ => ⟨Or.inr hx, hlost⟩
    · rintro ⟨rfl | hx, hlost⟩
      · exact absurd hheld hlost
      · exact ⟨hx, hlost⟩
  · have hids : ids st'.problems = ids st.problems ++ [id] := by
      rw [hproblems, ids, List.map_append]
      rfl
    rw [Lists, hids, hseen]
    refine ⟨?_, fun x => ?_⟩
    · refine List.nodup_append'.mpr ⟨hnodup, List.nodup_singleton id, ?_⟩
      rw [List.disjoint_singleton]
      exact fun hid => hnew ((hmem id).mp hid).1
    · rw [List.mem_append, List.mem_singleton, hmem, BTreeSet.mem_insert]
      constructor
      · rintro (⟨hx, hxlost⟩ | rfl)
        · exact ⟨Or.inr hx, hxlost⟩
        · exact ⟨Or.inl rfl, hlost⟩
      · rintro ⟨rfl | hx, hxlost⟩
        · exact Or.inr rfl
        · exact Or.inl ⟨hx, hxlost⟩

/-- **What a walk lists**: what the roots lead to and is not held, each once. -/
theorem walk_spec {roots : List ObjectId} {st : State} (h : walk odb roots = .ok st) :
    Lists (graph odb) st ∧
      ∀ id, id ∈ st.seen ↔ ∃ root ∈ roots, ReflTransGen (Refers (graph odb)) root id := by
  refine ⟨Worklist.run_state (fun st _ st' _ hI hv => hI.visit hv) ?_ h, fun id => ?_⟩
  · exact ⟨List.nodup_nil, fun id => by simp [BTreeSet.not_mem_empty]⟩
  have hedge : Worklist.Edge (expand (graph odb)) = Refers (graph odb) := by
    ext a b
    exact edge_expand
  have hskip : ∀ st item, visit odb st item = .ok none → item.1 ∈ st.seen := by
    intro st item hv
    rw [visit] at hv
    split at hv
    · assumption
    split at hv
    · cases hv
    · split at hv <;> cases hv
  have hmem : id ∈ st.seen ↔
      Worklist.Reached (expand (graph odb))
        ((roots.map fun id => (id, (none : Option ObjectId))).map Prod.fst) id := by
    refine Worklist.mem_run_keyed State.seen Prod.fst hskip ?_ (fun _ _ _ => Worklist.mem_queue)
      ObjectId.size_le_count (Nat.lt_succ_self _) rfl h
    rintro st ⟨k, parent⟩ st' items hv
    obtain ⟨hnew, hseen, hlinks, -⟩ := visit_some hv
    exact ⟨hnew, hseen, by rw [hlinks, expand]⟩
  rw [hmem]
  simp only [Worklist.Reached, taken_expand, true_and, hedge, List.map_map,
    Function.comp_def, List.map_id']

end Fsck

/-! ## What belongs to a repository -/

/-- Whether an entry stages the commit of a submodule. -/
def IndexEntry.IsGitlink (e : IndexEntry) : Prop := e.mode &&& 0o170000 = 0o160000

instance (e : IndexEntry) : Decidable e.IsGitlink := inferInstanceAs (Decidable (_ = _))

namespace Repository

/-- What `HEAD`, a ref or an index entry of some kind names. -/
inductive Root (repo : Repository) (kind : IndexEntry → Prop) : ObjectId → Prop
  | head {id : ObjectId} (born : repo.headId = .ok id) : Root repo kind id
  | ref {listed : BTreeMap Str ObjectId} {name : Str} {id : ObjectId}
    (list : repo.refs.list = .ok listed)
      (value : listed.get? name = some id) : Root repo kind id
  | staged {index : Index} {e : IndexEntry} (staging : repo.index = .ok index)
    (mem : e ∈ index.entries)
      (kept : kind e) : Root repo kind e.id

/-- The commits of the recorded shallow boundary. -/
def boundary (repo : Repository) : Set ObjectId := { id | ∃ ids, repo.shallow = .ok ids ∧ id ∈ ids }

/-- What the walk comes to. -/
def Examined (repo : Repository) (id : ObjectId) : Prop :=
  ∃ root, repo.Root (fun _ => True) root ∧ ReflTransGen (Refers (graph repo.odb)) root id

/-- What the repository has to hold: no submodules, and nothing past the shallow boundary. -/
def Reachable (repo : Repository) (id : ObjectId) : Prop :=
  ∃ root, repo.Root (fun e => ¬ e.IsGitlink) root ∧
    ReflTransGen (CutRefers (graph repo.odb) repo.boundary) root id

theorem Root.mono {repo : Repository} {kind kind' : IndexEntry → Prop} {id : ObjectId}
    (hkind : ∀ e, kind e → kind' e) (h : repo.Root kind id) : repo.Root kind' id := by
  cases h with
  | head born => exact .head born
  | ref list value => exact .ref list value
  | staged staging mem kept => exact .staged staging mem (hkind _ kept)

/-- What belongs to a repository is examined. -/
theorem Reachable.examined {repo : Repository} {id : ObjectId} (h : repo.Reachable id) :
    repo.Examined id := by
  obtain ⟨root, hroot, hpath⟩ := h
  exact ⟨root, hroot.mono fun _ _ => trivial, ReflTransGen.mono (fun _ _ he => he.1) _ _ hpath⟩

theorem mem_fsckRoots {repo : Repository} {roots : List ObjectId} (h : repo.fsckRoots = .ok roots)
    {id : ObjectId} : id ∈ roots ↔ repo.Root (fun _ => True) id := by
  obtain ⟨listed, hlist, h⟩ := except_bind_ok.mp h
  obtain ⟨index, hindex, h⟩ := except_bind_ok.mp h
  cases h
  rw [List.mem_append, List.mem_append, Option.mem_toList, toOption_eq_some,
    List.mem_map, List.mem_map]
  constructor
  · rintro ((hhead | ⟨⟨name, id⟩, hvalue, rfl⟩) | ⟨e, he, rfl⟩)
    · exact .head hhead
    · exact .ref hlist (BTreeMap.get?_eq_some.mpr hvalue)
    · exact .staged hindex he trivial
  · intro hroot
    cases hroot with
    | head born => exact Or.inl (Or.inl born)
    | ref list value =>
      cases hlist.symm.trans list
      exact Or.inl (Or.inr ⟨_, BTreeMap.get?_eq_some.mp value, rfl⟩)
    | staged staging mem =>
      cases hindex.symm.trans staging
      exact Or.inr ⟨_, mem, rfl⟩

end Repository

/-! ## Intact objects -/

namespace CombinedOdb

/-- The loose store whose file is read for an id: that of the store, or of the first alternate
that has the object. -/
inductive ReadsLoose (odb : CombinedOdb) (id : ObjectId) : LooseOdb → Prop
  | own (present : odb.loose.contains id = true) : ReadsLoose odb id odb.loose
  | alternate {passed rest : List ObjectStore} {alt : ObjectStore} {object : RawObject}
      (absent : odb.loose.contains id = false) (unlocated : odb.locate id = none)
      (order : odb.alternates = passed ++ alt :: rest)
      (without : ∀ before ∈ passed, ∀ object,
        ¬before.Decodes (ObjectStore.maxDeltaDepth + 1) id object)
      (present : alt.loose.contains id = true) (read : alt.loose.read id = .ok object) :
      ReadsLoose odb id alt.loose

/-- An object that can be read and parsed, and hashes back to its id where `hashed` asks
for it. -/
def IntactWhere (hashed : LooseOdb → Prop) (odb : CombinedOdb) (id : ObjectId) : Prop :=
  ∃ ty payload, odb.read id = .ok (ty, payload) ∧
    (∃ o, Object.parse odb.loose.algo ty payload = .ok o) ∧
    ∀ store, hashed store → hashObject store.hasher store.algo ty payload = id

/-- An object that can be read and parsed; a loose file has the hash it is named by. -/
def Intact (odb : CombinedOdb) (id : ObjectId) : Prop := odb.IntactWhere (odb.ReadsLoose id) id

/-- An object that can be read and parsed and hashes back to its id, in a pack as well. -/
def Sound (odb : CombinedOdb) (id : ObjectId) : Prop := odb.IntactWhere (· = odb.loose) id

end CombinedOdb

/-- A loose object that is read hashes to its id. -/
theorem LooseOdb.hashObject_of_read {odb : LooseOdb} {id : ObjectId} {ty : ObjectType}
    {payload : Bytes} (h : odb.read id = .ok (ty, payload)) :
    hashObject odb.hasher odb.algo ty payload = id := by
  rw [read] at h
  split at h
  · cases h
  obtain ⟨compressed, -, h⟩ := except_bind_ok.mp h
  obtain ⟨raw, -, h⟩ := except_bind_ok.mp h
  obtain ⟨⟨ty', payload'⟩, -, h⟩ := except_bind_ok.mp h
  simp only at h
  split at h
  · cases h
  rename_i hid
  cases h
  exact not_not.mp hid

namespace CombinedOdb

theorem readDepth_of_loose {s : ObjectStore}
    {elsewhere : Nat → ObjectId → Option RawObject} {left : Nat}
    {id : ObjectId} (h : s.loose.contains id = true) :
    s.readDepth elsewhere (left + 1) id = s.loose.read id := by
  rw [ObjectStore.readDepth, if_pos h]

/-- **A loose file that is read for an id hashes to it.** -/
theorem hashObject_of_readsLoose {odb : CombinedOdb} {id : ObjectId} {ty : ObjectType}
    {payload : Bytes} {store : LooseOdb} (hread : odb.read id = .ok (ty, payload))
    (hstore : odb.ReadsLoose id store) :
    hashObject store.hasher store.algo ty payload = id := by
  cases hstore with
  | own present =>
    rw [read, readDepth_of_loose present] at hread
    exact LooseOdb.hashObject_of_read hread
  | @alternate passed rest alt object absent unlocated order without present hobject =>
    have hpassed : passed.findSome? (fun before =>
        (before.readDepth (fun _ _ => none) (ObjectStore.maxDeltaDepth + 1) id).toOption) =
          none := by
      rw [List.findSome?_eq_none_iff]
      intro before hbefore
      cases hdepth : before.readDepth (fun _ _ => none) (ObjectStore.maxDeltaDepth + 1) id with
      | error e => rfl
      | ok object =>
        exact absurd (ObjectStore.readDepth_ok.mp hdepth) (without before hbefore object)
    have hfirst : odb.readAlternate (ObjectStore.maxDeltaDepth + 1) id = some object := by
      rw [readAlternate, order, List.findSome?_append, hpassed, List.findSome?_cons,
        readDepth_of_loose present, hobject]
      rfl
    rw [read, ObjectStore.readDepth, if_neg (by simp [absent]), unlocated] at hread
    simp only [hfirst] at hread
    cases hread
    exact LooseOdb.hashObject_of_read hobject

/-- An object is intact exactly if the walk can follow it. -/
theorem intact_iff_holds {odb : CombinedOdb} {id : ObjectId} :
    odb.Intact id ↔ Holds (graph odb) id := by
  rw [Holds, Option.isSome_iff_exists]
  constructor
  · rintro ⟨ty, payload, hread, ⟨o, ho⟩, -⟩
    exact ⟨o, graph_eq_some.mpr ⟨ty, payload, hread, ho⟩⟩
  · rintro ⟨o, ho⟩
    obtain ⟨ty, payload, hread, hparse⟩ := graph_eq_some.mp ho
    exact ⟨ty, payload, hread, ⟨o, hparse⟩, fun store hstore =>
      hashObject_of_readsLoose hread hstore⟩

theorem intact_of_sound {odb : CombinedOdb} {id : ObjectId} (h : odb.Sound id) : odb.Intact id := by
  obtain ⟨ty, payload, hread, hparse, -⟩ := h
  exact ⟨ty, payload, hread, hparse, fun store hstore => hashObject_of_readsLoose hread hstore⟩

end CombinedOdb

/-! ## What a report says -/

/-- The report is exact about some ids: it lists those that are not intact, each once, and
no other. -/
structure Report.Exact (report : Report) (reached intact : ObjectId → Prop) : Prop where
  isOk_iff : report.isOk = true ↔ ∀ id, reached id → intact id
  once : (report.problems.map Problem.id).Nodup
  listed_iff : ∀ id, id ∈ report.problems.map Problem.id ↔ reached id ∧ ¬ intact id

theorem Report.Exact.of_listed {report : Report} {reached intact : ObjectId → Prop}
    (once : (report.problems.map Problem.id).Nodup)
    (listed : ∀ id, id ∈ report.problems.map Problem.id ↔ reached id ∧ ¬ intact id) :
    report.Exact reached intact := by
  refine ⟨?_, once, listed⟩
  have hnone : report.isOk = true ↔ ∀ id, id ∉ report.problems.map Problem.id := by
    rw [isOk, List.isEmpty_iff, ← List.eq_nil_iff_forall_not_mem, List.map_eq_nil_iff]
  rw [hnone]
  refine forall_congr' fun id => ?_
  rw [listed, not_and, not_not]

namespace Repository

/-- **A report is exact about what is examined**, and lists the loose objects that are not. -/
theorem fsck_examined {repo : Repository} {report : Report} (h : repo.fsck = .ok report) :
    report.Exact repo.Examined repo.odb.Intact ∧ ∃ ids, repo.looseObjectIds = .ok ids ∧
      ∀ id, id ∈ report.dangling ↔ id ∈ ids ∧ ¬ repo.Examined id := by
  obtain ⟨roots, hroots, h⟩ := except_bind_ok.mp h
  obtain ⟨st, hwalk, h⟩ := except_bind_ok.mp h
  obtain ⟨loose, hloose, h⟩ := except_bind_ok.mp h
  cases h
  obtain ⟨⟨hnodup, hlisted⟩, hseen⟩ := Fsck.walk_spec hwalk
  have hexamined : ∀ id, id ∈ st.seen ↔ repo.Examined id := by
    intro id
    rw [hseen]
    refine exists_congr fun root => ?_
    rw [mem_fsckRoots hroots]
  refine ⟨.of_listed hnodup fun id => ?_, loose, hloose, fun id => ?_⟩
  · rw [hlisted, CombinedOdb.intact_iff_holds, hexamined]
  · rw [List.mem_insertionSort, List.mem_filter, Bool.not_eq_true',
      BTreeSet.contains_eq_false, hexamined]

/-- A report is exact about what belongs to the repository, by some notion of an object that is
intact, if what else is examined is intact and the notion asks no more than the walk checks. -/
theorem exact_reachable_iff {repo : Repository} {report : Report} {sound : ObjectId → Prop}
    (hexamined : report.Exact repo.Examined repo.odb.Intact)
    (hsound : ∀ id, sound id → repo.odb.Intact id) :
    report.Exact repo.Reachable sound ↔
      (∀ id, repo.Examined id → ¬ repo.Reachable id → repo.odb.Intact id) ∧
        ∀ id, repo.Reachable id → repo.odb.Intact id → sound id := by
  constructor
  · intro hexact
    have hsame : ∀ id, repo.Examined id ∧ ¬ repo.odb.Intact id ↔ repo.Reachable id ∧ ¬ sound id :=
      fun id => (hexamined.listed_iff id).symm.trans (hexact.listed_iff id)
    refine ⟨fun id hid hout => ?_, fun id hid hintact => ?_⟩
    · by_contra hlost
      exact hout ((hsame id).mp ⟨hid, hlost⟩).1
    · by_contra hlost
      exact ((hsame id).mpr ⟨hid, hlost⟩).2 hintact
  · rintro ⟨hrest, hchecked⟩
    refine .of_listed hexamined.once fun id => ?_
    rw [hexamined.listed_iff]
    constructor
    · rintro ⟨hid, hlost⟩
      refine ⟨?_, mt (hsound id) hlost⟩
      by_contra hout
      exact hlost (hrest id hid hout)
    · rintro ⟨hid, hlost⟩
      exact ⟨hid.examined, mt (hchecked id hid) hlost⟩

/-- **A report is exact about what is examined, and about what belongs to the repository exactly
if what else is examined is intact** and, where a packed object is to hash back to its id as well,
each one that can be read does. -/
theorem fsck_exact {repo : Repository} {report : Report} (h : repo.fsck = .ok report) :
    report.Exact repo.Examined repo.odb.Intact ∧
      (report.Exact repo.Reachable repo.odb.Intact ↔
        ∀ id, repo.Examined id → ¬ repo.Reachable id → repo.odb.Intact id) ∧
      (report.Exact repo.Reachable repo.odb.Sound ↔
        (∀ id, repo.Examined id → ¬ repo.Reachable id → repo.odb.Intact id) ∧
          ∀ id, repo.Reachable id → repo.odb.Intact id → repo.odb.Sound id) := by
  have hexamined := (fsck_examined h).1
  refine ⟨hexamined, ?_, exact_reachable_iff hexamined fun id => CombinedOdb.intact_of_sound⟩
  rw [exact_reachable_iff hexamined fun _ hintact => hintact]
  exact and_iff_left fun _ _ hintact => hintact

end Repository

/-! ## What is listed, and what is not -/

namespace FsckSample
open AbsenceSample (idOf deltaIndex)
open Repository (fsck_exact)

/-- A pack of one blob. -/
def blobPack : Bytes :=
  packSignature ++ [0, 0, 0, 2, 0, 0, 0, 1] ++
    0x31 :: (Zlib.blockHeader 1 ++ [65] ++ Zlib.adler32 [65])

/-- A repository whose head is the blob of the pack, under the name the index has for it. -/
def misnamed : Repository where
  fs := (Vfs.write FileTree.empty (str "HEAD") (toUtf8 (idOf 2).toHex)).toOption.getD FileTree.empty
  odb := {
    loose := LooseOdb.new .stored .sha FileTree.empty .sha1
    packs := [⟨deltaIndex, ⟨blobPack, .sha1, 1⟩⟩]
    alternates := [] }

theorem fsck_misnamed : misnamed.fsck = .ok ⟨1, [], []⟩ ∧ misnamed.headId = .ok (idOf 2) ∧
    misnamed.odb.read (idOf 2) = .ok (.blob, [65]) ∧
    hashObject .sha .sha1 .blob [65] ≠ idOf 2 := by
  decide +kernel

/-- A repository of a missing branch. -/
def lost : Repository where
  fs := (Vfs.write FileTree.empty (str "refs/heads/topic") (toUtf8 (idOf 1).toHex)).toOption.getD
    FileTree.empty
  odb := { loose := LooseOdb.new .stored .sha FileTree.empty .sha1, packs := [], alternates := [] }

theorem fsck_lost : lost.fsck = .ok ⟨0, [⟨idOf 1, none, str "missing object"⟩], []⟩ ∧
    lost.headId.toOption = none ∧
    (lost.refs.list.map BTreeMap.toList).toOption = some [(str "refs/heads/topic", idOf 1)] ∧
    Vfs.pathExists lost.fs (str "index") = false ∧ (lost.odb.read (idOf 1)).toOption = none := by
  decide +kernel

theorem root_lost {kind : IndexEntry → Prop} {id : ObjectId} (h : lost.Root kind id) :
    id = idOf 1 := by
  obtain ⟨-, hhead, hlist, hindex, -⟩ := fsck_lost
  cases h with
  | head born => cases (toOption_eq_some.mpr born).symm.trans hhead
  | @ref listed name id list value =>
    rw [list] at hlist
    have hmem := BTreeMap.get?_eq_some.mp value
    rw [Option.some.inj hlist, List.mem_singleton] at hmem
    exact congrArg Prod.snd hmem
  | @staged index e staging mem kept =>
    rw [Repository.index, hindex, if_neg Bool.false_ne_true] at staging
    cases staging
    cases mem

/-- The missing branch is all that is examined. -/
theorem examined_lost {id : ObjectId} (h : lost.Examined id) :
    id = idOf 1 ∧ ¬ lost.odb.Intact id := by
  obtain ⟨-, -, -, -, hread⟩ := fsck_lost
  have hnone : graph lost.odb (idOf 1) = none := by
    by_contra hsome
    obtain ⟨o, ho⟩ := Option.ne_none_iff_exists'.mp hsome
    obtain ⟨ty, payload, hok, -⟩ := graph_eq_some.mp ho
    cases (toOption_eq_some.mpr hok).symm.trans hread
  obtain ⟨root, hroot, hpath⟩ := h
  obtain rfl := root_lost hroot
  rcases ReflTransGen.cases_head hpath with rfl | ⟨b, hb, -⟩
  · refine ⟨rfl, fun hintact => ?_⟩
    have hholds := CombinedOdb.intact_iff_holds.mp hintact
    rw [Holds, hnone] at hholds
    cases hholds
  · obtain ⟨o, ho, -⟩ := hb
    cases hnone.symm.trans ho

/-- A branch that is missing is listed, and that is all. -/
theorem missing_exact : ∃ report, lost.fsck = .ok report ∧
    report.Exact lost.Examined lost.odb.Intact ∧
    report.Exact lost.Reachable lost.odb.Sound := by
  obtain ⟨hfsck, -, hlist, -⟩ := fsck_lost
  obtain ⟨hexamined, -, hsound⟩ := fsck_exact hfsck
  refine ⟨_, hfsck, hexamined, hsound.mpr ⟨fun id hid hout => ?_, fun id hid hintact => ?_⟩⟩
  · obtain ⟨listed, hlisted, hvalue⟩ := except_map_ok.mp (toOption_eq_some.mp hlist)
    have hmem : (str "refs/heads/topic", idOf 1) ∈ listed.toList :=
      hvalue ▸ List.mem_singleton_self _
    obtain rfl := (examined_lost hid).1
    exact absurd ⟨_, .ref hlisted (BTreeMap.get?_eq_some.mpr hmem), .refl⟩ hout
  · exact absurd hintact (examined_lost hid.examined).2

/-- The staged commit of a submodule, which is in another repository. -/
def submodule : IndexEntry where
  ctime := (0, 0)
  mtime := (0, 0)
  dev := 0
  ino := 0
  mode := 0o160000
  uid := 0
  gid := 0
  size := 0
  id := idOf 1
  stage := 0
  assumeValid := false
  extendedFlags := 0
  path := bytes "lib"

/-- A repository whose index stages a submodule, and nothing else. -/
def staging : Repository where
  fs := (Vfs.write FileTree.empty (str "index")
    (Index.serialize .sha { Index.new .sha1 with entries := [submodule] })).toOption.getD
      FileTree.empty
  odb := { loose := LooseOdb.new .stored .sha FileTree.empty .sha1, packs := [], alternates := [] }

theorem fsck_staging : staging.fsck = .ok ⟨0, [⟨idOf 1, none, str "missing object"⟩], []⟩ ∧
    staging.headId.toOption = none ∧ (staging.refs.list.map BTreeMap.toList).toOption = some [] ∧
    staging.index.toOption.map Index.entries = some [submodule] := by
  decide +kernel

/-- The commit of a staged submodule is listed, and what a pack has under another name is not. -/
theorem not_fsck_exact :
    (∃ report, staging.fsck = .ok report ∧ ¬ report.Exact staging.Reachable staging.odb.Sound) ∧
    ∃ report, misnamed.fsck = .ok report ∧
      ¬ report.Exact misnamed.Reachable misnamed.odb.Sound := by
  constructor
  · obtain ⟨hfsck, hhead, hlist, hindex⟩ := fsck_staging
    refine ⟨_, hfsck, fun hexact => ?_⟩
    obtain ⟨⟨root, hroot, -⟩, -⟩ := (hexact.listed_iff (idOf 1)).mp List.mem_cons_self
    cases hroot with
    | head born => cases (toOption_eq_some.mpr born).symm.trans hhead
    | ref list value =>
      rw [list] at hlist
      have hmem := BTreeMap.get?_eq_some.mp value
      rw [Option.some.inj hlist] at hmem
      cases hmem
    | staged hstaging mem kept =>
      rw [hstaging] at hindex
      rw [Option.some.inj hindex] at mem
      rw [List.mem_singleton.mp mem] at kept
      exact kept rfl
  · obtain ⟨hfsck, hhead, hread, hother⟩ := fsck_misnamed
    refine ⟨_, hfsck, fun hexact => ?_⟩
    obtain ⟨ty, payload, hread', -, hhash⟩ :=
      hexact.isOk_iff.mp rfl (idOf 2) ⟨idOf 2, .head hhead, .refl⟩
    cases hread.symm.trans hread'
    exact hother (hhash _ rfl)

end FsckSample
end Puregit
