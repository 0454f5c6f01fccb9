import Puregit.Graph

/-! # The objects a transfer sends

`objectsToSend` closes over the wants without entering what the haves reach.  The set
excluded is closed under references, so a path that leaves a want and ends outside of it
never meets it: not descending into an excluded object loses nothing.
-/
namespace Puregit
open ObjectDatabase ObjectGraph

/-- No object of the store names one that is missing. -/
def ObjectGraph.NoneMissing (g : ObjectGraph) : Prop := ∀ a b, Refers g a b → Holds g b

theorem ObjectGraph.NoneMissing.reaches {g : ObjectGraph} (hg : NoneMissing g) {a b : ObjectId}
    (h : Relation.ReflTransGen (Refers g) a b) (ha : Holds g a) : Holds g b := by
  induction h with
  | refl => exact ha
  | tail _ hstep _ => exact hg _ _ hstep

variable {D : Type} [ObjectDatabase D]

/-- An object that can be read can be expanded. -/
theorem objectChildren_of_holds {odb : D} {id : ObjectId} (h : Holds (graph odb) id) :
    ∃ ks, objectChildren odb id = .ok ks := by
  obtain ⟨o, ho⟩ := Option.isSome_iff_exists.mp h
  obtain ⟨ty, payload, hr, hp⟩ := graph_eq_some.mp ho
  refine ⟨o.children, except_bind_ok.mpr ⟨some (ty, payload), readPresent_some.mpr hr, ?_⟩⟩
  show childIds (algo odb) ty payload = .ok o.children
  rw [childIds_eq, hp]
  rfl

/-- A closure over a store without gaps can be taken. -/
theorem reachableObjectsExcluding_returns {odb : D} (hg : NoneMissing (graph odb))
    {roots : List ObjectId} (hroots : ∀ r ∈ roots, Holds (graph odb) r)
    (exclude : BTreeSet ObjectId) : ∃ r, reachableObjectsExcluding odb roots exclude = .ok r := by
  -- only objects of the store are ever stacked
  let I : BTreeSet ObjectId → List ObjectId → Prop := fun _ todo => ∀ x ∈ todo, Holds (graph odb) x
  have hskip : ∀ seen k rest, I seen (k :: rest) →
      collectVisit (objectChildren odb) exclude seen k = .ok none → I seen rest :=
    fun _ k _ hI _ x hx => hI x (List.mem_cons_of_mem k hx)
  have hact : ∀ seen k rest seen' ks, I seen (k :: rest) →
      collectVisit (objectChildren odb) exclude seen k = .ok (some (seen', ks)) →
      I seen' (Worklist.stack ks rest) := by
    intro seen k rest seen' ks hI hv x hx
    rcases Worklist.mem_stack.mp hx with hx | hx
    · rw [collectVisit] at hv
      split at hv
      · cases hv
      obtain ⟨cs, hcs, hv⟩ := except_bind_ok.mp hv
      cases hv
      exact hg k x (mem_objectChildren.mp ⟨cs, hcs, (List.mem_filter.mp hx).1⟩)
    · exact hI x (List.mem_cons_of_mem k hx)
  have hvisit : ∀ seen k rest e, I seen (k :: rest) →
      collectVisit (objectChildren odb) exclude seen k ≠ .error e := by
    intro seen k rest e hI hv
    rw [collectVisit] at hv
    split at hv
    · cases hv
    obtain ⟨cs, hcs⟩ := objectChildren_of_holds (hI k List.mem_cons_self)
    rw [hcs] at hv
    cases hv
  refine Worklist.run_returns hskip hact hvisit ?_ ObjectId.fuel
  intro x hx
  exact hroots x (List.mem_filter.mp (List.mem_reverse.mp hx)).1

/-- **What is sent**: what the wants reach without what the haves reach. -/
theorem mem_objectsToSend {odb : D} {wants haves : List ObjectId} {r : BTreeSet ObjectId}
    (h : objectsToSend (objectChildren odb) wants haves = .ok r) {x : ObjectId} :
    x ∈ r ↔ (∃ w ∈ wants, Relation.ReflTransGen (Refers (graph odb)) w x) ∧
      ¬ ∃ v ∈ haves, Relation.ReflTransGen (Refers (graph odb)) v x := by
  obtain ⟨exclude, hexclude, hr⟩ := except_bind_ok.mp h
  have hex : ∀ y, y ∈ exclude ↔ ∃ v ∈ haves, Relation.ReflTransGen (Refers (graph odb)) v y :=
    fun y => mem_reachableObjects hexclude
  -- what the haves reach is closed under references
  have hclosed : ∀ {y z : ObjectId}, Refers (graph odb) y z → y ∈ exclude → z ∈ exclude := by
    intro y z hyz hy
    obtain ⟨v, hv, hvy⟩ := (hex y).mp hy
    exact (hex z).mpr ⟨v, hv, hvy.tail hyz⟩
  rw [mem_reachableObjectsExcluding hr, ← hex]
  constructor
  · rintro ⟨w, hw, hout, hx⟩
    have hpath : Relation.ReflTransGen (Refers (graph odb)) w x ∧ x ∉ exclude := by
      induction hx with
      | refl => exact ⟨.refl, hout⟩
      | tail _ hstep ih => exact ⟨ih.1.tail hstep.1, hstep.2⟩
    exact ⟨⟨w, hw, hpath.1⟩, hpath.2⟩
  · rintro ⟨⟨w, hw, hx⟩, hout⟩
    -- backwards along the path: no object on it is excluded, since the last is not
    have hpath : w ∉ exclude ∧ Relation.ReflTransGen
        (RefersOutside (graph odb) exclude.toSet) w x := by
      induction hx with
      | refl => exact ⟨hout, .refl⟩
      | tail _ hstep ih =>
          have hprev := ih fun hin => hout (hclosed hstep hin)
          exact ⟨hprev.1, hprev.2.tail ⟨hstep, hout⟩⟩
    exact ⟨w, hw, hpath⟩

/-- Over a store without gaps the objects to send are computed, and are exactly what the
wants reach and the haves do not. -/
theorem objectsToSend_spec {odb : D} (hg : NoneMissing (graph odb)) {wants haves : List ObjectId}
    (hwants : ∀ w ∈ wants, Holds (graph odb) w) (hhaves : ∀ v ∈ haves, Holds (graph odb) v) :
    ∃ r, objectsToSend (objectChildren odb) wants haves = .ok r ∧ ∀ x, x ∈ r ↔
      (∃ w ∈ wants, Relation.ReflTransGen (Refers (graph odb)) w x) ∧
        ¬ ∃ v ∈ haves, Relation.ReflTransGen (Refers (graph odb)) v x := by
  obtain ⟨exclude, hexclude⟩ := reachableObjectsExcluding_returns hg hhaves BTreeSet.empty
  obtain ⟨r, hr⟩ := reachableObjectsExcluding_returns hg hwants exclude
  have hsend : objectsToSend (objectChildren odb) wants haves = .ok r :=
    except_bind_ok.mpr ⟨exclude, hexclude, hr⟩
  exact ⟨r, hsend, fun x => mem_objectsToSend hsend⟩

/-! ## A criss-cross history -/

namespace CrissCross

/-- The id of the empty tree. -/
def tree : ObjectId := .emptyTree

/-- The id of a root commit of time 1. -/
def base : ObjectId :=
  ⟨.sha1, [0xc2, 0x69, 0x83, 0xc9, 0x1d, 0xdd, 0x2c, 0xdb, 0x07, 0xe6,
  0x64, 0x6f, 0x99, 0xc8, 0xad, 0x16, 0xf0, 0x51, 0x9d, 0x62], rfl⟩

/-- The id of a child of it, of time 5. -/
def left : ObjectId :=
  ⟨.sha1, [0x92, 0x6e, 0xaa, 0xce, 0x75, 0x36, 0x92, 0x09, 0x29, 0xaf,
  0x76, 0xc8, 0x38, 0xd5, 0x59, 0x2a, 0x55, 0xc9, 0x42, 0x9c], rfl⟩

/-- The id of another, of time 6. -/
def right : ObjectId :=
  ⟨.sha1, [0x3d, 0xb5, 0x4d, 0xc9, 0xeb, 0x3d, 0x11, 0x19, 0x04, 0x81,
  0x99, 0x0d, 0x02, 0x6b, 0x53, 0x60, 0x28, 0xe1, 0x96, 0x3d], rfl⟩

/-- The id of a merge of `left` and `right`, of time 7. -/
def mergeLeft : ObjectId :=
  ⟨.sha1, [0x58, 0x50, 0x00, 0x7f, 0x5a, 0x13, 0x41, 0x7a, 0x67, 0x3c,
  0xc6, 0xed, 0x1a, 0x2a, 0x0f, 0x0e, 0x8b, 0x73, 0x82, 0x0b], rfl⟩

/-- The id of a merge of `right` and `left`, of time 8. -/
def mergeRight : ObjectId :=
  ⟨.sha1, [0xb8, 0x4f, 0x31, 0x67, 0x36, 0x18, 0x58, 0xfe, 0x7e, 0xe2,
  0x99, 0x88, 0x3f, 0x5e, 0x25, 0xf0, 0xf2, 0x1d, 0x28, 0x2d], rfl⟩

/-- The stamp `a <a> time +0000`. -/
def stamp (time : Int) : Signature := ⟨[97], [97], time, [43, 48, 48, 48, 48]⟩

/-- A commit of the empty tree with a message of one byte. -/
def commitAt (parents : List ObjectId) (time : Int) (m : UInt8) : Commit :=
  ⟨tree, parents, stamp time, stamp time, [], [m]⟩

/-- Two branches that were merged into each other. -/
def history : MemoryOdb where
  hasher := .sha
  algo := .sha1
  objects := BTreeMap.ofList [(tree, .tree, []),
    (base, .commit, (commitAt [] 1 111).serialize),
    (left, .commit, (commitAt [base] 5 108).serialize),
    (right, .commit, (commitAt [base] 6 114).serialize),
    (mergeLeft, .commit, (commitAt [left, right] 7 120).serialize),
    (mergeRight, .commit, (commitAt [right, left] 8 121).serialize)]

theorem complete : Complete history := MemoryOdb.complete_of_isComplete (by decide +kernel)

/-- A merge for a peer that has one of the branches. -/
theorem objectsToSend_mergeLeft :
    ∃ r, objectsToSend (objectChildren history) [mergeLeft] [left] = .ok r ∧ ∀ x, x ∈ r ↔
      (∃ w ∈ [mergeLeft], Relation.ReflTransGen (Refers (graph history)) w x) ∧
        ¬ ∃ v ∈ [left], Relation.ReflTransGen (Refers (graph history)) v x := by
  have hheld : contains history mergeLeft = true ∧ contains history left = true := by decide
  refine objectsToSend_spec complete.closed ?_ ?_
  · intro w hw
    rw [List.mem_singleton.mp hw]
    exact complete.contains_iff_holds.mp hheld.1
  · intro v hv
    rw [List.mem_singleton.mp hv]
    exact complete.contains_iff_holds.mp hheld.2

end CrissCross

end Puregit
