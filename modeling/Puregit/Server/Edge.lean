import Puregit.Graph
import Puregit.Server.Pack

/-! # The edge of a shallow history

A closure collects an id before it reads the object.  An absent object leads nowhere, but
its id is returned all the same, and whoever packs the set fails on it.  So what a
closure returns can be read back just when its traversal meets no absent object,
`closures_stored_iff`.
-/
namespace Puregit.Server
open ObjectDatabase ObjectGraph

variable {D : Type} [ObjectDatabase D]

/-- An object of this id can be read. -/
def Stored (odb : D) (id : ObjectId) : Prop := ∃ r, read odb id = .ok r

/-- `id` is reached from the roots without entering `out`. -/
def ReachedOutside (odb : D) (roots : List ObjectId) (out : Set ObjectId) (id : ObjectId) : Prop :=
  ∃ root ∈ roots, root ∉ out ∧ Relation.ReflTransGen (RefersOutside (graph odb) out) root id

/-- The traversal meets no absent object: the roots are stored, and so is whatever a
reached object names, what lies in `out` excepted. -/
structure MeetsNoEdge (odb : D) (roots : List ObjectId) (out : Set ObjectId) : Prop where
  start : ∀ root ∈ roots, root ∉ out → Stored odb root
  named : ∀ a b, ReachedOutside odb roots out a → Refers (graph odb) a b → b ∉ out → Stored odb b

/-- What is reached is stored, if the traversal meets no absent object. -/
theorem meetsNoEdge_iff {odb : D} {roots : List ObjectId} {out : Set ObjectId} :
    MeetsNoEdge odb roots out ↔ ∀ id, ReachedOutside odb roots out id → Stored odb id := by
  constructor
  · rintro ⟨hroots, hnamed⟩ id ⟨root, hroot, hout, hpath⟩
    cases hpath with
    | refl => exact hroots id hroot hout
    | tail hpath hstep => exact hnamed _ _ ⟨root, hroot, hout, hpath⟩ hstep.1 hstep.2
  · intro h
    refine ⟨fun root hroot hout => h root ⟨root, hroot, hout, .refl⟩, fun a b ha hab hb => ?_⟩
    obtain ⟨root, hroot, hout, hpath⟩ := ha
    exact h b ⟨root, hroot, hout, hpath.tail ⟨hab, hb⟩⟩

/-- Every id of the set can be read back. -/
def ReadsBack (odb : D) (s : BTreeSet ObjectId) : Prop := ∀ id ∈ s, Stored odb id

/-- A closure can be read back just when it meets no absent object. -/
theorem readsBack_iff {odb : D} {roots : List ObjectId} {exclude s : BTreeSet ObjectId}
    (h : reachableObjectsExcluding odb roots exclude = .ok s) :
    ReadsBack odb s ↔ MeetsNoEdge odb roots exclude.toSet := by
  rw [meetsNoEdge_iff]
  unfold ReadsBack
  have hmem : ∀ id, id ∈ s ↔ ReachedOutside odb roots exclude.toSet id := fun id =>
    mem_reachableObjectsExcluding h
  simp only [hmem]

/-- **Objects are packed just when each can be read.** -/
theorem addObjects_ok_iff {odb : D} (filter : ObjectFilter) (wanted : BTreeSet ObjectId)
    (ids : List ObjectId) (writer : PackWriter) :
    (∃ writer', addObjects odb filter wanted ids writer = .ok writer') ↔
      ∀ id ∈ ids, Stored odb id := by
  induction ids generalizing writer with
  | nil => exact ⟨fun _ id hid => absurd hid List.not_mem_nil, fun _ => ⟨writer, rfl⟩⟩
  | cons id ids ih =>
      rw [List.forall_mem_cons]
      unfold addObjects
      constructor
      · intro ⟨writer', h⟩
        obtain ⟨⟨ty, payload⟩, hread, h⟩ := except_bind_ok.mp h
        refine ⟨⟨_, hread⟩, ?_⟩
        simp only at h
        split at h
        · exact (ih _).mp ⟨writer', h⟩
        · exact (ih _).mp ⟨writer', h⟩
      · intro ⟨⟨⟨ty, payload⟩, hread⟩, hids⟩
        rw [hread]
        simp only [bind, Except.bind]
        split
        · exact (ih _).mpr hids
        · exact (ih _).mpr hids

/-- Packing a set reads back every id of it. -/
theorem packs_iff {odb : D} (filter : ObjectFilter) (wanted s : BTreeSet ObjectId)
    (writer : PackWriter) :
    (∃ writer', addObjects odb filter wanted s.toList writer = .ok writer') ↔ ReadsBack odb s := by
  rw [addObjects_ok_iff]
  unfold ReadsBack
  simp only [BTreeSet.mem_toList]

/-- The ids the haves reach. -/
def heldBy (odb : D) (haves : List ObjectId) : Set ObjectId :=
  { x | ∃ h ∈ haves, Relation.ReflTransGen (Refers (graph odb)) h x }

/-- **What each closure returns can be read back, and packed, just when its traversal meets
no absent object.** -/
theorem closures_stored_iff (odb : D) (s : BTreeSet ObjectId) :
    (∀ roots, reachableObjects odb roots = .ok s → (ReadsBack odb s ↔ MeetsNoEdge odb roots ∅)) ∧
    (∀ roots exclude, reachableObjectsExcluding odb roots exclude = .ok s →
      (ReadsBack odb s ↔ MeetsNoEdge odb roots exclude.toSet)) ∧
    (∀ wants haves, objectsToSend (objectChildren odb) wants haves = .ok s →
      (ReadsBack odb s ↔ MeetsNoEdge odb wants (heldBy odb haves))) ∧
    ∀ filter wanted writer, (∃ writer', addObjects odb filter wanted s.toList writer =
      .ok writer') ↔
      ReadsBack odb s := by
  refine ⟨fun roots h => ?_, fun roots exclude h => readsBack_iff h, fun wants haves h => ?_,
    fun filter wanted writer => packs_iff filter wanted s writer⟩
  · have hempty : BTreeSet.empty.toSet = (∅ : Set ObjectId) :=
      Set.eq_empty_iff_forall_notMem.mpr fun x => BTreeSet.not_mem_empty x
    rw [← hempty]
    exact readsBack_iff h
  · obtain ⟨exclude, hexclude, h⟩ := except_bind_ok.mp h
    have hheld : exclude.toSet = heldBy odb haves := by
      ext x
      exact mem_reachableObjects hexclude
    rw [← hheld]
    exact readsBack_iff h

/-! ## A commit without its parent -/

namespace FetchSample

/-- A store of one commit and its tree; the parent is beyond the edge. -/
def shallowStore : MemoryOdb where
  hasher := .sha
  algo := .sha1
  objects := BTreeMap.ofList [(emptyTree, .tree, []),
    (old, .commit, (commitAt [first] 100 111).serialize)]

/-- The set of a closure, through its elements. -/
theorem exists_set {x : Except Error (BTreeSet ObjectId)} (ids : List ObjectId)
    (h : x.map (·.toList) = .ok ids) : ∃ s, x = .ok s ∧ ∀ id, id ∈ s ↔ id ∈ ids := by
  obtain ⟨s, hs, rfl⟩ := except_map_ok.mp h
  exact ⟨s, hs, fun id => BTreeSet.mem_toList.symm⟩

theorem first_not_stored : ¬ Stored shallowStore first := by
  intro ⟨r, hr⟩
  have hnone : (read shallowStore first).toBool = false := by decide
  rw [hr] at hnone
  cases hnone

/-- The parent that is not there is returned. -/
theorem shallow_closure_missing : ∃ s, reachableObjects shallowStore [old] = .ok s ∧
    ¬ ReadsBack shallowStore s := by
  obtain ⟨s, hs, hmem⟩ := exists_set (x := reachableObjects shallowStore [old])
    [emptyTree, first, old] (by decide +kernel)
  exact ⟨s, hs, fun h => first_not_stored (h first ((hmem first).mpr (by simp)))⟩

/-- A closure that is cut at the parent is read back: the commit and its tree. -/
theorem cut_closure_stored :
    ∃ s, reachableObjectsExcluding shallowStore [old] (BTreeSet.ofList [first]) = .ok s ∧
    (∀ id, id ∈ s ↔ id ∈ [emptyTree, old]) ∧ ReadsBack shallowStore s ∧
    MeetsNoEdge shallowStore [old] (BTreeSet.ofList [first]).toSet := by
  obtain ⟨s, hs, hmem⟩ :=
    exists_set (x := reachableObjectsExcluding shallowStore [old] (BTreeSet.ofList [first]))
    [emptyTree, old] (by decide +kernel)
  have hstored : ReadsBack shallowStore s := by
    intro id hid
    have hread : ∀ id ∈ [emptyTree, old], (read shallowStore id).toBool = true := by decide
    exact exists_ok (hread id ((hmem id).mp hid))
  exact ⟨s, hs, hmem, hstored, ((closures_stored_iff shallowStore s).2.1 [old] _ hs).mp hstored⟩

end FetchSample

end Puregit.Server
