import Puregit.Server.Holdings
import Puregit.Server.Objects

/-! # What a deepening request sends of the history

A request that moves the boundary is to send the commits its walk selects, and the wants.
Tags are closed over without regard to the walk, so the history behind a wanted tag comes
along, as far as the client is not taken to hold it: `plan_bounded_iff`.
-/
namespace Puregit.Server
open ObjectDatabase ObjectGraph Relation

variable {D : Type} [ObjectDatabase D]

/-- The walk of the request selects the commit. -/
def Want.Selects (odb : D) (refs : RefView) (req : Want) (c : ObjectId) : Prop :=
  ∃ t included boundary, collectTips odb req.wants ⟨[], BTreeSet.empty⟩ = .ok t ∧
    selectCommits odb refs (BTreeSet.ofList req.clientShallow) t.tips req.deepen =
      .ok (included, boundary) ∧ c ∈ included

/-- What the client of the request is taken to hold. -/
def Want.assumed (odb : D) (req : Want) : Set ObjectId :=
  { x | Assumed odb (req.haves.filter (contains odb)) (BTreeSet.ofList req.clientShallow) x }

/-- A wanted tag, tree or blob, an object on the way from a wanted tag to what it tags, or
the tree of a selected commit, leads to `c` outside what the client is taken to hold. -/
def Want.Drags (odb : D) (refs : RefView) (req : Want) (c : ObjectId) : Prop :=
  (∃ w ∈ req.wants, ∃ e, OnChain odb tagLimit w e ∧ Outside (graph odb) (req.assumed odb) e c) ∨
  ∃ s, req.Selects odb refs s ∧ ∃ commit, graph odb s = some (.commit commit) ∧
    Outside (graph odb) (req.assumed odb) commit.tree c

variable {odb : D} {refs : RefView} {req : Want} {p : Plan}

/-- **When no history beyond the cut is sent**: every commit that a wanted tag or a tree
leads to outside what the client is taken to hold is selected or wanted. -/
theorem plan_bounded_iff (h : plan odb refs req = .ok p) (hactive : req.deepen.isActive = true) :
    (∀ c ∈ p.objects, IsCommit (graph odb) c → req.Selects odb refs c ∨ c ∈ req.wants) ↔
      ∀ c, IsCommit (graph odb) c → req.Drags odb refs c → req.Selects odb refs c ∨
        c ∈ req.wants := by
  obtain ⟨known, t, included, boundary, hknown, ht, hselect, hobjects, -, -⟩ :=
    plan_deepening h hactive
  have htips := collectTips_spec ht
  have hassumed : known.toSet = req.assumed odb := Set.ext fun x => mem_clientHoldings hknown
  have hselects : ∀ c, req.Selects odb refs c ↔ c ∈ included := by
    intro c
    constructor
    · rintro ⟨t', included', boundary', ht', hselect', hc⟩
      rw [ht] at ht'
      cases ht'
      rw [hselect] at hselect'
      cases hselect'
      exact hc
    · exact fun hc => ⟨t, included, boundary, ht, hselect, hc⟩
  rw [hassumed] at hobjects
  have hdrags : ∀ c, req.Drags odb refs c ↔
      (∃ s ∈ included, ∃ commit, graph odb s = some (.commit commit) ∧
        Outside (graph odb) (req.assumed odb) commit.tree c) ∨
      ∃ e ∈ t.extra, Outside (graph odb) (req.assumed odb) e c := by
    intro c
    rw [Want.Drags, or_comm]
    simp only [hselects, htips.mem_extra]
    refine or_congr_right ⟨?_, ?_⟩
    · rintro ⟨w, hw, e, hchain, hc⟩
      exact ⟨e, ⟨w, hw, hchain⟩, hc⟩
    · rintro ⟨e, ⟨w, hw, hchain⟩, hc⟩
      exact ⟨w, hw, e, hchain, hc⟩
  constructor
  · intro hall c hcommit hdrag
    exact hall c ((hobjects c).mpr (Or.inr (Or.inr ((hdrags c).mp hdrag)))) hcommit
  · intro hall c hc hcommit
    rcases (hobjects c).mp hc with ⟨hw, -⟩ | ⟨hin, -⟩ | hdrag
    · exact Or.inr hw
    · exact Or.inl ((hselects c).mpr hin)
    · exact hall c hcommit ((hdrags c).mpr hdrag)

/-! ## A wanted tag -/

namespace FetchSample

/-- A request for the tag and its newest commit only. -/
def deepenTag : Want := ⟨[mark], [], [], ⟨some 1, none, [], false⟩⟩

/-- A request for the tag and the newest commit, deep enough for the parent of the tagged one. -/
def deepenBoth : Want := ⟨[newest, mark], [], [], ⟨some 2, none, [], false⟩⟩

/-- The commits of the chain. -/
theorem commit_of_chain {c : ObjectId} (hc : IsCommit (graph chainStore) c) :
    c ∈ [first, old, newest] := by
  obtain ⟨commit, hc⟩ := hc
  obtain ⟨ty, payload, hr, hp⟩ := graph_eq_some.mp hc
  have hty : ty = .commit := (Object.objectType_parse hp).symm
  have hmem := BTreeMap.get?_eq_some.mp (MemoryOdb.read_eq_ok.mp hr)
  have hkinds : chainStore.objects.toList.all (fun b => b.2.1 != .commit ||
      [first, old, newest].contains b.1) = true := by
    decide
  have hkind := List.all_eq_true.mp hkinds _ hmem
  simp only [hty, bne_self_eq_false, Bool.false_or] at hkind
  exact List.contains_iff_mem.mp hkind

/-- A fetch of the tag and the newest commit by a depth that takes in all that is behind the tag
sends what the depth selects only. -/
theorem deepenBoth_bounded : ∃ p, plan chainStore noRefs deepenBoth = .ok p ∧ mark ∈ p.objects ∧
    first ∈ p.objects ∧ ∀ c ∈ p.objects, IsCommit (graph chainStore) c →
      deepenBoth.Selects chainStore noRefs c ∨ c ∈ deepenBoth.wants := by
  have hplan : (plan chainStore noRefs deepenBoth).map
      (fun p => (p.objects.contains mark, p.objects.contains first)) = .ok (true, true) := by
    decide +kernel
  obtain ⟨p, hp, hsent⟩ := except_map_ok.mp hplan
  obtain ⟨hmark, hfirst⟩ := Prod.mk.inj hsent
  refine ⟨p, hp, BTreeSet.contains_iff_mem.mp hmark, BTreeSet.contains_iff_mem.mp hfirst,
    (plan_bounded_iff hp rfl).mpr fun c hc _ => Or.inl ?_⟩
  -- every commit of the chain is selected
  have hruns : (collectTips chainStore deepenBoth.wants ⟨[], BTreeSet.empty⟩).bind (fun t =>
      (selectCommits chainStore noRefs (BTreeSet.ofList deepenBoth.clientShallow) t.tips
        deepenBoth.deepen).map fun r =>
          [first, old, newest].all r.1.contains) = .ok true := by
    decide +kernel
  obtain ⟨t, ht, hruns⟩ := except_bind_ok.mp hruns
  obtain ⟨⟨included, boundary⟩, hselect, hall⟩ := except_map_ok.mp hruns
  exact ⟨t, included, boundary, ht, hselect,
    BTreeSet.contains_iff_mem.mp (List.all_eq_true.mp hall c (commit_of_chain hc))⟩

/-- A fetch of the tag by depth sends the parent of the tagged commit. -/
theorem deepenTag_unbounded : ∃ p, plan chainStore noRefs deepenTag = .ok p ∧ first ∈ p.objects ∧
    IsCommit (graph chainStore) first ∧
    ¬ (deepenTag.Selects chainStore noRefs first ∨ first ∈ deepenTag.wants) := by
  have hplan : (plan chainStore noRefs deepenTag).map (fun p => p.objects.contains first) =
      .ok true := by
    decide +kernel
  obtain ⟨p, hp, hfirst⟩ := except_map_ok.mp hplan
  refine ⟨p, hp, BTreeSet.contains_iff_mem.mp hfirst,
    ⟨commitAt [] 50 114, readCommit_some.mp (by decide)⟩, ?_⟩
  rintro (⟨t, included, boundary, ht, hselect, hin⟩ | hw)
  · have hruns : (collectTips chainStore [mark] ⟨[], BTreeSet.empty⟩).bind (fun t =>
        (selectCommits chainStore noRefs BTreeSet.empty t.tips deepenTag.deepen).map
          fun r => r.1.contains first) = .ok false := by
      decide +kernel
    change collectTips chainStore [mark] ⟨[], BTreeSet.empty⟩ = .ok t at ht
    change selectCommits chainStore noRefs BTreeSet.empty t.tips deepenTag.deepen = _ at hselect
    rw [ht, Except.bind, hselect] at hruns
    have hno : included.contains first = false := Except.ok.inj hruns
    rw [BTreeSet.contains_iff_mem.mpr hin] at hno
    cases hno
  · exact absurd hw (by decide)

end FetchSample

end Puregit.Server
