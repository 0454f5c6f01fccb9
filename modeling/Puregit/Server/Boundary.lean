import Puregit.Lib.BreadthFirst
import Puregit.Server.Holdings

/-! # The boundary of a depth-limited walk

`shallowObjectsToSend` marks a commit as shallow where it meets it too deep to follow its
parents, and never takes the mark back.  A tag is queued again at the depth of the want
that names it, so a commit can be met too deep first and followed later: it is then both
followed and marked.  `boundary_exact_iff` says that nothing else goes wrong.
-/
namespace Puregit.Server
open ObjectDatabase ObjectGraph Relation Worklist

variable {D : Type} [ObjectDatabase D]

/-- The boundary is what it should be: the commits sent that have parents and whose least
distance from the wants is the depth, or that the client's boundary cuts off. -/
def BoundaryExact (g : ObjectGraph) (wants : List ObjectId) (depth : Nat) (cut : BTreeSet ObjectId)
    (r : ShallowResult) : Prop :=
  ∀ c commit, g c = some (.commit commit) →
    (c ∈ r.shallow ↔ c ∈ r.objects ∧ commit.parents ≠ [] ∧
      ∃ d, IsLeast { e | KnownAt g wants depth cut (c, e) } d ∧ (depth ≤ d ∨ c ∈ cut))

/-- Listing what the wants lead to breadth-first, a tag's target and a commit's parents
one step behind it, the commit is met at the depth before it is met above it. -/
def MetTooDeep (g : ObjectGraph) (wants : List ObjectId) (depth : Nat) (cut : BTreeSet ObjectId)
    (c : ObjectId) : Prop :=
  FirstMet (knownNext g depth cut) (wants.map fun w => (w, 1)) (c, depth)

variable {odb : D} {wants : List ObjectId} {depth : Nat} {cut : BTreeSet ObjectId}

theorem expand_knownNext (g : ObjectGraph) (depth : Nat) (cut : BTreeSet ObjectId)
    (x : ObjectId × Nat) : (fun x => .ok (some (knownNext g depth cut x)) :
      ObjectId × Nat → Except Error (Option (List (ObjectId × Nat)))) x =
        .ok (some (knownNext g depth cut x)) := rfl

theorem knownAt_iff_layer {g : ObjectGraph} {x : ObjectId × Nat} :
    KnownAt g wants depth cut x ↔
      ∃ n, x ∈ layer (knownNext g depth cut) (wants.map fun w => (w, 1)) n := by
  rw [← reached_knownNext]
  constructor
  · exact mem_layer_of_reached (expand_knownNext g depth cut)
  · rintro ⟨n, hn⟩
    exact reached_of_mem_layer (expand_knownNext g depth cut) hn

theorem KnownAt.depth_le {g : ObjectGraph} (hdepth : 1 ≤ depth) {x : ObjectId × Nat}
    (h : KnownAt g wants depth cut x) : x.2 ≤ depth := by
  obtain ⟨w, -, hpath⟩ := h
  induction hpath with
  | refl => exact hdepth
  | tail _ hab ih => exact knownNext_depth ih hab

/-- **What the walk marks**: the commits first met where their parents are not followed;
and the commits it meets are sent. -/
theorem shallowObjectsToSend_spec {r : ShallowResult}
    (h : shallowObjectsToSend odb wants depth cut = .ok r) :
    (∀ c, c ∈ r.shallow ↔ ∃ d, FirstMet (knownNext (graph odb) (max depth 1) cut)
      (wants.map fun w => (w, 1)) (c, d) ∧ CutAt (graph odb) (max depth 1) cut (c, d)) ∧
    ∀ c ∈ r.shallow, c ∈ r.objects := by
  obtain ⟨st, hrun, h⟩ := except_bind_ok.mp h
  obtain ⟨objects, -, h⟩ := except_bind_ok.mp h
  cases h
  have hdepth : 1 ≤ max depth 1 := le_max_right depth 1
  generalize max depth 1 = depth at hrun hdepth ⊢
  -- what was marked among the ids acted on, all of them commits collected
  let R : ShallowState → Set (ObjectId × Nat) → Prop := fun st acted =>
    (∀ c, c ∈ st.shallow ↔ ∃ d, (c, d) ∈ acted ∧ CutAt (graph odb) depth cut (c, d)) ∧
    ∀ c ∈ st.shallow, c ∈ st.commits
  have hact : ∀ st k d st' ks acted, R st acted →
      shallowVisit odb depth cut st (k, d) = .ok (some (st', ks)) →
        R st' (insert (k, d) acted) := by
    rintro st k d st' ks acted ⟨hmarked, hsent⟩ hv
    obtain ⟨-, -, hstep⟩ := shallowVisit_act hv
    refine ⟨fun c => ?_, fun c hc => ?_⟩
    · rw [hstep.shallow, hmarked]
      constructor
      · rintro (⟨e, he, hcut⟩ | ⟨rfl, hcut⟩)
        · exact ⟨e, Set.mem_insert_of_mem _ he, hcut⟩
        · exact ⟨d, Set.mem_insert _ _, hcut⟩
      · rintro ⟨e, he, hcut⟩
        rcases Set.mem_insert_iff.mp he with heq | he
        · obtain ⟨rfl, rfl⟩ := Prod.mk.inj heq
          exact Or.inr ⟨rfl, hcut⟩
        · exact Or.inl ⟨e, he, hcut⟩
    · rw [hstep.commits]
      rcases (hstep.shallow c).mp hc with hc | ⟨rfl, ⟨commit, hg, -⟩, -⟩
      · exact Or.inl (hsent c hc)
      · obtain ⟨ty, payload, hr, hp⟩ := graph_eq_some.mp hg
        refine Or.inr ⟨rfl, ty, payload, hr, ?_⟩
        rw [← Object.objectType_parse hp]
        simp [Object.objectType]
  have hroots : ∀ x ∈ wants.map fun w => (w, 1), x.2 ≤ depth := by
    intro x hx
    obtain ⟨w, -, rfl⟩ := List.mem_map.mp hx
    exact hdepth
  have hR : R st { x | FirstMet (knownNext (graph odb) depth cut) (wants.map fun w => (w, 1)) x } :=
    (explores_shallowVisit odb depth cut).mem_acted ShallowState.best
      (expand_knownNext (graph odb) depth cut) (knownNext_monotone (graph odb) depth cut)
      ObjectId.length_keys_le_count (Nat.lt_succ_self _) (fun x hx y hy => knownNext_depth hx hy)
      hroots rfl ⟨fun c => by simp, fun c hc => by simp at hc⟩ hact hrun
  refine ⟨hR.1, fun c hc => ?_⟩
  rw [BTreeSet.mem_extend, BTreeSet.mem_toList]
  exact Or.inl (hR.2 c hc)

/-- **When the boundary is exact**: no commit with parents, off the client's boundary and
above the depth, is met at the depth first. -/
theorem boundary_exact_iff {r : ShallowResult}
    (h : shallowObjectsToSend odb wants depth cut = .ok r) :
    BoundaryExact (graph odb) wants (max depth 1) cut r ↔
      ∀ c commit, graph odb c = some (.commit commit) → commit.parents ≠ [] → c ∉ cut →
        (∃ d < max depth 1, KnownAt (graph odb) wants (max depth 1) cut (c, d)) →
          ¬ MetTooDeep (graph odb) wants (max depth 1) cut c := by
  obtain ⟨hmarked, hsent⟩ := shallowObjectsToSend_spec h
  have hdepth : 1 ≤ max depth 1 := le_max_right depth 1
  generalize max depth 1 = depth at hmarked hdepth ⊢
  constructor
  · rintro hexact c commit hg hparents hcut ⟨d, hd, hknown⟩ hmet
    have hmark : c ∈ r.shallow :=
      (hmarked c).mpr ⟨depth, hmet, ⟨commit, hg, hparents⟩, Or.inl le_rfl⟩
    obtain ⟨-, -, least, hleast, hle | hin⟩ := (hexact c commit hg).mp hmark
    · have := hleast.2 hknown
      omega
    · exact hcut hin
  · intro hcond c commit hg
    constructor
    · intro hmark
      obtain ⟨d, hmet, ⟨commit', hg', hparents⟩, hstop⟩ := (hmarked c).mp hmark
      obtain rfl : commit' = commit := by simpa [hg] using hg'.symm
      have hknown : KnownAt (graph odb) wants depth cut (c, d) :=
        knownAt_iff_layer.mpr hmet.mem_layer
      have hsome : ∃ d, KnownAt (graph odb) wants depth cut (c, d) := ⟨d, hknown⟩
      classical
      obtain ⟨least, hleast⟩ : ∃ least,
          IsLeast { e | KnownAt (graph odb) wants depth cut (c, e) } least :=
        ⟨_, Nat.isLeast_find hsome⟩
      refine ⟨hsent c hmark, hparents, least, hleast, ?_⟩
      by_contra hno
      rw [not_or, not_le] at hno
      -- it was met at the depth first, but lies above it
      have hd : d = depth := by
        have hle : d ≤ depth := hknown.depth_le hdepth
        have hge : depth ≤ d := hstop.resolve_right hno.2
        omega
      subst hd
      exact hcond c commit' hg hparents hno.2 ⟨least, hno.1, hleast.1⟩ hmet
    · rintro ⟨-, hparents, d, hleast, hstop⟩
      refine (hmarked c).mpr ⟨d, ?_, ⟨commit, hg, hparents⟩, hstop⟩
      refine firstMet_of_least (knownAt_iff_layer.mp hleast.1) fun e he n hn => ?_
      have hle := hleast.2 (knownAt_iff_layer.mpr ⟨n, hn⟩ :
        KnownAt (graph odb) wants depth cut (c, e))
      exact absurd hle (by omega)

/-! ## A tag behind its child -/

namespace FetchSample

/-- A walk seen through its fields is one. -/
theorem exists_shallow (wants : List ObjectId) (depth : Nat) (objects shallow : List ObjectId)
    (h : (shallowObjectsToSend chainStore wants depth BTreeSet.empty).map
      (fun r => (r.objects.toList, r.shallow.toList)) = .ok (objects, shallow)) :
    ∃ r, shallowObjectsToSend chainStore wants depth BTreeSet.empty = .ok r ∧
      (∀ x, x ∈ r.objects ↔ x ∈ objects) ∧ ∀ x, x ∈ r.shallow ↔ x ∈ shallow := by
  obtain ⟨r, hr, hfields⟩ := except_map_ok.mp h
  cases hfields
  exact ⟨r, hr, fun x => BTreeSet.mem_toList.symm, fun x => BTreeSet.mem_toList.symm⟩

/-- At depth 2 the newest commit and its parent are all that is met. -/
theorem known_newest {x : ObjectId × Nat}
    (h : KnownAt (graph chainStore) [newest] (max 2 1) BTreeSet.empty x) :
    x ∈ [(newest, 1), (old, 2)] := by
  have hclosed : [(newest, 1), (old, 2)].all (fun x =>
      (knownNext (graph chainStore) (max 2 1) BTreeSet.empty x).all [(newest, 1),
        (old, 2)].contains) = true := by
    decide +kernel
  obtain ⟨w, hw, hpath⟩ := h
  obtain rfl := List.mem_singleton.mp hw
  induction hpath with
  | refl => exact List.mem_cons_self
  | tail _ hab ih =>
      exact List.contains_iff_mem.mp (List.all_eq_true.mp (List.all_eq_true.mp hclosed _ ih) _ hab)

/-- At depth 2 the parent of the newest commit is marked, and that is exact. -/
theorem depthTwo_exact : ∃ r, shallowObjectsToSend chainStore [newest] 2 BTreeSet.empty = .ok r ∧
    (∀ x, x ∈ r.shallow ↔ x ∈ [old]) ∧
    BoundaryExact (graph chainStore) [newest] (max 2 1) BTreeSet.empty r := by
  obtain ⟨r, hr, -, hshallow⟩ := exists_shallow [newest] 2 [newest, emptyTree, old] [old]
    (by decide +kernel)
  refine ⟨r, hr, hshallow, (boundary_exact_iff hr).mpr ?_⟩
  rintro c commit - - - ⟨d, hd, hknown⟩ hmet
  have habove : (c, d) = (newest, 1) ∨ (c, d) = (old, 2) := by simpa using known_newest hknown
  have hbelow : (c, max 2 1) = (newest, 1) ∨ (c, max 2 1) = (old, 2) := by
    simpa using known_newest (knownAt_iff_layer.mpr hmet.mem_layer)
  -- met above the depth it is the newest, and met at the depth it is the other
  rcases habove with heq | heq <;> obtain ⟨rfl, rfl⟩ := Prod.mk.inj heq
  · rcases hbelow with heq | heq
    · exact absurd (Prod.mk.inj heq).2 (by decide)
    · exact absurd (Prod.mk.inj heq).1 (by decide)
  · exact absurd hd (by decide)

/-- At depth 2 the tagged commit is marked, though its parents are followed. -/
theorem depthTwo_marked :
    ∃ r, shallowObjectsToSend chainStore [newest, mark] 2 BTreeSet.empty = .ok r ∧
    ¬ BoundaryExact (graph chainStore) [newest, mark] (max 2 1) BTreeSet.empty r := by
  obtain ⟨r, hr, -, hshallow⟩ := exists_shallow [newest, mark] 2
    [newest, emptyTree, first, old, mark] [old] (by decide +kernel)
  refine ⟨r, hr, fun hexact => ?_⟩
  have hold : graph chainStore old = some (.commit (commitAt [first] 100 111)) :=
    readCommit_some.mp (by decide +kernel)
  obtain ⟨-, -, d, hleast, hle | hin⟩ :=
    (hexact old _ hold).mp ((hshallow old).mpr (List.mem_singleton_self old))
  · -- the tag brings the commit to distance 1
    have hknown : KnownAt (graph chainStore) [newest, mark] (max 2 1) BTreeSet.empty (old, 1) := by
      have htag : (readObject chainStore mark).toOption.map Object.children = some [old] := by
        decide
      obtain ⟨o, ho, hchildren⟩ := Option.map_eq_some_iff.mp htag
      refine ⟨mark, by simp, .single ?_⟩
      have hty : (readObject chainStore mark).toOption.map Object.objectType = some .tag := by
        decide
      obtain ⟨o', ho', hot⟩ := Option.map_eq_some_iff.mp hty
      rw [ho] at ho'
      cases ho'
      cases o with
      | tag t =>
          have hg : graph chainStore mark = some (.tag t) := ho
          simp only [knownNext, hg, List.mem_singleton, Prod.mk.injEq, and_true]
          exact (List.singleton_injective hchildren).symm
      | blob _ | tree _ | commit _ => cases hot
    have := hleast.2 hknown
    omega
  · exact absurd hin (BTreeSet.not_mem_empty old)

end FetchSample

end Puregit.Server
