import Mathlib.Data.Fintype.Card
import Mathlib.Data.Fintype.EquivFin
import Mathlib.Order.WellFounded
import Puregit.Walk.SendSet

/-! # Merge bases

`mergeBases` intersects the ancestors of two commits and drops those that are a parent
of another common ancestor.  The common ancestors are closed under parents, so a proper
ancestor of a common ancestor is the parent of one: looking at direct parents suffices
for any shape of history.

`mergeBase` picks the base with the newest committer time.
-/
namespace Puregit
open ObjectDatabase ObjectGraph

namespace ObjectGraph

/-- `b` is `a` or is reached from it through parents. -/
def Ancestor (g : ObjectGraph) (a b : ObjectId) : Prop := Relation.ReflTransGen (Parent g) a b

/-- `x` is an ancestor of both commits. -/
def CommonAncestor (g : ObjectGraph) (a b x : ObjectId) : Prop := Ancestor g a x ∧ Ancestor g b x

/-- A common ancestor that no other one has as a proper ancestor. -/
def BestCommon (g : ObjectGraph) (a b x : ObjectId) : Prop :=
  CommonAncestor g a b x ∧
    ∀ y, CommonAncestor g a b y → y ≠ x → ¬ Relation.TransGen (Parent g) y x

/-- The committer time of a commit. -/
def committerTime (g : ObjectGraph) (id : ObjectId) : Int :=
  match g id with
  | some (.commit c) => c.committer.time
  | _ => 0

/-- Where every parent is a commit, every ancestor of a commit is one. -/
theorem Ancestor.isCommit {g : ObjectGraph} (hparents : ∀ x y, Parent g x y → IsCommit g y)
    {tip x : ObjectId} (h : Ancestor g tip x) (htip : IsCommit g tip) : IsCommit g x := by
  induction h with
  | refl => exact htip
  | tail _ hstep _ => exact hparents _ _ hstep

/-- What a proper ancestor of a common ancestor is a parent of: another common ancestor. -/
theorem CommonAncestor.last_step {g : ObjectGraph} {a b x y : ObjectId} (h : CommonAncestor g a b y)
    (hyx : Relation.TransGen (Parent g) y x) : ∃ z, CommonAncestor g a b z ∧ Parent g z x := by
  obtain ⟨z, hyz, hzx⟩ := Relation.TransGen.tail'_iff.mp hyx
  exact ⟨z, ⟨h.1.trans hyz, h.2.trans hyz⟩, hzx⟩

/-- Where no commit is its own parent, the best are those no common ancestor has as a
parent. -/
theorem bestCommon_iff {g : ObjectGraph} {a b x : ObjectId} (hirrefl : ¬ Parent g x x) :
    BestCommon g a b x ↔
      CommonAncestor g a b x ∧ ¬ ∃ z, CommonAncestor g a b z ∧ Parent g z x := by
  constructor
  · rintro ⟨hx, hbest⟩
    refine ⟨hx, ?_⟩
    rintro ⟨z, hz, hzx⟩
    refine hbest z hz ?_ (.single hzx)
    rintro rfl
    exact hirrefl hzx
  · rintro ⟨hx, hnone⟩
    exact ⟨hx, fun y hy _ hyx => hnone (hy.last_step hyx)⟩

end ObjectGraph

/-- There are finitely many ids. -/
theorem ObjectId.finite : Finite ObjectId :=
  Finite.of_injective (fun o => (⟨o.code, o.code_lt⟩ : Fin ObjectId.count))
    fun _ _ h => ObjectId.code_injective (Fin.mk.inj h)

/-- In a history without cycles some common ancestor is a best one, if there is any. -/
theorem ObjectGraph.exists_bestCommon {g : ObjectGraph}
    (hacyclic : ∀ x, ¬ Relation.TransGen (Parent g) x x) {a b x : ObjectId}
    (hx : CommonAncestor g a b x) : ∃ y, BestCommon g a b y := by
  have := ObjectId.finite
  -- a common ancestor that is minimal under "has as a proper ancestor"
  let r : ObjectId → ObjectId → Prop := fun y z => Relation.TransGen (Parent g) y z
  have : IsTrans ObjectId r := ⟨fun _ _ _ => Relation.TransGen.trans⟩
  have : Std.Irrefl r := ⟨hacyclic⟩
  have hwf : WellFounded r := Finite.wellFounded_of_trans_of_irrefl r
  obtain ⟨y, hy, hmin⟩ := hwf.has_min { y | CommonAncestor g a b y } ⟨x, hx⟩
  exact ⟨y, hy, fun z hz _ hzy => hmin z hz hzy⟩

variable {D : Type} [ObjectDatabase D]

/-! ## The ancestors of a commit -/

/-- Visits one commit: its parents not met before are queued. -/
def ancestorsVisit (odb : D) (seen : BTreeSet ObjectId) (id : ObjectId) :
    Except Error (Option (BTreeSet ObjectId × List ObjectId)) := do
  match ← readCommit odb id with
  | none => .ok none
  | some commit =>
    let fresh := freshParents seen commit.parents
    .ok (some (seen.extend fresh, fresh))

/-- A commit and all its ancestors. -/
def commitAncestors (odb : D) (tip : ObjectId) : Except Error (BTreeSet ObjectId) :=
  Worklist.run (ancestorsVisit odb) Worklist.queue ObjectId.fuel (BTreeSet.empty.insert tip) [tip]

theorem ancestorsVisit_skip {odb : D} {seen : BTreeSet ObjectId} {id : ObjectId}
    (h : ancestorsVisit odb seen id = .ok none) : readCommit odb id = .ok none := by
  obtain ⟨c, hc, h⟩ := except_bind_ok.mp h
  cases c with
  | none => exact hc
  | some c => cases h

theorem ancestorsVisit_act {odb : D} {seen seen' : BTreeSet ObjectId} {id : ObjectId}
    {ks : List ObjectId} (h : ancestorsVisit odb seen id = .ok (some (seen', ks))) :
    ∃ c, graph odb id = some (.commit c) ∧ ks = freshParents seen c.parents ∧
      seen' = seen.extend ks := by
  obtain ⟨c, hc, h⟩ := except_bind_ok.mp h
  cases c with
  | none => cases h
  | some c =>
      cases h
      exact ⟨c, readCommit_some.mp hc, rfl, rfl⟩

/-- An id that does not name a commit that can be read has no parents. -/
theorem no_parents_of_readCommit {odb : D} {id p : ObjectId} (h : readCommit odb id = .ok none) :
    ¬ Parent (graph odb) id p := by
  rintro ⟨c, hc, -⟩
  rw [readCommit_some.mpr hc] at h
  cases h

/-- The parents not met yet are queued once each. -/
theorem size_extend_freshParents (ps : List ObjectId) : ∀ seen : BTreeSet ObjectId,
    (seen.extend (freshParents seen ps)).size = seen.size + (freshParents seen ps).length := by
  induction ps with
  | nil => exact fun seen => rfl
  | cons p ps ih =>
      intro seen
      rw [freshParents]
      split
      · exact ih seen
      · rename_i hp
        show ((seen.insert p).extend (freshParents (seen.insert p) ps)).size = _
        rw [ih (seen.insert p), BTreeSet.size_insert hp, List.length_cons]
        omega

theorem mem_extend_freshParents {x : ObjectId} (ps : List ObjectId) : ∀ seen : BTreeSet ObjectId,
    x ∈ seen.extend (freshParents seen ps) ↔ x ∈ ps ∨ x ∈ seen := by
  induction ps with
  | nil => exact fun seen => by simp [freshParents, BTreeSet.extend]
  | cons p ps ih =>
      intro seen
      rw [freshParents]
      split
      · rename_i hp
        rw [ih seen, List.mem_cons]
        constructor
        · rintro (h | h)
          · exact Or.inl (Or.inr h)
          · exact Or.inr h
        · rintro ((rfl | h) | h)
          · exact Or.inr hp
          · exact Or.inl h
          · exact Or.inr h
      · show x ∈ (seen.insert p).extend (freshParents (seen.insert p) ps) ↔ _
        rw [ih (seen.insert p), BTreeSet.mem_insert, List.mem_cons]
        tauto

/-- What was met is an ancestor; what a commit met leads to was met, unless it is still
queued. -/
structure AncestorsInv (g : ObjectGraph) (tip : ObjectId) (seen : BTreeSet ObjectId)
    (todo : List ObjectId) : Prop where
  tip_mem : tip ∈ seen
  sound : ∀ x ∈ seen, Ancestor g tip x
  queued : ∀ x ∈ todo, x ∈ seen
  closed : ∀ x ∈ seen, x ∈ todo ∨ ∀ p, Parent g x p → p ∈ seen

section Ancestors
variable {odb : D} {tip : ObjectId}

theorem AncestorsInv.skip {seen : BTreeSet ObjectId} {id : ObjectId} {rest : List ObjectId}
    (h : AncestorsInv (graph odb) tip seen (id :: rest))
    (hv : ancestorsVisit odb seen id = .ok none) : AncestorsInv (graph odb) tip seen rest where
  tip_mem := h.tip_mem
  sound := h.sound
  queued x hx := h.queued x (List.mem_cons_of_mem id hx)
  closed x hx := by
    rcases h.closed x hx with hin | hp
    · rcases List.mem_cons.mp hin with rfl | hin
      · exact Or.inr fun p hp => absurd hp (no_parents_of_readCommit (ancestorsVisit_skip hv))
      · exact Or.inl hin
    · exact Or.inr hp

theorem AncestorsInv.act {seen seen' : BTreeSet ObjectId} {id : ObjectId} {rest ks : List ObjectId}
    (h : AncestorsInv (graph odb) tip seen (id :: rest))
    (hv : ancestorsVisit odb seen id = .ok (some (seen', ks))) :
    AncestorsInv (graph odb) tip seen' (Worklist.queue ks rest) := by
  obtain ⟨c, hc, hks, hseen⟩ := ancestorsVisit_act hv
  have hmem : ∀ x, x ∈ seen' ↔ x ∈ c.parents ∨ x ∈ seen := by
    intro x
    rw [hseen, hks]
    exact mem_extend_freshParents c.parents seen
  have hid : id ∈ seen := h.queued id List.mem_cons_self
  constructor
  case tip_mem => exact (hmem tip).mpr (Or.inr h.tip_mem)
  case sound =>
    intro x hx
    rcases (hmem x).mp hx with hx | hx
    · exact (h.sound id hid).tail ⟨c, hc, hx⟩
    · exact h.sound x hx
  case queued =>
    intro x hx
    rcases Worklist.mem_queue.mp hx with hx | hx
    · rw [hseen]
      exact BTreeSet.mem_extend.mpr (Or.inl hx)
    · exact (hmem x).mpr (Or.inr (h.queued x (List.mem_cons_of_mem id hx)))
  case closed =>
    intro x hx
    by_cases hold : x ∈ seen
    · rcases h.closed x hold with hin | hp
      · rcases List.mem_cons.mp hin with rfl | hin
        · -- the commit just visited: all its parents were met
          refine Or.inr fun p hp => (hmem p).mpr (Or.inl ?_)
          obtain ⟨c', hc', hp⟩ := hp
          rw [hc] at hc'
          cases hc'
          exact hp
        · exact Or.inl (Worklist.mem_queue.mpr (Or.inr hin))
      · exact Or.inr fun p hp' => (hmem p).mpr (Or.inr (hp p hp'))
    · rw [hseen] at hx
      rcases BTreeSet.mem_extend.mp hx with hx | hx
      · exact Or.inl (Worklist.mem_queue.mpr (Or.inl hx))
      · exact absurd hx hold

theorem AncestorsInv.init : AncestorsInv (graph odb) tip (BTreeSet.empty.insert tip) [tip] where
  tip_mem := BTreeSet.mem_insert.mpr (Or.inl rfl)
  sound x hx := by
    rcases BTreeSet.mem_insert.mp hx with rfl | hx
    · exact .refl
    · exact absurd hx (BTreeSet.not_mem_empty x)
  queued x hx := by
    rw [List.mem_singleton.mp hx]
    exact BTreeSet.mem_insert.mpr (Or.inl rfl)
  closed x hx := by
    rcases BTreeSet.mem_insert.mp hx with rfl | hx
    · exact Or.inl (List.mem_singleton_self x)
    · exact absurd hx (BTreeSet.not_mem_empty x)

/-- **What is collected**: the ancestors of the tip, itself included. -/
theorem mem_commitAncestors {r : BTreeSet ObjectId} (h : commitAncestors odb tip = .ok r)
    {x : ObjectId} : x ∈ r ↔ Ancestor (graph odb) tip x := by
  -- every id met is queued once, so that the room left and the queue shrink together
  let μ : BTreeSet ObjectId → List ObjectId → Nat := fun seen todo =>
    (ObjectId.count - seen.size) + todo.length
  have hend : AncestorsInv (graph odb) tip r [] := by
    refine Worklist.run_ok_todo (I := AncestorsInv (graph odb) tip) μ ?_ ?_ ?_ AncestorsInv.init h
    · intro seen k rest hI hv
      refine ⟨hI.skip hv, ?_⟩
      show _ + rest.length ≤ _ + (rest.length + 1)
      omega
    · intro seen k rest seen' ks hI hv
      refine ⟨hI.act hv, ?_⟩
      obtain ⟨c, -, hks, hseen⟩ := ancestorsVisit_act hv
      have hsize : seen'.size = seen.size + ks.length := by
        rw [hseen, hks]
        exact size_extend_freshParents c.parents seen
      have hle := ObjectId.size_le_count seen'
      show (ObjectId.count - seen'.size) + (rest ++ ks).length < _ + (rest.length + 1)
      rw [List.length_append]
      omega
    · have hsize : (BTreeSet.empty.insert tip).size = 1 :=
        BTreeSet.size_insert (BTreeSet.not_mem_empty tip)
      have hle := ObjectId.size_le_count (BTreeSet.empty.insert tip)
      show (ObjectId.count - (BTreeSet.empty.insert tip).size) + 1 < ObjectId.count + 1
      omega
  refine ⟨hend.sound x, fun hx => ?_⟩
  induction hx with
  | refl => exact hend.tip_mem
  | tail _ hstep ih =>
      rcases hend.closed _ ih with hin | hp
      · cases hin
      · exact hp _ hstep

/-- Where every parent is a commit, the ancestors of a commit can be collected. -/
theorem commitAncestors_returns (hparents : ∀ x y, Parent (graph odb) x y → IsCommit (graph odb) y)
    (htip : IsCommit (graph odb) tip) : ∃ r, commitAncestors odb tip = .ok r := by
  let I : BTreeSet ObjectId → List ObjectId → Prop :=
    fun _ todo => ∀ x ∈ todo, IsCommit (graph odb) x
  have hskip : ∀ seen k rest, I seen (k :: rest) → ancestorsVisit odb seen k = .ok none →
      I seen rest :=
    fun _ k _ hI _ x hx => hI x (List.mem_cons_of_mem k hx)
  have hact : ∀ seen k rest seen' ks, I seen (k :: rest) →
      ancestorsVisit odb seen k = .ok (some (seen', ks)) → I seen' (Worklist.queue ks rest) := by
    intro seen k rest seen' ks hI hv x hx
    obtain ⟨c, hc, hks, -⟩ := ancestorsVisit_act hv
    rcases Worklist.mem_queue.mp hx with hx | hx
    · rw [hks] at hx
      exact hparents k x ⟨c, hc, mem_freshParents hx⟩
    · exact hI x (List.mem_cons_of_mem k hx)
  have hvisit : ∀ seen k rest e, I seen (k :: rest) → ancestorsVisit odb seen k ≠ .error e := by
    intro seen k rest e hI hv
    obtain ⟨c, hc⟩ := hI k List.mem_cons_self
    rw [ancestorsVisit, readCommit_some.mpr hc] at hv
    cases hv
  refine Worklist.run_returns hskip hact hvisit ?_ ObjectId.fuel
  intro x hx
  rwa [List.mem_singleton.mp hx]

end Ancestors

/-! ## The bases -/

/-- Marks the parents of a common ancestor that are common ancestors too. -/
def markParents (odb : D) (common redundant : BTreeSet ObjectId) (id : ObjectId) :
    Except Error (BTreeSet ObjectId) := do
  match ← readCommit odb id with
  | none => .ok redundant
  | some commit => .ok (redundant.extend (commit.parents.filter common.contains))

/-- All best common ancestors of two commits. -/
def mergeBases (odb : D) (a b : ObjectId) : Except Error (List ObjectId) := do
  let ancestorsOfA ← commitAncestors odb a
  let ancestorsOfB ← commitAncestors odb b
  let common := ancestorsOfA.retain ancestorsOfB.contains
  let redundant ← common.toList.foldlM (markParents odb common) BTreeSet.empty
  .ok (common.toList.filter fun id => !redundant.contains id && contains odb id)

/-- Keeps the best base so far unless another is newer. -/
def keepNewest (odb : D) (best : Option (Int × ObjectId)) (id : ObjectId) :
    Except Error (Option (Int × ObjectId)) := do
  let payload ← readTyped odb id .commit
  let commit ← Commit.parse (algo odb) payload
  let time := commit.committer.time
  if best.all fun b => time > b.1 then .ok (some (time, id)) else .ok best

/-- The best merge base of two commits. -/
def mergeBase (odb : D) (a b : ObjectId) : Except Error (Option ObjectId) := do
  let bases ← mergeBases odb a b
  let best ← bases.foldlM (keepNewest odb) none
  .ok (best.map Prod.snd)

/-- What a list of common ancestors marks: their parents that are common. -/
theorem mem_foldlM_markParents {odb : D} {common : BTreeSet ObjectId} (l : List ObjectId) :
    ∀ {redundant r : BTreeSet ObjectId}, l.foldlM (markParents odb common) redundant = .ok r →
      ∀ x, x ∈ r ↔ x ∈ redundant ∨ x ∈ common ∧ ∃ z ∈ l, Parent (graph odb) z x := by
  induction l with
  | nil =>
      intro redundant r h x
      cases h
      simp
  | cons id l ih =>
      intro redundant r h x
      rw [List.foldlM_cons] at h
      obtain ⟨marked, hmarked, hrest⟩ := except_bind_ok.mp h
      obtain ⟨c, hc, hm⟩ := except_bind_ok.mp hmarked
      have hstep : x ∈ marked ↔ x ∈ redundant ∨ x ∈ common ∧ Parent (graph odb) id x := by
        cases c with
        | none =>
            cases hm
            have hnone := no_parents_of_readCommit (p := x) hc
            tauto
        | some c =>
            cases hm
            have hc' := readCommit_some.mp hc
            have hparent : Parent (graph odb) id x ↔ x ∈ c.parents := by
              constructor
              · rintro ⟨c', hc'', hx⟩
                rw [hc'] at hc''
                cases hc''
                exact hx
              · exact fun hx => ⟨c, hc', hx⟩
            rw [BTreeSet.mem_extend, List.mem_filter, hparent, BTreeSet.contains_iff_mem]
            tauto
      rw [ih hrest, hstep]
      constructor
      · rintro ((h | ⟨hx, hid⟩) | ⟨hx, z, hz, hzx⟩)
        · exact Or.inl h
        · exact Or.inr ⟨hx, id, List.mem_cons_self, hid⟩
        · exact Or.inr ⟨hx, z, List.mem_cons_of_mem id hz, hzx⟩
      · rintro (h | ⟨hx, z, hz, hzx⟩)
        · exact Or.inl (Or.inl h)
        · rcases List.mem_cons.mp hz with rfl | hz
          · exact Or.inl (Or.inr ⟨hx, hzx⟩)
          · exact Or.inr ⟨hx, z, hz, hzx⟩

/-- A history the bases are looked for in: every parent is a commit, no commit is its own
proper ancestor, and the database says of a commit it can read that it is there. -/
structure History (odb : D) : Prop where
  parents : ∀ x y, Parent (graph odb) x y → IsCommit (graph odb) y
  acyclic : ∀ x, ¬ Relation.TransGen (Parent (graph odb)) x x
  present : ∀ x, IsCommit (graph odb) x → contains odb x = true

section Bases
variable {odb : D} {a b : ObjectId}

/-- **The bases are the best common ancestors**, in order. -/
theorem mem_mergeBases (hh : History odb) (ha : IsCommit (graph odb) a) {bases : List ObjectId}
    (h : mergeBases odb a b = .ok bases) :
    bases.Pairwise (· < ·) ∧ ∀ x, x ∈ bases ↔ BestCommon (graph odb) a b x := by
  obtain ⟨as, has, h⟩ := except_bind_ok.mp h
  obtain ⟨bs, hbs, h⟩ := except_bind_ok.mp h
  obtain ⟨redundant, hredundant, h⟩ := except_bind_ok.mp h
  cases h
  refine ⟨(BTreeSet.toList_sorted _).filter _, fun x => ?_⟩
  have hcommon : ∀ y, y ∈ as.retain bs.contains ↔ CommonAncestor (graph odb) a b y := by
    intro y
    rw [BTreeSet.mem_retain, BTreeSet.contains_iff_mem, mem_commitAncestors has,
      mem_commitAncestors hbs]
    rfl
  have hirrefl : ¬ Parent (graph odb) x x := fun hx => hh.acyclic x (.single hx)
  have hmarked := mem_foldlM_markParents _ hredundant x
  simp only [BTreeSet.not_mem_empty, BTreeSet.mem_toList, hcommon, false_or] at hmarked
  rw [List.mem_filter, BTreeSet.mem_toList, hcommon, Bool.and_eq_true, Bool.not_eq_true',
    BTreeSet.contains_eq_false, hmarked, bestCommon_iff hirrefl]
  constructor
  · rintro ⟨hx, hnot, -⟩
    exact ⟨hx, fun hz => hnot ⟨hx, hz⟩⟩
  · rintro ⟨hx, hnot⟩
    exact ⟨hx, fun hz => hnot hz.2, hh.present x (hx.1.isCommit hh.parents ha)⟩

theorem mergeBases_returns (hh : History odb) (ha : IsCommit (graph odb) a)
    (hb : IsCommit (graph odb) b) : ∃ bases, mergeBases odb a b = .ok bases := by
  obtain ⟨as, has⟩ := commitAncestors_returns hh.parents ha
  obtain ⟨bs, hbs⟩ := commitAncestors_returns hh.parents hb
  have hmark : ∀ (common : BTreeSet ObjectId) (l : List ObjectId),
    (∀ x ∈ l, IsCommit (graph odb) x) →
      ∀ redundant, ∃ r, l.foldlM (markParents odb common) redundant = .ok r := by
    intro common l
    induction l with
    | nil => exact fun _ redundant => ⟨redundant, rfl⟩
    | cons id l ih =>
        intro hl redundant
        obtain ⟨c, hc⟩ := hl id List.mem_cons_self
        obtain ⟨r, hr⟩ := ih (fun x hx => hl x (List.mem_cons_of_mem id hx))
          (redundant.extend (c.parents.filter common.contains))
        refine ⟨r, ?_⟩
        rw [List.foldlM_cons, markParents, readCommit_some.mpr hc]
        exact hr
  obtain ⟨redundant, hredundant⟩ := hmark (as.retain bs.contains) (as.retain bs.contains).toList
    (fun x hx => by
      obtain ⟨hx, -⟩ := BTreeSet.mem_retain.mp (BTreeSet.mem_toList.mp hx)
      exact ((mem_commitAncestors has).mp hx).isCommit hh.parents ha) BTreeSet.empty
  refine ⟨(as.retain bs.contains).toList.filter fun id => !redundant.contains id &&
    contains odb id, ?_⟩
  rw [mergeBases, has, hbs]
  simp only [except_ok_bind, hredundant]

/-- The bases do not depend on the order of the two commits. -/
theorem mergeBases_comm (odb : D) (a b : ObjectId) (as bs : BTreeSet ObjectId)
    (has : commitAncestors odb a = .ok as) (hbs : commitAncestors odb b = .ok bs) :
    mergeBases odb a b = mergeBases odb b a := by
  have hcommon : as.retain bs.contains = bs.retain as.contains := by
    refine BTreeSet.ext_mem fun x => ?_
    rw [BTreeSet.mem_retain, BTreeSet.mem_retain, BTreeSet.contains_iff_mem,
      BTreeSet.contains_iff_mem]
    exact and_comm
  rw [mergeBases, mergeBases, has, hbs]
  simp only [except_ok_bind, hcommon]

/-- `m` is the newest of some commits, and of those as new the first. -/
def Newest (g : ObjectGraph) (l : List ObjectId) (m : ObjectId) : Prop :=
  m ∈ l ∧ ∀ x ∈ l, committerTime g x < committerTime g m ∨
    committerTime g x = committerTime g m ∧ m ≤ x

/-- One step of the choice, where the base is a commit. -/
theorem keepNewest_of_isCommit {id : ObjectId} (h : IsCommit (graph odb) id)
    (best : Option (Int × ObjectId)) : keepNewest odb best id =
      .ok (if best.all fun b => committerTime (graph odb) id > b.1
        then some (committerTime (graph odb) id, id) else best) := by
  obtain ⟨c, hc⟩ := h
  obtain ⟨ty, payload, hr, hp⟩ := graph_eq_some.mp hc
  obtain rfl : ty = .commit := (Object.objectType_parse hp).symm
  obtain ⟨c', hparse, hcc⟩ := except_map_ok.mp hp
  cases hcc
  rw [keepNewest, readTyped_ok.mpr hr]
  simp only [except_ok_bind, hparse, committerTime, hc]
  split <;> rfl

/-- What is kept of a list in order: the newest. -/
theorem foldlM_keepNewest (l : List ObjectId) : l.Pairwise (· < ·) →
    (∀ x ∈ l, IsCommit (graph odb) x) → ∃ best, l.foldlM (keepNewest odb) none = .ok best ∧
      (best = none ↔ l = []) ∧
      ∀ t m, best = some (t, m) → t = committerTime (graph odb) m ∧ Newest (graph odb) l m := by
  induction l using List.reverseRecOn with
  | nil => exact fun _ _ => ⟨none, rfl, by simp, fun t m h => by cases h⟩
  | append_singleton l id ih =>
      intro hsorted hl
      obtain ⟨hsorted', -, hlast⟩ := List.pairwise_append.mp hsorted
      have hlt : ∀ x ∈ l, x < id := fun x hx => hlast x hx id (List.mem_singleton_self id)
      obtain ⟨best, hbest, hnone, hsome⟩ := ih hsorted' fun x hx => hl x (List.mem_append_left _ hx)
      have hid : IsCommit (graph odb) id :=
        hl id (List.mem_append_right _ (List.mem_singleton_self id))
      refine ⟨if best.all fun b => committerTime (graph odb) id > b.1
        then some (committerTime (graph odb) id, id) else best, ?_, ?_, ?_⟩
      · rw [List.foldlM_append, hbest, except_ok_bind, List.foldlM_cons,
          keepNewest_of_isCommit hid best,
          except_ok_bind, List.foldlM_nil]
        rfl
      · constructor
        · intro h
          cases best with
          | none => cases h
          | some b => split at h <;> cases h
        · intro h
          simp at h
      · intro t m h
        cases best with
        | none =>
            obtain rfl := hnone.mp rfl
            cases h
            refine ⟨rfl, List.mem_singleton_self id, fun x hx => ?_⟩
            rw [List.mem_singleton.mp hx]
            exact Or.inr ⟨rfl, le_refl _⟩
        | some b =>
            obtain ⟨ht, hm, hmax⟩ := hsome b.1 b.2 rfl
            split at h
            · -- the last one is newer than all before
              rename_i hnewer
              have hnewer' : b.1 < committerTime (graph odb) id := of_decide_eq_true hnewer
              cases h
              refine ⟨rfl, List.mem_append_right _ (List.mem_singleton_self id), fun x hx => ?_⟩
              rcases List.mem_append.mp hx with hx | hx
              · rcases hmax x hx with hx' | ⟨hx', -⟩ <;> exact Or.inl (by omega)
              · rw [List.mem_singleton.mp hx]
                exact Or.inr ⟨rfl, le_refl _⟩
            · rename_i hnewer
              have hnewer' : ¬ b.1 < committerTime (graph odb) id := fun hlt' =>
                hnewer (decide_eq_true hlt')
              cases h
              refine ⟨ht, List.mem_append_left _ hm, fun x hx => ?_⟩
              rcases List.mem_append.mp hx with hx | hx
              · exact hmax x hx
              · rw [List.mem_singleton.mp hx]
                rcases lt_or_eq_of_le (not_lt.mp hnewer') with hlt' | heq
                · exact Or.inl (ht ▸ hlt')
                · exact Or.inr ⟨heq.trans ht, (hlt _ hm).le⟩

/-- **Merge bases**: in a complete history without cycles the bases of two commits are
their best common ancestors in order, whichever commit is named first; there is one
where there is a common ancestor; and the one picked is the newest. -/
theorem mergeBases_spec (hh : History odb) (ha : IsCommit (graph odb) a)
    (hb : IsCommit (graph odb) b) :
    ∃ bases best, mergeBases odb a b = .ok bases ∧ mergeBases odb b a = .ok bases ∧
      mergeBase odb a b = .ok best ∧ bases.Pairwise (· < ·) ∧
      (∀ x, x ∈ bases ↔ BestCommon (graph odb) a b x) ∧
      (bases = [] ↔ ¬ ∃ x, CommonAncestor (graph odb) a b x) ∧
      (best = none ↔ bases = []) ∧ ∀ m, best = some m → Newest (graph odb) bases m := by
  obtain ⟨bases, hbases⟩ := mergeBases_returns hh ha hb
  obtain ⟨as, has⟩ := commitAncestors_returns hh.parents ha
  obtain ⟨bs, hbs⟩ := commitAncestors_returns hh.parents hb
  obtain ⟨hsorted, hmem⟩ := mem_mergeBases hh ha hbases
  obtain ⟨best, hbest, hnone, hsome⟩ := foldlM_keepNewest bases hsorted fun x hx =>
    ((hmem x).mp hx).1.1.isCommit hh.parents ha
  refine ⟨bases, best.map Prod.snd, hbases, ?_, ?_, hsorted, hmem, ?_, ?_, ?_⟩
  · rw [← mergeBases_comm odb a b as bs has hbs]
    exact hbases
  · exact except_bind_ok.mpr ⟨bases, hbases, except_bind_ok.mpr ⟨best, hbest, rfl⟩⟩
  · constructor
    · rintro hnil ⟨x, hx⟩
      obtain ⟨y, hy⟩ := exists_bestCommon hh.acyclic hx
      have hin := (hmem y).mpr hy
      rw [hnil] at hin
      cases hin
    · intro hno
      refine List.eq_nil_iff_forall_not_mem.mpr fun x hx => hno ⟨x, ((hmem x).mp hx).1⟩
  · rw [Option.map_eq_none_iff, hnone]
  · intro m hm
    obtain ⟨⟨t, m'⟩, hb', rfl⟩ := Option.map_eq_some_iff.mp hm
    exact (hsome t m' hb').2

end Bases

/-! ## Histories dated in order -/

/-- A history whose commits are all newer than their parents has no cycle. -/
theorem ObjectGraph.acyclic_of_older {g : ObjectGraph}
    (h : ∀ x y, Parent g x y → committerTime g y < committerTime g x) (x : ObjectId) :
    ¬ Relation.TransGen (Parent g) x x := by
  have hlt : ∀ {x y}, Relation.TransGen (Parent g) x y → committerTime g y < committerTime g x := by
    intro x y hxy
    induction hxy with
    | single hstep => exact h _ _ hstep
    | tail _ hstep ih => exact (h _ _ hstep).trans ih
  exact fun hx => lt_irrefl _ (hlt hx)

/-- Whether all commits stored are newer than their parents. -/
def MemoryOdb.parentsOlder (odb : MemoryOdb) : Bool :=
  odb.objects.toList.all fun b =>
    match graph odb b.1 with
    | some (.commit c) => c.parents.all fun p => committerTime (graph odb) p < c.committer.time
    | _ => true

theorem MemoryOdb.older_of_parentsOlder {odb : MemoryOdb} (h : odb.parentsOlder = true)
    (x y : ObjectId) (hxy : Parent (graph odb) x y) :
    committerTime (graph odb) y < committerTime (graph odb) x := by
  obtain ⟨c, hc, hy⟩ := hxy
  obtain ⟨ty, payload, hr, -⟩ := graph_eq_some.mp hc
  have hb := List.all_eq_true.mp h _ (BTreeMap.get?_eq_some.mp (MemoryOdb.read_eq_ok.mp hr))
  simp only [hc] at hb
  have hlt := of_decide_eq_true (List.all_eq_true.mp hb y hy)
  have htime : committerTime (graph odb) x = c.committer.time := by rw [committerTime, hc]
  rwa [htime]

namespace CrissCross

theorem isHistory : History history where
  parents := complete.parents
  acyclic := acyclic_of_older (MemoryOdb.older_of_parentsOlder (by decide +kernel))
  present x hx := by
    obtain ⟨c, hc⟩ := hx
    refine complete.contains_iff_holds.mpr ?_
    rw [Holds, hc]
    rfl

/-- The bases of the two merges. -/
theorem mergeBases_merges : ∃ bases best, mergeBases history mergeLeft mergeRight = .ok bases ∧
    mergeBases history mergeRight mergeLeft = .ok bases ∧
    mergeBase history mergeLeft mergeRight = .ok best ∧ bases.Pairwise (· < ·) ∧
    (∀ x, x ∈ bases ↔ BestCommon (graph history) mergeLeft mergeRight x) ∧
    (bases = [] ↔ ¬ ∃ x, CommonAncestor (graph history) mergeLeft mergeRight x) ∧
    (best = none ↔ bases = []) ∧ ∀ m, best = some m → Newest (graph history) bases m := by
  have hcommits : readCommit history mergeLeft = .ok (some (commitAt [left, right] 7 120)) ∧
      readCommit history mergeRight = .ok (some (commitAt [right, left] 8 121)) := by decide +kernel
  exact mergeBases_spec isHistory ⟨_, readCommit_some.mp hcommits.1⟩ ⟨_,
    readCommit_some.mp hcommits.2⟩

/-- Both branches are bases, and the newer one is picked. -/
example : mergeBases history mergeLeft mergeRight = .ok [right, left] ∧
    mergeBase history mergeLeft mergeRight = .ok (some right) := by decide +kernel

end CrissCross

end Puregit
