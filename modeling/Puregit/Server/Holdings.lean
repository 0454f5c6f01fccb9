import Puregit.Server.Select

/-! # What a client is known to hold

`clientHoldings` walks from the haves, never past a commit of the client's boundary, and
closes over the trees.  `Known` says the same over the object graph.  What is known is
held by every client that holds the closure of its haves cut at its boundary
(`Known.cut_reachable`), so leaving it out of a response is safe.
-/
namespace Puregit.Server
open ObjectDatabase ObjectGraph Relation

/-! ## The graph's side -/

/-- What the walk over a client's history goes on to from an id at a depth. -/
def knownNext (g : ObjectGraph) (depth : Nat) (cut : BTreeSet ObjectId) (x : ObjectId × Nat) :
    List (ObjectId × Nat) :=
  match g x.1 with
  | some (.commit c) =>
    if x.2 ≥ depth || cut.contains x.1 then [] else c.parents.map fun p => (p, x.2 + 1)
  | some (.tag t) => [(t.object, x.2)]
  | _ => []

/-- The id is reached from a have without passing a commit of `cut`. -/
def KnownAt (g : ObjectGraph) (haves : List ObjectId) (depth : Nat) (cut : BTreeSet ObjectId)
    (x : ObjectId × Nat) : Prop :=
  ∃ h ∈ haves, ReflTransGen (fun a b => b ∈ knownNext g depth cut a) (h, 1) x

/-- The ids a client with these haves and this boundary is known to hold. -/
def Known (g : ObjectGraph) (haves : List ObjectId) (cut : BTreeSet ObjectId)
    (x : ObjectId) : Prop :=
  if cut.toList.isEmpty then ∃ h ∈ haves, ReflTransGen (Refers g) h x
  else Holds g x ∧ ∃ a d, KnownAt g haves u32Max cut (a, d) ∧
    (x = a ∨ ∃ t, TreeRoot g a t ∧ ReflTransGen (Refers g) t x)

/-- A step of the walk does not go past the boundary. -/
theorem cutRefers_of_knownNext {g : ObjectGraph} {depth : Nat} {cut : BTreeSet ObjectId}
    {x y : ObjectId × Nat} (h : y ∈ knownNext g depth cut x) : CutRefers g cut.toSet x.1 y.1 := by
  rw [knownNext] at h
  split at h
  · rename_i c hc
    split at h
    · cases h
    rename_i hcut
    obtain ⟨p, hp, rfl⟩ := List.mem_map.mp h
    refine ⟨Parent.refers ⟨c, hc, hp⟩, fun hin => ?_⟩
    rw [Bool.or_eq_true, not_or] at hcut
    exact absurd (BTreeSet.contains_iff_mem.mpr (BTreeSet.mem_toSet.mp hin)) hcut.2
  · rename_i t ht
    obtain rfl := List.mem_singleton.mp h
    refine ⟨⟨_, ht, List.mem_singleton_self _⟩, fun _ => Or.inl fun hc => ?_⟩
    obtain ⟨c, hcc⟩ := isCommit_of_eq ht hc
    cases hcc
  · cases h

theorem KnownAt.cut_reachable {g : ObjectGraph} {haves : List ObjectId} {depth : Nat}
    {cut : BTreeSet ObjectId} {x : ObjectId × Nat} (h : KnownAt g haves depth cut x) :
    ∃ h ∈ haves, ReflTransGen (CutRefers g cut.toSet) h x.1 := by
  obtain ⟨root, hroot, hpath⟩ := h
  exact ⟨root, hroot, hpath.lift Prod.fst fun a b he => cutRefers_of_knownNext he⟩

theorem knownAt_congr {g : ObjectGraph} {haves haves' : List ObjectId} {depth : Nat}
    {cut : BTreeSet ObjectId} {x : ObjectId × Nat} (hsame : ∀ x, x ∈ haves' ↔ x ∈ haves) :
    KnownAt g haves' depth cut x ↔ KnownAt g haves depth cut x := by
  simp only [KnownAt, hsame]

theorem KnownAt.step {g : ObjectGraph} {haves : List ObjectId} {depth : Nat}
    {cut : BTreeSet ObjectId} {x y : ObjectId × Nat} (h : KnownAt g haves depth cut x)
    (hy : y ∈ knownNext g depth cut x) : KnownAt g haves depth cut y := by
  obtain ⟨root, hroot, hpath⟩ := h
  exact ⟨root, hroot, hpath.tail hy⟩

variable {D : Type} [ObjectDatabase D] {odb : D}

/-- **What is known to be held is reached from a have without passing the boundary.** -/
theorem Known.cut_reachable (hc : Complete odb) {haves : List ObjectId} {cut : BTreeSet ObjectId}
    {x : ObjectId} (h : Known (graph odb) haves cut x) :
    ∃ h ∈ haves, ReflTransGen (CutRefers (graph odb) cut.toSet) h x := by
  rw [Known] at h
  split at h
  · rename_i hempty
    obtain ⟨root, hroot, hpath⟩ := h
    refine ⟨root, hroot, ReflTransGen.mono (fun a b he => ⟨he, fun ha => ?_⟩) root x hpath⟩
    rw [BTreeSet.mem_toSet, ← BTreeSet.mem_toList, List.isEmpty_iff.mp hempty] at ha
    cases ha
  · obtain ⟨-, a, d, ha, hx⟩ := h
    obtain ⟨root, hroot, hpath⟩ := ha.cut_reachable
    rcases hx with rfl | ⟨t, ht, hx⟩
    · exact ⟨root, hroot, hpath⟩
    · obtain ⟨tree, htree⟩ := hc.treeRoot_tree ht
      have hin := (hc.inTree_of_refers htree hx).1
      exact ⟨root, hroot, (hpath.trans (cutRefers_of_treeRoot ht)).trans
        (ReflTransGen.mono (fun a b he => cutRefers_of_inTree he) t x hin)⟩

/-- What a known object refers to is known; with a boundary, if the walk to it is continued. -/
theorem Known.of_refers (hc : Complete odb) {haves : List ObjectId} {cut : BTreeSet ObjectId}
    {a b : ObjectId} (h : Known (graph odb) haves cut a) (hab : Refers (graph odb) a b)
    (hcut : ∀ x d, KnownAt (graph odb) haves u32Max cut (x, d) →
      (a = x ∨ ∃ t, TreeRoot (graph odb) x t ∧ ReflTransGen (Refers (graph odb)) t a) →
      ∃ x d, KnownAt (graph odb) haves u32Max cut (x, d) ∧
        (b = x ∨ ∃ t, TreeRoot (graph odb) x t ∧ ReflTransGen (Refers (graph odb)) t b)) :
    Known (graph odb) haves cut b := by
  unfold Known at h ⊢
  by_cases hempty : cut.toList.isEmpty
  · rw [if_pos hempty] at h ⊢
    obtain ⟨root, hroot, hpath⟩ := h
    exact ⟨root, hroot, hpath.tail hab⟩
  · rw [if_neg hempty] at h ⊢
    obtain ⟨-, x, d, hx, hax⟩ := h
    exact ⟨hc.closed a b hab, hcut x d hx hax⟩

/-- The target of a known tag is known. -/
theorem Known.tagRef (hc : Complete odb) {haves : List ObjectId} {cut : BTreeSet ObjectId}
    {a b : ObjectId} (h : Known (graph odb) haves cut a) (hab : TagRef (graph odb) a b) :
    Known (graph odb) haves cut b := by
  refine h.of_refers hc hab.refers fun x d hx ha => ?_
  obtain ⟨t, ht, rfl⟩ := hab
  have hxa : x = a := by
    rcases ha with rfl | ⟨r, hr, hpath⟩
    · rfl
    · -- a tag lies in no tree
      obtain ⟨tree, htree⟩ := hc.treeRoot_tree hr
      rcases (hc.inTree_of_refers htree hpath).2 with ⟨_, hat⟩ | ⟨_, hab⟩
      · rw [ht] at hat
        cases hat
      · rw [ht] at hab
        cases hab
  subst hxa
  refine ⟨t.object, d, hx.step ?_, Or.inl rfl⟩
  simp [knownNext, ht]

/-- The entries of a known tree are known. -/
theorem Known.inTree (hc : Complete odb) {haves : List ObjectId} {cut : BTreeSet ObjectId}
    {a b : ObjectId} (h : Known (graph odb) haves cut a) (hab : InTree (graph odb) a b) :
    Known (graph odb) haves cut b := by
  refine h.of_refers hc hab.refers fun x d hx hax => ⟨x, d, hx, Or.inr ?_⟩
  rcases hax with rfl | ⟨r, hr, hpath⟩
  · refine ⟨a, Or.inr ⟨?_, rfl⟩, .single hab.refers⟩
    obtain ⟨t, ht, -⟩ := hab
    exact ⟨t, ht⟩
  · exact ⟨r, hr, hpath.tail hab.refers⟩

/-! ## The walk's side -/

/-- The walk collects the object itself. -/
def Kept (odb : D) (a : ObjectId) : Prop :=
  ∃ ty payload, read odb a = .ok (ty, payload) ∧ ty ≠ .tree

/-- The walk closes over the tree `t` on account of `a`. -/
def ClosesOver (odb : D) (a t : ObjectId) : Prop :=
  (∃ c, graph odb a = some (.commit c) ∧ t = c.tree) ∨
    (∃ payload, read odb a = .ok (.tree, payload)) ∧ t = a

/-- What the walk records of an id it acts on. -/
structure Records (odb : D) (st : ShallowState) : Prop where
  commits : ∀ x, x ∈ st.commits ↔ (∃ d, st.best.get? x = some d) ∧ Kept odb x
  trees : ∀ t, t ∈ st.trees ↔ ∃ a, (∃ d, st.best.get? a = some d) ∧ ClosesOver odb a t

/-- The commit `x.1` has parents that are not followed from depth `x.2` on. -/
def CutAt (g : ObjectGraph) (depth : Nat) (cut : BTreeSet ObjectId) (x : ObjectId × Nat) : Prop :=
  (∃ c, g x.1 = some (.commit c) ∧ c.parents ≠ []) ∧ (depth ≤ x.2 ∨ x.1 ∈ cut)

/-- What the walk changes when it acts on an id at a depth. -/
structure ShallowStep (odb : D) (depth : Nat) (cut : BTreeSet ObjectId) (st st' : ShallowState)
    (i : ObjectId) (d : Nat) : Prop where
  best : st'.best = st.best.insert i d
  commits : ∀ x, x ∈ st'.commits ↔ x ∈ st.commits ∨ x = i ∧ Kept odb i
  trees : ∀ t, t ∈ st'.trees ↔ t ∈ st.trees ∨ ClosesOver odb i t
  shallow : ∀ x, x ∈ st'.shallow ↔ x ∈ st.shallow ∨ x = i ∧ CutAt (graph odb) depth cut (i, d)

/-- An id that is absent or unreadable is no object of the graph. -/
theorem graph_of_absent {i : ObjectId} (h : readPresent odb i = .ok none) : graph odb i = none := by
  rw [Option.eq_none_iff_forall_not_mem]
  intro o ho
  obtain ⟨ty, payload, hr, -⟩ := graph_eq_some.mp ho
  rw [readPresent_some.mpr hr] at h
  cases h

/-- **One action of the walk.** -/
theorem shallowVisit_act {depth : Nat} {cut : BTreeSet ObjectId} {st st' : ShallowState}
    {i : ObjectId} {d : Nat} {ks : List (ObjectId × Nat)}
    (h : shallowVisit odb depth cut st (i, d) = .ok (some (st', ks))) :
    ¬ Worklist.Within st.best i d ∧ ks = knownNext (graph odb) depth cut (i, d) ∧
      ShallowStep odb depth cut st st' i d := by
  rw [shallowVisit] at h
  split at h
  · cases h
  rename_i hnew
  refine ⟨fun hw => hnew (reachedWithin_iff.mpr hw), ?_⟩
  obtain ⟨r, hr, h⟩ := except_bind_ok.mp h
  have hread : ∀ ty payload, r = some (ty, payload) → read odb i = .ok (ty, payload) := by
    rintro ty payload rfl
    exact readPresent_some.mp hr
  split at h
  · -- absent
    have hg := graph_of_absent hr
    have hno : ∀ ty payload, read odb i ≠ .ok (ty, payload) := by
      intro ty payload hread
      rw [readPresent_some.mpr hread] at hr
      cases hr
    cases h
    exact ⟨by simp [knownNext, hg], ⟨rfl,
      by simp [Kept, hno], by simp [ClosesOver, hg, hno], by simp [CutAt, hg]⟩⟩
  · rename_i payload
    obtain ⟨c, hcp, h⟩ := except_bind_ok.mp h
    have hri := hread .commit payload rfl
    have hg : graph odb i = some (.commit c) :=
      graph_eq_some.mpr ⟨_, payload, hri, except_map_ok.mpr ⟨c, hcp, rfl⟩⟩
    split at h
    · rename_i hstop
      have hcut : depth ≤ d ∨ i ∈ cut := by simpa using hstop
      split at h
      · rename_i hnone
        cases h
        exact ⟨by simp [knownNext, hg, hcut], ⟨rfl,
          by simp [Kept, hri, or_comm], by simp [ClosesOver, hg, hri],
          by simp [CutAt, hg, List.isEmpty_iff.mp hnone]⟩⟩
      · rename_i hsome
        have hparents : c.parents ≠ [] := fun hn => hsome (List.isEmpty_iff.mpr hn)
        cases h
        exact ⟨by simp [knownNext, hg, hcut], ⟨rfl,
          by simp [Kept, hri, or_comm], by simp [ClosesOver, hg, hri],
          by simp [CutAt, hg, hparents, hcut, or_comm]⟩⟩
    · rename_i hstop
      have hcut : ¬ (depth ≤ d ∨ i ∈ cut) := by simpa using hstop
      cases h
      exact ⟨by simp [knownNext, hg, hcut], ⟨rfl,
        by simp [Kept, hri, or_comm], by simp [ClosesOver, hg, hri],
        by simp [CutAt, hcut]⟩⟩
  · rename_i payload
    obtain ⟨t, htp, h⟩ := except_bind_ok.mp h
    have hri := hread .tag payload rfl
    have hg : graph odb i = some (.tag t) :=
      graph_eq_some.mpr ⟨_, payload, hri, except_map_ok.mpr ⟨t, htp, rfl⟩⟩
    cases h
    exact ⟨by simp [knownNext, hg], ⟨rfl,
      by simp [Kept, hri, or_comm], by simp [ClosesOver, hg, hri],
      by simp [CutAt, hg]⟩⟩
  · rename_i payload
    have hri := hread .tree payload rfl
    have hg : ∀ o, graph odb i = some o → ∃ t, o = .tree t := by
      intro o ho
      obtain ⟨ty, payload', hr', hp⟩ := graph_eq_some.mp ho
      rw [hri] at hr'
      cases hr'
      obtain ⟨t, -, rfl⟩ := except_map_ok.mp hp
      exact ⟨t, rfl⟩
    have hno : ∀ c, graph odb i ≠ some (.commit c) := by
      intro c hc
      obtain ⟨t, ht⟩ := hg _ hc
      cases ht
    cases h
    refine ⟨?_, ⟨rfl, by simp [Kept, hri], by simp [ClosesOver, hri, hno], by simp [CutAt, hno]⟩⟩
    rw [knownNext]
    split
    · rename_i c hc
      exact absurd hc (hno c)
    · rename_i t ht
      obtain ⟨t', ht'⟩ := hg _ ht
      cases ht'
    · rfl
  · rename_i payload
    have hri := hread .blob payload rfl
    have hg : graph odb i = some (.blob payload) := graph_eq_some.mpr ⟨_, payload, hri, rfl⟩
    cases h
    exact ⟨by simp [knownNext, hg], ⟨rfl,
      by simp [Kept, hri, or_comm], by simp [ClosesOver, hg, hri],
      by simp [CutAt, hg]⟩⟩

/-- Past the test of its depth nothing is skipped. -/
theorem shallowVisit_skip {depth : Nat} {cut : BTreeSet ObjectId} {st : ShallowState}
    {i : ObjectId} {d : Nat} (h : shallowVisit odb depth cut st (i, d) = .ok none) :
    Worklist.Within st.best i d := by
  rw [shallowVisit] at h
  split at h
  · rename_i hr
    exact reachedWithin_iff.mp hr
  · obtain ⟨r, -, h⟩ := except_bind_ok.mp h
    split at h
    · cases h
    · obtain ⟨c, -, h⟩ := except_bind_ok.mp h
      split at h
      · split at h <;> cases h
      · cases h
    · obtain ⟨t, -, h⟩ := except_bind_ok.mp h
      cases h
    · cases h
    · cases h

/-- The walk is a search by depth. -/
theorem explores_shallowVisit (odb : D) (depth : Nat) (cut : BTreeSet ObjectId) :
    Worklist.DepthExplores ShallowState.best
      (fun x => .ok (some (knownNext (graph odb) depth cut x))) (shallowVisit odb depth cut) := by
  refine ⟨fun st k d hv => Or.inl (shallowVisit_skip hv), fun st k d st' ks hv => ?_⟩
  obtain ⟨hnew, rfl, hstep⟩ := shallowVisit_act hv
  exact ⟨hnew, hstep.best, rfl⟩

/-- Acting on an id adds to the records what the id is. -/
theorem ShallowStep.records {depth d : Nat} {cut : BTreeSet ObjectId} {st st' : ShallowState}
    {i : ObjectId} (h : ShallowStep odb depth cut st st' i d) (hI : Records odb st) :
    Records odb st' := by
  have hbound : ∀ x, (∃ e, st'.best.get? x = some e) ↔ x = i ∨ ∃ e, st.best.get? x = some e := by
    intro x
    rw [h.best, BTreeMap.get?_insert]
    by_cases hx : x = i
    · simp [hx]
    · simp [hx]
  refine ⟨fun x => ?_, fun t => ?_⟩
  · rw [h.commits, hI.commits, hbound, or_and_right, or_comm]
    refine or_congr_left (and_congr_right ?_)
    rintro rfl
    exact Iff.rfl
  · rw [h.trees, hI.trees]
    constructor
    · rintro (⟨a, ha, ht⟩ | ht)
      · exact ⟨a, (hbound a).mpr (Or.inr ha), ht⟩
      · exact ⟨i, (hbound i).mpr (Or.inl rfl), ht⟩
    · rintro ⟨a, ha, ht⟩
      rcases (hbound a).mp ha with rfl | ha
      · exact Or.inr ht
      · exact Or.inl ⟨a, ha, ht⟩

theorem knownNext_monotone {ε : Type} (g : ObjectGraph) (depth : Nat) (cut : BTreeSet ObjectId) :
    Worklist.DepthMonotone (ε := ε) fun x => .ok (some (knownNext g depth cut x)) where
  refused k d d' h := by cases h
  leads k d d' ks ks' hle hks hks' x hx := by
    cases hks
    cases hks'
    simp only [knownNext] at hx ⊢
    split at hx
    · rename_i c hc
      split at hx
      · cases hx
      rename_i hstop
      obtain ⟨p, hp, rfl⟩ := List.mem_map.mp hx
      rw [Bool.or_eq_true, decide_eq_true_eq, not_or] at hstop
      refine ⟨d' + 1, by omega, ?_⟩
      rw [if_neg (by rw [Bool.or_eq_true, decide_eq_true_eq, not_or]; exact ⟨by omega, hstop.2⟩)]
      exact List.mem_map.mpr ⟨p, hp, rfl⟩
    · rename_i t ht
      obtain rfl := List.mem_singleton.mp hx
      exact ⟨d', hle, List.mem_singleton_self _⟩
    · cases hx

theorem knownNext_depth {g : ObjectGraph} {depth : Nat} {cut : BTreeSet ObjectId}
    {x y : ObjectId × Nat} (hx : x.2 ≤ depth) (h : y ∈ knownNext g depth cut x) : y.2 ≤ depth := by
  rw [knownNext] at h
  split at h
  · split at h
    · cases h
    rename_i hstop
    rw [Bool.or_eq_true, decide_eq_true_eq, not_or] at hstop
    obtain ⟨p, -, rfl⟩ := List.mem_map.mp h
    show x.2 + 1 ≤ depth
    omega
  · obtain rfl := List.mem_singleton.mp h
    exact hx
  · cases h

theorem reached_knownNext {g : ObjectGraph} {depth : Nat} {cut : BTreeSet ObjectId}
    {haves : List ObjectId} {x : ObjectId × Nat} :
    Worklist.Reached (ε := Error) (fun x => .ok (some (knownNext g depth cut x)))
      (haves.map fun w => (w, 1)) x ↔ KnownAt g haves depth cut x := by
  have hedge : Worklist.Edge (ε := Error) (fun x => .ok (some (knownNext g depth cut x))) =
      fun a b => b ∈ knownNext g depth cut a := by
    funext a b
    refine propext ⟨?_, fun hb => ⟨⟨_, rfl, hb⟩, by simp [Worklist.Taken]⟩⟩
    rintro ⟨⟨ks, hks, hb⟩, -⟩
    cases hks
    exact hb
  rw [Worklist.Reached, hedge]
  constructor
  · rintro ⟨root, hroot, -, hpath⟩
    obtain ⟨h, hh, rfl⟩ := List.mem_map.mp hroot
    exact ⟨h, hh, hpath⟩
  · rintro ⟨h, hh, hpath⟩
    exact ⟨(h, 1), List.mem_map.mpr ⟨h, hh, rfl⟩, by simp [Worklist.Taken], hpath⟩

section Walk
variable {wants : List ObjectId} {depth : Nat} {cut : BTreeSet ObjectId} {st : ShallowState}

/-- What a whole walk records. -/
theorem records_of_run (hrun : Worklist.run (shallowVisit odb depth cut) Worklist.queue
    (depthFuel depth)
    ⟨BTreeMap.empty, BTreeSet.empty, [], BTreeSet.empty⟩ (wants.map fun w => (w, 1)) = .ok st) :
    Records odb st := by
  refine Worklist.run_state (P := Records odb) (fun st x st' ks hP hv => ?_) ?_ hrun
  · obtain ⟨-, -, hstep⟩ := shallowVisit_act (i := x.1) (d := x.2) hv
    exact hstep.records hP
  · exact ⟨fun x => by simp, fun t => by simp⟩

/-- The ids a whole walk acts on. -/
theorem bound_of_run (hdepth : 1 ≤ depth)
    (hrun : Worklist.run (shallowVisit odb depth cut) Worklist.queue (depthFuel depth)
      ⟨BTreeMap.empty, BTreeSet.empty, [], BTreeSet.empty⟩ (wants.map fun w => (w, 1)) = .ok st)
    {a : ObjectId} : (∃ d, st.best.get? a = some d) ↔
      ∃ d, KnownAt (graph odb) wants depth cut (a, d) := by
  obtain ⟨hreached, hwithin⟩ := (explores_shallowVisit odb depth cut).run ShallowState.best
    (knownNext_monotone (graph odb) depth cut) (fun ks rest x => Worklist.mem_queue)
    ObjectId.length_keys_le_count (Nat.lt_succ_self _)
    (fun k d ks hd hks x hx => by cases hks; exact knownNext_depth (x := (k, d)) hd hx)
    (fun x hx => by obtain ⟨t, -, rfl⟩ := List.mem_map.mp hx; exact hdepth) rfl hrun
  constructor
  · rintro ⟨d, hd⟩
    exact ⟨d, reached_knownNext.mp (hreached a d hd).1⟩
  · rintro ⟨d, hd⟩
    obtain ⟨e, -, he⟩ := hwithin a d (reached_knownNext.mpr hd)
    exact ⟨e, he⟩

end Walk

/-- **What the depth-limited walk collects.** -/
theorem mem_shallowObjectsToSend {wants : List ObjectId} {depth : Nat}
    {cut : BTreeSet ObjectId} {r : ShallowResult} (hdepth : 1 ≤ depth)
    (h : shallowObjectsToSend odb wants depth cut = .ok r) {x : ObjectId} :
    x ∈ r.objects ↔ ∃ a d, KnownAt (graph odb) wants depth cut (a, d) ∧
      ((x = a ∧ Kept odb a) ∨
        ∃ t, ClosesOver odb a t ∧ ReflTransGen (Refers (graph odb)) t x) := by
  obtain ⟨st, hrun, h⟩ := except_bind_ok.mp h
  obtain ⟨objects, hobjects, h⟩ := except_bind_ok.mp h
  cases h
  rw [max_eq_left hdepth] at hrun
  have hrecords := records_of_run hrun
  have hbound := fun a => bound_of_run hdepth hrun (a := a)
  rw [BTreeSet.mem_extend, BTreeSet.mem_toList, hrecords.commits, mem_reachableObjects hobjects]
  constructor
  · rintro (⟨hx, ho⟩ | ⟨t, ht, hpath⟩)
    · obtain ⟨d, hd⟩ := (hbound x).mp hx
      exact ⟨x, d, hd, Or.inl ⟨rfl, ho⟩⟩
    · obtain ⟨a, ha, hroot⟩ := (hrecords.trees t).mp ht
      obtain ⟨d, hd⟩ := (hbound a).mp ha
      exact ⟨a, d, hd, Or.inr ⟨t, hroot, hpath⟩⟩
  · rintro ⟨a, d, hd, ⟨rfl, ho⟩ | ⟨t, hroot, hpath⟩⟩
    · exact Or.inl ⟨(hbound x).mpr ⟨d, hd⟩, ho⟩
    · exact Or.inr ⟨t, (hrecords.trees t).mpr ⟨a, (hbound a).mpr ⟨d, hd⟩, hroot⟩, hpath⟩

/-- The walk fails at an id: it cannot be read, or is a commit or tag that cannot be parsed. -/
def Unreadable (odb : D) (i : ObjectId) : Prop :=
  (∃ e, readPresent odb i = .error e) ∨
    (∃ payload e, read odb i = .ok (.commit, payload) ∧
      Commit.parse (algo odb) payload = .error e) ∨
    ∃ payload e, read odb i = .ok (.tag, payload) ∧ Tag.parse (algo odb) payload = .error e

theorem shallowVisit_error {depth : Nat} {cut : BTreeSet ObjectId} {st : ShallowState}
    {i : ObjectId} {d : Nat} {e : Error} (h : shallowVisit odb depth cut st (i, d) = .error e) :
    Unreadable odb i := by
  rw [shallowVisit] at h
  split at h
  · cases h
  rcases except_bind_error.mp h with hr | ⟨r, hr, h⟩
  · exact Or.inl ⟨e, hr⟩
  split at h
  · cases h
  · rename_i payload
    rcases except_bind_error.mp h with hp | ⟨c, -, h⟩
    · exact Or.inr (Or.inl ⟨payload, e, readPresent_some.mp hr, hp⟩)
    · split at h
      · split at h <;> cases h
      · cases h
  · rename_i payload
    rcases except_bind_error.mp h with hp | ⟨t, -, h⟩
    · exact Or.inr (Or.inr ⟨payload, e, readPresent_some.mp hr, hp⟩)
    · cases h
  · cases h
  · cases h

theorem not_unreadable {depth : Nat} {cut : BTreeSet ObjectId} {st st' : ShallowState}
    {i : ObjectId} {d : Nat} {ks : List (ObjectId × Nat)}
    (h : shallowVisit odb depth cut st (i, d) = .ok (some (st', ks))) : ¬ Unreadable odb i := by
  rw [shallowVisit] at h
  split at h
  · cases h
  obtain ⟨r, hr, h⟩ := except_bind_ok.mp h
  rintro (⟨e, he⟩ | ⟨payload, e, hread, he⟩ | ⟨payload, e, hread, he⟩)
  · rw [hr] at he
    cases he
  · rw [readPresent_some.mpr hread] at hr
    cases hr
    obtain ⟨c, hc, -⟩ := except_bind_ok.mp h
    rw [he] at hc
    cases hc
  · rw [readPresent_some.mpr hread] at hr
    cases hr
    obtain ⟨t, ht, -⟩ := except_bind_ok.mp h
    rw [he] at ht
    cases ht

/-- A depth-limited walk that returns does so from the same wants in any order. -/
theorem shallowObjectsToSend_total {wants wants' : List ObjectId} {depth : Nat}
    {cut : BTreeSet ObjectId} {r : ShallowResult} (hdepth : 1 ≤ depth)
    (hsame : ∀ x, x ∈ wants' ↔ x ∈ wants) (h : shallowObjectsToSend odb wants depth cut = .ok r) :
    ∃ r', shallowObjectsToSend odb wants' depth cut = .ok r' := by
  obtain ⟨st, hrun, h⟩ := except_bind_ok.mp h
  obtain ⟨objects, hobjects, -⟩ := except_bind_ok.mp h
  rw [max_eq_left hdepth] at hrun
  have hroots : ∀ x ∈ wants.map fun w => (w, 1), x.2 ≤ depth := by
    intro x hx
    obtain ⟨t, -, rfl⟩ := List.mem_map.mp hx
    exact hdepth
  have hsub : ∀ x ∈ wants'.map fun w => (w, 1), x ∈ wants.map fun w => (w, 1) := by
    intro x hx
    obtain ⟨t, ht, rfl⟩ := List.mem_map.mp hx
    exact List.mem_map.mpr ⟨t, (hsame t).mp ht, rfl⟩
  obtain ⟨st', hrun'⟩ := (explores_shallowVisit odb depth cut).run_total ShallowState.best
    (Unreadable odb) (knownNext_monotone (graph odb) depth cut)
    (fun st k d e hv => ⟨shallowVisit_error hv, by simp [Worklist.Taken]⟩)
    (fun st k d st' ks hv => not_unreadable hv) (fun ks rest x => Worklist.mem_queue)
    ObjectId.length_keys_le_count (Nat.lt_succ_self _)
    (fun k d ks hd hks x hx => by cases hks; exact knownNext_depth (x := (k, d)) hd hx)
    hroots rfl hsub hrun
  -- both walks close over the same trees
  have htrees : ∀ t ∈ st'.trees, t ∈ st.trees := by
    intro t ht
    obtain ⟨a, ⟨d, hd⟩, hroot⟩ := ((records_of_run hrun').trees t).mp ht
    obtain ⟨e, he⟩ := (bound_of_run hdepth hrun').mp ⟨d, hd⟩
    have he' : KnownAt (graph odb) wants depth cut (a, e) := (knownAt_congr hsame).mp he
    exact ((records_of_run hrun).trees t).mpr ⟨a, (bound_of_run hdepth hrun).mpr ⟨e, he'⟩, hroot⟩
  obtain ⟨objects', hobjects'⟩ := reachableObjectsExcluding_total htrees hobjects
  refine ⟨⟨objects'.extend st'.commits.toList, st'.shallow⟩, ?_⟩
  rw [shallowObjectsToSend, max_eq_left hdepth]
  exact except_bind_ok.mpr ⟨st', hrun', except_bind_ok.mpr ⟨objects', hobjects', rfl⟩⟩

/-- The ids a client with these haves and this boundary is taken to hold, over any
database: without a boundary whatever the haves reach, with one what is stored of it. -/
def Assumed (odb : D) (haves : List ObjectId) (cut : BTreeSet ObjectId) (x : ObjectId) : Prop :=
  if cut.toList.isEmpty then ∃ h ∈ haves, ReflTransGen (Refers (graph odb)) h x
  else contains odb x = true ∧ ∃ a d, KnownAt (graph odb) haves u32Max cut (a, d) ∧
    ((x = a ∧ Kept odb a) ∨ ∃ t, ClosesOver odb a t ∧ ReflTransGen (Refers (graph odb)) t x)

/-- **What the planner takes the client to hold.** -/
theorem mem_clientHoldings {haves : List ObjectId} {cut r : BTreeSet ObjectId}
    (h : clientHoldings odb haves cut = .ok r) {x : ObjectId} :
    x ∈ r ↔ Assumed odb haves cut x := by
  rw [clientHoldings] at h
  rw [Assumed]
  split at h
  · rename_i hempty
    rw [if_pos hempty, mem_reachableObjects h]
  · rename_i hempty
    obtain ⟨view, hview, h⟩ := except_bind_ok.mp h
    cases h
    rw [if_neg hempty, BTreeSet.mem_retain, mem_shallowObjectsToSend (by simp [u32Max]) hview,
      and_comm]

/-- What is read of a complete database is its graph. -/
theorem reads_iff (hc : Complete odb) {a : ObjectId} {ty : ObjectType} :
    (∃ payload, read odb a = .ok (ty, payload)) ↔
      ∃ o, graph odb a = some o ∧ o.objectType = ty := by
  constructor
  · rintro ⟨payload, hr⟩
    obtain ⟨o, ho⟩ := hc.parses a ty payload hr
    exact ⟨o, graph_eq_some.mpr ⟨ty, payload, hr, ho⟩, Object.objectType_parse ho⟩
  · rintro ⟨o, ho, rfl⟩
    obtain ⟨ty, payload, hr, hp⟩ := graph_eq_some.mp ho
    exact ⟨payload, by rw [hr, Object.objectType_parse hp]⟩

theorem closesOver_iff (hc : Complete odb) {a t : ObjectId} :
    ClosesOver odb a t ↔ TreeRoot (graph odb) a t := by
  rw [ClosesOver, TreeRoot, reads_iff hc]
  refine or_congr_right (and_congr_left fun _ => ?_)
  constructor
  · rintro ⟨o, ho, hty⟩
    cases o with
    | tree t => exact ⟨t, ho⟩
    | blob _ | commit _ | tag _ => cases hty
  · rintro ⟨t, ht⟩
    exact ⟨_, ht, rfl⟩

/-- **Over a complete database it is what the client is known to hold.** -/
theorem assumed_iff_known (hc : Complete odb) {haves : List ObjectId} {cut : BTreeSet ObjectId}
    {x : ObjectId} : Assumed odb haves cut x ↔ Known (graph odb) haves cut x := by
  rw [Assumed, Known]
  split
  · exact Iff.rfl
  rw [hc.contains_iff_holds]
  refine and_congr_right fun hx => exists_congr fun a => exists_congr fun d =>
    and_congr_right fun _ => ?_
  simp only [closesOver_iff hc]
  constructor
  · rintro (⟨rfl, -⟩ | hroot)
    · exact Or.inl rfl
    · exact Or.inr hroot
  · rintro (rfl | hroot)
    · -- a held id that is no tree is a record of its own; a tree lies in itself
      obtain ⟨o, ho⟩ := Option.isSome_iff_exists.mp hx
      by_cases hty : o.objectType = .tree
      · refine Or.inr ⟨x, Or.inr ⟨?_, rfl⟩, .refl⟩
        cases o with
        | tree t => exact ⟨t, ho⟩
        | blob _ | commit _ | tag _ => cases hty
      · obtain ⟨payload, hr⟩ := (reads_iff hc).mpr ⟨o, ho, rfl⟩
        exact Or.inl ⟨rfl, _, payload, hr, hty⟩
    · exact Or.inr hroot

end Puregit.Server
