import Puregit.Server.Select

/-! # The objects of a plan

What a plan sends, in terms of the object graph: the wants that are not haves; without
a change of boundary, what the wants reach outside what the client is taken to hold;
and with one, the selected commits, what their trees reach outside it, and what the
other wanted objects reach outside it.  All of it is reached from the wants:
`plan_reached`, over every database, complete or not.
-/
namespace Puregit.Server
open ObjectDatabase ObjectGraph Relation

variable {D : Type} [ObjectDatabase D] {odb : D} {refs : RefView} {req : Want} {p : Plan}

/-- Reached from `r` without entering `known`. -/
def Outside (g : ObjectGraph) (known : Set ObjectId) (r x : ObjectId) : Prop :=
  r ∉ known ∧ ReflTransGen (RefersOutside g known) r x

theorem Outside.step {g : ObjectGraph} {known : Set ObjectId} {r a b : ObjectId}
    (h : Outside g known r a) (hab : Refers g a b) : b ∈ known ∨ Outside g known r b := by
  by_cases hb : b ∈ known
  · exact Or.inl hb
  · exact Or.inr ⟨h.1, h.2.tail ⟨hab, hb⟩⟩

theorem Outside.refers {g : ObjectGraph} {known : Set ObjectId} {r x : ObjectId}
    (h : Outside g known r x) : ReflTransGen (Refers g) r x :=
  ReflTransGen.mono (fun _ _ he => he.1) r x h.2

theorem mem_treeRoots {cs roots : List ObjectId} (h : treeRoots odb cs = .ok roots) {r : ObjectId} :
    r ∈ roots ↔ ∃ c ∈ cs, ∃ commit, graph odb c = some (.commit commit) ∧ r = commit.tree := by
  induction cs generalizing roots with
  | nil =>
      cases h
      simp
  | cons c cs ih =>
      rw [treeRoots] at h
      obtain ⟨commit, hcommit, h⟩ := except_bind_ok.mp h
      obtain ⟨rest, hrest, h⟩ := except_bind_ok.mp h
      cases h
      rw [List.mem_append, ih hrest, Option.mem_toList, Option.map_eq_some_iff]
      constructor
      · rintro (⟨commit', rfl, rfl⟩ | ⟨c', hc', hr⟩)
        · exact ⟨c, List.mem_cons_self .., commit', readCommit_some.mp hcommit, rfl⟩
        · exact ⟨c', List.mem_cons_of_mem _ hc', hr⟩
      · rintro ⟨c', hc', commit', hg, rfl⟩
        rcases List.mem_cons.mp hc' with rfl | hc'
        · rw [readCommit_some.mpr hg] at hcommit
          cases hcommit
          exact Or.inl ⟨commit', rfl, rfl⟩
        · exact Or.inr ⟨c', hc', commit', hg, rfl⟩

theorem mem_addClosures {known : BTreeSet ObjectId} {es : List ObjectId}
    {objects r : BTreeSet ObjectId} (h : addClosures odb known es objects = .ok r) {x : ObjectId} :
    x ∈ r ↔ x ∈ objects ∨ ∃ e ∈ es, Outside (graph odb) known.toSet e x := by
  induction es generalizing objects with
  | nil =>
      cases h
      simp
  | cons e es ih =>
      rw [addClosures] at h
      split at h
      · rename_i he
        rw [ih h]
        refine or_congr_right ⟨?_, ?_⟩
        · rintro ⟨e', he', hx⟩
          exact ⟨e', List.mem_cons_of_mem _ he', hx⟩
        · rintro ⟨e', he', hx⟩
          rcases List.mem_cons.mp he' with rfl | he'
          · exact absurd he hx.1
          · exact ⟨e', he', hx⟩
      · rename_i he
        obtain ⟨closure, hclosure, h⟩ := except_bind_ok.mp h
        rw [ih h, BTreeSet.mem_extend, BTreeSet.mem_toList, mem_reachableObjectsExcluding hclosure,
          or_assoc, or_left_comm]
        refine or_congr_right ⟨?_, ?_⟩
        · rintro (⟨e', he', hout, hx⟩ | ⟨e', he', hx⟩)
          · obtain rfl := List.mem_singleton.mp he'
            exact ⟨e', List.mem_cons_self .., hout, hx⟩
          · exact ⟨e', List.mem_cons_of_mem _ he', hx⟩
        · rintro ⟨e', he', hx⟩
          rcases List.mem_cons.mp he' with rfl | he'
          · exact Or.inl ⟨e', List.mem_singleton_self _, hx.1, hx.2⟩
          · exact Or.inr ⟨e', he', hx⟩

/-- The boundary a client announces. -/
def Want.boundary (req : Want) : Set ObjectId := { x | x ∈ req.clientShallow }

/-- The planner takes the client to hold `known`. -/
def Want.Holdings (odb : D) (req : Want) (known : BTreeSet ObjectId) : Prop :=
  clientHoldings odb (req.haves.filter (contains odb))
    (BTreeSet.ofList req.clientShallow) = .ok known

theorem mem_asked {x : ObjectId} : x ∈ req.asked ↔ x ∈ req.wants ∧ x ∉ req.haves := by
  simp [Want.asked]

/-- A plan that moves no boundary. -/
theorem plan_plain (h : plan odb refs req = .ok p) (hactive : req.deepen.isActive = false) :
    ∃ known, req.Holdings odb known ∧
      (∀ x, x ∈ p.objects ↔ (x ∈ req.wants ∧ x ∉ req.haves) ∨
        ∃ w ∈ req.wants, Outside (graph odb) known.toSet w x) ∧
      p.shallow = [] ∧ p.unshallow = [] := by
  obtain ⟨known, hknown, h⟩ := except_bind_ok.mp h
  rw [hactive] at h
  obtain ⟨objects, hobjects, h⟩ := except_bind_ok.mp h
  cases h
  refine ⟨known, hknown, fun x => ?_, rfl, rfl⟩
  rw [BTreeSet.mem_extend, mem_asked, mem_reachableObjectsExcluding hobjects]
  rfl

/-- A plan that moves the boundary. -/
theorem plan_deepening (h : plan odb refs req = .ok p) (hactive : req.deepen.isActive = true) :
    ∃ known t included boundary, req.Holdings odb known ∧
      collectTips odb req.wants ⟨[], BTreeSet.empty⟩ = .ok t ∧
      selectCommits odb refs (BTreeSet.ofList req.clientShallow) t.tips req.deepen =
        .ok (included, boundary) ∧
      (∀ x, x ∈ p.objects ↔
        (x ∈ req.wants ∧ x ∉ req.haves) ∨
        (x ∈ included ∧ x ∉ known.toSet) ∨
        (∃ c ∈ included, ∃ commit, graph odb c = some (.commit commit) ∧
          Outside (graph odb) known.toSet commit.tree x) ∨
        ∃ e ∈ t.extra, Outside (graph odb) known.toSet e x) ∧
      (∀ x, x ∈ p.shallow ↔ x ∈ boundary ∧ x ∉ req.boundary) ∧
      ∀ x, x ∈ p.unshallow ↔ x ∈ req.boundary ∧ x ∈ included ∧ x ∉ boundary := by
  obtain ⟨known, hknown, h⟩ := except_bind_ok.mp h
  rw [hactive] at h
  obtain ⟨t, ht, h⟩ := except_bind_ok.mp h
  obtain ⟨⟨included, boundary⟩, hselect, h⟩ := except_bind_ok.mp h
  obtain ⟨roots, hroots, h⟩ := except_bind_ok.mp h
  obtain ⟨objects, hobjects, h⟩ := except_bind_ok.mp h
  obtain ⟨objects', hobjects', h⟩ := except_bind_ok.mp h
  cases h
  refine ⟨known, t, included, boundary, hknown, ht, hselect, fun x => ?_, fun x => ?_, fun x => ?_⟩
  · simp only [BTreeSet.mem_extend, mem_asked, mem_addClosures hobjects', List.mem_filter,
      BTreeSet.mem_toList, mem_reachableObjectsExcluding hobjects, Bool.not_eq_true',
      BTreeSet.contains_eq_false,
      or_assoc]
    refine or_congr_right (or_congr_right (or_congr_left ⟨?_, ?_⟩))
    · rintro ⟨root, hroot, hx⟩
      obtain ⟨c, hcm, commit, hg, rfl⟩ := (mem_treeRoots hroots).mp hroot
      exact ⟨c, BTreeSet.mem_toList.mp hcm, commit, hg, hx⟩
    · rintro ⟨c, hcm, commit, hg, hx⟩
      exact ⟨_, (mem_treeRoots hroots).mpr ⟨c, BTreeSet.mem_toList.mpr hcm, commit, hg, rfl⟩, hx⟩
  · simp [Want.boundary]
  · simp [Want.boundary]

/-- Every selection is one, whichever walk made it. -/
theorem selectCommits_selects {cut included boundary : BTreeSet ObjectId} {tips : List ObjectId}
    {deepen : Deepen}
    (h : selectCommits odb refs cut tips deepen = .ok (included, boundary)) :
    Selects (graph odb) tips included boundary ∧
      (deepen.depth ≠ none → ∀ t ∈ tips, IsCommit (graph odb) t → t ∈ included) ∧
      (deepen.depth = none → ∀ c, c ∈ included ↔ Selected odb refs deepen { t | t ∈ tips } c) := by
  rw [selectCommits] at h
  split at h
  · rename_i depth _ hdepth _
    obtain ⟨hsel, htips⟩ := depthWalk_selects h
    exact ⟨hsel, fun _ => htips, fun hn => by rw [hdepth] at hn; cases hn⟩
  · rename_i depth _ hdepth _
    obtain ⟨⟨_, stop⟩, -, h⟩ := except_bind_ok.mp h
    obtain ⟨hsel, htips⟩ := walkUntil_selects h
    exact ⟨hsel, fun _ => htips, fun hn => by rw [hdepth] at hn; cases hn⟩
  · rename_i hdepth
    obtain ⟨hsel, hmem⟩ := revListWalk_selects h
    exact ⟨hsel, fun hn => absurd hdepth hn, fun _ => hmem⟩

/-! ## Reachability -/

/-- A step of a history is one of the graph. -/
theorem refers_of_history {a b : ObjectId} (h : ReflTransGen (Parent (graph odb)) a b) :
    ReflTransGen (Refers (graph odb)) a b :=
  ReflTransGen.mono (fun _ _ he => Parent.refers he) a b h

theorem refers_of_tags {a b : ObjectId} (h : ReflTransGen (TagRef (graph odb)) a b) :
    ReflTransGen (Refers (graph odb)) a b :=
  ReflTransGen.mono (fun _ _ he => TagRef.refers he) a b h

/-- **Every object of a plan is reached from a want.** -/
theorem plan_reached (h : plan odb refs req = .ok p) {x : ObjectId} (hx : x ∈ p.objects) :
    ∃ w ∈ req.wants, ReflTransGen (Refers (graph odb)) w x := by
  cases hactive : req.deepen.isActive with
  | false =>
      obtain ⟨_, -, hobjects, -, -⟩ := plan_plain h hactive
      rcases (hobjects x).mp hx with ⟨hw, -⟩ | ⟨w, hw, hout⟩
      · exact ⟨x, hw, .refl⟩
      · exact ⟨w, hw, hout.refers⟩
  | true =>
      obtain ⟨_, t, included, boundary, -, ht, hselect, hobjects, -, -⟩ :=
        plan_deepening h hactive
      have htips := collectTips_spec ht
      have hhistory : ∀ c ∈ included, ∃ w ∈ req.wants, ReflTransGen (Refers (graph odb)) w c := by
        intro c hc
        obtain ⟨tip, htip, hpath⟩ := (selectCommits_selects hselect).1.reached c hc
        obtain ⟨w, hw, hpeel⟩ := (htips.mem_tips tip).mp htip
        exact ⟨w, hw, (refers_of_tags (peelToCommit_some hpeel).1).trans (refers_of_history hpath)⟩
      rcases (hobjects x).mp hx with ⟨hw, -⟩ | ⟨hin, -⟩ | ⟨c, hin, commit, hg, hout⟩ | ⟨e, he, hout⟩
      · exact ⟨x, hw, .refl⟩
      · exact hhistory x hin
      · obtain ⟨w, hw, hpath⟩ := hhistory c hin
        exact ⟨w, hw, (hpath.tail (refers_tree hg)).trans hout.refers⟩
      · obtain ⟨w, hw, hchain, -⟩ := htips.extra_chain e he
        exact ⟨w, hw, (refers_of_tags hchain).trans hout.refers⟩

end Puregit.Server
