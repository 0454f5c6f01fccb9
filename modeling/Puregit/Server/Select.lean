import Puregit.Server.Plan

/-! # What the walks of a fetch select

Each walk returns a set of commits and its boundary.  `Selects` is what planning needs
of them: they are commits of the tips' history, the boundary is part of them, and a
commit off the boundary has its parents among them.  The walks by depth take every tip;
the walk by date and excluded refs takes the `Eligible` commits it can reach, so it
alone may leave out a tip.
-/
namespace Puregit.Server
open ObjectDatabase ObjectGraph Relation

variable {D : Type} [ObjectDatabase D] {odb : D}

/-- What a selection of commits and its boundary satisfy. -/
structure Selects (g : ObjectGraph) (tips : List ObjectId) (included boundary : BTreeSet ObjectId) :
    Prop where
  commits : ∀ c ∈ included, IsCommit g c
  reached : ∀ c ∈ included, ∃ t ∈ tips, ReflTransGen (Parent g) t c
  closed : ∀ c ∈ included, c ∉ boundary → ∀ p, Parent g c p → IsCommit g p → p ∈ included
  boundary_sub : ∀ c ∈ boundary, c ∈ included

theorem isCommit_iff {id : ObjectId} :
    IsCommit (graph odb) id ↔ ∃ c, readCommit odb id = .ok (some c) :=
  exists_congr fun _ => readCommit_some.symm

/-- A commit's parents, from reading it. -/
theorem parent_iff {a b : ObjectId} {c : Commit} (h : readCommit odb a = .ok (some c)) :
    Parent (graph odb) a b ↔ b ∈ c.parents := by
  constructor
  · rintro ⟨c', hc', hb⟩
    rw [← readCommit_some, h] at hc'
    cases hc'
    exact hb
  · exact fun hb => ⟨c, readCommit_some.mp h, hb⟩

/-! ## Walks over commits -/

/-- Expanding a commit, if it is one. -/
theorem expand_some {α : Type} {id : ObjectId} {f : Commit → α} {ks : α} :
    ((readCommit odb id).map fun r => r.map f) = .ok (some ks) ↔
      ∃ c, readCommit odb id = .ok (some c) ∧ ks = f c := by
  rw [except_map_ok]
  constructor
  · rintro ⟨r, hr, hks⟩
    obtain ⟨c, rfl, rfl⟩ := Option.map_eq_some_iff.mp hks
    exact ⟨c, hr, rfl⟩
  · rintro ⟨c, hc, rfl⟩
    exact ⟨some c, hc, rfl⟩

theorem expand_none {α : Type} {id : ObjectId} {f : Commit → α} :
    ((readCommit odb id).map fun r => r.map f) = .ok none ↔ readCommit odb id = .ok none := by
  rw [except_map_ok]
  constructor
  · rintro ⟨r, hr, hn⟩
    rwa [Option.map_eq_none_iff.mp hn] at hr
  · exact fun h => ⟨none, h, rfl⟩

/-- An expansion that takes commits only and goes on to their parents. -/
def OverCommits (odb : D) (expand : ObjectId → Except Error (Option (List ObjectId))) : Prop :=
  ∀ a ks, expand a = .ok (some ks) → ∃ c, readCommit odb a = .ok (some c) ∧ ∀ b ∈ ks, b ∈ c.parents

/-- What such a walk reaches is history of its tips. -/
theorem OverCommits.history {expand : ObjectId → Except Error (Option (List ObjectId))}
    (h : OverCommits odb expand) {tips : List ObjectId} {c : ObjectId}
    (hc : Worklist.Reached expand tips c) : ∃ t ∈ tips, ReflTransGen (Parent (graph odb)) t c := by
  obtain ⟨t, ht, -, hpath⟩ := hc
  refine ⟨t, ht, ReflTransGen.mono (fun a b he => ?_) t c hpath⟩
  obtain ⟨⟨ks, hks, hb⟩, -⟩ := he
  obtain ⟨commit, hcommit, hall⟩ := h a ks hks
  exact (parent_iff hcommit).mpr (hall b hb)

/-! ## By depth -/

theorem reachedWithin_iff {best : BTreeMap ObjectId Nat} {id : ObjectId} {d : Nat} :
    reachedWithin best id d = true ↔ Worklist.Within best id d := by
  rw [reachedWithin, Option.any_eq_true]
  constructor
  · rintro ⟨v, hv, hle⟩
    exact ⟨v, of_decide_eq_true hle, hv⟩
  · rintro ⟨v, hle, hv⟩
    exact ⟨v, hv, decide_eq_true hle⟩

/-- How a walk by depth expands a commit. -/
def depthExpand (odb : D) (depth : Nat) (x : ObjectId × Nat) :
    Except Error (Option (List (ObjectId × Nat))) :=
  (readCommit odb x.1).map fun r => r.map fun c =>
    if x.2 < depth then c.parents.map fun p => (p, x.2 + 1) else []

theorem depthExpand_some {depth : Nat} {x : ObjectId × Nat} {ks : List (ObjectId × Nat)} :
    depthExpand odb depth x = .ok (some ks) ↔ ∃ c, readCommit odb x.1 = .ok (some c) ∧
      ks = if x.2 < depth then c.parents.map fun p => (p, x.2 + 1) else [] := expand_some

theorem depthExpand_none {depth : Nat} {x : ObjectId × Nat} :
    depthExpand odb depth x = .ok none ↔ readCommit odb x.1 = .ok none := expand_none

theorem depthExpand_monotone (depth : Nat) : Worklist.DepthMonotone (depthExpand odb depth) where
  refused k d d' h := by
    rw [depthExpand_none] at h ⊢
    exact h
  leads k d d' ks ks' hle hks hks' x hx := by
    obtain ⟨c, hc, rfl⟩ := depthExpand_some.mp hks
    obtain ⟨c', hc', rfl⟩ := depthExpand_some.mp hks'
    obtain rfl : c = c' := by
      rw [hc] at hc'
      cases hc'
      rfl
    split at hx
    · rename_i hlt
      obtain ⟨p, hp, rfl⟩ := List.mem_map.mp hx
      have hlt' : d' < depth := lt_of_le_of_lt hle hlt
      refine ⟨d' + 1, by omega, ?_⟩
      rw [if_pos hlt']
      exact List.mem_map.mpr ⟨p, hp, rfl⟩
    · cases hx

theorem explores_depthVisit (depth : Nat) :
    Worklist.DepthExplores id (depthExpand odb depth) (depthVisit odb depth) where
  skip best k d h := by
    rw [depthVisit] at h
    split at h
    · rename_i hr
      exact Or.inl (reachedWithin_iff.mp hr)
    · obtain ⟨c, hc, h⟩ := except_bind_ok.mp h
      cases c with
      | none => exact Or.inr (depthExpand_none.mpr hc)
      | some c => cases h
  act best k d best' ks h := by
    rw [depthVisit] at h
    split at h
    · cases h
    rename_i hr
    obtain ⟨c, hc, h⟩ := except_bind_ok.mp h
    cases c with
    | none => cases h
    | some c =>
        cases h
        exact ⟨fun hw => hr (reachedWithin_iff.mpr hw), rfl, depthExpand_some.mpr ⟨c, hc, rfl⟩⟩

/-- **The depth walk selects**, and takes every tip that is a commit. -/
theorem depthWalk_selects {tips : List ObjectId} {depth : Nat}
    {included boundary : BTreeSet ObjectId}
    (h : depthWalk odb tips depth = .ok (included, boundary)) :
    Selects (graph odb) tips included boundary ∧
      ∀ t ∈ tips, IsCommit (graph odb) t → t ∈ included := by
  obtain ⟨best, hrun, h⟩ := except_bind_ok.mp h
  cases h
  have hpos : 1 ≤ max depth 1 := le_max_right depth 1
  generalize max depth 1 = n at hrun hpos ⊢
  have hdepth : ∀ k d ks, d ≤ n → depthExpand odb n (k, d) = .ok (some ks) → ∀ x ∈ ks, x.2 ≤ n := by
    intro k d ks _ hks x hx
    obtain ⟨c, -, rfl⟩ := depthExpand_some.mp hks
    split at hx
    · obtain ⟨p, -, rfl⟩ := List.mem_map.mp hx
      assumption
    · cases hx
  obtain ⟨hreached, hwithin⟩ := (explores_depthVisit n).run id (depthExpand_monotone n)
    (fun ks rest x => Worklist.mem_queue) ObjectId.length_keys_le_count
    (Nat.lt_succ_self _) hdepth
    (fun x hx => by obtain ⟨t, -, rfl⟩ := List.mem_map.mp hx; exact hpos) rfl hrun
  rw [id_eq] at hreached hwithin
  have hmem : ∀ c, c ∈ BTreeSet.ofList best.keys ↔ ∃ d, best.get? c = some d := fun c => by
    rw [BTreeSet.mem_ofList, BTreeMap.mem_keys]
  have hbnd : ∀ c, c ∈ BTreeSet.ofList ((best.toList.filter fun b => b.2 ≥ n).map Prod.fst) ↔
      ∃ d, best.get? c = some d ∧ n ≤ d := by
    intro c
    simp only [BTreeSet.mem_ofList, List.mem_map, List.mem_filter, decide_eq_true_eq]
    constructor
    · rintro ⟨⟨c', d⟩, ⟨hb, hd⟩, rfl⟩
      exact ⟨d, BTreeMap.get?_eq_some.mpr hb, hd⟩
    · rintro ⟨d, hb, hd⟩
      exact ⟨(c, d), ⟨BTreeMap.get?_eq_some.mp hb, hd⟩, rfl⟩
  have htaken : ∀ c d, IsCommit (graph odb) c → Worklist.Taken (depthExpand odb n) (c, d) := by
    intro c d hc hn
    obtain ⟨commit, hcommit⟩ := isCommit_iff.mp hc
    rw [depthExpand_none, hcommit] at hn
    cases hn
  have hin : ∀ c d, Worklist.Reached (depthExpand odb n) (tips.map fun t => (t, 1)) (c, d) →
      c ∈ BTreeSet.ofList best.keys := by
    intro c d hcd
    obtain ⟨e, -, he⟩ := hwithin c d hcd
    exact (hmem c).mpr ⟨e, he⟩
  refine ⟨⟨fun c hc => ?_, fun c hc => ?_, fun c hc hb p hp hcp => ?_, fun c hc => ?_⟩,
    fun t ht hct => hin t 1 ⟨(t, 1), List.mem_map.mpr ⟨t, ht, rfl⟩, htaken t 1 hct, .refl⟩⟩
  · obtain ⟨d, hd⟩ := (hmem c).mp hc
    obtain ⟨ks, hks⟩ := (hreached c d hd).2
    obtain ⟨commit, hcommit, -⟩ := depthExpand_some.mp hks
    exact isCommit_iff.mpr ⟨commit, hcommit⟩
  · obtain ⟨d, hd⟩ := (hmem c).mp hc
    obtain ⟨root, hroot, -, hpath⟩ := (hreached c d hd).1
    obtain ⟨t, ht, rfl⟩ := List.mem_map.mp hroot
    refine ⟨t, ht, ?_⟩
    refine hpath.lift (p := Parent (graph odb)) Prod.fst fun a b he => ?_
    obtain ⟨⟨ks, hks, hbk⟩, -⟩ := he
    obtain ⟨commit, hcommit, rfl⟩ := depthExpand_some.mp hks
    split at hbk
    · obtain ⟨p, hp, rfl⟩ := List.mem_map.mp hbk
      exact (parent_iff hcommit).mpr hp
    · cases hbk
  · obtain ⟨d, hd⟩ := (hmem c).mp hc
    have hlt : d < n := Nat.lt_of_not_le fun hle => hb ((hbnd c).mpr ⟨d, hd, hle⟩)
    obtain ⟨hcr, ks, hks⟩ := hreached c d hd
    obtain ⟨commit, hcommit, rfl⟩ := depthExpand_some.mp hks
    refine hin p (d + 1) (hcr.step hks ?_ (htaken p (d + 1) hcp))
    rw [if_pos hlt]
    exact List.mem_map.mpr ⟨p, (parent_iff hcommit).mp hp, rfl⟩
  · obtain ⟨d, hd, -⟩ := (hbnd c).mp hc
    exact (hmem c).mpr ⟨d, hd⟩

/-! ## By the old boundary -/

/-- How the walk up to the commits in `stop` expands a commit. -/
def untilExpand (odb : D) (stop : BTreeSet ObjectId) (id : ObjectId) :
    Except Error (Option (List ObjectId)) :=
  (readCommit odb id).map fun r => r.map fun c => if stop.contains id then [] else c.parents

theorem untilExpand_some {stop : BTreeSet ObjectId} {id : ObjectId} {ks : List ObjectId} :
    untilExpand odb stop id = .ok (some ks) ↔ ∃ c, readCommit odb id = .ok (some c) ∧
      ks = if stop.contains id then [] else c.parents := expand_some

theorem explores_untilVisit (stop : BTreeSet ObjectId) :
    Worklist.Explores UntilState.included (untilExpand odb stop) (untilVisit odb stop) where
  skip st k h := by
    rw [untilVisit] at h
    split at h
    · rename_i hs
      exact Or.inl hs
    · obtain ⟨c, hc, h⟩ := except_bind_ok.mp h
      cases c with
      | none => exact Or.inr (except_map_ok.mpr ⟨none, hc, rfl⟩)
      | some c => simp only at h; split at h <;> cases h
  act st k st' ks h := by
    rw [untilVisit] at h
    split at h
    · cases h
    rename_i hs
    obtain ⟨c, hc, h⟩ := except_bind_ok.mp h
    cases c with
    | none => cases h
    | some c =>
        have hks : untilExpand odb stop k = .ok (some ks) ∧
            st'.included = st.included.insert k := by
          rw [untilExpand_some]
          simp only at h
          split at h
          · rename_i hstop
            cases h
            exact ⟨⟨c, hc, (if_pos hstop).symm⟩, rfl⟩
          · rename_i hstop
            cases h
            exact ⟨⟨c, hc, (if_neg hstop).symm⟩, rfl⟩
        exact ⟨hs, hks.2, ks, hks.1, fun c hc => hc, fun c hc => Or.inl hc⟩

/-- The boundary of the walk is what it took of `stop`. -/
theorem walkUntil_boundary {stop : BTreeSet ObjectId} {fuel : Nat} {todo : List ObjectId}
    {st : UntilState} (h : Worklist.run (untilVisit odb stop) Worklist.stack fuel
      ⟨BTreeSet.empty, BTreeSet.empty⟩ todo = .ok st) (c : ObjectId) :
    c ∈ st.boundary ↔ c ∈ st.included ∧ c ∈ stop := by
  refine Worklist.run_state
    (P := fun st : UntilState => ∀ c, c ∈ st.boundary ↔ c ∈ st.included ∧ c ∈ stop) ?_ ?_ h c
  · intro st k st' ks hP hv c
    rw [untilVisit] at hv
    split at hv
    · cases hv
    obtain ⟨r, -, hv⟩ := except_bind_ok.mp hv
    cases r with
    | none => cases hv
    | some commit =>
        simp only at hv
        split at hv
        · rename_i hstop
          cases hv
          rw [BTreeSet.mem_insert, BTreeSet.mem_insert, hP c, or_and_right]
          exact or_congr_left ⟨fun hck => ⟨hck, hck ▸ hstop⟩, fun hck => hck.1⟩
        · rename_i hstop
          cases hv
          rw [BTreeSet.mem_insert, hP c, or_and_right]
          refine ⟨Or.inr, fun hc => hc.resolve_left ?_⟩
          rintro ⟨rfl, hcs⟩
          exact hstop hcs
  · intro c
    simp

/-- **The walk up to the new boundary selects**, and takes every tip that is a commit. -/
theorem walkUntil_selects {tips : List ObjectId} {stop included boundary : BTreeSet ObjectId}
    (h : walkUntil odb tips stop = .ok (included, boundary)) :
    Selects (graph odb) tips included boundary ∧
      ∀ t ∈ tips, IsCommit (graph odb) t → t ∈ included := by
  obtain ⟨st, hrun, h⟩ := except_bind_ok.mp h
  cases h
  have hmem : ∀ c, c ∈ st.included ↔ Worklist.Reached (untilExpand odb stop) tips.reverse c :=
    fun c => (explores_untilVisit stop).mem_run UntilState.included
      (fun ks rest k => Worklist.mem_stack) ObjectId.size_le_count
      (Nat.lt_succ_self ObjectId.count) rfl hrun
  have htaken : ∀ c, IsCommit (graph odb) c → Worklist.Taken (untilExpand odb stop) c := by
    intro c hc hn
    obtain ⟨commit, hcommit⟩ := isCommit_iff.mp hc
    obtain ⟨r, hr, hrn⟩ := except_map_ok.mp hn
    rw [hcommit] at hr
    cases hr
    cases hrn
  have hover : OverCommits odb (untilExpand odb stop) := by
    intro a ks hks
    obtain ⟨c, hc, rfl⟩ := untilExpand_some.mp hks
    refine ⟨c, hc, fun b hb => ?_⟩
    split at hb
    · cases hb
    · exact hb
  have hexp : ∀ c ∈ st.included, ∃ ks, untilExpand odb stop c = .ok (some ks) := fun c hc =>
    (explores_untilVisit stop).expanded UntilState.included rfl hrun hc
  refine ⟨⟨fun c hc => ?_, fun c hc => ?_, fun c hc hb p hp hcp => ?_, fun c hc => ?_⟩,
    fun t ht hct => (hmem t).mpr ⟨t, List.mem_reverse.mpr ht, htaken t hct, .refl⟩⟩
  · obtain ⟨ks, hks⟩ := hexp c hc
    obtain ⟨commit, hcommit, -⟩ := untilExpand_some.mp hks
    exact isCommit_iff.mpr ⟨commit, hcommit⟩
  · obtain ⟨t, ht, hpath⟩ := hover.history ((hmem c).mp hc)
    exact ⟨t, List.mem_reverse.mp ht, hpath⟩
  · obtain ⟨ks, hks⟩ := hexp c hc
    obtain ⟨commit, hcommit, rfl⟩ := untilExpand_some.mp hks
    have hstop : ¬ stop.contains c = true := fun hs =>
      hb ((walkUntil_boundary hrun c).mpr ⟨hc, hs⟩)
    refine (hmem p).mpr (((hmem c).mp hc).step hks ?_ (htaken p hcp))
    rw [if_neg hstop]
    exact (parent_iff hcommit).mp hp
  · exact ((walkUntil_boundary hrun c).mp hc).1

/-! ## By date and excluded refs -/

/-- How the walk of an ancestry expands an id. -/
def ancestryExpand (odb : D) (id : ObjectId) : Except Error (Option (List ObjectId)) :=
  (readCommit odb id).map fun r => some (r.elim [] Commit.parents)

theorem explores_ancestryVisit :
    Worklist.Explores id (ancestryExpand odb) (ancestryVisit odb) where
  skip seen k h := by
    rw [ancestryVisit] at h
    split at h
    · rename_i hs
      exact Or.inl hs
    · obtain ⟨c, -, h⟩ := except_bind_ok.mp h
      cases c <;> cases h
  act seen k seen' ks h := by
    rw [ancestryVisit] at h
    split at h
    · cases h
    rename_i hs
    obtain ⟨c, hc, h⟩ := except_bind_ok.mp h
    have hks : ancestryExpand odb k = .ok (some ks) ∧ seen' = seen.insert k := by
      cases c <;> cases h <;> exact ⟨except_map_ok.mpr ⟨_, hc, rfl⟩, rfl⟩
    exact ⟨hs, hks.2, ks, hks.1, fun c hc => hc, fun c hc => Or.inl hc⟩

/-- An ancestry is what the roots reach through parents. -/
theorem mem_commitAncestry {roots : List ObjectId} {r : BTreeSet ObjectId}
    (h : commitAncestry odb roots = .ok r) {c : ObjectId} :
    c ∈ r ↔ ∃ root ∈ roots, ReflTransGen (Parent (graph odb)) root c := by
  have hmem := explores_ancestryVisit.mem_run id (fun ks rest k => Worklist.mem_stack)
    ObjectId.size_le_count (Nat.lt_succ_self ObjectId.count) rfl h (k := c)
  have htaken : ∀ a, Worklist.Taken (ancestryExpand odb) a := by
    intro a hn
    obtain ⟨r, -, hr⟩ := except_map_ok.mp hn
    cases hr
  have hedge : Worklist.Edge (ancestryExpand odb) = Parent (graph odb) := by
    funext a b
    refine propext ⟨?_, ?_⟩
    · rintro ⟨⟨ks, hks, hb⟩, -⟩
      obtain ⟨r, hr, hrk⟩ := except_map_ok.mp hks
      cases hrk
      cases r with
      | none => cases hb
      | some commit => exact (parent_iff hr).mpr hb
    · rintro ⟨commit, hcommit, hb⟩
      exact ⟨⟨_, except_map_ok.mpr ⟨_, readCommit_some.mpr hcommit, rfl⟩, hb⟩, htaken b⟩
  rw [id_eq, Worklist.Reached, hedge] at hmem
  rw [hmem]
  constructor
  · rintro ⟨root, hroot, -, hpath⟩
    exact ⟨root, List.mem_reverse.mp hroot, hpath⟩
  · rintro ⟨root, hroot, hpath⟩
    exact ⟨root, List.mem_reverse.mpr hroot, htaken root, hpath⟩

/-- A commit an excluded ref names, through tags. -/
def NotRoot (odb : D) (refs : RefView) (deepen : Deepen) (r : ObjectId) : Prop :=
  ∃ name ∈ deepen.not, ∃ id, refs.resolve name = some id ∧
    peelToCommit odb tagLimit id = .ok (some r)

/-- A commit a request by date and excluded refs may select: it is recent enough, and no
excluded ref reaches it. -/
structure Eligible (odb : D) (refs : RefView) (deepen : Deepen) (c : ObjectId) : Prop where
  recent : ∃ commit, graph odb c = some (.commit commit) ∧ tooOld deepen.since commit = false
  not_excluded : ∀ r, NotRoot odb refs deepen r → ¬ ReflTransGen (Parent (graph odb)) r c

/-- The commits such a request selects: those reached from a tip through eligible ones. -/
def Selected (odb : D) (refs : RefView) (deepen : Deepen) (tips : Set ObjectId)
    (c : ObjectId) : Prop :=
  ∃ t ∈ tips, Eligible odb refs deepen t ∧
    ReflTransGen (fun a b => Parent (graph odb) a b ∧ Eligible odb refs deepen b) t c

theorem Selected.eligible {refs : RefView} {deepen : Deepen} {tips : Set ObjectId}
    {c : ObjectId} (h : Selected odb refs deepen tips c) : Eligible odb refs deepen c := by
  obtain ⟨t, -, ht, hpath⟩ := h
  cases hpath with
  | refl => exact ht
  | tail _ he => exact he.2

theorem mem_notRoots {refs : RefView} {deepen : Deepen} {roots : List ObjectId}
    (h : notRoots odb refs deepen.not = .ok roots) {r : ObjectId} :
    r ∈ roots ↔ NotRoot odb refs deepen r := by
  rw [NotRoot]
  generalize deepen.not = names at h
  induction names generalizing roots with
  | nil =>
      cases h
      simp
  | cons name names ih =>
      rw [notRoots] at h
      split at h
      · cases h
      rename_i id hid
      obtain ⟨c, hc, h⟩ := except_bind_ok.mp h
      obtain ⟨rest, hrest, h⟩ := except_bind_ok.mp h
      cases h
      rw [List.mem_append, ih hrest, Option.mem_toList]
      constructor
      · rintro (rfl | ⟨n, hn, hr⟩)
        · exact ⟨name, List.mem_cons_self .., id, hid, hc⟩
        · exact ⟨n, List.mem_cons_of_mem _ hn, hr⟩
      · rintro ⟨n, hn, id', hid', hr⟩
        rcases List.mem_cons.mp hn with rfl | hn
        · rw [hid] at hid'
          cases hid'
          rw [hc] at hr
          cases hr
          exact Or.inl rfl
        · exact Or.inr ⟨n, hn, id', hid', hr⟩

/-- How the walk by date and excluded refs expands a commit. -/
def revListExpand (odb : D) (excluded : BTreeSet ObjectId) (since : Option Int) (id : ObjectId) :
    Except Error (Option (List ObjectId)) :=
  if excluded.contains id then .ok none
  else (readCommit odb id).map fun r => r.bind fun c =>
    if tooOld since c then none else some c.parents

theorem revListExpand_some {excluded : BTreeSet ObjectId} {since : Option Int} {id : ObjectId}
    {ks : List ObjectId} : revListExpand odb excluded since id = .ok (some ks) ↔ id ∉ excluded ∧
      ∃ c, readCommit odb id = .ok (some c) ∧ tooOld since c = false ∧ ks = c.parents := by
  rw [revListExpand]
  split
  · rename_i hex
    exact ⟨fun h => absurd h (by simp), fun h => absurd hex h.1⟩
  rename_i hex
  rw [except_map_ok]
  constructor
  · rintro ⟨r, hr, hks⟩
    obtain ⟨c, rfl, hc⟩ := Option.bind_eq_some_iff.mp hks
    split at hc
    · cases hc
    · rename_i hold
      cases hc
      exact ⟨hex, c, hr, eq_false_of_ne_true hold, rfl⟩
  · rintro ⟨-, c, hc, hold, rfl⟩
    exact ⟨some c, hc, by simp [hold]⟩

theorem explores_revListVisit (excluded : BTreeSet ObjectId) (since : Option Int) :
    Worklist.Explores RevListState.included (revListExpand odb excluded since)
      (revListVisit odb excluded since) where
  skip st k h := by
    rw [revListVisit] at h
    split at h
    · rename_i hc
      rcases Bool.or_eq_true_iff.mp hc with hs | he
      · exact Or.inl hs
      · exact Or.inr (if_pos he)
    · rename_i hc
      rw [Bool.or_eq_true, not_or] at hc
      obtain ⟨c, hr, h⟩ := except_bind_ok.mp h
      refine Or.inr ?_
      rw [revListExpand, if_neg hc.2, hr]
      cases c with
      | none => rfl
      | some c =>
          simp only at h
          split at h
          · rename_i hold
            show Except.ok (if tooOld since c = true then none else some c.parents) = .ok none
            rw [if_pos hold]
          · cases h
  act st k st' ks h := by
    rw [revListVisit] at h
    split at h
    · cases h
    rename_i hc
    rw [Bool.or_eq_true, not_or] at hc
    obtain ⟨c, hr, h⟩ := except_bind_ok.mp h
    cases c with
    | none => cases h
    | some c =>
        simp only at h
        split at h
        · cases h
        rename_i hold
        cases h
        refine ⟨hc.1, rfl, c.parents, ?_, fun c hc => hc, fun c hc => Or.inl hc⟩
        exact revListExpand_some.mpr ⟨hc.2, c, hr, eq_false_of_ne_true hold, rfl⟩

/-- The walk remembers the parents of exactly the commits it took. -/
theorem revList_parentsOf {excluded : BTreeSet ObjectId} {since : Option Int} {fuel : Nat}
    {todo : List ObjectId} {st : RevListState}
    (h : Worklist.run (revListVisit odb excluded since) Worklist.stack fuel
      ⟨BTreeSet.empty, BTreeMap.empty⟩ todo = .ok st) (id : ObjectId) (ps : List ObjectId) :
    st.parentsOf.get? id = some ps ↔
      id ∈ st.included ∧ ∃ c, readCommit odb id = .ok (some c) ∧ ps = c.parents := by
  refine Worklist.run_state (P := fun st : RevListState => ∀ id ps,
    st.parentsOf.get? id = some ps ↔
      id ∈ st.included ∧ ∃ c, readCommit odb id = .ok (some c) ∧ ps = c.parents) ?_ ?_ h id ps
  · intro st k st' ks hP hv id ps
    rw [revListVisit] at hv
    split at hv
    · cases hv
    obtain ⟨r, hr, hv⟩ := except_bind_ok.mp hv
    cases r with
    | none => cases hv
    | some commit =>
        simp only at hv
        split at hv
        · cases hv
        cases hv
        rw [BTreeMap.get?_insert, BTreeSet.mem_insert]
        split
        · rename_i heq
          subst heq
          rw [Option.some_inj]
          constructor
          · rintro rfl
            exact ⟨Or.inl rfl, commit, hr, rfl⟩
          · rintro ⟨-, c, hc, rfl⟩
            rw [hr] at hc
            cases hc
            rfl
        · rename_i hne
          rw [hP id ps, or_iff_right hne]
  · intro id ps
    simp

/-- **The walk by date and excluded refs selects** the eligible commits it can reach. -/
theorem revListWalk_selects {refs : RefView} {tips : List ObjectId} {deepen : Deepen}
    {included boundary : BTreeSet ObjectId}
    (h : revListWalk odb refs tips deepen = .ok (included, boundary)) :
    Selects (graph odb) tips included boundary ∧
      ∀ c, c ∈ included ↔ Selected odb refs deepen { t | t ∈ tips } c := by
  obtain ⟨roots, hroots, h⟩ := except_bind_ok.mp h
  obtain ⟨excluded, hexcluded, h⟩ := except_bind_ok.mp h
  obtain ⟨st, hrun, h⟩ := except_bind_ok.mp h
  split at h
  · cases h
  cases h
  have hmem : ∀ c, c ∈ st.included ↔
      Worklist.Reached (revListExpand odb excluded deepen.since) tips.reverse c := fun c =>
    (explores_revListVisit excluded deepen.since).mem_run RevListState.included
      (fun ks rest k => Worklist.mem_stack) ObjectId.size_le_count
      (Nat.lt_succ_self ObjectId.count) rfl hrun
  have hexp : ∀ c ∈ st.included, ∃ ks, revListExpand odb excluded deepen.since c = .ok (some ks) :=
    fun c hc => (explores_revListVisit excluded deepen.since).expanded RevListState.included rfl
      hrun hc
  have hex : ∀ c, c ∉ excluded ↔
      ∀ r, NotRoot odb refs deepen r → ¬ ReflTransGen (Parent (graph odb)) r c := by
    intro c
    rw [mem_commitAncestry hexcluded, not_exists]
    exact forall_congr' fun r => by rw [not_and, mem_notRoots hroots]
  have heligible : ∀ c, Eligible odb refs deepen c ↔
      ∃ ks, revListExpand odb excluded deepen.since c = .ok (some ks) := by
    intro c
    constructor
    · rintro ⟨⟨commit, hcommit, hold⟩, hout⟩
      exact ⟨_, revListExpand_some.mpr
        ⟨(hex c).mpr hout, commit, readCommit_some.mpr hcommit, hold, rfl⟩⟩
    · rintro ⟨ks, hks⟩
      obtain ⟨hout, commit, hcommit, hold, -⟩ := revListExpand_some.mp hks
      exact ⟨⟨commit, readCommit_some.mp hcommit, hold⟩, (hex c).mp hout⟩
  have htaken : ∀ c, Eligible odb refs deepen c →
      Worklist.Taken (revListExpand odb excluded deepen.since) c := by
    intro c hc hn
    obtain ⟨ks, hks⟩ := (heligible c).mp hc
    rw [hks] at hn
    cases hn
  have hselected : ∀ c, c ∈ st.included ↔ Selected odb refs deepen { t | t ∈ tips } c := by
    intro c
    constructor
    · intro hc
      obtain ⟨t, ht, htt, hpath⟩ := (hmem c).mp hc
      refine ⟨t, List.mem_reverse.mp ht, ?_⟩
      have helig : ∀ x, Worklist.Reached (revListExpand odb excluded deepen.since) tips.reverse x →
          Eligible odb refs deepen x := fun x hx => (heligible x).mpr (hexp x ((hmem x).mpr hx))
      refine ⟨helig t ⟨t, ht, htt, .refl⟩, ?_⟩
      clear hc
      induction hpath with
      | refl => exact .refl
      | @tail a b hta he ih =>
          refine ih.tail ⟨?_, helig b ⟨t, ht, htt, hta.tail he⟩⟩
          obtain ⟨⟨ks, hks, hb⟩, -⟩ := he
          obtain ⟨-, commit, hcommit, -, rfl⟩ := revListExpand_some.mp hks
          exact (parent_iff hcommit).mpr hb
    · rintro ⟨t, ht, htt, hpath⟩
      refine (hmem c).mpr ?_
      induction hpath with
      | refl => exact ⟨t, List.mem_reverse.mpr ht, htaken t htt, .refl⟩
      | @tail a b _ he ih =>
          obtain ⟨ks, hks⟩ := hexp a ((hmem a).mpr ih)
          refine ih.step hks ?_ (htaken b he.2)
          obtain ⟨-, commit, hcommit, -, rfl⟩ := revListExpand_some.mp hks
          exact (parent_iff hcommit).mp he.1
  have hbnd : ∀ c, c ∈ BTreeSet.ofList ((st.parentsOf.toList.filter fun b => b.2.any fun p =>
      !st.included.contains p).map Prod.fst) ↔
      c ∈ st.included ∧ ∃ p, Parent (graph odb) c p ∧ p ∉ st.included := by
    intro c
    simp only [BTreeSet.mem_ofList, List.mem_map, List.mem_filter, List.any_eq_true,
      Bool.not_eq_true', BTreeSet.contains_eq_false]
    constructor
    · rintro ⟨⟨c', ps⟩, ⟨hb, p, hp, hout⟩, rfl⟩
      obtain ⟨hin, commit, hcommit, rfl⟩ :=
        (revList_parentsOf hrun c' ps).mp (BTreeMap.get?_eq_some.mpr hb)
      exact ⟨hin, p, (parent_iff hcommit).mpr hp, hout⟩
    · rintro ⟨hin, p, hp, hout⟩
      obtain ⟨commit, hcommit, hpp⟩ := hp
      have hget := (revList_parentsOf hrun c commit.parents).mpr
        ⟨hin, commit, readCommit_some.mpr hcommit, rfl⟩
      exact ⟨(c, commit.parents), ⟨BTreeMap.get?_eq_some.mp hget, p, hpp, hout⟩, rfl⟩
  refine ⟨⟨fun c hc => ?_, fun c hc => ?_, fun c hc hb p hp _ => ?_, fun c hc => ?_⟩, hselected⟩
  · obtain ⟨commit, hcommit, -⟩ := ((hselected c).mp hc).eligible.recent
    exact ⟨commit, hcommit⟩
  · obtain ⟨t, ht, -, hpath⟩ := (hselected c).mp hc
    exact ⟨t, ht, ReflTransGen.mono (fun a b he => he.1) t c hpath⟩
  · by_contra hout
    exact hb ((hbnd c).mpr ⟨hc, p, hp, hout⟩)
  · exact ((hbnd c).mp hc).1

/-! ## The tips -/

/-- The tag `a` names `b`. -/
def TagRef (g : ObjectGraph) (a b : ObjectId) : Prop := ∃ t, g a = some (.tag t) ∧ b = t.object

theorem TagRef.refers {g : ObjectGraph} {a b : ObjectId} (h : TagRef g a b) : Refers g a b := by
  obtain ⟨t, ht, rfl⟩ := h
  exact ⟨_, ht, List.mem_singleton_self _⟩

theorem readPresent_tag {a : ObjectId} {payload : Bytes} {t : Tag}
    (hr : readPresent odb a = .ok (some (.tag, payload)))
    (ht : Tag.parse (algo odb) payload = .ok t) : graph odb a = some (.tag t) :=
  graph_eq_some.mpr ⟨_, payload, readPresent_some.mp hr, except_map_ok.mpr ⟨t, ht, rfl⟩⟩

/-- The database has an object of this id that is no commit. -/
def ReadsOther (odb : D) (a : ObjectId) : Prop :=
  ∃ ty payload, read odb a = .ok (ty, payload) ∧ ty ≠ .commit

theorem ReadsOther.not_commit {a : ObjectId} (h : ReadsOther odb a) : ¬ IsCommit (graph odb) a := by
  rintro ⟨c, hc⟩
  obtain ⟨ty, payload, hr, hty⟩ := h
  obtain ⟨ty', payload', hr', hp⟩ := graph_eq_some.mp hc
  rw [hr] at hr'
  cases hr'
  exact hty (Object.objectType_parse hp).symm

theorem readsOther_of_holds {a : ObjectId} (ha : Holds (graph odb) a)
    (hc : ¬ IsCommit (graph odb) a) : ReadsOther odb a := by
  obtain ⟨o, ho⟩ := Option.isSome_iff_exists.mp ha
  obtain ⟨ty, payload, hr, hp⟩ := graph_eq_some.mp ho
  refine ⟨ty, payload, hr, ?_⟩
  rintro rfl
  obtain ⟨c, -, rfl⟩ := except_map_ok.mp hp
  exact hc ⟨c, ho⟩

/-- `x` is met on the way from `cur` through at most `n` tags, and is no commit. -/
def OnChain (odb : D) : Nat → ObjectId → ObjectId → Prop
  | 0, _, _ => False
  | n + 1, cur, x =>
    ReadsOther odb cur ∧ (x = cur ∨ ∃ b, TagRef (graph odb) cur b ∧ OnChain odb n b x)

theorem OnChain.chain {n : Nat} {cur x : ObjectId} (h : OnChain odb n cur x) :
    ReflTransGen (TagRef (graph odb)) cur x ∧ ReadsOther odb x := by
  induction n generalizing cur with
  | zero => cases h
  | succ n ih =>
      obtain ⟨hcur, rfl | ⟨b, hb, hx⟩⟩ := h
      · exact ⟨.refl, hcur⟩
      · obtain ⟨hpath, hother⟩ := ih hx
        exact ⟨.head hb hpath, hother⟩

/-- Following one want: the tip is what it peels to, and what else is collected lies on
its chain of tags and is no commit. -/
theorem collectTip_spec {n : Nat} {cur : ObjectId} {t t' : Tips}
    (h : collectTip odb n cur t = .ok t') :
    (∃ r, peelToCommit odb n cur = .ok r ∧ t'.tips = t.tips ++ r.toList) ∧
      ∀ x, x ∈ t'.extra ↔ x ∈ t.extra ∨ OnChain odb n cur x := by
  induction n generalizing cur t with
  | zero =>
      cases h
      exact ⟨⟨none, rfl, by simp⟩, fun x => by simp [OnChain]⟩
  | succ n ih =>
      rw [collectTip] at h
      rw [peelToCommit]
      obtain ⟨r, hr, h⟩ := except_bind_ok.mp h
      simp only [hr, bind, Except.bind]
      cases r with
      | none =>
          cases h
          refine ⟨⟨none, rfl, by simp⟩, fun x => ?_⟩
          have hno : ¬ ReadsOther odb cur := by
            rintro ⟨ty, payload, hread, -⟩
            rw [readPresent_some.mpr hread] at hr
            cases hr
          simp [OnChain, hno]
      | some r =>
          obtain ⟨ty, payload⟩ := r
          have hread := readPresent_some.mp hr
          have hother : ReadsOther odb cur ↔ ty ≠ .commit := by
            constructor
            · rintro ⟨ty', payload', hread', hty⟩
              rw [hread] at hread'
              cases hread'
              exact hty
            · exact fun hty => ⟨ty, payload, hread, hty⟩
          have hleaf : ty ≠ .tag → ∀ b, ¬ TagRef (graph odb) cur b := by
            rintro hty b ⟨tag, htag, -⟩
            obtain ⟨ty', payload', hread', hp⟩ := graph_eq_some.mp htag
            rw [hread] at hread'
            cases hread'
            exact hty (Object.objectType_parse hp).symm
          cases ty with
          | commit =>
              cases h
              exact ⟨⟨some cur, rfl, rfl⟩, fun x => by simp [OnChain, hother]⟩
          | tag =>
              obtain ⟨tag, htag, h⟩ := except_bind_ok.mp h
              obtain ⟨htip, hextra⟩ := ih h
              simp only [htag]
              refine ⟨htip, fun x => ?_⟩
              have hg := readPresent_tag hr htag
              rw [hextra, BTreeSet.mem_insert, OnChain, hother]
              simp only [TagRef, hg, Option.some.injEq, Object.tag.injEq, ne_eq, reduceCtorEq,
                not_false_eq_true, true_and, exists_eq_left', exists_eq_left, or_assoc]
              exact or_left_comm
          | tree =>
              cases h
              refine ⟨⟨none, rfl, by simp⟩, fun x => ?_⟩
              rw [BTreeSet.mem_insert, OnChain, hother]
              simp [hleaf, or_comm]
          | blob =>
              cases h
              refine ⟨⟨none, rfl, by simp⟩, fun x => ?_⟩
              rw [BTreeSet.mem_insert, OnChain, hother]
              simp [hleaf, or_comm]

/-- What the wants are collected into. -/
structure TipsOf (odb : D) (wants : List ObjectId) (t : Tips) : Prop where
  mem_tips : ∀ c, c ∈ t.tips ↔ ∃ w ∈ wants, peelToCommit odb tagLimit w = .ok (some c)
  mem_extra : ∀ x, x ∈ t.extra ↔ ∃ w ∈ wants, OnChain odb tagLimit w x

theorem TipsOf.extra_chain {wants : List ObjectId} {t : Tips} (h : TipsOf odb wants t) :
    ∀ x ∈ t.extra, ∃ w ∈ wants, ReflTransGen (TagRef (graph odb)) w x ∧ ReadsOther odb x := by
  intro x hx
  obtain ⟨w, hw, hchain⟩ := (h.mem_extra x).mp hx
  exact ⟨w, hw, hchain.chain⟩

theorem TipsOf.other_mem {wants : List ObjectId} {t : Tips} (h : TipsOf odb wants t) :
    ∀ w ∈ wants, ReadsOther odb w → w ∈ t.extra :=
  fun w hw hother => (h.mem_extra w).mpr ⟨w, hw, hother, Or.inl rfl⟩

theorem collectTips_spec {wants : List ObjectId} {t : Tips}
    (h : collectTips odb wants ⟨[], BTreeSet.empty⟩ = .ok t) : TipsOf odb wants t := by
  have hgen : ∀ wants (t t' : Tips), collectTips odb wants t = .ok t' →
      (∀ c, c ∈ t'.tips ↔ c ∈ t.tips ∨ ∃ w ∈ wants, peelToCommit odb tagLimit w = .ok (some c)) ∧
      ∀ x, x ∈ t'.extra ↔ x ∈ t.extra ∨ ∃ w ∈ wants, OnChain odb tagLimit w x := by
    intro wants
    induction wants with
    | nil =>
        intro t t' h
        cases h
        simp
    | cons w wants ih =>
        intro t t' h
        rw [collectTips] at h
        obtain ⟨t₁, h₁, h⟩ := except_bind_ok.mp h
        obtain ⟨⟨r, hr, htips⟩, hextra⟩ := collectTip_spec h₁
        obtain ⟨ihtips, ihextra⟩ := ih t₁ t' h
        constructor
        · intro c
          rw [ihtips c, htips, List.mem_append, Option.mem_toList, List.exists_mem_cons_iff, hr,
            Except.ok.injEq, or_assoc]
        · intro x
          rw [ihextra x, hextra, List.exists_mem_cons_iff, or_assoc]
  obtain ⟨htips, hextra⟩ := hgen wants _ t h
  exact ⟨fun c => by simpa using htips c, fun x => by simpa using hextra x⟩

/-- A want that is a commit peels to itself. -/
theorem peelToCommit_commit {c : ObjectId} (h : IsCommit (graph odb) c) :
    peelToCommit odb tagLimit c = .ok (some c) := by
  obtain ⟨commit, hc⟩ := h
  obtain ⟨ty, payload, hr, hp⟩ := graph_eq_some.mp hc
  obtain rfl : ty = .commit := (Object.objectType_parse hp).symm
  show peelToCommit odb (63 + 1) c = _
  rw [peelToCommit, readPresent_some.mpr hr]
  rfl

/-- What a want peels to is a commit it leads to through tags. -/
theorem peelToCommit_some {n : Nat} {w c : ObjectId}
    (h : peelToCommit odb n w = .ok (some c)) :
    ReflTransGen (TagRef (graph odb)) w c ∧ ∃ payload, read odb c = .ok (.commit, payload) := by
  induction n generalizing w with
  | zero => cases h
  | succ n ih =>
      rw [peelToCommit] at h
      obtain ⟨r, hr, h⟩ := except_bind_ok.mp h
      cases r with
      | none => cases h
      | some r =>
          obtain ⟨ty, payload⟩ := r
          cases ty with
          | commit =>
              cases h
              exact ⟨.refl, payload, readPresent_some.mp hr⟩
          | tag =>
              obtain ⟨tag, htag, h⟩ := except_bind_ok.mp h
              obtain ⟨hpath, hc⟩ := ih h
              exact ⟨.head ⟨tag, readPresent_tag hr htag, rfl⟩ hpath, hc⟩
          | tree => cases h
          | blob => cases h

end Puregit.Server
