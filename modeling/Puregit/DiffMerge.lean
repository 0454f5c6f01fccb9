import Puregit.Diff

/-! # The laws of the line merge

An edit script aligns two lists of lines, so its equal lines are pairs that increase on
both sides.  The cuts of a merge are base lines matched on both sides; they increase on
all three, `cuts_anchors`, and every line of a side lies in a region or is a cut.  From
this come the three unit laws of `merge3`, and from the symmetry of the cuts its
symmetry.
-/
namespace Puregit.Diff

/-! ## Lines -/

theorem flatten_splitLinesGo (acc data : Bytes) :
    (splitLinesGo acc data).flatten = acc.reverse ++ data := by
  induction data generalizing acc with
  | nil =>
      unfold splitLinesGo
      by_cases h : acc.isEmpty = true
      · rw [if_pos h, List.isEmpty_iff.mp h]
        rfl
      · rw [if_neg h]
        simp
  | cons b data ih =>
      unfold splitLinesGo
      by_cases h : b = 10
      · rw [if_pos h, List.flatten_cons, ih]
        simp
      · rw [if_neg h, ih]
        simp

/-- The lines make up the buffer. -/
theorem flatten_splitLines (data : Bytes) : (splitLines data).flatten = data :=
  flatten_splitLinesGo [] data

/-! ## Edit scripts -/

/-- A script that turns one list of lines into another. -/
inductive Script : List Bytes → List Bytes → List (Op × Bytes) → Prop
  | nil : Script [] [] []
  | equal {old new ops} (l : Bytes) : Script old new ops →
    Script (l :: old) (l :: new) ((.equal, l) :: ops)
  | delete {old new ops} (l : Bytes) : Script old new ops →
    Script (l :: old) new ((.delete, l) :: ops)
  | insert {old new ops} (l : Bytes) : Script old new ops →
    Script old (l :: new) ((.insert, l) :: ops)

theorem script_inserts (new : List Bytes) : Script [] new (new.map fun b => (.insert, b)) := by
  induction new with
  | nil => exact .nil
  | cons b new ih => exact .insert b ih

theorem script_deletes (old : List Bytes) : Script old [] (old.map fun a => (.delete, a)) := by
  induction old with
  | nil => exact .nil
  | cons a old ih => exact .delete a ih

/-- **Whatever the table says, the walk is a script** from the old side to the new. -/
theorem script_lineOpsGo (rows : List (List Nat)) (j : Nat) (old new : List Bytes) :
    Script old new (lineOpsGo rows j old new) := by
  fun_induction lineOpsGo rows j old new with
  | case1 rows j new => exact script_inserts new
  | case2 rows j old hold => exact script_deletes old
  | case3 rows j a old new ih => exact .equal _ ih
  | case4 rows j a old b new hne hge ih => exact .delete _ ih
  | case5 rows j a old b new hne hlt ih => exact .insert _ ih

/-- Pairs that increase on both sides. -/
def Increasing (pairs : List (Nat × Nat)) : Prop :=
  pairs.Pairwise fun p q => p.1 < q.1 ∧ p.2 < q.2

/-- A match of two lists whose lines are counted from `bi` and `oi` on. -/
def MatchAt (old new : List Bytes) (bi oi : Nat) (p : Nat × Nat) : Prop :=
  bi ≤ p.1 ∧ oi ≤ p.2 ∧ ∃ l, old[p.1 - bi]? = some l ∧ new[p.2 - oi]? = some l

theorem MatchAt.shift {old new : List Bytes} {bi oi : Nat} {p : Nat × Nat} {a b : List Bytes}
    (h : MatchAt old new (bi + a.length) (oi + b.length) p) :
    MatchAt (a ++ old) (b ++ new) bi oi p := by
  obtain ⟨hb, ho, l, hold, hnew⟩ := h
  refine ⟨by omega, by omega, l, ?_, ?_⟩
  · rw [List.getElem?_append_right (by omega), ← hold]
    congr 1
    omega
  · rw [List.getElem?_append_right (by omega), ← hnew]
    congr 1
    omega

/-- **The matches of a script are pairs of equal lines and increase on both sides.** -/
theorem matchesGo_spec {old new : List Bytes} {ops : List (Op × Bytes)} (h : Script old new ops)
    (bi oi : Nat) : Increasing (matchesGo bi oi ops) ∧
      ∀ p ∈ matchesGo bi oi ops, MatchAt old new bi oi p := by
  induction h generalizing bi oi with
  | nil => exact ⟨List.Pairwise.nil, fun p hp => absurd hp List.not_mem_nil⟩
  | @equal old new ops l _ ih =>
      obtain ⟨hinc, hmatch⟩ := ih (bi + 1) (oi + 1)
      refine ⟨List.pairwise_cons.mpr ⟨fun q hq => ?_, hinc⟩, fun p hp => ?_⟩
      · obtain ⟨hb, ho, -⟩ := hmatch q hq
        exact ⟨hb, ho⟩
      · rcases List.mem_cons.mp hp with hp | hp
        · rw [hp]
          exact ⟨le_refl _, le_refl _, l, by simp, by simp⟩
        · exact MatchAt.shift (a := [l]) (b := [l]) (hmatch p hp)
  | @delete old new ops l _ ih =>
      obtain ⟨hinc, hmatch⟩ := ih (bi + 1) oi
      exact ⟨hinc, fun p hp => MatchAt.shift (a := [l]) (b := []) (hmatch p hp)⟩
  | @insert old new ops l _ ih =>
      obtain ⟨hinc, hmatch⟩ := ih bi (oi + 1)
      exact ⟨hinc, fun p hp => MatchAt.shift (a := []) (b := [l]) (hmatch p hp)⟩

theorem increasing_lineMatches (base other : List Bytes) : Increasing (lineMatches base other) :=
  (matchesGo_spec (script_lineOpsGo _ 0 base other) 0 0).1

/-- Matched lines are equal. -/
theorem mem_lineMatches {base other : List Bytes} {p : Nat × Nat} (h : p ∈ lineMatches base other) :
    ∃ l, base[p.1]? = some l ∧ other[p.2]? = some l := by
  obtain ⟨-, -, l, hb, ho⟩ := (matchesGo_spec (script_lineOpsGo _ 0 base other) 0 0).2 p h
  exact ⟨l, by simpa using hb, by simpa using ho⟩

/-- Of two matches the one further on in the base is further on in the other side. -/
theorem Increasing.lt {pairs : List (Nat × Nat)} (h : Increasing pairs) {p q : Nat × Nat}
    (hp : p ∈ pairs) (hq : q ∈ pairs) (hlt : p.1 < q.1) : p.2 < q.2 := by
  induction pairs with
  | nil => cases hp
  | cons r pairs ih =>
      obtain ⟨hhead, htail⟩ := List.pairwise_cons.mp h
      rcases List.mem_cons.mp hp with rfl | hp'
      · rcases List.mem_cons.mp hq with rfl | hq'
        · omega
        · exact (hhead q hq').2
      · rcases List.mem_cons.mp hq with rfl | hq'
        · have := (hhead p hp').1
          omega
        · exact ih htail hp' hq'

/-- A list of lines is aligned with itself line by line. -/
theorem lineOpsGo_self (rows : List (List Nat)) (j : Nat) (ls : List Bytes) :
    lineOpsGo rows j ls ls = ls.map fun l => (.equal, l) := by
  induction ls generalizing rows j with
  | nil =>
      unfold lineOpsGo
      rfl
  | cons l ls ih =>
      unfold lineOpsGo
      rw [if_pos rfl, ih]
      rfl

theorem mem_matchesGo_equal {ls : List Bytes} {bi oi : Nat} {p : Nat × Nat}
    (h : p ∈ matchesGo bi oi (ls.map fun l => (.equal, l))) : p.2 + bi = p.1 + oi := by
  induction ls generalizing bi oi with
  | nil => cases h
  | cons l ls ih =>
      rcases List.mem_cons.mp h with rfl | h
      · omega
      · have := ih h
        omega

theorem mem_lineMatches_self {ls : List Bytes} {p : Nat × Nat} (h : p ∈ lineMatches ls ls) :
    p.2 = p.1 := by
  rw [lineMatches, lineOps, lineOpsGo_self] at h
  have := mem_matchesGo_equal h
  omega

/-! ## Cuts -/

/-- A cut: a position in the base and in both sides. -/
abbrev Cut := Nat × Nat × Nat

/-- The cut with the sides exchanged. -/
def Cut.swap (c : Cut) : Cut := (c.1, c.2.2, c.2.1)

/-- One and the same line stands at the cut in the base and in both sides. -/
def IsCommonLine (base ours theirs : List Bytes) (c : Cut) : Prop :=
  ∃ l, base[c.1]? = some l ∧ ours[c.2.1]? = some l ∧ theirs[c.2.2]? = some l

/-- The cuts from three positions on: common lines, further and further on in all three
lists, up to the ends. -/
def CutsFrom (base ours theirs : List Bytes) : Cut → List Cut → Prop
  | _, [] => False
  | p, [c] => c = (base.length, ours.length,
    theirs.length) ∧ p.1 ≤ c.1 ∧ p.2.1 ≤ c.2.1 ∧ p.2.2 ≤ c.2.2
  | p, c :: d :: cs => IsCommonLine base ours theirs c ∧ p.1 ≤ c.1 ∧ p.2.1 ≤ c.2.1 ∧ p.2.2 ≤ c.2.2 ∧
      CutsFrom base ours theirs (c.1 + 1, c.2.1 + 1, c.2.2 + 1) (d :: cs)

section
variable {base ours theirs : List Bytes}

/-- The common lines among the cuts. -/
def common (base ours theirs : List Bytes) : List Cut :=
  (BTreeMap.ofList (lineMatches base ours)).toList.filterMap fun b =>
    ((BTreeMap.ofList (lineMatches base theirs)).get? b.1).map fun ti => (b.1, b.2, ti)

theorem anchors_eq (base ours theirs : List Bytes) : anchors base ours theirs =
    common base ours theirs ++ [(base.length, ours.length, theirs.length)] := rfl

/-- A base line is a cut when it is matched on both sides. -/
theorem mem_common {c : Cut} : c ∈ common base ours theirs ↔
    (c.1, c.2.1) ∈ (BTreeMap.ofList (lineMatches base ours)).toList ∧
      (c.1, c.2.2) ∈ (BTreeMap.ofList (lineMatches base theirs)).toList := by
  rw [common, List.mem_filterMap]
  constructor
  · intro ⟨b, hb, hc⟩
    obtain ⟨ti, hti, rfl⟩ := Option.map_eq_some_iff.mp hc
    exact ⟨hb, BTreeMap.get?_eq_some.mp hti⟩
  · intro ⟨hb, ht⟩
    exact ⟨_, hb, by rw [BTreeMap.get?_eq_some.mpr ht]; rfl⟩

theorem common_sorted (base ours theirs : List Bytes) :
    (common base ours theirs).Pairwise fun c d => c.1 < d.1 := by
  refine List.Pairwise.filterMap _ (fun a a' hlt c hc d hd => ?_)
    (BTreeMap.ofList (lineMatches base ours)).sorted
  obtain ⟨ti, -, rfl⟩ := Option.map_eq_some_iff.mp hc
  obtain ⟨ti', -, rfl⟩ := Option.map_eq_some_iff.mp hd
  exact hlt

/-- The common lines increase in the base and in both sides. -/
theorem common_increasing (base ours theirs : List Bytes) :
    (common base ours theirs).Pairwise fun c d => c.1 < d.1 ∧ c.2.1 < d.2.1 ∧ c.2.2 < d.2.2 := by
  refine (List.Pairwise.and_mem.mp (common_sorted base ours theirs)).imp ?_
  intro c d ⟨hc, hd, hlt⟩
  obtain ⟨hco, hct⟩ := mem_common.mp hc
  obtain ⟨hdo, hdt⟩ := mem_common.mp hd
  have hours : c.2.1 < d.2.1 :=
    (increasing_lineMatches base ours).lt (BTreeMap.mem_of_mem_ofList hco)
      (BTreeMap.mem_of_mem_ofList hdo) hlt
  have htheirs : (c.1, c.2.2).2 < (d.1, d.2.2).2 :=
    (increasing_lineMatches base theirs).lt (BTreeMap.mem_of_mem_ofList hct)
      (BTreeMap.mem_of_mem_ofList hdt) hlt
  exact ⟨hlt, hours, htheirs⟩

theorem isCommonLine_of_mem {c : Cut} (h : c ∈ common base ours theirs) :
    IsCommonLine base ours theirs c := by
  obtain ⟨ho, ht⟩ := mem_common.mp h
  obtain ⟨l, hb, hl⟩ := mem_lineMatches (BTreeMap.mem_of_mem_ofList ho)
  obtain ⟨l', hb', hl'⟩ := mem_lineMatches (BTreeMap.mem_of_mem_ofList ht)
  obtain rfl := Option.some.inj (hb.symm.trans hb')
  exact ⟨l, hb, hl, hl'⟩

theorem cutsFrom_append {cs : List Cut} (hline : ∀ c ∈ cs, IsCommonLine base ours theirs c)
    (hinc : cs.Pairwise fun c d => c.1 < d.1 ∧ c.2.1 < d.2.1 ∧ c.2.2 < d.2.2) {p : Cut}
    (hfrom : ∀ c ∈ cs, p.1 ≤ c.1 ∧ p.2.1 ≤ c.2.1 ∧ p.2.2 ≤ c.2.2)
    (hend : p.1 ≤ base.length ∧ p.2.1 ≤ ours.length ∧ p.2.2 ≤ theirs.length) :
    CutsFrom base ours theirs p (cs ++ [(base.length, ours.length, theirs.length)]) := by
  induction cs generalizing p with
  | nil => exact ⟨rfl, hend⟩
  | cons c cs ih =>
      obtain ⟨hlt, hinc'⟩ := List.pairwise_cons.mp hinc
      obtain ⟨hp1, hp2, hp3⟩ := hfrom c List.mem_cons_self
      have hc := hline c List.mem_cons_self
      have hbound : c.1 + 1 ≤ base.length ∧ c.2.1 + 1 ≤ ours.length ∧
          c.2.2 + 1 ≤ theirs.length := by
        obtain ⟨l, hb, ho, ht⟩ := hc
        exact ⟨(List.getElem?_eq_some_iff.mp hb).1, (List.getElem?_eq_some_iff.mp ho).1,
          (List.getElem?_eq_some_iff.mp ht).1⟩
      have hrest := ih (fun d hd => hline d (List.mem_cons_of_mem c hd)) hinc'
        (p := (c.1 + 1, c.2.1 + 1, c.2.2 + 1)) (fun d hd => hlt d hd) hbound
      cases hcs : cs ++ [(base.length, ours.length, theirs.length)] with
      | nil => simp at hcs
      | cons d ds =>
          rw [hcs] at hrest
          rw [List.cons_append, hcs]
          exact ⟨hc, hp1, hp2, hp3, hrest⟩

/-- **The cuts of a merge** are common lines up to the ends, so every region is in bounds. -/
theorem cuts_anchors (base ours theirs : List Bytes) :
    CutsFrom base ours theirs (0, 0, 0) (anchors base ours theirs) := by
  rw [anchors_eq]
  exact cutsFrom_append (fun c hc => isCommonLine_of_mem hc) (common_increasing base ours theirs)
    (fun c _ => ⟨Nat.zero_le _, Nat.zero_le _, Nat.zero_le _⟩)
    ⟨Nat.zero_le _, Nat.zero_le _, Nat.zero_le _⟩

/-- **Exchanging the sides exchanges them in every cut.** -/
theorem anchors_swap (base ours theirs : List Bytes) :
    anchors base theirs ours = (anchors base ours theirs).map Cut.swap := by
  have hcommon : common base theirs ours = (common base ours theirs).map Cut.swap := by
    refine BTreeMap.eq_of_mem_iff (common_sorted base theirs ours) ?_ fun c => ?_
    · rw [List.pairwise_map]
      exact common_sorted base ours theirs
    · rw [mem_common, List.mem_map]
      constructor
      · intro ⟨ht, ho⟩
        exact ⟨Cut.swap c, mem_common.mpr ⟨ho, ht⟩, rfl⟩
      · intro ⟨d, hd, hc⟩
        obtain ⟨ho, ht⟩ := mem_common.mp hd
        rw [← hc]
        exact ⟨ht, ho⟩
  rw [anchors_eq, anchors_eq, hcommon, List.map_append]
  rfl

end

/-! ## Merging region by region -/

section
variable {base ours theirs : List Bytes}

/-- The lines from a position on are a region, the line at its end, and the lines after. -/
theorem drop_eq_region {ls : List Bytes} {i j : Nat} {l : Bytes} (hij : i ≤ j)
    (hl : ls[j]? = some l) : ls.drop i = region ls i j ++ l :: ls.drop (j + 1) := by
  obtain ⟨hj, hl⟩ := List.getElem?_eq_some_iff.mp hl
  have hdrop : ls.drop j = l :: ls.drop (j + 1) := by
    rw [List.drop_eq_getElem_cons hj, hl]
  rw [region, ← hdrop]
  have hsplit := (List.take_append_drop (j - i) (ls.drop i)).symm
  rw [List.drop_drop, Nat.add_sub_cancel' hij] at hsplit
  exact hsplit

theorem region_to_end (ls : List Bytes) (i : Nat) : region ls i ls.length = ls.drop i := by
  rw [region]
  exact List.take_of_length_le (by rw [List.length_drop])

/-- If every region between the cuts is resolved to that of `theirs`, the merge is
`theirs`.  `R` holds of the positions the regions start and end at. -/
theorem merge3Go_theirs {R : Cut → Prop}
    (hnext : ∀ c, R c → R (c.1 + 1, c.2.1 + 1, c.2.2 + 1))
    (hregion : ∀ p c, R p → R c →
      mergeRegion (region base p.1 c.1) (region ours p.2.1 c.2.1) (region theirs p.2.2 c.2.2) =
        ⟨(region theirs p.2.2 c.2.2).flatten, false⟩)
    {p : Cut} {cs : List Cut} (hp : R p) (hcs : ∀ c ∈ cs, R c)
    (hcuts : CutsFrom base ours theirs p cs) :
    merge3Go base ours theirs p.1 p.2.1 p.2.2 cs = ⟨(theirs.drop p.2.2).flatten, false⟩ := by
  induction cs generalizing p with
  | nil => exact hcuts.elim
  | cons c cs ih =>
      have hc := hcs c List.mem_cons_self
      unfold merge3Go
      simp only [hregion p c hp hc]
      cases cs with
      | nil =>
          obtain ⟨hend, -, -, -⟩ := hcuts
          rw [hend]
          simp [merge3Go, region_to_end]
      | cons d cs =>
          obtain ⟨⟨l, hb, -, ht⟩, -, -, hle, hrest⟩ := hcuts
          have hmerged := ih (hnext c hc) (fun e he => hcs e (List.mem_cons_of_mem c he)) hrest
          rw [hmerged, drop_eq_region hle ht, List.getD_eq_getElem?_getD, hb]
          simp

/-- Exchanging the sides of a region exchanges nothing but the sides of a conflict. -/
theorem mergeRegion_swap (base ours theirs : List Bytes) :
    (mergeRegion base theirs ours).conflicted = (mergeRegion base ours theirs).conflicted ∧
      ((mergeRegion base ours theirs).conflicted = false →
        mergeRegion base theirs ours = mergeRegion base ours theirs) := by
  unfold mergeRegion
  by_cases hsame : ours = theirs
  · rw [hsame]
    exact ⟨rfl, fun _ => rfl⟩
  rw [if_neg hsame, if_neg (Ne.symm hsame)]
  by_cases hours : ours = base
  · have htheirs : theirs ≠ base := fun h => hsame (hours.trans h.symm)
    rw [if_pos hours, if_neg htheirs, if_pos hours]
    exact ⟨rfl, fun _ => rfl⟩
  by_cases htheirs : theirs = base
  · rw [if_pos htheirs, if_neg hours, if_pos htheirs]
    exact ⟨rfl, fun _ => rfl⟩
  · rw [if_neg hours, if_neg htheirs, if_neg htheirs, if_neg hours]
    exact ⟨rfl, fun h => (by cases h)⟩

theorem merge3Go_swap (base ours theirs : List Bytes) (pb po pt : Nat) (cs : List Cut) :
    (merge3Go base theirs ours pb pt po (cs.map Cut.swap)).conflicted =
        (merge3Go base ours theirs pb po pt cs).conflicted ∧
      ((merge3Go base ours theirs pb po pt cs).conflicted = false →
        merge3Go base theirs ours pb pt po (cs.map Cut.swap) =
          merge3Go base ours theirs pb po pt cs) := by
  induction cs generalizing pb po pt with
  | nil => exact ⟨rfl, fun _ => rfl⟩
  | cons c cs ih =>
      obtain ⟨bi, oi, ti⟩ := c
      obtain ⟨hregion, hregion'⟩ := mergeRegion_swap (region base pb bi) (region ours po oi)
        (region theirs pt ti)
      obtain ⟨hrest, hrest'⟩ := ih (bi + 1) (oi + 1) (ti + 1)
      rw [List.map_cons]
      show _ ∧ _
      simp only [Cut.swap, merge3Go]
      refine ⟨by rw [hregion, hrest], fun h => ?_⟩
      obtain ⟨h1, h2⟩ := Bool.or_eq_false_iff.mp h
      rw [hregion' h1, hrest' h2]

end

/-! ## The laws -/

/-- Where our side is the base, the merge is their side. -/
theorem merge3_base_ours (base theirs : Bytes) : merge3 base base theirs = ⟨theirs, false⟩ := by
  have hall : ∀ c ∈ anchors (splitLines base) (splitLines base) (splitLines theirs),
      c.2.1 = c.1 := by
    intro c hc
    rw [anchors_eq] at hc
    rcases List.mem_append.mp hc with hc | hc
    · exact mem_lineMatches_self (BTreeMap.mem_of_mem_ofList (mem_common.mp hc).1)
    · rw [List.mem_singleton.mp hc]
  have hmerge := merge3Go_theirs (R := fun c => c.2.1 = c.1) (p := (0, 0, 0))
    (fun c hc => by rw [hc]) (fun p c hp hc => ?_) rfl hall (cuts_anchors _ _ _)
  · rw [List.drop_zero, flatten_splitLines] at hmerge
    exact hmerge
  · rw [hp, hc, mergeRegion]
    by_cases hsame : region (splitLines base) p.1 c.1 = region (splitLines theirs) p.2.2 c.2.2
    · rw [if_pos hsame, hsame]
    · rw [if_neg hsame, if_pos rfl]

/-- Where both sides are the same, the merge is that side. -/
theorem merge3_same (base side : Bytes) : merge3 base side side = ⟨side, false⟩ := by
  have hall : ∀ c ∈ anchors (splitLines base) (splitLines side) (splitLines side),
      c.2.1 = c.2.2 := by
    intro c hc
    rw [anchors_eq] at hc
    rcases List.mem_append.mp hc with hc | hc
    · obtain ⟨ho, ht⟩ := mem_common.mp hc
      exact Option.some.inj ((BTreeMap.get?_eq_some.mpr ho).symm.trans
        (BTreeMap.get?_eq_some.mpr ht))
    · rw [List.mem_singleton.mp hc]
  have hmerge := merge3Go_theirs (R := fun c => c.2.1 = c.2.2) (p := (0, 0, 0))
    (fun c hc => by rw [hc]) (fun p c hp hc => ?_) rfl hall (cuts_anchors _ _ _)
  · rw [List.drop_zero, flatten_splitLines] at hmerge
    exact hmerge
  · rw [hp, hc, mergeRegion, if_pos rfl]

/-- **Exchanging the sides changes neither whether the merge conflicts nor, where it does
not, what is merged.** -/
theorem merge3_swap (base ours theirs : Bytes) :
    (merge3 base theirs ours).conflicted = (merge3 base ours theirs).conflicted ∧
      ((merge3 base ours theirs).conflicted = false →
        merge3 base theirs ours = merge3 base ours theirs) := by
  rw [merge3, merge3, anchors_swap]
  exact merge3Go_swap _ _ _ 0 0 0 _

/-- **The laws of the line merge.** -/
theorem merge3_laws (base ours theirs side : Bytes) :
    merge3 base base theirs = ⟨theirs, false⟩ ∧ merge3 base ours base = ⟨ours, false⟩ ∧
    merge3 base side side = ⟨side, false⟩ ∧
    (merge3 base theirs ours).conflicted = (merge3 base ours theirs).conflicted ∧
    ((merge3 base ours theirs).conflicted = false →
      (merge3 base theirs ours).merged = (merge3 base ours theirs).merged) := by
  obtain ⟨hconflict, hmerged⟩ := merge3_swap base ours theirs
  have hbase := merge3_base_ours base ours
  refine ⟨merge3_base_ours base theirs, ?_, merge3_same base side, hconflict,
    fun h => by rw [hmerged h]⟩
  obtain ⟨-, hswap⟩ := merge3_swap base base ours
  rw [hswap (by rw [hbase]), hbase]

end Puregit.Diff
