import Puregit.Diff.Lines

/-! # Conflict markers

A merge writes lines of its inputs and conflict markers: `pieces` lists what it writes
in order.  A marker stands at the start of a line of the output unless the line before
it is the last one of a buffer that does not end in a newline.  Such a line is either
cut, and then it ends all three buffers and nothing follows, or it lies in the region
behind the last cut: `markersStartLines_iff` says when a marker is glued to it.
-/
namespace Puregit.Diff

/-- What a merge writes at a time. -/
inductive Piece where
  | line (l : Bytes)
  | marker (m : Bytes)
  deriving DecidableEq

/-- The bytes of a piece. -/
def Piece.bytes : Piece → Bytes
  | .line l => l
  | .marker m => m

/-- The output of some pieces. -/
def render (ps : List Piece) : Bytes := (ps.map Piece.bytes).flatten

/-- What is written for one region between cuts. -/
def regionPieces (base ours theirs : List Bytes) : List Piece :=
  if ours = theirs then ours.map .line
  else if ours = base then theirs.map .line
  else if theirs = base then ours.map .line
  else .marker (bytes "<<<<<<< ours\n") :: ours.map .line ++
    .marker (bytes "=======\n") :: theirs.map .line
    ++ [.marker (bytes ">>>>>>> theirs\n")]

/-- The positions behind a cut. -/
def Cut.next (c : Cut) : Cut := (c.1 + 1, c.2.1 + 1, c.2.2 + 1)

/-- What is written region by region, each with the line it is cut at. -/
def piecesGo (base ours theirs : List Bytes) (p : Cut) : List Cut → List Piece
  | [] => []
  | c :: cs =>
      regionPieces (region base p.1 c.1) (region ours p.2.1 c.2.1) (region theirs p.2.2 c.2.2)
        ++ (base[c.1]?.map Piece.line).toList ++ piecesGo base ours theirs c.next cs

/-- What the merge of two sides writes. -/
def pieces (base ours theirs : Bytes) : List Piece :=
  piecesGo (splitLines base) (splitLines ours) (splitLines theirs) (0, 0, 0)
    (anchors (splitLines base) (splitLines ours) (splitLines theirs))

theorem render_append (ps qs : List Piece) : render (ps ++ qs) = render ps ++ render qs := by
  rw [render, List.map_append, List.flatten_append]
  rfl

@[simp] theorem render_nil : render [] = [] := rfl

theorem render_cons (q : Piece) (ps : List Piece) : render (q :: ps) = q.bytes ++ render ps := rfl

theorem render_lines (ls : List Bytes) : render (ls.map .line) = ls.flatten := by
  rw [render, List.map_map]
  exact congrArg List.flatten (List.map_id ls)

theorem render_regionPieces (base ours theirs : List Bytes) :
    render (regionPieces base ours theirs) = (mergeRegion base ours theirs).merged := by
  rw [regionPieces, mergeRegion]
  split
  · exact render_lines ours
  split
  · exact render_lines theirs
  split
  · exact render_lines ours
  · simp only [List.cons_append, List.append_assoc, render_cons, render_append, render_lines,
      Piece.bytes, render_nil, List.append_nil]

/-- **The pieces make up what the merge writes.** -/
theorem render_pieces (base ours theirs : Bytes) :
    render (pieces base ours theirs) = (merge3 base ours theirs).merged := by
  have hgo : ∀ (base ours theirs : List Bytes) (cs : List Cut) (p : Cut),
      render (piecesGo base ours theirs p cs) =
        (merge3Go base ours theirs p.1 p.2.1 p.2.2 cs).merged := by
    intro base ours theirs cs
    induction cs with
    | nil => exact fun p => rfl
    | cons c cs ih =>
        intro p
        rw [piecesGo, merge3Go, render_append, render_append, render_regionPieces, ih]
        have hline : render (base[c.1]?.map Piece.line).toList = base.getD c.1 [] := by
          rw [List.getD_eq_getElem?_getD]
          cases base[c.1]? <;> simp [render, Piece.bytes]
        rw [hline]
        rfl
  exact hgo _ _ _ _ _

/-! ## Where the last region starts -/

/-- The positions behind the last of some cuts. -/
def resume (p : Cut) (cs : List Cut) : Cut := cs.foldl (fun _ c => c.next) p

theorem piecesGo_append (base ours theirs : List Bytes) (cs ds : List Cut) : ∀ p,
    piecesGo base ours theirs p (cs ++ ds) =
      piecesGo base ours theirs p cs ++ piecesGo base ours theirs (resume p cs) ds := by
  induction cs with
  | nil => exact fun p => rfl
  | cons c cs ih =>
      intro p
      rw [List.cons_append, piecesGo, piecesGo, ih c.next, ← List.append_assoc]
      rfl

/-- The lines behind the last line common to the base and both sides. -/
def lastRegion (base ours theirs : Bytes) : List Bytes × List Bytes × List Bytes :=
  let p := resume (0, 0, 0) (common (splitLines base) (splitLines ours) (splitLines theirs))
  ((splitLines base).drop p.1, (splitLines ours).drop p.2.1, (splitLines theirs).drop p.2.2)

/-- Behind the last common line the base and the two sides are three different lists of
lines. -/
def LastConflicts (base ours theirs : Bytes) : Prop :=
  (lastRegion base ours theirs).2.1 ≠ (lastRegion base ours theirs).2.2 ∧
    (lastRegion base ours theirs).2.1 ≠ (lastRegion base ours theirs).1 ∧
    (lastRegion base ours theirs).2.2 ≠ (lastRegion base ours theirs).1

/-- What is written ends with the region behind the last common line. -/
theorem pieces_eq (base ours theirs : Bytes) : pieces base ours theirs =
    piecesGo (splitLines base) (splitLines ours) (splitLines theirs) (0, 0, 0)
        (common (splitLines base) (splitLines ours) (splitLines theirs)) ++
      regionPieces (lastRegion base ours theirs).1 (lastRegion base ours theirs).2.1
        (lastRegion base ours theirs).2.2 := by
  rw [pieces, anchors_eq, piecesGo_append, piecesGo, region_to_end, region_to_end, region_to_end,
    List.getElem?_eq_none (le_refl _), piecesGo]
  simp [lastRegion]

/-! ## The lines written -/

section
variable {base ours theirs : List Bytes}

theorem terminated_markers : Terminated (bytes "<<<<<<< ours\n") ∧ Terminated (bytes "=======\n") ∧
    Terminated (bytes ">>>>>>> theirs\n") := by
  refine ⟨⟨bytes "<<<<<<< ours", ?_, rfl⟩, ⟨bytes "=======", ?_, rfl⟩,
    ⟨bytes ">>>>>>> theirs", ?_, rfl⟩⟩ <;>
    decide

theorem terminated_regionPieces (ho : ∀ l ∈ ours, Terminated l) (ht : ∀ l ∈ theirs, Terminated l) :
    ∀ q ∈ regionPieces base ours theirs, Terminated q.bytes := by
  obtain ⟨h₁, h₂, h₃⟩ := terminated_markers
  have hmap : ∀ {ls : List Bytes}, (∀ l ∈ ls, Terminated l) →
      ∀ q ∈ ls.map Piece.line, Terminated q.bytes := by
    intro ls hls q hq
    obtain ⟨l, hl, rfl⟩ := List.mem_map.mp hq
    exact hls l hl
  rw [regionPieces]
  split
  · exact hmap ho
  split
  · exact hmap ht
  split
  · exact hmap ho
  · intro q hq
    simp only [List.cons_append, List.mem_cons, List.mem_append, List.not_mem_nil, or_false] at hq
    rcases hq with rfl | (hq | rfl | hq) | rfl
    · exact h₁
    · exact hmap ho q hq
    · exact h₂
    · exact hmap ht q hq
    · exact h₃

/-- The lines of a region that ends at a line are terminated. -/
theorem terminated_region {ls : List Bytes} (h : Lines ls) {i j : Nat} {l : Bytes}
    (hj : ls[j]? = some l) :
    ∀ x ∈ region ls i j, Terminated x := by
  intro x hx
  obtain ⟨k, hk⟩ := List.mem_iff_getElem?.mp hx
  rw [region, List.getElem?_take] at hk
  split at hk
  · rename_i hlt
    rw [List.getElem?_drop] at hk
    refine h.terminated_at hk ?_
    have hjlt := (List.getElem?_eq_some_iff.mp hj).1
    omega
  · cases hk

/-- What is written up to a cut at a terminated line is terminated. -/
theorem terminated_piecesGo (ho : Lines ours) (ht : Lines theirs) {cs : List Cut}
    (hcs : ∀ c ∈ cs, ∃ l, base[c.1]? = some l ∧ ours[c.2.1]? = some l ∧ theirs[c.2.2]? = some l ∧
      Terminated l) :
    ∀ p, ∀ q ∈ piecesGo base ours theirs p cs, Terminated q.bytes := by
  induction cs with
  | nil => exact fun p q hq => by cases hq
  | cons c cs ih =>
      intro p q hq
      obtain ⟨l, hb, hol, htl, hl⟩ := hcs c List.mem_cons_self
      rw [piecesGo, hb] at hq
      rcases List.mem_append.mp hq with hq | hq
      · rcases List.mem_append.mp hq with hq | hq
        · exact terminated_regionPieces (terminated_region ho hol) (terminated_region ht htl) q hq
        · rw [List.mem_singleton.mp hq]
          exact hl
      · exact ih (fun d hd => hcs d (List.mem_cons_of_mem c hd)) c.next q hq

end

/-! ## The last region -/

section
variable {base ours theirs : Bytes}

/-- The cuts at common lines. -/
abbrev commonCuts (base ours theirs : Bytes) : List Cut :=
  common (splitLines base) (splitLines ours) (splitLines theirs)

/-- **A common line without a newline ends all three buffers**: only terminated lines
are written before it, and nothing is behind it. -/
theorem pieces_of_unterminated {c : Cut} (hc : c ∈ commonCuts base ours theirs) {l : Bytes}
    (hl : (splitLines base)[c.1]? = some l) (hterm : ¬ Terminated l) :
    lastRegion base ours theirs = ([], [], []) ∧
      ∃ ps, pieces base ours theirs = ps ++ [.line l] ∧ ∀ q ∈ ps, Terminated q.bytes := by
  have hends : ∀ {ls : List Bytes} {i : Nat}, Lines ls → ls[i]? = some l → ls.length = i + 1 := by
    intro ls i hls hi
    by_contra hne
    have hlt := (List.getElem?_eq_some_iff.mp hi).1
    exact hterm (hls.terminated_at hi (by omega))
  -- it is the last of the cuts, and those before it stand at terminated lines
  obtain ⟨before, after, hsplit⟩ := List.append_of_mem hc
  have hinc := common_increasing (splitLines base) (splitLines ours) (splitLines theirs)
  have hbase := hends (lines_splitLines base) hl
  have hafter : after = [] := by
    cases after with
    | nil => rfl
    | cons d after =>
        have hd : d ∈ commonCuts base ours theirs := by rw [hsplit]; simp
        obtain ⟨l', hb, -⟩ := isCommonLine_of_mem hd
        rw [show common _ _ _ = before ++ c :: d :: after from hsplit] at hinc
        have hlt := (List.pairwise_cons.mp (List.pairwise_append.mp hinc).2.1).1 d
          List.mem_cons_self
        have hdlt := (List.getElem?_eq_some_iff.mp hb).1
        omega
  rw [hafter] at hsplit
  have hbefore : ∀ d ∈ before, ∃ l, (splitLines base)[d.1]? = some l ∧
    (splitLines ours)[d.2.1]? = some l ∧
      (splitLines theirs)[d.2.2]? = some l ∧ Terminated l := by
    intro d hd
    have hmem : d ∈ commonCuts base ours theirs := by rw [hsplit]; exact List.mem_append_left _ hd
    obtain ⟨l', hb, ho, ht⟩ := isCommonLine_of_mem hmem
    refine ⟨l', hb, ho, ht, (lines_splitLines base).terminated_at hb ?_⟩
    rw [show common _ _ _ = before ++ [c] from hsplit] at hinc
    have hlt := (List.pairwise_append.mp hinc).2.2 d hd c (List.mem_singleton_self c)
    omega
  obtain ⟨l', hb, ho, ht⟩ := isCommonLine_of_mem hc
  obtain rfl : l' = l := Option.some.inj (hb.symm.trans hl)
  have hlast : lastRegion base ours theirs = ([], [], []) := by
    have hresume : resume (0, 0, 0) (commonCuts base ours theirs) = c.next := by
      rw [hsplit, resume, List.foldl_append]
      rfl
    rw [lastRegion]
    simp only [hresume, Cut.next]
    rw [← hbase, ← hends (lines_splitLines ours) ho, ← hends (lines_splitLines theirs) ht,
      List.drop_length, List.drop_length, List.drop_length]
  refine ⟨hlast, piecesGo (splitLines base) (splitLines ours) (splitLines theirs) (0,
    0, 0) before ++
    regionPieces (region (splitLines base) (resume (0, 0, 0) before).1 c.1)
      (region (splitLines ours) (resume (0, 0, 0) before).2.1 c.2.1)
      (region (splitLines theirs) (resume (0, 0, 0) before).2.2 c.2.2), ?_, fun q hq => ?_⟩
  · rw [pieces_eq, hlast, show common _ _ _ = before ++ [c] from hsplit,
      piecesGo_append, piecesGo, hl]
    simp [piecesGo, regionPieces]
  · rcases List.mem_append.mp hq with hq | hq
    · exact terminated_piecesGo (lines_splitLines ours) (lines_splitLines theirs) hbefore _ q hq
    · exact terminated_regionPieces (terminated_region (lines_splitLines ours) ho)
        (terminated_region (lines_splitLines theirs) ht) q hq

/-- Where all common lines are terminated, so is all that is written before the last
region. -/
theorem terminated_body (h : ∀ c ∈ commonCuts base ours theirs, ∀ l,
    (splitLines base)[c.1]? = some l →
    Terminated l) : ∀ q ∈ piecesGo (splitLines base) (splitLines ours) (splitLines theirs) (0, 0, 0)
      (commonCuts base ours theirs), Terminated q.bytes := by
  refine terminated_piecesGo (lines_splitLines ours) (lines_splitLines theirs) (fun c hc => ?_) _
  obtain ⟨l, hb, ho, ht⟩ := isCommonLine_of_mem hc
  exact ⟨l, hb, ho, ht, h c hc l hb⟩

/-- Then the last line of a side that is not terminated lies in the last region. -/
theorem last_line_behind {side : Cut → Nat} {ls xs : List Bytes} {l : Bytes}
    (hzero : side (0, 0, 0) = 0) (hnext : ∀ c, side c.next = side c + 1)
    (hside : ∀ c ∈ commonCuts base ours theirs, ∃ l, ls[side c]? = some l ∧ Terminated l)
    (hls : ls = xs ++ [l]) (hl : Unterminated l) :
    ∃ ys, ls.drop (side (resume (0, 0, 0) (commonCuts base ours theirs))) = ys ++ [l] := by
  have hle : side (resume (0, 0, 0) (commonCuts base ours theirs)) ≤ xs.length := by
    cases hcuts : commonCuts base ours theirs using List.reverseRecOn with
    | nil =>
        show side (0, 0, 0) ≤ xs.length
        omega
    | append_singleton cs c =>
        have hc : c ∈ commonCuts base ours theirs := by rw [hcuts]; simp
        obtain ⟨l', hl', hterm⟩ := hside c hc
        have hlt := (List.getElem?_eq_some_iff.mp hl').1
        rw [resume, List.foldl_append]
        show side c.next ≤ xs.length
        rw [hnext]
        by_contra hgt
        have heq : side c = xs.length := by
          rw [hls, List.length_append, List.length_singleton] at hlt
          omega
        rw [heq, hls, List.getElem?_concat_length] at hl'
        cases hl'
        exact hl.not_terminated hterm
  exact ⟨xs.drop _, by rw [hls, List.drop_append_of_le_length hle]⟩

end

/-! ## Markers -/

/-- The output so far is at the start of a line. -/
def AtLineStart (out : Bytes) : Prop := out = [] ∨ out.getLast? = some 10

/-- Every marker starts a line of the merged output, whose lines are the pieces written:
the lines of the sides and the markers. -/
def MarkersStartLines (base ours theirs : Bytes) : Prop :=
  (∀ before m after, pieces base ours theirs = before ++ .marker m :: after →
    AtLineStart (render before)) ∧
    splitLines (merge3 base ours theirs).merged = (pieces base ours theirs).map Piece.bytes

theorem markersStartLines_of_lines {base ours theirs : Bytes}
    (h : Lines ((pieces base ours theirs).map Piece.bytes)) :
    MarkersStartLines base ours theirs := by
  refine ⟨fun before m after hsplit => ?_, ?_⟩
  · refine getLast?_flatten_terminated fun l hl => ?_
    obtain ⟨xs, ys, hbefore⟩ := List.append_of_mem hl
    rw [hsplit, List.map_append, hbefore, List.append_assoc] at h
    exact h.terminated (by simp)
  · rw [← render_pieces, render, splitLines_flatten h]

/-- Output that ends in a line without a newline is not at the start of one. -/
theorem not_atLineStart {ps : List Piece} {l : Bytes} (hl : Unterminated l) :
    ¬ AtLineStart (render (ps ++ [.line l])) := by
  obtain ⟨b, hb, hne⟩ := hl.lacksNewline
  have hlast : (render (ps ++ [.line l])).getLast? = some b := by
    rw [render_append, List.getLast?_append, show render [.line l] = l ++ [] from rfl,
      List.append_nil, hb]
    rfl
  rintro (hnil | hnl)
  · rw [hnil] at hlast
    cases hlast
  · rw [hlast] at hnl
    exact hne (Option.some.inj hnl)

/-- Lines of what is written, terminated pieces first. -/
theorem lines_append_pieces {ps qs : List Piece} (hps : ∀ q ∈ ps, Terminated q.bytes)
    (hqs : Lines (qs.map Piece.bytes)) : Lines ((ps ++ qs).map Piece.bytes) := by
  rw [List.map_append]
  refine Lines.append (fun l hl => ?_) hqs
  obtain ⟨q, hq, rfl⟩ := List.mem_map.mp hl
  exact hps q hq

section
variable {base ours theirs : Bytes}

/-- What is written consists of lines, if the last region does not conflict or both
sides end in a newline. -/
theorem lines_pieces
    (h : ¬ (LastConflicts base ours theirs ∧ (LacksNewline ours ∨ LacksNewline theirs))) :
    Lines ((pieces base ours theirs).map Piece.bytes) := by
  by_cases hterm : ∀ c ∈ commonCuts base ours theirs, ∀ l, (splitLines base)[c.1]? =
    some l → Terminated l
  · rw [pieces_eq]
    refine lines_append_pieces (terminated_body hterm) ?_
    have hmap : ∀ ls : List Bytes, (ls.map Piece.line).map Piece.bytes = ls := by
      intro ls
      rw [List.map_map]
      exact List.map_id ls
    have ho : Lines (lastRegion base ours theirs).2.1 := (lines_splitLines ours).drop _
    have ht : Lines (lastRegion base ours theirs).2.2 := (lines_splitLines theirs).drop _
    by_cases hconflict : LastConflicts base ours theirs
    · -- a conflict between sides that end in a newline
      have hall : ∀ {data : Bytes}, ¬ LacksNewline data → ∀ l ∈ splitLines data, Terminated l := by
        intro data hdata
        rcases (lines_splitLines data).all_or_last with hall | hlast
        · exact hall
        · exact absurd (lacksNewline_iff.mpr hlast) hdata
      have hsides : ¬ LacksNewline ours ∧ ¬ LacksNewline theirs := by
        constructor
        · exact fun ho => h ⟨hconflict, Or.inl ho⟩
        · exact fun ht => h ⟨hconflict, Or.inr ht⟩
      have hregion := @terminated_regionPieces (lastRegion base ours theirs).1
        (lastRegion base ours theirs).2.1 (lastRegion base ours theirs).2.2
        (fun l hl => hall hsides.1 l (List.mem_of_mem_drop hl))
        (fun l hl => hall hsides.2 l (List.mem_of_mem_drop hl))
      have hlines := lines_append_pieces hregion
        (show Lines (([] : List Piece).map Piece.bytes) from trivial)
      rwa [List.append_nil] at hlines
    · rw [regionPieces]
      split
      · rwa [hmap]
      split
      · rwa [hmap]
      split
      · rwa [hmap]
      · rename_i h₁ h₂ h₃
        exact absurd ⟨h₁, h₂, h₃⟩ hconflict
  · -- a common line without a newline is the last thing written
    simp only [not_forall] at hterm
    obtain ⟨c, hc, l, hl, hl'⟩ := hterm
    obtain ⟨-, ps, hps, hall⟩ := pieces_of_unterminated hc hl hl'
    rw [hps]
    refine lines_append_pieces hall (Or.inr ⟨?_, rfl⟩)
    rcases (lines_splitLines base).all_or_last with hall' | ⟨xs, last, hsplit, hxs, hlast⟩
    · exact absurd (hall' l (List.mem_of_getElem? hl)) hl'
    · have hmem := List.mem_of_getElem? hl
      rw [hsplit] at hmem
      rcases List.mem_append.mp hmem with hmem | hmem
      · exact absurd (hxs l hmem) hl'
      · rw [List.mem_singleton.mp hmem]
        exact hlast

/-- **A marker is glued to a line** of a conflict behind the last cut, if a side does not
end in a newline. -/
theorem marker_glued (hconflict : LastConflicts base ours theirs)
    (hlacks : LacksNewline ours ∨ LacksNewline theirs) :
    ∃ before m after, pieces base ours theirs = before ++ .marker m :: after ∧
      ¬ AtLineStart (render before) := by
  -- all cuts are at terminated lines, since something lies behind the last of them
  have hterm : ∀ c ∈ commonCuts base ours theirs, ∀ l, (splitLines base)[c.1]? = some l →
      Terminated l := by
    intro c hc l hl
    by_contra hl'
    obtain ⟨hlast, -⟩ := pieces_of_unterminated hc hl hl'
    rw [LastConflicts, hlast] at hconflict
    exact hconflict.1 rfl
  have hsides : ∀ c ∈ commonCuts base ours theirs, ∃ l, (splitLines ours)[c.2.1]? = some l ∧
      (splitLines theirs)[c.2.2]? = some l ∧ Terminated l := by
    intro c hc
    obtain ⟨l, hb, ho, ht⟩ := isCommonLine_of_mem hc
    exact ⟨l, ho, ht, hterm c hc l hb⟩
  obtain ⟨h₁, h₂, h₃⟩ := hconflict
  obtain ⟨body, hpieces⟩ : ∃ body, pieces base ours theirs = body ++
      (Piece.marker (bytes "<<<<<<< ours\n") :: (lastRegion base ours theirs).2.1.map Piece.line ++
        Piece.marker (bytes "=======\n") :: (lastRegion base ours theirs).2.2.map Piece.line ++
        [Piece.marker (bytes ">>>>>>> theirs\n")]) := by
    rw [pieces_eq, regionPieces, if_neg h₁, if_neg h₂, if_neg h₃]
    exact ⟨_, rfl⟩
  rcases hlacks with ho | ht
  · obtain ⟨xs, l, hsplit, -, hl⟩ := lacksNewline_iff.mp ho
    obtain ⟨ys, hys⟩ := @last_line_behind base ours theirs (fun c => c.2.1) _ xs l rfl
      (fun _ => rfl)
      (fun c hc => by
        obtain ⟨l, hol, -, hl⟩ := hsides c hc
        exact ⟨l, hol, hl⟩) hsplit hl
    have htail : (lastRegion base ours theirs).2.1 = ys ++ [l] := hys
    refine ⟨body ++ Piece.marker (bytes "<<<<<<< ours\n") :: ys.map Piece.line ++ [Piece.line l],
      bytes "=======\n",
      (lastRegion base ours theirs).2.2.map Piece.line ++
        [Piece.marker (bytes ">>>>>>> theirs\n")], ?_,
      not_atLineStart hl⟩
    rw [hpieces, htail]
    simp only [List.map_append, List.map_cons, List.map_nil, List.append_assoc, List.cons_append,
      List.nil_append]
  · obtain ⟨xs, l, hsplit, -, hl⟩ := lacksNewline_iff.mp ht
    obtain ⟨ys, hys⟩ := @last_line_behind base ours theirs (fun c => c.2.2) _ xs l rfl
      (fun _ => rfl)
      (fun c hc => by
        obtain ⟨l, -, htl, hl⟩ := hsides c hc
        exact ⟨l, htl, hl⟩) hsplit hl
    have htail : (lastRegion base ours theirs).2.2 = ys ++ [l] := hys
    refine ⟨body ++ Piece.marker (bytes "<<<<<<< ours\n") ::
      (lastRegion base ours theirs).2.1.map Piece.line ++
      Piece.marker (bytes "=======\n") :: ys.map Piece.line ++ [Piece.line l],
        bytes ">>>>>>> theirs\n", [], ?_,
      not_atLineStart hl⟩
    rw [hpieces, htail]
    simp only [List.map_append, List.map_cons, List.map_nil, List.append_assoc, List.cons_append,
      List.nil_append]

/-- **When markers start lines**: unless the lines behind the last common line conflict
and a side does not end in a newline. -/
theorem markersStartLines_iff (base ours theirs : Bytes) : MarkersStartLines base ours theirs ↔
    ¬ (LastConflicts base ours theirs ∧ (LacksNewline ours ∨ LacksNewline theirs)) := by
  constructor
  · rintro ⟨hstart, -⟩ ⟨hconflict, hlacks⟩
    obtain ⟨before, m, after, hsplit, hnot⟩ := marker_glued hconflict hlacks
    exact hnot (hstart before m after hsplit)
  · exact fun h => markersStartLines_of_lines (lines_pieces h)

end

/-- Two changes of the last line, of which neither ends in a newline. -/
theorem not_markersStartLines :
    (merge3 (bytes "a\n") (bytes "b") (bytes "c")).merged =
      bytes "<<<<<<< ours\nb=======\nc>>>>>>> theirs\n" ∧
    ¬ MarkersStartLines (bytes "a\n") (bytes "b") (bytes "c") := by
  have hmerged : (merge3 (bytes "a\n") (bytes "b") (bytes "c")).merged =
      bytes "<<<<<<< ours\nb=======\nc>>>>>>> theirs\n" := by decide +kernel
  have hpieces : pieces (bytes "a\n") (bytes "b") (bytes "c") =
      [.marker (bytes "<<<<<<< ours\n"), .line (bytes "b"), .marker (bytes "=======\n"),
        .line (bytes "c"),
        .marker (bytes ">>>>>>> theirs\n")] := by decide +kernel
  refine ⟨hmerged, fun h => ?_⟩
  have hstart := h.1 [.marker (bytes "<<<<<<< ours\n"), .line (bytes "b")] _ _ hpieces
  rw [AtLineStart] at hstart
  revert hstart
  decide

end Puregit.Diff
