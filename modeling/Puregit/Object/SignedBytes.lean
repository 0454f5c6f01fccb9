import Puregit.Lib.Occurrence
import Puregit.Object.Canonical
import Puregit.Object.Signed

/-! # What a commit's signature covers

git signs the bytes of a commit with the `gpgsig` header cut out of them,
`withoutSignature`.  `signedPayload` writes the parsed commit again instead, without the
header.  Cutting the header out of a payload and parsing is parsing and dropping the
header, `parse_withoutSignature`; so the two agree exactly where the payload, cut, is in
the form the format gives it.
-/
namespace Puregit
namespace Commit

/-- Physical header lines without the signature: its line and the lines behind it that
start with a space. -/
def dropGpgsig (inside : Bool) : List Bytes → List Bytes
  | [] => []
  | line :: lines =>
      if gpgsig <+: line then dropGpgsig true lines
      else if inside && line.head? == some 32 then dropGpgsig true lines
      else line :: dropGpgsig false lines

/-- The bytes of a commit with its signature cut out of the header block. -/
def withoutSignature (payload : Bytes) : Bytes :=
  match splitBlankLine payload with
  | none => payload
  | some (header, message) =>
    (dropGpgsig false (physicalLines (header ++ [10]))).flatten ++ 10 :: message

/-! ## Lines without the signature -/

theorem head?_of_gpgsig {l : Bytes} (h : gpgsig <+: l) : l.head? = some 103 := by
  obtain ⟨r, rfl⟩ := h
  rfl

/-- A line that continues a header starts no signature. -/
theorem not_gpgsig_of_space {l : Bytes} (h : l.head? = some 32) : ¬ gpgsig <+: l := by
  intro hsig
  rw [head?_of_gpgsig hsig] at h
  exact absurd (Option.some.inj h) (by decide)

/-- What the code drops from the extra headers. -/
theorem splitLines_fst (lines : List Bytes) :
    (splitLines lines).1 = (dropGpgsig false lines).flatten := by
  have hinside : ∀ lines : List Bytes, dropGpgsig true lines =
      dropGpgsig false (lines.drop (lines.takeWhile fun l => l.head? == some 32).length) := by
    intro lines
    induction lines with
    | nil => rfl
    | cons line lines ih =>
        by_cases hspace : (line.head? == some 32) = true
        · have hsig := not_gpgsig_of_space (beq_iff_eq.mp hspace)
          rw [dropGpgsig, if_neg hsig, if_pos (by rw [hspace]; rfl), ih, List.takeWhile_cons,
            if_pos hspace,
            List.length_cons, List.drop_succ_cons]
        · rw [List.takeWhile_cons, if_neg hspace, List.length_nil, List.drop_zero,
            dropGpgsig, dropGpgsig]
          split
          · rfl
          · rw [if_neg (by rw [Bool.true_and]; exact hspace), if_neg (by simp)]
  induction hlen : lines.length using Nat.strong_induction_on generalizing lines with
  | _ n ih =>
      cases lines with
      | nil =>
          rw [splitLines]
          rfl
      | cons line lines =>
          rw [splitLines, dropGpgsig]
          split
          · rename_i hnone
            have hsig : ¬ gpgsig <+: line := by
              rintro ⟨r, rfl⟩
              rw [stripPrefix?_eq_some.mpr rfl] at hnone
              cases hnone
            rw [if_neg hsig, if_neg (by simp), List.flatten_cons]
            exact congrArg (line ++ ·)
              (ih lines.length (by rw [← hlen]; exact Nat.lt_succ_self _) lines rfl)
          · rename_i first hfirst
            rw [if_pos ⟨first, (stripPrefix?_eq_some.mp hfirst).symm⟩, hinside]
            refine ih _ ?_ _ rfl
            rw [← hlen, List.length_drop, List.length_cons]
            omega

/-- A folded line is a physical line and lines that start with a space. -/
theorem folded_shape {l : Bytes} (h : Folded l) : ∃ (first : Bytes) (further : List Bytes),
    l = first ++ further.flatMap (10 :: ·) ∧ 10 ∉ first ∧
      ∀ x ∈ further, 10 ∉ x ∧ x.head? = some 32 := by
  induction l with
  | nil => exact ⟨[], [], rfl, List.not_mem_nil, nofun⟩
  | cons b l ih =>
      obtain ⟨hb, hl⟩ := h
      obtain ⟨first, further, rfl, hfirst, hfurther⟩ := ih hl
      by_cases hb10 : b = 10
      · have hhead := hb hb10
        rw [Option.or_none] at hhead
        refine ⟨[], first :: further, ?_, List.not_mem_nil, fun x hx => ?_⟩
        · rw [hb10, List.flatMap_cons]
          rfl
        · rcases List.mem_cons.mp hx with rfl | hx
          · refine ⟨hfirst, ?_⟩
            cases x with
            | nil =>
                -- the space cannot come from a line that is continued at once
                cases further with
                | nil => cases hhead
                | cons y further => exact absurd (Option.some.inj hhead) (by decide)
            | cons c x => exact hhead
          · exact hfurther x hx
      · refine ⟨b :: first, further, rfl, fun hin => ?_, hfurther⟩
        rcases List.mem_cons.mp hin with heq | hin
        · exact hb10 heq.symm
        · exact hfirst hin

theorem physicalLines_shape {first : Bytes} {further : List Bytes} (hfirst : 10 ∉ first)
    (hfurther : ∀ x ∈ further, 10 ∉ x) (rest : Bytes) :
    physicalLines (first ++ further.flatMap (10 :: ·) ++ 10 :: rest) =
      (first ++ [10]) :: further.map (· ++ [10]) ++ physicalLines rest := by
  induction further generalizing first with
  | nil =>
      rw [List.flatMap_nil, List.append_nil, physicalLines_line hfirst]
      rfl
  | cons x further ih =>
      have hx := ih (hfurther x List.mem_cons_self) fun y hy =>
        hfurther y (List.mem_cons_of_mem x hy)
      rw [List.flatMap_cons, List.append_assoc, List.cons_append, List.cons_append,
        List.append_assoc,
        physicalLines_line hfirst, ← List.append_assoc, hx]
      rfl

/-- A header line other than the signature. -/
def keepLine (l : Bytes) : Bool := !(decide (gpgsig <+: l))

theorem gpgsig_prefix_shape {first : Bytes} {x : Bytes} (hx : x.head? = some 10 ∨ x = []) :
    gpgsig <+: first ++ x ↔ gpgsig <+: first := by
  constructor
  · intro h
    rcases hx with hx | rfl
    · cases x with
      | nil => cases hx
      | cons b x =>
          obtain rfl := Option.some.inj hx
          exact prefix_append_of_not_mem (by decide) h
    · rwa [List.append_nil] at h
  · exact fun h => h.trans (List.prefix_append _ _)

/-- The lines behind the first line of a signature are dropped with it. -/
theorem dropGpgsig_continued {further : List Bytes} (h : ∀ x ∈ further, x.head? = some 32)
    (rest : List Bytes) :
    dropGpgsig true (further.map (· ++ [10]) ++ rest) = dropGpgsig true rest := by
  induction further with
  | nil => rfl
  | cons x further ih =>
      have hx := h x List.mem_cons_self
      have hhead : (x ++ [10]).head? = some 32 := by
        rw [List.head?_append, hx]
        rfl
      have hsig := not_gpgsig_of_space hhead
      rw [List.map_cons, List.cons_append, dropGpgsig, if_neg hsig, if_pos (by rw [hhead]; rfl)]
      exact ih fun y hy => h y (List.mem_cons_of_mem x hy)

/-- The lines behind the first line of another header stay with it. -/
theorem dropGpgsig_kept {further : List Bytes} (h : ∀ x ∈ further, x.head? = some 32)
    (rest : List Bytes) :
    dropGpgsig false (further.map (· ++ [10]) ++ rest) =
      further.map (· ++ [10]) ++ dropGpgsig false rest := by
  induction further with
  | nil => rfl
  | cons x further ih =>
      have hx := h x List.mem_cons_self
      have hhead : (x ++ [10]).head? = some 32 := by
        rw [List.head?_append, hx]
        rfl
      have hsig := not_gpgsig_of_space hhead
      rw [List.map_cons, List.cons_append, dropGpgsig, if_neg hsig, if_neg (by simp),
        ih fun y hy => h y (List.mem_cons_of_mem x hy)]
      rfl

/-- **Cutting the signature out of header lines** drops the lines with its keyword. -/
theorem flatten_dropGpgsig {ls : List Bytes} (hls : ∀ l ∈ ls, IsHeaderLine l) :
    (dropGpgsig false (physicalLines (ls.flatMap (· ++ [10])))).flatten =
      (ls.filter keepLine).flatMap (· ++ [10]) := by
  -- behind a signature the next header line ends it
  have hboth : ∀ inside, (dropGpgsig inside (physicalLines (ls.flatMap (· ++ [10])))).flatten =
      (ls.filter keepLine).flatMap (· ++ [10]) := by
    induction ls with
    | nil => intro inside; rfl
    | cons l ls ih =>
        intro inside
        have hl := hls l List.mem_cons_self
        have ih := ih fun x hx => hls x (List.mem_cons_of_mem l hx)
        obtain ⟨first, further, hshape, hfirst, hfurther⟩ := folded_shape hl.folded
        have hspaces : ∀ x ∈ further, x.head? = some 32 := fun x hx => (hfurther x hx).2
        have hlines : physicalLines ((l :: ls).flatMap (· ++ [10])) =
            (first ++ [10]) :: further.map (· ++ [10]) ++
              physicalLines (ls.flatMap (· ++ [10])) := by
          rw [List.flatMap_cons, List.append_assoc, List.singleton_append, hshape,
            physicalLines_shape hfirst fun x hx => (hfurther x hx).1]
        have hnext : further.flatMap (10 :: ·) = [] ∨
            (further.flatMap (10 :: ·)).head? = some 10 := by
          cases further with
          | nil => exact Or.inl rfl
          | cons x further => exact Or.inr rfl
        have hsig : gpgsig <+: first ++ [10] ↔ gpgsig <+: l := by
          rw [gpgsig_prefix_shape (Or.inl rfl), hshape, gpgsig_prefix_shape hnext.symm]
        rw [hlines, List.cons_append, dropGpgsig]
        by_cases hgpg : gpgsig <+: l
        · have hdrop : keepLine l = false := by rw [keepLine, decide_eq_true hgpg]; rfl
          rw [if_pos (hsig.mpr hgpg), dropGpgsig_continued hspaces, ih,
            List.filter_cons_of_neg (by rw [hdrop]; decide)]
        · have hkeep : keepLine l = true := by rw [keepLine, decide_eq_false hgpg]; rfl
          have hhead : ((first ++ [10]).head? == some 32) = false := by
            have hspace := hl.head_space
            rw [hshape] at hspace
            cases first with
            | nil => rfl
            | cons c first => exact beq_false_of_ne hspace
          rw [if_neg fun h => hgpg (hsig.mp h), if_neg (by rw [hhead, Bool.and_false]; decide),
            dropGpgsig_kept hspaces, List.filter_cons_of_pos hkeep, List.flatMap_cons,
              List.flatten_cons,
            List.flatten_append, ih, hshape]
          have hcomm := flatMap_newline_comm further
          have hflat : (further.map (· ++ [10])).flatten = further.flatMap (· ++ [10]) := rfl
          rw [hflat, List.append_assoc, List.append_assoc, List.singleton_append,
            ← List.cons_append, hcomm]
          simp
  exact hboth false

/-! ## The signed bytes -/

/-- A header block is its lines again. -/
theorem flatMap_headerLines {acc data : Bytes} (hblank : NoBlank data)
    (hne : acc.reverse ++ data ≠ []) :
    (headerLines acc data).flatMap (· ++ [10]) = acc.reverse ++ data ++ [10] := by
  induction data generalizing acc with
  | nil =>
      rw [List.append_nil] at hne ⊢
      rw [headerLines, if_neg (by simpa using hne), List.flatMap_singleton]
  | cons b data ih =>
      obtain ⟨hb, hdata⟩ := hblank
      rw [headerLines]
      by_cases hbreak : b = 10 ∧ data.head? ≠ some 32
      · obtain ⟨rfl, hspace⟩ := hbreak
        rw [if_pos ⟨rfl, hspace⟩, List.flatMap_cons, @ih [] hdata (hb rfl).1]
        simp
      · rw [if_neg hbreak, ih hdata (by simp)]
        simp

theorem flatten_physicalLines (data : Bytes) : (physicalLines data).flatten = data := by
  induction data with
  | nil => rfl
  | cons b data ih =>
      rw [physicalLines]
      split
      · rw [List.flatten_cons, ih]
        rfl
      · split
        · rename_i hnil
          rw [hnil] at ih
          rw [← ih]
          rfl
        · rename_i line lines hlines
          rw [hlines] at ih
          rw [← ih]
          rfl

/-- Without a signature nothing is dropped. -/
theorem signedPayload_eq (c : Commit) :
    c.signedPayload =
      serialize { c with extraHeaders := (splitLines (physicalLines c.extraHeaders)).1 } := by
  rw [signedPayload, splitSignature]
  cases hsig : (splitLines (physicalLines c.extraHeaders)).2 with
  | some sig => rfl
  | none =>
      have hall := splitLines_append (not_gpgsig_of_unsigned hsig) []
      have hnil : splitLines [] = ([], none) := by rw [splitLines]
      rw [List.append_nil, hnil, List.append_nil, flatten_physicalLines] at hall
      rw [hall]
      rfl

section
variable {algo : HashAlgo}

/-- What one header line does: it sets a field, or it is kept as it is. -/
theorem headerLine_cases {f f' : Header} {l : Bytes} (h : headerLine algo f l = .ok f') :
    (keepLine l = true ∧ f'.extra = f.extra ∧
      ∀ extra, headerLine algo { f with extra := extra } l = .ok { f' with extra := extra }) ∨
    (f' = { f with extra := f.extra ++ l ++ [10] } ∧
      ∀ extra, headerLine algo { f with extra := extra } l =
        .ok { f with extra := extra ++ l ++ [10] }) := by
  have hkeep : ∀ {keyword v : Bytes}, stripPrefix? keyword l = some v → keyword.head? ≠ none →
      keyword.head? ≠ some 103 → keepLine l = true := by
    intro keyword v hv hne hother
    have hl := stripPrefix?_eq_some.mp hv
    have hsig : ¬ gpgsig <+: l := by
      intro hsig
      have hhead := head?_of_gpgsig hsig
      rw [hl, List.head?_append] at hhead
      cases hk : keyword.head? with
      | none => exact hne hk
      | some b =>
          rw [hk] at hhead
          exact hother (hk.trans hhead)
    rw [keepLine, decide_eq_false hsig]
    rfl
  unfold headerLine at h ⊢
  split at h
  · rename_i v hv
    obtain ⟨id, hid, rfl⟩ := except_map_ok.mp h
    refine Or.inl ⟨hkeep hv nofun (by decide), rfl, fun extra => ?_⟩
    rw [hid]
    rfl
  rename_i htree
  split at h
  · rename_i v hv
    obtain ⟨id, hid, rfl⟩ := except_map_ok.mp h
    refine Or.inl ⟨hkeep hv nofun (by decide), rfl, fun extra => ?_⟩
    rw [hid]
    rfl
  rename_i hparent
  split at h
  · rename_i v hv
    obtain ⟨s, hs, rfl⟩ := except_map_ok.mp h
    refine Or.inl ⟨hkeep hv nofun (by decide), rfl, fun extra => ?_⟩
    rw [hs]
    rfl
  rename_i hauthor
  split at h
  · rename_i v hv
    obtain ⟨s, hs, rfl⟩ := except_map_ok.mp h
    refine Or.inl ⟨hkeep hv nofun (by decide), rfl, fun extra => ?_⟩
    rw [hs]
    rfl
  rename_i hcommitter
  cases h
  exact Or.inr ⟨rfl, fun extra => rfl⟩

/-- **Lines without the signature are read to the same fields**, and to the same other
headers without the signature. -/
theorem foldlM_keepLine {ls es : List Bytes} {f f' : Header} (hf : f.extra = es.flatMap (· ++ [10]))
    (h : ls.foldlM (headerLine algo) f = .ok f') :
    ∃ es' : List Bytes, (∀ l ∈ es', l ∈ es ∨ l ∈ ls) ∧ f'.extra = es'.flatMap (· ++ [10]) ∧
      (ls.filter keepLine).foldlM (headerLine algo)
        { f with extra := (es.filter keepLine).flatMap (· ++ [10]) } =
        .ok { f' with extra := (es'.filter keepLine).flatMap (· ++ [10]) } := by
  induction ls generalizing f es with
  | nil =>
      cases h
      exact ⟨es, fun l hl => Or.inl hl, hf, rfl⟩
  | cons l ls ih =>
      rw [List.foldlM_cons] at h
      cases hline : headerLine algo f l with
      | error e =>
          rw [hline] at h
          cases h
      | ok f₁ =>
          rw [hline] at h
          rcases headerLine_cases hline with ⟨hkeep, hsame, hany⟩ | ⟨rfl, hany⟩
          · obtain ⟨es', hmem, hextra, hfold⟩ := ih (hsame.trans hf) h
            refine ⟨es', fun x hx => (hmem x hx).imp_right (List.mem_cons_of_mem l), hextra, ?_⟩
            rw [List.filter_cons_of_pos hkeep, List.foldlM_cons, hany]
            exact hfold
          · obtain ⟨es', hmem, hextra, hfold⟩ := @ih (es ++ [l]) _ (by
              rw [hf, List.flatMap_append, List.flatMap_singleton, List.append_assoc]) h
            refine ⟨es', fun x hx => ?_, hextra, ?_⟩
            · rcases hmem x hx with hx | hx
              · rcases List.mem_append.mp hx with hx | hx
                · exact Or.inl hx
                · exact Or.inr (List.mem_singleton.mp hx ▸ List.mem_cons_self)
              · exact Or.inr (List.mem_cons_of_mem l hx)
            · by_cases hkeep : keepLine l = true
              · rw [List.filter_append, List.filter_cons_of_pos hkeep, List.flatMap_append,
                  List.filter_nil,
                  List.flatMap_singleton, ← List.append_assoc] at hfold
                rw [List.filter_cons_of_pos hkeep, List.foldlM_cons, hany]
                exact hfold
              · rw [List.filter_append, List.filter_cons_of_neg hkeep, List.filter_nil,
                  List.append_nil] at hfold
                rw [List.filter_cons_of_neg hkeep]
                exact hfold

/-- The lines that are read into fields stay, so some line stays. -/
theorem filter_keepLine_ne_nil {ls : List Bytes} {f : Header} {message : Bytes} {c : Commit}
    (h : ls.foldlM (headerLine algo) ⟨none, [], none, none, []⟩ = .ok f)
    (hc : ofHeader f message = .ok c) :
    ls.filter keepLine ≠ [] := by
  intro hnil
  obtain ⟨es, -, -, hfold⟩ := @foldlM_keepLine _ _ [] _ _ rfl h
  rw [hnil] at hfold
  have htree : f.tree = none := congrArg Header.tree (Except.ok.inj hfold).symm
  unfold ofHeader at hc
  rw [htree] at hc
  cases hc

/-- **Cutting the signature out of a payload and parsing it** drops the signature from the
parsed commit. -/
theorem parse_withoutSignature {payload : Bytes} {c : Commit} (h : parse algo payload = .ok c)
    (hstart : payload.head? ≠ some 10 ∧ payload.head? ≠ some 32) :
    parse algo (withoutSignature payload) =
      .ok { c with extraHeaders := (splitLines (physicalLines c.extraHeaders)).1 } := by
  unfold parse at h
  split at h
  · cases h
  rename_i header message hsplit
  split at h
  · cases h
  rename_i f hf
  have hblank := noBlank_of_splitBlankLine hsplit
  have hhead : header.head? ≠ some 10 ∧ header.head? ≠ some 32 := by
    rw [splitBlankLine_shape hsplit] at hstart
    cases header with
    | nil => exact ⟨nofun, nofun⟩
    | cons b header => exact hstart
  have hlines := @isHeaderLine_of_mem [] header hblank trivial hhead
  have hkept : ∀ l ∈ (headerLines [] header).filter keepLine, IsHeaderLine l :=
    fun l hl => hlines l (List.mem_of_mem_filter hl)
  obtain ⟨es, hmem, hextra, hfold⟩ := @foldlM_keepLine _ _ [] _ _ rfl hf
  have hes : ∀ l ∈ es, IsHeaderLine l := by
    intro l hl
    rcases hmem l hl with hl | hl
    · exact absurd hl List.not_mem_nil
    · exact hlines l hl
  have hne : header ≠ [] := by
    rintro rfl
    exact filter_keepLine_ne_nil hf h rfl
  have hcut : withoutSignature payload =
      ((headerLines [] header).filter keepLine).flatMap (· ++ [10]) ++ 10 :: message := by
    rw [withoutSignature, hsplit]
    simp only
    have hjoin := @flatMap_headerLines [] header hblank hne
    rw [List.reverse_nil, List.nil_append] at hjoin
    rw [← hjoin, flatten_dropGpgsig hlines]
  rw [parse, hcut, splitBlankLine_lines hkept (filter_keepLine_ne_nil hf h)]
  simp only
  rw [headerLines_lines hkept]
  have hstate : (⟨none, [], none, none, []⟩ : Header) =
      { (⟨none, [], none, none, []⟩ : Header) with
        extra := (([] : List Bytes).filter keepLine).flatMap (· ++ [10]) } := rfl
  rw [hstate, hfold]
  simp only
  unfold ofHeader at h ⊢
  split at h
  · cases h
  · cases h
  · cases h
  rename_i tree author committer htree hauthor hcommitter
  cases h
  simp only [htree, hauthor, hcommitter]
  rw [hextra, splitLines_fst, flatten_dropGpgsig hes]

/-- The first byte of the header block stays. -/
theorem head?_withoutSignature {payload : Bytes} {b : UInt8} (h : payload.head? = some b)
    (hb : b ≠ 103) :
    (withoutSignature payload).head? = some b := by
  unfold withoutSignature
  split
  · exact h
  rename_i header message hsplit
  rw [splitBlankLine_shape hsplit] at h
  -- the first physical line starts with this byte, so it is no signature
  obtain ⟨r, hr⟩ : ∃ r, header ++ [10] = b :: r := by
    cases header with
    | nil => exact ⟨[], by cases h; rfl⟩
    | cons a header =>
        obtain rfl := Option.some.inj h
        exact ⟨header ++ [10], rfl⟩
  obtain ⟨line, lines, hlines⟩ : ∃ line lines, physicalLines (header ++ [10]) =
      (b :: line) :: lines := by
    rw [hr, physicalLines]
    split
    · exact ⟨[], _, rfl⟩
    · split
      · exact ⟨[], [], rfl⟩
      · exact ⟨_, _, rfl⟩
  have hsig : ¬ gpgsig <+: b :: line := by
    intro hsig
    exact hb (Option.some.inj (head?_of_gpgsig hsig))
  rw [hlines, dropGpgsig, if_neg hsig, if_neg (by simp)]
  rfl

/-- The signed bytes of a parsed commit are its payload without the signature exactly where
that is in the form the format gives it. -/
theorem signedPayload_eq_iff {payload : Bytes} {c : Commit} (h : parse algo payload = .ok c) :
    c.signedPayload = withoutSignature payload ↔
      Object.Canonical algo .commit (withoutSignature payload) := by
  have hfirst : ∀ c : Commit, c.serialize.head? = some 116 := fun _ => rfl
  by_cases hstart : payload.head? ≠ some 10 ∧ payload.head? ≠ some 32
  · have hcut := parse_withoutSignature h hstart
    rw [signedPayload_eq]
    constructor
    · intro heq
      exact layout_iff.mpr ⟨_, canonical_of_serialize hcut heq, heq.symm⟩
    · intro hlayout
      obtain ⟨c', hcanon, heq⟩ := layout_iff.mp hlayout
      rw [heq, parse_serialize_canonical hcanon] at hcut
      rw [heq, ← Except.ok.inj hcut]
  · -- the writer starts with the tree
    obtain ⟨b, hhead, hb, hb103⟩ : ∃ b, payload.head? = some b ∧ b ≠ 116 ∧ b ≠ 103 := by
      by_cases h10 : payload.head? = some 10
      · exact ⟨10, h10, by decide, by decide⟩
      · exact ⟨32, not_not.mp fun h32 => hstart ⟨h10, h32⟩, by decide, by decide⟩
    have hwithout := head?_withoutSignature hhead hb103
    have hno : ∀ c : Commit, c.serialize ≠ withoutSignature payload := by
      intro c heq
      rw [← heq, hfirst] at hwithout
      exact hb (Option.some.inj hwithout).symm
    constructor
    · intro heq
      exact absurd heq (hno _)
    · intro hlayout
      obtain ⟨c', -, heq⟩ := layout_iff.mp hlayout
      exact absurd heq.symm (hno c')

/-- **The signed bytes of a parsed commit** are its payload without the signature exactly
where that is in the form the format gives it; payloads of this form that differ outside
their signatures are not signed by the same bytes. -/
theorem signedPayload_spec {payload : Bytes} {c : Commit} (h : parse algo payload = .ok c) :
    (c.signedPayload = withoutSignature payload ↔
      Object.Canonical algo .commit (withoutSignature payload)) ∧
    (Object.Canonical algo .commit (withoutSignature payload) →
      ∀ payload' c', parse algo payload' = .ok c' →
        Object.Canonical algo .commit (withoutSignature payload') →
        withoutSignature payload' ≠ withoutSignature payload →
          c'.signedPayload ≠ c.signedPayload) := by
  refine ⟨signedPayload_eq_iff h, fun hcanon payload' c' h' hcanon' hne heq => hne ?_⟩
  rw [← (signedPayload_eq_iff h).mpr hcanon, ← (signedPayload_eq_iff h').mpr hcanon', heq]

end

/-! ## Two commits signed by the same bytes -/

/-- A root commit of a tree written in this hex digit. -/
def rootPayload (digit : UInt8) (signature : Bytes) : Bytes :=
  bytes "tree " ++ List.replicate 40 digit ++
    bytes "\nauthor A <a@b> 7 +0900\ncommitter A <a@b> 7 +0900\n"
    ++ signature ++ bytes "\none\n"

/-- A signature of two lines. -/
def shortSignature : Bytes := bytes "gpgsig -----BEGIN\n x\n"

/-- The commit of the tree `aa...`. -/
def rootCommit : Commit where
  tree := .filled 170
  parents := []
  author := ⟨bytes "A", bytes "a@b", 7, bytes "+0900"⟩
  committer := ⟨bytes "A", bytes "a@b", 7, bytes "+0900"⟩
  extraHeaders := shortSignature
  message := bytes "one\n"

theorem parse_rootPayload : parse .sha1 (rootPayload 97 shortSignature) = .ok rootCommit ∧
    parse .sha1 (rootPayload 65 shortSignature) = .ok rootCommit ∧
    withoutSignature (rootPayload 97 shortSignature) = rootPayload 97 [] ∧
    withoutSignature (rootPayload 65 shortSignature) = rootPayload 65 [] ∧
    serialize { rootCommit with extraHeaders := [] } = rootPayload 97 [] := by
  decide +kernel

theorem canonical_rootPayload : Object.Canonical .sha1 .commit (rootPayload 97 []) := by
  have hstamp : Signature.Plain ⟨bytes "A", bytes "a@b", 7, bytes "+0900"⟩ :=
    ⟨by decide, by decide, by decide, by decide, by decide⟩
  have hfolded : Folded (Signature.serialize ⟨bytes "A", bytes "a@b", 7, bytes "+0900"⟩) :=
    foldedTo_of_not_mem (by decide)
  exact layout_iff.mpr ⟨{ rootCommit with extraHeaders := [] },
    ⟨rfl, nofun, hstamp, hfolded, hstamp, hfolded, [], nofun, rfl⟩, parse_rootPayload.2.2.2.2.symm⟩

theorem rootPayload_signed : rootCommit.signedPayload = rootPayload 97 [] := by
  obtain ⟨hlower, -, hcut, -, -⟩ := parse_rootPayload
  have hspec := (signedPayload_spec hlower).1
  rw [hcut] at hspec
  exact hspec.mpr canonical_rootPayload

/-- **The hex digits of the tree are not in the signed bytes**: one signature signs the
commit written in lower case and the one written in upper case. -/
theorem signedPayload_not_cut : ∃ c c' : Commit,
    parse .sha1 (rootPayload 97 shortSignature) = .ok c ∧
      parse .sha1 (rootPayload 65 shortSignature) = .ok c' ∧
    withoutSignature (rootPayload 97 shortSignature) ≠
      withoutSignature (rootPayload 65 shortSignature) ∧
    c'.signedPayload ≠ withoutSignature (rootPayload 65 shortSignature) ∧
      c'.signedPayload = c.signedPayload := by
  refine ⟨rootCommit, rootCommit, parse_rootPayload.1, parse_rootPayload.2.1, ?_⟩
  rw [parse_rootPayload.2.2.1, parse_rootPayload.2.2.2.1]
  exact ⟨by decide, by decide, rfl⟩

end Commit
end Puregit
