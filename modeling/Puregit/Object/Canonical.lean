import Puregit.Object.RoundTrip

/-! # Canonical payloads

The parsers accept more than the writers produce: trees in any order, headers repeated
or out of order, numbers and ids in other forms.  `Object.Canonical` is the form the
format gives a payload.  A canonical payload is reproduced byte for byte,
`Object.payload_parse_canonical`; a tree or a commit that is reproduced is canonical.
-/
namespace Puregit

/-! ## Trees -/

namespace Tree

theorem parseEntries_cons {algo : HashAlgo} {e : TreeEntry} (hname : isComponent e.name = true)
    (hid : e.id.algo = algo) (rest : Bytes) :
    parseEntries algo (entryBytes e ++ rest) = (parseEntries algo rest).map (e :: ·) := by
  obtain ⟨hne, -, hnul⟩ := isComponent_iff.mp hname
  have hshape : entryBytes e ++ rest =
      e.mode.asOctal ++ 32 :: (e.name ++ 0 :: (e.id.bytes ++ rest)) := by
    simp [entryBytes]
  have hmode : splitOnce 32 (entryBytes e ++ rest) =
      some (e.mode.asOctal, e.name ++ 0 :: (e.id.bytes ++ rest)) := by
    refine splitOnce_eq_some.mpr ⟨hshape, ?_⟩
    have hall : ∀ m : FileMode, 32 ∉ m.asOctal := by intro m; cases m <;> decide
    exact hall e.mode
  have hsplit : splitOnce 0 (e.name ++ 0 :: (e.id.bytes ++ rest)) =
      some (e.name, e.id.bytes ++ rest) :=
    splitOnce_eq_some.mpr ⟨rfl, hnul⟩
  have hlen : e.id.bytes.length = algo.rawLen := by rw [e.id.length_eq, hid]
  have hfrom : ObjectId.fromBytes algo e.id.bytes = .ok e.id := by
    subst hid
    exact dif_pos e.id.length_eq
  rw [parseEntries, if_neg (by rw [hshape]; simp)]
  split
  · rename_i heq
    rw [hmode] at heq
    cases heq
  · rename_i octal tail heq
    rw [hmode] at heq
    cases heq
    rw [FileMode.fromOctal_asOctal]
    simp only
    split
    · rename_i heq
      rw [hsplit] at heq
      cases heq
    · rename_i name after heq
      rw [hsplit] at heq
      cases heq
      rw [if_neg (by simp [hname]), if_neg (by simp [hlen]), List.take_left' hlen, hfrom,
        List.drop_left' hlen]
      simp only
      cases parseEntries algo rest <;> rfl

/-- **Written entries are read back.** -/
theorem parseEntries_entryBytes {algo : HashAlgo} {es : List TreeEntry}
    (h : ∀ e ∈ es, isComponent e.name = true ∧ e.id.algo = algo) :
    parseEntries algo (es.flatMap entryBytes) = .ok es := by
  induction es with
  | nil =>
      rw [List.flatMap_nil, parseEntries]
      rfl
  | cons e es ih =>
      obtain ⟨hname, hid⟩ := h e List.mem_cons_self
      rw [List.flatMap_cons, parseEntries_cons hname hid,
        ih fun e' he' => h e' (List.mem_cons_of_mem e he')]
      rfl

/-- A written tree is read back with its entries in git's order. -/
theorem parse_serialize_entries {algo : HashAlgo} {es : List TreeEntry}
    (h : ∀ e ∈ es, isComponent e.name = true ∧ e.id.algo = algo) :
    parse algo (serialize ⟨es⟩) =
      .ok ⟨es.insertionSort fun a b => effectiveName a ≤ effectiveName b⟩ := by
  rw [parse, serialize, parseEntries_entryBytes fun e he => h e ((List.mem_insertionSort _).mp he)]
  rfl

/-- The ids read are of the repository's algorithm. -/
theorem parseEntries_algo {algo : HashAlgo} {payload : Bytes} {es : List TreeEntry}
    (h : parseEntries algo payload = .ok es) : ∀ e ∈ es, e.id.algo = algo := by
  fun_induction parseEntries algo payload generalizing es with
  | case1 => cases h; simp
  | case2 | case3 | case4 | case5 | case6 | case7 | case8 => cases h
  | case9 payload _ octal rest _ mode _ name afterName _ _ _ id hid es' hes' ih =>
      cases h
      intro e he
      rcases List.mem_cons.mp he with rfl | he
      · exact ObjectId.fromBytes_algo hid
      · exact ih hes' e he

/-- Entries in git's order, each named by a component. -/
structure Canonical (algo : HashAlgo) (es : List TreeEntry) : Prop where
  sorted : es.Pairwise fun a b => effectiveName a ≤ effectiveName b
  entry : ∀ e ∈ es, isComponent e.name = true ∧ e.id.algo = algo

/-- **A tree is reproduced when its payload is of entries in git's order, and only then.** -/
theorem serialize_parse {algo : HashAlgo} {payload : Bytes} {t : Tree}
    (h : parse algo payload = .ok t) :
    t.serialize = payload ↔ ∃ es, Canonical algo es ∧ payload = es.flatMap entryBytes := by
  obtain ⟨es, hes, rfl⟩ := except_map_ok.mp h
  constructor
  · intro hser
    refine ⟨_, ⟨List.pairwise_insertionSort _ es, fun e he => ?_⟩, hser.symm⟩
    have he' : e ∈ es := (List.mem_insertionSort _).mp he
    exact ⟨parseEntries_names hes e he', parseEntries_algo hes e he'⟩
  · intro ⟨es', hcanon, hpayload⟩
    rw [hpayload, parseEntries_entryBytes hcanon.entry] at hes
    cases hes
    rw [serialize, hcanon.sorted.insertionSort_eq, hpayload]

end Tree

/-! ## Stamps -/

namespace Signature

theorem idxOf?_eq_some {a : UInt8} {l : Bytes} {n : Nat} (h : l.idxOf? a = some n) :
    ∃ x y, l = x ++ a :: y ∧ a ∉ x ∧ x.length = n := by
  induction l generalizing n with
  | nil => cases h
  | cons b l ih =>
      rw [List.idxOf?_cons] at h
      by_cases hb : b = a
      · rw [if_pos (by simpa using hb)] at h
        cases h
        exact ⟨[], l, by rw [hb]; rfl, List.not_mem_nil, rfl⟩
      · rw [if_neg (by simpa using hb)] at h
        obtain ⟨m, hm, rfl⟩ := Option.map_eq_some_iff.mp h
        obtain ⟨x, y, rfl, hx, rfl⟩ := ih hm
        refine ⟨b :: x, y, rfl, fun hmem => ?_, rfl⟩
        rcases List.mem_cons.mp hmem with hmem | hmem
        · exact hb hmem.symm
        · exact hx hmem

theorem isI64_of_parseI64 {t : Str} {n : Int} (h : parseI64 t = some n) : IsI64 n := by
  unfold parseI64 at h
  obtain ⟨m, -, hm⟩ := Option.bind_eq_some_iff.mp h
  split at hm
  · rename_i hrange
    cases hm
    exact ⟨by omega, by omega⟩
  · cases hm

/-- **What a parsed stamp was written as**: its fields, some bytes around them, and the time
in some form. -/
theorem parse_shape {line : Bytes} {s : Signature} (h : parse line = .ok s) :
    s.Plain ∧ ∃ before after time : Bytes,
      line = s.name ++ before ++ 60 :: (s.email ++ 62 :: (after ++ time ++ 32 :: s.tz)) := by
  unfold parse at h
  split at h
  · cases h
  · cases h
  rename_i lt gt hlt hgt
  split at h
  · cases h
  rename_i hle
  obtain ⟨x, y, hx, hx60, rfl⟩ := idxOf?_eq_some hlt
  obtain ⟨u, v, hu, hu62, rfl⟩ := idxOf?_eq_some hgt
  -- the first `>` stands after the first `<`
  obtain ⟨email, rfl⟩ : ∃ email, u = x ++ 60 :: email := by
    rcases List.append_eq_append_iff.mp (hx.symm.trans hu) with ⟨a, ha, hy⟩ | ⟨a, ha, hv⟩
    · cases a with
      | nil => exact absurd (List.cons.inj hy).1 (by decide)
      | cons b a =>
          obtain ⟨rfl, -⟩ := List.cons.inj hy
          exact ⟨a, ha⟩
    · cases a with
      | nil => exact absurd (List.cons.inj hv).1 (by decide)
      | cons b a =>
          rw [ha, List.length_append, List.length_cons] at hle
          omega
  have hemail : 62 ∉ email := fun hmem => hu62 (by simp [hmem])
  have hx62 : 62 ∉ x := fun hmem => hu62 (by simp [hmem])
  have htake : line.take x.length = x := by rw [hx, List.take_left]
  have hmiddle : (line.take (x ++ 60 :: email).length).drop (x.length + 1) = email := by
    rw [hu, List.take_left, show x ++ 60 :: email = (x ++ [60]) ++ email by simp]
    exact List.drop_left' (by simp)
  have hdrop : line.drop ((x ++ 60 :: email).length + 1) = v := by
    rw [hu, show x ++ 60 :: email ++ 62 :: v = (x ++ 60 :: email ++ [62]) ++ v by simp]
    exact List.drop_left' (by simp [Nat.add_assoc])
  simp only [htake, hmiddle, hdrop] at h
  split at h
  · cases h
  rename_i time tz hsplit
  split at h
  · cases h
  rename_i secs hsecs
  cases h
  obtain ⟨hrest, -⟩ := splitOnce_eq_some.mp hsplit
  obtain ⟨t, -, hparse⟩ := Option.bind_eq_some_iff.mp hsecs
  have hname := (List.rdropWhile_prefix (· == 32) x).subset
  have hend : (x.rdropWhile (· == 32)).getLast? ≠ some 32 := by
    intro hlast
    obtain ⟨hne, hlast⟩ := List.mem_getLast?_eq_getLast hlast
    have hnot := List.rdropWhile_last_not (· == 32) x hne
    rw [← hlast] at hnot
    exact hnot rfl
  refine ⟨⟨fun hmem => hx60 (hname hmem), fun hmem => hx62 (hname hmem), hend, hemail,
    isI64_of_parseI64 hparse⟩, x.rtakeWhile (· == 32), v.takeWhile (· == 32), time, ?_⟩
  show line = x.rdropWhile (· == 32) ++ x.rtakeWhile (· == 32) ++ _
  rw [List.rdropWhile_append_rtakeWhile, List.append_assoc (v.takeWhile _), ← hrest,
    List.takeWhile_append_dropWhile, hu]
  simp

/-- The stamp parsed from a folded line is written on a folded line. -/
theorem folded_of_parse {line : Bytes} {s : Signature} (h : parse line = .ok s)
    (hline : Folded line) :
    Folded s.serialize := by
  obtain ⟨-, before, after, time, heq⟩ := parse_shape h
  unfold Folded at hline ⊢
  rw [heq, foldedTo_append, foldedTo_append, foldedTo_cons, foldedTo_append, foldedTo_cons,
    foldedTo_append, foldedTo_cons] at hline
  obtain ⟨⟨hname, -⟩, -, hemail, -, -, -, htz⟩ := hline
  have htail : FoldedTo none (62 :: 32 :: (toUtf8 (secs s.time) ++ 32 :: s.tz)) :=
    ⟨fun h => absurd h (by decide), fun h => absurd h (by decide),
      foldedTo_append.mpr ⟨foldedTo_of_not_mem not_mem_secs, fun h => absurd h (by decide), htz⟩⟩
  rw [serialize_eq]
  exact foldedTo_append.mpr ⟨foldedTo_append.mpr ⟨hname.space, foldedTo_of_not_mem (by decide)⟩,
    fun h => absurd h (by decide), foldedTo_append.mpr ⟨hemail, htail⟩⟩

/-- The stamp parsed from a line without a newline is written without one. -/
theorem not_mem_of_parse {line : Bytes} {s : Signature} (h : parse line = .ok s)
    (hline : 10 ∉ line) :
    10 ∉ s.serialize := by
  obtain ⟨-, before, after, time, heq⟩ := parse_shape h
  rw [heq] at hline
  simp only [List.mem_append, List.mem_cons, not_or] at hline
  rw [serialize_eq]
  simp [hline, not_mem_secs]

end Signature

/-- A stamp as the format has it, `name <email> seconds tz`: single spaces, decimal seconds, and
fields that can be told apart. -/
def IsStamp (line : Bytes) : Prop :=
  ∃ s : Signature, s.Plain ∧
    line = s.name ++ bytes " <" ++ s.email ++ bytes "> " ++
      toUtf8 (Signature.secs s.time) ++ 32 :: s.tz

/-- These are the stamps that are written. -/
theorem isStamp_iff {line : Bytes} :
    IsStamp line ↔ ∃ s : Signature, s.Plain ∧ line = s.serialize := by
  have hsame : ∀ s : Signature, s.serialize =
      s.name ++ bytes " <" ++ s.email ++ bytes "> " ++ toUtf8 (Signature.secs s.time) ++
        32 :: s.tz := by
    intro s
    unfold Signature.serialize Signature.secs
    cases s.time <;> rfl
  refine exists_congr fun s => and_congr_right fun _ => ?_
  rw [hsame]

/-- Header lines, the blank line, and a message. -/
def laidOut (lines : List Bytes) (message : Bytes) : Bytes :=
  lines.flatMap (· ++ [10]) ++ 10 :: message

/-! ## Commits -/

/-- No newline is followed by another or ends the text. -/
def NoBlank : Bytes → Prop
  | [] => True
  | b :: r => (b = 10 → r ≠ [] ∧ r.head? ≠ some 10) ∧ NoBlank r

/-- A header block holds no blank line. -/
theorem noBlank_of_splitBlankLine {payload header message : Bytes}
    (h : splitBlankLine payload = some (header, message)) : NoBlank header := by
  induction payload generalizing header with
  | nil => cases h
  | cons b payload ih =>
      by_cases hblank : b = 10 ∧ payload.head? = some 10
      · obtain ⟨rfl, hhead⟩ := hblank
        cases payload with
        | nil => cases hhead
        | cons c payload =>
            obtain rfl := Option.some.inj hhead
            cases h
            trivial
      · have hnext : b = 10 → payload.head? ≠ some 10 := fun hb hhead => hblank ⟨hb, hhead⟩
        rw [splitBlankLine_cons hnext] at h
        obtain ⟨⟨header', message'⟩, hsplit, heq⟩ := Option.map_eq_some_iff.mp h
        cases heq
        refine ⟨fun hb => ?_, ih hsplit⟩
        -- what is left of the payload starts like what is left of the header
        cases payload with
        | nil => cases hsplit
        | cons c payload =>
            have hc : c ≠ 10 := fun hc => hnext hb (by rw [hc]; rfl)
            rw [splitBlankLine_cons fun hc' => absurd hc' hc] at hsplit
            obtain ⟨⟨header'', message''⟩, -, heq⟩ := Option.map_eq_some_iff.mp hsplit
            cases heq
            exact ⟨List.cons_ne_nil _ _, fun hc' => hc (Option.some.inj hc')⟩

theorem splitBlankLine_shape {payload header message : Bytes}
    (h : splitBlankLine payload = some (header, message)) :
    payload = header ++ 10 :: 10 :: message := by
  fun_induction splitBlankLine payload generalizing header with
  | case1 r =>
      cases h
      rfl
  | case2 b r _ ih =>
      obtain ⟨⟨header', message'⟩, hsplit, heq⟩ := Option.map_eq_some_iff.mp h
      cases heq
      rw [ih hsplit]
      rfl
  | case3 => cases h

/-- Before a byte that is no space a folded text is folded. -/
theorem FoldedTo.folded {b : UInt8} {x : Bytes} (hb : b ≠ 32) (h : FoldedTo (some b) x) :
    Folded x := by
  induction x with
  | nil => trivial
  | cons a x ih =>
      refine ⟨fun ha => ?_, ih h.2⟩
      have hnext := h.1 ha
      cases hx : x.head? with
      | none =>
          rw [hx] at hnext
          exact absurd (Option.some.inj hnext) hb
      | some c =>
          rw [hx] at hnext
          exact hnext

theorem foldedTo_concat {next : Option UInt8} {x : Bytes} {b : UInt8} (hx : FoldedTo (some b) x)
    (hb : b = 10 → next = some 32) : FoldedTo next (x ++ [b]) :=
  foldedTo_append.mpr ⟨hx, hb, trivial⟩

/-- **The lines of a block are header lines**, if its first one is. -/
theorem isHeaderLine_of_mem {acc data : Bytes} (hblank : NoBlank data)
    (hfolded : FoldedTo data.head? acc.reverse)
    (hstart : (acc.reverse ++ data).head? ≠ some 10 ∧ (acc.reverse ++ data).head? ≠ some 32) :
    ∀ l ∈ headerLines acc data, IsHeaderLine l := by
  induction data generalizing acc with
  | nil =>
      unfold headerLines
      by_cases hacc : acc.isEmpty = true
      · rw [if_pos hacc]
        exact fun l hl => absurd hl List.not_mem_nil
      · rw [if_neg hacc]
        intro l hl
        rw [List.mem_singleton.mp hl]
        rw [List.append_nil] at hstart
        exact ⟨by simpa using hacc, hstart.1, hstart.2, hfolded⟩
  | cons b data ih =>
      obtain ⟨hb, hdata⟩ := hblank
      unfold headerLines
      by_cases hbreak : b = 10 ∧ data.head? ≠ some 32
      · obtain ⟨rfl, hspace⟩ := hbreak
        obtain ⟨-, hnewline⟩ := hb rfl
        rw [if_pos ⟨rfl, hspace⟩]
        intro l hl
        rcases List.mem_cons.mp hl with rfl | hl
        · have hne : acc.reverse ≠ [] := fun hnil => hstart.1 (by rw [hnil]; rfl)
          rw [List.head?_append_of_ne_nil _ hne] at hstart
          exact ⟨hne, hstart.1, hstart.2, FoldedTo.folded (b := 10) (by decide) hfolded⟩
        · exact @ih [] hdata trivial ⟨hnewline, hspace⟩ l hl
      · rw [if_neg hbreak]
        refine ih hdata ?_ ?_
        · rw [List.reverse_cons]
          exact foldedTo_concat hfolded fun hb10 => not_not.mp fun hne => hbreak ⟨hb10, hne⟩
        · rw [List.reverse_cons, List.append_assoc]
          exact hstart

namespace Commit

/-- Header fields of the form the format gives them. -/
structure Header.Canonical (algo : HashAlgo) (f : Header) : Prop where
  tree : ∀ id ∈ f.tree, id.algo = algo
  parents : ∀ p ∈ f.parents, p.algo = algo
  author : ∀ s ∈ f.author, s.Plain ∧ Folded s.serialize
  committer : ∀ s ∈ f.committer, s.Plain ∧ Folded s.serialize
  extra : ∃ ls : List Bytes, (∀ l ∈ ls, IsExtraLine l) ∧ f.extra = ls.flatMap (· ++ [10])

section
variable {algo : HashAlgo}

theorem parseHexOid_algo {v : Bytes} {id : ObjectId} (h : parseHexOid algo v = .ok id) :
    id.algo = algo := by
  unfold parseHexOid at h
  split at h
  · cases h
  · exact ObjectId.fromHex_algo h

/-- A stamp read after a keyword. -/
theorem signature_of_line {keyword v : Bytes} {s : Signature} (hl : Folded (keyword ++ v))
    (hs : Signature.parse v = .ok s) : s.Plain ∧ Folded s.serialize :=
  ⟨(Signature.parse_shape hs).1, Signature.folded_of_parse hs (foldedTo_append.mp hl).2⟩

/-- One header line keeps the fields in form. -/
theorem Header.Canonical.headerLine {f f' : Header} {l : Bytes} (hf : f.Canonical algo)
    (hl : IsHeaderLine l) (h : headerLine algo f l = .ok f') : f'.Canonical algo := by
  unfold Commit.headerLine at h
  split at h
  · obtain ⟨id, hid, rfl⟩ := except_map_ok.mp h
    refine { hf with tree := fun id' hid' => ?_ }
    obtain rfl := Option.some.inj hid'
    exact parseHexOid_algo hid
  rename_i htree
  split at h
  · obtain ⟨id, hid, rfl⟩ := except_map_ok.mp h
    refine { hf with parents := fun p hp => ?_ }
    rcases List.mem_append.mp hp with hp | hp
    · exact hf.parents p hp
    · rw [List.mem_singleton.mp hp]
      exact parseHexOid_algo hid
  rename_i hparent
  split at h
  · rename_i v hv
    obtain ⟨s, hs, rfl⟩ := except_map_ok.mp h
    refine { hf with author := fun s' hs' => ?_ }
    obtain rfl := Option.some.inj hs'
    exact signature_of_line (stripPrefix?_eq_some.mp hv ▸ hl.folded) hs
  rename_i hauthor
  split at h
  · rename_i v hv
    obtain ⟨s, hs, rfl⟩ := except_map_ok.mp h
    refine { hf with committer := fun s' hs' => ?_ }
    obtain rfl := Option.some.inj hs'
    exact signature_of_line (stripPrefix?_eq_some.mp hv ▸ hl.folded) hs
  rename_i hcommitter
  cases h
  obtain ⟨ls, hls, hextra⟩ := hf.extra
  have hunknown : ∀ keyword ∈ wellKnown, ¬keyword <+: l := by
    intro keyword hk ⟨v, hv⟩
    have hstrip := stripPrefix?_eq_some.mpr hv.symm
    simp only [wellKnown, List.mem_cons, List.not_mem_nil, or_false] at hk
    rcases hk with rfl | rfl | rfl | rfl
    · rw [htree] at hstrip; cases hstrip
    · rw [hparent] at hstrip; cases hstrip
    · rw [hauthor] at hstrip; cases hstrip
    · rw [hcommitter] at hstrip; cases hstrip
  refine { hf with extra := ⟨ls ++ [l], fun l' hl' => ?_, ?_⟩ }
  · rcases List.mem_append.mp hl' with hl' | hl'
    · exact hls l' hl'
    · rw [List.mem_singleton.mp hl']
      exact ⟨hl, hunknown⟩
  · rw [List.flatMap_append, ← hextra, List.flatMap_singleton, List.append_assoc]

theorem Header.Canonical.foldlM {ls : List Bytes} {f f' : Header} (hf : f.Canonical algo)
    (hls : ∀ l ∈ ls, IsHeaderLine l) (h : ls.foldlM (Commit.headerLine algo) f = .ok f') :
    f'.Canonical algo :=
  except_foldlM_inv (P := fun g => g.Canonical algo)
    (fun _ hg l hl _ hline => hg.headerLine (hls l hl) hline) hf h

/-- **A commit whose payload starts with a header line is in form.** -/
theorem canonical_of_parse {payload : Bytes} {c : Commit} (h : parse algo payload = .ok c)
    (hstart : payload.head? ≠ some 10 ∧ payload.head? ≠ some 32) : c.Canonical algo := by
  unfold parse at h
  split at h
  · cases h
  rename_i header message hsplit
  split at h
  · cases h
  rename_i f hf
  have hhead : header.head? ≠ some 10 ∧ header.head? ≠ some 32 := by
    rw [splitBlankLine_shape hsplit] at hstart
    cases header with
    | nil => exact ⟨nofun, nofun⟩
    | cons b header => exact hstart
  have hlines := @isHeaderLine_of_mem [] header (noBlank_of_splitBlankLine hsplit) trivial hhead
  have hempty : Header.Canonical algo ⟨none, [], none, none, []⟩ :=
    ⟨nofun, nofun, nofun, nofun, [], nofun, rfl⟩
  have hform := hempty.foldlM hlines hf
  unfold ofHeader at h
  split at h
  · cases h
  · cases h
  · cases h
  rename_i tree author committer htree hauthor hcommitter
  cases h
  exact ⟨hform.tree tree htree, hform.parents, (hform.author author hauthor).1,
    (hform.author author hauthor).2, (hform.committer committer hcommitter).1,
    (hform.committer committer hcommitter).2, hform.extra⟩

/-- A commit that is reproduced is canonical. -/
theorem canonical_of_serialize {payload : Bytes} {c : Commit} (h : parse algo payload = .ok c)
    (hser : c.serialize = payload) : c.Canonical algo := by
  have hhead : payload.head? = some 116 := by
    rw [← hser]
    rfl
  refine canonical_of_parse h ?_
  rw [hhead]
  exact ⟨by decide, by decide⟩

/-- The layout of a commit: the tree line, the parent lines, the author line and the committer line,
with lowercase ids and stamps of the format, and then the lines of other keywords. -/
def Layout (algo : HashAlgo) (payload : Bytes) : Prop :=
  ∃ (tree : ObjectId) (parents : List ObjectId) (author committer : Bytes) (extra : List Bytes)
    (message : Bytes),
    tree.algo = algo ∧ (∀ p ∈ parents, p.algo = algo) ∧ (IsStamp author ∧ Folded author) ∧
      (IsStamp committer ∧ Folded committer) ∧ (∀ l ∈ extra, IsExtraLine l) ∧
      payload = laidOut ((bytes "tree " ++ toUtf8 tree.toHex) ::
        (parents.map (fun p => bytes "parent " ++ toUtf8 p.toHex) ++
          (bytes "author " ++ author) :: (bytes "committer " ++ committer) :: extra)) message

/-- **It is the form that canonical commits are written in.** -/
theorem layout_iff {payload : Bytes} :
    Layout algo payload ↔ ∃ c : Commit, c.Canonical algo ∧ payload = c.serialize := by
  constructor
  · rintro ⟨tree, parents, author, committer, extra, message, htree, hparents, ⟨hauthor, hfolded⟩,
      ⟨hcommitter, hfolded'⟩, hextra, rfl⟩
    obtain ⟨author, hplain, rfl⟩ := isStamp_iff.mp hauthor
    obtain ⟨committer, hplain', rfl⟩ := isStamp_iff.mp hcommitter
    refine ⟨⟨tree, parents, author, committer, extra.flatMap (· ++ [10]), message⟩,
      ⟨htree, hparents, hplain, hfolded, hplain', hfolded', extra, hextra, rfl⟩, ?_⟩
    rw [@serialize_eq _ extra rfl, block, laidOut]
  · rintro ⟨c, hc, rfl⟩
    obtain ⟨extra, hextra, heq⟩ := hc.extra
    exact ⟨c.tree, c.parents, _, _, extra, c.message, hc.tree_algo, hc.parents_algo,
      ⟨isStamp_iff.mpr ⟨_, hc.author, rfl⟩, hc.author_folded⟩,
      ⟨isStamp_iff.mpr ⟨_, hc.committer, rfl⟩, hc.committer_folded⟩, hextra, serialize_eq heq⟩

end

end Commit

/-! ## Tags -/

theorem joinLines_eq_intercalate (ls : List Bytes) : joinLines ls = [10].intercalate ls := by
  cases ls with
  | nil => rfl
  | cons l ls =>
      induction ls generalizing l with
      | nil => simp [joinLines]
      | cons l' ls ih =>
          rw [List.intercalate_cons_cons, ← ih l']
          simp [joinLines]

namespace Tag

/-- A tag in the form the format gives it. -/
structure Canonical (algo : HashAlgo) (t : Tag) : Prop where
  object_algo : t.object.algo = algo
  name : 10 ∉ t.name
  tagger : ∀ s ∈ t.tagger, s.Plain ∧ 10 ∉ s.serialize

/-- The lines of a tag's header block. -/
def block (t : Tag) : List Bytes :=
  [bytes "object " ++ toUtf8 t.object.toHex, bytes "type " ++ toUtf8 t.objectType.asStr,
    bytes "tag " ++ t.name] ++ (t.tagger.map fun s => bytes "tagger " ++ s.serialize).toList

theorem serialize_eq (t : Tag) :
    t.serialize = (block t).flatMap (· ++ [10]) ++ 10 :: t.message := by
  rw [serialize, block]
  cases t.tagger <;> simp

section
variable {algo : HashAlgo}

theorem headerLine_object {id : ObjectId} (h : id.algo = algo) (f : Header) :
    headerLine algo f (bytes "object " ++ toUtf8 id.toHex) = .ok { f with object := some id } := by
  rw [headerLine, stripPrefix?_eq_some.mpr rfl]
  simp only
  rw [fromUtf8_toUtf8]
  simp only
  rw [ObjectId.trim_toHex, ObjectId.fromHex_toHex_iff.mpr ⟨h, rfl⟩]
  rfl

theorem headerLine_type (ty : ObjectType) (f : Header) :
    headerLine algo f (bytes "type " ++ toUtf8 ty.asStr) =
      .ok { f with objectType := some ty } := by
  have hobject : ∀ v, stripPrefix? (bytes "object ") (bytes "type " ++ v) = none := fun v => rfl
  have htype : ObjectType.fromStr (trim ty.asStr) = .ok ty := by cases ty <;> rfl
  rw [headerLine, hobject, stripPrefix?_eq_some.mpr rfl]
  simp only
  rw [fromUtf8_toUtf8]
  simp only
  rw [htype]
  rfl

theorem headerLine_name (name : Bytes) (f : Header) :
    headerLine algo f (bytes "tag " ++ name) = .ok { f with name := some name } := by
  have hobject : ∀ v, stripPrefix? (bytes "object ") (bytes "tag " ++ v) = none := fun v => rfl
  have htype : ∀ v, stripPrefix? (bytes "type ") (bytes "tag " ++ v) = none := fun v => rfl
  rw [headerLine, hobject, htype, stripPrefix?_eq_some.mpr rfl]

theorem headerLine_tagger {s : Signature} (h : s.Plain) (f : Header) :
    headerLine algo f (bytes "tagger " ++ s.serialize) = .ok { f with tagger := some s } := by
  have hobject : ∀ v, stripPrefix? (bytes "object ") (bytes "tagger " ++ v) = none := fun v => rfl
  have htype : ∀ v, stripPrefix? (bytes "type ") (bytes "tagger " ++ v) = none := fun v => rfl
  have htag : ∀ v, stripPrefix? (bytes "tag ") (bytes "tagger " ++ v) = none := fun v => rfl
  rw [headerLine, hobject, htype, htag, stripPrefix?_eq_some.mpr rfl]
  simp only
  rw [Signature.parse_serialize h]
  rfl

/-- The lines of a canonical tag's header block hold no newline. -/
theorem not_mem_block {t : Tag} (h : Canonical algo t) : ∀ l ∈ block t, 10 ∉ l := by
  have hhex : ∀ id : ObjectId, 10 ∉ toUtf8 id.toHex := fun id hmem => (mem_toUtf8_toHex hmem).1 rfl
  have htype : ∀ ty : ObjectType, 10 ∉ bytes "type " ++ toUtf8 ty.asStr := by
    intro ty
    cases ty <;> decide
  have hobject : 10 ∉ bytes "object " := by decide
  have htag : 10 ∉ bytes "tag " := by decide
  have htagger : 10 ∉ bytes "tagger " := by decide
  intro l hl
  unfold block at hl
  rcases List.mem_append.mp hl with hl | hl
  · rcases List.mem_cons.mp hl with hl | hl
    · rw [hl, List.mem_append, not_or]
      exact ⟨hobject, hhex _⟩
    rcases List.mem_cons.mp hl with hl | hl
    · rw [hl]
      exact htype _
    · rw [List.mem_singleton.mp hl, List.mem_append, not_or]
      exact ⟨htag, h.name⟩
  · obtain ⟨s, hs, hl⟩ := Option.map_eq_some_iff.mp (Option.mem_toList.mp hl)
    rw [← hl, List.mem_append, not_or]
    exact ⟨htagger, (h.tagger s hs).2⟩

theorem isHeaderLine_block {t : Tag} (h : Canonical algo t) : ∀ l ∈ block t, IsHeaderLine l := by
  intro l hl
  have hnl := not_mem_block h l hl
  have hstart : ∃ a r, l = a :: r ∧ a ≠ 32 := by
    unfold block at hl
    rcases List.mem_append.mp hl with hl | hl
    · rcases List.mem_cons.mp hl with hl | hl
      · exact ⟨111, _, hl, by decide⟩
      rcases List.mem_cons.mp hl with hl | hl
      · exact ⟨116, _, hl, by decide⟩
      · exact ⟨116, _, List.mem_singleton.mp hl, by decide⟩
    · obtain ⟨s, -, hl⟩ := Option.map_eq_some_iff.mp (Option.mem_toList.mp hl)
      exact ⟨116, _, hl.symm, by decide⟩
  obtain ⟨a, r, rfl, ha⟩ := hstart
  exact ⟨List.cons_ne_nil _ _, fun h => hnl (List.mem_of_mem_head? h),
    fun h => ha (Option.some.inj h), foldedTo_of_not_mem hnl⟩

/-- **A canonical tag is read back from its payload.** -/
theorem parse_serialize_canonical {t : Tag} (h : Canonical algo t) :
    parse algo t.serialize = .ok t := by
  have hfold : (block t).foldlM (headerLine algo) ⟨none, none, none, none⟩ =
      .ok ⟨some t.object, some t.objectType, some t.name, t.tagger⟩ := by
    rw [block, List.foldlM_append, List.foldlM_cons, headerLine_object h.object_algo]
    show List.foldlM _ _ _ >>= _ = _
    rw [List.foldlM_cons, headerLine_type]
    show List.foldlM _ _ _ >>= _ = _
    rw [List.foldlM_cons, headerLine_name]
    show List.foldlM _ _ _ = _
    cases ht : t.tagger with
    | none => rfl
    | some s =>
        show List.foldlM _ _ [_] = _
        rw [List.foldlM_cons, headerLine_tagger (h.tagger s ht).1]
        rfl
  rw [parse, serialize_eq, splitBlankLine_lines (isHeaderLine_block h) (List.cons_ne_nil _ _)]
  simp only
  rw [joinLines_eq_intercalate, List.splitOn_intercalate 10 (not_mem_block h)
    (List.cons_ne_nil _ _),
    hfold]
  rfl

/-- Header fields of the form the format gives them. -/
structure Header.Canonical (algo : HashAlgo) (f : Header) : Prop where
  object : ∀ id ∈ f.object, id.algo = algo
  name : ∀ name ∈ f.name, 10 ∉ name
  tagger : ∀ s ∈ f.tagger, s.Plain ∧ 10 ∉ s.serialize

/-- One header line keeps the fields in form. -/
theorem Header.Canonical.headerLine {f f' : Header} {l : Bytes}
    (hf : f.Canonical algo) (hl : 10 ∉ l) (h : headerLine algo f l = .ok f') :
    f'.Canonical algo := by
  have hvalue : ∀ {keyword v : Bytes}, stripPrefix? keyword l = some v → 10 ∉ v := by
    intro keyword v hv hmem
    exact hl (by rw [stripPrefix?_eq_some.mp hv]; exact List.mem_append_right _ hmem)
  unfold Tag.headerLine at h
  split at h
  · split at h
    · cases h
    · obtain ⟨id, hid, rfl⟩ := except_map_ok.mp h
      refine { hf with object := fun id' hid' => ?_ }
      obtain rfl := Option.some.inj hid'
      exact ObjectId.fromHex_algo hid
  split at h
  · split at h
    · cases h
    · obtain ⟨ty, -, rfl⟩ := except_map_ok.mp h
      exact ⟨hf.object, hf.name, hf.tagger⟩
  split at h
  · rename_i v hv
    cases h
    refine { hf with name := fun name hname => ?_ }
    obtain rfl := Option.some.inj hname
    exact hvalue hv
  split at h
  · rename_i v hv
    obtain ⟨s, hs, rfl⟩ := except_map_ok.mp h
    refine { hf with tagger := fun s' hs' => ?_ }
    obtain rfl := Option.some.inj hs'
    exact ⟨(Signature.parse_shape hs).1, Signature.not_mem_of_parse hs (hvalue hv)⟩
  · cases h
    exact hf

theorem Header.Canonical.foldlM {ls : List Bytes} {f f' : Header} (hf : f.Canonical algo)
    (hls : ∀ l ∈ ls, 10 ∉ l) (h : ls.foldlM (Tag.headerLine algo) f = .ok f') :
    f'.Canonical algo :=
  except_foldlM_inv (P := fun g => g.Canonical algo)
    (fun _ hg l hl _ hline => hg.headerLine (hls l hl) hline) hf h

/-- **What is parsed from a tag is in form.** -/
theorem canonical_of_parse {payload : Bytes} {t : Tag} (h : parse algo payload = .ok t) :
    t.Canonical algo := by
  unfold parse at h
  split at h
  · cases h
  split at h
  · cases h
  rename_i f hf
  have hempty : Header.Canonical algo ⟨none, none, none, none⟩ := ⟨nofun, nofun, nofun⟩
  have hform := hempty.foldlM (fun l hl => not_mem_of_mem_splitOn hl) hf
  unfold ofHeader at h
  split at h
  · cases h
  · cases h
  · cases h
  rename_i object ty name hobject hty hname
  cases h
  exact ⟨hform.object object hobject, hform.name name hname, hform.tagger⟩

/-- The layout of a tag: the object, type and tag line, and the tagger line if there is one. -/
def Layout (algo : HashAlgo) (payload : Bytes) : Prop :=
  ∃ (object : ObjectId) (ty : ObjectType) (name : Bytes) (tagger : Option Bytes) (message : Bytes),
    object.algo = algo ∧ 10 ∉ name ∧ (∀ line ∈ tagger, IsStamp line ∧ 10 ∉ line) ∧
      payload = laidOut ([bytes "object " ++ toUtf8 object.toHex, bytes "type " ++ toUtf8 ty.asStr,
        bytes "tag " ++ name] ++ (tagger.map (bytes "tagger " ++ ·)).toList) message

/-- **It is the form that canonical tags are written in.** -/
theorem layout_iff {payload : Bytes} :
    Layout algo payload ↔ ∃ t : Tag, t.Canonical algo ∧ payload = t.serialize := by
  constructor
  · rintro ⟨object, ty, name, tagger, message, hobject, hname, htagger, rfl⟩
    cases tagger with
    | none =>
        refine ⟨⟨object, ty, name, none, message⟩,
          ⟨hobject, hname, fun s hs => absurd hs (Option.not_mem_none s)⟩, ?_⟩
        rw [serialize_eq, block, laidOut, Option.map_none, Option.map_none]
    | some line =>
        obtain ⟨hstamp, hnewline⟩ := htagger line rfl
        obtain ⟨s, hplain, rfl⟩ := isStamp_iff.mp hstamp
        refine ⟨⟨object, ty, name, some s, message⟩, ⟨hobject, hname, fun s' hs' => ?_⟩, ?_⟩
        · obtain rfl := Option.some.inj hs'
          exact ⟨hplain, hnewline⟩
        · rw [serialize_eq, block, laidOut, Option.map_some, Option.map_some]
  · rintro ⟨t, ht, rfl⟩
    refine ⟨t.object, t.objectType, t.name, t.tagger.map Signature.serialize, t.message,
      ht.object_algo, ht.name,
      fun line hline => ?_, ?_⟩
    · obtain ⟨s, hs, rfl⟩ := Option.map_eq_some_iff.mp hline
      exact ⟨isStamp_iff.mpr ⟨s, (ht.tagger s hs).1, rfl⟩, (ht.tagger s hs).2⟩
    · rw [serialize_eq, block, laidOut]
      cases t.tagger with
      | none => rw [Option.map_none, Option.map_none, Option.map_none]
      | some s => rw [Option.map_some, Option.map_some, Option.map_some]

end

end Tag

/-! ## Objects -/

/-- The form the format gives a payload. -/
def Object.Canonical (algo : HashAlgo) (ty : ObjectType) (payload : Bytes) : Prop :=
  match ty with
  | .blob => True
  | .tree => ∃ es, Tree.Canonical algo es ∧ payload = es.flatMap Tree.entryBytes
  | .commit => Commit.Layout algo payload
  | .tag => Tag.Layout algo payload

namespace Object

/-- A parsed object is reproduced byte for byte when its payload is canonical, and only
then. -/
theorem payload_eq_iff {algo : HashAlgo} {ty : ObjectType} {payload : Bytes} {o : Object}
    (h : parse algo ty payload = .ok o) : o.payload = payload ↔ Canonical algo ty payload := by
  unfold parse at h
  cases ty with
  | blob =>
      cases h
      exact ⟨fun _ => trivial, fun _ => rfl⟩
  | tree =>
      obtain ⟨t, ht, rfl⟩ := except_map_ok.mp h
      exact Tree.serialize_parse ht
  | commit =>
      obtain ⟨c, hc, rfl⟩ := except_map_ok.mp h
      constructor
      · intro hser
        exact Commit.layout_iff.mpr ⟨c, Commit.canonical_of_serialize hc hser, hser.symm⟩
      · intro hlayout
        obtain ⟨c', hcanon, hpayload⟩ := Commit.layout_iff.mp hlayout
        rw [hpayload, Commit.parse_serialize_canonical hcanon] at hc
        cases hc
        exact hpayload.symm
  | tag =>
      obtain ⟨t, ht, rfl⟩ := except_map_ok.mp h
      constructor
      · intro hser
        exact Tag.layout_iff.mpr ⟨t, Tag.canonical_of_parse ht, hser.symm⟩
      · intro hlayout
        obtain ⟨t', hcanon, hpayload⟩ := Tag.layout_iff.mp hlayout
        rw [hpayload, Tag.parse_serialize_canonical hcanon] at ht
        cases ht
        exact hpayload.symm

/-- **A canonical payload is reproduced byte for byte**, its extra headers included, and a
tree's payload only if it is canonical. -/
theorem payload_parse_canonical {algo : HashAlgo} {ty : ObjectType} {payload : Bytes} {o : Object}
    (h : parse algo ty payload = .ok o) :
    (Canonical algo ty payload → o.payload = payload) ∧
      (ty = .tree → o.payload = payload → Canonical algo ty payload) :=
  ⟨(payload_eq_iff h).mpr, fun _ => (payload_eq_iff h).mp⟩

/-- A tag of the id `11...`. -/
def releaseTag : Tag where
  object := .filled 17
  objectType := .commit
  name := bytes "v1"
  tagger := some ⟨bytes "A", bytes "a@b", 7, bytes "+0900"⟩
  message := bytes "one\n"

/-- The tag, and the same tag with a header line no field is for. -/
def tagPayload (unknown : Bytes) : Bytes :=
  bytes "object 1111111111111111111111111111111111111111\ntype commit\ntag v1\n" ++ unknown
    ++ bytes "tagger A <a@b> 7 +0900\n\none\n"

theorem releaseTag_reproduced : parse .sha1 .tag (tagPayload []) = .ok (tag releaseTag) ∧
    (tag releaseTag).payload = tagPayload [] := by
  have hparse : parse .sha1 .tag (tagPayload []) = .ok (tag releaseTag) := by decide
  refine ⟨hparse, (payload_parse_canonical hparse).1
    (Tag.layout_iff.mpr ⟨releaseTag, ⟨rfl, by decide, ?_⟩, ?_⟩)⟩
  · intro s hs
    obtain rfl := Option.some.inj hs
    exact ⟨⟨by decide, by decide, by decide, by decide, by decide⟩, by decide⟩
  · decide

/-- Two files, the later name first. -/
def unsortedEntries : List TreeEntry :=
  [⟨.regular, bytes "b", .filled 1⟩,
    ⟨.regular, bytes "a", .filled 2⟩]

/-- A commit whose tree line comes last. -/
def reorderedPayload : Bytes :=
  bytes "author A <a@b> 7 +0900\ncommitter A <a@b> 7 +0900\ntree " ++ bytes
    "1111111111111111111111111111111111111111\n\none\n"

theorem payload_not_reproduced :
    (∃ o, parse .sha1 .tree (unsortedEntries.flatMap Tree.entryBytes) = .ok o ∧
      o.payload ≠ unsortedEntries.flatMap Tree.entryBytes) ∧
    (∃ o, parse .sha1 .commit reorderedPayload = .ok o ∧ o.payload ≠ reorderedPayload) ∧
    ∃ o, parse .sha1 .tag (tagPayload (bytes "x y\n")) = .ok o ∧
      o.payload ≠ tagPayload (bytes "x y\n") := by
  refine ⟨⟨tree ⟨unsortedEntries⟩, ?_, by decide⟩, ?_, ⟨tag releaseTag, by decide,
    by decide⟩⟩
  · rw [parse, Tree.parse, Tree.parseEntries_entryBytes (by decide)]
    rfl
  · refine ⟨commit ⟨.filled 17, [], ⟨bytes "A", bytes "a@b", 7, bytes "+0900"⟩,
      ⟨bytes "A", bytes "a@b", 7, bytes "+0900"⟩, [], bytes "one\n"⟩,
        by decide, by decide⟩

end Object

end Puregit
