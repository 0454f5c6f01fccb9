import Puregit.Object.Canonical
import Puregit.Porcelain

/-! # Trees as lines

A tree is shown line by line: the mode, the kind and the id of an entry, and behind a tab its name.
Such lines are read again to write a tree.  A name that may not be shown as it is is quoted, in the
manner of C; the reader takes what is behind the tab for the name.

`mktree_treeLines` says which tree is written from the lines of another.  It is the same for a tree
that is written as trees are, with names that are shown as they are, `cmdMktree_treeLines`.
-/
namespace Puregit
open ObjectDatabase

/-- Whether a name is shown quoted. -/
def needsQuotes (p : Bytes) : Bool := p.any fun b => b < 0x20 || b == 34 || b == 92 || b >= 0x7F

/-- A byte of a name between quotes. -/
def quoteByte (b : UInt8) : Str :=
  if b = 0x07 then str "\\a"
  else if b = 0x08 then str "\\b"
  else if b = 9 then str "\\t"
  else if b = 10 then str "\\n"
  else if b = 0x0B then str "\\v"
  else if b = 0x0C then str "\\f"
  else if b = 13 then str "\\r"
  else if b = 34 then str "\\\""
  else if b = 92 then str "\\\\"
  else if 0x20 ≤ b ∧ b ≤ 0x7E then [Char.ofNat b.toNat]
  else '\\' :: [2, 1, 0].map fun i => Char.ofNat (48 + b.toNat / 8 ^ i % 8)

/-- A name as it is shown. -/
def quotePath (p : Bytes) : Str :=
  if !needsQuotes p then fromUtf8Lossy p
  else '"' :: p.flatMap quoteByte ++ ['"']

/-- The number of a mode. -/
def modeNum : FileMode → Nat
  | .tree => 0o040000
  | .regular => 0o100644
  | .executable => 0o100755
  | .symlink => 0o120000
  | .gitlink => 0o160000

/-- The type that a mode stands for. -/
def modeKind : FileMode → Str
  | .tree => str "tree"
  | .gitlink => str "commit"
  | _ => str "blob"

/-- A number of six octal digits at least. -/
def octal6 (n : Nat) : Str :=
  let digits := Nat.toDigits 8 n
  List.replicate (6 - digits.length) '0' ++ digits

/-- The line of an entry, without its newline. -/
def treeLine (e : TreeEntry) : Str :=
  octal6 (modeNum e.mode) ++ ' ' :: modeKind e.mode ++ ' ' :: e.id.toHex ++ '\t' :: quotePath e.name

/-- The lines of a tree. -/
def treeLines (t : Tree) : Str := t.entries.flatMap fun e => treeLine e ++ ['\n']

/-- Reads a line that is not blank. -/
def mktreeLine (algo : HashAlgo) (line : Str) : Except Fail TreeEntry :=
  match splitOnce '\t' line with
  | none => .error (.fatal (str "mktree: no TAB before name in: " ++ line))
  | some (pre, name) =>
    match splitWhitespace pre with
    | [] => .error (.fatal (str "mktree: missing mode in: " ++ line))
    | mode :: fields =>
      match fields.tail.head? with
      | none => .error (.fatal (str "mktree: missing sha in: " ++ line))
      | some sha => do
        let mode ← (FileMode.fromOctal (toUtf8 mode)).mapError Fail.ofError
        let id ← (ObjectId.fromHex algo sha).mapError Fail.ofError
        .ok ⟨mode, toUtf8 name, id⟩

/-- The payload of the tree that lines are of. -/
def mktree (algo : HashAlgo) (input : Str) : Except Fail Bytes :=
  (((lines input).filter fun line => trim line ≠ []).mapM (mktreeLine algo)).map fun entries =>
    Tree.serialize ⟨entries⟩

/-- Writes the tree that lines are of. -/
def cmdMktree (input : Str) : Exec Repository Fail ObjectId := do
  let algo ← Exec.read fun repo => .ok repo.algo
  let payload ← Exec.ofExcept (mktree algo input)
  Repository.command (Repository.onOdb (put .tree payload))

/-! ## Names -/

/-- A byte that is shown as it is. -/
theorem needsQuotes_eq_false {p : Bytes} :
    needsQuotes p = false ↔ ∀ b ∈ p, 0x20 ≤ b ∧ b ≤ 0x7E ∧ b ≠ 34 ∧ b ≠ 92 := by
  simp only [needsQuotes, List.any_eq_false, Bool.or_eq_true, decide_eq_true_eq, beq_iff_eq,
    not_or, UInt8.not_lt,
    UInt8.not_le]
  refine forall₂_congr fun b _ => ?_
  have hlt : b < 0x7F ↔ b ≤ 0x7E := by
    rw [UInt8.lt_iff_toNat_lt, UInt8.le_iff_toNat_le]
    exact Nat.lt_succ_iff
  rw [hlt]
  exact ⟨fun h => ⟨h.1.1.1, h.2, h.1.1.2, h.1.2⟩, fun h => ⟨⟨⟨h.1, h.2.2.1⟩, h.2.2.2⟩, h.2.1⟩⟩

/-- A name that need not be quoted is shown as it is. -/
theorem toUtf8_quotePath {p : Bytes} (h : needsQuotes p = false) :
    quotePath p = p.map (fun b => Char.ofNat b.toNat) ∧ toUtf8 (quotePath p) = p := by
  have hascii : ∀ b ∈ p, b.toNat < 128 := fun b hb =>
    lt_of_le_of_lt (UInt8.le_iff_toNat_le.mp (needsQuotes_eq_false.mp h b hb).2.1) (by decide)
  have hencode := toUtf8_of_fromUtf8 (fromUtf8_ascii hascii)
  have hshown : quotePath p = p.map fun b => Char.ofNat b.toNat := by
    rw [quotePath, h, Bool.not_false, if_pos rfl]
    conv_lhs => rw [← hencode, fromUtf8Lossy_toUtf8]
  exact ⟨hshown, hshown ▸ hencode⟩

/-- The characters that a name is shown with. -/
theorem mem_quotePath {p : Bytes} {c : Char} (h : c ∈ quotePath p) :
    0x20 ≤ c.toNat ∧ c.toNat ≤ 0x7E := by
  by_cases hquotes : needsQuotes p = true
  · rw [quotePath, hquotes, Bool.not_true, if_neg Bool.false_ne_true, List.mem_append,
      List.mem_cons, List.mem_singleton] at h
    rcases h with (rfl | h) | rfl
    · decide
    · obtain ⟨b, -, hc⟩ := List.mem_flatMap.mp h
      have hall : ∀ n < 256, ((quoteByte (UInt8.ofNat n)).all fun c => 0x20 ≤ c.toNat &&
          c.toNat ≤ 0x7E) = true := by
        decide +kernel
      have hb := List.all_eq_true.mp (hall b.toNat b.toNat_lt) c (by rwa [UInt8.ofNat_toNat])
      simpa using hb
    · decide
  · have hplain := Bool.not_eq_true _ ▸ hquotes
    rw [(toUtf8_quotePath hplain).1] at h
    obtain ⟨b, hb, rfl⟩ := List.mem_map.mp h
    obtain ⟨hlo, hhi, -⟩ := needsQuotes_eq_false.mp hplain b hb
    rw [UInt8.le_iff_toNat_le] at hlo hhi
    have hall : ∀ n < 127, (Char.ofNat n).toNat = n := by decide
    rw [hall _ (Nat.lt_succ_of_le hhi)]
    exact ⟨hlo, hhi⟩

/-! ## Lines -/

/-- What stands before the tab. -/
def treeFields (e : TreeEntry) : Str :=
  octal6 (modeNum e.mode) ++ ' ' :: (modeKind e.mode ++ ' ' :: e.id.toHex)

theorem treeLine_eq (e : TreeEntry) : treeLine e = treeFields e ++ '\t' :: quotePath e.name := by
  simp [treeLine, treeFields]

/-- The words before the tab have no white space, and are not empty. -/
theorem word_treeFields (e : TreeEntry) :
    ∀ word ∈ [octal6 (modeNum e.mode), modeKind e.mode, e.id.toHex],
    word ≠ [] ∧ ∀ c ∈ word, isWhitespace c = false ∧ 0x20 ≤ c.toNat := by
  have hmode : ∀ m, octal6 (modeNum m) ≠ [] ∧
      ((octal6 (modeNum m)).all fun c => !isWhitespace c && 0x20 ≤ c.toNat) = true := by
    intro m
    cases m <;> decide
  have hkind : ∀ m, modeKind m ≠ [] ∧
      ((modeKind m).all fun c => !isWhitespace c && 0x20 ≤ c.toNat) = true := by
    intro m
    cases m <;> decide
  have hall : ∀ word : Str, (word.all fun c => !isWhitespace c && 0x20 ≤ c.toNat) = true →
      ∀ c ∈ word, isWhitespace c = false ∧ 0x20 ≤ c.toNat := by
    intro word h c hc
    simpa using List.all_eq_true.mp h c hc
  intro word hword
  simp only [List.mem_cons, List.not_mem_nil, or_false] at hword
  rcases hword with rfl | rfl | rfl
  · exact ⟨(hmode e.mode).1, hall _ (hmode e.mode).2⟩
  · exact ⟨(hkind e.mode).1, hall _ (hkind e.mode).2⟩
  · have hlength := LooseOdb.two_lt_length_toHex e.id
    refine ⟨fun hnil => ?_, fun c hc => ⟨ObjectId.isWhitespace_of_mem_toHex hc, ?_⟩⟩
    · rw [hnil] at hlength
      cases hlength
    · have hrange := ObjectId.mem_toHex hc
      omega

theorem mem_treeFields {e : TreeEntry} {c : Char} (h : c ∈ treeFields e) : 0x20 ≤ c.toNat := by
  have hword := word_treeFields e
  simp only [List.forall_mem_cons] at hword
  obtain ⟨hmode, hkind, hid, -⟩ := hword
  simp only [treeFields, List.mem_append, List.mem_cons] at h
  rcases h with h | rfl | h | rfl | h
  · exact (hmode.2 c h).2
  · decide
  · exact (hkind.2 c h).2
  · decide
  · exact (hid.2 c h).2

theorem splitWhitespace_treeFields (e : TreeEntry) :
    splitWhitespace (treeFields e) = [octal6 (modeNum e.mode), modeKind e.mode, e.id.toHex] := by
  have hword := word_treeFields e
  simp only [List.forall_mem_cons] at hword
  obtain ⟨hmode, hkind, hid, -⟩ := hword
  rw [treeFields, splitWhitespace_word hmode.1 fun c hc => (hmode.2 c hc).1,
    splitWhitespace_word hkind.1 fun c hc => (hkind.2 c hc).1,
      splitWhitespace_single hid.1 fun c hc => (hid.2 c hc).1]

/-- **The line of an entry is read** as that entry, but for its name, which is taken as it is
shown. -/
theorem mktreeLine_treeLine {algo : HashAlgo} {e : TreeEntry} (h : e.id.algo = algo) :
    mktreeLine algo (treeLine e) = .ok { e with name := toUtf8 (quotePath e.name) } := by
  have htab : '\t' ∉ treeFields e := fun hmem => absurd (mem_treeFields hmem) (by decide)
  have hsplit : splitOnce '\t' (treeLine e) = some (treeFields e, quotePath e.name) :=
    splitOnce_eq_some.mpr ⟨treeLine_eq e, htab⟩
  have hmode : FileMode.fromOctal (toUtf8 (octal6 (modeNum e.mode))) = .ok e.mode := by
    cases e.mode <;> decide
  rw [mktreeLine, hsplit]
  simp only [splitWhitespace_treeFields, List.tail_cons, List.head?_cons, hmode]
  rw [ObjectId.fromHex_toHex_iff.mpr ⟨h, rfl⟩]
  rfl

theorem lines_treeLines (t : Tree) : lines (treeLines t) = t.entries.map treeLine := by
  have hchar : ∀ line ∈ t.entries.map treeLine, ∀ c ∈ line, 0x20 ≤ c.toNat ∨ c = '\t' := by
    intro line hline c hc
    obtain ⟨e, -, rfl⟩ := List.mem_map.mp hline
    rw [treeLine_eq, List.mem_append, List.mem_cons] at hc
    rcases hc with hc | rfl | hc
    · exact Or.inl (mem_treeFields hc)
    · exact Or.inr rfl
    · exact Or.inl (mem_quotePath hc).1
  have hread := @lines_flatMap (t.entries.map treeLine)
  rw [List.flatMap_map] at hread
  refine hread ?_ ?_
  · intro line hline hmem
    rcases hchar line hline _ hmem with h | h
    · exact absurd h (by decide)
    · cases h
  · intro line hline hlast
    rcases hchar line hline _ (List.mem_of_getLast? hlast) with h | h
    · exact absurd h (by decide)
    · exact absurd h (by decide)

/-- **What is written from the lines of a tree**: the same entries, with their names as they are
shown. -/
theorem mktree_treeLines {algo : HashAlgo} {t : Tree} (h : ∀ e ∈ t.entries, e.id.algo = algo) :
    mktree algo (treeLines t) =
      .ok (Tree.serialize ⟨t.entries.map fun e =>
        { e with name := toUtf8 (quotePath e.name) }⟩) := by
  have hblank : ∀ line ∈ t.entries.map treeLine, decide (trim line ≠ []) = true := by
    intro line hline
    obtain ⟨e, -, rfl⟩ := List.mem_map.mp hline
    obtain ⟨hne, hword⟩ := word_treeFields e _ List.mem_cons_self
    obtain ⟨c, hc⟩ := List.exists_mem_of_ne_nil _ hne
    refine decide_eq_true (trim_ne_nil (c := c) ?_ (hword c hc).1)
    rw [treeLine_eq, treeFields, List.append_assoc]
    exact List.mem_append_left _ hc
  have hread : (t.entries.map treeLine).mapM (mktreeLine algo) =
      .ok (t.entries.map fun e => { e with name := toUtf8 (quotePath e.name) }) := by
    rw [except_mapM_ok, List.forall₂_map_left_iff, List.forall₂_map_right_iff, List.forall₂_same]
    exact fun e he => mktreeLine_treeLine (h e he)
  rw [mktree, lines_treeLines, List.filter_eq_self.mpr hblank, hread]
  rfl

/-- **A tree is written again from its lines** if its payload is one that is written for a tree, and
its names are shown as they are. -/
theorem cmdMktree_treeLines (repo : Repository) (payload : Bytes) (t : Tree)
    (hparse : Tree.parse repo.algo payload = .ok t) (hcanonical : t.serialize = payload)
    (hnames : ∀ e ∈ t.entries, needsQuotes e.name = false) :
    cmdMktree (treeLines t) repo = Repository.command (Repository.onOdb (put .tree payload)) repo ∧
      ∀ id repo', cmdMktree (treeLines t) repo = some (.ok id, repo') →
        id = hashObject repo.odb.loose.hasher repo.algo .tree payload := by
  have halgo : ∀ e ∈ t.entries, e.id.algo = repo.algo := by
    obtain ⟨es, hes, rfl⟩ := except_map_ok.mp hparse
    exact Tree.parseEntries_algo hes
  have hsame : (t.entries.map fun e => { e with name := toUtf8 (quotePath e.name) }) =
      t.entries := by
    conv_rhs => rw [← List.map_id t.entries]
    refine List.map_congr_left fun e he => ?_
    rw [(toUtf8_quotePath (hnames e he)).2, id]
  have hwritten : mktree repo.algo (treeLines t) = .ok payload := by
    rw [mktree_treeLines halgo, hsame]
    exact congrArg _ hcanonical
  have hrun : cmdMktree (treeLines t) repo =
      Repository.command (Repository.onOdb (put .tree payload)) repo := by
    rw [cmdMktree, Exec.bind_apply, Exec.andThen]
    simp only [Exec.read]
    rw [Exec.bind_apply, Exec.andThen, hwritten]
    rfl
  refine ⟨hrun, fun id repo' hid => ?_⟩
  rw [hrun] at hid
  simp only [Repository.command, Repository.onOdb, Exec.zoom, put, Exec.step_apply, Option.map_some,
    Option.some.injEq,
    Prod.mk.injEq] at hid
  cases hput : (ObjectDatabase.write repo.odb .tree payload).1 with
  | error e =>
      rw [hput] at hid
      cases hid.1
  | ok name =>
      rw [hput] at hid
      cases hid.1
      exact LooseOdb.write_ok hput

/-- A tree of one file. -/
def oneFile (name : String) : Tree := ⟨[⟨.regular, bytes name, .zero .sha1⟩]⟩

/-- A tree of a file with a blank in its name, a directory that comes behind it, a link and a
submodule. -/
def someKinds : Tree := ⟨[⟨.regular, bytes "a b", .zero .sha1⟩, ⟨.tree, bytes "a", .zero .sha1⟩,
  ⟨.symlink, bytes "l", .zero .sha1⟩, ⟨.gitlink, bytes "s", .zero .sha1⟩]⟩

theorem cmdMktree_someKinds :
    let repo := Repository.init .stored .sha .sha1
    cmdMktree (treeLines someKinds) repo =
        Repository.command (Repository.onOdb (put .tree someKinds.serialize)) repo ∧
      ∀ id repo', cmdMktree (treeLines someKinds) repo = some (.ok id, repo') →
        id = hashObject repo.odb.loose.hasher repo.algo .tree someKinds.serialize :=
  cmdMktree_treeLines _ _ _ (by decide +kernel) rfl (by decide)

/-- Two files in the order of their names, and in the other order. -/
def twoFiles : List TreeEntry :=
  [⟨.regular, bytes "a", .zero .sha1⟩, ⟨.regular, bytes "b", .zero .sha1⟩]

/-- **A tree out of order is written in order, and a quoted name with its quotes**: in both cases it
is another tree. -/
theorem mktree_changes :
    (¬ ∀ payload t, Tree.parse .sha1 payload = .ok t →
      (mktree .sha1 (treeLines t)).map (hashObject .sha .sha1 .tree) =
        .ok (hashObject .sha .sha1 .tree payload)) ∧
    ¬ ∀ payload t, Tree.parse .sha1 payload = .ok t → t.serialize = payload →
      (mktree .sha1 (treeLines t)).map (hashObject .sha .sha1 .tree) =
        .ok (hashObject .sha .sha1 .tree payload) := by
  have hrun : (Tree.parse .sha1 (twoFiles.reverse.flatMap Tree.entryBytes) =
    .ok ⟨twoFiles.reverse⟩ ∧
      (mktree .sha1 (treeLines ⟨twoFiles.reverse⟩)).map (hashObject .sha .sha1 .tree) ≠
        .ok (hashObject .sha .sha1 .tree (twoFiles.reverse.flatMap Tree.entryBytes))) ∧
      Tree.parse .sha1 (oneFile "\"").serialize = .ok (oneFile "\"") ∧
      (mktree .sha1 (treeLines (oneFile "\""))).map (hashObject .sha .sha1 .tree) ≠
        .ok (hashObject .sha .sha1 .tree (oneFile "\"").serialize) := by
    decide +kernel
  exact ⟨fun h => hrun.1.2 (h _ _ hrun.1.1), fun h => hrun.2.2 (h _ _ hrun.2.1 rfl)⟩

end Puregit
