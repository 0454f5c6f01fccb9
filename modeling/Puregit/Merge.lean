import Puregit.Diff
import Puregit.Flatten
import Puregit.TreeBuilder

/-! # Three-way merges of trees

`mergeTrees` flattens the base and the two sides, resolves every path of the three maps
on its own, and builds the trees of the resolved entries.  A path is resolved by which
of the three maps agree on it; only regular files changed on both sides have their
contents merged.

A path resolved without a conflict is kept exactly when `Kept` says so, whatever it
names and whatever the contents are: that is all `mergeTrees_clashFree_iff` needs to
tell when the merged list is one a directory tree can hold.
-/
namespace Puregit
open PathSet ObjectDatabase

/-- The outcome of merging two trees. -/
structure TreeMergeResult where
  tree : ObjectId
  conflicts : List Bytes

/-- Whether a mode is that of a regular file. -/
def isFile (mode : FileMode) : Bool := mode == .regular || mode == .executable

variable {D : Type} [ObjectDatabase D]

/-- Reads a blob's content. -/
def readBlob (odb : D) (id : ObjectId) : Except Error Bytes := do
  let payload ← readTyped odb id .blob
  match ← Object.parse (algo odb) .blob payload with
  | .blob b => .ok b
  | _ => .error (.parse (str "merge: expected a blob"))

/-- Resolves one path from what the base, ours and theirs have there: the entries it
contributes and the conflicts it adds. -/
def mergePath (path : Bytes) (b o t : Option (FileMode × ObjectId)) :
    Exec D Error (List FlatEntry × List Bytes) :=
  let keep (e : Option (FileMode × ObjectId)) : List FlatEntry :=
    e.toList.map fun v => ⟨path, v.1, v.2⟩
  if o = t then pure (keep o, [])
  else if o = b then pure (keep t, [])
  else if t = b then pure (keep o, [])
  else
    match b, o, t with
    | some (bm, bid), some (om, oid), some (tm, tid) =>
      if isFile bm && isFile om && isFile tm && om == tm then do
        let baseBytes ← Exec.read fun odb => readBlob odb bid
        let oursBytes ← Exec.read fun odb => readBlob odb oid
        let theirsBytes ← Exec.read fun odb => readBlob odb tid
        let m := Diff.merge3 baseBytes oursBytes theirsBytes
        let mergedId ← put .blob m.merged
        pure ([⟨path, om, mergedId⟩], if m.conflicted then [path] else [])
      else pure ([⟨path, om, oid⟩], [path])
    | _, o, t => pure (keep (o.or t), [path])

/-- Resolves paths in turn. -/
def mergePaths (base ours theirs : FlatMap) :
    List Bytes → Exec D Error (List FlatEntry × List Bytes)
  | [] => pure ([], [])
  | path :: rest => do
      let r ← mergePath path (base.get? path) (ours.get? path) (theirs.get? path)
      let rs ← mergePaths base ours theirs rest
      pure (r.1 ++ rs.1, r.2 ++ rs.2)

/-- The map of the base tree; no base is an empty one. -/
def flattenBase (depth : Nat) (odb : D) : Option ObjectId → Eval Error FlatMap
  | some id => flattenTree depth odb id
  | none => pure BTreeMap.empty

/-- Every path of the three maps, once and in order. -/
def mergeKeys (base ours theirs : FlatMap) : List Bytes :=
  (((BTreeSet.empty.extend base.keys).extend ours.keys).extend theirs.keys).toList

/-- The entries handed to the tree builder, and the conflicts. -/
def mergeEntries (depth : Nat) (base : Option ObjectId) (ours theirs : ObjectId) :
    Exec D Error (List FlatEntry × List Bytes) := do
  let baseMap ← Exec.eval fun odb => flattenBase depth odb base
  let oursMap ← Exec.eval fun odb => flattenTree depth odb ours
  let theirsMap ← Exec.eval fun odb => flattenTree depth odb theirs
  mergePaths baseMap oursMap theirsMap (mergeKeys baseMap oursMap theirsMap)

/-- Merges `ours` and `theirs` against their base tree, writing the merged tree. -/
def mergeTrees (depth : Nat) (base : Option ObjectId) (ours theirs : ObjectId) :
    Exec D Error TreeMergeResult := do
  let (entries, conflicts) ← mergeEntries depth base ours theirs
  let tree ← writeTreeFromEntries entries
  pure ⟨tree, conflicts⟩

/-! ## What a conflict-free merge keeps -/

/-- Whether a path resolved without a conflict is in the merged list: both sides have
it, or one has and the base had not. -/
def kept (b o t : Option (FileMode × ObjectId)) : Bool :=
  (o.isSome && t.isSome) || (b.isNone && (o.isSome || t.isSome))

theorem mergePath_kept {path : Bytes} {b o t : Option (FileMode × ObjectId)} {s s' : D}
    {es : List FlatEntry} (h : mergePath path b o t s = some (.ok (es, []), s')) :
    paths es = if kept b o t then [path] else [] := by
  unfold mergePath at h
  by_cases hot : o = t
  · rw [if_pos hot] at h
    cases h
    subst hot
    cases o <;> simp [paths, kept]
  rw [if_neg hot] at h
  by_cases hob : o = b
  · -- ours is the base, so the path is kept where theirs has it
    rw [if_pos hob] at h
    cases h
    subst hob
    cases o <;> cases t <;> simp_all [paths, kept]
  rw [if_neg hob] at h
  by_cases htb : t = b
  · rw [if_pos htb] at h
    cases h
    subst htb
    cases o <;> cases t <;> simp_all [paths, kept]
  rw [if_neg htb] at h
  -- both sides changed: only a content merge adds no conflict, and there all three exist
  cases b with
  | none => cases h
  | some bv =>
    cases o with
    | none => cases h
    | some ov =>
      cases t with
      | none => cases h
      | some tv =>
        dsimp only at h
        split at h
        · obtain ⟨_, _, -, h⟩ := Exec.bind_ok.mp h
          obtain ⟨_, _, -, h⟩ := Exec.bind_ok.mp h
          obtain ⟨_, _, -, h⟩ := Exec.bind_ok.mp h
          obtain ⟨_, _, -, h⟩ := Exec.bind_ok.mp h
          have hes := congrArg (fun r => r.map fun r => (r.1.toOption.map Prod.fst)) h
          simp only [Exec.pure_apply, Option.map_some, Except.toOption, Option.some.injEq] at hes
          simp [← hes, paths, kept]
        · cases h

theorem mergePaths_kept {base ours theirs : FlatMap} {keys : List Bytes} {s s' : D}
    {es : List FlatEntry}
    (h : mergePaths base ours theirs keys s = some (.ok (es, []), s')) :
    paths es = keys.filter fun p => kept (base.get? p) (ours.get? p) (theirs.get? p) := by
  induction keys generalizing s es with
  | nil => cases h; rfl
  | cons path rest ih =>
      obtain ⟨r, s₁, hr, h⟩ := Exec.bind_ok.mp h
      obtain ⟨rs, s₂, hrs, h⟩ := Exec.bind_ok.mp h
      simp only [Exec.pure_apply, Option.some.injEq, Prod.mk.injEq, Except.ok.injEq,
        List.append_eq_nil_iff] at h
      obtain ⟨⟨rfl, hr₂, hrs₂⟩, rfl⟩ := h
      have hr' : mergePath path (base.get? path) (ours.get? path) (theirs.get? path) s
          = some (.ok (r.1, []), s₁) := by rw [hr, ← hr₂]
      have hrs' : mergePaths base ours theirs rest s₁ = some (.ok (rs.1, []), s₂) := by
        rw [hrs, ← hrs₂]
      rw [paths, List.map_append, ← paths, ← paths, mergePath_kept hr', ih hrs', List.filter_cons]
      split <;> rfl

theorem keeps_mergePath {path : Bytes} {b o t : Option (FileMode × ObjectId)} :
    Exec.Keeps (Writes (D := D) GoodTree) (mergePath path b o t) := by
  unfold mergePath
  dsimp only
  split
  · exact Exec.Keeps.pure _
  split
  · exact Exec.Keeps.pure _
  split
  · exact Exec.Keeps.pure _
  split
  · split
    · refine (Exec.Keeps.read _).bind fun _ => (Exec.Keeps.read _).bind fun _ =>
        (Exec.Keeps.read _).bind fun _ => ?_
      exact (keeps_put fun hty => nomatch hty).bind fun _ => Exec.Keeps.pure _
    · exact Exec.Keeps.pure _
  · exact Exec.Keeps.pure _

/-- Resolving the paths writes blobs only. -/
theorem keeps_mergePaths {base ours theirs : FlatMap} {keys : List Bytes} :
    Exec.Keeps (Writes (D := D) GoodTree) (mergePaths base ours theirs keys) := by
  induction keys with
  | nil => exact Exec.Keeps.pure _
  | cons path rest ih =>
      exact keeps_mergePath.bind fun _ => ih.bind fun _ => Exec.Keeps.pure _

theorem keeps_mergeEntries {depth : Nat} {base : Option ObjectId} {ours theirs : ObjectId} :
    Exec.Keeps (Writes (D := D) GoodTree) (mergeEntries depth base ours theirs) :=
  (Exec.Keeps.eval _).bind fun _ => (Exec.Keeps.eval _).bind fun _ =>
    (Exec.Keeps.eval _).bind fun _ => keeps_mergePaths

/-! ## When the merged list is clash-free -/

/-- The paths of a flattened tree. -/
def FlatMap.pathSet (m : FlatMap) : Set Bytes := { p | p ∈ m.keys }

theorem FlatMap.mem_pathSet {m : FlatMap} {p : Bytes} :
    p ∈ m.pathSet ↔ (m.get? p).isSome = true := by
  rw [pathSet, Set.mem_ofPred_eq, BTreeMap.mem_keys, Option.isSome_iff_exists]

theorem nodup_mergeKeys (base ours theirs : FlatMap) : (mergeKeys base ours theirs).Nodup :=
  (BTreeSet.toList_sorted _).imp fun h => ne_of_lt h

theorem mem_kept_keys {base ours theirs : FlatMap} {p : Bytes} :
    p ∈ (mergeKeys base ours theirs).filter
        (fun p => kept (base.get? p) (ours.get? p) (theirs.get? p)) ↔
      p ∈ merged base.pathSet ours.pathSet theirs.pathSet := by
  simp only [List.mem_filter, mergeKeys, BTreeSet.mem_toList, BTreeSet.mem_extend,
    BTreeSet.not_mem_empty, or_false, merged, Set.mem_ofPred_eq, FlatMap.mem_pathSet, kept,
    Bool.or_eq_true, Bool.and_eq_true, Option.isNone_iff_eq_none, BTreeMap.mem_keys,
    ← Option.isSome_iff_exists, Option.not_isSome_iff_eq_none]
  tauto

/-- What the three flattened trees of a merge have to satisfy for the merged list to be
clash-free: no path that one side alone added is below or above one the other alone
added. -/
def AddedApart (base ours theirs : FlatMap) : Prop :=
  ∀ p ∈ addedOnlyBy base.pathSet ours.pathSet theirs.pathSet,
    ∀ q ∈ addedOnlyBy base.pathSet theirs.pathSet ours.pathSet,
      ¬ Below slash p q ∧ ¬ Below slash q p

theorem addedApart_iff {base ours theirs : FlatMap} :
    AddedApart base ours theirs ↔ ∀ p ∈ ours.keys, ∀ q ∈ theirs.keys,
      p ∉ base.keys → p ∉ theirs.keys → q ∉ base.keys → q ∉ ours.keys →
        ¬ Below slash p q ∧ ¬ Below slash q p := by
  constructor
  · exact fun h p hp q hq hpb hpt hqb hqo => h p ⟨hp, hpb, hpt⟩ q ⟨hq, hqb, hqo⟩
  · exact fun h p hp q hq => h p hp.1 q hq.1 hp.2.1 hp.2.2 hq.2.1 hq.2.2

instance (base ours theirs : FlatMap) : Decidable (AddedApart base ours theirs) :=
  decidable_of_iff _ addedApart_iff.symm

theorem clashFree_merged_iff {base ours theirs : FlatMap} {es : List FlatEntry}
    (hes : paths es = (mergeKeys base ours theirs).filter
      fun p => kept (base.get? p) (ours.get? p) (theirs.get? p))
    (ho : ClashFree slash ours.keys) (ht : ClashFree slash theirs.keys) :
    ClashFree slash (paths es) ↔ AddedApart base ours theirs := by
  have hset : ∀ p, p ∈ paths es ↔ p ∈ merged base.pathSet ours.pathSet theirs.pathSet :=
    fun p => by rw [hes, mem_kept_keys]
  have hnd : (paths es).Nodup := hes ▸ (nodup_mergeKeys base ours theirs).filter _
  have hanti : Antichain slash (merged base.pathSet ours.pathSet theirs.pathSet) ↔
      AddedApart base ours theirs := antichain_merged_iff ho.2 ht.2
  rw [← hanti]
  constructor
  · exact fun h p hp q hq => h.2 p ((hset p).mpr hp) q ((hset q).mpr hq)
  · exact fun h => ⟨hnd, fun p hp q hq => h p ((hset p).mp hp) q ((hset q).mp hq)⟩

/-- **A merge without conflicts is well formed exactly when the sides' additions are
apart.**  The maps are those of the three trees; well formed means that the list handed
to the tree builder is clash-free and every tree written has distinct entry names. -/
theorem mergeTrees_clashFree_iff {depth : Nat} {odb odb' : D} {base : Option ObjectId}
    {ours theirs : ObjectId} {r : TreeMergeResult} {baseMap oursMap theirsMap : FlatMap}
    (hbase : (flattenBase depth odb base).run = some (.ok baseMap))
    (hours : (flattenTree depth odb ours).run = some (.ok oursMap))
    (htheirs : (flattenTree depth odb theirs).run = some (.ok theirsMap))
    (ho : ClashFree slash oursMap.keys) (ht : ClashFree slash theirsMap.keys)
    (hrun : mergeTrees depth base ours theirs odb = some (.ok r, odb'))
    (hr : r.conflicts = []) :
    (∃ entries odb₁, mergeEntries depth base ours theirs odb = some (.ok (entries, []), odb₁) ∧
        ClashFree slash (paths entries) ∧ Writes GoodTree odb odb') ↔
      AddedApart baseMap oursMap theirsMap := by
  obtain ⟨⟨entries, conflicts⟩, odb₁, hentries, hrest⟩ := Exec.bind_ok.mp hrun
  obtain ⟨tree, odb₂, htree, hpure⟩ := Exec.bind_ok.mp hrest
  cases hpure
  obtain rfl : conflicts = [] := hr
  -- the entries come from the three maps read here
  have hes : paths entries = (mergeKeys baseMap oursMap theirsMap).filter
      fun p => kept (baseMap.get? p) (oursMap.get? p) (theirsMap.get? p) := by
    obtain ⟨bm, s₁, hb, h₁⟩ := Exec.bind_ok.mp hentries
    obtain ⟨hb, rfl⟩ := Exec.eval_ok.mp hb
    obtain ⟨om, s₂, hom, h₂⟩ := Exec.bind_ok.mp h₁
    obtain ⟨hom, rfl⟩ := Exec.eval_ok.mp hom
    obtain ⟨tm, s₃, htm, h₃⟩ := Exec.bind_ok.mp h₂
    obtain ⟨htm, rfl⟩ := Exec.eval_ok.mp htm
    obtain rfl : baseMap = bm := by simpa [hbase] using hb
    obtain rfl : oursMap = om := by simpa [hours] using hom
    obtain rfl : theirsMap = tm := by simpa [htheirs] using htm
    exact mergePaths_kept h₃
  rw [← clashFree_merged_iff hes ho ht]
  constructor
  · rintro ⟨entries', odb₁', hentries', hc, -⟩
    rw [hentries] at hentries'
    cases hentries'
    exact hc
  · intro hc
    refine ⟨entries, odb₁, hentries, hc, ?_⟩
    exact IsTrans.trans _ _ _ (keeps_mergeEntries _ _ _ hentries)
      (writes_writeTreeFromEntries hc _ _ _ htree)

/-! ## Two merges -/

namespace MergeSample

/-- The id of the blob `hello`. -/
def hello : ObjectId :=
  ⟨.sha1, [0xce, 0x01, 0x36, 0x25, 0x03, 0x0b, 0xa8, 0xdb, 0xa9, 0x06,
  0xf7, 0x56, 0x96, 0x7f, 0x9e, 0x9c, 0xa3, 0x94, 0x46, 0x4a], rfl⟩

/-- The id of the tree with the file `a`. -/
def fileA : ObjectId :=
  ⟨.sha1, [0x09, 0x76, 0x95, 0x0c, 0x1f, 0xdb, 0xcb, 0x52, 0x43, 0x5a,
  0x43, 0x39, 0x13, 0x01, 0x7b, 0xf0, 0x44, 0xb3, 0xa5, 0x8f], rfl⟩

/-- The id of the tree with the file `b`. -/
def fileB : ObjectId :=
  ⟨.sha1, [0xf0, 0x97, 0x92, 0xbe, 0x40, 0xf1, 0x8f, 0x53, 0x7c, 0x28,
  0xb6, 0x24, 0xb7, 0xbc, 0x77, 0x71, 0xf2, 0x50, 0x82, 0xe1], rfl⟩

/-- The id of the tree with the directory `a`, which holds the file `b`. -/
def dirA : ObjectId :=
  ⟨.sha1, [0x54, 0x02, 0xbd, 0x80, 0x62, 0x85, 0x6e, 0x83, 0xad, 0xe5,
  0x0b, 0x9b, 0xe4, 0xaa, 0xfc, 0xb8, 0x71, 0x7c, 0xc2, 0x32], rfl⟩

/-- A store of the three trees. -/
def odb : MemoryOdb where
  hasher := .sha
  algo := .sha1
  objects := BTreeMap.ofList [(hello, .blob, bytes "hello\n"),
    (fileA, .tree, Tree.serialize ⟨[⟨.regular, bytes "a", hello⟩]⟩),
    (fileB, .tree, Tree.serialize ⟨[⟨.regular, bytes "b", hello⟩]⟩),
    (dirA, .tree, Tree.serialize ⟨[⟨.tree, bytes "a", fileB⟩]⟩)]

/-- The flattened tree of an id, empty where there is none. -/
def flat (id : ObjectId) : FlatMap :=
  ((flattenTree 2 odb id).run.bind Except.toOption).getD BTreeMap.empty

/-- A run that returns without conflicts is one. -/
theorem exists_of_conflicts {x : Option (Except Error TreeMergeResult × MemoryOdb)}
    (h : (x.bind fun r => r.1.toOption.map TreeMergeResult.conflicts) = some []) :
    ∃ r odb', x = some (.ok r, odb') ∧ r.conflicts = [] := by
  obtain ⟨⟨e, odb'⟩, rfl, h⟩ := Option.bind_eq_some_iff.mp h
  cases e with
  | error e => cases h
  | ok r => exact ⟨r, odb', rfl, by simpa [Except.toOption] using h⟩

/-- The trees are read, and none of them clashes with itself. -/
theorem flattened : (flattenTree 2 odb fileA).run = some (.ok (flat fileA)) ∧
    (flattenTree 2 odb fileB).run = some (.ok (flat fileB)) ∧
    (flattenTree 2 odb dirA).run = some (.ok (flat dirA)) ∧
    ClashFree slash (flat fileA).keys ∧ ClashFree slash (flat fileB).keys ∧
      ClashFree slash (flat dirA).keys := by
  decide +kernel

/-- Both merges end without a conflict; the second has merged a file and what is below it. -/
theorem merged : ((mergeTrees 2 none fileA fileB odb).bind fun r =>
    r.1.toOption.map TreeMergeResult.conflicts) = some [] ∧
    AddedApart BTreeMap.empty (flat fileA) (flat fileB) ∧
    ((mergeTrees 2 none fileA dirA odb).bind fun r =>
      r.1.toOption.map TreeMergeResult.conflicts) = some [] ∧
    ((mergeEntries 2 none fileA dirA odb).bind fun r => r.1.toOption.map fun x => paths x.1) =
      some [bytes "a", bytes "a/b"] ∧ ¬ ClashFree slash [bytes "a", bytes "a/b"] := by
  decide +kernel

/-- Merging the file `a` with the file `b`: the list is clash-free. -/
theorem mergeTrees_apart : ∃ r odb', mergeTrees 2 none fileA fileB odb = some (.ok r, odb') ∧
    ∃ entries odb₁, mergeEntries 2 none fileA fileB odb = some (.ok (entries, []), odb₁) ∧
      ClashFree slash (paths entries) ∧ Writes GoodTree odb odb' := by
  obtain ⟨hfileA, hfileB, -, hclashA, hclashB, -⟩ := flattened
  obtain ⟨r, odb', hrun, hr⟩ := exists_of_conflicts merged.1
  have hbase : (flattenBase 2 odb none).run = some (.ok BTreeMap.empty) := rfl
  exact ⟨r, odb', hrun,
    (mergeTrees_clashFree_iff hbase hfileA hfileB hclashA hclashB hrun hr).mpr merged.2.1⟩

/-- Merging the file `a` with a directory `a`: no conflict is reported, and both are in
the merged list. -/
theorem mergeTrees_file_and_directory :
    ¬ ∀ (depth : Nat) (odb odb' : MemoryOdb) (base : Option ObjectId) (ours theirs : ObjectId)
      (r : TreeMergeResult) (oursMap theirsMap : FlatMap),
      (flattenTree depth odb ours).run = some (.ok oursMap) →
      (flattenTree depth odb theirs).run = some (.ok theirsMap) →
      ClashFree slash oursMap.keys → ClashFree slash theirsMap.keys →
      mergeTrees depth base ours theirs odb = some (.ok r, odb') → r.conflicts = [] →
      ∃ entries odb₁, mergeEntries depth base ours theirs odb = some (.ok (entries, []), odb₁) ∧
        ClashFree slash (paths entries) ∧ Writes GoodTree odb odb' := by
  intro h
  obtain ⟨hfileA, -, hdirA, hclashA, -, hclashDir⟩ := flattened
  obtain ⟨-, -, hconflicts, hpaths, hclash⟩ := merged
  obtain ⟨r, odb', hrun, hr⟩ := exists_of_conflicts hconflicts
  obtain ⟨entries, odb₁, hentries, hc, -⟩ := h 2 odb odb' none fileA dirA r (flat fileA)
    (flat dirA) hfileA hdirA hclashA hclashDir hrun hr
  rw [hentries] at hpaths
  have hp : paths entries = [bytes "a", bytes "a/b"] := by
    simpa [Except.toOption] using hpaths
  rw [hp] at hc
  exact hclash hc

end MergeSample

end Puregit
