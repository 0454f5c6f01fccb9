import Puregit.Lib.Occurrence
import Puregit.Lib.ShortestPrefix
import Puregit.Porcelain

/-! # Revisions

A revision names an object: by its id, by a ref, by the first digits of its id, and by steps from an
object that is named so.  The ids that digits are looked up in are listed from the loose objects and
the index files of the repository's own object directory.

`abbrevLen` gives the fewest digits that no other listed id has.  Whether the object of an id is
found again by them, and whether they name it among all objects of the database, is
`abbrevLen_resolves_iff`: the alternates hold objects as well, and those are not listed. -/
namespace Puregit
open ObjectDatabase

/-- Why a revision did not resolve. -/
inductive RevErr where
  | unknown
  | pathNotInTree (path rev : Str)
  | pathNotInIndex (path : Str)
  | ambiguous (p : Str)
  deriving DecidableEq

/-- What follows the last dot of a file name, if something stands before it. -/
def extension (name : Str) : Option Str :=
  if name = str ".." then none
  else match splitOnce '.' name.reverse with
    | none => none
    | some (after, before) => if before = [] then none else some after.reverse

/-- Whether a name is plausible as a part of the name of a ref. -/
def safeRefName (s : Str) : Bool :=
  !s.isEmpty && !startsWith s ['/'] && !occurs (str "..") s && !s.contains '\\' &&
    !occurs (str "//") s &&
    (toUtf8 s).all fun b => b > 0x20 && b ≠ 0x7f && b ≠ 58

/-- The refs that a name may be short for, in the order they are tried. -/
def dwimCandidates (name : Str) : List Str :=
  (if name = str "HEAD" || startsWith name (str "refs/") || name.all fun c =>
    ('A' ≤ c && c ≤ 'Z') || c = '_'
    then [name] else []) ++
    ([str "refs/", str "refs/tags/", str "refs/heads/", str "refs/remotes/"].map fun rule =>
      rule ++ name) ++
    [str "refs/remotes/" ++ name ++ str "/HEAD"]

/-- The steps behind a named object. -/
def isStep (c : Char) : Bool := c = '^' || c = '~'

/-- The number of a step, one without digits; and what follows it. -/
def stepCount (r : Str) : Except RevErr (Nat × Str) :=
  let digits := r.takeWhile fun c => '0' ≤ c && c ≤ '9'
  if digits = [] then .ok (1, r)
  else match parseU64 digits with
    | some n => .ok (n, r.drop digits.length)
    | none => .error .unknown

namespace Repository
variable (repo : Repository)

/-- The branch that `HEAD` stands for. -/
def headBranch : Option Str :=
  match repo.refs.lookup (str "HEAD") with
  | .ok (.symbolic t) => some t
  | _ => none

/-! ## Listed ids -/

/-- The ids of a file of the pack directory: those of an index. -/
def packIds (name : Str) : List ObjectId :=
  if extension name ≠ some (str "idx") then []
  else match Vfs.read repo.odb.loose.fs (str "pack/" ++ name) >>= PackIndex.parse repo.algo with
    | .ok idx => (List.range idx.count).filterMap idx.idAt
    | .error _ => []

/-- Every id of the loose objects and of the packs. -/
def allObjectIds : BTreeSet ObjectId :=
  let ids := BTreeSet.ofList (repo.looseObjectIds.toOption.getD [])
  match Vfs.readDir repo.odb.loose.fs (str "pack") with
  | .ok entries => entries.foldl (fun ids entry => ids.extend (repo.packIds entry.1)) ids
  | .error _ => ids

/-- The least number of digits that are shown. -/
def leastDigits (id : ObjectId) (min : Nat) : Nat := max 4 (Nat.min min id.toHex.length)

/-- The shortest unique abbreviation of an id, of `min` digits at least.  The program lists the ids
on the first call and keeps that list for the rest of the process; here it is the list of the
repository as it is. -/
def abbrevLen (id : ObjectId) (min : Nat) : Str :=
  let hex := id.toHex
  hex.take (ShortestPrefix.shortest (repo.allObjectIds.toList.map ObjectId.toHex) hex
    (leastDigits id min))

/-! ## Resolving -/

/-- The ref that a name is short for, with its id. -/
def dwimRef (name : Str) : Option (Str × ObjectId) :=
  if !safeRefName name then none
  else (dwimCandidates name).findSome? fun c =>
    if c ≠ str "HEAD" ∧ isValidRefName c = false then none
    else (repo.refs.resolve c).toOption.map fun id => (c, id)

/-- A prior value of a ref: the `n`-th from the end of its reflog. -/
def priorValue (name sel : Str) : Except RevErr ObjectId := do
  let n ← match parseU64 sel with
    | some n => .ok n
    | none => .error .unknown
  let refname ←
    if name = [] then .ok (repo.headBranch.getD (str "HEAD"))
    else if name = str "HEAD" ∨ name = ['@'] then .ok (str "HEAD")
    else match repo.dwimRef name with
      | some (full, _) => .ok full
      | none => .error .unknown
  if !safeRefName refname then .error .unknown
  else match (Vfs.read repo.fs (str "logs/" ++ refname)).toOption.bind fromUtf8 with
    | none => .error .unknown
    | some log =>
      let entries := (lines log).filter fun l => !l.isEmpty
      if entries.length < n + 1 then .error .unknown
      else match entries[entries.length - (n + 1)]?.bind fun line => (line.splitOn ' ')[1]? with
        | none => .error .unknown
        | some new => (ObjectId.fromHex repo.algo new).mapError fun _ => .unknown

/-- Resolves digits of an id: of the only listed id that begins with them. -/
def resolvePrefix (digits : Str) : Except RevErr ObjectId :=
  match repo.allObjectIds.toList.filter fun id => startsWith id.toHex (toAsciiLowercase digits) with
  | [id] => .ok id
  | [] => .error .unknown
  | _ => .error (.ambiguous digits)

/-- Resolves what is no prior value: an id, a ref or digits. -/
def resolveName (name : Str) : Except RevErr ObjectId :=
  let base := if name = ['@'] then str "HEAD" else name
  let isHex := !base.isEmpty && isHexName base.length base
  let full := if isHex ∧ base.length = repo.algo.hexLen then
    (ObjectId.fromHex repo.algo (toAsciiLowercase base)).toOption else none
  match full with
  | some id => .ok id
  | none => match repo.dwimRef base with
    | some (_, id) => .ok id
    | none =>
      if isHex ∧ 4 ≤ base.length ∧ base.length < repo.algo.hexLen then repo.resolvePrefix base
      else .error .unknown

/-- Resolves the base of a revision, before any step. -/
def resolveBase (base : Str) : Except RevErr ObjectId :=
  match firstOccurrence (str "@\x7b") base with
  | some start =>
    if endsWith base (str "\x7d") then repo.priorValue (base.take start)
      (base.drop (start + 2)).dropLast
    else repo.resolveName base
  | none => repo.resolveName base

/-- Follows tags to an object of a type; the tree of a commit is one. -/
def peelTo (want : ObjectType) : Nat → ObjectId → Eval RevErr ObjectId
  | 0, _ => ExceptT.mk none
  | left + 1, id =>
    match readObject repo.odb id with
    | .error _ => throw .unknown
    | .ok obj =>
      if obj.objectType = want then pure id
      else match obj with
        | .tag t => peelTo want left t.object
        | .commit c => if want = .tree then pure c.tree else throw .unknown
        | _ => throw .unknown

/-- Follows tags to what is no tag. -/
def peelTags : Nat → ObjectId → Eval RevErr ObjectId
  | 0, _ => ExceptT.mk none
  | left + 1, id =>
    match readObject repo.odb id with
    | .error _ => throw .unknown
    | .ok (.tag t) => peelTags left t.object
    | .ok _ => pure id

/-- The parents of a commit. -/
def parentsOf (id : ObjectId) : Except RevErr (List ObjectId) :=
  match readObject repo.odb id with
  | .ok (.commit c) => .ok c.parents
  | _ => .error .unknown

/-- Follows first parents. -/
def firstParents : Nat → ObjectId → Except RevErr ObjectId
  | 0, id => .ok id
  | n + 1, id => do
    match (← repo.parentsOf id).head? with
    | some parent => firstParents n parent
    | none => .error .unknown

/-- Looks up a path inside a tree. -/
def treeLookup (tree : ObjectId) (path : Str) : Option (FileMode × ObjectId) :=
  ((path.splitOn '/').filter fun comp => !comp.isEmpty).foldlM (fun cur comp =>
    if cur.1 ≠ .tree then none
    else match readObject repo.odb cur.2 with
      | .ok (.tree t) => (t.get (toUtf8 comp)).map fun e => (e.mode, e.id)
      | _ => none) (.tree, tree)

/-- Takes a step to what a word between braces names. -/
def peelWord (word : Str) (id : ObjectId) : Eval RevErr ObjectId :=
  if word = [] then repo.peelTags ObjectId.fuel id
  else if word = str "object" then pure id
  else if word = str "commit" then repo.peelTo .commit ObjectId.fuel id
  else if word = str "tree" then repo.peelTo .tree ObjectId.fuel id
  else if word = str "blob" then repo.peelTo .blob ObjectId.fuel id
  else if word = str "tag" then repo.peelTo .tag ObjectId.fuel id
  else throw .unknown

/-- Takes the steps of a revision; each has a character at least. -/
def navigate : Nat → Str → ObjectId → Eval RevErr ObjectId
  | _, [], id => pure id
  | 0, _ :: _, _ => throw .unknown
  | left + 1, c :: rest, id =>
    match c, stripPrefix? (str "\x7b") rest with
    | '^', some r => match splitOnce (Char.ofNat 125) r with
      | none => throw .unknown
      | some (word, rest) => do
        let id ← repo.peelWord word id
        navigate left rest id
    | '^', none => do
      let (n, rest) ← ExceptT.mk (some (stepCount rest))
      let cid ← repo.peelTo .commit ObjectId.fuel id
      if n = 0 then navigate left rest cid
      else do
        let parents ← ExceptT.mk (some (repo.parentsOf cid))
        match parents[n - 1]? with
        | some parent => navigate left rest parent
        | none => throw .unknown
    | '~', _ => do
      let (n, rest) ← ExceptT.mk (some (stepCount rest))
      let cid ← repo.peelTo .commit ObjectId.fuel id
      let id ← ExceptT.mk (some (repo.firstParents n cid))
      navigate left rest id
    | _, _ => throw .unknown

/-- Resolves a revision without a path. -/
def resolveSteps (spec : Str) : Eval RevErr ObjectId := do
  let base := spec.takeWhile fun c => !isStep c
  let id ← ExceptT.mk (some (repo.resolveBase base))
  repo.navigate spec.length (spec.drop base.length) id

/-- The stage and the path of a revision that begins with a colon. -/
def stageAndPath (rest : Str) : Nat × Str :=
  match splitOnce ':' rest with
  | some ([d], path) => if '0' ≤ d ∧ d ≤ '9' then (d.toNat - 48, path) else (0, rest)
  | _ => (0, rest)

/-- Resolves a revision. -/
def resolve (spec : Str) : Eval RevErr ObjectId :=
  match stripPrefix? [':'] spec with
  | some rest => ExceptT.mk <| some <|
    match repo.index with
    | .error _ => .error .unknown
    | .ok index =>
      let (stage, path) := stageAndPath rest
      match index.entries.find? fun e => e.stage.toNat = stage ∧ e.path = toUtf8 path with
      | some e => .ok e.id
      | none => .error (.pathNotInIndex path)
  | none => match splitOnce ':' spec with
    | some (rev, path) => do
      let id ← repo.resolveSteps rev
      let tree ← repo.peelTo .tree ObjectId.fuel id
      match repo.treeLookup tree path with
      | some found => pure found.2
      | none => throw (.pathNotInTree path rev)
    | none => repo.resolveSteps spec

end Repository

/-! ## Listed ids -/

namespace Repository
variable {repo : Repository} {id : ObjectId} {min : Nat}

/-- An id of a loose object, or of a row of an index file, of the repository's own object
directory. -/
def Listed (repo : Repository) (id : ObjectId) : Prop :=
  (∃ ids, repo.looseObjectIds = .ok ids ∧ id ∈ ids) ∨
    ∃ name e idx row, repo.odb.loose.fs.get? [str "pack", name] = some e ∧
      extension name = some (str "idx") ∧
      (Vfs.read repo.odb.loose.fs (str "pack/" ++ name) >>= PackIndex.parse repo.algo) = .ok idx ∧
      idx.idAt row = some id

theorem extension_of_endsWith {name : Str} (hends : endsWith name (str ".idx") = true)
    (hname : name ≠ str ".idx") :
    extension name = some (str "idx") := by
  obtain ⟨stem, rfl⟩ := List.isSuffixOf_iff_suffix.mp hends
  have hdots : stem ++ str ".idx" ≠ str ".." := fun h => by
    have hlast := congrArg List.getLast? h
    rw [List.getLast?_append_of_ne_nil _ (by decide)] at hlast
    revert hlast
    decide
  have hsplit : splitOnce '.' (stem ++ str ".idx").reverse = some (str "xdi", stem.reverse) := by
    rw [splitOnce_eq_some, List.reverse_append]
    exact ⟨rfl, by decide⟩
  have hstem : stem.reverse ≠ [] := fun h =>
    hname (by rw [List.reverse_eq_nil_iff.mp h, List.nil_append])
  rw [extension, if_neg hdots, hsplit]
  exact if_neg hstem

theorem mem_packIds {name : Str} : id ∈ repo.packIds name ↔ extension name = some (str "idx") ∧
    ∃ idx row, (Vfs.read repo.odb.loose.fs (str "pack/" ++ name) >>=
      PackIndex.parse repo.algo) = .ok idx ∧
      idx.idAt row = some id := by
  rw [packIds]
  split
  · rename_i hext
    exact iff_of_false List.not_mem_nil fun h => hext h.1
  rename_i hext
  rw [not_not] at hext
  split
  · rename_i idx hidx
    rw [List.mem_filterMap]
    constructor
    · rintro ⟨row, -, hrow⟩
      exact ⟨hext, idx, row, hidx, hrow⟩
    · rintro ⟨-, idx', row, hidx', hrow⟩
      cases hidx.symm.trans hidx'
      exact ⟨row, List.mem_range.mpr (PackIndex.lt_of_idAt hrow), hrow⟩
  · rename_i hidx
    refine iff_of_false List.not_mem_nil ?_
    rintro ⟨-, idx, row, hidx', -⟩
    cases hidx.symm.trans hidx'

/-- **The listed ids** are all there are in the files of the repository. -/
theorem mem_allObjectIds : id ∈ repo.allObjectIds ↔ repo.Listed id := by
  have hloose : id ∈ BTreeSet.ofList (repo.looseObjectIds.toOption.getD []) ↔
      ∃ ids, repo.looseObjectIds = .ok ids ∧ id ∈ ids := by
    rw [BTreeSet.mem_ofList]
    cases repo.looseObjectIds with
    | error e =>
        refine iff_of_false List.not_mem_nil ?_
        rintro ⟨ids, heq, -⟩
        cases heq
    | ok ids =>
        refine ⟨fun h => ⟨ids, rfl, h⟩, ?_⟩
        rintro ⟨ids', heq, h⟩
        rw [Except.ok.inj heq]
        exact h
  have hpath : Vfs.resolve (str "pack") = .ok ⟨[str "pack"], false⟩ := by decide
  rw [Listed, ← hloose, allObjectIds]
  split
  · rename_i entries hread
    rw [BTreeSet.mem_foldl_extend, ((Vfs.readDir_ok_iff hpath).mp hread).2]
    refine or_congr_right ?_
    constructor
    · rintro ⟨⟨name, e⟩, he, hid⟩
      obtain ⟨hext, idx, row, hidx, hrow⟩ := mem_packIds.mp hid
      exact ⟨name, e, idx, row, FileTree.mem_children.mp he, hext, hidx, hrow⟩
    · rintro ⟨name, e, idx, row, he, hext, hidx, hrow⟩
      exact ⟨(name, e), FileTree.mem_children.mpr he, mem_packIds.mpr ⟨hext, idx, row, hidx, hrow⟩⟩
  · rename_i hread
    refine ⟨Or.inl, ?_⟩
    rintro (hid | ⟨name, e, idx, row, he, -⟩)
    · exact hid
    · have hpack : repo.odb.loose.fs.get? [str "pack"] = some .dir :=
        FileTree.get?_dropLast (by simp) he
      rw [(Vfs.readDir_ok_iff hpath).mpr ⟨hpack, rfl⟩] at hread
      cases hread

/-! ## Digits -/

theorem not_mem_digits {s : Str} (hdigits : s <+: id.toHex) {c : Char}
    (hc : ¬((48 ≤ c.toNat ∧ c.toNat ≤ 57) ∨ (97 ≤ c.toNat ∧ c.toNat ≤ 102))) : c ∉ s :=
  fun h => hc (ObjectId.mem_toHex (hdigits.subset h))

/-- A revision without a colon or a step is a base. -/
theorem resolve_eq {s : Str} (hcolon : ':' ∉ s) (hparent : '^' ∉ s) (hancestor : '~' ∉ s) :
    repo.resolve s = ExceptT.mk (some (repo.resolveBase s)) := by
  have hprefix : stripPrefix? [':'] s = none := by
    rw [Option.eq_none_iff_forall_ne_some]
    intro r hr
    exact hcolon (by simp [stripPrefix?_eq_some.mp hr])
  have hall : (s.takeWhile fun c => !isStep c) = s := by
    rw [List.takeWhile_eq_self_iff]
    intro c hc
    rw [isStep, Bool.not_eq_true', Bool.or_eq_false_iff, decide_eq_false_iff_not,
      decide_eq_false_iff_not]
    exact ⟨fun h => hparent (h ▸ hc), fun h => hancestor (h ▸ hc)⟩
  rw [resolve, hprefix, splitOnce_eq_none.mpr hcolon]
  simp only [resolveSteps, hall, List.drop_length]
  have hstop : ∀ id, repo.navigate s.length [] id = pure id := by
    intro id
    cases s.length <;> rfl
  rw [funext hstop, bind_pure]

/-- A text without the mark of a prior value is a name. -/
theorem resolveBase_eq {s : Str} (hmark : '@' ∉ s) : repo.resolveBase s = repo.resolveName s := by
  have hnone : firstOccurrence (str "@\x7b") s = none := by
    rw [Option.eq_none_iff_forall_ne_some]
    intro n hn
    obtain ⟨⟨r, hr⟩, -⟩ := (firstOccurrence_eq_some (by decide)).mp hn
    refine hmark (List.mem_of_mem_drop (i := n) ?_)
    rw [← hr]
    exact List.mem_append_left _ (by decide)
  rw [resolveBase, hnone]

theorem toAsciiLowercase_digits {s : Str} (hdigits : s <+: id.toHex) : toAsciiLowercase s = s := by
  have hlower : ∀ c ∈ s, toAsciiLower c = c := by
    intro c hc
    have hrange := ObjectId.mem_toHex (hdigits.subset hc)
    refine if_neg fun hupper => ?_
    have hlo : 65 ≤ c.toNat := hupper.1
    have hhi : c.toNat ≤ 90 := hupper.2
    omega
  rw [toAsciiLowercase]
  conv_rhs => rw [← List.map_id s]
  exact List.map_congr_left hlower

/-- **Digits of an id resolve** to it if they are all, and else as digits do. -/
theorem resolve_digits {s : Str} (hdigits : s <+: id.toHex) (halgo : id.algo = repo.algo)
    (hfour : 4 ≤ s.length) (href : repo.dwimRef s = none) : repo.resolve s =
      ExceptT.mk (some (if s.length = id.toHex.length then .ok id else repo.resolvePrefix s)) := by
  have hlen := LooseOdb.length_toHex id
  rw [halgo] at hlen
  have hat : s ≠ ['@'] := fun h => not_mem_digits hdigits (c := '@') (by decide) (by simp [h])
  have hhex : (!s.isEmpty && isHexName s.length s) = true := by
    rw [Bool.and_eq_true, Bool.not_eq_true', List.isEmpty_eq_false_iff]
    exact ⟨fun h => by simp [h] at hfour, isHexName_of_sublist hdigits.sublist⟩
  rw [resolve_eq (not_mem_digits hdigits (by decide)) (not_mem_digits hdigits (by decide))
    (not_mem_digits hdigits (by decide)),
      resolveBase_eq (not_mem_digits hdigits (by decide)), resolveName]
  simp only [if_neg hat, hhex, href, true_and, toAsciiLowercase_digits hdigits, hlen]
  by_cases hfull : s.length = repo.algo.hexLen
  · have hall : s = id.toHex := hdigits.eq_of_length (hfull.trans hlen.symm)
    rw [if_pos hfull, if_pos hfull, hall, ← halgo, ObjectId.fromHex_toHex]
    rfl
  · have hlt := lt_of_le_of_ne (hlen ▸ hdigits.length_le) hfull
    rw [if_neg hfull, if_neg hfull, if_pos ⟨hfour, hlt⟩]

/-- **Digits that no other listed id has** resolve to an id if it is listed. -/
theorem resolvePrefix_iff {s : Str} (hdigits : s <+: id.toHex)
    (hunique : ∀ other, repo.Listed other → s <+: other.toHex → other = id) :
    repo.resolvePrefix s = .ok id ↔ repo.Listed id := by
  have hmem : ∀ other, other ∈ repo.allObjectIds.toList.filter
      (fun other => startsWith other.toHex (toAsciiLowercase s)) ↔ repo.Listed other ∧
        s <+: other.toHex := by
    intro other
    rw [List.mem_filter, BTreeSet.mem_toList, mem_allObjectIds,
      toAsciiLowercase_digits hdigits, startsWith,
      List.isPrefixOf_iff_prefix]
  rw [resolvePrefix]
  split
  · rename_i a hfilter
    rw [hfilter] at hmem
    have ha := (hmem a).mp (List.mem_singleton_self a)
    constructor
    · intro h
      cases h
      exact ha.1
    · intro h
      rw [hunique a ha.1 ha.2]
  · rename_i hfilter
    rw [hfilter] at hmem
    exact iff_of_false (fun h => by cases h) fun h => List.not_mem_nil ((hmem id).mpr ⟨h, hdigits⟩)
  · rename_i hfilter hone hnil
    exfalso
    obtain ⟨a, l, hal⟩ := List.exists_cons_of_ne_nil hnil
    have hsorted : (a :: l).Nodup := hal ▸ ((repo.allObjectIds.toList_sorted.imp ne_of_lt).filter _)
    rw [hal] at hmem
    have hsame : ∀ b ∈ a :: l, b = id := fun b hb => hunique b ((hmem b).mp hb).1 ((hmem b).mp hb).2
    cases l with
    | nil => exact hone a hal
    | cons b l =>
      have hab : a = b := (hsame a List.mem_cons_self).trans
        (hsame b (List.mem_cons_of_mem _ List.mem_cons_self)).symm
      exact (List.nodup_cons.mp hsorted).1 (hab ▸ List.mem_cons_self)

/-! ## Abbreviations -/

/-- An id of the repository's kind that its object database contains. -/
def Contains (repo : Repository) (id : ObjectId) : Prop :=
  id.algo = repo.algo ∧ repo.odb.contains id = true

/-- Another of some ids has the first `n` digits of an id. -/
def SharedBy (among : ObjectId → Prop) (id : ObjectId) (n : Nat) : Prop :=
  ∃ other, among other ∧ other ≠ id ∧ id.toHex.take n <+: other.toHex

/-- What is listed of an id that is abbreviated to `least` digits or more: the id itself, unless all
digits are shown anyway, and another id for each beginning that it shares with one of the
database. -/
structure Abbreviable (repo : Repository) (id : ObjectId) (least : Nat) : Prop where
  listed : repo.Listed id ∨ least = id.toHex.length ∨ SharedBy repo.Listed id (id.toHex.length - 1)
  shared : ∀ n, least ≤ n → n < id.toHex.length → SharedBy repo.Contains id n →
    SharedBy repo.Listed id n

theorem four_le_leastDigits (id : ObjectId) (min : Nat) : 4 ≤ leastDigits id min := le_max_left _ _

theorem leastDigits_le (id : ObjectId) (min : Nat) : leastDigits id min ≤ id.toHex.length := by
  have hlen : 4 ≤ id.toHex.length := by
    rw [LooseOdb.length_toHex]
    cases id.algo <;> decide
  exact max_le hlen (Nat.min_le_right _ _)

/-- Sharing digits with a listed text is sharing them with a listed id. -/
theorem shared_iff {n : Nat} :
    ShortestPrefix.Shared (repo.allObjectIds.toList.map ObjectId.toHex) id.toHex n ↔
      SharedBy repo.Listed id n := by
  constructor
  · rintro ⟨t, ht, hne, hprefix⟩
    obtain ⟨other, hother, rfl⟩ := List.mem_map.mp ht
    rw [BTreeSet.mem_toList, mem_allObjectIds] at hother
    exact ⟨other, hother, fun h => hne (congrArg _ h), hprefix⟩
  · rintro ⟨other, hother, hne, hprefix⟩
    refine ⟨other.toHex, List.mem_map_of_mem ?_, fun h => hne (ObjectId.toHex_injective h), hprefix⟩
    rwa [BTreeSet.mem_toList, mem_allObjectIds]

/-- **An abbreviation finds its object again** if the object is listed or all digits are shown. -/
theorem resolve_abbrevLen (halgo : id.algo = repo.algo)
    (href : repo.dwimRef (repo.abbrevLen id min) = none) :
    repo.resolve (repo.abbrevLen id min) = pure id ↔ repo.Listed id ∨
      leastDigits id min = id.toHex.length ∨
      SharedBy repo.Listed id (id.toHex.length - 1) := by
  have hleast := leastDigits_le id min
  have hfull := @ShortestPrefix.shortest_eq_length _ _
    (repo.allObjectIds.toList.map ObjectId.toHex) _ _ hleast
  obtain ⟨hlo, hhi, -, hend⟩ :=
    @ShortestPrefix.shortest_spec _ _ (repo.allObjectIds.toList.map ObjectId.toHex) _ _ hleast
  have hprefix : repo.abbrevLen id min <+: id.toHex := List.take_prefix _ _
  have hlength : (repo.abbrevLen id min).length = _ := List.length_take_of_le hhi
  have hfour : 4 ≤ (repo.abbrevLen id min).length := by
    rw [hlength]
    exact (four_le_leastDigits id min).trans hlo
  rw [shared_iff] at hfull
  rw [resolve_digits hprefix halgo hfour href, ← hfull, hlength]
  have hpure : ∀ x : Except RevErr ObjectId, (ExceptT.mk (some x) : Eval RevErr ObjectId) =
      pure id ↔ x = .ok id :=
    fun x => ⟨fun h => Option.some.inj h, fun h => h ▸ rfl⟩
  rw [hpure]
  split
  · rename_i hall
    exact iff_of_true rfl (Or.inr hall)
  · rename_i hpart
    rw [or_iff_left hpart]
    refine resolvePrefix_iff hprefix fun other hother hshared => ?_
    by_contra hne
    exact hend (lt_of_le_of_ne hhi hpart) (shared_iff.mpr ⟨other, hother, hne, hshared⟩)

/-- **An abbreviation is that of no other object** if what is contained shares no more than what is
listed. -/
theorem abbrevLen_apart (halgo : id.algo = repo.algo) :
    (∀ other, repo.Contains other → other ≠ id → ¬ repo.abbrevLen id min <+: other.toHex) ↔
      ∀ n, leastDigits id min ≤ n → n < id.toHex.length → SharedBy repo.Contains id n →
        SharedBy repo.Listed id n := by
  have hlength : ∀ t, (∃ other, repo.Contains other ∧ other.toHex = t) →
      t.length = id.toHex.length := by
    rintro t ⟨other, hother, rfl⟩
    rw [LooseOdb.length_toHex, LooseOdb.length_toHex, hother.1, halgo]
  have hapart := @ShortestPrefix.shortest_apart _ _
    (repo.allObjectIds.toList.map ObjectId.toHex) _ _
    (leastDigits_le id min) _ hlength
  have hshared : ∀ n, (∃ t, (∃ other, repo.Contains other ∧ other.toHex = t) ∧ t ≠ id.toHex ∧
    id.toHex.take n <+: t) ↔
      SharedBy repo.Contains id n := by
    intro n
    constructor
    · rintro ⟨_, ⟨other, hother, rfl⟩, hne, hprefix⟩
      exact ⟨other, hother, fun h => hne (congrArg _ h), hprefix⟩
    · rintro ⟨other, hother, hne, hprefix⟩
      exact ⟨_, ⟨other, hother, rfl⟩, fun h => hne (ObjectId.toHex_injective h), hprefix⟩
  simp only [hshared, shared_iff] at hapart
  rw [← hapart]
  constructor
  · rintro h _ ⟨other, hother, rfl⟩ hne
    exact h other hother fun heq => hne (congrArg _ heq)
  · intro h other hother hne
    exact h _ ⟨other, hother, rfl⟩ fun heq => hne (ObjectId.toHex_injective heq)

/-- **An abbreviated id** that is no ref is found again, and is no other object's, if what is listed
is all that matters of the database. -/
theorem abbrevLen_resolves_iff (repo : Repository) (id : ObjectId) (min : Nat)
    (hid : repo.Contains id) (href : repo.dwimRef (repo.abbrevLen id min) = none) :
    (repo.resolve (repo.abbrevLen id min) = pure id ∧
      ∀ other, repo.Contains other → other ≠ id → ¬ repo.abbrevLen id min <+: other.toHex) ↔
      repo.Abbreviable id (leastDigits id min) := by
  rw [resolve_abbrevLen hid.1 href, abbrevLen_apart hid.1]
  exact ⟨fun h => ⟨h.1, h.2⟩, fun h => ⟨h.listed, h.shared⟩⟩

/-- **An opened repository without alternates** lists what its database contains. -/
theorem listed_of_contains {out : Outside} {ids : List ObjectId} (hopened : repo.odb.Opened out)
    (halternates : repo.odb.alternates = []) (hloose : repo.looseObjectIds = .ok ids)
    (hname : repo.odb.loose.fs.get? [str "pack", str ".idx"] = none) (hid : repo.Contains id) :
    repo.Listed id := by
  obtain ⟨halgo, hcontains⟩ := hid
  rw [CombinedOdb.contains, halternates, List.any_nil, Bool.or_false, ObjectStore.contains,
    Bool.or_eq_true] at hcontains
  rcases hcontains with hfile | hpacked
  · rw [LooseOdb.contains_eq] at hfile
    obtain ⟨e, he⟩ := Option.isSome_iff_exists.mp hfile
    exact Or.inl ⟨ids, hloose, mem_looseObjectIds hloose halgo he⟩
  · obtain ⟨lp, hlp, hlists⟩ := List.any_eq_true.mp hpacked
    obtain ⟨row, hrow⟩ := PackIndex.contains_iff.mp hlists
    obtain ⟨name, e, he, hload⟩ := (Outside.mem_loadPacks (Outside.openOdb_ok hopened).2.1).mp hlp
    rw [Outside.loadPack] at hload
    split at hload
    · rename_i hidx
      obtain ⟨data, hdata, hload⟩ := except_bind_ok.mp hload
      obtain ⟨idx, hparse, hload⟩ := except_bind_ok.mp hload
      obtain ⟨packData, -, hload⟩ := except_bind_ok.mp hload
      obtain ⟨pack, -, hload⟩ := except_bind_ok.mp hload
      cases hload
      have hne : name ≠ str ".idx" := by
        rintro rfl
        rw [hname] at he
        cases he
      refine Or.inr ⟨name, e, idx, row, he,
        extension_of_endsWith (Bool.and_eq_true_iff.mp hidx).1 hne, ?_,
        (PackIndex.positionOf_some hrow).2⟩
      exact except_bind_ok.mpr ⟨data, hdata, hparse⟩
    · cases hload

/-- Where everything that is contained is listed, every id can be abbreviated. -/
theorem abbreviable_of_listed (h : ∀ other, repo.Contains other → repo.Listed other)
    (hid : repo.Contains id) (least : Nat) : repo.Abbreviable id least :=
  ⟨Or.inl (h id hid), fun _ _ _ ⟨other, hother, hshared⟩ => ⟨other, h other hother, hshared⟩⟩

end Repository

/-! ## A repository that borrows its objects -/

namespace AbbrevSample

def blobId : ObjectId := hashObject .sha .sha1 .blob []

/-- A repository with one object. -/
def lender : Repository :=
  let repo := Repository.init .stored .sha .sha1
  { repo with odb := (write repo.odb .blob []).2 }

/-- The same, opened again from its files. -/
def reopened : Except Error Repository := do
  let odb ← Outside.sorted.openOdb .stored .sha lender.odb.loose.fs .sha1
  .ok { lender with odb := odb }

/-- What is opened from files is an opened repository. -/
theorem opened_of_openOdb {out : Outside} {fs : GitDir} {odb : CombinedOdb}
    (hopen : out.openOdb .stored .sha fs .sha1 = .ok odb) :
    odb.Opened out ∧ blobId.algo = odb.loose.algo := by
  have hloose := (Outside.openOdb_ok hopen).1
  refine ⟨?_, ?_⟩
  · rw [CombinedOdb.Opened, hloose]
    exact hopen
  · rw [hloose]
    rfl

/-- It contains the object, borrows none, and has a file for each of its ids. -/
theorem reopened_runs :
    reopened.map (fun repo => (repo.odb.contains blobId, repo.dwimRef (repo.abbrevLen blobId 7),
    repo.odb.alternates.length, repo.looseObjectIds.toBool,
    (repo.odb.loose.fs.get? [str "pack", str ".idx"]).isSome)) =
      .ok (true, none, 0, true, false) := by
  decide +kernel

/-- The object of the lender is found by its abbreviation, which is that of no other. -/
theorem lender_abbrevLen : ∃ repo, reopened = .ok repo ∧ repo.Contains blobId ∧
    repo.Abbreviable blobId (Repository.leastDigits blobId 7) ∧
    repo.resolve (repo.abbrevLen blobId 7) = pure blobId ∧
      ∀ other, repo.Contains other → other ≠ blobId →
        ¬ repo.abbrevLen blobId 7 <+: other.toHex := by
  obtain ⟨repo, hrepo, hruns⟩ := except_map_ok.mp reopened_runs
  simp only [Prod.mk.injEq] at hruns
  obtain ⟨hcontains, href, halternates, hloose, hname⟩ := hruns
  obtain ⟨odb, hopen, hodb⟩ := except_bind_ok.mp hrepo
  cases hodb
  obtain ⟨hopened, halgo⟩ := opened_of_openOdb hopen
  obtain ⟨ids, hids⟩ := exists_ok hloose
  have hid : Repository.Contains { lender with odb := odb } blobId := ⟨halgo, hcontains⟩
  have hlisted := fun other => @Repository.listed_of_contains { lender with odb := odb }
    other _ _ hopened
    (List.length_eq_zero_iff.mp halternates) hids
      (Option.not_isSome_iff_eq_none.mp (Bool.not_eq_true _ ▸ hname))
  have habbreviable := Repository.abbreviable_of_listed hlisted hid
    (Repository.leastDigits blobId 7)
  exact ⟨_, hrepo, hid, habbreviable,
    (Repository.abbrevLen_resolves_iff _ blobId 7 hid href).mpr habbreviable⟩

/-- The object directory of a name is the lender's. -/
def out : Outside := { Outside.sorted with openRelative := fun _ => lender.odb.loose.fs }

/-- A repository without objects of its own, which names the object directory of the lender. -/
def borrower : Except Error Repository := do
  let repo := Repository.init .stored .sha .sha1
  let fs ← Vfs.write repo.odb.loose.fs (str "info/alternates") (bytes "../../lender/.git/objects\n")
  let odb ← out.openOdb .stored .sha fs .sha1
  .ok { repo with odb := odb }

/-- It is opened from its files. -/
theorem borrower_opened {repo : Repository} (h : borrower = .ok repo) :
    repo.odb.Opened out ∧ blobId.algo = repo.algo := by
  obtain ⟨fs, -, h⟩ := except_bind_ok.mp h
  obtain ⟨odb, hopen, h⟩ := except_bind_ok.mp h
  cases h
  exact opened_of_openOdb hopen

/-- It contains the object, and does not find it. -/
theorem borrower_runs :
    borrower.map (fun repo => (repo.odb.contains blobId, repo.dwimRef (repo.abbrevLen blobId 7),
    (repo.resolve (repo.abbrevLen blobId 7)).run)) = .ok (true, none, some (.error .unknown)) := by
  decide +kernel

/-- **A borrowed object is not found** by its abbreviation. -/
theorem borrowed_unresolved : ¬∀ (out : Outside) (repo : Repository) (id : ObjectId) (min : Nat),
    repo.odb.Opened out →
    repo.Contains id → repo.dwimRef (repo.abbrevLen id min) = none →
    repo.resolve (repo.abbrevLen id min) = pure id := by
  intro h
  obtain ⟨repo, hrepo, hruns⟩ := except_map_ok.mp borrower_runs
  obtain ⟨hcontains, hruns⟩ := Prod.mk.inj hruns
  obtain ⟨href, hresolve⟩ := Prod.mk.inj hruns
  obtain ⟨hopened, halgo⟩ := borrower_opened hrepo
  rw [h out repo blobId 7 hopened ⟨halgo, hcontains⟩ href] at hresolve
  cases hresolve

end AbbrevSample
end Puregit
