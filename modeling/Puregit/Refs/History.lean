import Puregit.Config
import Puregit.Refs.Store

/-! # Histories of a ref store

A ref store is meant to be a map from names to values that an update or a delete changes
at one name.  `lookup_step` says at which names a successful operation is such a change:
everywhere, but for a value that its file does not give back, and for the names an update
turns into directories.  A lookup takes a directory for a loose file, so that a name that
becomes one loses its packed entry and is no longer reported missing.
-/
namespace Puregit

/-- The configuration of a new repository. -/
def initConfig (algo : HashAlgo) : Config :=
  let config := Config.new.set (str "core") none (str "repositoryformatversion")
    (str (if algo = .sha256 then "1" else "0"))
  let config := config.set (str "core") none (str "filemode") (str "true")
  let config := config.set (str "core") none (str "bare") (str "false")
  if algo = .sha256 then config.set (str "extensions") none (str "objectformat") (str "sha256")
  else config

/-- The files of a new repository. -/
def initFiles (algo : HashAlgo) : Except Error GitDir := do
  let fs ← Vfs.createDirAll FileTree.empty (str "objects/pack")
  let fs ← Vfs.createDirAll fs (str "objects/info")
  let fs ← Vfs.createDirAll fs (str "refs/heads")
  let fs ← Vfs.createDirAll fs (str "refs/tags")
  let fs ← Vfs.write fs (str "config") (toUtf8 (initConfig algo).serialize)
  Vfs.write fs (str "HEAD") (bytes "ref: refs/heads/main\n")

/-! ## Values that are read back -/

/-- A value its file gives back: an id of the store's hash, or a valid target without white
space at its ends. -/
def Reference.ReadsBack (algo : HashAlgo) : Reference → Prop
  | .direct id => id.algo = algo
  | .symbolic target => isValidRefName target = true ∧ trim target = target

/-- Dropping at the two ends commutes. -/
theorem dropWhile_rdropWhile (p : Char → Bool) (s : Str) :
    (s.rdropWhile p).dropWhile p = (s.dropWhile p).rdropWhile p := by
  induction s using List.reverseRecOn with
  | nil => rfl
  | append_singleton s c ih =>
      rw [List.dropWhile_append]
      by_cases hc : p c = true
      · rw [List.rdropWhile_concat_pos p s c hc, ih]
        split
        · rename_i hempty
          rw [List.isEmpty_iff.mp hempty, List.dropWhile_cons_of_pos hc]
          rfl
        · rw [List.rdropWhile_concat_pos p _ c hc]
      · rw [List.rdropWhile_concat_neg p s c hc, List.dropWhile_append]
        split
        · rw [List.dropWhile_cons_of_neg hc]
          exact (List.rdropWhile_concat_neg p [] c hc).symm
        · rw [List.rdropWhile_concat_neg p _ c hc]

/-- What is trimmed at its end is trimmed to the same. -/
theorem trim_rdropWhile (s : Str) : trim (s.rdropWhile isWhitespace) = trim s := by
  rw [trim_eq, dropWhile_rdropWhile, List.rdropWhile_idempotent, trim_eq]

/-- Nothing before a character that stays is dropped. -/
theorem rdropWhile_append_neg {p : Char → Bool} {c : Char} (hc : p c ≠ true) (a s : Str) :
    (a ++ c :: s).rdropWhile p = a ++ c :: s.rdropWhile p := by
  induction s using List.reverseRecOn with
  | nil => exact List.rdropWhile_concat_neg p a c hc
  | append_singleton s d ih =>
      have hsplit : a ++ c :: (s ++ [d]) = (a ++ c :: s) ++ [d] := by simp
      by_cases hd : p d = true
      · rw [hsplit, List.rdropWhile_concat_pos p _ d hd, ih, List.rdropWhile_concat_pos p s d hd]
      · rw [hsplit, List.rdropWhile_concat_neg p _ d hd,
          List.rdropWhile_concat_neg p s d hd, hsplit]

/-- The file of a symbolic ref gives its target trimmed, if that is a valid name. -/
theorem Reference.parse_symbolic (algo : HashAlgo) (target : Str) :
    Reference.parse algo (Reference.symbolic target).toFileContents =
      if isValidRefName (trim target) then .ok (.symbolic (trim target))
      else .error (.reference (str "symbolic ref target is not a valid name: " ++
        debugStr (trim target))) := by
  have htext : trim (str "ref: " ++ target ++ ['\n']) =
      str "ref:" ++ (' ' :: target).rdropWhile isWhitespace := by
    have hstart : (str "ref: " ++ target ++ ['\n']).dropWhile isWhitespace =
        str "ref" ++ ':' :: (' ' :: target ++ ['\n']) := by
      show ('r' :: _).dropWhile isWhitespace = _
      rw [List.dropWhile_cons_of_neg (by decide)]
      rfl
    rw [trim_eq, hstart, rdropWhile_append_neg (by decide),
      List.rdropWhile_concat_pos isWhitespace _ '\n' (by decide)]
    rfl
  have hstrip : stripPrefix? (str "ref:") (trim (str "ref: " ++ target ++ ['\n'])) =
      some ((' ' :: target).rdropWhile isWhitespace) := by
    rw [htext]
    exact stripPrefix?_eq_some.mpr rfl
  have htrim : trim ((' ' :: target).rdropWhile isWhitespace) = trim target := by
    rw [trim_rdropWhile, trim_eq, List.dropWhile_cons_of_pos (by decide), ← trim_eq]
  simp only [Reference.parse, Reference.toFileContents, fromUtf8_toUtf8, hstrip, htrim]

/-- **The loose file of a value gives it back just when it can be read back.** -/
theorem Reference.parse_toFileContents {algo : HashAlgo} {value : Reference} :
    Reference.parse algo value.toFileContents = .ok value ↔ value.ReadsBack algo := by
  cases value with
  | direct id =>
      rw [ReadsBack]
      constructor
      · intro h
        rw [Reference.parse_direct_eq] at h
        obtain ⟨o, ho, heq⟩ := except_map_ok.mp h
        cases heq
        exact ObjectId.fromHex_algo ho
      · rintro rfl
        exact Reference.parse_direct id
  | symbolic target =>
      rw [Reference.parse_symbolic, ReadsBack]
      constructor
      · intro h
        split at h
        · rename_i hvalid
          have htrim : trim target = target := by simpa using h
          exact ⟨htrim ▸ hvalid, htrim⟩
        · cases h
      · rintro ⟨hvalid, htrim⟩
        rw [htrim, if_pos hvalid]

theorem fromHex_of_hash (algo : HashAlgo) (r : Str) :
    (ObjectId.fromHex algo ('#' :: r)).toOption = none := by
  rw [ObjectId.fromHex, toUtf8_cons]
  cases toUtf8 r with
  | nil => cases algo <;> rfl
  | cons b bs =>
      show (if _ then _ else _ : Except Error ObjectId).toOption = none
      split <;> rfl

/-- A packed-refs file holds no ref. -/
theorem parse_serializePackedRefs (algo : HashAlgo) (entries : List PackedRef) :
    (Reference.parse algo (serializePackedRefs entries)).toOption = none := by
  obtain ⟨text, htext⟩ : ∃ text, serializePackedRefs entries = toUtf8 ('#' :: text) := ⟨_, rfl⟩
  have htrim : ∃ r, trim ('#' :: text) = '#' :: r := by
    have hdrop : ('#' :: text).dropWhile isWhitespace = '#' :: text :=
      List.dropWhile_cons_of_neg (by decide)
    have hr : trim ('#' :: text) = ('#' :: text).rdropWhile isWhitespace := by
      rw [trim, hdrop]
      rfl
    obtain ⟨tail, htail⟩ := List.rdropWhile_prefix isWhitespace ('#' :: text)
    rw [hr]
    cases hd : ('#' :: text).rdropWhile isWhitespace with
    | nil => exact absurd (List.rdropWhile_eq_nil_iff.mp hd '#' List.mem_cons_self) (by decide)
    | cons a r =>
        rw [hd] at htail
        exact ⟨r, congrArg (· :: r) (List.cons.inj htail).1⟩
  obtain ⟨r, hr⟩ := htrim
  have hstrip : stripPrefix? (str "ref:") ('#' :: r) = none := rfl
  rw [htext, Reference.parse, fromUtf8_toUtf8]
  simp only [hr, hstrip]
  have hnone := fromHex_of_hash algo r
  cases h : ObjectId.fromHex algo ('#' :: r) with
  | error e => rfl
  | ok id =>
      rw [h] at hnone
      cases hnone

namespace RefStore

/-! ## Operations and histories -/

/-- An update or a delete. -/
inductive RefOp where
  | update (name : Str) (value : Reference)
  | delete (name : Str)
  deriving DecidableEq

/-- The name an operation is about. -/
def RefOp.name : RefOp → Str
  | update name _ => name
  | delete name => name

/-- Runs an operation. -/
def apply (refs : RefStore) : RefOp → Except Error Unit × RefStore
  | .update name value => refs.update name value
  | .delete name => refs.delete name

/-- An operation on a valid name below `refs/` that succeeds. -/
def Succeeds (refs : RefStore) (op : RefOp) (refs' : RefStore) : Prop :=
  IsBelowRefs op.name ∧ refs.apply op = (.ok (), refs')

/-- A run of successful operations. -/
inductive History (start : RefStore) : List RefOp → RefStore → Prop
  | nil : History start [] start
  | snoc {ops : List RefOp} {refs refs' : RefStore} {op : RefOp} :
      History start ops refs → Succeeds refs op refs' → History start (ops ++ [op]) refs'

/-- A new repository, to which a packed-refs file of any refs may have been added. -/
def Initialised (refs : RefStore) : Prop :=
  ∃ fs, initFiles refs.algo = .ok fs ∧ (∀ q, q ≠ packedPath → refs.vfs.get? q = fs.get? q) ∧
    ∃ entries, refs.packed = .ok entries

/-- What a lookup finds, name by name. -/
abbrev RefMap := Str → Except Error Reference

/-- What an operation is to do to a map: it changes one name. -/
def RefOp.on (map : RefMap) : RefOp → RefMap
  | .update name value => Function.update map name (.ok value)
  | .delete name => Function.update map name (.error (.notFound (.reference name)))

/-- An update of `name` makes a directory where the loose file of `other` would be. -/
def Hides (refs : RefStore) (name other : Str) : Prop :=
  refPath other <+: (refPath name).dropLast ∧ refs.vfs.get? (refPath other) ≠ some .dir

/-- An operation does at a name what it is to do. -/
def RefOp.CleanAt (refs : RefStore) (name : Str) : RefOp → Prop
  | .update n value => if name = n then value.ReadsBack refs.algo else ¬ Hides refs n name
  | .delete _ => True

/-- The names of the map: the valid ones, but for that of packed-refs itself. -/
def IsMapName (name : Str) : Prop := IsRefName name ∧ name ≠ str "packed-refs"

/-- A run of successful operations, each of which does what it is to do at every name. -/
inductive CleanHistory (start : RefStore) : List RefOp → RefStore → Prop
  | nil : CleanHistory start [] start
  | snoc {ops : List RefOp} {refs refs' : RefStore} {op : RefOp} :
      CleanHistory start ops refs → Succeeds refs op refs' →
      (∀ name, IsMapName name → op.CleanAt refs name) → CleanHistory start (ops ++ [op]) refs'

/-! ## What a lookup depends on -/

variable {refs refs' start : RefStore} {name : Str} {ops : List RefOp} {op : RefOp}

/-- The value of a ref name, by what is at its path. -/
theorem value?_refPath (hname : IsRefName name) : refs.value? name =
    match refs.vfs.get? (refPath name) with
    | some (.leaf d) => (Reference.parse refs.algo d).toOption
    | some .dir => none
    | none => (refs.packedId name).map .direct := by
  rw [value?_eq, Vfs.stat_of_resolve _ (resolve_refPath hname)]
  cases refs.vfs.get? (refPath name) with
  | none => rfl
  | some e => cases e <;> rfl

theorem value?_of_leaf {d : Bytes} (hname : IsRefName name)
    (h : refs.vfs.get? (refPath name) = some (.leaf d)) :
    refs.value? name = (Reference.parse refs.algo d).toOption := by
  rw [value?_refPath hname, h]

theorem isRefName_of_symbolic {target : Str} (hname : IsRefName name)
    (h : refs.value? name = some (.symbolic target)) : IsRefName target := by
  rw [value?_refPath hname] at h
  split at h
  · rename_i d _
    cases hparse : Reference.parse refs.algo d with
    | error e =>
        rw [hparse] at h
        cases h
    | ok r =>
        rw [hparse] at h
        cases h
        rw [Reference.parse] at hparse
        split at hparse
        · cases hparse
        split at hparse
        · split at hparse
          · rename_i hvalid
            cases hparse
            exact Or.inl hvalid
          · cases hparse
        · obtain ⟨id, -, hparse⟩ := except_map_ok.mp hparse
          cases hparse
  · cases h
  · obtain ⟨id, -, h⟩ := Option.map_eq_some_iff.mp h
    cases h

/-- What packed-refs gives a name. -/
def packedLookup (refs : RefStore) (name : Str) : Except Error Reference := do
  let entries ← refs.packed
  match entries.find? (·.name = name) with
  | some entry => .ok (.direct entry.id)
  | none => .error (.notFound (.reference name))

/-- A lookup reads what is at the path of the name, and packed-refs where nothing is. -/
theorem lookup_eq (h : IsRefName name) : refs.lookup name =
    match refs.vfs.get? (refPath name) with
    | some (.leaf d) => Reference.parse refs.algo d
    | some .dir => .error Vfs.isADirectory
    | none => refs.packedLookup name := by
  rw [lookup, Vfs.pathExists, Vfs.read, Vfs.stat_of_resolve _ (resolve_refPath h)]
  cases refs.vfs.get? (refPath name) with
  | none => rfl
  | some e => cases e <;> rfl

theorem packedLookup_ne_isADirectory {entries : List PackedRef} (h : refs.packed = .ok entries) :
    refs.packedLookup name ≠ .error Vfs.isADirectory := by
  rw [packedLookup, h]
  simp only [bind, Except.bind]
  split <;> simp [Vfs.isADirectory]

theorem not_packedPath_prefix (h : IsBelowRefs name) : ¬ packedPath <+: refPath name := by
  obtain ⟨c, cs, hpath⟩ := refPath_of_isBelowRefs h
  rw [hpath, packedPath, List.cons_prefix_cons]
  rintro ⟨hname, -⟩
  revert hname
  decide

/-! ## One operation -/

/-- **An update leaves its name with the value, hides the names it makes directories of,
and leaves the others as they are.** -/
theorem update_succeeds {value : Reference} (h : Succeeds refs (.update name value) refs') :
    refs'.algo = refs.algo ∧ refs'.packed = refs.packed ∧
    refs.vfs.NoLeafTo (refPath name).dropLast ∧ ∀ q, refs'.vfs.get? q =
      if q = refPath name then some (.leaf value.toFileContents)
      else if q <+: (refPath name).dropLast then some .dir else refs.vfs.get? q := by
  obtain ⟨hbelow, happly⟩ := h
  have hcan : CanUpdate refs.vfs name := by
    by_contra hn
    obtain ⟨e, he⟩ := @update_of_not_canUpdate refs _ value hn
    rw [apply, he] at happly
    cases happly
  obtain ⟨-, halgo, hget⟩ := @update_of_canUpdate refs _ value hcan
  rw [apply] at happly
  rw [happly] at halgo hget
  have hpath : packedPath ≠ refPath name := fun heq =>
    not_packedPath_prefix hbelow (heq ▸ List.prefix_rfl)
  have hdirs : ¬ packedPath <+: (refPath name).dropLast := fun hp =>
    not_packedPath_prefix hbelow (hp.trans (List.dropLast_prefix _))
  exact ⟨halgo, packed_congr halgo (by rw [hget, if_neg hpath, if_neg hdirs]), hcan.way, hget⟩

/-- **A delete takes the loose file and the packed entries of its name, and nothing else.** -/
theorem delete_succeeds (h : Succeeds refs (.delete name) refs') :
    refs'.algo = refs.algo ∧
    (∀ entries, refs.packed = .ok entries → refs'.packed =
      .ok (entries.filter fun e => e.name ≠ name)) ∧
    refs.vfs.get? (refPath name) ≠ some .dir ∧
    ∀ q, q ≠ packedPath → refs'.vfs.get? q = if q = refPath name then none
      else refs.vfs.get? q := by
  obtain ⟨hbelow, happly⟩ := h
  have hname : IsRefName name := Or.inl hbelow.1
  have hcan : CanDelete refs name := by
    by_contra hn
    obtain ⟨⟨e, he⟩, -⟩ := delete_of_not_canDelete hn
    rw [apply] at happly
    rw [happly] at he
    cases he
  obtain ⟨-, halgo, hget, -, hother⟩ := delete_of_canDelete hcan
  rw [apply] at happly
  rw [happly] at halgo hget hother
  have hresolve := resolve_refPath hname
  have hdir : refs.vfs.get? (refPath name) ≠ some .dir := by
    intro hdir
    refine hcan.1 ?_
    rw [Vfs.stat_of_resolve _ hresolve, hdir]
  have hfile : ∀ p, filePath refs.vfs name = some p ↔
      p = refPath name ∧ ∃ d, refs.vfs.get? (refPath name) = some (.leaf d) := by
    intro p
    rw [filePath_eq_some, hresolve]
    constructor
    · rintro ⟨d, hr, hd⟩
      cases hr
      exact ⟨rfl, d, hd⟩
    · rintro ⟨rfl, d, hd⟩
      exact ⟨d, rfl, hd⟩
  have hpath : filePath refs.vfs name ≠ some packedPath := by
    intro hp
    exact not_packedPath_prefix hbelow (((hfile _).mp hp).1 ▸ List.prefix_rfl)
  refine ⟨halgo, (hother hpath).2, hdir, fun q hq => ?_⟩
  rw [hget q hq]
  by_cases hqn : q = refPath name
  · subst hqn
    rw [if_pos rfl]
    split
    · rfl
    · rename_i hnone
      cases hg : refs.vfs.get? (refPath name) with
      | none => rfl
      | some e =>
          cases e with
          | dir => exact absurd hg hdir
          | leaf d => exact absurd ((hfile _).mpr ⟨rfl, d, hg⟩) hnone
  · rw [if_neg hqn, if_neg fun hf => hqn ((hfile q).mp hf).1]

/-- A successful operation leaves packed-refs readable. -/
theorem Succeeds.packed (h : Succeeds refs op refs')
    (hpacked : ∃ entries, refs.packed = .ok entries) :
    ∃ entries, refs'.packed = .ok entries := by
  obtain ⟨entries, he⟩ := hpacked
  cases op with
  | update name value => exact ⟨entries, (update_succeeds h).2.1.trans he⟩
  | delete name => exact ⟨_, (delete_succeeds h).2.1 entries he⟩

theorem refPath_ne_packedPath (h : IsMapName name) : refPath name ≠ packedPath := by
  intro hp
  exact h.2 (refPath_injective (hp.trans (by decide)))

/-- Dropping the entries of one name leaves what packed-refs gives the others. -/
theorem packedLookup_filter {entries : List PackedRef} {n : Str}
    (hpacked : refs.packed = .ok entries)
    (h : refs'.packed = .ok (entries.filter fun e => e.name ≠ n)) :
    refs'.packedLookup name = if name = n then .error (.notFound (.reference name))
      else refs.packedLookup name := by
  have hfind : (entries.filter fun e => e.name ≠ n).find? (·.name = name) =
      if name = n then none else entries.find? (·.name = name) := by
    rw [List.find?_filter]
    by_cases hn : name = n
    · rw [if_pos hn, List.find?_eq_none]
      simp only [decide_eq_true_eq, not_and]
      exact fun e _ hne he => hne (he.trans hn)
    · rw [if_neg hn]
      congr 1
      funext e
      simp only [decide_eq_true_eq, decide_eq_decide, and_iff_right_iff_imp]
      exact fun he hen => hn (he.symm.trans hen)
  rw [packedLookup, packedLookup, h, hpacked]
  simp only [bind, Except.bind, hfind]
  by_cases hn : name = n
  · rw [if_pos hn, if_pos hn]
  · rw [if_neg hn, if_neg hn]

/-- **An operation changes the map as it is to, at just the names where it is clean.** -/
theorem lookup_step (hpacked : ∃ entries, refs.packed = .ok entries) (h : Succeeds refs op refs')
    (hname : IsMapName name) : refs'.lookup name = op.on refs.lookup name ↔
    op.CleanAt refs name := by
  obtain ⟨entries, hentries⟩ := hpacked
  rw [lookup_eq hname.1]
  cases op with
  | update n value =>
      obtain ⟨halgo, hpacked', hway, hget⟩ := update_succeeds h
      rw [hget, RefOp.on, RefOp.CleanAt, halgo, packedLookup, hpacked', ← packedLookup]
      by_cases heq : name = n
      · subst heq
        rw [if_pos rfl, if_pos rfl, Function.update_self]
        exact Reference.parse_toFileContents
      rw [if_neg fun hp => heq (refPath_injective hp), if_neg heq, Function.update_of_ne heq, Hides,
        lookup_eq hname.1]
      by_cases hwhole : refPath name <+: (refPath n).dropLast
      · rw [if_pos hwhole]
        cases hg : refs.vfs.get? (refPath name) with
        | none =>
            simpa [hwhole] using (packedLookup_ne_isADirectory hentries).symm
        | some e =>
            cases e with
            | dir => simp
            | leaf d => exact absurd hg (hway _ d hwhole)
      · rw [if_neg hwhole]
        simp [hwhole]
  | delete n =>
      obtain ⟨halgo, hpacked', hdir, hget⟩ := delete_succeeds h
      have hlookup := @packedLookup_filter _ _ name _ _ hentries (hpacked' entries hentries)
      rw [hget _ (refPath_ne_packedPath hname), RefOp.on, RefOp.CleanAt, iff_true, halgo, hlookup]
      by_cases heq : name = n
      · subst heq
        rw [if_pos rfl, if_pos rfl, Function.update_self]
      · rw [if_neg fun hp => heq (refPath_injective hp), if_neg heq, Function.update_of_ne heq,
          lookup_eq hname.1]

/-! ## A history -/

theorem History.packed (hstart : ∃ entries, start.packed = .ok entries)
    (h : History start ops refs) :
    ∃ entries, refs.packed = .ok entries := by
  induction h with
  | nil => exact hstart
  | snoc _ hop ih => exact hop.packed ih

theorem CleanHistory.history (h : CleanHistory start ops refs) : History start ops refs := by
  induction h with
  | nil => exact .nil
  | snoc _ hop _ ih => exact ih.snoc hop

/-- **A clean history is a history of the map.** -/
theorem CleanHistory.lookup (hstart : ∃ entries, start.packed = .ok entries)
    (h : CleanHistory start ops refs) (hname : IsMapName name) :
    refs.lookup name = ops.foldl RefOp.on start.lookup name := by
  induction h generalizing name with
  | nil => rfl
  | snoc hops hop hclean ih =>
      rename_i ops refs refs' op
      rw [List.foldl_append, List.foldl_cons, List.foldl_nil,
        (lookup_step (hops.history.packed hstart) hop hname).mpr (hclean name hname)]
      cases op with
      | update n value =>
          by_cases heq : name = n
          · rw [RefOp.on, RefOp.on, heq, Function.update_self, Function.update_self]
          · rw [RefOp.on, RefOp.on, Function.update_of_ne heq, Function.update_of_ne heq, ih hname]
      | delete n =>
          by_cases heq : name = n
          · rw [RefOp.on, RefOp.on, heq, Function.update_self, Function.update_self]
          · rw [RefOp.on, RefOp.on, Function.update_of_ne heq, Function.update_of_ne heq, ih hname]

/-- **Over every history of a new repository, an operation changes the map of the names as
it is to just where it is clean, and a history of such operations is a history of the map.** -/
theorem lookup_history (hstart : Initialised start) :
    (∀ ops refs op refs' name, History start ops refs → Succeeds refs op refs' → IsMapName name →
      (refs'.lookup name = op.on refs.lookup name ↔ op.CleanAt refs name)) ∧
    ∀ ops refs name, CleanHistory start ops refs → IsMapName name →
      refs.lookup name = ops.foldl RefOp.on start.lookup name := by
  obtain ⟨fs, -, -, hpacked⟩ := hstart
  exact ⟨fun ops refs op refs' name hops hop hname => lookup_step (hops.packed hpacked) hop hname,
    fun ops refs name hops hname => hops.lookup hpacked hname⟩

/-! ## A packed branch that is hidden -/

namespace HistorySample

/-- The id of the samples. -/
def someId : ObjectId := .filled 1

/-- The packed refs: one branch. -/
def packedRefs : Bytes := serializePackedRefs [⟨str "refs/heads/topic", someId, none⟩]

/-- The files of a new repository. -/
def newFiles : GitDir := (initFiles .sha1).toOption.getD FileTree.empty

/-- A new repository with a packed branch. -/
def packedBranch : RefStore := ⟨(newFiles.putLeaf packedPath packedRefs).getD newFiles, .sha1⟩

/-- A branch below it. -/
def branchBelow : RefOp := .update (str "refs/heads/topic/fix") (.direct someId)

theorem initialised_packedBranch : Initialised packedBranch := by
  have hfiles : initFiles .sha1 = .ok newFiles := by
    have hok : (initFiles .sha1).toBool = true := by decide
    rw [newFiles]
    cases h : initFiles .sha1 with
    | ok fs => rfl
    | error e =>
        rw [h] at hok
        cases hok
  have hput : newFiles.putLeaf packedPath packedRefs = some packedBranch.vfs := by
    have hsome : (newFiles.putLeaf packedPath packedRefs).isSome = true := by decide
    rw [packedBranch]
    cases h : newFiles.putLeaf packedPath packedRefs with
    | some fs => rfl
    | none =>
        rw [h] at hsome
        cases hsome
  have hget := fun q => FileTree.get?_putLeaf hput q
  refine ⟨newFiles, hfiles, fun q hq => by rw [hget,
    if_neg hq], [⟨str "refs/heads/topic", someId, none⟩], ?_⟩
  rw [packed_eq, hget, if_pos rfl]
  refine parsePackedRefs_serialize fun e he => ?_
  rw [List.mem_singleton] at he
  subst he
  exact ⟨by decide, by decide, rfl, by simp⟩

theorem succeeds_branchBelow :
    Succeeds packedBranch branchBelow (packedBranch.apply branchBelow).2 := by
  refine ⟨by decide, Prod.ext ?_ rfl⟩
  decide

theorem hides_topic : ¬ branchBelow.CleanAt packedBranch (str "refs/heads/topic") := by
  have hhides : Hides packedBranch (str "refs/heads/topic/fix") (str "refs/heads/topic") :=
    ⟨by decide, by decide⟩
  simpa [branchBelow, RefOp.CleanAt, str] using hhides

/-- The packed branch is lost, and another name is left as it is. -/
theorem branchBelow_hides :
    (packedBranch.apply branchBelow).2.lookup (str "refs/heads/topic") ≠
      branchBelow.on packedBranch.lookup (str "refs/heads/topic") ∧
    (packedBranch.apply branchBelow).2.lookup (str "refs/heads/main") =
      branchBelow.on packedBranch.lookup (str "refs/heads/main") := by
  have hstep := fun name => (lookup_history initialised_packedBranch).1 [] _ _ _ name .nil
    succeeds_branchBelow
  refine ⟨fun h => hides_topic ((hstep _ ⟨by decide, by decide⟩).mp h),
    (hstep _ ⟨by decide, by decide⟩).mpr ?_⟩
  have hclean : ¬ Hides packedBranch (str "refs/heads/topic/fix") (str "refs/heads/main") :=
      fun h =>
    absurd h.1 (by decide)
  simpa [branchBelow, RefOp.CleanAt, str] using hclean

/-- The store is not a map that an operation changes at one name. -/
theorem not_map : ¬ ∀ start ops refs op refs' name, Initialised start → History start ops refs →
    Succeeds refs op refs' → IsMapName name → refs'.lookup name = op.on refs.lookup name := by
  intro h
  have hpacked := initialised_packedBranch.choose_spec.2.2
  refine hides_topic ((lookup_step hpacked succeeds_branchBelow ⟨by decide, by decide⟩).mp ?_)
  exact h _ _ _ _ _ _ initialised_packedBranch .nil succeeds_branchBelow ⟨by decide, by decide⟩

end HistorySample

end RefStore
end Puregit
