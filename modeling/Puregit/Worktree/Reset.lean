import Puregit.Merge
import Puregit.Protocol.Request
import Puregit.Refs.History
import Puregit.Refs.List
import Puregit.Walk.MergeBase
import Puregit.Worktree.Switchable

/-! # Resetting and merging

A reset points the branch of `HEAD` at a commit, logs that, and then makes the index, or the index
and the work tree, those of the commit.  A merge points the branch at the merged commit and then
makes the index and the work tree those of it.

Checking a branch out does it the other way round, and moves `HEAD` last.  Here what follows the
move of the ref may fail, and the ref stays moved: `errors_keep_head` says exactly when an error
leaves `HEAD` and its branch where they were, on the state before the call.
-/
namespace Puregit
open ObjectDatabase

/-! ## The log of a ref -/

namespace Repository

/-- Adds a raw line to the log of a ref. -/
def appendLogFile (repo : Repository) (refname line : Str) : Except Error Repository :=
  (Vfs.append repo.fs (str "logs/" ++ refname) (toUtf8 line)).map fun fs => { repo with fs := fs }

/-- A repository with a line in the log of a ref, if it can be there. -/
def logged (repo : Repository) (refname line : Str) : Repository :=
  (repo.appendLogFile refname line).toOption.getD repo

/-- The line of a log for a move, with the signature and the time of who moves. -/
def reflogLine (sig : Signature) (old new : ObjectId) (message : Str) : Str :=
  old.toHex ++ ' ' :: new.toHex ++ ' ' :: fromUtf8Lossy sig.name ++ str " <" ++
    fromUtf8Lossy sig.email ++
    str "> " ++ intStr sig.time ++ ' ' :: fromUtf8Lossy sig.tz ++ '\t' :: message ++ ['\n']

/-- Logs a move of a ref, and of `HEAD` if that is its branch; what cannot be logged is not. -/
def writeReflog (sig : Signature) (refname : Str) (old new : ObjectId) (message : Str)
    (repo : Repository) : Repository :=
  let line := reflogLine sig old new message
  let repo := repo.logged refname line
  if refname ≠ str "HEAD" ∧ repo.refs.lookup (str "HEAD") = .ok (.symbolic refname) then
    repo.logged (str "HEAD") line
  else repo

/-- The tree of a commit. -/
def commitTree (repo : Repository) (id : ObjectId) : Except Error ObjectId :=
  (repo.readCommit id fun o => .unexpectedType .commit o.objectType).map Commit.tree

end Repository

namespace Worktree

/-! ## The operations -/

/-- What is reset beside the ref. -/
inductive ResetMode where
  | soft
  | mixed
  | hard
  deriving DecidableEq

/-- Logs a reset in the log of the branch of `HEAD`. -/
def logReset (sig : Signature) (old target : ObjectId) (repo : Repository) : Repository :=
  match repo.refs.lookup (str "HEAD") with
  | .ok (.symbolic branch) =>
    repo.writeReflog sig branch old target (str "reset: moving to " ++ target.toHex)
  | _ => repo

/-- What a reset does once the ref is moved. -/
def resetTo (depth : Nat) (work : Option (List Bytes)) (mode : ResetMode) (tree : ObjectId) :
    Exec Checkout Error Unit :=
  match mode with
  | .soft => pure ()
  | .hard => match work with
    | none => Exec.throw (.io (str "reset --hard: bare repository has no work tree"))
    | some work => switchWorktree depth tree work
  | .mixed => onRepo (Repository.readTree depth tree)

/-- Resets the current branch to a commit, and the index and the work tree with it; a bare
repository has no work tree. -/
def reset (depth : Nat) (work : Option (List Bytes)) (sig : Signature) (mode : ResetMode)
    (target : ObjectId) :
    Exec Checkout Error Unit := do
  let commit ← Exec.read fun c => c.repo.readCommit target fun o =>
    .unexpectedType .commit o.objectType
  let old ← Exec.read fun c => .ok (c.repo.headId.toOption.getD (ObjectId.zero c.repo.algo))
  onRepo (Repository.updateCurrentBranch target)
  onRepo (Exec.step fun repo => (.ok (), logReset sig old target repo))
  resetTo depth work mode commit.tree

/-- How a merge ends. -/
inductive MergeOutcome where
  | alreadyUpToDate
  | fastForward (tip : ObjectId)
  | merged (tip : ObjectId)
  | conflicts (paths : List Bytes)

/-- Makes the work tree and the index those of a commit. -/
def checkoutCommitWorktree (depth : Nat) (work : Option (List Bytes)) (id : ObjectId) :
    Exec Checkout Error Unit :=
  match work with
  | none => pure ()
  | some work => do
    match ← Exec.read fun c => readObject c.repo.odb id with
    | .commit commit => switchWorktree depth commit.tree work
    | _ => pure ()

/-- Merges two commits in the object store: the commit of the merge is written unless there are
conflicts. -/
def mergeCommits (depth : Nat) (ours theirs : ObjectId) (author committer : Signature)
    (message : Bytes) :
    Exec Repository Error MergeOutcome := do
  let base ← Exec.read fun repo => mergeBase repo.odb ours theirs
  let baseTree ← Exec.read fun repo => match base with
    | some id => (repo.commitTree id).map some
    | none => .ok none
  let oursTree ← Exec.read fun repo => repo.commitTree ours
  let theirsTree ← Exec.read fun repo => repo.commitTree theirs
  let result ← Repository.onOdb (mergeTrees depth baseTree oursTree theirsTree)
  if !result.conflicts.isEmpty then pure (.conflicts result.conflicts)
  else do
    let commit : Commit := ⟨result.tree, [ours, theirs], author, committer, [], message⟩
    let id ← Repository.onOdb (put .commit commit.serialize)
    pure (.merged id)

/-- Points the current branch at a merged commit and checks that out. -/
def advance (depth : Nat) (work : Option (List Bytes)) (id : ObjectId) :
    Exec Checkout Error Unit := do
  onRepo (Repository.updateCurrentBranch id)
  checkoutCommitWorktree depth work id

/-- Merges a commit into the current branch. -/
def merge (depth : Nat) (work : Option (List Bytes)) (theirs : ObjectId)
    (author committer : Signature) (message : Bytes) :
    Exec Checkout Error MergeOutcome := do
  let ours ← Exec.read fun c => c.repo.headId
  if ours = theirs then pure .alreadyUpToDate
  else do
    let behind ← Exec.read fun c => isAncestor c.repo.odb theirs ours
    if behind then pure .alreadyUpToDate
    else do
      let ahead ← Exec.read fun c => isAncestor c.repo.odb ours theirs
      if ahead then do
        advance depth work theirs
        pure (.fastForward theirs)
      else do
        match ← onRepo (mergeCommits depth ours theirs author committer message) with
        | .merged id => do
          advance depth work id
          pure (.merged id)
        | outcome => pure outcome

end Worktree

/-! ## A log in the place of a ref -/

theorem decodeHexInto_newline (bs : Bytes) (b : UInt8) (rest : Bytes) {out : Bytes} :
    ObjectId.decodeHexInto (toUtf8 (bs.flatMap fun b =>
      [ObjectId.hexDigit (b.toNat / 16), ObjectId.hexDigit (b.toNat % 16)]) ++
      10 :: b :: rest) ≠ .ok out := by
  induction bs generalizing out with
  | nil =>
    intro h
    obtain ⟨_, hval, -⟩ := except_bind_ok.mp h
    cases hval
  | cons a bs ih =>
    have ha : a.toNat < 256 := a.toNat_lt
    intro h
    rw [List.flatMap_cons, toUtf8_append, toUtf8_cons, toUtf8_cons,
      ObjectId.utf8Char_hexDigit (by omega),
      ObjectId.utf8Char_hexDigit (by omega)] at h
    obtain ⟨_, -, h⟩ := except_bind_ok.mp h
    obtain ⟨_, -, h⟩ := except_bind_ok.mp h
    obtain ⟨out', h, -⟩ := except_bind_ok.mp h
    exact ih h

theorem utf8Char_ne_nil (c : Char) : utf8Char c ≠ [] := by
  unfold utf8Char
  dsimp only
  split_ifs <;> exact List.cons_ne_nil _ _

/-- An id with a line of a log behind it is no value. -/
theorem Reference.parse_logged (algo : HashAlgo) (sig : Signature) (id old new : ObjectId)
    (message : Str) {value : Reference} :
    Reference.parse algo ((Reference.direct id).toFileContents ++
      toUtf8 (Repository.reflogLine sig old new message)) ≠ .ok value := by
  intro h
  obtain ⟨c, r, hcr, -, -⟩ := toHex_eq_cons id
  obtain ⟨d, s, hds, -, -⟩ := toHex_eq_cons old
  have hc := ObjectId.isWhitespace_of_mem_toHex (o := id) (c := c)
    (by rw [hcr]; exact List.mem_cons_self)
  have hd := ObjectId.isWhitespace_of_mem_toHex (o := old) (c := d)
    (by rw [hds]; exact List.mem_cons_self)
  obtain ⟨tail, htail⟩ : ∃ tail, Repository.reflogLine sig old new message = d :: tail := by
    rw [Repository.reflogLine, hds]
    simp only [List.append_assoc, List.cons_append]
    exact ⟨_, rfl⟩
  -- the first digits of the two ids stay when the text is trimmed
  have htrim : trim (id.toHex ++ ['\n'] ++ Repository.reflogLine sig old new message) =
      id.toHex ++ '\n' :: d :: tail.rdropWhile isWhitespace := by
    have hdrop : (id.toHex ++ ['\n'] ++ d :: tail).dropWhile isWhitespace =
        id.toHex ++ ['\n'] ++ d :: tail := by
      rw [hcr, List.append_assoc, List.cons_append, List.dropWhile_cons_of_neg (by simp [hc])]
    rw [htail, trim_eq, hdrop, rdropWhile_append_neg (by simp [hd])]
    simp
  have hstrip : stripPrefix? (str "ref:") (id.toHex ++ '\n' :: d :: tail.rdropWhile isWhitespace) =
      none := by
    rw [hcr]
    have hdigit := ObjectId.mem_toHex (o := id) (c := c) (by rw [hcr]; exact List.mem_cons_self)
    have hr : 'r' ≠ c := by
      rintro rfl
      revert hdigit
      decide
    simp [str, stripPrefix?, hr]
  rw [Reference.parse, Reference.toFileContents, ← toUtf8_append, fromUtf8_toUtf8] at h
  simp only [htrim, hstrip] at h
  obtain ⟨o, ho, -⟩ := except_map_ok.mp h
  rw [ObjectId.fromHex] at ho
  split at ho
  · cases ho
  obtain ⟨out, hout, -⟩ := except_bind_ok.mp ho
  obtain ⟨b, bs, hb⟩ := List.exists_cons_of_ne_nil (utf8Char_ne_nil d)
  rw [toUtf8_append, toUtf8_cons, toUtf8_cons, hb] at hout
  exact decodeHexInto_newline id.bytes b (bs ++ toUtf8 (tail.rdropWhile isWhitespace)) hout

/-- A file that is there is added to. -/
theorem Vfs.append_of_leaf {fs : GitDir} {name : Str} {p : List Str} {d data : Bytes}
    (hr : resolve name = .ok ⟨p, false⟩) (h : fs.get? p = some (.leaf d)) :
    ∃ fs', append fs name data = .ok fs' := by
  have hne : p ≠ [] := by
    rintro rfl
    rw [FileTree.get?_nil] at h
    cases h
  have hdir := FileTree.get?_dropLast hne h
  obtain ⟨fs', hput⟩ := Option.isSome_iff_exists.mp
    (FileTree.putLeaf_isSome (t := fs) (p := p) (d := (fs.leaf? p).getD [] ++ data)
    |>.mpr ⟨hne, hdir, by rw [h]; simp⟩)
  refine ⟨fs', except_bind_ok.mpr ⟨_, hr,
    except_bind_ok.mpr ⟨fs, makeDirs_ok.mpr (FileTree.createDirAll_of_isDir hdir), ?_⟩⟩⟩
  exact replaceFile_ok.mpr ⟨rfl, hput⟩

/-- What does not lead to a file stays when it is added to. -/
theorem Vfs.get?_append_other {fs fs' : GitDir} {name : Str} {p q : List Str} {data : Bytes}
    (hr : resolve name = .ok ⟨p, false⟩) (h : append fs name data = .ok fs') (hq : ¬q <+: p) :
    fs'.get? q = fs.get? q := by
  obtain ⟨r, hr', h⟩ := except_bind_ok.mp h
  cases hr.symm.trans hr'
  obtain ⟨fs₁, hdirs, hput⟩ := except_bind_ok.mp h
  rw [makeDirs_ok] at hdirs
  rw [FileTree.get?_putLeaf (replaceFile_ok.mp hput).2, if_neg fun heq => hq (by rw [heq]),
    FileTree.get?_createDirAll hdirs, if_neg fun hbelow =>
      hq (hbelow.trans (List.dropLast_prefix p))]

/-! ## What `HEAD` resolves to -/

namespace RefStore
variable {refs refs' : RefStore} {name : Str} {d : Bytes} {id : ObjectId}

/-- `HEAD` and its branch still resolve to what they resolved to. -/
structure HeadKept (before after : RefStore) : Prop where
  head : ∀ id, before.resolve (str "HEAD") = .ok id → after.resolve (str "HEAD") = .ok id
  branch : ∀ name, before.lookup (str "HEAD") = .ok (.symbolic name) →
    ∀ id, before.resolve name = .ok id → after.resolve name = .ok id

/-- `HEAD` and its branch resolve to ids that `P` holds of, if they resolve. -/
structure HeadWithin (refs : RefStore) (P : ObjectId → Prop) : Prop where
  head : ∀ id, refs.resolve (str "HEAD") = .ok id → P id
  branch : ∀ name, refs.lookup (str "HEAD") = .ok (.symbolic name) →
    ∀ id, refs.resolve name = .ok id → P id

theorem headKept_refl (refs : RefStore) : HeadKept refs refs := ⟨fun _ h => h, fun _ _ _ h => h⟩

/-- The ref that the current branch is kept in: the branch of `HEAD`, or `HEAD` itself if it is
detached. -/
def currentRef (refs : RefStore) : Option Str :=
  match refs.lookup (str "HEAD") with
  | .ok (.symbolic branch) => some branch
  | .ok (.direct _) => some (str "HEAD")
  | .error _ => none

theorem currentRef_of_symbolic (h : refs.lookup (str "HEAD") = .ok (.symbolic name)) :
    refs.currentRef = some name := by
  rw [currentRef, h]

theorem value?_eq_some {value : Reference} :
    refs.value? name = some value ↔ refs.lookup name = .ok value := by
  rw [value?]
  cases refs.lookup name <;> simp [Except.toOption]

/-- A symbolic `HEAD` is a file. -/
theorem leaf_of_symbolic (h : refs.lookup (str "HEAD") = .ok (.symbolic name)) :
    ∃ d, refs.vfs.get? (refPath (str "HEAD")) = some (.leaf d) := by
  have hvalue := value?_eq_some.mpr h
  rw [value?_refPath (Or.inr rfl)] at hvalue
  split at hvalue
  · rename_i d hd
    exact ⟨d, hd⟩
  · cases hvalue
  · obtain ⟨_, -, hid⟩ := Option.map_eq_some_iff.mp hvalue
    cases hid

theorem isRefName_of_currentRef (h : refs.currentRef = some name) : IsRefName name := by
  rw [currentRef] at h
  split at h
  · rename_i hlookup
    cases h
    exact isRefName_of_symbolic (Or.inr rfl) (value?_eq_some.mpr hlookup)
  · cases h
    exact Or.inr rfl
  · cases h

/-- What `HEAD` leads to, in a ref that holds `d`: the ref behind `HEAD` before. -/
structure Points (refs refs' : RefStore) (name : Str) (d : Bytes) : Prop where
  algo : refs'.algo = refs.algo
  current : refs.currentRef = some name
  file : refs'.vfs.get? (refPath name) = some (.leaf d)
  head : name ≠ str "HEAD" → ∃ d₀, refs.vfs.get? (refPath (str "HEAD")) = some (.leaf d₀) ∧
    refs'.vfs.get? (refPath (str "HEAD")) = some (.leaf d₀)

theorem lookup_of_currentRef (h : refs.currentRef = some name) (hname : name ≠ str "HEAD") :
    refs.lookup (str "HEAD") = .ok (.symbolic name) := by
  rw [currentRef] at h
  split at h
  · rename_i hlookup
    cases h
    exact hlookup
  · cases h
    exact absurd rfl hname
  · cases h

/-- `HEAD` stays a symbolic ref. -/
theorem Points.lookup (h : Points refs refs' name d) (hname : name ≠ str "HEAD") :
    refs'.lookup (str "HEAD") = .ok (.symbolic name) := by
  obtain ⟨d₀, hbefore, hafter⟩ := h.head hname
  have hvalue := value?_eq_some.mpr (lookup_of_currentRef h.current hname)
  rw [value?_of_leaf (Or.inr rfl) hbefore] at hvalue
  rw [← value?_eq_some, value?_of_leaf (Or.inr rfl) hafter, h.algo, hvalue]

/-- A ref that holds no symbolic value resolves to what it holds. -/
theorem Points.resolve_name (h : Points refs refs' name d)
    (hd : ∀ target, Reference.parse refs.algo d ≠ .ok (.symbolic target)) :
    refs'.resolve name = .ok id ↔ Reference.parse refs.algo d = .ok (.direct id) := by
  have hvalue := value?_of_leaf (isRefName_of_currentRef h.current) h.file
  rw [h.algo] at hvalue
  rw [resolve_eq_ok, RefStore.current, RefStore.resolve, maxSymrefDepth,
    resolveFrom_toOption, hvalue]
  cases hparse : Reference.parse refs.algo d with
  | error e => simp [Except.toOption]
  | ok value =>
    cases value with
    | direct i => simp [Except.toOption]
    | symbolic target => exact absurd hparse (hd target)

/-- And so does `HEAD`. -/
theorem Points.resolve_head (h : Points refs refs' name d)
    (hd : ∀ target, Reference.parse refs.algo d ≠ .ok (.symbolic target)) :
    refs'.resolve (str "HEAD") = .ok id ↔ Reference.parse refs.algo d = .ok (.direct id) := by
  by_cases hname : name = str "HEAD"
  · exact hname ▸ h.resolve_name hd
  have hvalue := value?_of_leaf (isRefName_of_currentRef h.current) h.file
  rw [h.algo] at hvalue
  rw [resolve_eq_ok, RefStore.current, RefStore.resolve, maxSymrefDepth, resolveFrom_toOption,
    value?_eq_some.mpr (h.lookup hname)]
  dsimp only
  rw [resolveFrom_toOption, hvalue]
  cases hparse : Reference.parse refs.algo d with
  | error e => simp [Except.toOption]
  | ok value =>
    cases value with
    | direct i => simp [Except.toOption]
    | symbolic target => exact absurd hparse (hd target)

/-- Nothing has moved if everything resolved to what the ref holds already. -/
theorem Points.headKept_iff (h : Points refs refs' name d)
    (hd : ∀ target, Reference.parse refs.algo d ≠ .ok (.symbolic target)) :
    HeadKept refs refs' ↔ HeadWithin refs fun i => Reference.parse refs.algo d =
      .ok (.direct i) := by
  have hbranch : ∀ {b : Str}, refs.lookup (str "HEAD") = .ok (.symbolic b) → b = name := by
    intro b hb
    exact Option.some_injective _ ((currentRef_of_symbolic hb).symm.trans h.current)
  constructor
  · intro hkept
    refine ⟨fun i hi => (h.resolve_head hd).mp (hkept.head i hi), fun b hb i hi => ?_⟩
    have hafter := hkept.branch b hb i hi
    rw [hbranch hb] at hafter
    exact (h.resolve_name hd).mp hafter
  · intro hwithin
    refine ⟨fun i hi => (h.resolve_head hd).mpr (hwithin.head i hi), fun b hb i hi => ?_⟩
    have hvalue := hwithin.branch b hb i hi
    rw [hbranch hb]
    exact (h.resolve_name hd).mpr hvalue

theorem parse_direct_iff {i : ObjectId} :
    Reference.parse refs.algo (Reference.direct id).toFileContents = .ok (.direct i) ↔
    id.algo = refs.algo ∧ i = id := by
  rw [Reference.parse_direct_eq, ← ObjectId.fromHex_toHex_iff, except_map_ok]
  simp

theorem HeadWithin.mono {P Q : ObjectId → Prop} (h : HeadWithin refs P)
    (hPQ : ∀ i, i.algo = refs.algo → P i → Q i) :
    HeadWithin refs Q :=
  ⟨fun i hi => hPQ i (algo_of_resolve hi) (h.head i hi), fun b hb i hi =>
    hPQ i (algo_of_resolve hi) (h.branch b hb i hi)⟩

/-- **A ref that holds an id moves nothing if `HEAD` resolved to that id, or not at all.** -/
theorem Points.headKept_direct (h : Points refs refs' name (Reference.direct id).toFileContents) :
    HeadKept refs refs' ↔ HeadWithin refs (· = id) := by
  rw [h.headKept_iff fun target htarget => ?_]
  · refine ⟨fun hw => hw.mono fun i _ hi => (parse_direct_iff.mp hi).2, fun hw =>
      hw.mono fun i halgo hi => ?_⟩
    subst hi
    exact parse_direct_iff.mpr ⟨halgo, rfl⟩
  · rw [Reference.parse_direct_eq] at htarget
    obtain ⟨_, -, hid⟩ := except_map_ok.mp htarget
    cases hid

/-- The current branch is kept in a ref that can be written. -/
def CanMove (refs : RefStore) (name : Str) : Prop :=
  refs.currentRef = some name ∧ CanUpdate refs.vfs name

/-- The refs when the current branch has been pointed at an id. -/
def pointed (refs : RefStore) (id : ObjectId) : RefStore :=
  match refs.currentRef with
  | some name => (refs.update name (.direct id)).2
  | none => refs

theorem points_pointed (h : refs.CanMove name) :
    Points refs (refs.pointed id) name (Reference.direct id).toFileContents := by
  obtain ⟨hcurrent, hcan⟩ := h
  have hpointed : refs.pointed id = (refs.update name (.direct id)).2 := by rw [pointed, hcurrent]
  obtain ⟨-, halgo, hget⟩ := update_of_canUpdate (.direct id) hcan
  rw [hpointed]
  refine ⟨halgo, hcurrent, ?_, fun hname => ?_⟩
  · rw [hget, if_pos rfl]
  · obtain ⟨d₀, hd₀⟩ := leaf_of_symbolic (lookup_of_currentRef hcurrent hname)
    refine ⟨d₀, hd₀, ?_⟩
    rw [hget, if_neg fun h => hname (refPath_injective h).symm, if_neg fun hprefix =>
      hcan.way _ _ hprefix hd₀, hd₀]

/-- Where the files of `HEAD` and of its branch stay, `HEAD` leads to the same. -/
theorem Points.congr {refs'' : RefStore} {d' : Bytes} (h : Points refs refs' name d)
    (halgo : refs''.algo = refs'.algo) (hfile : refs''.vfs.get? (refPath name) = some (.leaf d'))
    (hhead : ∀ d₀, refs'.vfs.get? (refPath (str "HEAD")) = some (.leaf d₀) →
      refs''.vfs.get? (refPath (str "HEAD")) = some (.leaf d₀)) : Points refs refs'' name d' := by
  refine ⟨halgo.trans h.algo, h.current, hfile, fun hname => ?_⟩
  obtain ⟨d₀, hbefore, hafter⟩ := h.head hname
  exact ⟨d₀, hbefore, hhead d₀ hafter⟩

end RefStore

namespace Repository
open RefStore
variable {repo : Repository} {name : Str} {id : ObjectId}

/-- A repository whose current branch has been pointed at an id. -/
def pointed (repo : Repository) (id : ObjectId) : Repository :=
  { repo with fs := (repo.refs.pointed id).vfs }

/-- What is at the paths of a git directory when a ref is a file with an id in it. -/
def holding (fs : GitDir) (name : Str) (id : ObjectId) : Worktree.Files := fun q =>
  if q = refPath name then some (.leaf (Reference.direct id).toFileContents)
  else if q <+: (refPath name).dropLast then some .dir
  else fs.get? q

/-- That is what there is when the current branch has been pointed at the id. -/
theorem get?_pointed (h : repo.refs.CanMove name) :
    (repo.pointed id).fs.get? = holding repo.fs name id := by
  obtain ⟨-, -, hget⟩ := update_of_canUpdate (.direct id) h.2
  have hpointed : repo.refs.pointed id = (repo.refs.update name (.direct id)).2 := by
    rw [RefStore.pointed, h.1]
  funext q
  rw [Repository.pointed, hpointed]
  exact hget q

theorem refs_pointed (h : repo.refs.CanMove name) : (repo.pointed id).refs = repo.refs.pointed id :=
  RefStore.ext rfl (@points_pointed _ _ id h).algo.symm

/-- **The current branch is pointed at an id where its ref can be written**, and otherwise nothing
changes. -/
theorem updateCurrentBranch_spec (repo : Repository) (id : ObjectId) :
    (∀ name, repo.refs.CanMove name → updateCurrentBranch id repo =
      some (.ok (), repo.pointed id)) ∧
    ((∀ name, ¬repo.refs.CanMove name) → ∃ e, updateCurrentBranch id repo =
      some (.error e, repo)) := by
  have hupdate : ∀ {name : Str}, repo.refs.currentRef = some name →
      updateCurrentBranch id repo = onRefs (fun refs => refs.update name (.direct id)) repo := by
    intro name hname
    rw [currentRef] at hname
    rw [updateCurrentBranch, Exec.bind_apply, Exec.andThen, Exec.read]
    cases hlookup : repo.refs.lookup (str "HEAD") with
    | error e =>
      rw [hlookup] at hname
      cases hname
    | ok value =>
      rw [hlookup] at hname
      cases value <;> cases hname <;> rfl
  constructor
  · intro name hmove
    rw [hupdate hmove.1, onRefs, Exec.step_apply, (update_of_canUpdate (.direct id) hmove.2).1,
      Repository.pointed,
      RefStore.pointed, hmove.1]
  · intro hno
    cases hcurrent : repo.refs.currentRef with
    | some name =>
      obtain ⟨e, he⟩ := update_of_not_canUpdate (.direct id) fun hcan => hno name ⟨hcurrent, hcan⟩
      refine ⟨e, ?_⟩
      rw [hupdate hcurrent, onRefs, Exec.step_apply, he]
      rfl
    | none =>
      rw [currentRef] at hcurrent
      rw [updateCurrentBranch, Exec.bind_apply, Exec.andThen, Exec.read]
      cases hlookup : repo.refs.lookup (str "HEAD") with
      | error e => exact ⟨e, rfl⟩
      | ok value =>
        rw [hlookup] at hcurrent
        cases value <;> cases hcurrent

/-- The path of the log of a ref. -/
def logPath (name : Str) : List Str := str "logs" :: refPath name

theorem refPath_log (name : Str) : refPath (str "logs/" ++ name) = logPath name := by
  have hsplit : str "logs/" ++ name = str "logs" ++ '/' :: name := rfl
  rw [hsplit, refPath, List.splitOn_append_cons_self_of_not_mem (by decide), logPath, refPath]

theorem resolve_log (h : IsRefName name) :
    Vfs.resolve (str "logs/" ++ name) = .ok ⟨logPath name, false⟩ := by
  rw [← refPath_log]
  refine resolve_of_components ?_ fun c hc => ?_
  · intro hnul
    rcases List.mem_append.mp hnul with hnul | hnul
    · revert hnul
      decide
    · exact nul_notMem_of_isRefName h hnul
  · rw [refPath_log, logPath, List.mem_cons] at hc
    rcases hc with rfl | hc
    · decide
    · exact component_of_isRefName h hc

/-- A log is added to and every other file stays. -/
theorem logged_spec (h : IsRefName name) (repo : Repository) (line : Str) :
    (repo.logged name line).odb = repo.odb ∧
    (∀ q d, q ≠ logPath name → repo.fs.get? q = some (.leaf d) →
      (repo.logged name line).fs.get? q = some (.leaf d)) ∧
    (∀ d, repo.fs.get? (logPath name) = some (.leaf d) →
      (repo.logged name line).fs.get? (logPath name) = some (.leaf (d ++ toUtf8 line))) := by
  rw [logged, appendLogFile]
  cases hrun : Vfs.append repo.fs (str "logs/" ++ name) (toUtf8 line) with
  | error e =>
    refine ⟨rfl, fun q d _ hq => hq, fun d hd => ?_⟩
    obtain ⟨fs', hfs⟩ := @Vfs.append_of_leaf _ _ _ _ (toUtf8 line) (resolve_log h) hd
    cases hrun.symm.trans hfs
  | ok fs' =>
    obtain ⟨hfile, hkept⟩ := Vfs.get?_append (resolve_log h) hrun
    refine ⟨rfl, hkept, fun d hd => ?_⟩
    have hleaf : repo.fs.leaf? (logPath name) = some d := FileTree.leaf?_eq_some.mpr hd
    show fs'.get? (logPath name) = _
    rw [hfile, hleaf]
    rfl

/-- Nothing is changed but below `logs/`. -/
theorem logged_other (h : IsRefName name) (repo : Repository) (line : Str) {q : List Str}
    (hq : q.head? ≠ some (str "logs")) : (repo.logged name line).fs.get? q = repo.fs.get? q := by
  rw [logged, appendLogFile]
  cases hrun : Vfs.append repo.fs (str "logs/" ++ name) (toUtf8 line) with
  | error e => rfl
  | ok fs' =>
    by_cases hnil : q = []
    · rw [hnil, FileTree.get?_nil, FileTree.get?_nil]
    · refine Vfs.get?_append_other (resolve_log h) hrun fun hbelow => hq ?_
      obtain ⟨n, rest, rfl⟩ := List.exists_cons_of_ne_nil hnil
      rw [logPath, List.cons_prefix_cons] at hbelow
      rw [hbelow.1, List.head?_cons]

theorem logPath_ne (a b : Str) (h : logPath a = refPath b) : b = str "logs/" ++ a :=
  (refPath_injective ((refPath_log a).trans h)).symm

/-- The file of `HEAD` is no log. -/
theorem refPath_head_ne (a : Str) : refPath (str "HEAD") ≠ logPath a := by
  intro h
  have hhead : (str "HEAD").head? = (str "logs/" ++ a).head? :=
    congrArg List.head? (logPath_ne _ _ h.symm)
  cases hhead

end Repository

namespace Worktree
open RefStore Repository
variable {repo : Repository} {refs : RefStore} {name : Str} {target : ObjectId}

/-- A reset is logged beside the refs, unless its branch is the log of `HEAD`. -/
theorem Points.logReset (sig : Signature) (old : ObjectId)
    (h : Points refs repo.refs name (Reference.direct target).toFileContents) :
    Points refs (logReset sig old target repo).refs name
      ((Reference.direct target).toFileContents ++
      if name = str "logs/HEAD" then
        toUtf8 (reflogLine sig old target (str "reset: moving to " ++ target.toHex)) else []) := by
  have hvalid := isRefName_of_currentRef h.current
  by_cases hname : name = str "HEAD"
  · -- a detached `HEAD` is an id now, or nothing that can be read
    have hvalue := value?_of_leaf hvalid h.file
    rw [hname] at hvalue
    rw [hname, if_neg (by decide), List.append_nil, ← hname]
    have hsame : Worktree.logReset sig old target repo = repo := by
      rw [Worktree.logReset]
      split
      · rename_i branch hlookup
        rw [value?_eq_some.mpr hlookup] at hvalue
        have hparse := toOption_eq_some.mp hvalue.symm
        rw [Reference.parse_direct_eq] at hparse
        obtain ⟨_, -, hid⟩ := except_map_ok.mp hparse
        cases hid
      · rfl
    rw [hsame]
    exact h
  have hlog : Worktree.logReset sig old target repo =
      repo.writeReflog sig name old target (str "reset: moving to " ++ target.toHex) := by
    rw [Worktree.logReset, h.lookup hname]
  rw [hlog, writeReflog]
  generalize reflogLine sig old target (str "reset: moving to " ++ target.toHex) = line
  -- the log of the branch
  obtain ⟨hodb₁, hkept₁, -⟩ := logged_spec hvalid repo line
  have hne₁ : refPath name ≠ logPath name := fun heq => by
    have hlength := congrArg List.length heq
    rw [logPath, List.length_cons] at hlength
    omega
  have h₁ : Points refs (repo.logged name line).refs name
      (Reference.direct target).toFileContents :=
    h.congr (congrArg (·.loose.algo) hodb₁) (hkept₁ _ _ hne₁ h.file) fun d₀ =>
      hkept₁ _ _ (refPath_head_ne _)
  -- the log of `HEAD`
  have hboth : name ≠ str "HEAD" ∧ (repo.logged name line).refs.lookup (str "HEAD") =
      .ok (.symbolic name) :=
    ⟨hname, h₁.lookup hname⟩
  rw [if_pos hboth]
  obtain ⟨hodb₂, hkept₂, hadded⟩ := logged_spec (Or.inr rfl) (repo.logged name line) line
  refine h₁.congr (congrArg (·.loose.algo) hodb₂) ?_ fun d₀ => hkept₂ _ _ (refPath_head_ne _)
  split
  · rename_i heq
    have hpath : refPath name = logPath (str "HEAD") := heq ▸ refPath_log (str "HEAD")
    have hfile := h₁.file
    rw [hpath] at hfile ⊢
    exact hadded _ hfile
  · rename_i hne
    rw [List.append_nil]
    exact hkept₂ _ _ (fun heq => hne (logPath_ne _ _ heq.symm)) h₁.file

/-- A reset leaves `HEAD` where it was if that was the target, and the branch is not the log of
`HEAD`. -/
theorem headKept_logReset (sig : Signature) (old : ObjectId)
    (h : Points refs repo.refs name (Reference.direct target).toFileContents) :
    HeadKept refs (logReset sig old target repo).refs ↔
      HeadWithin refs fun id => id = target ∧ name ≠ str "logs/HEAD" := by
  have hlogged := Points.logReset sig old h
  by_cases hname : name = str "logs/HEAD"
  · rw [if_pos hname] at hlogged
    rw [hlogged.headKept_iff fun t => Reference.parse_logged _ _ _ _ _ _]
    refine ⟨fun hw => hw.mono fun id _ hid => absurd hid (Reference.parse_logged _ _ _ _ _ _),
      fun hw => hw.mono fun id _ hid => ?_⟩
    exact absurd hname hid.2
  · rw [if_neg hname, List.append_nil] at hlogged
    rw [hlogged.headKept_direct]
    exact ⟨fun hw => hw.mono fun id _ hid => ⟨hid, hname⟩, fun hw => hw.mono fun id _ hid => hid.1⟩

/-- A reset is logged below `logs/`. -/
theorem logReset_other (sig : Signature) (old target : ObjectId) (repo : Repository) :
    (logReset sig old target repo).odb = repo.odb ∧
    ∀ q : List Str, q.head? ≠ some (str "logs") → (logReset sig old target repo).fs.get? q =
      repo.fs.get? q := by
  rw [logReset]
  split
  · rename_i branch hlookup
    have hbranch : IsRefName branch :=
      isRefName_of_symbolic (Or.inr rfl) (value?_eq_some.mpr hlookup)
    rw [writeReflog]
    generalize reflogLine sig old target (str "reset: moving to " ++ target.toHex) = line
    have hodb := (logged_spec hbranch repo line).1
    split
    · refine ⟨(logged_spec (Or.inr rfl) _ line).1.trans hodb, fun q hq => ?_⟩
      rw [logged_other (Or.inr rfl) _ line hq, logged_other hbranch repo line hq]
    · exact ⟨hodb, fun q hq => logged_other hbranch repo line hq⟩
  · exact ⟨rfl, fun _ _ => rfl⟩

/-! ## What fails behind the ref -/

variable {depth : Nat} {work : Option (List Bytes)} {tree : ObjectId} {c c' : Checkout}

/-- The repository is the same. -/
def SameRepo (c c' : Checkout) : Prop := c'.repo = c.repo

instance : Std.Refl SameRepo := ⟨fun _ => rfl⟩

instance : IsTrans Checkout SameRepo := ⟨fun _ _ _ h h' => Eq.trans h' h⟩

theorem sameRepo_onDiskOf {α : Type} (x : Repository → Exec Disk Error α) :
    Exec.Keeps SameRepo (onDiskOf x) := by
  intro c r c' h
  obtain ⟨_, -, hc⟩ := Option.map_eq_some_iff.mp h
  obtain ⟨-, rfl⟩ := Prod.mk.inj hc
  rfl

theorem sameRepo_forM {α : Type} {f : α → Exec Checkout Error Unit}
    (hf : ∀ a, Exec.Keeps SameRepo (f a)) (l : List α) :
    Exec.Keeps SameRepo (l.forM f) := by
  induction l with
  | nil => exact Exec.Keeps.pure _
  | cons a l ih => exact (hf a).bind fun _ => ih

/-- An index that cannot be made or written leaves the repository as it was. -/
theorem readTree_error {repo' : Repository} {e : Error}
    (h : Repository.readTree depth tree repo = some (.error e, repo')) :
    repo' = repo := by
  have hindex : Exec.Keeps (fun r r' => r' = r) (Repository.indexFromTree depth tree) := by
    have : Std.Refl fun r r' : Repository => r' = r := ⟨fun _ => rfl⟩
    have : IsTrans Repository fun r r' => r' = r := ⟨fun _ _ _ h h' => h'.trans h⟩
    exact (Exec.Keeps.eval _).bind fun _ => (Exec.Keeps.read _).bind fun _ => Exec.Keeps.pure _
  have hwrite : ∀ {index : Index} {repo : Repository}, Repository.writeIndex index repo =
      some (.error e, repo') → repo' = repo := by
    intro index repo h
    rcases Exec.bind_error.mp h with hread | ⟨_, _, hread, hfile⟩
    · cases hread
    cases hread
    rw [Repository.writeFile, Exec.step_apply] at hfile
    split at hfile
    · cases hfile
    · cases hfile
      rfl
  rcases Exec.bind_error.mp h with herror | ⟨index, repo₁, hok, herror⟩
  · exact hindex _ _ _ herror
  · exact (hwrite herror).trans (hindex _ _ _ hok)

theorem onRepo_readTree_error {e : Error}
    (h : onRepo (Repository.readTree depth tree) c = some (.error e, c')) :
    c'.repo = c.repo := by
  obtain ⟨⟨r, repo'⟩, hrun, hc⟩ := Option.map_eq_some_iff.mp h
  obtain ⟨rfl, rfl⟩ := Prod.mk.inj hc
  exact readTree_error hrun

/-- A switch that fails has changed the work tree only. -/
theorem switchWorktree_error {dir : List Bytes} {e : Error}
    (h : switchWorktree depth tree dir c = some (.error e, c')) :
    c'.repo = c.repo := by
  rcases Exec.bind_error.mp h with h | ⟨flat, c₁, h₁, h⟩
  · exact Exec.Keeps.eval (R := SameRepo) _ _ _ _ h
  have hrepo₁ : c₁.repo = c.repo := Exec.Keeps.eval (R := SameRepo) _ _ _ _ h₁
  rcases Exec.bind_error.mp h with h | ⟨index, c₂, h₂, h⟩
  · exact (Exec.Keeps.read (R := SameRepo) _ _ _ _ h).trans hrepo₁
  have hrepo₂ : c₂.repo = c.repo := (Exec.Keeps.read (R := SameRepo) _ _ _ _ h₂).trans hrepo₁
  have hclear := sameRepo_forM (fun e => sameRepo_onDiskOf fun _ =>
    onDisk (clearEntry flat dir e)) index.entries
  rcases Exec.bind_error.mp h with h | ⟨_, c₃, h₃, h⟩
  · exact (hclear _ _ _ h).trans hrepo₂
  have hrepo₃ : c₃.repo = c.repo := (hclear _ _ _ h₃).trans hrepo₂
  have hwrite := sameRepo_onDiskOf fun repo => checkoutTree repo depth tree dir
  rcases Exec.bind_error.mp h with h | ⟨_, c₄, h₄, h⟩
  · exact (hwrite _ _ _ h).trans hrepo₃
  exact (onRepo_readTree_error h).trans ((hwrite _ _ _ h₄).trans hrepo₃)

theorem resetTo_error {mode : ResetMode} {e : Error}
    (h : resetTo depth work mode tree c = some (.error e, c')) :
    c'.repo = c.repo := by
  cases mode with
  | soft => cases h
  | mixed => exact onRepo_readTree_error h
  | hard =>
    cases work with
    | none =>
      cases h
      rfl
    | some dir => exact switchWorktree_error h

theorem checkoutCommitWorktree_error {id : ObjectId} {e : Error}
    (h : checkoutCommitWorktree depth work id c = some (.error e, c')) : c'.repo = c.repo := by
  cases work with
  | none => cases h
  | some dir =>
    rcases Exec.bind_error.mp h with h | ⟨object, c₁, h₁, h⟩
    · exact Exec.Keeps.read (R := SameRepo) _ _ _ _ h
    have hrepo : c₁.repo = c.repo := Exec.Keeps.read (R := SameRepo) _ _ _ _ h₁
    cases object with
    | commit commit => exact (switchWorktree_error h).trans hrepo
    | tree t => cases h
    | blob b => cases h
    | tag t => cases h

/-- The refs are the same. -/
def SameRefs (r r' : Repository) : Prop := r'.refs = r.refs

instance : Std.Refl SameRefs := ⟨fun _ => rfl⟩

instance : IsTrans Repository SameRefs := ⟨fun _ _ _ h h' => Eq.trans h' h⟩

/-- The hash of the store is the same. -/
def SameAlgo (odb odb' : CombinedOdb) : Prop := odb'.loose.algo = odb.loose.algo

instance : Std.Refl SameAlgo := ⟨fun _ => rfl⟩

instance : IsTrans CombinedOdb SameAlgo := ⟨fun _ _ _ h h' => Eq.trans h' h⟩

theorem sameAlgo_write (odb : CombinedOdb) (ty : ObjectType) (payload : Bytes) :
    SameAlgo odb (write odb ty payload).2 := by
  show (LooseOdb.write odb.loose ty payload).2.algo = odb.loose.algo
  rw [LooseOdb.write]
  split
  · rfl
  split
  · rfl
  split <;> rfl

theorem sameAlgo_put (ty : ObjectType) (payload : Bytes) :
    Exec.Keeps SameAlgo (put ty payload : Exec CombinedOdb Error ObjectId) :=
  Exec.Keeps.step fun odb => sameAlgo_write odb ty payload

theorem sameAlgo_mergeTrees {base : Option ObjectId} {ours theirs : ObjectId} :
    Exec.Keeps SameAlgo (mergeTrees depth base ours theirs :
      Exec CombinedOdb Error TreeMergeResult) := by
  have hentries : Exec.Keeps SameAlgo (mergeEntries depth base ours theirs :
      Exec CombinedOdb Error _) := by
    intro odb r odb' h
    refine Relation.ReflTransGen.trans_induction_on (keeps_mergeEntries odb r odb' h)
      (fun _ => rfl) ?_ ?_
    · rintro odb _ ⟨ty, payload, -, rfl⟩
      exact sameAlgo_write odb ty payload
    · exact fun _ _ h h' => Eq.trans h' h
  exact hentries.bind fun _ => (keeps_writeTree_of_put (fun _ => sameAlgo_put _ _) _).bind fun _ =>
    Exec.Keeps.pure _

theorem sameRefs_onOdb {α : Type} {x : Exec CombinedOdb Error α} (hx : Exec.Keeps SameAlgo x) :
    Exec.Keeps SameRefs (Repository.onOdb x) := by
  intro repo r repo' h
  obtain ⟨⟨r₁, odb'⟩, hrun, hrepo⟩ := Option.map_eq_some_iff.mp h
  obtain ⟨-, rfl⟩ := Prod.mk.inj hrepo
  exact RefStore.ext rfl (hx _ _ _ hrun)

/-- Two commits are merged beside the refs. -/
theorem sameRefs_mergeCommits {ours theirs : ObjectId} {author committer : Signature}
    {message : Bytes} :
    Exec.Keeps SameRefs (mergeCommits depth ours theirs author committer message) := by
  refine (Exec.Keeps.read _).bind fun _ => (Exec.Keeps.read _).bind fun _ =>
    (Exec.Keeps.read _).bind fun _ =>
    (Exec.Keeps.read _).bind fun _ => (sameRefs_onOdb sameAlgo_mergeTrees).bind fun result => ?_
  split
  · exact Exec.Keeps.pure _
  · exact (sameRefs_onOdb (sameAlgo_put _ _)).bind fun _ => Exec.Keeps.pure _

/-! ## When an error keeps `HEAD` -/

/-- If it fails, `HEAD` and its branch still resolve to what they resolved to. -/
def KeepsHead {α : Type} (x : Exec Checkout Error α) (c : Checkout) : Prop :=
  ∀ e c', x c = some (.error e, c') → HeadKept c.repo.refs c'.repo.refs

/-- What runs the same keeps `HEAD` alike. -/
theorem keepsHead_congr {α β : Type} {x : Exec Checkout Error α} {y : Exec Checkout Error β}
    (h : ∀ e c', x c = some (.error e, c') ↔ y c = some (.error e, c')) :
    KeepsHead x c ↔ KeepsHead y c :=
  forall_congr' fun e => forall_congr' fun c' => by rw [h e c']

/-- What fails without a change of the refs keeps `HEAD`. -/
theorem keepsHead_of_same {α : Type} {x : Exec Checkout Error α}
    (h : ∀ e c', x c = some (.error e, c') → c'.repo.refs = c.repo.refs) : KeepsHead x c := by
  intro e c' herror
  rw [h e c' herror]
  exact headKept_refl _

/-- What follows a read keeps `HEAD` where the read succeeds. -/
theorem keepsHead_read_bind {α β : Type} {f : Checkout → Except Error α}
    {g : α → Exec Checkout Error β} :
    KeepsHead (Exec.read f >>= g) c ↔ ∀ a, f c = .ok a → KeepsHead (g a) c := by
  constructor
  · intro hkeeps a ha e c' h
    exact hkeeps e c' (Exec.bind_error.mpr (Or.inr ⟨a, c, by rw [Exec.read, ha], h⟩))
  · intro hkeeps e c' h
    rcases Exec.bind_error.mp h with h | ⟨a, c₁, hread, h⟩
    · obtain ⟨-, rfl⟩ := Prod.mk.inj (Option.some.inj h)
      exact headKept_refl _
    · obtain ⟨ha, rfl⟩ := Prod.mk.inj (Option.some.inj hread)
      exact hkeeps a ha e c' h

/-- The checkout when the current branch has been pointed at an id. -/
def pointed (c : Checkout) (id : ObjectId) : Checkout := { c with repo := c.repo.pointed id }

theorem onRepo_updateCurrentBranch (c : Checkout) (id : ObjectId) :
    (∀ name, c.repo.refs.CanMove name →
      onRepo (Repository.updateCurrentBranch id) c = some (.ok (), pointed c id)) ∧
    ((∀ name, ¬c.repo.refs.CanMove name) → ∃ e, onRepo (Repository.updateCurrentBranch id) c =
      some (.error e, c)) := by
  obtain ⟨hok, herror⟩ := updateCurrentBranch_spec c.repo id
  constructor
  · intro name hmove
    rw [onRepo, Exec.zoom, hok name hmove]
    rfl
  · intro hno
    obtain ⟨e, he⟩ := herror hno
    refine ⟨e, ?_⟩
    rw [onRepo, Exec.zoom, he]
    rfl

/-- **What follows the move of the current branch** comes down to `y` at `point`, which leaves the
repository if it fails: `HEAD` is kept if it is kept at `point`, or if `y` does not fail. -/
theorem keepsHead_move_bind {id : ObjectId} {x y : Exec Checkout Error Unit} {point : Checkout}
    (hrun : x (pointed c id) = y point)
    (hsame : ∀ e c', y point = some (.error e, c') → c'.repo = point.repo) :
    KeepsHead (onRepo (Repository.updateCurrentBranch id) >>= fun _ => x) c ↔
      ∀ name, c.repo.refs.CanMove name →
        HeadKept c.repo.refs point.repo.refs ∨ ¬y.Fails point := by
  obtain ⟨hok, herror⟩ := onRepo_updateCurrentBranch c id
  by_cases hmove : ∃ name, c.repo.refs.CanMove name
  · obtain ⟨name, hname⟩ := hmove
    have hmoved : (onRepo (Repository.updateCurrentBranch id) >>= fun _ => x) c = y point := by
      rw [Exec.bind_apply, Exec.andThen, hok name hname]
      exact hrun
    constructor
    · intro hkeeps _ _
      by_cases hfails : y.Fails point
      · obtain ⟨e, c', he⟩ := hfails
        have hkept := hkeeps e c' (hmoved.trans he)
        rw [hsame e c' he] at hkept
        exact Or.inl hkept
      · exact Or.inr hfails
    · intro hsafe e c' he
      rw [hmoved] at he
      rcases hsafe name hname with hkept | hreturns
      · rw [hsame e c' he]
        exact hkept
      · exact absurd ⟨e, c', he⟩ hreturns
  · -- where the branch is not moved nothing is
    rw [not_exists] at hmove
    obtain ⟨e, he⟩ := herror hmove
    refine iff_of_true (keepsHead_of_same fun e' c' h => ?_) fun name hname =>
      absurd hname (hmove name)
    rw [Exec.bind_apply, Exec.andThen, he] at h
    cases h
    rfl

/-- What checking a commit out into the work tree needs, if there is one: the commit is read, and
the work tree can be switched to its tree, where `files` are in the git directory.  What is no
commit is passed over. -/
def CommitCheckable (depth : Nat) (work : Option (List Bytes)) (odb : CombinedOdb)
    (files : Files) (disk : Disk) (id : ObjectId) : Prop :=
  ∀ dir, work = some dir → ∃ object, readObject odb id = .ok object ∧
    ∀ commit flattened, object = .commit commit → (flattenTree depth odb commit.tree).run =
      some flattened →
      Switchable odb files disk commit.tree dir flattened

/-- **Why a commit is not checked out into the work tree.** -/
theorem checkoutCommitWorktree_fails {id : ObjectId} :
    (checkoutCommitWorktree depth work id).Fails c ↔
    ¬CommitCheckable depth work c.repo.odb c.repo.fs.get? c.disk id := by
  cases work with
  | none =>
    exact iff_of_false (Exec.not_fails_pure ()) fun h => h fun dir hdir => absurd hdir (by simp)
  | some dir =>
    simp only [CommitCheckable, Option.some.injEq, forall_eq', checkoutCommitWorktree,
      Exec.fails_read_bind]
    cases hread : readObject c.repo.odb id with
    | error e =>
      refine iff_of_true (fun _ h => by cases h) ?_
      rintro ⟨object, h, -⟩
      cases h
    | ok object =>
      simp only [Except.ok.injEq, forall_eq', exists_eq_left']
      cases object with
      | commit commit =>
        rw [switchWorktree_fails]
        simp only [Object.commit.injEq, not_forall, exists_prop, exists_and_left, exists_eq_left']
      | tree t | blob t | tag t =>
        exact iff_of_false (Exec.not_fails_pure ()) fun h =>
          h fun commit _ hcommit => absurd hcommit (by simp)

/-- Where the current branch can be pointed at an id, that can be checked out of the objects `odb`,
or everything resolved to the id anyway. -/
def AdvanceSafe (depth : Nat) (work : Option (List Bytes)) (odb : CombinedOdb) (id : ObjectId)
    (c : Checkout) : Prop :=
  ∀ name, c.repo.refs.CanMove name →
    HeadWithin c.repo.refs (· = id) ∨
      CommitCheckable depth work odb (holding c.repo.fs name id) c.disk id

/-- **An advance that fails keeps `HEAD` just when it is safe.** -/
theorem keepsHead_advance {id : ObjectId} :
    KeepsHead (advance depth work id) c ↔ AdvanceSafe depth work c.repo.odb id c := by
  rw [advance, keepsHead_move_bind rfl fun e c' => checkoutCommitWorktree_error]
  refine forall_congr' fun name => imp_congr_right fun hname => or_congr ?_ ?_
  · rw [pointed, refs_pointed hname]
    exact (points_pointed hname).headKept_direct
  · rw [checkoutCommitWorktree_fails, not_not, pointed, get?_pointed hname]
    rfl

/-- The checkout when the current branch has been reset to a commit, and that has been logged. -/
def resetPoint (sig : Signature) (target : ObjectId) (c : Checkout) : Checkout :=
  { c with
    repo := logReset sig (c.repo.headId.toOption.getD (ObjectId.zero c.repo.algo)) target
      (c.repo.pointed target) }

/-- What a reset to a tree needs beside the ref, by mode, where `files` are in the git directory:
nothing, or that the tree can be read into the index, or that there is a work tree that can be
switched to it. -/
def Resettable (depth : Nat) (work : Option (List Bytes)) (mode : ResetMode) (odb : CombinedOdb)
    (files : Files) (disk : Disk) (tree : ObjectId) : Prop :=
  match mode with
  | .soft => True
  | .mixed => ∀ flattened, (flattenTree depth odb tree).run = some flattened →
    Indexable files flattened
  | .hard => ∃ dir, work = some dir ∧ ∀ flattened, (flattenTree depth odb tree).run =
      some flattened → Switchable odb files disk tree dir flattened

/-- **Why a reset fails behind the move of the ref.** -/
theorem resetTo_fails {mode : ResetMode} : (resetTo depth work mode tree).Fails c ↔
    ¬Resettable depth work mode c.repo.odb c.repo.fs.get? c.disk tree := by
  cases mode with
  | soft => exact iff_of_false (Exec.not_fails_pure ()) fun h => h trivial
  | mixed =>
    rw [resetTo, onRepo, Exec.fails_zoom, readTree_fails]
    simp only [Resettable, not_forall, exists_prop]
  | hard =>
    cases work with
    | none =>
      refine iff_of_true ⟨_, c, rfl⟩ ?_
      rintro ⟨dir, hdir, -⟩
      cases hdir
    | some dir =>
      rw [resetTo, switchWorktree_fails]
      simp only [Resettable, Option.some.injEq, exists_eq_left', not_forall, exists_prop]

/-- Where the index and the store of large files are the same, a reset needs the same. -/
theorem Resettable.congr {mode : ResetMode} {odb : CombinedOdb} {files files' : Files} {disk : Disk}
    (h : ∀ q : List Str, q.head? ≠ some (str "logs") → files q = files' q) :
    Resettable depth work mode odb files disk tree ↔
      Resettable depth work mode odb files' disk tree := by
  have hindex : files [str "index"] = files' [str "index"] := h _ (by decide)
  cases mode with
  | soft => exact Iff.rfl
  | mixed => simp only [Resettable, Indexable, hindex]
  | hard =>
    have hswitch : ∀ dir flattened, Switchable odb files disk tree dir flattened ↔
        Switchable odb files' disk tree dir flattened := fun dir flattened =>
      Switchable.congr hindex fun oid hoid => h _ (by rw [LfsStore.head?_objectPath hoid]; decide)
    simp only [Resettable, hswitch]

/-- The current branch can be reset to a commit, and the index and the work tree as the mode says,
or everything resolved to the target anyway and the branch is not the log of `HEAD`, to which the
reset adds. -/
def ResetSafe (depth : Nat) (work : Option (List Bytes)) (mode : ResetMode) (target : ObjectId)
    (c : Checkout) : Prop :=
  ∀ commit name, (c.repo.readCommit target fun o =>
    .unexpectedType .commit o.objectType) = .ok commit →
    c.repo.refs.CanMove name →
    HeadWithin c.repo.refs (fun id => id = target ∧ name ≠ str "logs/HEAD") ∨
      Resettable depth work mode c.repo.odb (holding c.repo.fs name target) c.disk commit.tree

/-- **A reset that fails keeps `HEAD` just when it is safe.** -/
theorem keepsHead_reset {sig : Signature} {mode : ResetMode} {target : ObjectId} :
    KeepsHead (reset depth work sig mode target) c ↔ ResetSafe depth work mode target c := by
  have hmove : ∀ commit : Commit, KeepsHead (onRepo (Repository.updateCurrentBranch target) >>=
      fun _ => onRepo (Exec.step fun repo => (.ok (),
        logReset sig (c.repo.headId.toOption.getD (ObjectId.zero c.repo.algo)) target repo)) >>=
          fun _ => resetTo depth work mode commit.tree) c ↔ ∀ name, c.repo.refs.CanMove name →
        HeadKept c.repo.refs (resetPoint sig target c).repo.refs ∨
          ¬(resetTo depth work mode commit.tree).Fails (resetPoint sig target c) :=
    fun commit => keepsHead_move_bind rfl fun e c' => resetTo_error
  rw [reset, keepsHead_read_bind, ResetSafe]
  refine forall_congr' fun commit => ?_
  rw [forall_comm]
  refine imp_congr_right fun _ => ?_
  simp only [keepsHead_read_bind, Except.ok.injEq, forall_eq', hmove]
  refine forall_congr' fun name => imp_congr_right fun hname => or_congr ?_ ?_
  · have hpoints := @points_pointed _ _ target hname
    rw [← refs_pointed hname] at hpoints
    exact headKept_logReset sig _ hpoints
  · obtain ⟨hodb, hfiles⟩ :=
      logReset_other sig (c.repo.headId.toOption.getD (ObjectId.zero c.repo.algo)) target
        (c.repo.pointed target)
    rw [← get?_pointed hname, resetTo_fails, not_not, resetPoint, hodb]
    exact Resettable.congr hfiles

/-- What follows a computation beside the refs keeps `HEAD` where that succeeds. -/
theorem keepsHead_onRepo_bind {α β : Type} {x : Exec Repository Error α}
    {g : α → Exec Checkout Error β} (hx : Exec.Keeps SameRefs x) : KeepsHead (onRepo x >>= g) c ↔
      ∀ a repo', x c.repo = some (.ok a, repo') → KeepsHead (g a) { c with repo := repo' } := by
  constructor
  · intro hkeeps a repo' ha e c' h
    have hrefs : repo'.refs = c.repo.refs := hx _ _ _ ha
    have hrun : onRepo x c = some (.ok a, { c with repo := repo' }) := by
      rw [onRepo, Exec.zoom, ha]
      rfl
    have hkept := hkeeps e c' (Exec.bind_error.mpr (Or.inr ⟨a, _, hrun, h⟩))
    rwa [← hrefs] at hkept
  · intro hkeeps e c' h
    rcases Exec.bind_error.mp h with h | ⟨a, c₁, hrun, h⟩
    · obtain ⟨⟨r, repo'⟩, hx', hc⟩ := Option.map_eq_some_iff.mp h
      obtain ⟨-, rfl⟩ := Prod.mk.inj hc
      have hrefs : repo'.refs = c.repo.refs := hx _ _ _ hx'
      show HeadKept c.repo.refs repo'.refs
      rw [hrefs]
      exact headKept_refl _
    · obtain ⟨⟨r, repo'⟩, hx', hc⟩ := Option.map_eq_some_iff.mp hrun
      obtain ⟨rfl, rfl⟩ := Prod.mk.inj hc
      have hrefs : repo'.refs = c.repo.refs := hx _ _ _ hx'
      have hkept := hkeeps a repo' hx' e c' h
      rwa [hrefs] at hkept

theorem keepsHead_bind_pure {α β : Type} {x : Exec Checkout Error α} {b : β} :
    KeepsHead (x >>= fun _ => pure b) c ↔ KeepsHead x c := by
  refine keepsHead_congr fun e c' => ?_
  rw [Exec.bind_error]
  refine ⟨fun h => ?_, Or.inl⟩
  rcases h with h | ⟨_, _, -, h⟩
  · exact h
  · cases h

theorem keepsHead_pure {α : Type} (a : α) : KeepsHead (pure a) c := by
  intro e c' h
  cases h

/-- The tree of a commit of a store. -/
def TreeOf (odb : CombinedOdb) (id tree : ObjectId) : Prop :=
  ∃ commit, readObject odb id = .ok (.commit commit) ∧ commit.tree = tree

/-- Merging the trees of two commits of a store leads to no conflict, and the merged tree and a
commit of it can be written, which gives the store `odb'`. -/
def MergesTo (depth : Nat) (odb : CombinedOdb) (ours theirs : ObjectId)
    (author committer : Signature) (message : Bytes) (id : ObjectId) (odb' : CombinedOdb) : Prop :=
  ∃ base baseTree oursTree theirsTree result merged, mergeBase odb ours theirs = .ok base ∧
    Option.Rel (TreeOf odb) base baseTree ∧ TreeOf odb ours oursTree ∧
      TreeOf odb theirs theirsTree ∧
    mergeTrees depth baseTree oursTree theirsTree odb = some (.ok result, merged) ∧
      result.conflicts = [] ∧
    write merged .commit (Commit.mk result.tree [ours, theirs] author committer
      [] message).serialize = (.ok id, odb')

theorem commitTree_ok {repo : Repository} {id tree : ObjectId} :
    repo.commitTree id = .ok tree ↔ TreeOf repo.odb id tree := by
  rw [commitTree, except_map_ok, TreeOf]
  refine exists_congr fun commit => and_congr_left fun _ => ?_
  constructor
  · intro h
    obtain ⟨o, ho, h⟩ := except_bind_ok.mp h
    cases o with
    | commit commit' =>
      cases h
      exact ho
    | tree | blob | tag => cases h
  · intro h
    exact except_bind_ok.mpr ⟨_, h, rfl⟩

theorem onOdb_ok {α : Type} {x : Exec CombinedOdb Error α} {repo repo' : Repository} {a : α} :
    Repository.onOdb x repo = some (.ok a, repo') ↔ ∃ odb', x repo.odb = some (.ok a, odb') ∧
      repo' = { repo with odb := odb' } := by
  rw [Repository.onOdb, Exec.zoom, Option.map_eq_some_iff]
  constructor
  · rintro ⟨⟨r, odb'⟩, hrun, h⟩
    obtain ⟨rfl, rfl⟩ := Prod.mk.inj h
    exact ⟨odb', hrun, rfl⟩
  · rintro ⟨odb', hrun, rfl⟩
    exact ⟨_, hrun, rfl⟩

/-- Two commits are merged where their trees are, in the store alone. -/
theorem mergeCommits_merged {repo repo' : Repository} {ours theirs id : ObjectId}
    {author committer : Signature} {message : Bytes} :
    mergeCommits depth ours theirs author committer message repo = some (.ok (.merged id), repo') ↔
      ∃ odb', MergesTo depth repo.odb ours theirs author committer message id odb' ∧
        repo' = { repo with odb := odb' } := by
  have hbase : ∀ {base : Option ObjectId} {baseTree : Option ObjectId}, (match base with
      | some id => (repo.commitTree id).map some
      | none => .ok none : Except Error (Option ObjectId)) = .ok baseTree ↔
          Option.Rel (TreeOf repo.odb) base baseTree := by
    intro base baseTree
    cases base with
    | none => cases baseTree <;> simp
    | some b =>
      simp only [except_map_ok, commitTree_ok]
      constructor
      · rintro ⟨t, ht, rfl⟩
        exact .some ht
      · rintro (⟨ht⟩ | -)
        exact ⟨_, ht, rfl⟩
  rw [mergeCommits]
  simp only [Exec.read_bind_ok, hbase, commitTree_ok]
  constructor
  · rintro ⟨base, hb, baseTree, hbt, oursTree, hot, theirsTree, htt, h⟩
    obtain ⟨result, repo₁, hresult, h⟩ := Exec.bind_ok.mp h
    obtain ⟨merged, hmerge, rfl⟩ := onOdb_ok.mp hresult
    by_cases hclean : result.conflicts = []
    · rw [if_neg (by simp [hclean])] at h
      obtain ⟨id', repo₂, hput, h⟩ := Exec.bind_ok.mp h
      obtain ⟨odb', hwrite, rfl⟩ := onOdb_ok.mp hput
      obtain ⟨hid, rfl⟩ := Prod.mk.inj (Option.some.inj h)
      cases hid
      exact ⟨odb', ⟨base, baseTree, oursTree, theirsTree, result, merged, hb, hbt, hot, htt,
        hmerge, hclean,
        Option.some.inj hwrite⟩, rfl⟩
    · rw [if_pos (by simpa using hclean)] at h
      cases h
  · rintro ⟨odb', ⟨base, baseTree, oursTree, theirsTree, result, merged, hb, hbt, hot, htt, hmerge,
      hclean, hwrite⟩, rfl⟩
    refine ⟨base, hb, baseTree, hbt, oursTree, hot, theirsTree, htt, ?_⟩
    refine Exec.bind_ok.mpr ⟨result, { repo with odb := merged },
      onOdb_ok.mpr ⟨merged, hmerge, rfl⟩, ?_⟩
    rw [if_neg (by simp [hclean])]
    exact Exec.bind_ok.mpr ⟨id, { repo with odb := odb' },
      onOdb_ok.mpr ⟨odb', congrArg some hwrite, rfl⟩, rfl⟩

/-- Where a merge gets to moving the current branch, to `theirs` or to a commit of the merged tree,
that can be checked out, or everything resolved to it anyway. -/
def MergeSafe (depth : Nat) (work : Option (List Bytes)) (theirs : ObjectId)
    (author committer : Signature) (message : Bytes) (c : Checkout) : Prop :=
  ∀ ours, c.repo.headId = .ok ours → ours ≠ theirs → isAncestor c.repo.odb theirs ours = .ok false →
    (isAncestor c.repo.odb ours theirs = .ok true → AdvanceSafe depth work c.repo.odb theirs c) ∧
    (isAncestor c.repo.odb ours theirs = .ok false → ∀ id odb',
      MergesTo depth c.repo.odb ours theirs author committer message id odb' →
        AdvanceSafe depth work odb' id c)

/-- **A merge that fails keeps `HEAD` just when it is safe.** -/
theorem keepsHead_merge {theirs : ObjectId} {author committer : Signature} {message : Bytes} :
    KeepsHead (merge depth work theirs author committer message) c ↔
      MergeSafe depth work theirs author committer message c := by
  rw [merge, keepsHead_read_bind, MergeSafe]
  refine forall_congr' fun ours => imp_congr_right fun _ => ?_
  by_cases heq : ours = theirs
  · rw [if_pos heq]
    exact iff_of_true (keepsHead_pure _) fun hne => absurd heq hne
  rw [if_neg heq, keepsHead_read_bind]
  simp only [ne_eq, heq, not_false_eq_true, true_imp_iff]
  have hadvance : ∀ {id : ObjectId} {repo' : Repository},
      mergeCommits depth ours theirs author committer message c.repo =
        some (.ok (.merged id), repo') →
      (AdvanceSafe depth work repo'.odb id { c with repo := repo' } ↔
        AdvanceSafe depth work repo'.odb id c) := by
    intro id repo' hmerged
    have hrefs : repo'.refs = c.repo.refs := sameRefs_mergeCommits _ _ _ hmerged
    have hfs : repo'.fs = c.repo.fs := congrArg RefStore.vfs hrefs
    simp only [AdvanceSafe, hrefs, hfs]
  constructor
  · intro hkeeps hbehind
    have hahead := hkeeps false hbehind
    rw [if_neg Bool.false_ne_true, keepsHead_read_bind] at hahead
    refine ⟨fun htrue => ?_, fun hfalse id odb' hmerges => ?_⟩
    · have hsafe := hahead true htrue
      rw [if_pos rfl, keepsHead_bind_pure, keepsHead_advance] at hsafe
      exact hsafe
    · have hmerged := mergeCommits_merged.mpr ⟨odb', hmerges, rfl⟩
      have hsafe := hahead false hfalse
      rw [if_neg Bool.false_ne_true, keepsHead_onRepo_bind sameRefs_mergeCommits] at hsafe
      exact (hadvance hmerged).mp (keepsHead_advance.mp
        (keepsHead_bind_pure.mp (hsafe _ _ hmerged)))
  · intro hsafe behind hbehind
    cases behind with
    | true => exact keepsHead_pure _
    | false =>
      rw [if_neg Bool.false_ne_true, keepsHead_read_bind]
      intro ahead hahead
      cases ahead with
      | true =>
        rw [if_pos rfl, keepsHead_bind_pure, keepsHead_advance]
        exact (hsafe hbehind).1 hahead
      | false =>
        rw [if_neg Bool.false_ne_true, keepsHead_onRepo_bind sameRefs_mergeCommits]
        intro outcome repo' hmerged
        cases outcome with
        | merged id =>
          obtain ⟨odb', hmerges, rfl⟩ := mergeCommits_merged.mp hmerged
          exact keepsHead_bind_pure.mpr (keepsHead_advance.mpr
            ((hadvance hmerged).mpr ((hsafe hbehind).2 hahead id odb' hmerges)))
        | alreadyUpToDate => exact keepsHead_pure _
        | fastForward tip => exact keepsHead_pure _
        | conflicts paths => exact keepsHead_pure _

namespace ResetSample

def sig : Signature := ⟨bytes "a", bytes "b", 0, bytes "+0000"⟩

/-- A commit with a message. -/
def commitOf (message : String) : Bytes :=
  (Commit.mk (ObjectId.zero .sha1) [] sig sig [] (bytes message)).serialize

def first : ObjectId := hashObject Hasher.sha .sha1 .commit (commitOf "1")

def second : ObjectId := hashObject Hasher.sha .sha1 .commit (commitOf "2")

/-- Two commits, the first on the branch of `HEAD`. -/
def store : Exec Repository Error Unit := do
  let _ ← Repository.onOdb (put .commit (commitOf "1"))
  let _ ← Repository.onOdb (put .commit (commitOf "2"))
  Repository.updateCurrentBranch first

def bare : Checkout :=
  ⟨((store (.init .stored .sha .sha1)).map (·.2)).getD (.init .stored .sha .sha1), FileTree.empty⟩

/-- A hard reset of the bare repository fails, and the branch has moved. -/
theorem reset_fails :
    ((reset 1 none sig .hard second bare).map fun r => (r.1.toBool, r.2.repo.headId.toOption)) =
      some (false, some second) ∧ bare.repo.headId.toOption = some first ∧ first ≠ second := by
  decide +kernel

end ResetSample

end Worktree
end Puregit
