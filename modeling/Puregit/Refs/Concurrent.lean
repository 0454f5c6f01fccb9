import Puregit.Lib.Publish
import Puregit.Refs.Store

/-! # Writers at the same time

`RefStore.update` and `RefStore.delete` are several operations of the file system each, and other
writers may come in between.  Here any number of writers take turns at these operations, in any
order, each with any sequence of calls.  A lock file is a draft in the sense of `Publish`: it is
created where there was none, filled, and renamed into place.  Making the directories of a lock and
opening it is one step, and so is a write of any other file, which is made beside it and renamed
over it.

`Shared.run_safe` is what holds at any time: one writer at most holds the lock of a ref, a ref never
holds anything but what a writer has finished to write, and an update reports ok just when it takes
effect.  For updates alone, `Shared.run_linearizable` says that what the refs hold is what the
updates that reported ok leave when they are made one after the other, in the order they reported.
-/
namespace Puregit
namespace RefStore

/-- A call that changes a ref. -/
inductive Call where
  | update (name : Str) (value : Reference)
  | delete (name : Str)

/-- Where a writer is in its call. -/
inductive Phase where
  | idle
  /-- The lock file is there, and empty. -/
  | created (name : Str) (value : Reference)
  /-- The lock file holds the value. -/
  | written (name : Str) (value : Reference)
  /-- The lock file could not be renamed. -/
  | refused (name : Str) (value : Reference) (e : Error)
  /-- The ref to be deleted has a loose file. -/
  | found (name : Str)
  /-- It has none any more. -/
  | cleared (name : Str)
  /-- There are packed refs. -/
  | unpacking (name : Str)
  /-- They are to be rewritten. -/
  | rewriting (name : Str) (contents : Bytes)

/-- What takes effect on a file. -/
inductive Publication where
  | wrote (name : Str) (value : Reference)
  | removed (name : Str)
  | packed (contents : Bytes)

/-- The file of a publication, and what it holds then. -/
def Publication.pair : Publication → List Str × Option Bytes
  | .wrote name value => (refPath name, some value.toFileContents)
  | .removed name => (refPath name, none)
  | .packed contents => (packedPath, some contents)

/-- What one operation of a writer comes to. -/
structure Move where
  fs : GitDir
  phase : Phase
  publication : Option Publication
  result : Option (Call × Except Error Unit)

/-- A move that only leads on. -/
def Move.on (fs : GitDir) (phase : Phase) : Move := ⟨fs, phase, none, none⟩

/-- A move that ends a call. -/
def Move.done (fs : GitDir) (call : Call) (r : Except Error Unit) : Move :=
  ⟨fs, .idle, none, some (call, r)⟩

/-- Fills the lock file that was created. -/
def fillLock (fs : GitDir) (name : Str) (data : Bytes) : GitDir :=
  if (fs.leaf? (lockPath name)).isSome then (fs.putLeaf (lockPath name) data).getD fs else fs

/-- What packed refs are to be rewritten as to drop the entries of a ref, if they have any. -/
def withoutPacked (algo : HashAlgo) (name : Str) (contents : Bytes) :
    Except Error (Option Bytes) := do
  let entries ← parsePackedRefs algo contents
  if entries.any fun e => e.name = name then
    .ok (some (serializePackedRefs (entries.filter fun e => e.name ≠ name)))
  else .ok none

/-- Begins a call. -/
def begin (fs : GitDir) : Call → Move
  | .update name value =>
    if !isValidRefName name && name ≠ str "HEAD" then
      .done fs (.update name value) (.error (.reference (str "invalid ref name " ++ debugStr name)))
    else match Vfs.createNew fs (lockName name) [] with
      | .ok fs => .on fs (.created name value)
      | .error _ => .done fs (.update name value) (.error
        (.reference (str "cannot lock ref " ++ debugStr name ++
          str ": it is already locked (another update in progress?)")))
  | .delete name => .on fs (if Vfs.pathExists fs name then .found name else .cleared name)

/-- The next operation of a writer; one that is idle begins the call. -/
def Phase.move (algo : HashAlgo) (fs : GitDir) (call : Call) : Phase → Move
  | .idle => begin fs call
  | .created name value => .on (fillLock fs name value.toFileContents) (.written name value)
  | .written name value =>
    match Vfs.rename fs (lockName name) name with
    | .ok fs => ⟨fs, .idle, some (.wrote name value), some (.update name value, .ok ())⟩
    | .error e => .on fs (.refused name value e)
  | .refused name value e =>
    .done ((Vfs.removeFile fs (lockName name)).toOption.getD fs) (.update name value) (.error e)
  | .found name =>
    match Vfs.removeFile fs name with
    | .ok fs => ⟨fs, .cleared name, some (.removed name), none⟩
    | .error e => .done fs (.delete name) (.error e)
  | .cleared name =>
    if Vfs.pathExists fs (str "packed-refs") then .on fs (.unpacking name)
    else .done fs (.delete name) (.ok ())
  | .unpacking name =>
    match Vfs.read fs (str "packed-refs") >>= withoutPacked algo name with
    | .ok (some contents) => .on fs (.rewriting name contents)
    | .ok none => .done fs (.delete name) (.ok ())
    | .error e => .done fs (.delete name) (.error e)
  | .rewriting name contents =>
    match Vfs.write fs (str "packed-refs") contents with
    | .ok fs => ⟨fs, .idle, some (.packed contents), some (.delete name, .ok ())⟩
    | .error e => .done fs (.delete name) (.error e)

/-- A git directory with its writers, what has taken effect, and what the calls returned; the
newest first. -/
structure Shared (ι : Type) where
  fs : GitDir
  phase : ι → Phase
  published : List Publication
  returned : List (ι × Call × Except Error Unit)

namespace Shared
variable {ι : Type} [DecidableEq ι]

/-- Nobody writes. -/
def start (fs : GitDir) : Shared ι := ⟨fs, fun _ => .idle, [], []⟩

/-- A writer makes a move. -/
def after (s : Shared ι) (i : ι) (m : Move) : Shared ι :=
  ⟨m.fs, Function.update s.phase i m.phase, m.publication.toList ++ s.published,
    (m.result.map (i, ·)).toList ++ s.returned⟩

/-- A writer makes its next move, which begins the call if it is idle. -/
def step (algo : HashAlgo) (s : Shared ι) (turn : ι × Call) : Shared ι :=
  s.after turn.1 ((s.phase turn.1).move algo s.fs turn.2)

/-- The writers take turns. -/
def run (algo : HashAlgo) (s : Shared ι) (turns : List (ι × Call)) : Shared ι :=
  turns.foldl (step algo) s

end Shared

/-! ## The files of a move -/

variable {fs fs' : GitDir} {name : Str} {data : Bytes}

/-- The path of some lock file. -/
def IsLock (p : List Str) : Prop := ∃ name, lockPath name = p

theorem not_isLock_refPath (h : IsRefName name) : ¬IsLock (refPath name) := by
  rintro ⟨other, heq⟩
  exact lockPath_ne_refPath h heq

theorem not_isLock_packedPath : ¬IsLock packedPath := by
  rintro ⟨name, heq⟩
  have hlast := congrArg List.getLast? heq
  rw [lockPath_eq, List.getLast?_concat] at hlast
  have hend := List.suffix_append ((refPath name).getLast (refPath_ne_nil name)) (str ".lock")
  rw [Option.some.inj hlast] at hend
  revert hend
  decide

/-- A draft: the lock file of an update that has one. -/
def Phase.draft : Phase → Option (Publish.Draft (List Str) Bytes)
  | .created name _ => some ⟨lockPath name, []⟩
  | .written name value | .refused name value _ => some ⟨lockPath name, value.toFileContents⟩
  | _ => none

/-- The writer holds the lock of the ref. -/
def Phase.Holds (name : Str) (phase : Phase) : Prop :=
  phase.draft.map (·.cell) = some (lockPath name)

/-- A file set or removed, with the directories as they are. -/
theorem leaf?_of_get? {p : List Str} {v : Option Bytes} (hp : fs.get? p ≠ some .dir)
    (h : ∀ q, fs'.get? q = if q = p then v.map .leaf else fs.get? q) :
    fs'.leaf? = Function.update fs.leaf? p v ∧ ∀ q, fs.get? q = some .dir →
      fs'.get? q = some .dir := by
  refine ⟨funext fun q => ?_, fun q hq => ?_⟩
  · by_cases hqp : q = p
    · subst hqp
      rw [Function.update_self, FileTree.leaf?, h, if_pos rfl]
      cases v with
      | none => rfl
      | some d => rfl
    · rw [Function.update_of_ne hqp, FileTree.leaf?, FileTree.leaf?, h, if_neg hqp]
  · have hne : q ≠ p := fun heq => hp (heq ▸ hq)
    rw [h, if_neg hne]
    exact hq

theorem leaf?_of_leaf {p : List Str} {d : Bytes} (h : fs.leaf? p = some d) :
    fs.get? p ≠ some .dir := by
  rw [FileTree.leaf?_eq_some.mp h]
  exact fun hd => by cases hd

theorem leaf?_createNew (hname : IsRefName name)
    (h : Vfs.createNew fs (lockName name) data = .ok fs') :
    fs'.leaf? = Function.update fs.leaf? (lockPath name) (some data) ∧
      fs.leaf? (lockPath name) = none ∧
      ∀ p, fs.get? p = some .dir → fs'.get? p = some .dir := by
  obtain ⟨hway, hfree, hget⟩ := (createNew_lock hname fs data).1 fs' h
  refine ⟨funext fun p => ?_, by rw [FileTree.leaf?, hfree], fun p hp => ?_⟩
  · by_cases hp : p = lockPath name
    · subst hp
      rw [Function.update_self, FileTree.leaf?_eq_some, hget, if_pos rfl]
    · rw [Function.update_of_ne hp]
      by_cases hdir : p <+: (refPath name).dropLast
      · -- a directory made for the lock, or one that was there
        rw [FileTree.leaf?, hget, if_neg hp, if_pos hdir]
        cases hl : fs.leaf? p with
        | none => rfl
        | some d => exact absurd (FileTree.leaf?_eq_some.mp hl) (hway p d hdir)
      · rw [FileTree.leaf?, FileTree.leaf?, hget, if_neg hp, if_neg hdir]
  · have hne : p ≠ lockPath name := by
      rintro rfl
      rw [hfree] at hp
      cases hp
    rw [hget, if_neg hne]
    split
    · rfl
    · exact hp

theorem leaf?_fillLock {d : Bytes} (h : fs.leaf? (lockPath name) = some d) :
    (fillLock fs name data).leaf? = Function.update fs.leaf? (lockPath name) (some data) ∧
      ∀ p, fs.get? p = some .dir → (fillLock fs name data).get? p = some .dir := by
  have hdir := leaf?_of_leaf h
  obtain ⟨fs', hput⟩ := Option.isSome_iff_exists.mp (FileTree.putLeaf_isSome
    (t := fs) (p := lockPath name) (d := data) |>.mpr ⟨lockPath_ne_nil name,
      FileTree.get?_dropLast (lockPath_ne_nil name) (FileTree.leaf?_eq_some.mp h), hdir⟩)
  have hfill : fillLock fs name data = fs' := by
    rw [fillLock, h, Option.isSome_some, if_pos rfl, hput, Option.getD_some]
  rw [hfill]
  exact leaf?_of_get? hdir fun q => FileTree.get?_putLeaf hput q

theorem leaf?_removeFile {p : List Str} (hr : Vfs.resolve name = .ok ⟨p, false⟩)
    (h : Vfs.removeFile fs name = .ok fs') : fs'.leaf? = Function.update fs.leaf? p none ∧
      ∀ q, fs.get? q = some .dir → fs'.get? q = some .dir := by
  obtain ⟨p', hr', hremove⟩ := Vfs.removeFile_ok.mp h
  cases hr.symm.trans hr'
  obtain ⟨d, hd⟩ := FileTree.removeLeaf_isSome.mp (Option.isSome_iff_exists.mpr ⟨fs', hremove⟩)
  exact leaf?_of_get? (by rw [hd]; exact fun hdir => by cases hdir) fun q =>
    FileTree.get?_removeLeaf hremove q

/-- A lock that is held is renamed unless a directory is there. -/
theorem leaf?_rename (hname : IsRefName name) (hlock : fs.leaf? (lockPath name) = some data)
    (h : Vfs.rename fs (lockName name) name = .ok fs') :
    fs'.leaf? = Function.update (Function.update fs.leaf? (lockPath name) none)
      (refPath name) (some data) ∧
      fs.get? (refPath name) ≠ some .dir ∧ ∀ q, fs.get? q = some .dir → fs'.get? q = some .dir := by
  obtain ⟨-, hspec⟩ := @commitLock_spec ⟨fs, .sha1⟩ name data hname
    (FileTree.leaf?_eq_some.mp hlock)
  have hcommit : commitLock ⟨fs, .sha1⟩ name = (.ok (), ⟨fs', .sha1⟩) := by
    rw [commitLock, h]
  rw [hcommit] at hspec
  split at hspec
  · obtain ⟨⟨e, he⟩, -⟩ := hspec
    cases he
  rename_i hdir
  have hget := hspec.2
  have hlockDir := leaf?_of_leaf hlock
  refine ⟨funext fun q => ?_, hdir, fun q hq => ?_⟩
  · by_cases hq : q = refPath name
    · subst hq
      rw [Function.update_self, FileTree.leaf?_eq_some, hget, if_pos rfl]
    · rw [Function.update_of_ne hq, FileTree.leaf?, hget, if_neg hq]
      by_cases hq' : q = lockPath name
      · subst hq'
        rw [Function.update_self, if_pos rfl]
      · rw [Function.update_of_ne hq', if_neg hq', FileTree.leaf?]
  · rw [hget, if_neg fun heq : q = refPath name => hdir (heq ▸ hq),
      if_neg fun heq : q = lockPath name => hlockDir (heq ▸ hq)]
    exact hq

theorem leaf?_writePacked (h : Vfs.write fs (str "packed-refs") data = .ok fs') :
    fs'.leaf? = Function.update fs.leaf? packedPath (some data) ∧
      ∀ q, fs.get? q = some .dir → fs'.get? q = some .dir := by
  have hget := Vfs.get?_write resolve_packed h
  have hdir : fs.get? packedPath ≠ some .dir := by
    obtain ⟨r, hr, hrest⟩ := except_bind_ok.mp h
    cases resolve_packed.symm.trans hr
    obtain ⟨fs₁, hdirs, hput⟩ := except_bind_ok.mp hrest
    intro hd
    rw [Vfs.makeDirs_ok] at hdirs
    rw [Vfs.replaceFile, if_pos (FileTree.isDir_iff.mpr ?_)] at hput
    · cases hput
    · rw [FileTree.get?_createDirAll hdirs, hd]
      split
      · rfl
      · rfl
  refine leaf?_of_get? hdir fun q => ?_
  rw [hget]
  split
  · rfl
  split
  · rename_i hroot
    rw [List.prefix_nil.mp hroot]
    exact fs.root.symm
  · rfl

/-! ## Any time -/

/-- The names of a call that is under way are names of refs. -/
def Phase.Named : Phase → Prop
  | .idle => True
  | .created name _ | .written name _ | .refused name _ _ | .found name | .cleared
    name | .unpacking name
  | .rewriting name _ => IsRefName name

/-- A call that names no ref but a delete would be refused at once. -/
def Call.Valid : Call → Prop
  | .update _ _ => True
  | .delete name => IsRefName name

instance (call : Call) : Decidable call.Valid :=
  match call with
  | .update _ _ => inferInstanceAs (Decidable True)
  | .delete name => inferInstanceAs (Decidable (IsRefName name))

/-- The update that took effect. -/
def Publication.update? : Publication → Option (Str × Reference)
  | .wrote name value => some (name, value)
  | .removed _ | .packed _ => none

/-- The update that reported ok. -/
def okUpdate {ι : Type} : ι × Call × Except Error Unit → Option (Str × Reference)
  | (_, .update name value, .ok _) => some (name, value)
  | _ => none

namespace Shared
variable {ι : Type}

/-- What `Publish` sees. -/
def view (s : Shared ι) : Publish.State ι (List Str) Bytes :=
  ⟨s.fs.leaf?, fun i => (s.phase i).draft, s.published.map Publication.pair⟩

/-- What holds at any time after the files were `fs₀` and nobody wrote. -/
structure Inv (fs₀ : GitDir) (s : Shared ι) : Prop where
  safe : Publish.Safe IsLock fs₀.leaf? s.view
  named : ∀ i, (s.phase i).Named
  reported : s.returned.filterMap okUpdate = s.published.filterMap Publication.update?
  dirs : ∀ p, fs₀.get? p = some .dir → s.fs.get? p = some .dir

theorem inv_start (fs : GitDir) : Inv fs (start fs : Shared ι) where
  safe := Publish.Safe.start _
  named _ := trivial
  reported := rfl
  dirs _ h := h

variable [DecidableEq ι] {s : Shared ι} {i : ι} {m : Move}

theorem view_after :
    (s.after i m).view = ⟨m.fs.leaf?, Function.update s.view.drafts i m.phase.draft,
    m.publication.toList.map Publication.pair ++ s.view.published⟩ := by
  have hdrafts : (s.after i m).view.drafts = Function.update s.view.drafts i m.phase.draft := by
    funext j
    show (Function.update s.phase i m.phase j).draft =
      Function.update (fun j => (s.phase j).draft) i m.phase.draft j
    by_cases hj : j = i
    · rw [hj, Function.update_self, Function.update_self]
    · rw [Function.update_of_ne hj, Function.update_of_ne hj]
  have hpublished : (s.after i m).view.published =
      m.publication.toList.map Publication.pair ++ s.view.published := List.map_append
  rw [← hdrafts, ← hpublished]
  rfl

/-- What a move has to be for nothing to go wrong. -/
structure Move.Sound (fs₀ : GitDir) (s : Shared ι) (i : ι) (m : Move) : Prop where
  safe : Publish.Safe IsLock fs₀.leaf? (s.after i m).view
  named : m.phase.Named
  reported : (m.result.map (i, ·)).toList.filterMap okUpdate =
    m.publication.toList.filterMap Publication.update?
  dirs : ∀ p, s.fs.get? p = some .dir → m.fs.get? p = some .dir

/-- A move that changes no file and keeps the draft. -/
theorem Inv.quiet {fs₀ : GitDir} {phase : Phase} {result : Option (Call × Except Error Unit)}
    (h : Inv fs₀ s) (hdraft : phase.draft = (s.phase i).draft) (hnamed : phase.Named)
    (hresult : (result.map (i, ·)).toList.filterMap okUpdate = []) :
    Move.Sound fs₀ s i ⟨s.fs, phase, none, result⟩ where
  safe := by
    have hview : (s.after i ⟨s.fs, phase, none, result⟩).view = s.view := by
      rw [view_after, hdraft, show (s.phase i).draft = s.view.drafts i from rfl,
        Function.update_eq_self]
      rfl
    rw [hview]
    exact h.safe
  named := hnamed
  reported := hresult
  dirs _ hp := hp

/-- A call begins. -/
theorem Inv.begin_sound {fs₀ : GitDir} {call : Call} (h : Inv fs₀ s) (hcall : call.Valid)
    (hidle : s.phase i = .idle) :
    Move.Sound fs₀ s i (begin s.fs call) := by
  have hdraft : (s.phase i).draft = none := congrArg Phase.draft hidle
  cases call with
  | update name value =>
    rw [begin]
    by_cases hname : IsRefName name
    · rw [if_neg (by rcases hname with hv | rfl <;> simp [*])]
      cases hfs : Vfs.createNew s.fs (lockName name) [] with
      | error e => exact h.quiet hdraft.symm trivial rfl
      | ok fs =>
        obtain ⟨hleaf, hfree, hdirs⟩ := leaf?_createNew hname hfs
        refine ⟨?_, hname, rfl, hdirs⟩
        rw [view_after]
        have hsafe := h.safe.create [] hdraft ⟨name, rfl⟩ hfree
        rw [show s.view.cells = s.fs.leaf? from rfl, ← hleaf] at hsafe
        exact hsafe
    · rw [IsRefName, not_or] at hname
      rw [if_pos (by simp [hname.1, hname.2])]
      exact h.quiet hdraft.symm trivial rfl
  | delete name =>
    rw [begin]
    by_cases hexists : Vfs.pathExists s.fs name = true
    · rw [if_pos hexists]
      exact h.quiet hdraft.symm hcall rfl
    · rw [if_neg hexists]
      exact h.quiet hdraft.symm hcall rfl

/-- Whatever a writer does next, nothing goes wrong. -/
theorem Inv.move_sound {fs₀ : GitDir} {call : Call} (h : Inv fs₀ s) (algo : HashAlgo)
    (hcall : call.Valid) :
    Move.Sound fs₀ s i ((s.phase i).move algo s.fs call) := by
  have hnamed := h.named i
  have hheld := h.safe.held i
  cases hphase : s.phase i with
  | idle => exact h.begin_sound hcall hphase
  | created name value =>
    have hdraft : s.view.drafts i = some ⟨lockPath name, []⟩ := congrArg Phase.draft hphase
    obtain ⟨hleaf, hdirs⟩ := @leaf?_fillLock s.fs name value.toFileContents _ (hheld _ hdraft).2
    rw [hphase] at hnamed
    refine ⟨?_, hnamed, rfl, hdirs⟩
    rw [view_after]
    have hsafe := h.safe.fill value.toFileContents hdraft
    rw [show s.view.cells = s.fs.leaf? from rfl, ← hleaf] at hsafe
    exact hsafe
  | written name value =>
    have hdraft : s.view.drafts i = some ⟨lockPath name, value.toFileContents⟩ :=
      congrArg Phase.draft hphase
    rw [hphase] at hnamed
    rw [Phase.move]
    cases hfs : Vfs.rename s.fs (lockName name) name with
    | error e => exact h.quiet (by rw [hphase]; rfl) hnamed rfl
    | ok fs =>
      obtain ⟨hleaf, -, hdirs⟩ := leaf?_rename hnamed (hheld _ hdraft).2 hfs
      refine ⟨?_, trivial, rfl, hdirs⟩
      rw [view_after]
      have hsafe := h.safe.publish hdraft (not_isLock_refPath hnamed)
      rw [show s.view.cells = s.fs.leaf? from rfl, ← hleaf] at hsafe
      exact hsafe
  | refused name value e =>
    have hdraft : s.view.drafts i = some ⟨lockPath name, value.toFileContents⟩ :=
      congrArg Phase.draft hphase
    rw [hphase] at hnamed
    -- the lock is there, so it can be removed
    obtain ⟨fs, hremove⟩ := Option.isSome_iff_exists.mp (FileTree.removeLeaf_isSome.mpr
      ⟨_, FileTree.leaf?_eq_some.mp (hheld _ hdraft).2⟩)
    have hfs : Vfs.removeFile s.fs (lockName name) = .ok fs :=
      Vfs.removeFile_ok.mpr ⟨_, resolve_lockPath hnamed, hremove⟩
    obtain ⟨hleaf, hdirs⟩ := leaf?_removeFile (resolve_lockPath hnamed) hfs
    rw [Phase.move, hfs]
    refine ⟨?_, trivial, rfl, hdirs⟩
    rw [view_after]
    have hsafe := h.safe.drop hdraft
    rw [show s.view.cells = s.fs.leaf? from rfl, ← hleaf] at hsafe
    exact hsafe
  | found name =>
    have hdraft : (s.phase i).draft = none := congrArg Phase.draft hphase
    rw [hphase] at hnamed
    rw [Phase.move]
    cases hfs : Vfs.removeFile s.fs name with
    | error e => exact h.quiet hdraft.symm trivial rfl
    | ok fs =>
      obtain ⟨hleaf, hdirs⟩ := leaf?_removeFile (resolve_refPath hnamed) hfs
      refine ⟨?_, hnamed, rfl, hdirs⟩
      have hsafe := h.safe.set none (not_isLock_refPath hnamed)
      rw [show s.view.cells = s.fs.leaf? from rfl, ← hleaf] at hsafe
      rw [view_after, show Phase.draft (.cleared name) = s.view.drafts i from hdraft.symm,
        Function.update_eq_self]
      exact hsafe
  | cleared name =>
    have hdraft : (s.phase i).draft = none := congrArg Phase.draft hphase
    rw [hphase] at hnamed
    rw [Phase.move]
    by_cases hpacked : Vfs.pathExists s.fs (str "packed-refs") = true
    · rw [if_pos hpacked]
      exact h.quiet hdraft.symm hnamed rfl
    · rw [if_neg hpacked]
      exact h.quiet hdraft.symm trivial rfl
  | unpacking name =>
    have hdraft : (s.phase i).draft = none := congrArg Phase.draft hphase
    rw [hphase] at hnamed
    rw [Phase.move]
    cases Vfs.read s.fs (str "packed-refs") >>= withoutPacked algo name with
    | error e => exact h.quiet hdraft.symm trivial rfl
    | ok contents =>
      cases contents with
      | none => exact h.quiet hdraft.symm trivial rfl
      | some contents => exact h.quiet hdraft.symm hnamed rfl
  | rewriting name contents =>
    have hdraft : (s.phase i).draft = none := congrArg Phase.draft hphase
    rw [Phase.move]
    cases hfs : Vfs.write s.fs (str "packed-refs") contents with
    | error e => exact h.quiet hdraft.symm trivial rfl
    | ok fs =>
      obtain ⟨hleaf, hdirs⟩ := leaf?_writePacked hfs
      refine ⟨?_, trivial, rfl, hdirs⟩
      have hsafe := h.safe.set (some contents) not_isLock_packedPath
      rw [show s.view.cells = s.fs.leaf? from rfl, ← hleaf] at hsafe
      rw [view_after, show Phase.draft .idle = s.view.drafts i from hdraft.symm,
        Function.update_eq_self]
      exact hsafe

theorem Inv.step {fs₀ : GitDir} {call : Call} (h : Inv fs₀ s) (algo : HashAlgo)
    (hcall : call.Valid) :
    Inv fs₀ (s.step algo (i, call)) := by
  have hsound := h.move_sound (i := i) algo hcall
  refine ⟨hsound.safe, fun j => ?_, ?_, fun p hp => hsound.dirs p (h.dirs p hp)⟩
  · by_cases hj : j = i
    · subst hj
      exact (congrArg Phase.Named (Function.update_self _ _ _)).mpr hsound.named
    · exact (congrArg Phase.Named (Function.update_of_ne hj _ _)).mpr (h.named j)
  · rw [Shared.step, after, List.filterMap_append, List.filterMap_append,
      hsound.reported, h.reported]

theorem Inv.run {fs₀ : GitDir} (algo : HashAlgo) {turns : List (ι × Call)}
    (hturns : ∀ t ∈ turns, t.2.Valid) (h : Inv fs₀ s) : Inv fs₀ (s.run algo turns) := by
  induction turns generalizing s with
  | nil => exact h
  | cons t turns ih =>
    exact ih (fun u hu => hturns u (List.mem_cons_of_mem _ hu))
      (h.step algo (hturns t List.mem_cons_self))

/-- What writers never break.  What a file comes to hold is what was published of it last. -/
structure Consistent (fs₀ : GitDir) (s : Shared ι) : Prop where
  /-- One writer at most holds the lock of a ref. -/
  exclusive : ∀ i j name, (s.phase i).Holds name → (s.phase j).Holds name → i = j
  /-- The lock holds what its writer has put there. -/
  locked : ∀ i d, (s.phase i).draft = some d → s.fs.leaf? d.cell = some d.content
  /-- A lock that nobody holds is as it was at first. -/
  released : ∀ name, (∀ i, ¬(s.phase i).Holds name) →
    s.fs.leaf? (lockPath name) = fs₀.leaf? (lockPath name)
  /-- A ref holds what some writer has finished to write, and so does any other file. -/
  settled : ∀ p, ¬IsLock p → s.fs.leaf? p =
    Publish.settled fs₀.leaf? (s.published.map Publication.pair) p
  /-- The updates that reported ok are those that took effect, in the order they did. -/
  reported : s.returned.filterMap okUpdate = s.published.filterMap Publication.update?
  /-- No directory goes away. -/
  dirs : ∀ p, fs₀.get? p = some .dir → s.fs.get? p = some .dir

omit [DecidableEq ι] in
theorem Inv.consistent {fs₀ : GitDir} (h : Inv fs₀ s) : Consistent fs₀ s where
  exclusive i j name hi hj := by
    obtain ⟨d, hd, hcell⟩ := Option.map_eq_some_iff.mp hi
    obtain ⟨d', hd', hcell'⟩ := Option.map_eq_some_iff.mp hj
    exact h.safe.exclusive i j d d' hd hd' (hcell.trans hcell'.symm)
  locked i d hd := (h.safe.held i d hd).2
  released name hnone := by
    rw [← h.safe.settled_private ⟨name, rfl⟩]
    exact h.safe.settled _ fun i d hd heq => hnone i (Option.map_eq_some_iff.mpr ⟨d, hd, heq⟩)
  settled p hp := h.safe.settled p fun i d hd heq => hp (heq ▸ (h.safe.held i d hd).1)
  reported := h.reported
  dirs := h.dirs

/-- **However writers take turns, no two hold one lock, no ref holds anything but what was written
in whole, and the updates that report ok are those that take effect.** -/
theorem run_safe (algo : HashAlgo) (fs : GitDir) {turns : List (ι × Call)}
    (hturns : ∀ t ∈ turns, t.2.Valid) :
    Consistent fs ((start fs).run algo turns) :=
  ((inv_start fs).run algo hturns).consistent

/-- Two writers that set one ref, the second while the first holds its lock. -/
def raceTurns : List (Bool × Call) :=
  [(true, .update (str "HEAD") (.symbolic (str "refs/heads/a"))),
    (false, .update (str "HEAD") (.symbolic (str "refs/heads/b"))),
    (true, .update (str "HEAD") (.symbolic (str "refs/heads/a"))),
    (true, .update (str "HEAD") (.symbolic (str "refs/heads/a")))]

theorem raceTurns_safe : Consistent FileTree.empty ((start FileTree.empty).run .sha1
    (raceTurns ++ [(false, .delete (str "HEAD")),
      (true, .update (str "HEAD") (.symbolic (str "refs/heads/a")))])) :=
  run_safe .sha1 FileTree.empty (by decide)

end Shared

/-! ## Updates one after the other -/

def Call.IsUpdate : Call → Prop
  | .update _ _ => True
  | .delete _ => False

instance (call : Call) : Decidable call.IsUpdate :=
  match call with
  | .update _ _ => inferInstanceAs (Decidable True)
  | .delete _ => inferInstanceAs (Decidable False)

/-- No delete is under way. -/
def Phase.Updating : Phase → Prop
  | .idle | .created _ _ | .written _ _ | .refused _ _ _ => True
  | .found _ | .cleared _ | .unpacking _ | .rewriting _ _ => False

/-- Makes updates one after the other, all of which are to succeed. -/
def updates (refs : RefStore) : List (Str × Reference) → Except Error RefStore
  | [] => .ok refs
  | (name, value) :: rest =>
    match refs.update name value with
    | (.ok (), refs) => refs.updates rest
    | (.error e, _) => .error e

theorem updates_concat {refs refs₁ refs₂ : RefStore} {done : List (Str × Reference)} {name : Str}
    {value : Reference} (hdone : refs.updates done = .ok refs₁)
    (h : refs₁.update name value = (.ok (), refs₂)) :
    refs.updates (done ++ [(name, value)]) = .ok refs₂ := by
  induction done generalizing refs with
  | nil =>
    cases hdone
    rw [List.nil_append, updates, h]
    rfl
  | cons u done ih =>
    obtain ⟨name', value'⟩ := u
    rw [updates] at hdone
    rw [List.cons_append, updates]
    rcases hu : refs.update name' value' with ⟨_ | _, refs'⟩
    · rw [hu] at hdone
      cases hdone
    · rw [hu] at hdone
      exact ih hdone

namespace Shared
variable {ι : Type}

/-- The updates that reported ok, oldest first. -/
def accepted (s : Shared ι) : List (Str × Reference) := (s.returned.filterMap okUpdate).reverse

/-- A store where the updates that took effect were made one after the other. -/
structure Replay (fs₀ : GitDir) (s : Shared ι) (refs : RefStore) : Prop where
  leaves : ∀ p, refs.vfs.leaf? p = Publish.settled fs₀.leaf? s.view.published p
  dirs : ∀ p, refs.vfs.get? p = some .dir → s.fs.get? p = some .dir

/-- A file that is not there is not there in the replay. -/
theorem Replay.absent {fs₀ : GitDir} {s : Shared ι} {refs : RefStore} {p : List Str}
    (hreplay : Replay fs₀ s refs) (h : Inv fs₀ s) (hp : s.fs.leaf? p = none) :
    refs.vfs.leaf? p = none := by
  rw [hreplay.leaves, ← h.safe.settled p fun i d hd heq => ?_]
  · exact hp
  · have hcell := (h.safe.held i d hd).2
    rw [heq] at hcell
    exact absurd (hcell.symm.trans hp) (by simp)

variable [DecidableEq ι] {s : Shared ι} {i : ι}

/-- Where a lock is renamed into place, the update can be made in the replay. -/
theorem Replay.update {fs₀ fs : GitDir} {refs : RefStore} {name : Str} {value : Reference}
    (hreplay : Replay fs₀ s refs) (h : Inv fs₀ s) (hphase : s.phase i = .written name value)
    (hrename : Vfs.rename s.fs (lockName name) name = .ok fs) :
    (refs.update name value).1 = .ok () ∧ Replay fs₀
      (s.after i ⟨fs, .idle, some (.wrote name value), some (.update name value, .ok ())⟩)
        (refs.update name value).2 := by
  have hname : IsRefName name := by
    have hnamed := h.named i
    rw [hphase] at hnamed
    exact hnamed
  have hdraft : s.view.drafts i = some ⟨lockPath name, value.toFileContents⟩ :=
    congrArg Phase.draft hphase
  have hlock : s.fs.leaf? (lockPath name) = some value.toFileContents := (h.safe.held i _ hdraft).2
  obtain ⟨-, hfile, hdirs⟩ := leaf?_rename hname hlock hrename
  -- the lock is in a directory
  have hway : ∀ p, p <+: (refPath name).dropLast → s.fs.get? p = some .dir := by
    intro p hp
    rw [← dropLast_lockPath] at hp
    refine FileTree.get?_of_isPrefix (hp.trans (List.dropLast_prefix _)) ?_
      (FileTree.leaf?_eq_some.mp hlock)
    rintro rfl
    rw [dropLast_lockPath] at hp
    exact not_lockPath_prefix_dropLast name hp
  have hnoLeaf : ∀ p, p <+: (refPath name).dropLast → refs.vfs.leaf? p = none :=
    fun p hp => hreplay.absent h (by rw [FileTree.leaf?, hway p hp])
  have hcan : CanUpdate refs.vfs name := by
    refine ⟨⟨hname, fun p d hp hleaf => ?_, ?_⟩, fun hdir => hfile (hreplay.dirs _ hdir)⟩
    · exact absurd (FileTree.leaf?_eq_some.mpr hleaf) (by rw [hnoLeaf p hp]; simp)
    · cases hget : refs.vfs.get? (lockPath name) with
      | none => rfl
      | some e =>
        cases e with
        | dir => exact absurd (hreplay.dirs _ hget) (leaf?_of_leaf hlock)
        | leaf d =>
          have hleaf := hreplay.leaves (lockPath name)
          rw [FileTree.leaf?_eq_some.mpr hget, h.safe.settled_private ⟨name, rfl⟩] at hleaf
          exact absurd (hleaf.trans (h.safe.fresh i _ hdraft)) (by simp)
  obtain ⟨hok, -, hget⟩ := update_of_canUpdate value hcan
  refine ⟨hok, fun p => ?_, fun p hp => ?_⟩
  · rw [view_after]
    show _ = Publish.settled _ ((refPath name, some value.toFileContents) :: s.view.published) p
    rw [Publish.settled_cons, FileTree.leaf?, hget]
    by_cases hp : refPath name = p
    · rw [if_pos hp, if_pos hp.symm]
    · rw [if_neg hp, if_neg (Ne.symm hp), ← hreplay.leaves]
      by_cases hprefix : p <+: (refPath name).dropLast
      · rw [if_pos hprefix, hnoLeaf p hprefix]
      · rw [if_neg hprefix]
        rfl
  · rw [hget] at hp
    by_cases hpath : p = refPath name
    · rw [if_pos hpath] at hp
      cases hp
    · rw [if_neg hpath] at hp
      by_cases hprefix : p <+: (refPath name).dropLast
      · exact hdirs p (hway p hprefix)
      · rw [if_neg hprefix] at hp
        exact hdirs p (hreplay.dirs p hp)

omit [DecidableEq ι] in
/-- A move of an update takes effect where the lock is renamed into place, or not at all. -/
theorem move_of_updating {algo : HashAlgo} {call : Call} (hcall : call.IsUpdate)
    (hphase : (s.phase i).Updating) :
    ((s.phase i).move algo s.fs call).phase.Updating ∧
    (((s.phase i).move algo s.fs call).publication = none ∨ ∃ name value fs,
      s.phase i = .written name value ∧
      Vfs.rename s.fs (lockName name) name = .ok fs ∧ (s.phase i).move algo s.fs call =
        ⟨fs, .idle, some (.wrote name value), some (.update name value, .ok ())⟩) := by
  cases hp : s.phase i with
  | idle =>
    cases call with
    | delete name => exact hcall.elim
    | update name value =>
      rw [Phase.move, begin]
      split
      · exact ⟨trivial, Or.inl rfl⟩
      split
      · exact ⟨trivial, Or.inl rfl⟩
      · exact ⟨trivial, Or.inl rfl⟩
  | created name value => exact ⟨trivial, Or.inl rfl⟩
  | written name value =>
    rw [Phase.move]
    cases hfs : Vfs.rename s.fs (lockName name) name with
    | error e => exact ⟨trivial, Or.inl rfl⟩
    | ok fs => exact ⟨trivial, Or.inr ⟨name, value, fs, rfl, hfs, rfl⟩⟩
  | refused name value e => exact ⟨trivial, Or.inl rfl⟩
  | found name | cleared name | unpacking name | rewriting name contents =>
    rw [hp] at hphase
    exact hphase.elim

/-- What holds at any time of updates alone. -/
structure Updating (fs₀ : GitDir) (algo : HashAlgo) (s : Shared ι) : Prop where
  inv : Inv fs₀ s
  phases : ∀ i, (s.phase i).Updating
  replay : ∃ refs, updates ⟨fs₀, algo⟩ s.accepted = .ok refs ∧ Replay fs₀ s refs

theorem Updating.step {fs₀ : GitDir} {algo : HashAlgo} {call : Call} (h : Updating fs₀ algo s)
    (hcall : call.IsUpdate) :
    Updating fs₀ algo (s.step algo (i, call)) := by
  have hvalid : call.Valid := by
    cases call with
    | update name value => trivial
    | delete name => exact hcall.elim
  have hinv := h.inv.step (i := i) algo hvalid
  obtain ⟨hphase, hmove⟩ := @move_of_updating ι s i algo call hcall (h.phases i)
  obtain ⟨refs, hrefs, hreplay⟩ := h.replay
  refine ⟨hinv, fun j => ?_, ?_⟩
  · by_cases hj : j = i
    · subst hj
      exact (congrArg Phase.Updating (Function.update_self _ _ _)).mpr hphase
    · exact (congrArg Phase.Updating (Function.update_of_ne hj _ _)).mpr (h.phases j)
  rcases hmove with hnone | ⟨name, value, fs, hwritten, hrename, hmove⟩
  · -- nothing takes effect
    have hpublished : (s.step algo (i, call)).published = s.published := by
      rw [Shared.step, after, hnone]
      rfl
    refine ⟨refs, ?_, fun p => ?_, fun p hp =>
      (h.inv.move_sound algo hvalid).dirs p (hreplay.dirs p hp)⟩
    · rw [accepted, hinv.reported, hpublished, ← h.inv.reported]
      exact hrefs
    · rw [view, hpublished]
      exact hreplay.leaves p
  · have hstep : s.step algo (i, call) =
        s.after i ⟨fs, .idle, some (.wrote name value), some (.update name value, .ok ())⟩ := by
      rw [Shared.step, hmove]
    obtain ⟨hok, hreplay'⟩ := hreplay.update h.inv hwritten hrename
    rw [hstep]
    refine ⟨_, ?_, hreplay'⟩
    have haccepted : (s.after i ⟨fs, .idle, some (.wrote name value),
        some (.update name value, .ok ())⟩).accepted = s.accepted ++ [(name, value)] :=
          List.reverse_cons
    rw [haccepted]
    exact updates_concat hrefs (Prod.ext hok rfl)

theorem Updating.run {fs₀ : GitDir} {algo : HashAlgo} {turns : List (ι × Call)}
    (h : Updating fs₀ algo s) (hturns : ∀ t ∈ turns, t.2.IsUpdate) :
    Updating fs₀ algo (s.run algo turns) := by
  induction turns generalizing s with
  | nil => exact h
  | cons t turns ih =>
    exact ih (h.step (hturns t List.mem_cons_self)) fun u hu => hturns u (List.mem_cons_of_mem _ hu)

/-- **Updates at the same time are as good as one after the other**: made in the order in which they
reported ok they all succeed, and leave every file as it is that is not a lock somebody holds. -/
theorem run_linearizable (algo : HashAlgo) (fs : GitDir) {turns : List (ι × Call)}
    (hturns : ∀ t ∈ turns, t.2.IsUpdate) :
    ∃ refs, updates ⟨fs, algo⟩ ((start fs).run algo turns).accepted = .ok refs ∧
      ∀ p, (∀ i d, (((start fs).run algo turns).phase i).draft = some d → d.cell ≠ p) →
        ((start fs).run algo turns).fs.leaf? p = refs.vfs.leaf? p := by
  have hstart : Updating fs algo (start fs : Shared ι) :=
    ⟨inv_start fs, fun _ => trivial, ⟨fs, algo⟩, rfl, fun _ => rfl, fun _ hp => hp⟩
  obtain ⟨hinv, -, refs, hrefs, hreplay⟩ := hstart.run hturns
  exact ⟨refs, hrefs, fun p hp => (hinv.safe.settled p hp).trans (hreplay.leaves p).symm⟩

theorem raceTurns_linearizable :
    ∃ refs, updates ⟨FileTree.empty, .sha1⟩ ((start FileTree.empty).run .sha1 raceTurns).accepted =
      .ok refs ∧
      ∀ p, (∀ i d, (((start FileTree.empty).run .sha1 raceTurns).phase i).draft =
        some d → d.cell ≠ p) →
        ((start FileTree.empty).run .sha1 raceTurns).fs.leaf? p = refs.vfs.leaf? p :=
  run_linearizable .sha1 FileTree.empty (by decide)

end Shared

/-! ## A writer alone -/

/-- Makes a call, all at once. -/
def Call.perform (refs : RefStore) : Call → Except Error Unit × RefStore
  | .update name value => refs.update name value
  | .delete name => refs.delete name

/-- Creating a lock file and then filling it is creating it with what it is filled with. -/
theorem createNew_fillLock (hname : IsRefName name) (fs : GitDir) (data : Bytes) :
    (∃ fs₁, Vfs.createNew fs (lockName name) [] = .ok fs₁ ∧
      Vfs.createNew fs (lockName name) data = .ok (fillLock fs₁ name data)) ∨
    ∃ e e', Vfs.createNew fs (lockName name) [] = .error e ∧ Vfs.createNew fs (lockName name) data =
      .error e' := by
  obtain ⟨hempty, hcan⟩ := createNew_lock hname fs []
  obtain ⟨hfull, hcan'⟩ := createNew_lock hname fs data
  cases h : Vfs.createNew fs (lockName name) [] with
  | ok fs₁ =>
    obtain ⟨hway, hfree, hget⟩ := hempty fs₁ h
    obtain ⟨fs₂, h₂⟩ := hcan' hway hfree
    obtain ⟨-, -, hget₂⟩ := hfull fs₂ h₂
    refine Or.inl ⟨fs₁, rfl, h₂.trans (congrArg Except.ok (FileTree.ext_get? fun p => ?_))⟩
    have hlock : fs₁.get? (lockPath name) = some (.leaf []) := by
      rw [hget, if_pos rfl]
    obtain ⟨fs₃, hput⟩ := Option.isSome_iff_exists.mp (FileTree.putLeaf_isSome
      (t := fs₁) (p := lockPath name) (d := data) |>.mpr ⟨lockPath_ne_nil name,
        FileTree.get?_dropLast (lockPath_ne_nil name) hlock, by rw [hlock]; simp⟩)
    have hfill : fillLock fs₁ name data = fs₃ := by
      rw [fillLock, FileTree.leaf?_eq_some.mpr hlock, Option.isSome_some, if_pos rfl, hput,
        Option.getD_some]
    rw [hfill, FileTree.get?_putLeaf hput, hget₂, hget]
    split
    · rfl
    · rfl
  | error e =>
    cases h' : Vfs.createNew fs (lockName name) data with
    | error e' => exact Or.inr ⟨e, e', rfl, rfl⟩
    | ok fs₂ =>
      obtain ⟨hway, hfree, -⟩ := hfull fs₂ h'
      obtain ⟨fs₁, h₁⟩ := hcan hway hfree
      cases h.symm.trans h₁

/-- A delete goes on to the packed refs. -/
theorem delete_of_deleteLoose {refs refs₁ : RefStore} (h : refs.deleteLoose name = .ok refs₁) :
    refs.delete name = ((refs₁.deletePacked name).map fun _ => (),
      (refs₁.deletePacked name).toOption.getD refs₁) := by
  rw [RefStore.delete, h]
  dsimp only
  cases refs₁.deletePacked name with
  | ok refs₂ => rfl
  | error e => rfl

namespace Shared
variable {ι : Type} [DecidableEq ι]

/-- A writer that nobody comes in between ends its call so. -/
def Finishes (algo : HashAlgo) (call : Call) (i : ι) (s : Shared ι)
    (result : Call × Except Error Unit) (fs : GitDir) :
    Prop :=
  ∃ n, (s.run algo (List.replicate n (i, call))).fs = fs ∧
    (s.run algo (List.replicate n (i, call))).phase = Function.update s.phase i .idle ∧
    (s.run algo (List.replicate n (i, call))).returned = (i, result) :: s.returned

variable {algo : HashAlgo} {call : Call} {i : ι} {s : Shared ι}
  {result : Call × Except Error Unit} {fs : GitDir}

theorem Finishes.last (publication : Option Publication)
    (h : (s.phase i).move algo s.fs call = ⟨fs, .idle, publication, some result⟩) :
    Finishes algo call i s result fs := by
  have hstep : s.run algo (List.replicate 1 (i, call)) =
      s.after i ⟨fs, .idle, publication, some result⟩ := by
    rw [List.replicate_one, run, List.foldl_cons, List.foldl_nil, step, h]
  refine ⟨1, ?_, ?_, ?_⟩
  · rw [hstep]
    rfl
  · rw [hstep]
    rfl
  · rw [hstep]
    rfl

/-- The first move of several, which leaves the rest to do. -/
theorem Finishes.next (m : Move) (h : (s.phase i).move algo s.fs call = m)
    (hresult : m.result = none) (hrest : Finishes algo call i (s.after i m) result fs) :
    Finishes algo call i s result fs := by
  obtain ⟨n, hfs, hphase, hreturned⟩ := hrest
  have hstep : s.run algo (List.replicate (n + 1) (i, call)) =
      (s.after i m).run algo (List.replicate n (i, call)) := by
    rw [List.replicate_succ, run, List.foldl_cons, step, h]
    rfl
  refine ⟨n + 1, ?_, ?_, ?_⟩
  · rw [hstep, hfs]
  · rw [hstep, hphase]
    exact Function.update_idem _ _ _
  · rw [hstep, hreturned, after, hresult]
    rfl

theorem phase_after {m : Move} : (s.after i m).phase i = m.phase := Function.update_self _ _ _

theorem finishes_update (hidle : s.phase i = .idle) (name : Str) (value : Reference) :
    Finishes algo (.update name value) i s (.update name value,
      (RefStore.update ⟨s.fs, algo⟩ name value).1)
      (RefStore.update ⟨s.fs, algo⟩ name value).2.vfs := by
  rw [RefStore.update, lockRef]
  by_cases hname : (!isValidRefName name && name ≠ str "HEAD") = true
  · rw [if_pos hname]
    refine .last none ?_
    rw [hidle, Phase.move, begin, if_pos hname]
    rfl
  rw [if_neg hname]
  have hname' : IsRefName name := by
    by_contra hn
    rw [IsRefName, not_or] at hn
    exact hname (by simp [hn.1, hn.2])
  rcases createNew_fillLock hname' s.fs value.toFileContents with
    ⟨fs₁, hempty, hfull⟩ | ⟨e, e', hempty, hfull⟩
  · simp only [hfull]
    refine .next (.on fs₁ (.created name value)) ?_ rfl ?_
    · rw [hidle, Phase.move, begin, if_neg hname, hempty]
    refine .next (.on (fillLock fs₁ name value.toFileContents) (.written name value)) ?_ rfl ?_
    · rw [phase_after]
      rfl
    rw [commitLock]
    cases hfs : Vfs.rename (fillLock fs₁ name value.toFileContents) (lockName name) name with
    | ok fs₂ =>
      refine .last (some (.wrote name value)) ?_
      rw [phase_after]
      show Phase.move algo (fillLock fs₁ name value.toFileContents) _ (.written name value) = _
      rw [Phase.move, hfs]
    | error e =>
      refine .next (.on (fillLock fs₁ name value.toFileContents) (.refused name value e)) ?_ rfl ?_
      · rw [phase_after]
        show Phase.move algo (fillLock fs₁ name value.toFileContents) _ (.written name value) = _
        rw [Phase.move, hfs]
      refine .last none ?_
      rw [phase_after]
      show Phase.move algo (fillLock fs₁ name value.toFileContents) _ (.refused name value e) = _
      rw [Phase.move]
      cases Vfs.removeFile (fillLock fs₁ name value.toFileContents) (lockName name) with
      | ok fs₂ => rfl
      | error e' => rfl
  · simp only [hfull]
    refine .last none ?_
    rw [hidle, Phase.move, begin, if_neg hname, hempty]
    rfl

theorem finishes_cleared (name : Str) (hphase : s.phase i = .cleared name) :
    Finishes algo (.delete name) i s (.delete name,
      (deletePacked ⟨s.fs, algo⟩ name).map fun _ => ())
      ((deletePacked ⟨s.fs, algo⟩ name).toOption.getD ⟨s.fs, algo⟩).vfs := by
  rw [deletePacked, packedWithout]
  by_cases hpacked : Vfs.pathExists s.fs (str "packed-refs") = true
  · rw [if_pos hpacked]
    refine .next (.on s.fs (.unpacking name)) ?_ rfl ?_
    · rw [hphase, Phase.move, if_pos hpacked]
    have hread : (Vfs.read s.fs (str "packed-refs") >>= fun contents => do
        let entries ← parsePackedRefs algo contents
        if entries.any fun e => e.name = name then
          .ok (some (serializePackedRefs (entries.filter fun e => e.name ≠ name)))
        else .ok none) = Vfs.read s.fs (str "packed-refs") >>= withoutPacked algo name := rfl
    simp only [hread]
    cases hcontents : Vfs.read s.fs (str "packed-refs") >>= withoutPacked algo name with
    | error e =>
      refine .last none ?_
      rw [phase_after]
      show Phase.move algo s.fs _ (.unpacking name) = _
      rw [Phase.move, hcontents]
      rfl
    | ok contents =>
      cases contents with
      | none =>
        refine .last none ?_
        rw [phase_after]
        show Phase.move algo s.fs _ (.unpacking name) = _
        rw [Phase.move, hcontents]
        rfl
      | some contents =>
        refine .next (.on s.fs (.rewriting name contents)) ?_ rfl ?_
        · rw [phase_after]
          show Phase.move algo s.fs _ (.unpacking name) = _
          rw [Phase.move, hcontents]
        show Finishes _ _ _ _ (_, (writePacked ⟨s.fs, algo⟩ (some contents)).map _)
          ((writePacked ⟨s.fs, algo⟩ (some contents)).toOption.getD _).vfs
        rw [writePacked]
        cases hfs : Vfs.write s.fs (str "packed-refs") contents with
        | ok fs =>
          refine .last (some (.packed contents)) ?_
          rw [phase_after]
          show Phase.move algo s.fs _ (.rewriting name contents) = _
          rw [Phase.move, hfs]
          rfl
        | error e =>
          refine .last none ?_
          rw [phase_after]
          show Phase.move algo s.fs _ (.rewriting name contents) = _
          rw [Phase.move, hfs]
          rfl
  · rw [if_neg hpacked]
    refine .last none ?_
    rw [hphase, Phase.move, if_neg hpacked]
    rfl

theorem finishes_delete (hidle : s.phase i = .idle) (name : Str) :
    Finishes algo (.delete name) i s (.delete name, (RefStore.delete ⟨s.fs, algo⟩ name).1)
      (RefStore.delete ⟨s.fs, algo⟩ name).2.vfs := by
  by_cases hexists : Vfs.pathExists s.fs name = true
  · refine .next (.on s.fs (.found name)) ?_ rfl ?_
    · rw [hidle, Phase.move, begin, if_pos hexists]
    cases hfs : Vfs.removeFile s.fs name with
    | error e =>
      have hloose : deleteLoose ⟨s.fs, algo⟩ name = .error e := by
        rw [deleteLoose, if_pos hexists, hfs]
        rfl
      rw [RefStore.delete, hloose]
      refine .last none ?_
      rw [phase_after]
      show Phase.move algo s.fs _ (.found name) = _
      rw [Phase.move, hfs]
      rfl
    | ok fs =>
      have hloose : deleteLoose ⟨s.fs, algo⟩ name = .ok ⟨fs, algo⟩ := by
        rw [deleteLoose, if_pos hexists, hfs]
        rfl
      refine .next ⟨fs, .cleared name, some (.removed name), none⟩ ?_ rfl ?_
      · rw [phase_after]
        show Phase.move algo s.fs _ (.found name) = _
        rw [Phase.move, hfs]
      rw [delete_of_deleteLoose hloose]
      exact finishes_cleared name phase_after
  · have hloose : deleteLoose ⟨s.fs, algo⟩ name = .ok ⟨s.fs, algo⟩ := by
      rw [deleteLoose, if_neg hexists]
    refine .next (.on s.fs (.cleared name)) ?_ rfl ?_
    · rw [hidle, Phase.move, begin, if_neg hexists]
    rw [delete_of_deleteLoose hloose]
    exact finishes_cleared name phase_after

/-- **A writer that nobody comes in between makes its call as the code does**: the files are left as
the whole call leaves them, and what it returns is reported. -/
theorem run_alone (algo : HashAlgo) (call : Call) (hidle : s.phase i = .idle) :
    ∃ n, (s.run algo (List.replicate n (i, call))).fs = (call.perform ⟨s.fs, algo⟩).2.vfs ∧
      (s.run algo (List.replicate n (i, call))).phase = s.phase ∧
      (s.run algo (List.replicate n (i, call))).returned =
        (i, call, (call.perform ⟨s.fs, algo⟩).1) :: s.returned := by
  have hphase : Function.update s.phase i .idle = s.phase := by
    rw [← hidle, Function.update_eq_self]
  rw [← hphase]
  cases call with
  | update name value => exact finishes_update hidle name value
  | delete name => exact finishes_delete hidle name

theorem run_alone_start :
    ∃ n, ((start FileTree.empty).run .sha1 (List.replicate n ((), Call.delete (str "HEAD")))).fs =
      (Call.perform ⟨FileTree.empty, .sha1⟩ (.delete (str "HEAD"))).2.vfs ∧
    ((start FileTree.empty).run .sha1 (List.replicate n ((), Call.delete (str "HEAD")))).phase =
      (fun _ => Phase.idle) ∧
    ((start FileTree.empty).run .sha1 (List.replicate n ((), Call.delete (str "HEAD")))).returned =
      [((), .delete (str "HEAD"),
        (Call.perform ⟨FileTree.empty, .sha1⟩ (.delete (str "HEAD"))).1)] :=
  run_alone (s := start FileTree.empty) .sha1 (.delete (str "HEAD")) rfl

end Shared
end RefStore
end Puregit
