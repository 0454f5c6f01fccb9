import Mathlib.Data.List.Pairwise
import Puregit.Client.Fetch
import Puregit.Refs.Batch

/-! # Updating the remote-tracking refs

After a fetch each advertised branch `X` of a remote is written to `refs/remotes/<remote>/X` and
each tag to its own name.  With pruning, what is listed below `refs/remotes/<remote>/` and is no
longer advertised is deleted then.

The refs are files.  The new ones are written before the stale ones are deleted, so that a stale
`a` is in the way of a new `a/b`, and a stale `a/b` in that of a new `a`.
`fetchUpdate_mirrors_iff` says exactly which refs of the client let a fetch mirror a remote.
-/
namespace Puregit

/-! ## Refspecs -/

/-- Maps the refs of one side to those of the other; either pattern may end in `*`. -/
structure Refspec where
  force : Bool
  src : Str
  dst : Str

namespace Refspec

/-- Where a name is mapped to, if it matches the source. -/
def dstFor (spec : Refspec) (name : Str) : Option Str :=
  match stripSuffix? (str "*") spec.src with
  | some sprefix => do
    let tail ← stripPrefix? sprefix name
    let dprefix ← stripSuffix? (str "*") spec.dst
    some ( dprefix ++ tail)
  | none =>
    if spec.src = name then some (if spec.dst.isEmpty then name else spec.dst)
    else none

/-- The fetch layout of a new remote. -/
def defaultFetch (name : Str) : Refspec :=
  ⟨true, str "refs/heads/*", str "refs/remotes/" ++ name ++ str "/*"⟩

end Refspec

namespace Client
open RefStore

/-! ## The update -/

/-- Writes what an advertised ref maps to; the tracking ref of a branch is one to keep. -/
def updateRef (refspec : Refspec) (wanted : BTreeSet Str) (r : AdvertisedRef) :
    Exec Repository Error (BTreeSet Str) :=
  if r.name = str "HEAD" ∨ r.id.isZero = true then pure wanted
  else match refspec.dstFor r.name with
    | some tracking => do
      Repository.onRefs fun refs => refs.update tracking (.direct r.id)
      pure (wanted.insert tracking)
    | none =>
      if startsWith r.name (str "refs/tags/") then do
        Repository.onRefs fun refs => refs.update r.name (.direct r.id)
        pure wanted
      else pure wanted

/-- What the tracking refs of a remote start with. -/
def trackingPrefix (remote : Str) : Str := str "refs/remotes/" ++ remote ++ str "/"

/-- The refs listed below those of a remote that are not to be kept. -/
def staleRefs (remote : Str) (wanted : BTreeSet Str) (refs : RefStore) : Except Error (List Str) :=
  refs.list.map fun listed => (listed.toList.map Prod.fst).filter fun name =>
    startsWith name (trackingPrefix remote) && !wanted.contains name

/-- Fetches from a remote and updates its tracking refs; with `prune` those that are no longer
advertised are deleted. -/
def fetchUpdate (out : Outside) (transport : Transport) (remote : Str) (prune : Bool) :
    Exec Repository Error Nat := do
  let outcome ← doFetch out transport none none
  let wanted ← outcome.refs.foldlM (updateRef (Refspec.defaultFetch remote)) BTreeSet.empty
  (if prune then do
    let stale ← Exec.read fun repo => staleRefs remote wanted repo.refs
    stale.forM fun name => Repository.onRefs fun refs => refs.delete name
  else pure ())
  pure outcome.receivedObjects

/-! ## What is mirrored -/

/-- An id is advertised for the branch that a tracking ref is of. -/
def Tracked (remote : Str) (advert : List AdvertisedRef) (name : Str) (id : ObjectId) : Prop :=
  ∃ branch, ⟨str "refs/heads/" ++ branch, id⟩ ∈ advert ∧ id.isZero = false ∧
    name = trackingPrefix remote ++ branch

/-- The tracking refs of a remote are those of the advertised branches. -/
def Mirrors (remote : Str) (advert : List AdvertisedRef) (refs : RefStore) : Prop :=
  ∀ name id, isValidRefName name = true → startsWith name (trackingPrefix remote) = true →
    (refs.resolve name = .ok id ↔ Tracked remote advert name id)

/-- What an advertised ref is written to. -/
def mapped (remote : Str) (r : AdvertisedRef) : Option (Str × ObjectId) :=
  if r.name = str "HEAD" ∨ r.id.isZero = true then none
  else match (Refspec.defaultFetch remote).dstFor r.name with
    | some tracking => some (tracking, r.id)
    | none => if startsWith r.name (str "refs/tags/") then some (r.name, r.id) else none

/-- What an advertisement is written to, in its order. -/
def updates (remote : Str) (advert : List AdvertisedRef) : List (Str × ObjectId) :=
  advert.filterMap (mapped remote)

/-- **The refs of a client let a fetch mirror a remote.**  Each tracking ref and each tag can be
written where it goes: no file is in the place of a directory above it, no directory in its place,
and no lock beside it.  The ids are of the hash of the store, packed-refs can be read, and no file
is in the place of `refs`.  And no packed ref that is stale has a directory in its place, or gets
one. -/
structure Mirrorable (remote : Str) (advert : List AdvertisedRef) (refs : RefStore) : Prop where
  written : ∀ u ∈ updates remote advert, CanUpdate refs.vfs u.1
  algo : ∀ name id, Tracked remote advert name id → id.algo = refs.algo
  packed : ∃ entries, refs.packed = .ok entries
  dir : RefsDir refs.vfs
  stale : ∀ name, (refs.packedId name).isSome → startsWith name (trackingPrefix remote) = true →
    (∀ id, ¬Tracked remote advert name id) → refs.vfs.get? (refPath name) ≠ some .dir ∧
      ∀ u ∈ updates remote advert, ¬refPath name <+: (refPath u.1).dropLast

/-- The names of an advertisement are free of clashes: none is a directory of another. -/
def ClashFreeNames (advert : List AdvertisedRef) : Prop :=
  advert.Pairwise fun r r' => PathsApart r.name r'.name

/-! ## The names -/

variable {remote name : Str} {advert : List AdvertisedRef} {refs refs' : RefStore}
  {repo repo' : Repository} {id : ObjectId}

theorem dstFor_default (remote name : Str) : (Refspec.defaultFetch remote).dstFor name =
    (stripPrefix? (str "refs/heads/") name).map (trackingPrefix remote ++ ·) := by
  have hsrc : stripSuffix? (str "*") (str "refs/heads/*") = some (str "refs/heads/") := by decide
  have hdst : stripSuffix? (str "*") (str "refs/remotes/" ++ remote ++ str "/*") =
      some (trackingPrefix remote) := by
    have hsplit : str "refs/remotes/" ++ remote ++ str "/*" = trackingPrefix remote ++ str "*" := by
      rw [trackingPrefix, List.append_assoc _ (str "/")]
      rfl
    rw [hsplit, stripSuffix?, List.reverse_append, stripPrefix?_eq_some.mpr rfl, Option.map_some,
      List.reverse_reverse]
  simp only [Refspec.dstFor, Refspec.defaultFetch, hsrc, hdst]
  cases stripPrefix? (str "refs/heads/") name <;> rfl

/-- What is written: tracking refs, and tags. -/
theorem mapped_eq_some {r : AdvertisedRef} {u : Str × ObjectId} : mapped remote r = some u ↔
    u.2 = r.id ∧ r.id.isZero = false ∧
      ((∃ branch, r.name = str "refs/heads/" ++ branch ∧ u.1 = trackingPrefix remote ++ branch) ∨
      (u.1 = r.name ∧ startsWith r.name (str "refs/tags/") = true)) := by
  obtain ⟨n, i⟩ := u
  rw [mapped, dstFor_default]
  by_cases hskip : r.name = str "HEAD" ∨ r.id.isZero = true
  · rw [if_pos hskip]
    refine iff_of_false nofun ?_
    rintro ⟨-, hzero, hname⟩
    rcases hskip with hhead | hz
    · rcases hname with ⟨branch, hbranch, -⟩ | ⟨-, htag⟩
      · rw [hhead] at hbranch
        cases hbranch
      · rw [hhead] at htag
        revert htag
        decide
    · rw [hz] at hzero
      cases hzero
  · rw [if_neg hskip]
    rw [not_or, Bool.not_eq_true] at hskip
    cases hstrip : stripPrefix? (str "refs/heads/") r.name with
    | some branch =>
      have hname := stripPrefix?_eq_some.mp hstrip
      simp only [Option.map_some, Option.some.injEq, Prod.mk.injEq]
      constructor
      · rintro ⟨rfl, rfl⟩
        exact ⟨rfl, hskip.2, Or.inl ⟨branch, hname, rfl⟩⟩
      · rintro ⟨rfl, -, ⟨branch', hname', rfl⟩ | ⟨-, htag⟩⟩
        · rw [hname, List.append_cancel_left_eq] at hname'
          rw [hname']
          exact ⟨rfl, rfl⟩
        · rw [hname] at htag
          cases htag
    | none =>
      simp only [Option.map_none]
      have hno : ∀ branch, r.name ≠ str "refs/heads/" ++ branch := by
        intro branch hbranch
        rw [stripPrefix?_eq_some.mpr hbranch] at hstrip
        cases hstrip
      split
      · rename_i htag
        simp only [Option.some.injEq, Prod.mk.injEq]
        constructor
        · rintro ⟨rfl, rfl⟩
          exact ⟨rfl, hskip.2, Or.inr ⟨rfl, htag⟩⟩
        · rintro ⟨rfl, -, ⟨branch, hname, -⟩ | ⟨rfl, -⟩⟩
          · exact absurd hname (hno branch)
          · exact ⟨rfl, rfl⟩
      · rename_i htag
        refine iff_of_false nofun ?_
        rintro ⟨-, -, ⟨branch, hname, -⟩ | ⟨-, htag'⟩⟩
        · exact hno branch hname
        · exact htag htag'

theorem refPath_slash (a b : Str) : refPath (a ++ '/' :: b) = refPath a ++ refPath b := by
  rw [refPath, List.splitOn_append_cons_self, refPath, refPath]

theorem refPath_heads (branch : Str) :
    refPath (str "refs/heads/" ++ branch) = [str "refs", str "heads"] ++ refPath branch :=
  refPath_slash (str "refs/heads") branch

theorem refPath_tracking (remote branch : Str) :
    refPath (trackingPrefix remote ++ branch) = [str "refs", str "remotes"] ++
      (refPath remote ++ refPath branch) := by
  have hsplit : trackingPrefix remote ++ branch =
      str "refs/remotes" ++ '/' :: (remote ++ '/' :: branch) := by
    rw [trackingPrefix, List.append_assoc, List.append_assoc]
    rfl
  rw [hsplit, refPath_slash, refPath_slash]
  rfl

/-- The path of a tag. -/
theorem refPath_tag (h : startsWith name (str "refs/tags/") = true) :
    ∃ tag, refPath name = [str "refs", str "tags"] ++ refPath tag := by
  obtain ⟨tag, rfl⟩ := List.isPrefixOf_iff_prefix.mp h
  exact ⟨tag, refPath_slash (str "refs/tags") tag⟩

/-- What an advertisement without clashes is written to is apart. -/
theorem pathsApart_updates (h : ClashFreeNames advert) :
    (updates remote advert).Pairwise fun u v => PathsApart u.1 v.1 := by
  refine h.filterMap _ fun r r' hapart u hu v hv => ?_
  have hkinds : ∀ {a b : Str}, ¬[str "refs", a] <+: [str "refs", b] → ∀ {p q : List Str},
      ¬[str "refs", a] ++ p <+: [str "refs", b] ++ q := by
    intro a b hab p q hpq
    refine hab (List.prefix_of_prefix_length_le ((List.prefix_append _ _).trans hpq)
      (List.prefix_append _ _) ?_)
    rfl
  obtain ⟨-, -, hu⟩ := mapped_eq_some.mp hu
  obtain ⟨-, -, hv⟩ := mapped_eq_some.mp hv
  rcases hu with ⟨x, hx, hux⟩ | ⟨hux, hx⟩ <;> rcases hv with ⟨y, hy, hvy⟩ | ⟨hvy, hy⟩
  · rw [PathsApart, hx, hy, refPath_heads, refPath_heads, List.prefix_append_right_inj,
      List.prefix_append_right_inj] at hapart
    rw [PathsApart, hux, hvy, refPath_tracking, refPath_tracking, List.prefix_append_right_inj,
      List.prefix_append_right_inj,
      List.prefix_append_right_inj, List.prefix_append_right_inj]
    exact hapart
  · obtain ⟨tag, htag⟩ := refPath_tag hy
    rw [PathsApart, hux, hvy, refPath_tracking, htag]
    exact ⟨hkinds (by decide), hkinds (by decide)⟩
  · obtain ⟨tag, htag⟩ := refPath_tag hx
    rw [PathsApart, hux, hvy, refPath_tracking, htag]
    exact ⟨hkinds (by decide), hkinds (by decide)⟩
  · rw [hux, hvy]
    exact hapart

theorem startsWith_append (p s : Str) : startsWith (p ++ s) p = true :=
  List.isPrefixOf_iff_prefix.mpr (List.prefix_append p s)

/-- The tracked refs are the updates below the tracking refs. -/
theorem tracked_iff : Tracked remote advert name id ↔
    (name, id) ∈ updates remote advert ∧ startsWith name (trackingPrefix remote) = true := by
  rw [updates, List.mem_filterMap]
  constructor
  · rintro ⟨branch, hmem, hzero, rfl⟩
    exact ⟨⟨_, hmem, mapped_eq_some.mpr ⟨rfl, hzero, Or.inl ⟨branch, rfl, rfl⟩⟩⟩,
      startsWith_append _ _⟩
  · rintro ⟨⟨⟨n, i⟩, hmem, hmapped⟩, hprefix⟩
    obtain ⟨rfl, hzero, ⟨branch, rfl, rfl⟩ | ⟨rfl, htag⟩⟩ := mapped_eq_some.mp hmapped
    · exact ⟨branch, hmem, hzero, rfl⟩
    · obtain ⟨rest, rfl⟩ := List.isPrefixOf_iff_prefix.mp hprefix
      rw [trackingPrefix] at htag
      cases htag

/-- A tracked ref is tracked at one id. -/
theorem tracked_unique (h : ClashFreeNames advert) {id' : ObjectId}
    (hid : Tracked remote advert name id) (hid' : Tracked remote advert name id') : id = id' := by
  by_contra hne
  have : Std.Symm fun u v : Str × ObjectId => PathsApart u.1 v.1 := ⟨fun _ _ h => ⟨h.2, h.1⟩⟩
  have hapart := (pathsApart_updates h).forall (tracked_iff.mp hid).1 (tracked_iff.mp hid').1
    fun heq => hne (congrArg Prod.snd heq)
  exact hapart.1 List.prefix_rfl

/-! ## Running the updates -/

theorem update_algo (refs : RefStore) (name : Str) (value : Reference) :
    (refs.update name value).2.algo = refs.algo := by
  by_cases hcan : CanUpdate refs.vfs name
  · exact (update_of_canUpdate value hcan).2.1
  · obtain ⟨e, he⟩ := update_of_not_canUpdate value hcan
    rw [he]

theorem delete_algo (refs : RefStore) (name : Str) : (refs.delete name).2.algo = refs.algo := by
  by_cases hcan : CanDelete refs name
  · exact (delete_of_canDelete hcan).2.1
  · exact (delete_of_not_canDelete hcan).2.1

theorem updateAll_algo (us : List (Str × ObjectId)) (refs : RefStore) :
    (updateAll us refs).2.algo = refs.algo := by
  induction us generalizing refs with
  | nil => rfl
  | cons u us ih =>
    have halgo := update_algo refs u.1 (.direct u.2)
    rw [updateAll]
    split <;> rename_i hrun <;> rw [hrun] at halgo
    · exact (ih _).trans halgo
    · exact halgo

theorem deleteAll_algo (names : List Str) (refs : RefStore) :
    (deleteAll names refs).2.algo = refs.algo := by
  induction names generalizing refs with
  | nil => rfl
  | cons n names ih =>
    have halgo := delete_algo refs n
    rw [deleteAll]
    split <;> rename_i hrun <;> rw [hrun] at halgo
    · exact (ih _).trans halgo
    · exact halgo

/-- A repository with other refs. -/
def withRefs (repo : Repository) (refs : RefStore) : Repository := { repo with fs := refs.vfs }

theorem refs_withRefs (h : refs.algo = repo.refs.algo) : (withRefs repo refs).refs = refs :=
  RefStore.ext rfl h.symm

/-- An advertised ref that maps to something is written there. -/
theorem updateRef_mapped {r : AdvertisedRef} {u : Str × ObjectId} (h : mapped remote r = some u)
    (wanted : BTreeSet Str) (repo : Repository) : ∃ wanted', (∀ name, name ∈ wanted' ↔
      name ∈ wanted ∨ name = u.1 ∧ startsWith name (trackingPrefix remote) = true) ∧
      updateRef (Refspec.defaultFetch remote) wanted r repo =
        some ((repo.refs.update u.1 (.direct u.2)).1.map fun _ => wanted',
          withRefs repo (repo.refs.update u.1 (.direct u.2)).2) := by
  have hrun : ∀ (name : Str) (w : BTreeSet Str),
      (Repository.onRefs (fun refs => refs.update name (.direct r.id)) >>= fun _ =>
        (pure w : Exec Repository Error _)) repo =
        some ((repo.refs.update name (.direct r.id)).1.map fun _ => w,
          withRefs repo (repo.refs.update name (.direct r.id)).2) := by
    intro name w
    rw [Exec.bind_apply, Exec.andThen, Repository.onRefs, Exec.step_apply]
    cases (repo.refs.update name (.direct r.id)).1 <;> rfl
  have hkind := mapped_eq_some.mp h
  rw [mapped] at h
  split at h
  · cases h
  · rename_i hskip
    rw [updateRef, if_neg hskip]
    split at h
    · rename_i tracking htracking
      cases h
      rw [htracking]
      refine ⟨wanted.insert tracking, fun name => ?_, hrun _ _⟩
      rw [dstFor_default] at htracking
      obtain ⟨branch, -, rfl⟩ := Option.map_eq_some_iff.mp htracking
      rw [BTreeSet.mem_insert, or_comm]
      refine or_congr_right ⟨fun hname => ⟨hname, hname ▸ startsWith_append _ _⟩, And.left⟩
    · rename_i htracking
      split at h
      · rename_i htag
        cases h
        rw [htracking]
        simp only [htag, if_true]
        refine ⟨wanted, fun name => ⟨Or.inl, fun hname => hname.resolve_right ?_⟩, hrun _ _⟩
        rintro ⟨rfl, hprefix⟩
        obtain ⟨rest, hrest⟩ := List.isPrefixOf_iff_prefix.mp hprefix
        rw [← hrest] at htag
        cases htag
      · cases h

theorem updateRef_unmapped {r : AdvertisedRef} (h : mapped remote r = none)
    (wanted : BTreeSet Str) :
    updateRef (Refspec.defaultFetch remote) wanted r = pure wanted := by
  rw [mapped] at h
  rw [updateRef]
  split at h
  · rename_i hskip
    rw [if_pos hskip]
  · rename_i hskip
    rw [if_neg hskip]
    split at h
    · cases h
    · rename_i htracking
      split at h
      · cases h
      · rename_i htag
        exact if_neg htag

/-- **The updates are run in the order of the advertisement**, and the tracking refs kept. -/
theorem foldlM_updateRef (remote : Str) (advert : List AdvertisedRef) (wanted : BTreeSet Str)
    (repo : Repository) :
    ∃ wanted', (∀ name, name ∈ wanted' ↔ name ∈ wanted ∨ ∃ id, Tracked remote advert name id) ∧
      (advert.foldlM (updateRef (Refspec.defaultFetch remote)) wanted) repo =
        some ((updateAll (updates remote advert) repo.refs).1.map fun _ => wanted',
          withRefs repo (updateAll (updates remote advert) repo.refs).2) := by
  induction advert generalizing wanted repo with
  | nil =>
    refine ⟨wanted, fun name => ⟨Or.inl, fun h => h.resolve_right ?_⟩, rfl⟩
    rintro ⟨_, _, hmem, -⟩
    cases hmem
  | cons r advert ih =>
    rw [List.foldlM_cons]
    cases hmapped : mapped remote r with
    | none =>
      have hupdates : updates remote (r :: advert) = updates remote advert :=
        List.filterMap_cons_none hmapped
      obtain ⟨wanted', hmem, hrun⟩ := ih wanted repo
      refine ⟨wanted', fun name => ?_, ?_⟩
      · simp only [tracked_iff, hupdates] at hmem ⊢
        exact hmem name
      · rw [updateRef_unmapped hmapped, hupdates]
        exact hrun
    | some u =>
      have hupdates : updates remote (r :: advert) = u :: updates remote advert :=
        List.filterMap_cons_some hmapped
      obtain ⟨wanted₁, hmem₁, hrun₁⟩ := updateRef_mapped hmapped wanted repo
      obtain ⟨wanted', hmem, hrun⟩ :=
        ih wanted₁ (withRefs repo (repo.refs.update u.1 (.direct u.2)).2)
      refine ⟨wanted', fun name => ?_, ?_⟩
      · rw [hmem, hmem₁, or_assoc]
        simp only [tracked_iff, hupdates, List.mem_cons]
        refine or_congr_right ⟨?_, ?_⟩
        · rintro (⟨rfl, hprefix⟩ | ⟨id, hid, hprefix⟩)
          · exact ⟨u.2, Or.inl rfl, hprefix⟩
          · exact ⟨id, Or.inr hid, hprefix⟩
        · rintro ⟨id, hid | hid, hprefix⟩
          · exact Or.inl ⟨congrArg Prod.fst hid, hprefix⟩
          · exact Or.inr ⟨id, hid, hprefix⟩
      · rw [Exec.bind_apply, Exec.andThen, hrun₁, hupdates, updateAll]
        rw [refs_withRefs (update_algo _ _ _)] at hrun
        cases hstep : repo.refs.update u.1 (.direct u.2) with
        | mk result refs₁ =>
          rw [hstep] at hrun
          cases result with
          | error e => rfl
          | ok _ => exact hrun

/-- **So are the deletes.** -/
theorem forM_delete (names : List Str) (repo : Repository) :
    (names.forM fun name => Repository.onRefs fun refs => refs.delete name) repo =
      some ((deleteAll names repo.refs).1, withRefs repo (deleteAll names repo.refs).2) := by
  induction names generalizing repo with
  | nil => rfl
  | cons n names ih =>
    have hrun := ih (withRefs repo (repo.refs.delete n).2)
    rw [refs_withRefs (delete_algo _ _)] at hrun
    rw [show (n :: names).forM (fun name => Repository.onRefs fun refs => refs.delete name) =
      (Repository.onRefs (fun refs => refs.delete n) >>= fun _ => names.forM fun name =>
        Repository.onRefs fun refs => refs.delete name) from rfl,
      Exec.bind_apply, Exec.andThen, Repository.onRefs, Exec.step_apply, deleteAll]
    cases hstep : repo.refs.delete n with
    | mk result refs₁ =>
      rw [hstep] at hrun
      cases result with
      | error e => rfl
      | ok _ => exact hrun

/-- Fetching without a depth leaves the refs. -/
theorem refs_of_doFetch {out : Outside} {transport : Transport} {filter : Option Str}
    {outcome : FetchOutcome} (h : doFetch out transport none filter repo =
      some (.ok outcome, repo')) : repo'.refs = repo.refs := by
  rw [doFetch, Exec.read_bind_ok] at h
  obtain ⟨⟨advert, _ | ⟨req, response⟩⟩, -, h⟩ := h
  · cases h
    rfl
  · obtain ⟨received, repo₁, happly, h⟩ := Exec.bind_ok.mp h
    cases h
    obtain ⟨r, repo₂, hreceive, hfs, halgo, -⟩ := receive_returns out req response repo
    cases hreceive.symm.trans happly
    exact RefStore.ext hfs halgo

/-- **A fetch with pruning** is the transfer, the updates, the listing and the deletes. -/
theorem fetchUpdate_ok_iff {out : Outside} {transport : Transport} {outcome : FetchOutcome}
    (remote : Str) (hfetch : doFetch out transport none none repo = some (.ok outcome, repo')) :
    ∃ wanted : BTreeSet Str, (∀ name, name ∈ wanted ↔ ∃ id, Tracked remote outcome.refs name id) ∧
      ∀ P : RefStore → Prop,
      (∃ n repo₂, fetchUpdate out transport remote true repo = some (.ok n, repo₂) ∧ P repo₂.refs) ↔
        ∃ refs₁ stale refs₂, updateAll (updates remote outcome.refs) repo.refs = (.ok (), refs₁) ∧
          staleRefs remote wanted refs₁ = .ok stale ∧
            deleteAll stale refs₁ = (.ok (), refs₂) ∧ P refs₂ := by
  obtain ⟨wanted, hwanted, hfold⟩ := foldlM_updateRef remote outcome.refs BTreeSet.empty repo'
  rw [refs_of_doFetch hfetch] at hfold
  have halgo := updateAll_algo (updates remote outcome.refs) repo.refs
  refine ⟨wanted, fun name => ?_, fun P => ?_⟩
  · rw [hwanted]
    exact or_iff_right (BTreeSet.not_mem_empty name)
  rw [fetchUpdate]
  simp only [Exec.bind_apply, Exec.andThen, hfetch, hfold, if_true]
  cases hupdates : updateAll (updates remote outcome.refs) repo.refs with
  | mk result refs₁ =>
    rw [hupdates] at halgo
    have hrefs : (withRefs repo' refs₁).refs = refs₁ :=
      refs_withRefs (halgo.trans (congrArg RefStore.algo (refs_of_doFetch hfetch)).symm)
    cases result with
    | error e =>
      constructor
      · rintro ⟨n, repo₂, hrun, -⟩
        cases hrun
      · rintro ⟨_, _, _, hok, -⟩
        cases hok
    | ok _ =>
      simp only [Except.map, Exec.read, hrefs]
      cases hstale : staleRefs remote wanted refs₁ with
      | error e =>
        constructor
        · rintro ⟨n, repo₂, hrun, -⟩
          cases hrun
        · rintro ⟨_, _, _, hok, hstale', -⟩
          cases hok
          cases hstale.symm.trans hstale'
      | ok stale =>
        simp only [forM_delete, hrefs]
        have halgo' := deleteAll_algo stale refs₁
        cases hdeletes : deleteAll stale refs₁ with
        | mk result refs₂ =>
          rw [hdeletes] at halgo'
          have hrefs' : (withRefs (withRefs repo' refs₁) refs₂).refs = refs₂ :=
            refs_withRefs (halgo'.trans (congrArg RefStore.algo hrefs).symm)
          constructor
          · rintro ⟨n, repo₂, hrun, hP⟩
            cases result with
            | error e => cases hrun
            | ok _ =>
              cases hrun
              exact ⟨refs₁, stale, refs₂, rfl, hstale, hdeletes, hrefs' ▸ hP⟩
          · rintro ⟨_, _, _, hok, hstale', hdeletes', hP⟩
            cases hok
            cases hstale.symm.trans hstale'
            cases hdeletes.symm.trans hdeletes'
            exact ⟨_, _, rfl, hrefs'.symm ▸ hP⟩

/-! ## What is listed -/

theorem isBelowRefs_of_updates {u : Str × ObjectId} (hu : u ∈ updates remote advert)
    (hname : IsRefName u.1) :
    IsBelowRefs u.1 := by
  have hprefix : startsWith u.1 (str "refs/") = true := by
    obtain ⟨r, -, hr⟩ := List.mem_filterMap.mp hu
    obtain ⟨-, -, ⟨branch, -, hname⟩ | ⟨hname, htag⟩⟩ := mapped_eq_some.mp hr
    · rw [hname]
      rfl
    · obtain ⟨tag, htag⟩ := List.isPrefixOf_iff_prefix.mp htag
      rw [hname, ← htag]
      rfl
  refine ⟨hname.resolve_right fun hhead => ?_, hprefix⟩
  rw [hhead] at hprefix
  cases hprefix

/-- The path of a ref below those of a remote. -/
theorem refPath_of_tracking (h : startsWith name (trackingPrefix remote) = true) :
    ∃ p, refPath name = [str "refs", str "remotes"] ++ p := by
  obtain ⟨branch, rfl⟩ := List.isPrefixOf_iff_prefix.mp h
  exact ⟨_, refPath_tracking remote branch⟩

theorem mem_staleRefs {wanted : BTreeSet Str} {stale : List Str} {listed : BTreeMap Str ObjectId}
    (hlist : refs.list = .ok listed) (h : staleRefs remote wanted refs = .ok stale) :
    name ∈ stale ↔ (listed.get? name).isSome ∧ startsWith name (trackingPrefix remote) = true ∧
      name ∉ wanted := by
  rw [staleRefs, hlist] at h
  cases h
  have hlisted : name ∈ listed.toList.map Prod.fst ↔ (listed.get? name).isSome := by
    rw [Option.isSome_iff_exists, List.mem_map]
    constructor
    · rintro ⟨⟨_, id⟩, hmem, rfl⟩
      exact ⟨id, BTreeMap.get?_eq_some.mpr hmem⟩
    · rintro ⟨id, hid⟩
      exact ⟨(name, id), BTreeMap.get?_eq_some.mp hid, rfl⟩
  rw [List.mem_filter, hlisted]
  simp

theorem packedId_isSome_iff {entries : List PackedRef} (hpacked : refs.packed = .ok entries) :
    (refs.packedId name).isSome ↔ (packedLast entries name).isSome := by
  rw [← not_iff_not, Bool.not_eq_true, Bool.not_eq_true, Option.isSome_eq_false_iff,
    Option.isSome_eq_false_iff,
    Option.isNone_iff_eq_none, Option.isNone_iff_eq_none, packedLast_eq_none, packedId, hpacked]
  simp [Except.toOption]

/-! ## Mirroring -/

section
variable {refs₁ refs₂ : RefStore} {wanted : BTreeSet Str} {stale : List Str}
  {listed : BTreeMap Str ObjectId}

/-- What leads below the refs of a remote is not packed-refs. -/
theorem ne_packedPath_of_tracking (h : startsWith name (trackingPrefix remote) = true) :
    refPath name ≠ packedPath := by
  obtain ⟨p, hp⟩ := refPath_of_tracking h
  rw [hp]
  exact nofun

/-- The stale refs can be deleted exactly when no packed one has a directory in its place. -/
theorem stale_noDir_iff (hwanted : ∀ name, name ∈ wanted ↔ ∃ id, Tracked remote advert name id)
    (hcan : ∀ u ∈ updates remote advert, CanUpdate refs.vfs u.1) (hplain : PlainNames refs.vfs)
    (hdir : RefsDir refs.vfs) {entries : List PackedRef} (hpacked : refs.packed = .ok entries)
    (hupdated : Updated (updates remote advert) refs refs₁)
    (hstale : staleRefs remote wanted refs₁ = .ok stale) :
    (∀ n ∈ stale, refs₁.vfs.get? (refPath n) ≠ some .dir) ↔ ∀ name, (refs.packedId name).isSome →
      startsWith name (trackingPrefix remote) = true → (∀ id, ¬Tracked remote advert name id) →
      refs.vfs.get? (refPath name) ≠ some .dir ∧ ∀ u ∈ updates remote advert,
        ¬refPath name <+: (refPath u.1).dropLast := by
  have hbelow : ∀ u ∈ updates remote advert, IsBelowRefs u.1 :=
    fun u hu => isBelowRefs_of_updates hu (hcan u hu).isRefName
  have hpacked₁ := (hupdated.packed hbelow).trans hpacked
  obtain ⟨listed, hlist, hget⟩ :=
    get?_list (hupdated.plainNames (fun u hu => (hcan u hu).isRefName) hplain)
    ((hupdated.refsDir_iff hbelow hcan).mpr hdir) hpacked₁
  constructor
  · intro h name hname hprefix huntracked
    -- a packed name with a directory in its place is listed, and stale
    have hno : refs₁.vfs.get? (refPath name) ≠ some .dir := by
      intro hd
      refine h name ((mem_staleRefs hlist hstale).mpr ⟨?_, hprefix, ?_⟩) hd
      · rw [(hget name).2, ← packedId_isSome_iff hpacked]
        · exact hname
        · rintro ⟨⟨hleaf, -⟩, -⟩
          rw [FileTree.leaf?, hd] at hleaf
          cases hleaf
      · rw [hwanted]
        rintro ⟨id, hid⟩
        exact huntracked id hid
    exact ⟨fun hd => hno (hupdated.dir_of_dir hcan hd), fun u hu hp => hno (hupdated.dir u hu _ hp)⟩
  · intro h n hn hd
    obtain ⟨hsome, hprefix, hunwanted⟩ := (mem_staleRefs hlist hstale).mp hn
    have hloose : ¬(refs₁.IsLoose n ∧ [str "refs"] <+: refPath n) := by
      rintro ⟨⟨hleaf, -⟩, -⟩
      rw [FileTree.leaf?, hd] at hleaf
      cases hleaf
    rw [(hget n).2 hloose, ← packedId_isSome_iff hpacked] at hsome
    obtain ⟨hbefore, hnew⟩ := h n hsome hprefix fun id hid => hunwanted ((hwanted n).mpr ⟨id, hid⟩)
    refine hbefore ?_
    rw [← hupdated.other _ fun u hu => ⟨fun heq => ?_, hnew u hu⟩]
    · exact hd
    · rw [heq, hupdated.file u hu] at hd
      cases hd

/-- A tracking ref of an advertised branch resolves to what is advertised, if the ref can hold
it. -/
theorem resolve_tracked (hclash : ClashFreeNames advert)
    (hcan : ∀ u ∈ updates remote advert, CanUpdate refs.vfs u.1)
    (hupdated : Updated (updates remote advert) refs refs₁) (hdeleted : Deleted stale refs₁ refs₂)
    (hkept : name ∉ stale) {id₀ : ObjectId} (htracked : Tracked remote advert name id₀) :
    (∀ id, refs₂.resolve name = .ok id ↔ Tracked remote advert name id) ↔ id₀.algo = refs.algo := by
  obtain ⟨hmem, hprefix⟩ := tracked_iff.mp htracked
  have halgo : refs₂.algo = refs.algo := hdeleted.algo.trans hupdated.algo
  constructor
  · intro h
    rw [← halgo]
    exact algo_of_resolve ((h id₀).mpr htracked)
  · intro hid₀ id
    have hleaf : refs₂.vfs.get? (refPath name) =
        some (.leaf (Reference.direct id₀).toFileContents) := by
      rw [hdeleted.other _ (ne_packedPath_of_tracking hprefix), if_neg, hupdated.file _ hmem]
      intro hpath
      obtain ⟨n, hn, heq⟩ := List.mem_map.mp hpath
      exact hkept (refPath_injective heq ▸ hn)
    have hcurrent := current_of_leaf? (resolve_refPath (hcan _ hmem).isRefName)
      (hid₀.trans halgo.symm) (FileTree.leaf?_eq_some.mpr hleaf)
    rw [resolve_eq_ok, hcurrent, Option.some.injEq]
    exact ⟨fun h => h ▸ htracked, fun h => tracked_unique hclash htracked h⟩

/-- What is not listed resolves to nothing. -/
theorem not_current_of_list (hplain : PlainNames refs₁.vfs) (hlist : refs₁.list = .ok listed)
    (hname : IsBelowRefs name) (hunlisted : listed.get? name = none) :
    refs₁.current name = none := by
  obtain ⟨hdir, entries, hpacked⟩ := list_ok hlist
  obtain ⟨_, hlist', hget⟩ := get?_list hplain hdir hpacked
  cases hlist.symm.trans hlist'
  by_cases hloose : refs₁.IsLoose name ∧ [str "refs"] <+: refPath name
  · rw [← (hget name).1 hloose]
    exact hunlisted
  · rw [(hget name).2 hloose] at hunlisted
    cases hleaf : refs₁.vfs.leaf? (refPath name) with
    | some d =>
      by_contra hcurrent
      refine hloose ⟨⟨hleaf ▸ rfl, Option.isSome_iff_ne_none.mpr hcurrent⟩, ?_⟩
      exact (prefix_dropLast_of_isBelowRefs hname).trans (List.dropLast_prefix _)
    | none =>
      have hid : refs₁.packedId name = none := by
        by_contra hid
        have hsome := (packedId_isSome_iff hpacked).mp (Option.isSome_iff_ne_none.mpr hid)
        rw [hunlisted] at hsome
        cases hsome
      rw [current_of_no_leaf (resolve_refPath (Or.inl hname.1)) hleaf, hid, ite_self]

/-- A ref that was listed and deleted, or was not listed, resolves to nothing. -/
theorem not_resolve_untracked (hplain : PlainNames refs₁.vfs) (hlist : refs₁.list = .ok listed)
    (hdeleted : Deleted stale refs₁ refs₂) (hname : IsBelowRefs name)
    (hpath : refPath name ≠ packedPath) (hstale : (listed.get? name).isSome → name ∈ stale) :
    refs₂.resolve name ≠ .ok id := by
  obtain ⟨-, entries, hpacked⟩ := list_ok hlist
  rw [Ne, resolve_eq_ok]
  have href : IsRefName name := Or.inl hname.1
  suffices hnone : refs₂.current name = none by
    rw [hnone]
    exact nofun
  by_cases hmem : name ∈ stale
  · refine current_of_none ?_
    rw [value?_refPath href, hdeleted.other _ hpath, if_pos (List.mem_map_of_mem hmem),
      hdeleted.packedId hpacked, if_pos hmem]
    rfl
  · -- what is not listed did not resolve before
    have hbefore := not_current_of_list hplain hlist hname
      (Option.not_isSome_iff_eq_none.mp fun h => hmem (hstale h))
    rcases hdeleted.current_fewer hpacked href with h | h
    · rw [h, hbefore]
    · exact h

/-- What is tracked is not stale. -/
theorem not_stale_of_tracked (hwanted : ∀ name, name ∈ wanted ↔ ∃ id, Tracked remote advert name id)
    (hlist : refs₁.list = .ok listed) (hstale : staleRefs remote wanted refs₁ = .ok stale)
      (hid : Tracked remote advert name id) : name ∉ stale := fun hmem =>
  ((mem_staleRefs hlist hstale).mp hmem).2.2 ((hwanted name).mpr ⟨id, hid⟩)

/-- What is stale leads to its path. -/
theorem leadsToPath_of_stale (hplain : PlainNames refs₁.vfs) (hlist : refs₁.list = .ok listed)
    (hstale : staleRefs remote wanted refs₁ = .ok stale) : ∀ n ∈ stale, LeadsToPath n := by
  intro n hn
  obtain ⟨hsome, hprefix, -⟩ := (mem_staleRefs hlist hstale).mp hn
  obtain ⟨id, hid⟩ := Option.isSome_iff_exists.mp hsome
  exact leadsToPath_of_list hplain hlist hid (ne_packedPath_of_tracking hprefix)

/-- Refs that have come to mirror an advertisement let them. -/
theorem mirrorable_of_mirrors (hclash : ClashFreeNames advert) (hplain : PlainNames refs.vfs)
    (hwanted : ∀ name, name ∈ wanted ↔ ∃ id, Tracked remote advert name id)
    (hrun : updateAll (updates remote advert) refs = (.ok (), refs₁))
    (hstale : staleRefs remote wanted refs₁ = .ok stale)
    (hdelete : deleteAll stale refs₁ = (.ok (), refs₂)) (hmirrors : Mirrors remote advert refs₂) :
    Mirrorable remote advert refs := by
  have hapart := @pathsApart_updates remote advert hclash
  have hcan := (updateAll_ok_iff hapart).mp ⟨refs₁, hrun⟩
  have hupdated := updated_of_updateAll hapart hrun
  have hbelow : ∀ u ∈ updates remote advert, IsBelowRefs u.1 :=
    fun u hu => isBelowRefs_of_updates hu (hcan u hu).isRefName
  have hplain₁ := hupdated.plainNames (fun u hu => (hcan u hu).isRefName) hplain
  obtain ⟨listed, hlist, -⟩ := except_map_ok.mp hstale
  obtain ⟨hdir₁, entries, hpacked₁⟩ := list_ok hlist
  have hdir := (hupdated.refsDir_iff hbelow hcan).mp hdir₁
  have hpacked := (hupdated.packed hbelow).symm.trans hpacked₁
  obtain ⟨hiff, hspec⟩ := deleteAll_spec (leadsToPath_of_stale hplain₁ hlist hstale) hpacked₁
  have hdeleted := hspec refs₂ hdelete
  refine ⟨hcan, fun name id hid => ?_, ⟨entries, hpacked⟩, hdir, ?_⟩
  · obtain ⟨hmem, hprefix⟩ := tracked_iff.mp hid
    refine (resolve_tracked hclash hcan hupdated hdeleted
      (not_stale_of_tracked hwanted hlist hstale hid) hid).mp fun id' => ?_
    exact hmirrors name id' (hbelow _ hmem).1 hprefix
  · exact (stale_noDir_iff hwanted hcan hplain hdir hpacked hupdated hstale).mp
      (hiff.mp ⟨refs₂, hdelete⟩)

/-- Refs that let them come to mirror an advertisement. -/
theorem mirrors_of_mirrorable (hclash : ClashFreeNames advert) (hplain : PlainNames refs.vfs)
    (hwanted : ∀ name, name ∈ wanted ↔ ∃ id, Tracked remote advert name id)
    (h : Mirrorable remote advert refs) :
    ∃ refs₁ stale refs₂, updateAll (updates remote advert) refs = (.ok (), refs₁) ∧
      staleRefs remote wanted refs₁ = .ok stale ∧ deleteAll stale refs₁ = (.ok (), refs₂) ∧
        Mirrors remote advert refs₂ := by
  obtain ⟨hcan, halgo, ⟨entries, hpacked⟩, hdir, hnoDir⟩ := h
  have hapart := @pathsApart_updates remote advert hclash
  obtain ⟨refs₁, hrun⟩ := (updateAll_ok_iff hapart).mpr hcan
  have hupdated := updated_of_updateAll hapart hrun
  have hbelow : ∀ u ∈ updates remote advert, IsBelowRefs u.1 :=
    fun u hu => isBelowRefs_of_updates hu (hcan u hu).isRefName
  have hplain₁ := hupdated.plainNames (fun u hu => (hcan u hu).isRefName) hplain
  have hpacked₁ := (hupdated.packed hbelow).trans hpacked
  obtain ⟨listed, hlist, -⟩ :=
    get?_list hplain₁ ((hupdated.refsDir_iff hbelow hcan).mpr hdir) hpacked₁
  obtain ⟨stale, hstale⟩ : ∃ stale, staleRefs remote wanted refs₁ = .ok stale :=
    ⟨_, except_map_ok.mpr ⟨listed, hlist, rfl⟩⟩
  obtain ⟨hiff, hspec⟩ := deleteAll_spec (leadsToPath_of_stale hplain₁ hlist hstale) hpacked₁
  obtain ⟨refs₂, hdelete⟩ :=
    hiff.mpr ((stale_noDir_iff hwanted hcan hplain hdir hpacked hupdated hstale).mpr hnoDir)
  have hdeleted := hspec refs₂ hdelete
  refine ⟨refs₁, stale, refs₂, hrun, hstale, hdelete, fun name id hname hprefix => ?_⟩
  by_cases htracked : ∃ id₀, Tracked remote advert name id₀
  · obtain ⟨id₀, hid₀⟩ := htracked
    have hkept := not_stale_of_tracked hwanted hlist hstale hid₀
    exact (resolve_tracked hclash hcan hupdated hdeleted hkept hid₀).mpr (halgo name id₀ hid₀) id
  · refine iff_of_false ?_ fun hid => htracked ⟨id, hid⟩
    refine not_resolve_untracked hplain₁ hlist hdeleted ⟨hname, ?_⟩
      (ne_packedPath_of_tracking hprefix) fun hsome => ?_
    · obtain ⟨branch, rfl⟩ := List.isPrefixOf_iff_prefix.mp hprefix
      rfl
    · exact (mem_staleRefs hlist hstale).mpr ⟨hsome, hprefix, fun hmem =>
        htracked ((hwanted name).mp hmem)⟩

end

/-- **A fetch mirrors a remote exactly when the refs of the client let it.** -/
theorem fetchUpdate_mirrors_iff {out : Outside} {transport : Transport} {outcome : FetchOutcome}
    (remote : Str) (hplain : PlainNames repo.fs)
    (hfetch : doFetch out transport none none repo = some (.ok outcome, repo'))
    (hclash : ClashFreeNames outcome.refs) :
    (∃ n repo₂, fetchUpdate out transport remote true repo = some (.ok n, repo₂) ∧
      Mirrors remote outcome.refs repo₂.refs) ↔
      Mirrorable remote outcome.refs repo.refs := by
  obtain ⟨wanted, hwanted, hrun⟩ := fetchUpdate_ok_iff remote hfetch
  rw [hrun]
  constructor
  · rintro ⟨refs₁, stale, refs₂, hupdate, hstale, hdelete, hmirrors⟩
    exact mirrorable_of_mirrors hclash hplain hwanted hupdate hstale hdelete hmirrors
  · exact mirrors_of_mirrorable hclash hplain hwanted

/-! ## A branch that becomes a directory -/

namespace UpdateSample

/-- A commit the remote has. -/
def tip : ObjectId := .filled 0x11

/-- A remote with one branch, whose packs are empty. -/
def serving (branch : Str) : Transport where
  discover := .ok ⟨[⟨str "refs/heads/" ++ branch, tip⟩], Capabilities.new, .sha1⟩
  exchange _ := .ok (bytes "0008NAK\n" ++ packSignature ++ [0, 0, 0, 2, 0, 0, 0, 0] ++
    List.replicate 20 0)

/-- A new repository after a fetch of the branch `a`. -/
def client : Repository :=
  match fetchUpdate .sorted (serving (str "a")) (str "origin") true (.init .stored .sha .sha1) with
  | some (_, repo) => repo
  | none => .init .stored .sha .sha1

/-- The client tracks `a`.  The transfer succeeds when the remote has replaced that by `a/b`, and
the update does not. -/
theorem client_runs : client.refs.resolve (str "refs/remotes/origin/a") = .ok tip ∧
    ((doFetch .sorted (serving (str "a/b")) none none client).map fun r =>
      r.1.map FetchOutcome.refs) =
      some (.ok [⟨str "refs/heads/a/b", tip⟩]) ∧
    ((fetchUpdate .sorted (serving (str "a/b")) (str "origin") true client).map fun r =>
      r.1.toBool) = some false ∧
    (client.fs.entries.toList.all fun b => b.1.all fun c => Vfs.isNormalComponent c &&
      c != str ".." && !c.contains '/' && !c.contains (Char.ofNat 0)) = true := by
  decide +kernel

theorem plainNames_client : PlainNames client.fs :=
  plainNames_of_all client_runs.2.2.2

/-- The transfer of the second fetch. -/
theorem exists_fetched : ∃ outcome repo', doFetch .sorted (serving (str "a/b")) none none client =
    some (.ok outcome, repo') ∧
    outcome.refs = [⟨str "refs/heads/a/b", tip⟩] := by
  obtain ⟨⟨r, repo'⟩, hrun, hr⟩ := Option.map_eq_some_iff.mp client_runs.2.1
  obtain ⟨outcome, rfl, hrefs⟩ := except_map_ok.mp hr
  exact ⟨outcome, repo', hrun, hrefs⟩

theorem not_updated {n : Nat} {repo₂ : Repository} :
    fetchUpdate .sorted (serving (str "a/b")) (str "origin") true client ≠ some (.ok n, repo₂) := by
  intro h
  have hfail := client_runs.2.2.1
  rw [h] at hfail
  cases hfail

/-- The client does not let the fetch mirror the remote. -/
theorem client_not_mirrorable :
    ∃ outcome : FetchOutcome, outcome.refs = [⟨str "refs/heads/a/b", tip⟩] ∧
    ¬Mirrorable (str "origin") outcome.refs client.refs := by
  obtain ⟨outcome, repo', hfetch, hrefs⟩ := exists_fetched
  have hclash : ClashFreeNames outcome.refs := hrefs ▸ List.pairwise_singleton _ _
  refine ⟨outcome, hrefs, fun hm => ?_⟩
  obtain ⟨n, repo₂, hrun, -⟩ :=
    (fetchUpdate_mirrors_iff (str "origin") plainNames_client hfetch hclash).mpr hm
  exact not_updated hrun

/-- **A fetch does not always mirror**: the remote has replaced `a` by `a/b` since the last one. -/
theorem not_fetchUpdate_mirrors :
    ¬∀ (out : Outside) (transport : Transport) (remote : Str) (outcome : FetchOutcome)
    (repo repo' : Repository), PlainNames repo.fs →
      doFetch out transport none none repo = some (.ok outcome, repo') →
    (∀ r ∈ outcome.refs, isValidRefName r.name = true) → ClashFreeNames outcome.refs →
    ∃ n repo₂, fetchUpdate out transport remote true repo = some (.ok n, repo₂) ∧
      Mirrors remote outcome.refs repo₂.refs := by
  intro h
  obtain ⟨outcome, repo', hfetch, hrefs⟩ := exists_fetched
  have hvalid : ∀ r ∈ outcome.refs, isValidRefName r.name = true := by
    rw [hrefs, List.forall_mem_singleton]
    decide
  obtain ⟨n, repo₂, hrun, -⟩ := h _ _ (str "origin") _ _ _ plainNames_client hfetch hvalid
    (hrefs ▸ List.pairwise_singleton _ _)
  exact not_updated hrun

end UpdateSample

end Client
end Puregit
