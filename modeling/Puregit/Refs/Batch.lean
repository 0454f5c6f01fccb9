import Puregit.Refs.History
import Puregit.Refs.List

/-! # Many refs at once

Refs are updated and deleted one after the other, and the first that cannot be ends it.  Updates
of refs whose paths are apart do not get into each other's way: all of them can be made where each
can be, and `updated_of_updateAll` says what is there afterwards.  A delete leaves every directory,
so that all can be made where no directory is in the place of any: `deleteAll_ok_iff`.
-/
namespace Puregit.RefStore

/-- Points refs at ids, one after the other. -/
def updateAll : List (Str × ObjectId) → RefStore → Except Error Unit × RefStore
  | [], refs => (.ok (), refs)
  | (name, id) :: us, refs =>
    match refs.update name (.direct id) with
    | (.ok (), refs) => updateAll us refs
    | (.error e, refs) => (.error e, refs)

/-- Deletes refs, one after the other. -/
def deleteAll : List Str → RefStore → Except Error Unit × RefStore
  | [], refs => (.ok (), refs)
  | name :: names, refs =>
    match refs.delete name with
    | (.ok (), refs) => deleteAll names refs
    | (.error e, refs) => (.error e, refs)

/-! ## Updates -/

variable {refs refs' : RefStore} {name other : Str} {id : ObjectId} {us : List (Str × ObjectId)}

/-- Neither of two refs is at the path of the other, or above it. -/
def PathsApart (name other : Str) : Prop :=
  ¬refPath name <+: refPath other ∧ ¬refPath other <+: refPath name

/-- No lock is at the path of a ref or above it. -/
theorem not_lockPath_prefix {a b : Str} (hb : IsRefName b) : ¬lockPath a <+: refPath b := by
  intro h
  have hmem : (refPath a).getLast (refPath_ne_nil a) ++ str ".lock" ∈ refPath b := by
    refine h.subset ?_
    rw [lockPath_eq]
    simp
  have hend : endsWith ((refPath a).getLast (refPath_ne_nil a) ++ str ".lock")
      (str ".lock") = true :=
    List.isSuffixOf_iff_suffix.mpr (List.suffix_append _ _)
  rcases hb with hb | rfl
  · rw [(component_of_isValidRefName hb hmem).2.2] at hend
    cases hend
  · have hone : refPath (str "HEAD") = [str "HEAD"] := by decide
    rw [hone, List.mem_singleton] at hmem
    rw [hmem] at hend
    revert hend
    decide

/-- An update does not make or unmake the update of a ref whose path is apart. -/
theorem canUpdate_update (hcan : CanUpdate refs.vfs name) (hapart : PathsApart name other) :
    CanUpdate (refs.update name (.direct id)).2.vfs other ↔ CanUpdate refs.vfs other := by
  obtain ⟨-, -, hget⟩ := update_of_canUpdate (.direct id) hcan
  have hfile : (refs.update name (.direct id)).2.vfs.get? (refPath other) =
      refs.vfs.get? (refPath other) := by
    rw [hget, if_neg, if_neg fun h => hapart.2 (h.trans (List.dropLast_prefix _))]
    exact fun heq => hapart.2 (heq ▸ List.prefix_rfl)
  constructor
  · intro h
    refine ⟨⟨h.isRefName, fun q d hq hleaf => ?_, ?_⟩, fun hdir => h.file (hfile.trans hdir)⟩
    · refine h.way q d hq ?_
      rw [hget, if_neg, if_neg fun hp => hcan.way q d hp hleaf, hleaf]
      exact fun heq => hapart.1 (heq ▸ hq.trans (List.dropLast_prefix _))
    · have hunlocked := h.unlocked
      rw [hget] at hunlocked
      split at hunlocked
      · cases hunlocked
      split at hunlocked
      · cases hunlocked
      · exact hunlocked
  · intro h
    refine ⟨⟨h.isRefName, fun q d hq hleaf => ?_, ?_⟩, fun hdir => h.file (hfile.symm.trans hdir)⟩
    · rw [hget] at hleaf
      split at hleaf
      · rename_i heq
        exact hapart.1 (heq ▸ hq.trans (List.dropLast_prefix _))
      split at hleaf
      · cases hleaf
      · exact h.way q d hq hleaf
    · rw [hget, if_neg (lockPath_ne_refPath hcan.isRefName),
        if_neg fun hp => not_lockPath_prefix hcan.isRefName
          (hp.trans (List.dropLast_prefix _)), h.unlocked]

/-- What a batch of updates leaves: the files and their directories, and the rest as it was. -/
structure Updated (us : List (Str × ObjectId)) (refs refs' : RefStore) : Prop where
  algo : refs'.algo = refs.algo
  file : ∀ u ∈ us, refs'.vfs.get? (refPath u.1) = some (.leaf (Reference.direct u.2).toFileContents)
  dir : ∀ u ∈ us, ∀ q, q <+: (refPath u.1).dropLast → refs'.vfs.get? q = some .dir
  other : ∀ q, (∀ u ∈ us, q ≠ refPath u.1 ∧ ¬q <+: (refPath u.1).dropLast) →
    refs'.vfs.get? q = refs.vfs.get? q

/-- **Refs whose paths are apart are updated where each can be.** -/
theorem updateAll_ok_iff (hapart : us.Pairwise fun u v => PathsApart u.1 v.1) :
    (∃ refs', updateAll us refs = (.ok (), refs')) ↔ ∀ u ∈ us, CanUpdate refs.vfs u.1 := by
  induction us generalizing refs with
  | nil => exact ⟨fun _ => nofun, fun _ => ⟨refs, rfl⟩⟩
  | cons u us ih =>
    obtain ⟨hhead, htail⟩ := List.pairwise_cons.mp hapart
    rw [updateAll]
    by_cases hcan : CanUpdate refs.vfs u.1
    · have hrun : refs.update u.1 (.direct u.2) = (.ok (), (refs.update u.1 (.direct u.2)).2) :=
        Prod.ext (update_of_canUpdate (.direct u.2) hcan).1 rfl
      rw [hrun]
      simp only
      rw [ih htail, List.forall_mem_cons]
      exact ⟨fun h => ⟨hcan, fun v hv => (canUpdate_update hcan (hhead v hv)).mp (h v hv)⟩,
        fun h v hv => (canUpdate_update hcan (hhead v hv)).mpr (h.2 v hv)⟩
    · obtain ⟨e, he⟩ := update_of_not_canUpdate (.direct u.2) hcan
      rw [he]
      exact ⟨fun ⟨_, h⟩ => (by cases h), fun h => absurd (h u List.mem_cons_self) hcan⟩

theorem updated_of_updateAll (hapart : us.Pairwise fun u v => PathsApart u.1 v.1)
    (h : updateAll us refs = (.ok (), refs')) : Updated us refs refs' := by
  induction us generalizing refs with
  | nil =>
    cases h
    exact ⟨rfl, nofun, nofun, fun _ _ => rfl⟩
  | cons u us ih =>
    obtain ⟨hhead, htail⟩ := List.pairwise_cons.mp hapart
    have hcan := (updateAll_ok_iff hapart).mp ⟨refs', h⟩ u List.mem_cons_self
    obtain ⟨hok, halgo, hget⟩ := update_of_canUpdate (.direct u.2) hcan
    rw [updateAll, show refs.update u.1 (.direct u.2) =
      (.ok (), (refs.update u.1 (.direct u.2)).2) from Prod.ext hok rfl] at h
    have hrest := ih htail h
    refine ⟨hrest.algo.trans halgo, List.forall_mem_cons.mpr ⟨?_, hrest.file⟩,
      List.forall_mem_cons.mpr ⟨fun q hq => ?_, hrest.dir⟩,
      fun q hq => ?_⟩
    · rw [hrest.other, hget, if_pos rfl]
      exact fun v hv => ⟨fun heq => (hhead v hv).1 (heq ▸ List.prefix_rfl), fun hp =>
        (hhead v hv).1 (hp.trans (List.dropLast_prefix _))⟩
    · -- a directory of the first update, if no later one makes it again
      by_cases hlater : ∃ v ∈ us, q <+: (refPath v.1).dropLast
      · obtain ⟨v, hv, hp⟩ := hlater
        exact hrest.dir v hv q hp
      · rw [hrest.other q, hget, if_neg, if_pos hq]
        · rintro rfl
          have hlen := hq.length_le
          rw [List.length_dropLast] at hlen
          have := List.length_pos_iff.mpr (refPath_ne_nil u.1)
          omega
        · exact fun v hv => ⟨fun heq => (hhead v hv).2 (heq ▸ hq.trans (List.dropLast_prefix _)),
            fun hp => hlater ⟨v, hv, hp⟩⟩
    · obtain ⟨hfirst, hlater⟩ := List.forall_mem_cons.mp hq
      rw [hrest.other q hlater, hget, if_neg hfirst.1, if_neg hfirst.2]

/-- What was there is still there. -/
theorem Updated.dir_of_dir (h : Updated us refs refs') (hcan : ∀ u ∈ us, CanUpdate refs.vfs u.1)
    {q : List Str} (hq : refs.vfs.get? q = some .dir) : refs'.vfs.get? q = some .dir := by
  by_cases hdir : ∃ u ∈ us, q <+: (refPath u.1).dropLast
  · obtain ⟨u, hu, hp⟩ := hdir
    exact h.dir u hu q hp
  · rw [h.other q, hq]
    exact fun u hu => ⟨fun heq => (hcan u hu).file (heq ▸ hq), fun hp => hdir ⟨u, hu, hp⟩⟩

/-- Nothing is made in the place of packed-refs. -/
theorem Updated.packed (h : Updated us refs refs') (hbelow : ∀ u ∈ us, IsBelowRefs u.1) :
    refs'.packed = refs.packed := by
  refine packed_congr h.algo (h.other packedPath fun u hu => ⟨fun heq => ?_, fun hp => ?_⟩)
  · exact not_packedPath_prefix (hbelow u hu) (heq ▸ List.prefix_rfl)
  · exact not_packedPath_prefix (hbelow u hu) (hp.trans (List.dropLast_prefix _))

/-- What is above the path of a ref below `refs/`, or there, starts with `refs`. -/
theorem prefix_dropLast_of_isBelowRefs (h : IsBelowRefs name) :
    [str "refs"] <+: (refPath name).dropLast := by
  obtain ⟨c, cs, hpath⟩ := refPath_of_isBelowRefs h
  rw [hpath]
  exact ⟨(c :: cs).dropLast, rfl⟩

/-- A file in the place of `refs` stays there. -/
theorem Updated.refsDir_iff (h : Updated us refs refs') (hbelow : ∀ u ∈ us, IsBelowRefs u.1)
    (hcan : ∀ u ∈ us, CanUpdate refs.vfs u.1) : RefsDir refs'.vfs ↔ RefsDir refs.vfs := by
  cases us with
  | nil =>
    rw [RefsDir, RefsDir, FileTree.leaf?, FileTree.leaf?, h.other [str "refs"] fun u hu =>
      absurd hu List.not_mem_nil]
  | cons u us =>
    have hu : u ∈ u :: us := List.mem_cons_self
    have hp := prefix_dropLast_of_isBelowRefs (hbelow u hu)
    refine iff_of_true ?_ ?_
    · rw [RefsDir, FileTree.leaf?, h.dir u hu _ hp]
    · refine Option.eq_none_iff_forall_ne_some.mpr fun d hd => ?_
      exact (hcan u hu).way _ d hp (FileTree.leaf?_eq_some.mp hd)

/-- The components of a ref are plain names. -/
theorem plain_of_isRefName (hname : IsRefName name) {c : Str} (hc : c ∈ refPath name) :
    Vfs.isNormalComponent c = true ∧ c ≠ str ".." ∧ '/' ∉ c ∧ Char.ofNat 0 ∉ c := by
  obtain ⟨hne, hdot⟩ := component_of_isRefName hname hc
  have hhead : ∀ r, c ≠ '.' :: r := by
    rintro r rfl
    simp [startsWith, List.isPrefixOf] at hdot
  refine ⟨?_, hhead _, not_mem_of_mem_splitOn hc, fun hnul =>
    nul_notMem_of_isRefName hname (mem_of_mem_splitOn hc hnul)⟩
  simp [Vfs.isNormalComponent, hne, hhead []]

theorem Updated.plainNames (h : Updated us refs refs') (hname : ∀ u ∈ us, IsRefName u.1)
    (hplain : PlainNames refs.vfs) :
    PlainNames refs'.vfs := by
  intro p e hp c hc
  by_cases hnew : ∃ u ∈ us, p <+: refPath u.1
  · obtain ⟨u, hu, hpre⟩ := hnew
    exact plain_of_isRefName (hname u hu) (hpre.subset hc)
  · refine hplain p e ?_ c hc
    rw [← h.other p fun u hu => ⟨fun heq => hnew ⟨u, hu, heq ▸ List.prefix_rfl⟩,
      fun hpre => hnew ⟨u, hu, hpre.trans (List.dropLast_prefix _)⟩⟩]
    exact hp

/-! ## Deletes -/

variable {names : List Str}

/-- Deleting the packed entries of a name leaves packed-refs as it is, or written anew. -/
theorem get?_deletePacked (h : refs.deletePacked name = .ok refs') :
    refs'.vfs.get? packedPath = refs.vfs.get? packedPath ∨
      ∃ entries, refs'.vfs.get? packedPath = some (.leaf (serializePackedRefs entries)) := by
  obtain ⟨contents, hcontents, hwrite⟩ := except_bind_ok.mp h
  cases contents with
  | none =>
    cases hwrite
    exact Or.inl rfl
  | some d =>
    obtain ⟨fs', hfs, rfl⟩ := except_map_ok.mp hwrite
    refine Or.inr ?_
    rw [packedWithout] at hcontents
    split at hcontents
    · obtain ⟨_, -, hcontents⟩ := except_bind_ok.mp hcontents
      obtain ⟨entries, -, hcontents⟩ := except_bind_ok.mp hcontents
      split at hcontents
      · cases hcontents
        refine ⟨entries.filter fun e => e.name ≠ name, ?_⟩
        show fs'.get? packedPath = _
        rw [Vfs.get?_write resolve_packed hfs, if_pos rfl]
      · cases hcontents
    · cases hcontents

/-- A name that leads to its path, which is not that of packed-refs. -/
def LeadsToPath (name : Str) : Prop :=
  Vfs.resolve name = .ok ⟨refPath name, false⟩ ∧ refPath name ≠ packedPath

/-- What a batch of deletes leaves. -/
structure Deleted (names : List Str) (refs refs' : RefStore) : Prop where
  algo : refs'.algo = refs.algo
  packed : ∀ entries, refs.packed = .ok entries →
    refs'.packed = .ok (entries.filter fun e => e.name ∉ names)
  other : ∀ q, q ≠ packedPath → refs'.vfs.get? q = if q ∈ names.map refPath then none
    else refs.vfs.get? q
  packedFile : refs'.vfs.get? packedPath = refs.vfs.get? packedPath ∨
    ∃ entries, refs'.vfs.get? packedPath = some (.leaf (serializePackedRefs entries))

/-- One ref is deleted unless a directory is at its path. -/
theorem delete_spec (hname : LeadsToPath name) {entries : List PackedRef}
    (hpacked : refs.packed = .ok entries) :
    (refs.vfs.get? (refPath name) = some .dir → ∃ e, (refs.delete name).1 = .error e) ∧
    (refs.vfs.get? (refPath name) ≠ some .dir → ∃ refs', refs.delete name = (.ok (), refs') ∧
      Deleted [name] refs refs') := by
  have hstat := Vfs.stat_of_resolve refs.vfs hname.1
  have hdir : Vfs.stat refs.vfs name = .ok .dir ↔ refs.vfs.get? (refPath name) = some .dir := by
    rw [hstat]
    split <;> simp_all
  constructor
  · intro h
    rw [delete, deleteLoose_of_dir (hdir.mpr h)]
    exact ⟨_, rfl⟩
  · intro h
    obtain ⟨mid, hmid, halgo, hget⟩ := deleteLoose_spec fun hstat => h (hdir.mp hstat)
    have hpath : ∀ q, filePath refs.vfs name = some q → q = refPath name := by
      intro q hq
      obtain ⟨_, hr, -⟩ := filePath_eq_some.mp hq
      cases hname.1.symm.trans hr
      rfl
    have hsame : mid.vfs.get? packedPath = refs.vfs.get? packedPath := by
      rw [hget, if_neg fun hp => hname.2 (hpath _ hp).symm]
    obtain ⟨refs', hrun, halgo', hpacked', hother, -⟩ :=
      (deletePacked_spec mid name).2 entries ((packed_congr halgo hsame).trans hpacked)
    have hall : refs.delete name = (.ok (), refs') := by
      rw [delete, hmid]
      simp only [hrun]
    refine ⟨refs', hall, ⟨halgo'.trans halgo, ?_, fun q hq => ?_, ?_⟩⟩
    · intro found hfound
      cases hpacked.symm.trans hfound
      rw [hpacked']
      simp
    · rw [hother q hq, hget]
      by_cases hq : q = refPath name
      · -- what is not a file there is nothing
        have hmem : q ∈ [name].map refPath := by simp [hq]
        rw [if_pos hmem]
        split
        · rfl
        · rename_i hno
          cases hleaf : refs.vfs.get? q with
          | none => rfl
          | some e =>
            cases e with
            | dir => exact absurd (hq ▸ hleaf) h
            | leaf d => exact absurd (filePath_eq_some.mpr ⟨d, hq ▸ hname.1, hleaf⟩) hno
      · have hmem : q ∉ [name].map refPath := by simpa using hq
        rw [if_neg fun hp => hq (hpath _ hp), if_neg hmem]
    · rw [← hsame]
      exact get?_deletePacked hrun

/-- A delete leaves the directories. -/
theorem Deleted.dir_iff (h : Deleted names refs refs') {q : List Str}
    (hnames : ∀ n ∈ names, refs.vfs.get? (refPath n) ≠ some .dir)
    (hq : q ≠ packedPath) : refs'.vfs.get? q = some .dir ↔ refs.vfs.get? q = some .dir := by
  rw [h.other q hq]
  split
  · rename_i hmem
    obtain ⟨n, hn, rfl⟩ := List.mem_map.mp hmem
    exact iff_of_false nofun (hnames n hn)
  · rfl

theorem Deleted.cons {refs'' : RefStore} (h : Deleted [name] refs refs')
    (h' : Deleted names refs' refs'') :
    Deleted (name :: names) refs refs'' := by
  refine ⟨h'.algo.trans h.algo, fun entries hentries => ?_, fun q hq => ?_, ?_⟩
  · rw [h'.packed _ (h.packed entries hentries), List.filter_filter]
    congr 2
    funext e
    simp [Bool.and_comm]
  · rw [h'.other q hq, h.other q hq]
    by_cases htail : q ∈ names.map refPath
    · have hmem : q ∈ (name :: names).map refPath := List.mem_cons_of_mem _ htail
      rw [if_pos htail, if_pos hmem]
    · rw [if_neg htail]
      by_cases hhead : q = refPath name
      · rw [if_pos (by simp [hhead]), if_pos (by simp [hhead])]
      · rw [if_neg (by simpa using hhead), if_neg]
        exact fun hmem => htail ((List.mem_cons.mp hmem).resolve_left hhead)
  · rcases h'.packedFile with hsame | hnew
    · rw [hsame]
      exact h.packedFile
    · exact Or.inr hnew

/-- **Refs are deleted where a directory is at the path of none.** -/
theorem deleteAll_spec (hnames : ∀ n ∈ names, LeadsToPath n) {entries : List PackedRef}
    (hpacked : refs.packed = .ok entries) :
    ((∃ refs', deleteAll names refs = (.ok (), refs')) ↔ ∀ n ∈ names,
      refs.vfs.get? (refPath n) ≠ some .dir) ∧
    ∀ refs', deleteAll names refs = (.ok (), refs') → Deleted names refs refs' := by
  induction names generalizing refs entries with
  | nil =>
    refine ⟨⟨fun _ => nofun, fun _ => ⟨refs, rfl⟩⟩, fun refs' h => ?_⟩
    cases h
    exact ⟨rfl, fun es hes => by simpa using hes, fun _ _ => by simp, Or.inl rfl⟩
  | cons n names ih =>
    obtain ⟨hn, htail⟩ := List.forall_mem_cons.mp hnames
    obtain ⟨herror, hok⟩ := delete_spec hn hpacked
    rw [deleteAll]
    by_cases hdir : refs.vfs.get? (refPath n) = some .dir
    · obtain ⟨e, he⟩ := herror hdir
      rw [show refs.delete n = (.error e, (refs.delete n).2) from Prod.ext he rfl]
      refine ⟨⟨fun ⟨_, h⟩ => (by cases h), fun h => absurd hdir (h n List.mem_cons_self)⟩,
        fun refs' h => ?_⟩
      cases h
    · obtain ⟨refs₁, hrun, hdeleted⟩ := hok hdir
      rw [hrun]
      simp only
      obtain ⟨hiff, hspec⟩ := ih htail (hdeleted.packed entries hpacked)
      refine ⟨?_, fun refs' h => hdeleted.cons (hspec refs' h)⟩
      rw [hiff, List.forall_mem_cons]
      have hsame : ∀ m ∈ names, (refs₁.vfs.get? (refPath m) ≠ some .dir ↔
          refs.vfs.get? (refPath m) ≠ some .dir) := fun m hm =>
        not_congr (hdeleted.dir_iff (by simpa using hdir) (htail m hm).2)
      exact ⟨fun h => ⟨hdir, fun m hm => (hsame m hm).mp (h m hm)⟩, fun h m hm =>
        (hsame m hm).mpr (h.2 m hm)⟩

/-- After deletes the packed refs have fewer names. -/
theorem Deleted.packedId (h : Deleted names refs refs') {entries : List PackedRef}
    (hpacked : refs.packed = .ok entries) (m : Str) :
    refs'.packedId m = if m ∈ names then none else refs.packedId m := by
  rw [RefStore.packedId, RefStore.packedId, h.packed entries hpacked, hpacked]
  simp only [Except.toOption, Option.bind_some]
  have hfind : (entries.filter fun e => e.name ∉ names).find? (·.name = m) =
      if m ∈ names then none else entries.find? (·.name = m) := by
    rw [List.find?_filter]
    split
    · rename_i hm
      rw [List.find?_eq_none]
      simp only [decide_eq_true_eq, not_and]
      exact fun e _ hne he => hne (he ▸ hm)
    · rename_i hm
      congr 1
      funext e
      simp only [decide_eq_true_eq, decide_eq_decide, and_iff_right_iff_imp]
      exact fun he hen => hm (he ▸ hen)
  rw [hfind]
  split <;> rfl

/-- A delete gives no ref a value. -/
theorem Deleted.value?_fewer (h : Deleted names refs refs') {entries : List PackedRef}
    (hpacked : refs.packed = .ok entries) (hname : IsRefName name) :
    refs'.value? name = refs.value? name ∨ refs'.value? name = none := by
  rw [value?_refPath hname, value?_refPath hname, h.algo, h.packedId hpacked]
  by_cases hp : refPath name = packedPath
  · rw [hp]
    rcases h.packedFile with hsame | ⟨es, hnew⟩
    · rw [hsame]
      split
      · exact Or.inl rfl
      · exact Or.inl rfl
      · split
        · exact Or.inr rfl
        · exact Or.inl rfl
    · rw [hnew]
      exact Or.inr (parse_serializePackedRefs _ _)
  · rw [h.other _ hp]
    by_cases hmem : name ∈ names
    · rw [if_pos (List.mem_map_of_mem hmem), if_pos hmem]
      exact Or.inr rfl
    · rw [if_neg hmem, if_neg]
      · exact Or.inl rfl
      · intro hpath
        obtain ⟨n, hn, heq⟩ := List.mem_map.mp hpath
        exact hmem (refPath_injective heq ▸ hn)

/-- **A ref resolves after deletes to what it resolved to before, or not at all.** -/
theorem Deleted.current_fewer (h : Deleted names refs refs') {entries : List PackedRef}
    (hpacked : refs.packed = .ok entries) (hname : IsRefName name) :
    refs'.current name = refs.current name ∨ refs'.current name = none := by
  have hfrom : ∀ (n : Nat) {cur : Str}, IsRefName cur →
      (refs'.resolveFrom name n cur).toOption = (refs.resolveFrom name n cur).toOption ∨
        (refs'.resolveFrom name n cur).toOption = none := by
    intro n
    induction n with
    | zero => exact fun _ => Or.inr rfl
    | succ n ih =>
      intro cur hcur
      rw [resolveFrom_toOption, resolveFrom_toOption]
      rcases h.value?_fewer hpacked hcur with hv | hv
      · rw [hv]
        cases hvalue : refs.value? cur with
        | none => exact Or.inl rfl
        | some r =>
          cases r with
          | direct id => exact Or.inl rfl
          | symbolic t => exact ih (isRefName_of_symbolic hcur hvalue)
      · rw [hv]
        exact Or.inr rfl
  exact hfrom maxSymrefDepth hname

/-- **A listed name leads to its path.** -/
theorem leadsToPath_of_list (hplain : PlainNames refs.vfs) {listed : BTreeMap Str ObjectId}
    (hlist : refs.list = .ok listed) (hname : listed.get? name = some id)
    (hpath : refPath name ≠ packedPath) :
    LeadsToPath name := by
  obtain ⟨hdir, entries, hpacked⟩ := list_ok hlist
  obtain ⟨_, hlist', hget⟩ := get?_list hplain hdir hpacked
  cases hlist.symm.trans hlist'
  refine ⟨?_, hpath⟩
  by_cases hloose : refs.IsLoose name ∧ [str "refs"] <+: refPath name
  · obtain ⟨d, hd⟩ := Option.isSome_iff_exists.mp hloose.1.1
    exact resolve_of_plain hplain (FileTree.leaf?_eq_some.mp hd)
  · rw [(hget name).2 hloose, packedLast] at hname
    obtain ⟨e, he, -⟩ := Option.map_eq_some_iff.mp hname
    have hvalid :=
      (wellFormed_of_packed hpacked e (List.mem_reverse.mp (List.mem_of_find?_eq_some he))).valid
    have heq : e.name = name := by simpa using List.find?_some he
    exact resolve_refPath (Or.inl (heq ▸ hvalid))

end Puregit.RefStore
