import Puregit.Server.Receive

/-! # The effect of one command of a push

A command can be written or it cannot, by the state of the ref store before it.  One that
can has one effect on every file, `leaf?_of_target` and `leaf?_of_other`, on the
directories, `dir_iff`, and on the packed refs, `packedId_iff`.  One that cannot changes
nothing, or removes the loose file of a delete: `blocked_cases`.
-/
namespace Puregit.Server
open RefStore

/-! ## The effect of one command -/

/-- What writing a command needs. -/
def Writable (refs : RefStore) (cmd : RefUpdateCommand) : Prop :=
  if cmd.new.isZero then CanDelete refs cmd.name else CanUpdate refs.vfs cmd.name

/-- The file a command is for. -/
def target (cmd : RefUpdateCommand) : Option (List Str) :=
  match Vfs.resolve cmd.name with
  | .ok ⟨p, false⟩ => some p
  | _ => none

/-- The id a ref has once a command for it was applied. -/
def outcome (cmd : RefUpdateCommand) : Option ObjectId :=
  if cmd.new.isZero then none else some cmd.new

variable {refs : RefStore} {cmd : RefUpdateCommand} {p : List Str}

theorem target_eq_some : target cmd = some p ↔ Vfs.resolve cmd.name = .ok ⟨p, false⟩ := by
  rw [target]
  split
  · rename_i p' h
    rw [h]
    simp
  · rename_i h
    exact ⟨fun h' => (by cases h'), fun h' => absurd h' (h p)⟩

theorem target_of_filePath (h : filePath refs.vfs cmd.name = some p) : target cmd = some p := by
  obtain ⟨d, hr, -⟩ := filePath_eq_some.mp h
  exact target_eq_some.mpr hr

theorem target_of_canUpdate (h : CanUpdate refs.vfs cmd.name) :
    target cmd = some (refPath cmd.name) :=
  target_eq_some.mpr (resolve_refPath h.isRefName)

theorem writeCommand_update (hz : cmd.new.isZero = false) : writeCommand refs cmd =
    (reason (refs.update cmd.name (.direct cmd.new)).1,
      (refs.update cmd.name (.direct cmd.new)).2) := by
  rw [writeCommand, hz]
  rfl

theorem writeCommand_delete (hz : cmd.new.isZero = true) :
    writeCommand refs cmd = (reason (refs.delete cmd.name).1, (refs.delete cmd.name).2) := by
  rw [writeCommand, hz]
  rfl

theorem writable_update (hz : cmd.new.isZero = false) :
    Writable refs cmd ↔ CanUpdate refs.vfs cmd.name := by
  rw [Writable, hz]
  simp

theorem writable_delete (hz : cmd.new.isZero = true) :
    Writable refs cmd ↔ CanDelete refs cmd.name := by
  rw [Writable, hz]
  simp

/-- **A command is reported ok exactly when it can be written.** -/
theorem writeCommand_ok : (writeCommand refs cmd).1 = .ok () ↔ Writable refs cmd := by
  cases hz : cmd.new.isZero with
  | false =>
      rw [writeCommand_update hz, writable_update hz]
      constructor
      · intro h
        by_contra hn
        obtain ⟨e, he⟩ := update_of_not_canUpdate (.direct cmd.new) hn
        rw [he] at h
        cases h
      · intro h
        rw [(update_of_canUpdate _ h).1]
        rfl
  | true =>
      rw [writeCommand_delete hz, writable_delete hz]
      constructor
      · intro h
        by_contra hn
        obtain ⟨⟨e, he⟩, -⟩ := delete_of_not_canDelete hn
        rw [he] at h
        cases h
      · intro h
        rw [(delete_of_canDelete h).1]
        rfl

theorem writeCommand_algo : (writeCommand refs cmd).2.algo = refs.algo := by
  cases hz : cmd.new.isZero with
  | false =>
      rw [writeCommand_update hz]
      by_cases h : CanUpdate refs.vfs cmd.name
      · exact (update_of_canUpdate _ h).2.1
      · obtain ⟨e, he⟩ := update_of_not_canUpdate (.direct cmd.new) h
        rw [he]
  | true =>
      rw [writeCommand_delete hz]
      by_cases h : CanDelete refs cmd.name
      · exact (delete_of_canDelete h).2.1
      · exact (delete_of_not_canDelete h).2.1

/-- What the file of a command holds once it was written. -/
def written (cmd : RefUpdateCommand) : Option Bytes :=
  (outcome cmd).map fun id => (Reference.direct id).toFileContents

theorem leaf?_eq_none_of_get? {fs : GitDir} (h : ∀ d, fs.get? p ≠ some (.leaf d)) :
    fs.leaf? p = none := by
  cases hl : fs.leaf? p with
  | none => rfl
  | some d => exact absurd (FileTree.leaf?_eq_some.mp hl) (h d)

/-- A delete finds no directory at its path, and none where the packed refs are. -/
theorem get?_ne_dir_of_canDelete (h : CanDelete refs cmd.name) (ht : target cmd = some p) :
    refs.vfs.get? p ≠ some .dir :=
  fun hd => h.1 (Vfs.stat_ok.mpr ⟨_, target_eq_some.mp ht, hd, fun _ => rfl⟩)

theorem packed_ne_dir_of_canDelete (h : CanDelete refs cmd.name) :
    refs.vfs.get? packedPath ≠ some .dir := by
  intro hd
  rcases h.2 with hp | ⟨entries, he⟩
  · obtain ⟨d, -, hget⟩ := filePath_eq_some.mp hp
    rw [hd] at hget
    cases hget
  · rw [packed_eq, hd] at he
    cases he

/-- **The file of a command that can be written holds what the command says.** -/
theorem leaf?_of_target (hw : Writable refs cmd) (ht : target cmd = some p) :
    (writeCommand refs cmd).2.vfs.leaf? p = written cmd := by
  cases hz : cmd.new.isZero with
  | false =>
      have hcan := (writable_update hz).mp hw
      rw [target_of_canUpdate hcan] at ht
      cases ht
      rw [writeCommand_update hz, written, outcome, hz]
      refine FileTree.leaf?_eq_some.mpr ?_
      rw [(update_of_canUpdate _ hcan).2.2, if_pos rfl]
  | true =>
      have hcan := (writable_delete hz).mp hw
      obtain ⟨-, -, hother, hpacked, hnone⟩ := delete_of_canDelete hcan
      rw [writeCommand_delete hz, written, outcome, hz]
      have hdir := get?_ne_dir_of_canDelete hcan ht
      refine leaf?_eq_none_of_get? fun d hd => ?_
      by_cases hpath : filePath refs.vfs cmd.name = some p
      · by_cases hq : p = packedPath
        · subst hq
          rw [hpacked hpath] at hd
          cases hd
        · rw [hother p hq, if_pos hpath] at hd
          cases hd
      · have habsent : refs.vfs.get? p = none := by
          cases hget : refs.vfs.get? p with
          | none => rfl
          | some e =>
              cases e with
              | dir => exact absurd hget hdir
              | leaf d' =>
                  exact absurd (filePath_eq_some.mpr ⟨d', target_eq_some.mp ht, hget⟩) hpath
        by_cases hq : p = packedPath
        · subst hq
          rw [(hnone hpath).1.mpr habsent] at hd
          cases hd
        · rw [hother p hq, if_neg hpath, habsent] at hd
          cases hd

/-- A file a command was written to, or that is not the packed refs. -/
def Settled (fs : GitDir) (p : List Str) : Prop :=
  p = packedPath → fs.leaf? p = none ∨ ∃ id, fs.leaf? p = some (Reference.direct id).toFileContents

/-- **Every other file stays as it is**, but for the packed refs. -/
theorem leaf?_of_other (hw : Writable refs cmd) (ht : target cmd ≠ some p)
    (hp : Settled refs.vfs p) :
    (writeCommand refs cmd).2.vfs.leaf? p = refs.vfs.leaf? p := by
  cases hz : cmd.new.isZero with
  | false =>
      have hcan := (writable_update hz).mp hw
      have hne : p ≠ refPath cmd.name := by
        rintro rfl
        exact ht (target_of_canUpdate hcan)
      have hget := (update_of_canUpdate (.direct cmd.new) hcan).2.2 p
      rw [if_neg hne] at hget
      rw [writeCommand_update hz]
      by_cases hway : p <+: (refPath cmd.name).dropLast
      · rw [if_pos hway] at hget
        rw [leaf?_eq_none_of_get? fun d => hcan.way p d hway]
        exact leaf?_eq_none_of_get? fun d => by rw [hget]; simp
      · rw [if_neg hway] at hget
        rw [FileTree.leaf?, FileTree.leaf?, hget]
  | true =>
      have hcan := (writable_delete hz).mp hw
      obtain ⟨-, -, hother, hpacked, hnone⟩ := delete_of_canDelete hcan
      have hpath : filePath refs.vfs cmd.name ≠ some p := fun h => ht (target_of_filePath h)
      rw [writeCommand_delete hz]
      by_cases hq : p = packedPath
      · subst hq
        have hdir := packed_ne_dir_of_canDelete hcan
        rcases hp rfl with hleaf | ⟨id, hleaf⟩
        · have habsent : refs.vfs.get? packedPath = none := by
            cases hget : refs.vfs.get? packedPath with
            | none => rfl
            | some e =>
                cases e with
                | dir => exact absurd hget hdir
                | leaf d =>
                    rw [FileTree.leaf?_eq_some.mpr hget] at hleaf
                    cases hleaf
          rw [hleaf]
          refine leaf?_eq_none_of_get? fun d hd => ?_
          rw [(hnone hpath).1.mpr habsent] at hd
          cases hd
        · -- a file that holds an id is no packed-refs file: nothing can be deleted
          obtain ⟨entries, he⟩ := hcan.2.resolve_left hpath
          rw [packed_eq, FileTree.leaf?_eq_some.mp hleaf] at he
          simp only [parsePackedRefs_direct] at he
          cases he
      · rw [FileTree.leaf?, FileTree.leaf?, hother p hq, if_neg hpath]

/-- Where a path lies below another. -/
def Below (p q : List Str) : Prop := p <+: q ∧ p ≠ q

theorem below_iff {q : List Str} (hq : q ≠ []) : Below p q ↔ p <+: q.dropLast := by
  constructor
  · rintro ⟨⟨r, rfl⟩, hne⟩
    have hr : r ≠ [] := by
      rintro rfl
      exact hne (List.append_nil p).symm
    rw [List.dropLast_append_of_ne_nil hr]
    exact List.prefix_append _ _
  · intro h
    refine ⟨h.trans (List.dropLast_prefix q), ?_⟩
    rintro rfl
    have hlen := h.length_le
    have hpos := List.length_pos_iff.mpr hq
    rw [List.length_dropLast] at hlen
    omega

/-- **The directories after a command are those before it and those made for it.** -/
theorem dir_iff (hw : Writable refs cmd) : (writeCommand refs cmd).2.vfs.get? p = some .dir ↔
    refs.vfs.get? p = some .dir ∨ (cmd.new.isZero = false ∧ Below p (refPath cmd.name)) := by
  cases hz : cmd.new.isZero with
  | false =>
      have hcan := (writable_update hz).mp hw
      rw [writeCommand_update hz, (update_of_canUpdate _ hcan).2.2, below_iff (refPath_ne_nil _)]
      split
      · rename_i hq
        subst hq
        simp only [Option.some.injEq, reduceCtorEq, true_and, false_iff, not_or]
        exact ⟨hcan.file, fun h => ((below_iff (refPath_ne_nil _)).mpr h).2 rfl⟩
      split
      · rename_i hway
        simp [hway]
      · rename_i hway
        simp [hway]
  | true =>
      have hcan := (writable_delete hz).mp hw
      obtain ⟨-, -, hother, hpacked, hnone⟩ := delete_of_canDelete hcan
      rw [writeCommand_delete hz]
      simp only [Bool.true_eq_false, false_and, or_false]
      by_cases hq : p = packedPath
      · subst hq
        have hdir := packed_ne_dir_of_canDelete hcan
        refine ⟨fun h => ?_, fun h => absurd h hdir⟩
        by_cases hpath : filePath refs.vfs cmd.name = some packedPath
        · rw [hpacked hpath] at h
          cases h
        · obtain ⟨entries, he⟩ := hcan.2.resolve_left hpath
          have hp := (hnone hpath).2 entries he
          rw [packed_eq, h] at hp
          cases hp
      · rw [hother p hq]
        split
        · rename_i hpath
          obtain ⟨d, -, hd⟩ := filePath_eq_some.mp hpath
          simp [hd]
        · rfl

/-- **Packed refs are only ever taken out**: those a delete names, and all when packed-refs
itself is written or deleted. -/
theorem packedId_iff (hw : Writable refs cmd) {name : Str} {id : ObjectId} :
    (writeCommand refs cmd).2.packedId name = some id ↔
    refs.packedId name = some id ∧ (cmd.new.isZero = true → cmd.name ≠ name) ∧
      target cmd ≠ some packedPath := by
  cases hz : cmd.new.isZero with
  | false =>
      have hcan := (writable_update hz).mp hw
      obtain ⟨-, halgo, hget⟩ := update_of_canUpdate (.direct cmd.new) hcan
      rw [writeCommand_update hz, target_of_canUpdate hcan]
      simp only [Bool.false_eq_true, false_implies, true_and, ne_eq, Option.some.injEq]
      by_cases hq : packedPath = refPath cmd.name
      · have hnone : (refs.update cmd.name (.direct cmd.new)).2.packedId name = none := by
          rw [packedId, packed_eq, hget, if_pos hq]
          simp only [parsePackedRefs_direct, Except.toOption, Option.bind_none]
        simp [hnone, hq]
      by_cases hway : packedPath <+: (refPath cmd.name).dropLast
      · have hbefore : refs.packedId name = none := by
          rw [packedId, packed_eq]
          split
          · rfl
          · rfl
          · rename_i d hd
            exact absurd hd (hcan.way _ d hway)
        have hafter : (refs.update cmd.name (.direct cmd.new)).2.packedId name = none := by
          rw [packedId, packed_eq, hget, if_neg hq, if_pos hway]
          rfl
        simp [hbefore, hafter]
      · rw [packedId, packed_congr halgo (by rw [hget, if_neg hq, if_neg hway]), ← packedId]
        simp [Ne.symm hq]
  | true =>
      have hcan := (writable_delete hz).mp hw
      obtain ⟨-, -, hother, hpacked, hnone⟩ := delete_of_canDelete hcan
      rw [writeCommand_delete hz]
      simp only [forall_const]
      by_cases hpath : filePath refs.vfs cmd.name = some packedPath
      · rw [packedId, packed_eq, hpacked hpath, target_of_filePath hpath]
        simp [Except.toOption]
      · obtain ⟨entries, he⟩ := hcan.2.resolve_left hpath
        rw [packedId, (hnone hpath).2 entries he, packedId, he]
        simp only [Except.toOption, Option.bind_some]
        have hfind : (entries.filter fun e => e.name ≠ cmd.name).find? (·.name = name) =
            if cmd.name = name then none else entries.find? (·.name = name) := by
          rw [List.find?_filter]
          split
          · rename_i heq
            rw [List.find?_eq_none]
            intro e _ hc
            simp [← heq] at hc
          · rename_i hne
            congr 1
            funext e
            by_cases hen : e.name = name
            · simp [hen, Ne.symm hne]
            · simp [hen]
        rw [hfind]
        split
        · rename_i heq
          simp [heq]
        · rename_i hne
          refine ⟨fun h => ⟨h, hne, fun ht => ?_⟩, fun h => h.1⟩
          -- packed-refs is named, and is not there: it lists nothing
          have habsent : refs.vfs.get? packedPath = none := by
            cases hget : refs.vfs.get? packedPath with
            | none => rfl
            | some e =>
                cases e with
                | dir => exact absurd hget (packed_ne_dir_of_canDelete hcan)
                | leaf d => exact absurd (filePath_eq_some.mpr ⟨d,
                  target_eq_some.mp ht, hget⟩) hpath
          rw [packed_eq, habsent] at he
          cases he
          simp at h

/-! ## A command that cannot be written -/

/-- **A command that cannot be written changes nothing, or removes the file of a delete where
the packed refs cannot be read.** -/
theorem blocked_cases (h : ¬ Writable refs cmd) :
    ((writeCommand refs cmd).2 = refs ∧
      (cmd.new.isZero = true → filePath refs.vfs cmd.name = none)) ∨
    ∃ p e, cmd.new.isZero = true ∧ filePath refs.vfs cmd.name = some p ∧
      refs.packed = .error e ∧ (writeCommand refs cmd).2.packed = .error e ∧
      ∀ q, (writeCommand refs cmd).2.vfs.get? q = if q = p then none else refs.vfs.get? q := by
  cases hz : cmd.new.isZero with
  | false =>
      rw [writable_update hz] at h
      obtain ⟨e, he⟩ := update_of_not_canUpdate (.direct cmd.new) h
      rw [writeCommand_update hz, he]
      exact Or.inl ⟨rfl, fun ht => (by cases ht)⟩
  | true =>
      rw [writable_delete hz] at h
      obtain ⟨-, halgo, hget⟩ := delete_of_not_canDelete h
      rw [writeCommand_delete hz]
      cases hpath : filePath refs.vfs cmd.name with
      | none =>
          refine Or.inl ⟨RefStore.ext (FileTree.ext_get? fun q => ?_) halgo, fun _ => rfl⟩
          rw [hget, hpath, if_neg (by simp)]
      | some p =>
          have hdir : Vfs.stat refs.vfs cmd.name ≠ .ok .dir := by
            intro hd
            rw [filePath_of_dir hd] at hpath
            cases hpath
          have hne : p ≠ packedPath := by
            rintro rfl
            exact h ⟨hdir, Or.inl hpath⟩
          obtain ⟨e, he⟩ : ∃ e, refs.packed = .error e := by
            cases hp : refs.packed with
            | error e => exact ⟨e, rfl⟩
            | ok entries => exact absurd ⟨hdir, Or.inr ⟨entries, hp⟩⟩ h
          refine Or.inr ⟨p, e, rfl, rfl, he, ?_, fun q => ?_⟩
          · rw [packed_congr halgo (by rw [hget, hpath, if_neg (by simpa using hne)]), he]
          · rw [hget, hpath]
            simp only [Option.some.injEq, eq_comm]

/-- A name that leads to no file, and to no packed ref, has no id. -/
theorem current_of_no_target (ht : target cmd = none) : refs.current cmd.name = none := by
  have hpacked : refs.packedId cmd.name = none := by
    cases hp : refs.packedId cmd.name with
    | none => rfl
    | some id =>
        have hr := resolve_refPath (Or.inl (isValidRefName_of_packedId hp))
        rw [target_eq_some.mpr hr] at ht
        cases ht
  refine current_of_none ?_
  rw [value?_eq, hpacked]
  cases hs : Vfs.stat refs.vfs cmd.name with
  | error e => rfl
  | ok e =>
      cases e with
      | dir => rfl
      | leaf d =>
          obtain ⟨p, hpath, -, -⟩ := filePath_of_leaf hs
          rw [target_of_filePath hpath] at ht
          cases ht

end Puregit.Server
