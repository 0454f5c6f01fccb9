import Puregit.Lib.FirstMention
import Puregit.Walk

/-! # What a tree lacks

`missingTreeObjects` scans a tree for the objects below it that are not in the store: the trees
are entered as far as they are there, and submodules are left out.  One set keeps the ids that
have been seen, as trees and as files.

An id that is first named as a file is therefore not entered where it is named as a tree later.
`listsMissing_iff` says exactly when the scan lists what is absent.
-/
namespace Puregit
open ObjectDatabase

/-- What a scan has found to be missing, and what it has seen. -/
structure ScanState where
  missing : List ObjectId
  seen : BTreeSet ObjectId

namespace ScanState

@[ext] theorem ext {s s' : ScanState} (hmissing : s.missing = s'.missing)
    (hseen : s.seen = s'.seen) : s = s' := by
  cases s
  cases s'
  cases hmissing
  cases hseen
  rfl

end ScanState

variable {D : Type} [ObjectDatabase D]

/-- Scans a file: it is missing if it is not in the store. -/
def collectFile (odb : D) (st : ScanState) (id : ObjectId) : ScanState :=
  if st.seen.contains id then st
  else ⟨if contains odb id then st.missing else st.missing ++ [id], st.seen.insert id⟩

/-- Scans a tree, at most `n` trees deep.  A tree that is absent is missing itself; what is no
tree leads nowhere. -/
def collectMissing (odb : D) : Nat → ScanState → ObjectId → Except Error ScanState
  | 0, st, _ => .ok st
  | n + 1, st, treeId =>
    if st.seen.contains treeId then .ok st
    else
      match read odb treeId with
      | .error e => if e.isNotFound then .ok ⟨st.missing ++ [treeId],
        st.seen.insert treeId⟩ else .error e
      | .ok (ty, payload) =>
        if ty ≠ .tree then .ok ⟨st.missing, st.seen.insert treeId⟩
        else do
          let tree ← Tree.parse (algo odb) payload
          tree.entries.foldlM (fun st entry =>
            match entry.mode with
            | .tree => collectMissing odb n st entry.id
            | .gitlink => .ok st
            | _ => .ok (collectFile odb st entry.id)) ⟨st.missing, st.seen.insert treeId⟩

/-- The ids below a tree that are not in the store. -/
def missingTreeObjects (odb : D) (treeId : ObjectId) : Except Error (List ObjectId) :=
  (collectMissing odb ObjectId.fuel ⟨[], BTreeSet.empty⟩ treeId).map ScanState.missing

/-! ## What is below a tree -/

/-- How an entry names its object; a submodule is of another repository. -/
def TreeEntry.mention (e : TreeEntry) : Option (Mention ObjectId) :=
  match e.mode with
  | .tree => some (.node e.id)
  | .gitlink => none
  | _ => some (.leaf e.id)

/-- What the entries of a tree name, if it is there. -/
def treeMentions (odb : D) (treeId : ObjectId) : List (Mention ObjectId) :=
  match read odb treeId with
  | .ok (.tree, payload) =>
    match Tree.parse (algo odb) payload with
    | .ok tree => tree.entries.filterMap TreeEntry.mention
    | .error _ => []
  | _ => []

/-- An id is named below a tree, behind trees that are there. -/
def BelowTree (odb : D) (treeId id : ObjectId) : Prop :=
  ∃ m, Mention.Mentioned (treeMentions odb) (fun _ => True) treeId m ∧ m.target = id

/-- The scan lists what is absent below a tree, each once. -/
def ListsMissing (odb : D) (treeId : ObjectId) : Prop :=
  ∃ missing, missingTreeObjects odb treeId = .ok missing ∧ missing.Nodup ∧
    ∀ id, id ∈ missing ↔ contains odb id = false ∧ BelowTree odb treeId id

/-- What a tree names, in the order in which it is read: each id where it is first named, and
behind a tree that is named what that names. -/
def treeReading (odb : D) (treeId : ObjectId) : List (Mention ObjectId) :=
  Mention.reading (treeMentions odb) ObjectId.fuel treeId

/-- A tree is there and can be parsed, or something else is there, or nothing. -/
def Scans (odb : D) (id : ObjectId) : Prop :=
  match read odb id with
  | .ok (ty, payload) => ty = .tree → (Tree.parse (algo odb) payload).toBool = true
  | .error e => e.isNotFound = true

/-- **A tree can be scanned.**  Each id that is first named as a tree can be read, or is absent,
and a tree that is read can be parsed.  And to what is absent a way leads whose trees are named as
trees before they are named as files. -/
structure Scannable (odb : D) (treeId : ObjectId) : Prop where
  scans : ∀ id, .node id ∈ treeReading odb treeId → Scans odb id
  held : ∀ id, .node id ∈ treeReading odb treeId →
    (contains odb id = true ↔ (read odb id).toBool = true)
  way : ∀ id, contains odb id = false → BelowTree odb treeId id →
    ∃ m, Mention.Mentioned (treeMentions odb) (fun id => .node id ∈ treeReading odb treeId) treeId
      m ∧ m.target = id

/-! ## The scan follows the reading -/

/-- The scan lists a mention: a file that is not contained, a tree that cannot be found. -/
def isMissing (odb : D) : Mention ObjectId → Bool
  | .leaf id => !contains odb id
  | .node id => !(read odb id).toBool

/-- The state of a scan behind a reading. -/
def ScanState.ofReading (odb : D) (log : List (Mention ObjectId)) : ScanState :=
  ⟨Mention.targets (log.filter (isMissing odb)), BTreeSet.ofList (Mention.targets log)⟩

variable {odb : D} {treeId id : ObjectId} {log : List (Mention ObjectId)} {st : ScanState} {n : Nat}

theorem contains_seen : (ScanState.ofReading odb log).seen.contains id = true ↔
    id ∈ Mention.targets log := by
  rw [ScanState.ofReading, BTreeSet.contains_iff_mem, BTreeSet.mem_ofList]

theorem ofReading_append (m : Mention ObjectId) : ScanState.ofReading odb (log ++ [m]) =
    ⟨if isMissing odb m then (ScanState.ofReading odb log).missing ++ [m.target]
      else (ScanState.ofReading odb log).missing,
      (ScanState.ofReading odb log).seen.insert m.target⟩ := by
  refine ScanState.ext ?_ (BTreeSet.ext_mem fun id => ?_)
  · simp only [ScanState.ofReading, List.filter_append, Mention.targets_append]
    split <;> simp_all [List.filter, Mention.targets]
  · simp only [ScanState.ofReading, BTreeSet.mem_insert, BTreeSet.mem_ofList,
      Mention.targets_append, Mention.targets_singleton,
      List.mem_append, List.mem_singleton]
    exact or_comm

/-- A file is scanned as it is read. -/
theorem collectFile_ofReading (id : ObjectId) : collectFile odb (ScanState.ofReading odb log) id =
    ScanState.ofReading odb (Mention.readInto (treeMentions odb) n log (.leaf id)) := by
  rw [collectFile, Mention.readInto_leaf]
  by_cases hseen : id ∈ Mention.targets log
  · rw [if_pos (contains_seen.mpr hseen), if_pos hseen]
  · rw [if_neg (fun h => hseen (contains_seen.mp h)), if_neg hseen, ofReading_append]
    cases hc : contains odb id <;> simp [isMissing, hc, Mention.target]

/-- The scan of one entry. -/
def collectEntry (odb : D) (n : Nat) (st : ScanState) (entry : TreeEntry) :
    Except Error ScanState :=
  match entry.mode with
  | .tree => collectMissing odb n st entry.id
  | .gitlink => .ok st
  | _ => .ok (collectFile odb st entry.id)

/-- What is read of the trees, if each of those that are new can be scanned. -/
def ReadsNew (odb : D) (log log' : List (Mention ObjectId)) : Prop :=
  ∀ id, .node id ∈ log' → .node id ∈ log ∨ Scans odb id

theorem ReadsNew.refl : ReadsNew odb log log := fun _ => Or.inl

theorem readsNew_trans {log₁ log₂ : List (Mention ObjectId)} (h : ∀ m, m ∈ log₁ → m ∈ log₂)
    (h' : ∀ m, m ∈ log → m ∈ log₁) :
    ReadsNew odb log log₂ ↔ ReadsNew odb log log₁ ∧ ReadsNew odb log₁ log₂ := by
  constructor
  · exact fun hall => ⟨fun id hid => hall id (h _ hid), fun id hid => (hall id hid).imp_left (h' _)⟩
  · exact fun ⟨h₁, h₂⟩ id hid => (h₂ id hid).elim (h₁ id) Or.inr

theorem readsNew_leaf :
    ReadsNew odb log (Mention.readInto (treeMentions odb) n log (.leaf id)) := by
  intro a ha
  rw [Mention.readInto_leaf] at ha
  split at ha
  · exact Or.inl ha
  · exact Or.inl ((List.mem_append.mp ha).resolve_right nofun)

/-- A tree that is entered has to be scanned. -/
theorem readsNew_node (hfresh : id ∉ Mention.targets log) :
    ReadsNew odb log (log ++ [.node id]) ↔ Scans odb id := by
  constructor
  · intro h
    exact (h id (List.mem_append_right _ (List.mem_singleton_self _))).resolve_left fun hmem =>
      hfresh (Mention.mem_targets.mpr (Or.inr hmem))
  · intro h a ha
    refine (List.mem_append.mp ha).imp_right fun ha => ?_
    cases List.mem_singleton.mp ha
    exact h

/-- **The scan follows the reading**: it succeeds where what is read new can be scanned. -/
theorem collectMissing_ofReading (n : Nat) (log : List (Mention ObjectId)) (id : ObjectId)
    (st : ScanState) :
    collectMissing odb n (ScanState.ofReading odb log) id = .ok st ↔
      st = ScanState.ofReading odb (Mention.readInto (treeMentions odb) n log (.node id)) ∧
        ReadsNew odb log (Mention.readInto (treeMentions odb) n log (.node id)) := by
  have hstay : ∀ {log : List (Mention ObjectId)} {st : ScanState},
    (Except.ok (ScanState.ofReading odb log) : Except Error ScanState) = .ok st ↔
      st = ScanState.ofReading odb log ∧ ReadsNew odb log log := by
    intro log st
    rw [and_iff_left ReadsNew.refl, Except.ok.injEq, eq_comm]
  induction n generalizing log id st with
  | zero => exact hstay
  | succ n ih =>
    -- one entry, and the entries of a tree in turn
    have hentry : ∀ (e : TreeEntry) (log : List (Mention ObjectId)) (st : ScanState),
        collectEntry odb n (ScanState.ofReading odb log) e = .ok st ↔
          st = ScanState.ofReading odb
            (e.mention.toList.foldl (Mention.readInto (treeMentions odb) n) log) ∧
            ReadsNew odb log (e.mention.toList.foldl
              (Mention.readInto (treeMentions odb) n) log) := by
      intro e log st
      have hfile : (Except.ok (collectFile odb (ScanState.ofReading odb log) e.id) :
        Except Error ScanState) = .ok st ↔
          st = ScanState.ofReading odb (Mention.readInto (treeMentions odb) n log (.leaf e.id)) ∧
            ReadsNew odb log (Mention.readInto (treeMentions odb) n log (.leaf e.id)) := by
        rw [and_iff_left readsNew_leaf, collectFile_ofReading (n := n), Except.ok.injEq, eq_comm]
      rw [collectEntry, TreeEntry.mention]
      cases e.mode with
      | tree => exact ih log e.id st
      | gitlink => exact hstay
      | regular => exact hfile
      | executable => exact hfile
      | symlink => exact hfile
    have hfold : ∀ (entries : List TreeEntry) (log : List (Mention ObjectId)) (st : ScanState),
        entries.foldlM (collectEntry odb n) (ScanState.ofReading odb log) = .ok st ↔
          st = ScanState.ofReading odb ((entries.filterMap TreeEntry.mention).foldl
            (Mention.readInto (treeMentions odb) n) log) ∧
            ReadsNew odb log ((entries.filterMap TreeEntry.mention).foldl
              (Mention.readInto (treeMentions odb) n) log) := by
      intro entries
      induction entries with
      | nil => exact fun _ _ => hstay
      | cons e entries ihes =>
        intro log st
        have hsplit : (e :: entries).filterMap TreeEntry.mention =
            e.mention.toList ++ entries.filterMap TreeEntry.mention := by
          cases hm : e.mention <;> simp [hm]
        rw [List.foldlM_cons, except_bind_ok, hsplit, List.foldl_append,
          readsNew_trans (fun _ => Mention.mem_foldl_readInto) fun _ => Mention.mem_foldl_readInto]
        constructor
        · rintro ⟨st₁, he, hes⟩
          obtain ⟨rfl, hnew⟩ := (hentry e log st₁).mp he
          obtain ⟨hst, hnew'⟩ := (ihes _ st).mp hes
          exact ⟨hst, hnew, hnew'⟩
        · rintro ⟨hst, hnew, hnew'⟩
          exact ⟨_, (hentry e log _).mpr ⟨rfl, hnew⟩, (ihes _ st).mpr ⟨hst, hnew'⟩⟩
    rw [Mention.readInto, collectMissing]
    by_cases hseen : id ∈ Mention.targets log
    · rw [if_pos (contains_seen.mpr hseen), if_pos hseen]
      exact hstay
    rw [if_neg (fun h => hseen (contains_seen.mp h)), if_neg hseen,
      readsNew_trans (fun _ => Mention.mem_foldl_readInto) (fun _ => List.mem_append_left _),
        readsNew_node hseen]
    have hnext := @ofReading_append _ _ odb log (.node id)
    cases hread : read odb id with
    | error e =>
      have hmentions : treeMentions odb id = [] := by rw [treeMentions, hread]
      have hscans : Scans odb id ↔ e.isNotFound = true := by rw [Scans, hread]
      rw [isMissing, hread] at hnext
      rw [hmentions, List.foldl_nil, and_iff_left ReadsNew.refl, hscans]
      by_cases hfound : e.isNotFound = true
      · simp only [hfound, if_true, and_true, hnext, Except.ok.injEq]
        exact eq_comm
      · simp [hfound]
    | ok r =>
      obtain ⟨ty, payload⟩ := r
      rw [isMissing, hread] at hnext
      by_cases hty : ty = .tree
      · subst hty
        have hscans : Scans odb id ↔ (Tree.parse (algo odb) payload).toBool = true := by
          simp [Scans, hread]
        cases hparse : Tree.parse (algo odb) payload with
        | error e =>
          rw [hscans, hparse]
          simp [hparse, bind, Except.bind, Except.toBool]
        | ok tree =>
          have hmentions : treeMentions odb id = tree.entries.filterMap TreeEntry.mention := by
            rw [treeMentions, hread]
            simp only [hparse]
          have hstart : (⟨(ScanState.ofReading odb log).missing,
            (ScanState.ofReading odb log).seen.insert id⟩ : ScanState) =
              ScanState.ofReading odb (log ++ [.node id]) := hnext.symm
          rw [hmentions, hscans, hparse]
          simp only [hparse, bind, Except.bind, ne_eq, not_true_eq_false, if_false, hstart]
          have hparsed : (Except.ok tree : Except Error Tree).toBool = true := rfl
          rw [and_iff_right hparsed]
          exact hfold tree.entries _ st
      · have hmentions : treeMentions odb id = [] := by
          rw [treeMentions, hread]
          split
          · rename_i heq
            cases heq
            exact absurd rfl hty
          · rfl
        have hscans : Scans odb id := by
          rw [Scans, hread]
          exact fun h => absurd h hty
        rw [hmentions, List.foldl_nil, and_iff_left ReadsNew.refl, and_iff_left hscans, hnext]
        simp only [hty, ne_eq, not_false_eq_true, if_true, Except.ok.injEq]
        exact eq_comm

/-! ## What is listed -/

theorem length_le_count {ids : List ObjectId} (h : ids.Nodup) : ids.length ≤ ObjectId.count :=
  length_le_of_codes h ObjectId.code (fun _ _ => ObjectId.code_injective) ObjectId.code_lt

theorem nodup_treeReading (odb : D) (treeId : ObjectId) :
    (Mention.targets (treeReading odb treeId)).Nodup :=
  Mention.nodup_readInto ObjectId.fuel _ List.nodup_nil

/-- What is read is below the tree. -/
theorem belowTree_of_mem {m : Mention ObjectId} (h : m ∈ treeReading odb treeId) :
    BelowTree odb treeId m.target :=
  ⟨m, (Mention.mentioned_of_mem_readInto (by simp) .root m h).mono fun _ _ => trivial, rfl⟩

/-- What is read is what a way leads to. -/
theorem mem_treeReading : id ∈ Mention.targets (treeReading odb treeId) ↔
    ∃ m, Mention.Mentioned (treeMentions odb) (fun id => .node id ∈ treeReading odb treeId) treeId
      m ∧ m.target = id :=
  Mention.target_mem_reading (fun _ => length_le_count) (Nat.lt_succ_self _)

/-- **What a scan lists**: what is missing of what is read. -/
theorem missingTreeObjects_ok {missing : List ObjectId} :
    missingTreeObjects odb treeId = .ok missing ↔
    missing = Mention.targets ((treeReading odb treeId).filter (isMissing odb)) ∧
      ∀ id, .node id ∈ treeReading odb treeId → Scans odb id := by
  have hstart : (⟨[], BTreeSet.empty⟩ : ScanState) = ScanState.ofReading odb [] := rfl
  have hnew : ReadsNew odb [] (treeReading odb treeId) ↔ ∀ id, .node id ∈ treeReading odb treeId →
      Scans odb id :=
    forall₂_congr fun _ _ => or_iff_right List.not_mem_nil
  rw [missingTreeObjects, except_map_ok, hstart, ← hnew]
  constructor
  · rintro ⟨st, hst, rfl⟩
    obtain ⟨rfl, hscans⟩ := (collectMissing_ofReading _ _ _ _).mp hst
    exact ⟨rfl, hscans⟩
  · rintro ⟨rfl, hscans⟩
    exact ⟨_, (collectMissing_ofReading _ _ _ _).mpr ⟨rfl, hscans⟩, rfl⟩

/-- A mention is listed where it is missing, and is the only one of its id. -/
theorem mem_missing {m : Mention ObjectId} (h : m ∈ treeReading odb treeId) :
    m.target ∈ Mention.targets ((treeReading odb treeId).filter (isMissing odb)) ↔
      isMissing odb m = true := by
  rw [Mention.targets, List.mem_map]
  constructor
  · rintro ⟨m', hm', heq⟩
    obtain ⟨hm', hmissing⟩ := List.mem_filter.mp hm'
    rwa [← Mention.eq_of_target_eq (nodup_treeReading odb treeId) hm' h heq]
  · exact fun hmissing => ⟨m, List.mem_filter.mpr ⟨h, hmissing⟩, rfl⟩

/-- Where the trees that are read are held, what is listed is what is not contained. -/
theorem isMissing_iff (hheld : ∀ id, .node id ∈ treeReading odb treeId →
    (contains odb id = true ↔ (read odb id).toBool = true)) {m : Mention ObjectId}
    (h : m ∈ treeReading odb treeId) : isMissing odb m = true ↔ contains odb m.target = false := by
  cases m with
  | leaf id => simp [isMissing, Mention.target]
  | node id => rw [isMissing, Bool.not_eq_true', Mention.target, ← Bool.not_eq_true,
    ← Bool.not_eq_true, hheld id h]

/-- **A scan lists what is absent below a tree exactly when the tree can be scanned.** -/
theorem listsMissing_iff (odb : D) (treeId : ObjectId) :
    ListsMissing odb treeId ↔ Scannable odb treeId := by
  constructor
  · rintro ⟨missing, hok, -, hmem⟩
    obtain ⟨rfl, hscans⟩ := missingTreeObjects_ok.mp hok
    refine ⟨hscans, fun id hid => ?_, fun id habsent hbelow => ?_⟩
    · have hlisted := (mem_missing hid).symm.trans (hmem id)
      have hbelow : BelowTree odb treeId id := belowTree_of_mem hid
      rw [and_iff_left hbelow, isMissing, Bool.not_eq_true'] at hlisted
      rw [← not_iff_not, Bool.not_eq_true, Bool.not_eq_true]
      exact hlisted.symm
    · obtain ⟨m, hm, rfl⟩ := List.mem_map.mp ((hmem id).mpr ⟨habsent, hbelow⟩)
      exact mem_treeReading.mp (List.mem_map_of_mem (List.mem_of_mem_filter hm))
  · intro h
    refine ⟨_, missingTreeObjects_ok.mpr ⟨rfl, h.scans⟩, ?_, fun id =>
      ⟨fun hid => ?_, fun ⟨habsent, hbelow⟩ => ?_⟩⟩
    · exact (nodup_treeReading odb treeId).sublist ((List.filter_sublist).map _)
    · obtain ⟨m, hm, rfl⟩ := List.mem_map.mp hid
      obtain ⟨hm, hmissing⟩ := List.mem_filter.mp hm
      exact ⟨(isMissing_iff h.held hm).mp hmissing, belowTree_of_mem hm⟩
    · obtain ⟨m, hm, rfl⟩ := List.mem_map.mp (mem_treeReading.mpr (h.way id habsent hbelow))
      exact (mem_missing hm).mpr ((isMissing_iff h.held hm).mpr habsent)

/-- Everything below a tree is in the store. -/
def TreeComplete (odb : D) (treeId : ObjectId) : Prop :=
  ∀ id, BelowTree odb treeId id → contains odb id = true

/-- **A scan that lists nothing** means that nothing is absent exactly when the tree can be
scanned. -/
theorem treeComplete_iff (h : missingTreeObjects odb treeId = .ok []) :
    TreeComplete odb treeId ↔ Scannable odb treeId := by
  obtain ⟨hnil, hscans⟩ := missingTreeObjects_ok.mp h
  rw [← listsMissing_iff]
  constructor
  · refine fun hall => ⟨[], h, List.nodup_nil, fun id =>
      iff_of_false List.not_mem_nil fun ⟨habsent, hbelow⟩ => ?_⟩
    rw [hall id hbelow] at habsent
    cases habsent
  · rintro ⟨missing, hok, -, hmem⟩ id hbelow
    cases h.symm.trans hok
    by_contra habsent
    exact List.not_mem_nil ((hmem id).mpr ⟨Bool.not_eq_true _ ▸ habsent, hbelow⟩)

/-- **Nothing is hidden** where no id below the tree is named both as a file and as a tree. -/
theorem Scannable.of_separate (hscans : ∀ id, .node id ∈ treeReading odb treeId → Scans odb id)
    (hheld : ∀ id, .node id ∈ treeReading odb treeId →
      (contains odb id = true ↔ (read odb id).toBool = true))
    (hseparate : ∀ id, Mention.Mentioned (treeMentions odb) (fun _ => True) treeId (.leaf id) →
      ¬Mention.Mentioned (treeMentions odb) (fun _ => True) treeId (.node id)) :
        Scannable odb treeId := by
  refine ⟨hscans, hheld, fun id _ hbelow => ?_⟩
  obtain ⟨m, hm, rfl⟩ := hbelow
  exact ⟨m, Mention.mentioned_of_separate (fun _ => length_le_count) (Nat.lt_succ_self _)
    hseparate hm, rfl⟩

end Puregit
