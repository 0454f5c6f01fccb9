import Puregit.Refs.History
import Puregit.Server.Effect

/-! # What a push changes

A push is to change the refs it names, those of its commands that are reported ok, and
nothing else in the git directory.  But a delete is not checked for its name, an update
may name a file that is no ref under `refs/`, a delete stopped half way has removed its
file, and a new ref may bury a packed one under its directory.  `push_framed_iff` says
that these are all the ways it goes wrong.
-/
namespace Puregit.Server
open ObjectDatabase RefStore

/-! ## Written steps -/

/-- The commands written one after the other, each with the refs it finds, and the refs
they leave. -/
inductive Steps : RefStore → List (RefStore × RefUpdateCommand) → RefStore → Prop
  | nil (s : RefStore) : Steps s [] s
  | cons {s t : RefStore} {c : RefUpdateCommand} {steps : List (RefStore × RefUpdateCommand)}
      (h : Steps (writeCommand s c).2 steps t) : Steps s ((s, c) :: steps) t

/-- One of the steps writes a command. -/
def Written (steps : List (RefStore × RefUpdateCommand)) (cmd : RefUpdateCommand) : Prop :=
  ∃ s, (s, cmd) ∈ steps ∧ Writable s cmd

section Steps
variable {s t : RefStore} {c : RefUpdateCommand} {steps : List (RefStore × RefUpdateCommand)}
  {p : List Str} {name : Str}

/-- What every step keeps, all keep. -/
theorem Steps.keeps {I : RefStore → Prop} (h : Steps s steps t)
    (hstep : ∀ s c, (s, c) ∈ steps → I s → I (writeCommand s c).2) (hs : I s) : I t := by
  induction h with
  | nil s => exact hs
  | @cons s t c steps _ ih =>
      exact ih (fun s' c' hc => hstep s' c' (List.mem_cons_of_mem _ hc))
        (hstep s c List.mem_cons_self hs)

/-- A step does not touch a path: it writes another file, or cannot write and removes no
file there. -/
def Spares (p : List Str) (s : RefStore) (c : RefUpdateCommand) : Prop :=
  (Writable s c → target c ≠ some p) ∧
    (¬ Writable s c → c.new.isZero = true → filePath s.vfs c.name ≠ some p)

theorem leaf?_of_spares (hp : p ≠ packedPath) (h : Spares p s c) :
    (writeCommand s c).2.vfs.leaf? p = s.vfs.leaf? p := by
  by_cases hw : Writable s c
  · exact leaf?_of_other hw (h.1 hw) fun hq => absurd hq hp
  · rcases blocked_cases hw with ⟨heq, -⟩ | ⟨p', e, hz, hpath, -, -, hget⟩
    · rw [heq]
    · have hne : p ≠ p' := by
        rintro rfl
        exact h.2 hw hz hpath
      rw [FileTree.leaf?, FileTree.leaf?, hget, if_neg hne]

/-- **Files no step touches stay as they are.** -/
theorem Steps.leaf?_eq (h : Steps s steps t) (hp : p ≠ packedPath)
    (hsp : ∀ s c, (s, c) ∈ steps → Spares p s c) : t.vfs.leaf? p = s.vfs.leaf? p :=
  h.keeps (I := fun r => r.vfs.leaf? p = s.vfs.leaf? p)
    (fun s' c' hc hr => (leaf?_of_spares hp (hsp s' c' hc)).trans hr) rfl

/-- The directories after any command. -/
theorem dir_step_iff : (writeCommand s c).2.vfs.get? p = some .dir ↔ s.vfs.get? p = some .dir ∨
    (Writable s c ∧ c.new.isZero = false ∧ Below p (refPath c.name)) := by
  by_cases hw : Writable s c
  · rw [dir_iff hw, and_iff_right hw]
  · rw [or_iff_left fun h => hw h.1]
    rcases blocked_cases hw with ⟨heq, -⟩ | ⟨p', e, -, hpath, -, -, hget⟩
    · rw [heq]
    · obtain ⟨d, -, hleaf⟩ := filePath_eq_some.mp hpath
      rw [hget]
      split
      · rename_i hq
        rw [hq, hleaf]
        simp
      · rfl

/-- **The directories after the steps** are those before, and those on the way to a ref that
is written. -/
theorem Steps.dir_iff (h : Steps s steps t) : t.vfs.get? p = some .dir ↔
    s.vfs.get? p = some .dir ∨
      ∃ cmd, Written steps cmd ∧ cmd.new.isZero = false ∧ Below p (refPath cmd.name) := by
  induction h with
  | nil s => simp [Written]
  | @cons s t c steps _ ih =>
      rw [ih, dir_step_iff, or_assoc]
      refine or_congr_right ⟨?_, ?_⟩
      · rintro (⟨hw, hz, hb⟩ | ⟨cmd, ⟨s', hc, hw⟩, hz, hb⟩)
        · exact ⟨c, ⟨s, List.mem_cons_self, hw⟩, hz, hb⟩
        · exact ⟨cmd, ⟨s', List.mem_cons_of_mem _ hc, hw⟩, hz, hb⟩
      · rintro ⟨cmd, ⟨s', hc, hw⟩, hz, hb⟩
        rcases List.mem_cons.mp hc with heq | hc
        · cases heq
          exact Or.inl ⟨hw, hz, hb⟩
        · exact Or.inr ⟨cmd, ⟨s', hc, hw⟩, hz, hb⟩

/-- A directory stays. -/
theorem dir_of_dir (hd : s.vfs.get? p = some .dir) : (writeCommand s c).2.vfs.get? p = some .dir :=
  dir_step_iff.mpr (Or.inl hd)

/-- Packed refs are only ever taken out. -/
theorem packedId_of_packedId {id : ObjectId} (h : (writeCommand s c).2.packedId name = some id) :
    s.packedId name = some id := by
  by_cases hw : Writable s c
  · exact ((packedId_iff hw).mp h).1
  · rcases blocked_cases hw with ⟨heq, -⟩ | ⟨p', e, -, -, -, hpacked', -⟩
    · rwa [heq] at h
    · rw [packedId, hpacked'] at h
      cases h

/-- A new ref buries a packed one: it makes a directory where the packed ref has no file. -/
def Buries (s : RefStore) (c : RefUpdateCommand) (name : Str) : Prop :=
  c.new.isZero = false ∧ (s.packedId name).isSome = true ∧ s.vfs.get? (refPath name) = none ∧
    Below (refPath name) (refPath c.name)

/-- **A step that spares the file of a ref, takes it out of no packed refs and does not bury
it leaves its value as it is.** -/
theorem value?_of_spares (hname : IsRefName name) (hp : refPath name ≠ packedPath)
    (hsp : Spares (refPath name) s c)
    (hpacked : Writable s c → (c.new.isZero = true → c.name ≠ name) ∧ target c ≠ some packedPath)
    (hbury : Writable s c → ¬ Buries s c name) :
    (writeCommand s c).2.value? name = s.value? name ∧
      (writeCommand s c).2.packedId name = s.packedId name := by
  have hid : (writeCommand s c).2.packedId name = s.packedId name := by
    by_cases hw : Writable s c
    · cases hs : s.packedId name with
      | none =>
          cases h : (writeCommand s c).2.packedId name with
          | none => rfl
          | some id =>
              rw [packedId_of_packedId h] at hs
              cases hs
      | some id => exact (packedId_iff hw).mpr ⟨hs, hpacked hw⟩
    · rcases blocked_cases hw with ⟨heq, -⟩ | ⟨p', e, -, -, hpacked, hpacked', -⟩
      · rw [heq]
      · rw [packedId, packedId, hpacked, hpacked']
  have hleaf := leaf?_of_spares hp hsp
  refine ⟨?_, hid⟩
  rw [value?_refPath hname, value?_refPath hname, writeCommand_algo, hid]
  cases hs : s.vfs.get? (refPath name) with
  | some e =>
      cases e with
      | leaf d =>
          rw [FileTree.leaf?_eq_some.mpr hs] at hleaf
          rw [FileTree.leaf?_eq_some.mp hleaf]
      | dir => rw [dir_of_dir hs]
  | none =>
      cases ht : (writeCommand s c).2.vfs.get? (refPath name) with
      | none => rfl
      | some e =>
          cases e with
          | leaf d =>
              rw [FileTree.leaf?_eq_some.mpr ht] at hleaf
              rw [FileTree.leaf?_eq_some.mp hleaf.symm] at hs
              cases hs
          | dir =>
              -- a directory was made there: the ref was not a packed one
              rcases dir_step_iff.mp ht with hd | ⟨hw, hz, hbelow⟩
              · rw [hs] at hd
                cases hd
              · cases hv : s.packedId name with
                | none => rfl
                | some id => exact absurd ⟨hz, by rw [hv]; rfl, hs, hbelow⟩ (hbury hw)

/-- What every step keeps holds before each of them. -/
theorem Steps.keeps_mem {I : RefStore → Prop} (h : Steps s steps t)
    (hstep : ∀ s c, I s → I (writeCommand s c).2) (hs : I s) :
    ∀ s' c', (s', c') ∈ steps → I s' := by
  induction h with
  | nil s => exact fun _ _ hc => (by cases hc)
  | @cons s t c steps _ ih =>
      intro s' c' hc
      rcases List.mem_cons.mp hc with heq | hc
      · cases heq
        exact hs
      · exact ih (hstep s c hs) s' c' hc

/-- Where a directory is, nothing is written. -/
theorem not_writable_of_dir (hname : IsRefName name) (hd : s.vfs.get? (refPath name) = some .dir)
    (hc : c.name = name) : ¬ Writable s c := by
  intro hw
  have ht : target c = some (refPath name) := by
    rw [← hc]
    exact target_eq_some.mpr (resolve_refPath (hc ▸ hname))
  cases hz : c.new.isZero with
  | false =>
      have hfile := ((writable_update hz).mp hw).file
      rw [hc] at hfile
      exact hfile hd
  | true => exact get?_ne_dir_of_canDelete ((writable_delete hz).mp hw) ht hd

/-- Where a packed ref has no file after a step, it had none before, and the step did not
write it. -/
theorem unbound_before (hp : refPath name ≠ packedPath)
    (hplain : Writable s c → IsBelowRefs c.name)
    (hid : ((writeCommand s c).2.packedId name).isSome = true)
    (hnone : (writeCommand s c).2.vfs.get? (refPath name) = none) :
    (Writable s c → c.name ≠ name) ∧ (s.packedId name).isSome = true ∧
      s.vfs.get? (refPath name) = none := by
  obtain ⟨id, hid⟩ := Option.isSome_iff_exists.mp hid
  have hbefore := packedId_of_packedId hid
  have hne : Writable s c → c.name ≠ name := by
    intro hw hc
    cases hz : c.new.isZero with
    | true => exact (((packedId_iff hw).mp hid).2.1 hz) hc
    | false =>
        have ht := target_of_canUpdate ((writable_update hz).mp hw)
        rw [hc] at ht
        have hleaf := leaf?_of_target hw ht
        rw [written, outcome, hz] at hleaf
        rw [FileTree.leaf?_eq_some.mp hleaf] at hnone
        cases hnone
  refine ⟨hne, by rw [hbefore]; rfl, ?_⟩
  have hsp : Spares (refPath name) s c := by
    constructor
    · intro hw ht
      rw [target_eq_some.mpr (resolve_refPath (Or.inl (hplain hw).1))] at ht
      exact hne hw (refPath_injective (Option.some.inj ht))
    · intro hw hz hpath
      -- a delete that is stopped finds packed refs that cannot be read
      rcases blocked_cases hw with ⟨-, hnot⟩ | ⟨p', e, -, -, hpacked, -, -⟩
      · rw [hnot hz] at hpath
        cases hpath
      · rw [packedId, hpacked] at hbefore
        cases hbefore
  have hleaf := leaf?_of_spares hp hsp
  cases hs : s.vfs.get? (refPath name) with
  | none => rfl
  | some e =>
      cases e with
      | dir =>
          rw [dir_of_dir hs] at hnone
          cases hnone
      | leaf d =>
          rw [FileTree.leaf?_eq_some.mpr hs] at hleaf
          rw [FileTree.leaf?_eq_some.mp hleaf] at hnone
          cases hnone

/-- A packed ref without a file is not the packed refs. -/
theorem refPath_ne_of_packedId (hid : (s.packedId name).isSome = true)
    (hnone : s.vfs.get? (refPath name) = none) : refPath name ≠ packedPath := by
  intro hp
  rw [packedId, packed_eq, ← hp, hnone] at hid
  cases hid

/-- **A ref that was buried had its packed value before the run, has none after it, and was
not written.** -/
theorem Steps.buried (h : Steps s steps t)
    (hplain : ∀ s c, (s, c) ∈ steps → Writable s c → IsBelowRefs c.name)
    {s₁ : RefStore} {c₁ : RefUpdateCommand} (hmem : (s₁, c₁) ∈ steps) (hw : Writable s₁ c₁)
    (hb : Buries s₁ c₁ name) :
    (∀ c, Written steps c → c.name ≠ name) ∧ (s.packedId name).isSome = true ∧
      s.vfs.get? (refPath name) = none ∧ t.vfs.get? (refPath name) = some .dir := by
  obtain ⟨hz, hid, hnone, hbelow⟩ := hb
  have hname : IsRefName name := by
    obtain ⟨id, h⟩ := Option.isSome_iff_exists.mp hid
    exact Or.inl (isValidRefName_of_packedId h)
  have hp := refPath_ne_of_packedId hid hnone
  induction h with
  | nil s => cases hmem
  | @cons s t c steps hrest ih =>
      have hplain' : ∀ s c, (s, c) ∈ steps → Writable s c → IsBelowRefs c.name :=
        fun s' c' hc => hplain s' c' (List.mem_cons_of_mem _ hc)
      rcases List.mem_cons.mp hmem with heq | hmem
      · obtain ⟨rfl, rfl⟩ := Prod.mk.inj heq
        have hdir : (writeCommand s₁ c₁).2.vfs.get? (refPath name) = some .dir :=
          dir_step_iff.mpr (Or.inr ⟨hw, hz, hbelow⟩)
        refine ⟨?_, hid, hnone, hrest.keeps (I := fun r => r.vfs.get? (refPath name) = some .dir)
          (fun _ _ _ => dir_of_dir) hdir⟩
        rintro c' ⟨s', hc', hw'⟩ hn
        rcases List.mem_cons.mp hc' with heq | hc'
        · cases heq
          exact hbelow.2 (by rw [hn])
        · have hd := hrest.keeps_mem (I := fun r => r.vfs.get? (refPath name) = some .dir)
            (fun _ _ => dir_of_dir) hdir s' c' hc'
          exact not_writable_of_dir hname hd hn hw'
      · obtain ⟨hnot, hid', hnone', hdir⟩ := ih hplain' hmem
        obtain ⟨hne, hid₀, hnone₀⟩ := unbound_before hp (hplain s c List.mem_cons_self) hid' hnone'
        refine ⟨?_, hid₀, hnone₀, hdir⟩
        rintro c' ⟨s', hc', hw'⟩
        rcases List.mem_cons.mp hc' with heq | hc'
        · cases heq
          exact hne hw'
        · exact hnot c' ⟨s', hc', hw'⟩

/-- **A file a stopped delete removed was there before the run and is gone after it**, if no
command writes it. -/
theorem Steps.removed (h : Steps s steps t) (hp : p ≠ packedPath)
    (hfree : ∀ s c, (s, c) ∈ steps → Writable s c → target c ≠ some p) :
    (t.vfs.leaf? p = s.vfs.leaf? p ∨ t.vfs.leaf? p = none) ∧
    ∀ s₁ c₁, (s₁, c₁) ∈ steps → ¬ Writable s₁ c₁ → c₁.new.isZero = true →
      filePath s₁.vfs c₁.name = some p → (s.vfs.leaf? p).isSome = true ∧ t.vfs.leaf? p = none := by
  induction h with
  | nil s => exact ⟨Or.inl rfl, fun _ _ hc => (by cases hc)⟩
  | @cons s t c steps hrest ih =>
      obtain ⟨hfinal, hlost⟩ := ih fun s' c' hc => hfree s' c' (List.mem_cons_of_mem _ hc)
      have hhere := hfree s c List.mem_cons_self
      by_cases hsp : Spares p s c
      · have hleaf := leaf?_of_spares hp hsp
        rw [hleaf] at hfinal hlost
        refine ⟨hfinal, fun s₁ c₁ hc₁ hw hz hpath => ?_⟩
        rcases List.mem_cons.mp hc₁ with heq | hc₁
        · cases heq
          exact absurd hpath (hsp.2 hw hz)
        · exact hlost s₁ c₁ hc₁ hw hz hpath
      · -- the step is a stopped delete of the file
        have hstopped : ¬ Writable s c ∧ c.new.isZero = true ∧ filePath s.vfs c.name = some p := by
          by_contra hn
          refine hsp ⟨hhere, fun hw hz hpath => hn ⟨hw, hz, hpath⟩⟩
        obtain ⟨hw, hz, hpath⟩ := hstopped
        have hgone : (writeCommand s c).2.vfs.leaf? p = none := by
          rcases blocked_cases hw with ⟨-, hnot⟩ | ⟨p', e, -, hpath', -, -, hget⟩
          · rw [hnot hz] at hpath
            cases hpath
          · rw [hpath] at hpath'
            cases hpath'
            exact leaf?_eq_none_of_get? fun d hd => by
              rw [hget, if_pos rfl] at hd
              cases hd
        rw [hgone, or_self] at hfinal
        obtain ⟨d, -, hd⟩ := filePath_eq_some.mp hpath
        have hsome : (s.vfs.leaf? p).isSome = true := by
          rw [FileTree.leaf?_eq_some.mpr hd]
          rfl
        exact ⟨Or.inr hfinal, fun _ _ _ _ _ _ => ⟨hsome, hfinal⟩⟩

end Steps

/-! ## The push -/

/-- A command is reported ok. -/
def ReportedOk (cmds : List RefUpdateCommand) (report : ReportStatus)
    (cmd : RefUpdateCommand) : Prop :=
  (cmd, .ok ()) ∈ cmds.zip (report.refs.map (·.result))

/-- **Nothing changes but the refs under `refs/` whose commands are reported ok**, and every
other command is reported ng: each other file keeps its contents, each other ref its value,
and a directory is made only on the way to a new ref. -/
structure Framed (refs : RefStore) (cmds : List RefUpdateCommand) (report : ReportStatus)
    (refs' : RefStore) : Prop where
  reported : report.refs.map (·.name) = cmds.map (·.name)
  plain : ∀ cmd, ReportedOk cmds report cmd → IsBelowRefs cmd.name
  files : ∀ p, p ≠ packedPath → (∀ cmd, ReportedOk cmds report cmd → refPath cmd.name ≠ p) →
    refs'.vfs.leaf? p = refs.vfs.leaf? p
  values : ∀ name, IsRefName name → refPath name ≠ packedPath →
    (∀ cmd, ReportedOk cmds report cmd → cmd.name ≠ name) →
    refs'.value? name = refs.value? name ∧ refs'.packedId name = refs.packedId name
  dirs : ∀ p, refs'.vfs.get? p = some .dir ↔ refs.vfs.get? p = some .dir ∨
    ∃ cmd, ReportedOk cmds report cmd ∧ cmd.new.isZero = false ∧ Below p (refPath cmd.name)

/-- What a step of a push may do: what it writes is a ref under `refs/` and buries no packed
one; a delete that is stopped had no file to remove, unless the push writes that ref. -/
structure Tame (steps : List (RefStore × RefUpdateCommand)) (s : RefStore) (c : RefUpdateCommand) :
    Prop where
  plain : Writable s c → IsBelowRefs c.name
  buries : Writable s c → ∀ name, ¬ Buries s c name
  stopped : ¬ Writable s c → c.new.isZero = true → ∀ p, filePath s.vfs c.name = some p →
    ∃ c', Written steps c' ∧ refPath c'.name = p

/-- **A push is framed exactly when each of its steps is tame.** -/
theorem framed_iff {refs refs' : RefStore} {cmds : List RefUpdateCommand} (report : ReportStatus)
    {steps : List (RefStore × RefUpdateCommand)} (h : Steps refs steps refs')
    (hnames : report.refs.map (·.name) = cmds.map (·.name))
    (hok : ∀ cmd, ReportedOk cmds report cmd ↔ Written steps cmd) :
    Framed refs cmds report refs' ↔ ∀ s c, (s, c) ∈ steps → Tame steps s c := by
  constructor
  · intro hf
    have hplain : ∀ s c, (s, c) ∈ steps → Writable s c → IsBelowRefs c.name :=
      fun s c hc hw => hf.plain c ((hok c).mpr ⟨s, hc, hw⟩)
    intro s c hc
    refine ⟨hplain s c hc, fun hw name hb => ?_, fun hw hz p hpath => ?_⟩
    · obtain ⟨hnot, hid, hnone, hdir⟩ := h.buried hplain hc hw hb
      obtain ⟨id, hid'⟩ := Option.isSome_iff_exists.mp hid
      have hname : IsRefName name := Or.inl (isValidRefName_of_packedId hid')
      have hvalue := (hf.values name hname (refPath_ne_of_packedId hid hnone)
        fun cmd hcmd => hnot cmd ((hok cmd).mp hcmd)).1
      rw [value?_refPath hname, value?_refPath hname, hdir, hnone, hid'] at hvalue
      cases hvalue
    · by_contra hn
      have hp : p ≠ packedPath := by
        rintro rfl
        refine hw ((writable_delete hz).mpr ⟨fun hdir => ?_, Or.inl hpath⟩)
        rw [filePath_of_dir hdir] at hpath
        cases hpath
      have hfree : ∀ s c, (s, c) ∈ steps → Writable s c → target c ≠ some p := by
        intro s' c' hc' hw' ht
        rw [target_eq_some.mpr (resolve_refPath (Or.inl (hplain s' c' hc' hw').1))] at ht
        exact hn ⟨c', ⟨s', hc', hw'⟩, Option.some.inj ht⟩
      have hkept := hf.files p hp fun cmd hcmd heq => hn ⟨cmd, (hok cmd).mp hcmd, heq⟩
      obtain ⟨hsome, hgone⟩ := (h.removed hp hfree).2 s c hc hw hz hpath
      rw [← hkept, hgone] at hsome
      cases hsome
  · intro htame
    have hwritten : ∀ cmd, Written steps cmd → IsBelowRefs cmd.name := by
      rintro cmd ⟨s, hc, hw⟩
      exact (htame s cmd hc).plain hw
    -- a path that no command writes is touched by no step
    have hspares : ∀ p, (∀ cmd, Written steps cmd → refPath cmd.name ≠ p) →
        ∀ s c, (s, c) ∈ steps → Spares p s c := by
      intro p hp s c hc
      constructor
      · intro hw ht
        rw [target_eq_some.mpr (resolve_refPath (Or.inl (hwritten c ⟨s, hc, hw⟩).1))] at ht
        exact hp c ⟨s, hc, hw⟩ (Option.some.inj ht)
      · intro hw hz hpath
        obtain ⟨c', hc', heq⟩ := (htame s c hc).stopped hw hz p hpath
        exact hp c' hc' heq
    refine ⟨hnames, fun cmd hcmd => hwritten cmd ((hok cmd).mp hcmd), fun p hp hfree => ?_,
      fun name hname hp hfree => ?_, fun p => ?_⟩
    · exact h.leaf?_eq hp (hspares p fun cmd hcmd => hfree cmd ((hok cmd).mpr hcmd))
    · have hsp := hspares (refPath name) fun cmd hcmd heq =>
        hfree cmd ((hok cmd).mpr hcmd) (refPath_injective heq)
      refine h.keeps (I := fun r => r.value? name = refs.value? name ∧
        r.packedId name = refs.packedId name) (fun s c hc hr => ?_) ⟨rfl, rfl⟩
      have hpacked : Writable s c →
          (c.new.isZero = true → c.name ≠ name) ∧ target c ≠ some packedPath := by
        intro hw
        have hplain := hwritten c ⟨s, hc, hw⟩
        refine ⟨fun _ => hfree c ((hok c).mpr ⟨s, hc, hw⟩), fun ht => ?_⟩
        rw [target_eq_some.mpr (resolve_refPath (Or.inl hplain.1))] at ht
        exact not_packedPath_prefix hplain (Option.some.inj ht ▸ List.prefix_rfl)
      obtain ⟨hvalue, hid⟩ := value?_of_spares hname hp (hsp s c hc) hpacked
        fun hw => (htame s c hc).buries hw name
      exact ⟨hvalue.trans hr.1, hid.trans hr.2⟩
    · simp only [h.dir_iff, hok]

/-- The commands that pass in turn, each with the refs it finds. -/
def attempts (passes : RefStore → RefUpdateCommand → Bool) :
    RefStore → List RefUpdateCommand → List (RefStore × RefUpdateCommand)
  | _, [] => []
  | refs, cmd :: cmds =>
    if passes refs cmd then (refs, cmd) :: attempts passes (writeCommand refs cmd).2 cmds
    else attempts passes refs cmds

variable {D : Type} [ObjectDatabase D]

/-- The commands a push writes: none if its pack did not come in or, for an atomic push, if
one is refused; otherwise those that pass the vetting. -/
def pushSteps (odb : D) (hook : UpdateHook) (refs : RefStore) (req : PushRequest)
    (unpack : Except Str Unit) : List (RefStore × RefUpdateCommand) :=
  if !unpack.toBool then []
  else if req.capabilities.has (str "atomic") then
    if req.commands.all fun cmd => (vet odb hook refs cmd).toBool then
      attempts (fun _ _ => true) refs req.commands
    else []
  else attempts (fun refs cmd => (vet odb hook refs cmd).toBool) refs req.commands

/-- What a list of statuses has to do with steps: each command is reported, those the steps
write and no others as ok. -/
structure Reports (cmds : List RefUpdateCommand) (statuses : List RefStatus)
    (steps : List (RefStore × RefUpdateCommand)) : Prop where
  names : statuses.map (·.name) = cmds.map (·.name)
  ok : ∀ cmd, (cmd, .ok ()) ∈ cmds.zip (statuses.map (·.result)) ↔ Written steps cmd

/-- Statuses none of which is ok report no step. -/
theorem reports_nil {cmds : List RefUpdateCommand} {f : RefUpdateCommand → Except Str Unit}
    (hf : ∀ cmd, f cmd ≠ .ok ()) : Reports cmds (cmds.map fun cmd => ⟨cmd.name, f cmd⟩) [] where
  names := by
    rw [List.map_map]
    rfl
  ok cmd := by
    constructor
    · intro h
      obtain ⟨-, hr⟩ := List.of_mem_zip h
      rw [List.map_map] at hr
      obtain ⟨c, -, hc⟩ := List.mem_map.mp hr
      exact absurd hc (hf c)
    · rintro ⟨s, hs, -⟩
      cases hs

/-- A written command in front. -/
theorem Reports.cons {refs : RefStore} {cmd : RefUpdateCommand} {cmds : List RefUpdateCommand}
    {statuses : List RefStatus} {steps : List (RefStore × RefUpdateCommand)}
    (h : Reports cmds statuses steps) :
    Reports (cmd :: cmds) (⟨cmd.name, (writeCommand refs cmd).1⟩ :: statuses)
      ((refs, cmd) :: steps) where
  names := by rw [List.map_cons, List.map_cons, h.names]
  ok c := by
    rw [List.map_cons, List.zip_cons_cons, List.mem_cons, h.ok, Prod.mk.injEq]
    constructor
    · rintro (⟨rfl, hr⟩ | ⟨s, hs, hw⟩)
      · exact ⟨refs, List.mem_cons_self, writeCommand_ok.mp hr.symm⟩
      · exact ⟨s, List.mem_cons_of_mem _ hs, hw⟩
    · rintro ⟨s, hs, hw⟩
      rcases List.mem_cons.mp hs with heq | hs
      · cases heq
        exact Or.inl ⟨rfl, (writeCommand_ok.mpr hw).symm⟩
      · exact Or.inr ⟨s, hs, hw⟩

/-- A refused command in front. -/
theorem Reports.cons_refused {cmd : RefUpdateCommand} {cmds : List RefUpdateCommand}
    {statuses : List RefStatus} {steps : List (RefStore × RefUpdateCommand)} {reason : Str}
    (h : Reports cmds statuses steps) :
    Reports (cmd :: cmds) (⟨cmd.name, .error reason⟩ :: statuses) steps where
  names := by rw [List.map_cons, List.map_cons, h.names]
  ok c := by
    rw [List.map_cons, List.zip_cons_cons, List.mem_cons, h.ok, Prod.mk.injEq]
    exact or_iff_right fun hc => (by cases hc.2)

theorem writeCommands_steps (refs : RefStore) (cmds : List RefUpdateCommand) :
    Steps refs (attempts (fun _ _ => true) refs cmds) (writeCommands refs cmds).2 ∧
      Reports cmds (writeCommands refs cmds).1 (attempts (fun _ _ => true) refs cmds) := by
  induction cmds generalizing refs with
  | nil => exact ⟨.nil refs, reports_nil (f := fun _ => .error []) (by simp)⟩
  | cons cmd cmds ih =>
      obtain ⟨hsteps, hreports⟩ := ih (writeCommand refs cmd).2
      exact ⟨.cons hsteps, hreports.cons⟩

theorem applyEach_steps (odb : D) (hook : UpdateHook) (refs : RefStore)
    (cmds : List RefUpdateCommand) :
    Steps refs (attempts (fun refs cmd => (vet odb hook refs cmd).toBool) refs cmds)
        (applyEach odb hook refs cmds).2 ∧
      Reports cmds (applyEach odb hook refs cmds).1
        (attempts (fun refs cmd => (vet odb hook refs cmd).toBool) refs cmds) := by
  induction cmds generalizing refs with
  | nil => exact ⟨.nil refs, reports_nil (f := fun _ => .error []) (by simp)⟩
  | cons cmd cmds ih =>
      rw [applyEach, attempts]
      cases hv : vet odb hook refs cmd with
      | error reason =>
          obtain ⟨hsteps, hreports⟩ := ih refs
          exact ⟨hsteps, hreports.cons_refused⟩
      | ok _ =>
          obtain ⟨hsteps, hreports⟩ := ih (writeCommand refs cmd).2
          exact ⟨.cons hsteps, hreports.cons⟩

/-- **What a push writes and reports.** -/
theorem applyCommands_steps (odb : D) (hook : UpdateHook) (refs : RefStore) (req : PushRequest)
    (unpack : Except Str Unit) :
    Steps refs (pushSteps odb hook refs req unpack) (applyCommands odb hook refs req unpack).2 ∧
      Reports req.commands (applyCommands odb hook refs req unpack).1
        (pushSteps odb hook refs req unpack) := by
  rw [applyCommands, pushSteps]
  split
  · exact ⟨.nil refs, reports_nil fun _ => by simp⟩
  split
  · rw [applyAtomic]
    split
    · exact writeCommands_steps refs req.commands
    · refine ⟨.nil refs, reports_nil fun cmd => ?_⟩
      cases vet odb hook refs cmd <;> simp [refusal]
  · exact applyEach_steps odb hook refs req.commands

/-- A push that is reported on and framed. -/
def PushFramed (refs : RefStore) (cmds : List RefUpdateCommand) (r : Received D) : Prop :=
  ∃ report, r.report = .ok report ∧ Framed refs cmds report r.refs

/-- **A push changes the refs its ok commands name, under `refs/`, and nothing else in the
git directory, exactly when each command it writes is tame.** -/
theorem push_framed_iff {explode : ExplodePack} {odb odb' : D} {refs : RefStore}
    {hook : UpdateHook} {request pack : Bytes} {req : PushRequest} {unpack : Except Str Unit}
    (hreq : readPush (algo odb) request = .ok (req, pack))
    (hunpack : unpackPush explode odb pack = (unpack, odb')) :
    PushFramed refs req.commands (receivePackOver explode odb refs request hook) ↔
      ∀ s c, (s, c) ∈ pushSteps odb' hook refs req unpack →
        Tame (pushSteps odb' hook refs req unpack) s c := by
  obtain ⟨hsteps, hreports⟩ := applyCommands_steps odb' hook refs req unpack
  have hframed := framed_iff ⟨unpack, (applyCommands odb' hook refs req unpack).1⟩ hsteps
    hreports.names hreports.ok
  rw [← hframed, receivePackOver_eq hreq hunpack, PushFramed]
  constructor
  · rintro ⟨report, heq, hf⟩
    cases heq
    exact hf
  · exact fun hf => ⟨_, rfl, hf⟩

/-! ## Pushes that name a branch and a file -/

namespace PushSample
open FetchSample

/-- A push that creates the branch `a`. -/
def pushBranch : Bytes :=
  bytes "00620000000000000000000000000000000000000000 " ++
    bytes "70026b697166b1dcda95ab765e4ef049e459b135 refs/heads/a0000"

/-- A push that creates a ref named `config`. -/
def pushConfig : Bytes :=
  bytes "005c0000000000000000000000000000000000000000 " ++
    bytes "70026b697166b1dcda95ab765e4ef049e459b135 config0000"

/-- A git directory with a configuration file. -/
def withConfig : RefStore :=
  ⟨(FileTree.empty.putLeaf [str "config"] (bytes "[core]\n")).getD FileTree.empty, .sha1⟩

/-- The branch is created, and nothing else. -/
theorem pushBranch_framed : PushFramed noRefs [create "refs/heads/a"]
    (receivePackOver noPack store noRefs pushBranch allow) := by
  have hreq : readPush (algo store) pushBranch = .ok (⟨[create "refs/heads/a"], ⟨[]⟩⟩, []) := by
    decide +kernel
  have hunpack : unpackPush noPack store [] = (.ok (), store) := rfl
  refine (push_framed_iff hreq hunpack).mpr fun s c hc => ?_
  have hsteps : ∀ s c, (s, c) ∈ pushSteps store allow noRefs ⟨[create "refs/heads/a"],
    ⟨[]⟩⟩ (.ok ()) →
      s = noRefs ∧ c = create "refs/heads/a" := by
    intro s c hc
    rw [pushSteps, if_neg (by simp [Except.toBool]), if_neg (by simp [Capabilities.has]), attempts,
      attempts, attempts] at hc
    split at hc
    · cases List.mem_singleton.mp hc
      exact ⟨rfl, rfl⟩
    · cases hc
  obtain ⟨rfl, rfl⟩ := hsteps s c hc
  refine ⟨fun _ => ⟨by decide, by decide⟩, fun _ name hb => ?_, fun hw => ?_⟩
  · have hpacked := hb.2.1
    have hnone : noRefs.packedId name = none := by
      rw [packedId, packed_eq, noRefs, FileTree.get?_empty (by simp [packedPath])]
      rfl
    rw [hnone] at hpacked
    cases hpacked
  · exact absurd (writeCommand_ok.mp (by decide)) hw

/-- The configuration is overwritten. -/
theorem pushConfig_overwrites : ∃ req pack, readPush (algo store) pushConfig = .ok (req, pack) ∧
    ¬ PushFramed withConfig req.commands
      (receivePackOver noPack store withConfig pushConfig allow) := by
  have hreq : readPush (algo store) pushConfig = .ok (⟨[create "config"], ⟨[]⟩⟩, []) := by
    decide +kernel
  have hunpack : unpackPush noPack store [] = (.ok (), store) := rfl
  refine ⟨_, [], hreq, ?_⟩
  rw [receivePackOver_eq hreq hunpack]
  rintro ⟨report, heq, hf⟩
  cases heq
  have hok : (applyCommands store allow withConfig ⟨[create "config"], ⟨[]⟩⟩ (.ok ())).1 =
      [⟨str "config", .ok ()⟩] := by
    decide
  have hplain :=
    (hf.plain (create "config") (by rw [ReportedOk, hok]; exact List.mem_singleton.mpr rfl)).2
  revert hplain
  decide

end PushSample

end Puregit.Server
