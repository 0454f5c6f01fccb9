import Puregit.Server.Effect

/-! # When an atomic push is all or nothing

The commands of an atomic push are all vetted before the first is written, but writing
one may fail where vetting did not look: at a malformed name, a lock that is held, a
directory in the way.  And a later command of the push may write the same file again.

A push all of whose commands can be written in turn leaves each file as the last command
for it says, `leaf?_writeCommands`; `atomic_push_iff` puts together when that is what every
command asked for.
-/
namespace Puregit.Server
open ObjectDatabase RefStore

variable {refs : RefStore} {cmd : RefUpdateCommand} {p : List Str}

/-! ## Commands in turn -/

/-- Each command satisfies `P` in the state the commands before it leave. -/
def InTurn (P : RefStore → RefUpdateCommand → Prop) : RefStore → List RefUpdateCommand → Prop
  | _, [] => True
  | refs, cmd :: cmds => P refs cmd ∧ InTurn P (writeCommand refs cmd).2 cmds

/-- The last command for a path. -/
def lastOn (cmds : List RefUpdateCommand) (p : List Str) : Option RefUpdateCommand :=
  (cmds.filter fun cmd => target cmd = some p).getLast?

variable {cmds : List RefUpdateCommand}

theorem writeCommands_cons (refs : RefStore) (cmd : RefUpdateCommand)
    (cmds : List RefUpdateCommand) :
    writeCommands refs (cmd :: cmds) =
      (⟨cmd.name, (writeCommand refs cmd).1⟩ :: (writeCommands (writeCommand refs cmd).2 cmds).1,
        (writeCommands (writeCommand refs cmd).2 cmds).2) := rfl

theorem writeCommands_names (refs : RefStore) (cmds : List RefUpdateCommand) :
    (writeCommands refs cmds).1.map (·.name) = cmds.map (·.name) := by
  induction cmds generalizing refs with
  | nil => rfl
  | cons cmd cmds ih => rw [writeCommands_cons, List.map_cons, ih, List.map_cons]

theorem writeCommands_algo (refs : RefStore) (cmds : List RefUpdateCommand) :
    (writeCommands refs cmds).2.algo = refs.algo := by
  induction cmds generalizing refs with
  | nil => rfl
  | cons cmd cmds ih => rw [writeCommands_cons, ih, writeCommand_algo]

/-- **All are reported ok when each can be written in turn.** -/
theorem writeCommands_ok : (∀ s ∈ (writeCommands refs cmds).1, s.result = .ok ()) ↔
    InTurn Writable refs cmds := by
  induction cmds generalizing refs with
  | nil => simp [writeCommands, InTurn]
  | cons cmd cmds ih => rw [writeCommands_cons, List.forall_mem_cons, ih, writeCommand_ok, InTurn]

/-- **None is reported ok when none can be written in turn.** -/
theorem writeCommands_ng : (∀ s ∈ (writeCommands refs cmds).1, s.result ≠ .ok ()) ↔
    InTurn (fun refs cmd => ¬ Writable refs cmd) refs cmds := by
  induction cmds generalizing refs with
  | nil => simp [writeCommands, InTurn]
  | cons cmd cmds ih =>
      rw [writeCommands_cons, List.forall_mem_cons, ih, ne_eq, writeCommand_ok, InTurn]

theorem lastOn_cons_of_some {last : RefUpdateCommand} (h : lastOn cmds p = some last) :
    lastOn (cmd :: cmds) p = some last := by
  rw [lastOn] at h ⊢
  rw [List.filter_cons]
  split
  · rw [List.getLast?_cons, h]
    rfl
  · exact h

theorem lastOn_cons_of_none (h : lastOn cmds p = none) :
    lastOn (cmd :: cmds) p = if target cmd = some p then some cmd else none := by
  rw [lastOn, List.getLast?_eq_none_iff] at h
  rw [lastOn, List.filter_cons, h]
  by_cases ht : target cmd = some p
  · simp [ht]
  · simp [ht]

theorem lastOn_isSome (hc : cmd ∈ cmds) (ht : target cmd = some p) :
    ∃ last, lastOn cmds p = some last := by
  cases h : lastOn cmds p with
  | some last => exact ⟨last, rfl⟩
  | none =>
      rw [lastOn, List.getLast?_eq_none_iff, List.filter_eq_nil_iff] at h
      exact absurd (by simpa using ht) (h cmd hc)

theorem lastOn_mem {last : RefUpdateCommand} (h : lastOn cmds p = some last) :
    last ∈ cmds ∧ target last = some p := by
  have := List.mem_filter.mp (List.mem_of_getLast? h)
  exact ⟨this.1, by simpa using this.2⟩

/-- Commands for other files leave a file as it is. -/
theorem leaf?_writeCommands_of_none (hw : InTurn Writable refs cmds) (hn : lastOn cmds p = none)
    (hp : Settled refs.vfs p) : (writeCommands refs cmds).2.vfs.leaf? p = refs.vfs.leaf? p := by
  induction cmds generalizing refs with
  | nil => rfl
  | cons cmd cmds ih =>
      obtain ⟨hcmd, hrest⟩ := hw
      have hrestNone : lastOn cmds p = none := by
        cases h : lastOn cmds p with
        | none => rfl
        | some last =>
            rw [lastOn_cons_of_some h] at hn
            cases hn
      have ht : target cmd ≠ some p := by
        intro ht
        rw [lastOn_cons_of_none hrestNone, if_pos ht] at hn
        cases hn
      have hstep := leaf?_of_other hcmd ht hp
      rw [writeCommands_cons]
      show (writeCommands (writeCommand refs cmd).2 cmds).2.vfs.leaf? p = _
      rw [ih hrest hrestNone (fun hq => by rw [hstep]; exact hp hq), hstep]

/-- **A file is left as the last command for it says.** -/
theorem leaf?_writeCommands {last : RefUpdateCommand} (hw : InTurn Writable refs cmds)
    (hlast : lastOn cmds p = some last) :
    (writeCommands refs cmds).2.vfs.leaf? p = written last := by
  induction cmds generalizing refs with
  | nil => cases hlast
  | cons cmd cmds ih =>
      obtain ⟨hcmd, hrest⟩ := hw
      rw [writeCommands_cons]
      show (writeCommands (writeCommand refs cmd).2 cmds).2.vfs.leaf? p = _
      cases h : lastOn cmds p with
      | some last' =>
          rw [lastOn_cons_of_some h] at hlast
          cases hlast
          exact ih hrest h
      | none =>
          rw [lastOn_cons_of_none h] at hlast
          split at hlast
          · rename_i ht
            cases hlast
            have hleaf := leaf?_of_target hcmd ht
            rw [leaf?_writeCommands_of_none hrest h, hleaf]
            intro _
            rw [hleaf, written]
            cases outcome last with
            | none => exact Or.inl rfl
            | some id => exact Or.inr ⟨id, rfl⟩
          · cases hlast

theorem dir_writeCommands (hw : InTurn Writable refs cmds) :
    (writeCommands refs cmds).2.vfs.get? p = some .dir ↔ refs.vfs.get? p = some .dir ∨
      ∃ cmd ∈ cmds, cmd.new.isZero = false ∧ Below p (refPath cmd.name) := by
  induction cmds generalizing refs with
  | nil => simp [writeCommands]
  | cons cmd cmds ih =>
      obtain ⟨hcmd, hrest⟩ := hw
      rw [writeCommands_cons]
      show (writeCommands (writeCommand refs cmd).2 cmds).2.vfs.get? p = _ ↔ _
      rw [ih hrest, dir_iff hcmd, List.exists_mem_cons_iff, or_assoc]

theorem packedId_writeCommands (hw : InTurn Writable refs cmds) {name : Str} {id : ObjectId} :
    (writeCommands refs cmds).2.packedId name = some id ↔ refs.packedId name = some id ∧
      ∀ cmd ∈ cmds, (cmd.new.isZero = true → cmd.name ≠ name) ∧ target cmd ≠ some packedPath := by
  induction cmds generalizing refs with
  | nil => simp [writeCommands]
  | cons cmd cmds ih =>
      obtain ⟨hcmd, hrest⟩ := hw
      rw [writeCommands_cons]
      show (writeCommands (writeCommand refs cmd).2 cmds).2.packedId name = _ ↔ _
      rw [ih hrest, packedId_iff hcmd, List.forall_mem_cons, and_assoc]

/-- A directory stays, so none is at the path of an update that is written. -/
theorem get?_ne_dir_of_mem (hw : InTurn Writable refs cmds) (hc : cmd ∈ cmds)
    (hz : cmd.new.isZero = false) : IsRefName cmd.name ∧ refs.vfs.get?
    (refPath cmd.name) ≠ some .dir := by
  induction cmds generalizing refs with
  | nil => cases hc
  | cons c cmds ih =>
      obtain ⟨hcmd, hrest⟩ := hw
      rcases List.mem_cons.mp hc with rfl | hc
      · have hcan := (writable_update hz).mp hcmd
        exact ⟨hcan.isRefName, hcan.file⟩
      · obtain ⟨hname, hdir⟩ := ih hrest hc
        exact ⟨hname, fun h => hdir ((dir_iff hcmd).mpr (Or.inl h))⟩

/-! ## When every command holds at the end -/

/-- Packed-refs lists a ref at the value of its command, and no command of the push takes
it out or puts a directory in its place. -/
def StillPacked (refs : RefStore) (cmds : List RefUpdateCommand) (cmd : RefUpdateCommand) : Prop :=
  refs.packedId cmd.name = some cmd.new ∧
  (∀ c ∈ cmds, (c.new.isZero = true → c.name ≠ cmd.name) ∧ target c ≠ some packedPath) ∧
  ¬ ∃ c ∈ cmds, c.new.isZero = false ∧ Below (refPath cmd.name) (refPath c.name)

/-- The last command for the file of a command does not undo it. -/
def Agrees (refs : RefStore) (cmds : List RefUpdateCommand) (cmd last : RefUpdateCommand) : Prop :=
  if cmd.new.isZero then last.new.isZero = true
  else last.new = cmd.new ∨ (last.new.isZero = true ∧ StillPacked refs cmds cmd)

/-- No command of a push is undone by the last one for the same file. -/
def NoneUndone (refs : RefStore) (cmds : List RefUpdateCommand) : Prop :=
  ∀ cmd ∈ cmds, ∀ p last, target cmd = some p → lastOn cmds p = some last →
    Agrees refs cmds cmd last

/-- **Commands that are all written leave a ref with the value of its command exactly when
the last command for the same file does not undo it.** -/
theorem current_writeCommands (hw : InTurn Writable refs cmds)
    (halgo : ∀ cmd ∈ cmds, cmd.new.algo = refs.algo) (hc : cmd ∈ cmds) {last : RefUpdateCommand}
    (ht : target cmd = some p) (hlast : lastOn cmds p = some last) :
    (writeCommands refs cmds).2.current cmd.name = outcome cmd ↔ Agrees refs cmds cmd last := by
  have hr := target_eq_some.mp ht
  obtain ⟨hmem, -⟩ := lastOn_mem hlast
  have hleaf := leaf?_writeCommands hw hlast
  cases hlz : last.new.isZero with
  | false =>
      have hcurrent : (writeCommands refs cmds).2.current cmd.name = some last.new := by
        refine current_of_leaf? hr ?_ ?_
        · rw [writeCommands_algo, halgo last hmem]
        · rw [hleaf, written, outcome, hlz]
          rfl
      rw [hcurrent, outcome, Agrees]
      cases hz : cmd.new.isZero with
      | true => simp [hlz]
      | false => simp [hlz]
  | true =>
      have hnone : (writeCommands refs cmds).2.vfs.leaf? p = none := by
        rw [hleaf, written, outcome, hlz]
        rfl
      have hcurrent := current_of_no_leaf hr hnone
      cases hz : cmd.new.isZero with
      | true =>
          have hpacked : (writeCommands refs cmds).2.packedId cmd.name = none := by
            cases hp : (writeCommands refs cmds).2.packedId cmd.name with
            | none => rfl
            | some id => exact absurd rfl (((packedId_writeCommands hw).mp hp).2 cmd hc |>.1 hz)
          rw [hcurrent, hpacked, ite_self, outcome, Agrees, hz]
          simp [hlz]
      | false =>
          obtain ⟨hname, hdir⟩ := get?_ne_dir_of_mem hw hc hz
          have hpath : p = refPath cmd.name := by
            rw [resolve_refPath hname] at hr
            cases hr
            rfl
          subst hpath
          have hnew : last.new ≠ cmd.new := by
            intro h
            rw [h, hz] at hlz
            cases hlz
          rw [hcurrent, outcome, Agrees, hz, StillPacked]
          simp only [Bool.false_eq_true, if_false, hnew, hlz, true_and, false_or]
          rw [← and_assoc, ← packedId_writeCommands hw]
          have hbelow := dir_writeCommands (p := refPath cmd.name) hw
          rw [or_iff_right hdir] at hbelow
          rw [← hbelow]
          split
          · rename_i h
            simp [h]
          · rename_i h
            simp [h]

/-! ## Commands that cannot be written -/

/-- A delete that cannot be made and yet takes the value of its ref away. -/
def Loses (refs : RefStore) (cmd : RefUpdateCommand) : Prop :=
  cmd.new.isZero = true ∧ (filePath refs.vfs cmd.name).isSome = true ∧
    (refs.current cmd.name).isSome = true

/-- Every ref resolves as it did. -/
def SameRefs (refs refs' : RefStore) : Prop := ∀ name, refs'.current name = refs.current name

/-- **A command that cannot be written takes refs away at most**, and none unless it loses
one. -/
theorem current_of_blocked (h : ¬ Writable refs cmd) :
    (∀ name, (writeCommand refs cmd).2.current name = refs.current name ∨
      (writeCommand refs cmd).2.current name = none) ∧
    (Loses refs cmd → (writeCommand refs cmd).2.current cmd.name = none) ∧
    (¬ Loses refs cmd → SameRefs refs (writeCommand refs cmd).2) := by
  rcases blocked_cases h with ⟨heq, hnone⟩ | ⟨p, e, hz, hpath, hpacked, hpacked', hget⟩
  · rw [heq]
    refine ⟨fun _ => Or.inl rfl, fun hl => ?_, fun _ _ => rfl⟩
    have hsome := hl.2.1
    rw [hnone hl.1] at hsome
    cases hsome
  · obtain ⟨d, hr, hleaf⟩ := filePath_eq_some.mp hpath
    have hvalue := value?_of_removed writeCommand_algo hpacked hpacked' hget hleaf
    have hfewer : ∀ name, (writeCommand refs cmd).2.value? name = refs.value? name ∨
        (writeCommand refs cmd).2.value? name = none := by
      intro name
      rw [hvalue name]
      split
      · exact Or.inr rfl
      · exact Or.inl rfl
    refine ⟨fun name => resolveFrom_of_fewer hfewer name _ name, fun _ => ?_, fun hl name => ?_⟩
    · refine current_of_none ?_
      rw [hvalue, if_pos hr]
    · have hown : refs.current cmd.name = none := by
        by_contra hne
        exact hl ⟨hz, by rw [hpath]; rfl, Option.isSome_iff_ne_none.mpr hne⟩
      have hkept : ∀ cur, (writeCommand refs cmd).2.value? cur = refs.value? cur ∨
          refs.current cur = none := by
        intro cur
        rw [hvalue cur]
        split
        · rename_i hcur
          refine Or.inr ?_
          rw [← hown]
          refine current_congr ?_
          have hstat : ∀ n, Vfs.resolve n = .ok ⟨p, false⟩ → Vfs.stat refs.vfs n = .ok (.leaf d) :=
            fun n hn => Vfs.stat_ok.mpr ⟨_, hn, hleaf, by simp⟩
          rw [value?_eq, value?_eq, hstat _ hcur, hstat _ hr]
          rfl
        · exact Or.inl rfl
      cases hc : refs.current name with
      | some id => exact resolveFrom_of_kept le_rfl hkept hc
      | none =>
          rcases resolveFrom_of_fewer hfewer name maxSymrefDepth name with hsame | hlost
          · exact hsame.trans hc
          · exact hlost

theorem current_of_blocked_run (hb : InTurn (fun refs cmd => ¬ Writable refs cmd) refs cmds)
    (name : Str) : (writeCommands refs cmds).2.current name = refs.current name ∨
      (writeCommands refs cmds).2.current name = none := by
  induction cmds generalizing refs with
  | nil => exact Or.inl rfl
  | cons cmd cmds ih =>
      obtain ⟨hcmd, hrest⟩ := hb
      rcases ih hrest with h | h
      · rcases (current_of_blocked hcmd).1 name with h' | h'
        · exact Or.inl (h.trans h')
        · exact Or.inr (h.trans h')
      · exact Or.inr h

/-- **Commands none of which can be written leave every ref as it was unless one of them
takes a ref away.** -/
theorem sameRefs_writeCommands (hb : InTurn (fun refs cmd => ¬ Writable refs cmd) refs cmds) :
    SameRefs refs (writeCommands refs cmds).2 ↔
      InTurn (fun refs cmd => ¬ Loses refs cmd) refs cmds := by
  induction cmds generalizing refs with
  | nil => exact ⟨fun _ => trivial, fun _ _ => rfl⟩
  | cons cmd cmds ih =>
      obtain ⟨hcmd, hrest⟩ := hb
      obtain ⟨-, hloses, hkeeps⟩ := current_of_blocked hcmd
      rw [writeCommands_cons, InTurn, ← ih hrest]
      constructor
      · intro hsame
        have hnot : ¬ Loses refs cmd := by
          intro hl
          have hfinal := hsame cmd.name
          have hgone : (writeCommands (writeCommand refs cmd).2 cmds).2.current
              cmd.name = none := by
            rcases current_of_blocked_run hrest cmd.name with h | h
            · exact h.trans (hloses hl)
            · exact h
          rw [hgone] at hfinal
          have hsome := hl.2.2
          rw [← hfinal] at hsome
          cases hsome
        exact ⟨hnot, fun name => (hsame name).trans (hkeeps hnot name).symm⟩
      · rintro ⟨hnot, hsame⟩ name
        exact (hsame name).trans (hkeeps hnot name)

/-! ## The push -/

variable {D : Type} [ObjectDatabase D]

/-- **Every command is reported**, and all or none of them ok: if all, every ref named holds
its command's value; if none, every ref resolves as it did. -/
def AllOrNothing (refs : RefStore) (cmds : List RefUpdateCommand) (r : Received D) : Prop :=
  ∃ report, r.report = .ok report ∧ report.refs.map (·.name) = cmds.map (·.name) ∧
    (((∀ s ∈ report.refs, s.result = .ok ()) ∧
      ∀ cmd ∈ cmds, r.refs.current cmd.name = outcome cmd) ∨
    ((∀ s ∈ report.refs, s.result ≠ .ok ()) ∧ SameRefs refs r.refs))

theorem algo_of_readPush {algo : HashAlgo} {request pack : Bytes} {req : PushRequest}
    (h : readPush algo request = .ok (req, pack)) : ∀ cmd ∈ req.commands, cmd.new.algo = algo := by
  obtain ⟨⟨commandBytes, rest⟩, -, h⟩ := except_bind_ok.mp h
  obtain ⟨packets, -, h⟩ := except_bind_ok.mp h
  obtain ⟨req', hreq, h⟩ := except_bind_ok.mp h
  cases h
  exact fun cmd hcmd => (PushRequest.algo_of_parse hreq cmd hcmd).2

theorem inTurn_and {P Q : RefStore → RefUpdateCommand → Prop} :
    InTurn (fun refs cmd => P refs cmd ∧ Q refs cmd) refs cmds ↔ InTurn P refs cmds ∧
      InTurn Q refs cmds := by
  induction cmds generalizing refs with
  | nil => simp [InTurn]
  | cons cmd cmds ih =>
      rw [InTurn, InTurn, InTurn, ih]
      exact and_and_and_comm

/-- What an atomic push comes to once its pack is in. -/
theorem receivePackOver_atomic {explode : ExplodePack} {odb odb' : D} {hook : UpdateHook}
    {request pack : Bytes} {req : PushRequest}
    (hreq : readPush (algo odb) request = .ok (req, pack))
    (hatomic : req.capabilities.has (str "atomic") = true)
    (hunpack : unpackPush explode odb pack = (.ok (), odb')) :
    receivePackOver explode odb refs request hook =
      ⟨.ok ⟨.ok (), (applyAtomic odb' hook refs req.commands).1⟩, odb',
        (applyAtomic odb' hook refs req.commands).2⟩ := by
  rw [receivePackOver_eq hreq hunpack]
  simp only [applyCommands, Except.toBool, hatomic, Bool.not_true, Bool.false_eq_true, if_false,
    if_true]

/-- **An atomic push is all or nothing exactly when the hook or the vetting refuses a
command, or every command can be written in turn and none is undone by the last for its
file, or none can be written in turn and none takes a ref away.** -/
theorem atomic_push_iff {explode : ExplodePack} {odb odb' : D} {hook : UpdateHook}
    {request pack : Bytes} {req : PushRequest} (halgo : refs.algo = algo odb)
    (hreq : readPush (algo odb) request = .ok (req, pack))
    (hatomic : req.capabilities.has (str "atomic") = true)
    (hunpack : unpackPush explode odb pack = (.ok (), odb')) :
    AllOrNothing refs req.commands (receivePackOver explode odb refs request hook) ↔
      (∃ cmd ∈ req.commands, vet odb' hook refs cmd ≠ .ok ()) ∨
      (InTurn Writable refs req.commands ∧ NoneUndone refs req.commands) ∨
      InTurn (fun refs cmd => ¬ Writable refs cmd ∧ ¬ Loses refs cmd) refs req.commands := by
  have hids : ∀ cmd ∈ req.commands, cmd.new.algo = refs.algo := by
    rw [halgo]
    exact algo_of_readPush hreq
  have hvet : ∀ cmd, (vet odb' hook refs cmd).toBool = true ↔ vet odb' hook refs cmd = .ok () := by
    intro cmd
    cases vet odb' hook refs cmd <;> simp [Except.toBool]
  rw [receivePackOver_atomic hreq hatomic hunpack, AllOrNothing]
  by_cases hall : ∀ cmd ∈ req.commands, vet odb' hook refs cmd = .ok ()
  · have hwrite : applyAtomic odb' hook refs req.commands = writeCommands refs req.commands := by
      rw [applyAtomic, if_pos (List.all_eq_true.mpr fun cmd hcmd => (hvet cmd).mpr (hall cmd hcmd))]
    have hnotRefused : ¬ ∃ cmd ∈ req.commands, vet odb' hook refs cmd ≠ .ok () := by
      rintro ⟨cmd, hcmd, hne⟩
      exact hne (hall cmd hcmd)
    rw [hwrite, or_iff_right hnotRefused, inTurn_and]
    have hholds : InTurn Writable refs req.commands →
        ((∀ cmd ∈ req.commands, (writeCommands refs req.commands).2.current cmd.name =
          outcome cmd) ↔
          NoneUndone refs req.commands) := by
      intro hw
      refine forall₂_congr fun cmd hcmd => ?_
      cases ht : target cmd with
      | none =>
          have hz : cmd.new.isZero = true := by
            by_contra hz
            have hname := (get?_ne_dir_of_mem hw hcmd (by simpa using hz)).1
            rw [target_eq_some.mpr (resolve_refPath hname)] at ht
            cases ht
          rw [current_of_no_target ht, outcome, hz]
          simp
      | some p =>
          obtain ⟨last, hlast⟩ := lastOn_isSome hcmd ht
          rw [current_writeCommands hw hids hcmd ht hlast]
          constructor
          · rintro h p' last' ⟨⟩ hlast'
            rw [hlast] at hlast'
            cases hlast'
            exact h
          · exact fun h => h p last rfl hlast
    constructor
    · rintro ⟨report, hreport, -, h⟩
      cases hreport
      rcases h with ⟨hok, hvalues⟩ | ⟨hng, hsame⟩
      · have hw := writeCommands_ok.mp hok
        exact Or.inl ⟨hw, (hholds hw).mp hvalues⟩
      · have hb := writeCommands_ng.mp hng
        exact Or.inr ⟨hb, (sameRefs_writeCommands hb).mp hsame⟩
    · intro h
      refine ⟨_, rfl, writeCommands_names refs req.commands, ?_⟩
      rcases h with ⟨hw, hnone⟩ | ⟨hb, hkeep⟩
      · exact Or.inl ⟨writeCommands_ok.mpr hw, (hholds hw).mpr hnone⟩
      · exact Or.inr ⟨writeCommands_ng.mpr hb, (sameRefs_writeCommands hb).mpr hkeep⟩
  · -- a refused command leaves all of them unwritten
    have hrefused : ∃ cmd ∈ req.commands, vet odb' hook refs cmd ≠ .ok () := by
      by_contra hn
      exact hall fun cmd hcmd => by_contra fun hne => hn ⟨cmd, hcmd, hne⟩
    have hskip : applyAtomic odb' hook refs req.commands =
        (req.commands.map fun cmd => ⟨cmd.name, refusal (vet odb' hook refs cmd)⟩, refs) := by
      rw [applyAtomic, if_neg]
      intro hc
      exact hall fun cmd hcmd => (hvet cmd).mp (List.all_eq_true.mp hc cmd hcmd)
    refine ⟨fun _ => Or.inl hrefused, fun _ => ⟨_, rfl, ?_, Or.inr ⟨?_, ?_⟩⟩⟩
    · rw [hskip, List.map_map]
      rfl
    · rw [hskip]
      intro s hs
      obtain ⟨cmd, -, rfl⟩ := List.mem_map.mp hs
      cases vet odb' hook refs cmd <;> simp [refusal]
    · rw [hskip]
      exact fun _ => rfl

/-! ## Pushes to an empty ref store -/

namespace PushSample
open FetchSample

/-- An atomic push that creates refs. -/
def atomicPush (names : List String) : PushRequest := ⟨names.map create, ⟨[(str "atomic", none)]⟩⟩

/-- A push that creates the branches `a` and `b`. -/
def pushTwo : Bytes :=
  bytes "00690000000000000000000000000000000000000000 " ++
    bytes "70026b697166b1dcda95ab765e4ef049e459b135 refs/heads/a\x00atomic" ++
    bytes "00620000000000000000000000000000000000000000 " ++
    bytes "70026b697166b1dcda95ab765e4ef049e459b135 refs/heads/b0000"

/-- A push that creates the branch `a` and one of a malformed name. -/
def pushMalformed : Bytes :=
  bytes "00690000000000000000000000000000000000000000 " ++
    bytes "70026b697166b1dcda95ab765e4ef049e459b135 refs/heads/a\x00atomic" ++
    bytes "00670000000000000000000000000000000000000000 " ++
    bytes "70026b697166b1dcda95ab765e4ef049e459b135 refs/heads/b.lock0000"

/-- Both branches are created. -/
theorem pushTwo_whole : AllOrNothing noRefs (atomicPush ["refs/heads/a", "refs/heads/b"]).commands
    (receivePackOver noPack store noRefs pushTwo allow) := by
  have hreq : readPush (algo store) pushTwo =
      .ok (atomicPush ["refs/heads/a", "refs/heads/b"], []) := by
    decide +kernel
  have hunpack : unpackPush noPack store [] = (.ok (), store) := rfl
  refine (atomic_push_iff rfl hreq (by decide) hunpack).mpr
    (Or.inr (Or.inl ⟨writeCommands_ok.mp (by decide +kernel), ?_⟩))
  intro cmd hcmd p last ht hlast
  have hall : ∀ cmd ∈ (atomicPush ["refs/heads/a", "refs/heads/b"]).commands,
      cmd.new = recent ∧ cmd.new.isZero = false := by decide +kernel
  rw [Agrees, (hall cmd hcmd).2]
  simp only [Bool.false_eq_true, if_false]
  left
  rw [(hall cmd hcmd).1, (hall last (lastOn_mem hlast).1).1]

/-- The branch is created, the malformed ref is not. -/
theorem pushMalformed_half : ∃ req pack, readPush (algo store) pushMalformed = .ok (req, pack) ∧
    req.capabilities.has (str "atomic") = true ∧ (unpackPush noPack store pack).1 = .ok () ∧
    ¬ AllOrNothing noRefs req.commands
      (receivePackOver noPack store noRefs pushMalformed allow) := by
  have hreq : readPush (algo store) pushMalformed =
      .ok (atomicPush ["refs/heads/a", "refs/heads/b.lock"], []) := by
    decide +kernel
  refine ⟨_, [], hreq, by decide, rfl, ?_⟩
  have hunpack : unpackPush noPack store [] = (.ok (), store) := rfl
  rw [receivePackOver_atomic hreq (by decide) hunpack]
  have hout : ∃ e, (applyAtomic store allow noRefs
      (atomicPush ["refs/heads/a", "refs/heads/b.lock"]).commands).1 =
        [⟨str "refs/heads/a", .ok ()⟩, ⟨str "refs/heads/b.lock", .error e⟩] :=
    ⟨str "reference error: invalid ref name \"refs/heads/b.lock\"", by decide +kernel⟩
  obtain ⟨e, he⟩ := hout
  rintro ⟨report, hreport, -, h⟩
  rw [he] at hreport
  cases hreport
  rcases h with ⟨hok, -⟩ | ⟨hng, -⟩
  · exact absurd (hok ⟨str "refs/heads/b.lock", .error e⟩ (by simp)) (by simp)
  · exact hng ⟨str "refs/heads/a", .ok ()⟩ (by simp) rfl
end PushSample

end Puregit.Server
