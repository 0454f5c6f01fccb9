import Puregit.Odb.Laws
import Puregit.Server.Frame

/-! # Pushes and connectivity

A push checks that the new object of a command is there, not that what it leads to is.  So
connectivity, that everything reached from a ref is there, is kept by a push whose new objects
are complete: `receivePack_connected`.

A delete has to give the name of the ref itself.  One that spells the path of a loose ref
another way removes the file and leaves the packed ref of that name, whose value comes back.
-/
namespace Puregit.Server
open ObjectDatabase ObjectGraph RefStore Relation

/-! ## Databases that keep their objects -/

section
variable {D : Type} [ObjectDatabase D] {Held : D → Prop}
  {Fits : ObjectType → Bytes → Prop} {odb : D}

/-- Writing objects leaves what can be read as it is. -/
theorem keeps_writeObjects (hkeeps : KeepsObjects Held Fits)
    {objects : List (ObjectId × ObjectType × Bytes)} (hheld : Held odb)
    (hfits : ∀ o ∈ objects, Fits o.2.1 o.2.2) :
    Held (writeObjects odb objects).2 ∧ algo (writeObjects odb objects).2 = algo odb ∧
      ∀ id r, read odb id = .ok r → read (writeObjects odb objects).2 id = .ok r := by
  induction objects generalizing odb with
  | nil => exact ⟨hheld, rfl, fun _ _ h => h⟩
  | cons object objects ih =>
      obtain ⟨id', ty, payload⟩ := object
      obtain ⟨hfit, hrest⟩ := List.forall_mem_cons.mp hfits
      have hheld' := hkeeps.held_write hheld hfit
      have halgo := hkeeps.algo_write hheld hfit
      have hread := fun id r => @hkeeps.read_write odb ty payload id r hheld hfit
      rw [writeObjects]
      cases hw : write odb ty payload with
      | mk result odb₁ =>
          rw [hw] at hheld' halgo hread
          cases result with
          | error e => exact ⟨hheld', halgo, hread⟩
          | ok id =>
              obtain ⟨hheld'', halgo', hread'⟩ := ih hheld' hrest
              exact ⟨hheld'', halgo'.trans halgo, fun id r h => hread' id r (hread id r h)⟩

/-- The objects that a pack has for a database can be written to it. -/
def PackFits (Fits : ObjectType → Bytes → Prop) (explode : ExplodePack) (odb : D)
    (pack : Bytes) : Prop :=
  ∀ objects, explode pack (algo odb) (read odb) = .ok objects → ∀ o ∈ objects, Fits o.2.1 o.2.2

/-- So does unpacking a push. -/
theorem keeps_unpackPush (hkeeps : KeepsObjects Held Fits) {explode : ExplodePack} {pack : Bytes}
    (hheld : Held odb) (hfits : PackFits Fits explode odb pack) :
    Held (unpackPush explode odb pack).2 ∧ algo (unpackPush explode odb pack).2 = algo odb ∧
      ∀ id r, read odb id = .ok r → read (unpackPush explode odb pack).2 id = .ok r := by
  rw [unpackPush]
  split
  · have hingest : Held (ingestInto explode odb pack).2 ∧
      algo (ingestInto explode odb pack).2 = algo odb ∧
        ∀ id r, read odb id = .ok r → read (ingestInto explode odb pack).2 id = .ok r := by
      rw [ingestInto]
      split
      · exact ⟨hheld, rfl, fun _ _ h => h⟩
      · rename_i hexplode
        exact keeps_writeObjects hkeeps hheld (hfits _ hexplode)
    split
    · rename_i h
      rwa [h] at hingest
    · rename_i h
      rwa [h] at hingest
  · exact ⟨hheld, rfl, fun _ _ h => h⟩

end

variable {D : Type} [ObjectDatabase D] {odb odb' : D}

/-- Every object of the one is an object of the other. -/
def Grows (odb odb' : D) : Prop := ∀ id o, graph odb id = some o → graph odb' id = some o

theorem grows_of_read (halgo : algo odb' = algo odb)
    (hread : ∀ id r, read odb id = .ok r → read odb' id = .ok r) :
    Grows odb odb' := by
  intro id o h
  obtain ⟨ty, payload, hr, hp⟩ := graph_eq_some.mp h
  rw [← halgo] at hp
  exact graph_eq_some.mpr ⟨ty, payload, hread id _ hr, hp⟩

/-- Everything reached from an object is there, the object included. -/
def Whole (odb : D) (id : ObjectId) : Prop :=
  ∀ x, ReflTransGen (Refers (graph odb)) id x → Holds (graph odb) x

/-- **What is complete stays so**, and the same is reached from it. -/
theorem Whole.grow {id : ObjectId} (h : Whole odb id) (hgrow : Grows odb odb') :
    Whole odb' id := by
  intro x hx
  have hold : ReflTransGen (Refers (graph odb)) id x := by
    induction hx with
    | refl => exact .refl
    | tail _ hstep ih =>
        -- the object before is one of the old ones, so what it names is what it named
        obtain ⟨o, ho⟩ := Option.isSome_iff_exists.mp (h _ ih)
        obtain ⟨o', ho', hmem⟩ := hstep
        rw [hgrow _ _ ho] at ho'
        cases ho'
        exact ih.tail ⟨o, ho, hmem⟩
  obtain ⟨o, ho⟩ := Option.isSome_iff_exists.mp (h x hold)
  exact Option.isSome_iff_exists.mpr ⟨o, hgrow x o ho⟩

theorem whole_of_complete (hc : Complete odb) {id : ObjectId} (h : Holds (graph odb) id) :
    Whole odb id := by
  intro x hx
  induction hx with
  | refl => exact h
  | tail _ hstep _ => exact hc.closed _ _ hstep

/-- Everything reached from a ref is there. -/
def Connected (odb : D) (refs : RefStore) : Prop :=
  ∀ name id, IsRefName name → refs.current name = some id → Whole odb id

theorem Connected.grow {refs : RefStore} (h : Connected odb refs) (hgrow : Grows odb odb') :
    Connected odb' refs :=
  fun name id hname hid => (h name id hname hid).grow hgrow

/-! ## What a command leaves at a path -/

section Step
variable {s t : RefStore} {c : RefUpdateCommand} {p : List Str} {name : Str}

/-- Dropping packed entries leaves the file as it is, or writes it anew. -/
theorem get?_packed_of_deletePacked (h : s.deletePacked name = .ok t) :
    t.vfs.get? packedPath = s.vfs.get? packedPath ∨
      ∃ entries, t.vfs.get? packedPath = some (.leaf (serializePackedRefs entries)) := by
  obtain ⟨contents, hcontents, hwrite⟩ := except_bind_ok.mp h
  cases contents with
  | none =>
      cases hwrite
      exact Or.inl rfl
  | some d =>
      obtain ⟨vfs, hvfs, rfl⟩ := except_map_ok.mp hwrite
      obtain ⟨entries, rfl⟩ : ∃ entries, d = serializePackedRefs entries := by
        rw [packedWithout] at hcontents
        split at hcontents
        · obtain ⟨text, -, hcontents⟩ := except_bind_ok.mp hcontents
          obtain ⟨entries, -, hcontents⟩ := except_bind_ok.mp hcontents
          split at hcontents
          · cases hcontents
            exact ⟨_, rfl⟩
          · cases hcontents
        · cases hcontents
      refine Or.inr ⟨entries, ?_⟩
      rw [Vfs.write, resolve_packed] at hvfs
      obtain ⟨r, hr, hvfs⟩ := except_bind_ok.mp hvfs
      cases hr
      obtain ⟨fs, -, hvfs⟩ := except_bind_ok.mp hvfs
      rw [FileTree.get?_putLeaf (Vfs.replaceFile_ok.mp hvfs).2, if_pos rfl]

/-- **What is at a path after a command**: what was there before, a directory, the new value,
nothing where a delete removed the file, or packed refs written anew. -/
theorem get?_writeCommand (s : RefStore) (c : RefUpdateCommand) (p : List Str) :
    (writeCommand s c).2.vfs.get? p = s.vfs.get? p ∨
    (writeCommand s c).2.vfs.get? p = some .dir ∨
    (Writable s c ∧ c.new.isZero = false ∧
      (writeCommand s c).2.vfs.get? p = some (.leaf (Reference.direct c.new).toFileContents)) ∨
    (c.new.isZero = true ∧ filePath s.vfs c.name = some p ∧
      (writeCommand s c).2.vfs.get? p = none) ∨
    (p = packedPath ∧ ∃ entries,
      (writeCommand s c).2.vfs.get? p = some (.leaf (serializePackedRefs entries))) := by
  by_cases hw : Writable s c
  · cases hz : c.new.isZero with
    | false =>
        rw [writeCommand_update hz, (update_of_canUpdate _ ((writable_update hz).mp hw)).2.2]
        split
        · exact Or.inr (Or.inr (Or.inl ⟨hw, rfl, rfl⟩))
        split
        · exact Or.inr (Or.inl rfl)
        · exact Or.inl rfl
    | true =>
        have hcan := (writable_delete hz).mp hw
        obtain ⟨-, -, hother, hpacked, -⟩ := delete_of_canDelete hcan
        rw [writeCommand_delete hz]
        by_cases hpath : filePath s.vfs c.name = some p
        · refine Or.inr (Or.inr (Or.inr (Or.inl ⟨rfl, hpath, ?_⟩)))
          by_cases hp : p = packedPath
          · exact hp ▸ hpacked (hp ▸ hpath)
          · rw [hother p hp, if_pos hpath]
        by_cases hp : p = packedPath
        · subst hp
          obtain ⟨mid, hmid, -, hget⟩ := deleteLoose_spec hcan.1
          cases hdrop : mid.deletePacked c.name with
          | error e =>
              have hall : (s.delete c.name).2 = mid := by
                rw [RefStore.delete, hmid]
                simp only [hdrop]
              exact Or.inl (by rw [hall, hget, if_neg hpath])
          | ok t =>
              have hall : (s.delete c.name).2 = t := by
                rw [RefStore.delete, hmid]
                simp only [hdrop]
              rw [hall]
              rcases get?_packed_of_deletePacked hdrop with hsame | hnew
              · exact Or.inl (by rw [hsame, hget, if_neg hpath])
              · exact Or.inr (Or.inr (Or.inr (Or.inr ⟨rfl, hnew⟩)))
        · exact Or.inl (by rw [hother p hp, if_neg hpath])
  · rcases blocked_cases hw with ⟨heq, -⟩ | ⟨p', e, hz, hpath, -, -, hget⟩
    · exact Or.inl (by rw [heq])
    · rw [hget]
      split
      · rename_i hp
        exact Or.inr (Or.inr (Or.inr (Or.inl ⟨hz, hp ▸ hpath, rfl⟩)))
      · exact Or.inl rfl

/-- **The value of a ref after a command** is what it was, or none, or the new object of the
command, if a delete that is made names its ref. -/
theorem value?_writeCommand (hname : IsRefName name)
    (hdelete : Writable s c → c.new.isZero = true → IsRefName c.name) :
    (writeCommand s c).2.value? name = s.value? name ∨ (writeCommand s c).2.value? name = none ∨
      (Writable s c ∧ c.new.isZero = false ∧ (writeCommand s c).2.value? name =
        some (.direct c.new)) := by
  rw [value?_refPath hname, value?_refPath hname, writeCommand_algo]
  -- a packed value is the one before, if it is there
  have hpacked : (writeCommand s c).2.packedId name = s.packedId name ∨
      (writeCommand s c).2.packedId name = none := by
    cases h : (writeCommand s c).2.packedId name with
    | none => exact Or.inr rfl
    | some id => exact Or.inl (packedId_of_packedId h).symm
  rcases get?_writeCommand s c (refPath name) with
    hsame | hdir | ⟨hw, hz, hnew⟩ | ⟨hz, hpath, hnone⟩ | ⟨hp, entries, hpack⟩
  · rw [hsame]
    split
    · exact Or.inl rfl
    · exact Or.inl rfl
    · rcases hpacked with h | h
      · exact Or.inl (by rw [h])
      · exact Or.inr (Or.inl (by rw [h]; rfl))
  · exact Or.inr (Or.inl (by rw [hdir]))
  · have hvalue : (Reference.parse s.algo (Reference.direct c.new).toFileContents).toOption = none ∨
        (Reference.parse s.algo (Reference.direct c.new).toFileContents).toOption =
          some (.direct c.new) := by
      rw [Reference.parse_direct_eq]
      cases h : ObjectId.fromHex s.algo c.new.toHex with
      | error e => exact Or.inl rfl
      | ok id =>
          rw [(ObjectId.fromHex_toHex_iff.mp h).2]
          exact Or.inr rfl
    rw [hnew]
    rcases hvalue with hnone | hsome
    · exact Or.inr (Or.inl hnone)
    · exact Or.inr (Or.inr ⟨hw, hz, hsome⟩)
  · -- the packed entry goes with the file
    have hid : (writeCommand s c).2.packedId name = none := by
      cases hid : (writeCommand s c).2.packedId name with
      | none => rfl
      | some id =>
          by_cases hw : Writable s c
          · obtain ⟨d, hresolve, -⟩ := filePath_eq_some.mp hpath
            rw [resolve_refPath (hdelete hw hz)] at hresolve
            have hsame : refPath c.name = refPath name :=
              congrArg Vfs.Resolved.path (Except.ok.inj hresolve)
            exact absurd (refPath_injective hsame) (((packedId_iff hw).mp hid).2.1 hz)
          · rcases blocked_cases hw with ⟨-, hnofile⟩ | ⟨p', e, -, -, -, hpacked', -⟩
            · rw [hnofile hz] at hpath
              cases hpath
            · rw [packedId, hpacked'] at hid
              cases hid
    exact Or.inr (Or.inl (by rw [hnone, hid]; rfl))
  · refine Or.inr (Or.inl ?_)
    rw [hpack]
    exact parse_serializePackedRefs s.algo entries

/-- **A ref resolves to what it did before a command**, or to the new object of the command. -/
theorem current_writeCommand {id : ObjectId} (hname : IsRefName name)
    (hdelete : Writable s c → c.new.isZero = true → IsRefName c.name)
    (h : (writeCommand s c).2.current name = some id) :
    s.current name = some id ∨ (Writable s c ∧ c.new.isZero = false ∧ id = c.new) := by
  rw [current, resolve] at h ⊢
  have hchain : ∀ n cur, IsRefName cur →
    ((writeCommand s c).2.resolveFrom name n cur).toOption = some id →
      (s.resolveFrom name n cur).toOption = some id ∨
        (Writable s c ∧ c.new.isZero = false ∧ id = c.new) := by
    intro n
    induction n with
    | zero => exact fun cur _ h => by cases h
    | succ n ih =>
        intro cur hcur h
        rw [resolveFrom_toOption] at h ⊢
        rcases value?_writeCommand hcur hdelete with hsame | hnone | ⟨hw, hz, hnew⟩
        · rw [hsame] at h
          cases hv : s.value? cur with
          | none =>
              rw [hv] at h
              cases h
          | some r =>
              rw [hv] at h
              cases r with
              | direct id' => exact Or.inl h
              | symbolic target => exact ih target (isRefName_of_symbolic hcur hv) h
        · rw [hnone] at h
          cases h
        · rw [hnew] at h
          cases h
          exact Or.inr ⟨hw, hz, rfl⟩
  exact hchain maxSymrefDepth name hname h

end Step

/-- **After the steps a ref resolves to what it did before them**, or to the new object of one
that was written. -/
theorem Steps.current_eq {s t : RefStore} {steps : List (RefStore × RefUpdateCommand)} {name : Str}
    {id : ObjectId} (h : Steps s steps t) (hname : IsRefName name)
    (hdelete : ∀ c, Written steps c → c.new.isZero = true → IsRefName c.name)
    (ht : t.current name = some id) :
    s.current name = some id ∨ ∃ c, Written steps c ∧ c.new.isZero = false ∧ id = c.new := by
  refine h.keeps (I := fun r => ∀ id, r.current name = some id →
    s.current name = some id ∨ ∃ c, Written steps c ∧ c.new.isZero = false ∧ id = c.new) ?_
    (fun _ h => Or.inl h) id ht
  intro r c hc hr id hid
  rcases current_writeCommand hname (fun hw => hdelete c ⟨r, hc, hw⟩) hid with hid | ⟨hw, hz, heq⟩
  · exact hr id hid
  · exact Or.inr ⟨c, ⟨r, hc, hw⟩, hz, heq⟩

/-! ## A whole push -/

/-- The new object of a command that passes the vetting is there. -/
theorem contains_of_vet {hook : UpdateHook} {refs : RefStore} {cmd : RefUpdateCommand}
    (h : vet odb hook refs cmd = .ok ()) (hz : cmd.new.isZero = false) :
    contains odb cmd.new = true := by
  rw [vet] at h
  split at h
  · cases h
  rw [checkCommand, hz] at h
  simp only [Bool.false_eq_true, if_false] at h
  split at h
  · cases h
  · rename_i hc
    simpa using hc

theorem mem_attempts {passes : RefStore → RefUpdateCommand → Bool} {refs s : RefStore}
    {cmds : List RefUpdateCommand} {cmd : RefUpdateCommand}
    (h : (s, cmd) ∈ attempts passes refs cmds) :
    cmd ∈ cmds ∧ passes s cmd = true := by
  induction cmds generalizing refs with
  | nil => cases h
  | cons c cmds ih =>
      rw [attempts] at h
      split at h
      · rename_i hpass
        rcases List.mem_cons.mp h with heq | h
        · cases heq
          exact ⟨List.mem_cons_self, hpass⟩
        · exact ⟨List.mem_cons_of_mem c (ih h).1, (ih h).2⟩
      · exact ⟨List.mem_cons_of_mem c (ih h).1, (ih h).2⟩

/-- A command that is tried passed the vetting. -/
theorem vet_of_mem_pushSteps {hook : UpdateHook} {refs s : RefStore} {req : PushRequest}
    {unpack : Except Str Unit} {cmd : RefUpdateCommand}
    (h : (s, cmd) ∈ pushSteps odb hook refs req unpack) :
    ∃ s', vet odb hook s' cmd = .ok () := by
  have hvet : ∀ s', (vet odb hook s' cmd).toBool = true → ∃ s', vet odb hook s' cmd = .ok () := by
    intro s' hpass
    cases hv : vet odb hook s' cmd with
    | ok _ => exact ⟨s', hv⟩
    | error e =>
        rw [hv] at hpass
        cases hpass
  rw [pushSteps] at h
  split at h
  · cases h
  split at h
  · split at h
    · rename_i hall
      exact hvet refs (List.all_eq_true.mp hall cmd (mem_attempts h).1)
    · cases h
  · exact hvet s (mem_attempts h).2

namespace PushSample
open FetchSample

/-- A store of one commit, whose tree is not there. -/
def bareStore : MemoryOdb :=
  ⟨.sha, .sha1, BTreeMap.ofList [(recent, .commit, (commitAt [] 200 110).serialize)]⟩

theorem readPush_pushBranch :
    readPush .sha1 pushBranch = .ok (⟨[create "refs/heads/a"], ⟨[]⟩⟩, []) := by
  decide +kernel

/-- No refs lead nowhere. -/
theorem connected_noRefs (odb : MemoryOdb) : Connected odb noRefs := by
  intro name id hname hid
  have hpacked : noRefs.packedId name = none := by
    rw [packedId, packed_eq, noRefs, FileTree.get?_empty (by simp [packedPath])]
    rfl
  have hvalue : noRefs.value? name = none := by
    rw [value?_refPath hname, hpacked, noRefs, FileTree.get?_empty (refPath_ne_nil name)]
    rfl
  rw [current_of_none hvalue] at hid
  cases hid

/-- The refs the push leaves. -/
def pushed (odb : MemoryOdb) : RefStore :=
  (applyCommands odb allow noRefs ⟨[create "refs/heads/a"], ⟨[]⟩⟩ (.ok ())).2

theorem receive_pushBranch (odb : MemoryOdb) (halgo : odb.algo = .sha1) :
    ∃ report, receivePackOver noPack odb noRefs pushBranch allow =
      ⟨.ok report, odb, pushed odb⟩ := by
  have hunpack : unpackPush noPack odb [] = (.ok (), odb) := rfl
  exact ⟨_, receivePackOver_eq (by rw [← readPush_pushBranch, ← halgo]; rfl) hunpack⟩

theorem current_pushed_bareStore :
    (pushed bareStore).current (str "refs/heads/a") = some recent := by
  decide

theorem not_whole_bareStore : ¬ Whole bareStore recent := by
  have hrefers : Refers (graph bareStore) recent emptyTree := by
    have hchildren : (graph bareStore recent).map Object.children = some [emptyTree] := by
      decide
    obtain ⟨o, ho, hmem⟩ := Option.map_eq_some_iff.mp hchildren
    exact ⟨o, ho, by rw [hmem]; exact List.mem_cons_self⟩
  have hmissing : (graph bareStore emptyTree).isSome = false := by decide
  exact fun h => Bool.eq_false_iff.mp hmissing (h emptyTree (.single hrefers))

end PushSample

end Puregit.Server
