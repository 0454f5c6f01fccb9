import Puregit.Odb.Combined

/-! # When a read says that an object is absent

`Decodes` says what a store without alternates can rebuild, `Dangles` that the bases of
an object lead, from pack to pack, to an id that the store has no offset for and that no
alternate can decode.  `read_notFound_iff` says that these are the reads that fail with
`NotFound`; for an object in a backend such a failure is misleading.
-/
namespace Puregit

/-! ## Errors of a pack -/

namespace Delta

theorem neverAbsent_readGroups {short tooLong : Error} (hshort : short.isNotFound = false)
    (hlong : tooLong.isNotFound = false) (bs : Bytes) (value shift : Nat) :
    NeverAbsent (Base128.readGroups short tooLong bs value shift) := by
  induction bs generalizing value shift with
  | nil => exact failsOnly_error hshort
  | cons b bs ih =>
    unfold Base128.readGroups
    split_ifs
    · exact failsOnly_error hlong
    · exact failsOnly_ok _
    · exact ih _ _

theorem neverAbsent_readSelected (opcode bit n i value : Nat) (data : Bytes) :
    NeverAbsent (readSelected opcode bit n i value data) := by
  induction n generalizing i value data with
  | zero => exact failsOnly_ok _
  | succ n ih =>
    unfold readSelected
    split_ifs
    · have hnext : NeverAbsent (nextByte data) := by
        cases data with
        | nil => exact failsOnly_error rfl
        | cons b data => exact failsOnly_ok _
      exact failsOnly_bind hnext fun _ => ih _ _ _
    · exact ih _ _ _

theorem neverAbsent_applyOp (base : Bytes) (opcode : Nat) (data : Bytes) :
    NeverAbsent (applyOp base opcode data) := by
  unfold applyOp
  split_ifs
  · apply failsOnly_bind (neverAbsent_readSelected _ _ _ _ _ _)
    intro _
    apply failsOnly_bind (neverAbsent_readSelected _ _ _ _ _ _)
    intro _
    simp only
    split_ifs
    all_goals first | exact failsOnly_error rfl | exact failsOnly_ok _
  · exact failsOnly_error rfl
  · exact failsOnly_ok _
  · exact failsOnly_error rfl

theorem neverAbsent_applyOps (base : Bytes) (fuel : Nat) (data out : Bytes) :
    NeverAbsent (applyOps base fuel data out) := by
  induction fuel generalizing data out with
  | zero => exact failsOnly_ok _
  | succ fuel ih =>
    cases data with
    | nil => exact failsOnly_ok _
    | cons opcode data => exact failsOnly_bind (neverAbsent_applyOp _ _ _) fun _ => ih _ _

theorem neverAbsent_applyDelta (base delta : Bytes) : NeverAbsent (applyDelta base delta) := by
  have hvarint : ∀ data, NeverAbsent (readVarint data) := fun data =>
    neverAbsent_readGroups rfl rfl data 0 0
  unfold applyDelta
  apply failsOnly_bind (hvarint _)
  intro ⟨baseSize, data⟩
  simp only
  split_ifs
  · exact failsOnly_error rfl
  · apply failsOnly_bind (hvarint _)
    intro ⟨targetSize, data⟩
    split_ifs
    · exact failsOnly_error rfl
    · apply failsOnly_bind (neverAbsent_applyOps _ _ _ _)
      intro _
      split_ifs
      · exact failsOnly_error rfl
      · exact failsOnly_ok _

end Delta

namespace Pack

variable {z : Zlib} {p : Pack} {locate : ObjectId → Option Nat} {resolve : ExternalResolver}

theorem neverAbsent_parseEntryHeaderAt (data : Bytes) (offset : Nat) :
    NeverAbsent (parseEntryHeaderAt data offset) := by
  have htag : ∀ tag, NeverAbsent (PackObjectType.fromTag tag) := by
    intro tag
    unfold PackObjectType.fromTag
    split
    all_goals first | exact failsOnly_ok _ | exact failsOnly_error rfl
  unfold parseEntryHeaderAt
  split
  · exact failsOnly_error rfl
  · apply failsOnly_bind (htag _)
    intro _
    split_ifs
    · exact failsOnly_ok _
    · exact failsOnly_bind (Delta.neverAbsent_readGroups rfl rfl _ _ _) fun _ => failsOnly_ok _

theorem neverAbsent_readOffsetVarint (data : Bytes) (start : Nat) :
    NeverAbsent (readOffsetVarint data start) := by
  have hfrom : ∀ (bs : Bytes) (value : Nat), NeverAbsent
      (Base128.readBiasedFrom (.pack (str "pack: truncated ofs-delta offset")) bs value) := by
    intro bs
    induction bs with
    | nil => exact fun _ => failsOnly_error rfl
    | cons b bs ih =>
      intro value
      unfold Base128.readBiasedFrom
      simp only
      split_ifs
      · exact failsOnly_ok _
      · exact ih _
  unfold readOffsetVarint
  refine failsOnly_bind ?_ fun _ => failsOnly_ok _
  unfold Base128.readBiased
  split
  · exact failsOnly_error rfl
  · split_ifs
    · exact failsOnly_ok _
    · exact hfrom _ _

theorem neverAbsent_readBaseId (algo : HashAlgo) (data : Bytes) (start : Nat) :
    NeverAbsent (readBaseId algo data start) := by
  unfold readBaseId ObjectId.fromBytes
  split_ifs
  · exact failsOnly_error rfl
  · exact failsOnly_ok _
  · exact failsOnly_error rfl

/-- Finding the end of a chain looks nothing up, so nothing is absent. -/
theorem neverAbsent_chainEnd (hz : z.ReportsCompression) (left : Nat) (deltas : List Bytes)
    (visited : BTreeSet Nat) (cur : Nat) :
    NeverAbsent (chainEnd z p locate left deltas visited cur) := by
  have hinflate := LooseOdb.neverAbsent_inflateCapped hz
  induction left generalizing deltas visited cur with
  | zero => exact failsOnly_error rfl
  | succ left ih =>
    unfold chainEnd
    by_cases hvisited : visited.contains cur = true
    · rw [if_pos hvisited]
      exact failsOnly_error rfl
    rw [if_neg hvisited]
    apply failsOnly_bind (neverAbsent_parseEntryHeaderAt _ _)
    rintro ⟨ptype, size, hdrLen⟩
    cases ptype with
    | whole ty => exact failsOnly_bind (hinflate _ _) fun _ => failsOnly_ok _
    | ofsDelta =>
      apply failsOnly_bind (neverAbsent_readOffsetVarint _ _)
      rintro ⟨rel, n⟩
      simp only
      split_ifs
      · exact failsOnly_error rfl
      · exact failsOnly_error rfl
      · exact failsOnly_bind (hinflate _ _) fun _ => ih _ _ _
    | refDelta =>
      apply failsOnly_bind (neverAbsent_readBaseId _ _ _)
      intro baseId
      apply failsOnly_bind (hinflate _ _)
      intro delta
      cases locate baseId with
      | some baseOffset => exact ih _ _ _
      | none => exact failsOnly_ok _

theorem neverAbsent_applyAll (content : Bytes) (deltas : List Bytes) :
    NeverAbsent (applyAll content deltas) :=
  failsOnly_foldlM (fun base delta => Delta.neverAbsent_applyDelta base delta) _ _

/-- The end of the chain of an entry. -/
def chainAt (z : Zlib) (p : Pack) (locate : ObjectId → Option Nat) (offset : Nat) :
    Except Error (ChainEnd × List Bytes) :=
  chainEnd z p locate (maxDeltaChainDepth + 1) [] BTreeSet.empty offset

theorem readAtWith_eq (offset : Nat) : readAtWith z p offset locate resolve =
    chainAt z p locate offset >>= fun x =>
      x.1.object resolve >>= fun r => (applyAll r.2 x.2).map fun content => (r.1, content) := by
  unfold readAtWith chainAt
  rw [walkChain_eq, bind_assoc]
  refine bind_congr fun x => ?_
  cases x.1.object resolve with
  | error e => rfl
  | ok r =>
    show (applyAll r.2 x.2 >>= _) = (applyAll r.2 x.2).map _
    cases applyAll r.2 x.2 <;> rfl

/-- **An entry is read** if the end of its chain is and the deltas apply. -/
theorem readAtWith_ok {offset : Nat} {ty : ObjectType} {content : Bytes} :
    readAtWith z p offset locate resolve = .ok (ty, content) ↔
      ∃ ends deltas base, chainAt z p locate offset = .ok (ends, deltas) ∧
        ends.object resolve = .ok (ty, base) ∧ applyAll base deltas = .ok content := by
  rw [readAtWith_eq, except_bind_ok]
  constructor
  · intro ⟨⟨ends, deltas⟩, hchain, h⟩
    obtain ⟨⟨ty', base⟩, hobject, h⟩ := except_bind_ok.mp h
    obtain ⟨content', happly, heq⟩ := except_map_ok.mp h
    cases heq
    exact ⟨ends, deltas, base, hchain, hobject, happly⟩
  · intro ⟨ends, deltas, base, hchain, hobject, happly⟩
    exact ⟨(ends, deltas), hchain,
      except_bind_ok.mpr ⟨(ty, base), hobject, except_map_ok.mpr ⟨content, happly, rfl⟩⟩⟩

/-- **Reading an entry says that something is absent** only where its base outside of the
pack is. -/
theorem readAtWith_notFound (hz : z.ReportsCompression) {offset : Nat} {hint : ObjectKindHint} :
    readAtWith z p offset locate resolve = .error (.notFound hint) ↔
      ∃ base deltas, chainAt z p locate offset = .ok (.outside base, deltas) ∧
        resolve base = .error (.notFound hint) := by
  rw [readAtWith_eq, except_bind_error]
  constructor
  · intro h
    obtain ⟨⟨ends, deltas⟩, hchain, h⟩ :=
      h.resolve_left (neverAbsent_ne (neverAbsent_chainEnd hz _ _ _ _) hint)
    rcases except_bind_error.mp h with hobject | ⟨r, -, happly⟩
    · cases ends with
      | whole ty content => cases hobject
      | outside base => exact ⟨base, deltas, hchain, hobject⟩
    · exact absurd happly (neverAbsent_ne (failsOnly_map (neverAbsent_applyAll _ _)) hint)
  · intro ⟨base, deltas, hchain, hbase⟩
    exact Or.inr ⟨_, hchain, except_bind_error.mpr (Or.inl hbase)⟩

end Pack

/-! ## What a store can rebuild -/

/-- A store without alternates rebuilds an object, entering at most `left` levels. -/
inductive ObjectStore.Decodes (s : ObjectStore) : Nat → ObjectId → RawObject → Prop
  | loose {left : Nat} {id : ObjectId} {object : RawObject}
      (present : s.loose.contains id = true) (read : s.loose.read id = .ok object) :
      Decodes s (left + 1) id object
  | packed {left offset : Nat} {id : ObjectId} {lp : LoadedPack} {ty : ObjectType}
      {content target : Bytes} {deltas : List Bytes}
      (absent : s.loose.contains id = false) (located : s.locate id = some (lp, offset))
      (chain : lp.pack.chainAt s.loose.zlib lp.index.offsetOf offset =
        .ok (.whole ty content, deltas))
      (apply : Pack.applyAll content deltas = .ok target) :
      Decodes s (left + 1) id (ty, target)
  | rebuilt {left offset : Nat} {id base : ObjectId} {lp : LoadedPack} {ty : ObjectType}
      {content target : Bytes} {deltas : List Bytes}
      (absent : s.loose.contains id = false) (located : s.locate id = some (lp, offset))
      (chain : lp.pack.chainAt s.loose.zlib lp.index.offsetOf offset = .ok (.outside base, deltas))
      (base : Decodes s left base (ty, content))
        (apply : Pack.applyAll content deltas = .ok target) :
      Decodes s (left + 1) id (ty, target)

/-- **A store without alternates reads what it can rebuild.** -/
theorem ObjectStore.readDepth_ok {s : ObjectStore} {left : Nat} {id : ObjectId}
    {object : RawObject} :
    s.readDepth (fun _ _ => none) left id = .ok object ↔ s.Decodes left id object := by
  induction left generalizing id object with
  | zero =>
    constructor
    · intro h
      cases h
    · intro h
      cases h
  | succ left ih =>
    obtain ⟨ty, target⟩ := object
    unfold readDepth
    by_cases hloose : s.loose.contains id = true
    · rw [if_pos hloose]
      constructor
      · intro h
        exact .loose hloose h
      · intro h
        cases h with
        | loose present read => exact read
        | packed absent => cases hloose.symm.trans absent
        | rebuilt absent => cases hloose.symm.trans absent
    rw [if_neg hloose]
    have habsent := eq_false_of_ne_true hloose
    cases hlocate : s.locate id with
    | none =>
      constructor
      · intro h
        cases h
      · intro h
        cases h with
        | loose present => exact absurd present hloose
        | packed _ located => cases hlocate.symm.trans located
        | rebuilt _ located => cases hlocate.symm.trans located
    | some found =>
      obtain ⟨lp, offset⟩ := found
      simp only
      rw [Pack.readAtWith_ok]
      constructor
      · intro ⟨ends, deltas, content, hchain, hobject, happly⟩
        cases ends with
        | whole ty' content' =>
          cases hobject
          exact .packed habsent hlocate hchain happly
        | outside base => exact .rebuilt habsent hlocate hchain (ih.mp hobject) happly
      · intro h
        cases h with
        | loose present => exact absurd present hloose
        | packed _ located chain apply =>
          cases hlocate.symm.trans located
          exact ⟨_, _, _, chain, rfl, apply⟩
        | rebuilt _ located chain base apply =>
          cases hlocate.symm.trans located
          exact ⟨_, _, _, chain, ih.mpr base, apply⟩

namespace CombinedOdb

/-- The bases of an object lead to an id without an offset that no alternate decodes. -/
inductive Dangles (odb : CombinedOdb) : Nat → ObjectId → Prop
  | nowhere {left : Nat} {id : ObjectId} (absent : odb.loose.contains id = false)
      (unlocated : odb.locate id = none)
      (alternates : ∀ alt ∈ odb.alternates, ∀ object, ¬alt.Decodes (left + 1) id object) :
      Dangles odb (left + 1) id
  | base {left offset : Nat} {id base : ObjectId} {lp : LoadedPack} {deltas : List Bytes}
      (absent : odb.loose.contains id = false) (located : odb.locate id = some (lp, offset))
      (chain : lp.pack.chainAt odb.loose.zlib lp.index.offsetOf offset =
        .ok (.outside base, deltas))
      (dangles : Dangles odb left base) : Dangles odb (left + 1) id

theorem readAlternate_none {odb : CombinedOdb} {left : Nat} {id : ObjectId} :
    odb.readAlternate left id = none ↔ ∀ alt ∈ odb.alternates, ∀ object,
      ¬alt.Decodes left id object := by
  unfold readAlternate
  rw [List.findSome?_eq_none_iff]
  refine forall₂_congr fun alt _ => ?_
  constructor
  · intro h object hdecodes
    rw [ObjectStore.readDepth_ok.mpr hdecodes] at h
    cases h
  · intro h
    cases hread : alt.readDepth (fun _ _ => none) left id with
    | error e => rfl
    | ok object => exact absurd (ObjectStore.readDepth_ok.mp hread) (h object)

/-- **A read says that something is absent exactly where the bases of the object dangle.** -/
theorem readDepth_notFound {odb : CombinedOdb} (hz : odb.loose.zlib.ReportsCompression) {left : Nat}
    {id : ObjectId} :
    (∃ hint, odb.readDepth odb.readAlternate left id = .error (.notFound hint)) ↔
      odb.Dangles left id := by
  induction left generalizing id with
  | zero =>
    constructor
    · intro ⟨hint, h⟩
      cases h
    · intro h
      cases h
  | succ left ih =>
    unfold ObjectStore.readDepth
    by_cases hloose : odb.loose.contains id = true
    · rw [if_pos hloose]
      constructor
      · intro ⟨hint, h⟩
        exact absurd h (neverAbsent_ne (LooseOdb.neverAbsent_read hz hloose) hint)
      · intro h
        cases h with
        | nowhere absent => cases hloose.symm.trans absent
        | base absent => cases hloose.symm.trans absent
    rw [if_neg hloose]
    have habsent := eq_false_of_ne_true hloose
    cases hlocate : odb.locate id with
    | none =>
      simp only
      cases halt : odb.readAlternate (left + 1) id with
      | some object =>
        constructor
        · intro ⟨hint, h⟩
          cases h
        · intro h
          cases h with
          | nowhere _ _ alternates => cases halt.symm.trans (readAlternate_none.mpr alternates)
          | base _ located => cases hlocate.symm.trans located
      | none =>
        constructor
        · intro _
          exact .nowhere habsent hlocate (readAlternate_none.mp halt)
        · intro _
          exact ⟨_, rfl⟩
    | some found =>
      obtain ⟨lp, offset⟩ := found
      simp only
      constructor
      · intro ⟨hint, h⟩
        obtain ⟨base, deltas, hchain, hbase⟩ := (Pack.readAtWith_notFound hz).mp h
        exact .base habsent hlocate hchain (ih.mp ⟨hint, hbase⟩)
      · intro h
        cases h with
        | nowhere _ unlocated => cases hlocate.symm.trans unlocated
        | base _ located chain dangles =>
          cases hlocate.symm.trans located
          obtain ⟨hint, hbase⟩ := ih.mpr dangles
          exact ⟨hint, (Pack.readAtWith_notFound hz).mpr ⟨_, _, chain, hbase⟩⟩

/-- An id that a read calls absent is in no backend. -/
def HonestAbout (odb : CombinedOdb) (id : ObjectId) : Prop :=
  ∀ hint, odb.read id = .error (.notFound hint) → odb.contains id = false

/-- **A read calls absent only what is in no backend exactly where the bases of what is in
one do not dangle.** -/
theorem honestAbout_iff {odb : CombinedOdb} (hz : odb.loose.zlib.ReportsCompression)
    (id : ObjectId) :
    odb.HonestAbout id ↔
      (odb.contains id = true → ¬odb.Dangles (ObjectStore.maxDeltaDepth + 1) id) := by
  constructor
  · intro h hcontains hdangles
    obtain ⟨hint, hread⟩ := (readDepth_notFound hz).mpr hdangles
    cases hcontains.symm.trans (h hint hread)
  · intro h hint hread
    refine eq_false_of_ne_true fun hcontains => h hcontains ?_
    exact (readDepth_notFound hz).mp ⟨hint, hread⟩

end CombinedOdb

/-! ## A base that is nowhere -/

namespace AbsenceSample
open CombinedOdb

/-- An id of one byte. -/
def idOf (b : UInt8) : ObjectId := .filled b

/-- A pack of one delta, whose base is another object. -/
def deltaPack : Bytes :=
  packSignature ++ [0, 0, 0, 2, 0, 0, 0, 1] ++ 0x74 :: (idOf 1).bytes ++
    (Zlib.blockHeader 4 ++ [1, 1, 1, 65] ++ Zlib.adler32 [1, 1, 1, 65])

/-- The index of the pack, as it is parsed. -/
def deltaIndex : PackIndex := ⟨.sha1, (idOf 2).bytes, [0, 0, 0, 12], [], 1, rfl, rfl, by decide⟩

example : Pack.new deltaPack .sha1 = .ok ⟨deltaPack, .sha1, 1⟩ := by decide

example : PackIndex.parse .sha1 (idxMagic ++ [0, 0, 0, 2] ++ List.replicate 8 0 ++
    (List.replicate 254 [0, 0, 0, 1]).flatten ++ (idOf 2).bytes ++ [0, 0, 0, 0] ++ [0, 0, 0, 12] ++
    List.replicate 40 0) = .ok deltaIndex := by
  decide +kernel

/-- The pack beside some loose objects. -/
def odb (fs : GitDir) : CombinedOdb where
  loose := LooseOdb.new .stored .sha fs .sha1
  packs := [⟨deltaIndex, ⟨deltaPack, .sha1, 1⟩⟩]
  alternates := []

/-- A loose file at the path of the delta's base, which holds no object. -/
def brokenBase : GitDir :=
  ((Vfs.write FileTree.empty (LooseOdb.objectPath (idOf 1)) [0]).toOption).getD FileTree.empty

theorem locate_delta (fs : GitDir) :
    (odb fs).locate (idOf 2) = some (⟨deltaIndex, ⟨deltaPack, .sha1, 1⟩⟩, 12) := by
  have hoffset : deltaIndex.offsetOf (idOf 2) = some 12 := by decide
  unfold ObjectStore.locate odb
  rw [List.findSome?_cons, hoffset]
  rfl

theorem chain_delta (fs : GitDir) : (⟨deltaPack, .sha1, 1⟩ : Pack).chainAt (odb fs).loose.zlib
    deltaIndex.offsetOf 12 = .ok (.outside (idOf 1), [[1, 1, 1, 65]]) := by
  show Pack.chainAt Zlib.stored _ _ _ = _
  decide

/-- A base that cannot be read is not a missing object. -/
theorem honestAbout_brokenBase : (odb brokenBase).HonestAbout (idOf 2) := by
  refine (honestAbout_iff Zlib.stored_reportsCompression (idOf 2)).mpr fun _ hdangles => ?_
  have hbase : (odb brokenBase).loose.contains (idOf 1) = true := by decide
  cases hdangles with
  | nowhere _ unlocated => cases (locate_delta _).symm.trans unlocated
  | base _ located chain dangles =>
    cases (locate_delta _).symm.trans located
    cases (chain_delta _).symm.trans chain
    cases dangles with
    | nowhere absent => cases hbase.symm.trans absent
    | base absent => cases hbase.symm.trans absent

/-- An object of the pack is called absent where its base is. -/
theorem not_honestAbout_missingBase : ¬∀ (odb : CombinedOdb) (id : ObjectId),
    odb.loose.zlib.ReportsCompression → odb.HonestAbout id := by
  intro h
  have hcontains : (odb FileTree.empty).contains (idOf 2) = true := by decide
  have hnowhere : (odb FileTree.empty).Dangles ObjectStore.maxDeltaDepth (idOf 1) :=
    .nowhere (by decide) (by decide) nofun
  have hdangles : (odb FileTree.empty).Dangles (ObjectStore.maxDeltaDepth + 1) (idOf 2) :=
    .base (by decide) (locate_delta _) (chain_delta _) hnowhere
  obtain ⟨hint, hread⟩ := (readDepth_notFound Zlib.stored_reportsCompression).mpr hdangles
  cases hcontains.symm.trans (h _ _ Zlib.stored_reportsCompression hint hread)

end AbsenceSample
end Puregit
