import Puregit.Lib.Run
import Puregit.Odb.Combined

/-! # Reading without faults

The functions a read goes through, with every slice checked and every loop given a number of turns:
the loops around the decoder of the codec, the search of an index, the walk to the base of a chain
of deltas, the loop over the instructions of a delta, and the way from one pack to another through
the whole store.  Indexes and packs may hold anything.  `readRun_eq` says that no slice is out of
bounds and no loop takes more turns than it is given: the walk is bounded by the deltas it collects,
the way through the store by its depth, and the two loops over bytes by how many there are. -/
namespace Puregit

/-! ## Inflating -/

/-- How a call of a streaming decoder ends. -/
inductive DecoderStatus where
  | streamEnd
  | inputEmpty
  | outputFull
  deriving DecidableEq

/-- What a call of a decoder did. -/
structure Progress (σ : Type) where
  state : σ
  written : Bytes
  consumed : Nat
  status : DecoderStatus

/-- The streaming decoder, which is external: it takes no more bytes than it is given. -/
structure Decoder where
  State : Type
  start : State
  decode : State → Bytes → Except Error (Progress State)
  finish : State → Except Error (Progress State)
  consumed_le : ∀ s input r, decode s input = .ok r → r.consumed ≤ input.length

namespace Decoder

/-- The loop that flushes the decoder, `consumed` bytes having been taken. -/
def finishRun (d : Decoder) (max consumed : Nat) : Nat → d.State → Bytes → Run Error (Bytes × Nat)
  | 0, _, _ => .fault .turns
  | turns + 1, s, out => do
    let r ← Run.done (d.finish s)
    let out := out ++ r.written
    if max < out.length then throw (.compression (str "inflate exceeded declared size"))
    else if r.status = .streamEnd then pure (out, consumed)
    else if r.written = [] then throw (.compression (str "truncated zlib stream"))
    else finishRun d max consumed turns r.state out

/-- The loop that feeds the decoder. -/
def decodeRun (d : Decoder) (data : Bytes) (max : Nat) :
    Nat → d.State → Nat → Bytes → Run Error (Bytes × Nat)
  | 0, _, _, _ => .fault .turns
  | turns + 1, s, consumed, out => do
    let input ← Run.sliceFrom data consumed
    let r ← Run.done (d.decode s input)
    let out := out ++ r.written
    let consumed := consumed + r.consumed
    if max < out.length then throw (.compression (str "inflate exceeded declared size"))
    else match r.status with
      | .streamEnd => pure (out, consumed)
      | .inputEmpty => finishRun d max consumed (max + 2) r.state out
      | .outputFull =>
        -- no progress is how the decoder says that the stream is over
        if r.written = [] ∧ r.consumed = 0 then finishRun d max consumed (max + 2) r.state out
        else decodeRun d data max turns r.state consumed out

/-- Decompresses the stream at the front of some data. -/
def inflateRun (d : Decoder) (data : Bytes) (max : Nat) : Run Error (Bytes × Nat) :=
  decodeRun d data max (max + data.length + 2) d.start 0 []

variable {d : Decoder} {data : Bytes} {max : Nat}

/-- Every turn but the last writes. -/
theorem finishRun_done {turns consumed : Nat} {out : Bytes} (s : d.State)
    (h : max < turns + out.length) (hturns : 0 < turns) :
    ∃ r, d.finishRun max consumed turns s out = .done r := by
  induction turns generalizing s out with
  | zero => omega
  | succ turns ih =>
    rw [finishRun]
    cases d.finish s with
    | error e => exact ⟨_, rfl⟩
    | ok r =>
      simp only [Run.done_ok_bind]
      by_cases hmax : max < (out ++ r.written).length
      · rw [if_pos hmax]
        exact ⟨_, rfl⟩
      rw [if_neg hmax]
      by_cases hend : r.status = .streamEnd
      · rw [if_pos hend]
        exact ⟨_, rfl⟩
      rw [if_neg hend]
      by_cases hnone : r.written = []
      · rw [if_pos hnone]
        exact ⟨_, rfl⟩
      rw [if_neg hnone]
      have hpos := List.length_pos_iff.mpr hnone
      rw [List.length_append] at hmax
      exact ih _ (by rw [List.length_append]; omega) (by omega)

/-- Every turn but the last writes or takes. -/
theorem decodeRun_done {turns consumed : Nat} {out : Bytes} (s : d.State)
    (hconsumed : consumed ≤ data.length) (h : max + data.length < turns + out.length + consumed)
    (hturns : 0 < turns) :
    ∃ r, d.decodeRun data max turns s consumed out = .done r := by
  induction turns generalizing s consumed out with
  | zero => omega
  | succ turns ih =>
    rw [decodeRun, Run.sliceFrom_eq hconsumed, Run.done_ok_bind]
    cases hdecode : d.decode s (data.drop consumed) with
    | error e => exact ⟨_, rfl⟩
    | ok r =>
      have htaken := d.consumed_le _ _ _ hdecode
      rw [List.length_drop] at htaken
      simp only [Run.done_ok_bind]
      by_cases hmax : max < (out ++ r.written).length
      · rw [if_pos hmax]
        exact ⟨_, rfl⟩
      rw [if_neg hmax]
      cases r.status with
      | streamEnd => exact ⟨_, rfl⟩
      | inputEmpty => exact finishRun_done _ (by omega) (by omega)
      | outputFull =>
        simp only
        by_cases hnone : r.written = [] ∧ r.consumed = 0
        · rw [if_pos hnone]
          exact finishRun_done _ (by omega) (by omega)
        rw [if_neg hnone]
        have hprogress : 0 < r.written.length + r.consumed := by
          by_contra hzero
          exact hnone ⟨List.length_eq_zero_iff.mp (by omega), by omega⟩
        rw [List.length_append] at hmax
        exact ih _ (by omega) (by rw [List.length_append]; omega) (by omega)

/-- **Inflating ends**, whatever the decoder makes of the data; so the codec of a store can be one
that inflates in this way. -/
theorem exists_zlib (d : Decoder) (deflate : Bytes → Except Error Bytes) :
    ∃ z : Zlib, z.deflate = deflate ∧ ∀ data max, d.inflateRun data max =
      .done (z.inflateCounted data max) := by
  have hdone : ∀ data max, ∃ r, d.inflateRun data max = .done r := fun data max =>
    decodeRun_done d.start (Nat.zero_le _) (by rw [List.length_nil]; omega) (by omega)
  choose inflate hinflate using hdone
  exact ⟨⟨deflate, inflate⟩, rfl, hinflate⟩

end Decoder

/-! ## Searching an index -/

namespace PackIndex

/-- The rows from `lo` up to `hi`, halved at every turn. -/
def searchRun (idx : PackIndex) (needle : Bytes) : Nat → Nat → Nat → Run Error (Option Nat)
  | 0, _, _ => .fault .turns
  | turns + 1, lo, hi =>
    if lo < hi then do
      let mid := (lo + hi) / 2
      let row ← Run.slice idx.oids (mid * idx.algo.rawLen) (mid * idx.algo.rawLen + idx.algo.rawLen)
      if row < needle then searchRun idx needle turns (mid + 1) hi
      else if needle < row then searchRun idx needle turns lo mid
      else pure (some mid)
    else pure none

/-- The offset of an id. -/
def offsetRun (idx : PackIndex) (id : ObjectId) : Run Error (Option Nat) :=
  if id.algo ≠ idx.algo then pure none
  else do
    match ← searchRun idx id.bytes (idx.count + 1) 0 idx.count with
    | none => pure none
    | some row =>
      let raw := ObjectId.natOfBytes (← Run.slice idx.offsets (row * 4) (row * 4 + 4))
      if raw < 2 ^ 31 then pure (some raw)
      else
        let off := (raw - 2 ^ 31) * 8
        if idx.largeOffsets.length < off + 8 then pure none
        else pure (some (ObjectId.natOfBytes (← Run.slice idx.largeOffsets off (off + 8))))

variable {idx : PackIndex}

theorem searchRun_eq (needle : Bytes) {turns fuel lo hi : Nat} (hhi : hi ≤ idx.count)
    (hturns : hi - lo < turns) (hfuel : hi - lo ≤ fuel) :
    searchRun idx needle turns lo hi =
      .done (.ok (BinarySearch.search idx.row needle fuel lo hi)) := by
  induction turns generalizing fuel lo hi with
  | zero => omega
  | succ turns ih =>
    rw [searchRun]
    by_cases hlt : lo < hi
    · obtain ⟨fuel, rfl⟩ : ∃ n, fuel = n + 1 := ⟨fuel - 1, by omega⟩
      have hmid : (lo + hi) / 2 < idx.count := by omega
      have hend : (lo + hi) / 2 * idx.algo.rawLen + idx.algo.rawLen ≤ idx.oids.length := by
        rw [idx.oids_length]
        calc (lo + hi) / 2 * idx.algo.rawLen + idx.algo.rawLen =
            ((lo + hi) / 2 + 1) * idx.algo.rawLen :=
              (Nat.succ_mul _ _).symm
          _ ≤ idx.count * idx.algo.rawLen := Nat.mul_le_mul_right _ hmid
      have hrow : (idx.oids.drop ((lo + hi) / 2 * idx.algo.rawLen)).take
          ((lo + hi) / 2 * idx.algo.rawLen + idx.algo.rawLen - (lo + hi) / 2 * idx.algo.rawLen) =
            idx.row ((lo + hi) / 2) := by
        rw [Nat.add_sub_cancel_left]
        rfl
      rw [if_pos hlt, BinarySearch.search, if_pos hlt]
      simp only [Run.slice_eq (Nat.le_add_right _ _) hend, hrow, Run.done_ok_bind]
      by_cases hless : idx.row ((lo + hi) / 2) < needle
      · rw [if_pos hless, if_pos hless]
        exact ih hhi (by omega) (by omega)
      rw [if_neg hless, if_neg hless]
      by_cases hgreater : needle < idx.row ((lo + hi) / 2)
      · rw [if_pos hgreater, if_pos hgreater]
        exact ih (by omega) (by omega) (by omega)
      · rw [if_neg hgreater, if_neg hgreater]
        rfl
    · have hnone : BinarySearch.search idx.row needle fuel lo hi = none := by
        cases fuel with
        | zero => rfl
        | succ fuel => rw [BinarySearch.search, if_neg hlt]
      rw [if_neg hlt, hnone]
      rfl

/-- Looking an offset up does not fault, whatever the tables hold. -/
theorem offsetRun_eq (idx : PackIndex) (id : ObjectId) :
    idx.offsetRun id = .done (.ok (idx.offsetOf id)) := by
  unfold offsetRun offsetOf positionOf
  by_cases halgo : id.algo ≠ idx.algo
  · rw [if_pos halgo, if_pos halgo]
    rfl
  have hrun := @searchRun_eq idx id.bytes (idx.count + 1) idx.count 0 idx.count (le_refl _)
    (Nat.lt_succ_self _) (le_refl _)
  rw [if_neg halgo, if_neg halgo, hrun, Run.done_ok_bind]
  cases hsearch : BinarySearch.search idx.row id.bytes idx.count 0 idx.count with
  | none => rfl
  | some row =>
    obtain ⟨-, hlt, -⟩ := BinarySearch.search_sound hsearch
    have hend : row * 4 + 4 ≤ idx.offsets.length := by
      rw [idx.offsets_length]
      omega
    have hraw : ObjectId.natOfBytes ((idx.offsets.drop (row * 4)).take (row * 4 + 4 - row * 4)) =
        number idx.offsets (row * 4) 4 := by
      rw [Nat.add_sub_cancel_left]
      rfl
    rw [Option.bind_some, offsetAt, if_neg (Nat.not_lt.mpr hend)]
    simp only [Run.slice_eq (Nat.le_add_right _ _) hend, Run.done_ok_bind, hraw]
    by_cases hsmall : number idx.offsets (row * 4) 4 < 2 ^ 31
    · rw [if_pos hsmall, if_pos hsmall]
      rfl
    rw [if_neg hsmall, if_neg hsmall]
    by_cases hshort : idx.largeOffsets.length < (number idx.offsets (row * 4) 4 - 2 ^ 31) * 8 + 8
    · rw [if_pos hshort, if_pos hshort]
      rfl
    · rw [if_neg hshort, if_neg hshort,
        Run.slice_eq (Nat.le_add_right _ _) (Nat.le_of_not_lt hshort),
        Run.done_ok_bind, Nat.add_sub_cancel_left]
      rfl

end PackIndex
/-! ## Applying a delta -/

namespace Delta

/-- What an instruction appends, and what follows it. -/
def applyOpRun (base : Bytes) (opcode : Nat) (data : Bytes) : Run Error (Bytes × Bytes) :=
  if opcode.testBit 7 then do
    let (offset, data) ← Run.done (readSelected opcode 0 4 0 0 data)
    let (size, data) ← Run.done (readSelected opcode 4 3 0 0 data)
    let size := if size = 0 then 0x10000 else size
    if 2 ^ 64 ≤ offset + size then throw (.pack (str "delta: copy range overflow"))
    else if base.length < offset + size then throw (.pack (str "delta: copy past end of base"))
    else
      let piece ← Run.slice base offset (offset + size)
      pure (piece, data)
  else if opcode ≠ 0 then
    if data.length < opcode then throw (.pack (str "delta: insert past end of delta"))
    else do
      let piece ← Run.slice data 0 opcode
      let data ← Run.sliceFrom data opcode
      pure (piece, data)
  else throw (.pack (str "delta: invalid zero opcode"))

/-- The loop over the instructions. -/
def applyOpsRun (base : Bytes) : Nat → Bytes → Bytes → Run Error Bytes
  | 0, _, _ => .fault .turns
  | _ + 1, [], out => pure out
  | turns + 1, opcode :: data, out => do
    let (piece, data) ← applyOpRun base opcode.toNat data
    applyOpsRun base turns data (out ++ piece)

/-- Applies a delta to a base. -/
def applyRun (base delta : Bytes) : Run Error Bytes := do
  let (baseSize, data) ← Run.done (readVarint delta)
  if baseSize ≠ base.length then throw (.pack (str "delta: base size mismatch"))
  else
    let (targetSize, data) ← Run.done (readVarint data)
    if maxTargetSize < targetSize then throw (.pack (str "delta: target size exceeds maximum"))
    else
      let out ← applyOpsRun base (data.length + 1) data []
      if out.length ≠ targetSize then throw (.pack (str "delta: target size mismatch"))
      else pure out

theorem applyOpRun_eq (base : Bytes) (opcode : Nat) (data : Bytes) :
    applyOpRun base opcode data = .done (applyOp base opcode data) := by
  unfold applyOpRun applyOp
  by_cases hcopy : opcode.testBit 7 = true
  · rw [if_pos hcopy, if_pos hcopy]
    refine Run.done_bind fun r _ => Run.done_bind fun r' _ => ?_
    simp only
    generalize (if r'.1 = 0 then 0x10000 else r'.1) = size
    by_cases hover : 2 ^ 64 ≤ r.1 + size
    · rw [if_pos hover, if_pos hover]
      rfl
    rw [if_neg hover, if_neg hover]
    by_cases hpast : base.length < r.1 + size
    · rw [if_pos hpast, if_pos hpast]
      rfl
    · rw [if_neg hpast, if_neg hpast, Run.slice_eq (Nat.le_add_right _ _) (Nat.le_of_not_lt hpast),
        Nat.add_sub_cancel_left]
      rfl
  rw [if_neg hcopy, if_neg hcopy]
  by_cases hzero : opcode ≠ 0
  · rw [if_pos hzero, if_pos hzero]
    by_cases hshort : data.length < opcode
    · rw [if_pos hshort, if_pos hshort]
      rfl
    · have hle : opcode ≤ data.length := Nat.le_of_not_lt hshort
      rw [if_neg hshort, if_neg hshort, Run.slice_eq (Nat.zero_le _) hle, Run.sliceFrom_eq hle]
      rfl
  · rw [if_neg hzero, if_neg hzero]
    rfl

theorem applyOpsRun_eq {base : Bytes} {turns : Nat} {data : Bytes} (out : Bytes)
    (h : data.length < turns) :
    applyOpsRun base turns data out = .done (runOps base data out) := by
  induction turns generalizing data out with
  | zero => omega
  | succ turns ih =>
    cases data with
    | nil => rfl
    | cons opcode data =>
      rw [List.length_cons] at h
      rw [applyOpsRun, runOps, List.length_cons, applyOps, applyOpRun_eq]
      refine Run.done_bind fun r hr => ?_
      have hrest := applyOp_length hr
      simp only
      rw [applyOps_fuel hrest]
      exact ih _ (by omega)

/-- Applying a delta does not fault, whatever it holds. -/
theorem applyRun_eq (base delta : Bytes) : applyRun base delta = .done (applyDelta base delta) := by
  unfold applyRun applyDelta
  refine Run.done_bind fun r _ => ?_
  simp only
  by_cases hbase : r.1 ≠ base.length
  · rw [if_pos hbase, if_pos hbase]
    rfl
  rw [if_neg hbase, if_neg hbase]
  refine Run.done_bind fun r' _ => ?_
  by_cases hmax : maxTargetSize < r'.1
  · rw [if_pos hmax, if_pos hmax]
    rfl
  rw [if_neg hmax, if_neg hmax, applyOpsRun_eq [] (Nat.lt_succ_self _)]
  refine Run.done_bind fun out _ => ?_
  by_cases hlen : out.length ≠ r'.1
  · rw [if_pos hlen, if_pos hlen]
    rfl
  · rw [if_neg hlen, if_neg hlen]
    rfl

end Delta

/-! ## Walking to the base of a chain -/

namespace Pack

/-- The walk from the entry at `cur` to the base of its chain, with the deltas on the way. -/
def walkRun (z : Zlib) (p : Pack) (locate : ObjectId → Run Error (Option Nat))
    (resolve : ObjectId → Run Error (ObjectType × Bytes)) :
    Nat → List Bytes → BTreeSet Nat → Nat → Run Error (ObjectType × Bytes × List Bytes)
  | 0, _, _, _ => .fault .turns
  | turns + 1, deltas, visited, cur =>
    if maxDeltaChainDepth < deltas.length then throw (.pack (str "pack: delta chain too deep"))
    else if visited.contains cur then throw (.pack (str "pack: delta chain is cyclic"))
    else do
      let visited := visited.insert cur
      let (ptype, size, hdrLen) ← Run.done (parseEntryHeaderAt p.data cur)
      let body := cur + hdrLen
      match ptype with
      | .whole ty =>
        let stream ← Run.sliceFrom p.data body
        let content ← Run.done (z.inflateCapped stream size)
        pure (ty, content, deltas)
      | .ofsDelta =>
        let (rel, n) ← Run.done (readOffsetVarint p.data body)
        if rel = 0 then throw (.pack (str "pack: ofs-delta base is self-referential"))
        else if cur < rel then throw (.pack (str "pack: ofs-delta base before pack start"))
        else
          let stream ← Run.sliceFrom p.data (body + n)
          let delta ← Run.done (z.inflateCapped stream size)
          walkRun z p locate resolve turns (deltas ++ [delta]) visited (cur - rel)
      | .refDelta =>
        if p.data.length < body + p.algo.rawLen then
          throw (.pack (str "pack: truncated ref-delta base id"))
        else
          let raw ← Run.slice p.data body (body + p.algo.rawLen)
          let baseId ← Run.done (ObjectId.fromBytes p.algo raw)
          let stream ← Run.sliceFrom p.data (body + p.algo.rawLen)
          let delta ← Run.done (z.inflateCapped stream size)
          match ← locate baseId with
          | some baseOffset =>
            walkRun z p locate resolve turns (deltas ++ [delta]) visited baseOffset
          | none =>
            let (ty, content) ← resolve baseId
            pure (ty, content, deltas ++ [delta])

/-- The object whose entry begins at an offset. -/
def readAtRun (z : Zlib) (p : Pack) (offset : Nat) (locate : ObjectId → Run Error (Option Nat))
    (resolve : ObjectId → Run Error (ObjectType × Bytes)) : Run Error (ObjectType × Bytes) := do
  let (ty, content, deltas) ← walkRun z p locate resolve (maxDeltaChainDepth + 2)
    [] BTreeSet.empty offset
  let content ← deltas.reverse.foldlM Delta.applyRun content
  pure (ty, content)

/-- A header ends inside of the pack. -/
theorem parseEntryHeaderAt_le {data : Bytes} {offset size hdrLen : Nat} {ptype : PackObjectType}
    (h : parseEntryHeaderAt data offset = .ok (ptype, size, hdrLen)) :
    offset + hdrLen ≤ data.length := by
  have hlen := List.length_drop (i := offset) (l := data)
  unfold parseEntryHeaderAt at h
  split at h
  · cases h
  next first rest hdrop =>
  rw [hdrop, List.length_cons] at hlen
  obtain ⟨t, -, h⟩ := except_bind_ok.mp h
  split at h
  · cases h
    omega
  · obtain ⟨⟨v, left⟩, -, h⟩ := except_bind_ok.mp h
    cases h
    have hsub := Nat.sub_le rest.length left.length
    show offset + (1 + (rest.length - left.length)) ≤ data.length
    omega

/-- A distance ends inside of the pack. -/
theorem readOffsetVarint_le {data : Bytes} {start rel n : Nat} (hstart : start ≤ data.length)
    (h : readOffsetVarint data start = .ok (rel, n)) : start + n ≤ data.length := by
  obtain ⟨⟨v, left⟩, -, h⟩ := except_bind_ok.mp h
  cases h
  simp only [List.length_drop]
  omega

section
variable {z : Zlib} {p : Pack} {locate : ObjectId → Option Nat} {resolve : ExternalResolver}
  {locateRun : ObjectId → Run Error (Option Nat)} {resolveRun : ObjectId →
    Run Error (ObjectType × Bytes)}

/-- The walk takes a turn for every delta it collects, and one more. -/
theorem walkRun_eq (hlocate : ∀ id, locateRun id = .done (.ok (locate id)))
    (hresolve : ∀ id, resolveRun id = .done (resolve id)) {turns left : Nat} {deltas : List Bytes}
    (visited : BTreeSet Nat) (cur : Nat) (hleft : deltas.length + left = maxDeltaChainDepth + 1)
    (hturns : left < turns) :
    walkRun z p locateRun resolveRun turns deltas visited cur =
      .done (walkChain z p locate resolve left deltas visited cur) := by
  induction left generalizing turns deltas visited cur with
  | zero =>
    obtain ⟨turns, rfl⟩ : ∃ n, turns = n + 1 := ⟨turns - 1, by omega⟩
    rw [walkRun, if_pos (by omega), walkChain]
    rfl
  | succ left ih =>
    obtain ⟨turns, rfl⟩ : ∃ n, turns = n + 1 := ⟨turns - 1, by omega⟩
    have hnext : ∀ delta : Bytes, (deltas ++ [delta]).length + left = maxDeltaChainDepth + 1 := by
      intro delta
      rw [List.length_append, List.length_singleton]
      omega
    rw [walkRun, if_neg (by omega), walkChain]
    by_cases hvisited : visited.contains cur = true
    · rw [if_pos hvisited, if_pos hvisited]
      rfl
    rw [if_neg hvisited, if_neg hvisited]
    refine Run.done_bind fun r hheader => ?_
    obtain ⟨ptype, size, hdrLen⟩ := r
    have hbody := parseEntryHeaderAt_le hheader
    cases ptype with
    | whole ty =>
      simp only [Run.sliceFrom_eq hbody, Run.done_ok_bind]
      exact Run.done_bind fun content _ => rfl
    | ofsDelta =>
      refine Run.done_bind fun r hbase => ?_
      obtain ⟨rel, n⟩ := r
      have hend := readOffsetVarint_le hbody hbase
      simp only
      by_cases hself : rel = 0
      · rw [if_pos hself, if_pos hself]
        rfl
      rw [if_neg hself, if_neg hself]
      by_cases hbefore : cur < rel
      · rw [if_pos hbefore, if_pos hbefore]
        rfl
      rw [if_neg hbefore, if_neg hbefore, Run.sliceFrom_eq hend, Run.done_ok_bind]
      exact Run.done_bind fun delta _ => ih _ _ (hnext delta) (by omega)
    | refDelta =>
      simp only
      by_cases hshort : p.data.length < cur + hdrLen + p.algo.rawLen
      · rw [if_pos hshort, readBaseId, if_pos hshort]
        rfl
      have hend := Nat.le_of_not_lt hshort
      rw [if_neg hshort, readBaseId, if_neg hshort, Run.slice_eq (Nat.le_add_right _ _) hend,
        Run.done_ok_bind,
        Nat.add_sub_cancel_left]
      refine Run.done_bind fun baseId _ => ?_
      rw [Run.sliceFrom_eq hend, Run.done_ok_bind]
      refine Run.done_bind fun delta _ => ?_
      rw [hlocate, Run.done_ok_bind]
      cases locate baseId with
      | some baseOffset => exact ih _ _ (hnext delta) (by omega)
      | none =>
        simp only [hresolve]
        exact Run.done_bind fun r _ => rfl

theorem readAtRun_eq (hlocate : ∀ id, locateRun id = .done (.ok (locate id)))
    (hresolve : ∀ id, resolveRun id = .done (resolve id)) (offset : Nat) :
    p.readAtRun z offset locateRun resolveRun = .done (p.readAtWith z offset locate resolve) := by
  unfold readAtRun readAtWith
  rw [walkRun_eq hlocate hresolve _ _ (Nat.zero_add _) (Nat.lt_succ_self _)]
  refine Run.done_bind fun r _ => ?_
  simp only
  rw [Run.foldlM_done Delta.applyRun_eq]
  exact Run.done_bind fun content _ => rfl

end
end Pack

/-! ## From pack to pack -/

/-- The first pack with an offset for an id, and that offset. -/
def locateRun (id : ObjectId) : List LoadedPack → Run Error (Option (LoadedPack × Nat))
  | [] => pure none
  | lp :: packs => do
    match ← lp.index.offsetRun id with
    | some offset => pure (some (lp, offset))
    | none => locateRun id packs

namespace ObjectStore

/-- Reads an object, `depth` levels having been entered. -/
def readDepthRun (s : ObjectStore) (elsewhere : Nat → ObjectId → Run Error (Option RawObject)) :
    Nat → Nat → ObjectId → Run Error RawObject
  | 0, _, _ => .fault .turns
  | turns + 1, depth, id =>
    if maxDeltaDepth < depth then throw (.pack (str "delta chain too deep (possible cycle)"))
    else if s.loose.contains id then .done (s.loose.read id)
    else do
      match ← locateRun id s.packs with
      | some (lp, offset) =>
        lp.pack.readAtRun s.loose.zlib offset lp.index.offsetRun fun base =>
          readDepthRun s elsewhere turns (depth + 1) base
      | none =>
        match ← elsewhere depth id with
        | some object => pure object
        | none => throw (objectNotFound id)

end ObjectStore

namespace CombinedOdb

/-- The first of some alternates that reads an object, where `depth` levels have been entered. -/
def alternateRun (depth : Nat) (id : ObjectId) : List ObjectStore → Run Error (Option RawObject)
  | [] => pure none
  | alt :: alternates => do
    match ← (alt.readDepthRun (fun _ _ => pure none) (ObjectStore.maxDeltaDepth + 2) depth
      id).attempt with
    | some object => pure (some object)
    | none => alternateRun depth id alternates

/-- Reads an object. -/
def readRun (odb : CombinedOdb) (id : ObjectId) : Run Error RawObject :=
  odb.readDepthRun (fun depth id => alternateRun depth id odb.alternates)
    (ObjectStore.maxDeltaDepth + 2) 0 id

end CombinedOdb

theorem locateRun_eq (id : ObjectId) (packs : List LoadedPack) : locateRun id packs =
    .done (.ok (packs.findSome? fun lp => (lp.index.offsetOf id).map fun offset =>
      (lp, offset))) := by
  induction packs with
  | nil => rfl
  | cons lp packs ih =>
    rw [locateRun, lp.index.offsetRun_eq, Run.done_ok_bind, List.findSome?_cons]
    cases lp.index.offsetOf id with
    | some offset => rfl
    | none => exact ih

/-- The way through a store takes a turn for every level, and one more. -/
theorem ObjectStore.readDepthRun_eq {s : ObjectStore}
    {elsewhereRun : Nat → ObjectId → Run Error (Option RawObject)}
    {elsewhere : Nat → ObjectId → Option RawObject}
    (helsewhere : ∀ depth left id, depth + left = maxDeltaDepth + 1 →
      elsewhereRun depth id = .done (.ok (elsewhere left id)))
    {turns left depth : Nat} (hleft : depth + left = maxDeltaDepth + 1) (hturns : left < turns)
    (id : ObjectId) :
    s.readDepthRun elsewhereRun turns depth id = .done (s.readDepth elsewhere left id) := by
  induction left generalizing turns depth id with
  | zero =>
    obtain ⟨turns, rfl⟩ : ∃ n, turns = n + 1 := ⟨turns - 1, by omega⟩
    rw [readDepthRun, if_pos (by omega), readDepth]
    rfl
  | succ left ih =>
    obtain ⟨turns, rfl⟩ : ∃ n, turns = n + 1 := ⟨turns - 1, by omega⟩
    rw [readDepthRun, if_neg (by omega), readDepth]
    by_cases hloose : s.loose.contains id = true
    · rw [if_pos hloose, if_pos hloose]
    rw [if_neg hloose, if_neg hloose, locateRun_eq, Run.done_ok_bind]
    unfold locate
    cases s.packs.findSome? fun lp => (lp.index.offsetOf id).map fun offset => (lp, offset) with
    | some found =>
      exact Pack.readAtRun_eq found.1.index.offsetRun_eq (fun base =>
        ih (by omega) (by omega) base) _
    | none =>
      simp only [helsewhere depth (left + 1) id hleft, Run.done_ok_bind]
      cases elsewhere (left + 1) id <;> rfl

/-- **Every read ends in an object or an error**, and no slice is out of bounds on the way. -/
theorem CombinedOdb.readRun_eq (odb : CombinedOdb) (id : ObjectId) :
    odb.readRun id = .done (odb.read id) := by
  refine ObjectStore.readDepthRun_eq ?_ (Nat.zero_add _) (Nat.lt_succ_self _) id
  intro depth left id hleft
  unfold readAlternate
  induction odb.alternates with
  | nil => rfl
  | cons alt alternates ih =>
    have halt := @ObjectStore.readDepthRun_eq alt _ (fun _ _ => none) (fun _ _ _ _ =>
      Run.pure_eq none)
      (ObjectStore.maxDeltaDepth + 2) left depth hleft (by omega) id
    rw [alternateRun, halt, Run.attempt_done, Run.done_ok_bind, List.findSome?_cons]
    cases (alt.readDepth (fun _ _ => none) left id).toOption with
    | some object => rfl
    | none => exact ih

end Puregit
