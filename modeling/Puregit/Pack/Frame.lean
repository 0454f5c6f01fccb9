import Puregit.Lib.Cursor
import Puregit.Pack.Reader

/-! # The frames of a pack

A pack has no length in front and no end behind.  `packFrameEnd` finds the end of one entry
without resolving a delta, also in data that is not all there yet.  An entry is local: header,
base and stream each show where they end.  So `packFrameEnd` finds an end in what has arrived
just when the whole entry has, and it is the end at which the front-to-back reader goes on.
-/
namespace Puregit

/-- The codec takes a stream for what it is wherever it stands, and needs all of it. -/
def Zlib.Delimits (z : Zlib) : Prop := ∀ max, Cursor.Delimits fun data => z.inflateExact data max

open Zlib in
/-- **The stored codec takes its streams for what they are.** -/
theorem Zlib.stored_delimits : Zlib.stored.Delimits := by
  intro max data out n h
  obtain ⟨⟨o, past⟩, hcounted, heq⟩ := except_map_ok.mp h
  have hstored : Zlib.stored.inflateCounted = inflateStored := rfl
  rw [hstored] at hcounted
  unfold inflateStored at hcounted
  split at hcounted
  · rename_i l0 l1 n0 n1 body
    simp only at hcounted
    split_ifs at hcounted with hcheck hshort hsum hmax
    cases hcounted
    generalize hlen : l0.toNat + 256 * l1.toNat = len at *
    have hblock : ∀ body : Bytes, inflateStored
      (0x78 :: 0x01 :: 0x01 :: l0 :: l1 :: n0 :: n1 :: body) max =
        if body.length < len + 4 then .error truncatedStream
        else if (body.drop len).take 4 ≠ adler32 (body.take len) then .error notStored
        else .ok (body.take len, len + 11) := by
      intro body
      simp only [inflateStored, hlen, if_neg hcheck, if_neg hmax]
    -- the block without its last byte is refused, so that nothing is taken off its length
    have hexact : ∀ body' : Bytes, len + 4 ≤ body'.length →
      body'.take (len + 4) = body.take (len + 4) →
        stored.inflateExact (0x78 :: 0x01 :: 0x01 :: l0 :: l1 :: n0 :: n1 :: body') max =
          .ok (body.take len, len + 11) := by
      intro body' hlong hsame
      have hout : body'.take len = body.take len := by
        have hfront := congrArg (List.take len) hsame
        rwa [List.take_take, List.take_take, Nat.min_eq_left (by omega)] at hfront
      have hadler : (body'.drop len).take 4 = (body.drop len).take 4 := by
        rw [List.take_drop, List.take_drop, hsame]
      have hwhole : stored.inflateCounted
        (0x78 :: 0x01 :: 0x01 :: l0 :: l1 :: n0 :: n1 :: body') max =
          .ok (body.take len, len + 11) := by
        rw [hstored, hblock, if_neg (by omega), hadler, hout, if_neg hsum]
      have hcut : stored.inflateCounted
        ((0x78 :: 0x01 :: 0x01 :: l0 :: l1 :: n0 :: n1 :: body').take (len + 10)) max =
          .error truncatedStream := by
        have htake : (0x78 :: 0x01 :: 0x01 :: l0 :: l1 :: n0 :: n1 :: body').take (len + 10) =
            0x78 :: 0x01 :: 0x01 :: l0 :: l1 :: n0 :: n1 :: body'.take (len + 3) := rfl
        rw [htake, hstored, hblock, if_pos (by rw [List.length_take]; omega)]
      rw [inflateExact, hwhole]
      show Except.ok (_, shrink _ _ _ _ _ (len + 10 + 1)) = _
      rw [shrink, if_pos (by rw [maxOverread]; omega), hcut]
    have hself := hexact body (Nat.not_lt.mp hshort) rfl
    obtain ⟨rfl, rfl⟩ : out = body.take len ∧ n = len + 11 := by
      have heq := h.symm.trans hself
      cases heq
      exact ⟨rfl, rfl⟩
    refine ⟨by omega, ?_, fun data' hdata => ?_⟩
    · simp only [List.length_cons]
      omega
    · have hfront : data' = (0x78 :: 0x01 :: 0x01 :: l0 :: l1 :: n0 :: n1 :: body.take (len + 4)) ++
          data'.drop (len + 11) := by
        conv_lhs => rw [← List.take_append_drop (len + 11) data', hdata]
        rfl
      rw [hfront]
      refine hexact (body.take (len + 4) ++ data'.drop (len + 11)) ?_ ?_
      · rw [List.length_append, List.length_take]
        omega
      · rw [List.take_append_of_le_length (by rw [List.length_take]; omega),
          List.take_take, Nat.min_self]
  · cases hcounted

namespace Pack

/-- The offset just past the frame that begins at an offset. -/
def packFrameEnd (z : Zlib) (data : Bytes) (offset : Nat) (algo : HashAlgo) : Except Error Nat := do
  let (ptype, size, hdrLen) ← parseEntryHeaderAt data offset
  let body := offset + hdrLen
  match ptype with
  | .ofsDelta =>
    let (_, n) ← readOffsetVarint data body
    let (_, clen) ← z.inflateExact (data.drop (body + n)) size
    .ok (offset + (hdrLen + n + clen))
  | .refDelta =>
    if data.length < body + algo.rawLen then
      .error (.pack (str "pack: truncated ref-delta base id"))
    else
      let (_, clen) ← z.inflateExact (data.drop (body + algo.rawLen)) size
      .ok (offset + (hdrLen + algo.rawLen + clen))
  | .whole _ =>
    let (_, clen) ← z.inflateExact (data.drop body) size
    .ok (offset + (hdrLen + clen))

/-! ## Parts of an entry -/

theorem parseEntryHeader_delimits : Cursor.Delimits fun data =>
    (parseEntryHeaderAt data 0).map fun (ptype, size, n) => ((ptype, size), n) := by
  refine Cursor.Delimits.of_front fun data r n hread => ?_
  obtain ⟨⟨ptype, size, hdrLen⟩, hheader, heq⟩ := except_map_ok.mp hread
  cases heq
  rw [parseEntryHeaderAt, List.drop_zero] at hheader
  cases data with
  | nil => cases hheader
  | cons first rest =>
      obtain ⟨t, ht, hheader⟩ := except_bind_ok.mp hheader
      by_cases hlast : first.toNat < 128
      · rw [if_pos hlast] at hheader
        cases hheader
        refine ⟨Nat.one_pos, [first], rest, rfl, rfl, fun rest' => ?_⟩
        refine except_map_ok.mpr ⟨(ptype, first.toNat % 16, 1), ?_, rfl⟩
        exact except_bind_ok.mpr ⟨_, ht, if_pos hlast⟩
      · rw [if_neg hlast] at hheader
        obtain ⟨⟨v, left⟩, hgroups, hheader⟩ := except_bind_ok.mp hheader
        cases hheader
        obtain ⟨used, rfl, hsame⟩ := Base128.readGroups_local hgroups
        have hlen : ∀ left' : Bytes, (used ++ left').length - left'.length = used.length := by
          intro left'
          rw [List.length_append]
          omega
        refine ⟨by omega, first :: used, left, rfl, by rw [hlen, List.length_cons]; omega,
          fun left' => ?_⟩
        refine except_map_ok.mpr ⟨(ptype, size, 1 + used.length), ?_, by rw [hlen]⟩
        refine except_bind_ok.mpr ⟨_, ht, (if_neg hlast).trans ?_⟩
        refine except_bind_ok.mpr ⟨_, hsame left', ?_⟩
        exact congrArg (fun n => Except.ok (ptype, size, 1 + n)) (hlen left')

theorem readOffsetVarint_delimits : Cursor.Delimits fun data => readOffsetVarint data 0 := by
  refine Cursor.Delimits.of_front fun data rel n hread => ?_
  obtain ⟨⟨value, left⟩, hvalue, heq⟩ := except_bind_ok.mp hread
  cases heq
  obtain ⟨used, hdata, hsame⟩ := Base128.readBiased_local hvalue
  rw [List.drop_zero] at hdata
  have hlen : ∀ left' : Bytes, (used ++ left').length - left'.length = used.length := by
    intro left'
    rw [List.length_append]
    omega
  have hne : used ≠ [] := by
    rintro rfl
    cases hsame []
  rw [List.drop_zero, hdata, hlen]
  refine ⟨List.length_pos_of_ne_nil hne, used, left, rfl, rfl, fun left' => ?_⟩
  rw [readOffsetVarint, List.drop_zero]
  refine except_bind_ok.mpr ⟨_, hsame left', ?_⟩
  exact congrArg (fun n => Except.ok (rel, n)) (hlen left')

theorem readBaseId_delimits (algo : HashAlgo) : Cursor.Delimits fun data =>
    (readBaseId algo data 0).map fun id => (id, algo.rawLen) := by
  intro data id n hread
  obtain ⟨id, hid, heq⟩ := except_map_ok.mp hread
  cases heq
  rw [readBaseId, Nat.zero_add] at hid
  split at hid
  · cases hid
  rename_i hlong
  refine ⟨by cases algo <;> decide, Nat.not_lt.mp hlong, fun data' hdata =>
    except_map_ok.mpr ⟨id, ?_, rfl⟩⟩
  have hlong' : ¬ data'.length < algo.rawLen := by
    have hlen := congrArg List.length hdata
    rw [List.length_take, List.length_take] at hlen
    omega
  rw [readBaseId, Nat.zero_add, if_neg hlong', List.drop_zero, hdata]
  exact hid

/-! ## An entry -/

/-- Reads an entry. -/
def entryCursor (z : Zlib) (algo : HashAlgo) : Cursor UInt8 Error Entry :=
  (Cursor.behind fun data => (parseEntryHeaderAt data 0).map fun (ptype, size, n) =>
    ((ptype, size), n)).bind
    fun (ptype, size) =>
      let stream := Cursor.behind fun data => z.inflateExact data size
      match ptype with
      | .whole ty => stream.map (.whole ty)
      | .ofsDelta => (Cursor.behind fun data => readOffsetVarint data 0).bind fun rel =>
        stream.map (.ofs rel)
      | .refDelta =>
        (Cursor.behind fun data => (readBaseId algo data 0).map fun id => (id, algo.rawLen)).bind
          fun id => stream.map (.ref id)

theorem entryCursor_local {z : Zlib} (hz : z.Delimits) (algo : HashAlgo) :
    (entryCursor z algo).Local := by
  refine parseEntryHeader_delimits.behind.bind fun r => ?_
  obtain ⟨ptype, size⟩ := r
  cases ptype with
  | whole ty => exact (hz size).behind.map _
  | ofsDelta => exact readOffsetVarint_delimits.behind.bind fun rel => (hz size).behind.map _
  | refDelta => exact (readBaseId_delimits algo).behind.bind fun id => (hz size).behind.map _

section
variable {z : Zlib} {algo : HashAlgo} {data : Bytes} {offset next : Nat}

theorem behind_header : (Cursor.behind fun data => (parseEntryHeaderAt data 0).map
      fun (ptype, size, n) => ((ptype, size), n)) data offset =
    (parseEntryHeaderAt data offset).map fun (ptype, size, n) => ((ptype, size), offset + n) := by
  rw [Cursor.behind, parseEntryHeaderAt, List.drop_zero]
  show Except.map _ (Except.map _ (parseEntryHeaderAt data offset)) = _
  cases parseEntryHeaderAt data offset <;> rfl

theorem behind_varint : (Cursor.behind fun data => readOffsetVarint data 0) data offset =
    (readOffsetVarint data offset).map fun (rel, n) => (rel, offset + n) := by
  rw [Cursor.behind, readOffsetVarint, List.drop_zero]
  rfl

theorem behind_baseId : (Cursor.behind fun data => (readBaseId algo data 0).map fun id =>
    (id, algo.rawLen)) data offset =
    (readBaseId algo data offset).map fun id => (id, offset + algo.rawLen) := by
  have hshort : (data.drop offset).length < algo.rawLen ↔ data.length < offset + algo.rawLen := by
    have hpos : 0 < algo.rawLen := by cases algo <;> decide
    rw [List.length_drop]
    omega
  have hread : readBaseId algo (data.drop offset) 0 = readBaseId algo data offset := by
    rw [readBaseId, readBaseId, Nat.zero_add, List.drop_zero]
    simp only [hshort]
  show Except.map _ (Except.map _ (readBaseId algo (data.drop offset) 0)) = _
  rw [hread]
  cases readBaseId algo data offset <;> rfl

/-- An entry is read where it stands. -/
theorem entryCursor_ok_iff {e : Entry} :
    entryCursor z algo data offset = .ok (e, next) ↔ EntryAt z algo data offset e next := by
  rw [entryCursor, Cursor.bind, behind_header]
  constructor
  · intro h
    obtain ⟨⟨⟨ptype, size⟩, p⟩, hheader, h⟩ := except_bind_ok.mp h
    obtain ⟨⟨ptype', size', hdrLen⟩, header, heq⟩ := except_map_ok.mp hheader
    cases heq
    cases ptype with
    | whole ty =>
        obtain ⟨⟨content, q⟩, hstream, heq⟩ := except_map_ok.mp h
        obtain ⟨⟨content', clen⟩, body, hq⟩ := except_map_ok.mp hstream
        cases hq
        cases heq
        exact .whole header body
    | ofsDelta =>
        obtain ⟨⟨rel, q⟩, hbase, h⟩ := except_bind_ok.mp h
        obtain ⟨⟨rel', n⟩, base, hq⟩ := except_map_ok.mp (behind_varint.symm.trans hbase)
        cases hq
        obtain ⟨⟨delta, q⟩, hstream, heq⟩ := except_map_ok.mp h
        obtain ⟨⟨delta', clen⟩, body, hq⟩ := except_map_ok.mp hstream
        cases hq
        cases heq
        exact .ofs header base body
    | refDelta =>
        obtain ⟨⟨id, q⟩, hbase, h⟩ := except_bind_ok.mp h
        obtain ⟨id', base, hq⟩ := except_map_ok.mp (behind_baseId.symm.trans hbase)
        cases hq
        obtain ⟨⟨delta, q⟩, hstream, heq⟩ := except_map_ok.mp h
        obtain ⟨⟨delta', clen⟩, body, hq⟩ := except_map_ok.mp hstream
        cases hq
        cases heq
        exact .ref header base body
  · intro h
    cases h with
    | whole header body =>
        refine except_bind_ok.mpr ⟨_, except_map_ok.mpr ⟨_, header, rfl⟩, ?_⟩
        exact except_map_ok.mpr ⟨_, except_map_ok.mpr ⟨_, body, rfl⟩, rfl⟩
    | ofs header base body =>
        refine except_bind_ok.mpr ⟨_, except_map_ok.mpr ⟨_, header, rfl⟩, ?_⟩
        refine except_bind_ok.mpr ⟨_, behind_varint.trans (except_map_ok.mpr ⟨_, base, rfl⟩), ?_⟩
        exact except_map_ok.mpr ⟨_, except_map_ok.mpr ⟨_, body, rfl⟩, rfl⟩
    | ref header base body =>
        refine except_bind_ok.mpr ⟨_, except_map_ok.mpr ⟨_, header, rfl⟩, ?_⟩
        refine except_bind_ok.mpr ⟨_, behind_baseId.trans (except_map_ok.mpr ⟨_, base, rfl⟩), ?_⟩
        exact except_map_ok.mpr ⟨_, except_map_ok.mpr ⟨_, body, rfl⟩, rfl⟩

/-- **A frame ends where the entry does** that the front-to-back reader decodes. -/
theorem packFrameEnd_ok_iff : packFrameEnd z data offset algo = .ok next ↔
    ∃ e, EntryAt z algo data offset e next := by
  constructor
  · intro h
    obtain ⟨⟨ptype, size, hdrLen⟩, header, h⟩ := except_bind_ok.mp h
    cases ptype with
    | whole ty =>
        obtain ⟨⟨content, clen⟩, body, h⟩ := except_bind_ok.mp h
        cases h
        rw [← Nat.add_assoc]
        exact ⟨_, .whole header body⟩
    | ofsDelta =>
        obtain ⟨⟨rel, n⟩, base, h⟩ := except_bind_ok.mp h
        obtain ⟨⟨delta, clen⟩, body, h⟩ := except_bind_ok.mp h
        cases h
        rw [← Nat.add_assoc, ← Nat.add_assoc]
        exact ⟨_, .ofs header base body⟩
    | refDelta =>
        simp only at h
        split at h
        · cases h
        rename_i hlong
        obtain ⟨⟨delta, clen⟩, body, h⟩ := except_bind_ok.mp h
        cases h
        rw [← Nat.add_assoc, ← Nat.add_assoc]
        have hid : ((data.drop (offset + hdrLen)).take algo.rawLen).length = algo.rawLen := by
          rw [List.length_take, List.length_drop]
          omega
        have hbase : readBaseId algo data (offset + hdrLen) =
            .ok ⟨algo, (data.drop (offset + hdrLen)).take algo.rawLen, hid⟩ := by
          rw [readBaseId, if_neg hlong, ObjectId.fromBytes, dif_pos hid]
        exact ⟨_, .ref header hbase body⟩
  · rintro ⟨e, h⟩
    cases h with
    | whole header body =>
        refine except_bind_ok.mpr ⟨_, header, except_bind_ok.mpr ⟨_, body, ?_⟩⟩
        exact congrArg Except.ok (by omega)
    | ofs header base body =>
        refine except_bind_ok.mpr ⟨_, header,
          except_bind_ok.mpr ⟨_, base, except_bind_ok.mpr ⟨_, body, ?_⟩⟩⟩
        exact congrArg Except.ok (by omega)
    | @ref size hdrLen clen id delta header base body =>
        have hlong : ¬ data.length < offset + hdrLen + algo.rawLen := by
          intro hshort
          rw [readBaseId, if_pos hshort] at base
          cases base
        refine except_bind_ok.mpr ⟨_, header,
          (if_neg hlong).trans (except_bind_ok.mpr ⟨_, body, ?_⟩)⟩
        exact congrArg Except.ok (by omega)

/-- **What has arrived of an entry** shows its end just when all of it has. -/
theorem packFrameEnd_take (hz : z.Delimits) {e : Entry}
    (h : EntryAt z algo data offset e next) (k : Nat) :
    (next ≤ k → packFrameEnd z (data.take k) offset algo = .ok next) ∧
    (k < next → ∃ error, packFrameEnd z (data.take k) offset algo = .error error) := by
  have hlocal := entryCursor_local hz algo
  have hread := entryCursor_ok_iff.mpr h
  constructor
  · intro hk
    exact packFrameEnd_ok_iff.mpr ⟨e, entryCursor_ok_iff.mp (hlocal.take hread hk)⟩
  · intro hk
    obtain ⟨error, hcut⟩ := hlocal.truncated hread hk
    cases hend : packFrameEnd z (data.take k) offset algo with
    | error error => exact ⟨error, rfl⟩
    | ok next' =>
        obtain ⟨e', hat⟩ := packFrameEnd_ok_iff.mp hend
        cases hcut.symm.trans (entryCursor_ok_iff.mpr hat)

end

end Pack
end Puregit
