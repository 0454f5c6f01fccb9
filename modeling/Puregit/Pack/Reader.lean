import Puregit.Compress
import Puregit.Odb
import Puregit.Pack.Delta

/-! # Reading packfiles

A pack holds its objects back to back, each as a header and a zlib stream of the whole
object or of a delta; the base of a delta is named by its distance in the pack or by
its id.  `explodePackPrefix` decodes the entries front to back and looks bases up among
the objects decoded so far; `Pack.readAtWith` starts at one entry, walks its chain of
bases and applies the deltas it met on the way back.

Both decode an entry in the same way.  `EntryAt` says what an entry spells, apart from
what its base is: either reader is determined by it.
-/
namespace Puregit

/-- The type tag of an entry: that of a whole object, or one of the two delta encodings. -/
inductive PackObjectType where
  | whole (ty : ObjectType)
  | ofsDelta
  | refDelta
  deriving DecidableEq

/-- The type of a tag. -/
def PackObjectType.fromTag : Nat → Except Error PackObjectType
  | 1 => .ok (.whole .commit)
  | 2 => .ok (.whole .tree)
  | 3 => .ok (.whole .blob)
  | 4 => .ok (.whole .tag)
  | 6 => .ok .ofsDelta
  | 7 => .ok .refDelta
  | other => .error (.pack (str "unknown pack object type " ++ natStr other))

/-- Finds the base of a delta outside of its pack. -/
abbrev ExternalResolver := ObjectId → Except Error (ObjectType × Bytes)

/-- An object of a pack: its id, type and bytes. -/
abbrev ExplodedObject := ObjectId × ObjectType × Bytes

namespace Pack

/-- The type and the uncompressed size of the entry at an offset, and the length of its
header. -/
def parseEntryHeaderAt (data : Bytes) (offset : Nat) :
    Except Error (PackObjectType × Nat × Nat) :=
  match data.drop offset with
  | [] => .error (.pack (str "pack: offset past end"))
  | first :: rest => do
    let ptype ← PackObjectType.fromTag (first.toNat / 16 % 8)
    if first.toNat < 128 then .ok (ptype, first.toNat % 16, 1)
    else
      let (size, left) ← Base128.readGroups (.pack (str "pack: truncated entry header"))
        (.pack (str "pack: size varint overflow")) rest (first.toNat % 16) 4
      .ok (ptype, size, 1 + (rest.length - left.length))

/-- The distance of the base of a delta, and the number of bytes it takes. -/
def readOffsetVarint (data : Bytes) (start : Nat) : Except Error (Nat × Nat) := do
  let (value, left) ← Base128.readBiased (.pack (str "pack: truncated ofs-delta offset"))
    (data.drop start)
  .ok (value, (data.drop start).length - left.length)

/-- The id of the base of a delta. -/
def readBaseId (algo : HashAlgo) (data : Bytes) (start : Nat) : Except Error ObjectId :=
  if data.length < start + algo.rawLen then
    .error (.pack (str "pack: truncated ref-delta base id"))
  else ObjectId.fromBytes algo ((data.drop start).take algo.rawLen)

/-! ## Front to back -/

/-- The objects decoded so far, and where the next entry begins. -/
structure Exploded where
  offset : Nat
  byOffset : BTreeMap Nat (ObjectType × Bytes)
  byId : BTreeMap ObjectId (ObjectType × Bytes)
  results : List ExplodedObject

namespace Exploded

/-- Nothing decoded. -/
def start : Exploded := ⟨12, BTreeMap.empty, BTreeMap.empty, []⟩

/-- The base of a delta that names it by distance. -/
def baseAt (s : Exploded) (offset : Nat) : Except Error (ObjectType × Bytes) :=
  match s.byOffset.get? offset with
  | some base => .ok base
  | none => .error (.pack (str "pack: ofs-delta base not yet seen"))

/-- The base of a delta that names it by id. -/
def baseOf (s : Exploded) (resolve : ExternalResolver) (id : ObjectId) :
    Except Error (ObjectType × Bytes) :=
  match s.byId.get? id with
  | some base => .ok base
  | none => resolve id

/-- Records an object, the next entry beginning at `next`. -/
def record (s : Exploded) (id : ObjectId) (ty : ObjectType) (content : Bytes) (next : Nat) :
    Exploded where
  offset := next
  byOffset := s.byOffset.insert s.offset (ty, content)
  byId := s.byId.insert id (ty, content)
  results := s.results ++ [(id, ty, content)]

end Exploded

/-- The type and content of the next entry, and where it ends. -/
def decodeEntry (z : Zlib) (algo : HashAlgo) (resolve : ExternalResolver) (data : Bytes)
    (s : Exploded) : Except Error (ObjectType × Bytes × Nat) := do
  let (ptype, size, hdrLen) ← parseEntryHeaderAt data s.offset
  let body := s.offset + hdrLen
  match ptype with
  | .whole ty =>
    let (content, clen) ← z.inflateExact (data.drop body) size
    .ok (ty, content, body + clen)
  | .ofsDelta =>
    let (rel, n) ← readOffsetVarint data body
    if s.offset < rel then .error (.pack (str "pack: ofs-delta base before pack start"))
    else
      let (delta, clen) ← z.inflateExact (data.drop (body + n)) size
      let (baseTy, base) ← s.baseAt (s.offset - rel)
      let target ← applyDelta base delta
      .ok (baseTy, target, body + n + clen)
  | .refDelta =>
    let baseId ← readBaseId algo data body
    let (delta, clen) ← z.inflateExact (data.drop (body + algo.rawLen)) size
    let (baseTy, base) ← s.baseOf resolve baseId
    let target ← applyDelta base delta
    .ok (baseTy, target, body + algo.rawLen + clen)

/-- Decodes `count` entries. -/
def explodeEntries (z : Zlib) (h : Hasher) (algo : HashAlgo) (resolve : ExternalResolver)
    (data : Bytes) : Nat → Exploded → Except Error Exploded
  | 0, s => .ok s
  | count + 1, s => do
    let (ty, content, next) ← decodeEntry z algo resolve data s
    explodeEntries z h algo resolve data count
      (s.record (hashObject h algo ty content) ty content next)

end Pack

/-- The signature of a pack. -/
def packSignature : Bytes := bytes "PACK"

open Pack in
/-- Decodes every object of the pack at the front of some data, with the number of bytes
the pack takes: header, entries and trailing checksum. -/
def explodePackPrefix (z : Zlib) (h : Hasher) (data : Bytes) (algo : HashAlgo)
    (resolve : ExternalResolver) : Except Error (List ExplodedObject × Nat) := do
  if data.length < 12 ∨ data.take 4 ≠ packSignature then
    .error (.pack (str "pack: bad signature"))
  else
    let s ← explodeEntries z h algo resolve data
      (ObjectId.natOfBytes ((data.drop 8).take 4)) Exploded.start
    if data.length < s.offset + algo.rawLen then
      .error (.pack (str "pack: truncated trailing checksum"))
    else .ok (s.results, s.offset + algo.rawLen)

/-- Decodes every object of a pack. -/
def explodePack (z : Zlib) (h : Hasher) (data : Bytes) (algo : HashAlgo)
    (resolve : ExternalResolver) : Except Error (List ExplodedObject) :=
  (explodePackPrefix z h data algo resolve).map (·.1)

/-! ## From one entry back to its base -/

/-- A pack, of which objects are read by offset. -/
structure Pack where
  data : Bytes
  algo : HashAlgo
  objectCount : Nat
  deriving DecidableEq

namespace Pack

/-- Parses the header of a pack. -/
def new (data : Bytes) (algo : HashAlgo) : Except Error Pack :=
  if data.length < 12 then .error (.pack (str "pack: too short"))
  else if data.take 4 ≠ packSignature then .error (.pack (str "pack: bad signature"))
  else
    let version := ObjectId.natOfBytes ((data.drop 4).take 4)
    if version ≠ 2 ∧ version ≠ 3 then
      .error (.pack (str "pack: unsupported version " ++ natStr version))
    else .ok ⟨data, algo, ObjectId.natOfBytes ((data.drop 8).take 4)⟩

/-- How long a chain of deltas may be. -/
def maxDeltaChainDepth : Nat := 10000

/-- Walks from the entry at `cur` to the base of its chain, which is returned with the
deltas on the way; `left` more of them may be collected, and one more entry visited. -/
def walkChain (z : Zlib) (p : Pack) (locate : ObjectId → Option Nat) (resolve : ExternalResolver) :
    Nat → List Bytes → BTreeSet Nat → Nat → Except Error (ObjectType × Bytes × List Bytes)
  | 0, _, _, _ => .error (.pack (str "pack: delta chain too deep"))
  | left + 1, deltas, visited, cur =>
    if visited.contains cur then .error (.pack (str "pack: delta chain is cyclic"))
    else do
      let visited := visited.insert cur
      let (ptype, size, hdrLen) ← parseEntryHeaderAt p.data cur
      let body := cur + hdrLen
      match ptype with
      | .whole ty =>
        let content ← z.inflateCapped (p.data.drop body) size
        .ok (ty, content, deltas)
      | .ofsDelta =>
        let (rel, n) ← readOffsetVarint p.data body
        if rel = 0 then .error (.pack (str "pack: ofs-delta base is self-referential"))
        else if cur < rel then .error (.pack (str "pack: ofs-delta base before pack start"))
        else
          let delta ← z.inflateCapped (p.data.drop (body + n)) size
          walkChain z p locate resolve left (deltas ++ [delta]) visited (cur - rel)
      | .refDelta =>
        let baseId ← readBaseId p.algo p.data body
        let delta ← z.inflateCapped (p.data.drop (body + p.algo.rawLen)) size
        match locate baseId with
        | some baseOffset =>
          walkChain z p locate resolve left (deltas ++ [delta]) visited baseOffset
        | none =>
          let (ty, content) ← resolve baseId
          .ok (ty, content, deltas ++ [delta])

/-- Applies deltas, the first of them last. -/
def applyAll (content : Bytes) (deltas : List Bytes) : Except Error Bytes :=
  deltas.reverse.foldlM applyDelta content

/-- The object whose entry begins at an offset; `locate` finds the bases by id that are in
the pack, and `resolve` the others. -/
def readAtWith (z : Zlib) (p : Pack) (offset : Nat) (locate : ObjectId → Option Nat)
    (resolve : ExternalResolver) : Except Error (ObjectType × Bytes) := do
  let (ty, content, deltas) ←
    walkChain z p locate resolve (maxDeltaChainDepth + 1) [] BTreeSet.empty offset
  let content ← applyAll content deltas
  .ok (ty, content)

/-! ## Entries -/

/-- What an entry spells. -/
inductive Entry where
  | whole (ty : ObjectType) (content : Bytes)
  | ofs (rel : Nat) (delta : Bytes)
  | ref (id : ObjectId) (delta : Bytes)

/-- The entry at an offset of a pack, and where it ends. -/
inductive EntryAt (z : Zlib) (algo : HashAlgo) (data : Bytes) (offset : Nat) : Entry → Nat → Prop
  | whole {ty : ObjectType} {size hdrLen clen : Nat} {content : Bytes}
      (header : parseEntryHeaderAt data offset = .ok (.whole ty, size, hdrLen))
      (body : z.inflateExact (data.drop (offset + hdrLen)) size = .ok (content, clen)) :
      EntryAt z algo data offset (.whole ty content) (offset + hdrLen + clen)
  | ofs {size hdrLen rel n clen : Nat} {delta : Bytes}
      (header : parseEntryHeaderAt data offset = .ok (.ofsDelta, size, hdrLen))
      (base : readOffsetVarint data (offset + hdrLen) = .ok (rel, n))
      (body : z.inflateExact (data.drop (offset + hdrLen + n)) size = .ok (delta, clen)) :
      EntryAt z algo data offset (.ofs rel delta) (offset + hdrLen + n + clen)
  | ref {size hdrLen clen : Nat} {id : ObjectId} {delta : Bytes}
      (header : parseEntryHeaderAt data offset = .ok (.refDelta, size, hdrLen))
      (base : readBaseId algo data (offset + hdrLen) = .ok id)
      (body : z.inflateExact (data.drop (offset + hdrLen + algo.rawLen)) size = .ok (delta, clen)) :
      EntryAt z algo data offset (.ref id delta) (offset + hdrLen + algo.rawLen + clen)

/-- The object an entry stands for, given the objects before it. -/
def Entry.object (resolve : ExternalResolver) (s : Exploded) :
    Entry → Except Error (ObjectType × Bytes)
  | .whole ty content => .ok (ty, content)
  | .ofs rel delta =>
    if s.offset < rel then .error (.pack (str "pack: ofs-delta base before pack start"))
    else do
      let (ty, base) ← s.baseAt (s.offset - rel)
      let target ← applyDelta base delta
      .ok (ty, target)
  | .ref id delta => do
      let (ty, base) ← s.baseOf resolve id
      let target ← applyDelta base delta
      .ok (ty, target)

variable {z : Zlib} {h : Hasher} {algo : HashAlgo} {data : Bytes} {resolve : ExternalResolver}

/-- The front-to-back reader decodes the entry at its offset to the object it stands for. -/
theorem decodeEntry_ok {s : Exploded} {ty : ObjectType} {content : Bytes} {next : Nat} :
    decodeEntry z algo resolve data s = .ok (ty, content, next) ↔
      ∃ e, EntryAt z algo data s.offset e next ∧ e.object resolve s = .ok (ty, content) := by
  constructor
  · intro hdec
    obtain ⟨⟨ptype, size, hdrLen⟩, header, hdec⟩ := except_bind_ok.mp hdec
    cases ptype with
    | whole t =>
      obtain ⟨⟨c, clen⟩, body, hdec⟩ := except_bind_ok.mp hdec
      cases hdec
      exact ⟨_, .whole header body, rfl⟩
    | ofsDelta =>
      obtain ⟨⟨rel, n⟩, base, hdec⟩ := except_bind_ok.mp hdec
      simp only at hdec
      split at hdec
      · cases hdec
      next hrel =>
      obtain ⟨⟨delta, clen⟩, body, hdec⟩ := except_bind_ok.mp hdec
      obtain ⟨⟨baseTy, b⟩, hb, hdec⟩ := except_bind_ok.mp hdec
      obtain ⟨target, htarget, hdec⟩ := except_bind_ok.mp hdec
      cases hdec
      refine ⟨_, .ofs header base body, ?_⟩
      rw [Entry.object, if_neg hrel]
      exact except_bind_ok.mpr ⟨_, hb, except_bind_ok.mpr ⟨_, htarget, rfl⟩⟩
    | refDelta =>
      obtain ⟨id, base, hdec⟩ := except_bind_ok.mp hdec
      obtain ⟨⟨delta, clen⟩, body, hdec⟩ := except_bind_ok.mp hdec
      obtain ⟨⟨baseTy, b⟩, hb, hdec⟩ := except_bind_ok.mp hdec
      obtain ⟨target, htarget, hdec⟩ := except_bind_ok.mp hdec
      cases hdec
      refine ⟨_, .ref header base body, ?_⟩
      exact except_bind_ok.mpr ⟨_, hb, except_bind_ok.mpr ⟨_, htarget, rfl⟩⟩
  · rintro ⟨e, hat, hobj⟩
    cases hat with
    | whole header body =>
      cases hobj
      exact except_bind_ok.mpr ⟨_, header, except_bind_ok.mpr ⟨_, body, rfl⟩⟩
    | ofs header base body =>
      rw [Entry.object] at hobj
      split at hobj
      · cases hobj
      next hrel =>
      obtain ⟨⟨baseTy, b⟩, hb, hobj⟩ := except_bind_ok.mp hobj
      obtain ⟨target, htarget, hobj⟩ := except_bind_ok.mp hobj
      cases hobj
      refine except_bind_ok.mpr ⟨_, header, except_bind_ok.mpr ⟨_, base, ?_⟩⟩
      simp only
      rw [if_neg hrel]
      exact except_bind_ok.mpr ⟨_, body, except_bind_ok.mpr ⟨_, hb,
        except_bind_ok.mpr ⟨_, htarget, rfl⟩⟩⟩
    | ref header base body =>
      obtain ⟨⟨baseTy, b⟩, hb, hobj⟩ := except_bind_ok.mp hobj
      obtain ⟨target, htarget, hobj⟩ := except_bind_ok.mp hobj
      cases hobj
      exact except_bind_ok.mpr ⟨_, header, except_bind_ok.mpr ⟨_, base, except_bind_ok.mpr
        ⟨_, body, except_bind_ok.mpr ⟨_, hb, except_bind_ok.mpr ⟨_, htarget, rfl⟩⟩⟩⟩⟩

/-- There is one entry at an offset. -/
theorem EntryAt.unique {offset next next' : Nat} {e e' : Entry}
    (ha : EntryAt z algo data offset e next) (hb : EntryAt z algo data offset e' next') :
    e = e' ∧ next = next' := by
  cases ha with
  | whole header body =>
    cases hb with
    | whole header' body' =>
      cases header.symm.trans header'
      cases body.symm.trans body'
      exact ⟨rfl, rfl⟩
    | ofs header' => cases header.symm.trans header'
    | ref header' => cases header.symm.trans header'
  | ofs header base body =>
    cases hb with
    | whole header' => cases header.symm.trans header'
    | ofs header' base' body' =>
      cases header.symm.trans header'
      cases base.symm.trans base'
      cases body.symm.trans body'
      exact ⟨rfl, rfl⟩
    | ref header' => cases header.symm.trans header'
  | ref header base body =>
    cases hb with
    | whole header' => cases header.symm.trans header'
    | ofs header' => cases header.symm.trans header'
    | ref header' base' body' =>
      cases header.symm.trans header'
      cases base.symm.trans base'
      cases body.symm.trans body'
      exact ⟨rfl, rfl⟩

/-- A run records as many objects as it decodes entries. -/
theorem explodeEntries_results : ∀ {count : Nat} {s s' : Exploded},
    explodeEntries z h algo resolve data count s = .ok s' → ∃ more, more.length = count ∧
      s'.results = s.results ++ more := by
  intro count
  induction count with
  | zero =>
    intro s s' hrun
    cases hrun
    exact ⟨[], rfl, (List.append_nil _).symm⟩
  | succ count ih =>
    intro s s' hrun
    obtain ⟨⟨ty, content, next⟩, -, hrun⟩ := except_bind_ok.mp hrun
    obtain ⟨more, hlen, hmore⟩ := ih hrun
    refine ⟨(hashObject h algo ty content, ty, content) :: more, by rw [List.length_cons, hlen], ?_⟩
    rw [hmore]
    show s.results ++ [_] ++ more = _
    rw [List.append_assoc, List.singleton_append]

end Pack

/-- As many objects are read as the header counts. -/
theorem explodePackPrefix_length {z : Zlib} {h : Hasher} {algo : HashAlgo} {data : Bytes}
    {resolve : ExternalResolver} {results : List ExplodedObject} {consumed : Nat}
    (hx : explodePackPrefix z h data algo resolve = .ok (results, consumed)) :
    results.length < 2 ^ 32 := by
  rw [explodePackPrefix] at hx
  split_ifs at hx
  obtain ⟨s, hrun, hx⟩ := except_bind_ok.mp hx
  split_ifs at hx
  cases hx
  obtain ⟨more, hlen, hmore⟩ := Pack.explodeEntries_results hrun
  have hcount := ObjectId.natOfBytes_lt ((data.drop 8).take 4)
  have hfour : 256 ^ ((data.drop 8).take 4).length ≤ 256 ^ 4 :=
    Nat.pow_le_pow_right (by decide) (List.length_take_le 4 _)
  have hstart : Pack.Exploded.start.results = [] := rfl
  rw [hmore, hstart, List.nil_append, hlen]
  omega

namespace Pack

/-! ## The numbers of a pack

Three readers take a number of any length from a pack: the size in front of a delta, the size in the
header of an entry and the distance of a base.  None of them looks at the bits that do not fit.
-/

/-- The size that the header of an entry spells, and the length of the header. -/
def spelledSize (data : Bytes) (offset : Nat) : Option (Nat × Nat) :=
  match data.drop offset with
  | [] => none
  | first :: rest =>
    if first.toNat < 128 then some (first.toNat % 16, 1)
    else (Base128.spelled rest).map fun r =>
      (first.toNat % 16 + 16 * r.1, 1 + (rest.length - r.2.length))

/-- The distance that is spelled somewhere in a pack, and the number of bytes it takes. -/
def spelledOffset (data : Bytes) (start : Nat) : Option (Nat × Nat) :=
  (Base128.spelledBiased (data.drop start)).map fun r =>
    (r.1, (data.drop start).length - r.2.length)

/-- The tag of the entry at an offset is known. -/
def TagAt (data : Bytes) (offset : Nat) : Prop :=
  ∃ first ptype, data[offset]? = some first ∧
    PackObjectType.fromTag (first.toNat / 16 % 8) = .ok ptype

theorem readVarint_ok {data left : Bytes} {v : Nat} : Delta.readVarint data = .ok (v, left) ↔
    ∃ n, Base128.spelled data = some (n, left) ∧ data.length - left.length ≤ 10 ∧
      v = n % 2 ^ 64 := by
  rw [Delta.readVarint, Base128.readGroups_ok (by decide) (by decide)]
  simp only [Nat.zero_add, Nat.pow_zero, Nat.mul_one]
  constructor
  · rintro ⟨n, hn, hlen, hv⟩
    exact ⟨n, hn, by omega, hv⟩
  · rintro ⟨n, hn, hlen, hv⟩
    exact ⟨n, hn, by omega, hv⟩

theorem parseEntryHeaderAt_ok {data : Bytes} {offset size len : Nat} :
    (∃ ptype, parseEntryHeaderAt data offset = .ok (ptype, size, len)) ↔
      ∃ n, spelledSize data offset = some (n, len) ∧ (TagAt data offset ∧ len ≤ 10) ∧
        size = n % 2 ^ 64 := by
  have hfirst : data[offset]? = (data.drop offset)[0]? := by simp
  unfold parseEntryHeaderAt spelledSize TagAt
  rw [hfirst]
  cases data.drop offset with
  | nil => simp
  | cons first rest =>
    have hknown : (∃ first' ptype, (first :: rest)[0]? = some first' ∧
        PackObjectType.fromTag (first'.toNat / 16 % 8) = .ok ptype) ↔
          ∃ ptype, PackObjectType.fromTag (first.toNat / 16 % 8) = .ok ptype := by
      constructor
      · rintro ⟨first', ptype, hfirst', htag⟩
        cases hfirst'
        exact ⟨ptype, htag⟩
      · rintro ⟨ptype, htag⟩
        exact ⟨first, ptype, rfl, htag⟩
    rw [hknown]
    cases htag : PackObjectType.fromTag (first.toNat / 16 % 8) with
    | error e => simp [bind, Except.bind, htag]
    | ok ptype =>
      simp only [bind, Except.bind, htag]
      have hknows : ∃ ptype', Except.ok (ε := Error) ptype = .ok ptype' := ⟨ptype, rfl⟩
      by_cases hlast : first.toNat < 128
      · rw [if_pos hlast, if_pos hlast]
        have hsmall : first.toNat % 16 % 2 ^ 64 = first.toNat % 16 := Nat.mod_eq_of_lt (by omega)
        constructor
        · rintro ⟨ptype', h⟩
          cases h
          exact ⟨_, rfl, ⟨hknows, by decide⟩, hsmall.symm⟩
        · rintro ⟨n, hn, -, rfl⟩
          cases hn
          exact ⟨ptype, by rw [hsmall]⟩
      · rw [if_neg hlast, if_neg hlast]
        have hread : ∀ {v : Nat} {left : Bytes},
          Base128.readGroups (Error.pack (str "pack: truncated entry header"))
            (.pack (str "pack: size varint overflow")) rest (first.toNat % 16) 4 = .ok (v, left) ↔
            ∃ n, Base128.spelled rest = some (n, left) ∧ 4 + 7 * (rest.length - left.length) < 71 ∧
              v = (first.toNat % 16 + n * 2 ^ 4) % 2 ^ 64 :=
          Base128.readGroups_ok (by omega) (by omega)
        constructor
        · rintro ⟨ptype', h⟩
          obtain ⟨⟨v, left⟩, hv, h⟩ := except_bind_ok.mp h
          cases h
          obtain ⟨n, hn, hlen, rfl⟩ := hread.mp hv
          refine ⟨_, by rw [hn]; rfl, ⟨hknows, ?_⟩, ?_⟩
          · show 1 + (rest.length - left.length) ≤ 10
            omega
          · show (first.toNat % 16 + n * 2 ^ 4) % 2 ^ 64 = (first.toNat % 16 + 16 * n) % 2 ^ 64
            rw [Nat.mul_comm n]
            rfl
        · rintro ⟨n, hn, ⟨-, hlen⟩, rfl⟩
          obtain ⟨⟨m, left⟩, hm, hn⟩ := Option.map_eq_some_iff.mp hn
          cases hn
          have hfits : 4 + 7 * (rest.length - left.length) < 71 := by
            have hlen' : 1 + (rest.length - left.length) ≤ 10 := hlen
            omega
          refine ⟨ptype, except_bind_ok.mpr ⟨_, hread.mpr ⟨m, hm, hfits, rfl⟩, ?_⟩⟩
          rw [Nat.mul_comm m]
          rfl

theorem readOffsetVarint_ok {data : Bytes} {start v len : Nat} :
    readOffsetVarint data start = .ok (v, len) ↔
    ∃ n, spelledOffset data start = some (n, len) ∧ True ∧ v = n % 2 ^ 64 := by
  unfold readOffsetVarint spelledOffset
  constructor
  · intro h
    obtain ⟨⟨value, left⟩, hvalue, h⟩ := except_bind_ok.mp h
    cases h
    obtain ⟨n, hn, rfl⟩ := Base128.readBiased_ok.mp hvalue
    exact ⟨n, by rw [hn]; rfl, trivial, rfl⟩
  · rintro ⟨n, hn, -, rfl⟩
    obtain ⟨⟨m, left⟩, hm, hn⟩ := Option.map_eq_some_iff.mp hn
    cases hn
    exact except_bind_ok.mpr ⟨_, Base128.readBiased_ok.mpr ⟨m, hm, rfl⟩, rfl⟩

/-- What is read modulo `2 ^ 64` is what is spelled, if that is below. -/
theorem exact_iff {α : Type} {Reads : Nat → α → Prop} {spelled : Option (Nat × α)} {P : α → Prop}
    (h : ∀ v x, Reads v x ↔ ∃ n, spelled = some (n, x) ∧ P x ∧ v = n % 2 ^ 64) :
    (∀ v x, Reads v x → spelled = some (v, x)) ↔ ∀ n x, spelled = some (n, x) → P x →
      n < 2 ^ 64 := by
  constructor
  · intro hexact n x hn hx
    have hread := hexact _ _ ((h (n % 2 ^ 64) x).mpr ⟨n, hn, hx, rfl⟩)
    rw [hn] at hread
    have hsame : n = n % 2 ^ 64 := congrArg Prod.fst (Option.some.inj hread)
    omega
  · intro hsmall v x hv
    obtain ⟨n, hn, hx, rfl⟩ := (h v x).mp hv
    rwa [Nat.mod_eq_of_lt (hsmall n x hn hx)]

/-- **A reader gives what the bytes spell where that is below `2 ^ 64`**, or where it refuses them:
a size of more than ten bytes or an unknown tag. -/
theorem numbers_exact_iff (data : Bytes) :
    ((∀ v left, Delta.readVarint data = .ok (v, left) → Base128.spelled data = some (v, left)) ↔
      ∀ n left, Base128.spelled data = some (n, left) →
        data.length - left.length ≤ 10 → n < 2 ^ 64) ∧
    (∀ offset,
      (∀ size len, (∃ ptype, parseEntryHeaderAt data offset = .ok (ptype, size, len)) →
        spelledSize data offset = some (size, len)) ↔
      ∀ n len, spelledSize data offset = some (n, len) → TagAt data offset ∧
        len ≤ 10 → n < 2 ^ 64) ∧
    ∀ start,
      (∀ v len, readOffsetVarint data start = .ok (v, len) →
        spelledOffset data start = some (v, len)) ↔
      ∀ n len, spelledOffset data start = some (n, len) → n < 2 ^ 64 := by
  refine ⟨?_, fun offset => ?_, fun start => ?_⟩
  · exact exact_iff (P := fun left : Bytes => data.length - left.length ≤ 10) fun _
      _ => readVarint_ok
  · exact exact_iff (P := fun len => TagAt data offset ∧ len ≤ 10) fun _ _ => parseEntryHeaderAt_ok
  · rw [exact_iff fun _ _ => readOffsetVarint_ok]
    simp only [forall_const]

/-- Bits are lost at the end of a size of a delta, of an entry, and of a distance. -/
theorem not_numbers_exact :
    (¬ ∀ data v left, Delta.readVarint data = .ok (v, left) →
      Base128.spelled data = some (v, left)) ∧
    (¬ ∀ data offset ptype size len, parseEntryHeaderAt data offset = .ok (ptype, size, len) →
      spelledSize data offset = some (size, len)) ∧
    ¬ ∀ data start v len, readOffsetVarint data start = .ok (v, len) →
      spelledOffset data start = some (v, len) := by
  refine ⟨fun h => ?_, fun h => ?_, fun h => ?_⟩
  · exact absurd (h (List.replicate 9 0x80 ++ [2]) 0 [] (by decide)) (by decide)
  · exact absurd (h (0xb0 :: (List.replicate 8 0x80 ++ [16])) 0 (.whole .blob) 0 10
      (by decide))
      (by decide)
  · exact absurd (h (0x81 :: (List.replicate 8 0x80 ++ [0])) 0 0x102040810204080 10
      (by decide))
      (by decide)

end Pack

end Puregit
