import Puregit.Pack.Writer

/-! # What was written is read back

`finish` writes an entry at a time and the front-to-back reader decodes an entry at a
time.  `Mirrors` relates the two while they run: the reader is at the end of what the
writer wrote, knows every whole object at the offset the writer noted for it, and knows
every object so far by its id.  `decodeEntry_writeObject` is the step: the entry the
writer appends is the entry the reader decodes there, whatever encoding was chosen.  The
one thing that can go wrong is the base of a delta by id, which the reader finds among
the objects before it or outside of the pack, or not at all.
-/
namespace Puregit
open Pack

/-! ## Single entries -/

theorem parseEntryHeaderAt_entryHeader {tag size : Nat} {ptype : PackObjectType}
    (htag : PackObjectType.fromTag tag = .ok ptype) (h8 : tag < 8) (hsize : size < 2 ^ 64)
    (pre rest : Bytes) :
    parseEntryHeaderAt (pre ++ (PackWriter.entryHeader tag size ++ rest)) pre.length =
      .ok (ptype, size, (PackWriter.entryHeader tag size).length) := by
  rw [parseEntryHeaderAt, List.drop_left, PackWriter.entryHeader]
  split_ifs with hq
  · have hbyte : (UInt8.ofNat (tag * 16 + size % 16)).toNat = tag * 16 + size % 16 :=
      UInt8.toNat_ofNat_of_lt' (by
        show tag * 16 + size % 16 < 256
        omega)
    have hty : (tag * 16 + size % 16) / 16 % 8 = tag := by omega
    have hlow : (tag * 16 + size % 16) % 16 = size := by omega
    show (PackObjectType.fromTag _ >>= _) = _
    rw [hbyte, hty, htag]
    show (if tag * 16 + size % 16 < 128 then _ else _) = _
    rw [if_pos (by omega), hlow]
    rfl
  · have hbyte : (UInt8.ofNat (128 + tag * 16 + size % 16)).toNat = 128 + tag * 16 + size % 16 :=
      UInt8.toNat_ofNat_of_lt' (by
        show 128 + tag * 16 + size % 16 < 256
        omega)
    have hty : (128 + tag * 16 + size % 16) / 16 % 8 = tag := by omega
    have hlow : (128 + tag * 16 + size % 16) % 16 = size % 16 := by omega
    have hsum : size % 16 + size / 16 * 2 ^ 4 = size := by omega
    have hfour : size % 16 < 2 ^ 4 := by omega
    have hread := Base128.readGroups_groups (Error.pack (str "pack: truncated entry header"))
      (.pack (str "pack: size varint overflow")) rest (size / 16) hfour (by omega) (by omega)
    rw [List.cons_append]
    show (PackObjectType.fromTag _ >>= _) = _
    rw [hbyte, hty, htag]
    show (if 128 + tag * 16 + size % 16 < 128 then _ else _) = _
    rw [if_neg (by omega), hlow, hread, hsum]
    show Except.ok _ = Except.ok _
    rw [List.length_append, Nat.add_sub_cancel, List.length_cons, Nat.add_comm 1]

theorem readOffsetVarint_biased {n : Nat} (hn : n < 2 ^ 64) (pre rest : Bytes) :
    readOffsetVarint (pre ++ (Base128.biased n ++ rest)) pre.length =
      .ok (n, (Base128.biased n).length) := by
  rw [readOffsetVarint, List.drop_left, Base128.readBiased_biased _ rest hn]
  show Except.ok _ = _
  rw [List.length_append, Nat.add_sub_cancel]

theorem readBaseId_bytes (id : ObjectId) (pre rest : Bytes) :
    readBaseId id.algo (pre ++ (id.bytes ++ rest)) pre.length = .ok id := by
  rw [readBaseId, if_neg (by rw [List.length_append, List.length_append, id.length_eq]; omega),
    List.drop_left, List.take_left' id.length_eq, ObjectId.fromBytes, dif_pos id.length_eq]

variable {z : Zlib}

/-- A whole object, written behind `pre`, is the entry there. -/
theorem entryAt_whole (hz : z.Exact) (algo : HashAlgo) {ty : ObjectType} {payload raw : Bytes}
    (hraw : z.deflate payload = .ok raw) (hsize : payload.length < 2 ^ 64) (pre rest : Bytes) :
    EntryAt z algo
      (pre ++ (PackWriter.entryHeader (PackWriter.packTag ty) payload.length ++ raw) ++ rest)
      pre.length (.whole ty payload)
      (pre ++ (PackWriter.entryHeader (PackWriter.packTag ty) payload.length ++ raw)).length := by
  have htag : PackObjectType.fromTag (PackWriter.packTag ty) = .ok (.whole ty) := by
    cases ty <;> rfl
  have h8 : PackWriter.packTag ty < 8 := by cases ty <;> decide
  have header := parseEntryHeaderAt_entryHeader htag h8 hsize pre (raw ++ rest)
  have hdrop : (pre ++ (PackWriter.entryHeader (PackWriter.packTag ty) payload.length ++
      (raw ++ rest))).drop
      (pre.length + (PackWriter.entryHeader (PackWriter.packTag ty) payload.length).length) =
      raw ++ rest := by
    rw [← List.append_assoc, ← List.length_append, List.drop_left]
  have body := hz payload raw rest hraw
  rw [← hdrop] at body
  have hat : EntryAt z algo _ _ _ _ := EntryAt.whole header body
  rwa [List.length_append, List.length_append, ← Nat.add_assoc, List.append_assoc,
    List.append_assoc]

namespace PackWriter

/-- What a delta against a base spells. -/
def BaseRef.entry (delta : Bytes) : BaseRef → Pack.Entry
  | ofs distance => .ofs distance delta
  | ref id => .ref id delta

/-- A delta, written behind `pre`, is the entry there. -/
theorem entryAt_delta (hz : z.Exact) (algo : HashAlgo) (name : BaseRef) {delta zdelta : Bytes}
    (hdelta : z.deflate delta = .ok zdelta) (hsize : delta.length < 2 ^ 64)
    (hofs : ∀ d, name = .ofs d → d < 2 ^ 64) (href : ∀ id, name = .ref id → id.algo = algo)
    (pre rest : Bytes) :
    EntryAt z algo (pre ++ (entryHeader name.tag delta.length ++ (name.bytes ++ zdelta)) ++ rest)
      pre.length (name.entry delta)
      (pre ++ (entryHeader name.tag delta.length ++ (name.bytes ++ zdelta))).length := by
  have hpre : pre ++ (entryHeader name.tag delta.length ++ (name.bytes ++ zdelta)) ++ rest =
      pre ++ (entryHeader name.tag delta.length ++ (name.bytes ++ (zdelta ++ rest))) := by
    simp only [List.append_assoc]
  have hmid : pre ++ (entryHeader name.tag delta.length ++ (name.bytes ++ (zdelta ++ rest))) =
      pre ++ entryHeader name.tag delta.length ++ (name.bytes ++ (zdelta ++ rest)) := by
    simp only [List.append_assoc]
  have hdrop : (pre ++ (entryHeader name.tag delta.length ++ (name.bytes ++ (zdelta ++ rest)))).drop
      (pre.length + (entryHeader name.tag delta.length).length + name.bytes.length) =
      zdelta ++ rest := by
    rw [hmid, ← List.append_assoc, ← List.length_append, ← List.length_append, List.drop_left]
  have body := hz delta zdelta rest hdelta
  rw [← hdrop] at body
  have hlen : (pre ++ (entryHeader name.tag delta.length ++ (name.bytes ++ zdelta))).length =
      pre.length + (entryHeader name.tag delta.length).length + name.bytes.length +
        zdelta.length := by
    simp only [List.length_append]
    omega
  rw [hpre, hlen]
  cases name with
  | ofs distance =>
    have htag : PackObjectType.fromTag 6 = .ok .ofsDelta := rfl
    have header := parseEntryHeaderAt_entryHeader htag (by decide) hsize pre
      (BaseRef.bytes (.ofs distance) ++ (zdelta ++ rest))
    have base := readOffsetVarint_biased (hofs distance rfl)
      (pre ++ entryHeader 6 delta.length) (zdelta ++ rest)
    rw [List.length_append, List.append_assoc] at base
    exact EntryAt.ofs header base body
  | ref id =>
    have htag : PackObjectType.fromTag 7 = .ok .refDelta := rfl
    have header := parseEntryHeaderAt_entryHeader htag (by decide) hsize pre
      (BaseRef.bytes (.ref id) ++ (zdelta ++ rest))
    have base := readBaseId_bytes id (pre ++ entryHeader 7 delta.length) (zdelta ++ rest)
    have hbytes : (BaseRef.bytes (.ref id)).length = algo.rawLen := by
      rw [← href id rfl]
      exact id.length_eq
    rw [List.length_append, List.append_assoc, href id rfl] at base
    rw [hbytes] at body ⊢
    exact EntryAt.ref header base body

/-! ## The chosen encoding -/

/-- What is chosen is the delta against one of the candidates. -/
theorem consider_some {raw payload : Bytes} : ∀ {cs : List Candidate} {best : Option Encoding}
    {b : Encoding}, consider z raw payload cs best = .ok (some b) →
    best = some b ∨ ∃ c ∈ cs, encode z payload c = .ok b := by
  intro cs
  induction cs with
  | nil =>
    intro best b h
    cases h
    exact Or.inl rfl
  | cons c cs ih =>
    intro best b h
    obtain ⟨enc, henc, h⟩ := except_bind_ok.mp h
    rcases ih h with hbest | ⟨c', hc', hb⟩
    · split at hbest
      · cases hbest
        exact Or.inr ⟨c, List.mem_cons_self, henc⟩
      · exact Or.inl hbest
    · exact Or.inr ⟨c', List.mem_cons_of_mem c hc', hb⟩

theorem choose_some {w : PackWriter} {bases : List BaseCand} {offset : Nat} {e : PackEntry}
    {raw : Bytes} {b : Encoding} (h : w.choose z bases offset e raw = .ok (some b)) :
    e.payload.length ≤ maxDeltaSize ∧
      ∃ c ∈ w.candidates bases e.ty offset, encode z e.payload c = .ok b := by
  rw [choose] at h
  split at h
  · next hsize =>
    rcases consider_some h with hnone | hc
    · cases hnone
    · exact ⟨hsize, hc⟩
  · cases h

theorem mem_ofsCandidates {bases : List BaseCand} {ty : ObjectType} {offset : Nat}
    {c : Candidate} (h : c ∈ ofsCandidates bases ty offset) : ∃ b ∈ bases, b.ty = ty ∧
      b.payload.length ≤ maxDeltaSize ∧ c = ⟨b.payload, .ofs (offset - b.offset)⟩ := by
  obtain ⟨b, hb, hc⟩ := List.mem_filterMap.mp h
  obtain ⟨hb, hty⟩ := List.mem_filter.mp (List.mem_of_mem_take hb)
  split at hc
  · cases hc
  · next hsize =>
    cases hc
    exact ⟨b, List.mem_reverse.mp hb, by simpa using hty, by omega, rfl⟩

theorem mem_externalWindow {externalBases : List PackEntry} {ty : ObjectType} {b : PackEntry}
    (h : b ∈ externalWindow externalBases ty) :
    b ∈ externalBases ∧ b.ty = ty ∧ b.payload.length ≤ maxDeltaSize := by
  obtain ⟨hb, hcond⟩ := List.mem_filter.mp (List.mem_of_mem_take h)
  rw [Bool.and_eq_true, decide_eq_true_iff, decide_eq_true_iff] at hcond
  exact ⟨hb, hcond⟩

theorem encode_ok {payload : Bytes} {c : Candidate} {b : Encoding}
    (h : encode z payload c = .ok b) : b.cand = c ∧
      z.deflate (createDelta c.base payload) = .ok b.zdelta ∧
      b.deltaLen = (createDelta c.base payload).length := by
  obtain ⟨zdelta, hz, rfl⟩ := except_map_ok.mp h
  exact ⟨rfl, hz, rfl⟩

/-! ## The step -/

variable {w : PackWriter} {resolve : ExternalResolver}

/-- The reader `x` has read what the writer wrote, the objects of `done`. -/
structure Mirrors (s : Written) (x : Exploded) (done : List PackEntry) : Prop where
  offset : x.offset = s.pack.length
  results : x.results = done.map fun e => (e.id, e.ty, e.payload)
  bases : ∀ c ∈ s.bases, c.offset < s.pack.length ∧
    x.byOffset.get? c.offset = some (c.ty, c.payload)
  byId : ∀ id ty payload, x.byId.get? id = some (ty, payload) ↔ ⟨id, ty, payload⟩ ∈ done

/-- An object is written as a delta against an external base, when the writer is at `s`. -/
def Refers (z : Zlib) (w : PackWriter) (s : Written) (e b : PackEntry) : Prop :=
  b ∈ externalWindow w.externalBases e.ty ∧ ∃ raw enc, z.deflate e.payload = .ok raw ∧
    w.choose z s.bases s.pack.length e raw = .ok (some enc) ∧ enc.cand = ⟨b.payload, .ref b.id⟩

theorem writeObject_pack {s s' : Written} {e : PackEntry} (h : w.writeObject z s e = .ok s') :
    ∃ entry, entry ≠ [] ∧ s'.pack = s.pack ++ entry := by
  have hne : ∀ tag size, entryHeader tag size ≠ [] := by
    intro tag size
    rw [entryHeader]
    split <;> simp
  obtain ⟨raw, -, h⟩ := except_bind_ok.mp h
  obtain ⟨best, -, h⟩ := except_bind_ok.mp h
  cases best with
  | some b =>
    cases h
    exact ⟨_, by simp [hne], rfl⟩
  | none =>
    cases h
    exact ⟨_, by simp [hne], rfl⟩

/-- What the writer appended for an object: the object itself, or a delta against a whole object
of the pack or against an external base. -/
inductive Appended (z : Zlib) (w : PackWriter) (s : Written) (e : PackEntry) (s' : Written) :
    Pack.Entry → Prop
  | whole (bases : s'.bases = s.bases ++ [⟨e.ty, s.pack.length, e.payload⟩])
      (alone : ∀ b, ¬ Refers z w s e b) : Appended z w s e s' (.whole e.ty e.payload)
  | ofs {b : BaseCand} {delta : Bytes} (bases : s'.bases = s.bases) (mem : b ∈ s.bases)
    (ty : b.ty = e.ty)
      (apply : applyDelta b.payload delta = .ok e.payload) (alone : ∀ b, ¬ Refers z w s e b) :
      Appended z w s e s' (.ofs (s.pack.length - b.offset) delta)
  | ref {b : PackEntry} {delta : Bytes} (refers : Refers z w s e b) (ty : b.ty = e.ty)
      (apply : applyDelta b.payload delta = .ok e.payload) : Appended z w s e s' (.ref b.id delta)

/-- **Writing an object appends an entry for it**, and notes where. -/
theorem writeObject_appends (hz : z.Exact) {s s' : Written} {e : PackEntry}
    (hwrite : w.writeObject z s e = .ok s') (hsize : e.payload.length < 2 ^ 64)
    (hpack : s'.pack.length < 2 ^ 64) (hids : ∀ b ∈ w.externalBases, b.id.algo = w.algo) :
    ∃ entry crc, s'.index = s.index ++ [(e.id, s.pack.length, crc)] ∧ Appended z w s e s' entry ∧
      ∀ tail, EntryAt z w.algo (s'.pack ++ tail) s.pack.length entry s'.pack.length := by
  obtain ⟨raw, hraw, hwrite⟩ := except_bind_ok.mp hwrite
  obtain ⟨best, hbest, hwrite⟩ := except_bind_ok.mp hwrite
  -- an external base is referred to by what was chosen, or not at all
  have hrefers : ∀ b, Refers z w s e b → ∃ enc, best = some enc ∧
      enc.cand = ⟨b.payload, .ref b.id⟩ := by
    rintro b ⟨-, raw', enc, hraw', henc, hcand⟩
    cases hraw.symm.trans hraw'
    exact ⟨enc, Except.ok.inj (hbest.symm.trans henc), hcand⟩
  cases best with
  | none =>
    cases hwrite
    refine ⟨_, _, rfl, .whole rfl fun b hb => ?_, entryAt_whole hz w.algo hraw hsize s.pack⟩
    obtain ⟨enc, henc, -⟩ := hrefers b hb
    cases henc
  | some enc =>
    cases hwrite
    obtain ⟨hsmall, c, hc, henc⟩ := choose_some hbest
    obtain ⟨rfl, hdelta, hlen⟩ := encode_ok henc
    have hbound := Delta.length_createDelta_le enc.cand.base e.payload
    have hmax : maxDeltaSize = 1048576 := rfl
    have hbasesize : enc.cand.base.length ≤ maxDeltaSize := by
      rcases List.mem_append.mp hc with hc | hc
      · obtain ⟨b, -, -, hb, heq⟩ := mem_ofsCandidates hc
        rwa [heq]
      · obtain ⟨b, hb, heq⟩ := List.mem_map.mp hc
        rw [← heq]
        exact (mem_externalWindow hb).2.2
    have happly : applyDelta enc.cand.base (createDelta enc.cand.base e.payload) =
        .ok e.payload :=
      applyDelta_scan _ (by omega) (by rw [Delta.maxTargetSize]; omega)
    have hentry := entryAt_delta hz w.algo enc.cand.name hdelta (by omega)
      (by
        intro d hd
        rcases List.mem_append.mp hc with hc | hc
        · obtain ⟨b, -, -, -, heq⟩ := mem_ofsCandidates hc
          rw [heq] at hd
          cases hd
          have hgrow : s.pack.length ≤ (s.pack ++ (entryHeader enc.cand.name.tag enc.deltaLen ++
              (enc.cand.name.bytes ++ enc.zdelta))).length := by
            rw [List.length_append]
            omega
          simp only at hpack
          omega
        · obtain ⟨b, -, heq⟩ := List.mem_map.mp hc
          rw [← heq] at hd
          cases hd)
      (by
        intro id hid
        rcases List.mem_append.mp hc with hc | hc
        · obtain ⟨b, -, -, -, heq⟩ := mem_ofsCandidates hc
          rw [heq] at hid
          cases hid
        · obtain ⟨b, hb, heq⟩ := List.mem_map.mp hc
          rw [← heq] at hid
          cases hid
          exact hids b (mem_externalWindow hb).1)
      s.pack
    rw [← hlen] at hentry
    refine ⟨_, _, rfl, ?_, hentry⟩
    rcases List.mem_append.mp hc with hc | hc
    · obtain ⟨b, hb, hty, -, heq⟩ := mem_ofsCandidates hc
      rw [heq] at happly
      rw [heq]
      refine .ofs rfl hb hty happly fun b' hb' => ?_
      obtain ⟨enc', henc', hcand⟩ := hrefers b' hb'
      cases henc'
      rw [heq] at hcand
      cases congrArg Candidate.name hcand
    · obtain ⟨b, hb, heq⟩ := List.mem_map.mp hc
      have href : enc.cand = ⟨b.payload, .ref b.id⟩ := heq.symm
      rw [href] at happly
      rw [href]
      exact .ref ⟨hb, raw, enc, hraw, hbest, href⟩ (mem_externalWindow hb).2.1 happly

/-- What the writer appends is an entry for the object, and with the bases the reader knows
it stands for the object, unless it names a base by id: then the base has to be found. -/
theorem entryAt_writeObject (resolve : ExternalResolver) (hz : z.Exact) {s s' : Written}
    {x : Exploded} {done : List PackEntry} {e : PackEntry} (hm : Mirrors s x done)
    (hwrite : w.writeObject z s e = .ok s') (hsize : e.payload.length < 2 ^ 64)
    (hpack : s'.pack.length < 2 ^ 64) (hids : ∀ b ∈ w.externalBases, b.id.algo = w.algo)
    (tail : Bytes) :
    ∃ entry, EntryAt z w.algo (s'.pack ++ tail) x.offset entry s'.pack.length ∧
      ((entry.object resolve x = .ok (e.ty, e.payload) ∧ ∀ b, ¬ Refers z w s e b) ∨
        ∃ b delta, Refers z w s e b ∧ entry = .ref b.id delta ∧
          applyDelta b.payload delta = .ok e.payload ∧ b.ty = e.ty) := by
  obtain ⟨entry, crc, -, happended, hat⟩ := writeObject_appends hz hwrite hsize hpack hids
  rw [hm.offset]
  refine ⟨entry, hat tail, ?_⟩
  cases happended with
  | whole bases alone => exact Or.inl ⟨rfl, alone⟩
  | @ofs b delta bases mem ty apply alone =>
    obtain ⟨hlt, hget⟩ := hm.bases b mem
    have hbase : x.baseAt (x.offset - (s.pack.length - b.offset)) = .ok (e.ty, b.payload) := by
      have hback : x.offset - (s.pack.length - b.offset) = b.offset := by
        rw [hm.offset]
        omega
      rw [hback, Exploded.baseAt, hget, ty]
    refine Or.inl ⟨?_, alone⟩
    rw [Pack.Entry.object, if_neg (by rw [hm.offset]; omega), hbase]
    show (applyDelta _ _ >>= _) = _
    rw [apply]
    rfl
  | @ref b delta refers ty apply => exact Or.inr ⟨b, delta, refers, rfl, apply, ty⟩

/-- The base of a delta by id is known: an object before it has the id, or there is one outside
of the pack. -/
def Known (resolve : ExternalResolver) (done : List PackEntry) (b : PackEntry) : Prop :=
  (∃ e ∈ done, e.id = b.id) ∨ ∃ r, resolve b.id = .ok r

/-- What is assumed of the objects of a writer and of the objects outside of the pack: an id
that names an external base names that object only. -/
structure Honest (w : PackWriter) (resolve : ExternalResolver) : Prop where
  queued : ∀ b ∈ w.externalBases, ∀ e ∈ w.entries, e.id = b.id → e.ty = b.ty ∧ e.payload = b.payload
  outside : ∀ b ∈ w.externalBases, ∀ r, resolve b.id = .ok r → r = (b.ty, b.payload)

theorem Mirrors.baseOf {s : Written} {x : Exploded} {done : List PackEntry} {b : PackEntry}
    (hm : Mirrors s x done) (hh : Honest w resolve) (hdone : ∀ e ∈ done, e ∈ w.entries)
    (hb : b ∈ w.externalBases) :
    (∀ r, x.baseOf resolve b.id = .ok r → r = (b.ty, b.payload)) ∧
      ((∃ r, x.baseOf resolve b.id = .ok r) ↔ Known resolve done b) := by
  cases hget : x.byId.get? b.id with
  | some r =>
    obtain ⟨ty, payload⟩ := r
    have hmem : ⟨b.id, ty, payload⟩ ∈ done := (hm.byId b.id ty payload).mp hget
    obtain ⟨hty, hpayload⟩ := hh.queued b hb _ (hdone _ hmem) rfl
    have hbase : x.baseOf resolve b.id = .ok (ty, payload) := by rw [Exploded.baseOf, hget]
    simp only at hty hpayload
    constructor
    · intro r hr
      rw [hbase] at hr
      cases hr
      rw [hty, hpayload]
    · exact iff_of_true ⟨_, hbase⟩ (Or.inl ⟨_, hmem, rfl⟩)
  | none =>
    have hbase : x.baseOf resolve b.id = resolve b.id := by rw [Exploded.baseOf, hget]
    rw [hbase]
    refine ⟨hh.outside b hb, ?_⟩
    constructor
    · exact Or.inr
    · rintro (⟨e, he, hid⟩ | hr)
      · obtain ⟨id, ty, payload⟩ := e
        have hsome : x.byId.get? id = some (ty, payload) := (hm.byId id ty payload).mpr he
        simp only at hid
        rw [hid, hget] at hsome
        cases hsome
      · exact hr

/-- **The step.**  The reader decodes what the writer appended to the object it is, exactly
when the external base it refers to, if any, is known. -/
theorem decodeEntry_writeObject (hz : z.Exact) (hh : Honest w resolve) {s s' : Written}
    {x : Exploded} {done : List PackEntry} {e : PackEntry} (hm : Mirrors s x done)
    (hwrite : w.writeObject z s e = .ok s') (hdone : ∀ e ∈ done, e ∈ w.entries)
    (hsize : e.payload.length < 2 ^ 64) (hpack : s'.pack.length < 2 ^ 64)
    (hids : ∀ b ∈ w.externalBases, b.id.algo = w.algo) (tail : Bytes) :
    (∀ r, decodeEntry z w.algo resolve (s'.pack ++ tail) x = .ok r →
        r = (e.ty, e.payload, s'.pack.length)) ∧
      ((∃ r, decodeEntry z w.algo resolve (s'.pack ++ tail) x = .ok r) ↔
        ∀ b, Refers z w s e b → Known resolve done b) := by
  obtain ⟨entry, hat, hcase⟩ :=
    entryAt_writeObject resolve hz hm hwrite hsize hpack hids tail
  have hdecode : ∀ ty content next, decodeEntry z w.algo resolve (s'.pack ++ tail) x =
      .ok (ty, content, next) ↔ next = s'.pack.length ∧
        entry.object resolve x = .ok (ty, content) := by
    intro ty content next
    rw [decodeEntry_ok]
    constructor
    · rintro ⟨entry', hat', hobj⟩
      obtain ⟨rfl, rfl⟩ := hat.unique hat'
      exact ⟨rfl, hobj⟩
    · rintro ⟨rfl, hobj⟩
      exact ⟨entry, hat, hobj⟩
  rcases hcase with ⟨hobj, hnone⟩ | ⟨b, delta, href, rfl, happly, hty⟩
  · constructor
    · rintro ⟨ty, content, next⟩ hr
      obtain ⟨rfl, hobj'⟩ := (hdecode ty content next).mp hr
      cases hobj.symm.trans hobj'
      rfl
    · exact iff_of_true ⟨_, (hdecode _ _ _).mpr ⟨rfl, hobj⟩⟩ fun b hb => absurd hb (hnone b)
  · have hb : b ∈ w.externalBases := (mem_externalWindow href.1).1
    obtain ⟨hhonest, hknown⟩ := hm.baseOf hh hdone hb
    have hobject : ∀ r, Pack.Entry.object resolve x (.ref b.id delta) = .ok r ↔
        r = (e.ty, e.payload) ∧ ∃ r, x.baseOf resolve b.id = .ok r := by
      intro r
      constructor
      · intro hr
        obtain ⟨base, hbase, hr⟩ := except_bind_ok.mp hr
        cases hhonest base hbase
        obtain ⟨target, htarget, hr⟩ := except_bind_ok.mp hr
        cases happly.symm.trans htarget
        cases hr
        exact ⟨by rw [hty], _, hbase⟩
      · rintro ⟨rfl, base, hbase⟩
        cases hhonest base hbase
        exact except_bind_ok.mpr ⟨_, hbase, except_bind_ok.mpr ⟨_, happly, by rw [hty]⟩⟩
    constructor
    · rintro ⟨ty, content, next⟩ hr
      obtain ⟨rfl, hobj'⟩ := (hdecode ty content next).mp hr
      obtain ⟨heq, -⟩ := (hobject _).mp hobj'
      cases heq
      rfl
    · constructor
      · rintro ⟨⟨ty, content, next⟩, hr⟩ b' hb'
        obtain ⟨-, hobj'⟩ := (hdecode ty content next).mp hr
        have hid : b'.id = b.id := by
          obtain ⟨-, raw, enc, hraw, henc, hcand⟩ := href
          obtain ⟨-, raw', enc', hraw', henc', hcand'⟩ := hb'
          cases hraw.symm.trans hraw'
          cases henc.symm.trans henc'
          have hname : BaseRef.ref b'.id = BaseRef.ref b.id :=
            congrArg Candidate.name (hcand'.symm.trans hcand)
          exact BaseRef.ref.inj hname
        have hk := hknown.mp ((hobject _).mp hobj').2
        rwa [Known, ← hid] at hk
      · intro hall
        have hbase := hknown.mpr (hall b href)
        exact ⟨_, (hdecode _ _ _).mpr ⟨rfl, (hobject _).mpr ⟨rfl, hbase⟩⟩⟩

/-- The reader stays with the writer. -/
theorem Mirrors.record {s s' : Written} {x : Exploded} {done : List PackEntry} {e : PackEntry}
    (hm : Mirrors s x done) (hwrite : w.writeObject z s e = .ok s')
    (hnew : ∀ c ∈ done, c.id ≠ e.id) :
    Mirrors s' (x.record e.id e.ty e.payload s'.pack.length) (done ++ [e]) where
  offset := rfl
  results := by
    show x.results ++ _ = _
    rw [hm.results, List.map_append]
    rfl
  bases := by
    obtain ⟨entry, hne, hpack⟩ := writeObject_pack hwrite
    have hpos : 0 < entry.length := List.length_pos_iff.mpr hne
    have hlen : s.pack.length < s'.pack.length := by
      rw [hpack, List.length_append]
      omega
    have hold : ∀ c ∈ s.bases, c.offset < s'.pack.length ∧
        (x.byOffset.insert x.offset (e.ty, e.payload)).get? c.offset = some (c.ty, c.payload) := by
      intro c hc
      obtain ⟨hlt, hget⟩ := hm.bases c hc
      have hne : c.offset ≠ x.offset := by
        rw [hm.offset]
        omega
      exact ⟨by omega, by rw [BTreeMap.get?_insert, if_neg hne, hget]⟩
    obtain ⟨raw, -, hwrite⟩ := except_bind_ok.mp hwrite
    obtain ⟨best, -, hwrite⟩ := except_bind_ok.mp hwrite
    intro c hc
    cases best with
    | some b =>
      cases hwrite
      exact hold c hc
    | none =>
      cases hwrite
      rcases List.mem_append.mp hc with hc | hc
      · exact hold c hc
      · rw [List.mem_singleton] at hc
        subst hc
        refine ⟨hlen, ?_⟩
        show (x.byOffset.insert x.offset (e.ty, e.payload)).get? s.pack.length = _
        rw [BTreeMap.get?_insert, if_pos hm.offset.symm]
  byId := by
    intro id ty payload
    show (x.byId.insert e.id (e.ty, e.payload)).get? id = _ ↔ _
    rw [BTreeMap.get?_insert, List.mem_append, List.mem_singleton]
    split
    · next hid =>
      subst hid
      constructor
      · intro h
        cases h
        exact Or.inr rfl
      · rintro (h | h)
        · exact absurd rfl (hnew ⟨e.id, ty, payload⟩ h)
        · rw [← h]
    · next hid =>
      rw [hm.byId]
      constructor
      · exact Or.inl
      · rintro (h | h)
        · exact h
        · cases h
          exact absurd rfl hid

/-! ## The run -/

/-- Every external base that an object is written against is known when the object is read. -/
def Resolvable (z : Zlib) (w : PackWriter) (resolve : ExternalResolver) :
    List PackEntry → Written → List PackEntry → Prop
  | _, _, [] => True
  | done, s, e :: es => (∀ b, Refers z w s e b → Known resolve done b) ∧
      ∀ s', w.writeObject z s e = .ok s' → Resolvable z w resolve (done ++ [e]) s' es

theorem foldlM_writeObject_pack {es : List PackEntry} {s s' : Written}
    (h : es.foldlM (w.writeObject z) s = .ok s') : ∃ more, s'.pack = s.pack ++ more := by
  refine except_foldlM_inv (P := fun s' => ∃ more, s'.pack = s.pack ++ more) ?_ ⟨[], by simp⟩ h
  intro s₁ ⟨more, hmore⟩ e _ s₂ hwrite
  obtain ⟨entry, -, hpack⟩ := writeObject_pack hwrite
  exact ⟨more ++ entry, by rw [hpack, hmore, List.append_assoc]⟩

/-- **The run.**  The reader reads what was written back exactly when every external base is
known in time. -/
theorem explodeEntries_writeObjects (hz : z.Exact) (hh : Honest w resolve)
    (hids : ∀ b ∈ w.externalBases, b.id.algo = w.algo)
    (hsize : ∀ e ∈ w.entries, e.payload.length < 2 ^ 64)
    (hhash : ∀ e ∈ w.entries, e.id = hashObject w.hasher w.algo e.ty e.payload)
    (hnodup : (w.entries.map (·.id)).Nodup) : ∀ {es done : List PackEntry} {s s' : Written}
    {x : Exploded}, w.entries = done ++ es → es.foldlM (w.writeObject z) s = .ok s' →
    Mirrors s x done → s'.pack.length < 2 ^ 64 → ∀ tail,
    (∀ x', explodeEntries z w.hasher w.algo resolve (s'.pack ++ tail) es.length x = .ok x' →
        Mirrors s' x' w.entries) ∧
      ((∃ x', explodeEntries z w.hasher w.algo resolve (s'.pack ++ tail) es.length x = .ok x') ↔
        Resolvable z w resolve done s es) := by
  intro es
  induction es with
  | nil =>
    intro done s s' x hw hrun hm _ tail
    cases hrun
    rw [List.append_nil] at hw
    constructor
    · intro x' hx
      cases hx
      rwa [hw]
    · exact iff_of_true ⟨x, rfl⟩ trivial
  | cons e es ih =>
    intro done s s' x hw hrun hm hpack tail
    rw [List.foldlM_cons] at hrun
    obtain ⟨s₁, hwrite, hrun⟩ := except_bind_ok.mp hrun
    obtain ⟨more, hmore⟩ := foldlM_writeObject_pack hrun
    have hw' : w.entries = done ++ [e] ++ es := by rw [hw, List.append_assoc]; rfl
    have hdone : ∀ c ∈ done, c ∈ w.entries := by
      intro c hc
      rw [hw]
      exact List.mem_append_left _ hc
    have he : e ∈ w.entries := by
      rw [hw]
      exact List.mem_append_right _ List.mem_cons_self
    have hnew : ∀ c ∈ done, c.id ≠ e.id := by
      rw [hw, List.map_append, List.nodup_append] at hnodup
      intro c hc
      exact hnodup.2.2 _ (List.mem_map_of_mem hc) _ (List.mem_map_of_mem List.mem_cons_self)
    have hlen : s₁.pack.length < 2 ^ 64 := by
      rw [hmore, List.length_append] at hpack
      omega
    obtain ⟨hvalue, hiff⟩ := decodeEntry_writeObject hz hh hm hwrite hdone (hsize e he) hlen hids
      (more ++ tail)
    have hdata : s'.pack ++ tail = s₁.pack ++ (more ++ tail) := by rw [hmore, List.append_assoc]
    have hm₁ := hm.record hwrite hnew
    obtain ⟨ihm, ihiff⟩ := ih hw' hrun hm₁ hpack tail
    -- one entry decoded, the rest is read from the state the record makes
    have hstep : ∀ x', explodeEntries z w.hasher w.algo resolve (s'.pack ++ tail)
      (es.length + 1) x =
        .ok x' ↔ (∃ r, decodeEntry z w.algo resolve (s'.pack ++ tail) x = .ok r) ∧
          explodeEntries z w.hasher w.algo resolve (s'.pack ++ tail) es.length
            (x.record e.id e.ty e.payload s₁.pack.length) = .ok x' := by
      intro x'
      rw [hdata] at *
      constructor
      · intro hx
        obtain ⟨r, hr, hx⟩ := except_bind_ok.mp hx
        cases hvalue r hr
        simp only at hx
        rw [← hhash e he] at hx
        exact ⟨⟨_, hr⟩, hx⟩
      · rintro ⟨⟨r, hr⟩, hx⟩
        cases hvalue r hr
        refine except_bind_ok.mpr ⟨_, hr, ?_⟩
        simp only
        rwa [← hhash e he]
    rw [← hdata] at hiff
    rw [List.length_cons]
    constructor
    · intro x' hx
      exact ihm x' ((hstep x').mp hx).2
    · constructor
      · rintro ⟨x', hx⟩
        obtain ⟨hdec, hx⟩ := (hstep x').mp hx
        refine ⟨hiff.mp hdec, ?_⟩
        intro s₂ hs₂
        cases hwrite.symm.trans hs₂
        exact ihiff.mp ⟨x', hx⟩
      · rintro ⟨hknown, hrest⟩
        obtain ⟨x', hx⟩ := ihiff.mpr (hrest s₁ hwrite)
        exact ⟨x', (hstep x').mpr ⟨hiff.mpr hknown, hx⟩⟩

/-- Where every external base can be had outside of the pack, all of them are known. -/
theorem resolvable_of_external (h : ∀ b ∈ w.externalBases, ∃ r, resolve b.id = .ok r) :
    ∀ {es done : List PackEntry} {s : Written}, Resolvable z w resolve done s es := by
  intro es
  induction es with
  | nil =>
    intro done s
    trivial
  | cons e es ih =>
    intro done s
    exact ⟨fun b hb => Or.inr (h b (mem_externalWindow hb.1).1), fun s' _ => ih⟩

/-! ## The whole pack -/

/-- What `add` and `addExternalBase` keep: objects are queued under their ids, each id once. -/
structure Valid (w : PackWriter) : Prop where
  ids : ∀ e ∈ w.entries, e.id = hashObject w.hasher w.algo e.ty e.payload
  externalIds : ∀ b ∈ w.externalBases, b.id = hashObject w.hasher w.algo b.ty b.payload
  nodup : (w.entries.map (·.id)).Nodup

theorem nodup_addEntry {entries : List PackEntry} (hn : (entries.map (·.id)).Nodup)
    (e : PackEntry) : ((addEntry entries e).map (·.id)).Nodup := by
  rw [addEntry]
  split
  · exact hn
  · next hany =>
    rw [List.map_append, List.nodup_append]
    refine ⟨hn, by simp, ?_⟩
    intro id hid id' hid' heq
    obtain ⟨x, hx, rfl⟩ := List.mem_map.mp hid
    rw [List.map_singleton, List.mem_singleton] at hid'
    exact hany (List.any_eq_true.mpr ⟨x, hx, by rw [beq_iff_eq, heq, hid']⟩)

theorem valid_new (hasher : Hasher) (algo : HashAlgo) : (new hasher algo).Valid :=
  ⟨by simp [new], by simp [new], by simp [new]⟩

theorem Valid.add (hv : w.Valid) (ty : ObjectType) (payload : Bytes) :
    (w.add ty payload).Valid where
  ids := by
    intro e he
    rcases mem_addEntry he with he | rfl
    · exact hv.ids e he
    · rfl
  externalIds := hv.externalIds
  nodup := nodup_addEntry hv.nodup _

theorem Valid.addExternalBase (hv : w.Valid) (ty : ObjectType) (payload : Bytes) :
    (w.addExternalBase ty payload).Valid where
  ids := hv.ids
  externalIds := by
    intro b hb
    rcases mem_addEntry hb with hb | rfl
    · exact hv.externalIds b hb
    · rfl
  nodup := hv.nodup

@[simp] theorem length_packHeader (n : Nat) : (packHeader n).length = 12 := by
  have hsig : packSignature.length = 4 := by decide
  rw [packHeader, List.length_append, List.length_append, hsig, Sha.length_bigEndian,
    Sha.length_bigEndian]

/-- **A finished pack is read back.**  Front to back, with anything behind it, it reads as the
queued objects and ends where it ends, exactly when every external base that an object was
written against is known in time. -/
theorem explodePackPrefix_finish (hz : z.Exact) (hv : w.Valid) (hh : Honest w resolve)
    (hsize : ∀ e ∈ w.entries, e.payload.length < 2 ^ 64) (hcount : w.entries.length < 2 ^ 32)
    {out : PackOutput} (hout : w.finish z = .ok out) (hlen : out.pack.length < 2 ^ 64)
    (rest : Bytes) :
    (∀ r, explodePackPrefix z w.hasher (out.pack ++ rest) w.algo resolve = .ok r →
        r = (w.entries.map fun e => (e.id, e.ty, e.payload), out.pack.length)) ∧
      ((∃ r, explodePackPrefix z w.hasher (out.pack ++ rest) w.algo resolve = .ok r) ↔
        Resolvable z w resolve [] w.start w.entries) := by
  obtain ⟨s, hrun, hout⟩ := except_bind_ok.mp hout
  cases hout
  obtain ⟨more, hmore⟩ : ∃ more, s.pack = packHeader w.entries.length ++ more :=
    foldlM_writeObject_pack hrun
  have hdigest : (w.hasher.digest w.algo s.pack).length = w.algo.rawLen :=
    w.hasher.digest_length w.algo s.pack
  have hpack : s.pack.length < 2 ^ 64 := by
    rw [List.length_append] at hlen
    omega
  have hids : ∀ b ∈ w.externalBases, b.id.algo = w.algo := by
    intro b hb
    rw [hv.externalIds b hb]
    rfl
  have hstart : Mirrors w.start Exploded.start [] := by
    refine ⟨(length_packHeader _).symm, rfl, by simp [start], ?_⟩
    intro id ty payload
    simp [Exploded.start]
  obtain ⟨hmirror, hiff⟩ := explodeEntries_writeObjects hz hh hids hsize hv.ids hv.nodup
    (List.nil_append _).symm hrun hstart hpack (w.hasher.digest w.algo s.pack ++ rest)
  -- the header says that the pack is one, and how many entries it has
  have hhead : ¬ ((s.pack ++ (w.hasher.digest w.algo s.pack ++ rest)).length < 12 ∨
      (s.pack ++ (w.hasher.digest w.algo s.pack ++ rest)).take 4 ≠ packSignature) := by
    have hsig : packSignature.length = 4 := by decide
    rw [hmore, not_or, not_not]
    constructor
    · rw [List.length_append, List.length_append, length_packHeader]
      omega
    · rw [packHeader, List.append_assoc, List.append_assoc, List.append_assoc,
        List.take_left' hsig]
  have hcountIs : ObjectId.natOfBytes
      (((s.pack ++ (w.hasher.digest w.algo s.pack ++ rest)).drop 8).take 4) = w.entries.length := by
    have hfront : (packSignature ++ Sha.bigEndian 4 2).length = 8 := by decide
    have hsplit : s.pack ++ (w.hasher.digest w.algo s.pack ++ rest) =
        packSignature ++ Sha.bigEndian 4 2 ++ (Sha.bigEndian 4 (w.entries.length % 2 ^ 32) ++
          (more ++ (w.hasher.digest w.algo s.pack ++ rest))) := by
      rw [hmore, packHeader]
      simp only [List.append_assoc]
    rw [hsplit, List.drop_left' hfront, List.take_left' (Sha.length_bigEndian _ _),
      ObjectId.natOfBytes_bigEndian, Nat.mod_eq_of_lt hcount]
    exact Nat.mod_eq_of_lt (by omega)
  have hread : ∀ r, explodePackPrefix z w.hasher
      (s.pack ++ w.hasher.digest w.algo s.pack ++ rest) w.algo resolve = .ok r ↔
      ∃ x', explodeEntries z w.hasher w.algo resolve
          (s.pack ++ (w.hasher.digest w.algo s.pack ++ rest)) w.entries.length Exploded.start =
          .ok x' ∧
        r = (w.entries.map fun e => (e.id, e.ty, e.payload),
          (s.pack ++ w.hasher.digest w.algo s.pack).length) := by
    intro r
    rw [List.append_assoc, explodePackPrefix, if_neg hhead, hcountIs, except_bind_ok]
    refine exists_congr fun x' => and_congr_right fun hx => ?_
    obtain ⟨hoffset, hresults, -, -⟩ := hmirror x' hx
    rw [if_neg (by rw [hoffset, List.length_append, List.length_append]; omega), hoffset,
      hresults, List.length_append, hdigest]
    exact ⟨fun h => (Except.ok.inj h).symm, fun h => h ▸ rfl⟩
  constructor
  · intro r hr
    obtain ⟨x', -, heq⟩ := (hread r).mp hr
    exact heq
  · rw [← hiff]
    constructor
    · rintro ⟨r, hr⟩
      obtain ⟨x', hx, -⟩ := (hread r).mp hr
      exact ⟨x', hx⟩
    · rintro ⟨x', hx⟩
      exact ⟨_, (hread _).mpr ⟨x', hx, rfl⟩⟩

end PackWriter
end Puregit
