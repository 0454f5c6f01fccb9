import Mathlib.Data.Bool.AllAny
import Puregit.Ingest
import Puregit.Object.RoundTrip
import Puregit.Odb.Laws
import Puregit.Repack

/-! # What a store reads after objects are added

An object that is written is a loose file, and is found before the packs are looked at.  So it may
be read in place of a packed one, and deltas whose base was packed are rebuilt from it.

For a store that `Serves` a set of objects, each under its id, none of this shows: it serves them
still, and what it read it reads (`Added.serves`, `Added.read`).  So after the objects of a pack are
stored the store has them, and serves what it did (`storeObjects_added`).
-/
namespace Puregit
open ObjectDatabase

/-- A cap that is larger refuses nothing that a smaller one lets through. -/
def Zlib.CapsOnly (z : Zlib) : Prop :=
  ∀ data out max max', max ≤ max' → z.inflateCapped data max = .ok out →
    z.inflateCapped data max' = .ok out

/-- The stored codec only caps. -/
theorem Zlib.stored_capsOnly : stored.CapsOnly := by
  intro data out max max' hle h
  obtain ⟨⟨out', n⟩, hout, rfl⟩ := except_map_ok.mp h
  refine except_map_ok.mpr ⟨(out', n), ?_, rfl⟩
  have hstored : inflateStored data max = .ok (out', n) := hout
  show inflateStored data max' = .ok (out', n)
  unfold inflateStored at hstored ⊢
  split at hstored
  · simp only at hstored ⊢
    split_ifs at hstored with h₁ h₂ h₃ h₄
    rw [if_neg h₁, if_neg h₂, if_neg h₃, if_neg (by omega)]
    exact hstored
  · cases hstored

/-! ## An object is written and read -/

theorem findIdx?_append_cons {α : Type} {p : α → Bool} {before : List α} {a : α}
    (hbefore : ∀ x ∈ before, p x = false) (ha : p a = true) (rest : List α) :
    (before ++ a :: rest).findIdx? p = some before.length := by
  induction before with
  | nil => simp [List.findIdx?_cons, ha]
  | cons x before ih =>
    have hx : p x = false := hbefore x List.mem_cons_self
    rw [List.cons_append, List.findIdx?_cons, hx, ih fun y hy =>
      hbefore y (List.mem_cons_of_mem x hy)]
    rfl

theorem parseU64_natStr {n : Nat} (h : n < 2 ^ 64) : parseU64 (natStr n) = some n := by
  have hplus : ∀ r, natStr n ≠ '+' :: r := by
    intro r hr
    have hmem : '+' ∈ natStr n := by
      rw [hr]
      exact List.mem_cons_self
    have hdigit := isDigit_natStr hmem
    revert hdigit
    decide
  rw [parseU64, parseUnsigned, parseDigits_natStr, Option.bind_some, if_pos h]
  exact hplus

theorem fromStr_asStr (ty : ObjectType) : ObjectType.fromStr ty.asStr = .ok ty := by
  cases ty with
  | blob => rfl
  | tree => rfl
  | commit => rfl
  | tag => rfl

/-- **A loose object is parsed back.** -/
theorem parseLoose_serializeLoose (ty : ObjectType) {payload : Bytes}
    (h : payload.length < 2 ^ 64) :
    parseLoose (serializeLoose ty payload) = .ok (ty, payload) := by
  -- neither the type nor the number has a space or a NUL
  have hty : ∀ b ∈ toUtf8 ty.asStr, b ≠ 32 ∧ b ≠ 0 := by
    refine List.all_iff_forall_prop.mp ?_
    cases ty with
    | blob => decide
    | tree => decide
    | commit => decide
    | tag => decide
  have hdigit : ∀ b ∈ toUtf8 (natStr payload.length), b ≠ 0 := by
    rintro b hb rfl
    have hmem : Char.ofNat 0 ∈ natStr payload.length := (ascii_mem_toUtf8 (by decide)).mp hb
    have hdigit := isDigit_natStr hmem
    revert hdigit
    decide
  have hshape : serializeLoose ty payload =
      toUtf8 ty.asStr ++ 32 :: (toUtf8 (natStr payload.length) ++ 0 :: payload) := by
    rw [serializeLoose, looseHeader, toUtf8_append, toUtf8_cons]
    show toUtf8 ty.asStr ++ ([32] ++ toUtf8 (natStr payload.length)) ++ [0] ++ payload = _
    simp only [List.append_assoc, List.cons_append, List.nil_append]
  have hspace : (serializeLoose ty payload).findIdx? (· = 32) = some (toUtf8 ty.asStr).length := by
    rw [hshape]
    exact @findIdx?_append_cons _ (fun b => decide (b = 32)) _ _ (fun b hb =>
      decide_eq_false (hty b hb).1)
      (decide_eq_true rfl) _
  have hnul : (serializeLoose ty payload).findIdx? (· = 0) =
      some ((toUtf8 ty.asStr).length + 1 + (toUtf8 (natStr payload.length)).length) := by
    have hcut : serializeLoose ty payload =
        (toUtf8 ty.asStr ++ 32 :: toUtf8 (natStr payload.length)) ++ 0 :: payload := by
      rw [hshape]
      simp only [List.append_assoc, List.cons_append]
    have hno : ∀ b ∈ toUtf8 ty.asStr ++ 32 :: toUtf8 (natStr payload.length),
        decide (b = 0) = false := by
      intro b hb
      rcases List.mem_append.mp hb with hb | hb
      · exact decide_eq_false (hty b hb).2
      rcases List.mem_cons.mp hb with rfl | hb
      · rfl
      · exact decide_eq_false (hdigit b hb)
    rw [hcut]
    refine Eq.trans
      (@findIdx?_append_cons _ (fun b => decide (b = 0)) _ _ hno (decide_eq_true rfl) payload) ?_
    rw [List.length_append, List.length_cons]
    congr 1
    omega
  have htype : (serializeLoose ty payload).take (toUtf8 ty.asStr).length = toUtf8 ty.asStr := by
    rw [hshape, List.take_left]
  have hsize : ((serializeLoose ty payload).take
    ((toUtf8 ty.asStr).length + 1 + (toUtf8 (natStr payload.length)).length)).drop
      ((toUtf8 ty.asStr).length + 1) = toUtf8 (natStr payload.length) := by
    have hcut : serializeLoose ty payload = (toUtf8 ty.asStr ++ [32]) ++
        (toUtf8 (natStr payload.length) ++ 0 :: payload) := by
      rw [hshape]
      simp only [List.append_assoc, List.cons_append, List.nil_append]
    have hlen : (toUtf8 ty.asStr).length + 1 = (toUtf8 ty.asStr ++ [32]).length := by
      rw [List.length_append, List.length_singleton]
    rw [List.drop_take, hlen, Nat.add_sub_cancel_left, hcut, List.drop_left, List.take_left]
  have hpayload : (serializeLoose ty payload).drop
      ((toUtf8 ty.asStr).length + 1 + (toUtf8 (natStr payload.length)).length + 1) = payload := by
    have hcut : serializeLoose ty payload =
        (toUtf8 ty.asStr ++ 32 :: toUtf8 (natStr payload.length) ++ [0]) ++ payload := by
      rw [hshape]
      simp only [List.append_assoc, List.cons_append, List.nil_append]
    have hlen : (toUtf8 ty.asStr).length + 1 + (toUtf8 (natStr payload.length)).length + 1 =
        (toUtf8 ty.asStr ++ 32 :: toUtf8 (natStr payload.length) ++ [0]).length := by
      simp only [List.length_append, List.length_cons, List.length_nil]
      omega
    rw [hlen, hcut, List.drop_left]
  rw [parseLoose, hspace, hnul]
  simp only
  rw [if_neg (by omega), htype, hsize, hpayload]
  simp only [fromUtf8_toUtf8, fromStr_asStr, except_ok_bind, parseU64_natStr h, ne_eq,
    not_true, if_false]

namespace LooseOdb
variable {odb : LooseOdb}

/-- **What is written can be read**, up to the size that is read. -/
theorem read_write (hz : odb.zlib.Exact) (hcap : odb.zlib.CapsOnly) {ty : ObjectType}
    {payload : Bytes} {id : ObjectId}
    (hnew : odb.contains (hashObject odb.hasher odb.algo ty payload) = false)
    (hlen : (serializeLoose ty payload).length ≤ odb.maxObjectSize)
    (hsize : payload.length < 2 ^ 64) (h : (odb.write ty payload).1 = .ok id) :
    (odb.write ty payload).2.read (hashObject odb.hasher odb.algo ty payload) =
      .ok (ty, payload) := by
  rw [write, if_neg (ne_true_of_eq_false hnew)] at h ⊢
  cases hdeflate : odb.zlib.deflate (serializeLoose ty payload) with
  | error e =>
    rw [hdeflate] at h
    cases h
  | ok compressed =>
    rw [hdeflate] at h
    simp only at h ⊢
    cases hwrite : Vfs.write odb.fs (objectPath (hashObject odb.hasher odb.algo ty payload))
      compressed with
    | error e =>
      rw [hwrite] at h
      cases h
    | ok fs =>
      simp only
      have hfile : fs.get? (loosePath (hashObject odb.hasher odb.algo ty payload)) =
          some (.leaf compressed) := by
        rw [Vfs.get?_write (resolve_objectPath _) hwrite, if_pos rfl]
      have hpresent : ({ odb with fs := fs } : LooseOdb).contains
          (hashObject odb.hasher odb.algo ty payload) = true := by
        rw [contains_eq]
        show (fs.get? _).isSome = true
        rw [hfile]
        rfl
      have hread : Vfs.read fs (objectPath (hashObject odb.hasher odb.algo ty payload)) =
          .ok compressed := by
        rw [Vfs.read_of_resolve (resolve_objectPath _)]
        exact hfile
      have hinflate : odb.zlib.inflateCapped compressed odb.maxObjectSize =
          .ok (serializeLoose ty payload) := by
        have hexact := hz _ _ [] hdeflate
        rw [List.append_nil] at hexact
        exact hcap _ _ _ _ hlen (Zlib.inflateExact_ok hexact)
      rw [read, if_neg (by simp [hpresent])]
      show (Vfs.read fs _ >>= _) = _
      rw [hread, except_ok_bind]
      show (odb.zlib.inflateCapped compressed odb.maxObjectSize >>= _) = _
      rw [hinflate, except_ok_bind, parseLoose_serializeLoose ty hsize, except_ok_bind]
      exact if_neg fun hne => hne rfl

/-- A write makes no file of another object, and none where there is one. -/
theorem get?_write_other {ty : ObjectType} {payload : Bytes} {x : ObjectId}
    (hx : x ≠ hashObject odb.hasher odb.algo ty payload ∨
      odb.contains (hashObject odb.hasher odb.algo ty payload) = true) :
    (odb.write ty payload).2.fs.get? (loosePath x) = odb.fs.get? (loosePath x) := by
  rw [write]
  by_cases hold : odb.contains (hashObject odb.hasher odb.algo ty payload) = true
  · rw [if_pos hold]
  rw [if_neg hold]
  have hne := hx.resolve_right hold
  cases odb.zlib.deflate (serializeLoose ty payload) with
  | error e => rfl
  | ok compressed =>
    simp only
    cases hwrite : Vfs.write odb.fs (objectPath (hashObject odb.hasher odb.algo ty payload))
      compressed with
    | error e => rfl
    | ok fs =>
      simp only
      rw [Vfs.get?_write (resolve_objectPath _) hwrite, if_neg fun heq =>
        hne (loosePath_injective heq), if_neg]
      intro hbelow
      have hle := hbelow.length_le
      simp [loosePath] at hle

end LooseOdb

/-! ## Objects that are added -/

namespace CombinedOdb
variable {object : ObjectId → Option RawObject} {odb odb' odb'' : CombinedOdb}

/-- A store that reads what it holds, and at any depth reads of an id the object there is. -/
structure Serves (object : ObjectId → Option RawObject) (odb : CombinedOdb) : Prop where
  reads : ∀ id, odb.contains id = true → ∃ r, odb.read id = .ok r
  same : ∀ left id r, odb.readDepth odb.readAlternate left id = .ok r → object id = some r

/-- Objects have been added, each as a loose file. -/
structure Added (object : ObjectId → Option RawObject) (odb odb' : CombinedOdb) : Prop where
  settings : odb' = { odb with loose := { odb.loose with fs := odb'.loose.fs } }
  kept : ∀ id, odb.loose.contains id = true → odb'.loose.contains id = true ∧
    odb'.loose.read id = odb.loose.read id
  new : ∀ id, odb'.loose.contains id = true → odb.loose.contains id = true ∨
    ∃ r, odb'.loose.read id = .ok r ∧ object id = some r

/-- A store with nothing in it serves every set of objects. -/
theorem serves_of_empty {inner : ObjectStore} (h : ∀ id, inner.contains id = false) :
    Serves object ⟨inner, []⟩ := by
  have hnone : ∀ id, CombinedOdb.contains ⟨inner, []⟩ id = false := by
    intro id
    rw [CombinedOdb.contains, h id]
    rfl
  refine ⟨fun id hid => ?_, fun left id r hr => ?_⟩
  · rw [hnone id] at hid
    cases hid
  · rcases ObjectStore.contains_of_readDepth hr with hheld | ⟨left, helsewhere⟩
    · rw [h id] at hheld
      cases hheld
    · cases helsewhere

theorem Added.refl (object : ObjectId → Option RawObject) (odb : CombinedOdb) :
    Added object odb odb :=
  ⟨rfl, fun _ h => ⟨h, rfl⟩, fun _ h => Or.inl h⟩

theorem Added.trans (h : Added object odb odb') (h' : Added object odb' odb'') :
    Added object odb odb'' := by
  refine ⟨?_, fun id hid => ?_, fun id hid => ?_⟩
  · rw [h'.settings, h.settings]
  · obtain ⟨hmid, hread⟩ := h.kept id hid
    obtain ⟨hend, hread'⟩ := h'.kept id hmid
    exact ⟨hend, hread'.trans hread⟩
  · rcases h'.new id hid with hmid | hnew
    · rcases h.new id hmid with hold | ⟨r, hr, hobject⟩
      · exact Or.inl hold
      · exact Or.inr ⟨r, (h'.kept id hmid).2.trans hr, hobject⟩
    · exact Or.inr hnew

theorem Added.locate (h : Added object odb odb') (id : ObjectId) :
    odb'.locate id = odb.locate id := by
  rw [h.settings]
  rfl

theorem Added.readAlternate (h : Added object odb odb') :
    odb'.readAlternate = odb.readAlternate := by
  rw [h.settings]
  rfl

theorem Added.zlib (h : Added object odb odb') : odb'.loose.zlib = odb.loose.zlib := by
  rw [h.settings]

/-- What is read from a pack is what is read there with other objects for the bases outside of it,
if these are the same where both are there. -/
theorem readAtWith_same {z : Zlib} {p : Pack} {offset : Nat} {locate : ObjectId → Option Nat}
    {resolve resolve' : ExternalResolver} {r r' : RawObject}
    (hsame : ∀ b o o', resolve b = .ok o → resolve' b = .ok o' → o = o')
    (h : p.readAtWith z offset locate resolve = .ok r)
    (h' : p.readAtWith z offset locate resolve' = .ok r') : r = r' := by
  obtain ⟨ty, content⟩ := r
  obtain ⟨ty', content'⟩ := r'
  obtain ⟨ends, deltas, base, hchain, hobject, happly⟩ := Pack.readAtWith_ok.mp h
  obtain ⟨ends', deltas', base', hchain', hobject', happly'⟩ := Pack.readAtWith_ok.mp h'
  cases hchain.symm.trans hchain'
  have hbase : (ty, base) = (ty', base') := by
    cases ends with
    | whole ty₀ content₀ => exact Except.ok.inj (hobject.symm.trans hobject')
    | outside b => exact hsame b _ _ hobject hobject'
  cases hbase
  cases happly.symm.trans happly'
  rfl

/-- What is read from a pack is read there with other objects for the bases outside of it, if these
are what they were. -/
theorem readAtWith_mono {z : Zlib} {p : Pack} {offset : Nat} {locate : ObjectId → Option Nat}
    {resolve resolve' : ExternalResolver} {r : RawObject}
    (hmono : ∀ b o, resolve b = .ok o → resolve' b = .ok o)
    (h : p.readAtWith z offset locate resolve = .ok r) :
    p.readAtWith z offset locate resolve' = .ok r := by
  obtain ⟨ty, content⟩ := r
  obtain ⟨ends, deltas, base, hchain, hobject, happly⟩ := Pack.readAtWith_ok.mp h
  refine Pack.readAtWith_ok.mpr ⟨ends, deltas, base, hchain, ?_, happly⟩
  cases ends with
  | whole ty₀ content₀ => exact hobject
  | outside b => exact hmono b _ hobject

/-- A read of what is loose. -/
theorem readDepth_loose {left : Nat} {id : ObjectId} (hloose : odb.loose.contains id = true) :
    odb.readDepth odb.readAlternate (left + 1) id = odb.loose.read id := by
  rw [ObjectStore.readDepth, if_pos hloose]

/-- **What could be read is read**, also where it is now loose and was not before.  The induction is
along the bases from pack to pack. -/
theorem Added.readDepth (h : Added object odb odb') (hserves : odb.Serves object) {left : Nat}
    {id : ObjectId} {r : RawObject} (hr : odb.readDepth odb.readAlternate left id = .ok r) :
    odb'.readDepth odb'.readAlternate left id = .ok r := by
  induction left generalizing id r with
  | zero => cases hr
  | succ left ih =>
    by_cases hnew : odb'.loose.contains id = true
    · rw [readDepth_loose hnew]
      rcases h.new id hnew with hold | ⟨r', hread, hobject⟩
      · rw [readDepth_loose hold] at hr
        rw [(h.kept id hold).2, hr]
      · rw [hread]
        exact congrArg Except.ok (Option.some.inj (hobject.symm.trans (hserves.same _ _ _ hr)))
    · have hold : ¬ odb.loose.contains id = true := fun hold => hnew (h.kept id hold).1
      rw [ObjectStore.readDepth, if_neg hold] at hr
      rw [ObjectStore.readDepth, if_neg hnew, h.locate, h.zlib, h.readAlternate]
      cases hlocate : odb.locate id with
      | some found =>
        rw [hlocate] at hr
        rw [← h.readAlternate]
        exact readAtWith_mono (fun b o ho => ih ho) hr
      | none =>
        rw [hlocate] at hr
        exact hr

/-- **Nothing else is read.** -/
theorem Added.same (h : Added object odb odb') (hserves : odb.Serves object) {left : Nat}
    {id : ObjectId} {r : RawObject} (hr : odb'.readDepth odb'.readAlternate left id = .ok r) :
    object id = some r := by
  induction left generalizing id r with
  | zero => cases hr
  | succ left ih =>
    by_cases hnew : odb'.loose.contains id = true
    · rw [readDepth_loose hnew] at hr
      rcases h.new id hnew with hold | ⟨r', hread, hobject⟩
      · rw [(h.kept id hold).2] at hr
        exact hserves.same (left + 1) id r ((readDepth_loose hold).trans hr)
      · cases hr.symm.trans hread
        exact hobject
    · have hold : ¬ odb.loose.contains id = true := fun hold => hnew (h.kept id hold).1
      rw [ObjectStore.readDepth, if_neg hnew, h.locate, h.zlib] at hr
      cases hlocate : odb.locate id with
      | some found =>
        obtain ⟨lp, offset⟩ := found
        rw [hlocate] at hr
        -- the store could read it before, from the same chain
        obtain ⟨hmem, hoffset⟩ := ObjectStore.locate_some hlocate
        obtain ⟨i, hi, -⟩ := Option.bind_eq_some_iff.mp hoffset
        have hlisted : odb.packs.any (fun lp => lp.index.contains id) = true :=
          List.any_eq_true.mpr ⟨lp, hmem, PackIndex.contains_iff.mpr ⟨i, hi⟩⟩
        have hcontains : odb.contains id = true := by
          rw [CombinedOdb.contains, ObjectStore.contains, hlisted, Bool.or_true, Bool.true_or]
        obtain ⟨r₀, hr₀⟩ := hserves.reads id hcontains
        have hobject := hserves.same _ _ _ hr₀
        rw [CombinedOdb.read, ObjectStore.readDepth, if_neg hold, hlocate] at hr₀
        rw [hobject]
        refine congrArg some (readAtWith_same (fun b o o' ho ho' => ?_) hr₀ hr)
        exact Option.some.inj ((hserves.same _ _ _ ho).symm.trans (ih ho'))
      | none =>
        rw [hlocate, h.readAlternate] at hr
        refine hserves.same (left + 1) id r ?_
        rw [ObjectStore.readDepth, if_neg hold, hlocate]
        exact hr

theorem Added.contains_iff (h : Added object odb odb') {id : ObjectId} :
    odb'.contains id = true ↔ odb'.loose.contains id = true ∨ odb.contains id = true := by
  have hpacks : odb'.packs = odb.packs := by
    rw [h.settings]
  have halternates : odb'.alternates = odb.alternates := by
    rw [h.settings]
  rw [CombinedOdb.contains, CombinedOdb.contains, ObjectStore.contains, ObjectStore.contains,
    hpacks, halternates]
  simp only [Bool.or_eq_true]
  constructor
  · rintro ((hloose | hpack) | halternate)
    · exact Or.inl hloose
    · exact Or.inr (Or.inl (Or.inr hpack))
    · exact Or.inr (Or.inr halternate)
  · rintro (hloose | (hloose | hpack) | halternate)
    · exact Or.inl (Or.inl hloose)
    · exact Or.inl (Or.inl (h.kept id hloose).1)
    · exact Or.inl (Or.inr hpack)
    · exact Or.inr halternate

/-- **A store serves what it did**, and the objects that were added. -/
theorem Added.serves (h : Added object odb odb') (hserves : odb.Serves object) :
    odb'.Serves object where
  reads id hid := by
    rcases h.contains_iff.mp hid with hloose | hold
    · rcases h.new id hloose with hold | ⟨r, hr, -⟩
      · have hcontains : odb.contains id = true := by
          rw [CombinedOdb.contains, ObjectStore.contains, hold]
          rfl
        obtain ⟨r, hr⟩ := hserves.reads id hcontains
        exact ⟨r, h.readDepth hserves hr⟩
      · exact ⟨r, (readDepth_loose hloose).trans hr⟩
    · obtain ⟨r, hr⟩ := hserves.reads id hold
      exact ⟨r, h.readDepth hserves hr⟩
  same left id r hr := h.same hserves hr

/-! ## Objects are stored -/

/-- **An object that is written is added.** -/
theorem put_added {ty : ObjectType} {payload : Bytes} {id : ObjectId} (hz : odb.loose.zlib.Exact)
    (hcap : odb.loose.zlib.CapsOnly) (hmax : odb.loose.maxObjectSize < 2 ^ 64)
    (hobject : object (hashObject odb.loose.hasher odb.loose.algo ty payload) = some (ty, payload))
    (hlen : (serializeLoose ty payload).length ≤ odb.loose.maxObjectSize)
    (h : put ty payload odb = some (.ok id, odb')) :
    Added object odb odb' ∧ ∀ x, odb'.loose.contains x = true ↔
      odb.loose.contains x = true ∨ x = hashObject odb.loose.hasher odb.loose.algo ty payload := by
  have hput : ((odb.write ty payload).1, (odb.write ty payload).2) = (.ok id, odb') :=
    Option.some.inj h
  obtain ⟨hwritten, hodb⟩ := Prod.mk.inj hput
  change (odb.loose.write ty payload).1 = .ok id at hwritten
  obtain ⟨fs, hfs, -⟩ := LooseOdb.write_spec odb.loose ty payload
  have hother := @LooseOdb.get?_write_other odb.loose ty payload
  have hkept : ∀ {x}, odb.loose.contains x = true →
      (odb.loose.write ty payload).2.contains x = true :=
    LooseOdb.contains_write
  have hthere := LooseOdb.contains_of_write hwritten
  have hsize : payload.length < 2 ^ 64 := by
    rw [serializeLoose, List.length_append] at hlen
    omega
  have hread := fun hnew => LooseOdb.read_write hz hcap hnew hlen hsize hwritten
  rw [hfs] at hother hthere hread
  have hsame : odb' = { odb with loose := { odb.loose with fs := fs } } :=
    hodb.symm.trans (congrArg (fun loose => ({ odb with loose := loose } : CombinedOdb)) hfs)
  subst hsame
  have hnone : ∀ x, x ≠ hashObject odb.loose.hasher odb.loose.algo ty payload →
      ({ odb.loose with fs := fs } : LooseOdb).contains x = odb.loose.contains x := by
    intro x hx
    rw [LooseOdb.contains_eq, LooseOdb.contains_eq]
    exact congrArg Option.isSome (hother (Or.inl hx))
  refine ⟨⟨rfl, fun x hx => ⟨?_, LooseOdb.read_congr (hother ?_)⟩, fun x hx => ?_⟩, fun x =>
    ⟨fun hx => ?_, ?_⟩⟩
  · have hin := hkept hx
    rw [hfs] at hin
    exact hin
  · by_cases heq : x = hashObject odb.loose.hasher odb.loose.algo ty payload
    · exact Or.inr (heq ▸ hx)
    · exact Or.inl heq
  · by_cases heq : x = hashObject odb.loose.hasher odb.loose.algo ty payload
    · by_cases hold : odb.loose.contains x = true
      · exact Or.inl hold
      · subst heq
        exact Or.inr ⟨(ty, payload), hread (eq_false_of_ne_true hold), hobject⟩
    · left
      rw [← hnone x heq]
      exact hx
  · by_cases heq : x = hashObject odb.loose.hasher odb.loose.algo ty payload
    · exact Or.inr heq
    · left
      rw [← hnone x heq]
      exact hx
  · rintro (hx | rfl)
    · have hin := hkept hx
      rw [hfs] at hin
      exact hin
    · exact hthere

/-- An object that can be written as one there is. -/
structure Storable (object : ObjectId → Option RawObject) (odb : CombinedOdb)
    (o : ExplodedObject) : Prop where
  hash : hashObject odb.loose.hasher odb.loose.algo o.2.1 o.2.2 = o.1
  object : object o.1 = some o.2
  length : (serializeLoose o.2.1 o.2.2).length ≤ odb.loose.maxObjectSize

theorem Added.storable (h : Added object odb odb') {o : ExplodedObject}
    (ho : Storable object odb o) :
    Storable object odb' o := by
  obtain ⟨hhash, hobject, hlen⟩ := ho
  rw [h.settings]
  exact ⟨hhash, hobject, hlen⟩

/-- **Objects that are stored are added**, and no others. -/
theorem storeObjects_added {objects : List ExplodedObject} {ids : List ObjectId}
    (hz : odb.loose.zlib.Exact) (hcap : odb.loose.zlib.CapsOnly)
    (hmax : odb.loose.maxObjectSize < 2 ^ 64) (hobjects : ∀ o ∈ objects, Storable object odb o)
    (h : storeObjects objects odb = some (.ok ids, odb')) :
    Added object odb odb' ∧ ∀ x, odb'.loose.contains x = true ↔ odb.loose.contains x = true ∨
      ∃ o ∈ objects, o.1 = x := by
  induction objects generalizing odb ids with
  | nil =>
    cases h
    exact ⟨.refl _ _, fun x => by simp⟩
  | cons o objects ih =>
    obtain ⟨id, ty, payload⟩ := o
    obtain ⟨id', odb₁, hput, h⟩ := Exec.bind_ok.mp h
    obtain ⟨ids', odb₂, hstore, h⟩ := Exec.bind_ok.mp h
    cases h
    obtain ⟨hhash, hobject, hlen⟩ := hobjects _ List.mem_cons_self
    simp only at hhash hobject hlen
    have hthere : object (hashObject odb.loose.hasher odb.loose.algo ty payload) =
        some (ty, payload) := by
      rw [hhash]
      exact hobject
    obtain ⟨hadded, hin⟩ := put_added hz hcap hmax hthere hlen hput
    have hsettings := hadded.settings
    obtain ⟨hadded', hin'⟩ := ih (by rw [hsettings]; exact hz) (by rw [hsettings]; exact hcap)
      (by rw [hsettings]; exact hmax) (fun o ho =>
        hadded.storable (hobjects o (List.mem_cons_of_mem _ ho))) hstore
    refine ⟨hadded.trans hadded', fun x => ?_⟩
    rw [hin' x, hin x, hhash, or_assoc]
    refine or_congr_right ?_
    rw [List.exists_mem_cons_iff]
    exact or_congr_left eq_comm

end CombinedOdb

/-! ## The laws of a store on disk -/

namespace LooseOdb
variable {odb : LooseOdb} {ty : ObjectType} {payload : Bytes}

/-- A write that fails changes nothing. -/
theorem write_error {e : Error} (h : (odb.write ty payload).1 = .error e) :
    (odb.write ty payload).2 = odb := by
  rw [write] at h ⊢
  by_cases hold : odb.contains (hashObject odb.hasher odb.algo ty payload) = true
  · rw [if_pos hold]
  rw [if_neg hold] at h ⊢
  cases hdeflate : odb.zlib.deflate (serializeLoose ty payload) with
  | error e' => rfl
  | ok compressed =>
    rw [hdeflate] at h
    simp only at h ⊢
    cases hwrite : Vfs.write odb.fs (objectPath (hashObject odb.hasher odb.algo ty payload))
      compressed with
    | error e' => rfl
    | ok fs =>
      rw [hwrite] at h
      cases h

/-- No file is in the place of a directory that objects are in, and no directory in that of an
object. -/
def Room (odb : LooseOdb) : Prop :=
  ∀ id, odb.fs.NoLeafTo (loosePath id).dropLast ∧ odb.fs.get? (loosePath id) ≠ some .dir

/-- An object takes no room that another needs. -/
theorem Room.write (h : odb.Room) : (odb.write ty payload).2.Room := by
  rw [LooseOdb.write]
  split
  · exact h
  split
  · exact h
  split
  · exact h
  · rename_i compressed _ fs hwrite
    have hget := Vfs.get?_write (resolve_objectPath _) hwrite
    intro id
    obtain ⟨hway, hdir⟩ := h id
    refine ⟨fun q d hq hleaf => ?_, fun hnew => ?_⟩
    · change fs.get? q = some (.leaf d) at hleaf
      rw [hget] at hleaf
      split at hleaf
      · -- the way to an object is shorter than the path of one
        rename_i heq
        have hle := (heq ▸ hq).length_le
        simp [loosePath] at hle
      · split at hleaf
        · cases hleaf
        · exact hway q d hq hleaf
    · change fs.get? (loosePath id) = some .dir at hnew
      rw [hget] at hnew
      split at hnew
      · cases hnew
      · split at hnew
        · rename_i hbelow
          have hle := hbelow.length_le
          simp [loosePath] at hle
        · exact hdir hnew

/-- **Where there is room an object is written**, if it can be deflated. -/
theorem Room.write_returns (h : odb.Room)
    (hdeflate : ∃ compressed, odb.zlib.deflate (serializeLoose ty payload) = .ok compressed) :
    ∃ id, (odb.write ty payload).1 = .ok id := by
  obtain ⟨compressed, hcompressed⟩ := hdeflate
  obtain ⟨hway, hdir⟩ := h (hashObject odb.hasher odb.algo ty payload)
  obtain ⟨fs, hfs⟩ :=
    (@Vfs.write_returns odb.fs _ _ compressed (resolve_objectPath _) (List.cons_ne_nil _ _)).mpr
    ⟨hway, hdir⟩
  rw [LooseOdb.write]
  by_cases hold : odb.contains (hashObject odb.hasher odb.algo ty payload) = true
  · exact ⟨_, by rw [if_pos hold]⟩
  · refine ⟨hashObject odb.hasher odb.algo ty payload, ?_⟩
    rw [if_neg hold, hcompressed]
    simp only [hfs]

end LooseOdb

namespace CombinedOdb
variable {z : Zlib} {hasher : Hasher} {hashAlgo : HashAlgo} {object : ObjectId → Option RawObject}
  {odb : CombinedOdb}
  {ty : ObjectType} {payload : Bytes}

/-- A store that serves the objects there are, each under its name. -/
structure Stocked (z : Zlib) (hasher : Hasher) (hashAlgo : HashAlgo)
    (object : ObjectId → Option RawObject) (odb : CombinedOdb) : Prop where
  zlib_eq : odb.loose.zlib = z
  hasher_eq : odb.loose.hasher = hasher
  algo_eq : odb.loose.algo = hashAlgo
  max_eq : odb.loose.maxObjectSize = 2 ^ 30
  serves : odb.Serves object

/-- One of the objects there are, small enough for a loose file. -/
structure Kept (hasher : Hasher) (hashAlgo : HashAlgo) (object : ObjectId → Option RawObject)
    (ty : ObjectType) (payload : Bytes) : Prop where
  object : object (hashObject hasher hashAlgo ty payload) = some (ty, payload)
  length : (serializeLoose ty payload).length ≤ 2 ^ 30

/-- **A write adds its object or nothing.** -/
theorem Stocked.write (hz : z.Exact) (hcap : z.CapsOnly) (h : odb.Stocked z hasher hashAlgo object)
    (hkept : Kept hasher hashAlgo object ty payload) :
    Added object odb (odb.write ty payload).2 ∧
      (odb.write ty payload).2.Stocked z hasher hashAlgo object ∧
      ∀ id, (odb.write ty payload).2.loose.contains id = true →
        odb.loose.contains id = true ∨ id = hashObject hasher hashAlgo ty payload := by
  obtain ⟨rfl, rfl, rfl, hmax, hserves⟩ := h
  have hwrite : Added object odb (odb.write ty payload).2 ∧
    ∀ id, (odb.write ty payload).2.loose.contains id = true →
      odb.loose.contains id = true ∨ id =
        hashObject odb.loose.hasher odb.loose.algo ty payload := by
    cases hresult : (odb.write ty payload).1 with
    | error e =>
      have hsame : (odb.write ty payload).2 = odb :=
        congrArg (fun loose => ({ odb with loose := loose } : CombinedOdb))
          (LooseOdb.write_error hresult)
      rw [hsame]
      exact ⟨.refl _ _, fun _ hid => Or.inl hid⟩
    | ok id =>
      have hput : put ty payload odb = some (.ok id, (odb.write ty payload).2) := by
        rw [put, Exec.step_apply, ← hresult]
        rfl
      obtain ⟨hadded, hin⟩ := put_added hz hcap (by rw [hmax]; decide) hkept.object
        (by rw [hmax]; exact hkept.length) hput
      exact ⟨hadded, fun x hx => (hin x).mp hx⟩
  obtain ⟨hadded, hin⟩ := hwrite
  refine ⟨hadded, ⟨?_, ?_, ?_, ?_, hadded.serves hserves⟩, hin⟩
  all_goals rw [hadded.settings]
  exact hmax

/-- **A store on disk meets the laws** where it serves the objects there are, for writes of
these. -/
theorem contentAddressed (hz : z.Exact) (hcap : z.CapsOnly) :
    ContentAddressed hasher hashAlgo (Stocked z hasher hashAlgo object)
      (Kept hasher hashAlgo object) where
  held_write hheld hkept := (hheld.write hz hcap hkept).2.1
  algo_write hheld hkept := (hheld.write hz hcap hkept).2.1.algo_eq.trans hheld.algo_eq.symm
  read_write hheld hkept h := (hheld.write hz hcap hkept).1.readDepth hheld.serves h
  algo_eq hheld := hheld.algo_eq
  written {odb ty payload id} hheld hkept h := by
    have hid := LooseOdb.write_ok h
    have hthere : (odb.write ty payload).2.loose.contains
        (hashObject odb.loose.hasher odb.loose.algo ty payload) = true :=
      LooseOdb.contains_of_write h
    rw [hid, hheld.hasher_eq, hheld.algo_eq] at *
    refine ⟨rfl, (hheld.write hz hcap hkept).2.1.serves.reads _ ?_⟩
    rw [contains, ObjectStore.contains, hthere]
    rfl
  added {odb ty payload id r} hheld hkept h := by
    obtain ⟨hadded, hstocked, hin⟩ := hheld.write hz hcap hkept
    have hobject : object id = some r := hstocked.serves.same _ _ _ h
    have hold : odb.contains id = true → read odb id = .ok r := by
      intro hid
      obtain ⟨r', hr'⟩ := hheld.serves.reads id hid
      cases hobject.symm.trans (hheld.serves.same _ _ _ hr')
      exact hr'
    rcases hadded.contains_iff.mp (contains_of_read h) with hloose | hid
    · rcases hin id hloose with hid | rfl
      · left
        refine hold ?_
        rw [contains, ObjectStore.contains, hid]
        rfl
      · exact Or.inr ⟨rfl, Option.some.inj (hobject.symm.trans hkept.object)⟩
    · exact Or.inl (hold hid)

/-- **Where there is room for all objects, writes succeed.** -/
theorem contentStore (hz : z.Exact) (hcap : z.CapsOnly) : ContentStore hasher hashAlgo
    (fun odb : CombinedOdb => odb.Stocked z hasher hashAlgo object ∧ odb.loose.Room)
    (fun ty payload => Kept hasher hashAlgo object ty payload ∧
      ∃ compressed, z.deflate (serializeLoose ty payload) = .ok compressed) where
  held_write hheld hfits := ⟨(hheld.1.write hz hcap hfits.1).2.1, hheld.2.write⟩
  algo_write hheld hfits := (contentAddressed hz hcap).algo_write hheld.1 hfits.1
  read_write hheld hfits := (contentAddressed hz hcap).read_write hheld.1 hfits.1
  algo_eq hheld := hheld.1.algo_eq
  written hheld hfits := (contentAddressed hz hcap).written hheld.1 hfits.1
  added hheld hfits := (contentAddressed hz hcap).added hheld.1 hfits.1
  succeeds {odb ty payload} hheld hfits := by
    have hdeflate := hfits.2
    rw [← hheld.1.zlib_eq] at hdeflate
    exact hheld.2.write_returns hdeflate

/-! ### The store of a new repository -/

/-- Nothing is stored. -/
def empty (z : Zlib) (hasher : Hasher) (hashAlgo : HashAlgo) : CombinedOdb :=
  ⟨⟨LooseOdb.new z hasher FileTree.empty hashAlgo, []⟩, []⟩

theorem inner_empty_contains (id : ObjectId) :
    (empty z hasher hashAlgo).toObjectStore.contains id = false := by
  have hloose : (empty z hasher hashAlgo).loose.contains id = false := by
    rw [LooseOdb.contains_eq]
    show (FileTree.empty.get? (LooseOdb.loosePath id)).isSome = false
    rw [LooseOdb.loosePath, FileTree.get?_empty (List.cons_ne_nil _ _)]
    rfl
  rw [ObjectStore.contains, hloose]
  rfl

theorem empty_contains (id : ObjectId) : (empty z hasher hashAlgo).contains id = false := by
  rw [contains, inner_empty_contains]
  rfl

theorem stocked_empty : (empty z hasher hashAlgo).Stocked z hasher hashAlgo object :=
  ⟨rfl, rfl, rfl, rfl, serves_of_empty inner_empty_contains⟩

theorem room_empty : (empty z hasher hashAlgo).loose.Room := by
  intro id
  refine ⟨fun q d hq hleaf => ?_, fun hdir => ?_⟩
  · change FileTree.empty.get? q = some (.leaf d) at hleaf
    cases q with
    | nil => cases hleaf
    | cons c q =>
      rw [FileTree.get?_empty (List.cons_ne_nil _ _)] at hleaf
      cases hleaf
  · change FileTree.empty.get? (LooseOdb.loosePath id) = some .dir at hdir
    rw [LooseOdb.loosePath, FileTree.get?_empty (List.cons_ne_nil _ _)] at hdir
    cases hdir

end CombinedOdb

/-! ## The store is opened again -/

namespace Outside
variable {fs fs' : GitDir} {algo : HashAlgo}

/-- A file of the pack directory is loaded, or not, from the files there. -/
theorem loadPack_congr {name : Str} {r : Option LoadedPack}
    (hfiles : ∀ q, fs'.get? (str "pack" :: q) = fs.get? (str "pack" :: q))
    (h : loadPack fs algo name = .ok r) :
    loadPack fs' algo name = .ok r := by
  cases r with
  | some lp => exact loadPack_of_get? hfiles h
  | none =>
    rw [loadPack] at h ⊢
    split at h
    · obtain ⟨idx, -, h⟩ := except_bind_ok.mp h
      obtain ⟨index, -, h⟩ := except_bind_ok.mp h
      obtain ⟨data, -, h⟩ := except_bind_ok.mp h
      obtain ⟨pack, -, h⟩ := except_bind_ok.mp h
      cases h
    · rename_i hno
      rw [if_neg]
      intro hyes
      apply hno
      rw [Bool.and_eq_true] at hyes ⊢
      refine ⟨hyes.1, ?_⟩
      obtain ⟨e, he⟩ := Vfs.pathExists_iff.mp hyes.2
      obtain ⟨r, hr, hget, hdir⟩ := Vfs.stat_ok.mp he
      have hr' := hr
      rw [List.append_assoc] at hr'
      obtain ⟨rest, hrest⟩ := path_of_resolve_inPack hr'
      refine Vfs.pathExists_iff.mpr ⟨e, Vfs.stat_ok.mpr ⟨r, hr, ?_, hdir⟩⟩
      rw [hrest] at hget ⊢
      rw [← hfiles]
      exact hget

/-- The packs are loaded from the files of the pack directory. -/
theorem loadPacks_congr {out : Outside} {packs : List LoadedPack}
    (hfiles : ∀ q, fs'.get? (str "pack" :: q) = fs.get? (str "pack" :: q))
    (h : out.loadPacks fs algo = .ok packs) :
    out.loadPacks fs' algo = .ok packs := by
  have hresolve : Vfs.resolve (str "pack") = .ok ⟨[str "pack"], false⟩ := by decide
  have hchildren : fs'.children [str "pack"] = fs.children [str "pack"] := by
    refine FileTree.children_congr fun q hq => ?_
    obtain ⟨c, rest, rfl⟩ := List.exists_cons_of_ne_nil (l := q) (by rintro rfl; cases hq)
    cases rest with
    | nil => cases hq
    | cons d rest =>
      obtain ⟨rfl, -⟩ := List.cons.inj hq
      exact hfiles _
  have hexists : Vfs.pathExists fs' (str "pack") = Vfs.pathExists fs (str "pack") := by
    rw [Vfs.pathExists, Vfs.pathExists, Vfs.stat_of_resolve _ hresolve,
      Vfs.stat_of_resolve _ hresolve]
    rw [hfiles []]
    cases fs.get? [str "pack"] with
    | none => rfl
    | some e => rfl
  rw [loadPacks] at h ⊢
  rw [hexists]
  by_cases hpack : Vfs.pathExists fs (str "pack") = true
  · rw [if_pos hpack] at h ⊢
    obtain ⟨entries, hentries, hrest⟩ := except_bind_ok.mp h
    obtain ⟨loaded, hloaded, hpacks⟩ := except_bind_ok.mp hrest
    obtain ⟨hdir, rfl⟩ := (Vfs.readDir_ok_iff hresolve).mp hentries
    refine except_bind_ok.mpr ⟨_, (Vfs.readDir_ok_iff hresolve).mpr ⟨(hfiles []).trans hdir,
      hchildren.symm⟩, ?_⟩
    refine except_bind_ok.mpr ⟨loaded, ?_, hpacks⟩
    exact except_mapM_ok.mpr ((except_mapM_ok.mp hloaded).imp fun _ _ hr =>
      loadPack_congr hfiles hr)
  · rw [if_neg hpack] at h ⊢
    exact h

end Outside

namespace CombinedOdb
variable {out : Outside} {odb odb' : CombinedOdb}

/-- **A store with more loose objects is what its files say**, if the store before was. -/
theorem Opened.grown (h : odb.Opened out) (hgrown : Grown odb odb') : odb'.Opened out := by
  obtain ⟨hloose, hpacks, halternates⟩ := Outside.openOdb_ok h
  have hfiles : ∀ q, odb'.loose.fs.get? (str "pack" :: q) =
      odb.loose.fs.get? (str "pack" :: q) := fun q =>
    hgrown.get? (by decide)
  have hpacks' := Outside.loadPacks_congr hfiles hpacks
  have hinfo := hgrown.get? (c := str "info") (q := [str "alternates"]) (by decide)
  have hsettings := hgrown.settings
  rw [Opened, Outside.openOdb, Outside.openInner]
  rw [hsettings] at hpacks' hinfo ⊢
  simp only at hpacks' hinfo ⊢
  rw [hpacks', Outside.loadAlternates_congr out _ _ _ hinfo, ← halternates]
  show Except.ok _ = Except.ok _
  congr 2
  rw [hloose]
  rfl

end CombinedOdb

end Puregit
