import Puregit.Odb.Laws
import Puregit.Pack.Choice
import Puregit.Pack.Sequence
import Puregit.Server.Serve

/-! # Thin packs for partial clones

A thin pack leaves out the bases the client has.  What the client is taken to have is the
history it announced; a partial clone has of it only what its filter kept.  The bases are
offered without asking the filter, so that a delta may be sent against an object the
client was never given.  `thin_explodes_iff` says when that does not happen.
-/
namespace Puregit.Server
open ObjectDatabase

variable {D : Type} [ObjectDatabase D] {odb : D} {hasher : Hasher} {z : Zlib}

/-- Every object of a database has the id it is read under, and a length that fits in 64 bits. -/
structure Sound (hasher : Hasher) (odb : D) : Prop where
  id : ∀ id ty payload, read odb id = .ok (ty, payload) →
    hashObject hasher (algo odb) ty payload = id
  length : ∀ id ty payload, read odb id = .ok (ty, payload) → payload.length < 2 ^ 64

/-- The store of a client that holds those objects of `clientHas` that its filter keeps. -/
def partialClone (odb : D) (plan : Plan) (filter : ObjectFilter) : ExternalResolver := fun id =>
  match read odb id with
  | .ok (ty, payload) =>
    if plan.clientHas.contains id && filter.keeps ty payload.length then .ok (ty, payload)
    else .error (objectNotFound id)
  | .error e => .error e

/-! ## The writer of a response -/

theorem addObjects_valid {filter : ObjectFilter} {wanted : BTreeSet ObjectId} :
    ∀ {ids : List ObjectId} {w w' : PackWriter}, addObjects odb filter wanted ids w = .ok w' →
    w.Valid → w'.Valid ∧ w'.externalBases = w.externalBases ∧ w'.hasher = w.hasher ∧
      w'.algo = w.algo := by
  intro ids
  induction ids with
  | nil =>
    intro w w' h hv
    cases h
    exact ⟨hv, rfl, rfl, rfl⟩
  | cons id ids ih =>
    intro w w' h hv
    obtain ⟨⟨ty, payload⟩, -, h⟩ := except_bind_ok.mp h
    simp only at h
    split at h
    · exact ih h hv
    · have hrest := ih h (hv.add ty payload)
      exact hrest

theorem addBases_valid (odb : D) : ∀ (ids : List ObjectId) {w : PackWriter}, w.Valid →
    (addBases odb ids w).Valid ∧ (addBases odb ids w).hasher = w.hasher ∧
      (addBases odb ids w).algo = w.algo ∧
      ∀ b ∈ (addBases odb ids w).externalBases, b ∈ w.externalBases ∨
        ∃ id ∈ ids, read odb id = .ok (b.ty, b.payload) := by
  intro ids
  induction ids with
  | nil =>
    intro w hv
    exact ⟨hv, rfl, rfl, fun b hb => Or.inl hb⟩
  | cons id ids ih =>
    intro w hv
    rw [addBases]
    split
    · next ty payload hread =>
      obtain ⟨hv', hhasher, halgo, hbases⟩ := ih (hv.addExternalBase ty payload)
      refine ⟨hv', hhasher, halgo, ?_⟩
      intro b hb
      rcases hbases b hb with hb | ⟨id', hid', hr⟩
      · rcases PackWriter.mem_addEntry hb with hb | rfl
        · exact Or.inl hb
        · exact Or.inr ⟨id, List.mem_cons_self, hread⟩
      · exact Or.inr ⟨id', List.mem_cons_of_mem id hid', hr⟩
    · obtain ⟨hv', hhasher, halgo, hbases⟩ := ih hv
      refine ⟨hv', hhasher, halgo, ?_⟩
      intro b hb
      refine (hbases b hb).imp_right ?_
      rintro ⟨id', hid', hr⟩
      exact ⟨id', List.mem_cons_of_mem id hid', hr⟩

/-- What a writer of a thin response holds: objects of the plan, and bases the client is taken
to have, each under the id it was read under. -/
theorem buildPack_thin (hs : Sound hasher odb) {plan : Plan} {filter : Option Str}
    {wanted : List ObjectId} {w : PackWriter}
    (h : buildPack hasher odb plan filter wanted true = .ok w) :
    w.Valid ∧ w.hasher = hasher ∧ w.algo = algo odb ∧
      (∀ e ∈ w.entries, read odb e.id = .ok (e.ty, e.payload)) ∧
      ∀ b ∈ w.externalBases, b.id ∈ plan.clientHas ∧ read odb b.id = .ok (b.ty, b.payload) := by
  have hread : ∀ {e : PackEntry}, e ∈ w.entries →
      ∃ id ∈ plan.objects, read odb id = .ok (e.ty, e.payload) := fun he => buildPack_read h he
  obtain ⟨w₀, hw₀, h⟩ := except_bind_ok.mp h
  rw [if_pos rfl] at h
  cases h
  obtain ⟨hv₀, hnone, hhasher₀, halgo₀⟩ :=
    addObjects_valid hw₀ (PackWriter.valid_new hasher (algo odb))
  obtain ⟨hv, hhasher, halgo, hbases⟩ := addBases_valid odb
    (plan.clientHas.toList.take thinPackBaseCap) hv₀
  rw [hhasher₀] at hhasher
  rw [halgo₀] at halgo
  refine ⟨hv, hhasher, halgo, ?_, ?_⟩
  · intro e he
    obtain ⟨id, -, hr⟩ := hread he
    have hid : e.id = id := by
      rw [hv.ids e he, hhasher, halgo]
      exact hs.id id e.ty e.payload hr
    rwa [hid]
  · intro b hb
    rcases hbases b hb with hb' | ⟨id, hid, hr⟩
    · rw [hnone] at hb'
      cases hb'
    · have heq : b.id = id := by
        rw [hv.externalIds b hb, hhasher, halgo]
        exact hs.id id b.ty b.payload hr
      rw [heq]
      exact ⟨BTreeSet.mem_toList.mp (List.mem_of_mem_take hid), hr⟩

/-- What a client has of the bases offered to it: those that its filter keeps. -/
theorem partialClone_base {plan : Plan} {filter : ObjectFilter} {b : PackEntry}
    (hhas : b.id ∈ plan.clientHas) (hread : read odb b.id = .ok (b.ty, b.payload)) :
    (∀ r, partialClone odb plan filter b.id = .ok r → r = (b.ty, b.payload)) ∧
      ((∃ r, partialClone odb plan filter b.id = .ok r) ↔
        filter.keeps b.ty b.payload.length = true) := by
  have hcontains : plan.clientHas.contains b.id = true := hhas
  rw [partialClone, hread]
  simp only [hcontains, Bool.true_and]
  split
  · next hkeeps =>
    constructor
    · intro r hr
      exact (Except.ok.inj hr).symm
    · exact iff_of_true ⟨_, rfl⟩ hkeeps
  · next hkeeps =>
    constructor
    · intro r hr
      cases hr
    · refine iff_of_false ?_ hkeeps
      rintro ⟨r, hr⟩
      cases hr

/-! ## When a thin pack can be read -/

/-- **When a partial clone can read a thin pack.**  The pack of a response reads as the objects
queued for it, in the store of a client that holds what the filter keeps of the history it
announced, if and only if there are fewer than `2 ^ 32` of them and, in the state the writer
has reached when it comes to an object, the smallest encoding of the object is never the
delta against an offered base that the filter withholds and that is not among the objects
before it. -/
theorem thin_explodes_iff (hz : z.Exact) (hs : Sound hasher odb) {plan : Plan}
    {filter : Option Str} {wanted : List ObjectId} {w : PackWriter}
    (hbuild : buildPack hasher odb plan filter wanted true = .ok w) {out : PackWriter.PackOutput}
    (hout : w.finish z = .ok out) (hlen : out.pack.length < 2 ^ 64) :
    explodePack z hasher out.pack (algo odb)
        (partialClone odb plan (ObjectFilter.fromSpec filter)) =
      .ok (w.entries.map fun e => (e.id, e.ty, e.payload)) ↔
    w.entries.length < 2 ^ 32 ∧ ∀ before e after s, w.entries = before ++ e :: after →
      before.foldlM (w.writeObject z) (w.start) = .ok s →
      ∀ b ∈ PackWriter.externalWindow w.externalBases e.ty,
        (ObjectFilter.fromSpec filter).keeps b.ty b.payload.length = false →
        (∀ c ∈ before, c.id ≠ b.id) → ¬ w.Smallest z s e b := by
  obtain ⟨hv, hhasher, halgo, hentries, hbases⟩ := buildPack_thin hs hbuild
  have hhonest : w.Honest (partialClone odb plan (ObjectFilter.fromSpec filter)) := by
    constructor
    · intro b hb e he hid
      have hread := hentries e he
      rw [hid, (hbases b hb).2] at hread
      obtain ⟨hty, hpayload⟩ := Prod.mk.inj (Except.ok.inj hread)
      exact ⟨hty.symm, hpayload.symm⟩
    · intro b hb
      exact (partialClone_base (hbases b hb).1 (hbases b hb).2).1
  have hsize : ∀ e ∈ w.entries, e.payload.length < 2 ^ 64 :=
    fun e he => hs.length e.id e.ty e.payload (hentries e he)
  have hrun : ∃ s', w.entries.foldlM (w.writeObject z) w.start = .ok s' := by
    obtain ⟨s', hs', -⟩ := except_bind_ok.mp hout
    exact ⟨s', hs'⟩
  obtain ⟨s', hs'⟩ := hrun
  by_cases hcount : w.entries.length < 2 ^ 32
  · obtain ⟨hvalue, hiff⟩ := PackWriter.explodePackPrefix_finish hz hv hhonest hsize hcount hout
      hlen []
    rw [List.append_nil, hhasher, halgo] at hvalue hiff
    have hpack : explodePack z hasher out.pack (algo odb)
          (partialClone odb plan (ObjectFilter.fromSpec filter)) =
        .ok (w.entries.map fun e => (e.id, e.ty, e.payload)) ↔
        PackWriter.Resolvable z w (partialClone odb plan (ObjectFilter.fromSpec filter)) [] w.start
          w.entries := by
      rw [← hiff, explodePack, except_map_ok]
      constructor
      · rintro ⟨r, hr, -⟩
        exact ⟨r, hr⟩
      · rintro ⟨r, hr⟩
        exact ⟨r, hr, by rw [hvalue r hr]⟩
    rw [hpack, PackWriter.resolvable_iff hs', and_iff_right hcount]
    -- a base is known if it is among the objects before, or if the filter keeps it
    have hknown : ∀ {before : List PackEntry} {e b : PackEntry},
        b ∈ PackWriter.externalWindow w.externalBases e.ty →
        (PackWriter.Known (partialClone odb plan (ObjectFilter.fromSpec filter)) before b ↔
          ¬ ((ObjectFilter.fromSpec filter).keeps b.ty b.payload.length = false ∧
            ∀ c ∈ before, c.id ≠ b.id)) := by
      intro before e b hb
      have hmem := (PackWriter.mem_externalWindow hb).1
      rw [PackWriter.Known, (partialClone_base (hbases b hmem).1 (hbases b hmem).2).2, not_and_or,
        Bool.not_eq_false, or_comm]
      refine or_congr_right ?_
      simp only [ne_eq, not_forall, not_not, exists_prop]
    constructor
    · intro hall before e after s heq hfold b hb hkeeps hnew hsmall
      have hk := hall before e after heq s hfold b hb hsmall
      rw [List.nil_append] at hk
      exact (hknown hb).mp hk ⟨hkeeps, hnew⟩
    · intro hall before e after heq s hfold b hb hsmall
      rw [List.nil_append, hknown hb]
      rintro ⟨hkeeps, hnew⟩
      exact hall before e after s heq hfold b hb hkeeps hnew hsmall
  · refine iff_of_false ?_ fun h => hcount h.1
    intro hx
    obtain ⟨⟨results, consumed⟩, hwhole, heq⟩ := except_map_ok.mp hx
    have hlt := explodePackPrefix_length hwhole
    simp only at heq
    rw [heq, List.length_map] at hlt
    exact hcount hlt

/-! ## A withheld base -/

theorem sound_new (hasher : Hasher) (algo : HashAlgo) :
    Sound hasher (MemoryOdb.new hasher algo) := by
  have hnone : ∀ id, read (MemoryOdb.new hasher algo) id =
    .error (objectNotFound id) := fun _ => rfl
  constructor
  · intro id ty payload h
    rw [hnone] at h
    cases h
  · intro id ty payload h
    rw [hnone] at h
    cases h

/-- Objects written to a sound store are under their ids. -/
theorem Sound.write {odb : MemoryOdb} (hs : Sound hasher odb) (hhasher : odb.hasher = hasher)
    {ty : ObjectType} {payload : Bytes} (hlen : payload.length < 2 ^ 64) :
    Sound hasher (odb.write ty payload).2 := by
  have hread : ∀ id r, read (odb.write ty payload).2 id = .ok r → read odb id = .ok r ∨
      id = hashObject hasher odb.algo ty payload ∧ r = (ty, payload) := fun id r =>
    (MemoryOdb.contentStore hasher odb.algo).added ⟨hhasher, rfl⟩ trivial
  constructor
  · intro id ty' payload' hr
    have halgo : algo (odb.write ty payload).2 = algo odb := (MemoryOdb.write_same odb ty payload).2
    rw [halgo]
    rcases hread id _ hr with hr | ⟨rfl, heq⟩
    · exact hs.id id ty' payload' hr
    · cases heq
      rfl
  · intro id ty' payload' hr
    rcases hread id _ hr with hr | ⟨-, heq⟩
    · exact hs.length id ty' payload' hr
    · cases heq
      exact hlen

namespace ThinSample

/-- A store with a blob that the client announced. -/
def announced : MemoryOdb := ((MemoryOdb.new Hasher.sha .sha1).write .blob PackSample.held).2

/-- The store of the server, with a blob like it that the client wants. -/
def store : MemoryOdb := (announced.write .blob PackSample.sent).2

theorem sound_store : Sound Hasher.sha store := by
  have hheld : PackSample.held.length < 2 ^ 64 := by decide
  have hsent : PackSample.sent.length < 2 ^ 64 := by decide
  have hannounced : Sound Hasher.sha announced := (sound_new Hasher.sha .sha1).write rfl hheld
  exact hannounced.write (MemoryOdb.write_same _ _ _).1 hsent

theorem algo_store : algo store = .sha1 :=
  (MemoryOdb.write_same _ _ _).2.trans (MemoryOdb.write_same _ _ _).2

/-- The id of the blob the client announced. -/
def held : ObjectId := hashObject Hasher.sha .sha1 .blob PackSample.held

/-- The id of the blob it wants. -/
def sent : ObjectId := hashObject Hasher.sha .sha1 .blob PackSample.sent

/-- The plan of the response. -/
def plan : Plan := ⟨BTreeSet.ofList [sent], BTreeSet.ofList [held], [], []⟩

/-- A blob above the limit of the filter, which the client announced as well. -/
def large : Bytes := bytes "a file that nobody else than the receiver has, of some length"

/-- The store of the server with this blob. -/
def largeStore : MemoryOdb := (store.write .blob large).2

theorem sound_largeStore : Sound Hasher.sha largeStore := by
  have hhasher : store.hasher = Hasher.sha :=
    (MemoryOdb.write_same _ _ _).1.trans (MemoryOdb.write_same _ _ _).1
  exact sound_store.write hhasher (by decide)

theorem algo_largeStore : algo largeStore = .sha1 := (MemoryOdb.write_same _ _ _).2.trans algo_store

/-- The plan of a response to a client that announced both. -/
def largePlan : Plan :=
  ⟨BTreeSet.ofList [sent], BTreeSet.ofList [held, hashObject Hasher.sha .sha1 .blob large], [], []⟩

/-- The length of the base that the first object of a pack is written against. -/
def firstBase (w : PackWriter) (e : PackEntry) : Except Error (Option Nat) := do
  let raw ← Zlib.stored.deflate e.payload
  let best ← PackWriter.consider Zlib.stored raw e.payload
    (w.candidates w.start.bases e.ty w.start.pack.length) none
  .ok (best.map fun enc => enc.cand.base.length)

/-- The delta is against the smaller base, which the filter keeps. -/
theorem limited_runs :
    (buildPack Hasher.sha largeStore largePlan (some (str "blob:limit=50")) [sent] true).bind
    (fun w => (w.finish Zlib.stored).map fun out =>
      (w.entries.length, out.pack.length, w.externalBases.length, w.entries.map (firstBase w))) =
        .ok (1, 73, 2, [.ok (some 49)]) := by
  decide +kernel

/-- A filter that withholds one of two bases does no harm if the delta is against the other. -/
theorem limited_explodes : ∃ w out,
    buildPack Hasher.sha largeStore largePlan (some (str "blob:limit=50")) [sent] true = .ok w ∧
    w.finish Zlib.stored = .ok out ∧
    explodePack Zlib.stored Hasher.sha out.pack .sha1
        (partialClone largeStore largePlan (ObjectFilter.fromSpec (some (str "blob:limit=50")))) =
      .ok (w.entries.map fun e => (e.id, e.ty, e.payload)) := by
  obtain ⟨w, hw, hruns⟩ := except_bind_ok.mp limited_runs
  obtain ⟨out, hout, heq⟩ := except_map_ok.mp hruns
  simp only [Prod.mk.injEq] at heq
  obtain ⟨hentries, hlen, -, hbase⟩ := heq
  rw [← algo_largeStore]
  refine ⟨w, out, hw, hout,
    (thin_explodes_iff Zlib.stored_exact sound_largeStore hw hout ?_).mpr ⟨?_, ?_⟩⟩
  · rw [hlen]
    decide
  · rw [hentries]
    decide
  · rintro before e after s hsplit hfold b - hkeeps - ⟨-, raw, hraw, hshort⟩
    -- there is one object, so the writer is at the start
    rw [hsplit, List.length_append, List.length_cons] at hentries
    obtain rfl : before = [] := List.length_eq_zero_iff.mp (by omega)
    cases hfold
    rw [hsplit, List.nil_append, List.map_cons] at hbase
    obtain ⟨raw', hraw', hbase⟩ := except_bind_ok.mp (List.cons.inj hbase).1
    cases hraw.symm.trans hraw'
    obtain ⟨best, hbest, hbase⟩ := except_bind_ok.mp hbase
    obtain ⟨enc, rfl, hcand⟩ := (PackWriter.consider_iff hbest _).mpr hshort
    have hlength : enc.cand.base.length = 49 := Option.some.inj (Except.ok.inj hbase)
    rw [hcand] at hlength
    have hkept : ∀ ty, (ObjectFilter.fromSpec (some (str "blob:limit=50"))).keeps ty 49 = true := by
      intro ty
      cases ty <;> decide
    rw [hlength, hkept] at hkeeps
    cases hkeeps

/-- With `blob:none` the pack names a base the client was never given. -/
theorem blobNone_misses : ∃ w out,
    buildPack Hasher.sha store plan (some (str "blob:none")) [sent] true = .ok w ∧
    w.finish Zlib.stored = .ok out ∧
    explodePack Zlib.stored Hasher.sha out.pack .sha1
        (partialClone store plan (ObjectFilter.fromSpec (some (str "blob:none")))) =
      .error (objectNotFound held) := by
  have hrun : ((buildPack Hasher.sha store plan (some (str "blob:none")) [sent] true >>=
      PackWriter.finish Zlib.stored).map fun out =>
        explodePack Zlib.stored Hasher.sha out.pack .sha1
        (partialClone store plan (ObjectFilter.fromSpec (some (str "blob:none"))))) =
      .ok (.error (objectNotFound held)) := by
    decide +kernel
  obtain ⟨out, hout, hx⟩ := except_map_ok.mp hrun
  obtain ⟨w, hw, hout⟩ := except_bind_ok.mp hout
  exact ⟨w, out, hw, hout, hx⟩

end ThinSample
end Puregit.Server
