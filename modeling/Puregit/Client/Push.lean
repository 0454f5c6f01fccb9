import Puregit.Protocol.Push
import Puregit.Protocol.Report
import Puregit.Server.Receive
import Puregit.Server.Thin
import Puregit.Walk.SendSet

/-! # Pushing to a remote

A push asks for what the remote advertises, packs what its tip reaches and the advertised ids do
not, and sends a command for one ref and the pack.  Objects that the advertised ids reach are
offered as bases, so that the pack may be thin.

`makeRequest_request` says what a request is: a command, and the pack of a writer that holds objects
of the store, all of those that the advertised ids do not reach.
-/
namespace Puregit.Client
open ObjectDatabase ObjectGraph Relation Server

/-- A connection to a remote that is pushed to: what it advertises, and its answer to a request,
which may change the remote. -/
structure PushTransport (S : Type) where
  discover : S → Except Error RefAdvertisement
  exchange : Bytes → Exec S Error Bytes

/-- The value of a ref on the remote; zero where it is not advertised. -/
def remoteValue (algo : HashAlgo) (advert : RefAdvertisement) (name : Str) : ObjectId :=
  ((advert.refs.find? (·.name = name)).map (·.id)).getD (ObjectId.zero algo)

/-- The ids that the remote has. -/
def remoteHaves (advert : RefAdvertisement) : List ObjectId :=
  (advert.refs.filter fun r => !r.id.isZero).map (·.id)

/-- The most objects offered as bases. -/
def maxThinPackBases : Nat := 2000

/-- The flags a push prefers. -/
def pushFlags : List Str := [str "report-status-v2", str "report-status", str "ofs-delta"]

section
variable {C : Type} [ObjectDatabase C]

/-- Queues objects of the store. -/
def queueObjects (odb : C) : List ObjectId → PackWriter → Except Error PackWriter
  | [], writer => .ok writer
  | id :: ids, writer => do
    let (ty, payload) ← read odb id
    queueObjects odb ids (writer.add ty payload)

/-- The writer of the pack that brings a tip to a remote with the given ids. -/
def pushWriter (hasher : Hasher) (odb : C) (new : ObjectId) (haves : List ObjectId) :
    Except Error PackWriter := do
  let toSend ← objectsToSend (objectChildren odb) [new] haves
  let writer ← queueObjects odb toSend.toList (PackWriter.new hasher (algo odb))
  if haves.isEmpty then .ok writer
  else do
    let closure ← reachableObjects odb haves
    .ok (addBases odb (closure.toList.take maxThinPackBases) writer)

/-- The command of a push. -/
def pushCommand (algo : HashAlgo) (advert : RefAdvertisement) (old new : ObjectId) (name : Str) :
    PushRequest where
  commands := [⟨old, new, name⟩]
  capabilities := (advert.capabilities.negotiateFlags pushFlags).addValue
    (str "object-format") algo.name

/-- The bytes of a push: its command, and the pack. -/
def pushBytes (z : Zlib) (hasher : Hasher) (odb : C) (advert : RefAdvertisement)
    (old new : ObjectId) (name : Str) :
    Except Error Bytes := do
  let writer ← pushWriter hasher odb new (remoteHaves advert)
  let out ← writer.finish z
  let commands ← (pushCommand (algo odb) advert old new name).encode
  .ok (commands ++ out.pack)

/-- The request that brings a ref of the remote to a tip, unless it is there. -/
def makeRequest (z : Zlib) (hasher : Hasher) (odb : C) (advert : RefAdvertisement) (new : ObjectId)
    (name : Str) :
    Except Error (Option Bytes) :=
  if remoteValue (algo odb) advert name = new then .ok none
  else (pushBytes z hasher odb advert (remoteValue (algo odb) advert name) new name).map some

/-- The report on a ref that is where it should be. -/
def upToDate (name : Str) : ReportStatus := ⟨.ok (), [⟨name, .ok ()⟩]⟩

/-- Reads the report in a response. -/
def readReport (response : Bytes) : Except Error ReportStatus :=
  PktLine.decodeAllBounded response PktLine.maxPackets >>= ReportStatus.parse

/-- Pushes a local ref to a ref of the remote. -/
def push {S : Type} (z : Zlib) (hasher : Hasher) (odb : C) (refs : RefStore)
    (transport : PushTransport S) (localRef remoteRef : Str) : Exec S Error ReportStatus := do
  let new ← Exec.ofExcept (refs.resolve localRef)
  let advert ← Exec.read transport.discover
  match ← Exec.ofExcept (makeRequest z hasher odb advert new remoteRef) with
  | none => pure (upToDate remoteRef)
  | some request => do
    let response ← transport.exchange request
    Exec.ofExcept (readReport response)

/-! ## The writer of a push -/

variable {odb : C} {hasher : Hasher}

/-- An object that a closure has expanded is one, if it can be read. -/
theorem holds_of_mem_closure {roots : List ObjectId} {exclude r : BTreeSet ObjectId}
    (h : reachableObjectsExcluding odb roots exclude = .ok r) {id : ObjectId} (hid : id ∈ r)
    {object : ObjectType × Bytes} (hread : read odb id = .ok object) : Holds (graph odb) id := by
  obtain ⟨ks, hks⟩ := (explores_collectVisit odb exclude).expanded _ rfl h hid
  have hchildren : ∃ ks, objectChildren odb id = .ok ks := by
    rw [expandExcluding] at hks
    split at hks
    · cases hks
    · obtain ⟨ks, hks, -⟩ := except_map_ok.mp hks
      exact ⟨ks, hks⟩
  obtain ⟨ks, hks⟩ := hchildren
  obtain ⟨ty, payload⟩ := object
  obtain ⟨found, hfound, hks⟩ := except_bind_ok.mp hks
  cases hfound.symm.trans (readPresent_some.mpr hread)
  have hparse : childIds (algo odb) ty payload = .ok ks := hks
  rw [childIds_eq] at hparse
  obtain ⟨o, ho, -⟩ := except_map_ok.mp hparse
  exact Option.isSome_iff_exists.mpr ⟨o, graph_eq_some.mpr ⟨ty, payload, hread, ho⟩⟩

/-- Objects are queued under the ids they are read under. -/
theorem queueObjects_spec (hs : Sound hasher odb) : ∀ {ids : List ObjectId} {w w' : PackWriter},
    queueObjects odb ids w = .ok w' → w.Valid → w.hasher = hasher → w.algo = algo odb →
    w'.Valid ∧ w'.hasher = hasher ∧ w'.algo = algo odb ∧ w'.externalBases = w.externalBases ∧
      (∀ e ∈ w'.entries, e ∈ w.entries ∨ read odb e.id = .ok (e.ty, e.payload)) ∧
      (∀ e ∈ w.entries, e ∈ w'.entries) ∧
      ∀ id ∈ ids, ∃ e ∈ w'.entries, e.id = id := by
  intro ids
  induction ids with
  | nil =>
    intro w w' h hv hhasher halgo
    cases h
    exact ⟨hv, hhasher, halgo, rfl, fun e he => Or.inl he, fun e he => he, fun id hid =>
      absurd hid List.not_mem_nil⟩
  | cons id ids ih =>
    intro w w' h hv hhasher halgo
    obtain ⟨⟨ty, payload⟩, hread, h⟩ := except_bind_ok.mp h
    obtain ⟨hv', hhasher', halgo', hbases, hentries, hkept, hall⟩ :=
      ih h (hv.add ty payload) hhasher halgo
    have hid : hashObject w.hasher w.algo ty payload = id := by
      rw [hhasher, halgo]
      exact hs.id id ty payload hread
    refine ⟨hv', hhasher', halgo', hbases, fun e he => ?_, fun e he => ?_, fun x hx => ?_⟩
    · rcases hentries e he with he | he
      · rcases PackWriter.mem_addEntry he with he | rfl
        · exact Or.inl he
        · right
          show read odb (hashObject w.hasher w.algo ty payload) = _
          rw [hid]
          exact hread
      · exact Or.inr he
    · exact hkept e (PackWriter.mem_addEntry_of_mem he)
    · rcases List.mem_cons.mp hx with rfl | hx
      · obtain ⟨e, he, heq⟩ := PackWriter.exists_mem_addEntry w.entries
          ⟨hashObject w.hasher w.algo ty payload, ty, payload⟩
        exact ⟨e, hkept e he, heq.trans hid⟩
      · exact hall x hx

/-- Bases are offered under the ids they are read under. -/
theorem addBases_spec (hs : Sound hasher odb) :
    ∀ (ids : List ObjectId) {w : PackWriter}, w.Valid → w.hasher = hasher →
    w.algo = algo odb → (addBases odb ids w).Valid ∧ (addBases odb ids w).hasher = hasher ∧
      (addBases odb ids w).algo = algo odb ∧ (addBases odb ids w).entries = w.entries ∧
      ∀ b ∈ (addBases odb ids w).externalBases, b ∈ w.externalBases ∨
        read odb b.id = .ok (b.ty, b.payload) := by
  intro ids
  induction ids with
  | nil =>
    intro w hv hhasher halgo
    exact ⟨hv, hhasher, halgo, rfl, fun b hb => Or.inl hb⟩
  | cons id ids ih =>
    intro w hv hhasher halgo
    rw [addBases]
    cases hread : read odb id with
    | error e => exact ih hv hhasher halgo
    | ok object =>
      obtain ⟨ty, payload⟩ := object
      obtain ⟨hv', hhasher', halgo', hentries, hbases⟩ :=
        ih (hv.addExternalBase ty payload) hhasher halgo
      refine ⟨hv', hhasher', halgo', hentries, fun b hb => ?_⟩
      rcases hbases b hb with hb | hb
      · rcases PackWriter.mem_addEntry hb with hb | rfl
        · exact Or.inl hb
        · right
          show read odb (hashObject w.hasher w.algo ty payload) = _
          rw [hhasher, halgo, hs.id id ty payload hread]
          exact hread
      · exact Or.inr hb

/-- What a writer holds that brings a tip of a store to a remote with the given ids: objects of
the store, among them all that the tip reaches and the ids do not. -/
structure Carries (hasher : Hasher) (odb : C) (new : ObjectId) (haves : List ObjectId)
    (w : PackWriter) : Prop where
  valid : w.Valid
  hasher_eq : w.hasher = hasher
  algo_eq : w.algo = algo odb
  entries : ∀ e ∈ w.entries, read odb e.id = .ok (e.ty, e.payload)
  bases : ∀ b ∈ w.externalBases, read odb b.id = .ok (b.ty, b.payload)
  whole : ∀ x, ReflTransGen (Refers (graph odb)) new x →
    (∃ e ∈ w.entries, e.id = x) ∧ Holds (graph odb) x ∨
      ∃ v ∈ haves, ReflTransGen (Refers (graph odb)) v x

/-- **What a push packs.** -/
theorem pushWriter_carries (hs : Sound hasher odb) {new : ObjectId} {haves : List ObjectId}
    {w : PackWriter} (h : pushWriter hasher odb new haves = .ok w) :
    Carries hasher odb new haves w := by
  obtain ⟨toSend, hsend, h⟩ := except_bind_ok.mp h
  obtain ⟨queued, hqueued, h⟩ := except_bind_ok.mp h
  obtain ⟨hv, hhasher, halgo, hnone, hentries, -, hall⟩ :=
    queueObjects_spec hs hqueued (PackWriter.valid_new hasher (algo odb)) rfl rfl
  have hread : ∀ e ∈ queued.entries, read odb e.id = .ok (e.ty, e.payload) := by
    intro e he
    exact (hentries e he).resolve_left List.not_mem_nil
  have hwhole : ∀ x, ReflTransGen (Refers (graph odb)) new x →
      (∃ e ∈ queued.entries, e.id = x) ∧ Holds (graph odb) x ∨
        ∃ v ∈ haves, ReflTransGen (Refers (graph odb)) v x := by
    intro x hx
    by_cases hhave : ∃ v ∈ haves, ReflTransGen (Refers (graph odb)) v x
    · exact Or.inr hhave
    · have hmem : x ∈ toSend :=
        (mem_objectsToSend hsend).mpr ⟨⟨new, List.mem_singleton.mpr rfl, hx⟩, hhave⟩
      obtain ⟨e, he, rfl⟩ := hall x (BTreeSet.mem_toList.mpr hmem)
      obtain ⟨exclude, -, hclosure⟩ := except_bind_ok.mp hsend
      exact Or.inl ⟨⟨e, he, rfl⟩, holds_of_mem_closure hclosure hmem (hread e he)⟩
  by_cases hempty : haves.isEmpty = true
  · rw [if_pos hempty] at h
    cases h
    refine ⟨hv, hhasher, halgo, hread, fun b hb => ?_, hwhole⟩
    rw [hnone] at hb
    exact absurd hb List.not_mem_nil
  · rw [if_neg hempty] at h
    obtain ⟨closure, -, h⟩ := except_bind_ok.mp h
    cases h
    obtain ⟨hv', hhasher', halgo', hsame, hbases⟩ :=
      addBases_spec hs (closure.toList.take maxThinPackBases) hv hhasher halgo
    refine ⟨hv', hhasher', halgo', ?_, fun b hb => ?_, ?_⟩
    · rw [hsame]
      exact hread
    · rcases hbases b hb with hb | hb
      · rw [hnone] at hb
        exact absurd hb List.not_mem_nil
      · exact hb
    · rw [hsame]
      exact hwhole

/-- **A request** is the command and the pack of a writer that brings the tip. -/
theorem makeRequest_request (hs : Sound hasher odb) {z : Zlib} {advert : RefAdvertisement}
    {new : ObjectId} {name : Str} {request : Bytes}
    (h : makeRequest z hasher odb advert new name = .ok (some request)) :
    ∃ w out commands, Carries hasher odb new (remoteHaves advert) w ∧ w.finish z = .ok out ∧
      (pushCommand (algo odb) advert (remoteValue (algo odb) advert name) new name).encode =
        .ok commands ∧
      request = commands ++ out.pack := by
  rw [makeRequest] at h
  split at h
  · cases h
  obtain ⟨bytes, hbytes, heq⟩ := except_map_ok.mp h
  cases heq
  obtain ⟨w, hw, hbytes⟩ := except_bind_ok.mp hbytes
  obtain ⟨out, hout, hbytes⟩ := except_bind_ok.mp hbytes
  obtain ⟨commands, hcommands, hbytes⟩ := except_bind_ok.mp hbytes
  cases hbytes
  exact ⟨w, out, commands, pushWriter_carries hs hw, hout, hcommands, rfl⟩

/-- A tip is where it should be only if it is advertised there. -/
theorem makeRequest_none {z : Zlib} {advert : RefAdvertisement} {new : ObjectId} {name : Str}
    (hnew : new.isZero = false) (h : makeRequest z hasher odb advert new name = .ok none) :
    new ∈ remoteHaves advert ∧ ∃ r ∈ advert.refs, r.name = name ∧ r.id = new := by
  rw [makeRequest] at h
  split at h
  · rename_i hvalue
    rw [remoteValue] at hvalue
    cases hfind : advert.refs.find? (·.name = name) with
    | none =>
      rw [hfind] at hvalue
      have hzero : (ObjectId.zero (algo odb)).isZero = true := by
        cases algo odb with
        | sha1 => rfl
        | sha256 => rfl
      rw [show ObjectId.zero (algo odb) = new from hvalue, hnew] at hzero
      cases hzero
    | some r =>
      rw [hfind] at hvalue
      have hid : r.id = new := hvalue
      have hmem := List.mem_of_find?_eq_some hfind
      refine ⟨List.mem_map.mpr ⟨r, List.mem_filter.mpr ⟨hmem, ?_⟩, hid⟩, r, hmem, ?_, hid⟩
      · rw [hid, hnew]
        rfl
      · have hname := List.find?_some hfind
        exact of_decide_eq_true hname
  · obtain ⟨bytes, -, heq⟩ := except_map_ok.mp h
    cases heq

end

end Puregit.Client
