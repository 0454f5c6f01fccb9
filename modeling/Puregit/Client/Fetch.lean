import Puregit.Client.Response
import Puregit.Ingest
import Puregit.Protocol.Request
import Puregit.Shallow

/-! # Fetching from a remote

A fetch asks for the advertised ids that the object store lacks, records the shallow boundary
that the response gives, takes the pack out of the response, stores its objects and opens the
object directory again.

Of a fetch that succeeds, what is no longer shallow has its parents in the store, if the
response was consistent.  The boundary is recorded before the pack is looked at, so that it
stays changed where the pack then turns out not to be there, or cannot be stored:
`doFetch_dependable`.
-/
namespace Puregit.Client
open Puregit.CombinedOdb

/-- A connection to a remote: what it advertises, and its answer to a request. -/
structure Transport where
  discover : Except Error RefAdvertisement
  exchange : Bytes → Except Error Bytes

/-- What a fetch has retrieved. -/
structure FetchOutcome where
  refs : List AdvertisedRef
  receivedObjects : Nat
  deriving DecidableEq

/-- The ids to ask for: those not in the store, or all of them where a shallow repository is
deepened. -/
def fetchWants (advert : RefAdvertisement) (depth : Option Nat) (repo : Repository) :
    Except Error (List ObjectId) := do
  let deepening ← if depth.isSome then repo.shallow.map fun ids => !ids.isEmpty else .ok false
  .ok ((advert.refs.filter fun r => !r.id.isZero && (deepening || !repo.odb.contains r.id)).map
    AdvertisedRef.id)

/-- The flags a fetch prefers. -/
def fetchFlags : List Str :=
  [str "ofs-delta", str "multi_ack", str "side-band-64k", str "thin-pack"]

/-- The request; a remote that cannot filter is not asked to. -/
def fetchRequest (advert : RefAdvertisement) (wants : List ObjectId) (depth : Option Nat)
    (filter : Option Str) (repo : Repository) : Except Error FetchRequest := do
  let refs ← repo.refs.list
  let shallows ← repo.shallow
  let filtered := filter.isSome && advert.capabilities.has (str "filter")
  let agreed := advert.capabilities.negotiateFlags fetchFlags
  let agreed := if filtered then agreed.addFlag (str "filter") else agreed
  .ok { FetchRequest.default with
    wants := wants
    haves := refs.toList.map Prod.snd
    capabilities := agreed.addValue (str "object-format") repo.algo.name
    deepen := depth
    shallows := shallows
    filter := if filtered then filter else none }

/-- Asks a remote: what it advertises, and the request and its answer where there is anything
to ask for. -/
def negotiate (transport : Transport) (depth : Option Nat) (filter : Option Str)
    (repo : Repository) :
    Except Error (List AdvertisedRef × Option (FetchRequest × Bytes)) := do
  let advert ← transport.discover
  let wants ← fetchWants advert depth repo
  if wants.isEmpty then .ok (advert.refs, none)
  else do
    let req ← fetchRequest advert wants depth filter repo
    let request ← req.encode
    let response ← transport.exchange request
    .ok (advert.refs, some (req, response))

/-- A boundary with the updates of a response: what becomes shallow, and what no longer is. -/
def updatedBoundary (boundary : BTreeSet ObjectId) (updates : List ObjectId × List ObjectId) :
    BTreeSet ObjectId :=
  (boundary.extend updates.1).retain fun id => !updates.2.contains id

/-- Applies the updates of a response to the recorded boundary. -/
def recordUpdates (response : Bytes) : Exec Repository Error Unit := do
  let updates ← Exec.read fun repo => parseShallowUpdates repo.algo response
  let boundary ← Exec.read Repository.shallowSet
  Repository.writeShallow (updatedBoundary boundary updates).toList

/-- The pack of a response, multiplexed or raw. -/
def responsePack (req : FetchRequest) (response : Bytes) : Except Error Bytes :=
  if req.capabilities.has (str "side-band-64k") then demuxSidebandPack response
    else stripToPack response

/-- Stores the objects of a response. -/
def receive (out : Outside) (req : FetchRequest) (response : Bytes) :
    Exec Repository Error Nat := do
  let pack ← Exec.ofExcept (responsePack req response)
  let ids ← Repository.onOdb (ingestPack pack)
  Repository.reload out
  pure ids.length

/-- Applies a response: the boundary, where a depth was asked for, and then the pack. -/
def applyResponse (out : Outside) (depth : Option Nat) (req : FetchRequest) (response : Bytes) :
    Exec Repository Error Nat := do
  (if depth.isSome then recordUpdates response else pure ())
  receive out req response

/-- Fetches what is missing of the advertised refs, with a depth or a filter. -/
def doFetch (out : Outside) (transport : Transport) (depth : Option Nat) (filter : Option Str) :
    Exec Repository Error FetchOutcome := do
  let (refs, asked) ← Exec.read (negotiate transport depth filter)
  match asked with
  | none => pure ⟨refs, 0⟩
  | some (req, response) => do
    let received ← applyResponse out depth req response
    pure ⟨refs, received⟩

/-! ## The boundary -/

/-- The ids of the updates are of the hash they are parsed with. -/
theorem algo_of_parseShallowUpdates {algo : HashAlgo} {response : Bytes}
    {updates : List ObjectId × List ObjectId} (h : parseShallowUpdates algo response =
      .ok updates) : ∀ id ∈ updates.1 ++ updates.2, id.algo = algo := by
  have hline : ∀ {rest : Bytes} {id : ObjectId}, parseOidLine algo rest = .ok id →
      id.algo = algo := by
    intro rest id hid
    rw [parseOidLine] at hid
    split at hid
    · cases hid
    · exact ObjectId.fromHex_algo hid
  have hpacket : ∀ {us us' : List ObjectId × List ObjectId} {p : PktLine.Packet},
      shallowPacket algo us p = .ok us' → (∀ id ∈ us.1 ++ us.2, id.algo = algo) →
      ∀ id ∈ us'.1 ++ us'.2, id.algo = algo := by
    intro us us' p hp hus id hid
    rw [shallowPacket.eq_def] at hp
    split at hp
    · split at hp
      · obtain ⟨new, hnew, rfl⟩ := except_map_ok.mp hp
        simp only [List.mem_append, List.mem_singleton] at hid hus
        rcases hid with (hid | rfl) | hid
        · exact hus id (Or.inl hid)
        · exact hline hnew
        · exact hus id (Or.inr hid)
      · split at hp
        · obtain ⟨new, hnew, rfl⟩ := except_map_ok.mp hp
          simp only [List.mem_append, List.mem_singleton] at hid hus
          rcases hid with hid | hid | rfl
          · exact hus id (Or.inl hid)
          · exact hus id (Or.inr hid)
          · exact hline hnew
        · cases hp
          exact hus id hid
    · cases hp
      exact hus id hid
  have hscan : ∀ {n : Nat} {input : Bytes} {us us' : List ObjectId × List ObjectId},
      shallowScan algo n input us = .ok us' → (∀ id ∈ us.1 ++ us.2, id.algo = algo) →
      ∀ id ∈ us'.1 ++ us'.2, id.algo = algo := by
    intro n
    induction n with
    | zero =>
        intro input us us' hs hus
        cases hs
        exact hus
    | succ n ih =>
        intro input us us' hs hus
        rw [shallowScan] at hs
        split at hs
        · cases hs
          exact hus
        · obtain ⟨decoded, -, hs⟩ := except_bind_ok.mp hs
          cases decoded with
          | none =>
              cases hs
              exact hus
          | some d =>
              obtain ⟨next, hnext, hs⟩ := except_bind_ok.mp hs
              exact ih hs (hpacket hnext hus)
  exact hscan h fun id hid => absurd hid List.not_mem_nil

/-- **What becomes of the recorded boundary.**  Where it cannot be written nothing changes. -/
theorem recordUpdates_returns (response : Bytes) (repo : Repository) :
    Exec.Returns (recordUpdates response) repo fun r repo' =>
      (r.toBool = false → repo' = repo ∧ ∀ updates boundary,
        parseShallowUpdates repo.algo response = .ok updates →
        repo.shallowSet = .ok boundary → repo.fs.get? Repository.shallowPath = some .dir) ∧
      (r.toBool = true → repo'.odb = repo.odb ∧ Repository.BesideShallow repo repo' ∧
        ∃ updates boundary, parseShallowUpdates repo.algo response = .ok updates ∧
          repo.shallowSet = .ok boundary ∧
          repo'.shallowSet = if repo.fs.get? Repository.shallowPath = some .dir then repo.shallowSet
            else .ok (updatedBoundary boundary updates)) := by
  refine .read_bind (fun e he => ⟨fun _ => ⟨rfl, ?_⟩, nofun⟩) fun updates hupdates => ?_
  · intro updates _ hok _
    cases he.symm.trans hok
  refine .read_bind (fun e he => ⟨fun _ => ⟨rfl, ?_⟩, nofun⟩) fun boundary hboundary => ?_
  · intro _ boundary _ hok
    cases he.symm.trans hok
  obtain ⟨ids, hids, rfl⟩ := except_map_ok.mp hboundary
  have halgo : ∀ id ∈ (updatedBoundary (BTreeSet.ofList ids) updates).toList, id.algo =
      repo.algo := by
    intro id hid
    rw [BTreeSet.mem_toList, updatedBoundary, BTreeSet.mem_retain, BTreeSet.mem_extend,
      BTreeSet.mem_ofList] at hid
    rcases hid.1 with hid | hid
    · exact algo_of_parseShallowUpdates hupdates id (List.mem_append_left _ hid)
    · exact Repository.algo_of_shallow hids id hid
  rcases Repository.writeShallow_spec
    (updatedBoundary (BTreeSet.ofList ids) updates).toList repo with
    ⟨hdir, hwrite⟩ | ⟨hdir, repo', hwrite, hodb, hbeside, hread⟩
  · refine .of_eq hwrite ⟨fun _ => ⟨rfl, fun _ _ _ _ => hdir⟩, fun _ =>
      ⟨rfl, ⟨rfl, fun _ _ => rfl⟩, updates, _,
      hupdates, hboundary, ?_⟩⟩
    rw [if_pos hdir]
  · refine .of_eq hwrite ⟨nofun, fun _ => ⟨hodb, hbeside, updates, _, hupdates, hboundary, ?_⟩⟩
    rw [if_neg hdir, Repository.shallowSet, hread halgo]
    exact congrArg Except.ok (BTreeSet.ext_mem fun id => by rw [BTreeSet.mem_ofList,
      BTreeSet.mem_toList])

/-! ## The pack -/

/-- The pack of a response is there, its objects can be stored, and the object directory can be
opened again. -/
def Receivable (out : Outside) (req : FetchRequest) (response : Bytes) (odb : CombinedOdb) : Prop :=
  ∃ pack ids odb', responsePack req response = .ok pack ∧
    ingestPack pack odb = some (.ok ids, odb') ∧
    (odb'.reopened out).toBool = true

/-- An object is in the object directory. -/
def InDirectory (out : Outside) (odb : CombinedOdb) (id : ObjectId) : Prop :=
  ∃ store, odb.reopened out = .ok store ∧ store.contains id = true

/-- **What has been received is in the store**, beside what was in the object directory. -/
theorem receive_returns (out : Outside) (req : FetchRequest) (response : Bytes)
    (repo : Repository) :
    Exec.Returns (receive out req response) repo fun r repo' =>
      repo'.fs = repo.fs ∧ repo'.algo = repo.algo ∧
        (r.toBool = true ↔ Receivable out req response repo.odb) ∧
      (r.toBool = true → ∀ pack, responsePack req response = .ok pack → ∀ id,
        InPacks repo.odb pack id ∨ InDirectory out repo.odb id → repo'.odb.contains id = true) := by
  refine .ofExcept_bind (fun e he => ⟨rfl, rfl, ⟨nofun, ?_⟩, nofun⟩) fun pack hpack => ?_
  · rintro ⟨pack, _, _, hpack, -⟩
    cases he.symm.trans hpack
  have hingest := (ingestPacks_returns (Nat.lt_succ_self pack.length) repo.odb).run
  refine (hingest.zoom (P := fun r repo' => ∃ odb', repo' = { repo with odb := odb' } ∧
    ingestPack pack repo.odb = some (r, odb') ∧ Grown repo.odb odb' ∧ (r.toBool = true → ∀ id,
      InPacks repo.odb pack id → odb'.loose.contains id = true)) ?_).bind ?_ ?_
  · exact fun r odb' h => ⟨odb', rfl, h⟩
  · rintro e _ ⟨odb', rfl, hrun, hgrown, -⟩
    refine ⟨rfl, ?_, ⟨nofun, ?_⟩, nofun⟩
    · show odb'.loose.algo = _
      rw [hgrown.settings]
      rfl
    · rintro ⟨pack', ids, odb'', hpack', hrun', -⟩
      cases hpack.symm.trans hpack'
      cases hrun.symm.trans hrun'
  · rintro ids _ ⟨odb', rfl, hrun, hgrown, hin⟩
    have halgo : odb'.loose.algo = repo.odb.loose.algo := by rw [hgrown.settings]
    -- after the ingest only the opening can fail
    have hreceivable : Receivable out req response repo.odb ↔
        (odb'.reopened out).toBool = true := by
      constructor
      · rintro ⟨pack', ids', odb'', hpack', hrun', hopen⟩
        cases hpack.symm.trans hpack'
        cases hrun.symm.trans hrun'
        exact hopen
      · exact fun hopen => ⟨pack, ids, odb', hpack, hrun, hopen⟩
    refine (Repository.reload_returns out { repo with odb := odb' }).bind ?_ ?_
    · rintro e repo' ⟨hfs, hsame, hopen, -⟩
      exact ⟨hfs, hsame.trans halgo, ⟨nofun, fun h => hopen.trans (hreceivable.mp h)⟩, nofun⟩
    · rintro _ repo' ⟨hfs, hsame, hopen, hodb⟩
      refine .of_eq rfl ⟨hfs, hsame.trans halgo, iff_of_true rfl (hreceivable.mpr hopen.symm), ?_⟩
      intro _ pack' hpack' id hid
      cases hpack.symm.trans hpack'
      rcases hid with hid | ⟨before, hbefore, hid⟩
      · exact contains_reopened_of_loose (hodb rfl) (hin rfl id hid)
      · exact contains_reopened hgrown hbefore (hodb rfl) hid

/-! ## What a caller can rely on -/

/-- What is no longer shallow has its parents in the object directory or in the packs. -/
def Consistent (out : Outside) (odb : CombinedOdb) (parents : ObjectId → List ObjectId)
    (unshallow : List ObjectId) (pack : Bytes) : Prop :=
  ∀ id ∈ unshallow, ∀ p ∈ parents id, InPacks odb pack p ∨ InDirectory out odb p

/-- **What a caller of a fetch relies on.**  A fetch that fails leaves the boundary and the refs
as they were.  After one that succeeds, the parents of what is no longer shallow are in the
store, if the response was consistent. -/
structure Dependable (out : Outside) (transport : Transport) (depth : Option Nat)
    (filter : Option Str) (repo : Repository) : Prop where
  failed : ∀ e repo', doFetch out transport depth filter repo = some (.error e, repo') →
    repo'.shallowSet = repo.shallowSet ∧ ∀ name, RefStore.IsRefName name → name ≠ str "shallow" →
      repo'.refs.lookup name = repo.refs.lookup name
  fetched : ∀ outcome repo', doFetch out transport depth filter repo = some (.ok outcome, repo') →
    ∀ refs req response updates pack, negotiate transport depth filter repo =
      .ok (refs, some (req, response)) →
    parseShallowUpdates repo.algo response = .ok updates → responsePack req response = .ok pack →
    ∀ parents, Consistent out repo.odb parents updates.2 pack →
    ∀ id ∈ updates.2, ∀ p ∈ parents id, repo'.odb.contains p = true

/-- The updates of a response leave the boundary as it is recorded, or its pack can be received. -/
def Harmless (out : Outside) (depth : Option Nat) (req : FetchRequest) (response : Bytes)
    (repo : Repository) : Prop :=
  ∀ updates boundary, depth.isSome = true → parseShallowUpdates repo.algo response = .ok updates →
    repo.shallowSet = .ok boundary → repo.fs.get? Repository.shallowPath ≠ some .dir →
    updatedBoundary boundary updates = boundary ∨ Receivable out req response repo.odb

theorem shallowSet_congr {repo repo' : Repository} (hfs : repo'.fs = repo.fs)
    (halgo : repo'.algo = repo.algo) :
    repo'.shallowSet = repo.shallowSet := by
  rw [Repository.shallowSet, Repository.shallowSet, Repository.shallow,
    Repository.shallow, hfs, halgo]

/-- **What a response does.** -/
theorem applyResponse_returns (out : Outside) (depth : Option Nat) (req : FetchRequest)
    (response : Bytes) (repo : Repository) :
    Exec.Returns (applyResponse out depth req response) repo fun r repo' =>
      Repository.BesideShallow repo repo' ∧
      ((r.toBool = false → repo'.shallowSet = repo.shallowSet) ↔
        Harmless out depth req response repo) ∧
      (r.toBool = true → ∀ pack, responsePack req response = .ok pack → ∀ id,
        InPacks repo.odb pack id ∨ InDirectory out repo.odb id → repo'.odb.contains id = true) := by
  rw [applyResponse]
  cases depth with
  | none =>
      refine (receive_returns out req response repo).mono ?_
      rintro r repo' ⟨hfs, halgo, -, hin⟩
      refine ⟨⟨halgo, fun q _ => by rw [hfs]⟩,
        iff_of_true (fun _ => shallowSet_congr hfs halgo) ?_, hin⟩
      exact fun _ _ hdepth => by cases hdepth
  | some n =>
      refine (recordUpdates_returns response repo).bind (fun e repo₁ h => ?_) fun _ repo₁ h => ?_
      · obtain ⟨rfl, hdir⟩ := h.1 rfl
        refine ⟨⟨rfl, fun _ _ => rfl⟩, iff_of_true (fun _ => rfl) ?_, nofun⟩
        exact fun updates boundary _ hupdates hboundary hno =>
          absurd (hdir updates boundary hupdates hboundary) hno
      obtain ⟨hodb, hbeside, updates, boundary, hupdates, hboundary, hnew⟩ := h.2 rfl
      refine (receive_returns out req response repo₁).mono ?_
      rintro r repo' ⟨hfs, halgo, hreceivable, hin⟩
      rw [hodb] at hreceivable hin
      refine ⟨hbeside.trans ⟨halgo, fun q _ => by rw [hfs]⟩, ?_, hin⟩
      rw [shallowSet_congr hfs halgo, hnew]
      split
      · rename_i hdir
        exact iff_of_true (fun _ => rfl) fun _ _ _ _ _ hno => absurd hdir hno
      · rename_i hdir
        constructor
        · intro hsame updates' boundary' _ hupdates' hboundary' _
          cases hupdates.symm.trans hupdates'
          cases hboundary.symm.trans hboundary'
          cases hr : r.toBool with
          | true => exact Or.inr (hreceivable.mp hr)
          | false => exact Or.inl (Except.ok.inj ((hsame hr).trans hboundary))
        · intro hharmless hr
          rcases hharmless updates boundary rfl hupdates hboundary hdir with heq | hall
          · rw [heq, hboundary]
          · rw [hreceivable.mpr hall] at hr
            cases hr

/-- Every response to the request of a fetch is harmless. -/
def HarmlessAnswer (out : Outside) (transport : Transport) (depth : Option Nat)
    (filter : Option Str) (repo : Repository) : Prop :=
  ∀ refs req response, negotiate transport depth filter repo = .ok (refs, some (req, response)) →
    Harmless out depth req response repo

/-- **What a fetch does.** -/
theorem doFetch_returns (out : Outside) (transport : Transport) (depth : Option Nat)
    (filter : Option Str) (repo : Repository) :
    Exec.Returns (doFetch out transport depth filter) repo fun r repo' =>
      Repository.BesideShallow repo repo' ∧
      ((r.toBool = false → repo'.shallowSet = repo.shallowSet) ↔
        HarmlessAnswer out transport depth filter repo) ∧
      (r.toBool = true → ∀ refs req response pack,
        negotiate transport depth filter repo = .ok (refs, some (req, response)) →
        responsePack req response = .ok pack → ∀ id,
        InPacks repo.odb pack id ∨ InDirectory out repo.odb id → repo'.odb.contains id = true) := by
  refine .read_bind (fun e he => ?_) fun asked hasked => ?_
  · refine ⟨⟨rfl, fun _ _ => rfl⟩, iff_of_true (fun _ => rfl) fun refs req response h => ?_, nofun⟩
    cases he.symm.trans h
  obtain ⟨refs, _ | ⟨req, response⟩⟩ := asked
  · refine .of_eq rfl ⟨⟨rfl, fun _ _ => rfl⟩,
      iff_of_true (fun _ => rfl) fun refs' req response h => ?_, ?_⟩
    · cases hasked.symm.trans h
    · intro _ refs' req response pack h
      cases hasked.symm.trans h
  have hanswer : HarmlessAnswer out transport depth filter repo ↔
      Harmless out depth req response repo := by
    constructor
    · exact fun h => h refs req response hasked
    · intro h refs' req' response' hasked'
      cases hasked.symm.trans hasked'
      exact h
  rw [hanswer]
  refine (applyResponse_returns out depth req response repo).bind ?_ ?_
  · rintro e repo' ⟨hbeside, hharmless, -⟩
    exact ⟨hbeside, hharmless, nofun⟩
  · rintro received repo' ⟨hbeside, hharmless, hin⟩
    refine .of_eq rfl ⟨hbeside, hharmless, fun _ refs' req' response' pack hasked' => ?_⟩
    cases hasked.symm.trans hasked'
    exact hin rfl pack

/-- **A fetch can be depended on exactly when the answer is harmless**: where it changes the
boundary, its pack must arrive, be stored and be found when the object directory is opened. -/
theorem doFetch_dependable (out : Outside) (transport : Transport) (depth : Option Nat)
    (filter : Option Str) (repo : Repository) :
    Dependable out transport depth filter repo ↔
      HarmlessAnswer out transport depth filter repo := by
  obtain ⟨r, repo', hrun, hbeside, hharmless, hin⟩ :=
    doFetch_returns out transport depth filter repo
  rw [← hharmless]
  constructor
  · intro h hr
    cases r with
    | error e => exact (h.failed e repo' hrun).1
    | ok outcome => cases hr
  · intro hboundary
    constructor
    · intro e repo'' hrun'
      cases hrun.symm.trans hrun'
      exact ⟨hboundary rfl, fun name hname hne => hbeside.lookup hname hne⟩
    · intro outcome repo'' hrun' refs req response updates pack hasked _ hpack parents
        hconsistent id hid p hp
      cases hrun.symm.trans hrun'
      exact hin rfl refs req response pack hasked hpack p (hconsistent id hid p hp)

/-! ## A response that is cut off -/

namespace FetchSample

/-- A commit the remote has. -/
def tip : ObjectId := .filled 0x11

/-- A remote with one branch that always gives the same answer. -/
def remote (response : Bytes) : Transport where
  discover := .ok ⟨[⟨str "refs/heads/main", tip⟩], Capabilities.new, .sha1⟩
  exchange _ := .ok response

/-- The update of the boundary, and nothing behind it. -/
def cutOff : Bytes := bytes "0034shallow 1111111111111111111111111111111111111111"

/-- Whether a fetch into a new repository succeeds, and the boundary afterwards. -/
def fetched (response : Bytes) : Option (Bool × Except Error (List ObjectId)) :=
  (doFetch .sorted (remote response) (some 1) none (.init .stored .sha .sha1)).map fun r =>
    (r.1.toBool, r.2.shallowSet.map BTreeSet.toList)

/-- Nothing is shallow before.  Cut off, the response changes that and the fetch fails; with a
pack of no objects behind it the fetch succeeds. -/
theorem fetches_end : (Repository.init .stored .sha .sha1).shallowSet.map BTreeSet.toList = .ok [] ∧
    fetched cutOff = some (false, .ok [tip]) ∧
    fetched (cutOff ++ bytes "00000008NAK\n" ++ packSignature ++ [0, 0, 0, 2, 0, 0, 0, 0] ++
      List.replicate 20 0) =
      some (true, .ok [tip]) := by
  decide +kernel

/-- **A fetch that fails has changed the boundary.** -/
theorem not_dependable :
    ¬ ∀ (out : Outside) (transport : Transport) (depth : Option Nat) (filter : Option Str)
    (repo : Repository), Dependable out transport depth filter repo := by
  intro h
  obtain ⟨hbefore, hcutOff, -⟩ := fetches_end
  obtain ⟨⟨r, repo'⟩, hdo, hr⟩ := Option.map_eq_some_iff.mp hcutOff
  obtain ⟨hfail, hboundary⟩ := Prod.mk.inj hr
  cases r with
  | ok outcome => cases hfail
  | error e =>
      have hsame := ((h _ _ _ _ _).failed e repo' hdo).1
      rw [hsame, hbefore] at hboundary
      cases hboundary

end FetchSample

end Puregit.Client
