import Puregit.Odb.Absence
import Puregit.Odb.Chain
import Puregit.Odb.Files
import Puregit.Pack.Agreement
import Puregit.Pack.Verify

/-! # Reading from a dumb HTTP server

A dumb server serves the files of a repository.  An object is read from the cache, from its loose
file or from the packs that the server lists, which are fetched once.  A base by id is read in the
same way, by the same function, even one that is in the pack: nothing bounds how deep that goes.

`reads_within_iff` says how deep: as deep as the longest chain of bases by id, each the object that
the pack entry of the last one is a delta of.  On a cycle it never ends.  On a copy of a
well-formed repository every chain ends, and what is read is what the repository itself reads,
unless a loose object is too large or only an alternate has it (`copied_reads_iff`).
-/
namespace Puregit

/-- A dumb server: where it is, the hash of its repository, what it answers to a `GET`, and the
codec of the client. -/
structure DumbConfig where
  baseUrl : Str
  algo : HashAlgo
  zlib : Zlib
  get : Str → Except Error (Option Bytes)

/-- What the store keeps between reads: the objects read, and the packs once they are loaded. -/
structure DumbHttpOdb where
  cache : BTreeMap ObjectId RawObject
  packs : Option (List LoadedPack)

namespace DumbHttpOdb
open Exec

/-- A store that has read nothing. -/
def new : DumbHttpOdb := ⟨BTreeMap.empty, none⟩

/-- The largest loose object that is inflated. -/
def maxLooseObject : Nat := 512 * 1024 * 1024

/-- The address of a file of the object directory. -/
def objectUrl (cfg : DumbConfig) (name : Str) : Str := cfg.baseUrl ++ str "/objects/" ++ name

/-- A loose object, if the server has it. -/
def readLoose (cfg : DumbConfig) (id : ObjectId) : Except Error (Option RawObject) := do
  match ← cfg.get (objectUrl cfg (id.toHex.take 2 ++ '/' :: id.toHex.drop 2)) with
  | none => .ok none
  | some body => do
    let raw ← cfg.zlib.inflateCapped body maxLooseObject
    (parseLoose raw).map some

/-- The name of the pack that a line lists, without its extension. -/
def packStem (line : Str) : Option Str := do
  let name ← stripPrefix? (str "P ") (trim line)
  stripSuffix? (str ".pack") (trim name)

/-- Fetches a pack and its index; a pack of which one is not there is passed over. -/
def loadPack (cfg : DumbConfig) (stem : Str) : Except Error (Option LoadedPack) := do
  let idx ← cfg.get (objectUrl cfg (str "pack/" ++ (stem ++ str ".idx")))
  let pk ← cfg.get (objectUrl cfg (str "pack/" ++ (stem ++ str ".pack")))
  match idx, pk with
  | some idx, some pk => do
    let index ← PackIndex.parse cfg.algo idx
    let pack ← Pack.new pk cfg.algo
    .ok (some ⟨index, pack⟩)
  | _, _ => .ok none

/-- Fetches the packs that the server lists. -/
def loadPacks (cfg : DumbConfig) : Except Error (List LoadedPack) := do
  match ← cfg.get (objectUrl cfg (str "info/packs")) with
  | none => .ok []
  | some body => do
    let packs ← ((lines ((fromUtf8 body).getD [])).filterMap packStem).mapM (loadPack cfg)
    .ok packs.reduceOption

/-- The packs, fetched on the first use. -/
def ensurePacks (cfg : DumbConfig) : Exec DumbHttpOdb Error (List LoadedPack) :=
  Exec.step fun st =>
    match st.packs with
    | some packs => (.ok packs, st)
    | none =>
      match loadPacks cfg with
      | .ok packs => (.ok packs, { st with packs := some packs })
      | .error e => (.error e, st)

/-- Keeps an object that has been read. -/
def remember (id : ObjectId) (object : RawObject) : Exec DumbHttpOdb Error RawObject :=
  Exec.step fun st => (.ok object, { st with cache := st.cache.insert id object })

/-- The first pack with an offset for an id, and that offset. -/
def locate (packs : List LoadedPack) (id : ObjectId) : Option (LoadedPack × Nat) :=
  packs.findSome? fun lp => (lp.index.offsetOf id).map fun offset => (lp, offset)

/-- Reads the entry at an offset; every base by id is handed to `resolve`. -/
def readAt (z : Zlib) (p : Pack) (offset : Nat)
    (resolve : ObjectId → Exec DumbHttpOdb Error RawObject) :
    Exec DumbHttpOdb Error RawObject := do
  let (ends, deltas) ← Exec.ofExcept (Pack.chainAt z p (fun _ => none) offset)
  let (ty, base) ← match ends with
    | .whole ty content => pure (ty, content)
    | .outside id => resolve id
  let content ← Exec.ofExcept (Pack.applyAll base deltas)
  pure (ty, content)

/-- Reads an object; at most `n` reads may be under way at a time. -/
def read (cfg : DumbConfig) : Nat → ObjectId → Exec DumbHttpOdb Error RawObject
  | 0, _ => fun _ => none
  | n + 1, id => do
    match ← Exec.read fun st => .ok (st.cache.get? id) with
    | some object => pure object
    | none =>
      match ← Exec.ofExcept (readLoose cfg id) with
      | some object => remember id object
      | none => do
        let packs ← ensurePacks cfg
        match locate packs id with
        | some (lp, offset) => do
          let object ← readAt cfg.zlib lp.pack offset (read cfg n)
          remember id object
        | none => Exec.throw (objectNotFound id)

/-- **An entry is read** as with a base that answers at once: one that ends in the pack is, and one
that does not is answered behind its base. -/
theorem readAt_eq (z : Zlib) (p : Pack) (offset : Nat)
    (resolve : ObjectId → Exec DumbHttpOdb Error RawObject) (st : DumbHttpOdb) :
    readAt z p offset resolve st = match Pack.chainAt z p (fun _ => none) offset with
      | .ok (.outside id, _) => (resolve id st).map fun x =>
        (p.readAtWith z offset (fun _ => none) fun _ => x.1, x.2)
      | _ => some (p.readAtWith z offset (fun _ => none) fun id =>
          .error (objectNotFound id), st) := by
  rw [readAt, Exec.bind_apply, Exec.andThen, Exec.ofExcept, Pack.readAtWith_eq]
  simp only [Pack.readAtWith_eq]
  cases Pack.chainAt z p (fun _ => none) offset with
  | error e => rfl
  | ok x =>
    obtain ⟨ends, deltas⟩ := x
    -- the deltas are applied to whatever the end is
    have happly : ∀ (object : RawObject) (st : DumbHttpOdb),
        (Exec.ofExcept (Pack.applyAll object.2 deltas) >>= fun content =>
          (pure (object.1, content) : Exec DumbHttpOdb Error RawObject)) st =
          some ((Pack.applyAll object.2 deltas).map fun content => (object.1, content), st) := by
      intro object st
      rw [Exec.bind_apply, Exec.andThen, Exec.ofExcept]
      cases Pack.applyAll object.2 deltas <;> rfl
    cases ends with
    | whole ty content => exact happly (ty, content) st
    | outside id =>
      show ((resolve id) >>= fun object => _) st =
        (resolve id st).map fun x => (x.1 >>= fun object =>
          (Pack.applyAll object.2 deltas).map fun content => (object.1, content), x.2)
      rw [Exec.bind_apply, Exec.andThen]
      cases hr : resolve id st with
      | none => rfl
      | some x =>
        obtain ⟨r, st'⟩ := x
        cases r with
        | error e => rfl
        | ok object => exact happly object st'

/-! ## How deep a read goes -/

/-- The object that another is a delta of, if that is to be read by its id: it is no loose one, and
the chain of its pack entry ends at a base by id. -/
def baseOf (cfg : DumbConfig) (id : ObjectId) : Option ObjectId :=
  match readLoose cfg id, loadPacks cfg with
  | .ok none, .ok packs => (locate packs id).bind fun (lp, offset) =>
    match Pack.chainAt cfg.zlib lp.pack (fun _ => none) offset with
    | .ok (.outside base, _) => some base
    | _ => none
  | _, _ => none

/-- The chain of bases from an id has at most `n` objects. -/
inductive Within (cfg : DumbConfig) : Nat → ObjectId → Prop
  | last {n : Nat} {id : ObjectId} : baseOf cfg id = none → Within cfg (n + 1) id
  | delta {n : Nat} {id base : ObjectId} : baseOf cfg id = some base → Within cfg n base →
    Within cfg (n + 1) id

/-- The states that reads lead to. -/
inductive Reached (cfg : DumbConfig) : DumbHttpOdb → Prop
  | new : Reached cfg new
  | read {n : Nat} {id : ObjectId} {r : Except Error RawObject} {st st' : DumbHttpOdb} :
      Reached cfg st → read cfg n id st = some (r, st') → Reached cfg st'

/-- The packs, if there are any yet, are those of the server. -/
def Loaded (cfg : DumbConfig) (st : DumbHttpOdb) : Prop :=
  ∀ packs, st.packs = some packs → loadPacks cfg = .ok packs

variable {cfg : DumbConfig} {st st' : DumbHttpOdb} {id base : ObjectId} {n : Nat}
  {r : Except Error RawObject}

/-- What a read that is not answered by the cache gives, where `resolve` answers for its base. -/
def answer (cfg : DumbConfig) (id : ObjectId) (resolve : ExternalResolver) :
    Except Error RawObject := do
  match ← readLoose cfg id with
  | some object => .ok object
  | none => do
    let packs ← loadPacks cfg
    match locate packs id with
    | some (lp, offset) => lp.pack.readAtWith cfg.zlib offset (fun _ => none) resolve
    | none => .error (objectNotFound id)

/-- What is kept of an answer. -/
def keep (id : ObjectId) (r : Except Error RawObject) (st : DumbHttpOdb) : DumbHttpOdb :=
  match r with
  | .ok object => { st with cache := st.cache.insert id object }
  | .error _ => st

theorem ensurePacks_apply (h : Loaded cfg st) : ∃ st₁, ensurePacks cfg st =
    some (loadPacks cfg, st₁) ∧ st₁.cache = st.cache ∧ Loaded cfg st₁ := by
  rw [ensurePacks, Exec.step_apply]
  cases hpacks : st.packs with
  | some packs => exact ⟨st, by rw [h packs hpacks], rfl, h⟩
  | none =>
    cases hload : loadPacks cfg with
    | error e => exact ⟨st, rfl, rfl, h⟩
    | ok packs =>
      refine ⟨_, rfl, rfl, fun packs' heq => ?_⟩
      cases heq
      exact hload

theorem bind_remember (x : Exec DumbHttpOdb Error RawObject) (id : ObjectId) (st : DumbHttpOdb) :
    (x >>= remember id) st = (x st).map fun y => (y.1, keep id y.1 y.2) := by
  rw [Exec.bind_apply, Exec.andThen]
  cases x st with
  | none => rfl
  | some y =>
    obtain ⟨r, st'⟩ := y
    cases r <;> rfl

/-- The read of an id that is in no loose file. -/
theorem read_succ_packed (hst : Loaded cfg st) (hcache : st.cache.get? id = none)
    (hloose : readLoose cfg id = .ok none) (n : Nat) :
    ∃ st₁, st₁.cache = st.cache ∧ Loaded cfg st₁ ∧ read cfg (n + 1) id st = match loadPacks cfg with
      | .error e => some (.error e, st₁)
      | .ok packs => match locate packs id with
        | none => some (.error (objectNotFound id), st₁)
        | some (lp, offset) => (readAt cfg.zlib lp.pack offset (read cfg n) st₁).map fun y =>
            (y.1, keep id y.1 y.2) := by
  obtain ⟨st₁, hpacks, hsame, hst₁⟩ := ensurePacks_apply hst
  refine ⟨st₁, hsame, hst₁, ?_⟩
  rw [read, Exec.bind_apply, Exec.andThen, Exec.read, hcache]
  simp only [hloose]
  show (ensurePacks cfg >>= fun packs => _) st = _
  rw [Exec.bind_apply, Exec.andThen, hpacks]
  cases hload : loadPacks cfg with
  | error e => rfl
  | ok packs =>
    simp only
    cases hlocate : locate packs id with
    | none => rfl
    | some found => exact bind_remember _ id st₁

theorem answer_packed {packs : List LoadedPack} {lp : LoadedPack} {offset : Nat}
    (hloose : readLoose cfg id = .ok none) (hload : loadPacks cfg = .ok packs)
    (hlocate : locate packs id = some (lp, offset)) (resolve : ExternalResolver) :
    answer cfg id resolve = lp.pack.readAtWith cfg.zlib offset (fun _ => none) resolve := by
  simp only [answer, hloose, hload, hlocate, bind, Except.bind]

/-- A read that needs no base is answered. -/
theorem read_succ_last (hst : Loaded cfg st) (hcache : st.cache.get? id = none)
    (hbase : baseOf cfg id = none) (n : Nat) (resolve : ExternalResolver) : ∃ st₁, st₁.cache =
      st.cache ∧ Loaded cfg st₁ ∧
      read cfg (n + 1) id st = some (answer cfg id resolve,
        keep id (answer cfg id resolve) st₁) := by
  cases hloose : readLoose cfg id with
  | error e =>
    refine ⟨st, rfl, hst, ?_⟩
    rw [read, Exec.bind_apply, Exec.andThen, Exec.read, hcache]
    simp only [Exec.bind_apply, Exec.andThen, Exec.ofExcept, hloose]
    simp only [answer, hloose, bind, Except.bind, keep]
  | ok found =>
    cases found with
    | some object =>
      refine ⟨st, rfl, hst, ?_⟩
      rw [read, Exec.bind_apply, Exec.andThen, Exec.read, hcache]
      simp only [Exec.bind_apply, Exec.andThen, Exec.ofExcept, hloose]
      simp only [answer, hloose, bind, Except.bind]
      rfl
    | none =>
      obtain ⟨st₁, hsame, hst₁, hread⟩ := read_succ_packed hst hcache hloose n
      refine ⟨st₁, hsame, hst₁, hread.trans ?_⟩
      cases hload : loadPacks cfg with
      | error e => simp only [answer, hloose, hload, bind, Except.bind, keep]
      | ok packs =>
        simp only
        cases hlocate : locate packs id with
        | none => simp only [answer, hloose, hload, hlocate, bind, Except.bind, keep]
        | some found =>
          obtain ⟨lp, offset⟩ := found
          rw [baseOf, hloose, hload] at hbase
          simp only [hlocate, Option.bind_some] at hbase
          rw [answer_packed hloose hload hlocate]
          -- no base is asked for
          have hentry : readAt cfg.zlib lp.pack offset (read cfg n) st₁ =
              some (lp.pack.readAtWith cfg.zlib offset (fun _ => none) resolve, st₁) := by
            rw [readAt_eq, Pack.readAtWith_eq, Pack.readAtWith_eq]
            cases hchain : Pack.chainAt cfg.zlib lp.pack (fun _ => none) offset with
            | error e => rfl
            | ok x =>
              obtain ⟨ends, deltas⟩ := x
              rw [hchain] at hbase
              cases ends with
              | whole ty content => rfl
              | outside base => cases hbase
          simp only [hentry, Option.map_some]

/-- A read that needs a base is answered behind the read of that. -/
theorem read_succ_delta (hst : Loaded cfg st) (hcache : st.cache.get? id = none)
    (hbase : baseOf cfg id = some base) (n : Nat) :
    ∃ st₁, st₁.cache = st.cache ∧ Loaded cfg st₁ ∧ read cfg (n + 1) id st =
      (read cfg n base st₁).map fun x =>
        (answer cfg id fun _ => x.1, keep id (answer cfg id fun _ => x.1) x.2) := by
  rw [baseOf] at hbase
  split at hbase
  · rename_i packs hloose hload
    obtain ⟨⟨lp, offset⟩, hlocate, hchain⟩ := Option.bind_eq_some_iff.mp hbase
    simp only at hchain
    split at hchain
    · rename_i deltas hchain'
      cases hchain
      obtain ⟨st₁, hsame, hst₁, hread⟩ := read_succ_packed hst hcache hloose n
      refine ⟨st₁, hsame, hst₁, hread.trans ?_⟩
      simp only [hload, hlocate, readAt_eq, hchain', Option.map_map,
        answer_packed hloose hload hlocate]
      rfl
    · cases hchain
  · cases hbase

theorem read_succ_cached {object : RawObject} (h : st.cache.get? id = some object) (n : Nat) :
    read cfg (n + 1) id st = some (.ok object, st) := by
  rw [read, Exec.bind_apply, Exec.andThen, Exec.read, h]
  rfl

/-- A property of answers that the state keeps: the packs are the server's, the cache has the
property. -/
structure Good (cfg : DumbConfig) (Q : ObjectId → Except Error RawObject → Prop)
    (st : DumbHttpOdb) : Prop where
  loaded : Loaded cfg st
  cached : ∀ id object, st.cache.get? id = some object → Q id (.ok object)

theorem Good.keep {Q : ObjectId → Except Error RawObject → Prop} (h : Good cfg Q st) (hr : Q id r) :
    Good cfg Q (keep id r st) := by
  cases r with
  | error e => exact h
  | ok object =>
    refine ⟨h.loaded, fun id' object' hget => ?_⟩
    simp only [DumbHttpOdb.keep, BTreeMap.get?_insert] at hget
    split at hget
    · rename_i heq
      cases hget
      exact heq ▸ hr
    · exact h.cached id' object' hget

theorem good_new (Q : ObjectId → Except Error RawObject → Prop) : Good cfg Q new :=
  ⟨nofun, fun _ _ h => by cases h⟩

/-- **What every answer has, given its base has it, every read has**, and keeps. -/
theorem read_induction {Q : ObjectId → Except Error RawObject → Prop}
    (hanswer : ∀ id resolve, (∀ base, baseOf cfg id = some base → Q base (resolve base)) →
      Q id (answer cfg id resolve))
    (n : Nat) (id : ObjectId) (hst : Good cfg Q st) (hread : read cfg n id st = some (r, st')) :
    Q id r ∧ Good cfg Q st' := by
  induction n generalizing id st r st' with
  | zero => cases hread
  | succ n ih =>
    cases hcache : st.cache.get? id with
    | some object =>
      rw [read_succ_cached hcache] at hread
      cases hread
      exact ⟨hst.cached id object hcache, hst⟩
    | none =>
      have hgood : ∀ {st₁ : DumbHttpOdb}, st₁.cache = st.cache → Loaded cfg st₁ → Good cfg Q st₁ :=
          fun hsame hloaded =>
        ⟨hloaded, hsame ▸ hst.cached⟩
      cases hbase : baseOf cfg id with
      | none =>
        obtain ⟨st₁, hsame, hst₁, hrun⟩ := read_succ_last hst.loaded hcache hbase n fun id =>
          .error (objectNotFound id)
        cases hrun.symm.trans hread
        have hr := hanswer id (fun id => .error (objectNotFound id)) fun base h => by
          rw [hbase] at h; cases h
        exact ⟨hr, (hgood hsame hst₁).keep hr⟩
      | some base =>
        obtain ⟨st₁, hsame, hst₁, hrun⟩ := read_succ_delta hst.loaded hcache hbase n
        obtain ⟨⟨r₁, st₂⟩, hread₁, heq⟩ := Option.map_eq_some_iff.mp (hrun.symm.trans hread)
        cases heq
        obtain ⟨hr₁, hst₂⟩ := ih base (hgood hsame hst₁) hread₁
        have hr := hanswer id (fun _ => r₁) fun base' h => by
          cases hbase.symm.trans h
          exact hr₁
        exact ⟨hr, hst₂.keep hr⟩

theorem loaded_of_reached (h : Reached cfg st) : Loaded cfg st := by
  have hgood : Good cfg (fun _ _ => True) st := by
    induction h with
    | new => exact good_new _
    | read _ hread ih => exact (read_induction (fun _ _ _ => trivial) _ _ ih hread).2
  exact hgood.loaded

/-- **A read along a chain of bases returns.** -/
theorem read_returns (hid : Within cfg n id) (hst : Loaded cfg st) :
    ∃ r st', read cfg n id st = some (r, st') := by
  induction hid generalizing st with
  | @last n id hbase =>
    cases hcache : st.cache.get? id with
    | some object => exact ⟨_, _, read_succ_cached hcache n⟩
    | none =>
      obtain ⟨_, -, -, hrun⟩ := read_succ_last hst hcache hbase n fun id =>
        .error (objectNotFound id)
      exact ⟨_, _, hrun⟩
  | @delta n id base hbase _ ih =>
    cases hcache : st.cache.get? id with
    | some object => exact ⟨_, _, read_succ_cached hcache n⟩
    | none =>
      obtain ⟨st₁, -, hst₁, hrun⟩ := read_succ_delta hst hcache hbase n
      obtain ⟨r, st', hread⟩ := ih hst₁
      exact ⟨_, _, by rw [hrun, hread]; rfl⟩

/-- A read along a chain that is longer does not, with nothing in the cache. -/
theorem read_eq_none (hid : ¬Within cfg n id) (hst : Loaded cfg st)
    (hcache : ∀ id, st.cache.get? id = none) :
    read cfg n id st = none := by
  induction n generalizing id st with
  | zero => rfl
  | succ n ih =>
    cases hbase : baseOf cfg id with
    | none => exact absurd (.last hbase) hid
    | some base =>
      obtain ⟨st₁, hsame, hst₁, hrun⟩ := read_succ_delta hst (hcache id) hbase n
      rw [hrun, ih (fun h => hid (.delta hbase h)) hst₁ fun id => hsame ▸ hcache id]
      rfl

/-- **Every read returns within a depth exactly when no chain of bases is longer.** -/
theorem reads_within_iff (cfg : DumbConfig) (n : Nat) :
    (∀ st, Reached cfg st → ∀ id, ∃ r st', read cfg n id st = some (r, st')) ↔
      ∀ id, Within cfg n id := by
  constructor
  · intro h id
    by_contra hno
    obtain ⟨r, st', hread⟩ := h new .new id
    rw [read_eq_none hno (fun _ h => by cases h) fun _ => rfl] at hread
    cases hread
  · exact fun h st hst id => read_returns (h id) (loaded_of_reached hst)

/-! ## A copy of a repository -/

/-- The server has the files of an object store, and lists its packs. -/
structure Copied (cfg : DumbConfig) (out : Outside) (odb : CombinedOdb) : Prop where
  algo : odb.loose.algo = cfg.algo
  zlib : odb.loose.zlib = cfg.zlib
  plain : RefStore.PlainNames odb.loose.fs
  served : ∀ dir name, Outside.PlainName dir → Outside.PlainName name →
    cfg.get (objectUrl cfg (dir ++ '/' :: name)) = .ok (odb.loose.fs.leaf? [dir, name])
  listed : ∃ body text, odb.loose.fs.leaf? [str "info", str "packs"] = some body ∧
    fromUtf8 body = some text ∧
    ∀ stem, stem ∈ (lines text).filterMap packStem ↔
      (odb.loose.fs.leaf? [str "pack", stem ++ str ".idx"]).isSome ∧
        (odb.loose.fs.leaf? [str "pack", stem ++ str ".pack"]).isSome
  opened : out.loadPacks odb.loose.fs cfg.algo = .ok odb.packs

/-- A resolver for a pack that needs none. -/
def nowhere : ExternalResolver := fun id => .error (objectNotFound id)

/-- **A repository is well formed.**  Every loose object can be read.  Every pack holds the bases of
its objects, and each copy of an object is the object that the repository reads. -/
structure WellFormed (odb : CombinedOdb) : Prop where
  loose : ∀ id, odb.loose.contains id = true → ∃ object, odb.loose.read id = .ok object
  packed : ∀ lp ∈ odb.packs, ∀ id offset, lp.index.offsetOf id = some offset →
    ∃ object, odb.read id = .ok object ∧
    lp.pack.readAtWith odb.loose.zlib offset lp.index.offsetOf nowhere = .ok object

/-- Every loose object is one that is inflated. -/
def SmallLoose (cfg : DumbConfig) (odb : CombinedOdb) : Prop :=
  ∀ id body, odb.loose.fs.leaf? (LooseOdb.loosePath id) = some body →
    (cfg.zlib.inflateCapped body maxLooseObject).toBool = true

/-- No alternate has an object that the store itself does not have. -/
def Alone (odb : CombinedOdb) : Prop :=
  ∀ id, odb.loose.contains id = false → odb.locate id = none →
    odb.readAlternate (ObjectStore.maxDeltaDepth + 1) id = none

/-- A bound on the output refuses it or leaves it as it is. -/
def CapRefuses (z : Zlib) : Prop :=
  ∀ data m m' a b, z.inflateCapped data m = .ok a → z.inflateCapped data m' = .ok b → a = b

variable {out : Outside} {odb : CombinedOdb} {packs : List LoadedPack} {lp : LoadedPack}
  {offset : Nat}

/-- The parts of the hex form of an id name a file. -/
theorem plainName_loosePath {c : Str} (h : c ∈ LooseOdb.loosePath id) : Outside.PlainName c := by
  obtain ⟨hne, hdot⟩ := LooseOdb.component_of_loosePath h
  have hhex : ∀ x ∈ c, x ∈ id.toHex := by
    intro x hx
    rcases List.mem_cons.mp h with rfl | h
    · exact List.mem_of_mem_take hx
    · rw [List.mem_singleton.mp h] at hx
      exact List.mem_of_mem_drop hx
  have hhead : ∀ rest, c ≠ '.' :: rest := by
    rintro rest rfl
    simp [startsWith, List.isPrefixOf] at hdot
  refine ⟨?_, hhead _, fun hx => (LooseOdb.not_separator_of_mem_toHex (hhex _ hx)).1 rfl,
    fun hx => (LooseOdb.not_separator_of_mem_toHex (hhex _ hx)).2.2 rfl⟩
  simp [Vfs.isNormalComponent, hne, hhead []]

theorem Copied.get_loose (h : Copied cfg out odb) (id : ObjectId) :
    cfg.get (objectUrl cfg (id.toHex.take 2 ++ '/' :: id.toHex.drop 2)) =
      .ok (odb.loose.fs.leaf? (LooseOdb.loosePath id)) :=
  h.served _ _ (plainName_loosePath List.mem_cons_self)
    (plainName_loosePath (List.mem_cons_of_mem _ List.mem_cons_self))

/-- What is no loose object of the repository is none of the server. -/
theorem Copied.readLoose_absent (h : Copied cfg out odb) (hid : odb.loose.contains id = false) :
    readLoose cfg id = .ok none := by
  rw [LooseOdb.contains_eq] at hid
  have hleaf : odb.loose.fs.leaf? (LooseOdb.loosePath id) = none := by
    rw [FileTree.leaf?, Option.isNone_iff_eq_none.mp (Option.isSome_eq_false_iff.mp hid)]
  rw [readLoose, h.get_loose, hleaf]
  rfl

/-- A loose object is read as in the repository if it is inflated. -/
theorem Copied.readLoose_present (h : Copied cfg out odb) (hcap : CapRefuses cfg.zlib)
    (hwf : WellFormed odb) (hid : odb.loose.contains id = true) : ∃ object body,
      odb.read id = .ok object ∧
      odb.loose.fs.leaf? (LooseOdb.loosePath id) = some body ∧
      ((cfg.zlib.inflateCapped body maxLooseObject).toBool = true →
        readLoose cfg id = .ok (some object)) ∧
      ((cfg.zlib.inflateCapped body maxLooseObject).toBool = false →
        ∃ e, readLoose cfg id = .error e) := by
  obtain ⟨object, hobject⟩ := hwf.loose id hid
  obtain ⟨⟨body, hbody⟩, -⟩ := LooseOdb.leaf_of_read hobject
  have hleaf := FileTree.leaf?_eq_some.mpr hbody
  refine ⟨object, body, ?_, hleaf, ?_, ?_⟩
  · rw [CombinedOdb.read, ObjectStore.readDepth, if_pos hid]
    exact hobject
  · intro hsmall
    obtain ⟨raw, hraw⟩ := exists_ok hsmall
    rw [LooseOdb.read, if_neg (by rw [hid]; decide)] at hobject
    obtain ⟨compressed, hread, hobject⟩ := except_bind_ok.mp hobject
    obtain ⟨raw', hraw', hobject⟩ := except_bind_ok.mp hobject
    obtain ⟨⟨ty, payload⟩, hparse, hobject⟩ := except_bind_ok.mp hobject
    simp only at hobject
    split at hobject
    · cases hobject
    · cases hobject
      rw [(Vfs.read_of_resolve (LooseOdb.resolve_objectPath id)).mp hread] at hbody
      cases hbody
      rw [h.zlib] at hraw'
      cases hcap _ _ _ _ _ hraw hraw'
      rw [readLoose, h.get_loose, hleaf]
      show (cfg.zlib.inflateCapped body maxLooseObject >>= fun raw => (parseLoose raw).map some) = _
      rw [hraw]
      show (parseLoose raw).map some = _
      rw [hparse]
      rfl
  · intro hbig
    rw [readLoose, h.get_loose, hleaf]
    show ∃ e, (cfg.zlib.inflateCapped body maxLooseObject >>= fun raw =>
      (parseLoose raw).map some) = .error e
    cases hraw : cfg.zlib.inflateCapped body maxLooseObject with
    | error e => exact ⟨e, rfl⟩
    | ok raw =>
      rw [hraw] at hbig
      cases hbig

/-- The packs of the server are those of the repository. -/
theorem Copied.mem_loadPacks (h : Copied cfg out odb) :
    ∃ packs, loadPacks cfg = .ok packs ∧ ∀ lp, lp ∈ packs ↔ lp ∈ odb.packs := by
  obtain ⟨body, text, hbody, htext, hstems⟩ := h.listed
  -- a stem whose files are there
  have hfiles : ∀ {stem : Str}, (odb.loose.fs.leaf? [str "pack", stem ++ str ".idx"]).isSome →
      (odb.loose.fs.leaf? [str "pack", stem ++ str ".pack"]).isSome →
        ∃ lp, loadPack cfg stem = .ok (some lp) ∧
        Outside.loadPack odb.loose.fs cfg.algo (stem ++ str ".idx") = .ok (some lp) := by
    intro stem hidx hpack
    obtain ⟨idx, hidx⟩ := Option.isSome_iff_exists.mp hidx
    obtain ⟨data, hpack⟩ := Option.isSome_iff_exists.mp hpack
    have hpidx : Outside.PlainName (stem ++ str ".idx") :=
      h.plain _ _ (FileTree.leaf?_eq_some.mp hidx) _ (by simp)
    have hppack : Outside.PlainName (stem ++ str ".pack") :=
      h.plain _ _ (FileTree.leaf?_eq_some.mp hpack) _ (by simp)
    have hdir : Outside.PlainName (str "pack") := ⟨by decide, by decide, by decide, by decide⟩
    have hfile : Outside.packFile (stem ++ str ".idx") = stem ++ str ".pack" := by
      rw [Outside.packFile, List.length_append, show (str ".idx").length = 4 from rfl,
        Nat.add_sub_cancel, List.take_left]
    have hload : Outside.loadPack odb.loose.fs cfg.algo (stem ++ str ".idx") =
        PackIndex.parse cfg.algo idx >>= fun index => Pack.new data cfg.algo >>= fun pack =>
          .ok (some ⟨index, pack⟩) := by
      have hpath : str "pack/" ++ (stem ++ str ".idx").take
        ((stem ++ str ".idx").length - 4) ++ str ".pack" =
          str "pack/" ++ (stem ++ str ".pack") := by
        rw [List.append_assoc, ← hfile]
        rfl
      have hread := (Vfs.read_of_resolve (Outside.resolve_inPack hpidx)).mpr
        (FileTree.leaf?_eq_some.mp hidx)
      have hread' := (Vfs.read_of_resolve (Outside.resolve_inPack hppack)).mpr
        (FileTree.leaf?_eq_some.mp hpack)
      have hends : endsWith (stem ++ str ".idx") (str ".idx") = true :=
        List.isSuffixOf_iff_suffix.mpr (List.suffix_append _ _)
      have hexists : Vfs.pathExists odb.loose.fs (str "pack/" ++ (stem ++ str ".pack")) = true := by
        rw [Vfs.pathExists, Vfs.stat_of_resolve _ (Outside.resolve_inPack hppack),
          FileTree.leaf?_eq_some.mp hpack]
        rfl
      rw [Outside.loadPack]
      simp only [hpath, hends, hexists, Bool.and_self, if_true, hread, hread', except_ok_bind]
    have hload' : loadPack cfg stem =
        PackIndex.parse cfg.algo idx >>= fun index => Pack.new data cfg.algo >>= fun pack =>
          .ok (some ⟨index, pack⟩) := by
      have hget := h.served _ _ hdir hpidx
      have hget' := h.served _ _ hdir hppack
      rw [hidx] at hget
      rw [hpack] at hget'
      rw [loadPack, show str "pack/" ++ (stem ++ str ".idx") =
        str "pack" ++ '/' :: (stem ++ str ".idx") from rfl,
        show str "pack/" ++ (stem ++ str ".pack") =
          str "pack" ++ '/' :: (stem ++ str ".pack") from rfl, hget, hget']
      rfl
    obtain ⟨loaded, hloaded⟩ :=
      Outside.loadPack_of_loadPacks h.opened (FileTree.leaf?_eq_some.mp hidx)
    obtain ⟨index, hindex, hloaded'⟩ := except_bind_ok.mp (hload.symm.trans hloaded)
    obtain ⟨pack, hnew, hsome⟩ := except_bind_ok.mp hloaded'
    cases hsome
    exact ⟨⟨index, pack⟩, hload'.trans (hload.symm.trans hloaded), hloaded⟩
  have hget : cfg.get (objectUrl cfg (str "info/packs")) = .ok (some body) := by
    have hserved := h.served (str "info") (str "packs") ⟨by decide, by decide, by decide, by decide⟩
      ⟨by decide, by decide, by decide, by decide⟩
    rw [hbody] at hserved
    exact hserved
  obtain ⟨loaded, hloaded⟩ : ∃ loaded, ((lines text).filterMap packStem).mapM (loadPack cfg) =
      .ok loaded := by
    refine except_mapM_exists fun stem hstem => ?_
    obtain ⟨hidx, hpack⟩ := (hstems stem).mp hstem
    obtain ⟨lp, hlp, -⟩ := hfiles hidx hpack
    exact ⟨_, hlp⟩
  refine ⟨loaded.reduceOption, ?_, fun lp => ?_⟩
  · rw [loadPacks, hget]
    show ((lines ((fromUtf8 body).getD [])).filterMap packStem).mapM (loadPack cfg) >>= _ = _
    rw [htext, Option.getD_some, hloaded]
    rfl
  · rw [List.reduceOption_mem_iff, Outside.mem_loadPacks h.opened]
    constructor
    · intro hmem
      obtain ⟨stem, hstem, hlp⟩ := mem_of_except_mapM hloaded hmem
      obtain ⟨hidx, hpack⟩ := (hstems stem).mp hstem
      obtain ⟨lp', hlp', hload⟩ := hfiles hidx hpack
      cases hlp.symm.trans hlp'
      obtain ⟨idx, hidx⟩ := Option.isSome_iff_exists.mp hidx
      exact ⟨_, _, FileTree.leaf?_eq_some.mp hidx, hload⟩
    · rintro ⟨name, e, he, hload⟩
      obtain ⟨hends, idx, data, hidx, hdata, -, -⟩ :=
        (Outside.loadPack_ok (h.plain _ _ he _ (by simp))).mp hload
      obtain ⟨stem, rfl⟩ := List.isSuffixOf_iff_suffix.mp hends
      have hfile : Outside.packFile (stem ++ str ".idx") = stem ++ str ".pack" := by
        rw [Outside.packFile, List.length_append, show (str ".idx").length = 4 from rfl,
          Nat.add_sub_cancel, List.take_left]
      rw [hfile] at hdata
      have hidx' : (odb.loose.fs.leaf? [str "pack", stem ++ str ".idx"]).isSome := by
        rw [FileTree.leaf?_eq_some.mpr hidx]; rfl
      have hpack' : (odb.loose.fs.leaf? [str "pack", stem ++ str ".pack"]).isSome := by
        rw [FileTree.leaf?_eq_some.mpr hdata]; rfl
      obtain ⟨lp', hlp', hload'⟩ := hfiles hidx' hpack'
      cases hload.symm.trans hload'
      obtain ⟨r, hr, hlp⟩ := except_mapM_mem hloaded ((hstems stem).mpr ⟨hidx', hpack'⟩)
      cases hlp.symm.trans hlp'
      exact hr

/-- The id that is located is in a pack of the repository. -/
theorem mem_of_locate (h : locate packs id = some (lp, offset)) :
    lp ∈ packs ∧ lp.index.offsetOf id = some offset := by
  obtain ⟨lp', hmem, hlp⟩ := List.exists_of_findSome?_eq_some h
  obtain ⟨o, ho, heq⟩ := Option.map_eq_some_iff.mp hlp
  cases heq
  exact ⟨hmem, ho⟩

/-- What a pack of a well-formed repository has, read with its bases by id elsewhere: it needs none,
or one that the pack has with a shorter chain. -/
theorem WellFormed.entry (hwf : WellFormed odb) (hlp : lp ∈ odb.packs)
    (hoffset : lp.index.offsetOf id = some offset) :
    ∃ ty content full b, odb.read id = .ok (ty, content) ∧
      Pack.chainAt odb.loose.zlib lp.pack lp.index.offsetOf offset = .ok (.whole ty b, full) ∧
        Pack.applyAll b full = .ok content ∧
      ∃ ends deltas, Pack.chainAt odb.loose.zlib lp.pack (fun _ => none) offset =
        .ok (ends, deltas) ∧
        ((ends = .whole ty b ∧ full = deltas) ∨ ∃ base o rest c, ends = .outside base ∧
          lp.index.offsetOf base = some o ∧
          Pack.chainAt odb.loose.zlib lp.pack lp.index.offsetOf o = .ok (.whole ty b, rest) ∧
            rest.length < full.length ∧
          odb.read base = .ok (ty, c) ∧ Pack.applyAll c deltas = .ok content) := by
  obtain ⟨⟨ty, content⟩, hread, hentry⟩ := hwf.packed lp hlp id offset hoffset
  obtain ⟨ends, full, b, hchain, hend, happly⟩ := Pack.readAtWith_ok.mp hentry
  cases ends with
  | outside base => cases hend
  | whole ty' b' =>
    cases hend
    refine ⟨ty, content, full, b, hread, hchain, happly, ?_⟩
    obtain ⟨ends, deltas, hcut, ⟨hends, hfull⟩ | ⟨base, o, rest, hends, hlocate, hne, hfull,
      hbase⟩⟩ := Pack.chainEnd_cut hchain
    · exact ⟨ends, deltas, hcut, Or.inl ⟨hends, hfull⟩⟩
    · rw [List.nil_append] at hfull
      rw [hfull, Pack.applyAll_append] at happly
      obtain ⟨c, hc, happly⟩ := except_bind_ok.mp happly
      have hwhole := hbase _ (Nat.le_refl _)
      obtain ⟨object, hobject, hread'⟩ := hwf.packed lp hlp base o hlocate
      have hentry' : lp.pack.readAtWith odb.loose.zlib o lp.index.offsetOf nowhere = .ok (ty, c) :=
        Pack.readAtWith_ok.mpr ⟨_, rest, b, hwhole, rfl, hc⟩
      cases hentry'.symm.trans hread'
      refine ⟨ends, deltas, hcut, Or.inr ⟨base, o, rest, c, hends, hlocate, hwhole, ?_,
        hobject, happly⟩⟩
      rw [hfull, List.length_append]
      have := List.length_pos_iff.mpr hne
      omega

theorem locate_eq_none : locate packs id = none ↔ ∀ lp ∈ packs, lp.index.offsetOf id = none := by
  simp [locate, List.findSome?_eq_none_iff]

/-- An id is located in the first pack that has it. -/
theorem locate_append {front back : List LoadedPack}
    (hfront : ∀ lp ∈ front, lp.index.offsetOf id = none) (hoffset : lp.index.offsetOf id =
      some offset) : locate (front ++ lp :: back) id = some (lp, offset) := by
  have hnone := locate_eq_none.mpr hfront
  rw [locate] at hnone ⊢
  rw [List.findSome?_append, hnone, Option.none_or, List.findSome?_cons, hoffset]
  rfl

theorem baseOf_eq_some : baseOf cfg id = some base ↔ readLoose cfg id = .ok none ∧
    ∃ packs lp offset deltas,
    loadPacks cfg = .ok packs ∧ locate packs id = some (lp, offset) ∧
      Pack.chainAt cfg.zlib lp.pack (fun _ => none) offset = .ok (.outside base, deltas) := by
  rw [baseOf]
  constructor
  · intro h
    split at h
    · rename_i packs hloose hload
      obtain ⟨⟨lp, offset⟩, hlocate, hchain⟩ := Option.bind_eq_some_iff.mp h
      simp only at hchain
      split at hchain
      · rename_i deltas hchain'
        cases hchain
        exact ⟨hloose, packs, lp, offset, deltas, hload, hlocate, hchain'⟩
      · cases hchain
    · cases h
  · rintro ⟨hloose, packs, lp, offset, deltas, hload, hlocate, hchain⟩
    simp only [hloose, hload, hlocate, Option.bind_some, hchain]

/-- **On a copy every chain of bases ends.**  From the first pack of an object it goes on in that
pack, where it gets shorter, or to an object whose first pack is in front of it. -/
theorem Copied.exists_within (h : Copied cfg out odb) (hwf : WellFormed odb) (id : ObjectId) :
    ∃ n, Within cfg n id := by
  obtain ⟨packs, hload, hmem⟩ := h.mem_loadPacks
  -- the induction is on the packs in front; the last of them is the first that has the id
  have hfront : ∀ front back, packs = front ++ back →
      ∀ id, (∃ lp ∈ front, lp.index.offsetOf id ≠ none) → ∃ n, Within cfg n id := by
    intro front
    induction front using List.reverseRecOn with
    | nil =>
      rintro back - id ⟨lp, hlp, -⟩
      cases hlp
    | append_singleton front lp ih =>
      intro back hpacks
      rw [List.append_assoc, List.singleton_append] at hpacks
      have hlp : lp ∈ odb.packs := (hmem lp).mp (by rw [hpacks]; simp)
      -- within the pack it is on the length of the chain
      have hpack : ∀ m id offset e full, lp.index.offsetOf id = some offset →
          Pack.chainAt odb.loose.zlib lp.pack lp.index.offsetOf offset = .ok (e, full) →
            full.length < m → ∃ n, Within cfg n id := by
        intro m
        induction m with
        | zero => exact fun _ _ _ _ _ _ hm => absurd hm (Nat.not_lt_zero _)
        | succ m ihm =>
          intro id offset e full hoffset hchain hm
          by_cases hold : ∃ lp ∈ front, lp.index.offsetOf id ≠ none
          · exact ih (lp :: back) hpacks id hold
          push Not at hold
          cases hbase : baseOf cfg id with
          | none => exact ⟨1, .last hbase⟩
          | some base =>
            obtain ⟨-, packs', lp', offset', deltas, hload', hlocate, hcut⟩ :=
              baseOf_eq_some.mp hbase
            cases hload.symm.trans hload'
            rw [hpacks, locate_append hold hoffset] at hlocate
            cases hlocate
            rw [← h.zlib] at hcut
            obtain ⟨ty, content, full', b, -, hchain', -, ends, deltas', hcut', hends⟩ :=
              hwf.entry hlp hoffset
            cases hchain.symm.trans hchain'
            cases hcut.symm.trans hcut'
            rcases hends with ⟨hwhole, -⟩ | ⟨base', o, rest, c, hends, ho, hrest, hshort, -⟩
            · cases hwhole
            · cases hends
              obtain ⟨n, hn⟩ := ihm base o _ rest ho hrest (by omega)
              exact ⟨n + 1, .delta hbase hn⟩
      rintro id ⟨lp', hlp', hid⟩
      rcases List.mem_append.mp hlp' with hlp' | hlp'
      · exact ih (lp :: back) hpacks id ⟨lp', hlp', hid⟩
      · cases List.mem_singleton.mp hlp'
        obtain ⟨offset, hoffset⟩ := Option.ne_none_iff_exists'.mp hid
        obtain ⟨ty, content, full, b, -, hchain, -⟩ := hwf.entry hlp hoffset
        exact hpack _ id offset _ full hoffset hchain (Nat.lt_succ_self _)
  cases hbase : baseOf cfg id with
  | none => exact ⟨1, .last hbase⟩
  | some base =>
    obtain ⟨-, packs', lp, offset, -, hload', hlocate, -⟩ := baseOf_eq_some.mp hbase
    cases hload.symm.trans hload'
    obtain ⟨hlp, hoffset⟩ := mem_of_locate hlocate
    exact hfront packs [] (List.append_nil _).symm id ⟨lp, hlp, by rw [hoffset]; nofun⟩

/-- What is in no pack of the server is in none of the repository. -/
theorem Copied.locate_eq_none (h : Copied cfg out odb) (hload : loadPacks cfg = .ok packs) :
    locate packs id = none ↔ odb.locate id = none := by
  obtain ⟨packs', hload', hmem⟩ := h.mem_loadPacks
  cases hload.symm.trans hload'
  rw [DumbHttpOdb.locate_eq_none, show odb.locate id = locate odb.packs id from rfl,
    DumbHttpOdb.locate_eq_none]
  exact ⟨fun h lp hlp => h lp ((hmem lp).mpr hlp), fun h lp hlp => h lp ((hmem lp).mp hlp)⟩

/-- What is in none of the files of the repository is not there. -/
theorem Copied.answer_absent (h : Copied cfg out odb) (hloose : odb.loose.contains id = false)
    (hpack : odb.locate id = none) (resolve : ExternalResolver) :
    baseOf cfg id = none ∧ answer cfg id resolve = .error (objectNotFound id) := by
  obtain ⟨packs, hload, -⟩ := h.mem_loadPacks
  have hlocate := (h.locate_eq_none hload).mpr hpack
  have hnone := h.readLoose_absent hloose
  constructor
  · rw [baseOf, hnone, hload]
    simp only [hlocate, Option.bind_none]
  · simp only [answer, hnone, hload, hlocate, bind, Except.bind]

/-- **An answer on a copy** is what the repository reads, given its base is. -/
theorem Copied.answer_ok (h : Copied cfg out odb) (hwf : WellFormed odb)
    (hcap : CapRefuses cfg.zlib) (hsmall : SmallLoose cfg odb)
    (halone : Alone odb) (resolve : ExternalResolver)
    (hresolve : ∀ base, baseOf cfg id = some base → ∀ object, resolve base = .ok object ↔
      odb.read base = .ok object) (object : RawObject) :
    answer cfg id resolve = .ok object ↔ odb.read id = .ok object := by
  cases hloose : odb.loose.contains id with
  | true =>
    obtain ⟨object', body, hread, hbody, hok, -⟩ := h.readLoose_present hcap hwf hloose
    rw [hread, answer, hok (hsmall id body hbody)]
    rfl
  | false =>
    cases hpack : odb.locate id with
    | none =>
      rw [(h.answer_absent hloose hpack resolve).2, CombinedOdb.read, ObjectStore.readDepth, hloose,
        hpack, halone id hloose hpack]
      exact ⟨nofun, nofun⟩
    | some found =>
      obtain ⟨packs, hload, hmem⟩ := h.mem_loadPacks
      have hnone := h.readLoose_absent hloose
      obtain ⟨⟨lp, offset⟩, hlocate⟩ := Option.ne_none_iff_exists'.mp fun hlocate => by
        rw [(h.locate_eq_none hload).mp hlocate] at hpack
        cases hpack
      obtain ⟨hlp, hoffset⟩ := mem_of_locate hlocate
      obtain ⟨ty, content, full, b, hread, -, hfull, ends, deltas, hcut, hends⟩ :=
        hwf.entry ((hmem lp).mp hlp) hoffset
      rw [h.zlib] at hcut
      have hanswer : answer cfg id resolve = .ok (ty, content) := by
        rw [answer_packed hnone hload hlocate, Pack.readAtWith_ok]
        rcases hends with ⟨rfl, rfl⟩ | ⟨base, o, rest, c, rfl, -, -, -, hbase, happly⟩
        · exact ⟨_, _, b, hcut, rfl, hfull⟩
        · have hid : baseOf cfg id = some base :=
            baseOf_eq_some.mpr ⟨hnone, packs, lp, offset, deltas, hload, hlocate, hcut⟩
          exact ⟨_, _, c, hcut, (hresolve base hid _).mpr hbase, happly⟩
      rw [hanswer, hread]

/-- **On a copy every read returns what the repository reads** exactly when no loose object is too
large and no alternate is needed. -/
theorem copied_reads_iff (h : Copied cfg out odb) (hwf : WellFormed odb)
    (hcap : CapRefuses cfg.zlib) :
    (∀ st, Reached cfg st → ∀ id, ∃ n r st', read cfg n id st = some (r, st') ∧ ∀ object,
      r = .ok object ↔ odb.read id = .ok object) ↔
      SmallLoose cfg odb ∧ Alone odb := by
  constructor
  · intro hreads
    -- a first read that needs no base
    have hfirst : ∀ id, baseOf cfg id = none → ∀ object, answer cfg id nowhere = .ok object ↔
        odb.read id = .ok object := by
      intro id hbase
      obtain ⟨n, r, st', hread, hr⟩ := hreads new .new id
      cases n with
      | zero => cases hread
      | succ n =>
        have hnew : Loaded cfg new := fun _ h => by cases h
        obtain ⟨st₁, -, -, hrun⟩ := read_succ_last hnew rfl hbase n nowhere
        cases hrun.symm.trans hread
        exact hr
    constructor
    · intro id body hbody
      have hloose : odb.loose.contains id = true := by
        rw [LooseOdb.contains_eq, FileTree.leaf?_eq_some.mp hbody]
        rfl
      obtain ⟨object, body', hread, hbody', -, hbig⟩ := h.readLoose_present hcap hwf hloose
      cases hbody.symm.trans hbody'
      by_contra hno
      obtain ⟨e, he⟩ := hbig (Bool.not_eq_true _ ▸ hno)
      have hanswer := (hfirst id (by rw [baseOf, he]) object).mpr hread
      rw [answer, he] at hanswer
      cases hanswer
    · intro id hloose hpack
      obtain ⟨hbase, hanswer⟩ := h.answer_absent hloose hpack nowhere
      cases hother : odb.readAlternate (ObjectStore.maxDeltaDepth + 1) id with
      | none => rfl
      | some object =>
        have hread : odb.read id = .ok object := by
          rw [CombinedOdb.read, ObjectStore.readDepth, hloose, hpack, hother]
          rfl
        have hok := (hfirst id hbase object).mpr hread
        rw [hanswer] at hok
        cases hok
  · rintro ⟨hsmall, halone⟩ st hst id
    obtain ⟨n, hn⟩ := h.exists_within hwf id
    obtain ⟨r, st', hread⟩ := read_returns hn (loaded_of_reached hst)
    refine ⟨n, r, st', hread, ?_⟩
    have hkeep : ∀ n id {st st' : DumbHttpOdb} {r : Except Error RawObject},
        Good cfg (fun id r => ∀ object, r = .ok object ↔ odb.read id = .ok object) st →
          read cfg n id st = some (r, st') →
          (∀ object, r = .ok object ↔ odb.read id = .ok object) ∧
            Good cfg (fun id r => ∀ object, r = .ok object ↔ odb.read id = .ok object) st' :=
      fun n id _ _ _ hst hread => read_induction (fun _ resolve hresolve =>
        h.answer_ok hwf hcap hsmall halone resolve hresolve) n id hst hread
    have hgood : Good cfg (fun id r => ∀ object, r = .ok object ↔ odb.read id = .ok object) st := by
      clear hread
      induction hst with
      | new => exact good_new _
      | read _ hread ih => exact (hkeep _ _ ih hread).2
    exact (hkeep n id hgood hread).1

/-- **Reads from a dumb server** return within a depth exactly when no chain of bases is longer.  On
a copy of a well-formed repository they return, and return what the repository reads, exactly when
no loose object is too large and no alternate is needed. -/
theorem dumbReads_iff (cfg : DumbConfig) (n : Nat) :
    ((∀ st, Reached cfg st → ∀ id, ∃ r st', read cfg n id st = some (r, st')) ↔
      ∀ id, Within cfg n id) ∧
      ∀ out odb, Copied cfg out odb → WellFormed odb → CapRefuses cfg.zlib →
        ((∀ st, Reached cfg st → ∀ id, ∃ m r st', read cfg m id st = some (r, st') ∧ ∀ object,
          r = .ok object ↔ odb.read id = .ok object) ↔
          SmallLoose cfg odb ∧ Alone odb) :=
  ⟨reads_within_iff cfg n, fun _ _ h hwf hcap => copied_reads_iff h hwf hcap⟩

/-! ## Two servers -/

namespace DumbSample
open Pack PackWriter PackSample
open VerifySample (idx)

/-- The server of the files of an object directory. -/
def serving (fs : GitDir) : DumbConfig :=
  ⟨[], .sha1, .stored, fun url => .ok (((stripPrefix? (str "/objects/") url).bind
    (splitOnce '/')).bind fun (dir, name) => fs.leaf? [dir, name])⟩

theorem get_serving {fs : GitDir} {dir name : Str} (hdir : '/' ∉ dir) :
    (serving fs).get (objectUrl (serving fs) (dir ++ '/' :: name)) =
      .ok (fs.leaf? [dir, name]) := by
  have hurl : stripPrefix? (str "/objects/") (objectUrl (serving fs) (dir ++ '/' :: name)) =
      some (dir ++ '/' :: name) :=
    stripPrefix?_eq_some.mpr (by rw [objectUrl]; rfl)
  have hsplit : splitOnce '/' (dir ++ '/' :: name) = some (dir, name) :=
    splitOnce_eq_some.mpr ⟨rfl, hdir⟩
  simp only [serving] at hurl ⊢
  rw [hurl, Option.bind_some, hsplit, Option.bind_some]

/-- Adds a pack, its index and the list of it. -/
def addPack (fs : GitDir) (pack : Bytes) (rows : List (ObjectId × UInt8)) :
    Except Error GitDir := do
  let fs ← Vfs.write fs (str "pack/pack-0.pack") pack
  let fs ← Vfs.write fs (str "pack/pack-0.idx") (idx rows)
  Vfs.write fs (str "info/packs") (bytes "P pack-0.pack\n")

/-- An object directory with a loose blob `z`, and a pack of `x` and of `y` as a delta against it by
id. -/
def repository : Except Error CombinedOdb := do
  let loose := ((LooseOdb.new .stored .sha FileTree.empty .sha1).write .blob [122]).2
  let entry := entryHeader 3 1 ++ (Zlib.blockHeader 1 ++ ([120] ++ Zlib.adler32 [120]))
  let fs ← addPack loose.fs (packHeader 2 ++ (entry ++ refEntry [120] 121)) [(blobId [120], 12),
    (blobId [121], 12 + UInt8.ofNat entry.length)]
  Outside.sorted.openOdb .stored .sha fs .sha1

/-- A repository whose only loose object has an id, whose only index is `pack-0.idx`, and whose pack
reads like the store. -/
def checked (odb : CombinedOdb) (id : ObjectId) : Bool :=
  (odb.loose.fs.entries.toList.all fun b => b.1.all fun c => Vfs.isNormalComponent c &&
    c != str ".." && !c.contains '/' && !c.contains (Char.ofNat 0)) &&
  (odb.loose.fs.entries.toList.all fun b => match b.1 with
    | [dir, name] => (dir.length != 2 || b.1 == LooseOdb.loosePath id) && (dir != str "pack" ||
      !endsWith name (str ".idx") || name == str "pack-0.idx")
    | _ => true) &&
  odb.loose.fs.leaf? [str "info", str "packs"] == some (bytes "P pack-0.pack\n") &&
  (odb.loose.fs.leaf? [str "pack", str "pack-0.idx"]).isSome &&
    (odb.loose.fs.leaf? [str "pack", str "pack-0.pack"]).isSome &&
  (odb.loose.read id).toBool &&
  odb.packs.all fun lp => (List.range lp.index.count).all fun i => match lp.index.idAt i with
    | none => true
    | some id => match lp.index.offsetOf id with
      | none => true
      | some offset =>
        match odb.read id, lp.pack.readAtWith .stored offset lp.index.offsetOf nowhere with
        | .ok a, .ok b => a == b
        | _, _ => false

/-- The files of a repository that is checked: that of the object, and one index. -/
theorem files_of_checked {odb : CombinedOdb} {id : ObjectId} (h : checked odb id = true)
    {dir name : Str} {e : Entry Bytes} (he : odb.loose.fs.get? [dir, name] = some e) :
    (dir.length = 2 → [dir, name] = LooseOdb.loosePath id) ∧
      (dir = str "pack" → endsWith name (str ".idx") = true → name = str "pack-0.idx") := by
  rw [checked] at h
  simp only [Bool.and_eq_true, beq_iff_eq] at h
  obtain ⟨⟨⟨⟨⟨⟨-, hfiles⟩, -⟩, -⟩, -⟩, -⟩, -⟩ := h
  have hb := List.all_eq_true.mp hfiles _ (BTreeMap.get?_eq_some.mp he)
  simp only [Bool.and_eq_true, Bool.or_eq_true, bne_iff_ne, beq_iff_eq, Bool.not_eq_true'] at hb
  refine ⟨fun hlen => hb.1.resolve_left (not_not_intro hlen), fun hdir hends =>
    hb.2.resolve_left ?_⟩
  rintro (hne | hends')
  · exact hne hdir
  · rw [hends] at hends'
    cases hends'

/-- Its only loose object is the one it is checked for. -/
theorem loose_of_checked {odb : CombinedOdb} {id id' : ObjectId} (h : checked odb id = true)
    {e : Entry Bytes} (he : odb.loose.fs.get? (LooseOdb.loosePath id') = some e) : id' = id := by
  have hlen : (id'.toHex.take 2).length = 2 := by
    have := LooseOdb.two_lt_length_toHex id'
    rw [List.length_take]
    omega
  exact LooseOdb.loosePath_injective ((files_of_checked h he).1 hlen)

/-- **A repository that is checked** is well formed, and served as it is. -/
theorem copied_of_checked {odb : CombinedOdb} {id : ObjectId} {fs : GitDir}
    (hopen : Outside.sorted.openOdb .stored .sha fs .sha1 = .ok odb)
    (hchecked : checked odb id = true) :
    Copied (serving fs) .sorted odb ∧ WellFormed odb := by
  obtain ⟨hloose, hpacks, -⟩ := Outside.openOdb_ok hopen
  have hfs : odb.loose.fs = fs := by rw [hloose]; rfl
  have h := hchecked
  rw [checked] at h
  simp only [Bool.and_eq_true, beq_iff_eq] at h
  obtain ⟨⟨⟨⟨⟨⟨hplain, -⟩, hlist⟩, hidx⟩, hpack⟩, hread⟩, hcopies⟩ := h
  refine ⟨⟨?_, ?_, ?_, ?_, ?_, ?_⟩, ?_, ?_⟩
  · rw [hloose]
    rfl
  · rw [hloose]
    rfl
  · exact RefStore.plainNames_of_all hplain
  · intro dir name hdir _
    rw [hfs]
    exact get_serving hdir.2.2.1
  · refine ⟨_, str "P pack-0.pack\n", hlist, by decide, fun stem => ?_⟩
    rw [show (lines (str "P pack-0.pack\n")).filterMap packStem =
      [str "pack-0"] by decide, List.mem_singleton]
    constructor
    · rintro rfl
      exact ⟨hidx, hpack⟩
    · rintro ⟨hstem, -⟩
      obtain ⟨data, hdata⟩ := Option.isSome_iff_exists.mp hstem
      have hname := (files_of_checked hchecked (FileTree.leaf?_eq_some.mp hdata)).2 rfl
        (List.isSuffixOf_iff_suffix.mpr (List.suffix_append _ _))
      exact List.append_cancel_right hname
  · rw [hfs]
    exact hpacks
  · intro id' hid'
    rw [LooseOdb.contains_eq] at hid'
    obtain ⟨e, he⟩ := Option.isSome_iff_exists.mp hid'
    rw [loose_of_checked hchecked he]
    exact exists_ok hread
  · intro lp hlp id' offset hoffset
    obtain ⟨i, hi, -⟩ := Option.bind_eq_some_iff.mp hoffset
    obtain ⟨hlt, hat⟩ := PackIndex.positionOf_some hi
    have hc := List.all_eq_true.mp (List.all_eq_true.mp hcopies lp hlp) i (List.mem_range.mpr hlt)
    rw [hat] at hc
    simp only [hoffset] at hc
    split at hc
    · rename_i a b ha hb
      rw [beq_iff_eq] at hc
      refine ⟨a, ha, ?_⟩
      rw [hloose, hc]
      exact hb
    · cases hc

/-- A pack whose only object is a delta against itself. -/
def loop : Except Error GitDir :=
  addPack FileTree.empty (packHeader 1 ++ refEntry [121] 121) [(blobId [121], 12)]

/-- Whether the file of a loose object inflates within the bound of a dumb read. -/
def small (odb : CombinedOdb) (id : ObjectId) : Bool :=
  (odb.loose.fs.leaf? (LooseOdb.loosePath id)).all fun body =>
    (Zlib.stored.inflateCapped body maxLooseObject).toBool

/-- The repository passes the checks; the base of the object in the other pack is that object. -/
theorem servers_run :
    repository.toOption.map (fun odb => (checked odb (blobId [122]), small odb (blobId [122]),
      odb.alternates.length)) =
        some (true, true, 0) ∧
      loop.toOption.map (fun fs => baseOf (serving fs) (blobId [121])) =
        some (some (blobId [121])) := by
  decide +kernel

theorem capRefuses_stored : CapRefuses .stored := by
  intro data m m' a b h h'
  obtain ⟨r, hr, rfl⟩ := except_map_ok.mp h
  obtain ⟨r', hr', rfl⟩ := except_map_ok.mp h'
  have hcounted : Zlib.stored.inflateCounted = Zlib.inflateStored := rfl
  rw [hcounted] at hr hr'
  unfold Zlib.inflateStored at hr hr'
  split at hr
  · simp only at hr hr'
    split_ifs at hr hr'
    cases hr
    cases hr'
    rfl
  · cases hr

/-- Every read from the copy of the repository agrees with it: it has one loose object, which is
small enough, and no alternate. -/
theorem dumbReads_copy : ∃ odb, repository = .ok odb ∧ Copied (serving odb.loose.fs) .sorted odb ∧
    WellFormed odb ∧
    SmallLoose (serving odb.loose.fs) odb ∧ Alone odb ∧
      ∀ st, Reached (serving odb.loose.fs) st → ∀ id, ∃ m r st',
        read (serving odb.loose.fs) m id st = some (r, st') ∧ ∀ object, r = .ok object ↔
          odb.read id = .ok object := by
  obtain ⟨odb, hodb, hrun⟩ := Option.map_eq_some_iff.mp servers_run.1
  have hrepository : repository = .ok odb := by
    cases hr : repository with
    | error e => rw [hr] at hodb; cases hodb
    | ok odb' => rw [hr] at hodb; cases hodb; rfl
  simp only [Prod.mk.injEq] at hrun
  obtain ⟨hchecked, hinflates, halternates⟩ := hrun
  obtain ⟨fs, -, hopen⟩ := except_bind_ok.mp hrepository
  have hfs : odb.loose.fs = fs := by rw [(Outside.openOdb_ok hopen).1]; rfl
  obtain ⟨hcopied, hwf⟩ := copied_of_checked hopen hchecked
  rw [← hfs] at hcopied
  have hsmall : SmallLoose (serving odb.loose.fs) odb := by
    intro id body hbody
    rw [loose_of_checked hchecked (FileTree.leaf?_eq_some.mp hbody)] at hbody
    rw [small, hbody] at hinflates
    exact hinflates
  have halone : Alone odb := by
    intro id _ _
    rw [CombinedOdb.readAlternate, List.length_eq_zero_iff.mp halternates]
    rfl
  exact ⟨odb, hrepository, hcopied, hwf, hsmall, halone,
    ((dumbReads_iff (serving odb.loose.fs) 1).2 .sorted odb hcopied hwf capRefuses_stored).mpr
      ⟨hsmall, halone⟩⟩

/-- **No depth is enough**: there is a server whose one object is never read. -/
theorem not_dumbReads_bounded :
    (¬∃ n, ∀ cfg st, Reached cfg st → ∀ id, ∃ r st', read cfg n id st = some (r, st')) ∧
    ∃ cfg id, ∀ n, read cfg n id new = none := by
  obtain ⟨fs, -, hbase⟩ := Option.map_eq_some_iff.mp servers_run.2
  have hnot : ∀ n, ¬Within (serving fs) n (blobId [121]) := by
    intro n h
    induction n with
    | zero => cases h
    | succ n ih =>
      cases h with
      | last hnone =>
        rw [hbase] at hnone
        cases hnone
      | delta hsome hnext =>
        cases hbase.symm.trans hsome
        exact ih hnext
  have hnone : ∀ n, read (serving fs) n (blobId [121]) new = none := fun n =>
    read_eq_none (hnot n) (fun _ h => by cases h) fun _ => rfl
  refine ⟨?_, serving fs, blobId [121], hnone⟩
  rintro ⟨n, h⟩
  obtain ⟨r, st', hread⟩ := h (serving fs) new .new (blobId [121])
  rw [hnone n] at hread
  cases hread

end DumbSample

end DumbHttpOdb
end Puregit
