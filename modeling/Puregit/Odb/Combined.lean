import Puregit.Odb.Loose
import Puregit.Pack.Index

/-! # Loose objects and packs as one store

A read looks for the loose object first, then in the packs, then in the alternate
stores.  A delta in a pack whose base is not in that pack is rebuilt from the whole
store, one level deeper each time.

A failure further down comes up as it is: a base that is nowhere makes the object that
needs it look absent, and so does an alternate that holds the object and fails to
decode it.  `Decodes` says what a store can rebuild and `Dangles` where the bases of an
object lead to nothing; a read says that something is absent exactly then.
-/
namespace Puregit

/-- An object's type and payload. -/
abbrev RawObject := ObjectType × Bytes

/-- A pack and its index. -/
structure LoadedPack where
  index : PackIndex
  pack : Pack
  deriving DecidableEq

/-- Loose objects and packs. -/
structure ObjectStore where
  loose : LooseOdb
  packs : List LoadedPack

/-- A store with alternates, which are opened without alternates of their own. -/
structure CombinedOdb extends ObjectStore where
  alternates : List ObjectStore

namespace ObjectStore

/-- How many bases may be followed from one pack to another. -/
def maxDeltaDepth : Nat := 50

/-- The first pack with an offset for an id, and that offset. -/
def locate (s : ObjectStore) (id : ObjectId) : Option (LoadedPack × Nat) :=
  s.packs.findSome? fun lp => (lp.index.offsetOf id).map fun offset => (lp, offset)

/-- Reads an object; `left` more levels may be entered, and `elsewhere` answers for what is
not in the store. -/
def readDepth (s : ObjectStore) (elsewhere : Nat → ObjectId → Option RawObject) :
    Nat → ObjectId → Except Error RawObject
  | 0, _ => .error (.pack (str "delta chain too deep (possible cycle)"))
  | left + 1, id =>
    if s.loose.contains id then s.loose.read id
    else match s.locate id with
      | some (lp, offset) =>
        lp.pack.readAtWith s.loose.zlib offset lp.index.offsetOf fun base =>
          readDepth s elsewhere left base
      | none =>
        match elsewhere (left + 1) id with
        | some object => .ok object
        | none => .error (objectNotFound id)

/-- Whether an object is loose or listed in an index. -/
def contains (s : ObjectStore) (id : ObjectId) : Bool :=
  s.loose.contains id || s.packs.any fun lp => lp.index.contains id

end ObjectStore

namespace CombinedOdb

/-- The first alternate that reads an object. -/
def readAlternate (odb : CombinedOdb) (left : Nat) (id : ObjectId) : Option RawObject :=
  odb.alternates.findSome? fun alt => (alt.readDepth (fun _ _ => none) left id).toOption

/-- Reads an object. -/
def read (odb : CombinedOdb) (id : ObjectId) : Except Error RawObject :=
  odb.readDepth odb.readAlternate (ObjectStore.maxDeltaDepth + 1) id

/-- Whether an object is in a backend. -/
def contains (odb : CombinedOdb) (id : ObjectId) : Bool :=
  odb.toObjectStore.contains id || odb.alternates.any fun alt => alt.contains id

/-- Stores a payload as a loose object. -/
def write (odb : CombinedOdb) (ty : ObjectType) (payload : Bytes) :
    Except Error ObjectId × CombinedOdb :=
  let (r, loose) := odb.loose.write ty payload
  (r, { odb with loose := loose })

instance : ObjectDatabase CombinedOdb where
  algo odb := odb.loose.algo
  contains := contains
  read := read
  write := write

end CombinedOdb

namespace Pack

/-! ## Where a chain of deltas ends -/

/-- The end of a chain: an object of the pack, or a base outside of it. -/
inductive ChainEnd where
  | whole (ty : ObjectType) (content : Bytes)
  | outside (id : ObjectId)
  deriving DecidableEq

/-- What the end of a chain holds. -/
def ChainEnd.object (resolve : ExternalResolver) : ChainEnd → Except Error RawObject
  | whole ty content => .ok (ty, content)
  | outside id => resolve id

/-- The end of the chain of the entry at `cur`, and the deltas on the way to it; no base
outside of the pack is looked up. -/
def chainEnd (z : Zlib) (p : Pack) (locate : ObjectId → Option Nat) :
    Nat → List Bytes → BTreeSet Nat → Nat → Except Error (ChainEnd × List Bytes)
  | 0, _, _, _ => .error (.pack (str "pack: delta chain too deep"))
  | left + 1, deltas, visited, cur =>
    if visited.contains cur then .error (.pack (str "pack: delta chain is cyclic"))
    else do
      let visited := visited.insert cur
      let (ptype, size, hdrLen) ← parseEntryHeaderAt p.data cur
      let body := cur + hdrLen
      match ptype with
      | .whole ty =>
        let content ← z.inflateCapped (p.data.drop body) size
        .ok (.whole ty content, deltas)
      | .ofsDelta =>
        let (rel, n) ← readOffsetVarint p.data body
        if rel = 0 then .error (.pack (str "pack: ofs-delta base is self-referential"))
        else if cur < rel then .error (.pack (str "pack: ofs-delta base before pack start"))
        else
          let delta ← z.inflateCapped (p.data.drop (body + n)) size
          chainEnd z p locate left (deltas ++ [delta]) visited (cur - rel)
      | .refDelta =>
        let baseId ← readBaseId p.algo p.data body
        let delta ← z.inflateCapped (p.data.drop (body + p.algo.rawLen)) size
        match locate baseId with
        | some baseOffset => chainEnd z p locate left (deltas ++ [delta]) visited baseOffset
        | none => .ok (.outside baseId, deltas ++ [delta])

variable {z : Zlib} {p : Pack} {locate : ObjectId → Option Nat}

/-- **Walking a chain is finding its end and taking what it holds.** -/
theorem walkChain_eq (resolve : ExternalResolver) (left : Nat) (deltas : List Bytes)
    (visited : BTreeSet Nat) (cur : Nat) :
    walkChain z p locate resolve left deltas visited cur =
      chainEnd z p locate left deltas visited cur >>= fun x =>
        (x.1.object resolve).map fun r => (r.1, r.2, x.2) := by
  induction left generalizing deltas visited cur with
  | zero => rfl
  | succ left ih =>
    unfold walkChain chainEnd
    by_cases hvisited : visited.contains cur = true
    · rw [if_pos hvisited, if_pos hvisited]
      rfl
    rw [if_neg hvisited, if_neg hvisited]
    simp only [bind_assoc]
    refine bind_congr fun ⟨ptype, size, hdrLen⟩ => ?_
    cases ptype with
    | whole ty =>
      simp only [bind_assoc]
      rfl
    | ofsDelta =>
      simp only [bind_assoc]
      refine bind_congr fun ⟨rel, n⟩ => ?_
      simp only
      by_cases hself : rel = 0
      · rw [if_pos hself, if_pos hself]
        rfl
      rw [if_neg hself, if_neg hself]
      by_cases hbefore : cur < rel
      · rw [if_pos hbefore, if_pos hbefore]
        rfl
      rw [if_neg hbefore, if_neg hbefore, bind_assoc]
      exact bind_congr fun delta => ih _ _ _
    | refDelta =>
      simp only [bind_assoc]
      refine bind_congr fun baseId => bind_congr fun delta => ?_
      cases locate baseId with
      | some baseOffset => exact ih _ _ _
      | none =>
        show (resolve baseId >>= _) = (resolve baseId).map _
        cases resolve baseId <;> rfl

end Pack
end Puregit
