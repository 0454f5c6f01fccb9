import Puregit.Lib.BTree
import Puregit.Lib.Exec
import Puregit.Lib.Sha
import Puregit.Oid

/-! # The object database

`ObjectDatabase` is the interface the rest of the program reads and writes objects
through; a database is a value of some type `D` and a write returns the next one.
Nothing is assumed of a database here: an instance may fail, forget or lie.

`MemoryOdb` is the in-memory map the tests of the program use.  The digest it names
objects with is a parameter, of which only the output length is fixed.
-/
namespace Puregit

/-- The digest functions: external code, of which the output length is known. -/
structure Hasher where
  digest : HashAlgo → Bytes → Bytes
  digest_length : ∀ algo data, (digest algo data).length = algo.rawLen

/-- The two digests git uses. -/
def Hasher.sha : Hasher where
  digest
    | .sha1 => Sha.sha1
    | .sha256 => Sha.sha256
  digest_length := by
    intro algo data
    cases algo
    · exact Sha.length_sha1 data
    · exact Sha.length_sha256 data

/-- The `"<type> <size>\0"` header of a loose object. -/
def looseHeader (ty : ObjectType) (len : Nat) : Bytes :=
  toUtf8 (ty.asStr ++ ' ' :: natStr len) ++ [0]

/-- The id of `content` stored as an object of type `ty`. -/
def hashObject (h : Hasher) (algo : HashAlgo) (ty : ObjectType) (content : Bytes) : ObjectId :=
  ⟨algo, h.digest algo (looseHeader ty content.length ++ content), h.digest_length _ _⟩

/-- Reading and writing git objects by id. -/
class ObjectDatabase (D : Type) where
  /-- The hash algorithm this database names objects with. -/
  algo : D → HashAlgo
  /-- Whether an object with the given id is present. -/
  contains : D → ObjectId → Bool
  /-- The type and payload of an object. -/
  read : D → ObjectId → Except Error (ObjectType × Bytes)
  /-- Stores a payload as an object of a type, returning its id. -/
  write : D → ObjectType → Bytes → Except Error ObjectId × D

namespace ObjectDatabase
variable {D : Type} [ObjectDatabase D]

/-- The payload of an object that has to be of type `expected`. -/
def readTyped (odb : D) (id : ObjectId) (expected : ObjectType) : Except Error Bytes := do
  let (ty, payload) ← read odb id
  if ty ≠ expected then .error (.unexpectedType expected ty)
  else .ok payload

/-- A write, as a computation over the database. -/
def put (ty : ObjectType) (payload : Bytes) : Exec D Error ObjectId :=
  Exec.step fun odb => write odb ty payload

/-- `odb'` comes from `odb` by writes that all satisfy `good`. -/
def Writes (good : ObjectType → Bytes → Prop) : D → D → Prop :=
  Relation.ReflTransGen fun odb odb' =>
    ∃ ty payload, good ty payload ∧ odb' = (write odb ty payload).2

instance (good : ObjectType → Bytes → Prop) : Std.Refl (Writes (D := D) good) :=
  ⟨fun _ => Relation.ReflTransGen.refl⟩

instance (good : ObjectType → Bytes → Prop) : IsTrans D (Writes (D := D) good) :=
  ⟨fun _ _ _ => Relation.ReflTransGen.trans⟩

theorem keeps_put {good : ObjectType → Bytes → Prop} {ty : ObjectType} {payload : Bytes}
    (h : good ty payload) : Exec.Keeps (Writes (D := D) good) (put ty payload) :=
  Exec.Keeps.step fun _ => Relation.ReflTransGen.single ⟨ty, payload, h, rfl⟩

end ObjectDatabase

/-- The error of a lookup of an absent object. -/
def objectNotFound (id : ObjectId) : Error := .notFound (.object id.toHex)

/-- A computation that does not fail because something is absent. -/
abbrev NeverAbsent {α : Type} (x : Except Error α) : Prop :=
  FailsOnly (fun e => e.isNotFound = false) x

theorem neverAbsent_ne {α : Type} {x : Except Error α} (h : NeverAbsent x) (hint : ObjectKindHint) :
    x ≠ .error (.notFound hint) := by
  intro he
  cases h _ he

/-- An object store kept in memory. -/
structure MemoryOdb where
  hasher : Hasher
  algo : HashAlgo
  objects : BTreeMap ObjectId (ObjectType × Bytes)

namespace MemoryOdb

/-- An empty store. -/
def new (h : Hasher) (algo : HashAlgo) : MemoryOdb := ⟨h, algo, BTreeMap.empty⟩

/-- Stores a payload; an object already there stays as it is. -/
def write (odb : MemoryOdb) (ty : ObjectType) (payload : Bytes) :
    Except Error ObjectId × MemoryOdb :=
  let id := hashObject odb.hasher odb.algo ty payload
  (.ok id, if odb.objects.contains id then odb
    else { odb with objects := odb.objects.insert id (ty, payload) })

instance : ObjectDatabase MemoryOdb where
  algo odb := odb.algo
  contains odb id := odb.objects.contains id
  read odb id :=
    match odb.objects.get? id with
    | some r => .ok r
    | none => .error (objectNotFound id)
  write := write

theorem read_of_some {odb : MemoryOdb} {id : ObjectId} {r : ObjectType × Bytes}
    (h : odb.objects.get? id = some r) :
    ObjectDatabase.read odb id = .ok r := by
  dsimp only [ObjectDatabase.read]
  rw [h]

theorem read_of_none {odb : MemoryOdb} {id : ObjectId} (h : odb.objects.get? id = none) :
    ObjectDatabase.read odb id = .error (objectNotFound id) := by
  dsimp only [ObjectDatabase.read]
  rw [h]

end MemoryOdb
end Puregit
