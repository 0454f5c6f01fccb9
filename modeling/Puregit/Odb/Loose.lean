import Puregit.Compress
import Puregit.Object
import Puregit.Vfs

/-! # Loose objects

A loose object is a file of the object directory, named by the hex form of its id, that
holds the zlib stream of a header and the payload.  `LooseOdb.read` checks the header
and that the payload hashes to the id.
-/
namespace Puregit

/-- Parses a header and the payload behind it. -/
def parseLoose (data : Bytes) : Except Error (ObjectType × Bytes) :=
  match data.findIdx? (· = 32), data.findIdx? (· = 0) with
  | none, _ => .error (.parse (str "loose object: missing space in header"))
  | some _, none => .error (.parse (str "loose object: missing NUL in header"))
  | some space, some nul =>
    if nul < space then .error (.parse (str "loose object: malformed header"))
    else match fromUtf8 (data.take space) with
      | none => .error (.parse (str "loose object: non-utf8 type"))
      | some ty => do
        let ty ← ObjectType.fromStr ty
        match fromUtf8 ((data.take nul).drop (space + 1)) with
        | none => .error (.parse (str "loose object: non-utf8 size"))
        | some size =>
          match parseU64 size with
          | none => .error (.parse (str "loose object: invalid size"))
          | some size =>
            let payload := data.drop (nul + 1)
            if payload.length ≠ size then
              .error (.parse (str "loose object: declared size " ++ natStr size ++
                str " != payload length " ++ natStr payload.length))
            else .ok (ty, payload)

/-- The header and the payload of an object. -/
def serializeLoose (ty : ObjectType) (payload : Bytes) : Bytes :=
  looseHeader ty payload.length ++ payload

/-- A store of loose objects below an object directory. -/
structure LooseOdb where
  zlib : Zlib
  hasher : Hasher
  fs : GitDir
  algo : HashAlgo
  maxObjectSize : Nat

namespace LooseOdb

/-- The loose objects below a directory. -/
def new (z : Zlib) (h : Hasher) (fs : GitDir) (algo : HashAlgo) : LooseOdb :=
  ⟨z, h, fs, algo, 2 ^ 30⟩

/-- The path of an object. -/
def objectPath (id : ObjectId) : Str := id.toHex.take 2 ++ '/' :: id.toHex.drop 2

/-- Whether there is a file for an object. -/
def contains (odb : LooseOdb) (id : ObjectId) : Bool := Vfs.pathExists odb.fs (objectPath id)

/-- The type and payload of an object. -/
def read (odb : LooseOdb) (id : ObjectId) : Except Error (ObjectType × Bytes) :=
  if odb.contains id = false then .error (objectNotFound id)
  else do
    let compressed ← Vfs.read odb.fs (objectPath id)
    let raw ← odb.zlib.inflateCapped compressed odb.maxObjectSize
    let (ty, payload) ← parseLoose raw
    let computed := hashObject odb.hasher odb.algo ty payload
    if computed ≠ id then
      .error (.invalidOid (str "loose object " ++ id.toHex ++ str " hashes to " ++ computed.toHex))
    else .ok (ty, payload)

/-- Stores a payload; an object already there is not written again. -/
def write (odb : LooseOdb) (ty : ObjectType) (payload : Bytes) : Except Error ObjectId × LooseOdb :=
  let id := hashObject odb.hasher odb.algo ty payload
  if odb.contains id then (.ok id, odb)
  else match odb.zlib.deflate (serializeLoose ty payload) with
    | .error e => (.error e, odb)
    | .ok compressed =>
      match Vfs.write odb.fs (objectPath id) compressed with
      | .error e => (.error e, odb)
      | .ok fs => (.ok id, { odb with fs := fs })

instance : ObjectDatabase LooseOdb where
  algo odb := odb.algo
  contains := contains
  read := read
  write := write

/-! ## The errors of a read -/

theorem neverAbsent_inflateCapped {z : Zlib} (hz : z.ReportsCompression)
    (data : Bytes) (max : Nat) :
    NeverAbsent (z.inflateCapped data max) := by
  apply failsOnly_map
  intro e he
  obtain ⟨m, rfl⟩ := hz data max e he
  rfl

theorem neverAbsent_parseLoose (data : Bytes) : NeverAbsent (parseLoose data) := by
  have htype : ∀ s, NeverAbsent (ObjectType.fromStr s) := by
    intro s
    unfold ObjectType.fromStr
    split_ifs
    all_goals first | exact failsOnly_ok _ | exact failsOnly_error rfl
  unfold parseLoose
  split
  · exact failsOnly_error rfl
  · exact failsOnly_error rfl
  · split_ifs
    · exact failsOnly_error rfl
    · split
      · exact failsOnly_error rfl
      · refine failsOnly_bind (htype _) fun ty => ?_
        split
        · exact failsOnly_error rfl
        · split
          · exact failsOnly_error rfl
          · simp only
            split_ifs
            · exact failsOnly_error rfl
            · exact failsOnly_ok _

theorem neverAbsent_vfsRead (fs : GitDir) (path : Str) : NeverAbsent (Vfs.read fs path) := by
  have hresolve : NeverAbsent (Vfs.resolve path) := by
    unfold Vfs.resolve
    simp only
    split_ifs
    · exact failsOnly_error rfl
    · exact failsOnly_error rfl
    · exact failsOnly_error rfl
    · exact failsOnly_ok _
  have hstat : NeverAbsent (Vfs.stat fs path) := by
    apply failsOnly_bind hresolve
    intro r
    split
    · split_ifs
      · exact failsOnly_error rfl
      · exact failsOnly_ok _
    · exact failsOnly_ok _
    · unfold Vfs.absent
      split_ifs
      · exact failsOnly_error rfl
      · exact failsOnly_error rfl
  apply failsOnly_bind hstat
  intro e
  cases e with
  | leaf d => exact failsOnly_ok d
  | dir => exact failsOnly_error rfl

/-- **A loose object that is there is never reported absent.** -/
theorem neverAbsent_read {odb : LooseOdb} (hz : odb.zlib.ReportsCompression) {id : ObjectId}
    (h : odb.contains id = true) : NeverAbsent (odb.read id) := by
  unfold read
  rw [if_neg (by simp [h])]
  apply failsOnly_bind (neverAbsent_vfsRead _ _)
  intro compressed
  apply failsOnly_bind (neverAbsent_inflateCapped hz _ _)
  intro raw
  apply failsOnly_bind (neverAbsent_parseLoose raw)
  intro ⟨ty, payload⟩
  simp only
  split_ifs
  · exact failsOnly_error rfl
  · exact failsOnly_ok _

end LooseOdb
end Puregit
