import Puregit.Protocol.Messages
import Puregit.Refs.Store
import Puregit.Server.Plan

/-! # Receiving a push

A push is a list of commands, and a pack if it has objects to bring.  The pack goes into
the object database first; then each command is checked against the refs and written, or,
for an `atomic` push, all are checked and then all written.
-/
namespace Puregit.Server
open ObjectDatabase PktLine

/-- An access policy: it allows a command or refuses it with a reason. -/
abbrev UpdateHook := RefUpdateCommand → Except Str Unit

/-- Reads the objects of a pack; bases outside it come from the reader passed. -/
abbrev ExplodePack := Bytes → HashAlgo → (ObjectId → Except Error (ObjectType × Bytes)) →
  Except Error (List (ObjectId × ObjectType × Bytes))

variable {D : Type} [ObjectDatabase D]

/-- Where the command section ends: after the first flush. -/
def splitAtFlushFrom (request : Bytes) : Nat → Nat → Except Error Nat
  | 0, off => .ok off
  | fuel + 1, off =>
    match decode (request.drop off) with
    | .error e => .error e
    | .ok (some (.flush, n)) => .ok (off + n)
    | .ok (some (_, n)) => splitAtFlushFrom request fuel (off + n)
    | .ok none => .error (.protocol (str "receive-pack: command list not flush-terminated"))

/-- Splits a request into its command section and what follows it. -/
def splitAtFlush (request : Bytes) : Except Error (Bytes × Bytes) :=
  (splitAtFlushFrom request (request.length + 1) 0).map fun n => (request.take n, request.drop n)

/-- Parses the commands of a request; what follows them is the pack. -/
def readPush (algo : HashAlgo) (request : Bytes) : Except Error (PushRequest × Bytes) := do
  let (commandBytes, pack) ← splitAtFlush request
  let packets ← decodeAll commandBytes
  let req ← PushRequest.parse algo packets
  .ok (req, pack)

/-- Writes objects, up to the first that fails. -/
def writeObjects (odb : D) : List (ObjectId × ObjectType × Bytes) → Except Error (List ObjectId) × D
  | [] => (.ok [], odb)
  | (_, ty, payload) :: rest =>
    match write odb ty payload with
    | (.error e, odb) => (.error e, odb)
    | (.ok id, odb) =>
      let (r, odb) := writeObjects odb rest
      (r.map (id :: ·), odb)

/-- Writes every object of a pack. -/
def ingestInto (explode : ExplodePack) (odb : D) (pack : Bytes) :
    Except Error (List ObjectId) × D :=
  match explode pack (algo odb) (read odb) with
  | .error e => (.error e, odb)
  | .ok objects => writeObjects odb objects

/-- Ingests the pack of a push, if it has one. -/
def unpackPush (explode : ExplodePack) (odb : D) (pack : Bytes) : Except Str Unit × D :=
  if (bytes "PACK").isPrefixOf pack then
    match ingestInto explode odb pack with
    | (.ok _, odb) => (.ok (), odb)
    | (.error e, odb) => (.error e.toStr, odb)
  else (.ok (), odb)

/-! ## One command -/

/-- Whether a branch moves forward. -/
def checkFastForward (odb : D) (cmd : RefUpdateCommand) : Except Str Unit :=
  if startsWith cmd.name (str "refs/heads/") then
    match isAncestor odb cmd.old cmd.new with
    | .error e => .error e.toStr
    | .ok true => .ok ()
    | .ok false => .error (str "non-fast-forward")
  else .ok ()

/-- Checks a command against the current refs and objects. -/
def checkCommand (odb : D) (refs : RefStore) (cmd : RefUpdateCommand) : Except Str Unit :=
  if cmd.new.isZero then
    if cmd.old.isZero then .ok ()
    else match refs.current cmd.name with
      | some cur => if cur = cmd.old then .ok () else .error (str "stale info")
      | none => .error (str "ref does not exist")
  else if !contains odb cmd.new then .error (str "missing necessary objects")
  else match cmd.old.isZero, refs.current cmd.name with
    | true, some _ => .error (str "ref already exists")
    | true, none => .ok ()
    | false, some cur =>
      if cur = cmd.old then checkFastForward odb cmd else .error (str "stale info")
    | false, none => .error (str "stale info")

/-- The text of an error. -/
def reason (r : Except Error Unit) : Except Str Unit :=
  match r with
  | .ok _ => .ok ()
  | .error e => .error e.toStr

/-- Writes a command that was checked. -/
def writeCommand (refs : RefStore) (cmd : RefUpdateCommand) : Except Str Unit × RefStore :=
  let (r, refs) := if cmd.new.isZero then refs.delete cmd.name
    else refs.update cmd.name (.direct cmd.new)
  (reason r, refs)

/-! ## All commands -/

/-- What is said about a command: the hook comes first. -/
def vet (odb : D) (hook : UpdateHook) (refs : RefStore) (cmd : RefUpdateCommand) :
    Except Str Unit :=
  match hook cmd with
  | .error reason => .error reason
  | .ok _ => checkCommand odb refs cmd

/-- Writes commands one after the other. -/
def writeCommands (refs : RefStore) : List RefUpdateCommand → List RefStatus × RefStore
  | [] => ([], refs)
  | cmd :: cmds =>
    let (result, refs) := writeCommand refs cmd
    let (statuses, refs) := writeCommands refs cmds
    (⟨cmd.name, result⟩ :: statuses, refs)

/-- What is reported of a command where some command of an atomic push is refused. -/
def refusal : Except Str Unit → Except Str Unit
  | .error reason => .error reason
  | .ok _ => .error (str "atomic push failure")

/-- The commands of an atomic push: all are vetted, and written if none is refused. -/
def applyAtomic (odb : D) (hook : UpdateHook) (refs : RefStore) (cmds : List RefUpdateCommand) :
    List RefStatus × RefStore :=
  if cmds.all fun cmd => (vet odb hook refs cmd).toBool then writeCommands refs cmds
  else (cmds.map fun cmd => ⟨cmd.name, refusal (vet odb hook refs cmd)⟩, refs)

/-- The commands of any other push: each is vetted and written by itself. -/
def applyEach (odb : D) (hook : UpdateHook) (refs : RefStore) :
    List RefUpdateCommand → List RefStatus × RefStore
  | [] => ([], refs)
  | cmd :: cmds =>
    let (result, refs) := match vet odb hook refs cmd with
      | .error reason => (.error reason, refs)
      | .ok _ => writeCommand refs cmd
    let (statuses, refs) := applyEach odb hook refs cmds
    (⟨cmd.name, result⟩ :: statuses, refs)

/-- Applies the commands of a push whose pack came in as `unpack` says. -/
def applyCommands (odb : D) (hook : UpdateHook) (refs : RefStore) (req : PushRequest)
    (unpack : Except Str Unit) : List RefStatus × RefStore :=
  if !unpack.toBool then
    (req.commands.map fun cmd => ⟨cmd.name, .error (str "unpacker error")⟩, refs)
  else if req.capabilities.has (str "atomic") then applyAtomic odb hook refs req.commands
  else applyEach odb hook refs req.commands

/-- What a push leaves: the report on it, if it could be read, and the object database and
refs. -/
structure Received (D : Type) where
  report : Except Error ReportStatus
  odb : D
  refs : RefStore

namespace Received

/-- The bytes of the response. -/
def response (r : Received D) : Except Error Bytes := r.report >>= ReportStatus.encode

end Received

/-- Accepts a push into an object database and a ref store. -/
def receivePackOver (explode : ExplodePack) (odb : D) (refs : RefStore) (request : Bytes)
    (hook : UpdateHook) : Received D :=
  match readPush (algo odb) request with
  | .error e => ⟨.error e, odb, refs⟩
  | .ok (req, pack) =>
    let (unpack, odb) := unpackPush explode odb pack
    let (statuses, refs) := applyCommands odb hook refs req unpack
    ⟨.ok ⟨unpack, statuses⟩, odb, refs⟩

/-- What a push that could be read comes to once its pack is in. -/
theorem receivePackOver_eq {explode : ExplodePack} {odb odb' : D} {refs : RefStore}
    {hook : UpdateHook} {request pack : Bytes} {req : PushRequest} {unpack : Except Str Unit}
    (hreq : readPush (algo odb) request = .ok (req, pack))
    (hunpack : unpackPush explode odb pack = (unpack, odb')) :
    receivePackOver explode odb refs request hook =
      ⟨.ok ⟨unpack, (applyCommands odb' hook refs req unpack).1⟩, odb',
        (applyCommands odb' hook refs req unpack).2⟩ := by
  rw [receivePackOver, hreq]
  simp only [hunpack]

/-! ## Pushes to an empty ref store -/

namespace PushSample
open FetchSample

/-- A ref store with no file. -/
def noRefs : RefStore := ⟨FileTree.empty, .sha1⟩

/-- A policy that allows everything. -/
def allow : UpdateHook := fun _ => .ok ()

/-- The reader of a server that is sent no pack. -/
def noPack : ExplodePack := fun _ _ _ => .ok []

/-- The command that creates a ref at `recent`. -/
def create (name : String) : RefUpdateCommand := ⟨ObjectId.zero .sha1, recent, str name⟩

end PushSample

end Puregit.Server
