import Puregit.Pack.Writer
import Puregit.Server.Plan

/-! # The pack of a response

A pack holds the objects of a plan that the filter of a partial clone keeps; wanted
objects are kept whatever the filter says.  With `include-tag` the tags whose target is
sent are added to the plan first.  The objects are queued in a `PackWriter`; turning
these into bytes is left to the caller.
-/
namespace Puregit.Server
open ObjectDatabase PktLine

/-! ## Object filters -/

/-- A parsed object filter. -/
inductive ObjectFilter where
  | blobNone
  | blobLimit (n : Nat)
  | treeNone
  | none
  deriving DecidableEq

/-- Parses a byte count with an optional suffix; the product wraps at 64 bits. -/
def parseSize (text : Str) : Option Nat :=
  let text := trim text
  let (digits, mult) := match text.getLast? with
    | some 'k' | some 'K' => (text.dropLast, 1024)
    | some 'm' | some 'M' => (text.dropLast, 1024 * 1024)
    | some 'g' | some 'G' => (text.dropLast, 1024 * 1024 * 1024)
    | _ => (text, 1)
  (parseU64 digits).map fun n => n * mult % 2 ^ 64

namespace ObjectFilter

/-- Parses a filter spec; an unknown one filters nothing. -/
def parse (spec : Str) : ObjectFilter :=
  let spec := trim spec
  if spec = str "blob:none" then .blobNone
  else if spec = str "tree:0" then .treeNone
  else match (stripPrefix? (str "blob:limit=") spec).bind parseSize with
    | some n => .blobLimit n
    | Option.none => .none

/-- The filter of a request. -/
def fromSpec (spec : Option Str) : ObjectFilter := (spec.map parse).getD .none

/-- Whether a blob of a size is kept. -/
def keepsBlob (f : ObjectFilter) (size : Nat) : Bool :=
  match f with
  | .blobNone | .treeNone => false
  | .blobLimit limit => size < limit
  | .none => true

/-- Whether an object of a type and size is kept. -/
def keeps (f : ObjectFilter) (ty : ObjectType) (size : Nat) : Bool :=
  match ty with
  | .blob => f.keepsBlob size
  | .tree => f ≠ .treeNone
  | .commit | .tag => true

end ObjectFilter

/-! ## Building a pack -/

/-- How many client-held objects are offered as delta bases. -/
def thinPackBaseCap : Nat := 2000

variable {D : Type} [ObjectDatabase D]

/-- The tags from `cur` on, and what the chain of them ends at. -/
def tagChain (odb : D) : Nat → ObjectId → List ObjectId → Except Error (List ObjectId × ObjectId)
  | 0, cur, chain => .ok (chain, cur)
  | n + 1, cur, chain =>
    match read odb cur with
    | .ok (.tag, payload) => do
      let tag ← Tag.parse (algo odb) payload
      tagChain odb n tag.object (chain ++ [cur])
    | _ => .ok (chain, cur)

/-- Adds the tags whose target a plan sends and that the client does not hold. -/
def includeTags (odb : D) : List ObjectId → Plan → Except Error Plan
  | [], plan => .ok plan
  | tag :: tags, plan => do
    let (chain, target) ← tagChain odb tagLimit tag []
    if !chain.isEmpty && plan.objects.contains target then
      includeTags odb tags { plan with
        objects := plan.objects.extend (chain.filter fun t => !plan.clientHas.contains t) }
    else includeTags odb tags plan

/-- Queues the objects of a list that the filter keeps or that are wanted. -/
def addObjects (odb : D) (filter : ObjectFilter) (wanted : BTreeSet ObjectId) :
    List ObjectId → PackWriter → Except Error PackWriter
  | [], writer => .ok writer
  | id :: ids, writer => do
    let (ty, payload) ← read odb id
    if !wanted.contains id && !filter.keeps ty payload.length then
      addObjects odb filter wanted ids writer
    else addObjects odb filter wanted ids (writer.add ty payload)

/-- Offers objects as delta bases, those that can be read. -/
def addBases (odb : D) : List ObjectId → PackWriter → PackWriter
  | [], writer => writer
  | id :: ids, writer =>
    match read odb id with
    | .ok (ty, payload) => addBases odb ids (writer.addExternalBase ty payload)
    | .error _ => addBases odb ids writer

/-- The writer of a response, with everything added to it. -/
def buildPack (hasher : Hasher) (odb : D) (plan : Plan) (filter : Option Str)
    (wanted : List ObjectId) (thin : Bool) : Except Error PackWriter := do
  let writer ← addObjects odb (ObjectFilter.fromSpec filter) (BTreeSet.ofList wanted)
    plan.objects.toList (PackWriter.new hasher (algo odb))
  .ok (if thin then addBases odb (plan.clientHas.toList.take thinPackBaseCap) writer else writer)

/-! ## Framing -/

/-- The body of a v0/v1 response: raw, or multiplexed and ended by a flush. -/
def encodePackStream (caps : Capabilities) (pack : Bytes) : Except Error Bytes :=
  if caps.has (str "side-band-64k") then (sideband (maxPktlineLen - 5) pack).map (· ++ flushPkt)
  else if caps.has (str "side-band") then (sideband (1000 - 5) pack).map (· ++ flushPkt)
  else .ok pack

/-- The shallow section of a v0/v1 response. -/
def encodeShallowSection (plan : Plan) : Except Error Bytes := do
  let lines ← ReportStatus.encodeLines
    (idLines (str "shallow ") plan.shallow ++ idLines (str "unshallow ") plan.unshallow)
  .ok (lines ++ flushPkt)

end Puregit.Server
