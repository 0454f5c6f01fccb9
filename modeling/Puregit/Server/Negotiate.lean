import Puregit.Server.Plan

/-! # Have negotiation

The server's half of the v0/v1 negotiation: it is fed each have, each flush and the
final done, and answers with acknowledgment lines.  `okToGiveUp` decides when every
wanted commit reaches something the client has.
-/
namespace Puregit.Server
open ObjectDatabase PktLine

/-- The acknowledgment mode a fetch negotiated. -/
inductive AckMode where
  | single
  | multi
  | detailed
  deriving DecidableEq

/-- The richest mode the client asked for. -/
def AckMode.fromCaps (caps : Capabilities) : AckMode :=
  if caps.has (str "multi_ack_detailed") then .detailed
  else if caps.has (str "multi_ack") then .multi
  else .single

variable {D : Type} [ObjectDatabase D]

/-- How many commits are visited before the server keeps negotiating. -/
def giveUpWalkCap : Nat := 100000

/-- What a walk towards a set of targets has seen, and whether it found one. -/
structure ReachState where
  seen : BTreeSet ObjectId
  found : Bool

/-- Visits one commit on the way to a target. -/
def reachVisit (odb : D) (targets : BTreeSet ObjectId) (st : ReachState) (id : ObjectId) :
    Except Error (Option (ReachState × List ObjectId)) :=
  if st.found then .ok none
  else if targets.contains id then .ok (some ({ st with found := true }, []))
  else if st.seen.contains id then .ok none
  else
    let st := { st with seen := st.seen.insert id }
    if st.seen.size > giveUpWalkCap then .ok (some (st, []))
    else do
      match ← readCommit odb id with
      | none => .ok (some (st, []))
      | some commit => .ok (some (st, commit.parents))

/-- Whether a commit or one of its ancestors is a target. -/
def reachesAny (odb : D) (start : ObjectId) (targets : BTreeSet ObjectId) : Except Error Bool := do
  let st ← Worklist.run (reachVisit odb targets) Worklist.queue (ObjectId.fuel + 1)
    ⟨BTreeSet.empty, false⟩ [start]
  .ok st.found

/-- Whether each of the wants reaches a target; one that is no commit is satisfied. -/
def allReach (odb : D) (targets : BTreeSet ObjectId) : List ObjectId → Except Error Bool
  | [] => .ok true
  | want :: wants => do
    match ← peelToCommit odb tagLimit want with
    | none => allReach odb targets wants
    | some start =>
      if ← reachesAny odb start targets then allReach odb targets wants else .ok false

/-- Whether every wanted commit reaches a common object. -/
def okToGiveUp (odb : D) (wants : List ObjectId) (common : BTreeSet ObjectId) :
    Except Error Bool :=
  if common.toList.isEmpty then .ok false else allReach odb common wants

/-- The server's half of the negotiation: the common objects in the order announced,
and what the current round has seen. -/
structure Negotiator where
  mode : AckMode
  common : List ObjectId
  commonSet : BTreeSet ObjectId
  gotCommon : Bool
  gotOther : Bool

namespace Negotiator

/-- A negotiation at its start. -/
def new (mode : AckMode) : Negotiator := ⟨mode, [], BTreeSet.empty, false, false⟩

/-- The acknowledgment of a common object. -/
def ackLine (n : Negotiator) (oid : ObjectId) : Option Str :=
  match n.mode with
  | .detailed => some (str "ACK " ++ oid.toHex ++ str " common\n")
  | .multi => some (str "ACK " ++ oid.toHex ++ str " continue\n")
  | .single => if n.common.length = 1 then some (str "ACK " ++ oid.toHex ++ ['\n']) else none

/-- Processes one have. -/
def have_ (odb : D) (n : Negotiator) (oid : ObjectId) : Except Error (Negotiator × Bytes) :=
  if !contains odb oid then .ok ({ n with gotOther := true }, [])
  else
    let n := { n with
      gotCommon := true
      common := if n.commonSet.contains oid then n.common else n.common ++ [oid]
      commonSet := n.commonSet.insert oid }
    match n.ackLine oid with
    | none => .ok (n, [])
    | some line => (encodeLine line).map fun out => (n, out)

/-- The line that says a pack can be built, when the round just ended allows it. -/
def readyLine (odb : D) (wants : List ObjectId) (n : Negotiator) : Except Error Bytes :=
  if n.mode = .detailed && n.gotCommon && !n.gotOther then do
    if ← okToGiveUp odb wants n.commonSet then
      match n.common.getLast? with
      | none => .ok []
      | some last => encodeLine (str "ACK " ++ last.toHex ++ str " ready\n")
    else .ok []
  else .ok []

/-- Processes the flush that ends a round. -/
def flush (odb : D) (wants : List ObjectId) (n : Negotiator) :
    Except Error (Negotiator × Bytes) := do
  let ready ← readyLine odb wants n
  let nak ← if n.common.isEmpty || n.mode ≠ .single then encodeLine (str "NAK\n") else .ok []
  .ok ({ n with gotCommon := false, gotOther := false }, ready ++ nak)

/-- Processes done: the final acknowledgment before the pack. -/
def done (n : Negotiator) : Except Error Bytes :=
  match n.common.getLast? with
  | some last =>
    if n.mode ≠ .single then encodeLine (str "ACK " ++ last.toHex ++ ['\n']) else .ok []
  | none => encodeLine (str "NAK\n")

end Negotiator

end Puregit.Server
