import Puregit.Graph
import Puregit.Protocol.V2

/-! # Planning a fetch response

`plan` computes the objects a fetch sends and how the client's shallow boundary moves.
What the client holds is the closure of its haves cut at its boundary.  A deepening
request first selects the commits the client will have: by depth from the wanted tips,
by depth from the old boundary, or by date and excluded refs; then their trees are
closed over and what the client holds is left out.
-/
namespace Puregit.Server
open ObjectDatabase ObjectGraph

/-- What a session needs of the refs: resolving names, and the ids of the tags. -/
structure RefView where
  resolve : Str → Option ObjectId
  tags : List ObjectId

/-- The shallow-related arguments of a fetch. -/
structure Deepen where
  depth : Option Nat
  since : Option Int
  not : List Str
  relative : Bool
  deriving DecidableEq

/-- Whether the request changes the boundary at all. -/
def Deepen.isActive (d : Deepen) : Bool := d.depth.isSome || d.since.isSome || !d.not.isEmpty

/-- What a fetch asks for. -/
structure Want where
  wants : List ObjectId
  haves : List ObjectId
  clientShallow : List ObjectId
  deepen : Deepen
  deriving DecidableEq

/-- The planned response: the objects to pack, what the client provably holds, and the
boundary changes to announce. -/
structure Plan where
  objects : BTreeSet ObjectId
  clientHas : BTreeSet ObjectId
  shallow : List ObjectId
  unshallow : List ObjectId
  deriving DecidableEq

/-- The greatest 32-bit number. -/
def u32Max : Nat := 4294967295

/-- How many tags in a row are followed. -/
def tagLimit : Nat := 64

/-- What was wanted of the commits, the tips, and of everything else. -/
structure Tips where
  tips : List ObjectId
  extra : BTreeSet ObjectId

variable {D : Type} [ObjectDatabase D]

/-- Follows a want through tags to the commit a walk starts from, collecting the tags; a
tree or blob is collected as it is. -/
def collectTip (odb : D) : Nat → ObjectId → Tips → Except Error Tips
  | 0, _, t => .ok t
  | n + 1, cur, t => do
    match ← readPresent odb cur with
    | none => .ok t
    | some (.commit, _) => .ok { t with tips := t.tips ++ [cur] }
    | some (.tag, payload) =>
      let tag ← Tag.parse (algo odb) payload
      collectTip odb n tag.object { t with extra := t.extra.insert cur }
    | some (_, _) => .ok { t with extra := t.extra.insert cur }

/-- Collects every want. -/
def collectTips (odb : D) : List ObjectId → Tips → Except Error Tips
  | [], t => .ok t
  | want :: wants, t => do
      let t ← collectTip odb tagLimit want t
      collectTips odb wants t

/-- Follows tags from `id` to a commit; none if it ends elsewhere. -/
def peelToCommit (odb : D) : Nat → ObjectId → Except Error (Option ObjectId)
  | 0, _ => .ok none
  | n + 1, cur => do
    match ← readPresent odb cur with
    | none => .ok none
    | some (.commit, _) => .ok (some cur)
    | some (.tag, payload) =>
      let tag ← Tag.parse (algo odb) payload
      peelToCommit odb n tag.object
    | some (_, _) => .ok none

/-! ## The walks that select commits -/

/-- Visits one commit at a depth. -/
def depthVisit (odb : D) (depth : Nat) (best : BTreeMap ObjectId Nat) (item : ObjectId × Nat) :
    Except Error (Option (BTreeMap ObjectId Nat × List (ObjectId × Nat))) :=
  let (id, d) := item
  if reachedWithin best id d then .ok none
  else do
    match ← readCommit odb id with
    | none => .ok none
    | some commit =>
      .ok (some (best.insert id d, if d < depth then commit.parents.map fun p =>
        (p, d + 1) else []))

/-- The commits within `depth` of the tips, and those at `depth`. -/
def depthWalk (odb : D) (tips : List ObjectId) (depth : Nat) :
    Except Error (BTreeSet ObjectId × BTreeSet ObjectId) := do
  let depth := max depth 1
  let best ← Worklist.run (depthVisit odb depth) Worklist.queue (depthFuel depth) BTreeMap.empty
    (tips.map fun t => (t, 1))
  .ok (BTreeSet.ofList best.keys,
    BTreeSet.ofList ((best.toList.filter fun b => b.2 ≥ depth).map Prod.fst))

/-- The commits a walk has taken, and those it stopped at. -/
structure UntilState where
  included : BTreeSet ObjectId
  boundary : BTreeSet ObjectId

/-- Visits one commit; the walk does not go past one in `stop`. -/
def untilVisit (odb : D) (stop : BTreeSet ObjectId) (st : UntilState) (id : ObjectId) :
    Except Error (Option (UntilState × List ObjectId)) :=
  if st.included.contains id then .ok none
  else do
    match ← readCommit odb id with
    | none => .ok none
    | some commit =>
      let st := { st with included := st.included.insert id }
      if stop.contains id then .ok (some ({ st with boundary := st.boundary.insert id }, []))
      else .ok (some (st, commit.parents))

/-- The history of the tips up to the commits in `stop`, and those it reaches. -/
def walkUntil (odb : D) (tips : List ObjectId) (stop : BTreeSet ObjectId) :
    Except Error (BTreeSet ObjectId × BTreeSet ObjectId) := do
  let st ← Worklist.run (untilVisit odb stop) Worklist.stack ObjectId.fuel
    ⟨BTreeSet.empty, BTreeSet.empty⟩ tips.reverse
  .ok (st.included, st.boundary)

/-- Visits one commit of an ancestry; what is no commit is collected too. -/
def ancestryVisit (odb : D) (seen : BTreeSet ObjectId) (id : ObjectId) :
    Except Error (Option (BTreeSet ObjectId × List ObjectId)) :=
  if seen.contains id then .ok none
  else do
    match ← readCommit odb id with
    | none => .ok (some (seen.insert id, []))
    | some commit => .ok (some (seen.insert id, commit.parents))

/-- Every commit reachable from `roots`. -/
def commitAncestry (odb : D) (roots : List ObjectId) : Except Error (BTreeSet ObjectId) :=
  Worklist.run (ancestryVisit odb) Worklist.stack ObjectId.fuel BTreeSet.empty roots.reverse

/-- The commits selected so far, with their parents. -/
structure RevListState where
  included : BTreeSet ObjectId
  parentsOf : BTreeMap ObjectId (List ObjectId)

/-- Whether a commit is older than the date of a request. -/
def tooOld (since : Option Int) (c : Commit) : Bool := since.any fun s => c.committer.time < s

/-- Visits one commit; an excluded or too old one is passed over with its history. -/
def revListVisit (odb : D) (excluded : BTreeSet ObjectId) (since : Option Int)
    (st : RevListState) (id : ObjectId) :
    Except Error (Option (RevListState × List ObjectId)) :=
  if st.included.contains id || excluded.contains id then .ok none
  else do
    match ← readCommit odb id with
    | none => .ok none
    | some commit =>
      if tooOld since commit then .ok none
      else .ok (some (⟨st.included.insert id, st.parentsOf.insert id commit.parents⟩,
        commit.parents))

/-- The commits the excluded refs name. -/
def notRoots (odb : D) (refs : RefView) : List Str → Except Error (List ObjectId)
  | [] => .ok []
  | name :: names =>
    match refs.resolve name with
    | none => .error (.protocol (str "deepen-not: " ++ name ++ str " is not a ref"))
    | some id => do
      let c ← peelToCommit odb tagLimit id
      let rest ← notRoots odb refs names
      .ok (c.toList ++ rest)

/-- The commits of the tips' history selected by date and excluded refs, and those with
a parent that is not. -/
def revListWalk (odb : D) (refs : RefView) (tips : List ObjectId) (deepen : Deepen) :
    Except Error (BTreeSet ObjectId × BTreeSet ObjectId) := do
  let roots ← notRoots odb refs deepen.not
  let excluded ← commitAncestry odb roots
  let st ← Worklist.run (revListVisit odb excluded deepen.since) Worklist.stack ObjectId.fuel
    ⟨BTreeSet.empty, BTreeMap.empty⟩ tips.reverse
  if st.included.toList.isEmpty then
    .error (.protocol (str "no commits selected for shallow requests"))
  else
    .ok (st.included, BTreeSet.ofList
      ((st.parentsOf.toList.filter fun b => b.2.any fun p => !st.included.contains p).map Prod.fst))

/-! ## The plan -/

/-- The objects a client with these haves and this boundary holds. -/
def clientHoldings (odb : D) (haves : List ObjectId) (clientShallow : BTreeSet ObjectId) :
    Except Error (BTreeSet ObjectId) :=
  if clientShallow.toList.isEmpty then reachableObjects odb haves
  else do
    let view ← shallowObjectsToSend odb haves u32Max clientShallow
    -- an unknown root id counts as collected, but nobody holds it
    .ok (view.objects.retain (contains odb))

/-- The commits a deepening request selects, and their boundary. -/
def selectCommits (odb : D) (refs : RefView) (clientShallow : BTreeSet ObjectId)
    (tips : List ObjectId) (deepen : Deepen) :
    Except Error (BTreeSet ObjectId × BTreeSet ObjectId) :=
  match deepen.depth, deepen.relative with
  | some depth, false => depthWalk odb tips depth
  | some depth, true => do
      let starts := clientShallow.toList.filter (contains odb)
      let (_, newBoundary) ← depthWalk odb starts (min (depth + 1) u32Max)
      walkUntil odb tips newBoundary
  | none, _ => revListWalk odb refs tips deepen

/-- The trees of commits. -/
def treeRoots (odb : D) : List ObjectId → Except Error (List ObjectId)
  | [] => .ok []
  | c :: cs => do
      let commit ← readCommit odb c
      let rest ← treeRoots odb cs
      .ok ((commit.map Commit.tree).toList ++ rest)

/-- Adds the closures of ids the client does not hold. -/
def addClosures (odb : D) (clientHas : BTreeSet ObjectId) :
    List ObjectId → BTreeSet ObjectId → Except Error (BTreeSet ObjectId)
  | [], objects => .ok objects
  | e :: es, objects =>
    if clientHas.contains e then addClosures odb clientHas es objects
    else do
      let closure ← reachableObjectsExcluding odb [e] clientHas
      addClosures odb clientHas es (objects.extend closure.toList)

/-- The wants that are not among the haves. -/
def Want.asked (req : Want) : List ObjectId := req.wants.filter fun w => !req.haves.contains w

/-- Plans a fetch response. -/
def plan (odb : D) (refs : RefView) (req : Want) : Except Error Plan := do
  let clientShallow := BTreeSet.ofList req.clientShallow
  let haves := req.haves.filter (contains odb)
  let clientHas ← clientHoldings odb haves clientShallow
  if !req.deepen.isActive then
    let objects ← reachableObjectsExcluding odb req.wants clientHas
    .ok ⟨objects.extend req.asked, clientHas, [], []⟩
  else do
    let t ← collectTips odb req.wants ⟨[], BTreeSet.empty⟩
    let (included, boundary) ← selectCommits odb refs clientShallow t.tips req.deepen
    let roots ← treeRoots odb included.toList
    let objects ← reachableObjectsExcluding odb roots clientHas
    let objects := objects.extend (included.toList.filter fun c => !clientHas.contains c)
    let objects ← addClosures odb clientHas t.extra.toList objects
    .ok ⟨objects.extend req.asked, clientHas,
      boundary.toList.filter fun c => !clientShallow.contains c,
      req.clientShallow.filter fun c => included.contains c && !boundary.contains c⟩

/-! ## A small server -/

namespace FetchSample

/-- The id of the empty tree. -/
def emptyTree : ObjectId := .emptyTree

/-- The id of a root commit of time 50. -/
def first : ObjectId :=
  ⟨.sha1, [0x56, 0x6e, 0x8a, 0xd8, 0xa3, 0x30, 0x74, 0x68, 0x7c, 0xd9,
  0x8b, 0xea, 0xfe, 0x38, 0xd3, 0xa5, 0x44, 0x59, 0x0a, 0xd9], rfl⟩

/-- The id of its child, of time 100. -/
def old : ObjectId :=
  ⟨.sha1, [0x80, 0xb5, 0xdb, 0xf0, 0x6c, 0xcc, 0x33, 0x1b, 0xce, 0x8c,
  0xcb, 0x2f, 0x88, 0xf3, 0x8d, 0x2f, 0x65, 0x64, 0xfe, 0xb7], rfl⟩

/-- The id of another root commit, of time 200. -/
def recent : ObjectId :=
  ⟨.sha1, [0x70, 0x02, 0x6b, 0x69, 0x71, 0x66, 0xb1, 0xdc, 0xda, 0x95,
  0xab, 0x76, 0x5e, 0x4e, 0xf0, 0x49, 0xe4, 0x59, 0xb1, 0x35], rfl⟩

/-- The stamp `a <a> time +0000`. -/
def stamp (time : Int) : Signature := ⟨[97], [97], time, [43, 48, 48, 48, 48]⟩

/-- A commit of the empty tree with a message of one byte. -/
def commitAt (parents : List ObjectId) (time : Int) (m : UInt8) : Commit :=
  ⟨emptyTree, parents, stamp time, stamp time, [], [m]⟩

/-- A store of the three commits. -/
def store : MemoryOdb where
  hasher := .sha
  algo := .sha1
  objects := BTreeMap.ofList [(emptyTree, .tree, []),
    (first, .commit, (commitAt [] 50 114).serialize),
    (old, .commit, (commitAt [first] 100 111).serialize),
    (recent, .commit, (commitAt [] 200 110).serialize)]

/-- The id of a child of `old`, of time 150. -/
def newest : ObjectId :=
  ⟨.sha1, [0x0f, 0xa0, 0x92, 0x0d, 0x5d, 0x47, 0xd3, 0xd2, 0x28, 0x99,
  0x31, 0x18, 0x50, 0x07, 0x5e, 0x68, 0xbb, 0x24, 0xdb, 0xad], rfl⟩

/-- The id of an annotated tag of `old`. -/
def mark : ObjectId :=
  ⟨.sha1, [0x89, 0xf8, 0x2c, 0x7d, 0x6c, 0xda, 0x69, 0x4f, 0x38, 0x49,
  0x76, 0x66, 0xfc, 0x4d, 0x4a, 0x45, 0xdf, 0x92, 0x3f, 0x22], rfl⟩

/-- The payload of the tag. -/
def markPayload : Bytes :=
  bytes "object 80b5dbf06ccc331bce8ccb2f88f38d2f6564feb7\ntype commit\ntag v\n" ++
    bytes "tagger a <a> 100 +0000\n\nv"

/-- A store of a chain of three commits, with a tag of the one in the middle. -/
def chainStore : MemoryOdb where
  hasher := .sha
  algo := .sha1
  objects := BTreeMap.ofList [(emptyTree, .tree, []),
    (first, .commit, (commitAt [] 50 114).serialize),
    (old, .commit, (commitAt [first] 100 111).serialize),
    (newest, .commit, (commitAt [old] 150 120).serialize),
    (mark, .tag, markPayload)]

/-- No refs. -/
def noRefs : RefView := ⟨fun _ => none, []⟩

end FetchSample

end Puregit.Server
